import Gorillats.EncodeChunks
/-!
# Window — the encoder's window over whole runs

A block keeps the window of a XOR that may lie far back, its leading zeros cut to 31.  In every state that
`gt_val_encode` leaves, the window is inside the width (`winOk_of_reaches`), so the guard of its reuse decides nothing
(`reuses_iff_covers`), and the field of either branch holds its XOR whole (`Lossless`).
-/
namespace Gorillats

/-! ## Reached states -/

/-- **The encoder's states**: fresh, or left by a value of `width` bits put on any writer. -/
inductive ValReaches (width : Nat) : GtValState → Prop where
  | init : ValReaches width {}
  | encode {s : GtValState} (h : ValReaches width s) (w : GtWriter) (bits : U64) (hb : bits.toNat < 2 ^ width) :
      ValReaches width (gtValEncode w s bits width).2

theorem ValReaches.next {width : Nat} {s : GtValState} (h : ValReaches width s) {bits : U64}
    (hb : bits.toNat < 2 ^ width) : ValReaches width (s.next width bits) := by
  have hnext := h.encode (gtWriterInit [] 0) bits hb
  rwa [gtValEncode_eq] at hnext

theorem winOk_of_reaches {width : Nat} (hw : width ≤ 64) {s : GtValState} (h : ValReaches width s) :
    WinOk width s := by
  induction h with
  | init => exact winOk_init width
  | encode _ w bits hb ih =>
    rw [gtValEncode_eq]
    exact ih.next hw hb

/-! ## The fields -/

/-- The previous block's window covers the XOR's own. -/
def GtValState.covers (s : GtValState) (x : U64) (width : Nat) : Prop :=
  s.hasBlock = true ∧ xorLz x width ≥ s.prevLz ∧ gtCtz64 x ≥ s.prevTz

section Branches

variable {width : Nat} {s : GtValState} {x : U64}

/-- The guard on the window's size decides nothing. -/
theorem reuses_iff_covers (hs : WinOk width s) : s.reuses x width ↔ s.covers x width := by
  constructor
  · rintro ⟨hblock, hlz, htz, -⟩
    exact ⟨hblock, hlz, htz⟩
  · rintro ⟨hblock, hlz, htz⟩
    obtain ⟨-, -, -, hsum⟩ := hs.window hblock
    exact ⟨hblock, hlz, htz, by omega⟩

theorem gtValEncode_reuse (w : GtWriter) {bits : U64} (hv : s.hasValue = true) (hx : bits ^^^ s.prevBits ≠ 0)
    (hr : s.reuses (bits ^^^ s.prevBits) width) :
    gtValEncode w s bits width =
      (gtPutBits (gtPutBit (gtPutBit w true) false) ((bits ^^^ s.prevBits) >>> s.prevTz.toNat)
        (width - s.prevLz - s.prevTz).toNat, { s with prevBits := bits }) := by
  unfold gtValEncode
  rw [hv, if_neg (by decide)]
  exact (if_neg hx).trans (if_pos hr)

theorem gtValEncode_block (w : GtWriter) {bits : U64} (hv : s.hasValue = true) (hx : bits ^^^ s.prevBits ≠ 0)
    (hr : ¬ s.reuses (bits ^^^ s.prevBits) width) :
    gtValEncode w s bits width =
      (gtPutBits (gtPutBits (gtPutBits (gtPutBit (gtPutBit w true) true)
          (BitVec.ofInt 64 (xorLz (bits ^^^ s.prevBits) width)) 5)
          (BitVec.ofInt 64 (width - xorLz (bits ^^^ s.prevBits) width - gtCtz64 (bits ^^^ s.prevBits) - 1)) 6)
          ((bits ^^^ s.prevBits) >>> (gtCtz64 (bits ^^^ s.prevBits)).toNat)
          (width - xorLz (bits ^^^ s.prevBits) width - gtCtz64 (bits ^^^ s.prevBits)).toNat,
        { s with
          prevBits := bits
          prevLz := xorLz (bits ^^^ s.prevBits) width
          prevTz := gtCtz64 (bits ^^^ s.prevBits)
          hasBlock := true }) := by
  unfold gtValEncode
  rw [hv, if_neg (by decide)]
  exact (if_neg hx).trans (if_neg hr)

end Branches

/-! ## The compressor -/

section Compressor

variable {T : ValueType}

/-- A compressor whose value state is one that its encoder reaches. -/
structure Coding (T : ValueType) (c : GorillatsCompressor) : Prop where
  width : c.width = T.width
  vs    : ValReaches T.width c.vs

theorem coding_create {buf : Option (List U8)} {t0 : I64} {c : GorillatsCompressor} (h : T.create buf t0 = some c) :
    Coding T c := by
  rw [T.create_eq] at h
  unfold gtCompressorCreate at h
  cases buf with
  | none => cases h
  | some buf =>
    by_cases h8 : buf.length < 8
    · simp [h8] at h
    · simp only [if_neg h8, Option.some.injEq] at h
      subst h
      exact ⟨rfl, .init⟩

theorem Coding.encodePoint {c : GorillatsCompressor} (h : Coding T c) (p : Point T) :
    Coding T (encodePoint T.width c p.1 (T.toBits p.2)) :=
  ⟨h.width, h.vs.encode _ _ (T.toBits_lt p.2)⟩

/-- A batch that overflows stops in a state of its own, which is reached all the same. -/
theorem Coding.compressLoop : ∀ (pts : List (Point T)) {c : GorillatsCompressor}, Coding T c →
    Coding T (compressLoop T.width c (pts.map fun p => (p.1, T.toBits p.2))).2
  | [], _, h => h
  | p :: pts, c, h => by
    have h' := h.encodePoint p
    rw [List.map_cons, Gorillats.compressLoop]
    simp only
    split
    · exact h'
    · exact h'.compressLoop pts

theorem Coding.call {c : GorillatsCompressor} (h : Coding T c) (call : Call T) :
    ∃ r c', call.run (some c) = (r, some c') ∧ Coding T c' := by
  cases call with
  | compress p => exact ⟨_, _, by rw [Call.run, T.compress_some h.width], h.encodePoint p⟩
  | batch pts => exact ⟨_, _, Call.run_batch h.width pts, h.compressLoop pts⟩

theorem Coding.runCalls : ∀ (calls : List (Call T)) {c : GorillatsCompressor}, Coding T c →
    ∃ rs c', runCalls (some c) calls = (rs, some c') ∧ Coding T c'
  | [], c, h => ⟨[], c, rfl, h⟩
  | call :: calls, c, h => by
    obtain ⟨r, c₁, hcall, h₁⟩ := h.call call
    obtain ⟨rs, c₂, hcalls, h₂⟩ := h₁.runCalls calls
    refine ⟨r :: rs, c₂, ?_, h₂⟩
    rw [Gorillats.runCalls, hcall]
    simp only
    rw [hcalls]

/-- **Whatever calls a compressor gets**, overflowing or not, its window is inside the width. -/
theorem winOk_runCalls {buf : Option (List U8)} {t0 : I64} {c : GorillatsCompressor} (h : T.create buf t0 = some c)
    (calls : List (Call T)) : ∃ rs c', runCalls (some c) calls = (rs, some c') ∧ WinOk T.width c'.vs := by
  obtain ⟨rs, c', hrun, hcoding⟩ := (coding_create h).runCalls calls
  exact ⟨rs, c', hrun, winOk_of_reaches T.width_le hcoding.vs⟩

end Compressor

/-! ## The window and the fields -/

/-- **The encoder's window, and what its fields hold.**  In every state of a run the window of a block is inside the
width, with its leading zeros in five bits.  A next value whose XOR is not zero goes into that window exactly when its
own is inside it, and otherwise into a new block, whose leading zeros and size fit their fields; neither field loses
anything of the XOR. -/
theorem encoder_window (width : Nat) (hw : width ≤ 64) (s : GtValState) (hs : ValReaches width s) :
    (s.hasBlock = true → 0 ≤ s.prevLz ∧ s.prevLz ≤ 31 ∧ 0 ≤ s.prevTz ∧ s.prevLz + s.prevTz < width) ∧
      ∀ bits x : U64, bits.toNat < 2 ^ width → s.hasValue = true → x = bits ^^^ s.prevBits → x ≠ 0 →
        (s.covers x width →
          (∀ w, gtValEncode w s bits width =
            (gtPutBits (gtPutBit (gtPutBit w true) false) (x >>> s.prevTz.toNat) (width - s.prevLz - s.prevTz).toNat,
              { s with prevBits := bits })) ∧
          Lossless x s.prevTz (width - s.prevLz - s.prevTz)) ∧
        (¬ s.covers x width →
          (∀ w, gtValEncode w s bits width =
            (gtPutBits (gtPutBits (gtPutBits (gtPutBit (gtPutBit w true) true) (BitVec.ofInt 64 (xorLz x width)) 5)
                (BitVec.ofInt 64 (width - xorLz x width - gtCtz64 x - 1)) 6) (x >>> (gtCtz64 x).toNat)
                (width - xorLz x width - gtCtz64 x).toNat,
              { s with prevBits := bits, prevLz := xorLz x width, prevTz := gtCtz64 x, hasBlock := true })) ∧
          0 ≤ xorLz x width ∧ xorLz x width < 32 ∧
          1 ≤ width - xorLz x width - gtCtz64 x ∧ width - xorLz x width - gtCtz64 x ≤ 64 ∧
          Lossless x (gtCtz64 x) (width - xorLz x width - gtCtz64 x)) := by
  have hwin := winOk_of_reaches hw hs
  refine ⟨hwin.window, ?_⟩
  rintro bits x hb hv rfl hx
  have hlt := xor_lt hb hwin.bits
  obtain ⟨h1, h2, h3, h4, -⟩ := xor_window hx hw hlt
  constructor
  · intro hc
    have hr := (reuses_iff_covers hwin).2 hc
    obtain ⟨hblock, hlz, htz⟩ := hc
    obtain ⟨-, -, htz0, -⟩ := hwin.window hblock
    exact ⟨fun w => gtValEncode_reuse w hv hx hr, lossless_of_le hx hw hlt htz0 hlz htz⟩
  · intro hc
    have hr := mt (reuses_iff_covers hwin).1 hc
    exact ⟨fun w => gtValEncode_block w hv hx hr, h1, by omega, by omega, by omega,
      lossless_of_le hx hw hlt h3 (Int.le_refl _) (Int.le_refl _)⟩

/-- After 5 and 7 at width 32, the value 5 goes into the block of 7. -/
theorem encoder_window_5_7_5 :
    (∀ w, gtValEncode w ⟨7, 30, 1, true, true⟩ 5 32 =
      (gtPutBits (gtPutBit (gtPutBit w true) false) 1 1, ⟨5, 30, 1, true, true⟩)) ∧ Lossless 2 1 1 := by
  have hs : ValReaches 32 (GtValState.next 32 (GtValState.next 32 {} 5) 7) :=
    (ValReaches.init.next (by decide)).next (by decide)
  have he : GtValState.next 32 (GtValState.next 32 {} 5) 7 = ⟨7, 30, 1, true, true⟩ := by decide +kernel
  rw [he] at hs
  exact ((encoder_window 32 (by decide) _ hs).2 5 2 (by decide) rfl (by decide) (by decide)).1
    ⟨rfl, by decide +kernel, by decide +kernel⟩

end Gorillats
