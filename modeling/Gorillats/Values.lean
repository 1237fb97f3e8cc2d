import Gorillats.Timestamps
/-!
# Values — the XOR code

`gt_val_encode` writes the codeword `valCode` and `gt_val_decode` reads it with `valParser`.  The encoder's window
stays inside the width (`WinOk`), so a codeword reads back as the value, in the same state (`valParser_valCode`).
-/
namespace Gorillats

open BitString BitParser

/-! ## The codeword of a value -/

/-- The window of a XOR: its leading zeros, at most 31, and its trailing zeros. -/
def xorLz (x : U64) (width : Nat) : Int := if gtClz64 x - (64 - width) > 31 then 31 else gtClz64 x - (64 - width)

/-- The XOR fits the previous block's window. -/
def GtValState.reuses (s : GtValState) (x : U64) (width : Nat) : Prop :=
  s.hasBlock = true ∧ xorLz x width ≥ s.prevLz ∧ gtCtz64 x ≥ s.prevTz ∧ width - s.prevLz - s.prevTz > 0

instance (s : GtValState) (x : U64) (width : Nat) : Decidable (s.reuses x width) :=
  inferInstanceAs (Decidable (_ ∧ _))

/-- The significant bits of a window. -/
def sigBits (width : Nat) (lz tz : Int) : Nat := (width - lz - tz).toNat

def valCode (width : Nat) (s : GtValState) (bits : U64) : List Bool :=
  let x := bits ^^^ s.prevBits
  if s.hasValue = false then toBits width bits.toNat
  else if x = 0 then [false]
  else if s.reuses x width then
    [true, false] ++ toBits (sigBits width s.prevLz s.prevTz) (x >>> s.prevTz.toNat).toNat
  else
    let lz := xorLz x width
    let tz := gtCtz64 x
    [true, true] ++ toBits 5 (BitVec.ofInt 64 lz).toNat ++ toBits 6 (BitVec.ofInt 64 (width - lz - tz - 1)).toNat ++
      toBits (sigBits width lz tz) (x >>> tz.toNat).toNat

/-- The state after a value. -/
def GtValState.next (width : Nat) (s : GtValState) (bits : U64) : GtValState :=
  let x := bits ^^^ s.prevBits
  if s.hasValue = false then { s with prevBits := bits, hasValue := true }
  else if x = 0 then { s with prevBits := bits }
  else if s.reuses x width then { s with prevBits := bits }
  else { s with prevBits := bits, prevLz := xorLz x width, prevTz := gtCtz64 x, hasBlock := true }

theorem gtValEncode_eq (width : Nat) (w : GtWriter) (s : GtValState) (bits : U64) :
    gtValEncode w s bits width = (putList w (valCode width s bits), s.next width bits) := by
  unfold gtValEncode valCode GtValState.next
  have hreuse : (s.hasBlock = true ∧ (if gtClz64 (bits ^^^ s.prevBits) - (64 - width) > 31 then 31
      else gtClz64 (bits ^^^ s.prevBits) - (64 - width)) ≥ s.prevLz ∧ gtCtz64 (bits ^^^ s.prevBits) ≥ s.prevTz ∧
      width - s.prevLz - s.prevTz > 0) = s.reuses (bits ^^^ s.prevBits) width := rfl
  cases s.hasValue with
  | false => simp [gtPutBits_eq]
  | true =>
    simp only [Bool.not_true, Bool.false_eq_true, if_false, reduceCtorEq, hreuse, gtPutBits_eq]
    by_cases hx : bits ^^^ s.prevBits = 0
    · simp only [if_pos hx]
      rfl
    · by_cases hr : s.reuses (bits ^^^ s.prevBits) width
      · simp only [if_neg hx, if_pos hr, putList_append]
        rfl
      · simp only [if_neg hx, if_neg hr, putList_append]
        rfl

/-! ## The window -/

/-- **The encoder's window**: inside the width, its leading zeros in five bits, and the previous value in the width. -/
structure WinOk (width : Nat) (s : GtValState) : Prop where
  bits   : s.prevBits.toNat < 2 ^ width
  window : s.hasBlock = true → 0 ≤ s.prevLz ∧ s.prevLz ≤ 31 ∧ 0 ≤ s.prevTz ∧ s.prevLz + s.prevTz < width

theorem winOk_init (width : Nat) : WinOk width {} := ⟨Nat.two_pow_pos width, fun h => by cases h⟩

section Xor

variable {x : U64} {width : Nat}

theorem gtClz64_of_ne (hx : x ≠ 0) : gtClz64 x = x.clz.toNat := if_pos hx

theorem gtCtz64_of_ne (hx : x ≠ 0) : gtCtz64 x = x.ctz.toNat := if_pos hx

/-- **A nonzero XOR's own window**: what is left of it, and of its trailing zeros, is inside the width. -/
theorem xor_window (hx : x ≠ 0) (hw : width ≤ 64) (hlt : x.toNat < 2 ^ width) :
    0 ≤ xorLz x width ∧ xorLz x width ≤ 31 ∧ 0 ≤ gtCtz64 x ∧ xorLz x width + gtCtz64 x < width ∧
      x.toNat < 2 ^ (width - xorLz x width).toNat := by
  have h1 := BitVec.toNat_lt_two_pow_sub_clz (x := x)
  have h2 : 2 ^ (63 - x.clz.toNat) ≤ x.toNat := BitVec.two_pow_sub_clz_le_toNat_of_ne_zero (by decide) hx
  have h3 := BitVec.two_pow_ctz_le_toNat_of_ne_zero hx
  have hclz : 63 - x.clz.toNat < width := (Nat.pow_lt_pow_iff_right (a := 2) (by decide)).1 (by omega)
  have hctz : x.ctz.toNat < 64 - x.clz.toNat := (Nat.pow_lt_pow_iff_right (a := 2) (by decide)).1 (by omega)
  have hle : 64 - x.clz.toNat ≤ (width - xorLz x width).toNat := by
    unfold xorLz
    rw [gtClz64_of_ne hx]
    split <;> omega
  have hpow := Nat.pow_le_pow_right (n := 2) (by decide) hle
  refine ⟨?_, ?_, ?_, ?_, by omega⟩ <;> simp only [xorLz, gtClz64_of_ne hx, gtCtz64_of_ne hx] <;> (try split) <;> omega

theorem shiftRight_shiftLeft (hx : x ≠ 0) {k : Nat} (hk : (k : Int) ≤ gtCtz64 x) : x >>> k <<< k = x := by
  rw [gtCtz64_of_ne hx] at hk
  apply BitVec.eq_of_getLsbD_eq
  intro i hi
  rw [BitVec.getLsbD_shiftLeft, BitVec.getLsbD_ushiftRight]
  rcases Nat.lt_or_ge i k with h | h
  · rw [BitVec.getLsbD_false_of_lt_ctz (x := x) (show i < _ by omega)]
    simp [h]
  · rw [show k + (i - k) = i by omega]
    simp [hi, show ¬ i < k by omega]

theorem shiftRight_lt {n k m : Nat} (hlt : x.toNat < 2 ^ n) (h : n ≤ k + m) : (x >>> k).toNat < 2 ^ m := by
  rw [BitVec.toNat_ushiftRight, Nat.shiftRight_eq_div_pow, Nat.div_lt_iff_lt_mul (Nat.two_pow_pos k), ← Nat.pow_add]
  exact Nat.lt_of_lt_of_le hlt (Nat.pow_le_pow_right (by decide) (by omega))

/-- **A field holds its XOR**: shifted back it is the XOR, and it fits its bits. -/
structure Lossless (x : U64) (tz sig : Int) : Prop where
  shift : x >>> tz.toNat <<< tz.toNat = x
  field : (x >>> tz.toNat).toNat < 2 ^ sig.toNat

theorem lossless_of_le (hx : x ≠ 0) (hw : width ≤ 64) (hlt : x.toNat < 2 ^ width) {lz tz : Int} (h0 : 0 ≤ tz)
    (hlz : lz ≤ xorLz x width) (htz : tz ≤ gtCtz64 x) : Lossless x tz (width - lz - tz) := by
  obtain ⟨-, -, -, -, hpow⟩ := xor_window hx hw hlt
  exact ⟨shiftRight_shiftLeft hx (by omega), shiftRight_lt hpow (by omega)⟩

end Xor

theorem xor_lt {a b : U64} {width : Nat} (ha : a.toNat < 2 ^ width) (hb : b.toNat < 2 ^ width) :
    (a ^^^ b).toNat < 2 ^ width := by
  rw [BitVec.toNat_xor]
  exact Nat.xor_lt_two_pow ha hb

/-- **The encoder keeps its window inside the width.** -/
theorem WinOk.next {width : Nat} {s : GtValState} (h : WinOk width s) (hw : width ≤ 64) {bits : U64}
    (hb : bits.toNat < 2 ^ width) : WinOk width (s.next width bits) := by
  unfold GtValState.next
  dsimp only
  by_cases hv : s.hasValue = false
  · rw [if_pos hv]
    exact ⟨hb, h.window⟩
  rw [if_neg hv]
  by_cases hx : bits ^^^ s.prevBits = 0
  · rw [if_pos hx]
    exact ⟨hb, h.window⟩
  rw [if_neg hx]
  by_cases hr : s.reuses (bits ^^^ s.prevBits) width
  · rw [if_pos hr]
    exact ⟨hb, h.window⟩
  · rw [if_neg hr]
    obtain ⟨h1, h2, h3, h4, -⟩ := xor_window hx hw (xor_lt hb h.bits)
    exact ⟨hb, fun _ => ⟨h1, h2, h3, h4⟩⟩

/-! ## Reading it back -/

section Decode

variable (ub : U64 → Int → U64)

def xorParser (s : GtValState) (width : Nat) : BitParser (U64 × GtValState) := do
  if (← bit) = false then
    let meaningful ← field64 (sigBits width s.prevLz s.prevTz)
    return (gtShl ub meaningful s.prevTz, s)
  else
    let lz : Int := (← field64 5).toNat
    let sig : Int := (← field64 6).toNat + 1
    let meaningful ← field64 sig.toNat
    let tz := width - lz - sig
    return (gtShl ub meaningful tz, { s with prevLz := lz, prevTz := tz, hasBlock := true })

/-- `gt_val_decode` on a bit string: the value and the state after it. -/
def valParser (s : GtValState) (width : Nat) : BitParser (U64 × GtValState) :=
  if s.hasValue = false then
    (fun bits => (bits, { s with prevBits := bits, hasValue := true })) <$> field64 width
  else do
    if (← bit) = false then return (s.prevBits, s)
    else (fun p => (p.2.prevBits ^^^ p.1, { p.2 with prevBits := p.2.prevBits ^^^ p.1 })) <$> xorParser ub s width

theorem refines_readXor (s : GtValState) (width : Nat) : Refines (gtReadXor ub s width) (xorParser ub s width) :=
  refines_bit.bind fun _ => .ite ((refines_field _).bind fun _ => refines_pure _) <|
    (refines_field 5).bind fun _ => (refines_field 6).bind fun _ => (refines_field _).bind fun _ => refines_pure _

theorem decodes_val (s : GtValState) (width : Nat) : Decodes (gtValDecode ub s width) (valParser ub s width) := by
  unfold gtValDecode valParser
  cases hv : s.hasValue with
  | false => exact (refines_field width).decodes (fun _ => s) _ _
  | true =>
    refine refines_bit.bind_decodes fun b => .ite ?_ ?_
    · exact (refines_pure ()).decodes (fun _ => s) (fun _ => s) (fun _ => s.prevBits)
    · exact (refines_readXor ub s width).decodes (fun p => p.2) _ _

theorem local_xorParser (s : GtValState) (width : Nat) : Local (xorParser ub s width) :=
  local_bit.bind fun _ => .ite ((local_field64 _).bind fun _ => local_pure _) <|
    (local_field64 5).bind fun _ => (local_field64 6).bind fun _ => (local_field64 _).bind fun _ => local_pure _

theorem local_valParser (s : GtValState) (width : Nat) : Local (valParser ub s width) :=
  .ite ((local_field64 width).map _) <|
    local_bit.bind fun _ => .ite (local_pure _) ((local_xorParser ub s width).map _)

theorem field64_run_of_lt (n : Nat) (v : U64) (rest : List Bool) (h : v.toNat < 2 ^ n) :
    (field64 n).run (toBits n v.toNat ++ rest) = some (v, rest) := by
  rw [field64_run_toBits, Nat.mod_eq_of_lt h, BitVec.ofNat_toNat, BitVec.setWidth_eq]

theorem Lossless.gtShl {x : U64} {tz sig : Int} (h : Lossless x tz sig) (h0 : 0 ≤ tz) (h64 : tz < 64) :
    gtShl ub (x >>> tz.toNat) tz = x := by
  unfold Gorillats.gtShl
  rw [if_pos ⟨h0, h64⟩, h.shift]

theorem xorParser_reuse {width : Nat} {s : GtValState} (hs : WinOk width s) (hw : width ≤ 64) {x : U64} (hx : x ≠ 0)
    (hlt : x.toNat < 2 ^ width) (hr : s.reuses x width) (rest : List Bool) :
    (xorParser ub s width).run
        (false :: (toBits (sigBits width s.prevLz s.prevTz) (x >>> s.prevTz.toNat).toNat ++ rest))
      = some ((x, s), rest) := by
  obtain ⟨hblock, hlz, htz, -⟩ := hr
  obtain ⟨w1, w2, w3, w4⟩ := hs.window hblock
  have hloss := lossless_of_le hx hw hlt w3 hlz htz
  have hsig : (x >>> s.prevTz.toNat).toNat < 2 ^ sigBits width s.prevLz s.prevTz := hloss.field
  unfold xorParser
  rw [bit_bind_run_cons, if_pos rfl, run_bind_of_eq_some (field64_run_of_lt _ _ rest hsig),
    hloss.gtShl ub w3 (by omega)]
  rfl

theorem toNat_ofInt_of_lt {k : Int} {n : Nat} (h0 : 0 ≤ k) (hk : k < 2 ^ n) (hn : n ≤ 64) :
    (BitVec.ofInt 64 k).toNat = k.toNat ∧ k.toNat < 2 ^ n := by
  have hk' : k.toNat < 2 ^ n := by
    have : ((k.toNat : Nat) : Int) < ((2 ^ n : Nat) : Int) := by
      rw [Int.toNat_of_nonneg h0]
      exact_mod_cast hk
    exact_mod_cast this
  refine ⟨?_, hk'⟩
  rw [← toNat_ofNat_of_lt hn hk', ← BitVec.ofInt_natCast, Int.toNat_of_nonneg h0]

theorem xorParser_block {width : Nat} (s : GtValState) (hw : width ≤ 64) {x : U64} (hx : x ≠ 0)
    (hlt : x.toNat < 2 ^ width) (rest : List Bool) :
    (xorParser ub s width).run
        (true :: (toBits 5 (BitVec.ofInt 64 (xorLz x width)).toNat ++
          (toBits 6 (BitVec.ofInt 64 (width - xorLz x width - gtCtz64 x - 1)).toNat ++
            (toBits (sigBits width (xorLz x width) (gtCtz64 x)) (x >>> (gtCtz64 x).toNat).toNat ++ rest))))
      = some ((x, { s with prevLz := xorLz x width, prevTz := gtCtz64 x, hasBlock := true }), rest) := by
  obtain ⟨h1, h2, h3, h4, -⟩ := xor_window hx hw hlt
  have hloss := lossless_of_le hx hw hlt h3 (Int.le_refl _) (Int.le_refl _)
  obtain ⟨hlz, hlz'⟩ := toNat_ofInt_of_lt (n := 5) h1 (by omega) (by decide)
  obtain ⟨hsig, hsig'⟩ := toNat_ofInt_of_lt (k := width - xorLz x width - gtCtz64 x - 1) (n := 6) (by omega) (by omega)
    (by decide)
  have hfield : (x >>> (gtCtz64 x).toNat).toNat < 2 ^ sigBits width (xorLz x width) (gtCtz64 x) := hloss.field
  unfold xorParser
  rw [bit_bind_run_cons, if_neg (by decide), run_bind_of_eq_some (field64_run_of_lt 5 _ _ (hlz ▸ hlz')),
    run_bind_of_eq_some (field64_run_of_lt 6 _ _ (hsig ▸ hsig')), hlz, hsig]
  have e1 : ((xorLz x width).toNat : Int) = xorLz x width := Int.toNat_of_nonneg h1
  have e2 : (((width - xorLz x width - gtCtz64 x - 1).toNat : Nat) : Int) + 1 = width - xorLz x width - gtCtz64 x := by
    omega
  have e3 : width - xorLz x width - (width - xorLz x width - gtCtz64 x) = gtCtz64 x := by omega
  rw [e1, e2]
  dsimp only
  rw [e3]
  refine (run_bind_of_eq_some (field64_run_of_lt _ _ rest hfield)).trans ?_
  rw [hloss.gtShl ub h3 (by omega)]
  rfl

/-- **A value's codeword reads back as the value**, in the state the encoder is in, and leaves the encoder's next. -/
theorem valParser_valCode {width : Nat} {s : GtValState} (hs : WinOk width s) (hw : width ≤ 64) {bits : U64}
    (hb : bits.toNat < 2 ^ width) (rest : List Bool) :
    (valParser ub s width).run (valCode width s bits ++ rest) = some ((bits, s.next width bits), rest) := by
  have hlt := xor_lt hb hs.bits
  have hprev : s.prevBits ^^^ (bits ^^^ s.prevBits) = bits := by
    rw [BitVec.xor_comm bits, ← BitVec.xor_assoc, BitVec.xor_self, BitVec.zero_xor]
  unfold valParser valCode GtValState.next
  generalize bits ^^^ s.prevBits = x at hlt hprev
  dsimp only
  by_cases hv : s.hasValue = false
  · simp only [if_pos hv]
    exact run_map_of_eq_some _ (field64_run_of_lt width bits rest hb)
  simp only [if_neg hv]
  by_cases hx : x = 0
  · subst hx
    obtain rfl : s.prevBits = bits := by simpa using hprev
    rfl
  simp only [if_neg hx]
  by_cases hr : s.reuses x width
  · simp only [if_pos hr]
    have h := run_map_of_eq_some (fun p : U64 × GtValState =>
      (p.2.prevBits ^^^ p.1, { p.2 with prevBits := p.2.prevBits ^^^ p.1 })) (xorParser_reuse ub hs hw hx hlt hr rest)
    rw [hprev] at h
    exact h
  · simp only [if_neg hr]
    have h := run_map_of_eq_some (fun p : U64 × GtValState =>
      (p.2.prevBits ^^^ p.1, { p.2 with prevBits := p.2.prevBits ^^^ p.1 })) (xorParser_block ub s hw hx hlt rest)
    rw [hprev] at h
    simp only [List.append_assoc]
    exact h

end Decode

end Gorillats
