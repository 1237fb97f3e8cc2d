import Gorillats.Shared
import Gorillats.Sizes
import Gorillats.Window
/-!
# ValueWords — where the XOR code wastes bits

A value that is not the previous one has many words that `gt_val_decode` reads as it: one for each window that covers its
XOR, and one more in the window of the last block, which the decoder takes even when there was none.  `gt_val_encode`
reuses the last block's window whenever it covers the XOR, and opens the XOR's own otherwise.  Opening costs 11 bits, so
its codeword is the shortest while the window it reuses is at most 11 bits wider than the XOR's own, and, before the first
block, while the XOR's own is at least 11 bits narrower than the value.
-/
namespace Gorillats

open BitString BitParser

/-! ## The words of a XOR -/

section Window

variable {x m : U64} {width tz : Nat}

/-- A shifted field lies in its window. -/
theorem window_of_shl (lz sig : Nat) (hx : x ≠ 0) (hshl : x = m <<< tz) (hm : m.toNat < 2 ^ sig) (hsum : lz + sig + tz = width)
    (h31 : lz ≤ 31) : (lz : Int) ≤ xorLz x width ∧ (tz : Int) ≤ gtCtz64 x := by
  constructor
  · have hlt : x.toNat < 2 ^ (sig + tz) := by
      rw [hshl, BitVec.toNat_shiftLeft, Nat.shiftLeft_eq, Nat.pow_add]
      exact Nat.lt_of_le_of_lt (Nat.mod_le _ _) (Nat.mul_lt_mul_of_pos_right hm (Nat.two_pow_pos tz))
    have hclz : 2 ^ (63 - x.clz.toNat) ≤ x.toNat := BitVec.two_pow_sub_clz_le_toNat_of_ne_zero (by decide) hx
    have hbits : 63 - x.clz.toNat < sig + tz := (Nat.pow_lt_pow_iff_right (a := 2) (by decide)).1 (by omega)
    unfold xorLz
    rw [gtClz64_of_ne hx]
    split <;> omega
  · rw [gtCtz64_of_ne hx]
    by_contra hlt
    have hbit := BitVec.getLsbD_true_ctz_of_ne_zero hx
    rw [hshl, BitVec.getLsbD_shiftLeft, ← hshl] at hbit
    simp [show x.ctz.toNat < tz by omega] at hbit

end Window

variable {width : Nat} {s : GtValState}

/-- Before the first block the window is the whole width. -/
structure Coded (width : Nat) (s : GtValState) : Prop where
  window : WinOk width s
  idle   : s.hasBlock = false → s.prevLz = 0 ∧ s.prevTz = 0

/-- A window covers the XOR. -/
def Covers (lz tz : Int) (x : U64) (width : Nat) : Prop := lz ≤ xorLz x width ∧ tz ≤ gtCtz64 x

theorem Coded.bounds (h : Coded width s) (h1 : 1 ≤ width) :
    0 ≤ s.prevLz ∧ s.prevLz ≤ 31 ∧ 0 ≤ s.prevTz ∧ s.prevLz + s.prevTz < width := by
  cases hb : s.hasBlock with
  | true => exact h.window.window hb
  | false =>
    obtain ⟨hlz, htz⟩ := h.idle hb
    omega

/-- The bits of the XOR's own window. -/
def ownBits (x : U64) (width : Nat) : Nat := sigBits width (xorLz x width) (gtCtz64 x)

/-- **The words of a XOR**, whatever an out-of-range shift yields: one in the last window, where it covers the XOR, and
for each other window that does one of 11 bits more. -/
theorem spells_xorParser (h : Coded width s) (h1 : 1 ≤ width) (hw : width ≤ 64) {x : U64} (hx : x ≠ 0)
    {w : List Bool} {s' : GtValState} (hspells : Spells (xorParser (fun _ _ => 0) s width) w (x, s')) :
    w.length = 1 + sigBits width s.prevLz s.prevTz ∧ Covers s.prevLz s.prevTz x width ∨
      12 + ownBits x width ≤ w.length := by
  obtain ⟨hlz0, hlz31, htz0, hsum⟩ := h.bounds h1
  rcases hspells.of_bit_ite with ⟨w, rfl, hreuse⟩ | ⟨w, rfl, hblock⟩
  · left
    obtain ⟨m, u, v, rfl, hm, hret⟩ := hreuse.of_bind (local_field64 _) fun _ => local_pure _
    obtain ⟨rfl, heq⟩ := hret.of_pure
    obtain ⟨hlen, rfl⟩ := spells_field64 hm
    have hlt : ofBits u < 2 ^ sigBits width s.prevLz s.prevTz := hlen ▸ ofBits_lt u
    obtain ⟨hxm, -⟩ := Prod.mk.inj heq
    rw [gtShl, if_pos ⟨htz0, by omega⟩] at hxm
    have hsig : sigBits width s.prevLz s.prevTz ≤ 64 := by
      unfold sigBits
      omega
    have hwin := window_of_shl _ _ hx hxm (by rw [toNat_ofNat_of_lt hsig hlt]; exact hlt)
      (show s.prevLz.toNat + sigBits width s.prevLz s.prevTz + s.prevTz.toNat = width by unfold sigBits; omega) (by omega)
    rw [Int.toNat_of_nonneg hlz0, Int.toNat_of_nonneg htz0] at hwin
    exact ⟨by simp [hlen, Nat.add_comm], hwin⟩
  · right
    obtain ⟨lz, u₁, v₁, rfl, hlz, h₁⟩ := hblock.of_bind (local_field64 5) fun _ =>
      (local_field64 6).bind fun _ => (local_field64 _).bind fun _ => local_pure _
    obtain ⟨sig, u₂, v₂, rfl, hsig, h₂⟩ := h₁.of_bind (local_field64 6) fun _ =>
      (local_field64 _).bind fun _ => local_pure _
    obtain ⟨m, u₃, v₃, rfl, hm, hret⟩ := h₂.of_bind (local_field64 _) fun _ => local_pure _
    obtain ⟨rfl, heq⟩ := hret.of_pure
    obtain ⟨hlen₁, rfl⟩ := spells_field64 hlz
    obtain ⟨hlen₂, rfl⟩ := spells_field64 hsig
    obtain ⟨hlen₃, rfl⟩ := spells_field64 hm
    obtain ⟨hxm, -⟩ := Prod.mk.inj heq
    have hlz' : ofBits u₁ < 2 ^ 5 := hlen₁ ▸ ofBits_lt u₁
    have hsig' : ofBits u₂ < 2 ^ 6 := hlen₂ ▸ ofBits_lt u₂
    rw [toNat_ofNat_of_lt (show 5 ≤ 64 by decide) hlz', toNat_ofNat_of_lt (show 6 ≤ 64 by decide) hsig'] at hxm
    rw [toNat_ofNat_of_lt (show 6 ≤ 64 by decide) hsig'] at hlen₃
    generalize ofBits u₁ = lz at hxm hlz'
    generalize ofBits u₂ = sig at hxm hlen₃ hsig'
    have hlt : ofBits u₃ < 2 ^ (sig + 1) := by
      have := ofBits_lt u₃
      rwa [hlen₃] at this
    -- the field's shift is in range: what it yields out of range is 0, and the XOR is not
    have htz : 0 ≤ (width : Int) - lz - (sig + 1) ∧ (width : Int) - lz - (sig + 1) < 64 := by
      by_contra hno
      rw [gtShl, if_neg hno] at hxm
      exact hx hxm
    rw [gtShl, if_pos htz] at hxm
    have hwin := window_of_shl lz (sig + 1) hx hxm (by rw [toNat_ofNat_of_lt (by omega) hlt]; exact hlt)
      (show lz + (sig + 1) + ((width : Int) - lz - (sig + 1)).toNat = width by omega) (by omega)
    simp only [List.length_cons, List.length_append, hlen₁, hlen₂, hlen₃, List.length_nil, ownBits, sigBits]
    omega

theorem xorParser_prevBits {ub : U64 → Int → U64} {x : U64} {s' : GtValState} {bits rest : List Bool}
    (h : (xorParser ub s width).run bits = some ((x, s'), rest)) : s'.prevBits = s.prevBits := by
  obtain ⟨b, mid, -, h⟩ := run_bind_eq_some h
  cases b with
  | false =>
    obtain ⟨m, mid, -, h⟩ := run_bind_eq_some h
    cases h
    rfl
  | true =>
    obtain ⟨lz, mid, -, h⟩ := run_bind_eq_some h
    obtain ⟨sig, mid, -, h⟩ := run_bind_eq_some h
    obtain ⟨m, mid, -, h⟩ := run_bind_eq_some h
    cases h
    rfl

/-! ## The words of a value -/

/-- `gt_val_decode` reads the word as the value, whatever an out-of-range shift yields. -/
def ReadAs (s : GtValState) (width : Nat) (word : List Bool) (bits : U64) : Prop :=
  ∃ r rest, Reads r (word ++ rest) ∧
    ∀ ub, ∃ s' r', gtValDecode ub s width r = ((.ok bits, s'), r') ∧ Reads r' rest

theorem readAs_iff {word : List Bool} {bits : U64} :
    ReadAs s width word bits ↔ ∀ ub, ∃ s', Spells (valParser ub s width) word (bits, s') := by
  constructor
  · rintro ⟨r, rest, hr, hout⟩ ub
    obtain ⟨s', r', hdec, hr'⟩ := hout ub
    exact ⟨s', (decodes_val ub s width).spells (local_valParser ub s width) hr hdec hr'⟩
  · intro h
    refine ⟨gtReaderInit (pack word) (pack word).length, padding word, ?_, fun ub => ?_⟩
    · rw [← unpack_pack]
      exact reads_init _
    · obtain ⟨s', hs'⟩ := h ub
      have hr := reads_init (pack word)
      rw [unpack_pack] at hr
      obtain ⟨r', hdec, hr'⟩ := (decodes_val ub s width).of_some hr (hs' _)
      exact ⟨s', r', hdec, hr'⟩

section Words

variable {bits : U64} {word : List Bool}

theorem xor_xor_cancel (a b : U64) : b ^^^ (a ^^^ b) = a := by
  rw [BitVec.xor_comm a, ← BitVec.xor_assoc, BitVec.xor_self, BitVec.zero_xor]

/-- A word of the XOR after a one is a word of the value. -/
theorem readAs_of_xor (hv : s.hasValue = true)
    (h : ∀ ub, ∃ s', Spells (xorParser ub s width) word (bits ^^^ s.prevBits, s')) :
    ReadAs s width (true :: word) bits := by
  rw [readAs_iff]
  intro ub
  obtain ⟨s', hs'⟩ := h ub
  have hprev := xorParser_prevBits (hs' [])
  refine ⟨{ s' with prevBits := s'.prevBits ^^^ (bits ^^^ s.prevBits) }, fun rest => ?_⟩
  unfold valParser
  rw [if_neg (by rw [hv]; decide), List.cons_append, bit_bind_run_cons, if_neg (by decide)]
  have hbits : s'.prevBits ^^^ (bits ^^^ s.prevBits) = bits := by
    rw [hprev, xor_xor_cancel]
  refine (run_map_of_eq_some _ (hs' rest)).trans ?_
  dsimp only
  rw [hbits]

/-- **The words of a changed value**: a one, then a word of its XOR. -/
theorem ReadAs.xor (hv : s.hasValue = true) (hx : bits ^^^ s.prevBits ≠ 0) (h : ReadAs s width word bits) :
    ∃ w s', word = true :: w ∧ Spells (xorParser (fun _ _ => 0) s width) w (bits ^^^ s.prevBits, s') := by
  obtain ⟨s', hs'⟩ := readAs_iff.1 h fun _ _ => 0
  unfold valParser at hs'
  rw [if_neg (by rw [hv]; decide)] at hs'
  rcases hs'.of_bit_ite with ⟨w, rfl, hsame⟩ | ⟨w, rfl, hxor⟩
  · obtain ⟨-, heq⟩ := hsame.of_pure
    obtain ⟨rfl, -⟩ := Prod.mk.inj heq
    exact absurd (BitVec.xor_self) hx
  · obtain ⟨⟨x, t⟩, ht, heq⟩ := hxor.of_map (local_xorParser _ s width)
    have hprev : t.prevBits = s.prevBits := xorParser_prevBits (ht [])
    obtain ⟨hbits, -⟩ := Prod.mk.inj heq
    simp only [hprev] at hbits
    have hxeq : bits ^^^ s.prevBits = x := by
      rw [← hbits, BitVec.xor_comm s.prevBits x, BitVec.xor_comm, xor_xor_cancel]
    exact ⟨w, t, rfl, hxeq ▸ ht⟩

/-- **The last window's word**, before the first block too. -/
theorem readAs_of_covers (h : Coded width s) (h1 : 1 ≤ width) (hw : width ≤ 64) (hv : s.hasValue = true)
    (hb : bits.toNat < 2 ^ width) (hx : bits ^^^ s.prevBits ≠ 0)
    (hcov : Covers s.prevLz s.prevTz (bits ^^^ s.prevBits) width) :
    ReadAs s width (true :: false ::
      toBits (sigBits width s.prevLz s.prevTz) ((bits ^^^ s.prevBits) >>> s.prevTz.toNat).toNat) bits := by
  obtain ⟨hlz, -, htz, hsum⟩ := h.bounds h1
  have hloss := lossless_of_le hx hw (xor_lt hb h.window.bits) htz hcov.1 hcov.2
  have hfield : ((bits ^^^ s.prevBits) >>> s.prevTz.toNat).toNat < 2 ^ sigBits width s.prevLz s.prevTz := hloss.field
  refine readAs_of_xor hv fun ub => ⟨s, fun rest => ?_⟩
  unfold xorParser
  rw [List.cons_append, bit_bind_run_cons, if_pos rfl,
    run_bind_of_eq_some (field64_run_of_lt _ _ rest hfield), hloss.gtShl ub htz (by omega)]
  rfl

/-- The word of a new block, after its one. -/
def blockWord (x : U64) (width : Nat) : List Bool :=
  true :: (toBits 5 (BitVec.ofInt 64 (xorLz x width)).toNat ++
    (toBits 6 (BitVec.ofInt 64 (width - xorLz x width - gtCtz64 x - 1)).toNat ++
      toBits (ownBits x width) (x >>> (gtCtz64 x).toNat).toNat))

theorem length_blockWord (x : U64) (width : Nat) : (blockWord x width).length = 12 + ownBits x width := by
  simp only [blockWord, List.length_cons, List.length_append, length_toBits]
  omega

/-- **Its own window's word.** -/
theorem readAs_blockWord (h : Coded width s) (hw : width ≤ 64) (hv : s.hasValue = true) (hb : bits.toNat < 2 ^ width)
    (hx : bits ^^^ s.prevBits ≠ 0) : ReadAs s width (true :: blockWord (bits ^^^ s.prevBits) width) bits := by
  refine readAs_of_xor hv fun ub =>
    ⟨{ s with prevLz := xorLz (bits ^^^ s.prevBits) width, prevTz := gtCtz64 (bits ^^^ s.prevBits), hasBlock := true },
      fun rest => ?_⟩
  simp only [blockWord, List.cons_append, List.append_assoc]
  exact xorParser_block ub s hw hx (xor_lt hb h.window.bits) rest

end Words

/-! ## The shortest word -/

/-- The codeword of the value with this XOR is the shortest. -/
def GtValState.thrifty (s : GtValState) (x : U64) (width : Nat) : Prop :=
  s.hasValue = false ∨ x = 0 ∨
    if s.reuses x width then sigBits width s.prevLz s.prevTz ≤ ownBits x width + 11
    else s.hasBlock = true ∨ ownBits x width + 11 ≤ width

instance (s : GtValState) (x : U64) (width : Nat) : Decidable (s.thrifty x width) :=
  inferInstanceAs (Decidable (_ ∨ _ ∨ ite _ _ _))

theorem Coded.next (h : Coded width s) (hw : width ≤ 64) {bits : U64} (hb : bits.toNat < 2 ^ width) :
    Coded width (s.next width bits) := by
  refine ⟨h.window.next hw hb, ?_⟩
  unfold GtValState.next
  dsimp only
  split_ifs
  · exact h.idle
  · exact h.idle
  · exact h.idle
  · nofun

theorem coded_of_reaches (hw : width ≤ 64) (h : ValReaches width s) : Coded width s := by
  induction h with
  | init => exact ⟨winOk_init width, fun _ => ⟨rfl, rfl⟩⟩
  | encode _ w bits hb ih =>
    rw [gtValEncode_eq]
    exact ih.next hw hb

section Shortest

variable {bits : U64}

theorem readAs_valCode (h : WinOk width s) (hw : width ≤ 64) (hb : bits.toNat < 2 ^ width) :
    ReadAs s width (valCode width s bits) bits :=
  readAs_iff.2 fun ub => ⟨_, valParser_valCode ub h hw hb⟩

/-- Without a previous value, every word is of the width. -/
theorem ReadAs.first (hv : s.hasValue = false) {word : List Bool} (h : ReadAs s width word bits) :
    word.length = width := by
  obtain ⟨s', hs'⟩ := readAs_iff.1 h fun _ _ => 0
  unfold valParser at hs'
  rw [if_pos hv] at hs'
  obtain ⟨v, hword, -⟩ := hs'.of_map (local_field64 width)
  exact (spells_field64 hword).1

/-- No word is empty. -/
theorem ReadAs.length_pos (h1 : 1 ≤ width) {word : List Bool} (h : ReadAs s width word bits) : 1 ≤ word.length := by
  by_cases hv : s.hasValue = false
  · rw [h.first hv]
    exact h1
  · obtain ⟨s', hs'⟩ := readAs_iff.1 h fun _ _ => 0
    unfold valParser at hs'
    rw [if_neg hv] at hs'
    rcases hs'.of_bit_ite with ⟨w, rfl, -⟩ | ⟨w, rfl, -⟩
    all_goals simp

/-- **Where a changed value's codeword is the shortest.** -/
theorem xor_code_shortest_iff (h : Coded width s) (h1 : 1 ≤ width) (hw : width ≤ 64) (hv : s.hasValue = true)
    (hb : bits.toNat < 2 ^ width) (hx : bits ^^^ s.prevBits ≠ 0) :
    (∀ word, ReadAs s width word bits → (valCode width s bits).length ≤ word.length) ↔
      if s.reuses (bits ^^^ s.prevBits) width then
        sigBits width s.prevLz s.prevTz ≤ ownBits (bits ^^^ s.prevBits) width + 11
      else s.hasBlock = true ∨ ownBits (bits ^^^ s.prevBits) width + 11 ≤ width := by
  have hstart : Started width s := ⟨hv, h.window⟩
  have hblock := readAs_blockWord h hw hv hb hx
  have hlen := length_blockWord (bits ^^^ s.prevBits) width
  by_cases hr : s.reuses (bits ^^^ s.prevBits) width
  · rw [if_pos hr, length_valCode_reuse hstart hx hr]
    constructor
    · intro hall
      have := hall _ hblock
      rw [List.length_cons, hlen] at this
      omega
    · intro hle word hword
      obtain ⟨w, s', rfl, hw'⟩ := hword.xor hv hx
      have := spells_xorParser h h1 hw hx hw'
      rw [List.length_cons]
      omega
  · rw [if_neg hr, length_valCode_block hstart hx hr]
    change (∀ word, ReadAs s width word bits → 13 + ownBits (bits ^^^ s.prevBits) width ≤ word.length) ↔ _
    constructor
    · intro hall
      by_contra hno
      obtain ⟨hidle, hlt⟩ := not_or.1 hno
      -- before the first block the decoder's window is the whole width
      obtain ⟨hlz, htz⟩ := h.idle (Bool.eq_false_of_not_eq_true hidle)
      obtain ⟨w1, -, w3, -⟩ := xor_window hx hw (xor_lt hb h.window.bits)
      have := hall _ (readAs_of_covers h h1 hw hv hb hx ⟨hlz ▸ w1, htz ▸ w3⟩)
      rw [List.length_cons, List.length_cons, length_toBits, hlz, htz] at this
      unfold sigBits at this
      omega
    · intro hor word hword
      obtain ⟨w, s', rfl, hw'⟩ := hword.xor hv hx
      rw [List.length_cons]
      rcases spells_xorParser h h1 hw hx hw' with ⟨hlen, hcov⟩ | hle
      · rcases hor with hb' | hown
        · exact absurd ((reuses_iff_covers h.window).2 ⟨hb', hcov.1, hcov.2⟩) hr
        · cases hb' : s.hasBlock with
          | true => exact absurd ((reuses_iff_covers h.window).2 ⟨hb', hcov.1, hcov.2⟩) hr
          | false =>
            obtain ⟨hlz, htz⟩ := h.idle hb'
            rw [hlen, hlz, htz]
            unfold sigBits
            omega
      · omega

end Shortest

/-- **A value's codeword is a shortest one exactly there.**  In every state that calls of `gt_val_encode` leave, what it
writes for a value is read back as the value, and no word that `gt_val_decode` reads as the value in that state is
shorter exactly if the value is the first or the last one's, or is put in a window at most 11 bits wider than its XOR's own,
or opens a block after another, or opens the first block at least 11 bits narrower than the width. -/
theorem value_code_shortest_iff (h1 : 1 ≤ width) (hw : width ≤ 64) (hs : ValReaches width s) (bits : U64)
    (hb : bits.toNat < 2 ^ width) :
    (∀ w, gtValEncode w s bits width = (putList w (valCode width s bits), s.next width bits)) ∧
      ReadAs s width (valCode width s bits) bits ∧
      ((∀ word, ReadAs s width word bits → (valCode width s bits).length ≤ word.length) ↔
        s.thrifty (bits ^^^ s.prevBits) width) := by
  have hcoded := coded_of_reaches hw hs
  refine ⟨fun w => gtValEncode_eq width w s bits, readAs_valCode hcoded.window hw hb, ?_⟩
  unfold GtValState.thrifty
  by_cases hv : s.hasValue = false
  · refine iff_of_true (fun word hword => ?_) (.inl hv)
    rw [hword.first hv]
    exact Nat.le_of_eq ((readAs_valCode hcoded.window hw hb).first hv)
  by_cases hx : bits ^^^ s.prevBits = 0
  · refine iff_of_true (fun word hword => ?_) (.inr (.inl hx))
    have hlen : (valCode width s bits).length = 1 := by
      unfold valCode
      dsimp only
      rw [if_neg hv, if_pos hx, List.length_singleton]
    rw [hlen]
    exact hword.length_pos h1
  · rw [xor_code_shortest_iff hcoded h1 hw (Bool.eq_true_of_not_eq_false hv) hb hx]
    exact ⟨fun h => .inr (.inr h), fun h => (h.resolve_left hv).resolve_left hx⟩

/-- The XOR of -0.5 with 0.0 has 11 bits of its own, and the codeword 24.  That of -(0.5 + 2⁻⁵³) has all 64, and the codeword
77, where there is a word of 66. -/
theorem value_code_shortest_iff_halves :
    (∀ word, ReadAs { hasValue := true } 64 word 0xBFE0000000000000 →
      (valCode 64 { hasValue := true } 0xBFE0000000000000).length ≤ word.length) ∧
      ¬ ∀ word, ReadAs { hasValue := true } 64 word 0xBFE0000000000001 →
        (valCode 64 { hasValue := true } 0xBFE0000000000001).length ≤ word.length := by
  have hzero : (0 : U64).toNat < 2 ^ 64 := by decide
  have hs : ValReaches 64 { hasValue := true } := ValReaches.init.next hzero
  exact ⟨(value_code_shortest_iff (by decide) (by decide) hs 0xBFE0000000000000 (by decide)).2.2.2 (by decide +kernel),
    fun h => absurd ((value_code_shortest_iff (by decide) (by decide) hs 0xBFE0000000000001 (by decide)).2.2.1 h)
      (by decide +kernel)⟩

end Gorillats
