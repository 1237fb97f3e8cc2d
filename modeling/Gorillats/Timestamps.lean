import Gorillats.Reader
import Gorillats.Writer
/-!
# Timestamps — the delta-of-delta code

`gt_ts_encode` writes the codeword `dodCode` of the delta-of-delta, and `gt_ts_decode` reads it with `dodParser`.  A
codeword reads back as the delta-of-delta's low 32 bits, sign extended (`dodParser_dodCode`): the delta-of-delta
itself exactly when it fits 32 bits, and a value congruent to it modulo `2 ^ 32` always.
-/
namespace Gorillats

open BitString BitParser

/-! ## Signed fields -/

/-- The low `b` bits of `v`, as a signed number. -/
def signedLow (v : I64) (b : Nat) : I64 := (v.setWidth b).signExtend 64

/-- The delta-of-delta fits the signed 32-bit field of the last bucket. -/
def InRange (dod : I64) : Prop := -2 ^ 31 ≤ dod.toInt ∧ dod.toInt ≤ 2 ^ 31 - 1

instance (dod : I64) : Decidable (InRange dod) := inferInstanceAs (Decidable (_ ∧ _))

/-- `InRange` by evaluation over a list; the quantifier alone would range over every `BitVec 64`. -/
theorem inRange_of_all {dods : List I64} (h : dods.all (fun d => decide (InRange d)) = true) : ∀ d ∈ dods, InRange d :=
  fun d hd => of_decide_eq_true (List.all_eq_true.1 h d hd)

theorem toInt_signedLow (v : I64) {b : Nat} (hb : b ≤ 64) : (signedLow v b).toInt = v.toInt.bmod (2 ^ b) := by
  unfold signedLow
  rw [BitVec.toInt_signExtend_of_le hb, BitVec.toInt_setWidth, BitVec.toInt_eq_toNat_bmod v,
    Int.bmod_bmod_of_dvd (Nat.pow_dvd_pow 2 hb)]

theorem two_pow_pred_le {b : Nat} (hb : b < 64) : (2 : Int) ^ (b - 1) ≤ 2 ^ 62 := by
  exact_mod_cast Nat.pow_le_pow_right (by decide) (show b - 1 ≤ 62 by omega)

theorem toInt_one_shiftLeft {b : Nat} (hb : b < 64) : (1#64 <<< (b - 1)).toInt = 2 ^ (b - 1) := by
  have h := BitVec.toInt_twoPow (w := 64) (i := b - 1)
  rw [if_neg (by omega), if_neg (by omega)] at h
  exact_mod_cast h

theorem gtFitsSigned_iff (v : I64) {b : Nat} (hb : b < 64) :
    gtFitsSigned v b = true ↔ -2 ^ (b - 1) ≤ v.toInt ∧ v.toInt ≤ 2 ^ (b - 1) - 1 := by
  have hP := two_pow_pred_le hb
  have hP0 : (0 : Int) < 2 ^ (b - 1) := Int.pow_pos (by decide)
  have hlo : (-(1#64 <<< (b - 1))).toInt = -2 ^ (b - 1) := by
    rw [BitVec.toInt_neg, toInt_one_shiftLeft hb, Int.bmod_eq_of_le] <;> omega
  have hhi : (1#64 <<< (b - 1) - 1).toInt = 2 ^ (b - 1) - 1 := by
    have h1 : BitVec.toInt (1 : I64) = 1 := rfl
    rw [BitVec.toInt_sub, toInt_one_shiftLeft hb, h1, Int.bmod_eq_of_le] <;> omega
  unfold gtFitsSigned
  rw [Bool.and_eq_true, BitVec.sle_iff_toInt_le, BitVec.sle_iff_toInt_le, hlo, hhi]

theorem signedLow_eq_iff (v : I64) {b : Nat} (h0 : 0 < b) (hb : b < 64) :
    signedLow v b = v ↔ -2 ^ (b - 1) ≤ v.toInt ∧ v.toInt ≤ 2 ^ (b - 1) - 1 := by
  have hP0 : (0 : Int) < 2 ^ (b - 1) := Int.pow_pos (by decide)
  have h2 : ((2 ^ b : Nat) : Int) = 2 ^ (b - 1) * 2 := by exact_mod_cast (Nat.two_pow_pred_mul_two h0).symm
  rw [← BitVec.toInt_inj, toInt_signedLow v (by omega)]
  constructor
  · intro h
    have h₁ := Int.le_bmod (x := v.toInt) (m := 2 ^ b) (Nat.two_pow_pos b)
    have h₂ := Int.bmod_lt (x := v.toInt) (m := 2 ^ b) (Nat.two_pow_pos b)
    omega
  · rintro ⟨h₁, h₂⟩
    exact Int.bmod_eq_of_le (by omega) (by omega)

theorem xor_twoPow_of_getLsbD (z : U64) (k : Nat) (h : z.getLsbD k = false) :
    z ^^^ BitVec.twoPow 64 k = z + BitVec.twoPow 64 k := by
  rw [BitVec.add_eq_or_of_and_eq_zero _ _ (by rw [BitVec.and_twoPow, h]; rfl)]
  apply BitVec.eq_of_getLsbD_eq
  intro i hi
  rw [BitVec.getLsbD_xor, BitVec.getLsbD_or, BitVec.getLsbD_twoPow]
  by_cases hik : i = k
  · subst hik
    simp [h]
  · simp [Ne.symm hik]

/-- **`gt_sign_extend` of a field is the signed field.** -/
theorem gtSignExtend_field (v : I64) {b : Nat} (h0 : 0 < b) (hb : b < 64) :
    gtSignExtend (BitVec.ofNat 64 (v.toNat % 2 ^ b)) b = signedLow v b := by
  have hu : BitVec.ofNat 64 (v.toNat % 2 ^ b) = (v.setWidth b).setWidth 64 := by
    apply BitVec.eq_of_toNat_eq
    simp
  have hm : 1#64 <<< (b - 1) = BitVec.twoPow 64 (b - 1) := rfl
  rw [hu, gtSignExtend, hm, signedLow]
  generalize v.setWidth b = u
  have hmsb : (u.setWidth 64).getLsbD (b - 1) = u.msb := by
    rw [BitVec.getLsbD_setWidth, BitVec.msb_eq_getLsbD_last]
    simp
    omega
  cases hbit : u.msb with
  | false =>
    rw [xor_twoPow_of_getLsbD _ _ (hmsb.trans hbit), BitVec.add_sub_cancel,
      BitVec.signExtend_eq_setWidth_of_msb_false hbit]
  | true =>
    -- clearing the sign bit takes `2 ^ (b - 1)` off, and the subtraction takes it off again
    have hz : (u.setWidth 64 ^^^ BitVec.twoPow 64 (b - 1)).getLsbD (b - 1) = false := by
      rw [BitVec.getLsbD_xor, hmsb, hbit, BitVec.getLsbD_twoPow]
      simp
      omega
    have hadd := xor_twoPow_of_getLsbD _ _ hz
    rw [BitVec.xor_assoc, BitVec.xor_self, BitVec.xor_zero] at hadd
    generalize u.setWidth 64 ^^^ BitVec.twoPow 64 (b - 1) = z at hadd ⊢
    have hz' : z = u.setWidth 64 - BitVec.twoPow 64 (b - 1) := by rw [hadd, BitVec.add_sub_cancel]
    have hge : 2 ^ (b - 1) ≤ u.toNat := by
      rw [BitVec.msb_eq_decide, decide_eq_true_eq] at hbit
      exact hbit
    have hlt := u.isLt
    have h2 := Nat.two_pow_pred_mul_two h0
    have hP : 2 ^ (b - 1) ≤ 2 ^ 62 := Nat.pow_le_pow_right (by decide) (by omega)
    have htp : (BitVec.twoPow 64 (b - 1)).toNat = 2 ^ (b - 1) := by
      rw [BitVec.toNat_twoPow, Nat.mod_eq_of_lt (by omega)]
    apply BitVec.eq_of_toNat_eq
    rw [hz', BitVec.toNat_sub, BitVec.toNat_sub, BitVec.toNat_signExtend, if_pos hbit, BitVec.toNat_setWidth, htp,
      Nat.mod_eq_of_lt (show u.toNat < 2 ^ 64 by omega)]
    omega

theorem signedLow_32_eq_iff (dod : I64) : signedLow dod 32 = dod ↔ InRange dod :=
  signedLow_eq_iff dod (by decide) (by decide)

theorem signedLow_setWidth (v : I64) {b : Nat} (hb : b ≤ 64) : (signedLow v b).setWidth b = v.setWidth b := by
  apply BitVec.eq_of_getLsbD_eq
  intro i hi
  simp [signedLow, BitVec.getElem_signExtend, hi, show i < 64 by omega]

/-! ## The codeword of a delta-of-delta -/

def dodCode (dod : I64) : List Bool :=
  if dod = 0 then [false]
  else if gtFitsSigned dod 7 then toBits 2 0x2 ++ toBits 7 dod.toNat
  else if gtFitsSigned dod 9 then toBits 3 0x6 ++ toBits 9 dod.toNat
  else if gtFitsSigned dod 12 then toBits 4 0xE ++ toBits 12 dod.toNat
  else toBits 4 0xF ++ toBits 32 dod.toNat

/-- The delta-of-delta `gt_ts_encode` computes for a timestamp. -/
def GtTsState.dod (s : GtTsState) (ts : I64) : I64 := ts - s.prevTs - s.prevDelta

/-- The state after a timestamp. -/
def GtTsState.next (s : GtTsState) (ts : I64) : GtTsState := { prevTs := ts, prevDelta := ts - s.prevTs }

theorem prevDelta_add_dod (s : GtTsState) (ts : I64) : s.dod ts + s.prevDelta = ts - s.prevTs :=
  BitVec.sub_add_cancel ..

theorem prevTs_add_dod (s : GtTsState) (ts : I64) : s.prevTs + (s.dod ts + s.prevDelta) = ts := by
  rw [prevDelta_add_dod, BitVec.add_comm, BitVec.sub_add_cancel]

theorem gtTsEncode_eq (w : GtWriter) (s : GtTsState) (ts : I64) :
    gtTsEncode w s ts = (putList w (dodCode (s.dod ts)), s.next ts) := by
  have hdod : ts - s.prevTs - s.prevDelta = s.dod ts := rfl
  simp only [gtTsEncode, dodCode, gtPutBits_eq, hdod, GtTsState.next]
  by_cases h0 : s.dod ts = 0
  · rw [if_pos h0, if_pos h0]
    rfl
  · rw [if_neg h0, if_neg h0]
    split_ifs <;> rw [putList_append] <;> rfl

/-! ## Reading it back -/

def dodParser : BitParser I64 := do
  if (← bit) = false then return 0
  else if (← bit) = false then return gtSignExtend (← field64 7) 7
  else if (← bit) = false then return gtSignExtend (← field64 9) 9
  else if (← bit) = false then return gtSignExtend (← field64 12) 12
  else return gtSignExtend (← field64 32) 32

/-- `gt_ts_decode` on a bit string: the timestamp and the state after it. -/
def tsParser (s : GtTsState) : BitParser (I64 × GtTsState) :=
  (fun dod => (s.prevTs + (dod + s.prevDelta),
    { prevTs := s.prevTs + (dod + s.prevDelta), prevDelta := dod + s.prevDelta })) <$> dodParser

theorem refines_signed (n : Nat) :
    Refines (do return gtSignExtend (← gtGetBits n) n) (do return gtSignExtend (← field64 n) n) :=
  (refines_field n).bind fun _ => refines_pure _

theorem refines_readDod : Refines gtReadDod dodParser :=
  refines_bit.bind fun _ => .ite (refines_pure 0) <|
    refines_bit.bind fun _ => .ite (refines_signed 7) <|
      refines_bit.bind fun _ => .ite (refines_signed 9) <|
        refines_bit.bind fun _ => .ite (refines_signed 12) (refines_signed 32)

theorem decodes_ts (s : GtTsState) : Decodes (gtTsDecode s) (tsParser s) :=
  refines_readDod.decodes (fun _ => s) _ _

theorem local_field64 (n : Nat) : Local (field64 n) := (local_field n).map _

theorem local_dodParser : Local dodParser :=
  local_bit.bind fun _ => .ite (local_pure 0) <|
    local_bit.bind fun _ => .ite ((local_field64 7).bind fun _ => local_pure _) <|
      local_bit.bind fun _ => .ite ((local_field64 9).bind fun _ => local_pure _) <|
        local_bit.bind fun _ => .ite ((local_field64 12).bind fun _ => local_pure _)
          ((local_field64 32).bind fun _ => local_pure _)

theorem local_tsParser (s : GtTsState) : Local (tsParser s) := local_dodParser.map _

theorem field64_run_toBits (n v : Nat) (rest : List Bool) :
    (field64 n).run (toBits n v ++ rest) = some (BitVec.ofNat 64 (v % 2 ^ n), rest) := by
  have h := field_run_append (toBits n v) rest
  rw [length_toBits, ofBits_toBits] at h
  unfold field64
  rw [StateT.run_map, h]
  rfl

theorem signed_run (dod : I64) (n : Nat) (h0 : 0 < n) (hn : n < 64) (rest : List Bool) :
    (do return gtSignExtend (← field64 n) n : BitParser I64).run (toBits n dod.toNat ++ rest)
      = some (signedLow dod n, rest) := by
  rw [run_bind_of_eq_some (field64_run_toBits n _ rest), gtSignExtend_field dod h0 hn]
  rfl

/-- **A codeword reads back as the low 32 bits of its delta-of-delta, sign extended**, and nothing more is read. -/
theorem dodParser_dodCode (dod : I64) (rest : List Bool) :
    dodParser.run (dodCode dod ++ rest) = some (signedLow dod 32, rest) := by
  have hsmall : ∀ n, 0 < n → n ≤ 32 → gtFitsSigned dod n = true → signedLow dod n = signedLow dod 32 := by
    intro n h0 hn hfit
    rw [gtFitsSigned_iff dod (by omega)] at hfit
    have hle : (2 : Int) ^ (n - 1) ≤ 2 ^ 31 := by
      exact_mod_cast Nat.pow_le_pow_right (by decide) (show n - 1 ≤ 31 by omega)
    rw [(signedLow_eq_iff dod h0 (by omega)).2 hfit, eq_comm, signedLow_32_eq_iff, InRange]
    omega
  unfold dodCode
  by_cases h0 : dod = 0
  · subst h0
    rfl
  · rw [if_neg h0]
    split_ifs with h7 h9 h12
    · rw [← hsmall 7 (by decide) (by decide) h7]
      exact signed_run dod 7 (by decide) (by decide) rest
    · rw [← hsmall 9 (by decide) (by decide) h9]
      exact signed_run dod 9 (by decide) (by decide) rest
    · rw [← hsmall 12 (by decide) (by decide) h12]
      exact signed_run dod 12 (by decide) (by decide) rest
    · exact signed_run dod 32 (by decide) (by decide) rest

end Gorillats
