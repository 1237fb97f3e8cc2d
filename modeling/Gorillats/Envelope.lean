import Gorillats.Api
/-!
# Envelope — the header the wrappers share

Sixteen bytes before the raw stream: the magic `GTS1`, the value type, three reserved zeros, the point count in
little-endian order.
-/
namespace Gorillats

/-- `kHeaderSize` and `HEADER_SIZE`. -/
def headerSize : Nat := 16

/-- `GTS1`. -/
def magic : List U8 := [0x47, 0x54, 0x53, 0x31]

/-- The count in little-endian order. -/
def leBytes (v : U64) : List U8 := (List.range 8).map fun i => (v >>> (8 * i) &&& 0xFF).setWidth 8

/-- `get_u64_le`. -/
def getU64Le (p : List U8) : U64 :=
  (List.range 8).foldl (fun v i => v ||| (p.getD i 0).setWidth 64 <<< (8 * i)) 0

/-- The layout of the serialized form. -/
def envelope (T : ValueType) (count : U64) (payload : List U8) : List U8 :=
  magic ++ [T.tag] ++ [0, 0, 0] ++ leBytes count ++ payload

/-- What both readers ask of a header. -/
structure HeaderOk (T : ValueType) (data : List U8) : Prop where
  length : headerSize ≤ data.length
  magic  : data.take 4 = magic
  tag    : data.getD 4 0 = T.tag

instance (T : ValueType) (data : List U8) : Decidable (HeaderOk T data) :=
  decidable_of_iff (headerSize ≤ data.length ∧ data.take 4 = magic ∧ data.getD 4 0 = T.tag)
    ⟨fun ⟨h₁, h₂, h₃⟩ => ⟨h₁, h₂, h₃⟩, fun ⟨h₁, h₂, h₃⟩ => ⟨h₁, h₂, h₃⟩⟩

/-! ## The count -/

@[simp] theorem length_leBytes (v : U64) : (leBytes v).length = 8 := by simp [leBytes]

theorem getD_leBytes (v : U64) (rest : List U8) {i : Nat} (hi : i < 8) :
    (leBytes v ++ rest).getD i 0 = (v >>> (8 * i) &&& 0xFF).setWidth 8 := by
  rw [List.getD_append _ _ _ _ (by simpa using hi), leBytes, List.getD_eq_getElem?_getD, List.getElem?_map,
    List.getElem?_range hi]
  rfl

theorem getLsbD_0xFF : ∀ j < 64, (0xFF : U64).getLsbD j = decide (j < 8) := by decide

theorem getLsbD_foldl_leBytes (v : U64) (rest : List U8) : ∀ n ≤ 8, ∀ j < 64,
    ((List.range n).foldl (fun acc i => acc ||| ((leBytes v ++ rest).getD i 0).setWidth 64 <<< (8 * i)) 0).getLsbD j
      = (decide (j < 8 * n) && v.getLsbD j)
  | 0, _, j, _ => by simp
  | n + 1, hn, j, hj => by
    rw [List.range_succ, List.foldl_append, List.foldl_cons, List.foldl_nil, BitVec.getLsbD_or,
      getLsbD_foldl_leBytes v rest n (by omega) j hj, getD_leBytes v rest (by omega), BitVec.getLsbD_shiftLeft,
      BitVec.getLsbD_setWidth, BitVec.getLsbD_setWidth, BitVec.getLsbD_and, BitVec.getLsbD_ushiftRight,
      getLsbD_0xFF _ (by omega)]
    rcases Nat.lt_or_ge j (8 * n) with hlow | hhigh
    · simp [hlow, show j < 8 * (n + 1) by omega]
    · rw [show 8 * n + (j - 8 * n) = j by omega]
      by_cases hbyte : j < 8 * (n + 1)
      · simp [hbyte, hj, show ¬ j < 8 * n by omega, show j - 8 * n < 64 by omega, show j - 8 * n < 8 by omega]
      · simp [hbyte, show ¬ j < 8 * n by omega, show ¬ j - 8 * n < 8 by omega]

theorem getLsbD_foldl_getU64Le (p : List U8) : ∀ n, ∀ j < 64,
    ((List.range n).foldl (fun v i => v ||| (p.getD i 0).setWidth 64 <<< (8 * i)) 0 : U64).getLsbD j
      = (decide (j < 8 * n) && (p.getD (j / 8) 0).getLsbD (j % 8))
  | 0, j, _ => by simp
  | n + 1, j, hj => by
    rw [List.range_succ, List.foldl_append, List.foldl_cons, List.foldl_nil, BitVec.getLsbD_or,
      getLsbD_foldl_getU64Le p n j hj, BitVec.getLsbD_shiftLeft, BitVec.getLsbD_setWidth]
    rcases Nat.lt_or_ge j (8 * n) with hlow | hhigh
    · simp [hlow, show j < 8 * (n + 1) by omega]
    by_cases hbyte : j < 8 * (n + 1)
    · have hdiv : j / 8 = n := by omega
      have hmod : j - 8 * n = j % 8 := by omega
      simp [hbyte, hj, show ¬ j < 8 * n by omega, hdiv, hmod, show j % 8 < 64 by omega]
    · have hout : (p.getD n 0).getLsbD (j - 8 * n) = false := BitVec.getLsbD_of_ge _ _ (by omega)
      rw [hout]
      simp [hbyte, show ¬ j < 8 * n by omega]

/-- Bit `j` of the count is that of byte `j / 8`. -/
theorem getLsbD_getU64Le (p : List U8) {j : Nat} (hj : j < 64) :
    (getU64Le p).getLsbD j = (p.getD (j / 8) 0).getLsbD (j % 8) := by
  unfold getU64Le
  rw [getLsbD_foldl_getU64Le p 8 j hj]
  simp [show j < 8 * 8 by omega]

/-- **The count reads back.** -/
theorem getU64Le_leBytes (v : U64) (rest : List U8) : getU64Le (leBytes v ++ rest) = v := by
  apply BitVec.eq_of_getLsbD_eq
  intro j hj
  unfold getU64Le
  rw [getLsbD_foldl_leBytes v rest 8 (Nat.le_refl 8) j hj]
  simp [show j < 8 * 8 by omega]

/-! ## The layout -/

section Layout

variable (T : ValueType) (count : U64) (payload : List U8)

theorem length_envelope : (envelope T count payload).length = headerSize + payload.length := by
  simp [envelope, magic, headerSize]
  omega

theorem headerOk_envelope : HeaderOk T (envelope T count payload) :=
  ⟨by rw [length_envelope]; omega, rfl, rfl⟩

theorem drop_envelope : (envelope T count payload).drop headerSize = payload := by
  unfold envelope
  rw [List.drop_append_of_le_length (by simp [magic, headerSize]), List.drop_of_length_le
    (by simp [magic, headerSize]), List.nil_append]

theorem count_envelope : getU64Le ((envelope T count payload).drop 8) = count := by
  have h : (envelope T count payload).drop 8 = leBytes count ++ payload := by
    unfold envelope
    rw [List.append_assoc]
    rfl
  rw [h, getU64Le_leBytes]

end Layout

/-! ## What fits in memory

Both standard libraries refuse a vector of more bytes than a pointer difference can span, before they allocate. -/

/-- `PTRDIFF_MAX`, which is `isize::MAX`. -/
def maxBytes : Nat := 2 ^ 63 - 1

/-- The most elements of `size` bytes that a vector holds. -/
def maxLen (size : Nat) : Nat := maxBytes / size

/-- The bytes of a point in memory, where a `float` is padded to the alignment of the timestamp. -/
def pointSize : Nat := 16

theorem maxLen_pointSize : maxLen pointSize = 2 ^ 59 - 1 := by decide

/-- So the count of a vector's points does not wrap. -/
theorem lt_of_le_maxLen {n : Nat} (h : n ≤ maxLen pointSize) : n < 2 ^ 64 := by
  rw [maxLen_pointSize] at h
  omega

theorem maxLen_pointSize_le : maxLen pointSize ≤ maxLen 8 := by decide

theorem maxLen_eight_le_width (T : ValueType) : maxLen 8 ≤ maxLen (T.width / 8) := by cases T <;> decide

/-- The bytes of a platform's memory: virtual addresses have at most 57 bits. -/
def addressSpace : Nat := 2 ^ 57

/-- The recorded count is one that a vector of points can have. -/
def CountFits (data : List U8) : Prop := (getU64Le (data.drop 8)).toNat ≤ maxLen pointSize

instance (data : List U8) : Decidable (CountFits data) := inferInstanceAs (Decidable (_ ≤ _))

end Gorillats
