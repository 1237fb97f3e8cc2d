import Mathlib.Data.Nat.Bitwise
import Mathlib.Data.List.Basic
import Mathlib.Tactic.Ring
/-!
# BitString — bit strings, fields and bytes, most significant bit first

A field of `n` bits is `toBits n v`; a bit string spells the number `ofBits bs`.  `pack` lays a bit string out in
bytes, the last one padded with zero bits, and `unpack` reads the bits of a byte string back.
-/
namespace BitString

/-! ## Fields -/

/-- The low `n` bits of `v`, most significant first. -/
def toBits : Nat → Nat → List Bool
  | 0, _ => []
  | n + 1, v => v.testBit n :: toBits n v

/-- The number a bit string spells, read after the number `v`. -/
def ofBitsFrom (v : Nat) (bs : List Bool) : Nat := bs.foldl (fun v b => 2 * v + b.toNat) v

/-- The number a bit string spells. -/
def ofBits (bs : List Bool) : Nat := ofBitsFrom 0 bs

@[simp] theorem length_toBits : ∀ n v : Nat, (toBits n v).length = n
  | 0, _ => rfl
  | n + 1, v => by rw [toBits, List.length_cons, length_toBits n v]

@[simp] theorem ofBitsFrom_nil (v : Nat) : ofBitsFrom v [] = v := rfl

@[simp] theorem ofBitsFrom_cons (v : Nat) (b : Bool) (bs : List Bool) :
    ofBitsFrom v (b :: bs) = ofBitsFrom (2 * v + b.toNat) bs := rfl

theorem ofBitsFrom_append (v : Nat) (as bs : List Bool) : ofBitsFrom v (as ++ bs) = ofBitsFrom (ofBitsFrom v as) bs :=
  List.foldl_append ..

theorem ofBitsFrom_eq : ∀ (bs : List Bool) (v : Nat), ofBitsFrom v bs = v * 2 ^ bs.length + ofBits bs
  | [], v => by simp [ofBits]
  | b :: bs, v => by
    rw [ofBits, ofBitsFrom_cons, ofBitsFrom_cons, ofBitsFrom_eq bs, ofBitsFrom_eq bs (2 * 0 + b.toNat),
      List.length_cons, Nat.pow_succ]
    ring

theorem ofBits_cons (b : Bool) (bs : List Bool) : ofBits (b :: bs) = b.toNat * 2 ^ bs.length + ofBits bs := by
  rw [ofBits, ofBitsFrom_cons, ofBitsFrom_eq]
  simp

theorem ofBits_lt : ∀ bs : List Bool, ofBits bs < 2 ^ bs.length
  | [] => by simp [ofBits]
  | b :: bs => by
    have h := ofBits_lt bs
    rw [ofBits_cons, List.length_cons, Nat.pow_succ]
    cases b <;> simp only [Bool.toNat_true, Bool.toNat_false] <;> omega

/-- **A field spells its value, modulo the field's range.** -/
theorem ofBits_toBits : ∀ n v : Nat, ofBits (toBits n v) = v % 2 ^ n
  | 0, v => by simp [toBits, ofBits, Nat.mod_one]
  | n + 1, v => by
    have hb : (v.testBit n).toNat = v / 2 ^ n % 2 := by
      rw [Nat.testBit_eq_decide_div_mod_eq]
      rcases Nat.mod_two_eq_zero_or_one (v / 2 ^ n) with h | h <;> simp [h]
    rw [toBits, ofBits_cons, length_toBits, ofBits_toBits n v, hb, Nat.mod_pow_succ]
    ring

theorem toBits_mod : ∀ n m v : Nat, n ≤ m → toBits n (v % 2 ^ m) = toBits n v
  | 0, _, _, _ => rfl
  | n + 1, m, v, h => by
    rw [toBits, toBits, toBits_mod n m v (by omega), Nat.testBit_mod_two_pow]
    simp [show n < m by omega]

/-- **A bit string is the field of the number it spells.** -/
theorem toBits_ofBits : ∀ bs : List Bool, toBits bs.length (ofBits bs) = bs
  | [] => rfl
  | b :: bs => by
    have h := ofBits_lt bs
    rw [List.length_cons, toBits, ofBits_cons]
    congr 1
    · rw [Nat.mul_comm, Nat.testBit_two_pow_mul_add _ h]
      cases b <;> simp
    · rw [← toBits_mod bs.length bs.length _ (Nat.le_refl _), Nat.mul_add_mod_self_right, Nat.mod_eq_of_lt h,
        toBits_ofBits bs]

theorem getElem?_toBits : ∀ (n v j : Nat), j < n → (toBits n v)[j]? = some (v.testBit (n - 1 - j))
  | n + 1, v, 0, _ => by simp [toBits]
  | n + 1, v, j + 1, h => by
    rw [toBits, List.getElem?_cons_succ, getElem?_toBits n v j (by omega)]
    congr 2
    omega

/-! ## Bytes -/

/-- The bits of a byte. -/
def byteBits (b : BitVec 8) : List Bool := toBits 8 b.toNat

/-- The bits of a byte string. -/
def unpack (bytes : List (BitVec 8)) : List Bool := bytes.flatMap byteBits

/-- Byte `i` of a bit string laid out in bytes: its bits from `8 * i` on, zero past its end. -/
def packByte (bits : List Bool) (i : Nat) : BitVec 8 :=
  BitVec.ofNat 8 (ofBits ((List.range 8).map fun j => bits.getD (8 * i + j) false))

/-- A bit string laid out in bytes, the last one padded with zero bits. -/
def pack (bits : List Bool) : List (BitVec 8) := (List.range ((bits.length + 7) / 8)).map (packByte bits)

@[simp] theorem length_byteBits (b : BitVec 8) : (byteBits b).length = 8 := length_toBits 8 _

theorem byteBits_packByte (bits : List Bool) (i : Nat) :
    byteBits (packByte bits i) = (List.range 8).map fun j => bits.getD (8 * i + j) false := by
  have h := ofBits_lt ((List.range 8).map fun j => bits.getD (8 * i + j) false)
  unfold byteBits packByte
  rw [BitVec.toNat_ofNat, Nat.mod_eq_of_lt (by simpa using h)]
  simpa using toBits_ofBits ((List.range 8).map fun j => bits.getD (8 * i + j) false)

theorem getElem?_byteBits (b : BitVec 8) (j : Nat) (hj : j < 8) : (byteBits b)[j]? = some (b.getMsbD j) := by
  unfold byteBits
  rw [getElem?_toBits 8 _ j hj, BitVec.getMsbD, BitVec.getLsbD]
  simp [hj]

theorem getMsbD_packByte (bits : List Bool) (i j : Nat) (hj : j < 8) :
    (packByte bits i).getMsbD j = bits.getD (8 * i + j) false := by
  have h := getElem?_byteBits (packByte bits i) j hj
  rw [byteBits_packByte, List.getElem?_map, List.getElem?_range hj] at h
  simpa using h.symm

@[simp] theorem unpack_nil : unpack [] = [] := rfl

@[simp] theorem unpack_cons (b : BitVec 8) (bytes : List (BitVec 8)) :
    unpack (b :: bytes) = byteBits b ++ unpack bytes := rfl

theorem unpack_append (a b : List (BitVec 8)) : unpack (a ++ b) = unpack a ++ unpack b := by
  rw [unpack, List.flatMap_append]; rfl

@[simp] theorem length_unpack : ∀ bytes : List (BitVec 8), (unpack bytes).length = 8 * bytes.length
  | [] => rfl
  | b :: bytes => by
    rw [unpack_cons, List.length_append, length_byteBits, length_unpack bytes, List.length_cons]
    omega

theorem unpack_take : ∀ (bytes : List (BitVec 8)) (m : Nat), unpack (bytes.take m) = (unpack bytes).take (8 * m)
  | [], m => by simp
  | b :: bytes, 0 => by simp
  | b :: bytes, m + 1 => by
    rw [List.take_succ_cons, unpack_cons, unpack_cons, unpack_take bytes m, List.take_append, length_byteBits,
      List.take_of_length_le (i := 8 * (m + 1)) (by rw [length_byteBits]; omega)]
    congr 2

/-- **A byte string spells its big-endian number.** -/
theorem ofBitsFrom_unpack : ∀ (bytes : List (BitVec 8)) (v : Nat),
    ofBitsFrom v (unpack bytes) = bytes.foldl (fun v b => 256 * v + b.toNat) v
  | [], _ => rfl
  | b :: bytes, v => by
    have hbyte : ofBitsFrom v (byteBits b) = 256 * v + b.toNat := by
      rw [ofBitsFrom_eq, length_byteBits, byteBits, ofBits_toBits, Nat.mod_eq_of_lt b.isLt, Nat.mul_comm]
      rfl
    rw [unpack_cons, ofBitsFrom_append, hbyte, ofBitsFrom_unpack bytes, List.foldl_cons]

/-- **Bit `p` of a byte string is bit `p % 8` of its byte `p / 8`.** -/
theorem getElem?_unpack : ∀ (bytes : List (BitVec 8)) (p : Nat),
    (unpack bytes)[p]? = bytes[p / 8]?.map (fun b => b.getMsbD (p % 8))
  | [], p => by simp
  | b :: bytes, p => by
    rw [unpack_cons]
    rcases Nat.lt_or_ge p 8 with hp | hp
    · rw [List.getElem?_append_left (by simpa using hp), getElem?_byteBits b p hp, Nat.div_eq_of_lt hp,
        Nat.mod_eq_of_lt hp]
      rfl
    · obtain ⟨q, rfl⟩ : ∃ q, p = q + 8 := ⟨p - 8, by omega⟩
      rw [List.getElem?_append_right (by simp), length_byteBits, Nat.add_sub_cancel, getElem?_unpack bytes q,
        Nat.add_div_right q (by decide), Nat.add_mod_right]
      rfl

/-- The zero bits that pad a bit string to whole bytes. -/
def padding (bits : List Bool) : List Bool := List.replicate (8 * ((bits.length + 7) / 8) - bits.length) false

/-- **Unpacking a packed bit string gives it back, padded.** -/
theorem unpack_pack (bits : List Bool) : unpack (pack bits) = bits ++ padding bits := by
  apply List.ext_getElem?
  intro p
  rw [getElem?_unpack, pack, padding, List.getElem?_map]
  rcases Nat.lt_or_ge (p / 8) ((bits.length + 7) / 8) with hp | hp
  · rw [List.getElem?_range hp]
    simp only [Option.map_some, getMsbD_packByte bits (p / 8) (p % 8) (Nat.mod_lt p (by decide)), Nat.div_add_mod]
    rcases Nat.lt_or_ge p bits.length with hl | hl
    · rw [List.getElem?_append_left hl, List.getD_eq_getElem?_getD, List.getElem?_eq_getElem hl]
      rfl
    · rw [List.getElem?_append_right hl, List.getElem?_replicate, if_pos (by omega), List.getD_eq_getElem?_getD,
        List.getElem?_eq_none hl]
      rfl
  · rw [List.getElem?_eq_none (by simpa using hp), List.getElem?_eq_none (by simp; omega)]
    rfl

/-- Zero bits inside the padding change no byte. -/
theorem pack_append_zeros (bits : List Bool) {n : Nat} (h : n ≤ (padding bits).length) :
    pack (bits ++ List.replicate n false) = pack bits := by
  rw [padding, List.length_replicate] at h
  have hbytes : ((bits ++ List.replicate n false).length + 7) / 8 = (bits.length + 7) / 8 := by
    rw [List.length_append, List.length_replicate]
    omega
  have hbit : ∀ i, (bits ++ List.replicate n false).getD i false = bits.getD i false := by
    intro i
    rw [List.getD_eq_getElem?_getD, List.getD_eq_getElem?_getD]
    rcases Nat.lt_or_ge i bits.length with hi | hi
    · rw [List.getElem?_append_left hi]
    · rw [List.getElem?_append_right hi, List.getElem?_eq_none hi, List.getElem?_replicate]
      split <;> rfl
  unfold pack packByte
  rw [hbytes]
  simp only [hbit]

@[simp] theorem length_pack (bits : List Bool) : (pack bits).length = (bits.length + 7) / 8 := by simp [pack]

end BitString
