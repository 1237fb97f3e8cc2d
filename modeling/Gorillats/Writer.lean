import Gorillats.BitString
import Gorillats.Core
/-!
# Writer — the bounded writer is a bit string cut at the capacity

`Writes init w E`: the writer, opened on a buffer holding `init`, has been asked to write the bit string `E`.  The
buffer then holds the packing of the first `8 * cap` bits of `E` up to the byte being written and `init` after it, and
the overflow flag says that `E` is longer than the buffer.  `gtPutBit` appends one bit to `E` (`Writes.putBit`).
-/
namespace Gorillats

open BitString

/-- What a writer that was asked to write `E` holds. -/
structure Writes (init : List U8) (w : GtWriter) (E : List Bool) : Prop where
  cap      : w.cap = init.length
  length   : w.buf.length = init.length
  bitPos   : w.bitPos < 8
  pos      : 8 * w.bytePos + w.bitPos = min (8 * init.length) E.length
  overflow : w.overflow = decide (8 * init.length < E.length)
  written  : ∀ i, i ≤ w.bytePos → i < init.length → w.buf[i]? = some (packByte (E.take (8 * init.length)) i)
  fresh    : ∀ i, w.bytePos < i → w.buf[i]? = init[i]?

theorem packByte_concat_of_lt (E : List Bool) (b : Bool) (i : Nat) (h : 8 * i + 8 ≤ E.length) :
    packByte (E ++ [b]) i = packByte E i := by
  apply BitVec.eq_of_getMsbD_eq
  intro j hj
  rw [getMsbD_packByte _ _ _ hj, getMsbD_packByte _ _ _ hj, List.getD_append _ _ _ _ (by omega)]

theorem packByte_of_length_le (E : List Bool) (i : Nat) (h : E.length ≤ 8 * i) : packByte E i = 0 := by
  apply BitVec.eq_of_getMsbD_eq
  intro j hj
  rw [getMsbD_packByte _ _ _ hj, List.getD_eq_default _ _ (by omega)]
  simp

theorem packByte_concat (E : List Bool) (b : Bool) (i k : Nat) (hk : k < 8) (hE : E.length = 8 * i + k) :
    packByte (E ++ [b]) i = if b then packByte E i ||| 1#8 <<< (7 - k) else packByte E i := by
  apply BitVec.eq_of_getMsbD_eq
  intro j hj
  have hbit : (1#8 <<< (7 - k)).getMsbD j = decide (j = k) := by
    rw [BitVec.getMsbD_eq_getLsbD, BitVec.getLsbD_shiftLeft, BitVec.getLsbD_one]
    by_cases h : j = k
    · subst h
      simp [hj, show 7 - j < 8 by omega]
    · simp only [hj, decide_true, h, decide_false, Bool.true_and]
      by_cases h' : 8 - 1 - j < 7 - k
      · simp [h']
      · simp
        omega
  rw [getMsbD_packByte _ _ _ hj]
  rcases Nat.lt_trichotomy j k with h | rfl | h
  · rw [List.getD_append _ _ _ _ (by omega)]
    cases b
    · rw [if_neg (by simp), getMsbD_packByte _ _ _ hj]
    · rw [if_pos rfl, BitVec.getMsbD_or, getMsbD_packByte _ _ _ hj, hbit, decide_eq_false (by omega), Bool.or_false]
  · rw [← hE, List.getD_append_right _ _ _ _ (Nat.le_refl _), Nat.sub_self]
    cases b
    · rw [if_neg (by simp), getMsbD_packByte _ _ _ hj, ← hE, List.getD_eq_default _ _ (Nat.le_refl _)]
      rfl
    · rw [if_pos rfl, BitVec.getMsbD_or, hbit]
      simp
  · rw [List.getD_eq_default _ _ (by simp; omega)]
    cases b
    · rw [if_neg (by simp), getMsbD_packByte _ _ _ hj, List.getD_eq_default _ _ (by omega)]
    · rw [if_pos rfl, BitVec.getMsbD_or, getMsbD_packByte _ _ _ hj, hbit, List.getD_eq_default _ _ (by omega),
        decide_eq_false (by omega)]
      rfl

theorem writes_init (buf : List U8) : Writes buf (gtWriterInit buf buf.length) [] := by
  refine ⟨rfl, ?_, Nat.zero_lt_succ 7, by simp [gtWriterInit], by simp [gtWriterInit], fun i hi hl => ?_,
    fun i hi => ?_⟩
  · unfold gtWriterInit
    split <;> simp
  · obtain rfl : i = 0 := Nat.le_zero.1 hi
    rw [packByte_of_length_le _ _ (by simp)]
    simp [gtWriterInit, hl]
  · simp only [gtWriterInit] at hi ⊢
    split
    · rw [List.getElem?_set_ne (by omega)]
    · rfl

/-- The buffer after a set bit is ORed into byte `i` at position `k`. -/
def orBit (buf : List U8) (i k : Nat) (b : Bool) : List U8 :=
  if b then buf.modify i (· ||| 1#8 <<< (7 - k)) else buf

@[simp] theorem length_orBit (buf : List U8) (i k : Nat) (b : Bool) : (orBit buf i k b).length = buf.length := by
  cases b <;> simp [orBit]

theorem getElem?_orBit_ne (buf : List U8) {i j : Nat} (k : Nat) (b : Bool) (h : j ≠ i) :
    (orBit buf i k b)[j]? = buf[j]? := by
  cases b
  · rfl
  · simp [orBit, Ne.symm h]

theorem getElem?_orBit_packByte {buf : List U8} {E : List Bool} {i k : Nat} (b : Bool) (hk : k < 8)
    (hE : E.length = 8 * i + k) (h : buf[i]? = some (packByte E i)) :
    (orBit buf i k b)[i]? = some (packByte (E ++ [b]) i) := by
  rw [packByte_concat E b i k hk hE]
  cases b
  · exact h
  · simp [orBit, h]

theorem gtPutBit_of_lt (w : GtWriter) (b : Bool) (h : w.bytePos < w.cap) :
    gtPutBit w b =
      let buf := orBit w.buf w.bytePos w.bitPos b
      if w.bitPos + 1 = 8 then
        { w with
          buf := if w.bytePos + 1 < w.cap then buf.set (w.bytePos + 1) 0 else buf
          bytePos := w.bytePos + 1
          bitPos := 0 }
      else { w with buf := buf, bitPos := w.bitPos + 1 } := by
  unfold gtPutBit
  rw [if_neg (by omega)]
  rfl

/-- **One bit**: written while there is room, counted as overflow when there is none. -/
theorem Writes.putBit {init : List U8} {w : GtWriter} {E : List Bool} (h : Writes init w E) (b : Bool) :
    Writes init (gtPutBit w b) (E ++ [b]) := by
  obtain ⟨hcap, hlen, hbit, hpos, hov, hwr, hfr⟩ := h
  have hl1 : (E ++ [b]).length = E.length + 1 := by simp
  rcases Nat.lt_or_ge w.bytePos w.cap with hroom | hfull
  · have hE : E.length = 8 * w.bytePos + w.bitPos := by omega
    have htake : E.take (8 * init.length) = E := List.take_of_length_le (by omega)
    have htake1 : (E ++ [b]).take (8 * init.length) = E ++ [b] := List.take_of_length_le (by omega)
    rw [htake] at hwr
    -- the bytes up to the one being written, after the OR
    have hor : ∀ i, i ≤ w.bytePos →
        (orBit w.buf w.bytePos w.bitPos b)[i]? = some (packByte (E ++ [b]) i) := by
      intro i hi
      rcases Nat.lt_or_ge i w.bytePos with hlt | hge
      · rw [getElem?_orBit_ne _ _ _ (by omega), hwr i hi (by omega), packByte_concat_of_lt E b i (by omega)]
      · obtain rfl : i = w.bytePos := Nat.le_antisymm hi hge
        exact getElem?_orBit_packByte b hbit hE (hwr _ (Nat.le_refl _) (by omega))
    have hov' : w.overflow = decide (8 * init.length < (E ++ [b]).length) := by
      rw [hov, decide_eq_false (by omega), decide_eq_false (by omega)]
    rw [gtPutBit_of_lt w b hroom]
    by_cases h8 : w.bitPos + 1 = 8
    · -- the byte is complete: the next one is cleared, if there is one
      simp only [if_pos h8]
      refine ⟨hcap, by split <;> simp [hlen], Nat.zero_lt_succ 7, by simp only; omega, hov', ?_, ?_⟩
      · intro i hi hl
        simp only at hi ⊢
        rw [htake1]
        rcases Nat.lt_or_ge w.bytePos i with hnext | hle
        · obtain rfl : i = w.bytePos + 1 := by omega
          rw [if_pos (by omega), List.getElem?_set_self (by simp; omega), packByte_of_length_le _ _ (by omega)]
        · split
          · rw [List.getElem?_set_ne (by omega), hor i hle]
          · exact hor i hle
      · intro i hi
        simp only at hi ⊢
        rw [← hfr i (by omega), ← getElem?_orBit_ne w.buf w.bitPos b (show i ≠ w.bytePos by omega)]
        split
        · rw [List.getElem?_set_ne (by omega)]
        · rfl
    · simp only [if_neg h8]
      refine ⟨hcap, by simp [hlen], by simp only; omega, by simp only; omega, hov', ?_, ?_⟩
      · intro i hi hl
        rw [htake1]
        exact hor i hi
      · intro i hi
        simp only at hi ⊢
        rw [getElem?_orBit_ne _ _ _ (by omega), hfr i hi]
  · -- the buffer is full: nothing but the flag moves
    have hE : 8 * init.length ≤ E.length := by omega
    rw [gtPutBit, if_pos hfull]
    refine ⟨hcap, hlen, hbit, by simp only; omega, (decide_eq_true (by omega)).symm, ?_, hfr⟩
    intro i hi hl
    rw [List.take_append_of_le_length hE]
    exact hwr i hi hl

/-! ## Whole fields -/

/-- Writing bit after bit. -/
def putList (w : GtWriter) (bits : List Bool) : GtWriter := bits.foldl gtPutBit w

theorem putList_append (w : GtWriter) (a b : List Bool) : putList w (a ++ b) = putList (putList w a) b :=
  List.foldl_append ..

theorem gtPutBits_eq (value : U64) : ∀ (n : Nat) (w : GtWriter),
    gtPutBits w value n = putList w (toBits n value.toNat)
  | 0, _ => rfl
  | n + 1, w => by
    rw [gtPutBits, gtPutBits_eq value n]
    rfl

theorem Writes.putList {init : List U8} : ∀ (bits : List Bool) {w : GtWriter} {E : List Bool}, Writes init w E →
    Writes init (putList w bits) (E ++ bits)
  | [], _, _, h => by simpa [Gorillats.putList] using h
  | b :: bits, _, E, h => by
    rw [List.append_cons]
    exact (h.putBit b).putList bits

/-! ## What the caller sees -/

section Caller

variable {init : List U8} {w : GtWriter} {E : List Bool}

/-- **`finish()` is the number of bytes the bits take**, up to the capacity. -/
theorem Writes.len (h : Writes init w E) : gtWriterLen w = (min (8 * init.length) E.length + 7) / 8 := by
  have hb := h.bitPos
  have hp := h.pos
  unfold gtWriterLen
  split <;> omega

/-- **The bytes below `finish()` are the packing of the bits that fit.** -/
theorem Writes.take_len (h : Writes init w E) : w.buf.take (gtWriterLen w) = pack (E.take (8 * init.length)) := by
  have hb := h.bitPos
  have hp := h.pos
  have hlen := h.len
  apply List.ext_getElem?
  intro i
  unfold pack
  rw [List.length_take, List.getElem?_map]
  rcases Nat.lt_or_ge i (gtWriterLen w) with hi | hi
  · rw [List.getElem?_take_of_lt hi, List.getElem?_range (by omega), h.written i (by omega) (by omega)]
    rfl
  · rw [List.getElem?_take_eq_none hi, List.getElem?_eq_none (by simp; omega)]
    rfl

theorem Writes.getElem?_of_len_lt (h : Writes init w E) {i : Nat} (hi : gtWriterLen w < i) : w.buf[i]? = init[i]? := by
  apply h.fresh
  unfold gtWriterLen at hi
  omega

end Caller

end Gorillats
