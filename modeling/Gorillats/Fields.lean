import Gorillats.Logged
import Gorillats.Timestamps
import Gorillats.Writer
/-!
# Fields — sequences of bit fields

Fields of any widths, written one after another from a fresh writer, read back from a fresh reader over the bytes
written, when the buffer has room for their bits (`getFields_putFields`).  Both sides keep their positions inside the
buffer from bit to bit, which the logged twins of the loops observe.
-/
namespace Gorillats

open BitString BitParser Logged

structure BitField where
  value : U64
  nbits : Nat
  le    : nbits ≤ 64
deriving DecidableEq, Repr

def putFields (w : GtWriter) (fields : List BitField) : GtWriter :=
  fields.foldl (fun w f => gtPutBits w f.value f.nbits) w

def getFields : List Nat → StateM GtReader (List U64)
  | [] => pure []
  | n :: widths => do
    let v ← gtGetBits n
    let vs ← getFields widths
    return v :: vs

/-- The bits of the fields, in order. -/
def fieldBits (fields : List BitField) : List Bool := fields.flatMap fun f => toBits f.nbits f.value.toNat

theorem length_fieldBits : ∀ fields : List BitField, (fieldBits fields).length = (fields.map (·.nbits)).sum
  | [] => rfl
  | f :: fields => by
    rw [fieldBits, List.flatMap_cons, List.length_append, length_toBits, List.map_cons, List.sum_cons,
      ← length_fieldBits fields]
    rfl

theorem putFields_eq : ∀ (fields : List BitField) (w : GtWriter), putFields w fields = putList w (fieldBits fields)
  | [], _ => rfl
  | f :: fields, w => by
    rw [fieldBits, List.flatMap_cons, putList_append, ← gtPutBits_eq]
    exact putFields_eq fields _

/-! ## Reading them back -/

/-- **A field reads back**, from any position, as its low bits. -/
theorem Reads.getBits {r : GtReader} {f : BitField} {rest : List Bool}
    (h : Reads r (toBits f.nbits f.value.toNat ++ rest)) :
    (gtGetBits f.nbits r).1.toNat = f.value.toNat % 2 ^ f.nbits ∧ Reads (gtGetBits f.nbits r).2 rest := by
  have hy := (refines_field f.nbits).yields r _ h
  rw [field64_run_toBits] at hy
  obtain ⟨hval, hreads⟩ := hy
  have hnat := congrArg BitVec.toNat hval
  rw [toNat_ofNat_of_lt f.le (Nat.mod_lt _ (Nat.two_pow_pos f.nbits))] at hnat
  exact ⟨hnat, hreads⟩

theorem Reads.getFields : ∀ (fields : List BitField) {r : GtReader} {rest : List Bool},
    Reads r (fieldBits fields ++ rest) →
      (getFields (fields.map (·.nbits)) r).1.map (·.toNat) = fields.map (fun f => f.value.toNat % 2 ^ f.nbits) ∧
        Reads (getFields (fields.map (·.nbits)) r).2 rest
  | [], _, _, h => ⟨rfl, h⟩
  | f :: fields, r, rest, h => by
    rw [fieldBits, List.flatMap_cons, List.append_assoc] at h
    obtain ⟨hval, hreads⟩ := h.getBits
    obtain ⟨hvals, hrest⟩ := hreads.getFields fields
    exact ⟨congrArg₂ List.cons hval hvals, hrest⟩

/-! ## From bit to bit -/

namespace LoggedFields

/-- `gt_put_bits`, the writer observed before every bit and after the last. -/
def putBits (value : U64) : Nat → Logged GtWriter GtWriter Unit
  | 0 => observe
  | i + 1 => do
    observe
    act (modify (gtPutBit · (value.getLsbD i)))
    putBits value i

def putFields : List BitField → Logged GtWriter GtWriter Unit
  | [] => observe
  | f :: fields => do
    putBits f.value f.nbits
    putFields fields

/-- The loop of `gt_get_bits`, the reader observed before every bit and after the last. -/
def getBitsFrom (v : U64) : Nat → Logged GtReader GtReader U64
  | 0 => do
    observe
    return v
  | n + 1 => do
    observe
    let bit ← act gtGetBit
    getBitsFrom (v <<< 1 ||| (BitVec.ofBool bit).setWidth 64) n

def getFields : List Nat → Logged GtReader GtReader (List U64)
  | [] => do
    observe
    return []
  | n :: widths => do
    let v ← getBitsFrom 0 n
    let vs ← getFields widths
    return v :: vs

theorem erase_putBits (value : U64) : ∀ (n : Nat) (w : GtWriter),
    (putBits value n).erase w = ((), gtPutBits w value n)
  | 0, _ => rfl
  | n + 1, w => erase_putBits value n (gtPutBit w (value.getLsbD n))

theorem erase_putFields : ∀ (fields : List BitField) (w : GtWriter),
    (putFields fields).erase w = ((), Gorillats.putFields w fields)
  | [], _ => rfl
  | f :: fields, w => by
    rw [putFields, erase_bind_run, erase_putBits]
    exact erase_putFields fields _

theorem erase_getBitsFrom : ∀ (n : Nat) (v : U64), (getBitsFrom v n).erase = gtGetBitsFrom v n
  | 0, _ => rfl
  | n + 1, v => by
    rw [getBitsFrom, gtGetBitsFrom, erase_bind, erase_observe, pure_bind, erase_bind, erase_act]
    exact congrArg _ (funext fun bit => erase_getBitsFrom n _)

theorem erase_getFields : ∀ widths : List Nat, (getFields widths).erase = Gorillats.getFields widths
  | [] => rfl
  | n :: widths => by
    simp only [getFields, Gorillats.getFields, erase_bind, erase_getBitsFrom, erase_getFields widths, erase_pure]
    rfl

end LoggedFields

/-! ## Positions -/

/-- A position inside a buffer of `size` bytes, or at its end. -/
structure InBuffer (size cap bytePos bitPos : Nat) : Prop where
  cap_eq     : cap = size
  bytePos_le : bytePos ≤ cap
  bitPos_le  : bitPos ≤ 7

def GtWriter.InBuffer (size : Nat) (w : GtWriter) : Prop := Gorillats.InBuffer size w.cap w.bytePos w.bitPos

def GtReader.InBuffer (size : Nat) (r : GtReader) : Prop := Gorillats.InBuffer size r.cap r.bytePos r.bitPos

section Positions

variable {size : Nat}

theorem InBuffer.nextByte {cap i k : Nat} (h : InBuffer size cap i k) (hroom : i < cap) : InBuffer size cap (i + 1) 0 :=
  ⟨h.cap_eq, hroom, Nat.zero_le _⟩

theorem InBuffer.nextBit {cap i k : Nat} (h : InBuffer size cap i k) (h8 : k + 1 ≠ 8) : InBuffer size cap i (k + 1) := by
  have hk := h.bitPos_le
  exact ⟨h.cap_eq, h.bytePos_le, by omega⟩

theorem inBuffer_writerInit (buf : List U8) (cap : Nat) : (gtWriterInit buf cap).InBuffer cap :=
  ⟨rfl, Nat.zero_le _, Nat.zero_le _⟩

theorem inBuffer_readerInit (buf : List U8) (cap : Nat) : (gtReaderInit buf cap).InBuffer cap :=
  ⟨rfl, Nat.zero_le _, Nat.zero_le _⟩

theorem GtWriter.InBuffer.putBit {w : GtWriter} (h : w.InBuffer size) (bit : Bool) : (gtPutBit w bit).InBuffer size := by
  rcases Nat.lt_or_ge w.bytePos w.cap with hroom | hfull
  · rw [gtPutBit_of_lt w bit hroom]
    by_cases h8 : w.bitPos + 1 = 8
    · simp only [if_pos h8]
      exact h.nextByte hroom
    · simp only [if_neg h8]
      exact h.nextBit h8
  · rw [gtPutBit, if_pos hfull]
    exact h

theorem GtReader.InBuffer.getBit {r : GtReader} (h : r.InBuffer size) : (gtGetBit r).2.InBuffer size := by
  unfold gtGetBit
  rcases Nat.lt_or_ge r.bytePos r.cap with hroom | hend
  · rw [if_neg (Nat.not_le.2 hroom)]
    by_cases h8 : r.bitPos + 1 = 8
    · simp only [if_pos h8]
      exact h.nextByte hroom
    · simp only [if_neg h8]
      exact h.nextBit h8
  · rw [if_pos hend]
    exact h

namespace LoggedFields

theorem meets_putBits (value : U64) : ∀ n : Nat,
    Meets (·.InBuffer size) (putBits value n) (·.InBuffer size) fun _ => (·.InBuffer size)
  | 0 => meets_observe
  | n + 1 => meets_observe.bind fun _ =>
      (meets_act fun _ h => h.putBit (value.getLsbD n)).bind fun _ => meets_putBits value n

/-- **The writer stays inside its buffer**, whatever the fields. -/
theorem meets_putFields : ∀ fields : List BitField,
    Meets (·.InBuffer size) (putFields fields) (·.InBuffer size) fun _ => (·.InBuffer size)
  | [] => meets_observe
  | f :: fields => (meets_putBits f.value f.nbits).bind fun _ => meets_putFields fields

theorem meets_getBitsFrom : ∀ (n : Nat) (v : U64),
    Meets (·.InBuffer size) (getBitsFrom v n) (·.InBuffer size) fun _ => (·.InBuffer size)
  | 0, _ => meets_observe.bind fun _ => meets_pure fun _ h => h
  | n + 1, _ => meets_observe.bind fun _ =>
      (meets_act fun _ h => h.getBit).bind fun _ => meets_getBitsFrom n _

/-- **The reader stays inside its buffer**, whatever the widths. -/
theorem meets_getFields : ∀ widths : List Nat,
    Meets (·.InBuffer size) (getFields widths) (·.InBuffer size) fun _ => (·.InBuffer size)
  | [] => meets_observe.bind fun _ => meets_pure fun _ h => h
  | n :: widths => (meets_getBitsFrom n 0).bind fun _ =>
      (meets_getFields widths).bind fun _ => meets_pure fun _ h => h

end LoggedFields

end Positions

/-! ## The round trip -/

/-- A fresh reader over what the writer of some fields leaves. -/
def fieldReader (w : GtWriter) : GtReader := gtReaderInit (w.buf.take (gtWriterLen w)) (gtWriterLen w)

theorem reads_fieldReader {buf : List U8} {w : GtWriter} {E : List Bool} (h : Writes buf w E)
    (hfit : E.length ≤ 8 * buf.length) : Reads (fieldReader w) (E ++ padding E) := by
  have hlen : (w.buf.take (gtWriterLen w)).length = gtWriterLen w := by
    rw [List.length_take, h.length, h.len]
    omega
  have hpack : w.buf.take (gtWriterLen w) = pack E := by
    rw [h.take_len, List.take_of_length_le hfit]
  -- the last byte's unused bits are the zeros the writer cleared it to
  have hreads := reads_init (pack E)
  rwa [unpack_pack, ← hpack, hlen] at hreads

/-- **Bit fields read back at any alignment.**  Fields whose bits fit the buffer set no overflow, and fields of the same
widths read from the bytes written are their low bits and meet no end; from bit to bit, neither position leaves its
buffer. -/
theorem getFields_putFields (buf : List U8) (fields : List BitField)
    (h : (fields.map (·.nbits)).sum ≤ 8 * buf.length) :
    (putFields (gtWriterInit buf buf.length) fields).overflow = false ∧
      (∀ r, r = fieldReader (putFields (gtWriterInit buf buf.length) fields) →
        (getFields (fields.map (·.nbits)) r).1.map (·.toNat) = fields.map (fun f => f.value.toNat % 2 ^ f.nbits) ∧
        (getFields (fields.map (·.nbits)) r).2.eof = false ∧
        ∀ s ∈ (LoggedFields.getFields (fields.map (·.nbits))).log r, s.InBuffer r.cap) ∧
      ∀ s ∈ (LoggedFields.putFields fields).log (gtWriterInit buf buf.length), s.InBuffer buf.length := by
  rw [← length_fieldBits] at h
  have hwrites := (writes_init buf).putList (fieldBits fields)
  rw [List.nil_append, ← putFields_eq] at hwrites
  refine ⟨?_, ?_, ?_⟩
  · rw [hwrites.overflow]
    exact decide_eq_false (by omega)
  · rintro r rfl
    obtain ⟨hvals, hreads⟩ := (reads_fieldReader hwrites h).getFields
    refine ⟨hvals, hreads.eof, ?_⟩
    exact (LoggedFields.meets_getFields _ _ (inBuffer_readerInit _ _)).1
  · exact (LoggedFields.meets_putFields fields _ (inBuffer_writerInit _ _)).1

/-- Three fields that fill two bytes, the second across both and the third wider than its bits. -/
theorem getFields_putFields_3_9_4 :
    (getFields [3, 9, 4] (fieldReader (putFields (gtWriterInit [0xFF, 0xFF] 2)
      [⟨5, 3, by decide⟩, ⟨0x1FF, 9, by decide⟩, ⟨0x12, 4, by decide⟩]))).1.map (·.toNat) = [5, 0x1FF, 2] := by
  have h := getFields_putFields [0xFF, 0xFF] [⟨5, 3, by decide⟩, ⟨0x1FF, 9, by decide⟩, ⟨0x12, 4, by decide⟩] (by decide)
  exact (h.2.1 _ rfl).1

end Gorillats
