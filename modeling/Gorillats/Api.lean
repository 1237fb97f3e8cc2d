import Gorillats.Core
/-!
# Api — the public C ABI (`gorillats.h`)

A handle is an `Option`: `none` is the `NULL` that every function answers with an argument error.  A pointer to a
caller's array is an `Option` too; out parameters are results, and `outs` says whether the out pointers are non-null.
Allocation succeeds.  Each function of the `double` and `float` families is one definition at its width.
-/
namespace Gorillats

/-! ## Compressor -/

structure GorillatsCompressor where
  w     : GtWriter
  ts    : GtTsState
  vs    : GtValState
  width : Nat
deriving DecidableEq, Repr

def gtCompressorCreate (buf : Option (List U8)) (t0 : I64) (width : Nat) : Option GorillatsCompressor :=
  match buf with
  | none => none
  | some buf =>
    if buf.length < 8 then none
    else
      some
        { w := gtPutBits (gtWriterInit buf buf.length) t0 64
          ts := { prevTs := t0, prevDelta := 0 }
          vs := {}
          width := width }

def gorillatsCompressorCreate (buf : Option (List U8)) (t0 : I64) : Option GorillatsCompressor :=
  gtCompressorCreate buf t0 64

def gorillatsCompressorCreateF32 (buf : Option (List U8)) (t0 : I64) : Option GorillatsCompressor :=
  gtCompressorCreate buf t0 32

/-- The two encoder calls every compress function makes for a point. -/
def encodePoint (width : Nat) (c : GorillatsCompressor) (ts : I64) (bits : U64) : GorillatsCompressor :=
  let (w, tss) := gtTsEncode c.w c.ts ts
  let (w, vss) := gtValEncode w c.vs bits width
  { c with w := w, ts := tss, vs := vss }

def GorillatsCompressor.status (c : GorillatsCompressor) : Status := if c.w.overflow then .errOverflow else .ok

def compressWidth (width : Nat) (c : Option GorillatsCompressor) (ts : I64) (bits : U64) :
    Status × Option GorillatsCompressor :=
  match c with
  | none => (.errArg, none)
  | some c =>
    if c.width ≠ width then (.errArg, some c)
    else
      let c := encodePoint width c ts bits
      (c.status, some c)

def gorillatsCompress (c : Option GorillatsCompressor) (ts : I64) (val : BitVec 64) :
    Status × Option GorillatsCompressor :=
  compressWidth 64 c ts (gtDoubleToBits val)

def gorillatsCompressF32 (c : Option GorillatsCompressor) (ts : I64) (val : BitVec 32) :
    Status × Option GorillatsCompressor :=
  compressWidth 32 c ts (gtFloatToBits val)

/-- The batch loop: the number of points encoded before the one that overflowed, and the compressor after it. -/
def compressLoop (width : Nat) (c : GorillatsCompressor) : List (I64 × U64) → Nat × GorillatsCompressor
  | [] => (0, c)
  | (ts, bits) :: pts =>
    let c := encodePoint width c ts bits
    if c.w.overflow then (0, c)
    else
      let (i, c) := compressLoop width c pts
      (i + 1, c)

/-- The status, `*written` (0 where the source leaves it alone) and the handle.  The arrays hold at least `n` entries,
as C requires. -/
def compressBatchWidth (width : Nat) (c : Option GorillatsCompressor) (ts : Option (List I64))
    (bits : Option (List U64)) (n : Nat) : Status × Nat × Option GorillatsCompressor :=
  match c with
  | none => (.errArg, 0, none)
  | some c =>
    if c.width ≠ width ∨ n ≠ 0 ∧ (ts = none ∨ bits = none) then (.errArg, 0, some c)
    else
      let (i, c) := compressLoop width c (((ts.getD []).zip (bits.getD [])).take n)
      (c.status, i, some c)

def gorillatsCompressBatch (c : Option GorillatsCompressor) (ts : Option (List I64)) (vals : Option (List (BitVec 64)))
    (n : Nat) : Status × Nat × Option GorillatsCompressor :=
  compressBatchWidth 64 c ts (vals.map (·.map gtDoubleToBits)) n

def gorillatsCompressBatchF32 (c : Option GorillatsCompressor) (ts : Option (List I64))
    (vals : Option (List (BitVec 32))) (n : Nat) : Status × Nat × Option GorillatsCompressor :=
  compressBatchWidth 32 c ts (vals.map (·.map gtFloatToBits)) n

def gorillatsCompressorFinish : Option GorillatsCompressor → Nat
  | none => 0
  | some c => gtWriterLen c.w

/-! ## Decompressor -/

structure GorillatsDecompressor where
  r     : GtReader
  ts    : GtTsState
  vs    : GtValState
  width : Nat
deriving DecidableEq, Repr

def gtDecompressorCreate (buf : Option (List U8)) (width : Nat) : Option GorillatsDecompressor :=
  match buf with
  | none => none
  | some buf =>
    if buf.length < 8 then none
    else
      let (t0, r) := gtGetBits 64 (gtReaderInit buf buf.length)
      some { r := r, ts := { prevTs := t0, prevDelta := 0 }, vs := {}, width := width }

def gorillatsDecompressorCreate (buf : Option (List U8)) : Option GorillatsDecompressor :=
  gtDecompressorCreate buf 64

def gorillatsDecompressorCreateF32 (buf : Option (List U8)) : Option GorillatsDecompressor :=
  gtDecompressorCreate buf 32

section Decode

variable (ub : U64 → Int → U64)

/-- The two decoder calls every decompress function makes for a point. -/
def decodePoint (width : Nat) (d : GorillatsDecompressor) : Except Status (I64 × U64) × GorillatsDecompressor :=
  match gtTsDecode d.ts d.r with
  | ((.error rc, tss), r) => (.error rc, { d with r := r, ts := tss })
  | ((.ok ts, tss), r) =>
    match gtValDecode ub d.vs width r with
    | ((.error rc, vss), r) => (.error rc, { d with r := r, ts := tss, vs := vss })
    | ((.ok bits, vss), r) => (.ok (ts, bits), { d with r := r, ts := tss, vs := vss })

def decompressNextWidth (width : Nat) (d : Option GorillatsDecompressor) (outs : Bool) :
    Except Status (I64 × U64) × Option GorillatsDecompressor :=
  match d with
  | none => (.error .errArg, none)
  | some d =>
    if d.width ≠ width ∨ !outs then (.error .errArg, some d)
    else
      let (rc, d) := decodePoint ub width d
      (rc, some d)

def gorillatsDecompressNext (d : Option GorillatsDecompressor) (outs : Bool := true) :
    Except Status (I64 × BitVec 64) × Option GorillatsDecompressor :=
  let (rc, d) := decompressNextWidth ub 64 d outs
  (rc.map fun p => (p.1, gtBitsToDouble p.2), d)

def gorillatsDecompressNextF32 (d : Option GorillatsDecompressor) (outs : Bool := true) :
    Except Status (I64 × BitVec 32) × Option GorillatsDecompressor :=
  let (rc, d) := decompressNextWidth ub 32 d outs
  (rc.map fun p => (p.1, gtBitsToFloat p.2), d)

/-- The batch loop: the entries written, the status it stopped with and the decompressor after it. -/
def decompressLoop (width : Nat) : Nat → GorillatsDecompressor →
    List (I64 × U64) × Status × GorillatsDecompressor
  | 0, d => ([], .ok, d)
  | n + 1, d =>
    match decodePoint ub width d with
    | (.error rc, d) => ([], rc, d)
    | (.ok p, d) =>
      let (pts, rc, d) := decompressLoop width n d
      (p :: pts, rc, d)

/-- The status, the first `*decoded` entries of the arrays and the handle. -/
def decompressBatchWidth (width : Nat) (d : Option GorillatsDecompressor) (n : Nat) (outs : Bool) :
    Status × List (I64 × U64) × Option GorillatsDecompressor :=
  match d with
  | none => (.errArg, [], none)
  | some d =>
    if d.width ≠ width ∨ n ≠ 0 ∧ !outs then (.errArg, [], some d)
    else
      let (pts, rc, d) := decompressLoop ub width n d
      (if pts.length = n then .ok else rc, pts, some d)

def gorillatsDecompressBatch (d : Option GorillatsDecompressor) (n : Nat) (outs : Bool := true) :
    Status × List (I64 × BitVec 64) × Option GorillatsDecompressor :=
  let (rc, pts, d) := decompressBatchWidth ub 64 d n outs
  (rc, pts.map fun p => (p.1, gtBitsToDouble p.2), d)

def gorillatsDecompressBatchF32 (d : Option GorillatsDecompressor) (n : Nat) (outs : Bool := true) :
    Status × List (I64 × BitVec 32) × Option GorillatsDecompressor :=
  let (rc, pts, d) := decompressBatchWidth ub 32 d n outs
  (rc, pts.map fun p => (p.1, gtBitsToFloat p.2), d)

end Decode

/-! ## The two value types

`value_traits` of the C++ wrapper: the functions of the C ABI that serve a value type. -/

inductive ValueType where
  | double
  | float
deriving DecidableEq, Repr

namespace ValueType

def width : ValueType → Nat
  | double => 64
  | float => 32

def tag : ValueType → U8
  | double => 0
  | float => 1

end ValueType

/-- A value is its bit pattern. -/
abbrev Value (T : ValueType) := BitVec T.width

abbrev Point (T : ValueType) := I64 × Value T

namespace ValueType

def toBits : (T : ValueType) → Value T → U64
  | double => gtDoubleToBits
  | float => gtFloatToBits

def ofBits : (T : ValueType) → U64 → Value T
  | double => gtBitsToDouble
  | float => gtBitsToFloat

def create : ValueType → Option (List U8) → I64 → Option GorillatsCompressor
  | double => gorillatsCompressorCreate
  | float => gorillatsCompressorCreateF32

def compress : (T : ValueType) → Option GorillatsCompressor → I64 → Value T → Status × Option GorillatsCompressor
  | double => gorillatsCompress
  | float => gorillatsCompressF32

def compressBatch : (T : ValueType) → Option GorillatsCompressor → Option (List I64) → Option (List (Value T)) →
    Nat → Status × Nat × Option GorillatsCompressor
  | double => gorillatsCompressBatch
  | float => gorillatsCompressBatchF32

def openStream : ValueType → Option (List U8) → Option GorillatsDecompressor
  | double => gorillatsDecompressorCreate
  | float => gorillatsDecompressorCreateF32

def next (ub : U64 → Int → U64) : (T : ValueType) → Option GorillatsDecompressor →
    Except Status (Point T) × Option GorillatsDecompressor
  | double => gorillatsDecompressNext ub
  | float => gorillatsDecompressNextF32 ub

def decodeBatch (ub : U64 → Int → U64) : (T : ValueType) → Option GorillatsDecompressor → Nat →
    Status × List (Point T) × Option GorillatsDecompressor
  | double => gorillatsDecompressBatch ub
  | float => gorillatsDecompressBatchF32 ub

end ValueType

end Gorillats
