import Mathlib.Data.Nat.Bitwise
/-!
# Core — the static functions of `gorillats.c`

The bit writer and reader over a caller-owned buffer, and the timestamp and value coders, as the C core computes
them.  `uint64_t` and `int64_t` are `BitVec 64`, so arithmetic wraps modulo `2 ^ 64`; counters are `Nat`.  A reading
function is a `StateM GtReader` action; a coder that fails returns the status it answers with.
-/
namespace Gorillats

abbrev U8 := BitVec 8
abbrev U64 := BitVec 64
abbrev I64 := BitVec 64

/-- `GORILLATS_OK`, `GORILLATS_ERR_OVERFLOW`, `GORILLATS_ERR_EOF`, `GORILLATS_ERR_ARG`. -/
inductive Status where
  | ok
  | errOverflow
  | errEof
  | errArg
deriving DecidableEq, Repr

/-! ## Bit count helpers -/

def gtClz64 (x : U64) : Int := if x ≠ 0 then x.clz.toNat else 64

def gtCtz64 (x : U64) : Int := if x ≠ 0 then x.ctz.toNat else 64

/-! ## Bit writer -/

/-- `gt_writer`.  `buf` is the caller's whole buffer, `bitPos` the next bit within the byte, 0 the most significant. -/
structure GtWriter where
  buf      : List U8
  cap      : Nat
  bytePos  : Nat
  bitPos   : Nat
  overflow : Bool
deriving DecidableEq, Repr

def gtWriterInit (buf : List U8) (cap : Nat) : GtWriter :=
  { buf := if 0 < cap then buf.set 0 0 else buf, cap := cap, bytePos := 0, bitPos := 0, overflow := false }

def gtPutBit (w : GtWriter) (bit : Bool) : GtWriter :=
  if w.cap ≤ w.bytePos then { w with overflow := true }
  else
    let buf := if bit then w.buf.modify w.bytePos (· ||| 1#8 <<< (7 - w.bitPos)) else w.buf
    if w.bitPos + 1 = 8 then
      { w with
        buf := if w.bytePos + 1 < w.cap then buf.set (w.bytePos + 1) 0 else buf
        bytePos := w.bytePos + 1
        bitPos := 0 }
    else { w with buf := buf, bitPos := w.bitPos + 1 }

/-- `gt_put_bits`: bits `nbits - 1` down to `0` of `value`. -/
def gtPutBits (w : GtWriter) (value : U64) : Nat → GtWriter
  | 0 => w
  | i + 1 => gtPutBits (gtPutBit w (value.getLsbD i)) value i

def gtWriterLen (w : GtWriter) : Nat := w.bytePos + if w.bitPos ≠ 0 then 1 else 0

/-! ## Bit reader -/

structure GtReader where
  buf     : List U8
  cap     : Nat
  bytePos : Nat
  bitPos  : Nat
  eof     : Bool
deriving DecidableEq, Repr

def gtReaderInit (buf : List U8) (cap : Nat) : GtReader :=
  { buf := buf, cap := cap, bytePos := 0, bitPos := 0, eof := false }

def gtGetBit : StateM GtReader Bool := fun r =>
  if r.cap ≤ r.bytePos then (false, { r with eof := true })
  else
    let bit := (r.buf.getD r.bytePos 0 >>> (7 - r.bitPos)).getLsbD 0
    if r.bitPos + 1 = 8 then (bit, { r with bytePos := r.bytePos + 1, bitPos := 0 })
    else (bit, { r with bitPos := r.bitPos + 1 })

/-- The loop of `gt_get_bits`, after the bits read into `v`. -/
def gtGetBitsFrom (v : U64) : Nat → StateM GtReader U64
  | 0 => pure v
  | n + 1 => do
    let bit ← gtGetBit
    gtGetBitsFrom (v <<< 1 ||| (BitVec.ofBool bit).setWidth 64) n

def gtGetBits (nbits : Nat) : StateM GtReader U64 := gtGetBitsFrom 0 nbits

/-! ## Coder states -/

structure GtTsState where
  prevTs    : I64
  prevDelta : I64
deriving DecidableEq, Repr

/-- `gt_val_state`; `{}` is the zeroed state of a fresh coder. -/
structure GtValState where
  prevBits : U64  := 0
  prevLz   : Int  := 0
  prevTz   : Int  := 0
  hasValue : Bool := false
  hasBlock : Bool := false
deriving DecidableEq, Repr

/-! ## Timestamps -/

def gtFitsSigned (v : I64) (bits : Nat) : Bool :=
  let lo := -(1#64 <<< (bits - 1))
  let hi := 1#64 <<< (bits - 1) - 1
  lo.sle v && v.sle hi

def gtSignExtend (v : U64) (bits : Nat) : I64 :=
  let m := 1#64 <<< (bits - 1)
  (v ^^^ m) - m

def gtTsEncode (w : GtWriter) (s : GtTsState) (ts : I64) : GtWriter × GtTsState :=
  let delta := ts - s.prevTs
  let dod := delta - s.prevDelta
  let s := { prevTs := ts, prevDelta := delta }
  if dod = 0 then (gtPutBit w false, s)
  else if gtFitsSigned dod 7 then (gtPutBits (gtPutBits w 0x2 2) dod 7, s)
  else if gtFitsSigned dod 9 then (gtPutBits (gtPutBits w 0x6 3) dod 9, s)
  else if gtFitsSigned dod 12 then (gtPutBits (gtPutBits w 0xE 4) dod 12, s)
  -- the last bucket takes every remaining delta-of-delta and keeps its low 32 bits
  else (gtPutBits (gtPutBits w 0xF 4) dod 32, s)

/-- The delta-of-delta `gt_ts_decode` reads, before its end-of-stream check. -/
def gtReadDod : StateM GtReader I64 := do
  if (← gtGetBit) = false then return 0
  else if (← gtGetBit) = false then return gtSignExtend (← gtGetBits 7) 7
  else if (← gtGetBit) = false then return gtSignExtend (← gtGetBits 9) 9
  else if (← gtGetBit) = false then return gtSignExtend (← gtGetBits 12) 12
  else return gtSignExtend (← gtGetBits 32) 32

def gtTsDecode (s : GtTsState) : StateM GtReader (Except Status I64 × GtTsState) := do
  let dod ← gtReadDod
  if (← get).eof then return (.error .errEof, s)
  else
    let delta := dod + s.prevDelta
    let ts := s.prevTs + delta
    return (.ok ts, { prevTs := ts, prevDelta := delta })

/-! ## Values -/

/-- `gt_val_encode`.  The shift amounts and field widths are `int`s in the source; a loop over a negative width writes
nothing, and the encoder's own windows never make a shift amount negative. -/
def gtValEncode (w : GtWriter) (s : GtValState) (bits : U64) (width : Nat) : GtWriter × GtValState :=
  if !s.hasValue then (gtPutBits w bits width, { s with prevBits := bits, hasValue := true })
  else
    let x := bits ^^^ s.prevBits
    let s := { s with prevBits := bits }
    if x = 0 then (gtPutBit w false, s)
    else
      let w := gtPutBit w true
      let lz := gtClz64 x - (64 - width)
      let tz := gtCtz64 x
      let lz := if lz > 31 then 31 else lz
      if s.hasBlock ∧ lz ≥ s.prevLz ∧ tz ≥ s.prevTz ∧ width - s.prevLz - s.prevTz > 0 then
        let w := gtPutBit w false
        let sig := width - s.prevLz - s.prevTz
        (gtPutBits w (x >>> s.prevTz.toNat) sig.toNat, s)
      else
        let w := gtPutBit w true
        let sig := width - lz - tz
        let w := gtPutBits w (BitVec.ofInt 64 lz) 5
        let w := gtPutBits w (BitVec.ofInt 64 (sig - 1)) 6
        let w := gtPutBits w (x >>> tz.toNat) sig.toNat
        (w, { s with prevLz := lz, prevTz := tz, hasBlock := true })

section Decode

-- what a `uint64_t` shifted by an amount outside `[0, 63]` yields: C leaves it undefined
variable (ub : U64 → Int → U64)

/-- `x << n` on a `uint64_t` and an `int`. -/
def gtShl (x : U64) (n : Int) : U64 := if 0 ≤ n ∧ n < 64 then x <<< n.toNat else ub x n

/-- One choice of `ub`: the shift amount modulo 64, as x86-64 shifts. -/
def maskedShl (x : U64) (n : Int) : U64 := x <<< (n % 64).toNat

/-- The XOR `gt_val_decode` reads after its first bit, with the window it leaves, before its end-of-stream check. -/
def gtReadXor (s : GtValState) (width : Nat) : StateM GtReader (U64 × GtValState) := do
  if (← gtGetBit) = false then
    let sig := width - s.prevLz - s.prevTz
    let meaningful ← gtGetBits sig.toNat
    return (gtShl ub meaningful s.prevTz, s)
  else
    let lz : Int := (← gtGetBits 5).toNat
    let sig : Int := (← gtGetBits 6).toNat + 1
    let meaningful ← gtGetBits sig.toNat
    let tz := width - lz - sig
    return (gtShl ub meaningful tz, { s with prevLz := lz, prevTz := tz, hasBlock := true })

def gtValDecode (s : GtValState) (width : Nat) : StateM GtReader (Except Status U64 × GtValState) := do
  if !s.hasValue then
    let bits ← gtGetBits width
    if (← get).eof then return (.error .errEof, s)
    else return (.ok bits, { s with prevBits := bits, hasValue := true })
  else if (← gtGetBit) = false then
    if (← get).eof then return (.error .errEof, s)
    else return (.ok s.prevBits, s)
  else
    let (x, s) ← gtReadXor ub s width
    -- a stream that ends inside the block has already moved the window
    if (← get).eof then return (.error .errEof, s)
    else
      let bits := s.prevBits ^^^ x
      return (.ok bits, { s with prevBits := bits })

end Decode

/-! ## Bit patterns

A `double` and a `float` are their IEEE-754 bit patterns. -/

def gtDoubleToBits (d : BitVec 64) : U64 := d
def gtBitsToDouble (b : U64) : BitVec 64 := b
def gtFloatToBits (f : BitVec 32) : U64 := f.setWidth 64
def gtBitsToFloat (b : U64) : BitVec 32 := b.setWidth 32

end Gorillats
