import Gorillats.Api
/-!
# Runs — sequences of calls on one handle

A compressor is driven by single and batch calls, a decompressor by next and batch calls; what the caller sees is the
list of answers.  `deltaOfDeltas` is what the timestamps handed to a compressor amount to.
-/
namespace Gorillats

/-! ## Compressor -/

section Encode

variable {T : ValueType}

/-- One `gorillats_compress` call a point: the answers, and the handle after them. -/
def compressEach : Option GorillatsCompressor → List (Point T) → List Status × Option GorillatsCompressor
  | c, [] => ([], c)
  | c, p :: pts =>
    let (rc, c) := T.compress c p.1 p.2
    let (rcs, c) := compressEach c pts
    (rc :: rcs, c)

/-- A call on a compressor. -/
inductive Call (T : ValueType) where
  | compress (p : Point T)
  | batch (pts : List (Point T))

def Call.points : Call T → List (Point T)
  | compress p => [p]
  | batch pts => pts

/-- The call's status and the number of its points it accepted: one for a single `GORILLATS_OK`, `*written` for a
batch. -/
def Call.run : Call T → Option GorillatsCompressor → (Status × Nat) × Option GorillatsCompressor
  | compress p, c =>
    let (rc, c) := T.compress c p.1 p.2
    ((rc, if rc = .ok then 1 else 0), c)
  | batch pts, c =>
    let (rc, written, c) := T.compressBatch c (some (pts.map (·.1))) (some (pts.map (·.2))) pts.length
    ((rc, written), c)

def runCalls : Option GorillatsCompressor → List (Call T) → List (Status × Nat) × Option GorillatsCompressor
  | c, [] => ([], c)
  | c, call :: calls =>
    let (r, c) := call.run c
    let (rs, c) := runCalls c calls
    (r :: rs, c)

/-- Every point handed to the compressor, in order. -/
def fed (calls : List (Call T)) : List (Point T) := calls.flatMap Call.points

/-- The points the answers acknowledge. -/
def acked : List (Call T) → List (Status × Nat) → List (Point T)
  | call :: calls, r :: rs => call.points.take r.2 ++ acked calls rs
  | _, _ => []

/-- The number of points the answers acknowledge: the single `GORILLATS_OK`s and every `*written`. -/
def accepted (rs : List (Status × Nat)) : Nat := (rs.map (·.2)).sum

/-- The buffer the compressor writes into. -/
def bufferOf : Option GorillatsCompressor → List U8
  | none => []
  | some c => c.w.buf

/-- The compressor's stream: the first `finish()` bytes of its buffer. -/
def streamBytes (c : Option GorillatsCompressor) : List U8 := (bufferOf c).take (gorillatsCompressorFinish c)

end Encode

/-! ## Delta-of-deltas -/

def deltaOfDeltasFrom (prevTs prevDelta : I64) : List I64 → List I64
  | [] => []
  | ts :: tss => (ts - prevTs - prevDelta) :: deltaOfDeltasFrom ts (ts - prevTs) tss

/-- The delta-of-deltas of the timestamps, from `t0` with previous delta 0. -/
def deltaOfDeltas (t0 : I64) (tss : List I64) : List I64 := deltaOfDeltasFrom t0 0 tss

/-! ## Decompressor -/

section Decode

variable (ub : U64 → Int → U64) (T : ValueType)

/-- `n` calls of `gorillats_decompress_next`: the answers, and the handle after them. -/
def decompressEach : Nat → Option GorillatsDecompressor → List (Except Status (Point T)) × Option GorillatsDecompressor
  | 0, d => ([], d)
  | n + 1, d =>
    let (r, d) := T.next ub d
    let (rs, d) := decompressEach n d
    (r :: rs, d)

/-- A `gorillats_decompress_next` call for each entry, which says what that call's out-of-range shift yields. -/
def decompressEachBy :
    List (U64 → Int → U64) → Option GorillatsDecompressor → List (Except Status (Point T)) × Option GorillatsDecompressor
  | [], d => ([], d)
  | ub :: ubs, d =>
    let (r, d) := T.next ub d
    let (rs, d) := decompressEachBy ubs d
    (r :: rs, d)

variable {T} in
/-- The points of the `GORILLATS_OK` answers. -/
def delivered (rs : List (Except Status (Point T))) : List (Point T) := rs.filterMap Except.toOption

/-- The first eight bytes, big-endian. -/
def headerTs (data : List U8) : I64 := BitVec.ofNat 64 ((data.take 8).foldl (fun v b => 256 * v + b.toNat) 0)

variable {T} in
/-- The handle answers with exactly these points and then `GORILLATS_ERR_EOF`, however often it is called. -/
def Delivers (d : Option GorillatsDecompressor) (pts : List (Point T)) : Prop :=
  ∀ n, (decompressEach ub T n d).1 = (pts.map Except.ok ++ List.replicate n (Except.error Status.errEof)).take n

/-- A call on a decompressor. -/
inductive DecodeCall where
  | next
  | batch (n : Nat)
deriving DecidableEq, Repr

/-- The points the call asks for. -/
def DecodeCall.size : DecodeCall → Nat
  | next => 1
  | batch n => n

/-- The call's status and the points it delivered: the one of a `GORILLATS_OK`, the first `*decoded` entries of a
batch. -/
def DecodeCall.run : DecodeCall → Option GorillatsDecompressor →
    (Status × List (Point T)) × Option GorillatsDecompressor
  | next, d =>
    match T.next ub d with
    | (.ok p, d) => ((.ok, [p]), d)
    | (.error rc, d) => ((rc, []), d)
  | batch n, d =>
    let (rc, pts, d) := T.decodeBatch ub d n
    ((rc, pts), d)

def runDecodeCalls : Option GorillatsDecompressor → List DecodeCall →
    List (Status × List (Point T)) × Option GorillatsDecompressor
  | d, [] => ([], d)
  | d, call :: calls =>
    let (r, d) := call.run ub T d
    let (rs, d) := runDecodeCalls d calls
    (r :: rs, d)

end Decode

end Gorillats
