import Gorillats.Envelope
import Gorillats.Runs
/-!
# Cpp — the C++ wrapper (`gorillats.hpp`)

A member function that changes the object returns it; an exception is an error, and the object keeps what was done
before the throw.  `std::size_t` has 64 bits.  Allocations succeed; `reserve` checks its argument first, as libstdc++
does.  `buffer_` is read where the writer keeps it (`bufferOf`).
-/
namespace Gorillats
namespace Cpp

/-- The exceptions thrown, with their `what()`. -/
inductive Exception where
  | badAlloc
  | lengthError (what : String)
  | overflowError (what : String)
  | runtimeError (what : String)
  | invalidArgument (what : String)
deriving DecidableEq, Repr

def kMagic : List U8 := ['G', 'T', 'S', '1'].map fun c => BitVec.ofNat 8 c.toNat

/-- `value_traits::tag`. -/
def tag : ValueType → U8
  | .double => 0
  | .float => 1

/-- The bytes `put_u64_le` stores. -/
def putU64Le (v : U64) : List U8 := (List.range 8).map fun i => (v >>> (8 * i) &&& 0xFF).setWidth 8

theorem kMagic_eq : kMagic = magic := rfl

theorem tag_eq (T : ValueType) : tag T = T.tag := by cases T <;> rfl

theorem putU64Le_eq (v : U64) : putU64Le v = leBytes v := rfl

/-- The first `n` bytes of `src` over those of `dst` from `offset` on. -/
def memcpy (dst : List U8) (offset : Nat) (src : List U8) (n : Nat) : List U8 :=
  dst.take offset ++ src.take n ++ dst.drop (offset + n)

/-! ## Compressor -/

structure BasicCompressor (T : ValueType) where
  raw   : Option GorillatsCompressor
  count : U64
deriving DecidableEq, Repr

namespace BasicCompressor

variable {T : ValueType}

def new (T : ValueType) (t0 : I64) (capacity : Nat := 65536) : Except Exception (BasicCompressor T) :=
  match T.create (some (List.replicate capacity 0)) t0 with
  | none => .error .badAlloc
  | some c => .ok { raw := some c, count := 0 }

def append (c : BasicCompressor T) (ts : I64) (value : Value T) : Except Exception Unit × BasicCompressor T :=
  let (rc, raw) := T.compress c.raw ts value
  let c := { c with raw := raw }
  if rc = .errOverflow then (.error (.overflowError "gorillats: output buffer full"), c)
  else if rc ≠ .ok then (.error (.runtimeError "gorillats: compression failed"), c)
  else (.ok (), { c with count := c.count + 1 })

def appendBatch (c : BasicCompressor T) (timestamps : Option (List I64)) (values : Option (List (Value T))) (n : Nat) :
    Except Exception Unit × BasicCompressor T :=
  let (rc, written, raw) := T.compressBatch c.raw timestamps values n
  let c := { raw := raw, count := c.count + BitVec.ofNat 64 written }
  if rc = .errOverflow then (.error (.overflowError "gorillats: output buffer full"), c)
  else if rc ≠ .ok then (.error (.runtimeError "gorillats: compression failed"), c)
  else (.ok (), c)

def size (c : BasicCompressor T) : U64 := c.count

def bytes (c : BasicCompressor T) : List U8 :=
  let streamLen := gorillatsCompressorFinish c.raw
  let out := List.replicate (headerSize + streamLen) 0
  let out := memcpy out 0 kMagic 4
  let out := out.set 4 (tag T)
  let out := memcpy out 8 (putU64Le c.count) 8
  memcpy out headerSize (bufferOf c.raw) streamLen

/-- An append, single or batch. -/
def call (c : BasicCompressor T) : Call T → Except Exception Unit × BasicCompressor T
  | .compress p => c.append p.1 p.2
  | .batch pts => c.appendBatch (some (pts.map (·.1))) (some (pts.map (·.2))) pts.length

end BasicCompressor

/-! ## Decompressor -/

structure BasicDecompressor (T : ValueType) where
  data  : List U8
  count : U64
deriving DecidableEq, Repr

/-- `BasicDecompressor::iterator`.  `remaining_` only ever counts down from the recorded count. -/
structure Iterator (T : ValueType) where
  dec       : Option GorillatsDecompressor := none
  current   : Point T                      := (0, 0)
  remaining : Nat                          := 0
deriving DecidableEq, Repr

section Read

variable {T : ValueType} (ub : U64 → Int → U64)

namespace Iterator

def fetch (it : Iterator T) : Except Exception (Iterator T) :=
  match T.next ub it.dec with
  | (.error _, _) => .error (.runtimeError "gorillats: truncated stream")
  | (.ok p, dec) => .ok { it with dec := dec, current := p }

def new (buf : List U8) (remaining : Nat) : Except Exception (Iterator T) :=
  let it : Iterator T := { remaining := remaining }
  if 0 < remaining then fetch ub { it with dec := T.openStream (some buf) } else .ok it

def incr (it : Iterator T) : Except Exception (Iterator T) :=
  if 0 < it.remaining then
    let it := { it with remaining := it.remaining - 1 }
    if 0 < it.remaining then fetch ub it else .ok it
  else .ok it

/-- `operator==`. -/
def eq (it o : Iterator T) : Bool := it.remaining == o.remaining

/-- A loop over the iterator up to `end()`; `fuel` bounds its rounds. -/
def drain : Nat → Iterator T → Except Exception (List (Point T))
  | 0, _ => .ok []
  | fuel + 1, it =>
    if it.remaining = 0 then .ok []
    else do
      let p := it.current
      let it ← it.incr ub
      let out ← drain fuel it
      return p :: out

end Iterator

namespace BasicDecompressor

def new (T : ValueType) (data : List U8) : Except Exception (BasicDecompressor T) :=
  if data.length < headerSize ∨ data.take 4 ≠ kMagic then .error (.invalidArgument "gorillats: bad stream header")
  else if data.getD 4 0 ≠ tag T then .error (.invalidArgument "gorillats: value type mismatch")
  else .ok { data := data, count := getU64Le (data.drop 8) }

def size (d : BasicDecompressor T) : U64 := d.count

def begin (d : BasicDecompressor T) : Except Exception (Iterator T) :=
  Iterator.new ub (d.data.drop headerSize) d.count.toNat

/-- `end()`. -/
def end_ (_ : BasicDecompressor T) : Iterator T := {}

/-- `reserve(n)` of a vector of points. -/
def reserve (n : Nat) : Except Exception Unit :=
  if maxLen pointSize < n then .error (.lengthError "vector::reserve") else .ok ()

def toVector (d : BasicDecompressor T) : Except Exception (List (Point T)) := do
  reserve d.count.toNat
  let it ← d.begin ub
  it.drain ub d.count.toNat

/-- The points written to the caller's arrays. -/
def decodeInto (d : BasicDecompressor T) : Except Exception (List (Point T)) :=
  if d.count = 0 then .ok []
  else
    let (rc, decoded, _) := T.decodeBatch ub (T.openStream (some (d.data.drop headerSize))) d.count.toNat
    if rc ≠ .ok ∧ decoded.length ≠ d.count.toNat then .error (.runtimeError "gorillats: truncated stream")
    else .ok decoded

end BasicDecompressor

end Read

end Cpp
end Gorillats
