import Gorillats.Envelope
import Gorillats.Runs
/-!
# Rust — the Rust wrapper (`lib.rs`)

A method that takes `&mut self` returns the object; a failed `assert!` is a panic with its message.  `usize` has 64
bits, integer arithmetic wraps (release profile).  Allocations succeed; a capacity is checked first, as `alloc` does.
`buffer` is read where the writer keeps it (`bufferOf`).
-/
namespace Gorillats
namespace Rust

inductive Error where
  | overflow
  | badHeader
  | truncated
deriving DecidableEq, Repr

/-- What a call comes to: `Ok`, `Err`, or a panic that reaches the caller. -/
inductive Outcome (α : Type) where
  | ok (a : α)
  | err (e : Error)
  | panic (msg : String)
deriving DecidableEq, Repr

def Outcome.bind {α β : Type} : Outcome α → (α → Outcome β) → Outcome β
  | ok a, k => k a
  | err e, _ => err e
  | panic msg, _ => panic msg

/-- `MAGIC`: `*b"GTS1"`. -/
def magic : List U8 := ['G', 'T', 'S', '1'].map fun c => BitVec.ofNat 8 c.toNat

/-- The `$tag` of the two instances of `impl_codec!`. -/
def tag : ValueType → U8
  | .double => 0
  | .float => 1

/-- `u64::to_le_bytes`. -/
def toLeBytes (v : U64) : List U8 := (List.range 8).map fun i => v.extractLsb' (8 * i) 8

/-- `u64::from_le_bytes`. -/
def fromLeBytes (bytes : List U8) : U64 := bytes.foldr (fun b v => v <<< 8 ||| b.setWidth 64) 0

theorem magic_eq : magic = Gorillats.magic := rfl

theorem tag_eq (T : ValueType) : tag T = T.tag := by cases T <;> rfl

theorem toLeBytes_eq (v : U64) : toLeBytes v = leBytes v := by
  refine List.map_congr_left fun i _ => BitVec.eq_of_getLsbD_eq fun j hj => ?_
  rw [BitVec.getLsbD_extractLsb', BitVec.getLsbD_setWidth, BitVec.getLsbD_and, BitVec.getLsbD_ushiftRight,
    getLsbD_0xFF j (by omega)]
  simp [hj]

theorem getLsbD_fromLeBytes : ∀ (p : List U8) {j : Nat}, j < 64 →
    (fromLeBytes p).getLsbD j = (p.getD (j / 8) 0).getLsbD (j % 8)
  | [], j, _ => by simp [fromLeBytes]
  | b :: p, j, hj => by
    rw [fromLeBytes, List.foldr_cons, ← fromLeBytes, BitVec.getLsbD_or, BitVec.getLsbD_shiftLeft,
      BitVec.getLsbD_setWidth]
    rcases Nat.lt_or_ge j 8 with hlow | hhigh
    · simp [hlow, hj, Nat.div_eq_of_lt hlow, Nat.mod_eq_of_lt hlow]
    · have hdiv : j / 8 = (j - 8) / 8 + 1 := by omega
      have hmod : j % 8 = (j - 8) % 8 := by omega
      rw [getLsbD_fromLeBytes p (by omega), BitVec.getLsbD_of_ge b j hhigh, hdiv, hmod, List.getD_cons_succ]
      simp [hj, show ¬ j < 8 by omega]

theorem fromLeBytes_eq (p : List U8) : fromLeBytes p = getU64Le p :=
  BitVec.eq_of_getLsbD_eq fun j hj => by rw [getLsbD_fromLeBytes p hj, getLsbD_getU64Le p hj]

/-- A vector of `n` elements of `size` bytes is made. -/
def withCapacity (size n : Nat) : Outcome Unit :=
  if maxLen size < n then .panic "capacity overflow" else .ok ()

/-! ## Compressor -/

structure Compressor (T : ValueType) where
  handle : Option GorillatsCompressor
  count  : U64
deriving DecidableEq, Repr

namespace Compressor

variable {T : ValueType}

def new (T : ValueType) (t0 : I64) (capacity : Nat) : Outcome (Compressor T) :=
  let buffer := List.replicate (max capacity 8) 0
  match T.create (some buffer) t0 with
  | none => .panic "gorillats: allocation failed"
  | some handle => .ok { handle := some handle, count := 0 }

def append (c : Compressor T) (ts : I64) (value : Value T) : Outcome Unit × Compressor T :=
  let (rc, handle) := T.compress c.handle ts value
  let c := { c with handle := handle }
  if rc = .errOverflow then (.err .overflow, c)
  else (.ok (), { c with count := c.count + 1 })

def appendSlice (c : Compressor T) (timestamps : List I64) (values : List (Value T)) : Outcome Unit × Compressor T :=
  if timestamps.length ≠ values.length then (.panic "timestamps and values must have equal length", c)
  else
    let n := timestamps.length
    let (rc, written, handle) := T.compressBatch c.handle (some timestamps) (some values) n
    let c := { handle := handle, count := c.count + BitVec.ofNat 64 written }
    if rc = .errOverflow then (.err .overflow, c) else (.ok (), c)

def len (c : Compressor T) : U64 := c.count

def isEmpty (c : Compressor T) : Bool := c.count == 0

def finish (c : Compressor T) : List U8 :=
  let streamLen := gorillatsCompressorFinish c.handle
  magic ++ [tag T] ++ [0, 0, 0] ++ toLeBytes c.count ++ (bufferOf c.handle).take streamLen

/-- An append, single or batch. -/
def call (c : Compressor T) : Call T → Outcome Unit × Compressor T
  | .compress p => c.append p.1 p.2
  | .batch pts => c.appendSlice (pts.map (·.1)) (pts.map (·.2))

end Compressor

/-! ## Decompressor -/

structure Decompressor (T : ValueType) where
  data  : List U8
  count : U64
deriving DecidableEq, Repr

/-- The iterator of `Decompressor::iter`.  `remaining` only ever counts down from the recorded count. -/
structure Points (T : ValueType) where
  handle    : Option GorillatsDecompressor
  remaining : Nat
deriving DecidableEq, Repr

section Read

variable {T : ValueType} (ub : U64 → Int → U64)

namespace Points

def next (it : Points T) : Option (Point T) × Points T :=
  if it.remaining = 0 then (none, it)
  else
    match T.next ub it.handle with
    | (.error _, handle) => (none, { handle := handle, remaining := 0 })
    | (.ok p, handle) => (some p, { handle := handle, remaining := it.remaining - 1 })

def sizeHint (it : Points T) : Nat × Option Nat := (it.remaining, some it.remaining)

/-- The items up to the first `None`; `fuel` bounds the rounds. -/
def items : Nat → Points T → List (Point T)
  | 0, _ => []
  | fuel + 1, it =>
    match it.next ub with
    | (none, _) => []
    | (some p, it) => p :: items fuel it

/-- `collect()` into a vector, which is made at the first item, with room for it and what `size_hint` then promises. -/
def collect (it : Points T) : Outcome (List (Point T)) :=
  match it.next ub with
  | (none, _) => .ok []
  | (some p, it) => (withCapacity pointSize (it.sizeHint.1 + 1)).bind fun _ => .ok (p :: it.items ub it.remaining)

end Points

namespace Decompressor

def new (T : ValueType) (data : List U8) : Outcome (Decompressor T) :=
  if data.length < headerSize ∨ data.take 4 ≠ magic then .err .badHeader
  else if data.getD 4 0 ≠ tag T then .err .badHeader
  else .ok { data := data, count := fromLeBytes ((data.drop 8).take 8) }

def len (d : Decompressor T) : U64 := d.count

def isEmpty (d : Decompressor T) : Bool := d.count == 0

def iter (d : Decompressor T) : Outcome (Points T) :=
  let payload := d.data.drop headerSize
  match T.openStream (some payload) with
  | none => .panic "gorillats: allocation failed"
  | some handle => .ok { handle := some handle, remaining := d.count.toNat }

def intoIter (d : Decompressor T) : Outcome (List (Point T)) :=
  d.iter.bind fun it => it.collect ub

def toColumns (d : Decompressor T) : Outcome (List I64 × List (Value T)) :=
  let n := d.count.toNat
  (withCapacity 8 n).bind fun _ => (withCapacity (T.width / 8) n).bind fun _ =>
    if n > 0 then
      let payload := d.data.drop headerSize
      match T.openStream (some payload) with
      | none => .panic "gorillats: allocation failed"
      | some handle =>
        let (_, decoded, _) := T.decodeBatch ub (some handle) n
        .ok (decoded.map (·.1), decoded.map (·.2))
    else .ok ([], [])

end Decompressor

end Read

end Rust
end Gorillats
