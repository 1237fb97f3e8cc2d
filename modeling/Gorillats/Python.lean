import Gorillats.Cpp
/-!
# Python — the pybind11 module (`bindings.cpp`)

The module wraps the C++ classes for `double`.  A C++ exception reaches Python translated; `array_t` adds its own
`IndexError`.  `std::size_t` has 64 bits, so the estimate of the capacity wraps.  A one-dimensional array is the list of
its elements.  pybind11 is a parameter: `array_t(n)` allocates its `n` elements, `unchecked` accessors check nothing and
`mutable_data` checks its index (`ChecksIndex`).
-/
namespace Gorillats
namespace Python

/-- What a call raises: a translated C++ exception, or pybind11's `IndexError`. -/
inductive Exception where
  | cpp (e : Cpp.Exception)
  | indexError
deriving DecidableEq, Repr

/-- `worst_case_capacity`. -/
def worstCaseCapacity (n : U64) : U64 := n * 16 + 64

/-- `compress_arrays`. -/
def compressArrays (blockTimestamp : I64) (timestamps : List I64) (values : List (Value .double)) :
    Except Exception (List U8) :=
  if timestamps.length ≠ values.length then
    .error (.cpp (.invalidArgument "timestamps and values must have equal length"))
  else
    let n : U64 := BitVec.ofNat 64 timestamps.length
    match Cpp.BasicCompressor.new .double blockTimestamp (worstCaseCapacity n).toNat with
    | .error e => .error (.cpp e)
    | .ok c =>
      match c.appendBatch (some timestamps) (some values) n.toNat with
      | (.error e, _) => .error (.cpp e)
      | (.ok (), c) => .ok c.bytes

/-- What the module takes of `array_t::mutable_data(i)` on an array of `n` elements: the index is checked. -/
structure ChecksIndex (mutableData : Nat → Nat → Except Exception Unit) : Prop where
  inside  : ∀ {n i : Nat}, i < n → mutableData n i = .ok ()
  outside : ∀ {n i : Nat}, n ≤ i → mutableData n i = .error .indexError

/-- The accessor as pybind11 documents it. -/
def checkedData (n i : Nat) : Except Exception Unit := if i < n then .ok () else .error .indexError

theorem checksIndex_checkedData : ChecksIndex checkedData where
  inside h := if_pos h
  outside h := if_neg (Nat.not_lt.2 h)

/-! ## Compressor -/

structure PyCompressor where
  impl : Cpp.BasicCompressor .double
deriving DecidableEq, Repr

namespace PyCompressor

def new (blockTimestamp : I64) (bufferSize : Nat := 65536) : Except Exception PyCompressor :=
  match Cpp.BasicCompressor.new .double blockTimestamp bufferSize with
  | .error e => .error (.cpp e)
  | .ok impl => .ok { impl := impl }

def compress (c : PyCompressor) (ts : I64) (value : Value .double) : Except Exception Unit × PyCompressor :=
  let (out, impl) := c.impl.append ts value
  (out.mapError .cpp, { impl := impl })

def compressBatch (c : PyCompressor) (timestamps : List I64) (values : List (Value .double)) :
    Except Exception Unit × PyCompressor :=
  if timestamps.length ≠ values.length then
    (.error (.cpp (.invalidArgument "timestamps and values must have equal length")), c)
  else
    let (out, impl) := c.impl.appendBatch (some timestamps) (some values) timestamps.length
    (out.mapError .cpp, { impl := impl })

def getBytes (c : PyCompressor) : List U8 := c.impl.bytes

/-- `__len__`. -/
def size (c : PyCompressor) : U64 := c.impl.size

end PyCompressor

/-! ## Decompressor -/

structure PyDecompressor where
  impl : Cpp.BasicDecompressor .double
deriving DecidableEq, Repr

namespace PyDecompressor

def new (data : List U8) : Except Exception PyDecompressor :=
  match Cpp.BasicDecompressor.new .double data with
  | .error e => .error (.cpp e)
  | .ok impl => .ok { impl := impl }

def decompress (ub : U64 → Int → U64) (d : PyDecompressor) : Except Exception (List (Point .double)) :=
  (d.impl.toVector ub).mapError .cpp

/-- `__iter__`: the items of the iterator, which holds them all. -/
def iter (ub : U64 → Int → U64) (d : PyDecompressor) : Except Exception (List (Point .double)) :=
  (d.impl.toVector ub).mapError .cpp

/-- `__len__`. -/
def size (d : PyDecompressor) : U64 := d.impl.size

/-- `decompress_to_arrays`: both arrays have `size()` elements, which `decode_into` writes all or throws. -/
def decompressToArrays (ub : U64 → Int → U64) (mutableData : Nat → Nat → Except Exception Unit) (d : PyDecompressor) :
    Except Exception (List I64 × List (Value .double)) := do
  let n := d.impl.size
  mutableData n.toNat 0
  mutableData n.toNat 0
  match d.impl.decodeInto ub with
  | .error e => .error (.cpp e)
  | .ok pts => .ok (pts.map (·.1), pts.map (·.2))

end PyDecompressor

end Python
end Gorillats
