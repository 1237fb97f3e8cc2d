import Gorillats.Extension
import Gorillats.Growth
import Gorillats.OneShot
/-!
# Sessions — the Python objects, and the three languages together

A `Compressor` of the Python module is the C++ one behind a check of the array lengths, so a session is the run of its
other requests (`Machine.Filters`), and its bytes are those of the C++ and the Rust compressor fed the same.  Any of
these envelopes is read by every reader of the three languages.
-/
namespace Gorillats

variable {T : ValueType}

namespace Cpp

/-- The machine of appends to a C++ compressor. -/
def machine (T : ValueType) : Machine (BasicCompressor T) (Call T) (Except Exception Unit) := fun c call => c.call call

theorem appends_eq_run : ∀ (calls : List (Call T)) (c : BasicCompressor T), appends c calls = (machine T).run c calls
  | [], _ => rfl
  | call :: calls, c => by
    rw [appends_cons, Machine.run_cons, appends_eq_run calls]
    rfl

end Cpp

/-! ## Reading an envelope -/

/-- **Every reader of the type reads the points**, and every reader of another type refuses the envelope. -/
structure ReadBy (ub : U64 → Int → U64) (T : ValueType) (data : List U8) (pts : List (Point T)) : Prop where
  cpp    : ∃ r, Cpp.BasicDecompressor.new T data = .ok r ∧ r.size.toNat = pts.length ∧ r.toVector ub = .ok pts ∧
    r.decodeInto ub = .ok pts
  rust   : ∃ r, Rust.Decompressor.new T data = .ok r ∧ r.len.toNat = pts.length ∧ r.intoIter ub = .ok pts ∧
    r.toColumns ub = .ok (pts.map (·.1), pts.map (·.2))
  others : ∀ U, U ≠ T →
    Cpp.BasicDecompressor.new U data = .error (.invalidArgument "gorillats: value type mismatch") ∧
      Rust.Decompressor.new U data = .err .badHeader

theorem new_of_other {U : ValueType} (hU : U ≠ T) (count : U64) (payload : List U8) :
    Cpp.BasicDecompressor.new U (envelope T count payload) =
        .error (.invalidArgument "gorillats: value type mismatch") ∧
      Rust.Decompressor.new U (envelope T count payload) = .err .badHeader := by
  have h := headerOk_envelope T count payload
  have hmagic : ¬ ((envelope T count payload).length < headerSize ∨ (envelope T count payload).take 4 ≠ magic) :=
    not_or.2 ⟨Nat.not_lt.2 h.length, not_not.2 h.magic⟩
  have htag : (envelope T count payload).getD 4 0 ≠ U.tag := by
    rw [h.tag]
    cases T <;> cases U <;> first | exact absurd rfl hU | decide
  unfold Cpp.BasicDecompressor.new Rust.Decompressor.new
  rw [Cpp.kMagic_eq, Cpp.tag_eq, Rust.magic_eq, Rust.tag_eq, if_neg hmagic, if_neg hmagic, if_pos htag, if_pos htag]
  exact ⟨rfl, rfl⟩

theorem Keeps.readBy (ub : U64 → Int → U64) {init : List U8} {t0 : I64} {raw : Option GorillatsCompressor} {count : U64}
    {pts : List (Point T)} (h : Keeps init t0 raw count pts) (h8 : 8 ≤ init.length)
    (hdod : ∀ d ∈ deltaOfDeltas t0 (pts.map (·.1)), InRange d) (hfits : pts.length ≤ maxLen pointSize) :
    ReadBy ub T (envelope T count (streamBytes raw)) pts :=
  ⟨h.cpp_reads ub h8 hdod hfits, h.rust_reads ub h8 hdod hfits, fun _ hU => new_of_other hU count _⟩

namespace Python

/-! ## A session -/

/-- What a program asks of a `Compressor`. -/
inductive Request where
  | compress (ts : I64) (value : Value .double)
  | compressBatch (timestamps : List I64) (values : List (Value .double))

namespace Request

def run : Request → PyCompressor → Except Exception Unit × PyCompressor
  | compress ts value, c => c.compress ts value
  | compressBatch timestamps values, c => c.compressBatch timestamps values

/-- The append the request makes, unless its arrays differ in length. -/
def call? : Request → Option (Call .double)
  | compress ts value => some (.compress (ts, value))
  | compressBatch timestamps values =>
    if timestamps.length = values.length then some (.batch (timestamps.zip values)) else none

end Request

/-- The machine of requests to a Python compressor. -/
def machine : Machine PyCompressor Request (Except Exception Unit) := fun c req => req.run c

def mismatch : Except Exception Unit :=
  .error (.cpp (.invalidArgument "timestamps and values must have equal length"))

theorem requests_filter : machine.Filters (Cpp.machine .double) Request.call? (Except.mapError .cpp) mismatch
    (fun c impl => c.impl = impl) where
  refused := by
    rintro c _ req rfl hreq
    cases req with
    | compress ts value => cases hreq
    | compressBatch timestamps values =>
      rw [Request.call?] at hreq
      split at hreq
      · cases hreq
      · rename_i hlen
        rw [machine, Request.run, PyCompressor.compressBatch, if_pos hlen]
        rfl
  passed := by
    rintro c _ req call rfl hreq
    cases req with
    | compress ts value =>
      cases hreq
      exact ⟨rfl, rfl⟩
    | compressBatch timestamps values =>
      rw [Request.call?] at hreq
      split at hreq
      · rename_i hlen
        cases hreq
        rw [machine, Request.run, PyCompressor.compressBatch, if_neg (not_not.2 hlen), appendBatch_zip _ hlen]
        exact ⟨rfl, rfl⟩
      · cases hreq

theorem new_eq (blockTimestamp : I64) {bufferSize : Nat} (h8 : 8 ≤ bufferSize) :
    PyCompressor.new blockTimestamp bufferSize =
      .ok { impl := { raw := ValueType.double.create (some (List.replicate bufferSize 0)) blockTimestamp, count := 0 } } := by
  rw [PyCompressor.new, Cpp.BasicCompressor.new_eq blockTimestamp h8]

/-- **A Python session writes what the other languages write.**  Whatever it asks, its requests come to the C++ appends of
those with arrays of one length, a `ValueError` for each of the others, and its `get_bytes()` is the C++ `bytes()` and the
Rust `finish()`. -/
theorem sessions_agree (t0 : I64) {bufferSize : Nat} (h8 : 8 ≤ bufferSize) (reqs : List Request) :
    ∃ py cpp rust, PyCompressor.new t0 bufferSize = .ok py ∧ Cpp.BasicCompressor.new .double t0 bufferSize = .ok cpp ∧
      Rust.Compressor.new .double t0 bufferSize = .ok rust ∧
      let calls := reqs.filterMap Request.call?
      (machine.run py reqs).1 = Machine.weave Request.call? (Except.mapError .cpp) mismatch reqs (Cpp.appends cpp calls).1 ∧
        (machine.run py reqs).2.getBytes = (Cpp.appends cpp calls).2.bytes ∧
        (machine.run py reqs).2.getBytes = (Rust.appends rust calls).2.finish ∧
        (machine.run py reqs).2.size = (Cpp.appends cpp calls).2.size ∧
        (machine.run py reqs).2.size = (Rust.appends rust calls).2.len := by
  have hrust := Rust.Compressor.new_eq (T := .double) t0 bufferSize
  rw [Nat.max_eq_left h8] at hrust
  refine ⟨_, _, _, new_eq t0 h8, Cpp.BasicCompressor.new_eq t0 h8, hrust, ?_⟩
  intro calls
  obtain ⟨hanswers, himpl⟩ := requests_filter.run reqs
    (show (PyCompressor.mk ⟨ValueType.double.create (some (List.replicate bufferSize 0)) t0, 0⟩).impl =
      ⟨ValueType.double.create (some (List.replicate bufferSize 0)) t0, 0⟩ from rfl)
  rw [← Cpp.appends_eq_run] at hanswers himpl
  obtain ⟨rs, g, hrun, hans, -⟩ := runCalls_create (T := .double) (List.replicate bufferSize 0) t0 calls
    (by rwa [List.length_replicate])
  obtain ⟨-, hc⟩ := Cpp.appends_eq calls ⟨ValueType.double.create (some (List.replicate bufferSize 0)) t0, 0⟩
  obtain ⟨-, hc'⟩ := Rust.appends_eq calls ⟨ValueType.double.create (some (List.replicate bufferSize 0)) t0, 0⟩
    (by rw [hrun]; exact hans.ok_or_overflow)
  have hbytes : ∀ c : PyCompressor, c.getBytes = c.impl.bytes := fun _ => rfl
  have hsize : ∀ c : PyCompressor, c.size = c.impl.size := fun _ => rfl
  rw [hbytes, hsize, himpl]
  refine ⟨hanswers, rfl, ?_, rfl, ?_⟩
  · rw [Cpp.BasicCompressor.bytes_eq, Rust.Compressor.finish_eq, hc, hc']
  · rw [hc, hc']
    rfl

theorem sessions_agree_readings :
    ∃ py cpp rust, PyCompressor.new 1000 18 = .ok py ∧ Cpp.BasicCompressor.new .double 1000 18 = .ok cpp ∧
      Rust.Compressor.new .double 1000 18 = .ok rust ∧
      let reqs : List Request := [.compressBatch [1, 2] [3], .compressBatch (readings.map (·.1)) (readings.map (·.2)),
        .compress 5 5]
      (machine.run py reqs).2.getBytes = (Rust.appends rust (reqs.filterMap Request.call?)).2.finish := by
  obtain ⟨py, cpp, rust, hpy, hcpp, hrust, -, -, h, -⟩ := sessions_agree 1000 (by decide : 8 ≤ 18)
    [.compressBatch [1, 2] [3], .compressBatch (readings.map (·.1)) (readings.map (·.2)), .compress 5 5]
  exact ⟨py, cpp, rust, hpy, hcpp, hrust, h⟩

/-! ## What is read -/

section Read

variable (ub : U64 → Int → U64) {mutableData : Nat → Nat → Except Exception Unit}

theorem new_eq_ok {data : List U8} {r : Cpp.BasicDecompressor .double}
    (h : Cpp.BasicDecompressor.new .double data = .ok r) : PyDecompressor.new data = .ok ⟨r⟩ := by
  rw [PyDecompressor.new, h]

theorem decompressToArrays_of_error (hcheck : ChecksIndex mutableData) {d : PyDecompressor} {e : Cpp.Exception}
    (hpos : 0 < d.impl.size.toNat) (hinto : d.impl.decodeInto ub = .error e) :
    d.decompressToArrays ub mutableData = .error (.cpp e) := by
  unfold PyDecompressor.decompressToArrays
  simp only [hcheck.inside hpos, bind, Except.bind, hinto]

/-- **What a session wrote is read by every reader**: its `len()` is the number of points it acknowledged, and these come
back in C++, in Rust and in Python, by every path except `decompress_to_arrays()` without points, which raises
`IndexError`. -/
theorem session_reads (hcheck : ChecksIndex mutableData) (t0 : I64) {bufferSize : Nat} (h8 : 8 ≤ bufferSize)
    (reqs : List Request) (pts : List (Point .double))
    (hpts : pts = acked (reqs.filterMap Request.call?)
      (runCalls (ValueType.double.create (some (List.replicate bufferSize 0)) t0) (reqs.filterMap Request.call?)).1)
    (hdod : ∀ d ∈ deltaOfDeltas t0 (pts.map (·.1)), InRange d) (hfits : pts.length ≤ maxLen pointSize) :
    ∃ py, PyCompressor.new t0 bufferSize = .ok py ∧ (machine.run py reqs).2.size.toNat = pts.length ∧
      ReadBy ub .double (machine.run py reqs).2.getBytes pts ∧
      ∃ d, PyDecompressor.new (machine.run py reqs).2.getBytes = .ok d ∧ d.size.toNat = pts.length ∧
        d.decompress ub = .ok pts ∧ d.iter ub = .ok pts ∧
        d.decompressToArrays ub mutableData =
          if pts = [] then .error .indexError else .ok (pts.map (·.1), pts.map (·.2)) := by
  have hlen : 8 ≤ (List.replicate bufferSize (0 : U8)).length := by rwa [List.length_replicate]
  obtain ⟨-, himpl⟩ := requests_filter.run reqs
    (show (PyCompressor.mk ⟨ValueType.double.create (some (List.replicate bufferSize 0)) t0, 0⟩).impl =
      ⟨ValueType.double.create (some (List.replicate bufferSize 0)) t0, 0⟩ from rfl)
  rw [← Cpp.appends_eq_run] at himpl
  generalize reqs.filterMap Request.call? = calls at himpl hpts
  obtain ⟨rs, g, hrun, hans, hack⟩ := runCalls_create (T := .double) (List.replicate bufferSize 0) t0 calls hlen
  obtain ⟨-, hc⟩ := Cpp.appends_eq calls ⟨ValueType.double.create (some (List.replicate bufferSize 0)) t0, 0⟩
  rw [hrun] at hc hpts
  have hcount : accepted rs = pts.length := by rw [hpts, hans.total]
  have hkeeps : Keeps (List.replicate bufferSize 0) t0 (some g) (BitVec.ofNat 64 pts.length) pts :=
    ⟨⟨g, fed calls, rfl, hans.encodes, hpts.trans hack⟩, rfl⟩
  rw [hcount] at hc
  simp only [zero_add] at hc
  have hread := hkeeps.readBy ub hlen hdod hfits
  rw [new_eq t0 h8]
  refine ⟨_, rfl, ?_, ?_⟩
  · rw [PyCompressor.size, himpl, hc]
    exact hkeeps.toNat_count (lt_of_le_maxLen hfits)
  · rw [PyCompressor.getBytes, himpl, hc, Cpp.BasicCompressor.bytes_eq]
    refine ⟨hread, ?_⟩
    obtain ⟨r, hnew, hsize, hvec, hinto⟩ := hread.cpp
    refine ⟨⟨r⟩, new_eq_ok hnew, hsize, ?_, ?_, ?_⟩
    · rw [PyDecompressor.decompress, hvec]
      rfl
    · rw [PyDecompressor.iter, hvec]
      rfl
    · by_cases hnil : pts = []
      · rw [if_pos hnil]
        exact decompressToArrays_of_zero ub hcheck (by rw [hsize, hnil]; rfl)
      · rw [if_neg hnil]
        exact decompressToArrays_of_pos ub hcheck (by rw [hsize]; exact List.length_pos_iff.2 hnil) hinto

theorem session_reads_readings :
    ∃ py, PyCompressor.new 1000 64 = .ok py ∧
      ∃ d, PyDecompressor.new (machine.run py [.compressBatch (readings.map (·.1)) (readings.map (·.2)),
          .compressBatch [1] []]).2.getBytes = .ok d ∧
        d.decompress maskedShl = .ok readings := by
  obtain ⟨py, hpy, -, -, d, hd, -, hread, -⟩ := session_reads maskedShl checksIndex_checkedData 1000
    (by decide : 8 ≤ 64)
    [.compressBatch (readings.map (·.1)) (readings.map (·.2)), .compressBatch [1] []] readings
    (by decide +kernel) (inRange_of_all (by decide +kernel)) (by decide)
  exact ⟨py, hpy, d, hd, hread⟩

/-- **When the two decoding methods agree**, on a count that a vector can have: when it is not 0.  Then both return the same
points or both raise the same exception; for a count of 0 `decompress()` returns no points and `decompress_to_arrays()`
raises `IndexError`. -/
theorem list_and_arrays_agree_iff (hcheck : ChecksIndex mutableData) (d : PyDecompressor)
    (hfits : d.size.toNat ≤ maxLen pointSize) :
    d.decompressToArrays ub mutableData = (d.decompress ub).map (fun pts => (pts.map (·.1), pts.map (·.2))) ↔
      d.size ≠ 0 := by
  obtain ⟨r⟩ := d
  rw [show PyDecompressor.size ⟨r⟩ = r.count from rfl] at hfits ⊢
  have hvec : PyDecompressor.decompress ub ⟨r⟩ = (r.toVector ub).mapError .cpp := rfl
  rw [hvec]
  constructor
  · intro h hzero
    have hsize : (PyDecompressor.mk r).impl.size.toNat = 0 := congrArg BitVec.toNat hzero
    rw [(Cpp.BasicDecompressor.reads_of_zero ub hzero).1, decompressToArrays_of_zero ub hcheck hsize] at h
    cases h
  · intro hcount
    have hpos := toNat_pos_of_ne hcount
    rcases Nat.lt_or_ge (r.data.drop headerSize).length 8 with hlt | h8
    · have hopen := openStream_of_lt (T := .double) hlt
      rw [Cpp.BasicDecompressor.toVector_of_null ub hopen hcount hfits]
      exact decompressToArrays_of_error ub hcheck hpos (Cpp.BasicDecompressor.decodeInto_of_null ub hopen hcount)
    · obtain ⟨L, hL⟩ := exists_delivers (T := .double) ub h8
      rw [Cpp.BasicDecompressor.toVector_of_delivers ub r hL hfits]
      have hinto := Cpp.BasicDecompressor.decodeInto_of_delivers ub r hL
      by_cases hle : r.count.toNat ≤ L.length
      · rw [if_pos hle] at hinto ⊢
        exact decompressToArrays_of_pos ub hcheck hpos hinto
      · rw [if_neg hle] at hinto ⊢
        exact decompressToArrays_of_error ub hcheck hpos hinto

/-- Two points recorded over a stream of one and its padding, and none recorded over it. -/
theorem list_and_arrays_agree_iff_padded :
    let decoder (count : U64) : PyDecompressor := ⟨⟨envelope .double count (List.replicate 17 0), count⟩⟩
    let lists (count : U64) := ((decoder count).decompress maskedShl).map fun pts => (pts.map (·.1), pts.map (·.2))
    ((decoder 2).decompressToArrays maskedShl checkedData = lists 2 ↔ (decoder 2).size ≠ 0) ∧
      ((decoder 0).decompressToArrays maskedShl checkedData = lists 0 ↔ (decoder 0).size ≠ 0) :=
  ⟨list_and_arrays_agree_iff maskedShl checksIndex_checkedData _ (by decide),
    list_and_arrays_agree_iff maskedShl checksIndex_checkedData _ (by decide)⟩

end Read

end Python
end Gorillats
