import Gorillats.Capacity
import Gorillats.Python
import Gorillats.ReadPaths
import Gorillats.Writers
/-!
# OneShot — `compress_arrays` and back

`compress_arrays` sizes its buffer by `worst_case_capacity`, which is enough for every series while `16 * n + 64` does
not wrap.  The way back fails on arrays without elements: `mutable_data(0)` is out of their bounds.
-/
namespace Gorillats
namespace Python

open BitString

/-- The buffer `compress_arrays` makes for `n` points, in bytes. -/
def oneShotCapacity (n : Nat) : Nat := (worstCaseCapacity (BitVec.ofNat 64 n)).toNat

theorem oneShotCapacity_eq {n : Nat} (h : 16 * n + 64 < 2 ^ 64) : oneShotCapacity n = 16 * n + 64 := by
  unfold oneShotCapacity worstCaseCapacity
  rw [BitVec.toNat_add, BitVec.toNat_mul, BitVec.toNat_ofNat]
  simp
  omega

/-- **The estimate covers the worst case**, for either width. -/
theorem maxPointBits_le_oneShotCapacity (T : ValueType) {n : Nat} (h : 16 * n + 64 < 2 ^ 64) :
    8 + (T.maxPointBits * n + 7) / 8 ≤ oneShotCapacity n := by
  rw [oneShotCapacity_eq h]
  cases T <;> simp only [ValueType.maxPointBits] <;> omega

theorem stream_le_oneShotCapacity (blockTimestamp : I64) {timestamps : List I64} {values : List (Value .double)}
    (hlen : timestamps.length = values.length) (hn : 16 * timestamps.length + 64 < 2 ^ 64) :
    (stream .double blockTimestamp (timestamps.zip values)).length ≤ 8 * oneShotCapacity timestamps.length := by
  have hle := length_stream_le blockTimestamp (timestamps.zip values)
  have hcap := maxPointBits_le_oneShotCapacity .double hn
  rw [List.length_zip, ← hlen, Nat.min_self] at hle
  omega

/-! ## Compressing arrays -/

section Compress

variable {blockTimestamp : I64} {timestamps : List I64} {values : List (Value .double)}

theorem appendBatch_zip (c : Cpp.BasicCompressor .double) (hlen : timestamps.length = values.length) :
    c.appendBatch (some timestamps) (some values) timestamps.length = c.call (.batch (timestamps.zip values)) := by
  rw [Cpp.BasicCompressor.call, List.map_fst_zip (by omega), List.map_snd_zip (by omega), List.length_zip, ← hlen,
    Nat.min_self]

theorem fed_batch {T : ValueType} (pts : List (Point T)) : fed [.batch pts] = pts := List.append_nil pts

/-- **When `compress_arrays` succeeds**: when its compressor is made and takes its one batch. -/
theorem compressArrays_eq_ok_iff (hlen : timestamps.length = values.length) (hn : timestamps.length < 2 ^ 64)
    {data : List U8} : compressArrays blockTimestamp timestamps values = .ok data ↔
      ∃ c, Cpp.BasicCompressor.new .double blockTimestamp (oneShotCapacity timestamps.length) = .ok c ∧
        (c.call (.batch (timestamps.zip values))).1 = .ok () ∧
        (c.call (.batch (timestamps.zip values))).2.bytes = data := by
  have hcount : (BitVec.ofNat 64 timestamps.length).toNat = timestamps.length := by
    rw [BitVec.toNat_ofNat, Nat.mod_eq_of_lt hn]
  unfold compressArrays
  rw [if_neg (not_not.2 hlen)]
  dsimp only
  rw [hcount, ← oneShotCapacity]
  cases Cpp.BasicCompressor.new .double blockTimestamp (oneShotCapacity timestamps.length) with
  | error e => simp
  | ok c =>
    simp only [appendBatch_zip c hlen, Except.ok.injEq, exists_eq_left']
    obtain ⟨out, c'⟩ := c.call (.batch (timestamps.zip values))
    cases out with
    | error e => simp
    | ok u => simp

theorem stream_le_of_compressArrays {data : List U8} (hlen : timestamps.length = values.length)
    (hn : timestamps.length < 2 ^ 64) (h : compressArrays blockTimestamp timestamps values = .ok data) :
    (stream .double blockTimestamp (timestamps.zip values)).length ≤ 8 * oneShotCapacity timestamps.length := by
  obtain ⟨c, hnew, hok, -⟩ := (compressArrays_eq_ok_iff hlen hn).1 h
  obtain ⟨h8, rfl⟩ := Cpp.capacity_of_new hnew
  have hfit := (Cpp.appends_ok_iff blockTimestamp h8 [.batch (timestamps.zip values)]).1
  rw [Cpp.appends_singleton, fed_batch, List.forall_mem_singleton] at hfit
  exact hfit hok

/-- **Arrays whose stream fits** are compressed to its envelope. -/
theorem compressArrays_of_fits (hlen : timestamps.length = values.length) (hn : timestamps.length < 2 ^ 64)
    (hfit : (stream .double blockTimestamp (timestamps.zip values)).length ≤ 8 * oneShotCapacity timestamps.length) :
    ∃ g, compressArrays blockTimestamp timestamps values =
        .ok (envelope .double (BitVec.ofNat 64 timestamps.length) (streamBytes (some g))) ∧
      Encodes .double (List.replicate (oneShotCapacity timestamps.length) 0) blockTimestamp (timestamps.zip values) g := by
  have h8 : 8 ≤ oneShotCapacity timestamps.length := by
    rw [length_stream] at hfit
    omega
  have hnew := Cpp.BasicCompressor.new_eq (T := .double) blockTimestamp h8
  rw [← fed_batch (timestamps.zip values)] at hfit
  have hok := (Cpp.appends_ok_iff blockTimestamp h8 [.batch (timestamps.zip values)]).2 hfit
  obtain ⟨g, hc, henc⟩ := Cpp.appends_of_fits blockTimestamp h8 [.batch (timestamps.zip values)] hfit
  rw [Cpp.appends_singleton, fed_batch] at hc
  rw [Cpp.appends_singleton, List.forall_mem_singleton] at hok
  rw [fed_batch] at henc
  refine ⟨g, (compressArrays_eq_ok_iff hlen hn).2 ⟨_, hnew, hok, ?_⟩, henc⟩
  rw [hc, Cpp.BasicCompressor.bytes_eq, List.length_zip, ← hlen, Nat.min_self]

end Compress

/-- **The worst case fits.**  A buffer of `8 + ⌈113 * n / 8⌉` bytes (`81` for `float`) takes any `n` points, in single and
batch calls; the estimate `16 * n + 64` is never less; so `compress_arrays` raises no overflow error. -/
theorem worst_case_suffices {T : ValueType} {buf : List U8} {calls : List (Call T)}
    (hcap : 8 + (T.maxPointBits * (fed calls).length + 7) / 8 ≤ buf.length) (t0 : I64) {n : Nat}
    (hn : 16 * n + 64 < 2 ^ 64) {timestamps : List I64} (htimestamps : timestamps.length = n) (blockTimestamp : I64)
    (values : List (Value .double)) :
    (∀ r ∈ (runCalls (T.create (some buf) t0) calls).1, r.1 = .ok) ∧
      accepted (runCalls (T.create (some buf) t0) calls).1 = (fed calls).length ∧
      (worstCaseCapacity (BitVec.ofNat 64 n)).toNat = 16 * n + 64 ∧ 8 + (T.maxPointBits * n + 7) / 8 ≤ 16 * n + 64 ∧
      ∀ what, compressArrays blockTimestamp timestamps values ≠ .error (.cpp (.overflowError what)) := by
  obtain ⟨hok, hacc⟩ := runCalls_of_worst_case hcap t0
  have hestimate := maxPointBits_le_oneShotCapacity T hn
  rw [oneShotCapacity_eq hn] at hestimate
  refine ⟨hok, hacc, oneShotCapacity_eq hn, hestimate, fun what => ?_⟩
  subst htimestamps
  by_cases hlen : timestamps.length = values.length
  · obtain ⟨g, hdata, -⟩ := compressArrays_of_fits hlen (by omega) (stream_le_oneShotCapacity blockTimestamp hlen hn)
    rw [hdata]
    exact fun h => by cases h
  · unfold compressArrays
    rw [if_pos hlen]
    exact fun h => by cases h

theorem worst_case_suffices_readings :
    (∀ r ∈ (runCalls (ValueType.double.create (some (List.replicate 51 0xFF)) 1000)
        [.batch (readings.take 2), .compress readings[2]]).1, r.1 = .ok) ∧
      accepted (runCalls (ValueType.double.create (some (List.replicate 51 0xFF)) 1000)
        [.batch (readings.take 2), .compress readings[2]]).1 =
        (fed [.batch (readings.take 2), .compress readings[2]]).length ∧
      (worstCaseCapacity (BitVec.ofNat 64 2)).toNat = 16 * 2 + 64 ∧
      8 + (ValueType.double.maxPointBits * 2 + 7) / 8 ≤ 16 * 2 + 64 ∧
      ∀ what, compressArrays 1000 [1010, 5] [7, 7] ≠ .error (.cpp (.overflowError what)) := by
  have hcap : 8 + (ValueType.double.maxPointBits * (fed [.batch (readings.take 2), .compress readings[2]]).length + 7) / 8
      ≤ (List.replicate 51 (0xFF : U8)).length := by decide
  have htimestamps : [(1010 : I64), 5].length = 2 := rfl
  exact worst_case_suffices hcap 1000 (by decide) htimestamps 1000 [7, 7]

/-! ## There and back -/

theorem bind_eq_ok {ε α β : Type} {x : Except ε α} {k : α → Except ε β} {b : β} (h : x >>= k = .ok b) :
    ∃ a, x = .ok a ∧ k a = .ok b := by
  cases x with
  | error e => cases h
  | ok a => exact ⟨a, rfl, h⟩

/-- `Decompressor(compress_arrays(block_timestamp, ts, vals)).decompress_to_arrays()`. -/
def roundTrip (ub : U64 → Int → U64) (mutableData : Nat → Nat → Except Exception Unit) (blockTimestamp : I64)
    (timestamps : List I64) (values : List (Value .double)) : Except Exception (List I64 × List (Value .double)) := do
  let data ← compressArrays blockTimestamp timestamps values
  let d ← PyDecompressor.new data
  d.decompressToArrays ub mutableData

section RoundTrip

variable (ub : U64 → Int → U64) {mutableData : Nat → Nat → Except Exception Unit} {blockTimestamp : I64}
  {timestamps : List I64} {values : List (Value .double)}

theorem roundTrip_of_ok {data : List U8} {r : Cpp.BasicDecompressor .double}
    (hdata : compressArrays blockTimestamp timestamps values = .ok data)
    (hnew : Cpp.BasicDecompressor.new .double data = .ok r) :
    roundTrip ub mutableData blockTimestamp timestamps values = PyDecompressor.decompressToArrays ub mutableData ⟨r⟩ := by
  unfold roundTrip PyDecompressor.new
  rw [hdata]
  simp only [bind, Except.bind, hnew]

theorem decompressToArrays_of_pos (hcheck : ChecksIndex mutableData) {d : PyDecompressor} {pts : List (Point .double)}
    (hpos : 0 < d.impl.size.toNat) (hinto : d.impl.decodeInto ub = .ok pts) :
    d.decompressToArrays ub mutableData = .ok (pts.map (·.1), pts.map (·.2)) := by
  unfold PyDecompressor.decompressToArrays
  simp only [hcheck.inside hpos, bind, Except.bind, hinto]

theorem decompressToArrays_of_zero (hcheck : ChecksIndex mutableData) {d : PyDecompressor}
    (h : d.impl.size.toNat = 0) : d.decompressToArrays ub mutableData = .error .indexError := by
  unfold PyDecompressor.decompressToArrays
  simp only [hcheck.outside (Nat.le_of_eq h), bind, Except.bind]

/-- **What `decompress_to_arrays` returns has `size()` elements**, and at least one. -/
theorem length_of_decompressToArrays (hcheck : ChecksIndex mutableData) {d : PyDecompressor}
    {out : List I64 × List (Value .double)} (h : d.decompressToArrays ub mutableData = .ok out) :
    0 < d.impl.size.toNat ∧ out.1.length = d.impl.size.toNat := by
  rcases Nat.eq_zero_or_pos d.impl.size.toNat with hzero | hpos
  · rw [decompressToArrays_of_zero ub hcheck hzero] at h
    cases h
  · unfold PyDecompressor.decompressToArrays at h
    simp only [hcheck.inside hpos, bind, Except.bind] at h
    cases hinto : d.impl.decodeInto ub with
    | error e =>
      rw [hinto] at h
      cases h
    | ok pts =>
      rw [hinto] at h
      cases h
      exact ⟨hpos, by rw [List.length_map]; exact Cpp.length_of_decodeInto ub hinto⟩

/-- **When the one-shot round trip succeeds**, for lists of any length: there are elements, and their stream fits the
estimated capacity. -/
theorem roundTrip_iff_fits (hcheck : ChecksIndex mutableData) (hlen : timestamps.length = values.length)
    (hdod : ∀ d ∈ deltaOfDeltas blockTimestamp timestamps, InRange d) :
    roundTrip ub mutableData blockTimestamp timestamps values = .ok (timestamps, values) ↔
      0 < timestamps.length ∧ timestamps.length < 2 ^ 64 ∧
        (stream .double blockTimestamp (timestamps.zip values)).length ≤ 8 * oneShotCapacity timestamps.length := by
  have hzip : (timestamps.zip values).length = timestamps.length := by
    rw [List.length_zip, ← hlen, Nat.min_self]
  constructor
  · intro h
    unfold roundTrip at h
    obtain ⟨data, hdata, h⟩ := bind_eq_ok h
    obtain ⟨d, -, h⟩ := bind_eq_ok h
    obtain ⟨hpos, hsize⟩ := length_of_decompressToArrays ub hcheck h
    have hn : timestamps.length < 2 ^ 64 := by
      have := d.impl.size.isLt
      simp only at hsize
      omega
    exact ⟨by simp only at hsize; omega, hn, stream_le_of_compressArrays hlen hn hdata⟩
  · rintro ⟨hpos, hn, hfit⟩
    obtain ⟨g, hdata, henc⟩ := compressArrays_of_fits hlen hn hfit
    have h8 : 8 ≤ (List.replicate (oneShotCapacity timestamps.length) (0 : U8)).length := by
      rw [length_stream] at hfit
      rw [List.length_replicate]
      omega
    have hkeeps : Keeps (List.replicate (oneShotCapacity timestamps.length) 0) blockTimestamp (some g)
        (BitVec.ofNat 64 timestamps.length) (timestamps.zip values) := by
      refine ⟨⟨g, _, rfl, henc, (fitting_of_le ?_).symm⟩, by rw [hzip]⟩
      rw [List.length_replicate]
      exact hfit
    obtain ⟨r, hnew, hsize, hinto⟩ := hkeeps.decodeInto ub h8
      (by rwa [List.map_fst_zip (Nat.le_of_eq hlen)]) (by rwa [hzip])
    rw [roundTrip_of_ok ub hdata hnew, decompressToArrays_of_pos ub hcheck (by rw [hsize, hzip]; exact hpos) hinto,
      List.map_fst_zip (Nat.le_of_eq hlen), List.map_snd_zip (Nat.le_of_eq hlen.symm)]

/-- **When the one-shot round trip succeeds**: when the arrays have elements.  Arrays that the platform's memory holds
always fit the estimated capacity, and those without elements raise `IndexError`. -/
theorem roundTrip_iff (hcheck : ChecksIndex mutableData) (hlen : timestamps.length = values.length)
    (hdod : ∀ d ∈ deltaOfDeltas blockTimestamp timestamps, InRange d)
    (hmem : 8 * timestamps.length ≤ addressSpace) :
    roundTrip ub mutableData blockTimestamp timestamps values = .ok (timestamps, values) ↔ 0 < timestamps.length := by
  have hn : 16 * timestamps.length + 64 < 2 ^ 64 := by
    unfold addressSpace at hmem
    omega
  rw [roundTrip_iff_fits ub hcheck hlen hdod]
  exact and_iff_left ⟨by omega, stream_le_oneShotCapacity blockTimestamp hlen hn⟩

theorem roundTrip_iff_readings :
    (roundTrip maskedShl checkedData 1000 (readings.map (·.1)) (readings.map (·.2)) =
        .ok (readings.map (·.1), readings.map (·.2)) ↔ 0 < (readings.map (·.1)).length) ∧
      (roundTrip maskedShl checkedData 1000 [] [] = .ok ([], []) ↔ 0 < ([] : List I64).length) :=
  ⟨roundTrip_iff maskedShl checksIndex_checkedData rfl (inRange_of_all (by decide +kernel)) (by decide),
    roundTrip_iff maskedShl checksIndex_checkedData rfl (fun _ hd => by cases hd) (by decide)⟩

/-- Arrays without elements: they are compressed, and reading them back raises `IndexError`. -/
theorem roundTrip_empty : roundTrip maskedShl checkedData 0 [] [] = .error .indexError ∧
    ¬ (∀ (blockTimestamp : I64) (timestamps : List I64) (values : List (Value .double)),
      timestamps.length = values.length → (∀ d ∈ deltaOfDeltas blockTimestamp timestamps, InRange d) →
      roundTrip maskedShl checkedData blockTimestamp timestamps values = .ok (timestamps, values)) := by
  have h : roundTrip maskedShl checkedData 0 [] [] = .error .indexError := by decide +kernel
  refine ⟨h, fun hall => ?_⟩
  have hok := hall 0 [] [] rfl fun _ hd => by cases hd
  rw [h] at hok
  cases hok

end RoundTrip

end Python
end Gorillats
