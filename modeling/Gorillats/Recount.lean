import Gorillats.Drift
import Gorillats.Sessions
/-!
# Recount — what the recorded count decides

The count of an envelope is the only thing that tells its points from its padding.  Any other count up to the points and
the repeats that the padding holds, at most three, is read without an error; a larger one is an error in C++, and in Rust
as many points as there are.  A count that no vector can have is refused as such.
-/
namespace Gorillats

open BitString BitParser

variable (ub : U64 → Int → U64) {T : ValueType}

/-- The envelope with another count. -/
def recount (count : U64) (data : List U8) : List U8 := data.take 8 ++ leBytes count ++ data.drop headerSize

theorem recount_envelope (m count : U64) (payload : List U8) :
    recount m (envelope T count payload) = envelope T m payload := by
  have hdrop := drop_envelope T count payload
  have htake : (envelope T count payload).take 8 = magic ++ [T.tag] ++ [0, 0, 0] := rfl
  rw [recount, hdrop, htake, envelope]

/-- **Every reader of the type finds fewer points than the count**: C++ throws, and Rust stops after these. -/
structure Overcounted (ub : U64 → Int → U64) (T : ValueType) (data : List U8) (pts : List (Point T)) : Prop where
  cpp  : ∃ r, Cpp.BasicDecompressor.new T data = .ok r ∧
    r.toVector ub = .error (.runtimeError "gorillats: truncated stream") ∧
    r.decodeInto ub = .error (.runtimeError "gorillats: truncated stream")
  rust : ∃ r, Rust.Decompressor.new T data = .ok r ∧ r.intoIter ub = .ok pts ∧
    r.toColumns ub = .ok (pts.map (·.1), pts.map (·.2))

/-- **No vector can have so many points**: C++ does not reserve them, and Rust panics on the first one it collects. -/
structure Refused (ub : U64 → Int → U64) (T : ValueType) (data : List U8) (pts : List (Point T)) : Prop where
  cpp  : ∃ r, Cpp.BasicDecompressor.new T data = .ok r ∧ r.toVector ub = .error (.lengthError "vector::reserve")
  rust : ∃ r, Rust.Decompressor.new T data = .ok r ∧
    r.intoIter ub = if pts = [] then .ok [] else .panic "capacity overflow"

/-- **With any count recorded in it**, the envelope is read as that many of these points, while there are as many. -/
structure Recounts (ub : U64 → Int → U64) (T : ValueType) (data : List U8) (pts : List (Point T)) : Prop where
  within  : ∀ count : U64, count.toNat ≤ maxLen pointSize → count.toNat ≤ pts.length →
    ReadBy ub T (recount count data) (pts.take count.toNat)
  beyond  : ∀ count : U64, count.toNat ≤ maxLen pointSize → pts.length < count.toNat →
    Overcounted ub T (recount count data) pts
  refused : ∀ count : U64, maxLen pointSize < count.toNat → Refused ub T (recount count data) pts

section Count

variable {payload : List U8} {L : List (Point T)} {count : U64}

/-- A count that the payload holds. -/
theorem readBy_of_delivers (h : Delivers ub (T.openStream (some payload)) L) (hn : count.toNat ≤ maxLen pointSize)
    (hle : count.toNat ≤ L.length) : ReadBy ub T (envelope T count payload) (L.take count.toNat) := by
  have hlen : count.toNat = (L.take count.toNat).length := by rw [List.length_take, Nat.min_eq_left hle]
  rw [← drop_envelope T count payload] at h
  refine ⟨⟨_, Cpp.new_envelope T count payload, hlen, ?_, ?_⟩, ⟨_, Rust.new_envelope T count payload, hlen, ?_, ?_⟩,
    fun _ hU => new_of_other hU count payload⟩
  · rw [Cpp.BasicDecompressor.toVector_of_delivers ub ⟨envelope T count payload, count⟩ h hn, if_pos hle]
  · rw [Cpp.BasicDecompressor.decodeInto_of_delivers ub ⟨envelope T count payload, count⟩ h, if_pos hle]
  · exact Rust.Decompressor.intoIter_of_le ub ⟨envelope T count payload, count⟩ h hn
  · exact Rust.Decompressor.toColumns_of_delivers ub ⟨envelope T count payload, count⟩ h (hn.trans maxLen_pointSize_le)

/-- A count that it does not. -/
theorem overcounted_of_delivers (h : Delivers ub (T.openStream (some payload)) L) (hn : count.toNat ≤ maxLen pointSize)
    (hlt : L.length < count.toNat) : Overcounted ub T (envelope T count payload) L := by
  have hno : ¬ count.toNat ≤ L.length := Nat.not_le.2 hlt
  have hall : L.take count.toNat = L := List.take_of_length_le (Nat.le_of_lt hlt)
  rw [← drop_envelope T count payload] at h
  have hiter := Rust.Decompressor.intoIter_of_le ub ⟨envelope T count payload, count⟩ h hn
  have hcols := Rust.Decompressor.toColumns_of_delivers ub ⟨envelope T count payload, count⟩ h
    (hn.trans maxLen_pointSize_le)
  rw [hall] at hiter hcols
  refine ⟨⟨_, Cpp.new_envelope T count payload, ?_, ?_⟩, ⟨_, Rust.new_envelope T count payload, hiter, hcols⟩⟩
  · rw [Cpp.BasicDecompressor.toVector_of_delivers ub ⟨envelope T count payload, count⟩ h hn, if_neg hno]
  · rw [Cpp.BasicDecompressor.decodeInto_of_delivers ub ⟨envelope T count payload, count⟩ h, if_neg hno]

/-- A count that no vector has, whatever the payload holds. -/
theorem refused_of_delivers (h : Delivers ub (T.openStream (some payload)) L) (hbig : maxLen pointSize < count.toNat) :
    Refused ub T (envelope T count payload) L := by
  rw [← drop_envelope T count payload] at h
  refine ⟨⟨_, Cpp.new_envelope T count payload, Cpp.BasicDecompressor.toVector_of_gt ub hbig⟩,
    ⟨_, Rust.new_envelope T count payload, ?_⟩⟩
  rw [Rust.Decompressor.intoIter_of_delivers ub ⟨envelope T count payload, count⟩ h]
  simp only [Nat.not_le.2 hbig, or_false]
  by_cases hnil : L = []
  · rw [if_pos hnil, if_pos hnil, hnil, List.take_nil]
  · rw [if_neg hnil, if_neg hnil]

end Count

/-- What a wrapper's envelope holds: the points it acknowledged with their drift, and at most three repeats. -/
theorem Keeps.recounts {init : List U8} {t0 : I64} {raw : Option GorillatsCompressor} {count : U64}
    {acked : List (Point T)} (h : Keeps init t0 raw count acked) (h8 : 8 ≤ init.length) :
    ∃ k < 4, Recounts ub T (envelope T count (streamBytes raw))
      (received t0 acked ++ repeatLast t0 (received t0 acked) k) := by
  obtain ⟨⟨c, fed, rfl, henc, rfl⟩, -⟩ := h
  obtain ⟨k, hk, hover, hwhole⟩ := henc.delivers_received ub h8
  refine ⟨k, ?_, fun m hn hle => ?_, fun m hn hlt => ?_, fun m hbig => ?_⟩
  · rcases Nat.lt_or_ge (8 * init.length) (stream T t0 fed).length with hlt | hle
    · rw [hover hlt]
      decide
    · obtain ⟨p, hp, rfl, -⟩ := hwhole hle
      omega
  · rw [recount_envelope]
    exact readBy_of_delivers ub hk hn hle
  · rw [recount_envelope]
    exact overcounted_of_delivers ub hk hn hlt
  · rw [recount_envelope]
    exact refused_of_delivers ub hk hbig

/-- **What a wrong count does.**  Take any `bytes()` of a C++ compressor, or the `finish()` of a Rust one, after any
calls, and record another count in it.  There are at most three repeats of the last point such that every count up to the
points acknowledged and these repeats is read as that many of them by every reader; from a larger one that a vector can
have, C++ throws and Rust reads all of them; a count that none can have is refused. -/
theorem recounted_reads (t0 : I64) {capacity : Nat} (h8 : 8 ≤ capacity) (ops : List (Cpp.Op T)) (calls : List (Call T)) :
    (∃ c, Cpp.BasicCompressor.new T t0 capacity = .ok c ∧ ∀ s ∈ Cpp.snapshots c [] ops, ∃ k < 4,
      Recounts ub T s.2 (received t0 s.1 ++ repeatLast t0 (received t0 s.1) k)) ∧
    ∃ c, Rust.Compressor.new T t0 capacity = .ok c ∧ ∃ k < 4,
      Recounts ub T (Rust.run c [] calls).2.finish
        (received t0 (Rust.run c [] calls).1 ++ repeatLast t0 (received t0 (Rust.run c [] calls).1) k) := by
  have hlen : 8 ≤ (List.replicate capacity (0 : U8)).length := by rwa [List.length_replicate]
  refine ⟨⟨_, Cpp.BasicCompressor.new_eq t0 h8, fun s hs => ?_⟩, _, Rust.Compressor.new_eq t0 capacity, ?_⟩
  · obtain ⟨raw, count, hkeep, hbytes⟩ := Cpp.snapshots_keep hlen ops (keeps_create hlen) s hs
    rw [hbytes]
    exact hkeep.recounts ub hlen
  · rw [Nat.max_eq_left h8, Rust.Compressor.finish_eq]
    have hkeep := Rust.run_keeps hlen calls (c := ⟨T.create (some (List.replicate capacity 0)) t0, 0⟩)
      (keeps_create hlen)
    exact hkeep.recounts ub hlen

/-- The readings, recorded as two points, as a hundred and as `2 ^ 61`. -/
theorem recounted_reads_readings :
    ∃ c, Rust.Compressor.new .double 1000 64 = .ok c ∧
      ReadBy maskedShl .double (recount 2 (Rust.run c [] [.batch readings]).2.finish) (readings.take 2) ∧
      (∃ k < 4, Overcounted maskedShl .double (recount 100 (Rust.run c [] [.batch readings]).2.finish)
        (readings ++ repeatLast 1000 readings k)) ∧
      ∃ r, Rust.Decompressor.new .double (recount 0x2000000000000000 (Rust.run c [] [.batch readings]).2.finish) = .ok r ∧
        r.intoIter maskedShl = .panic "capacity overflow" := by
  obtain ⟨-, c, hc, k, hk, h⟩ := recounted_reads (T := .double) maskedShl 1000 (by decide : 8 ≤ 64) [] [.batch readings]
  have hreceived : received 1000 (Rust.run c [] [.batch readings]).1 = readings := by
    rw [Rust.Compressor.new_eq] at hc
    cases hc
    decide +kernel
  have hreadings : readings.length = 3 := rfl
  rw [hreceived] at h
  have hlen : (readings ++ repeatLast 1000 readings k).length = 3 + k := by
    rw [List.length_append, hreadings, repeatLast, List.length_map, List.length_range]
  refine ⟨c, hc, ?_, ⟨k, hk, h.beyond 100 (by decide) ?_⟩, ?_⟩
  · have hread := h.within 2 (by decide) (by rw [hlen]; exact Nat.le_trans (by decide) (Nat.le_add_right 3 k))
    rwa [List.take_append_of_le_length (by decide)] at hread
  · rw [hlen, show (100 : U64).toNat = 100 from rfl]
    omega
  · obtain ⟨r, hnew, hinto⟩ := (h.refused 0x2000000000000000 (by decide)).rust
    rw [if_neg (List.append_ne_nil_of_left_ne_nil (by decide) _)] at hinto
    exact ⟨r, hnew, hinto⟩

end Gorillats
