import Gorillats.Readers
import Gorillats.Sizes
/-!
# WrapperRuns — appends, overflows and snapshots

A wrapper counts the points its calls acknowledge, beside a stream that holds exactly those among all it was fed
(`Keeps`).  So every envelope reads back as the acknowledged points, wherever the buffer overflowed and whatever was
called after that.  A point takes two bits, so no memory holds a stream of more points than a vector can.
-/
namespace Gorillats

open BitString

variable {T : ValueType}

/-- **A stream in memory** has no more points than a vector of them can hold. -/
theorem length_le_maxLen {t0 : I64} {pts : List (Point T)} {capacity : Nat} (hcap : capacity ≤ addressSpace)
    (h : (stream T t0 pts).length ≤ 8 * capacity) : pts.length ≤ maxLen pointSize := by
  have hleast := (least_le_stream t0 pts).trans h
  rw [maxLen_pointSize]
  unfold addressSpace at hcap
  cases hn : pts.length with
  | zero => exact Nat.zero_le _
  | succ n =>
    rw [hn, leastStream] at hleast
    omega

/-- The handle and the count of a wrapper whose calls have acknowledged `acked`. -/
structure Keeps (init : List U8) (t0 : I64) (raw : Option GorillatsCompressor) (count : U64) (acked : List (Point T)) :
    Prop where
  encodes : ∃ c fed, raw = some c ∧ Encodes T init t0 fed c ∧ acked = fitting init.length t0 fed
  count   : count = BitVec.ofNat 64 acked.length

section Invariant

variable {init : List U8} {t0 : I64} {raw : Option GorillatsCompressor} {count : U64} {acked : List (Point T)}

theorem keeps_create (h8 : 8 ≤ init.length) : Keeps init t0 (T.create (some init) t0) 0 ([] : List (Point T)) := by
  obtain ⟨c, hc, h⟩ := encodes_create (T := T) init t0 h8
  refine ⟨⟨c, [], hc, h, ?_⟩, rfl⟩
  rw [fitting_of_le]
  rw [length_stream]
  simpa using by omega

theorem Keeps.call (h : Keeps init t0 raw count acked) (h8 : 8 ≤ init.length) (call : Call T) :
    Keeps init t0 (call.run raw).2 (count + BitVec.ofNat 64 (call.run raw).1.2)
        (acked ++ call.points.take (call.run raw).1.2) ∧
      ((call.run raw).1.1 = .ok ∨ (call.run raw).1.1 = .errOverflow) := by
  obtain ⟨⟨c, fed, rfl, henc, rfl⟩, hcount⟩ := h
  obtain ⟨r, c', hrun, henc', hrc, hle, hfit⟩ := henc.call h8 call
  rw [hrun]
  refine ⟨⟨⟨c', _, rfl, henc', hfit.symm⟩, ?_⟩, ?_⟩
  · rw [hcount, List.length_append, List.length_take, Nat.min_eq_left hle, BitVec.ofNat_add]
  · rw [hrc]
    exact (ite_eq_or_eq ..).symm

theorem Keeps.toNat_count (h : Keeps init t0 raw count acked) (hlt : acked.length < 2 ^ 64) :
    count.toNat = acked.length := by
  rw [h.count, toNat_ofNat_of_lt (Nat.le_refl 64) hlt]

variable (ub : U64 → Int → U64)

theorem Keeps.delivers (h : Keeps init t0 raw count acked) (h8 : 8 ≤ init.length)
    (hdod : ∀ d ∈ deltaOfDeltas t0 (acked.map (·.1)), InRange d) :
    ∃ L, Delivers ub (T.openStream (some (streamBytes raw))) L ∧ acked.length ≤ L.length ∧
      acked = L.take acked.length := by
  obtain ⟨⟨c, fed, rfl, henc, rfl⟩, -⟩ := h
  have hlen : 8 ≤ (streamBytes (some c)).length := by
    have e : streamBytes (some c) = pack ((stream T t0 fed).take (8 * init.length)) := henc.writes.take_len
    rw [e, length_pack, List.length_take, length_stream]
    omega
  obtain ⟨L, hL⟩ := exists_delivers (T := T) ub hlen
  obtain ⟨out, d, hd, -, hiff⟩ := henc.readBack ub h8 List.prefix_rfl
  rw [hiff.2 hdod] at hd
  exact ⟨L, hL, hL.eq_take (by rw [hd])⟩

/-- The acknowledged points in a buffer that is in memory. -/
theorem Keeps.length_le (h : Keeps init t0 raw count acked) (h8 : 8 ≤ init.length) (hcap : init.length ≤ addressSpace) :
    acked.length ≤ maxLen pointSize := by
  obtain ⟨⟨c, fed, -, -, rfl⟩, -⟩ := h
  exact length_le_maxLen hcap (stream_fitting_le t0 h8 fed)

/-- The envelope reads back by the C++ bulk path. -/
theorem Keeps.decodeInto (h : Keeps init t0 raw count acked) (h8 : 8 ≤ init.length)
    (hdod : ∀ d ∈ deltaOfDeltas t0 (acked.map (·.1)), InRange d) (hlt : acked.length < 2 ^ 64) :
    ∃ r, Cpp.BasicDecompressor.new T (envelope T count (streamBytes raw)) = .ok r ∧ r.size.toNat = acked.length ∧
      r.decodeInto ub = .ok acked := by
  obtain ⟨L, hL, hle, hacked⟩ := h.delivers ub h8 hdod
  have hcount := h.toNat_count hlt
  rw [← drop_envelope T count (streamBytes raw)] at hL
  refine ⟨_, Cpp.new_envelope T count (streamBytes raw), hcount, ?_⟩
  refine (Cpp.BasicDecompressor.decodeInto_eq_ok_iff ub ⟨envelope T count (streamBytes raw), count⟩ hL acked).2 ?_
  rw [hcount]
  exact ⟨hle, hacked⟩

/-- **The envelope reads back in C++**: the count, and by either path the points. -/
theorem Keeps.cpp_reads (h : Keeps init t0 raw count acked) (h8 : 8 ≤ init.length)
    (hdod : ∀ d ∈ deltaOfDeltas t0 (acked.map (·.1)), InRange d) (hfits : acked.length ≤ maxLen pointSize) :
    ∃ r, Cpp.BasicDecompressor.new T (envelope T count (streamBytes raw)) = .ok r ∧ r.size.toNat = acked.length ∧
      r.toVector ub = .ok acked ∧ r.decodeInto ub = .ok acked := by
  obtain ⟨r, hnew, hsize, hinto⟩ := h.decodeInto ub h8 hdod (lt_of_le_maxLen hfits)
  obtain ⟨L, hL, hle, hacked⟩ := h.delivers ub h8 hdod
  obtain rfl := Except.ok.inj ((Cpp.new_envelope T count (streamBytes raw)).symm.trans hnew)
  rw [← drop_envelope T count (streamBytes raw)] at hL
  refine ⟨_, hnew, hsize, ?_, hinto⟩
  refine (Cpp.BasicDecompressor.toVector_eq_ok_iff ub ⟨envelope T count (streamBytes raw), count⟩ hL acked).2 ?_
  rw [h.toNat_count (lt_of_le_maxLen hfits)]
  exact ⟨hfits, hle, hacked⟩

/-- **The envelope reads back in Rust.** -/
theorem Keeps.rust_reads (h : Keeps init t0 raw count acked) (h8 : 8 ≤ init.length)
    (hdod : ∀ d ∈ deltaOfDeltas t0 (acked.map (·.1)), InRange d) (hfits : acked.length ≤ maxLen pointSize) :
    ∃ r, Rust.Decompressor.new T (envelope T count (streamBytes raw)) = .ok r ∧ r.len.toNat = acked.length ∧
      r.intoIter ub = .ok acked ∧ r.toColumns ub = .ok (acked.map (·.1), acked.map (·.2)) := by
  obtain ⟨L, hL, -, hacked⟩ := h.delivers ub h8 hdod
  have hcount := h.toNat_count (lt_of_le_maxLen hfits)
  rw [← drop_envelope T count (streamBytes raw)] at hL
  have hn : count.toNat ≤ maxLen pointSize := by rwa [hcount]
  refine ⟨_, Rust.new_envelope T count (streamBytes raw), hcount, ?_⟩
  have hinto := Rust.Decompressor.intoIter_of_le ub ⟨envelope T count (streamBytes raw), count⟩ hL hn
  have hcols := Rust.Decompressor.toColumns_of_delivers ub ⟨envelope T count (streamBytes raw), count⟩ hL
    (hn.trans maxLen_pointSize_le)
  rw [hinto, hcols, hcount, ← hacked]
  exact ⟨rfl, rfl⟩

end Invariant

/-! ## C++ -/

namespace Cpp

/-- What a program does to a compressor: an append, whatever it throws, or a snapshot. -/
inductive Op (T : ValueType) where
  | call (call : Call T)
  | bytes

/-- The points an append acknowledges: its own if it does not throw, the first `written` of a batch. -/
def BasicCompressor.acknowledges (c : BasicCompressor T) : Call T → List (Point T)
  | .compress p =>
    match (c.append p.1 p.2).1 with
    | .ok () => [p]
    | .error _ => []
  | .batch pts =>
    pts.take (T.compressBatch c.raw (some (pts.map (·.1))) (some (pts.map (·.2))) pts.length).2.1

/-- Every `bytes()` of a run, with the points acknowledged by then. -/
def snapshots : BasicCompressor T → List (Point T) → List (Op T) → List (List (Point T) × List U8)
  | _, _, [] => []
  | c, acked, .call call :: ops =>
    snapshots (c.call call).2 (acked ++ c.acknowledges call) ops
  | c, acked, .bytes :: ops => (acked, c.bytes) :: snapshots c acked ops

theorem BasicCompressor.new_eq (t0 : I64) {capacity : Nat} (h8 : 8 ≤ capacity) :
    new T t0 capacity = .ok { raw := T.create (some (List.replicate capacity 0)) t0, count := 0 } := by
  obtain ⟨c, hc, -⟩ := encodes_create (T := T) (List.replicate capacity 0) t0 (by rwa [List.length_replicate])
  rw [new, hc]

/-- **An append is the core's call with a count beside it**, and throws what is not `GORILLATS_OK`. -/
theorem BasicCompressor.call_spec (c : BasicCompressor T) (call : Call T) :
    (c.call call).1.isOk = decide ((call.run c.raw).1.1 = .ok) ∧
      (c.call call).2 = { raw := (call.run c.raw).2, count := c.count + BitVec.ofNat 64 (call.run c.raw).1.2 } := by
  cases call with
  | compress p =>
    rw [BasicCompressor.call, append, Call.run]
    generalize T.compress c.raw p.1 p.2 = out
    obtain ⟨rc, raw⟩ := out
    cases rc <;> exact ⟨rfl, by simp⟩
  | batch pts =>
    rw [BasicCompressor.call, appendBatch, Call.run]
    generalize T.compressBatch c.raw _ _ _ = out
    obtain ⟨rc, written, raw⟩ := out
    cases rc <;> exact ⟨rfl, rfl⟩

theorem BasicCompressor.acknowledges_eq (c : BasicCompressor T) (call : Call T) :
    c.acknowledges call = call.points.take (call.run c.raw).1.2 := by
  cases call with
  | compress p =>
    rw [acknowledges, append, Call.run]
    generalize T.compress c.raw p.1 p.2 = out
    obtain ⟨rc, raw⟩ := out
    cases rc <;> rfl
  | batch pts => rfl

/-- **`bytes()` lays out the envelope.** -/
theorem BasicCompressor.bytes_eq (c : BasicCompressor T) : c.bytes = envelope T c.count (streamBytes c.raw) := by
  simp [bytes, kMagic_eq, tag_eq, putU64Le_eq, envelope, memcpy, streamBytes, headerSize, magic, leBytes,
    List.range_succ, Nat.add_comm 16, List.replicate_succ]

theorem snapshots_keep {init : List U8} {t0 : I64} (h8 : 8 ≤ init.length) : ∀ (ops : List (Op T))
    {c : BasicCompressor T} {acked : List (Point T)}, Keeps init t0 c.raw c.count acked →
    ∀ s ∈ snapshots c acked ops, ∃ raw count, Keeps init t0 raw count s.1 ∧ s.2 = envelope T count (streamBytes raw)
  | [], _, _, _, s, hs => by cases hs
  | .call call :: ops, c, acked, h, s, hs => by
    rw [snapshots, c.acknowledges_eq call] at hs
    have h' := (h.call h8 call).1
    refine snapshots_keep h8 ops ?_ s hs
    rw [(c.call_spec call).2]
    exact h'
  | .bytes :: ops, c, acked, h, s, hs => by
    rw [snapshots] at hs
    rcases List.mem_cons.1 hs with rfl | hs
    · exact ⟨c.raw, c.count, h, c.bytes_eq⟩
    · exact snapshots_keep h8 ops h s hs

end Cpp

/-! ## Rust -/

namespace Rust

/-- The points an append acknowledges: its own on `Ok`, the first `written` of a slice. -/
def Compressor.acknowledges (c : Compressor T) : Call T → List (Point T)
  | .compress p =>
    match (c.append p.1 p.2).1 with
    | .ok () => [p]
    | _ => []
  | .batch pts =>
    pts.take (T.compressBatch c.handle (some (pts.map (·.1))) (some (pts.map (·.2))) pts.length).2.1

/-- A run of appends, whatever they answer: the points acknowledged, and the compressor after it. -/
def run : Compressor T → List (Point T) → List (Call T) → List (Point T) × Compressor T
  | c, acked, [] => (acked, c)
  | c, acked, call :: calls => run (c.call call).2 (acked ++ c.acknowledges call) calls

theorem Compressor.new_eq (t0 : I64) (capacity : Nat) :
    new T t0 capacity = .ok { handle := T.create (some (List.replicate (max capacity 8) 0)) t0, count := 0 } := by
  obtain ⟨c, hc, -⟩ := encodes_create (T := T) (List.replicate (max capacity 8) 0) t0
    (by rw [List.length_replicate]; omega)
  rw [new, hc]

def Outcome.isOk {α : Type} : Outcome α → Bool
  | ok _ => true
  | _ => false

/-- **An append is the core's call with a count beside it**, while the core answers `GORILLATS_OK` or an overflow: every
other status counts as success. -/
theorem Compressor.call_spec (c : Compressor T) (call : Call T)
    (h : (call.run c.handle).1.1 = .ok ∨ (call.run c.handle).1.1 = .errOverflow) :
    (c.call call).1.isOk = decide ((call.run c.handle).1.1 = .ok) ∧
      (c.call call).2 =
        { handle := (call.run c.handle).2, count := c.count + BitVec.ofNat 64 (call.run c.handle).1.2 } := by
  cases call with
  | compress p =>
    rw [Compressor.call, append]
    rw [Call.run] at h ⊢
    generalize T.compress c.handle p.1 p.2 = out at h ⊢
    obtain ⟨rc, handle⟩ := out
    rcases h with rfl | rfl <;> exact ⟨rfl, by simp⟩
  | batch pts =>
    rw [Compressor.call, appendSlice, if_neg (by simp), List.length_map]
    rw [Call.run] at h ⊢
    dsimp only
    generalize T.compressBatch c.handle _ _ _ = out at h ⊢
    obtain ⟨rc, written, handle⟩ := out
    rcases h with rfl | rfl <;> exact ⟨rfl, rfl⟩

theorem Compressor.acknowledges_eq (c : Compressor T) (call : Call T)
    (h : (call.run c.handle).1.1 = .ok ∨ (call.run c.handle).1.1 = .errOverflow) :
    c.acknowledges call = call.points.take (call.run c.handle).1.2 := by
  cases call with
  | compress p =>
    rw [acknowledges, append]
    rw [Call.run] at h ⊢
    generalize T.compress c.handle p.1 p.2 = out at h ⊢
    obtain ⟨rc, handle⟩ := out
    cases rc <;> simp [Call.points] at h ⊢
  | batch pts => rfl

/-- **`finish()` lays out the envelope.** -/
theorem Compressor.finish_eq (c : Compressor T) : c.finish = envelope T c.count (streamBytes c.handle) := by
  rw [finish, magic_eq, tag_eq, toLeBytes_eq]
  rfl

theorem run_keeps {init : List U8} {t0 : I64} (h8 : 8 ≤ init.length) : ∀ (calls : List (Call T))
    {c : Compressor T} {acked : List (Point T)}, Keeps init t0 c.handle c.count acked →
    Keeps init t0 (run c acked calls).2.handle (run c acked calls).2.count (run c acked calls).1
  | [], _, _, h => h
  | call :: calls, c, acked, h => by
    obtain ⟨h', hrc⟩ := h.call h8 call
    rw [run, c.acknowledges_eq call hrc]
    refine run_keeps h8 calls ?_
    rw [(c.call_spec call hrc).2]
    exact h'

end Rust

/-! ## Every envelope -/

/-- **Acknowledged points survive overflow and snapshots.**  In a run of appends to a buffer that the platform's memory
holds, whatever they answer, every C++ `bytes()` and the Rust `finish()` are accepted by their reader, report the number of
points acknowledged by then and decode to exactly those, if the delta-of-deltas of the acknowledged points fit 32 bits. -/
theorem envelopes_keep_acked (ub : U64 → Int → U64) (t0 : I64) {capacity : Nat} (h8 : 8 ≤ capacity)
    (hcap : capacity ≤ addressSpace) (ops : List (Cpp.Op T)) (calls : List (Call T)) :
    (∃ c, Cpp.BasicCompressor.new T t0 capacity = .ok c ∧ ∀ s ∈ Cpp.snapshots c [] ops,
      (∀ d ∈ deltaOfDeltas t0 (s.1.map (·.1)), InRange d) →
        ∃ r, Cpp.BasicDecompressor.new T s.2 = .ok r ∧ r.size.toNat = s.1.length ∧ r.toVector ub = .ok s.1 ∧
          r.decodeInto ub = .ok s.1) ∧
    ∃ c, Rust.Compressor.new T t0 capacity = .ok c ∧
      ((∀ d ∈ deltaOfDeltas t0 ((Rust.run c [] calls).1.map (·.1)), InRange d) →
        ∃ r, Rust.Decompressor.new T (Rust.run c [] calls).2.finish = .ok r ∧
          r.len.toNat = (Rust.run c [] calls).1.length ∧ r.intoIter ub = .ok (Rust.run c [] calls).1 ∧
          r.toColumns ub = .ok ((Rust.run c [] calls).1.map (·.1), (Rust.run c [] calls).1.map (·.2))) := by
  have hlen : 8 ≤ (List.replicate capacity (0 : U8)).length := by rwa [List.length_replicate]
  have hcap' : (List.replicate capacity (0 : U8)).length ≤ addressSpace := by rwa [List.length_replicate]
  refine ⟨⟨_, Cpp.BasicCompressor.new_eq t0 h8, fun s hs hdod => ?_⟩, _, Rust.Compressor.new_eq t0 capacity, ?_⟩
  · obtain ⟨raw, count, hkeep, hbytes⟩ := Cpp.snapshots_keep hlen ops (keeps_create hlen) s hs
    rw [hbytes]
    exact hkeep.cpp_reads ub hlen hdod (hkeep.length_le hlen hcap')
  · rw [Nat.max_eq_left h8]
    intro hdod
    have hkeep := Rust.run_keeps hlen calls (c := ⟨T.create (some (List.replicate capacity 0)) t0, 0⟩)
      (keeps_create hlen)
    rw [Rust.Compressor.finish_eq]
    exact hkeep.rust_reads ub hlen hdod (hkeep.length_le hlen hcap')

theorem envelopes_keep_acked_readings :
    (∃ c, Cpp.BasicCompressor.new .double 1000 20 = .ok c ∧
      ∀ s ∈ Cpp.snapshots c [] [.bytes, .call (.batch readings), .bytes, .call (.compress (5, 5)), .bytes],
        ∃ r, Cpp.BasicDecompressor.new .double s.2 = .ok r ∧ r.size.toNat = s.1.length ∧
          r.toVector maskedShl = .ok s.1 ∧ r.decodeInto maskedShl = .ok s.1) ∧
    ∃ c, Rust.Compressor.new .double 1000 20 = .ok c ∧
      ∃ r, Rust.Decompressor.new .double (Rust.run c [] [.batch readings]).2.finish = .ok r ∧
        r.len.toNat = (Rust.run c [] [.batch readings]).1.length ∧
        r.intoIter maskedShl = .ok (Rust.run c [] [.batch readings]).1 ∧
        r.toColumns maskedShl =
          .ok ((Rust.run c [] [.batch readings]).1.map (·.1), (Rust.run c [] [.batch readings]).1.map (·.2)) := by
  obtain ⟨⟨c, hc, hcpp⟩, c', hc', hrust⟩ := envelopes_keep_acked maskedShl 1000 (by decide : 8 ≤ 20)
    (by decide) [.bytes, .call (.batch readings), .bytes, .call (.compress (5, 5)), .bytes] [.batch readings]
  refine ⟨⟨c, hc, fun s hs => ?_⟩, c', hc', ?_⟩
  · rw [Cpp.BasicCompressor.new_eq 1000 (by decide)] at hc
    cases hc
    have hall : (Cpp.snapshots ⟨ValueType.double.create (some (List.replicate 20 0)) 1000, 0⟩ []
        [.bytes, .call (.batch readings), .bytes, .call (.compress (5, 5)), .bytes]).all (fun s =>
          (deltaOfDeltas 1000 (s.1.map (·.1))).all (fun d => decide (InRange d))) = true := by
      decide +kernel
    exact hcpp s hs (inRange_of_all (List.all_eq_true.1 hall s hs))
  · rw [Rust.Compressor.new_eq] at hc'
    cases hc'
    exact hrust (inRange_of_all (by decide +kernel))

end Gorillats
