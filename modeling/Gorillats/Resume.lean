import Gorillats.Growth
/-!
# Resume — going on from a snapshot

An envelope holds the acknowledged points and nothing of the compressor that wrote it.  That is enough to go on: the
bytes of a run depend only on the points it was fed (`snapshot`), so a compressor fed what is read from an envelope, and
then what was not acknowledged, writes what one with its capacity writes that was never stopped.
-/
namespace Gorillats

open BitString

variable {T : ValueType} {t0 : I64}

/-- The points a Rust run acknowledges are the core's. -/
theorem Rust.run_eq (calls : List (Call T)) {c : Compressor T} (pts : List (Point T))
    (h : ∀ r ∈ (runCalls c.handle calls).1, r.1 = .ok ∨ r.1 = .errOverflow) :
    run c pts calls = (pts ++ acked calls (runCalls c.handle calls).1, (appends c calls).2) := by
  induction calls generalizing c pts with
  | nil => simp [run, acked, appends]
  | cons call calls ih =>
    rw [runCalls] at h ⊢
    simp only [List.forall_mem_cons] at h
    obtain ⟨hrc, hrest⟩ := h
    have hc := (c.call_spec call hrc).2
    have hrun := @ih (c.call call).2 (pts ++ c.acknowledges call)
    rw [hc] at hrun
    rw [run, appends_cons, acked, hc, hrun hrest, c.acknowledges_eq call hrc, List.append_assoc]

/-- What is read from an envelope and what was not acknowledged are what was fed. -/
theorem append_drop_fitting {capacity : Nat} (first more : List (Point T)) :
    fitting capacity t0 first ++ (first ++ more).drop (fitting capacity t0 first).length = first ++ more := by
  obtain ⟨rest, hrest⟩ := (fitting_isPrefix capacity t0 first).trans (List.prefix_append first more)
  rw [← hrest, List.drop_left]

/-- **A full buffer is exchanged for a larger one.**  Whatever a Rust compressor was fed and wherever it overflowed, a C++
program reads its envelope, feeds the points to a compressor with as much room or more, which takes them, and goes on
with the points that were not acknowledged and any others, in calls cut as it likes.  It ends with the bytes of one
compressor of that size fed everything from the start, and an append fails exactly when one fails there. -/
theorem resumed_run (ub : U64 → Int → U64) (t0 : I64) {capacity capacity' : Nat} (h8 : 8 ≤ capacity)
    (hle : capacity ≤ capacity') (first more later : List (Call T)) :
    ∃ old whole resumed, Rust.Compressor.new T t0 capacity = .ok old ∧ Rust.Compressor.new T t0 capacity' = .ok whole ∧
      Cpp.BasicCompressor.new T t0 capacity' = .ok resumed ∧
      ((∀ d ∈ deltaOfDeltas t0 ((Rust.run old [] first).1.map (·.1)), InRange d) →
        (Rust.run old [] first).1.length ≤ maxLen pointSize →
        fed later = (fed (first ++ more)).drop (Rust.run old [] first).1.length →
        ∃ read, Cpp.readAll ub T (Rust.run old [] first).2.finish = .ok read ∧
          let again := Cpp.appends resumed (.batch read :: later)
          let once := Rust.appends whole (first ++ more)
          again.1.head? = some (.ok ()) ∧ again.2.bytes = once.2.finish ∧
            ((∀ out ∈ again.1, out.isOk = true) ↔ ∀ out ∈ once.1, out.isOk = true)) := by
  have h8' := h8.trans hle
  have hlen : 8 ≤ (List.replicate capacity (0 : U8)).length := by rwa [List.length_replicate]
  have hold := Rust.Compressor.new_eq (T := T) t0 capacity
  have hwhole := Rust.Compressor.new_eq (T := T) t0 capacity'
  rw [Nat.max_eq_left h8] at hold
  rw [Nat.max_eq_left h8'] at hwhole
  refine ⟨_, _, _, hold, hwhole, Cpp.BasicCompressor.new_eq t0 h8', fun hdod hfits hlater => ?_⟩
  -- the points acknowledged are the first ones that fit, and the envelope holds them
  obtain ⟨rs, c, hrun, hack, -, hst, -⟩ := runCalls_fresh (T := T) t0 h8 first
  have hacked := Rust.run_eq first (c := ⟨T.create (some (List.replicate capacity 0)) t0, 0⟩) [] (by rw [hrun]; exact hst)
  rw [hrun, hack, List.nil_append] at hacked
  have hkeep := Rust.run_keeps hlen first (c := ⟨T.create (some (List.replicate capacity 0)) t0, 0⟩)
    (keeps_create hlen)
  obtain ⟨r, hr, -, hvec, -⟩ := hkeep.cpp_reads ub hlen hdod hfits
  rw [hacked] at hlater hr hvec ⊢
  refine ⟨fitting capacity t0 (fed first), ?_, ?_⟩
  · rw [Rust.Compressor.finish_eq, Cpp.readAll, hr]
    exact hvec
  intro again once
  -- fed these and the rest, the new compressor is fed what the whole run is
  have hfed : fed (.batch (fitting capacity t0 (fed first)) :: later) = fed (first ++ more) := by
    rw [fed_cons, hlater, fed_append]
    exact append_drop_fitting (fed first) (fed more)
  obtain ⟨hbytes, hok⟩ := Cpp.appends_fresh (T := T) t0 h8' (.batch (fitting capacity t0 (fed first)) :: later)
  obtain ⟨hfinish, hok'⟩ := Rust.appends_fresh (T := T) t0 h8' (first ++ more)
  rw [hfed] at hbytes hok
  refine ⟨?_, hbytes.trans hfinish.symm, hok.trans hok'.symm⟩
  have htaken := Cpp.batch_taken t0 h8' ((stream_fitting_le t0 h8 (fed first)).trans (by omega))
  refine (congrArg (fun run => run.1.head?) (Cpp.appends_cons _ _ later)).trans ?_
  rw [List.head?_cons, htaken]

/-- The third reading overflows 20 bytes and is taken by 32. -/
theorem resumed_run_readings :
    ∃ old whole resumed read, Rust.Compressor.new .double 1000 20 = .ok old ∧
      Rust.Compressor.new .double 1000 32 = .ok whole ∧ Cpp.BasicCompressor.new .double 1000 32 = .ok resumed ∧
      Cpp.readAll maskedShl .double (Rust.run old [] [.batch readings, .compress (5, 5)]).2.finish = .ok read ∧
      let again := Cpp.appends resumed [.batch read, .compress (1031, 0x4045800000000000), .batch [(5, 5), (6, 6)]]
      let once := Rust.appends whole [.batch readings, .compress (5, 5), .compress (6, 6)]
      again.1.head? = some (.ok ()) ∧ again.2.bytes = once.2.finish ∧
        ((∀ out ∈ again.1, out.isOk = true) ↔ ∀ out ∈ once.1, out.isOk = true) := by
  obtain ⟨old, whole, resumed, hold, hwhole, hresumed, h⟩ := resumed_run maskedShl 1000 (by decide : 8 ≤ 20)
    (by decide : 20 ≤ 32) [.batch readings, .compress (5, 5)] [.compress (6, 6)]
    [.compress (1031, 0x4045800000000000), .batch [(5, 5), (6, 6)]]
  have hcopy := hold
  rw [Rust.Compressor.new_eq] at hcopy
  cases hcopy
  obtain ⟨read, hread, hrest⟩ := h (inRange_of_all (by decide +kernel)) (by decide +kernel) (by decide +kernel)
  exact ⟨_, whole, resumed, read, hold, hwhole, hresumed, hread, hrest⟩

end Gorillats
