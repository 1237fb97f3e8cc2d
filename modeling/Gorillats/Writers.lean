import Gorillats.WrapperRuns
/-!
# Writers — the two wrappers on one sequence of appends

A wrapper is the core's run of the same calls with a count beside it (`Cpp.appends_eq`, `Rust.appends_eq`): an append
succeeds when its call answers `GORILLATS_OK`, and the count grows by what the answers acknowledge.  So the same appends
leave the same envelope in both languages, overflows included.
-/
namespace Gorillats

open BitString

variable {T : ValueType}

theorem accepted_cons (r : Status × Nat) (rs : List (Status × Nat)) : accepted (r :: rs) = r.2 + accepted rs := by
  unfold accepted
  rw [List.map_cons, List.sum_cons]

theorem add_ofNat_accepted (count : U64) (r : Status × Nat) (rs : List (Status × Nat)) :
    count + BitVec.ofNat 64 r.2 + BitVec.ofNat 64 (accepted rs) = count + BitVec.ofNat 64 (accepted (r :: rs)) := by
  rw [accepted_cons, BitVec.ofNat_add, BitVec.add_assoc]

/-! ## C++ -/

namespace Cpp

/-- Appends one after another, whatever they throw: what each came to, and the compressor after them. -/
def appends : BasicCompressor T → List (Call T) → List (Except Exception Unit) × BasicCompressor T
  | c, [] => ([], c)
  | c, call :: calls =>
    let (out, c) := c.call call
    let (outs, c) := appends c calls
    (out :: outs, c)

theorem appends_cons (c : BasicCompressor T) (call : Call T) (calls : List (Call T)) : appends c (call :: calls) =
    ((c.call call).1 :: (appends (c.call call).2 calls).1, (appends (c.call call).2 calls).2) := rfl

theorem appends_singleton (c : BasicCompressor T) (call : Call T) :
    appends c [call] = ([(c.call call).1], (c.call call).2) := rfl

/-- **The C++ wrapper is the core's run with a count beside it.** -/
theorem appends_eq : ∀ (calls : List (Call T)) (c : BasicCompressor T),
    (appends c calls).1.map Except.isOk = (runCalls c.raw calls).1.map (fun r => decide (r.1 = .ok)) ∧
      (appends c calls).2 =
        { raw := (runCalls c.raw calls).2
          count := c.count + BitVec.ofNat 64 (accepted (runCalls c.raw calls).1) }
  | [], c => ⟨rfl, by simp [appends, runCalls, accepted]⟩
  | call :: calls, c => by
    obtain ⟨houts, hc⟩ := appends_eq calls (c.call call).2
    rw [(c.call_spec call).2] at houts hc
    rw [appends_cons, (c.call_spec call).2, runCalls]
    refine ⟨?_, ?_⟩
    · rw [List.map_cons, houts, (c.call_spec call).1]
      rfl
    · rw [hc, add_ofNat_accepted]

end Cpp

/-! ## Rust -/

namespace Rust

/-- Appends one after another, whatever they answer: what each came to, and the compressor after them. -/
def appends : Compressor T → List (Call T) → List (Outcome Unit) × Compressor T
  | c, [] => ([], c)
  | c, call :: calls =>
    let (out, c) := c.call call
    let (outs, c) := appends c calls
    (out :: outs, c)

theorem appends_cons (c : Compressor T) (call : Call T) (calls : List (Call T)) : appends c (call :: calls) =
    ((c.call call).1 :: (appends (c.call call).2 calls).1, (appends (c.call call).2 calls).2) := rfl

/-- **The Rust wrapper is the core's run with a count beside it**, while the core answers `GORILLATS_OK` or an overflow:
it takes every other answer for a success. -/
theorem appends_eq : ∀ (calls : List (Call T)) (c : Compressor T),
    (∀ r ∈ (runCalls c.handle calls).1, r.1 = .ok ∨ r.1 = .errOverflow) →
    (appends c calls).1.map Outcome.isOk = (runCalls c.handle calls).1.map (fun r => decide (r.1 = .ok)) ∧
      (appends c calls).2 =
        { handle := (runCalls c.handle calls).2
          count := c.count + BitVec.ofNat 64 (accepted (runCalls c.handle calls).1) }
  | [], c, _ => ⟨rfl, by simp [appends, runCalls, accepted]⟩
  | call :: calls, c, h => by
    rw [runCalls] at h
    simp only [List.forall_mem_cons] at h
    obtain ⟨hrc, hrest⟩ := h
    have ih := appends_eq calls (c.call call).2
    rw [(c.call_spec call hrc).2] at ih
    obtain ⟨houts, hc⟩ := ih hrest
    rw [appends_cons, (c.call_spec call hrc).2, runCalls]
    refine ⟨?_, ?_⟩
    · rw [List.map_cons, houts, (c.call_spec call hrc).1]
      rfl
    · rw [hc, add_ofNat_accepted]

end Rust

/-! ## The same bytes -/

/-- **The two writers are byte-identical.**  The same appends succeed in both, and `bytes()` is `finish()`, whatever
overflowed on the way. -/
theorem writers_agree (T : ValueType) (t0 : I64) {capacity : Nat} (h8 : 8 ≤ capacity) (calls : List (Call T)) :
    ∃ cpp rust, Cpp.BasicCompressor.new T t0 capacity = .ok cpp ∧ Rust.Compressor.new T t0 capacity = .ok rust ∧
      (Cpp.appends cpp calls).1.map Except.isOk = (Rust.appends rust calls).1.map Rust.Outcome.isOk ∧
      (Cpp.appends cpp calls).2.bytes = (Rust.appends rust calls).2.finish := by
  have hrust := Rust.Compressor.new_eq (T := T) t0 capacity
  rw [Nat.max_eq_left h8] at hrust
  refine ⟨_, _, Cpp.BasicCompressor.new_eq t0 h8, hrust, ?_⟩
  obtain ⟨rs, c, hrun, hans, -⟩ := runCalls_create (List.replicate capacity 0) t0 calls
    (by rwa [List.length_replicate])
  have hst : ∀ r ∈ (runCalls (T.create (some (List.replicate capacity 0)) t0) calls).1,
      r.1 = .ok ∨ r.1 = .errOverflow := by
    rw [hrun]
    exact hans.ok_or_overflow
  obtain ⟨houts, hc⟩ := Cpp.appends_eq calls ⟨T.create (some (List.replicate capacity 0)) t0, 0⟩
  obtain ⟨houts', hc'⟩ := Rust.appends_eq calls ⟨T.create (some (List.replicate capacity 0)) t0, 0⟩ hst
  refine ⟨houts.trans houts'.symm, ?_⟩
  rw [Cpp.BasicCompressor.bytes_eq, Rust.Compressor.finish_eq, hc, hc']

theorem writers_agree_readings :
    ∃ cpp rust, Cpp.BasicCompressor.new .double 1000 18 = .ok cpp ∧ Rust.Compressor.new .double 1000 18 = .ok rust ∧
      (Cpp.appends cpp [.batch readings, .batch [], .compress (5, 5)]).1.map Except.isOk =
        (Rust.appends rust [.batch readings, .batch [], .compress (5, 5)]).1.map Rust.Outcome.isOk ∧
      (Cpp.appends cpp [.batch readings, .batch [], .compress (5, 5)]).2.bytes =
        (Rust.appends rust [.batch readings, .batch [], .compress (5, 5)]).2.finish :=
  writers_agree .double 1000 (by decide) [.batch readings, .batch [], .compress (5, 5)]

/-! ## Appends that fit -/

namespace Cpp

theorem capacity_of_new {t0 : I64} {capacity : Nat} {c : BasicCompressor T}
    (h : BasicCompressor.new T t0 capacity = .ok c) :
    8 ≤ capacity ∧ c = { raw := T.create (some (List.replicate capacity 0)) t0, count := 0 } := by
  by_cases h8 : 8 ≤ capacity
  · rw [BasicCompressor.new_eq t0 h8] at h
    exact ⟨h8, (Except.ok.inj h).symm⟩
  · have hnull : T.create (some (List.replicate capacity 0)) t0 = none := by
      rw [T.create_eq, gtCompressorCreate, if_pos (by rw [List.length_replicate]; omega)]
    rw [BasicCompressor.new, hnull] at h
    cases h

theorem eq_ok_iff_isOk (out : Except Exception Unit) : out = .ok () ↔ out.isOk = true := by
  cases out with
  | error e => simp [Except.isOk, Except.toBool]
  | ok u => simp [Except.isOk, Except.toBool]

/-- **Appends all succeed exactly when their stream fits.** -/
theorem appends_ok_iff (t0 : I64) {capacity : Nat} (h8 : 8 ≤ capacity) (calls : List (Call T)) :
    (∀ out ∈ (appends { raw := T.create (some (List.replicate capacity 0)) t0, count := 0 } calls).1, out = .ok ()) ↔
      (stream T t0 (fed calls)).length ≤ 8 * capacity := by
  have hlen : 8 ≤ (List.replicate capacity (0 : U8)).length := by rwa [List.length_replicate]
  obtain ⟨rs, g, hrun, hans, -⟩ := runCalls_create (T := T) (List.replicate capacity 0) t0 calls hlen
  obtain ⟨houts, -⟩ := appends_eq calls ⟨T.create (some (List.replicate capacity 0)) t0, 0⟩
  have hover := exists_overflow_iff hlen hans
  rw [List.length_replicate] at hover
  rw [hrun] at houts
  have hall : (∀ out ∈ (appends { raw := T.create (some (List.replicate capacity 0)) t0, count := 0 } calls).1,
      out = .ok ()) ↔ ∀ r ∈ rs, r.1 = .ok := by
    simp only [eq_ok_iff_isOk]
    rw [← List.forall_mem_map (P := fun b => b = true), houts, List.forall_mem_map]
    simp only [decide_eq_true_eq]
  rw [hall, ← Nat.not_lt, ← hover]
  constructor
  · rintro hok ⟨r, hr, hov⟩
    rw [hok r hr] at hov
    cases hov
  · intro hno r hr
    exact (hans.ok_or_overflow r hr).resolve_right fun hov => hno ⟨r, hr, hov⟩

/-- **Appends whose stream fits** leave it whole in the buffer, and the number of their points modulo `2 ^ 64`. -/
theorem appends_of_fits (t0 : I64) {capacity : Nat} (h8 : 8 ≤ capacity) (calls : List (Call T))
    (hfit : (stream T t0 (fed calls)).length ≤ 8 * capacity) :
    ∃ g, (appends { raw := T.create (some (List.replicate capacity 0)) t0, count := 0 } calls).2 =
        { raw := some g, count := BitVec.ofNat 64 (fed calls).length } ∧
      Encodes T (List.replicate capacity 0) t0 (fed calls) g := by
  have hlen : 8 ≤ (List.replicate capacity (0 : U8)).length := by rwa [List.length_replicate]
  obtain ⟨rs, g, hrun, hans, hack⟩ := runCalls_create (T := T) (List.replicate capacity 0) t0 calls hlen
  obtain ⟨-, hc⟩ := appends_eq calls ⟨T.create (some (List.replicate capacity 0)) t0, 0⟩
  rw [List.length_replicate, fitting_of_le hfit] at hack
  rw [hrun, hans.total, hack] at hc
  refine ⟨g, hc.trans ?_, hans.encodes⟩
  simp only [zero_add]

end Cpp

/-! ## The bytes by the points -/

/-- The envelope of a compressor that was fed the points. -/
def snapshot (T : ValueType) (capacity : Nat) (t0 : I64) (pts : List (Point T)) : List U8 :=
  envelope T (BitVec.ofNat 64 (fitting capacity t0 pts).length) (pack ((stream T t0 pts).take (8 * capacity)))

theorem Encodes.streamBytes_eq {init : List U8} {t0 : I64} {pts : List (Point T)} {c : GorillatsCompressor}
    (h : Encodes T init t0 pts c) : streamBytes (some c) = pack ((stream T t0 pts).take (8 * init.length)) :=
  h.writes.take_len

theorem snapshot_of_fits {capacity : Nat} {t0 : I64} {pts : List (Point T)}
    (h : (stream T t0 pts).length ≤ 8 * capacity) :
    snapshot T capacity t0 pts = envelope T (BitVec.ofNat 64 pts.length) (pack (stream T t0 pts)) := by
  rw [snapshot, fitting_of_le h, List.take_of_length_le h]

section Run

variable (t0 : I64) {capacity : Nat} (h8 : 8 ≤ capacity) (calls : List (Call T))

include h8

/-- What a run comes to, by the points it is fed. -/
theorem runCalls_fresh :
    ∃ rs c, runCalls (T.create (some (List.replicate capacity 0)) t0) calls = (rs, some c) ∧
      acked calls rs = fitting capacity t0 (fed calls) ∧
      envelope T (BitVec.ofNat 64 (accepted rs)) (streamBytes (some c)) = snapshot T capacity t0 (fed calls) ∧
      (∀ r ∈ rs, r.1 = .ok ∨ r.1 = .errOverflow) ∧
      ((∀ r ∈ rs, r.1 = .ok) ↔ (stream T t0 (fed calls)).length ≤ 8 * capacity) := by
  have hlen : 8 ≤ (List.replicate capacity (0 : U8)).length := by rwa [List.length_replicate]
  obtain ⟨rs, c, hrun, hans, hack⟩ := runCalls_create (List.replicate capacity 0) t0 calls hlen
  have hok := hans.ok_iff hlen
  have hbytes := hans.encodes.streamBytes_eq
  rw [List.nil_append] at hbytes
  rw [List.length_replicate] at hack hok hbytes
  refine ⟨rs, c, hrun, hack, ?_, hans.ok_or_overflow, hok⟩
  rw [snapshot, hans.total, hack, hbytes]

theorem Cpp.appends_fresh :
    let c : BasicCompressor T := { raw := T.create (some (List.replicate capacity 0)) t0, count := 0 }
    (appends c calls).2.bytes = snapshot T capacity t0 (fed calls) ∧
      ((∀ out ∈ (appends c calls).1, out.isOk = true) ↔ (stream T t0 (fed calls)).length ≤ 8 * capacity) := by
  intro c
  obtain ⟨rs, g, hrun, -, hbytes, -, hok⟩ := runCalls_fresh t0 h8 calls
  obtain ⟨houts, hc⟩ := appends_eq calls c
  rw [hrun] at houts hc
  refine ⟨?_, ?_⟩
  · rw [BasicCompressor.bytes_eq, hc, ← hbytes]
    simp only [c, zero_add]
  · rw [← hok, ← List.forall_mem_map (P := fun b => b = true), houts, List.forall_mem_map]
    simp only [decide_eq_true_eq]

theorem Rust.appends_fresh :
    let c : Compressor T := { handle := T.create (some (List.replicate capacity 0)) t0, count := 0 }
    (appends c calls).2.finish = snapshot T capacity t0 (fed calls) ∧
      ((∀ out ∈ (appends c calls).1, out.isOk = true) ↔ (stream T t0 (fed calls)).length ≤ 8 * capacity) := by
  intro c
  obtain ⟨rs, g, hrun, -, hbytes, hst, hok⟩ := runCalls_fresh t0 h8 calls
  obtain ⟨houts, hc⟩ := appends_eq calls c (by rw [hrun]; exact hst)
  rw [hrun] at houts hc
  refine ⟨?_, ?_⟩
  · rw [Compressor.finish_eq, hc, ← hbytes]
    simp only [c, zero_add]
  · rw [← hok, ← List.forall_mem_map (P := fun b => b = true), houts, List.forall_mem_map]
    simp only [decide_eq_true_eq]

/-- A batch that fits is taken. -/
theorem Cpp.batch_taken {pts : List (Point T)} (hfit : (stream T t0 pts).length ≤ 8 * capacity) :
    (BasicCompressor.call { raw := T.create (some (List.replicate capacity 0)) t0, count := 0 } (.batch pts)).1 =
      .ok () := by
  obtain ⟨-, hok⟩ := appends_fresh t0 h8 [.batch pts]
  have hfed : fed [.batch pts] = pts := List.append_nil pts
  rw [hfed, appends_singleton, List.forall_mem_singleton] at hok
  exact (eq_ok_iff_isOk _).2 (hok.2 hfit)

end Run

end Gorillats
