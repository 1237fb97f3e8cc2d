import Gorillats.Shared
import Gorillats.Writers
/-!
# Growth — what a compressor has written stays

The writer ORs bits into the byte it is at and clears the next, so no bit behind it ever changes.  Once a codeword did
not fit nothing changes at all: every later call answers an overflow, and the wrappers' envelopes stay what they are.
-/
namespace Gorillats

open BitString

variable {T : ValueType} {init : List U8} {t0 : I64} {pts : List (Point T)} {c c' : GorillatsCompressor}

/-- The machine of calls on a compressor. -/
def compressorMachine (T : ValueType) : Machine (Option GorillatsCompressor) (Call T) (Status × Nat) :=
  fun c call => call.run c

theorem runCalls_eq_run : ∀ (calls : List (Call T)) (c : Option GorillatsCompressor),
    runCalls c calls = (compressorMachine T).run c calls
  | [], _ => rfl
  | call :: calls, c => by
    rw [Machine.run_cons, ← runCalls_eq_run calls]
    rfl

theorem runCalls_append (c : Option GorillatsCompressor) (calls later : List (Call T)) :
    runCalls c (calls ++ later) = ((runCalls c calls).1 ++ (runCalls (runCalls c calls).2 later).1,
      (runCalls (runCalls c calls).2 later).2) := by
  simp only [runCalls_eq_run, Machine.run_append]

theorem fed_append (calls later : List (Call T)) : fed (calls ++ later) = fed calls ++ fed later :=
  List.flatMap_append

/-! ## A full buffer -/

section Full

variable (hfull : 8 * init.length < (stream T t0 pts).length)

include hfull

/-- **A full compressor accepts nothing**, whatever it is called with. -/
theorem Encodes.full_runCalls (h8 : 8 ≤ init.length) : ∀ (calls : List (Call T)) {c : GorillatsCompressor},
    Encodes T init t0 pts c → ∃ c', Gorillats.runCalls (some c) calls = (calls.map fun _ => (.errOverflow, 0), some c') ∧
      Encodes T init t0 pts c'
  | [], c, h => ⟨c, rfl, h⟩
  | call :: calls, c, h => by
    obtain ⟨r, c₁, hcall, h₁, hrc, hle, hfit⟩ := h.call h8 call
    have hmono := length_stream_mono t0 (List.prefix_append pts call.points)
    have hnone : r.2 = 0 := by
      rw [fitting_append_of_lt call.points h8 hfull, List.self_eq_append_right, List.take_eq_nil_iff] at hfit
      rcases hfit with hzero | hnil
      · exact hzero
      · rw [hnil] at hle
        exact Nat.le_zero.1 hle
    have hr : r = (.errOverflow, 0) := Prod.ext (by rw [hrc, if_pos (by omega)]) hnone
    -- the points of the call are not seen behind the overflow
    have h₁' : Encodes T init t0 pts c₁ := by
      refine ⟨h₁.writes.congr ?_ (by omega), h₁.width, fun hno => ?_⟩
      · rw [stream_append, List.take_append_of_le_length (by omega)]
      · rw [h₁.overflow] at hno
        simp at hno
        omega
    obtain ⟨c', hrun, h'⟩ := Encodes.full_runCalls h8 calls h₁'
    refine ⟨c', ?_, h'⟩
    rw [Gorillats.runCalls, hcall]
    simp only
    rw [hrun, hr]
    rfl

/-- The whole buffer of a full compressor is the stream's. -/
theorem Encodes.buf_of_full (h : Encodes T init t0 pts c) (h' : Encodes T init t0 pts c') : c'.w.buf = c.w.buf := by
  have hpos := h.writes.pos
  have hpos' := h'.writes.pos
  have hbit := h.writes.bitPos
  have hbit' := h'.writes.bitPos
  apply List.ext_getElem?
  intro i
  rcases Nat.lt_or_ge i init.length with hi | hi
  · rw [h.writes.written i (by omega) hi, h'.writes.written i (by omega) hi]
  · rw [List.getElem?_eq_none (by rw [h'.writes.length]; exact hi),
      List.getElem?_eq_none (by rw [h.writes.length]; exact hi)]

end Full

/-! ## A run continued -/

section Run

variable {buf : List U8} (t0 : I64) (h8 : 8 ≤ buf.length) (earlier later : List (Call T))

include h8

/-- **After an overflow** the calls that follow change nothing: not a byte, not `finish()`, which is the capacity. -/
theorem runCalls_full (hover : ∃ r ∈ (runCalls (T.create (some buf) t0) earlier).1, r.1 = .errOverflow) :
    let before := (runCalls (T.create (some buf) t0) earlier).2
    (runCalls before later).1 = later.map (fun _ => (.errOverflow, 0)) ∧
      bufferOf (runCalls before later).2 = bufferOf before ∧ gorillatsCompressorFinish before = buf.length ∧
      gorillatsCompressorFinish (runCalls before later).2 = buf.length := by
  obtain ⟨rs, c, hrun, hans, -⟩ := runCalls_create (T := T) buf t0 earlier h8
  rw [hrun] at hover ⊢
  have hfull := (exists_overflow_iff h8 hans).1 hover
  have henc := hans.encodes
  rw [List.nil_append] at henc
  obtain ⟨c', hlater, henc'⟩ := henc.full_runCalls hfull h8 later
  have hlen : gorillatsCompressorFinish (some c) = _ := henc.writes.len
  have hlen' : gorillatsCompressorFinish (some c') = _ := henc'.writes.len
  have hcap : (min (8 * buf.length) (stream T t0 (fed earlier)).length + 7) / 8 = buf.length := by omega
  intro before
  rw [hlater]
  exact ⟨rfl, henc.buf_of_full hfull henc', hlen.trans hcap, hlen'.trans hcap⟩

theorem unpack_buffer_of_fits {c : GorillatsCompressor} {rs : List (Status × Nat)}
    (hrun : runCalls (T.create (some buf) t0) (earlier ++ later) = (rs, some c))
    (hfits : (stream T t0 (fed earlier)).length ≤ 8 * buf.length) :
    (unpack c.w.buf).take (stream T t0 (fed earlier)).length = stream T t0 (fed earlier) := by
  obtain ⟨rs', c', hrun', hans, -⟩ := runCalls_create (T := T) buf t0 (earlier ++ later) h8
  cases hrun.symm.trans hrun'
  have hpre := hans.encodes.isPrefix_unpack_buf
  rw [List.nil_append, fed_append, stream_append, List.take_append, List.take_of_length_le hfits] at hpre
  exact (List.prefix_iff_eq_take.1 ((List.prefix_append _ _).trans hpre)).symm

end Run

/-- **What is written stays.**  A run of calls continued by others keeps every bit written, and `finish()` never
shrinks; once a call has answered an overflow, every later one does and accepts no point, and not a byte of the buffer
changes. -/
theorem buffer_grows {buf : List U8} (t0 : I64) (h8 : 8 ≤ buf.length) (earlier later : List (Call T)) :
    let before := runCalls (T.create (some buf) t0) earlier
    let after := runCalls (T.create (some buf) t0) (earlier ++ later)
    gorillatsCompressorFinish before.2 ≤ gorillatsCompressorFinish after.2 ∧
      (unpack (bufferOf after.2)).take (stream T t0 (fed earlier)).length =
        (unpack (bufferOf before.2)).take (stream T t0 (fed earlier)).length ∧
      ((∃ r ∈ before.1, r.1 = .errOverflow) →
        after.1 = before.1 ++ later.map (fun _ => (.errOverflow, 0)) ∧ bufferOf after.2 = bufferOf before.2 ∧
          gorillatsCompressorFinish after.2 = buf.length) := by
  obtain ⟨rs, c, hrun, hans, -⟩ := runCalls_create (T := T) buf t0 earlier h8
  obtain ⟨rs', c', hrun', hans', -⟩ := runCalls_create (T := T) buf t0 (earlier ++ later) h8
  have hover := exists_overflow_iff h8 hans
  have hfull := runCalls_full (T := T) t0 h8 earlier later
  have hsplit := hrun'
  rw [runCalls_append] at hsplit
  rw [hrun] at hfull hsplit
  obtain ⟨hrs, hc⟩ := Prod.mk.inj hsplit
  simp only at hfull hrs hc
  rw [hc] at hfull
  intro before after
  rw [show before = (rs, some c) from hrun, show after = (rs', some c') from hrun']
  refine ⟨?_, ?_, fun h => ?_⟩
  · have hlen : gorillatsCompressorFinish (some c) = _ := hans.encodes.writes.len
    have hlen' : gorillatsCompressorFinish (some c') = _ := hans'.encodes.writes.len
    have hmono := length_stream_mono t0 (List.prefix_append (fed earlier) (fed later))
    rw [← fed_append] at hmono
    rw [hlen, hlen', List.nil_append, List.nil_append]
    omega
  · rcases Nat.lt_or_ge (8 * buf.length) (stream T t0 (fed earlier)).length with hlt | hfits
    · rw [(hfull (hover.2 hlt)).2.1]
    · have hbefore := unpack_buffer_of_fits t0 h8 earlier [] (by rwa [List.append_nil]) hfits
      exact (unpack_buffer_of_fits t0 h8 earlier later hrun' hfits).trans hbefore.symm
  · obtain ⟨hanswers, hbuf, -, hfinish⟩ := hfull h
    rw [hanswers] at hrs
    exact ⟨hrs.symm, hbuf, hfinish⟩

/-- 18 bytes overflow on the readings, so what comes later changes nothing. -/
theorem buffer_grows_readings :
    let later : List (Call .double) := [.compress (1030, 0), .batch []]
    let before := runCalls (ValueType.double.create (some (List.replicate 18 0xFF)) 1000) [.batch readings]
    let after := runCalls (ValueType.double.create (some (List.replicate 18 0xFF)) 1000) ([.batch readings] ++ later)
    gorillatsCompressorFinish before.2 ≤ gorillatsCompressorFinish after.2 ∧
      after.1 = before.1 ++ later.map (fun _ => (.errOverflow, 0)) ∧ bufferOf after.2 = bufferOf before.2 ∧
      gorillatsCompressorFinish after.2 = 18 := by
  intro later before after
  have h8 : 8 ≤ (List.replicate 18 (0xFF : U8)).length := by decide
  obtain ⟨hfinish, -, hfull⟩ := buffer_grows (T := .double) 1000 h8 [.batch readings] later
  have hover : ∃ r ∈ before.1, r.1 = .errOverflow := by decide +kernel
  exact ⟨hfinish, hfull hover⟩

/-! ## The wrappers -/

section Answers

variable {α : Type} {isOk : α → Bool} {outs : List α}

theorem exists_overflow_of_failed {rs : List (Status × Nat)}
    (houts : outs.map isOk = rs.map fun r => decide (r.1 = .ok)) (hst : ∀ r ∈ rs, r.1 = .ok ∨ r.1 = .errOverflow)
    (hfailed : ∃ out ∈ outs, isOk out = false) : ∃ r ∈ rs, r.1 = .errOverflow := by
  obtain ⟨out, hout, hno⟩ := hfailed
  have hmem := List.mem_map_of_mem (f := isOk) hout
  rw [houts, hno, List.mem_map] at hmem
  obtain ⟨r, hr, hrc⟩ := hmem
  exact ⟨r, hr, (hst r hr).resolve_left (of_decide_eq_false hrc)⟩

theorem failed_of_rejected {later : List (Call T)}
    (houts : outs.map isOk = (later.map fun _ => (Status.errOverflow, 0)).map fun r => decide (r.1 = .ok)) :
    ∀ out ∈ outs, isOk out = false := by
  intro out hout
  have hmem := List.mem_map_of_mem (f := isOk) hout
  rw [houts, List.map_map, List.mem_map] at hmem
  obtain ⟨_, -, heq⟩ := hmem
  exact heq.symm

end Answers

/-- A rejected run adds nothing to the count. -/
theorem count_rejected (count : U64) (later : List (Call T)) :
    count + BitVec.ofNat 64 (accepted (later.map fun _ => (Status.errOverflow, 0))) = count := by
  simp [accepted]

/-- **A full wrapper is frozen.**  After an append that failed, every append fails, C++ `size()` and `bytes()` and Rust
`len()` and `finish()` stay what they are. -/
theorem full_wrappers_frozen (T : ValueType) (t0 : I64) {capacity : Nat} (h8 : 8 ≤ capacity)
    (earlier later : List (Call T)) :
    ∃ cpp rust, Cpp.BasicCompressor.new T t0 capacity = .ok cpp ∧ Rust.Compressor.new T t0 capacity = .ok rust ∧
      ((∃ out ∈ (Cpp.appends cpp earlier).1, out.isOk = false) →
        let full := (Cpp.appends cpp earlier).2
        (∀ out ∈ (Cpp.appends full later).1, out.isOk = false) ∧ (Cpp.appends full later).2.size = full.size ∧
          (Cpp.appends full later).2.bytes = full.bytes) ∧
      ((∃ out ∈ (Rust.appends rust earlier).1, out.isOk = false) →
        let full := (Rust.appends rust earlier).2
        (∀ out ∈ (Rust.appends full later).1, out.isOk = false) ∧ (Rust.appends full later).2.len = full.len ∧
          (Rust.appends full later).2.finish = full.finish) := by
  have hlen : 8 ≤ (List.replicate capacity (0 : U8)).length := by rwa [List.length_replicate]
  have hrust := Rust.Compressor.new_eq (T := T) t0 capacity
  rw [Nat.max_eq_left h8] at hrust
  obtain ⟨rs, c, hrun, hans, -⟩ := runCalls_create (List.replicate capacity 0) t0 earlier hlen
  have hst : ∀ r ∈ (runCalls (T.create (some (List.replicate capacity 0)) t0) earlier).1,
      r.1 = .ok ∨ r.1 = .errOverflow := by
    rw [hrun]
    exact hans.ok_or_overflow
  -- an overflow in the core's run leaves the buffer and its length as they are
  have hfrozen : (∃ r ∈ (runCalls (T.create (some (List.replicate capacity 0)) t0) earlier).1, r.1 = .errOverflow) →
      (runCalls (runCalls (T.create (some (List.replicate capacity 0)) t0) earlier).2 later).1 =
          later.map (fun _ => (.errOverflow, 0)) ∧
        streamBytes (runCalls (runCalls (T.create (some (List.replicate capacity 0)) t0) earlier).2 later).2 =
          streamBytes (runCalls (T.create (some (List.replicate capacity 0)) t0) earlier).2 := by
    intro hover
    obtain ⟨hanswers, hbuf, hfinish, hfinish'⟩ := runCalls_full t0 hlen earlier later hover
    unfold streamBytes
    exact ⟨hanswers, by rw [hbuf, hfinish, hfinish']⟩
  refine ⟨_, _, Cpp.BasicCompressor.new_eq t0 h8, hrust, ?_, ?_⟩
  · obtain ⟨houts, hc⟩ := Cpp.appends_eq earlier ⟨T.create (some (List.replicate capacity 0)) t0, 0⟩
    intro hfailed full
    obtain ⟨hanswers, hbytes⟩ := hfrozen (exists_overflow_of_failed houts hst hfailed)
    obtain ⟨houts', hc'⟩ := Cpp.appends_eq later full
    simp only [show full = _ from hc] at houts' hc' ⊢
    rw [hanswers] at houts' hc'
    rw [hc', Cpp.BasicCompressor.bytes_eq, Cpp.BasicCompressor.bytes_eq, hbytes, count_rejected]
    exact ⟨failed_of_rejected houts', rfl, rfl⟩
  · obtain ⟨houts, hc⟩ := Rust.appends_eq earlier ⟨T.create (some (List.replicate capacity 0)) t0, 0⟩ hst
    intro hfailed full
    obtain ⟨hanswers, hbytes⟩ := hfrozen (exists_overflow_of_failed houts hst hfailed)
    simp only [show full = _ from hc]
    have hst' : ∀ r ∈ (runCalls (runCalls (T.create (some (List.replicate capacity 0)) t0) earlier).2 later).1,
        r.1 = .ok ∨ r.1 = .errOverflow := by
      rw [hanswers]
      rintro r hr
      obtain ⟨_, -, rfl⟩ := List.mem_map.1 hr
      exact .inr rfl
    obtain ⟨houts', hc'⟩ := Rust.appends_eq later
      ⟨(runCalls (T.create (some (List.replicate capacity 0)) t0) earlier).2,
        0 + BitVec.ofNat 64 (accepted (runCalls (T.create (some (List.replicate capacity 0)) t0) earlier).1)⟩ hst'
    rw [hanswers] at houts' hc'
    rw [hc', Rust.Compressor.finish_eq, Rust.Compressor.finish_eq, hbytes, count_rejected]
    exact ⟨failed_of_rejected houts', rfl, rfl⟩

theorem full_wrappers_frozen_readings :
    ∃ cpp rust, Cpp.BasicCompressor.new .double 1000 18 = .ok cpp ∧ Rust.Compressor.new .double 1000 18 = .ok rust ∧
      (let full := (Cpp.appends cpp [.batch readings]).2
       (∀ out ∈ (Cpp.appends full [.compress (1030, 0)]).1, out.isOk = false) ∧
         (Cpp.appends full [.compress (1030, 0)]).2.size = full.size ∧
         (Cpp.appends full [.compress (1030, 0)]).2.bytes = full.bytes) ∧
      let full := (Rust.appends rust [.batch readings]).2
      (∀ out ∈ (Rust.appends full [.compress (1030, 0)]).1, out.isOk = false) ∧
        (Rust.appends full [.compress (1030, 0)]).2.len = full.len ∧
        (Rust.appends full [.compress (1030, 0)]).2.finish = full.finish := by
  obtain ⟨cpp, rust, hcpp, hrust, hfrozen, hfrozen'⟩ := full_wrappers_frozen .double 1000 (by decide : 8 ≤ 18)
    [.batch readings] [.compress (1030, 0)]
  have hfull : ∃ out ∈ (Cpp.appends cpp [.batch readings]).1, out.isOk = false := by
    rw [Cpp.BasicCompressor.new_eq 1000 (by decide)] at hcpp
    cases hcpp
    decide +kernel
  have hfull' : ∃ out ∈ (Rust.appends rust [.batch readings]).1, out.isOk = false := by
    rw [Rust.Compressor.new_eq] at hrust
    cases hrust
    decide +kernel
  exact ⟨cpp, rust, hcpp, hrust, hfrozen hfull, hfrozen' hfull'⟩

end Gorillats
