import Gorillats.RoundTrip
/-!
# EncodeChunks — single and batch calls feed one stream

However the points are cut into calls, the compressor encodes the points fed, and the answers acknowledge those that
fit.  A batch that overflows stops early and leaves another coding state than single calls do, but the overflowed
writer shows neither.
-/
namespace Gorillats

open BitString BitParser

variable {T : ValueType} {init : List U8} {t0 : I64} {pts : List (Point T)} {c : GorillatsCompressor}

/-- What is fed after an overflow is not seen, encoded or not. -/
theorem Encodes.extend (h : Encodes T init t0 pts c) (hlt : 8 * init.length < (stream T t0 pts).length)
    (more : List (Point T)) : Encodes T init t0 (pts ++ more) c := by
  refine ⟨h.writes.congr ?_ ?_, h.width, fun hno => ?_⟩
  · rw [stream_append, List.take_append_of_le_length (by omega)]
  · rw [stream_append, List.length_append]
    omega
  · rw [h.overflow] at hno
    simp [hlt] at hno

/-- **The batch loop** encodes its points and counts those that fit. -/
theorem Encodes.compressLoop (h8 : 8 ≤ init.length) : ∀ (qs : List (Point T)) {pts : List (Point T)}
    {c : GorillatsCompressor}, Encodes T init t0 pts c →
    ∃ i c', Gorillats.compressLoop T.width c (qs.map fun p => (p.1, T.toBits p.2)) = (i, c') ∧
      Encodes T init t0 (pts ++ qs) c' ∧ i ≤ qs.length ∧
      fitting init.length t0 (pts ++ qs) = fitting init.length t0 pts ++ qs.take i
  | [], pts, c, h => ⟨0, c, rfl, by simpa using h, Nat.le_refl 0, by simp⟩
  | q :: qs, pts, c, h => by
    have h₁ := h.encodePoint q
    have happ : pts ++ q :: qs = pts ++ [q] ++ qs := List.append_cons ..
    rw [List.map_cons, Gorillats.compressLoop]
    generalize Gorillats.encodePoint T.width c q.1 (T.toBits q.2) = c₁ at h₁ ⊢
    dsimp only
    by_cases hlt : 8 * init.length < (stream T t0 (pts ++ [q])).length
    · rw [if_pos (by rw [h₁.overflow]; simpa using hlt)]
      refine ⟨0, c₁, rfl, happ ▸ h₁.extend hlt qs, Nat.zero_le _, ?_⟩
      rw [happ, fitting_append_of_lt qs h8 hlt, fitting_concat_of_lt h8 hlt, List.take_zero, List.append_nil]
    · obtain ⟨i, c', hrun, h', hi, hfit⟩ := h₁.compressLoop h8 qs
      rw [if_neg (by rw [h₁.overflow]; simpa using hlt), hrun]
      refine ⟨i + 1, c', rfl, happ ▸ h', Nat.succ_le_succ hi, ?_⟩
      rw [happ, hfit, fitting_concat_of_le (by omega), List.take_succ_cons, ← List.append_cons]

theorem Call.run_batch {c : GorillatsCompressor} (h : c.width = T.width) (qs : List (Point T)) :
    (Call.batch qs).run (some c) =
      (((compressLoop T.width c (qs.map fun p => (p.1, T.toBits p.2))).2.status,
        (compressLoop T.width c (qs.map fun p => (p.1, T.toBits p.2))).1),
        some (compressLoop T.width c (qs.map fun p => (p.1, T.toBits p.2))).2) := by
  have hzip : ((qs.map (·.1)).zip ((qs.map (·.2)).map T.toBits)).take qs.length
      = qs.map fun p => (p.1, T.toBits p.2) := by
    rw [List.map_map, List.zip_map', List.take_of_length_le (by simp)]
    rfl
  rw [Call.run, T.compressBatch_eq, compressBatchWidth]
  simp only [Option.map_some, Option.getD_some]
  rw [if_neg (by simp [h]), hzip]

/-- **One call**: its points are fed, its status says whether all so far fit, its count which of its own do. -/
theorem Encodes.call (h : Encodes T init t0 pts c) (h8 : 8 ≤ init.length) (call : Call T) :
    ∃ r c', call.run (some c) = (r, some c') ∧ Encodes T init t0 (pts ++ call.points) c' ∧
      r.1 = (if 8 * init.length < (stream T t0 (pts ++ call.points)).length then .errOverflow else .ok) ∧
      r.2 ≤ call.points.length ∧
      fitting init.length t0 (pts ++ call.points) = fitting init.length t0 pts ++ call.points.take r.2 := by
  cases call with
  | compress p =>
    obtain ⟨c', hrun, h'⟩ := h.compress p
    refine ⟨_, c', by rw [Call.run, hrun], h', rfl, ?_, ?_⟩
    · simp only [Call.points, List.length_singleton]
      split <;> simp
    · simp only [Call.points]
      by_cases hlt : 8 * init.length < (stream T t0 (pts ++ [p])).length
      · rw [if_pos hlt, fitting_concat_of_lt h8 hlt]
        simp
      · rw [if_neg hlt, fitting_concat_of_le (by omega)]
        simp
  | batch qs =>
    obtain ⟨i, c', hrun, h', hi, hfit⟩ := h.compressLoop h8 qs
    exact ⟨(c'.status, i), c', by rw [Call.run_batch h.width, hrun], h', h'.status, hi, hfit⟩

/-! ## A run of calls -/

theorem fed_cons (call : Call T) (calls : List (Call T)) : fed (call :: calls) = call.points ++ fed calls := rfl

/-- What a run of calls answers and leaves, on a compressor that had been fed `pts`. -/
structure Answered (init : List U8) (t0 : I64) (pts : List (Point T)) (calls : List (Call T)) (rs : List (Status × Nat))
    (c' : GorillatsCompressor) : Prop where
  encodes  : Encodes T init t0 (pts ++ fed calls) c'
  statuses : rs.map (·.1) = (List.range calls.length).map fun i =>
    if 8 * init.length < (stream T t0 (pts ++ fed (calls.take (i + 1)))).length then .errOverflow else .ok
  total    : accepted rs = (acked calls rs).length
  fitting  : fitting init.length t0 (pts ++ fed calls) = fitting init.length t0 pts ++ acked calls rs

theorem Encodes.runCalls (h8 : 8 ≤ init.length) : ∀ (calls : List (Call T)) {pts : List (Point T)}
    {c : GorillatsCompressor}, Encodes T init t0 pts c →
    ∃ rs c', Gorillats.runCalls (some c) calls = (rs, some c') ∧ Answered init t0 pts calls rs c'
  | [], pts, c, h => ⟨[], c, rfl, by simpa [fed] using h, rfl, rfl, by simp [fed, acked]⟩
  | call :: calls, pts, c, h => by
    obtain ⟨r, c₁, hcall, h₁, hrc, hle, hfit⟩ := h.call h8 call
    obtain ⟨rs, c', hrun, h', hst, htot, hfits⟩ := h₁.runCalls h8 calls
    refine ⟨r :: rs, c', by rw [Gorillats.runCalls, hcall]; simp only; rw [hrun], ?_, ?_, ?_, ?_⟩
    · rw [fed_cons, ← List.append_assoc]
      exact h'
    · rw [List.map_cons, hrc, hst, List.length_cons, List.range_succ_eq_map, List.map_cons, List.map_map]
      simp only [Nat.zero_add, List.take_succ_cons, List.take_zero, fed_cons, Function.comp_def, List.append_assoc]
      rw [show fed ([] : List (Call T)) = [] from rfl, List.append_nil]
      rfl
    · unfold accepted
      rw [List.map_cons, List.sum_cons, ← accepted, htot, acked, List.length_append, List.length_take,
        Nat.min_eq_left hle]
    · rw [fed_cons, ← List.append_assoc, hfits, hfit, acked, List.append_assoc]

/-- **Any run on a fresh compressor** acknowledges the points fed that fit. -/
theorem runCalls_create (buf : List U8) (t0 : I64) (calls : List (Call T)) (h8 : 8 ≤ buf.length) :
    ∃ rs c, runCalls (T.create (some buf) t0) calls = (rs, some c) ∧ Answered buf t0 [] calls rs c ∧
      acked calls rs = fitting buf.length t0 (fed calls) := by
  obtain ⟨c₀, hc₀, h₀⟩ := encodes_create (T := T) buf t0 h8
  obtain ⟨rs, c, hrun, h⟩ := h₀.runCalls h8 calls
  refine ⟨rs, c, by rw [hc₀, hrun], h, ?_⟩
  have hnil : fitting buf.length t0 ([] : List (Point T)) = [] := rfl
  have hfit := h.fitting
  rw [hnil, List.nil_append, List.nil_append] at hfit
  exact hfit.symm

theorem Answered.ok_or_overflow {init : List U8} {t0 : I64} {pts : List (Point T)} {calls : List (Call T)}
    {rs : List (Status × Nat)} {c : GorillatsCompressor} (h : Answered init t0 pts calls rs c) :
    ∀ r ∈ rs, r.1 = .ok ∨ r.1 = .errOverflow := by
  intro r hr
  have hst := List.mem_map_of_mem (f := fun r : Status × Nat => r.1) hr
  rw [h.statuses, List.mem_map] at hst
  obtain ⟨i, -, hi⟩ := hst
  rw [← hi]
  exact (ite_eq_or_eq ..).symm

/-- **How the points are cut into calls does not show**: not in the bytes, not in the number of points accepted, which
is the greatest number of them that fits; and a call succeeds exactly when all points fed by then fit. -/
theorem runCalls_chunking {calls₁ calls₂ : List (Call T)} {rs₁ rs₂ : List (Status × Nat)}
    {c₁ c₂ : Option GorillatsCompressor} {buf : List U8} {t0 : I64} (h8 : 8 ≤ buf.length)
    (hfed : fed calls₁ = fed calls₂) (h₁ : runCalls (T.create (some buf) t0) calls₁ = (rs₁, c₁))
    (h₂ : runCalls (T.create (some buf) t0) calls₂ = (rs₂, c₂)) :
    gorillatsCompressorFinish c₁ = gorillatsCompressorFinish c₂ ∧ streamBytes c₁ = streamBytes c₂ ∧
      accepted rs₁ = accepted rs₂ ∧
      IsGreatest {k | k ≤ (fed calls₁).length ∧ (stream T t0 ((fed calls₁).take k)).length ≤ 8 * buf.length}
        (accepted rs₁) ∧
      rs₁.map (·.1) = (List.range calls₁.length).map fun i =>
        if (stream T t0 (fed (calls₁.take (i + 1)))).length ≤ 8 * buf.length then .ok else .errOverflow := by
  obtain ⟨rs₁', c₁', hrun₁, ha₁, hack₁⟩ := runCalls_create buf t0 calls₁ h8
  obtain ⟨rs₂', c₂', hrun₂, ha₂, hack₂⟩ := runCalls_create buf t0 calls₂ h8
  obtain ⟨rfl, rfl⟩ := Prod.mk.inj (hrun₁.symm.trans h₁)
  obtain ⟨rfl, rfl⟩ := Prod.mk.inj (hrun₂.symm.trans h₂)
  have hw₁ := ha₁.encodes.writes
  have hw₂ := ha₂.encodes.writes
  rw [← hfed] at hw₂ hack₂
  refine ⟨hw₁.len.trans hw₂.len.symm, hw₁.take_len.trans hw₂.take_len.symm, ?_, ?_, ?_⟩
  · rw [ha₁.total, ha₂.total, hack₁, hack₂]
  · rw [ha₁.total, hack₁]
    exact isGreatest_fitting t0 (fed calls₁) h8
  · rw [ha₁.statuses]
    apply List.map_congr_left
    intro i _
    rw [List.nil_append]
    split_ifs with h h' <;> first | rfl | omega

theorem runCalls_chunking_readings :
    streamBytes (runCalls (ValueType.double.create (some (List.replicate 18 0xFF)) 1000)
        [.batch [], .batch (readings.take 2), .compress readings[2], .batch []]).2 =
      streamBytes (runCalls (ValueType.double.create (some (List.replicate 18 0xFF)) 1000) [.batch readings]).2 := by
  have hfed : fed [.batch [], .batch (readings.take 2), .compress readings[2], .batch []] = fed [.batch readings] := rfl
  exact (runCalls_chunking (by decide) hfed Prod.mk.eta.symm Prod.mk.eta.symm).2.1

/-! ## What an acknowledged point is worth -/

section Recovered

variable (ub : U64 → Int → U64)

/-- **Acknowledged timestamps come back exactly when no delta-of-delta that was accepted needed more than 32 bits.**
The last bucket of `gt_ts_encode` has no range check of its own. -/
theorem acked_recovered_iff {buf : List U8} {t0 : I64} {calls : List (Call T)} {rs : List (Status × Nat)}
    {c : Option GorillatsCompressor} (h8 : 8 ≤ buf.length) (hrun : runCalls (T.create (some buf) t0) calls = (rs, c)) :
    ∃ out : List (Point T),
      (decompressEach ub T (acked calls rs).length (T.openStream (some (streamBytes c)))).1 = out.map Except.ok ∧
      out.map (·.2) = (acked calls rs).map (·.2) ∧
      (out.map (·.1) = (acked calls rs).map (·.1) ↔
        ∀ d ∈ deltaOfDeltas t0 ((fitting buf.length t0 (fed calls)).map (·.1)), InRange d) := by
  obtain ⟨rs', c', hrun', ha, hack⟩ := runCalls_create buf t0 calls h8
  obtain ⟨rfl, rfl⟩ := Prod.mk.inj (hrun'.symm.trans hrun)
  obtain ⟨out, d, hd, hnear, hiff⟩ := ha.encodes.readBack ub h8 List.prefix_rfl
  rw [List.nil_append] at hd hnear hiff
  rw [hack]
  have hvals : out.map (·.2) = (fitting buf.length t0 (fed calls)).map (·.2) := by
    rw [← List.forall₂_eq_eq_eq, List.forall₂_map_left_iff, List.forall₂_map_right_iff]
    exact hnear.flip.imp fun _ _ h => h.value
  refine ⟨out, by rw [hd], hvals, ?_⟩
  rw [← hiff]
  constructor
  · intro hts
    rw [List.zip_of_prod hts hvals, ← List.zip_of_prod rfl rfl]
  · rintro rfl
    rfl

theorem acked_recovered_iff_readings :
    let run := runCalls (ValueType.double.create (some (List.replicate 18 0)) 1000) [.batch readings]
    ∃ out : List (Point .double),
      (decompressEach maskedShl .double (acked [.batch readings] run.1).length
        (ValueType.double.openStream (some (streamBytes run.2)))).1 = out.map Except.ok ∧
      out.map (·.2) = (acked [.batch readings] run.1).map (·.2) ∧
      (out.map (·.1) = (acked [.batch readings] run.1).map (·.1) ↔
        ∀ d ∈ deltaOfDeltas 1000 ((fitting (List.replicate 18 (0 : U8)).length 1000 (fed [.batch readings])).map (·.1)),
          InRange d) :=
  acked_recovered_iff maskedShl (by decide) Prod.mk.eta.symm

/-- A timestamp `2 ^ 31` after `t0 = 0`: the answer is `GORILLATS_OK`, the decompressor reads `-2 ^ 31`. -/
theorem compress_ok_timestamp_lost :
    (ValueType.double.compress (ValueType.double.create (some (List.replicate 24 0)) 0) 2147483648 0).1 = .ok ∧
      ¬ InRange (2147483648 - 0 - 0) ∧
      (decompressEach maskedShl .double 1 (ValueType.double.openStream (some (streamBytes
        (ValueType.double.compress (ValueType.double.create (some (List.replicate 24 0)) 0) 2147483648 0).2)))).1 =
        [.ok (-2147483648, 0)] := by
  decide +kernel

end Recovered

end Gorillats
