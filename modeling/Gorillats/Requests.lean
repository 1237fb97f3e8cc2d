import Gorillats.DecodeLog
import Gorillats.Growth
/-!
# Requests — what a C caller may ask of a handle

Any function of either family on any handle, with null arrays and null out pointers.  The functions check before they
touch the handle, so a request they refuse with `GORILLATS_ERR_ARG` changes nothing: a run with such requests is the run
without them.
-/
namespace Gorillats

variable {T : ValueType}

theorem ValueType.width_inj {T U : ValueType} : U.width = T.width ↔ U = T := by
  cases T <;> cases U <;> decide

/-! ## The compressor -/

/-- A call of a compress function: `gorillats_compress`, `gorillats_compress_batch` or one of the `_f32` pair. -/
inductive Request where
  | compress (U : ValueType) (ts : I64) (val : Value U)
  | compressBatch (U : ValueType) (ts : Option (List I64)) (vals : Option (List (Value U))) (n : Nat)

namespace Request

/-- The status and the number of points accepted, as `Call.run` counts them. -/
def run : Request → Option GorillatsCompressor → (Status × Nat) × Option GorillatsCompressor
  | compress U ts val, c =>
    let (rc, c) := U.compress c ts val
    ((rc, if rc = .ok then 1 else 0), c)
  | compressBatch U ts vals n, c =>
    let (rc, written, c) := U.compressBatch c ts vals n
    ((rc, written), c)

/-- What the request asks of a handle of type `T`, unless an argument is invalid. -/
def call? (T : ValueType) : Request → Option (Call T)
  | compress U ts val => if h : U = T then some (.compress (ts, h ▸ val)) else none
  | compressBatch U ts vals n =>
    if h : U = T then
      if n = 0 then some (.batch [])
      else
        match ts, vals with
        | some ts, some vals => some (.batch ((ts.zip (h ▸ vals)).take n))
        | _, _ => none
    else none

end Request

/-- The machine of requests on a compressor. -/
def requestMachine : Machine (Option GorillatsCompressor) Request (Status × Nat) := fun c req => req.run c

/-- The handle is a live one of type `T`. -/
def Opened (T : ValueType) (c : Option GorillatsCompressor) : Prop :=
  ∃ init t0 pts g, c = some g ∧ 8 ≤ init.length ∧ Encodes T init t0 pts g

theorem Opened.width {c : Option GorillatsCompressor} (h : Opened T c) : ∃ g, c = some g ∧ g.width = T.width := by
  obtain ⟨_, _, _, g, rfl, -, henc⟩ := h
  exact ⟨g, rfl, henc.width⟩

theorem Opened.call {c : Option GorillatsCompressor} (h : Opened T c) (call : Call T) : Opened T (call.run c).2 := by
  obtain ⟨init, t0, pts, g, rfl, h8, henc⟩ := h
  obtain ⟨r, g', hrun, henc', -⟩ := henc.call h8 call
  exact ⟨init, t0, pts ++ call.points, g', by rw [hrun], h8, henc'⟩

theorem Request.run_of_none {c : Option GorillatsCompressor} (h : Opened T c) {req : Request}
    (hreq : req.call? T = none) : req.run c = ((.errArg, 0), c) := by
  obtain ⟨g, rfl, hwidth⟩ := h.width
  cases req with
  | compress U ts val =>
    have hU : U ≠ T := by
      rintro rfl
      simp [call?] at hreq
    rw [run, U.compress_eq, compressWidth]
    simp only
    rw [if_pos (by rw [hwidth]; exact fun h => hU (ValueType.width_inj.1 h.symm))]
    rfl
  | compressBatch U ts vals n =>
    have hbad : g.width ≠ U.width ∨ n ≠ 0 ∧ (ts = none ∨ vals.map (·.map U.toBits) = none) := by
      by_cases hU : U = T
      · subst hU
        rw [call?, dif_pos rfl] at hreq
        by_cases hn : n = 0
        · rw [if_pos hn] at hreq
          cases hreq
        · rw [if_neg hn] at hreq
          refine .inr ⟨hn, ?_⟩
          cases ts with
          | none => exact .inl rfl
          | some ts =>
            cases vals with
            | none => exact .inr rfl
            | some vals => cases hreq
      · exact .inl (by rw [hwidth]; exact fun h => hU (ValueType.width_inj.1 h.symm))
    rw [run, U.compressBatch_eq, compressBatchWidth]
    simp only
    rw [if_pos hbad]

theorem Request.run_of_some {c : Option GorillatsCompressor} (h : Opened T c) {req : Request} {call : Call T}
    (hreq : req.call? T = some call) : req.run c = call.run c := by
  obtain ⟨g, rfl, hwidth⟩ := h.width
  cases req with
  | compress U ts val =>
    rw [call?] at hreq
    split at hreq
    · rename_i hU
      subst hU
      cases hreq
      rfl
    · cases hreq
  | compressBatch U ts vals n =>
    rw [call?] at hreq
    split at hreq
    · rename_i hU
      subst hU
      by_cases hn : n = 0
      · rw [if_pos hn] at hreq
        cases hreq
        rw [run, U.compressBatch_eq, compressBatchWidth, Call.run_batch hwidth, hn]
        simp only
        rw [if_neg (by simp [hwidth])]
        rfl
      · rw [if_neg hn] at hreq
        cases ts with
        | none => cases hreq
        | some ts =>
          cases vals with
          | none => cases hreq
          | some vals =>
            cases hreq
            rw [run, U.compressBatch_eq, compressBatchWidth, Call.run_batch hwidth]
            simp only
            rw [if_neg (by simp [hwidth]), Option.map_some, Option.getD_some, Option.getD_some, List.map_take,
              List.zip_map_right]
            rfl
    · cases hreq

theorem requests_filter : (requestMachine).Filters (compressorMachine T) (Request.call? T) id (.errArg, 0)
    (fun c c' => c = c' ∧ Opened T c') where
  refused := by
    rintro c _ req ⟨rfl, h⟩ hreq
    exact Request.run_of_none h hreq
  passed := by
    rintro c _ req call ⟨rfl, h⟩ hreq
    have hrun : requestMachine c req = call.run c := Request.run_of_some h hreq
    rw [hrun]
    exact ⟨rfl, rfl, h.call call⟩

/-! ## The decompressor -/

namespace ValueType

variable (ub : U64 → Int → U64)

/-- `next` with the two out pointers. -/
def nextOuts : (U : ValueType) → Option GorillatsDecompressor → Bool →
    Except Status (Point U) × Option GorillatsDecompressor
  | double, d, outs => gorillatsDecompressNext ub d outs
  | float, d, outs => gorillatsDecompressNextF32 ub d outs

/-- `decodeBatch` with the two out arrays. -/
def decodeBatchOuts : (U : ValueType) → Option GorillatsDecompressor → Nat → Bool →
    Status × List (Point U) × Option GorillatsDecompressor
  | double, d, n, outs => gorillatsDecompressBatch ub d n outs
  | float, d, n, outs => gorillatsDecompressBatchF32 ub d n outs

theorem nextOuts_eq (U : ValueType) (d : Option GorillatsDecompressor) (outs : Bool) :
    U.nextOuts ub d outs = ((decompressNextWidth ub U.width d outs).1.map fun p => (p.1, U.ofBits p.2),
      (decompressNextWidth ub U.width d outs).2) := by cases U <;> rfl

theorem decodeBatchOuts_eq (U : ValueType) (d : Option GorillatsDecompressor) (n : Nat) (outs : Bool) :
    U.decodeBatchOuts ub d n outs = ((decompressBatchWidth ub U.width d n outs).1,
      (decompressBatchWidth ub U.width d n outs).2.1.map fun p => (p.1, U.ofBits p.2),
      (decompressBatchWidth ub U.width d n outs).2.2) := by cases U <;> rfl

end ValueType

/-- A call of a decompress function; `outs` says whether its out pointers are non-null. -/
inductive DecodeRequest where
  | next (U : ValueType) (outs : Bool)
  | batch (U : ValueType) (n : Nat) (outs : Bool)
deriving DecidableEq, Repr

/-- Points of either type, as timestamps and value bits. -/
def rawPoints {U : ValueType} (pts : List (Point U)) : List (I64 × U64) := pts.map fun p => (p.1, U.toBits p.2)

namespace DecodeRequest

/-- The status and the points delivered, as `DecodeCall.run` counts them. -/
def run (ub : U64 → Int → U64) : DecodeRequest → Option GorillatsDecompressor →
    (Status × List (I64 × U64)) × Option GorillatsDecompressor
  | next U outs, d =>
    match U.nextOuts ub d outs with
    | (.ok p, d) => ((.ok, rawPoints [p]), d)
    | (.error rc, d) => ((rc, []), d)
  | batch U n outs, d =>
    let (rc, pts, d) := U.decodeBatchOuts ub d n outs
    ((rc, rawPoints pts), d)

/-- What the request asks of a handle of type `T`, unless an argument is invalid. -/
def call? (T : ValueType) : DecodeRequest → Option DecodeCall
  | next U outs => if U = T ∧ outs = true then some .next else none
  | batch U n outs => if U = T ∧ (n = 0 ∨ outs = true) then some (.batch n) else none

end DecodeRequest

variable (ub : U64 → Int → U64)

/-- The machine of requests on a decompressor. -/
def decodeRequestMachine : Machine (Option GorillatsDecompressor) DecodeRequest (Status × List (I64 × U64)) :=
  fun d req => req.run ub d

/-- The machine of calls on a decompressor of type `T`. -/
def decompressorMachine (T : ValueType) : Machine (Option GorillatsDecompressor) DecodeCall (Status × List (Point T)) :=
  fun d call => call.run ub T d

theorem runDecodeCalls_eq_run : ∀ (calls : List DecodeCall) (d : Option GorillatsDecompressor),
    runDecodeCalls ub T d calls = (decompressorMachine ub T).run d calls
  | [], _ => rfl
  | call :: calls, d => by
    rw [Machine.run_cons, ← runDecodeCalls_eq_run calls]
    rfl

variable {ub} {d : Option GorillatsDecompressor} {req : DecodeRequest} {call : DecodeCall}

theorem DecodeRequest.run_of_none (hd : ∃ g, d = some g ∧ g.width = T.width) (hreq : req.call? T = none) :
    req.run ub d = ((.errArg, []), d) := by
  obtain ⟨g, rfl, hwidth⟩ := hd
  cases req with
  | next U outs =>
    have hbad : g.width ≠ U.width ∨ (!outs) = true := by
      rw [hwidth, ne_comm, Ne, ValueType.width_inj, Bool.not_eq_true']
      rw [call?] at hreq
      by_contra hno
      rw [not_or, not_not, Bool.not_eq_false] at hno
      rw [if_pos hno] at hreq
      cases hreq
    rw [run, U.nextOuts_eq, decompressNextWidth]
    simp only
    rw [if_pos hbad]
    rfl
  | batch U n outs =>
    have hbad : g.width ≠ U.width ∨ n ≠ 0 ∧ (!outs) = true := by
      rw [hwidth, ne_comm, Ne, ValueType.width_inj, Bool.not_eq_true']
      rw [call?] at hreq
      by_contra hno
      rw [not_or, not_not, not_and_or, not_not, Bool.not_eq_false] at hno
      rw [if_pos hno] at hreq
      cases hreq
    rw [run, U.decodeBatchOuts_eq, decompressBatchWidth]
    simp only
    rw [if_pos hbad]
    rfl

theorem DecodeRequest.run_of_some (hd : ∃ g, d = some g ∧ g.width = T.width) (hreq : req.call? T = some call) :
    req.run ub d = (((call.run ub T d).1.1, rawPoints (call.run ub T d).1.2), (call.run ub T d).2) := by
  obtain ⟨g, rfl, hwidth⟩ := hd
  cases req with
  | next U outs =>
    rw [call?] at hreq
    split at hreq
    · rename_i h
      obtain ⟨rfl, rfl⟩ := h
      cases hreq
      rw [run, DecodeCall.run, show U.nextOuts ub (some g) true = U.next ub (some g) by cases U <;> rfl]
      generalize U.next ub (some g) = out
      obtain ⟨rc | p, d'⟩ := out <;> rfl
    · cases hreq
  | batch U n outs =>
    rw [call?] at hreq
    split at hreq
    · rename_i h
      obtain ⟨rfl, h⟩ := h
      cases hreq
      have hok : ¬ (g.width ≠ U.width ∨ n ≠ 0 ∧ (!outs) = true) := by
        rintro (hw | ⟨hn, hout⟩)
        · exact hw hwidth
        · rcases h with rfl | rfl
          · exact hn rfl
          · cases hout
      have hok' : ¬ (g.width ≠ U.width ∨ n ≠ 0 ∧ (!true) = true) := by simp [hwidth]
      have hsame : U.decodeBatchOuts ub (some g) n outs = U.decodeBatch ub (some g) n := by
        rw [U.decodeBatchOuts_eq, U.decodeBatch_eq, decompressBatchWidth, decompressBatchWidth]
        simp only
        rw [if_neg hok, if_neg hok']
      rw [run, DecodeCall.run, hsame]
    · cases hreq

variable (ub)

theorem decode_requests_filter : (decodeRequestMachine ub).Filters (decompressorMachine ub T) (DecodeRequest.call? T)
    (fun r => (r.1, rawPoints r.2)) (.errArg, []) (fun d d' => d = d' ∧ ∃ g, d' = some g ∧ g.width = T.width) where
  refused := by
    rintro d _ req ⟨rfl, h⟩ hreq
    exact DecodeRequest.run_of_none h hreq
  passed := by
    rintro d _ req call ⟨rfl, h⟩ hreq
    have hrun : req.run ub d = _ := DecodeRequest.run_of_some h hreq
    obtain ⟨g, rfl, hwidth⟩ := h
    obtain ⟨g', hg', hvisits⟩ := visits_call ub call hwidth
    rw [decodeRequestMachine, hrun]
    exact ⟨rfl, rfl, g', hg', hvisits.width.trans hwidth⟩

theorem ne_errArg_of_mem_popEach : ∀ (calls : List DecodeCall) (L : List (Point T)),
    ∀ r ∈ popEach L calls, r.1 ≠ .errArg
  | [], _, _, hr => by cases hr
  | call :: calls, L, r, hr => by
    rw [popEach, List.mem_cons] at hr
    rcases hr with rfl | hr
    · simp only
      split <;> decide
    · exact ne_errArg_of_mem_popEach calls _ r hr

/-- **Argument errors change nothing.**  A run of any requests, of both families and with null arguments, is the run of
the valid ones: these are answered as in that run, never with an argument error, each of the others is answered with one,
and the handle is left as that run leaves it. -/
theorem invalid_requests_ignored {buf data : List U8} (t0 : I64) (h8 : 8 ≤ buf.length) (h8' : 8 ≤ data.length)
    (reqs : List Request) (decodeReqs : List DecodeRequest) :
    (let run := requestMachine.run (T.create (some buf) t0) reqs
      let valid := runCalls (T.create (some buf) t0) (reqs.filterMap (Request.call? T))
      run.1 = Machine.weave (Request.call? T) id (.errArg, 0) reqs valid.1 ∧ run.2 = valid.2 ∧
        ∀ r ∈ valid.1, r.1 ≠ .errArg) ∧
      let run := (decodeRequestMachine ub).run (T.openStream (some data)) decodeReqs
      let valid := runDecodeCalls ub T (T.openStream (some data)) (decodeReqs.filterMap (DecodeRequest.call? T))
      run.1 = Machine.weave (DecodeRequest.call? T) (fun r => (r.1, rawPoints r.2)) (.errArg, []) decodeReqs valid.1 ∧
        run.2 = valid.2 ∧ ∀ r ∈ valid.1, r.1 ≠ .errArg := by
  obtain ⟨c, hc, henc⟩ := encodes_create (T := T) buf t0 h8
  obtain ⟨d, hd, hlive⟩ := open_header (T := T) h8'
  constructor
  · obtain ⟨hanswers, hstate, -⟩ := requests_filter.run reqs
      (show some c = some c ∧ Opened T (some c) from ⟨rfl, buf, t0, [], c, rfl, h8, henc⟩)
    rw [← runCalls_eq_run] at hanswers hstate
    rw [hc]
    refine ⟨hanswers, hstate, fun r hr => ?_⟩
    obtain ⟨rs, c', hrun, hans⟩ := henc.runCalls h8 (reqs.filterMap (Request.call? T))
    rw [hrun] at hr
    rcases hans.ok_or_overflow r hr with h | h <;> rw [h] <;> decide
  · obtain ⟨hanswers, hstate, -⟩ := (decode_requests_filter ub).run decodeReqs
      (show some d = some d ∧ ∃ g, some d = some g ∧ g.width = T.width from ⟨rfl, d, rfl, hlive.width⟩)
    rw [← runDecodeCalls_eq_run] at hanswers hstate
    refine ⟨by rw [hd]; exact hanswers, by rw [hd]; exact hstate, fun r hr => ?_⟩
    obtain ⟨L, hL⟩ := exists_delivers (T := T) ub h8'
    rw [hL.runDecodeCalls] at hr
    exact ne_errArg_of_mem_popEach _ L r hr

/-- One point and an empty batch among a call of the other family and a batch without timestamps. -/
def mixedRequests : List Request :=
  [.compress .float 5 0, .compress .double 1010 7, .compressBatch .double none none 0,
    .compressBatch .double none (some [1]) 1]

/-- A point, a batch of none and one of two, among a call of the other family and a call without out pointers. -/
def mixedDecodeRequests : List DecodeRequest :=
  [.next .float true, .next .double true, .batch .double 0 false, .next .double false, .batch .double 2 true]

theorem invalid_requests_ignored_mixed :
    (let run := requestMachine.run (ValueType.double.create (some (List.replicate 24 0xFF)) 1000) mixedRequests
      let valid := runCalls (ValueType.double.create (some (List.replicate 24 0xFF)) 1000)
        ([.compress (1010, 7), .batch []] : List (Call .double))
      run.1 = [(.errArg, 0), (.ok, 1), (.ok, 0), (.errArg, 0)] ∧ run.2 = valid.2) ∧
      let run := (decodeRequestMachine maskedShl).run (ValueType.double.openStream (some (List.replicate 17 0)))
        mixedDecodeRequests
      let valid := runDecodeCalls maskedShl .double (ValueType.double.openStream (some (List.replicate 17 0)))
        [.next, .batch 0, .batch 2]
      run.1 = [(.errArg, []), (.ok, [(0, 0)]), (.ok, []), (.errArg, []), (.ok, [(0, 0), (0, 0)])] ∧
        run.2 = valid.2 := by
  obtain ⟨h, h'⟩ := invalid_requests_ignored (T := .double) maskedShl 1000
    (show 8 ≤ (List.replicate 24 (0xFF : U8)).length by decide) (show 8 ≤ (List.replicate 17 (0 : U8)).length by decide)
    mixedRequests mixedDecodeRequests
  exact ⟨⟨h.1.trans (by decide +kernel), h.2.1⟩, h'.1.trans (by decide +kernel), h'.2.1⟩

end Gorillats
