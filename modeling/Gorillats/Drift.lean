import Gorillats.Differences
import Gorillats.EndOfStream
/-!
# Drift — what comes back of timestamps that the stream cannot hold

The last bucket of `gt_ts_encode` keeps the low 32 bits of a delta-of-delta.  What it loses is a second difference of
the decoder's error: the error of a timestamp is the double sum of the losses up to it (`drift`), and for every series,
in range or not, the decoder's points are the encoder's with their drift added (`received`).  After the last loss the
error grows in equal steps, so it heals only if both the error and its step are zero.
-/
namespace Gorillats

open BitString BitParser

variable (ub : U64 → Int → U64) {T : ValueType}

/-! ## The error of a timestamp -/

/-- What the 32-bit field adds to a delta-of-delta by cutting it. -/
def loss (dod : I64) : I64 := signedLow dod 32 - dod

/-- The errors of the timestamps. -/
def drift (t0 : I64) (tss : List I64) : List I64 := Differences.sum 0 0 ((deltaOfDeltas t0 tss).map loss)

/-- The points with the errors of their timestamps. -/
def received (t0 : I64) (pts : List (Point T)) : List (Point T) :=
  List.zipWith (fun p e => (p.1 + e, p.2)) pts (drift t0 (pts.map (·.1)))

theorem loss_eq_zero_iff (dod : I64) : loss dod = 0 ↔ InRange dod := by
  rw [loss, sub_eq_zero, signedLow_32_eq_iff]

theorem deltaOfDeltasFrom_eq : ∀ (prevTs prevDelta : I64) (tss : List I64),
    deltaOfDeltasFrom prevTs prevDelta tss = Differences.second prevTs prevDelta tss
  | _, _, [] => rfl
  | prevTs, prevDelta, ts :: tss => by
    rw [deltaOfDeltasFrom, Differences.second, deltaOfDeltasFrom_eq ts (ts - prevTs) tss]

theorem last_eq (t0 : I64) (tss : List I64) : Differences.last t0 0 tss = (lastTs t0 tss, lastDelta t0 tss) := by
  induction tss using List.reverseRecOn with
  | nil => rfl
  | append_singleton tss ts ih =>
    rw [Differences.last_concat, ih, lastDelta_concat, lastTs, lastTs, List.getLast?_concat, Option.getD_some]

theorem length_drift (t0 : I64) (tss : List I64) : (drift t0 tss).length = tss.length := by
  rw [drift, Differences.length_sum, List.length_map, deltaOfDeltas, deltaOfDeltasFrom_eq, Differences.length_second]

/-- The decoder sums up the delta-of-deltas it was left. -/
theorem sum_signedLow (t0 : I64) (tss : List I64) :
    Differences.sum t0 0 ((deltaOfDeltas t0 tss).map fun d => signedLow d 32) =
      List.zipWith (· + ·) tss (drift t0 tss) := by
  have hsplit : ∀ dods : List I64,
      dods.map (fun d => signedLow d 32) = List.zipWith (· + ·) dods (dods.map loss) := by
    intro dods
    rw [List.zipWith_map_right, List.zipWith_self]
    simp only [loss, add_sub_cancel]
  have hadd := Differences.sum_add t0 0 0 0 (deltaOfDeltas t0 tss) ((deltaOfDeltas t0 tss).map loss) (by simp)
  rw [add_zero, add_zero, ← hsplit] at hadd
  rw [hadd, drift, deltaOfDeltas, deltaOfDeltasFrom_eq, Differences.sum_second]

/-! ## Reading a stream -/

/-- What a decoder in the state `s` reads of points that an encoder in the state `e` wrote. -/
def receivedFrom (e s : GtTsState) (pts : List (Point T)) : List (Point T) :=
  (Differences.sum s.prevTs s.prevDelta
    ((deltaOfDeltasFrom e.prevTs e.prevDelta (pts.map (·.1))).map fun d => signedLow d 32)).zip (pts.map (·.2))

theorem zip_zipWith_add : ∀ (pts : List (Point T)) (es : List I64),
    (List.zipWith (· + ·) (pts.map (·.1)) es).zip (pts.map (·.2)) = List.zipWith (fun p e => (p.1 + e, p.2)) pts es
  | [], _ => rfl
  | _ :: _, [] => rfl
  | _ :: pts, _ :: es => congrArg _ (zip_zipWith_add pts es)

theorem receivedFrom_start (t0 : I64) (pts : List (Point T)) :
    receivedFrom (startState t0).ts (startState t0).ts pts = received t0 pts := by
  have h := sum_signedLow t0 (pts.map (·.1))
  rw [deltaOfDeltas] at h
  unfold receivedFrom received
  exact (congrArg (List.zip · (pts.map (·.2))) h).trans (zip_zipWith_add pts _)

theorem length_receivedFrom (e s : GtTsState) (pts : List (Point T)) : (receivedFrom e s pts).length = pts.length := by
  rw [receivedFrom, List.length_zip, Differences.length_sum, List.length_map, List.length_map, deltaOfDeltasFrom_eq,
    Differences.length_second, List.length_map, Nat.min_self]

/-- The decoder's timestamp state after the timestamp an encoder in the state `e` wrote. -/
def GtTsState.afterReading (s e : GtTsState) (ts : I64) : GtTsState :=
  { prevTs := readTs s (e.dod ts), prevDelta := signedLow (e.dod ts) 32 + s.prevDelta }

/-- **A decoder in any timestamp state** reads the points from the delta-of-deltas it is left, and stays in the encoder's
value state. -/
theorem run_receivedFrom : ∀ (pts : List (Point T)) {e s : CoderState}, s.vs = e.vs → WinOk T.width e.vs →
    ∃ s', s'.vs = ((pointCoder T).after e pts).vs ∧
      (s'.ts.prevTs, s'.ts.prevDelta) =
        Differences.last s.ts.prevTs s.ts.prevDelta ((receivedFrom e.ts s.ts pts).map (·.1)) ∧
      ∀ rest, Run (pointParser ub T) s ((pointCoder T).codes e pts ++ rest) (receivedFrom e.ts s.ts pts) s' rest
  | [], e, s, hvs, _ => ⟨s, hvs, rfl, fun rest => .nil s rest⟩
  | p :: pts, e, s, hvs, hwin => by
    obtain ⟨s', hvs', hlast, hrun⟩ := run_receivedFrom pts (e := (pointCoder T).next e p)
      (s := ⟨s.ts.afterReading e.ts p.1, ((pointCoder T).next e p).vs⟩) rfl (hwin.nextPoint p)
    have hcons : receivedFrom e.ts s.ts (p :: pts) = (readTs s.ts (e.ts.dod p.1), p.2) ::
        receivedFrom ((pointCoder T).next e p).ts (s.ts.afterReading e.ts p.1) pts := rfl
    refine ⟨s', hvs', ?_, fun rest => ?_⟩
    · rw [hlast, hcons, List.map_cons, Differences.last, GtTsState.afterReading, readTs, add_sub_cancel_left]
    · rw [hcons, BitCoder.codes_cons, List.append_assoc]
      exact .cons (pointParser_code ub hvs hwin p _) (hrun rest)

/-- The state of a decoder that has read the points: the encoder's values, after timestamps with their drift. -/
def readState (t0 : I64) (pts : List (Point T)) : CoderState :=
  { ts := { prevTs := lastTs t0 ((received t0 pts).map (·.1)), prevDelta := lastDelta t0 ((received t0 pts).map (·.1)) },
    vs := ((pointCoder T).after (startState t0) pts).vs }

/-- **A fresh decoder** reads the points with their drift. -/
theorem run_received (t0 : I64) (pts : List (Point T)) (rest : List Bool) :
    Run (pointParser ub T) (startState t0) ((pointCoder T).codes (startState t0) pts ++ rest) (received t0 pts)
      (readState t0 pts) rest := by
  obtain ⟨s', hvs, hlast, hrun⟩ := run_receivedFrom ub pts (e := startState t0) (s := startState t0) rfl (winOk_init _)
  rw [receivedFrom_start] at hlast hrun
  obtain ⟨hprevTs, hprevDelta⟩ := Prod.mk.inj (hlast.trans (last_eq t0 _))
  have hstate : s' = readState t0 pts := by
    obtain ⟨⟨prevTs, prevDelta⟩, vs⟩ := s'
    obtain rfl : prevTs = _ := hprevTs
    obtain rfl : prevDelta = _ := hprevDelta
    obtain rfl : vs = _ := hvs
    rfl
  rw [← hstate]
  exact hrun rest

theorem length_received (t0 : I64) (pts : List (Point T)) : (received t0 pts).length = pts.length := by
  rw [received, List.length_zipWith, length_drift, List.length_map, Nat.min_self]

theorem drift_isPrefix (t0 : I64) (tss later : List I64) : drift t0 tss <+: drift t0 (tss ++ later) := by
  unfold drift deltaOfDeltas
  rw [deltaOfDeltasFrom_eq, deltaOfDeltasFrom_eq, Differences.second_append, List.map_append, Differences.sum_append]
  exact List.prefix_append _ _

/-- **What follows a point** does not change what is read of it. -/
theorem received_isPrefix (t0 : I64) {pts all : List (Point T)} (h : pts <+: all) : received t0 pts <+: received t0 all := by
  obtain ⟨later, rfl⟩ := h
  have hlen : pts.length = (drift t0 (pts.map (·.1))).length := by rw [length_drift, List.length_map]
  obtain ⟨tail, htail⟩ := drift_isPrefix t0 (pts.map (·.1)) (later.map (·.1))
  unfold received
  rw [List.map_append, ← htail, List.zipWith_append hlen]
  exact List.prefix_append _ _

theorem received_take (t0 : I64) (pts : List (Point T)) (n : Nat) :
    received t0 (pts.take n) = (received t0 pts).take n := by
  rw [List.prefix_iff_eq_take.1 (received_isPrefix t0 (List.take_prefix n pts)), length_received, List.length_take,
    ← length_received t0 pts, ← List.take_eq_take_min]

/-- **A decoder goes on** from the points it has read to those fed after them. -/
theorem run_received_append (t0 : I64) (pts later : List (Point T)) (rest : List Bool) :
    Run (pointParser ub T) (readState t0 pts)
      ((pointCoder T).codes ((pointCoder T).after (startState t0) pts) later ++ rest)
      ((received t0 (pts ++ later)).drop pts.length) (readState t0 (pts ++ later)) rest := by
  obtain ⟨s', -, -, hrun⟩ := run_receivedFrom ub later (e := (pointCoder T).after (startState t0) pts)
    (s := readState t0 pts) rfl (winOk_after (winOk_init _) pts)
  have hwhole := (run_received ub t0 pts _).append (hrun rest)
  rw [← List.append_assoc, ← BitCoder.codes_append] at hwhole
  obtain ⟨hpts, rfl, -⟩ := hwhole.det (run_received ub t0 (pts ++ later) rest) (by
    rw [List.length_append, length_received, length_receivedFrom, length_received, List.length_append])
  rw [← hpts, List.drop_left' (length_received t0 pts)]
  exact hrun rest

theorem values_received (t0 : I64) (pts : List (Point T)) : (received t0 pts).map (·.2) = pts.map (·.2) := by
  have hlen : (drift t0 (pts.map (·.1))).length = pts.length := by rw [length_drift, List.length_map]
  unfold received
  generalize drift t0 (pts.map (·.1)) = es at hlen
  induction pts generalizing es with
  | nil => rfl
  | cons p pts ih =>
    cases es with
    | nil => cases hlen
    | cons e es => rw [List.zipWith_cons_cons, List.map_cons, ih es (Nat.succ.inj hlen), List.map_cons]

theorem lastValue_received (t0 : I64) (pts : List (Point T)) : lastValue (received t0 pts) = lastValue pts := by
  unfold lastValue
  rw [← List.getLast?_map, values_received, List.getLast?_map]

/-- A cut stream reads as the points it still holds, with their drift, and then fails. -/
theorem cut_received {t0 : I64} (pts : List (Point T)) (room : Nat)
    (hroom : room < ((pointCoder T).codes (startState t0) pts).length) :
    ∃ s' rest, Run (pointParser ub T) (startState t0) (((pointCoder T).codes (startState t0) pts).take room)
      (received t0 ((pointCoder T).fitting room (startState t0) pts)) s' rest ∧ (pointParser ub T s').run rest = none := by
  obtain ⟨out, s', rest, hnear, hrun, hnone⟩ := (near_lockstep ub).cut_run (local_pointParser ub) (near_start t0)
    ((pointCoder T).admits_of_forall _ (fun _ _ => trivial) _ pts) hroom
  obtain ⟨more, hmore⟩ := List.prefix_take_iff.2 ⟨(pointCoder T).codes_isPrefix (startState t0)
    ((pointCoder T).fitting_isPrefix room (startState t0) pts), (pointCoder T).length_codes_fitting room _ _⟩
  have hout := run_received ub t0 ((pointCoder T).fitting room (startState t0) pts) more
  rw [hmore] at hout
  obtain ⟨rfl, -, -⟩ := hrun.det hout (by rw [length_received, hnear.length_eq])
  exact ⟨s', rest, hrun, hnone⟩

/-- A buffer of the first bits of a stream, and no more. -/
theorem delivers_of_cut_received {data : List U8} {t0 : I64} {pts : List (Point T)} {cap : Nat} (h8 : 8 ≤ cap)
    (hdata : unpack data = (stream T t0 pts).take (8 * cap)) (hlt : 8 * cap < (stream T t0 pts).length) :
    Delivers ub (T.openStream (some data)) (received t0 (fitting cap t0 pts)) := by
  obtain ⟨d, hopen, hlive, hroom⟩ := open_cut h8 hdata hlt
  obtain ⟨s', rest, hrun, hnone⟩ := cut_received ub pts (8 * cap - 64) hroom
  rw [hopen]
  exact hlive.delivers ub hrun hnone

/-- A whole stream and `q` zero bits: the repeats are of the last point received. -/
theorem delivers_of_padded_received {data : List U8} {t0 : I64} {pts : List (Point T)} {q : Nat}
    (hdata : unpack data = stream T t0 pts ++ List.replicate q false) (hq : 0 < q → pts ≠ []) :
    Delivers ub (T.openStream (some data)) (received t0 pts ++ repeatLast t0 (received t0 pts) (q / 2)) := by
  rw [stream, List.append_assoc] at hdata
  obtain ⟨d, hopen, hlive⟩ := open_live (T := T) hdata
  obtain ⟨s', rest, hzeros, hnone⟩ := run_zeros ub q (T := T) (s := readState t0 pts) fun h => (after_vs t0 (hq h)).1
  have hrepeat : ((List.range (q / 2)).map fun i =>
      ((readState t0 pts).ts.prevTs + BitVec.ofNat 64 (i + 1) * (readState t0 pts).ts.prevDelta,
        T.ofBits (readState t0 pts).vs.prevBits)) = repeatLast t0 (received t0 pts) (q / 2) := by
    rcases Nat.eq_zero_or_pos q with rfl | hpos
    · rfl
    · have hprev : (readState t0 pts).vs.prevBits = T.toBits (lastValue pts) := (after_vs t0 (hq hpos)).2
      rw [hprev, T.ofBits_toBits, repeatLast, lastValue_received]
      rfl
  rw [hopen]
  rw [hrepeat] at hzeros
  exact hlive.delivers ub ((run_received ub t0 pts _).append hzeros) hnone

/-! ## A compressor's stream -/

section Finish

variable {buf : List U8} {t0 : I64} {pts : List (Point T)} {c : GorillatsCompressor}

/-- The bits of a finished stream: cut at the capacity, or whole and padded. -/
theorem Encodes.finish_bits (h : Encodes T buf t0 pts c) :
    8 * buf.length < (stream T t0 pts).length ∧
        unpack (streamBytes (some c)) = (stream T t0 pts).take (8 * buf.length) ∨
      (stream T t0 pts).length ≤ 8 * buf.length ∧
        ∃ p < 8, unpack (streamBytes (some c)) = stream T t0 pts ++ List.replicate p false ∧
          8 * gorillatsCompressorFinish (some c) = (stream T t0 pts).length + p := by
  have hbits := h.unpack_streamBytes
  have hlen := h.writes.len
  rcases Nat.lt_or_ge (8 * buf.length) (stream T t0 pts).length with hlt | hle
  · have hnopad : padding ((stream T t0 pts).take (8 * buf.length)) = [] := by
      unfold padding
      rw [List.length_take, Nat.min_eq_left (by omega), show (8 * buf.length + 7) / 8 = buf.length by omega,
        Nat.sub_self]
      rfl
    rw [hnopad, List.append_nil] at hbits
    exact .inl ⟨hlt, hbits⟩
  · rw [List.take_of_length_le hle, padding] at hbits
    rw [Nat.min_eq_right hle] at hlen
    refine .inr ⟨hle, _, ?_, hbits, ?_⟩
    · omega
    · rw [show gorillatsCompressorFinish (some c) = _ from hlen]
      omega

/-- A finished stream delivers the points that fit with their drift, and where it is whole one repeat for every two
padding bits. -/
theorem Encodes.delivers_received (h : Encodes T buf t0 pts c) (h8 : 8 ≤ buf.length) :
    ∃ k, Delivers ub (T.openStream (some (streamBytes (some c))))
        (received t0 (fitting buf.length t0 pts) ++ repeatLast t0 (received t0 (fitting buf.length t0 pts)) k) ∧
      (8 * buf.length < (stream T t0 pts).length → k = 0) ∧
      ((stream T t0 pts).length ≤ 8 * buf.length → ∃ p < 8, k = p / 2 ∧
        8 * gorillatsCompressorFinish (some c) = (stream T t0 (fitting buf.length t0 pts)).length + p) := by
  rcases h.finish_bits with ⟨hlt, hbits⟩ | ⟨hle, p, hp, hbits, hlen⟩
  · refine ⟨0, ?_, fun _ => rfl, fun hle => absurd hlt (by omega)⟩
    rw [show ∀ pts : List (Point T), repeatLast t0 pts 0 = [] from fun _ => rfl, List.append_nil]
    exact delivers_of_cut_received ub h8 hbits hlt
  · rw [fitting_of_le hle]
    refine ⟨p / 2, delivers_of_padded_received ub hbits fun hpos hnil => ?_, fun hlt => absurd hle (by omega),
      fun _ => ⟨p, hp, rfl, hlen⟩⟩
    rw [hnil, length_stream] at hlen
    simp at hlen
    omega

/-- **What comes back of any run.**  Whatever the timestamps, a decompressor on the finished stream answers with the
acknowledged points with their drift, then, if the compressor never overflowed, with one repeat of the last of these for
every two padding bits, then with `GORILLATS_ERR_EOF` for good. -/
theorem finish_delivers_received {calls : List (Call T)} {rs : List (Status × Nat)} {c : Option GorillatsCompressor}
    (h8 : 8 ≤ buf.length) (hrun : runCalls (T.create (some buf) t0) calls = (rs, c)) :
    ∃ k, Delivers ub (T.openStream (some (streamBytes c)))
        (received t0 (acked calls rs) ++ repeatLast t0 (received t0 (acked calls rs)) k) ∧
      ((∃ r ∈ rs, r.1 = .errOverflow) → k = 0) ∧
      ((¬ ∃ r ∈ rs, r.1 = .errOverflow) → ∃ p < 8, k = p / 2 ∧
        8 * gorillatsCompressorFinish c = (stream T t0 (acked calls rs)).length + p) := by
  obtain ⟨rs', c', hrun', ha, hack⟩ := runCalls_create buf t0 calls h8
  obtain ⟨rfl, rfl⟩ := Prod.mk.inj (hrun'.symm.trans hrun)
  rw [exists_overflow_iff h8 ha, Nat.not_lt, hack]
  exact ha.encodes.delivers_received ub h8

/-- A jump of 2^33 and back: three delta-of-deltas lose all they hold. -/
theorem finish_delivers_received_spike :
    let calls : List (Call .double) := [.batch [(10, 7), (20, 7)], .compress (30 + 2 ^ 33, 7), .compress (40, 7)]
    let points : List (Point .double) := [(10, 7), (20, 7), (30, 7), (40, 7)]
    let run := runCalls (ValueType.double.create (some (List.replicate 64 0)) 0) calls
    ∃ k, Delivers maskedShl (ValueType.double.openStream (some (streamBytes run.2)))
        (points ++ repeatLast 0 points k) ∧
      ((∃ r ∈ run.1, r.1 = .errOverflow) → k = 0) ∧
      ((¬ ∃ r ∈ run.1, r.1 = .errOverflow) → ∃ p < 8, k = p / 2 ∧
        8 * gorillatsCompressorFinish run.2 = (stream .double 0 (acked calls run.1)).length + p) := by
  intro calls points run
  have h8 : 8 ≤ (List.replicate 64 (0 : U8)).length := by decide
  have hrun : runCalls (ValueType.double.create (some (List.replicate 64 0)) 0) calls = (run.1, run.2) := Prod.mk.eta.symm
  have h := finish_delivers_received maskedShl h8 hrun
  have hreceived : received 0 (acked calls run.1) = points := by decide +kernel
  rwa [hreceived] at h

end Finish

/-! ## After the last loss -/

/-- The points with the error `e + d`, `e + 2 * d`, and so on. -/
def shiftedBy (e d : I64) (pts : List (Point T)) : List (Point T) :=
  List.zipWith (fun p i => (p.1 + (e + BitVec.ofNat 64 (i + 1) * d), p.2)) pts (List.range pts.length)

/-- **After the last loss** the error grows in steps of its last difference. -/
theorem drift_append {t0 : I64} {tss later : List I64}
    (h : ∀ d ∈ (deltaOfDeltas t0 (tss ++ later)).drop tss.length, InRange d) :
    drift t0 (tss ++ later) = drift t0 tss ++ (List.range later.length).map fun i =>
      lastTs 0 (drift t0 tss) + BitVec.ofNat 64 (i + 1) * lastDelta 0 (drift t0 tss) := by
  have hsplit := Differences.second_append t0 0 tss later
  rw [deltaOfDeltas, deltaOfDeltasFrom_eq, hsplit, List.drop_left' (Differences.length_second t0 0 tss)] at h
  generalize Differences.second (Differences.last t0 0 tss).1 (Differences.last t0 0 tss).2 later = dods at h hsplit
  have hlen : dods.length = later.length := by
    have := congrArg List.length hsplit
    simpa using this.symm
  have hzeros : dods.map loss = List.replicate later.length 0 := by
    rw [List.eq_replicate_iff, List.length_map, hlen]
    refine ⟨rfl, fun e he => ?_⟩
    obtain ⟨d, hd, rfl⟩ := List.mem_map.1 he
    exact (loss_eq_zero_iff d).2 (h d hd)
  have hdrift : ∀ tss, drift t0 tss = Differences.sum 0 0 ((Differences.second t0 0 tss).map loss) := by
    intro tss
    rw [drift, deltaOfDeltas, deltaOfDeltasFrom_eq]
  rw [hdrift (tss ++ later), hsplit, List.map_append, Differences.sum_append, hzeros, Differences.sum_zeros, ← hdrift,
    last_eq]
  simp only [nsmul_eq_mul, BitVec.natCast_eq_ofNat]

theorem received_append {t0 : I64} {pts later : List (Point T)}
    (h : ∀ d ∈ (deltaOfDeltas t0 ((pts ++ later).map (·.1))).drop pts.length, InRange d) :
    received t0 (pts ++ later) = received t0 pts ++
      shiftedBy (lastTs 0 (drift t0 (pts.map (·.1)))) (lastDelta 0 (drift t0 (pts.map (·.1)))) later := by
  have hlen : pts.length = (drift t0 (pts.map (·.1))).length := by rw [length_drift, List.length_map]
  rw [List.map_append] at h
  unfold received shiftedBy
  rw [List.map_append, drift_append (by rwa [List.length_map]), List.zipWith_append hlen, List.zipWith_map_right,
    List.length_map]

theorem shiftedBy_cons (e d : I64) (p : Point T) (pts : List (Point T)) :
    shiftedBy e d (p :: pts) = (p.1 + (e + d), p.2) :: shiftedBy (e + d) d pts := by
  have hfirst : e + BitVec.ofNat 64 (0 + 1) * d = e + d := by
    rw [show BitVec.ofNat 64 (0 + 1) = 1 from rfl, one_mul]
  have hlater : ∀ i, e + BitVec.ofNat 64 (i + 1 + 1) * d = e + d + BitVec.ofNat 64 (i + 1) * d := by
    intro i
    rw [BitVec.ofNat_add (i + 1) 1, show BitVec.ofNat 64 1 = 1 from rfl]
    ring
  unfold shiftedBy
  rw [List.length_cons, List.range_succ_eq_map, List.zipWith_cons_cons, hfirst, List.zipWith_map_right]
  simp only [Nat.succ_eq_add_one, hlater]

theorem shiftedBy_zero : ∀ pts : List (Point T), shiftedBy 0 0 pts = pts
  | [] => rfl
  | p :: pts => by rw [shiftedBy_cons, add_zero, add_zero, shiftedBy_zero pts]

/-- **Points of the stream's range** are read as they are. -/
theorem received_of_inRange {t0 : I64} {pts : List (Point T)} (h : ∀ d ∈ deltaOfDeltas t0 (pts.map (·.1)), InRange d) :
    received t0 pts = pts := by
  have hall : received t0 ([] ++ pts) = received t0 [] ++ shiftedBy 0 0 pts := received_append h
  rw [shiftedBy_zero] at hall
  exact hall

/-- **Two later points tell whether the error has healed.** -/
theorem shiftedBy_eq_iff {e d : I64} : ∀ {pts : List (Point T)}, 2 ≤ pts.length →
    (shiftedBy e d pts = pts ↔ e = 0 ∧ d = 0)
  | p :: q :: pts, _ => by
    constructor
    · intro heq
      rw [shiftedBy_cons, shiftedBy_cons] at heq
      have h₀ := congrArg Prod.fst (List.cons.inj heq).1
      have h₁ := congrArg Prod.fst (List.cons.inj (List.cons.inj heq).2).1
      have hsum : e + d = 0 := add_eq_left.1 h₀
      have hd : d = 0 := by
        rw [hsum, zero_add] at h₁
        exact add_eq_left.1 h₁
      rw [hd, add_zero] at hsum
      exact ⟨hsum, hd⟩
    · rintro ⟨rfl, rfl⟩
      exact shiftedBy_zero _

/-- **Whether the timestamps after a jump are right again.**  From the first point after the last delta-of-delta that
needed more than 32 bits, the decompressor's error grows by the same step at every point; two points or more all come
back as they were exactly if the error and its step were both zero before them. -/
theorem jump_heals_iff {buf : List U8} {t0 : I64} {calls : List (Call T)} {rs : List (Status × Nat)}
    {c : Option GorillatsCompressor} {pts later : List (Point T)} (h8 : 8 ≤ buf.length)
    (hrun : runCalls (T.create (some buf) t0) calls = (rs, c)) (hacked : acked calls rs = pts ++ later)
    (hdod : ∀ d ∈ (deltaOfDeltas t0 ((pts ++ later).map (·.1))).drop pts.length, InRange d) :
    let error := lastTs 0 (drift t0 (pts.map (·.1)))
    let step := lastDelta 0 (drift t0 (pts.map (·.1)))
    (∃ more, Delivers ub (T.openStream (some (streamBytes c)))
      (received t0 pts ++ shiftedBy error step later ++ more)) ∧
      (2 ≤ later.length → (shiftedBy error step later = later ↔ error = 0 ∧ step = 0)) := by
  obtain ⟨rs', c', hrun', ha, hack⟩ := runCalls_create buf t0 calls h8
  obtain ⟨rfl, rfl⟩ := Prod.mk.inj (hrun'.symm.trans hrun)
  obtain ⟨k, hk, -⟩ := ha.encodes.delivers_received ub h8
  rw [List.nil_append, ← hack, hacked, received_append hdod] at hk
  exact ⟨⟨_, hk⟩, shiftedBy_eq_iff⟩

/-- A clock set 2^31 ahead, once: every later timestamp comes back another 2^32 behind. -/
theorem jump_heals_iff_never :
    let pts : List (Point .double) := [(10, 7), (20, 7), (30 + 2 ^ 31, 7)]
    let later : List (Point .double) := [(40 + 2 ^ 31, 7), (50 + 2 ^ 31, 7)]
    let back : List (Point .double) :=
      [(10, 7), (20, 7), (30 + 2 ^ 31 - 2 ^ 32, 7), (40 + 2 ^ 31 - 2 * 2 ^ 32, 7), (50 + 2 ^ 31 - 3 * 2 ^ 32, 7)]
    let run := runCalls (ValueType.double.create (some (List.replicate 64 0)) 0) [.batch (pts ++ later)]
    (∃ more, Delivers maskedShl (ValueType.double.openStream (some (streamBytes run.2))) (back ++ more)) ∧
      ¬ shiftedBy (-2 ^ 32) (-2 ^ 32) later = later := by
  intro pts later back run
  have h8 : 8 ≤ (List.replicate 64 (0 : U8)).length := by decide
  have hrun : runCalls (ValueType.double.create (some (List.replicate 64 0)) 0) [.batch (pts ++ later)] = (run.1, run.2) :=
    Prod.mk.eta.symm
  have hacked : acked [.batch (pts ++ later)] run.1 = pts ++ later := by decide +kernel
  have h := jump_heals_iff maskedShl h8 hrun hacked (inRange_of_all (by decide +kernel))
  have herror : lastTs 0 (drift 0 (pts.map (·.1))) = -2 ^ 32 := by decide +kernel
  have hstep : lastDelta 0 (drift 0 (pts.map (·.1))) = -2 ^ 32 := by decide +kernel
  have hback : received 0 pts ++ shiftedBy (-2 ^ 32) (-2 ^ 32) later = back := by decide +kernel
  dsimp only at h
  rw [herror, hstep, hback] at h
  exact ⟨h.1, fun heq => absurd ((h.2 (by decide)).1 heq).1 (by decide)⟩

end Gorillats
