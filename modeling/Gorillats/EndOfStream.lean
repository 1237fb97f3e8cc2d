import Gorillats.EncodeChunks
import Mathlib.Data.BitVec
/-!
# EndOfStream — where a stream stops, and what the reader makes of its last byte

The stream has no terminator.  Cut short, by an overflow or by losing its tail, it delivers the points whose codewords
it still holds.  Whole, its padding reads as one repeated point every two zero bits.
-/
namespace Gorillats

open BitString BitParser

variable (ub : U64 → Int → U64) {T : ValueType}

/-! ## The last point -/

def lastTs (t0 : I64) (tss : List I64) : I64 := tss.getLast?.getD t0

/-- The last delta, 0 before any timestamp. -/
def lastDelta (t0 : I64) (tss : List I64) : I64 :=
  match tss.reverse with
  | [] => 0
  | [ts] => ts - t0
  | ts :: prev :: _ => ts - prev

def lastValue (pts : List (Point T)) : Value T := (pts.getLast?.map (·.2)).getD 0

/-- `k` more points: the last value each time, one last delta after another. -/
def repeatLast (t0 : I64) (pts : List (Point T)) (k : Nat) : List (Point T) :=
  (List.range k).map fun i =>
    (lastTs t0 (pts.map (·.1)) + BitVec.ofNat 64 (i + 1) * lastDelta t0 (pts.map (·.1)), lastValue pts)

theorem lastDelta_concat (t0 : I64) (tss : List I64) (ts : I64) : lastDelta t0 (tss ++ [ts]) = ts - lastTs t0 tss := by
  unfold lastDelta lastTs
  rw [List.reverse_append, List.getLast?_eq_head?_reverse]
  cases tss.reverse <;> rfl

theorem after_ts (t0 : I64) (pts : List (Point T)) : ((pointCoder T).after (startState t0) pts).ts =
    { prevTs := lastTs t0 (pts.map (·.1)), prevDelta := lastDelta t0 (pts.map (·.1)) } := by
  induction pts using List.reverseRecOn with
  | nil => rfl
  | append_singleton pts p ih =>
    rw [BitCoder.after_append, BitCoder.after_cons, BitCoder.after_nil, List.map_append, List.map_singleton,
      lastDelta_concat]
    change ({ prevTs := p.1, prevDelta := p.1 - ((pointCoder T).after (startState t0) pts).ts.prevTs } : GtTsState) = _
    rw [ih, lastTs, lastTs, List.getLast?_concat, Option.getD_some]

@[simp] theorem GtValState.next_prevBits (width : Nat) (s : GtValState) (bits : U64) :
    (s.next width bits).prevBits = bits := by
  unfold GtValState.next
  dsimp only
  split_ifs <;> rfl

@[simp] theorem GtValState.next_hasValue (width : Nat) (s : GtValState) (bits : U64) :
    (s.next width bits).hasValue = true := by
  unfold GtValState.next
  dsimp only
  cases hv : s.hasValue <;> split_ifs <;> simp_all

theorem after_vs (t0 : I64) {pts : List (Point T)} (h : pts ≠ []) :
    ((pointCoder T).after (startState t0) pts).vs.hasValue = true ∧
      ((pointCoder T).after (startState t0) pts).vs.prevBits = T.toBits (lastValue pts) := by
  obtain ⟨init, p, rfl⟩ := (List.eq_nil_or_concat pts).resolve_left h
  rw [List.concat_eq_append, BitCoder.after_append, BitCoder.after_cons, BitCoder.after_nil]
  simp [pointCoder, lastValue]

/-! ## Zero padding -/

/-- Two zero bits: the same delta and the same value once more. -/
theorem pointParser_zeros {s : CoderState} (hv : s.vs.hasValue = true) (rest : List Bool) :
    (pointParser ub T s).run (false :: false :: rest) =
      some (((s.ts.prevTs + s.ts.prevDelta, T.ofBits s.vs.prevBits),
        { ts := { prevTs := s.ts.prevTs + s.ts.prevDelta, prevDelta := s.ts.prevDelta }, vs := s.vs }), rest) := by
  have ht : (tsParser s.ts).run (false :: false :: rest) = some ((s.ts.prevTs + (0 + s.ts.prevDelta),
      { prevTs := s.ts.prevTs + (0 + s.ts.prevDelta), prevDelta := 0 + s.ts.prevDelta }), false :: rest) := rfl
  have hval : (valParser ub s.vs T.width).run (false :: rest) = some ((s.vs.prevBits, s.vs), rest) := by
    rw [valParser, if_neg (by simp [hv])]
    rfl
  rw [zero_add] at ht
  rw [pointParser, run_bind_of_eq_some ht, run_bind_of_eq_some hval]
  rfl

theorem pointParser_nil (s : CoderState) : (pointParser ub T s).run [] = none := rfl

theorem pointParser_zero {s : CoderState} (hv : s.vs.hasValue = true) : (pointParser ub T s).run [false] = none := by
  have ht : (tsParser s.ts).run [false] = some ((s.ts.prevTs + (0 + s.ts.prevDelta),
      { prevTs := s.ts.prevTs + (0 + s.ts.prevDelta), prevDelta := 0 + s.ts.prevDelta }), []) := rfl
  rw [pointParser, run_bind_of_eq_some ht, valParser, if_neg (by simp [hv])]
  rfl

/-- **The last delta and the last value once more** are coded in two zero bits. -/
theorem code_repeat {e : CoderState} (hv : e.vs.hasValue = true) {v : Value T} (hbits : T.toBits v = e.vs.prevBits) :
    (pointCoder T).code e (e.ts.prevTs + e.ts.prevDelta, v) = [false, false] ∧
      (pointCoder T).next e (e.ts.prevTs + e.ts.prevDelta, v) =
        { ts := { prevTs := e.ts.prevTs + e.ts.prevDelta, prevDelta := e.ts.prevDelta }, vs := e.vs } := by
  have hdelta : e.ts.prevTs + e.ts.prevDelta - e.ts.prevTs = e.ts.prevDelta := by
    rw [BitVec.add_comm, BitVec.add_sub_cancel]
  have hdod : e.ts.dod (e.ts.prevTs + e.ts.prevDelta) = 0 := by
    rw [GtTsState.dod, hdelta, BitVec.sub_self]
    rfl
  have hxor : T.toBits v ^^^ e.vs.prevBits = 0 := by
    rw [hbits, BitVec.xor_self]
    rfl
  have hcode : valCode T.width e.vs (T.toBits v) = [false] := by
    rw [valCode]
    dsimp only
    rw [if_neg (by simp [hv]), if_pos hxor]
  have hnext : e.vs.next T.width (T.toBits v) = e.vs := by
    rw [GtValState.next, if_neg (by simp [hv]), if_pos hxor, hbits]
  constructor
  · change dodCode (e.ts.dod _) ++ valCode T.width e.vs (T.toBits v) = _
    rw [hdod, hcode]
    rfl
  · change ({ ts := e.ts.next _, vs := e.vs.next T.width (T.toBits v) } : CoderState) = _
    rw [hnext, GtTsState.next, hdelta]

/-- **Zero padding reads as half as many repeated points.** -/
theorem run_zeros : ∀ (q : Nat) {s : CoderState}, (0 < q → s.vs.hasValue = true) →
    ∃ s' rest, Run (pointParser ub T) s (List.replicate q false)
      ((List.range (q / 2)).map fun i =>
        (s.ts.prevTs + BitVec.ofNat 64 (i + 1) * s.ts.prevDelta, T.ofBits s.vs.prevBits)) s' rest ∧
      (pointParser ub T s').run rest = none
  | 0, s, _ => ⟨s, [], .nil s [], pointParser_nil ub s⟩
  | 1, s, hv => ⟨s, [false], .nil s [false], pointParser_zero ub (hv Nat.one_pos)⟩
  | q + 2, s, hv => by
    have hv' := hv (Nat.succ_pos _)
    obtain ⟨s', rest, hrun, hnone⟩ := run_zeros q (s := { ts :=
      { prevTs := s.ts.prevTs + s.ts.prevDelta, prevDelta := s.ts.prevDelta }, vs := s.vs }) fun _ => hv'
    have hfirst : s.ts.prevTs + BitVec.ofNat 64 (0 + 1) * s.ts.prevDelta = s.ts.prevTs + s.ts.prevDelta := by
      rw [show BitVec.ofNat 64 (0 + 1) = 1 from rfl, one_mul]
    have hlater : ∀ i, s.ts.prevTs + BitVec.ofNat 64 (i + 1 + 1) * s.ts.prevDelta
        = s.ts.prevTs + s.ts.prevDelta + BitVec.ofNat 64 (i + 1) * s.ts.prevDelta := by
      intro i
      rw [BitVec.ofNat_add (i + 1) 1, show BitVec.ofNat 64 1 = 1 from rfl]
      ring
    refine ⟨s', rest, ?_, hnone⟩
    rw [Nat.add_div_right q Nat.two_pos, List.range_succ_eq_map, List.map_cons, List.map_map, hfirst]
    simp only [Function.comp_def, Nat.succ_eq_add_one, hlater]
    exact .cons (pointParser_zeros ub hv' _) hrun

/-! ## A stream cut short -/

/-- **A cut stream reads as the points it still holds, and then fails**, if their delta-of-deltas fit 32 bits; what
the delta-of-deltas after them are does not matter. -/
theorem cut_run {t0 : I64} (pts : List (Point T)) (room : Nat)
    (hroom : room < ((pointCoder T).codes (startState t0) pts).length)
    (hdod : (pointCoder T).Admits FitsPoint (startState t0) ((pointCoder T).fitting room (startState t0) pts)) :
    ∃ s' rest, Run (pointParser ub T) (startState t0) (((pointCoder T).codes (startState t0) pts).take room)
      ((pointCoder T).fitting room (startState t0) pts) s' rest ∧ (pointParser ub T s').run rest = none := by
  obtain ⟨out, s', rest, hnear, hrun, hnone⟩ := (near_lockstep ub).cut_run (local_pointParser ub) (near_start t0)
    ((pointCoder T).admits_of_forall _ (fun _ _ => trivial) _ pts) hroom
  obtain ⟨out', s'', hsame, -, hrun'⟩ := (same_lockstep ub).run _ _ _ (same_start t0) hdod
  rw [List.forall₂_eq_eq_eq] at hsame
  subst hsame
  obtain ⟨more, hmore⟩ := List.prefix_take_iff.2 ⟨(pointCoder T).codes_isPrefix (startState t0)
    ((pointCoder T).fitting_isPrefix room (startState t0) pts), (pointCoder T).length_codes_fitting room _ _⟩
  have hout := hrun' more
  rw [hmore] at hout
  obtain ⟨rfl, -, -⟩ := hrun.det hout hnear.length_eq.symm
  exact ⟨s', rest, hrun, hnone⟩

/-- A buffer of the first bits of a stream, and no more, opens with those of its points still to come. -/
theorem open_cut {data : List U8} {t0 : I64} {pts : List (Point T)} {cap : Nat} (h8 : 8 ≤ cap)
    (hdata : unpack data = (stream T t0 pts).take (8 * cap)) (hlt : 8 * cap < (stream T t0 pts).length) :
    ∃ d, T.openStream (some data) = some d ∧
      Live T d (startState t0) (((pointCoder T).codes (startState t0) pts).take (8 * cap - 64)) ∧
      8 * cap - 64 < ((pointCoder T).codes (startState t0) pts).length := by
  rw [length_stream] at hlt
  rw [stream, List.take_append, length_toBits, List.take_of_length_le (by rw [length_toBits]; omega)] at hdata
  obtain ⟨d, hopen, hlive⟩ := open_live (T := T) hdata
  exact ⟨d, hopen, hlive, by omega⟩

/-- A buffer that holds the first `room` bits of a stream, and no more, delivers the points that fit there. -/
theorem delivers_of_cut {data : List U8} {t0 : I64} {pts : List (Point T)} {cap : Nat} (h8 : 8 ≤ cap)
    (hdata : unpack data = (stream T t0 pts).take (8 * cap)) (hlt : 8 * cap < (stream T t0 pts).length)
    (hdod : ∀ d ∈ deltaOfDeltas t0 ((fitting cap t0 pts).map (·.1)), InRange d) :
    Delivers ub (T.openStream (some data)) (fitting cap t0 pts) := by
  obtain ⟨d, hopen, hlive, hroom⟩ := open_cut h8 hdata hlt
  obtain ⟨s', rest, hrun, hnone⟩ := cut_run ub pts (8 * cap - 64) hroom ((admits_start_iff t0 _).2 hdod)
  rw [hopen]
  exact hlive.delivers ub hrun hnone

/-- A whole stream followed by `q` zero bits delivers its points and `q / 2` repeats of the last. -/
theorem delivers_of_padded {data : List U8} {t0 : I64} {pts : List (Point T)} {q : Nat}
    (hdata : unpack data = stream T t0 pts ++ List.replicate q false) (hq : 0 < q → pts ≠ [])
    (hdod : ∀ d ∈ deltaOfDeltas t0 (pts.map (·.1)), InRange d) :
    Delivers ub (T.openStream (some data)) (pts ++ repeatLast t0 pts (q / 2)) := by
  rw [stream, List.append_assoc] at hdata
  obtain ⟨d, hopen, hlive⟩ := open_live (T := T) hdata
  obtain ⟨out, s', hsame, hstate, hrun⟩ := (same_lockstep ub).run pts _ _ (same_start t0)
    ((admits_start_iff t0 pts).2 hdod)
  rw [List.forall₂_eq_eq_eq] at hsame
  obtain rfl := hsame
  obtain rfl := hstate.state
  obtain ⟨s'', rest, hzeros, hnone⟩ := run_zeros ub q (T := T) fun h => (after_vs t0 (hq h)).1
  have hrepeat : ((List.range (q / 2)).map fun i =>
      (((pointCoder T).after (startState t0) pts).ts.prevTs +
        BitVec.ofNat 64 (i + 1) * ((pointCoder T).after (startState t0) pts).ts.prevDelta,
        T.ofBits ((pointCoder T).after (startState t0) pts).vs.prevBits)) = repeatLast t0 pts (q / 2) := by
    rcases Nat.eq_zero_or_pos q with rfl | hpos
    · rfl
    · rw [after_ts, (after_vs t0 (hq hpos)).2, T.ofBits_toBits]
      rfl
  rw [hopen]
  rw [hrepeat] at hzeros
  exact hlive.delivers ub ((hrun _).append hzeros) hnone

/-! ## The end of a compressor's stream -/

theorem exists_overflow_iff {buf : List U8} {t0 : I64} {calls : List (Call T)} {rs : List (Status × Nat)}
    {c : GorillatsCompressor} (h8 : 8 ≤ buf.length) (h : Answered buf t0 [] calls rs c) :
    (∃ r ∈ rs, r.1 = .errOverflow) ↔ 8 * buf.length < (stream T t0 (fed calls)).length := by
  have hmem : (∃ r ∈ rs, r.1 = .errOverflow) ↔ Status.errOverflow ∈ rs.map (·.1) := by simp
  rw [hmem, h.statuses, List.mem_map]
  simp only [List.nil_append]
  constructor
  · rintro ⟨i, -, hi⟩
    have hpre : fed (calls.take (i + 1)) <+: fed calls := by
      conv_rhs => rw [← List.take_append_drop (i + 1) calls, fed, List.flatMap_append]
      exact List.prefix_append _ _
    have hle := length_stream_mono t0 hpre
    split at hi
    · omega
    · cases hi
  · intro hlt
    have hpos : 0 < calls.length := by
      rcases List.eq_nil_or_concat calls with rfl | ⟨init, call, rfl⟩
      · rw [length_stream] at hlt
        simp [fed] at hlt
        omega
      · simp
    refine ⟨calls.length - 1, List.mem_range.2 (by omega), ?_⟩
    rw [Nat.sub_add_cancel hpos, List.take_length, if_pos hlt]

theorem Answered.ok_iff {buf : List U8} {t0 : I64} {calls : List (Call T)} {rs : List (Status × Nat)}
    {c : GorillatsCompressor} (h : Answered buf t0 [] calls rs c) (h8 : 8 ≤ buf.length) :
    (∀ r ∈ rs, r.1 = .ok) ↔ (stream T t0 (fed calls)).length ≤ 8 * buf.length := by
  rw [← Nat.not_lt, ← exists_overflow_iff h8 h]
  constructor
  · rintro hok ⟨r, hr, hov⟩
    rw [hok r hr] at hov
    cases hov
  · intro hno r hr
    exact (h.ok_or_overflow r hr).resolve_right fun hov => hno ⟨r, hr, hov⟩

/-- **The end of the stream, exactly.**  A decompressor delivers the acknowledged points; then, if the compressor never
overflowed, one repeat of the last point for every two padding bits; then `GORILLATS_ERR_EOF` for good. -/
theorem finish_delivers {buf : List U8} {t0 : I64} {calls : List (Call T)} {rs : List (Status × Nat)}
    {c : Option GorillatsCompressor} (h8 : 8 ≤ buf.length) (hrun : runCalls (T.create (some buf) t0) calls = (rs, c))
    (hdod : ∀ d ∈ deltaOfDeltas t0 ((acked calls rs).map (·.1)), InRange d) :
    ∃ k, Delivers ub (T.openStream (some (streamBytes c))) (acked calls rs ++ repeatLast t0 (acked calls rs) k) ∧
      ((∃ r ∈ rs, r.1 = .errOverflow) → k = 0) ∧
      ((¬ ∃ r ∈ rs, r.1 = .errOverflow) → ∃ p < 8, k = p / 2 ∧
        8 * gorillatsCompressorFinish c = (stream T t0 (acked calls rs)).length + p) := by
  obtain ⟨rs', c', hrun', ha, hack⟩ := runCalls_create buf t0 calls h8
  obtain ⟨rfl, rfl⟩ := Prod.mk.inj (hrun'.symm.trans hrun)
  have hbits := ha.encodes.unpack_streamBytes
  rw [List.nil_append] at hbits
  rw [exists_overflow_iff h8 ha]
  rcases Nat.lt_or_ge (8 * buf.length) (stream T t0 (fed calls)).length with hlt | hle
  · -- the overflowing point's codeword is cut at the capacity, which leaves no padding
    have hnopad : padding ((stream T t0 (fed calls)).take (8 * buf.length)) = [] := by
      unfold padding
      rw [List.length_take, Nat.min_eq_left (by omega), show (8 * buf.length + 7) / 8 = buf.length by omega,
        Nat.sub_self]
      rfl
    rw [hnopad, List.append_nil] at hbits
    rw [hack] at hdod ⊢
    refine ⟨0, ?_, fun _ => rfl, fun h => absurd hlt h⟩
    rw [show repeatLast t0 (fitting buf.length t0 (fed calls)) 0 = [] from rfl, List.append_nil]
    exact delivers_of_cut ub h8 hbits hlt hdod
  · rw [List.take_of_length_le hle, padding] at hbits
    rw [hack, fitting_of_le hle] at hdod ⊢
    have hlen : gorillatsCompressorFinish (some c') = ((stream T t0 (fed calls)).length + 7) / 8 := by
      have := ha.encodes.writes.len
      rw [List.nil_append, Nat.min_eq_right hle] at this
      exact this
    refine ⟨_, delivers_of_padded ub hbits (fun hq hnil => ?_) hdod, fun h => absurd h (by omega),
      fun _ => ⟨_, ?_, rfl, ?_⟩⟩
    · rw [hnil, length_stream] at hq
      simp at hq
    · omega
    · omega

theorem finish_delivers_readings :
    let run := runCalls (ValueType.double.create (some (List.replicate 32 0xFF)) 1000)
      [.batch (readings.take 2), .compress readings[2]]
    let points := acked [.batch (readings.take 2), .compress readings[2]] run.1
    ∃ k, Delivers maskedShl (ValueType.double.openStream (some (streamBytes run.2)))
        (points ++ repeatLast 1000 points k) ∧
      ((∃ r ∈ run.1, r.1 = .errOverflow) → k = 0) ∧
      ((¬ ∃ r ∈ run.1, r.1 = .errOverflow) → ∃ p < 8, k = p / 2 ∧
        8 * gorillatsCompressorFinish run.2 = (stream .double 1000 points).length + p) :=
  finish_delivers maskedShl (by decide) Prod.mk.eta.symm (inRange_of_all (by decide +kernel))

/-- **A truncated stream delivers its longest whole prefix**, and nothing wrong or extra. -/
theorem truncated_delivers {buf : List U8} {t0 : I64} {pts : List (Point T)} {rcs : List Status}
    {c : Option GorillatsCompressor} {m : Nat} (h8 : 8 ≤ buf.length)
    (hrun : compressEach (T.create (some buf) t0) pts = (rcs, c)) (hok : ∀ rc ∈ rcs, rc = .ok)
    (hdod : ∀ d ∈ deltaOfDeltas t0 (pts.map (·.1)), InRange d) (hm : 8 ≤ m) (hcut : m < gorillatsCompressorFinish c) :
    ∃ k < pts.length, IsGreatest {k | k ≤ pts.length ∧ (stream T t0 (pts.take k)).length ≤ 8 * m} k ∧
      Delivers ub (T.openStream (some ((streamBytes c).take m))) (pts.take k) := by
  obtain ⟨c', rfl, henc, hle⟩ := encodes_of_forall_ok h8 hrun hok
  have hlen : gorillatsCompressorFinish (some c') = (min (8 * buf.length) (stream T t0 pts).length + 7) / 8 :=
    henc.writes.len
  have hlt : 8 * m < (stream T t0 pts).length := by omega
  have hbits : unpack ((streamBytes (some c')).take m) = (stream T t0 pts).take (8 * m) := by
    rw [unpack_take, henc.unpack_streamBytes, List.take_of_length_le hle, List.take_append_of_le_length (by omega)]
  have hgreatest := isGreatest_fitting t0 pts hm
  have hpre : fitting m t0 pts <+: pts := (pointCoder T).fitting_isPrefix _ _ _
  have htake : pts.take (fitting m t0 pts).length = fitting m t0 pts := (List.prefix_iff_eq_take.1 hpre).symm
  refine ⟨(fitting m t0 pts).length, ?_, hgreatest, ?_⟩
  · by_contra hge
    have hfit := hgreatest.1.2
    rw [List.take_of_length_le (by omega)] at hfit
    omega
  · rw [htake]
    refine delivers_of_cut ub hm hbits hlt ?_
    rw [← admits_start_iff]
    exact (pointCoder T).admits_of_isPrefix FitsPoint hpre ((admits_start_iff t0 pts).2 hdod)

theorem truncated_delivers_readings :
    ∃ k < readings.length,
      IsGreatest {k | k ≤ readings.length ∧ (stream .double 1000 (readings.take k)).length ≤ 8 * 18} k ∧
      Delivers maskedShl (ValueType.double.openStream (some ((streamBytes
        (compressEach (ValueType.double.create (some (List.replicate 32 0xFF)) 1000) readings).2).take 18)))
        (readings.take k) :=
  truncated_delivers maskedShl (by decide) Prod.mk.eta.symm (by decide +kernel) (inRange_of_all (by decide +kernel))
    (by decide) (by decide +kernel)

end Gorillats
