import Gorillats.Extension
import Gorillats.Growth
/-!
# Rebase — moving a series in time

The header is the only absolute timestamp of a stream: codewords hold differences of differences.  So a series moved by
`k`, with its `t0`, is written in the same bits behind the header, and whatever the bytes behind a header are, another
header moves every timestamp read from them by the difference of the two.
-/
namespace Gorillats

open BitString BitParser

variable (ub : U64 → Int → U64) {T : ValueType}

def shiftPoint (k : I64) (p : Point T) : Point T := (p.1 + k, p.2)

def Call.shift (k : I64) : Call T → Call T
  | compress p => compress (shiftPoint k p)
  | batch pts => batch (pts.map (shiftPoint k))

def GtTsState.shift (k : I64) (s : GtTsState) : GtTsState := { s with prevTs := s.prevTs + k }

def CoderState.shift (k : I64) (e : CoderState) : CoderState := { e with ts := e.ts.shift k }

theorem Call.points_shift (k : I64) (call : Call T) : (call.shift k).points = call.points.map (shiftPoint k) := by
  cases call <;> rfl

/-! ## The writer -/

section Write

variable (k : I64)

theorem sub_add_add (a b c : I64) : a + c - (b + c) = a - b := by
  apply BitVec.eq_of_toInt_eq
  simp only [BitVec.toInt_sub, BitVec.toInt_add, Int.bmod_sub_bmod, Int.sub_bmod_bmod]
  congr 1
  omega

theorem code_shift (e : CoderState) (p : Point T) :
    (pointCoder T).code (e.shift k) (shiftPoint k p) = (pointCoder T).code e p := by
  rw [pointCoder]
  simp only [CoderState.shift, GtTsState.shift, GtTsState.dod, shiftPoint, sub_add_add]

theorem next_shift (e : CoderState) (p : Point T) :
    (pointCoder T).next (e.shift k) (shiftPoint k p) = ((pointCoder T).next e p).shift k := by
  rw [pointCoder]
  simp only [CoderState.shift, GtTsState.shift, GtTsState.next, shiftPoint, sub_add_add]

theorem stream_shift (t0 : I64) (pts : List (Point T)) :
    stream T (t0 + k) (pts.map (shiftPoint k)) =
      toBits 64 (t0 + k).toNat ++ (pointCoder T).codes (startState t0) pts := by
  unfold stream
  congr 1
  exact (pointCoder T).codes_map (code_shift k) (next_shift k) pts (startState t0)

theorem length_stream_shift (t0 : I64) (pts : List (Point T)) :
    (stream T (t0 + k) (pts.map (shiftPoint k))).length = (stream T t0 pts).length := by
  rw [stream_shift, length_stream, List.length_append, length_toBits]

theorem fitting_shift (cap : Nat) (t0 : I64) (pts : List (Point T)) :
    fitting cap (t0 + k) (pts.map (shiftPoint k)) = (fitting cap t0 pts).map (shiftPoint k) :=
  (pointCoder T).fitting_map (code_shift k) (next_shift k) _ (startState t0) pts

variable {k} {init : List U8} {t0 : I64} {pts : List (Point T)} {c c' : GorillatsCompressor}

/-- **A call moved in time is answered as it was.** -/
theorem Encodes.shift_call (h : Encodes T init t0 pts c) (h' : Encodes T init (t0 + k) (pts.map (shiftPoint k)) c')
    (h8 : 8 ≤ init.length) (call : Call T) :
    ∃ r g g', call.run (some c) = (r, some g) ∧ (call.shift k).run (some c') = (r, some g') ∧
      Encodes T init t0 (pts ++ call.points) g ∧
      Encodes T init (t0 + k) ((pts ++ call.points).map (shiftPoint k)) g' := by
  obtain ⟨r, g, hrun, hg, hst, hle, hfit⟩ := h.call h8 call
  obtain ⟨r', g', hrun', hg', hst', hle', hfit'⟩ := h'.call h8 (call.shift k)
  rw [call.points_shift, ← List.map_append] at hg' hst' hfit'
  rw [call.points_shift, List.length_map] at hle'
  rw [length_stream_shift, ← hst] at hst'
  rw [fitting_shift, fitting_shift, hfit] at hfit'
  -- what of the call fits has one length in both
  have hcount := congrArg List.length hfit'
  simp only [List.length_map, List.length_append, List.length_take] at hcount
  have hr : r' = r := Prod.ext hst' (by omega)
  exact ⟨r, g, g', hrun, hr ▸ hrun', hg, hg'⟩

theorem Encodes.shift_runCalls (h8 : 8 ≤ init.length) : ∀ (calls : List (Call T)) {pts : List (Point T)}
    {c c' : GorillatsCompressor}, Encodes T init t0 pts c → Encodes T init (t0 + k) (pts.map (shiftPoint k)) c' →
    ∃ rs g g', Gorillats.runCalls (some c) calls = (rs, some g) ∧
      Gorillats.runCalls (some c') (calls.map (Call.shift k)) = (rs, some g') ∧
      Encodes T init t0 (pts ++ fed calls) g ∧ Encodes T init (t0 + k) ((pts ++ fed calls).map (shiftPoint k)) g'
  | [], pts, c, c', h, h' => by
    have hfed : pts ++ fed ([] : List (Call T)) = pts := List.append_nil pts
    rw [hfed]
    exact ⟨[], c, c', rfl, rfl, h, h'⟩
  | call :: calls, pts, c, c', h, h' => by
    obtain ⟨r, g, g', hrun, hrun', hg, hg'⟩ := h.shift_call h' h8 call
    obtain ⟨rs, f, f', hruns, hruns', hf, hf'⟩ := Encodes.shift_runCalls h8 calls hg hg'
    refine ⟨r :: rs, f, f', ?_, ?_, ?_, ?_⟩
    · rw [Gorillats.runCalls, hrun]
      simp only
      rw [hruns]
    · rw [List.map_cons, Gorillats.runCalls, hrun']
      simp only
      rw [hruns']
    · rwa [fed_cons, ← List.append_assoc]
    · rwa [fed_cons, ← List.append_assoc]

/-- Behind the header the two buffers are the same, byte for byte. -/
theorem Encodes.shift_drop (h : Encodes T init t0 pts c) (h' : Encodes T init (t0 + k) (pts.map (shiftPoint k)) c') :
    c'.w.buf.drop 8 = c.w.buf.drop 8 := by
  have hpos := h.writes.pos
  have hpos' := h'.writes.pos
  have hbit := h.writes.bitPos
  have hbit' := h'.writes.bitPos
  rw [length_stream_shift] at hpos'
  have hbyte : c'.w.bytePos = c.w.bytePos := by omega
  -- a byte of the stream's that lies behind the header
  have hpack : ∀ i, packByte ((stream T (t0 + k) (pts.map (shiftPoint k))).take (8 * init.length)) (i + 8) =
      packByte ((stream T t0 pts).take (8 * init.length)) (i + 8) := by
    intro i
    have hbits : ∀ j, ((stream T (t0 + k) (pts.map (shiftPoint k))).take (8 * init.length)).getD (8 * (i + 8) + j) false =
        ((stream T t0 pts).take (8 * init.length)).getD (8 * (i + 8) + j) false := by
      intro j
      rw [stream_shift, stream, List.getD_eq_getElem?_getD, List.getD_eq_getElem?_getD, List.getElem?_take,
        List.getElem?_take, List.getElem?_append_right (by rw [length_toBits]; omega),
        List.getElem?_append_right (by rw [length_toBits]; omega), length_toBits, length_toBits]
    unfold packByte
    simp only [hbits]
  apply List.ext_getElem?
  intro i
  rw [List.getElem?_drop, List.getElem?_drop, Nat.add_comm 8 i]
  rcases Nat.lt_or_ge c.w.bytePos (i + 8) with hi | hi
  · rw [h.writes.fresh _ hi, h'.writes.fresh _ (by omega)]
  · rcases Nat.lt_or_ge (i + 8) init.length with hlt | hge
    · rw [h.writes.written _ hi hlt, h'.writes.written _ (by omega) hlt, hpack]
    · rw [List.getElem?_eq_none (by rw [h'.writes.length]; exact hge),
        List.getElem?_eq_none (by rw [h.writes.length]; exact hge)]

theorem Encodes.headerTs_buf (h : Encodes T init t0 pts c) (h8 : 8 ≤ init.length) : headerTs c.w.buf = t0 := by
  obtain ⟨more, hmore⟩ := h.isPrefix_unpack_buf
  rw [stream, List.take_append, List.take_of_length_le (by rw [length_toBits]; omega), List.append_assoc] at hmore
  exact headerTs_of_unpack hmore.symm

end Write

/-- **A series moved in time is written in the same bytes behind the header**, whatever the calls: the same answers, the
same `finish()`, and the header moved with it. -/
theorem rebased_stream (k t0 : I64) {buf : List U8} (h8 : 8 ≤ buf.length) (calls : List (Call T)) :
    let run := runCalls (T.create (some buf) t0) calls
    let run' := runCalls (T.create (some buf) (t0 + k)) (calls.map (Call.shift k))
    run'.1 = run.1 ∧ gorillatsCompressorFinish run'.2 = gorillatsCompressorFinish run.2 ∧
      headerTs (bufferOf run'.2) = headerTs (bufferOf run.2) + k ∧ (bufferOf run'.2).drop 8 = (bufferOf run.2).drop 8 := by
  obtain ⟨c, hc, h⟩ := encodes_create (T := T) buf t0 h8
  obtain ⟨c', hc', h'⟩ := encodes_create (T := T) buf (t0 + k) h8
  obtain ⟨rs, g, g', hrun, hrun', hg, hg'⟩ := Encodes.shift_runCalls h8 calls h h'
  intro run run'
  rw [show run = (rs, some g) from (congrArg (runCalls · calls) hc).trans hrun,
    show run' = (rs, some g') from (congrArg (runCalls · (calls.map (Call.shift k))) hc').trans hrun']
  refine ⟨rfl, ?_, ?_, hg.shift_drop hg'⟩
  · have hlen : gorillatsCompressorFinish (some g) = _ := hg.writes.len
    have hlen' : gorillatsCompressorFinish (some g') = _ := hg'.writes.len
    rw [hlen, hlen', length_stream_shift]
  · rw [bufferOf, bufferOf, hg.headerTs_buf h8, hg'.headerTs_buf h8]

theorem rebased_stream_readings :
    let run := runCalls (ValueType.double.create (some (List.replicate 18 0xFF)) 1000) [.batch readings]
    let run' := runCalls (ValueType.double.create (some (List.replicate 18 0xFF)) (1000 + 500))
      ([.batch readings].map (Call.shift 500))
    run'.1 = run.1 ∧ gorillatsCompressorFinish run'.2 = gorillatsCompressorFinish run.2 ∧
      headerTs (bufferOf run'.2) = headerTs (bufferOf run.2) + 500 ∧
      (bufferOf run'.2).drop 8 = (bufferOf run.2).drop 8 :=
  rebased_stream 500 1000 (by decide) [.batch readings]

/-! ## The readers -/

theorem tsParser_shift (k : I64) (s : GtTsState) :
    tsParser (s.shift k) = (fun out => (out.1 + k, out.2.shift k)) <$> tsParser s := by
  have hadd : ∀ a b : I64, a + k + b = a + b + k := fun a b => by
    rw [BitVec.add_assoc, BitVec.add_comm k, ← BitVec.add_assoc]
  unfold tsParser
  rw [← comp_map]
  simp only [GtTsState.shift, hadd, Function.comp_def]

theorem pointParser_shift (k : I64) (e : CoderState) :
    pointParser ub T (e.shift k) = (fun out => (shiftPoint k out.1, out.2.shift k)) <$> pointParser ub T e := by
  unfold pointParser
  rw [show (e.shift k).ts = e.ts.shift k from rfl, tsParser_shift]
  simp only [map_bind, map_pure, bind_map_left]
  rfl

/-- **Two buffers with the same bytes behind the header** deliver the same points, as far apart as the headers. -/
theorem exists_delivers_shift {data data' : List U8} (h8 : 8 ≤ data.length) (h8' : 8 ≤ data'.length)
    (h : data'.drop 8 = data.drop 8) :
    ∃ L : List (Point T), Delivers ub (T.openStream (some data)) L ∧
      Delivers ub (T.openStream (some data')) (L.map (shiftPoint (headerTs data' - headerTs data))) := by
  obtain ⟨d, hopen, hlive⟩ := open_header (T := T) h8
  obtain ⟨d', hopen', hlive'⟩ := open_header (T := T) h8'
  obtain ⟨L, st, rest, hrun, hnone⟩ := exists_run ub _ _ ((unpack data).drop 64) (Nat.le_refl _)
  have hbits : (unpack data').drop 64 = (unpack data).drop 64 := by
    have hdrop : ∀ {data : List U8}, 8 ≤ data.length → (unpack data).drop 64 = unpack (data.drop 8) := by
      intro data h8
      have hsplit : unpack data = unpack (data.take 8) ++ unpack (data.drop 8) := by
        rw [← unpack_append, List.take_append_drop]
      rw [hsplit, List.drop_left' (by rw [length_unpack, List.length_take]; omega)]
    rw [hdrop h8, hdrop h8', h]
  have hstart : startState (headerTs data') = (startState (headerTs data)).shift (headerTs data' - headerTs data) := by
    rw [CoderState.shift, startState, startState, GtTsState.shift]
    simp only [BitVec.add_comm (headerTs data), BitVec.sub_add_cancel]
  rw [hbits, hstart] at hlive'
  refine ⟨L, ?_, ?_⟩
  · rw [hopen]
    exact hlive.delivers ub hrun hnone
  · rw [hopen']
    refine hlive'.delivers ub (hrun.map (pointParser_shift ub _)) ?_
    rw [pointParser_shift, StateT.run_map, hnone]
    rfl

variable {ub}

theorem Cpp.readAll_envelope (count : U64) {payload : List U8} {L : List (Point T)}
    (h : Delivers ub (T.openStream (some payload)) L) : Cpp.readAll ub T (envelope T count payload) =
      if maxLen pointSize < count.toNat then .error (.lengthError "vector::reserve")
      else if count.toNat ≤ L.length then .ok (L.take count.toNat)
      else .error (.runtimeError "gorillats: truncated stream") := by
  rw [← drop_envelope T count payload] at h
  unfold Cpp.readAll
  rw [Cpp.new_envelope]
  change Cpp.BasicDecompressor.toVector ub ⟨envelope T count payload, count⟩ = _
  by_cases hn : maxLen pointSize < count.toNat
  · rw [if_pos hn]
    exact Cpp.BasicDecompressor.toVector_of_gt ub hn
  · rw [if_neg hn]
    exact Cpp.BasicDecompressor.toVector_of_delivers ub ⟨envelope T count payload, count⟩ h (Nat.not_lt.1 hn)

theorem Rust.readAll_envelope (count : U64) {payload : List U8} {L : List (Point T)}
    (h : Delivers ub (T.openStream (some payload)) L) : Rust.readAll ub T (envelope T count payload) =
      if L = [] ∨ count.toNat ≤ maxLen pointSize then .ok (L.take count.toNat) else .panic "capacity overflow" := by
  rw [← drop_envelope T count payload] at h
  unfold Rust.readAll
  rw [Rust.new_envelope]
  exact Rust.Decompressor.intoIter_of_delivers ub ⟨envelope T count payload, count⟩ h

theorem popEach_map (f : Point T → Point T) : ∀ (calls : List DecodeCall) (L : List (Point T)),
    popEach (L.map f) calls = (popEach L calls).map fun r => (r.1, r.2.map f)
  | [], _ => rfl
  | call :: calls, L => by
    rw [popEach, popEach, List.length_map, ← List.map_take, ← List.map_drop, popEach_map f calls, List.map_cons]

/-- **Two buffers that deliver the same points up to `f`** are read the same up to `f` by everyone. -/
theorem reads_map {data data' : List U8} {L : List (Point T)} (f : Point T → Point T)
    (hL : Delivers ub (T.openStream (some data)) L) (hL' : Delivers ub (T.openStream (some data')) (L.map f)) :
    (∀ calls : List DecodeCall, (runDecodeCalls ub T (T.openStream (some data')) calls).1 =
        (runDecodeCalls ub T (T.openStream (some data)) calls).1.map fun r => (r.1, r.2.map f)) ∧
      ∀ count : U64,
        Cpp.readAll ub T (envelope T count data') = (Cpp.readAll ub T (envelope T count data)).map (List.map f) ∧
        Rust.readAll ub T (envelope T count data') =
          (Rust.readAll ub T (envelope T count data)).bind fun pts => .ok (pts.map f) := by
  refine ⟨fun calls => ?_, fun count => ?_⟩
  · rw [hL.runDecodeCalls, hL'.runDecodeCalls, popEach_map]
  · rw [Cpp.readAll_envelope count hL, Cpp.readAll_envelope count hL', Rust.readAll_envelope count hL,
      Rust.readAll_envelope count hL', List.length_map, ← List.map_take]
    simp only [List.map_eq_nil_iff]
    constructor
    · -- `reserve` sees the count alone
      split
      · rfl
      · split <;> rfl
    · split <;> rfl

/-- **Another header moves every timestamp that is read**, and changes nothing else: not a status, not a count, not a
value, on any bytes and for any calls, and through either wrapper's reader. -/
theorem rebased_reads (ub : U64 → Int → U64) {data data' : List U8} (h8 : 8 ≤ data.length) (h8' : 8 ≤ data'.length)
    (h : data'.drop 8 = data.drop 8) :
    let moved : List (Point T) → List (Point T) := List.map (shiftPoint (headerTs data' - headerTs data))
    (∀ calls : List DecodeCall, (runDecodeCalls ub T (T.openStream (some data')) calls).1 =
        (runDecodeCalls ub T (T.openStream (some data)) calls).1.map fun r => (r.1, moved r.2)) ∧
      ∀ count : U64,
        Cpp.readAll ub T (envelope T count data') = (Cpp.readAll ub T (envelope T count data)).map moved ∧
        Rust.readAll ub T (envelope T count data') =
          (Rust.readAll ub T (envelope T count data)).bind fun pts => .ok (moved pts) := by
  obtain ⟨L, hL, hL'⟩ := exists_delivers_shift ub (T := T) h8 h8' h
  exact reads_map _ hL hL'

/-- 17 zero bytes and the same under a header of 256. -/
theorem rebased_reads_zeros :
    Cpp.readAll maskedShl .double (envelope .double 3 ([0, 0, 0, 0, 0, 0, 1, 0] ++ List.replicate 9 0)) =
      .ok [(256, 0), (256, 0), (256, 0)] := by
  have h8' : 8 ≤ (([0, 0, 0, 0, 0, 0, 1, 0] ++ List.replicate 9 0 : List U8)).length := by decide
  have h := rebased_reads (T := .double) maskedShl (show 8 ≤ (List.replicate 17 (0 : U8)).length by decide) h8'
    (by decide)
  exact (h.2 3).1.trans (by decide +kernel)

end Gorillats
