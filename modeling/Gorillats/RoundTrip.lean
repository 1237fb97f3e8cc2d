import Gorillats.Delivery
import Mathlib.Data.Int.ModEq
/-!
# RoundTrip — decoding a compressor's stream

The point code is lockstep twice over.  Decoder and encoder stay in the same state while every delta-of-delta fits 32
bits (`same_lockstep`).  Whatever the delta-of-deltas, they keep the value state and agree on the low 32 bits of the
timestamp and the delta (`near_lockstep`), so no field is ever misread.
-/
namespace Gorillats

open BitString BitParser

variable (ub : U64 → Int → U64) {T : ValueType}

/-! ## The two lockstep relations -/

/-- The decoder is in the encoder's state. -/
structure Same (T : ValueType) (e s : CoderState) : Prop where
  state  : s = e
  window : WinOk T.width e.vs

/-- The decoder is in the encoder's value state, and in its timestamp state modulo `2 ^ 32`. -/
structure Near (T : ValueType) (e s : CoderState) : Prop where
  ts     : s.ts.prevTs.setWidth 32 = e.ts.prevTs.setWidth 32
  delta  : s.ts.prevDelta.setWidth 32 = e.ts.prevDelta.setWidth 32
  vs     : s.vs = e.vs
  window : WinOk T.width e.vs

/-- The point's delta-of-delta fits 32 bits. -/
def FitsPoint (e : CoderState) (p : Point T) : Prop := InRange (e.ts.dod p.1)

/-- The same value bits, and the same timestamp modulo `2 ^ 32`. -/
structure NearPoint (p q : Point T) : Prop where
  value : q.2 = p.2
  ts    : q.1.setWidth 32 = p.1.setWidth 32

theorem same_start (t0 : I64) : Same T (startState t0) (startState t0) := ⟨rfl, winOk_init _⟩

theorem near_start (t0 : I64) : Near T (startState t0) (startState t0) := ⟨rfl, rfl, rfl, winOk_init _⟩

/-- The timestamp a decoder in state `s` reads from the codeword of `dod`. -/
def readTs (s : GtTsState) (dod : I64) : I64 := s.prevTs + (signedLow dod 32 + s.prevDelta)

/-- What a decoder in the encoder's value state reads from a point's codeword, whatever its timestamp state. -/
theorem pointParser_code {e s : CoderState} (hvs : s.vs = e.vs) (hwin : WinOk T.width e.vs) (p : Point T)
    (rest : List Bool) :
    (pointParser ub T s).run ((pointCoder T).code e p ++ rest) =
      some (((readTs s.ts (e.ts.dod p.1), p.2),
        { ts := { prevTs := readTs s.ts (e.ts.dod p.1), prevDelta := signedLow (e.ts.dod p.1) 32 + s.ts.prevDelta },
          vs := ((pointCoder T).next e p).vs }), rest) := by
  obtain ⟨sts, svs⟩ := s
  obtain ⟨ets, evs⟩ := e
  obtain rfl : svs = evs := hvs
  have ht : (tsParser sts).run (dodCode (ets.dod p.1) ++ (valCode T.width svs (T.toBits p.2) ++ rest)) = _ :=
    run_map_of_eq_some _ (dodParser_dodCode (ets.dod p.1) _)
  have hv := valParser_valCode ub hwin T.width_le (T.toBits_lt p.2) rest
  have hcode : (pointCoder T).code ⟨ets, svs⟩ p ++ rest =
      dodCode (ets.dod p.1) ++ (valCode T.width svs (T.toBits p.2) ++ rest) := List.append_assoc ..
  rw [hcode, pointParser, run_bind_of_eq_some ht, run_bind_of_eq_some hv, T.ofBits_toBits]
  rfl

theorem WinOk.nextPoint {e : CoderState} (h : WinOk T.width e.vs) (p : Point T) :
    WinOk T.width ((pointCoder T).next e p).vs := h.next T.width_le (T.toBits_lt p.2)

theorem winOk_after {e : CoderState} (h : WinOk T.width e.vs) : ∀ pts : List (Point T),
    WinOk T.width ((pointCoder T).after e pts).vs := fun pts =>
  (pointCoder T).after_of_inv (fun e => WinOk T.width e.vs) (fun _ p h => h.nextPoint p) pts h

/-- An encoder's own decoder reads the very timestamp exactly when the delta-of-delta fits. -/
theorem readTs_eq_iff (s : GtTsState) (ts : I64) : readTs s (s.dod ts) = ts ↔ InRange (s.dod ts) := by
  rw [← signedLow_32_eq_iff]
  have hts := prevTs_add_dod s ts
  constructor
  · intro h
    rw [readTs] at h
    exact (BitVec.add_left_inj _).1 ((BitVec.add_right_inj _).1 (h.trans hts.symm))
  · intro h
    unfold readTs
    rw [h, hts]

/-- **Same state stays same state** while the delta-of-deltas fit. -/
theorem same_lockstep : (pointCoder T).Lockstep (pointParser ub T) (Same T) FitsPoint Eq := by
  rintro e s p ⟨rfl, hwin⟩ hok
  have hts := (readTs_eq_iff s.ts p.1).2 hok
  have hrun := pointParser_code ub rfl hwin p
  rw [hts, (signedLow_32_eq_iff _).2 hok, prevDelta_add_dod] at hrun
  exact ⟨p, _, rfl, ⟨rfl, hwin.nextPoint p⟩, hrun⟩

/-- **Near states stay near**, whatever the timestamps. -/
theorem near_lockstep :
    (pointCoder T).Lockstep (pointParser ub T) (Near T) (fun _ _ => True) NearPoint := by
  rintro e s p ⟨hts, hdelta, hvs, hwin⟩ -
  have hlow : (signedLow (e.ts.dod p.1) 32 + s.ts.prevDelta).setWidth 32 = (p.1 - e.ts.prevTs).setWidth 32 := by
    rw [BitVec.setWidth_add _ _ (by decide), signedLow_setWidth _ (by decide), hdelta, ← BitVec.setWidth_add _ _ (by decide),
      GtTsState.dod, BitVec.sub_add_cancel]
  have hread : (readTs s.ts (e.ts.dod p.1)).setWidth 32 = p.1.setWidth 32 := by
    unfold readTs
    rw [BitVec.setWidth_add _ _ (by decide), hlow, hts, ← BitVec.setWidth_add _ _ (by decide),
      BitVec.add_comm, BitVec.sub_add_cancel]
  refine ⟨(readTs s.ts (e.ts.dod p.1), p.2), ⟨⟨_, _⟩, _⟩, ⟨rfl, hread⟩, ?_, pointParser_code ub hvs hwin p⟩
  exact ⟨hread, hlow, rfl, hwin.nextPoint p⟩

/-! ## Which points fit -/

theorem admits_fitsPoint_iff : ∀ (pts : List (Point T)) (e : CoderState), (pointCoder T).Admits FitsPoint e pts ↔
    ∀ d ∈ deltaOfDeltasFrom e.ts.prevTs e.ts.prevDelta (pts.map (·.1)), InRange d
  | [], e => by simp [BitCoder.Admits, deltaOfDeltasFrom]
  | p :: pts, e => by
    rw [BitCoder.Admits, admits_fitsPoint_iff pts, List.map_cons, deltaOfDeltasFrom, List.forall_mem_cons]
    rfl

theorem admits_start_iff (t0 : I64) (pts : List (Point T)) :
    (pointCoder T).Admits FitsPoint (startState t0) pts ↔ ∀ d ∈ deltaOfDeltas t0 (pts.map (·.1)), InRange d :=
  admits_fitsPoint_iff pts (startState t0)

/-- **A stream that reads back as its own points had only delta-of-deltas that fit.** -/
theorem admits_of_run : ∀ (pts : List (Point T)) {e s' : CoderState} {rest rest' : List Bool}, WinOk T.width e.vs →
    Run (pointParser ub T) e ((pointCoder T).codes e pts ++ rest) pts s' rest' → (pointCoder T).Admits FitsPoint e pts
  | [], _, _, _, _, _, _ => trivial
  | p :: pts, e, s', rest, rest', hwin, hrun => by
    rw [BitCoder.codes_cons, List.append_assoc] at hrun
    cases hrun with
    | cons hp hrun =>
      rw [pointParser_code ub rfl hwin] at hp
      simp only [Option.some.injEq, Prod.mk.injEq] at hp
      obtain ⟨⟨hpt, rfl⟩, rfl⟩ := hp
      have hts : readTs e.ts (e.ts.dod p.1) = p.1 := congrArg Prod.fst hpt
      have hfit := (readTs_eq_iff e.ts p.1).1 hts
      rw [hts, (signedLow_32_eq_iff _).2 hfit, prevDelta_add_dod] at hrun
      exact ⟨hfit, admits_of_run pts (hwin.nextPoint p) hrun⟩

/-! ## Reading a compressor's buffer -/

section ReadBack

variable {init data : List U8} {t0 : I64} {pts : List (Point T)} {c : GorillatsCompressor}

/-- The stream of a compressor, as bits: those that fit, padded to a byte. -/
theorem Encodes.unpack_streamBytes (h : Encodes T init t0 pts c) :
    unpack (streamBytes (some c)) =
      (stream T t0 pts).take (8 * init.length) ++ padding ((stream T t0 pts).take (8 * init.length)) := by
  have e : streamBytes (some c) = pack ((stream T t0 pts).take (8 * init.length)) := h.writes.take_len
  rw [e, unpack_pack]

/-- A buffer that starts with the stream starts with the codewords of the points that fit. -/
theorem Encodes.unpack_data (h : Encodes T init t0 pts c) (h8 : 8 ≤ init.length)
    (hdata : streamBytes (some c) <+: data) :
    ∃ more, unpack data =
      toBits 64 t0.toNat ++ ((pointCoder T).codes (startState t0) (fitting init.length t0 pts) ++ more) := by
  obtain ⟨tail, rfl⟩ := hdata
  have hpre : stream T t0 (fitting init.length t0 pts) <+: stream T t0 pts := by
    unfold stream
    rw [List.prefix_append_right_inj]
    exact (pointCoder T).codes_isPrefix _ ((pointCoder T).fitting_isPrefix _ _ _)
  have hlen : (stream T t0 (fitting init.length t0 pts)).length ≤ 8 * init.length := by
    have := (pointCoder T).length_codes_fitting (8 * init.length - 64) (startState t0) pts
    rw [length_stream, fitting]
    omega
  obtain ⟨more, hmore⟩ := List.prefix_take_iff.2 ⟨hpre, hlen⟩
  refine ⟨more ++ (padding ((stream T t0 pts).take (8 * init.length)) ++ unpack tail), ?_⟩
  rw [unpack_append, h.unpack_streamBytes, ← hmore, stream]
  simp only [List.append_assoc]

/-- **Reading back the points that fit**: they decode with their value bits and their timestamps modulo `2 ^ 32`, and
exactly when all their delta-of-deltas fit 32 bits they decode as they were. -/
theorem Encodes.readBack (h : Encodes T init t0 pts c) (h8 : 8 ≤ init.length) (hdata : streamBytes (some c) <+: data) :
    ∃ out d, decompressEach ub T (fitting init.length t0 pts).length (T.openStream (some data)) =
        (out.map Except.ok, some d) ∧
      List.Forall₂ NearPoint (fitting init.length t0 pts) out ∧
      (out = fitting init.length t0 pts ↔
        ∀ d ∈ deltaOfDeltas t0 ((fitting init.length t0 pts).map (·.1)), InRange d) := by
  obtain ⟨more, hbits⟩ := h.unpack_data h8 hdata
  obtain ⟨d, hopen, hlive⟩ := open_live (T := T) hbits
  generalize fitting init.length t0 pts = fit at hlive ⊢
  obtain ⟨out, s', hnear, -, hrun⟩ := (near_lockstep ub).run fit _ _ (near_start t0)
    ((pointCoder T).admits_of_forall _ (fun _ _ => trivial) _ _)
  obtain ⟨d', hd', -⟩ := hlive.decompressEach ub (hrun more)
  rw [hnear.length_eq, hopen]
  refine ⟨out, d', hd', hnear, ?_⟩
  rw [← admits_start_iff]
  constructor
  · rintro rfl
    exact admits_of_run ub out (winOk_init _) (hrun more)
  · intro hok
    obtain ⟨out', s'', hsame, -, hrun'⟩ := (same_lockstep ub).run fit _ _ (same_start t0) hok
    rw [List.forall₂_eq_eq_eq] at hsame
    subst hsame
    exact ((hrun more).det (hrun' more) hnear.length_eq.symm).1

end ReadBack

/-! ## Points that were all acknowledged -/

theorem encodes_of_forall_ok {buf : List U8} {t0 : I64} {pts : List (Point T)} {rcs : List Status}
    {c : Option GorillatsCompressor} (h8 : 8 ≤ buf.length)
    (hrun : compressEach (T.create (some buf) t0) pts = (rcs, c)) (hok : ∀ rc ∈ rcs, rc = .ok) :
    ∃ c', c = some c' ∧ Encodes T buf t0 pts c' ∧ (stream T t0 pts).length ≤ 8 * buf.length := by
  obtain ⟨c₀, hc₀, h₀⟩ := encodes_create (T := T) buf t0 h8
  obtain ⟨c', h', hrun'⟩ := h₀.compressEach pts
  rw [hc₀, hrun'] at hrun
  obtain ⟨rfl, rfl⟩ := Prod.mk.inj hrun
  refine ⟨c', rfl, h', ?_⟩
  cases hn : pts.length with
  | zero =>
    rw [List.eq_nil_of_length_eq_zero hn, length_stream]
    simpa using by omega
  | succ n =>
    -- the last answer speaks for all of them
    have hlast := hok _ (List.mem_map.2 ⟨n, List.mem_range.2 (by omega), rfl⟩)
    rw [List.nil_append, ← hn, List.take_length] at hlast
    by_contra hlt
    rw [if_pos (by omega)] at hlast
    cases hlast

/-- **The whole stream round trips exactly when every delta-of-delta fits 32 bits.** -/
theorem decompress_compress_iff {buf data : List U8} {t0 : I64} {pts : List (Point T)} {rcs : List Status}
    {c : Option GorillatsCompressor} (h8 : 8 ≤ buf.length)
    (hrun : compressEach (T.create (some buf) t0) pts = (rcs, c)) (hok : ∀ rc ∈ rcs, rc = .ok)
    (hdata : streamBytes c <+: data) :
    ∃ out, (decompressEach ub T pts.length (T.openStream (some data))).1 = out.map Except.ok ∧
      (out = pts ↔ ∀ d ∈ deltaOfDeltas t0 (pts.map (·.1)), InRange d) := by
  obtain ⟨c', rfl, henc, hle⟩ := encodes_of_forall_ok h8 hrun hok
  have h := henc.readBack ub h8 hdata
  rw [fitting_of_le hle] at h
  obtain ⟨out, d, hd, -, hiff⟩ := h
  exact ⟨out, by rw [hd], hiff⟩

theorem decompress_compress_iff_readings :
    let run := compressEach (ValueType.double.create (some (List.replicate 32 0xFF)) 1000) readings
    ∃ out : List (Point .double), (decompressEach maskedShl .double readings.length
        (ValueType.double.openStream (some (streamBytes run.2 ++ [0xFF])))).1 = out.map Except.ok ∧
      (out = readings ↔ ∀ d ∈ deltaOfDeltas 1000 (readings.map (·.1)), InRange d) :=
  decompress_compress_iff maskedShl (by decide) Prod.mk.eta.symm (by decide +kernel) (List.prefix_append _ _)

theorem toInt_modEq_of_setWidth {a b : I64} (h : a.setWidth 32 = b.setWidth 32) : a.toInt ≡ b.toInt [ZMOD 2 ^ 32] := by
  have h' := congrArg BitVec.toNat h
  rw [BitVec.toNat_setWidth, BitVec.toNat_setWidth] at h'
  rw [Int.ModEq, BitVec.toInt_eq_toNat_cond, BitVec.toInt_eq_toNat_cond]
  split <;> split <;> omega

/-- **Out-of-range timestamps never desynchronise the stream**: every call succeeds, every value is the one appended,
every timestamp is the one appended modulo `2 ^ 32`. -/
theorem decompress_compress_mod {buf : List U8} {t0 : I64} {pts : List (Point T)} {rcs : List Status}
    {c : Option GorillatsCompressor} (h8 : 8 ≤ buf.length)
    (hrun : compressEach (T.create (some buf) t0) pts = (rcs, c)) (hok : ∀ rc ∈ rcs, rc = .ok) :
    ∃ out, (decompressEach ub T pts.length (T.openStream (some (streamBytes c)))).1 = out.map Except.ok ∧
      List.Forall₂ (fun p q => q.2 = p.2 ∧ q.1.toInt ≡ p.1.toInt [ZMOD 2 ^ 32]) pts out := by
  obtain ⟨c', rfl, henc, hle⟩ := encodes_of_forall_ok h8 hrun hok
  have h := henc.readBack ub h8 List.prefix_rfl
  rw [fitting_of_le hle] at h
  obtain ⟨out, d, hd, hnear, -⟩ := h
  exact ⟨out, by rw [hd], hnear.imp fun _ _ hpq => ⟨hpq.value, toInt_modEq_of_setWidth hpq.ts⟩⟩

theorem decompress_compress_mod_jump :
    let pts : List (Point .double) := [(1099511627776, 7), (5, 7)]
    let run := compressEach (ValueType.double.create (some (List.replicate 32 0)) 0) pts
    ∃ out : List (Point .double), (decompressEach maskedShl .double pts.length
        (ValueType.double.openStream (some (streamBytes run.2)))).1 = out.map Except.ok ∧
      List.Forall₂ (fun p q => q.2 = p.2 ∧ q.1.toInt ≡ p.1.toInt [ZMOD 2 ^ 32]) pts out :=
  decompress_compress_mod maskedShl (by decide) Prod.mk.eta.symm (by decide +kernel)

end Gorillats
