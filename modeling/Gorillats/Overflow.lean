import Gorillats.Drain
/-!
# Overflow — the signed arithmetic of the timestamp coder

`gt_ts_encode` subtracts and `gt_ts_decode` adds without a range check.  The encoder's results are exact as long as the
differences and second differences of the timestamps are `int64` values as integers (`differences`), the decoder's as
long as what the delta-of-deltas add up to is (`sums`).
-/
namespace Gorillats

open BitString BitParser Logged

variable {T : ValueType}

/-! ## Integers -/

/-- An `int64` value. -/
def FitsI64 (x : Int) : Prop := -2 ^ 63 ≤ x ∧ x ≤ 2 ^ 63 - 1

instance (x : Int) : Decidable (FitsI64 x) := inferInstanceAs (Decidable (_ ∧ _))

theorem ssubOverflow_eq_false_iff (a b : I64) : a.ssubOverflow b = false ↔ FitsI64 (a.toInt - b.toInt) := by
  unfold BitVec.ssubOverflow FitsI64
  rw [Bool.or_eq_false_iff, decide_eq_false_iff_not, decide_eq_false_iff_not]
  omega

theorem saddOverflow_eq_false_iff (a b : I64) : a.saddOverflow b = false ↔ FitsI64 (a.toInt + b.toInt) := by
  unfold BitVec.saddOverflow FitsI64
  rw [Bool.or_eq_false_iff, decide_eq_false_iff_not, decide_eq_false_iff_not]
  omega

theorem toInt_sub_of_fits {a b : I64} (h : FitsI64 (a.toInt - b.toInt)) : (a - b).toInt = a.toInt - b.toInt :=
  BitVec.toInt_sub_of_not_ssubOverflow (by rw [(ssubOverflow_eq_false_iff a b).2 h]; exact Bool.false_ne_true)

theorem toInt_add_of_fits {a b : I64} (h : FitsI64 (a.toInt + b.toInt)) : (a + b).toInt = a.toInt + b.toInt :=
  BitVec.toInt_add_of_not_saddOverflow (by rw [(saddOverflow_eq_false_iff a b).2 h]; exact Bool.false_ne_true)

/-- The differences of the numbers and the differences of those, after the number `prev` and the difference `delta`. -/
def differences (prev delta : Int) : List Int → List Int
  | [] => []
  | x :: xs => (x - prev) :: (x - prev - delta) :: differences x (x - prev) xs

/-- What second differences add up to, after the number `prev` and the difference `delta`: each difference and each
number. -/
def sums (prev delta : Int) : List Int → List Int
  | [] => []
  | x :: xs => (x + delta) :: (prev + (x + delta)) :: sums (prev + (x + delta)) (x + delta) xs

/-! ## The encoder -/

namespace LoggedEncoder

/-- A subtraction, with its operands logged. -/
def sub (a b : I64) : Logged (I64 × I64) GtWriter I64 := do
  emit (a, b)
  return a - b

/-- The fields `gt_ts_encode` writes for a delta-of-delta. -/
def putDod (dod : I64) (w : GtWriter) : GtWriter :=
  if dod = 0 then gtPutBit w false
  else if gtFitsSigned dod 7 then gtPutBits (gtPutBits w 0x2 2) dod 7
  else if gtFitsSigned dod 9 then gtPutBits (gtPutBits w 0x6 3) dod 9
  else if gtFitsSigned dod 12 then gtPutBits (gtPutBits w 0xE 4) dod 12
  else gtPutBits (gtPutBits w 0xF 4) dod 32

def tsEncode (s : GtTsState) (ts : I64) : Logged (I64 × I64) GtWriter GtTsState := do
  let delta ← sub ts s.prevTs
  let dod ← sub delta s.prevDelta
  act (modify (putDod dod))
  return { prevTs := ts, prevDelta := delta }

/-- **Without its log the logged encoder is the encoder.** -/
theorem erase_tsEncode (w : GtWriter) (s : GtTsState) (ts : I64) : gtTsEncode w s ts = ((tsEncode s ts).erase w).swap := by
  have herase : (tsEncode s ts).erase w =
      ({ prevTs := ts, prevDelta := ts - s.prevTs }, putDod (ts - s.prevTs - s.prevDelta) w) := rfl
  rw [herase]
  simp only [gtTsEncode, putDod, Prod.swap_prod_mk]
  split_ifs <;> rfl

theorem log_tsEncode (w : GtWriter) (s : GtTsState) (ts : I64) :
    (tsEncode s ts).log w = [(ts, s.prevTs), (ts - s.prevTs, s.prevDelta)] := rfl

end LoggedEncoder

/-- The operands of the subtractions of `gt_ts_encode` in a run of compress calls. -/
def encodeSubtractions : Option GorillatsCompressor → List (Point T) → List (I64 × I64)
  | _, [] => []
  | c, p :: pts =>
    c.toList.flatMap (fun g => if g.width ≠ T.width then [] else (LoggedEncoder.tsEncode g.ts p.1).log g.w) ++
      encodeSubtractions (T.compress c p.1 p.2).2 pts

theorem subtractions_exact_iff (w : GtWriter) (s : GtTsState) (ts : I64) :
    (∀ q ∈ (LoggedEncoder.tsEncode s ts).log w, q.1.ssubOverflow q.2 = false) ↔
      FitsI64 (ts.toInt - s.prevTs.toInt) ∧ FitsI64 (ts.toInt - s.prevTs.toInt - s.prevDelta.toInt) := by
  rw [LoggedEncoder.log_tsEncode, List.forall_mem_cons, List.forall_mem_singleton, ssubOverflow_eq_false_iff,
    ssubOverflow_eq_false_iff]
  exact and_congr_right fun h => by rw [toInt_sub_of_fits h]

theorem compress_ts {g : GorillatsCompressor} (hw : g.width = T.width) (p : Point T) :
    ∃ rc g', T.compress (some g) p.1 p.2 = (rc, some g') ∧ g'.width = T.width ∧ g'.ts = g.ts.next p.1 := by
  refine ⟨(encodePoint T.width g p.1 (T.toBits p.2)).status, encodePoint T.width g p.1 (T.toBits p.2), ?_, hw, ?_⟩
  · rw [T.compress_some hw]
  · unfold encodePoint
    rw [gtTsEncode_eq]

theorem encodeSubtractions_exact_iff : ∀ (pts : List (Point T)) {g : GorillatsCompressor}, g.width = T.width →
    ((∀ q ∈ encodeSubtractions (some g) pts, q.1.ssubOverflow q.2 = false) ↔
      ∀ x ∈ differences g.ts.prevTs.toInt g.ts.prevDelta.toInt (pts.map fun p => p.1.toInt), FitsI64 x)
  | [], _, _ => by simp [encodeSubtractions, differences]
  | p :: pts, g, hw => by
    obtain ⟨rc, g', hcall, hw', hts⟩ := compress_ts hw p
    have ih := encodeSubtractions_exact_iff pts hw'
    rw [hts] at ih
    rw [encodeSubtractions, hcall, Option.toList_some, List.flatMap_singleton, if_neg (not_not.2 hw),
      List.forall_mem_append, subtractions_exact_iff, ih, List.map_cons, differences, List.forall_mem_cons,
      List.forall_mem_cons, and_assoc]
    refine and_congr_right fun h => and_congr_right fun _ => ?_
    unfold GtTsState.next
    simp only
    rw [toInt_sub_of_fits h]

/-! ## The decoder -/

/-- The delta-of-delta the bits ahead spell. -/
def GorillatsDecompressor.spelledDod (d : GorillatsDecompressor) : Option I64 := (dodParser.run d.r.ahead).map (·.1)

/-- The additions of a point have exact results. -/
def AdditionsExact (T : ValueType) (d : GorillatsDecompressor) : Prop :=
  ∀ ub a b, .add a b ∈ d.events ub T.width → a.saddOverflow b = false

namespace LoggedDecoder

theorem add_not_mem_readDod {r : GtReader} (h : Placed r) (a b : I64) : .add a b ∉ readDod.log r := by
  intro hab
  have hmeets : Meets Placed readDod (fun e => ∀ a b, e ≠ .add a b) fun _ => Placed :=
    meets_readDod fun _ _ _ _ _ h => by cases h
  exact (hmeets r h).1 _ hab a b rfl

theorem add_not_mem_valDecode (ub : U64 → Int → U64) {r : GtReader} (h : Placed r) {s : GtValState}
    (hs : Windowed T.width s) (a b : I64) : .add a b ∉ (valDecode ub s T.width).log r := by
  intro hab
  have hmeets : Meets Placed (valDecode ub s T.width) (fun e => ∀ a b, e ≠ .add a b)
      fun out r => Windowed T.width out.2 ∧ Placed r :=
    meets_valDecode ub (fun _ _ _ _ _ h => by cases h) (fun _ _ _ h => by cases h) hs T.one_le_width T.width_le
  exact (hmeets r h).1 _ hab a b rfl

theorem add_mem_tsDecode {r : GtReader} (h : Placed r) (s : GtTsState) (a b : I64) : .add a b ∈ (tsDecode s).log r ↔
    (gtReadDod r).2.eof = false ∧
      ((a, b) = ((gtReadDod r).1, s.prevDelta) ∨ (a, b) = (s.prevTs, (gtReadDod r).1 + s.prevDelta)) := by
  unfold tsDecode
  rw [log_bind, List.mem_append, erase_readDod, log_bind, log_act, List.nil_append, log_ite]
  change _ ∨ _ ∈ (if (gtReadDod r).2.eof = true then _ else _) ↔ _
  simp only [add_not_mem_readDod h, false_or]
  cases (gtReadDod r).2.eof with
  | true => simp
  | false =>
    rw [log_bind, log_bind]
    change _ ∈ [Event.add (gtReadDod r).1 s.prevDelta, .add s.prevTs ((gtReadDod r).1 + s.prevDelta)] ↔ _
    simp

end LoggedDecoder

section Point

variable (ub : U64 → Int → U64) {d : GorillatsDecompressor}

/-- **A point's additions**: those of the delta-of-delta ahead, if there is one. -/
theorem Running.add_mem_events (h : Running T d) (hdec : Decoding T d) (a b : I64) : .add a b ∈ d.events ub T.width ↔
    ∃ dod ∈ d.spelledDod, (a, b) = (dod, d.ts.prevDelta) ∨ (a, b) = (d.ts.prevTs, dod + d.ts.prevDelta) := by
  have hts := LoggedDecoder.add_mem_tsDecode hdec.placed d.ts a b
  unfold GorillatsDecompressor.spelledDod
  rcases h.tsDecode with ⟨hnone, heof, hend⟩ | ⟨dod, rest, hsome, rfl, hreads, hok⟩
  · rw [events_of_ts_error ub hend, hts, heof, hnone]
    simp
  · rw [events_of_ts_ok ub hok, List.mem_append, hts, hreads.eof, hsome]
    simp [LoggedDecoder.add_not_mem_valDecode ub hreads.placed hdec.windowed]

theorem Running.ts_decodePoint (h : Running T d) : (Gorillats.decodePoint ub T.width d).2.ts =
    match d.spelledDod with
    | none => d.ts
    | some dod => { prevTs := d.ts.prevTs + (dod + d.ts.prevDelta), prevDelta := dod + d.ts.prevDelta } := by
  unfold GorillatsDecompressor.spelledDod
  rcases h.tsDecode with ⟨hnone, -, hts⟩ | ⟨dod, rest, hsome, -, -, hts⟩
  · rw [decodePoint_of_ts_error ub hts, hnone]
    rfl
  · rw [decodePoint_of_ts_ok ub hts, hsome]
    rfl

end Point

/-- A point's additions are exact when their integer results are `int64` values. -/
theorem Running.additionsExact_iff {d : GorillatsDecompressor} (h : Running T d) (hdec : Decoding T d) :
    AdditionsExact T d ↔ ∀ dod ∈ d.spelledDod, FitsI64 (dod.toInt + d.ts.prevDelta.toInt) ∧
      FitsI64 (d.ts.prevTs.toInt + (dod.toInt + d.ts.prevDelta.toInt)) := by
  have hpair : ∀ dod : I64, (dod.saddOverflow d.ts.prevDelta = false ∧
      d.ts.prevTs.saddOverflow (dod + d.ts.prevDelta) = false) ↔ FitsI64 (dod.toInt + d.ts.prevDelta.toInt) ∧
        FitsI64 (d.ts.prevTs.toInt + (dod.toInt + d.ts.prevDelta.toInt)) := by
    intro dod
    rw [saddOverflow_eq_false_iff, saddOverflow_eq_false_iff]
    exact and_congr_right fun h => by rw [toInt_add_of_fits h]
  constructor
  · intro hexact dod hdod
    exact (hpair dod).1 ⟨hexact maskedShl _ _ ((h.add_mem_events maskedShl hdec _ _).2 ⟨dod, hdod, .inl rfl⟩),
      hexact maskedShl _ _ ((h.add_mem_events maskedShl hdec _ _).2 ⟨dod, hdod, .inr rfl⟩)⟩
  · intro hfits ub a b hab
    obtain ⟨dod, hdod, hab⟩ := (h.add_mem_events ub hdec a b).1 hab
    obtain ⟨h1, h2⟩ := (hpair dod).2 (hfits dod hdod)
    rcases hab with hab | hab <;> cases hab
    · exact h1
    · exact h2

/-- **Along a chain of points** the additions are exact as long as the sums fit. -/
theorem Visits.additionsExact_iff {d d' : GorillatsDecompressor} {ds : List GorillatsDecompressor}
    (hvisits : Visits T d ds d') (hrun : Running T d) (hdec : Decoding T d) :
    (∀ x ∈ ds, AdditionsExact T x) ↔
      ∀ y ∈ sums d.ts.prevTs.toInt d.ts.prevDelta.toInt ((ds.filterMap (·.spelledDod)).map BitVec.toInt), FitsI64 y := by
  induction hvisits with
  | nil => simp [sums]
  | @cons ub d d' ds _ ih =>
    have ih := ih (hrun.decodePoint ub) (hdec.decodePoint ub).2
    have hts := hrun.ts_decodePoint ub
    rw [List.forall_mem_cons, hrun.additionsExact_iff hdec, ih]
    cases hdod : d.spelledDod with
    | none =>
      rw [hdod] at hts
      rw [List.filterMap_cons_none hdod, hts]
      simp
    | some dod =>
      rw [hdod] at hts
      rw [List.filterMap_cons_some hdod, hts, List.map_cons, sums, List.forall_mem_cons, List.forall_mem_cons]
      simp only [Option.mem_some_iff, forall_eq', and_assoc]
      refine and_congr_right fun h1 => and_congr_right fun h2 => ?_
      rw [toInt_add_of_fits (by rw [toInt_add_of_fits h1]; exact h2), toInt_add_of_fits h1]

/-! ## Both -/

/-- **When the timestamp coder's arithmetic is exact.**  The encoder's subtractions are, exactly when the differences of
the timestamps (the first one from `t0`) and the differences of those are `int64` values; the decoder's additions, exactly
when what the delta-of-deltas of the stream add up to is. -/
theorem timestamp_arithmetic_exact_iff {buf : List U8} (hbuf : 8 ≤ buf.length) (t0 : I64) (pts : List (Point T))
    {data : List U8} (h8 : 8 ≤ data.length) (calls : List ((U64 → Int → U64) × DecodeCall)) :
    ((∀ q ∈ encodeSubtractions (T.create (some buf) t0) pts, q.1.ssubOverflow q.2 = false) ↔
        ∀ x ∈ differences t0.toInt 0 (pts.map fun p => p.1.toInt), FitsI64 x) ∧
      ((∀ d ∈ decodeStates T (T.openStream (some data)) calls, AdditionsExact T d) ↔
        ∀ y ∈ sums (headerTs data).toInt 0
          (((decodeStates T (T.openStream (some data)) calls).filterMap (·.spelledDod)).map BitVec.toInt), FitsI64 y) := by
  constructor
  · rw [T.create_eq, gtCompressorCreate, if_neg (Nat.not_lt.2 hbuf)]
    exact encodeSubtractions_exact_iff pts rfl
  · obtain ⟨d, d', hlive, hvisits⟩ := visits_open (T := T) h8 calls
    have h := hvisits.additionsExact_iff hlive.running (decoding_start hlive)
    rw [hlive.start.1] at h
    exact h

theorem timestamp_arithmetic_exact_iff_readings :
    ((∀ q ∈ encodeSubtractions (ValueType.double.create (some (List.replicate 32 0xFF)) 1000) readings,
        q.1.ssubOverflow q.2 = false) ↔
        ∀ x ∈ differences (1000 : I64).toInt 0 (readings.map fun p => p.1.toInt), FitsI64 x) ∧
      ((∀ d ∈ decodeStates .double (ValueType.double.openStream (some (List.replicate 24 0xA7)))
          [(maskedShl, .next), (maskedShl, .batch 3)], AdditionsExact .double d) ↔
        ∀ y ∈ sums (headerTs (List.replicate 24 0xA7)).toInt 0
          (((decodeStates .double (ValueType.double.openStream (some (List.replicate 24 0xA7)))
            [(maskedShl, .next), (maskedShl, .batch 3)]).filterMap (·.spelledDod)).map BitVec.toInt), FitsI64 y) :=
  timestamp_arithmetic_exact_iff (by decide) 1000 readings (by decide) [(maskedShl, .next), (maskedShl, .batch 3)]

/-- A header of `INT64_MAX` and a point one after it. -/
def pastMax : List U8 := 0x7F :: List.replicate 7 0xFF ++ [0x80, 0x80] ++ List.replicate 8 0

/-- A timestamp of 0 after a `t0` of `INT64_MIN`, and a point one after `INT64_MAX`: both calls succeed. -/
theorem timestamp_arithmetic_overflows :
    let encoder := ValueType.double.create (some (List.replicate 32 0)) 0x8000000000000000
    let decoder := ValueType.double.openStream (some pastMax)
    ((compressEach encoder [((0, 0) : Point .double)]).1 = [Status.ok] ∧
        ¬ ∀ q ∈ encodeSubtractions encoder [((0, 0) : Point .double)], q.1.ssubOverflow q.2 = false) ∧
      (decompressEachBy .double [maskedShl] decoder).1 = [.ok (0x8000000000000000, 0)] ∧
        ¬ ∀ d ∈ decodeStates .double decoder [(maskedShl, .next)], AdditionsExact .double d := by
  intro encoder decoder
  have hsub : (0, 0x8000000000000000) ∈ encodeSubtractions encoder [((0, 0) : Point .double)] := by decide +kernel
  have hadd : ∃ d ∈ decodeStates .double decoder [(maskedShl, .next)],
      .add 0x7FFFFFFFFFFFFFFF 1 ∈ d.events maskedShl ValueType.double.width := by decide +kernel
  refine ⟨⟨by decide +kernel, fun hall => ?_⟩, by decide +kernel, fun hall => ?_⟩
  · exact absurd (hall _ hsub) (by decide)
  · obtain ⟨d, hd, hmem⟩ := hadd
    exact absurd (hall d hd maskedShl _ _ hmem) (by decide)

end Gorillats
