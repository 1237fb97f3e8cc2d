import Gorillats.Drain
/-!
# Shifts — the shift amounts of `gt_val_decode`

A XOR block is shifted by its window's trailing zeros, `width - lz - sig` for a new block.  Nothing checks the header
first, so a header of more than `width` bits shifts by a negative amount, and its point is delivered.
-/
namespace Gorillats

open BitString BitParser Logged

variable (ub : U64 → Int → U64) {T : ValueType}

/-- The block header the bits ahead spell: its leading zeros and its significant bits.  Bits past the end are zeros. -/
def GorillatsDecompressor.blockHeader (d : GorillatsDecompressor) : Option (Nat × Nat) :=
  if d.vs.hasValue = true then
    match dodParser.run d.r.ahead with
    | some (_, true :: true :: bits) =>
      some (ofBits (bits.takeD 5 false), ofBits ((bits.drop 5).takeD 6 false) + 1)
    | _ => none
  else none

/-- The amount a XOR block is shifted by, from the bits after its first one. -/
def xorShift (width : Nat) (s : GtValState) (bits : List Bool) : Int :=
  if bits.headD false = false then s.prevTz
  else width - (ofBits (bits.tail.takeD 5 false) : Nat) - ((ofBits ((bits.tail.drop 5).takeD 6 false) : Nat) + 1)

namespace LoggedDecoder

@[simp] theorem log_getBits (nbits : Int) (r : GtReader) : (getBits nbits).log r = [.getBits nbits] := rfl

@[simp] theorem log_shl (x : U64) (n : Int) (r : GtReader) : (shl ub x n).log r = [.shl n] := rfl

theorem log_checkEof {α : Type} (half done : α) (r : GtReader) :
    (do if (← act get).eof then return half else return done : Logged Event GtReader α).log r = [] := by
  rw [log_bind, log_act, List.nil_append, log_ite]
  exact ite_self _

theorem prevTz_checkEof {half done : Except Status U64 × GtValState} {tz : Int} (hhalf : half.2.prevTz = tz)
    (hdone : done.2.prevTz = tz) (r : GtReader) :
    (erase (do if (← act get).eof then return half else return done : Logged Event GtReader _) r).1.2.prevTz = tz := by
  rw [erase_bind_run, erase_ite]
  by_cases heof : ((act get : Logged Event GtReader GtReader).erase r).1.eof = true
  · rw [if_pos heof]
    exact hhalf
  · rw [if_neg heof]
    exact hdone

/-- **A XOR block is shifted once**, and leaves the amount as the window's trailing zeros. -/
theorem shl_mem_readXor {r : GtReader} (h : Placed r) (s : GtValState) (width : Nat) :
    (∀ n, .shl n ∈ (readXor ub s width).log r ↔ n = xorShift width s r.rest) ∧
      (gtReadXor ub s width r).1.2.prevTz = xorShift width s r.rest := by
  obtain ⟨hval, hrest, hplaced, -⟩ := h.getBit
  rw [← erase_readXor]
  unfold readXor
  rw [log_bind, log_act, List.nil_append, erase_bind_run, erase_act, hval, xorShift]
  by_cases hb : r.rest.headD false = false
  · simp only [if_pos hb]
    constructor
    · intro n
      rw [log_bind, log_getBits, log_bind, log_shl, log_pure]
      simp only [List.mem_append, List.mem_singleton, List.not_mem_nil, reduceCtorEq, Event.shl.injEq, false_or, or_false]
    · rfl
  · simp only [if_neg hb]
    obtain ⟨-, hrest₁, hplaced₁⟩ := hplaced.getBits 5
    have hlz := hplaced.toNat_getBits (n := 5) (by decide)
    have hsig := hplaced₁.toNat_getBits (n := 6) (by decide)
    rw [hrest] at hlz hrest₁
    rw [hrest₁] at hsig
    rw [← hlz, ← hsig]
    constructor
    · intro n
      rw [log_bind, log_getBits, log_bind, log_getBits, log_bind, log_getBits, log_bind, log_shl, log_pure]
      simp only [List.mem_append, List.mem_singleton, List.not_mem_nil, reduceCtorEq, Event.shl.injEq, false_or,
        or_false, erase_getBits, Int.reduceToNat]
    · simp only [erase_bind_run, erase_getBits, erase_shl, Int.reduceToNat]
      rfl

/-- A value is shifted only as a XOR block, and its window's trailing zeros are the amount or what they were. -/
theorem shl_mem_valDecode {r : GtReader} (h : Placed r) (s : GtValState) (width : Nat) :
    (∀ n, .shl n ∈ (valDecode ub s width).log r ↔
      s.hasValue = true ∧ r.rest.headD false = true ∧ n = xorShift width s r.rest.tail) ∧
      ((gtValDecode ub s width r).1.2.prevTz = s.prevTz ∨
        .shl (gtValDecode ub s width r).1.2.prevTz ∈ (valDecode ub s width).log r) := by
  obtain ⟨hval, hrest, hplaced, -⟩ := h.getBit
  rw [← erase_valDecode]
  unfold valDecode
  cases hv : s.hasValue with
  | false =>
    simp only [Bool.not_false, if_true]
    constructor
    · intro n
      rw [log_bind, log_checkEof, log_getBits]
      simp
    · rw [erase_bind_run]
      exact .inl (prevTz_checkEof (by rfl) (by rfl) _)
  | true =>
    simp only [Bool.not_true, Bool.false_eq_true, if_false]
    rw [log_bind, log_act, List.nil_append, erase_bind_run, erase_act, hval]
    cases hb : r.rest.headD false with
    | false =>
      simp only [if_true]
      constructor
      · intro n
        rw [log_checkEof]
        simp
      · exact .inl (prevTz_checkEof (by rfl) (by rfl) _)
    | true =>
      have hxor := shl_mem_readXor ub hplaced s width
      rw [hrest] at hxor
      simp only [Bool.true_eq_false, if_false]
      rw [log_bind, erase_bind_run, erase_readXor, log_checkEof, List.append_nil]
      constructor
      · intro n
        rw [hxor.1]
        simp
      · refine .inr ?_
        rw [hxor.1, ← hxor.2]
        exact prevTz_checkEof (by rfl) (by rfl) _

theorem shl_not_mem_tsDecode {r : GtReader} (h : Placed r) (s : GtTsState) (n : Int) : .shl n ∉ (tsDecode s).log r := by
  intro hn
  have hmeets : Meets Placed (tsDecode s) (fun e => ∀ n, e ≠ .shl n) fun _ => Placed :=
    meets_tsDecode (fun _ _ _ _ h => by cases h) (fun _ _ _ h => by cases h) s
  exact (hmeets r h).1 _ hn n rfl

end LoggedDecoder

/-! ## A point's shift -/

section Point

variable {d : GorillatsDecompressor}

/-- **A point's shift**: that of its XOR block, if it has one. -/
theorem Running.shl_mem_events (h : Running T d) (hp : Placed d.r) (n : Int) : .shl n ∈ d.events ub T.width ↔
    d.vs.hasValue = true ∧
      ∃ dod bits, dodParser.run d.r.ahead = some (dod, true :: bits) ∧ n = xorShift T.width d.vs bits := by
  rcases h.tsDecode with ⟨hnone, -, hts⟩ | ⟨dod, rest, hsome, -, hreads, hts⟩
  · rw [events_of_ts_error ub hts, hnone]
    simp [LoggedDecoder.shl_not_mem_tsDecode hp]
  · have hval := (LoggedDecoder.shl_mem_valDecode ub hreads.placed d.vs T.width).1 n
    have hrest : (gtReadDod d.r).2.rest = rest := hreads.rest
    rw [hrest] at hval
    rw [events_of_ts_ok ub hts, List.mem_append, hval, hsome]
    simp only [LoggedDecoder.shl_not_mem_tsDecode hp, false_or]
    cases rest with
    | nil => simp
    | cons b bits => cases b <;> simp

/-- The window's trailing zeros after a point are what it was shifted by, or what they were. -/
theorem Running.prevTz_decodePoint (h : Running T d) :
    (Gorillats.decodePoint ub T.width d).2.vs.prevTz = d.vs.prevTz ∨
      .shl (Gorillats.decodePoint ub T.width d).2.vs.prevTz ∈ d.events ub T.width := by
  rcases h.tsDecode with ⟨-, -, hts⟩ | ⟨dod, rest, -, -, hreads, hts⟩
  · rw [decodePoint_of_ts_error ub hts]
    exact .inl rfl
  · rw [decodePoint_of_ts_ok ub hts, events_of_ts_ok ub hts, List.mem_append]
    exact (LoggedDecoder.shl_mem_valDecode ub hreads.placed d.vs T.width).2.imp_right .inr

theorem mem_blockHeader (p : Nat × Nat) : p ∈ d.blockHeader ↔ d.vs.hasValue = true ∧
    ∃ dod bits, dodParser.run d.r.ahead = some (dod, true :: true :: bits) ∧
      p = (ofBits (bits.takeD 5 false), ofBits ((bits.drop 5).takeD 6 false) + 1) := by
  unfold GorillatsDecompressor.blockHeader
  by_cases hv : d.vs.hasValue = true
  · rw [if_pos hv]
    split
    · rename_i dod bits hrun
      rw [hrun, Option.mem_some_iff]
      simp [hv, eq_comm]
    · rename_i hno
      simp only [Option.not_mem_none, false_iff, not_and, not_exists]
      intro _ dod bits hrun
      exact absurd hrun (hno dod bits)
  · rw [if_neg hv]
    simp [hv]

/-- **A header of more bits than the width is a shift by a negative amount.** -/
theorem Running.shl_of_blockHeader (h : Running T d) (hp : Placed d.r) {p : Nat × Nat} (hh : p ∈ d.blockHeader) :
    .shl (T.width - p.1 - p.2) ∈ d.events ub T.width := by
  obtain ⟨hv, dod, bits, hrun, rfl⟩ := (mem_blockHeader p).1 hh
  refine (h.shl_mem_events ub hp _).2 ⟨hv, dod, true :: bits, hrun, ?_⟩
  rw [xorShift, if_neg (by simp)]
  rfl

/-- **Where the headers fit and the window's trailing zeros do, every shift is in range.** -/
theorem Running.shl_of_fits (h : Running T d) (hp : Placed d.r) (htz : 0 ≤ d.vs.prevTz ∧ d.vs.prevTz ≤ 63)
    (hfits : ∀ p ∈ d.blockHeader, p.1 + p.2 ≤ T.width) {n : Int} (hn : .shl n ∈ d.events ub T.width) :
    0 ≤ n ∧ n ≤ 63 := by
  obtain ⟨hv, dod, bits, hrun, rfl⟩ := (h.shl_mem_events ub hp n).1 hn
  unfold xorShift
  split
  · exact htz
  · rename_i hb
    cases bits with
    | nil => exact absurd rfl hb
    | cons b bits =>
      obtain rfl : b = true := by simpa using hb
      have hle := hfits _ ((mem_blockHeader _).2 ⟨hv, dod, bits, hrun, rfl⟩)
      have hw := T.width_le
      simp only [List.tail_cons] at hle ⊢
      omega

end Point

/-! ## A run's shifts -/

/-- The shifts of a point are in range. -/
def ShiftsOk (T : ValueType) (d : GorillatsDecompressor) : Prop :=
  ∀ ub n, .shl n ∈ d.events ub T.width → 0 ≤ n ∧ n ≤ 63

/-- The header ahead, if there is one, has no more bits than the width. -/
def HeaderFits (T : ValueType) (d : GorillatsDecompressor) : Prop := ∀ p ∈ d.blockHeader, p.1 + p.2 ≤ T.width

instance (T : ValueType) (d : GorillatsDecompressor) : Decidable (HeaderFits T d) :=
  inferInstanceAs (Decidable (∀ p ∈ d.blockHeader, _))

/-- **Along a chain of points** the shifts stay in range as long as the headers fit: the window's trailing zeros are
always an amount shifted by before. -/
theorem Visits.shiftsOk_iff {d d' : GorillatsDecompressor} {ds : List GorillatsDecompressor} (hvisits : Visits T d ds d')
    (hrun : Running T d) (hdec : Decoding T d) (htz : 0 ≤ d.vs.prevTz ∧ d.vs.prevTz ≤ 63) :
    (∀ x ∈ ds, ShiftsOk T x) ↔ ∀ x ∈ ds, HeaderFits T x := by
  induction hvisits with
  | nil => simp
  | @cons ub d d' ds _ ih =>
    have hpoint : ShiftsOk T d ↔ HeaderFits T d := by
      constructor
      · intro h p hp
        have := (h ub _ (hrun.shl_of_blockHeader ub hdec.placed hp)).1
        omega
      · exact fun h ub n hn => hrun.shl_of_fits ub hdec.placed htz h hn
    rw [List.forall_mem_cons, List.forall_mem_cons, ← hpoint]
    refine and_congr_right fun hok => ih (hrun.decodePoint ub) (hdec.decodePoint ub).2 ?_
    rcases hrun.prevTz_decodePoint ub with heq | hshl
    · rw [heq]
      exact htz
    · exact hok ub _ hshl

/-- **When the decoder's shifts stay in range.**  In a run on any buffer of eight bytes or more, every amount is in
`[0, 63]` exactly when no block header that the run comes to has more bits than the width. -/
theorem shifts_in_range_iff {data : List U8} (h8 : 8 ≤ data.length) (calls : List ((U64 → Int → U64) × DecodeCall)) :
    (∀ d ∈ decodeStates T (T.openStream (some data)) calls, ShiftsOk T d) ↔
      ∀ d ∈ decodeStates T (T.openStream (some data)) calls, HeaderFits T d := by
  obtain ⟨d, d', hlive, hvisits⟩ := visits_open (T := T) h8 calls
  refine hvisits.shiftsOk_iff hlive.running (decoding_start hlive) ?_
  rw [hlive.start.2]
  decide

/-- A timestamp and a value of zeros, then a header of 31 leading zeros and 64 significant bits. -/
def wideHeader : List U8 := List.replicate 16 0 ++ [0x3F, 0xFE] ++ List.replicate 8 0

/-- The same with a header of 4 leading zeros and 8 significant bits. -/
def narrowHeader : List U8 := List.replicate 16 0 ++ [0x32, 0x0F, 0x80, 0]

theorem shifts_in_range_iff_wideHeader :
    let wide := decodeStates .float (ValueType.float.openStream (some wideHeader)) [(maskedShl, .batch 7)]
    let narrow := decodeStates .double (ValueType.double.openStream (some narrowHeader))
      [(maskedShl, .next), (maskedShl, .batch 2)]
    ((∀ d ∈ wide, ShiftsOk .float d) ↔ ∀ d ∈ wide, HeaderFits .float d) ∧
      (∃ d ∈ narrow, d.blockHeader = some (4, 8)) ∧ ∀ d ∈ narrow, ShiftsOk .double d :=
  ⟨shifts_in_range_iff (by decide) _, by decide +kernel, (shifts_in_range_iff (by decide) _).2 (by decide +kernel)⟩

/-- Both points are delivered, the second after a shift by `64 - 31 - 64`. -/
theorem shift_out_of_range :
    (decompressEachBy .double [maskedShl, maskedShl] (ValueType.double.openStream (some wideHeader))).1 =
        [.ok (0, 0), .ok (0, 0)] ∧
      (∃ d ∈ decodeStates .double (ValueType.double.openStream (some wideHeader))
        [(maskedShl, .next), (maskedShl, .next)], .shl (-31) ∈ d.events maskedShl ValueType.double.width) ∧
      ¬ ∀ d ∈ decodeStates .double (ValueType.double.openStream (some wideHeader))
        [(maskedShl, .next), (maskedShl, .next)], ShiftsOk .double d := by
  have hshl : ∃ d ∈ decodeStates .double (ValueType.double.openStream (some wideHeader))
      [(maskedShl, .next), (maskedShl, .next)], .shl (-31) ∈ d.events maskedShl ValueType.double.width := by
    decide +kernel
  refine ⟨by decide +kernel, hshl, fun hall => ?_⟩
  obtain ⟨d, hd, hmem⟩ := hshl
  exact absurd (hall d hd maskedShl _ hmem).1 (by decide)

end Gorillats
