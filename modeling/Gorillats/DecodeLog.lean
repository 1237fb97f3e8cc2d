import Gorillats.DecodeChunks
import Gorillats.Logged
/-!
# DecodeLog — the field widths, shifts and additions of the decoder

The decoder once more, with a log of what C leaves undefined or unbounded: the widths it passes to `gt_get_bits`, the
amounts it shifts by and the signed additions.  Without the log it is the decoder (`erase_decodePoint`).  A run of calls
decodes its points in a chain of states (`Visits`), one `decodePoint` after another.
-/
namespace Gorillats

open BitString BitParser Logged

inductive Event where
  | getBits (nbits : Int)
  | shl (n : Int)
  | add (a b : I64)
deriving DecidableEq, Repr

namespace LoggedDecoder

def getBits (nbits : Int) : Logged Event GtReader U64 := do
  emit (.getBits nbits)
  act (gtGetBits nbits.toNat)

def add (a b : I64) : Logged Event GtReader I64 := do
  emit (.add a b)
  return a + b

def readDod : Logged Event GtReader I64 := do
  if (← act gtGetBit) = false then return 0
  else if (← act gtGetBit) = false then return gtSignExtend (← getBits 7) 7
  else if (← act gtGetBit) = false then return gtSignExtend (← getBits 9) 9
  else if (← act gtGetBit) = false then return gtSignExtend (← getBits 12) 12
  else return gtSignExtend (← getBits 32) 32

def tsDecode (s : GtTsState) : Logged Event GtReader (Except Status I64 × GtTsState) := do
  let dod ← readDod
  if (← act get).eof then return (.error .errEof, s)
  else
    let delta ← add dod s.prevDelta
    let ts ← add s.prevTs delta
    return (.ok ts, { prevTs := ts, prevDelta := delta })

section Shifts

variable (ub : U64 → Int → U64)

def shl (x : U64) (n : Int) : Logged Event GtReader U64 := do
  emit (.shl n)
  return gtShl ub x n

def readXor (s : GtValState) (width : Nat) : Logged Event GtReader (U64 × GtValState) := do
  if (← act gtGetBit) = false then
    let sig := width - s.prevLz - s.prevTz
    let meaningful ← getBits sig
    return (← shl ub meaningful s.prevTz, s)
  else
    let lz : Int := (← getBits 5).toNat
    let sig : Int := (← getBits 6).toNat + 1
    let meaningful ← getBits sig
    let tz := width - lz - sig
    return (← shl ub meaningful tz, { s with prevLz := lz, prevTz := tz, hasBlock := true })

def valDecode (s : GtValState) (width : Nat) : Logged Event GtReader (Except Status U64 × GtValState) := do
  if !s.hasValue then
    let bits ← getBits width
    if (← act get).eof then return (.error .errEof, s)
    else return (.ok bits, { s with prevBits := bits, hasValue := true })
  else if (← act gtGetBit) = false then
    if (← act get).eof then return (.error .errEof, s)
    else return (.ok s.prevBits, s)
  else
    let (x, s) ← readXor ub s width
    if (← act get).eof then return (.error .errEof, s)
    else
      let bits := s.prevBits ^^^ x
      return (.ok bits, { s with prevBits := bits })

/-- The answer and the coder states; the timestamp state is updated even if the value is not. -/
def point (width : Nat) (ts : GtTsState) (vs : GtValState) :
    Logged Event GtReader (Except Status (I64 × U64) × GtTsState × GtValState) := do
  match ← tsDecode ts with
  | (.error rc, tss) => return (.error rc, tss, vs)
  | (.ok ts, tss) =>
    match ← valDecode ub vs width with
    | (.error rc, vss) => return (.error rc, tss, vss)
    | (.ok bits, vss) => return (.ok (ts, bits), tss, vss)

end Shifts

/-! ## Erasure -/

@[simp] theorem erase_getBits (nbits : Int) : (getBits nbits).erase = gtGetBits nbits.toNat := rfl

@[simp] theorem erase_add (a b : I64) : (add a b).erase = pure (a + b) := rfl

theorem erase_readDod : readDod.erase = gtReadDod := by
  unfold readDod gtReadDod
  simp only [erase_bind, erase_act, erase_ite, erase_pure, erase_getBits]
  rfl

theorem erase_tsDecode (s : GtTsState) : (tsDecode s).erase = gtTsDecode s := by
  unfold tsDecode gtTsDecode
  simp only [erase_bind, erase_act, erase_ite, erase_pure, erase_add, erase_readDod, pure_bind]

section Shifts

variable (ub : U64 → Int → U64)

@[simp] theorem erase_shl (x : U64) (n : Int) : (shl ub x n).erase = pure (gtShl ub x n) := rfl

theorem erase_readXor (s : GtValState) (width : Nat) : (readXor ub s width).erase = gtReadXor ub s width := by
  unfold readXor gtReadXor
  simp only [erase_bind, erase_act, erase_ite, erase_pure, erase_getBits, erase_shl, pure_bind]
  rfl

theorem erase_valDecode (s : GtValState) (width : Nat) : (valDecode ub s width).erase = gtValDecode ub s width := by
  unfold valDecode gtValDecode
  simp only [erase_bind, erase_act, erase_ite, erase_pure, erase_getBits, erase_readXor, Int.toNat_natCast]

end Shifts

end LoggedDecoder

/-- The events of decoding a point. -/
def GorillatsDecompressor.events (ub : U64 → Int → U64) (width : Nat) (d : GorillatsDecompressor) : List Event :=
  (LoggedDecoder.point ub width d.ts d.vs).log d.r

section Point

variable (ub : U64 → Int → U64) {width : Nat} {d : GorillatsDecompressor} {rc : Status} {ts : I64} {tss : GtTsState}
  {r : GtReader}

theorem events_of_ts_error (ht : gtTsDecode d.ts d.r = ((.error rc, tss), r)) :
    d.events ub width = (LoggedDecoder.tsDecode d.ts).log d.r := by
  unfold GorillatsDecompressor.events LoggedDecoder.point
  rw [log_bind, LoggedDecoder.erase_tsDecode, ht]
  exact List.append_nil _

theorem events_of_ts_ok (ht : gtTsDecode d.ts d.r = ((.ok ts, tss), r)) :
    d.events ub width = (LoggedDecoder.tsDecode d.ts).log d.r ++ (LoggedDecoder.valDecode ub d.vs width).log r := by
  unfold GorillatsDecompressor.events LoggedDecoder.point
  rw [log_bind, LoggedDecoder.erase_tsDecode, ht]
  simp only
  rw [log_bind]
  have hnil : ∀ out : (Except Status U64 × GtValState) × GtReader,
      log (match out.1 with
        | (.error rc, vss) => (pure (.error rc, tss, vss) :
            Logged Event GtReader (Except Status (I64 × U64) × GtTsState × GtValState))
        | (.ok bits, vss) => pure (.ok (ts, bits), tss, vss)) out.2 = [] := by
    rintro ⟨⟨rc | bits, vss⟩, r'⟩ <;> rfl
  rw [hnil, List.append_nil]

/-- **Without its log the logged decoder is the decoder.** -/
theorem erase_decodePoint (width : Nat) (d : GorillatsDecompressor) :
    decodePoint ub width d =
      (((LoggedDecoder.point ub width d.ts d.vs).erase d.r).1.1,
        { d with
          r := ((LoggedDecoder.point ub width d.ts d.vs).erase d.r).2
          ts := ((LoggedDecoder.point ub width d.ts d.vs).erase d.r).1.2.1
          vs := ((LoggedDecoder.point ub width d.ts d.vs).erase d.r).1.2.2 }) := by
  obtain ⟨⟨⟨rc | ts, tss⟩, r⟩, ht⟩ : ∃ out, gtTsDecode d.ts d.r = out := ⟨_, rfl⟩
  · have hpoint : (LoggedDecoder.point ub width d.ts d.vs).erase d.r = ((.error rc, tss, d.vs), r) := by
      unfold LoggedDecoder.point
      rw [erase_bind_run, LoggedDecoder.erase_tsDecode, ht]
      rfl
    rw [decodePoint_of_ts_error ub ht, hpoint]
  · have hpoint : (LoggedDecoder.point ub width d.ts d.vs).erase d.r = erase (do
          match ← LoggedDecoder.valDecode ub d.vs width with
          | (.error rc, vss) => return (.error rc, tss, vss)
          | (.ok bits, vss) => return (.ok (ts, bits), tss, vss)) r := by
      unfold LoggedDecoder.point
      rw [erase_bind_run, LoggedDecoder.erase_tsDecode, ht]
    rw [erase_bind_run, LoggedDecoder.erase_valDecode] at hpoint
    rw [decodePoint_of_ts_ok ub ht, hpoint]
    obtain ⟨⟨rc | bits, vss⟩, r'⟩ := gtValDecode ub d.vs width r
    · rfl
    · rfl

end Point

/-! ## The states of a run -/

/-- The states in which the batch loop decodes a point. -/
def loopStates (ub : U64 → Int → U64) (width : Nat) : Nat → GorillatsDecompressor → List GorillatsDecompressor
  | 0, _ => []
  | n + 1, d =>
    d :: match decodePoint ub width d with
      | (.error _, _) => []
      | (.ok _, d) => loopStates ub width n d

/-- The states in which a call decodes a point. -/
def DecodeCall.states (ub : U64 → Int → U64) (T : ValueType) : DecodeCall → GorillatsDecompressor →
    List GorillatsDecompressor
  | next, d => if d.width ≠ T.width then [] else [d]
  | batch n, d => if d.width ≠ T.width then [] else loopStates ub T.width n d

/-- The states in which a run of calls decodes its points; each call says what its out-of-range shifts yield. -/
def decodeStates (T : ValueType) : Option GorillatsDecompressor → List ((U64 → Int → U64) × DecodeCall) →
    List GorillatsDecompressor
  | _, [] => []
  | d, (ub, call) :: calls => d.toList.flatMap (call.states ub T) ++ decodeStates T (call.run ub T d).2 calls

variable {T : ValueType}

/-- A chain of states, each the one `decodePoint` leaves in the one before it. -/
inductive Visits (T : ValueType) : GorillatsDecompressor → List GorillatsDecompressor → GorillatsDecompressor → Prop
  | nil (d : GorillatsDecompressor) : Visits T d [] d
  | cons (ub : U64 → Int → U64) {d d' : GorillatsDecompressor} {ds : List GorillatsDecompressor} :
    Visits T (decodePoint ub T.width d).2 ds d' → Visits T d (d :: ds) d'

theorem Visits.append {d d₁ d' : GorillatsDecompressor} {ds es : List GorillatsDecompressor} (h : Visits T d ds d₁)
    (h' : Visits T d₁ es d') : Visits T d (ds ++ es) d' := by
  induction h with
  | nil => exact h'
  | cons ub _ ih => exact .cons ub (ih h')

/-- **What `decodePoint` keeps, holds in every state of the chain.** -/
theorem Visits.forall {Inv : GorillatsDecompressor → Prop}
    (hstep : ∀ ub d, Inv d → Inv (decodePoint ub T.width d).2) {d d' : GorillatsDecompressor}
    {ds : List GorillatsDecompressor} (h : Visits T d ds d') (hd : Inv d) : ∀ x ∈ ds, Inv x := by
  induction h with
  | nil => exact fun _ hx => (List.not_mem_nil hx).elim
  | cons ub _ ih => exact List.forall_mem_cons.2 ⟨hd, ih (hstep ub _ hd)⟩

theorem decodePoint_width (ub : U64 → Int → U64) (width : Nat) (d : GorillatsDecompressor) :
    (decodePoint ub width d).2.width = d.width := by rw [erase_decodePoint]

theorem Visits.width {d d' : GorillatsDecompressor} {ds : List GorillatsDecompressor} (h : Visits T d ds d') :
    d'.width = d.width := by
  induction h with
  | nil => rfl
  | cons ub _ ih => rw [ih, decodePoint_width]

theorem visits_loop (ub : U64 → Int → U64) : ∀ (n : Nat) (d : GorillatsDecompressor),
    Visits T d (loopStates ub T.width n d) (decompressLoop ub T.width n d).2.2
  | 0, d => .nil d
  | n + 1, d => by
    rw [loopStates, decompressLoop]
    refine .cons ub ?_
    obtain ⟨rc | p, d'⟩ := decodePoint ub T.width d
    · exact .nil d'
    · exact visits_loop ub n d'

theorem visits_call (ub : U64 → Int → U64) (call : DecodeCall) {d : GorillatsDecompressor} (hw : d.width = T.width) :
    ∃ d', (call.run ub T (some d)).2 = some d' ∧ Visits T d (call.states ub T d) d' := by
  cases call with
  | next =>
    refine ⟨(decodePoint ub T.width d).2, ?_, ?_⟩
    · have hnext := next_of_decodePoint ub hw (Prod.eta (decodePoint ub T.width d)).symm
      rw [DecodeCall.run, hnext]
      cases (decodePoint ub T.width d).1 <;> rfl
    · rw [DecodeCall.states, if_neg (not_not.2 hw)]
      exact .cons ub (.nil _)
  | batch n =>
    refine ⟨(decompressLoop ub T.width n d).2.2, ?_, ?_⟩
    · rw [DecodeCall.run, ValueType.decodeBatch_some ub hw]
    · rw [DecodeCall.states, if_neg (not_not.2 hw)]
      exact visits_loop ub n d

/-- **A run of calls is a chain of points.** -/
theorem visits_decodeStates : ∀ (calls : List ((U64 → Int → U64) × DecodeCall)) {d : GorillatsDecompressor},
    d.width = T.width → ∃ d', Visits T d (decodeStates T (some d) calls) d'
  | [], d, _ => ⟨d, .nil d⟩
  | (ub, call) :: calls, d, hw => by
    obtain ⟨d₁, hcall, hvisits⟩ := visits_call ub call hw
    obtain ⟨d', hrest⟩ := visits_decodeStates calls (hvisits.width.trans hw)
    refine ⟨d', ?_⟩
    rw [decodeStates, hcall, Option.toList_some, List.flatMap_singleton]
    exact hvisits.append hrest

/-- **Every run on a buffer of eight bytes or more** is a chain from the start state of its header. -/
theorem visits_open {data : List U8} (h8 : 8 ≤ data.length) (calls : List ((U64 → Int → U64) × DecodeCall)) :
    ∃ d d', Live T d (startState (headerTs data)) ((unpack data).drop 64) ∧
      Visits T d (decodeStates T (T.openStream (some data)) calls) d' := by
  obtain ⟨d, hopen, hlive⟩ := open_header (T := T) h8
  obtain ⟨d', hvisits⟩ := visits_decodeStates calls hlive.width
  rw [hopen]
  exact ⟨d, d', hlive, hvisits⟩

/-! ## Live or ended -/

/-- A handle in a run: live on the bits ahead of it, or ended. -/
def Running (T : ValueType) (d : GorillatsDecompressor) : Prop := (∃ st, Live T d st d.r.ahead) ∨ Ended T d

theorem Live.running {d : GorillatsDecompressor} {st : CoderState} {bits : List Bool} (h : Live T d st bits) :
    Running T d := by
  refine .inl ⟨st, ?_⟩
  rw [h.reads.ahead_eq]
  exact h

theorem Running.decodePoint (ub : U64 → Int → U64) {d : GorillatsDecompressor} (h : Running T d) :
    Running T (Gorillats.decodePoint ub T.width d).2 := by
  rcases h with ⟨st, hlive⟩ | hend
  · cases hp : (pointParser ub T st).run d.r.ahead with
    | none =>
      obtain ⟨d', hd, hend⟩ := hlive.decodePoint_none ub hp
      rw [hd]
      exact .inr hend
    | some out =>
      obtain ⟨⟨p, st'⟩, rest⟩ := out
      obtain ⟨b, d', hd, -, hlive'⟩ := hlive.decodePoint_some ub hp
      rw [hd]
      exact hlive'.running
  · obtain ⟨d', hd, hend'⟩ := hend.decodePoint ub
    rw [hd]
    exact .inr hend'

section TsDecode

variable {s : GtTsState} {r : GtReader}

theorem gtTsDecode_of_eof (h : (gtReadDod r).2.eof = true) : gtTsDecode s r = ((.error .errEof, s), (gtReadDod r).2) := by
  unfold gtTsDecode
  exact congrArg (fun m : StateM GtReader _ => m (gtReadDod r).2) (if_pos h)

theorem gtTsDecode_of_not_eof (h : (gtReadDod r).2.eof = false) : gtTsDecode s r =
    ((.ok (s.prevTs + ((gtReadDod r).1 + s.prevDelta)),
      { prevTs := s.prevTs + ((gtReadDod r).1 + s.prevDelta), prevDelta := (gtReadDod r).1 + s.prevDelta }),
      (gtReadDod r).2) := by
  unfold gtTsDecode
  exact congrArg (fun m : StateM GtReader _ => m (gtReadDod r).2) (if_neg (ne_true_of_eq_false h))

end TsDecode

/-- **What `gt_ts_decode` answers**: a timestamp where the bits ahead spell a delta-of-delta, the end where they do
not. -/
theorem Running.tsDecode {d : GorillatsDecompressor} (h : Running T d) :
    (dodParser.run d.r.ahead = none ∧ (gtReadDod d.r).2.eof = true ∧
      gtTsDecode d.ts d.r = ((.error .errEof, d.ts), (gtReadDod d.r).2)) ∨
    ∃ dod rest, dodParser.run d.r.ahead = some (dod, rest) ∧ (gtReadDod d.r).1 = dod ∧ Reads (gtReadDod d.r).2 rest ∧
      gtTsDecode d.ts d.r = ((.ok (d.ts.prevTs + (dod + d.ts.prevDelta)),
        { prevTs := d.ts.prevTs + (dod + d.ts.prevDelta), prevDelta := dod + d.ts.prevDelta }), (gtReadDod d.r).2) := by
  rcases h with ⟨st, hlive⟩ | hend
  · have hy : Yields (gtReadDod d.r) (dodParser.run d.r.ahead) := refines_readDod.yields _ _ hlive.reads
    cases hdod : dodParser.run d.r.ahead with
    | none =>
      rw [hdod] at hy
      exact .inl ⟨rfl, hy, gtTsDecode_of_eof hy⟩
    | some out =>
      rw [hdod] at hy
      obtain ⟨hval, hreads⟩ := hy
      exact .inr ⟨out.1, out.2, rfl, hval, hreads, by rw [gtTsDecode_of_not_eof hreads.eof, hval]⟩
  · have heof : (gtReadDod d.r).2.eof = true := refines_readDod.sticky _ hend.eof
    refine .inl ⟨?_, heof, gtTsDecode_of_eof heof⟩
    rw [ahead_of_eof hend.eof]
    rfl

end Gorillats
