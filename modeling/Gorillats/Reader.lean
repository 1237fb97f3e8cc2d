import Gorillats.BitParser
import Gorillats.Core
import Mathlib.Data.List.TakeDrop
/-!
# Reader — reading functions refine bit-string parsers

`Reads r bits`: the reader has met no end and `bits` are still to come.  A reading action refines a parser when it
answers what the parser answers and leaves what the parser leaves, or sets `eof` where the parser fails; and `eof` is
sticky.  A decoder answers `GORILLATS_ERR_EOF` exactly where its parser fails (`Decodes`).
-/
namespace Gorillats

open BitString BitParser

structure Reads (r : GtReader) (bits : List Bool) : Prop where
  cap    : r.cap = r.buf.length
  bitPos : r.bitPos < 8
  rest   : (unpack r.buf).drop (8 * r.bytePos + r.bitPos) = bits
  eof    : r.eof = false

theorem reads_init (buf : List U8) : Reads (gtReaderInit buf buf.length) (unpack buf) :=
  ⟨rfl, Nat.zero_lt_succ 7, rfl, rfl⟩

/-- What a reading action leaves, beside what a parser leaves. -/
def Yields {α : Type} (out : α × GtReader) : Option (α × List Bool) → Prop
  | some (a, rest) => out.1 = a ∧ Reads out.2 rest
  | none => out.2.eof = true

/-- **A reading action refines a parser.** -/
structure Refines {α : Type} (act : StateM GtReader α) (p : BitParser α) : Prop where
  yields : ∀ r bits, Reads r bits → Yields (act.run r) (p.run bits)
  sticky : ∀ r, r.eof = true → (act.run r).2.eof = true

section Rules

variable {α β : Type}

theorem refines_pure (a : α) : Refines (pure a) (pure a) := ⟨fun _ _ h => ⟨rfl, h⟩, fun _ h => h⟩

theorem Refines.bind {act : StateM GtReader α} {p : BitParser α} {k : α → StateM GtReader β} {q : α → BitParser β}
    (h : Refines act p) (hk : ∀ a, Refines (k a) (q a)) : Refines (act >>= k) (p >>= q) := by
  refine ⟨fun r bits hr => ?_, fun r hr => (hk _).sticky _ (h.sticky r hr)⟩
  have hy := h.yields r bits hr
  cases hp : p.run bits with
  | none =>
    have hpq : (p >>= q).run bits = none := by rw [StateT.run_bind, hp]; rfl
    rw [hp] at hy
    rw [hpq]
    exact (hk _).sticky _ hy
  | some out =>
    rw [hp] at hy
    obtain ⟨ha, hr'⟩ := hy
    rw [run_bind_of_eq_some hp, ← ha]
    exact (hk _).yields _ _ hr'

theorem Refines.ite {act act' : StateM GtReader α} {p p' : BitParser α} {c : Prop} [Decidable c]
    (h : Refines act p) (h' : Refines act' p') : Refines (if c then act else act') (if c then p else p') := by
  by_cases hc : c
  · rwa [if_pos hc, if_pos hc]
  · rwa [if_neg hc, if_neg hc]

end Rules

/-! ## Bits and fields -/

theorem shift_getLsbD_zero (b : U8) (k : Nat) (hk : k < 8) : (b >>> (7 - k)).getLsbD 0 = b.getMsbD k := by
  rw [BitVec.getLsbD_ushiftRight, BitVec.getMsbD_eq_getLsbD]
  simp [hk]

/-- A reader inside its buffer, whether or not it has met the end. -/
structure Placed (r : GtReader) : Prop where
  cap    : r.cap = r.buf.length
  bitPos : r.bitPos < 8

/-- The bits from the reader's position on. -/
def GtReader.rest (r : GtReader) : List Bool := (unpack r.buf).drop (8 * r.bytePos + r.bitPos)

/-- The bits the reader still delivers: none once it has met the end. -/
def GtReader.ahead (r : GtReader) : List Bool := if r.eof = true then [] else r.rest

theorem Reads.ahead_eq {r : GtReader} {bits : List Bool} (h : Reads r bits) : r.ahead = bits := by
  rw [GtReader.ahead, if_neg (by simp [h.eof]), GtReader.rest, h.rest]

theorem ahead_of_eof {r : GtReader} (h : r.eof = true) : r.ahead = [] := if_pos h

theorem Reads.placed {r : GtReader} {bits : List Bool} (h : Reads r bits) : Placed r := ⟨h.cap, h.bitPos⟩

/-- **A bit read**: the next of the buffer, a zero past its end. -/
theorem Placed.getBit {r : GtReader} (h : Placed r) :
    (gtGetBit r).1 = r.rest.headD false ∧ (gtGetBit r).2.rest = r.rest.tail ∧ Placed (gtGetBit r).2 ∧
      (gtGetBit r).2.eof = (r.eof || r.rest.isEmpty) := by
  obtain ⟨hcap, hbit⟩ := h
  unfold gtGetBit
  rcases Nat.lt_or_ge r.bytePos r.cap with hroom | hend
  · -- the bit at the reader's position is the next of the bits to come
    have hlt : r.bytePos < r.buf.length := by omega
    have hnext : (unpack r.buf)[8 * r.bytePos + r.bitPos]? = some ((r.buf.getD r.bytePos 0).getMsbD r.bitPos) := by
      rw [getElem?_unpack, show (8 * r.bytePos + r.bitPos) / 8 = r.bytePos by omega,
        show (8 * r.bytePos + r.bitPos) % 8 = r.bitPos by omega, List.getD_eq_getElem?_getD,
        List.getElem?_eq_getElem hlt]
      rfl
    have hrest : r.rest = (r.buf.getD r.bytePos 0).getMsbD r.bitPos ::
        (unpack r.buf).drop (8 * r.bytePos + r.bitPos + 1) := by
      rw [GtReader.rest, List.drop_eq_getElem?_toList_append, hnext]
      rfl
    rw [hrest, if_neg (by omega), shift_getLsbD_zero _ _ hbit]
    by_cases h8 : r.bitPos + 1 = 8
    · simp only [if_pos h8]
      refine ⟨rfl, ?_, ⟨hcap, Nat.zero_lt_succ 7⟩, (Bool.or_false _).symm⟩
      rw [GtReader.rest, List.tail_cons]
      congr 1
      simp only
      omega
    · simp only [if_neg h8]
      exact ⟨rfl, rfl, ⟨hcap, by simp only; omega⟩, (Bool.or_false _).symm⟩
  · have hrest : r.rest = [] := List.drop_eq_nil_of_le (by rw [length_unpack]; omega)
    rw [if_pos hend, hrest]
    exact ⟨rfl, hrest, ⟨hcap, hbit⟩, (Bool.or_true _).symm⟩

theorem refines_bit : Refines gtGetBit bit := by
  refine ⟨fun r bits hr => ?_, fun r hr => ?_⟩
  · obtain ⟨hval, hrest, hplaced, heof⟩ := hr.placed.getBit
    have hbits : r.rest = bits := hr.rest
    rw [hbits] at hval hrest heof
    cases bits with
    | nil => exact heof.trans (Bool.or_true _)
    | cons b rest => exact ⟨hval, hplaced.cap, hplaced.bitPos, hrest, heof.trans (by rw [hr.eof]; rfl)⟩
  · show (gtGetBit r).2.eof = true
    unfold gtGetBit
    split
    · rfl
    · dsimp only
      split <;> exact hr

theorem toNat_ofNat_of_lt {v n : Nat} (hn : n ≤ 64) (h : v < 2 ^ n) : (BitVec.ofNat 64 v).toNat = v := by
  rw [BitVec.toNat_ofNat]
  exact Nat.mod_eq_of_lt (Nat.lt_of_lt_of_le h (Nat.pow_le_pow_right (by decide) hn))

/-- A field read into 64 bits. -/
def field64 (n : Nat) : BitParser U64 := BitVec.ofNat 64 <$> field n

theorem shift_or_ofBool (v : Nat) (b : Bool) :
    BitVec.ofNat 64 v <<< 1 ||| (BitVec.ofBool b).setWidth 64 = BitVec.ofNat 64 (2 * v + b.toNat) := by
  apply BitVec.eq_of_getLsbD_eq
  intro i hi
  rw [BitVec.getLsbD_or, BitVec.getLsbD_shiftLeft, BitVec.getLsbD_setWidth, BitVec.getLsbD_ofNat,
    BitVec.getLsbD_ofNat]
  cases i with
  | zero => cases b <;> simp [Nat.testBit_zero]
  | succ i =>
    rw [Nat.testBit_succ, show (2 * v + b.toNat) / 2 = v by cases b <;> simp; omega]
    simp [hi, show i < 64 by omega]

theorem refines_fieldFrom : ∀ n v : Nat,
    Refines (gtGetBitsFrom (BitVec.ofNat 64 v) n) (BitVec.ofNat 64 <$> fieldFrom v n)
  | 0, v => refines_pure _
  | n + 1, v => by
    have h : (BitVec.ofNat 64 <$> fieldFrom v (n + 1) : BitParser U64)
        = bit >>= fun b => BitVec.ofNat 64 <$> fieldFrom (2 * v + b.toNat) n := by
      rw [fieldFrom, map_bind]
    rw [h]
    refine refines_bit.bind fun b => ?_
    rw [shift_or_ofBool]
    exact refines_fieldFrom n (2 * v + b.toNat)

/-- **A field read**: the bits to come, and zeros past the end. -/
theorem Placed.getBitsFrom : ∀ (n v : Nat) {r : GtReader}, Placed r →
    (gtGetBitsFrom (BitVec.ofNat 64 v) n r).1 = BitVec.ofNat 64 (ofBitsFrom v (r.rest.takeD n false)) ∧
      (gtGetBitsFrom (BitVec.ofNat 64 v) n r).2.rest = r.rest.drop n ∧ Placed (gtGetBitsFrom (BitVec.ofNat 64 v) n r).2
  | 0, v, r, h => ⟨rfl, rfl, h⟩
  | n + 1, v, r, h => by
    obtain ⟨hval, hrest, hplaced, -⟩ := h.getBit
    have hstep : gtGetBitsFrom (BitVec.ofNat 64 v) (n + 1) r =
        gtGetBitsFrom (BitVec.ofNat 64 (2 * v + (r.rest.headD false).toNat)) n (gtGetBit r).2 := by
      rw [← hval, ← shift_or_ofBool]
      rfl
    obtain ⟨hval', hrest', hplaced'⟩ := hplaced.getBitsFrom n (2 * v + (r.rest.headD false).toNat)
    rw [hstep]
    rw [hrest] at hval' hrest'
    refine ⟨hval', ?_, hplaced'⟩
    rw [hrest', List.drop_tail]

theorem Placed.getBits (n : Nat) {r : GtReader} (h : Placed r) :
    (gtGetBits n r).1 = BitVec.ofNat 64 (ofBits (r.rest.takeD n false)) ∧ (gtGetBits n r).2.rest = r.rest.drop n ∧
      Placed (gtGetBits n r).2 := h.getBitsFrom n 0

theorem Placed.toNat_getBits {n : Nat} (hn : n ≤ 64) {r : GtReader} (h : Placed r) :
    (gtGetBits n r).1.toNat = ofBits (r.rest.takeD n false) := by
  have hlt := ofBits_lt (r.rest.takeD n false)
  rw [List.takeD_length] at hlt
  rw [(h.getBits n).1, toNat_ofNat_of_lt hn hlt]

theorem refines_field (n : Nat) : Refines (gtGetBits n) (field64 n) := refines_fieldFrom n 0

/-! ## Decoders -/

/-- What a decoder answers and leaves, beside what its parser leaves. -/
def Answers {α σ : Type} (out : (Except Status α × σ) × GtReader) : Option ((α × σ) × List Bool) → Prop
  | some ((a, s), rest) => out.1 = (.ok a, s) ∧ Reads out.2 rest
  | none => out.1.1 = .error .errEof ∧ out.2.eof = true

/-- **A decoder answers what its parser answers, and `GORILLATS_ERR_EOF` where it fails**, and forever after. -/
structure Decodes {α σ : Type} (act : StateM GtReader (Except Status α × σ)) (p : BitParser (α × σ)) : Prop where
  answers : ∀ r bits, Reads r bits → Answers (act.run r) (p.run bits)
  ended   : ∀ r, r.eof = true → (act.run r).1.1 = .error .errEof ∧ (act.run r).2.eof = true

section Outcomes

variable {α σ : Type} {act : StateM GtReader (Except Status α × σ)} {p : BitParser (α × σ)} {r : GtReader}
  {bits : List Bool}

theorem Decodes.of_some (h : Decodes act p) (hr : Reads r bits) {a : α} {s : σ} {rest : List Bool}
    (hp : p.run bits = some ((a, s), rest)) : ∃ r', act r = ((.ok a, s), r') ∧ Reads r' rest := by
  have ha := h.answers r bits hr
  rw [hp] at ha
  exact ⟨_, Prod.ext ha.1 rfl, ha.2⟩

theorem Decodes.of_none (h : Decodes act p) (hr : Reads r bits) (hp : p.run bits = none) :
    ∃ s r', act r = ((.error .errEof, s), r') ∧ r'.eof = true := by
  have ha := h.answers r bits hr
  rw [hp] at ha
  exact ⟨_, _, Prod.ext (Prod.ext ha.1 rfl) rfl, ha.2⟩

theorem Decodes.of_eof (h : Decodes act p) (hr : r.eof = true) :
    ∃ s r', act r = ((.error .errEof, s), r') ∧ r'.eof = true :=
  ⟨_, _, Prod.ext (Prod.ext (h.ended r hr).1 rfl) rfl, (h.ended r hr).2⟩

theorem Decodes.spells (h : Decodes act p) (hp : Local p) {word rest : List Bool} (hr : Reads r (word ++ rest))
    {a : α} {s : σ} {r' : GtReader} (hout : act r = ((.ok a, s), r')) (hr' : Reads r' rest) : Spells p word (a, s) := by
  cases hrun : p.run (word ++ rest) with
  | none =>
    obtain ⟨_, _, hnone, -⟩ := h.of_none hr hrun
    rw [hout] at hnone
    cases hnone
  | some out =>
    obtain ⟨⟨b, t⟩, rest'⟩ := out
    obtain ⟨r₁, hsome, hr₁⟩ := h.of_some hr hrun
    rw [hout] at hsome
    cases hsome
    obtain rfl : rest' = rest := hr₁.rest.symm.trans hr'.rest
    exact hp.spells hrun

end Outcomes

/-- The end-of-stream check after a reading action; `half` is the state a stream that ended leaves. -/
def checkEof {α σ : Type} (half done : σ) (a : α) : StateM GtReader (Except Status α × σ) := do
  if (← get).eof then return (.error .errEof, half)
  else return (.ok a, done)

theorem Refines.decodes {α β σ : Type} {act : StateM GtReader β} {p : BitParser β} (h : Refines act p)
    (half done : β → σ) (a : β → α) :
    Decodes (act >>= fun b => checkEof (half b) (done b) (a b)) ((fun b => (a b, done b)) <$> p) := by
  have hcheck : ∀ (b : β) (r : GtReader), (checkEof (half b) (done b) (a b)).run r
      = (if r.eof = true then (.error .errEof, half b) else (.ok (a b), done b), r) := by
    intro b r
    show (if r.eof = true then pure (Except.error Status.errEof, half b) else pure (Except.ok (a b), done b) :
      StateM GtReader _).run r = _
    split <;> rfl
  have hrun : ∀ r, (act >>= fun b => checkEof (half b) (done b) (a b)).run r
      = (checkEof (half (act.run r).1) (done (act.run r).1) (a (act.run r).1)).run (act.run r).2 := fun _ => rfl
  refine ⟨fun r bits hr => ?_, fun r hr => ?_⟩
  · have hy := h.yields r bits hr
    rw [hrun, hcheck, StateT.run_map]
    cases hp : p.run bits with
    | none =>
      rw [hp] at hy
      rw [if_pos (show _ = true from hy)]
      exact ⟨rfl, hy⟩
    | some out =>
      rw [hp] at hy
      obtain ⟨hb, hr'⟩ := hy
      rw [if_neg (by simp [hr'.eof]), hb]
      exact ⟨rfl, hr'⟩
  · have hs := h.sticky r hr
    rw [hrun, hcheck, if_pos hs]
    exact ⟨rfl, hs⟩

theorem Refines.bind_decodes {α β σ : Type} {act : StateM GtReader β} {p : BitParser β}
    {k : β → StateM GtReader (Except Status α × σ)} {q : β → BitParser (α × σ)} (h : Refines act p)
    (hk : ∀ b, Decodes (k b) (q b)) : Decodes (act >>= k) (p >>= q) := by
  refine ⟨fun r bits hr => ?_, fun r hr => (hk _).ended _ (h.sticky r hr)⟩
  have hy := h.yields r bits hr
  cases hp : p.run bits with
  | none =>
    have hpq : (p >>= q).run bits = none := by rw [StateT.run_bind, hp]; rfl
    rw [hp] at hy
    rw [hpq]
    exact (hk _).ended _ hy
  | some out =>
    rw [hp] at hy
    obtain ⟨hb, hr'⟩ := hy
    rw [run_bind_of_eq_some hp, ← hb]
    exact (hk _).answers _ _ hr'

theorem Decodes.ite {α σ : Type} {act act' : StateM GtReader (Except Status α × σ)} {p p' : BitParser (α × σ)}
    {c : Prop} [Decidable c] (h : Decodes act p) (h' : Decodes act' p') :
    Decodes (if c then act else act') (if c then p else p') := by
  by_cases hc : c
  · rwa [if_pos hc, if_pos hc]
  · rwa [if_neg hc, if_neg hc]

end Gorillats
