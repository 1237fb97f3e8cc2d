import Gorillats.BitString
import Mathlib.Data.List.Forall2
import Mathlib.Order.Bounds.Basic
/-!
# BitParser — parsers of bit strings and the codes they read

A `BitParser` consumes bits from the front of a bit string or fails.  `Local`: what it answers depends only on the
bits it consumes, so it fails on every proper prefix of a codeword (`Local.fails`).  `Run` repeats a parser that
carries a state.  A `BitCoder` writes one codeword a symbol; `Lockstep` is the relation between the two states that
one codeword preserves; a lockstep code reads back whatever follows it (`Lockstep.run`), and a cut stream reads as the
symbols whose codewords it still holds (`Lockstep.cut_run`, `fitting`).
-/

abbrev BitParser (α : Type) := StateT (List Bool) Option α

namespace BitParser

open BitString

variable {α β σ ε : Type}

/-! ## Primitive parsers -/

def bit : BitParser Bool
  | [] => none
  | b :: rest => some (b, rest)

/-- `n` more bits of a field that has spelled `v`. -/
def fieldFrom (v : Nat) : Nat → BitParser Nat
  | 0 => pure v
  | n + 1 => do
    let b ← bit
    fieldFrom (2 * v + b.toNat) n

/-- A field of `n` bits, as the number it spells. -/
def field (n : Nat) : BitParser Nat := fieldFrom 0 n

@[simp] theorem bit_run_cons (b : Bool) (rest : List Bool) : bit.run (b :: rest) = some (b, rest) := rfl

theorem fieldFrom_run_append : ∀ (w : List Bool) (v : Nat) (rest : List Bool),
    (fieldFrom v w.length).run (w ++ rest) = some (ofBitsFrom v w, rest)
  | [], _, _ => rfl
  | b :: w, v, rest => fieldFrom_run_append w (2 * v + b.toNat) rest

theorem field_run_append (w rest : List Bool) : (field w.length).run (w ++ rest) = some (ofBits w, rest) :=
  fieldFrom_run_append w 0 rest

/-! ## Local parsers -/

/-- What the parser answers depends only on the word it consumes. -/
def Local (p : BitParser α) : Prop :=
  ∀ bits a rest, p.run bits = some (a, rest) → ∃ w, bits = w ++ rest ∧ ∀ more, p.run (w ++ more) = some (a, more)

theorem local_pure (a : α) : Local (pure a : BitParser α) := by
  intro bits b rest h
  cases h
  exact ⟨[], rfl, fun more => rfl⟩

theorem local_bit : Local bit := by
  intro bits b rest h
  cases bits with
  | nil => cases h
  | cons c bits =>
    cases h
    exact ⟨[b], rfl, fun more => rfl⟩

theorem run_bind_eq_some {p : BitParser α} {k : α → BitParser β} {bits rest : List Bool} {b : β}
    (h : (p >>= k).run bits = some (b, rest)) :
    ∃ a mid, p.run bits = some (a, mid) ∧ (k a).run mid = some (b, rest) := by
  rw [StateT.run_bind] at h
  obtain ⟨⟨a, mid⟩, hp, hk⟩ := Option.bind_eq_some_iff.1 h
  exact ⟨a, mid, hp, hk⟩

theorem run_bind_of_eq_some {p : BitParser α} {k : α → BitParser β} {bits mid : List Bool} {a : α}
    (h : p.run bits = some (a, mid)) : (p >>= k).run bits = (k a).run mid := by
  rw [StateT.run_bind, h]
  rfl

@[simp] theorem bit_bind_run_cons (k : Bool → BitParser β) (b : Bool) (rest : List Bool) :
    (bit >>= k).run (b :: rest) = (k b).run rest := rfl

theorem run_map_of_eq_some {p : BitParser α} (f : α → β) {bits mid : List Bool} {a : α}
    (h : p.run bits = some (a, mid)) : (f <$> p).run bits = some (f a, mid) := by
  rw [StateT.run_map, h]
  rfl

theorem Local.bind {p : BitParser α} {k : α → BitParser β} (hp : Local p) (hk : ∀ a, Local (k a)) :
    Local (p >>= k) := by
  intro bits b rest h
  obtain ⟨a, mid, ha, hb⟩ := run_bind_eq_some h
  obtain ⟨w₁, rfl, h₁⟩ := hp _ _ _ ha
  obtain ⟨w₂, rfl, h₂⟩ := hk a _ _ _ hb
  refine ⟨w₁ ++ w₂, (List.append_assoc ..).symm, fun more => ?_⟩
  rw [List.append_assoc, run_bind_of_eq_some (h₁ _), h₂]

theorem Local.map {p : BitParser α} (hp : Local p) (f : α → β) : Local (f <$> p) := by
  rw [map_eq_pure_bind]
  exact hp.bind fun a => local_pure (f a)

theorem local_fieldFrom : ∀ n v : Nat, Local (fieldFrom v n)
  | 0, v => local_pure v
  | n + 1, v => local_bit.bind fun b => local_fieldFrom n (2 * v + b.toNat)

theorem local_field (n : Nat) : Local (field n) := local_fieldFrom n 0

theorem Local.ite {p q : BitParser α} {c : Prop} [Decidable c] (hp : Local p) (hq : Local q) :
    Local (if c then p else q) := by
  by_cases hc : c
  · rwa [if_pos hc]
  · rwa [if_neg hc]

/-- **A local parser fails on every proper prefix of a word it consumes whole.** -/
theorem Local.fails {p : BitParser α} (hp : Local p) {w tail : List Bool} {a : α}
    (h : p.run (w ++ tail) = some (a, [])) (ht : tail ≠ []) : p.run w = none := by
  cases hw : p.run w with
  | none => rfl
  | some r =>
    obtain ⟨w', rfl, h'⟩ := hp w r.1 r.2 hw
    rw [List.append_assoc, h' (r.2 ++ tail)] at h
    simp only [Option.some.injEq, Prod.mk.injEq, List.append_eq_nil_iff] at h
    exact absurd h.2.2 ht

/-! ## What a parser takes -/

/-- Whatever the parser answers satisfies `Q`, and it took at least `n` bits for it. -/
def Takes (p : BitParser α) (n : Nat) (Q : α → Prop) : Prop :=
  ∀ bits a rest, p.run bits = some (a, rest) → Q a ∧ rest.length + n ≤ bits.length

section Takes

variable {p q : BitParser α} {k : α → BitParser β} {m n : Nat} {P Q : α → Prop} {R : β → Prop}

theorem takes_pure {a : α} (h : Q a) : Takes (pure a) 0 Q := by
  intro bits b rest hb
  cases hb
  exact ⟨h, Nat.le_refl _⟩

theorem takes_bit : Takes bit 1 fun _ => True := by
  intro bits b rest h
  cases bits with
  | nil => cases h
  | cons c bits =>
    cases h
    exact ⟨trivial, Nat.le_refl _⟩

theorem Takes.bind (hp : Takes p m P) (hk : ∀ a, P a → Takes (k a) n R) : Takes (p >>= k) (m + n) R := by
  intro bits b rest h
  obtain ⟨a, mid, ha, hb⟩ := run_bind_eq_some h
  obtain ⟨hPa, hle⟩ := hp _ _ _ ha
  obtain ⟨hRb, hle'⟩ := hk a hPa _ _ _ hb
  exact ⟨hRb, by omega⟩

theorem Takes.mono (hp : Takes p m P) (hn : n ≤ m) (hQ : ∀ a, P a → Q a) : Takes p n Q := by
  intro bits a rest h
  obtain ⟨hPa, hle⟩ := hp _ _ _ h
  exact ⟨hQ a hPa, by omega⟩

theorem Takes.map (hp : Takes p n P) (f : α → β) (hR : ∀ a, P a → R (f a)) : Takes (f <$> p) n R := by
  rw [map_eq_pure_bind]
  exact hp.bind fun a ha => takes_pure (hR a ha)

theorem Takes.ite {c : Prop} [Decidable c] (hp : c → Takes p n Q) (hq : ¬ c → Takes q n Q) :
    Takes (if c then p else q) n Q := by
  by_cases hc : c
  · rw [if_pos hc]
    exact hp hc
  · rw [if_neg hc]
    exact hq hc

theorem takes_fieldFrom : ∀ n v : Nat, Takes (fieldFrom v n) n fun a => v * 2 ^ n ≤ a ∧ a < (v + 1) * 2 ^ n
  | 0, v => takes_pure (by simp)
  | n + 1, v => by
    refine (takes_bit.bind fun b _ => (takes_fieldFrom n (2 * v + b.toNat)).mono (Nat.le_refl n) ?_).mono
      (by omega) fun _ h => h
    rintro a ⟨hge, hlt⟩
    rw [Nat.pow_succ]
    constructor
    · calc v * (2 ^ n * 2) = 2 * v * 2 ^ n := by ring
        _ ≤ (2 * v + b.toNat) * 2 ^ n := Nat.mul_le_mul_right _ (by omega)
        _ ≤ a := hge
    · calc a < (2 * v + b.toNat + 1) * 2 ^ n := hlt
        _ ≤ (2 * v + 2) * 2 ^ n := Nat.mul_le_mul_right _ (by have := b.toNat_le; omega)
        _ = (v + 1) * (2 ^ n * 2) := by ring

/-- **A field takes its own bits** and spells a number they can hold. -/
theorem takes_field (n : Nat) : Takes (field n) n (· < 2 ^ n) :=
  (takes_fieldFrom n 0).mono (Nat.le_refl n) fun a h => by simpa using h.2

end Takes

/-! ## Words -/

/-- The parser reads the word `w` whole as `a`, whatever follows. -/
def Spells (p : BitParser α) (w : List Bool) (a : α) : Prop := ∀ rest, p.run (w ++ rest) = some (a, rest)

section Spells

variable {p : BitParser α} {w : List Bool} {a : α}

theorem Local.spells (hp : Local p) {rest : List Bool} (h : p.run (w ++ rest) = some (a, rest)) : Spells p w a := by
  obtain ⟨w', hw, hmore⟩ := hp _ _ _ h
  rw [List.append_cancel_right hw]
  exact hmore

theorem Spells.of_pure {b : α} (h : Spells (pure b) w a) : w = [] ∧ a = b := by
  have h := h []
  rw [List.append_nil] at h
  cases h
  exact ⟨rfl, rfl⟩

/-- The first bit of a word says which branch reads the others. -/
theorem Spells.of_bit_ite {q : BitParser α} (h : Spells (do if (← bit) = false then p else q) w a) :
    (∃ w', w = false :: w' ∧ Spells p w' a) ∨ ∃ w', w = true :: w' ∧ Spells q w' a := by
  cases w with
  | nil => cases h []
  | cons b w' =>
    cases b with
    | false => exact .inl ⟨w', rfl, h⟩
    | true => exact .inr ⟨w', rfl, h⟩

theorem Spells.of_map (hp : Local p) {f : α → β} {b : β} (h : Spells (f <$> p) w b) : ∃ a, Spells p w a ∧ f a = b := by
  have h := h []
  rw [map_eq_pure_bind] at h
  obtain ⟨a, mid, ha, hb⟩ := run_bind_eq_some h
  cases hb
  exact ⟨a, hp.spells ha, rfl⟩

theorem Spells.of_bind (hp : Local p) {k : α → BitParser β} (hk : ∀ a, Local (k a)) {b : β} (h : Spells (p >>= k) w b) :
    ∃ a u v, w = u ++ v ∧ Spells p u a ∧ Spells (k a) v b := by
  have h := h []
  rw [List.append_nil] at h
  obtain ⟨a, mid, ha, hb⟩ := run_bind_eq_some h
  obtain ⟨u, rfl, hu⟩ := hp _ _ _ ha
  exact ⟨a, u, mid, rfl, hu, (hk a).spells (by rwa [List.append_nil])⟩

theorem Spells.of_field {n v : Nat} (h : Spells (field n) w v) : w.length = n ∧ v = ofBits w := by
  have h := h []
  rw [List.append_nil] at h
  have hle := (takes_field n _ _ _ h).2
  rw [List.length_nil, Nat.zero_add] at hle
  have hrun := field_run_append (w.take n) (w.drop n)
  rw [List.length_take_of_le hle, List.take_append_drop, h] at hrun
  obtain ⟨hv, hdrop⟩ := Prod.mk.inj (Option.some.inj hrun)
  have hlen := congrArg List.length hdrop
  rw [List.length_drop, List.length_nil] at hlen
  refine ⟨by omega, ?_⟩
  rw [hv, List.take_of_length_le (by omega)]

end Spells

/-- **The one shortest word**: the parser reads `w` as `a`, and every other word that it reads as `a` is longer. -/
structure Shortest (p : BitParser α) (w : List Bool) (a : α) : Prop where
  spells : Spells p w a
  lt     : ∀ w', Spells p w' a → w' ≠ w → w.length < w'.length

/-! ## Repeated parsing -/

section Run

variable (p : σ → BitParser (β × σ))

/-- The parser, started in `s` on `bits`, answers `bs` one after another and is left in `s'` on `rest`. -/
inductive Run : σ → List Bool → List β → σ → List Bool → Prop
  | nil (s : σ) (bits : List Bool) : Run s bits [] s bits
  | cons {s s₁ s' : σ} {bits mid rest : List Bool} {b : β} {bs : List β} :
    (p s).run bits = some ((b, s₁), mid) → Run s₁ mid bs s' rest → Run s bits (b :: bs) s' rest

variable {p}

theorem Run.append {s s₁ s' : σ} {bits mid rest : List Bool} {bs cs : List β} (h : Run p s bits bs s₁ mid)
    (h' : Run p s₁ mid cs s' rest) : Run p s bits (bs ++ cs) s' rest := by
  induction h with
  | nil => exact h'
  | cons hb _ ih => exact .cons hb (ih h')

/-- **More bits change nothing that was answered.** -/
theorem Run.append_rest (hp : ∀ s, Local (p s)) {s s' : σ} {bits rest : List Bool} {bs : List β}
    (h : Run p s bits bs s' rest) (more : List Bool) : Run p s (bits ++ more) bs s' (rest ++ more) := by
  induction h with
  | nil => exact .nil _ _
  | cons hb _ ih =>
    obtain ⟨w, rfl, hw⟩ := hp _ _ _ _ hb
    rw [List.append_assoc]
    exact .cons (hw _) ih

/-- Two runs that answer as often answer alike. -/
theorem Run.det {s s₁ s₂ : σ} {bits rest₁ rest₂ : List Bool} {bs cs : List β} (h : Run p s bits bs s₁ rest₁)
    (h' : Run p s bits cs s₂ rest₂) (hl : bs.length = cs.length) : bs = cs ∧ s₁ = s₂ ∧ rest₁ = rest₂ := by
  induction h generalizing cs with
  | nil =>
    cases h' with
    | nil => exact ⟨rfl, rfl, rfl⟩
    | cons => cases hl
  | cons hb _ ih =>
    cases h' with
    | nil => cases hl
    | cons hc h' =>
      rw [hb] at hc
      cases hc
      obtain ⟨rfl, rfl, rfl⟩ := ih h' (by simpa using hl)
      exact ⟨rfl, rfl, rfl⟩

/-- **The image of a parser** runs through the images of its states and answers, where what it needs of a state is kept. -/
theorem Run.map_of_inv {γ τ : Type} {q : τ → BitParser (γ × τ)} {f : β → γ} {g : σ → τ} (Inv : σ → Prop)
    (hinv : ∀ s bits b s' rest, (p s).run bits = some ((b, s'), rest) → Inv s → Inv s')
    (hq : ∀ s, Inv s → q (g s) = (fun out => (f out.1, g out.2)) <$> p s) {s s' : σ} {bits rest : List Bool} {bs : List β}
    (h : Run p s bits bs s' rest) (hs : Inv s) : Run q (g s) bits (bs.map f) (g s') rest ∧ Inv s' := by
  induction h with
  | nil => exact ⟨.nil _ _, hs⟩
  | cons hb _ ih =>
    obtain ⟨hrun, hs'⟩ := ih (hinv _ _ _ _ _ hb hs)
    refine ⟨.cons ?_ hrun, hs'⟩
    rw [hq _ hs]
    exact run_map_of_eq_some _ hb

theorem Run.map {γ τ : Type} {q : τ → BitParser (γ × τ)} {f : β → γ} {g : σ → τ}
    (hq : ∀ s, q (g s) = (fun out => (f out.1, g out.2)) <$> p s) {s s' : σ} {bits rest : List Bool} {bs : List β}
    (h : Run p s bits bs s' rest) : Run q (g s) bits (bs.map f) (g s') rest :=
  (h.map_of_inv (fun _ => True) (fun _ _ _ _ _ _ => id) (fun s _ => hq s) trivial).1

end Run

end BitParser

/-! ## Codes -/

/-- One codeword a symbol, and the state it leaves. -/
structure BitCoder (ε α : Type) where
  code : ε → α → List Bool
  next : ε → α → ε

namespace BitCoder

open BitParser

variable {α β σ ε : Type} (c : BitCoder ε α)

def codes : ε → List α → List Bool
  | _, [] => []
  | e, a :: as => c.code e a ++ codes (c.next e a) as

def after (e : ε) (as : List α) : ε := as.foldl c.next e

@[simp] theorem codes_nil (e : ε) : c.codes e [] = [] := rfl

@[simp] theorem codes_cons (e : ε) (a : α) (as : List α) :
    c.codes e (a :: as) = c.code e a ++ c.codes (c.next e a) as := rfl

@[simp] theorem after_nil (e : ε) : c.after e [] = e := rfl

@[simp] theorem after_cons (e : ε) (a : α) (as : List α) : c.after e (a :: as) = c.after (c.next e a) as := rfl

theorem after_append (e : ε) (as bs : List α) : c.after e (as ++ bs) = c.after (c.after e as) bs :=
  List.foldl_append ..

/-- **What every codeword preserves**, a stream does. -/
theorem after_of_inv (Inv : ε → Prop) (hstep : ∀ e a, Inv e → Inv (c.next e a)) : ∀ (as : List α) {e : ε}, Inv e →
    Inv (c.after e as)
  | [], _, h => h
  | a :: as, e, h => after_of_inv Inv hstep as (hstep e a h)

theorem codes_append : ∀ (e : ε) (as bs : List α), c.codes e (as ++ bs) = c.codes e as ++ c.codes (c.after e as) bs
  | _, [], _ => rfl
  | e, a :: as, bs => by
    rw [List.cons_append, codes_cons, codes_cons, codes_append (c.next e a) as bs, List.append_assoc, after_cons]

/-- **The image of a coder** writes the same codewords. -/
theorem codes_map {δ α' : Type} {c' : BitCoder δ α'} {f : α → α'} {g : ε → δ}
    (hcode : ∀ e a, c'.code (g e) (f a) = c.code e a) (hnext : ∀ e a, c'.next (g e) (f a) = g (c.next e a)) :
    ∀ (as : List α) (e : ε), c'.codes (g e) (as.map f) = c.codes e as
  | [], _ => rfl
  | a :: as, e => by
    rw [List.map_cons, codes_cons, codes_cons, hcode, hnext, codes_map hcode hnext as]

theorem length_codes_mono (e : ε) {as bs : List α} (h : as <+: bs) :
    (c.codes e as).length ≤ (c.codes e bs).length := by
  obtain ⟨cs, rfl⟩ := h
  rw [codes_append, List.length_append]
  omega

theorem codes_isPrefix (e : ε) {as bs : List α} (h : as <+: bs) : c.codes e as <+: c.codes e bs := by
  obtain ⟨cs, rfl⟩ := h
  rw [codes_append]
  exact List.prefix_append ..

/-- **Codewords of at most `B` bits in every state the coder reaches** make a stream of at most `B` bits a symbol. -/
theorem length_codes_le {Inv : ε → Prop} {B : Nat} (hstep : ∀ e a, Inv e → Inv (c.next e a))
    (hcode : ∀ e a, Inv e → (c.code e a).length ≤ B) : ∀ (as : List α) {e : ε}, Inv e →
    (c.codes e as).length ≤ B * as.length
  | [], _, _ => Nat.zero_le _
  | a :: as, e, he => by
    have h := hcode e a he
    have hs := length_codes_le hstep hcode as (hstep e a he)
    rw [codes_cons, List.length_append, List.length_cons, Nat.mul_succ]
    omega

/-- **Amortised codewords**: `B` bits a symbol, and those a potential pays for. -/
theorem length_codes_add_le (Inv : ε → Prop) {B : Nat} (φ : ε → Nat) (hstep : ∀ e a, Inv e → Inv (c.next e a))
    (hcode : ∀ e a, Inv e → (c.code e a).length + φ (c.next e a) ≤ B + φ e) : ∀ (as : List α) {e : ε}, Inv e →
    (c.codes e as).length + φ (c.after e as) ≤ B * as.length + φ e
  | [], _, _ => Nat.le_refl _
  | a :: as, e, he => by
    have h := hcode e a he
    have hs := length_codes_add_le Inv φ hstep hcode as (hstep e a he)
    rw [codes_cons, List.length_append, List.length_cons, Nat.mul_succ, after_cons]
    omega

/-- Codewords of at least `B` bits make a stream of at least `B` bits a symbol. -/
theorem le_length_codes (Inv : ε → Prop) {B : Nat} (hstep : ∀ e a, Inv e → Inv (c.next e a))
    (hcode : ∀ e a, Inv e → B ≤ (c.code e a).length) : ∀ (as : List α) {e : ε}, Inv e →
    B * as.length ≤ (c.codes e as).length
  | [], _, _ => Nat.le_refl _
  | a :: as, e, he => by
    have h := hcode e a he
    have hs := le_length_codes Inv hstep hcode as (hstep e a he)
    rw [codes_cons, List.length_append, List.length_cons, Nat.mul_succ]
    omega

/-- **A bound that some symbol meets in every state** is met by streams of any length. -/
theorem exists_length_codes (Inv : ε → Prop) {B : Nat}
    (hcode : ∀ e, Inv e → ∃ a, (c.code e a).length = B ∧ Inv (c.next e a)) : ∀ (n : Nat) {e : ε}, Inv e →
    ∃ as : List α, as.length = n ∧ (c.codes e as).length = B * n ∧ Inv (c.after e as)
  | 0, _, he => ⟨[], rfl, rfl, he⟩
  | n + 1, e, he => by
    obtain ⟨a, ha, hnext⟩ := hcode e he
    obtain ⟨as, hlen, has, hend⟩ := exists_length_codes Inv hcode n hnext
    refine ⟨a :: as, by rw [List.length_cons, hlen], ?_, hend⟩
    rw [codes_cons, List.length_append, ha, has, Nat.mul_succ, Nat.add_comm]

/-! ## What fits in a bounded number of bits -/

/-- The longest prefix whose codewords fit in `room` bits. -/
def fitting : Nat → ε → List α → List α
  | _, _, [] => []
  | room, e, a :: as =>
    if (c.code e a).length ≤ room then a :: fitting (room - (c.code e a).length) (c.next e a) as else []

theorem fitting_isPrefix : ∀ (room : Nat) (e : ε) (as : List α), c.fitting room e as <+: as
  | _, _, [] => List.prefix_refl _
  | room, e, a :: as => by
    rw [fitting]
    by_cases ha : (c.code e a).length ≤ room
    · rw [if_pos ha]
      exact (List.prefix_cons_inj a).2 (fitting_isPrefix _ _ as)
    · rw [if_neg ha]
      exact List.nil_prefix

theorem fitting_map {δ α' : Type} {c' : BitCoder δ α'} {f : α → α'} {g : ε → δ}
    (hcode : ∀ e a, c'.code (g e) (f a) = c.code e a) (hnext : ∀ e a, c'.next (g e) (f a) = g (c.next e a)) :
    ∀ (room : Nat) (e : ε) (as : List α), c'.fitting room (g e) (as.map f) = (c.fitting room e as).map f
  | _, _, [] => rfl
  | room, e, a :: as => by
    rw [List.map_cons, fitting, fitting, hcode, hnext, fitting_map hcode hnext]
    split <;> rfl

theorem length_codes_fitting : ∀ (room : Nat) (e : ε) (as : List α), (c.codes e (c.fitting room e as)).length ≤ room
  | _, _, [] => Nat.zero_le _
  | room, e, a :: as => by
    rw [fitting]
    by_cases ha : (c.code e a).length ≤ room
    · have := length_codes_fitting (room - (c.code e a).length) (c.next e a) as
      rw [if_pos ha, codes_cons, List.length_append]
      omega
    · rw [if_neg ha]
      exact Nat.zero_le _

theorem fitting_append_of_le : ∀ (room : Nat) (e : ε) (as bs : List α), (c.codes e as).length ≤ room →
    c.fitting room e (as ++ bs) = as ++ c.fitting (room - (c.codes e as).length) (c.after e as) bs
  | room, e, [], bs, _ => by simp
  | room, e, a :: as, bs, h => by
    rw [codes_cons, List.length_append] at h
    rw [List.cons_append, fitting, if_pos (by omega), fitting_append_of_le _ _ as bs (by omega), codes_cons,
      List.length_append, after_cons, Nat.sub_sub]
    rfl

theorem fitting_of_le (room : Nat) (e : ε) (as : List α) (h : (c.codes e as).length ≤ room) :
    c.fitting room e as = as := by
  have := c.fitting_append_of_le room e as [] h
  simpa [fitting] using this

theorem fitting_append_of_lt : ∀ (room : Nat) (e : ε) (as bs : List α), room < (c.codes e as).length →
    c.fitting room e (as ++ bs) = c.fitting room e as
  | room, e, [], bs, h => by simp at h
  | room, e, a :: as, bs, h => by
    rw [codes_cons, List.length_append] at h
    rw [List.cons_append, fitting, fitting]
    by_cases ha : (c.code e a).length ≤ room
    · rw [if_pos ha, if_pos ha, fitting_append_of_lt _ _ as bs (by omega)]
    · rw [if_neg ha, if_neg ha]

theorem fitting_concat_of_lt (room : Nat) (e : ε) (as : List α) (a : α) (h : room < (c.codes e (as ++ [a])).length) :
    c.fitting room e (as ++ [a]) = c.fitting room e as := by
  rcases Nat.lt_or_ge room (c.codes e as).length with hlt | hle
  · exact c.fitting_append_of_lt room e as [a] hlt
  · rw [codes_append, codes_cons, codes_nil, List.append_nil, List.length_append] at h
    rw [c.fitting_append_of_le room e as [a] hle, c.fitting_of_le room e as hle, fitting, if_neg (by omega),
      List.append_nil]

theorem fitting_isPrefix_append (room : Nat) (e : ε) (as bs : List α) :
    c.fitting room e as <+: c.fitting room e (as ++ bs) := by
  rcases Nat.lt_or_ge room (c.codes e as).length with hlt | hle
  · exact c.fitting_append_of_lt room e as bs hlt ▸ List.prefix_refl _
  · rw [c.fitting_append_of_le room e as bs hle, c.fitting_of_le room e as hle]
    exact List.prefix_append _ _

theorem fitting_isPrefix_of_le : ∀ {room room' : Nat} (e : ε) (as : List α), room ≤ room' →
    c.fitting room e as <+: c.fitting room' e as
  | _, _, _, [], _ => List.prefix_refl _
  | room, room', e, a :: as, h => by
    rw [fitting, fitting]
    by_cases ha : (c.code e a).length ≤ room
    · rw [if_pos ha, if_pos (by omega)]
      exact (List.prefix_cons_inj a).2 (fitting_isPrefix_of_le (c.next e a) as (by omega))
    · rw [if_neg ha]
      exact List.nil_prefix

/-- **Where a cut falls**: inside the codeword that comes right after those that fit. -/
theorem exists_cut : ∀ (room : Nat) (e : ε) (as : List α), room < (c.codes e as).length →
    ∃ a bs, as = c.fitting room e as ++ a :: bs ∧ room < (c.codes e (c.fitting room e as ++ [a])).length
  | _, _, [], h => by simp at h
  | room, e, a :: as, h => by
    rw [codes_cons, List.length_append] at h
    rw [fitting]
    by_cases ha : (c.code e a).length ≤ room
    · rw [if_pos ha]
      obtain ⟨b, bs, has, hb⟩ := exists_cut (room - (c.code e a).length) (c.next e a) as (by omega)
      refine ⟨b, bs, by rw [List.cons_append, ← has], ?_⟩
      rw [List.cons_append, codes_cons, List.length_append]
      omega
    · -- the first codeword is cut already
      rw [if_neg ha]
      exact ⟨a, as, rfl, by simp; omega⟩

/-- **`fitting` is the longest prefix that fits.** -/
theorem isGreatest_fitting (room : Nat) (e : ε) (as : List α) :
    IsGreatest {k | k ≤ as.length ∧ (c.codes e (as.take k)).length ≤ room} (c.fitting room e as).length := by
  have hp := c.fitting_isPrefix room e as
  have htake := List.prefix_iff_eq_take.1 hp
  refine ⟨⟨hp.length_le, by rw [← htake]; exact c.length_codes_fitting room e as⟩, fun k hk => ?_⟩
  by_contra hlt
  have h := c.fitting_append_of_le room e (as.take k) (as.drop k) hk.2
  rw [List.take_append_drop] at h
  have hlen := congrArg List.length h
  rw [List.length_append, List.length_take, Nat.min_eq_left hk.1] at hlen
  omega

/-! ## Reading a code back -/

/-- **Lockstep**: whenever the two states are related and the symbol is admitted, the parser reads the codeword back,
consumes exactly it, answers a related value and leaves related states. -/
def Lockstep (p : σ → BitParser (β × σ)) (R : ε → σ → Prop) (ok : ε → α → Prop) (V : α → β → Prop) : Prop :=
  ∀ e s a, R e s → ok e a → ∃ b s', V a b ∧ R (c.next e a) s' ∧
    ∀ rest, (p s).run (c.code e a ++ rest) = some ((b, s'), rest)

/-- Every symbol is admitted in the state it meets. -/
def Admits (ok : ε → α → Prop) : ε → List α → Prop
  | _, [] => True
  | e, a :: as => ok e a ∧ Admits ok (c.next e a) as

theorem admits_append (ok : ε → α → Prop) : ∀ (e : ε) (as bs : List α),
    c.Admits ok e (as ++ bs) ↔ c.Admits ok e as ∧ c.Admits ok (c.after e as) bs
  | _, [], _ => by simp [Admits]
  | e, a :: as, bs => by
    simp only [List.cons_append, Admits, after_cons, admits_append ok (c.next e a) as bs, and_assoc]

theorem admits_of_isPrefix (ok : ε → α → Prop) {e : ε} {as bs : List α} (h : as <+: bs) (hb : c.Admits ok e bs) :
    c.Admits ok e as := by
  obtain ⟨cs, rfl⟩ := h
  exact ((c.admits_append ok e as cs).1 hb).1

theorem admits_of_forall (ok : ε → α → Prop) (h : ∀ e a, ok e a) : ∀ (e : ε) (as : List α), c.Admits ok e as
  | _, [] => trivial
  | e, a :: as => ⟨h e a, admits_of_forall ok h (c.next e a) as⟩

variable {c} {p : σ → BitParser (β × σ)} {R : ε → σ → Prop} {ok : ε → α → Prop} {V : α → β → Prop}

/-- **A lockstep code reads back**, whatever bits follow. -/
theorem Lockstep.run (hc : c.Lockstep p R ok V) : ∀ (as : List α) (e : ε) (s : σ), R e s → c.Admits ok e as →
    ∃ bs s', List.Forall₂ V as bs ∧ R (c.after e as) s' ∧ ∀ rest, Run p s (c.codes e as ++ rest) bs s' rest
  | [], e, s, hR, _ => ⟨[], s, .nil, hR, fun rest => .nil s rest⟩
  | a :: as, e, s, hR, hok => by
    obtain ⟨b, s₁, hV, hR₁, hb⟩ := hc e s a hR hok.1
    obtain ⟨bs, s', hVs, hR', hbs⟩ := hc.run as (c.next e a) s₁ hR₁ hok.2
    refine ⟨b :: bs, s', .cons hV hVs, hR', fun rest => ?_⟩
    rw [codes_cons, List.append_assoc]
    exact .cons (hb _) (hbs rest)

/-- **A cut stream reads as the symbols whose codewords it still holds, and then fails.** -/
theorem Lockstep.cut_run (hc : c.Lockstep p R ok V) (hp : ∀ s, Local (p s)) {e : ε} {s : σ} (hR : R e s)
    {as : List α} {room : Nat} (hok : c.Admits ok e as) (hroom : room < (c.codes e as).length) :
    ∃ bs s' rest, List.Forall₂ V (c.fitting room e as) bs ∧ Run p s ((c.codes e as).take room) bs s' rest ∧
      (p s').run rest = none := by
  obtain ⟨a, as', has, hlt⟩ := c.exists_cut room e as hroom
  have hle := c.length_codes_fitting room e as
  generalize c.fitting room e as = fit at has hlt hle ⊢
  subst has
  rw [admits_append] at hok
  obtain ⟨bs, s', hV, hR', hbs⟩ := hc.run fit e s hR hok.1
  obtain ⟨b, s'', -, -, hb⟩ := hc _ s' a hR' hok.2.1
  rw [codes_append, codes_cons, codes_nil, List.append_nil, List.length_append] at hlt
  rw [codes_append, codes_cons, List.take_append, List.take_of_length_le hle, List.take_append_of_le_length (by omega)]
  -- the codeword that was cut reads back whole, so its proper prefix fails
  have hwhole : (p s').run ((c.code (c.after e fit) a).take (room - (c.codes e fit).length) ++
      (c.code (c.after e fit) a).drop (room - (c.codes e fit).length)) = some ((b, s''), []) := by
    rw [List.take_append_drop]
    simpa using hb []
  have hcut : (c.code (c.after e fit) a).drop (room - (c.codes e fit).length) ≠ [] := by
    rw [Ne, List.drop_eq_nil_iff]
    omega
  exact ⟨bs, s', _, hV, hbs _, (hp s').fails hwhole hcut⟩

end BitCoder
