import Mathlib.Init
/-!
# Machine — machines that answer their inputs

A machine takes an input in a state, answers and moves on; `run` feeds it a list of inputs.  `Simulates` relates the
states of two machines: on every input that is allowed, related states answer alike and stay related, so whole runs
answer alike (`Simulates.run`).  `Filters` is a machine that refuses the inputs another has no counterpart for and is that
machine on the others: its runs are the other's, the refusals woven in (`Filters.run`).
-/

def Machine (σ ι ω : Type) := σ → ι → ω × σ

namespace Machine

variable {σ τ ι ω : Type}

/-- The answers to the inputs, one after another, and the state after them. -/
def run (m : Machine σ ι ω) : σ → List ι → List ω × σ
  | s, [] => ([], s)
  | s, i :: is =>
    let (o, s) := m s i
    let (os, s) := run m s is
    (o :: os, s)

theorem run_cons (m : Machine σ ι ω) (s : σ) (i : ι) (is : List ι) :
    m.run s (i :: is) = ((m s i).1 :: (m.run (m s i).2 is).1, (m.run (m s i).2 is).2) := rfl

theorem run_append (m : Machine σ ι ω) : ∀ (s : σ) (is js : List ι),
    m.run s (is ++ js) = ((m.run s is).1 ++ (m.run (m.run s is).2 js).1, (m.run (m.run s is).2 js).2)
  | _, [], _ => rfl
  | s, i :: is, js => by
    rw [List.cons_append, run_cons, run_append m (m s i).2 is js]
    rfl

/-- Every input is allowed in the state it meets. -/
def Allows (m : Machine σ ι ω) (ok : σ → ι → Prop) : σ → List ι → Prop
  | _, [] => True
  | s, i :: is => ok s i ∧ Allows m ok (m s i).2 is

/-- **Simulation**: on an allowed input, related states answer alike and stay related. -/
def Simulates (m : Machine σ ι ω) (n : Machine τ ι ω) (ok : τ → ι → Prop) (R : σ → τ → Prop) : Prop :=
  ∀ s t i, R s t → ok t i → (m s i).1 = (n t i).1 ∧ R (m s i).2 (n t i).2

/-- **Simulated runs answer alike.** -/
theorem Simulates.run {m : Machine σ ι ω} {n : Machine τ ι ω} {ok : τ → ι → Prop} {R : σ → τ → Prop}
    (h : m.Simulates n ok R) : ∀ (is : List ι) {s : σ} {t : τ}, R s t → n.Allows ok t is →
    (m.run s is).1 = (n.run t is).1 ∧ R (m.run s is).2 (n.run t is).2
  | [], _, _, hR, _ => ⟨rfl, hR⟩
  | i :: is, s, t, hR, hok => by
    obtain ⟨ho, hR'⟩ := h s t i hR hok.1
    obtain ⟨hos, hR''⟩ := h.run is hR' hok.2
    rw [run_cons, run_cons, ho, hos]
    exact ⟨rfl, hR''⟩

/-! ## Refused inputs -/

section Filters

variable {κ υ : Type}

/-- `m` refuses the inputs that `f` drops, with the answer `err`; on the others it is `n`. -/
structure Filters (m : Machine σ ι ω) (n : Machine τ κ υ) (f : ι → Option κ) (g : υ → ω) (err : ω)
    (R : σ → τ → Prop) : Prop where
  refused : ∀ {s t i}, R s t → f i = none → m s i = (err, s)
  passed  : ∀ {s t i k}, R s t → f i = some k → (m s i).1 = g (n t k).1 ∧ R (m s i).2 (n t k).2

/-- The answers to the inputs that `f` keeps, with `err` for each of the others. -/
def weave (f : ι → Option κ) (g : υ → ω) (err : ω) : List ι → List υ → List ω
  | [], _ => []
  | i :: is, os =>
    match f i with
    | none => err :: weave f g err is os
    | some _ => os.head?.toList.map g ++ weave f g err is os.tail

variable {m : Machine σ ι ω} {n : Machine τ κ υ} {f : ι → Option κ} {g : υ → ω} {err : ω} {R : σ → τ → Prop}

/-- **A run with refused inputs** is the other machine's run of the inputs that are kept. -/
theorem Filters.run (h : m.Filters n f g err R) : ∀ (is : List ι) {s : σ} {t : τ}, R s t →
    (m.run s is).1 = weave f g err is (n.run t (is.filterMap f)).1 ∧
      R (m.run s is).2 (n.run t (is.filterMap f)).2
  | [], _, _, hR => ⟨rfl, hR⟩
  | i :: is, s, t, hR => by
    rw [run_cons, weave]
    cases hi : f i with
    | none =>
      obtain ⟨hos, hR'⟩ := h.run is hR
      rw [h.refused hR hi, List.filterMap_cons_none hi]
      exact ⟨congrArg _ hos, hR'⟩
    | some k =>
      obtain ⟨ho, hnext⟩ := h.passed hR hi
      obtain ⟨hos, hR'⟩ := h.run is hnext
      rw [List.filterMap_cons_some hi, run_cons, ho, hos]
      exact ⟨rfl, hR'⟩

end Filters

end Machine
