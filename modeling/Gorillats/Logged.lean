import Mathlib.Init
/-!
# Logged — state actions that keep a log

A `Logged` action changes a state and answers as a `StateM` action does, and lists the events it meets on the way.
`erase` forgets the log.  `Meets` is its rule of pre- and postconditions: what the events, the answer and the state left
satisfy, from the states that satisfy a precondition.
-/

def Logged (ε σ α : Type) := σ → (α × σ) × List ε

namespace Logged

variable {ε σ α β : Type}

instance : Monad (Logged ε σ) where
  pure a := fun s => ((a, s), [])
  bind m k := fun s =>
    let ((a, s), es) := m s
    let (out, es') := k a s
    (out, es ++ es')

/-- A state action without events. -/
def act (m : StateM σ α) : Logged ε σ α := fun s => (m.run s, [])

/-- An event. -/
def emit (e : ε) : Logged ε σ Unit := fun s => (((), s), [e])

/-- The state itself as an event. -/
def observe : Logged σ σ Unit := fun s => (((), s), [s])

/-- The action without its log. -/
def erase (m : Logged ε σ α) : StateM σ α := fun s => (m s).1

/-- The events from the state `s` on. -/
def log (m : Logged ε σ α) (s : σ) : List ε := (m s).2

/-! ## Erasure -/

@[simp] theorem erase_pure (a : α) : erase (pure a : Logged ε σ α) = pure a := rfl

@[simp] theorem erase_bind (m : Logged ε σ α) (k : α → Logged ε σ β) :
    erase (m >>= k) = m.erase >>= fun a => (k a).erase := rfl

theorem erase_bind_run (m : Logged ε σ α) (k : α → Logged ε σ β) (s : σ) :
    erase (m >>= k) s = (k (m.erase s).1).erase (m.erase s).2 := rfl

@[simp] theorem erase_act (m : StateM σ α) : erase (act m : Logged ε σ α) = m := rfl

@[simp] theorem erase_observe : erase (observe : Logged σ σ Unit) = pure () := rfl

@[simp] theorem erase_ite {c : Prop} [Decidable c] (m m' : Logged ε σ α) :
    erase (if c then m else m') = if c then m.erase else m'.erase := apply_ite erase c m m'

/-! ## The log -/

@[simp] theorem log_pure (a : α) (s : σ) : log (pure a : Logged ε σ α) s = [] := rfl

@[simp] theorem log_bind (m : Logged ε σ α) (k : α → Logged ε σ β) (s : σ) :
    log (m >>= k) s = m.log s ++ (k (m.erase s).1).log (m.erase s).2 := rfl

@[simp] theorem log_act (m : StateM σ α) (s : σ) : log (act m : Logged ε σ α) s = [] := rfl

@[simp] theorem log_ite {c : Prop} [Decidable c] (m m' : Logged ε σ α) (s : σ) :
    log (if c then m else m') s = if c then m.log s else m'.log s := apply_ite (fun m => log m s) c m m'

/-! ## Pre- and postconditions -/

/-- From a state that satisfies `P`, every event satisfies `E`, and the answer and the state left satisfy `Q`. -/
def Meets (P : σ → Prop) (m : Logged ε σ α) (E : ε → Prop) (Q : α → σ → Prop) : Prop :=
  ∀ s, P s → (∀ e ∈ m.log s, E e) ∧ Q (m.erase s).1 (m.erase s).2

section Meets

variable {P : σ → Prop} {E : ε → Prop} {Q : α → σ → Prop} {R : β → σ → Prop}

theorem meets_pure {a : α} (h : ∀ s, P s → Q a s) : Meets P (pure a : Logged ε σ α) E Q :=
  fun s hs => ⟨fun _ he => (List.not_mem_nil he).elim, h s hs⟩

theorem meets_act {m : StateM σ α} (h : ∀ s, P s → Q (m s).1 (m s).2) : Meets P (act m : Logged ε σ α) E Q :=
  fun s hs => ⟨fun _ he => (List.not_mem_nil he).elim, h s hs⟩

theorem meets_emit {e : ε} (he : E e) : Meets P (emit e : Logged ε σ Unit) E fun _ => P :=
  fun _ hs => ⟨List.forall_mem_singleton.2 he, hs⟩

theorem meets_observe : Meets P (observe : Logged σ σ Unit) P fun _ => P :=
  fun _ hs => ⟨List.forall_mem_singleton.2 hs, hs⟩

theorem Meets.bind {m : Logged ε σ α} {k : α → Logged ε σ β} (hm : Meets P m E Q)
    (hk : ∀ a, Meets (Q a) (k a) E R) : Meets P (m >>= k) E R := by
  intro s hs
  obtain ⟨hE, hQ⟩ := hm s hs
  obtain ⟨hE', hR⟩ := hk _ _ hQ
  refine ⟨fun e he => ?_, hR⟩
  rw [log_bind, List.mem_append] at he
  exact he.elim (hE e) (hE' e)

theorem Meets.ite {m m' : Logged ε σ α} {c : Prop} [Decidable c] (hm : c → Meets P m E Q) (hm' : ¬ c → Meets P m' E Q) :
    Meets P (if c then m else m') E Q := by
  by_cases hc : c
  · rw [if_pos hc]
    exact hm hc
  · rw [if_neg hc]
    exact hm' hc

/-- What a precondition says of no state moves out of it. -/
theorem meets_and {m : Logged ε σ α} {p : Prop} (hm : p → Meets P m E Q) : Meets (fun s => p ∧ P s) m E Q :=
  fun s hs => hm hs.1 s hs.2

end Meets

end Logged
