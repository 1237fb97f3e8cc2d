import Mathlib.Algebra.Group.Basic
import Mathlib.Algebra.Group.Nat.Defs
/-!
# Differences — a series and its second differences

A series is its second differences, once a value and a difference before it are known (`sum_second`).
Summing is additive (`sum_add`), and where the second differences are zero the series goes on in equal steps
(`sum_zeros`).
-/
namespace Differences

variable {α : Type} [AddCommGroup α]

/-- The second differences of a series, after the value `x` and the difference `d`. -/
def second (x d : α) : List α → List α
  | [] => []
  | y :: ys => (y - x - d) :: second y (y - x) ys

/-- The series with these second differences, after the value `x` and the difference `d`. -/
def sum (x d : α) : List α → List α
  | [] => []
  | a :: as => (x + (a + d)) :: sum (x + (a + d)) (a + d) as

/-- The last value and the last difference. -/
def last (x d : α) : List α → α × α
  | [] => (x, d)
  | y :: ys => last y (y - x) ys

@[simp] theorem length_second : ∀ (x d : α) (ys : List α), (second x d ys).length = ys.length
  | _, _, [] => rfl
  | _, _, _ :: _ => by rw [second, List.length_cons, List.length_cons, length_second]

@[simp] theorem length_sum : ∀ (x d : α) (as : List α), (sum x d as).length = as.length
  | _, _, [] => rfl
  | _, _, _ :: _ => by rw [sum, List.length_cons, List.length_cons, length_sum]

theorem last_concat : ∀ (x d : α) (ys : List α) (y : α), last x d (ys ++ [y]) = (y, y - (last x d ys).1)
  | _, _, [], _ => rfl
  | _, _, z :: ys, y => last_concat z _ ys y

/-- **A series is the sum of its second differences.** -/
theorem sum_second : ∀ (x d : α) (ys : List α), sum x d (second x d ys) = ys
  | _, _, [] => rfl
  | x, d, y :: ys => by
    rw [second, sum, sub_add_cancel, add_sub_cancel, sum_second]

theorem second_append : ∀ (x d : α) (ys zs : List α),
    second x d (ys ++ zs) = second x d ys ++ second (last x d ys).1 (last x d ys).2 zs
  | _, _, [], _ => rfl
  | x, d, y :: ys, zs => by
    rw [List.cons_append, second, second_append y (y - x) ys zs, second, last, List.cons_append]

theorem sum_append : ∀ (x d : α) (as bs : List α),
    sum x d (as ++ bs) = sum x d as ++ sum (last x d (sum x d as)).1 (last x d (sum x d as)).2 bs
  | _, _, [], _ => rfl
  | x, d, a :: as, bs => by
    rw [List.cons_append, sum, sum_append, sum, last, add_sub_cancel_left, List.cons_append]

/-- **Sums add up.** -/
theorem sum_add : ∀ (x d x' d' : α) (as bs : List α), as.length = bs.length →
    sum (x + x') (d + d') (List.zipWith (· + ·) as bs) = List.zipWith (· + ·) (sum x d as) (sum x' d' bs)
  | _, _, _, _, [], [], _ => rfl
  | x, d, x', d', a :: as, b :: bs, h => by
    have hdelta : a + b + (d + d') = a + d + (b + d') := add_add_add_comm a b d d'
    have hvalue : x + x' + (a + d + (b + d')) = x + (a + d) + (x' + (b + d')) := add_add_add_comm x x' _ _
    rw [List.zipWith_cons_cons, sum, hdelta, hvalue, sum_add _ _ _ _ as bs (Nat.succ.inj h), sum, sum,
      List.zipWith_cons_cons]

/-- **Without second differences** the series goes on in steps of the last difference. -/
theorem sum_zeros : ∀ (n : Nat) (x d : α),
    sum x d (List.replicate n 0) = (List.range n).map fun i => x + (i + 1) • d
  | 0, _, _ => rfl
  | n + 1, x, d => by
    have hfirst : x + (0 + 1) • d = x + d := by rw [Nat.zero_add, one_nsmul]
    have hlater : ∀ i : Nat, x + (i + 1 + 1) • d = x + d + (i + 1) • d := by
      intro i
      rw [succ_nsmul' d (i + 1), add_assoc]
    rw [List.replicate_succ, sum, zero_add, sum_zeros n (x + d) d, List.range_succ_eq_map, List.map_cons, List.map_map,
      hfirst]
    simp only [Function.comp_def, Nat.succ_eq_add_one, hlater]

end Differences
