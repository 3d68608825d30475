import Mathlib.Algebra.Order.BigOperators.Group.Finset
import Mathlib.Algebra.Order.Field.Basic
import Mathlib.Data.Matrix.Mul
import Mathlib.Tactic.FieldSimp

/-! A random walk that now and then jumps anywhere. The law of its position after some steps
from a uniform start has mass one, and no state is less likely than a jump makes it. -/
namespace Chain
open Matrix Finset
variable {K S : Type} [Field K] [Fintype S]

/- With `d` a step of `P`, otherwise a jump. -/
def damped (d : K) (P : Matrix S S K) : Matrix S S K := fun i j => (1 - d) / Fintype.card S + d * P i j

def uniform : S → K := fun _ => 1 / Fintype.card S

/- The law after `k` steps of `M`. -/
def after [DecidableEq S] (M : Matrix S S K) (k : Nat) : S → K := uniform ᵥ* M^k

variable {P M : Matrix S S K} {d : K} {x : S → K}

theorem rowsSum : M *ᵥ 1 = 1 ↔ ∀ i, ∑ j, M i j = 1 := by simp [funext_iff,mulVec,dotProduct]

theorem massKept (rows : M *ᵥ 1 = 1) : ∑ j, (x ᵥ* M) j = ∑ i, x i := by
  have same : (x ᵥ* M) ⬝ᵥ 1 = x ⬝ᵥ 1 := by rw [← dotProduct_mulVec,rows]
  simpa only [dotProduct_one] using same

theorem dampedRows [CharZero K] [Nonempty S] (rows : P *ᵥ 1 = 1) : damped d P *ᵥ 1 = 1 := by
  have size : (Fintype.card S : K) ≠ 0 := Nat.cast_ne_zero.mpr Fintype.card_ne_zero
  refine rowsSum.mpr (fun i => ?_)
  simp only [damped,sum_add_distrib,sum_const,card_univ,nsmul_eq_mul,← mul_sum,rowsSum.mp rows i]
  field_simp
  ring

/- One step, for a law of mass one: what jumps, and what walks. -/
theorem dampedStep (mass : ∑ i, x i = 1) (j : S) :
    (x ᵥ* damped d P) j = (1 - d) / Fintype.card S + d * (x ᵥ* P) j := by
  simp only [vecMul,dotProduct,damped,mul_add,sum_add_distrib,← sum_mul,mass,one_mul,mul_sum]
  congr 1
  exact sum_congr rfl (fun i _ => mul_left_comm _ _ _)

section after
variable [DecidableEq S]

@[simp] theorem afterZero (M : Matrix S S K) : after M 0 = uniform := by simp [after]

@[simp] theorem afterSucc (M : Matrix S S K) (k : Nat) : after M (k+1) = after M k ᵥ* M := by
  rw [after,pow_succ,← vecMul_vecMul,after]

theorem massAfter [CharZero K] [Nonempty S] (rows : M *ᵥ 1 = 1) (k : Nat) : ∑ i, after M k i = 1 := by
  induction k with
  | zero => simp [uniform]
  | succ k ih => rw [afterSucc,massKept rows,ih]

end after

/-! Over an ordered field. -/
section ordered
variable [LinearOrder K] [IsStrictOrderedRing K] [Nonempty S]

omit [Nonempty S] in
theorem jumpsBelow (mass : ∑ i, x i = 1) (start : ∀ i, 0 ≤ x i) (law : ∀ i j, 0 ≤ P i j) (up : 0 ≤ d) (j : S) :
    (1 - d) / Fintype.card S ≤ (x ᵥ* damped d P) j := by
  rw [dampedStep mass]
  refine le_add_of_nonneg_right (mul_nonneg up ?_)
  exact sum_nonneg (fun i _ => mul_nonneg (start i) (law i j))

theorem afterBelow [DecidableEq S] (rows : P *ᵥ 1 = 1) (law : ∀ i j, 0 ≤ P i j) (up : 0 ≤ d) (down : d ≤ 1) (k : Nat) (j : S) :
    (1 - d) / Fintype.card S ≤ after (damped d P) k j := by
  induction k generalizing j with
  | zero =>
    rw [afterZero,uniform]
    exact div_le_div_of_nonneg_right (sub_le_self 1 up) (Nat.cast_nonneg _)
  | succ k ih =>
    have start : ∀ i, 0 ≤ after (damped d P) k i := fun i =>
      (div_nonneg (sub_nonneg.mpr down) (Nat.cast_nonneg _)).trans (ih i)
    rw [afterSucc]
    exact jumpsBelow (massAfter (dampedRows rows) k) start law up j

/- Somewhere there is at least the average. -/
theorem someAverage (mass : ∑ i, x i = 1) : ∃ i, 1 / (Fintype.card S : K) ≤ x i := by
  have size : (Fintype.card S : K) ≠ 0 := Nat.cast_ne_zero.mpr Fintype.card_ne_zero
  obtain ⟨i,_,above⟩ := exists_le_of_sum_le (s := univ) (f := fun _ : S => 1 / (Fintype.card S : K)) (g := x)
    univ_nonempty (by simp [mass,size])
  exact ⟨i,above⟩

end ordered
end Chain
