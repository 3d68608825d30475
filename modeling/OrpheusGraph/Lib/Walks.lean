import Mathlib.Data.Finset.Card
import Mathlib.Data.Finset.Dedup

/-! Walks of a relation whose nodes after the first satisfy a condition. One that is cut
short never comes back to a node, so it is no longer than there are nodes. -/
namespace Walks
variable {κ : Type} {R R' : κ → κ → Prop} {P P' : κ → Prop}

inductive Walk (R : κ → κ → Prop) (P : κ → Prop) : Nat → κ → κ → Prop where
  | here (u : κ) : Walk R P 0 u u
  | step {j : Nat} {u v w : κ} (edge : R u v) (ok : P v) (rest : Walk R P j v w) : Walk R P (j + 1) u w

theorem Walk.mono {j : Nat} {u v : κ} (walk : Walk R P j u v) (more : ∀ x y, R x y → R' x y)
    (weaker : ∀ x, P x → P' x) : Walk R' P' j u v := by
  induction walk with
  | here u => exact .here u
  | step edge ok _ ih => exact .step (more _ _ edge) (weaker _ ok) ih

theorem Walk.snoc {j : Nat} {u v w : κ} (walk : Walk R P j u v) (edge : R v w) (ok : P w) :
    Walk R P (j + 1) u w := by
  induction walk with
  | here u => exact .step edge ok (.here w)
  | step first inner _ ih => exact .step first inner (ih edge)

theorem Walk.last {j : Nat} {u v : κ} (walk : Walk R P (j + 1) u v) : P v := by
  generalize same : j + 1 = n at walk
  induction walk generalizing j with
  | here u => contradiction
  | @step i u w v edge ok rest ih =>
    cases i with
    | zero =>
      cases rest
      exact ok
    | succ i => exact ih rfl

/- Every node after the first is the last one or has an edge to another. -/
theorem Walk.inner {j : Nat} {u v : κ} (walk : Walk R P j u v) :
    Walk R (fun x => P x ∧ (x = v ∨ ∃ y, R x y)) j u v := by
  induction walk with
  | here u => exact .here u
  | step edge ok rest ih =>
    refine .step edge ⟨ok,?_⟩ ih
    cases rest with
    | here => exact .inl rfl
    | step next _ _ => exact .inr ⟨_,next⟩

/- Taken up at its last visit of `x`, a walk does not meet `x` again. -/
theorem Walk.lastVisit {j : Nat} {u v : κ} (walk : Walk R P j u v) (x : κ) :
    (∃ i, Walk R (fun y => P y ∧ y ≠ x) i u v) ∨ ∃ i, Walk R (fun y => P y ∧ y ≠ x) i x v := by
  induction walk with
  | here u => exact .inl ⟨0,.here u⟩
  | @step j u w v edge ok rest ih =>
    rcases ih with ⟨i,before⟩ | after
    · rcases em (w = x) with rfl | apart
      · exact .inr ⟨i,before⟩
      · exact .inl ⟨i + 1,.step edge ⟨ok,apart⟩ before⟩
    · exact .inr after

theorem Walk.leaves {j : Nat} {u v : κ} (walk : Walk R P j u v) :
    ∃ i, Walk R (fun y => P y ∧ y ≠ u) i u v := by
  rcases walk.lastVisit u with clear | clear
  · exact clear
  · exact clear

theorem Walk.short [DecidableEq κ] {nodes : Finset κ} {j : Nat} {u v : κ} (walk : Walk R P j u v)
    (inside : ∀ x, P x → x ∈ nodes) : ∃ i, i ≤ nodes.card ∧ Walk R P i u v := by
  -- The first node after `u` is not met again, so one node fewer is left for the rest.
  generalize size : nodes.card = n
  induction n generalizing nodes j u P with
  | zero =>
    cases walk with
    | here => exact ⟨0,Nat.le_refl 0,.here _⟩
    | @step _ _ w _ edge ok rest =>
      rw [Finset.card_eq_zero.mp size] at inside
      exact absurd (inside w ok) (Finset.notMem_empty w)
  | succ n ih =>
    cases walk with
    | here => exact ⟨0,Nat.zero_le _,.here _⟩
    | @step _ _ w _ edge ok rest =>
      obtain ⟨i,clear⟩ := rest.leaves
      have fewer : (nodes.erase w).card = n := by rw [Finset.card_erase_of_mem (inside w ok),size,Nat.add_sub_cancel]
      obtain ⟨i,within,short⟩ := ih clear (fun x h => Finset.mem_erase.mpr ⟨h.2,inside x h.1⟩) fewer
      exact ⟨i + 1,Nat.succ_le_succ within,.step edge ok (short.mono (fun _ _ h => h) (fun _ h => h.1))⟩

end Walks
