import Mathlib.Data.List.Basic

/-! Checks that stop at the first defect. Each rule says exactly when a check passes, so
that a validator built from checks is characterised by their conditions. -/
namespace Checked
variable {ε σ α β : Type}

def refuse (bad : Prop) [Decidable bad] (e : ε) : Except ε Unit := if bad then .error e else .ok ()

def need (e : ε) : Option α → Except ε α
  | none => .error e
  | some a => .ok a

@[simp] theorem refuseOk {bad : Prop} [Decidable bad] {e : ε} {u : Unit} :
    refuse bad e = .ok u ↔ ¬bad := by
  unfold refuse
  split
  · rename_i holds
    simp [holds]
  · rename_i fails
    simp [fails]

@[simp] theorem needOk {e : ε} {x : Option α} {a : α} : need e x = .ok a ↔ x = some a := by
  cases x with
  | none => simp [need]
  | some b => simp [need]

@[simp] theorem bindOk {x : Except ε α} {f : α → Except ε β} {b : β} :
    (x >>= f) = .ok b ↔ ∃ a, x = .ok a ∧ f a = .ok b := by
  cases x with
  | error e => simp [bind,Except.bind]
  | ok a => simp [bind,Except.bind]

theorem forMOk {f : α → Except ε Unit} {xs : List α} {u : Unit} :
    forM xs f = .ok u ↔ ∀ x ∈ xs, f x = .ok () := by
  induction xs with
  | nil => simp [pure,Except.pure]
  | cons x xs ih =>
    rw [List.forM_cons,bindOk]
    constructor
    · rintro ⟨a,first,rest⟩ y member
      rcases List.mem_cons.mp member with rfl | later
      · exact first
      · exact ih.mp rest y later
    · intro all
      exact ⟨(),all x List.mem_cons_self,ih.mpr (fun y later => all y (List.mem_cons_of_mem x later))⟩

/-! A stateful sweep over `0..n`. `I k` holds of the state before step `k`, and that
step passes exactly when `G k` does. -/
section sweep
variable {f : σ → Nat → Except ε σ} {I : Nat → σ → Prop} {G : Nat → Prop} {s : σ} {n : Nat}

theorem sweepSucc (f : σ → Nat → Except ε σ) (s : σ) (n : Nat) :
    (List.range (n+1)).foldlM f s = (List.range n).foldlM f s >>= fun t => f t n := by
  rw [List.range_succ,List.foldlM_append]
  refine bind_congr (fun t => ?_)
  simp only [List.foldlM_cons,List.foldlM_nil,bind_pure]

theorem sweepPasses (start : I 0 s)
    (pass : ∀ k < n, ∀ s, I k s → G k → ∃ t, f s k = .ok t ∧ I (k+1) t)
    (all : ∀ k < n, G k) : ∃ t, (List.range n).foldlM f s = .ok t ∧ I n t := by
  induction n with
  | zero => exact ⟨s,rfl,start⟩
  | succ n ih =>
    obtain ⟨t,run,holds⟩ := ih (fun k before => pass k (by omega)) (fun k before => all k (by omega))
    obtain ⟨t',last,next⟩ := pass n (by omega) t holds (all n (by omega))
    refine ⟨t',?_,next⟩
    rw [sweepSucc,run]
    exact last

theorem sweepSound (start : I 0 s)
    (sound : ∀ k < n, ∀ s t, I k s → f s k = .ok t → G k ∧ I (k+1) t)
    {t : σ} (run : (List.range n).foldlM f s = .ok t) : I n t ∧ ∀ k < n, G k := by
  induction n generalizing t with
  | zero =>
    cases run
    exact ⟨start,fun k before => by omega⟩
  | succ n ih =>
    rw [sweepSucc,bindOk] at run
    obtain ⟨mid,first,last⟩ := run
    obtain ⟨holds,earlier⟩ := ih (fun k before => sound k (by omega)) first
    obtain ⟨here,next⟩ := sound n (by omega) mid t holds last
    refine ⟨next,fun k before => ?_⟩
    rcases Nat.lt_succ_iff_lt_or_eq.mp before with early | rfl
    · exact earlier k early
    · exact here

end sweep
end Checked
