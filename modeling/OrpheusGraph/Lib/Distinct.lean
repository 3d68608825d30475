import Mathlib

/-! Keeping the first item of every key. When the items come in groups and a key names its
group, the order of the groups does not decide what is kept. -/
namespace Distinct
variable {α κ ι : Type} [DecidableEq κ] (key : α → κ)

def see (s : List κ × List α) (x : α) : List κ × List α :=
  if key x ∈ s.1 then s else (key x :: s.1,s.2 ++ [x])

def firsts (xs : List α) : List α := (xs.foldl (see key) ([],[])).2

theorem seenFrom (xs : List α) (s : List κ × List α) (x : α) :
    x ∈ (xs.foldl (see key) s).2 ↔
      x ∈ s.2 ∨ (key x ∉ s.1 ∧ xs.find? (fun y => decide (key y = key x)) = some x) := by
  induction xs generalizing s with
  | nil => simp
  | cons y rest ih =>
    rw [List.foldl_cons,ih,see,List.find?_cons]
    by_cases old : key y ∈ s.1
    · rw [if_pos old]
      by_cases same : key y = key x
      · simp [same,same ▸ old]
      · simp [same]
    · rw [if_neg old]
      by_cases same : key y = key x
      · have fresh : key x ∉ s.1 := same ▸ old
        simp [same,fresh,eq_comm]
      · have other : key x ≠ key y := Ne.symm same
        have apart : x ≠ y := fun eq => same (congrArg key eq).symm
        simp [same,other,apart]

theorem memFirsts (xs : List α) (x : α) :
    x ∈ firsts key xs ↔ xs.find? (fun y => decide (key y = key x)) = some x := by
  rw [firsts,seenFrom]
  simp

theorem firstsKeys (xs : List α) : ((firsts key xs).map key).Nodup := by
  have keeps : ∀ (xs : List α) (s : List κ × List α), (s.2.map key).Nodup →
      (∀ k, k ∈ s.2.map key → k ∈ s.1) → ((xs.foldl (see key) s).2.map key).Nodup := by
    intro xs
    induction xs with
    | nil => exact fun _ once _ => once
    | cons y rest ih =>
      intro s once known
      rw [List.foldl_cons,see]
      by_cases old : key y ∈ s.1
      · rw [if_pos old]
        exact ih s once known
      · rw [if_neg old]
        refine ih _ ?_ ?_
        · have fresh := mt (known (key y)) old
          rw [List.map_append]
          exact List.nodup_append.mpr ⟨once,by simp,fun k member l alone same =>
            fresh (List.mem_singleton.mp alone ▸ same ▸ member)⟩
        · intro k member
          rw [List.map_append,List.mem_append] at member
          cases member with
          | inl before => exact List.mem_cons_of_mem _ (known k before)
          | inr last => exact List.mem_singleton.mp last ▸ List.mem_cons_self
  exact keeps xs ([],[]) List.nodup_nil (fun k member => by simp at member)

theorem firstsNodup (xs : List α) : (firsts key xs).Nodup := (firstsKeys key xs).of_map key

variable [DecidableEq ι] (group : κ → ι) {items : ι → List α}

theorem findGrouped (grouped : ∀ n, ∀ x ∈ items n, group (key x) = n) (listed : List ι) (k : κ) :
    (listed.flatMap items).find? (fun y => decide (key y = k)) =
      if group k ∈ listed then (items (group k)).find? (fun y => decide (key y = k)) else none := by
  induction listed with
  | nil => simp
  | cons n rest ih =>
    rw [List.flatMap_cons,List.find?_append,ih]
    by_cases same : group k = n
    · subst same
      cases (items (group k)).find? (fun y => decide (key y = k)) <;> simp
    · have absent : (items n).find? (fun y => decide (key y = k)) = none :=
        List.find?_eq_none.mpr (fun x member found =>
          same (of_decide_eq_true found ▸ grouped n x member))
      simp [absent,same]

theorem firstsGrouped (grouped : ∀ n, ∀ x ∈ items n, group (key x) = n) {listed listed' : List ι}
    (perm : listed.Perm listed') :
    (firsts key (listed.flatMap items)).Perm (firsts key (listed'.flatMap items)) := by
  refine (List.perm_ext_iff_of_nodup (firstsNodup key _) (firstsNodup key _)).mpr (fun x => ?_)
  rw [memFirsts,memFirsts,findGrouped key group grouped,findGrouped key group grouped]
  simp only [perm.mem_iff]

end Distinct
