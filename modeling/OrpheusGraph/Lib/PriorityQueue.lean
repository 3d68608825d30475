import OrpheusGraph.Lib.Sorting

/-! Priority queues. What is popped is an item that no other exceeds; which one, when
several tie, is left to the queue. -/
structure PriorityQueue (α : Type) (cmp : α → α → Ordering) where
  State : Type
  new : State
  push : State → α → State
  pop : State → Option (α × State)
  items : State → List α
  itemsNew : items new = []
  itemsPush : ∀ s x, (items (push s x)).Perm (x :: items s)
  popNone : ∀ s, pop s = none → items s = []
  popSome : ∀ s x rest, pop s = some (x,rest) → (items s).Perm (x :: items rest) ∧
    ∀ y ∈ items s, (cmp y x).isLE = true

namespace PriorityQueue
variable {α : Type} {cmp : α → α → Ordering}

/- A list of the items in the order in which they will be popped. -/
def arrange (cmp : α → α → Ordering) (items : List α) : List α :=
  items.mergeSort (fun a b => ((cmp b a).isLE : Bool))

def sorted (cmp : α → α → Ordering) [lawful : Std.TransCmp cmp] : PriorityQueue α cmp where
  State := List α
  new := []
  push items x := items ++ [x]
  pop items := match arrange cmp items with
    | [] => none
    | x :: rest => some (x,rest)
  items items := items
  itemsNew := rfl
  itemsPush items x := List.perm_append_singleton x items
  popNone items none := by
    cases listed : arrange cmp items with
    | nil => exact List.Perm.eq_nil (listed ▸ (List.mergeSort_perm items _).symm)
    | cons x rest => simp [listed] at none
  popSome items x rest some := by
    have swapped : Std.TransCmp (fun a b => cmp b a) := inferInstance
    have order : (arrange cmp items).Pairwise (fun a b => (cmp b a).isLE = true) :=
      Sorting.sortedBy swapped items
    have perm : (arrange cmp items).Perm items := List.mergeSort_perm items _
    cases listed : arrange cmp items with
    | nil => simp [listed] at some
    | cons y ys =>
      simp only [listed,Option.some.injEq,Prod.mk.injEq] at some
      obtain ⟨rfl,rfl⟩ := some
      rw [listed] at order perm
      refine ⟨perm.symm,fun z member => ?_⟩
      rcases List.mem_cons.mp (perm.mem_iff.mpr member) with rfl | later
      · rw [(Std.ReflCmp.compare_self : cmp z z = .eq)]; rfl
      · exact (List.pairwise_cons.mp order).1 z later

end PriorityQueue
