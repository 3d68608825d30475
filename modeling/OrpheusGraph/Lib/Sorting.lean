import Mathlib

/-! Sorting by a comparison. The order in which the items arrive shows in the result only
where the comparison ties two different ones. -/
namespace Sorting
variable {α κ : Type} {cmp : α → α → Ordering}

theorem sortedBy (lawful : Std.TransCmp cmp) (xs : List α) :
    (xs.mergeSort (fun a b => (cmp a b).isLE)).Pairwise (fun a b => (cmp a b).isLE = true) := by
  refine List.pairwise_mergeSort (fun a b c => Std.TransCmp.isLE_trans) (fun a b => ?_) xs
  rw [Bool.or_eq_true]
  cases left : (cmp a b).isLE with
  | true => exact .inl rfl
  | false =>
    have after := Std.OrientedCmp.lt_of_not_isLE (show ¬ (cmp a b).isLE = true by simp [left])
    exact .inr (by rw [after]; rfl)

theorem tieOfBoth (lawful : Std.TransCmp cmp) {a b : α} (le : (cmp a b).isLE = true)
    (ge : (cmp b a).isLE = true) : cmp a b = .eq := by
  have swapped : cmp a b = (cmp b a).swap := Std.OrientedCmp.eq_swap
  cases result : cmp a b with
  | eq => rfl
  | lt => rw [result] at swapped; cases back : cmp b a <;> simp [back] at swapped ge
  | gt => simp [result] at le

theorem sortedUnique (lawful : Std.TransCmp cmp) {xs ys : List α} (perm : xs.Perm ys)
    (ties : ∀ a ∈ xs, ∀ b ∈ xs, cmp a b = .eq → a = b) :
    xs.mergeSort (fun a b => (cmp a b).isLE) = ys.mergeSort (fun a b => (cmp a b).isLE) := by
  have sorted := (List.mergeSort_perm xs (fun a b => (cmp a b).isLE)).trans
    (perm.trans (List.mergeSort_perm ys (fun a b => (cmp a b).isLE)).symm)
  refine sorted.eq_of_pairwise (fun a b left right le ge => ?_) (sortedBy lawful xs) (sortedBy lawful ys)
  exact ties a (List.mem_mergeSort.mp left) b (perm.mem_iff.mpr (List.mem_mergeSort.mp right))
    (tieOfBoth lawful le ge)

/- A comparison that ends with a key no two items share. -/
theorem sortedUniqueKey (lawful : Std.TransCmp cmp) {xs ys : List α} (perm : xs.Perm ys)
    {key : α → κ} (distinct : (xs.map key).Nodup) (tied : ∀ a b, cmp a b = .eq → key a = key b) :
    xs.mergeSort (fun a b => (cmp a b).isLE) = ys.mergeSort (fun a b => (cmp a b).isLE) :=
  sortedUnique lawful perm (fun a left b right same =>
    List.inj_on_of_nodup_map distinct left right (tied a b same))

/-! Where different items tie, a stable sort leaves them as they came. -/
def tied (cmp : α → α → Ordering) (a b : α) : Bool := cmp a b == .eq

theorem tiedSorted (lawful : Std.TransCmp cmp) (xs : List α) (a : α) :
    (xs.mergeSort (fun a b => (cmp a b).isLE)).filter (tied cmp a) = xs.filter (tied cmp a) := by
  have among : (xs.filter (tied cmp a)).Pairwise (fun b c => (cmp b c).isLE = true) := by
    refine List.pairwise_of_forall_mem_list (fun b left c right => ?_)
    have first := eq_of_beq (List.mem_filter.mp left).2
    have second := eq_of_beq (List.mem_filter.mp right).2
    rw [Std.TransCmp.congr_left (Std.OrientedCmp.eq_comm.mp first),second]
    rfl
  have total : ∀ b c, ((cmp b c).isLE || (cmp c b).isLE) = true := by
    intro b c
    rw [(Std.OrientedCmp.eq_swap : cmp c b = (cmp b c).swap)]
    cases cmp b c <;> rfl
  have kept := (List.sublist_mergeSort (fun b c d => Std.TransCmp.isLE_trans) total among
    List.filter_sublist).filter (tied cmp a)
  rw [List.filter_filter] at kept
  simp only [Bool.and_self] at kept
  exact (kept.eq_of_length ((List.mergeSort_perm xs _).filter _).length_eq.symm).symm

theorem sortedDetermined (lawful : Std.TransCmp cmp) {xs ys : List α} (perm : xs.Perm ys)
    (left : xs.Pairwise (fun a b => (cmp a b).isLE = true)) (right : ys.Pairwise (fun a b => (cmp a b).isLE = true))
    (same : ∀ a ∈ xs, xs.filter (tied cmp a) = ys.filter (tied cmp a)) : xs = ys := by
  induction xs generalizing ys with
  | nil => exact perm.nil_eq
  | cons x xs ih =>
    have self : ∀ a, tied cmp a a = true := fun a => beq_iff_eq.mpr Std.ReflCmp.compare_self
    cases ys with
    | nil => exact absurd perm.eq_nil (List.cons_ne_nil x xs)
    | cons y ys =>
      have tie : tied cmp x y = true := by
        have below : (cmp x y).isLE = true := by
          rcases List.mem_cons.mp (perm.mem_iff.mpr List.mem_cons_self) with rfl | later
          · rw [eq_of_beq (self y)]
            rfl
          · exact (List.pairwise_cons.mp left).1 y later
        have above : (cmp y x).isLE = true := by
          rcases List.mem_cons.mp (perm.mem_iff.mp List.mem_cons_self) with rfl | later
          · rw [eq_of_beq (self x)]
            rfl
          · exact (List.pairwise_cons.mp right).1 x later
        exact beq_iff_eq.mpr (tieOfBoth lawful below above)
      have heads := same x List.mem_cons_self
      rw [List.filter_cons_of_pos (self x),List.filter_cons_of_pos tie] at heads
      obtain ⟨rfl,_⟩ := List.cons.inj heads
      refine congrArg (x :: ·) (ih perm.cons_inv (List.pairwise_cons.mp left).2 (List.pairwise_cons.mp right).2
        (fun a member => ?_))
      have whole := same a (List.mem_cons_of_mem x member)
      rw [List.filter_cons,List.filter_cons] at whole
      split at whole
      · exact (List.cons.inj whole).2
      · exact whole

theorem stableUnique (lawful : Std.TransCmp cmp) {xs ys : List α} (perm : xs.Perm ys)
    (same : ∀ a ∈ xs, xs.filter (tied cmp a) = ys.filter (tied cmp a)) :
    xs.mergeSort (fun a b => (cmp a b).isLE) = ys.mergeSort (fun a b => (cmp a b).isLE) := by
  refine sortedDetermined lawful ((List.mergeSort_perm xs _).trans (perm.trans (List.mergeSort_perm ys _).symm))
    (sortedBy lawful xs) (sortedBy lawful ys) (fun a member => ?_)
  rw [tiedSorted lawful,tiedSorted lawful]
  exact same a (List.mem_mergeSort.mp member)

/- What stands among the first `k` is what fewer than `k` items come before. -/
theorem memTakeSorted (lawful : Std.TransCmp cmp) {xs : List α} (once : xs.Nodup)
    (ties : ∀ a ∈ xs, ∀ b ∈ xs, cmp a b = .eq → a = b) (k : Nat) {x : α} (member : x ∈ xs) :
    x ∈ (xs.mergeSort (fun a b => (cmp a b).isLE)).take k ↔ xs.countP (fun y => cmp y x == .lt) < k := by
  have perm := List.mergeSort_perm xs (fun a b => (cmp a b).isLE)
  have sorted := sortedBy lawful xs
  rw [← perm.countP_eq]
  generalize xs.mergeSort (fun a b => (cmp a b).isLE) = ys at perm sorted
  obtain ⟨before,after,rfl⟩ := List.append_of_mem (perm.mem_iff.mpr member)
  have distinct := List.nodup_append.mp (perm.nodup_iff.mpr once)
  have among : ∀ y ∈ before ++ x :: after, y ∈ xs := fun y listed => perm.mem_iff.mp listed
  have earlier : before.countP (fun y => cmp y x == .lt) = before.length := by
    refine List.countP_eq_length.mpr (fun y listed => ?_)
    have le := (List.pairwise_append.mp sorted).2.2 y listed x List.mem_cons_self
    have apart : cmp y x ≠ .eq := fun tie =>
      distinct.2.2 y listed x List.mem_cons_self
        (ties y (among y (List.mem_append_left _ listed)) x member tie)
    cases result : cmp y x with
    | lt => rfl
    | eq => exact absurd result apart
    | gt => rw [result] at le; cases le
  have later : (x :: after).countP (fun y => cmp y x == .lt) = 0 := by
    refine List.countP_eq_zero.mpr (fun y listed less => ?_)
    have reversed := Std.OrientedCmp.gt_of_lt (eq_of_beq less)
    rcases List.mem_cons.mp listed with rfl | rest
    · rw [(Std.ReflCmp.compare_self : cmp y y = .eq)] at reversed
      cases reversed
    · have le := (List.pairwise_cons.mp (List.pairwise_append.mp sorted).2.1).1 y rest
      rw [reversed] at le
      cases le
  rw [List.countP_append,earlier,later,Nat.add_zero]
  constructor
  · intro taken
    by_contra beyond
    rw [List.take_append_of_le_length (Nat.le_of_not_lt beyond)] at taken
    exact distinct.2.2 x (List.mem_of_mem_take taken) x List.mem_cons_self rfl
  · intro within
    obtain ⟨more,rfl⟩ := Nat.exists_eq_add_of_lt within
    rw [List.take_append]
    exact List.mem_append_right _ (by simp [show before.length + more + 1 - before.length = more + 1 by omega])

/- Descending by a rank, then ascending by a key. -/
def rankedCmp {β κ : Type} [Ord κ] (order : β → β → Ordering) (rank : α → β) (key : α → κ) (a b : α) :
    Ordering := (order (rank b) (rank a)).then (compare (key a) (key b))

section ranked
variable {β : Type} [Ord κ] {order : β → β → Ordering} {rank : α → β} {key : α → κ}

theorem rankedLawful [Std.TransOrd κ] (lawful : Std.TransCmp order) :
    Std.TransCmp (rankedCmp order rank key) := by
  have flipped : Std.TransCmp (fun x y => order y x) := inferInstance
  let ord : Ord β := ⟨fun x y => order y x⟩
  have ordered : Std.TransOrd β := flipped
  exact inferInstanceAs (Std.TransCmp (compareLex (compareOn rank) (compareOn key)))

theorem rankedTied [Std.LawfulEqOrd κ] {a b : α} (tied : rankedCmp order rank key a b = .eq) :
    key a = key b := Std.LawfulEqOrd.eq_of_compare (Ordering.then_eq_eq.mp tied).2

end ranked
end Sorting
