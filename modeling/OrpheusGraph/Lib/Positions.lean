import Mathlib

/-! Positions of the elements of a list that satisfy a predicate, kept as a side index
while the list grows at its end and its elements are rewritten in place. -/
namespace Positions
variable {α β : Type}

def positions (p : α → Bool) (xs : List α) : List Nat :=
  (List.range xs.length).filter (fun i => (xs[i]?).any p)

theorem positionsConcat (p : α → Bool) (xs : List α) (x : α) :
    positions p (xs ++ [x]) = positions p xs ++ if p x then [xs.length] else [] := by
  unfold positions
  rw [List.length_append,List.length_singleton,List.range_succ,List.filter_append]
  congr 1
  · refine List.filter_congr (fun i inside => ?_)
    rw [List.getElem?_append_left (List.mem_range.mp inside)]
  · simp [List.filter_singleton]

theorem positionsMap (p : α → Bool) (g : α → α) (same : ∀ x, p (g x) = p x) (xs : List α) :
    positions p (xs.map g) = positions p xs := by
  simp only [positions,List.length_map,List.getElem?_map,Option.any_map,same]

theorem positionsShift (p : α → Bool) (x : α) (xs : List α) :
    positions p (x :: xs) = (if p x then [0] else []) ++ (positions p xs).map (· + 1) := by
  unfold positions
  rw [List.length_cons,List.range_succ_eq_map,List.filter_cons,List.filter_map]
  simp [Function.comp_def]
  split <;> rfl

theorem positionsAll {p : α → Bool} (xs : List α) (all : ∀ x ∈ xs, p x = true) :
    positions p xs = List.range xs.length := by
  refine List.filter_eq_self.mpr (fun i inside => ?_)
  have bound := List.mem_range.mp inside
  simpa [List.getElem?_eq_getElem bound] using all _ (List.getElem_mem bound)

/- Reading the indexed elements back. -/
theorem filterMapPositions (p : α → Bool) (g : α → Option β) (xs : List α) :
    (positions p xs).filterMap (fun i => xs[i]?.bind g) = (xs.filter p).filterMap g := by
  induction xs with
  | nil => rfl
  | cons x xs ih =>
    rw [positionsShift,List.filterMap_append,List.filterMap_map,List.filter_cons]
    have tail : (fun i => (x :: xs)[i]?.bind g) ∘ (· + 1) = fun i => xs[i]?.bind g := by
      funext i; simp
    rw [tail,ih]
    cases p x with
    | false => simp
    | true => cases found : g x <;> simp [found]

/- Rewriting the indexed elements in place. -/
theorem modifyPositions (p : α → Bool) (g : α → α) (xs : List α) :
    (positions p xs).foldl (fun ys i => ys.modify i g) xs =
      xs.map (fun x => if p x then g x else x) := by
  have under : ∀ (is : List Nat) (x : α) (ys : List α),
      (is.map (· + 1)).foldl (fun ys i => ys.modify i g) (x :: ys) =
        x :: is.foldl (fun ys i => ys.modify i g) ys := by
    intro is x ys
    induction is generalizing ys with
    | nil => rfl
    | cons i is ih => simpa using ih (ys.modify i g)
  induction xs with
  | nil => rfl
  | cons x xs ih =>
    rw [positionsShift,List.foldl_append,List.map_cons]
    cases p x with
    | false => simpa [under] using ih
    | true => simpa [under] using ih

end Positions
