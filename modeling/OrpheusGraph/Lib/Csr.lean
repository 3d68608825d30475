import Mathlib

/-! Rows of a list cut by an offset table. When every row holds only entries of its own
key, a row is exactly the entries of that key. -/
namespace Csr
variable {α : Type}

structure Offsets (n total : Nat) (offsets : List Nat) : Prop where
  length : offsets.length = n + 1
  first : offsets[0]? = some 0
  rising : ∀ i < n, ∀ a b, offsets[i]? = some a → offsets[i+1]? = some b → a ≤ b
  last : offsets[n]? = some total

structure Grouped (key : α → Nat) (n : Nat) (xs : List α) (offsets : List Nat) : Prop
    extends Offsets n xs.length offsets where
  row : ∀ i < n, ∀ lo hi, offsets[i]? = some lo → offsets[i+1]? = some hi →
    ∀ k, lo ≤ k → k < hi → ∀ x, xs[k]? = some x → key x = i

theorem Offsets.entry {n total : Nat} {offsets : List Nat} (g : Offsets n total offsets) {i : Nat}
    (inside : i ≤ n) : ∃ a, offsets[i]? = some a := by
  have bound : i < offsets.length := by rw [g.length]; omega
  exact ⟨_,List.getElem?_eq_getElem bound⟩

theorem Offsets.bounded {n total : Nat} {offsets : List Nat} (g : Offsets n total offsets) {i a : Nat}
    (inside : i ≤ n) (read : offsets[i]? = some a) : a ≤ total := by
  induction inside using Nat.decreasingInduction generalizing a with
  | self =>
    rw [g.last] at read
    exact (Option.some.inj read).ge
  | of_succ i below ih =>
    obtain ⟨b,next⟩ := g.entry (i := i + 1) below
    exact (g.rising i below a b read next).trans (ih next)

namespace Grouped
variable {key : α → Nat} {n : Nat} {xs : List α} {offsets : List Nat}

def slice (xs : List α) (lo hi : Nat) : List α := (xs.drop lo).take (hi - lo)

theorem slicesCover (g : Grouped key n xs offsets) {i a : Nat} (inside : i ≤ n) (read : offsets[i]? = some a)
    (rows : Nat → List α)
    (exact : ∀ j < i, ∀ lo hi, offsets[j]? = some lo → offsets[j+1]? = some hi → rows j = slice xs lo hi) :
    (List.range i).flatMap rows = xs.take a := by
  induction i generalizing a with
  | zero =>
    rw [g.first] at read
    cases Option.some.inj read
    simp
  | succ i ih =>
    obtain ⟨b,before⟩ := g.entry (i := i) (by omega)
    have order := g.rising i (by omega) b a before read
    rw [List.range_succ,List.flatMap_append,ih (by omega) before (fun j below => exact j (by omega))]
    simp only [List.flatMap_cons,List.flatMap_nil,List.append_nil]
    rw [exact i (by omega) b a before read,slice]
    have split : a = b + (a - b) := by omega
    rw [split,List.take_add,Nat.add_sub_cancel_left]

/- The row of `i` is the list of all entries with key `i`, in order. -/
theorem sliceExact (g : Grouped key n xs offsets) {i lo hi : Nat} (inside : i < n)
    (low : offsets[i]? = some lo) (high : offsets[i+1]? = some hi) :
    slice xs lo hi = xs.filter (fun x => key x == i) := by
  let rows : Nat → List α := fun j => match offsets[j]?, offsets[j+1]? with
    | some a, some b => slice xs a b
    | _, _ => []
  have exact : ∀ j < n, ∀ a b, offsets[j]? = some a → offsets[j+1]? = some b → rows j = slice xs a b := by
    intro j _ a b left right
    simp only [rows,left,right]
  have cover := g.slicesCover (Nat.le_refl n) g.last rows exact
  rw [List.take_length] at cover
  have keyed : ∀ j < n, ∀ x ∈ rows j, key x = j := by
    intro j below x member
    obtain ⟨a,left⟩ := g.entry (i := j) (by omega)
    obtain ⟨b,right⟩ := g.entry (i := j + 1) (by omega)
    rw [exact j below a b left right,slice] at member
    obtain ⟨k,read⟩ := List.mem_iff_getElem?.mp member
    rw [List.getElem?_take] at read
    split at read <;> try contradiction
    rename_i short
    rw [List.getElem?_drop] at read
    exact g.row j below a b left right (a + k) (by omega) (by omega) x read
  have picked : ∀ j < n, (rows j).filter (fun x => key x == i) = if j = i then rows j else [] := by
    intro j below
    split
    · rename_i same
      refine List.filter_eq_self.mpr (fun x member => ?_)
      simpa [same] using keyed j below x member
    · rename_i other
      refine List.filter_eq_nil_iff.mpr (fun x member => ?_)
      rw [keyed j below x member]
      simpa using other
  have alone : ∀ k ≤ n, ((List.range k).flatMap rows).filter (fun x => key x == i) =
      if i < k then rows i else [] := by
    intro k below
    induction k with
    | zero => simp
    | succ k ih =>
      rw [List.range_succ,List.flatMap_append,List.filter_append,ih (by omega)]
      simp only [List.flatMap_cons,List.flatMap_nil,List.append_nil]
      rw [picked k (by omega)]
      rcases Nat.lt_trichotomy i k with before | same | after
      · rw [if_pos before,if_neg (by omega),if_pos (by omega),List.append_nil]
      · subst same
        rw [if_neg (by omega),if_pos rfl,if_pos (by omega),List.nil_append]
      · rw [if_neg (by omega),if_neg (by omega),if_neg (by omega),List.nil_append]
  have row := alone n (Nat.le_refl n)
  rw [cover,if_pos inside,exact i inside lo hi low high] at row
  exact row.symm

end Grouped

theorem filterMapRange {β : Type} (xs : List α) (h : α → Option β) (lo c : Nat) :
    (List.range' lo c).filterMap (fun k => (xs[k]?).bind h) = ((xs.drop lo).take c).filterMap h := by
  induction c generalizing lo with
  | zero => simp
  | succ c ih =>
    rw [List.range'_succ,List.filterMap_cons,ih]
    rcases Nat.lt_or_ge lo xs.length with inside | outside
    · rw [List.drop_eq_getElem_cons inside,List.take_succ_cons,List.filterMap_cons,
        List.getElem?_eq_getElem inside,Option.bind_some]
    · rw [List.getElem?_eq_none outside,List.drop_eq_nil_of_le outside,
        List.drop_eq_nil_of_le (by omega)]
      simp

/-! Writing the table: count each key one place up, then sum from the left. -/
def countInto (n : Nat) (keys : List Nat) : List Nat :=
  keys.foldl (fun v k => v.modify (k + 1) (· + 1)) (List.replicate (n + 1) 0)

def prefixSums (n : Nat) (v : List Nat) : List Nat :=
  (List.range n).foldl (fun v i => v.modify (i + 1) (· + v.getD i 0)) v

theorem countIntoEntry (n : Nat) (keys : List Nat) {j : Nat} (inside : j ≤ n) :
    (countInto n keys)[j]? = some (keys.countP (fun k => k + 1 == j)) := by
  have steps : ∀ (keys : List Nat) (v : List Nat) (c : Nat), v[j]? = some c →
      (keys.foldl (fun v k => v.modify (k + 1) (· + 1)) v)[j]? =
        some (c + keys.countP (fun k => k + 1 == j)) := by
    intro keys
    induction keys with
    | nil => intro v c read; simpa using read
    | cons k rest ih =>
      intro v c read
      cases decEq (k + 1) j with
      | isTrue same =>
        have next : (v.modify (k + 1) (· + 1))[j]? = some (c + 1) := by
          simp [read,same]
        rw [List.foldl_cons,ih _ _ next,List.countP_cons]
        simp only [same,beq_self_eq_true,if_true]
        congr 1; omega
      | isFalse other =>
        have next : (v.modify (k + 1) (· + 1))[j]? = some c := by
          simp [read,other]
        rw [List.foldl_cons,ih _ _ next,List.countP_cons]
        simp [other]
  have zero : (List.replicate (n + 1) 0)[j]? = some 0 := by
    simp [List.getElem?_replicate]; omega
  simpa [countInto] using steps keys _ 0 zero

def offsetsOf (n : Nat) (keys : List Nat) : List Nat := prefixSums n (countInto n keys)

theorem countBelowSucc (keys : List Nat) (i : Nat) : keys.countP (fun k => decide (k < i + 1)) =
    keys.countP (fun k => k + 1 == i + 1) + keys.countP (fun k => decide (k < i)) := by
  induction keys with
  | nil => rfl
  | cons k rest ih =>
    simp only [List.countP_cons,ih,beq_iff_eq,decide_eq_true_eq]
    split <;> split <;> split <;> omega

theorem offsetsEntry (n : Nat) (keys : List Nat) {i : Nat} (inside : i ≤ n) :
    (offsetsOf n keys)[i]? = some (keys.countP (fun k => decide (k < i))) := by
  have sums : ∀ m ≤ n, ∀ j ≤ n,
      ((List.range m).foldl (fun v i => v.modify (i + 1) (· + v.getD i 0)) (countInto n keys))[j]? =
        some (if j ≤ m then keys.countP (fun k => decide (k < j)) else keys.countP (fun k => k + 1 == j)) := by
    intro m
    induction m with
    | zero =>
      intro _ j below
      rw [List.range_zero,List.foldl_nil,countIntoEntry n keys below]
      split
      · rename_i zero
        have start : j = 0 := by omega
        subst start
        simp
      · rfl
    | succ m ih =>
      intro room j below
      rw [List.range_succ,List.foldl_append,List.foldl_cons,List.foldl_nil,List.getElem?_modify]
      have here := ih (by omega) m (by omega)
      have there := ih (by omega) j below
      rw [if_pos (Nat.le_refl m)] at here
      rw [there]
      cases decEq (m + 1) j with
      | isTrue same =>
        subst same
        rw [if_neg (by omega),if_pos (Nat.le_refl _),List.getD_eq_getElem?_getD,here,countBelowSucc]
        simp only [Option.map_eq_map,Option.map_some,if_true,Option.getD_some]
      | isFalse other =>
        simp only [Option.map_eq_map,Option.map_some,if_neg other]
        rcases Nat.lt_or_ge m j with after | before
        · rw [if_neg (by omega),if_neg (by omega)]
        · rw [if_pos before,if_pos (by omega)]
  rw [offsetsOf,prefixSums,sums n (Nat.le_refl n) i inside,if_pos inside]

theorem offsetsLength (n : Nat) (keys : List Nat) : (offsetsOf n keys).length = n + 1 := by
  have summed : ∀ (is : List Nat) (v : List Nat),
      (is.foldl (fun v i => v.modify (i + 1) (· + v.getD i 0)) v).length = v.length := by
    intro is
    induction is with
    | nil => intro v; rfl
    | cons i is ih => intro v; rw [List.foldl_cons,ih,List.length_modify]
  have counted : ∀ (keys : List Nat) (v : List Nat),
      (keys.foldl (fun v k => v.modify (k + 1) (· + 1)) v).length = v.length := by
    intro keys
    induction keys with
    | nil => intro v; rfl
    | cons k keys ih => intro v; rw [List.foldl_cons,ih,List.length_modify]
  rw [offsetsOf,prefixSums,summed,countInto,counted,List.length_replicate]

/- The table depends on the keys alone, not on their order. -/
theorem offsetsOfPerm {n : Nat} {keys keys' : List Nat} (perm : keys.Perm keys') :
    offsetsOf n keys = offsetsOf n keys' := by
  refine List.ext_getElem? (fun i => ?_)
  rcases Nat.lt_or_ge n i with outside | inside
  · rw [List.getElem?_eq_none (by rw [offsetsLength]; omega),
      List.getElem?_eq_none (by rw [offsetsLength]; omega)]
  · rw [offsetsEntry n _ inside,offsetsEntry n _ inside,perm.countP_eq]

theorem sortedPlace {key : α → Nat} {xs : List α} (sorted : xs.Pairwise (fun a b => key a ≤ key b))
    {k : Nat} {x : α} (read : xs[k]? = some x) :
    (xs.map key).countP (fun v => decide (v < key x)) ≤ k ∧
      k < (xs.map key).countP (fun v => decide (v < key x + 1)) := by
  induction xs generalizing k with
  | nil => simp at read
  | cons y rest ih =>
    obtain ⟨least,tail⟩ := List.pairwise_cons.mp sorted
    cases k with
    | zero =>
      simp only [List.getElem?_cons_zero,Option.some.injEq] at read
      subst read
      have none : (rest.map key).countP (fun v => decide (v < key y)) = 0 := by
        refine List.countP_eq_zero.mpr (fun v member => ?_)
        obtain ⟨z,listed,rfl⟩ := List.mem_map.mp member
        simpa using least z listed
      simp [none]
    | succ k =>
      simp only [List.getElem?_cons_succ] at read
      obtain ⟨low,high⟩ := ih tail read
      have order := least x (List.mem_of_getElem? read)
      simp only [List.map_cons,List.countP_cons,decide_eq_true_eq]
      constructor
      · split <;> omega
      · rw [if_pos (by omega)]; omega

/- A sorted list with the table of its keys is grouped. -/
theorem groupedOfSorted {key : α → Nat} {n : Nat} {xs : List α}
    (sorted : xs.Pairwise (fun a b => key a ≤ key b)) (bound : ∀ x ∈ xs, key x < n) :
    Grouped key n xs (offsetsOf n (xs.map key)) where
  length := offsetsLength n _
  first := by rw [offsetsEntry n _ (Nat.zero_le n)]; simp
  rising i inside a b low high := by
    rw [offsetsEntry n _ (by omega)] at low high
    cases Option.some.inj low
    cases Option.some.inj high
    exact List.countP_mono_left (fun k _ below => by simp only [decide_eq_true_eq] at below ⊢; omega)
  last := by
    rw [offsetsEntry n _ (Nat.le_refl n)]
    have all : (xs.map key).countP (fun k => decide (k < n)) = (xs.map key).length := by
      refine List.countP_eq_length.mpr (fun k member => ?_)
      obtain ⟨x,listed,rfl⟩ := List.mem_map.mp member
      simpa using bound x listed
    rw [all,List.length_map]
  row i inside lo hi low high k lower upper x read := by
    rw [offsetsEntry n _ (by omega)] at low high
    cases Option.some.inj low
    cases Option.some.inj high
    obtain ⟨least,most⟩ := sortedPlace sorted read
    have mono : ∀ a b, a ≤ b → (xs.map key).countP (fun v => decide (v < a)) ≤
        (xs.map key).countP (fun v => decide (v < b)) := by
      intro a b order
      exact List.countP_mono_left (fun v _ below => by simp only [decide_eq_true_eq] at below ⊢; omega)
    rcases Nat.lt_trichotomy (key x) i with before | same | after
    · have early := mono (key x + 1) i (by omega)
      omega
    · exact same
    · have late := mono (i + 1) (key x) (by omega)
      omega

end Csr
