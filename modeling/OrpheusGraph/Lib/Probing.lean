import Mathlib

/-! Open addressing with linear probing over `m` cells. A probe starts at a home cell and
walks cyclically until it hits, meets an empty cell, or has looked at every cell. -/
namespace Probing
variable {α : Type}

inductive Outcome (α : Type) where
  | found (a : α)
  | empty
  | exhausted
  deriving DecidableEq, Repr

def walk (cell : Nat → Option α) (hit : α → Bool) (m : Nat) : Nat → Nat → Outcome α
  | 0, _ => .exhausted
  | fuel+1, slot => match cell slot with
    | none => .empty
    | some a => if hit a then .found a else walk cell hit m fuel ((slot + 1) % m)

/- The number of steps from `home` to `slot`, going round. -/
def distance (m home slot : Nat) : Nat := if home ≤ slot then slot - home else m - home + slot

theorem distanceReaches {m home slot : Nat} (inHome : home < m) (inSlot : slot < m) :
    (home + distance m home slot) % m = slot ∧ distance m home slot < m := by
  unfold distance
  split
  · rename_i ahead
    have back : home + (slot - home) = slot := by omega
    exact ⟨by rw [back,Nat.mod_eq_of_lt inSlot],by omega⟩
  · rename_i behind
    have round : home + (m - home + slot) = slot + m := by omega
    exact ⟨by rw [round,Nat.add_mod_right,Nat.mod_eq_of_lt inSlot],by omega⟩

variable {cell : Nat → Option α} {hit : α → Bool} {m : Nat}

theorem walkSteps {fuel slot k : Nat} (inside : slot < m)
    (occupied : ∀ j < k, ∃ a, cell ((slot + j) % m) = some a ∧ hit a = false) (enough : k ≤ fuel) :
    walk cell hit m fuel slot = walk cell hit m (fuel - k) ((slot + k) % m) := by
  induction k with
  | zero => simp [Nat.mod_eq_of_lt inside]
  | succ k ih =>
    rw [ih (fun j before => occupied j (by omega)) (by omega)]
    obtain ⟨a,found,miss⟩ := occupied k (by omega)
    obtain ⟨left,split⟩ : ∃ left, fuel - k = left + 1 := ⟨fuel - (k + 1),by omega⟩
    have rest : fuel - (k + 1) = left := by omega
    rw [split,walk,found,rest]
    simp [miss,Nat.add_assoc]

theorem walkFinds {fuel slot k : Nat} (inside : slot < m)
    (occupied : ∀ j < k, ∃ a, cell ((slot + j) % m) = some a ∧ hit a = false)
    {a : α} (here : cell ((slot + k) % m) = some a) (hits : hit a = true) (enough : k < fuel) :
    walk cell hit m fuel slot = .found a := by
  rw [walkSteps inside occupied (by omega)]
  obtain ⟨left,split⟩ : ∃ left, fuel - k = left + 1 := ⟨fuel - (k + 1),by omega⟩
  rw [split,walk,here]
  simp [hits]

/- The first empty cell on the way round, when there is one. -/
theorem firstEmpty {slot : Nat} (inside : slot < m) (free : ∃ s < m, cell s = none) :
    ∃ k < m, cell ((slot + k) % m) = none ∧ ∀ j < k, ∃ a, cell ((slot + j) % m) = some a := by
  obtain ⟨s,bound,vacant⟩ := free
  obtain ⟨reaches,short⟩ := distanceReaches inside bound
  have some_k : ∃ k, cell ((slot + k) % m) = none := ⟨_,by rw [reaches]; exact vacant⟩
  classical
  refine ⟨Nat.find some_k,?_,Nat.find_spec some_k,fun j before => ?_⟩
  · exact (Nat.find_min' some_k (by rw [reaches]; exact vacant)).trans_lt short
  · exact Option.isSome_iff_exists.mp (Option.isSome_iff_ne_none.mpr (Nat.find_min some_k before))

/- A probe that can hit nothing ends at an empty cell, when there is one. -/
theorem walkMisses {slot : Nat} (inside : slot < m) (misses : ∀ s < m, ∀ a, cell s = some a → hit a = false)
    (free : ∃ s < m, cell s = none) : walk cell hit m m slot = .empty := by
  obtain ⟨k,near,vacant,occupied⟩ := firstEmpty inside free
  have passed : ∀ j < k, ∃ a, cell ((slot + j) % m) = some a ∧ hit a = false := by
    intro j before
    obtain ⟨a,found⟩ := occupied j before
    exact ⟨a,found,misses _ (Nat.mod_lt _ (by omega)) a found⟩
  rw [walkSteps inside passed near.le]
  obtain ⟨left,split⟩ : ∃ left, m - k = left + 1 := ⟨m - (k + 1),by omega⟩
  rw [split,walk,vacant]

theorem distanceOf {home k : Nat} (inHome : home < m) (short : k < m) :
    distance m home ((home + k) % m) = k := by
  unfold distance
  rcases Nat.lt_or_ge (home + k) m with inside | wrapped
  · rw [Nat.mod_eq_of_lt inside,if_pos (by omega)]; omega
  · rw [Nat.mod_eq_sub_mod wrapped,Nat.mod_eq_of_lt (by omega)]
    split <;> omega

/- Insertion takes the first empty cell. -/
def place (cell : Nat → Option α) (m : Nat) : Nat → Nat → Option Nat
  | 0, _ => none
  | fuel+1, slot => if (cell slot).isNone then some slot else place cell m fuel ((slot + 1) % m)

theorem placeFinds {home : Nat} (inside : home < m) (free : ∃ s < m, cell s = none) :
    ∃ s < m, place cell m m home = some s ∧ cell s = none ∧
      ∀ j < distance m home s, (cell ((home + j) % m)).isSome = true := by
  obtain ⟨k,near,vacant,occupied⟩ := firstEmpty inside free
  have steps : ∀ fuel start k, start < m → k < fuel → cell ((start + k) % m) = none →
      (∀ j < k, ∃ a, cell ((start + j) % m) = some a) → place cell m fuel start = some ((start + k) % m) := by
    intro fuel
    induction fuel with
    | zero => intro start k _ short; omega
    | succ fuel ih =>
      intro start k inside short vacant occupied
      cases k with
      | zero =>
        rw [Nat.add_zero,Nat.mod_eq_of_lt inside] at vacant
        simp [place,vacant,Nat.mod_eq_of_lt inside]
      | succ k =>
        obtain ⟨a,first⟩ := occupied 0 (by omega)
        rw [Nat.add_zero,Nat.mod_eq_of_lt inside] at first
        have shift : ∀ j, ((start + 1) % m + j) % m = (start + (j + 1)) % m := by
          intro j
          rw [Nat.mod_add_mod,Nat.add_assoc,Nat.add_comm 1 j]
        have later := ih ((start + 1) % m) k (Nat.mod_lt _ (by omega)) (by omega) (by rwa [shift])
          (fun j before => by rw [shift]; exact occupied (j + 1) (by omega))
        simpa [place,first,shift] using later
  refine ⟨(home + k) % m,Nat.mod_lt _ (by omega),steps m home k inside near vacant occupied,vacant,?_⟩
  rw [distanceOf inside near]
  exact fun j before => Option.isSome_iff_exists.mpr (occupied j before)

/-! Empty cells counted from cell 0 decide whether a path is free of them. -/
def emptyBelow (cell : Nat → Option α) (s : Nat) : Nat := (List.range s).countP (fun i => (cell i).isNone)

theorem emptyBelowSucc (cell : Nat → Option α) (s : Nat) :
    emptyBelow cell (s+1) = emptyBelow cell s + if (cell s).isNone then 1 else 0 := by
  simp [emptyBelow,List.range_succ,List.countP_append,List.countP_singleton]

theorem emptyBetween (cell : Nat → Option α) {a b : Nat} (order : a ≤ b) :
    emptyBelow cell b - emptyBelow cell a = 0 ↔ ∀ s, a ≤ s → s < b → (cell s).isSome = true := by
  have grows : emptyBelow cell a ≤ emptyBelow cell b ∧ (emptyBelow cell b - emptyBelow cell a = 0 ↔
      ∀ s, a ≤ s → s < b → (cell s).isSome = true) := by
    induction b, order using Nat.le_induction with
    | base => exact ⟨Nat.le_refl _,by simp; omega⟩
    | succ b order ih =>
      obtain ⟨below,exact⟩ := ih
      rw [emptyBelowSucc]
      cases here : cell b with
      | none =>
        refine ⟨by simp; omega,?_⟩
        constructor
        · intro zero; simp at zero; omega
        · intro all
          have full := all b order (by omega)
          rw [here] at full
          contradiction
      | some x =>
        refine ⟨by simpa using below,?_⟩
        simp only [Option.isNone_some,Bool.false_eq_true,if_false,Nat.add_zero,exact]
        constructor
        · intro all s lower upper
          rcases Nat.lt_succ_iff_lt_or_eq.mp upper with before | rfl
          · exact all s lower before
          · simp [here]
        · exact fun all s lower upper => all s lower (by omega)
  exact grows.2

/- The two-segment count of the empty cells on the way from `home` to `slot`. -/
def emptyOnPath (cell : Nat → Option α) (m home slot : Nat) : Nat :=
  if home ≤ slot then emptyBelow cell slot - emptyBelow cell home
  else (emptyBelow cell m - emptyBelow cell home) + emptyBelow cell slot

theorem pathClear (cell : Nat → Option α) {m home slot : Nat} (inHome : home < m) (inSlot : slot < m) :
    emptyOnPath cell m home slot = 0 ↔
      ∀ j < distance m home slot, (cell ((home + j) % m)).isSome = true := by
  unfold emptyOnPath distance
  split
  · rename_i ahead
    rw [emptyBetween cell ahead]
    constructor
    · intro all j before
      rw [Nat.mod_eq_of_lt (by omega)]
      exact all (home + j) (by omega) (by omega)
    · intro all s lower upper
      have at_s := all (s - home) (by omega)
      rwa [show home + (s - home) = s by omega,Nat.mod_eq_of_lt (by omega)] at at_s
  · rename_i behind
    have start : emptyBelow cell slot = emptyBelow cell slot - emptyBelow cell 0 := by simp [emptyBelow]
    rw [Nat.add_eq_zero_iff,emptyBetween cell (by omega),start,emptyBetween cell (by omega)]
    constructor
    · rintro ⟨tail,head⟩ j before
      rcases Nat.lt_or_ge (home + j) m with inside | wrapped
      · rw [Nat.mod_eq_of_lt inside]
        exact tail (home + j) (by omega) inside
      · rw [Nat.mod_eq_sub_mod wrapped,Nat.mod_eq_of_lt (by omega)]
        exact head (home + j - m) (by omega) (by omega)
    · intro all
      refine ⟨fun s lower upper => ?_,fun s _ upper => ?_⟩
      · have at_s := all (s - home) (by omega)
        rwa [show home + (s - home) = s by omega,Nat.mod_eq_of_lt upper] at at_s
      · have at_s := all (m - home + s) (by omega)
        rwa [show home + (m - home + s) = s + m by omega,Nat.add_mod_right,
          Nat.mod_eq_of_lt (by omega)] at at_s

/-! A table into which the entries `0..k` were inserted in turn, each from its own home. -/
theorem freeCell {cell : Nat → Option Nat} {n : Nat} (inside : ∀ s i, cell s = some i → i < n)
    (once : ∀ s s' i, cell s = some i → cell s' = some i → s = s') (room : n < m) :
    ∃ s < m, cell s = none := by
  by_contra full
  push Not at full
  let kept : Nat → Nat := fun s => (cell s).getD 0
  have reads : ∀ s < m, cell s = some (kept s) := by
    intro s bound
    obtain ⟨i,here⟩ := Option.ne_none_iff_exists'.mp (full s bound)
    simp only [kept,here,Option.getD_some]
  have crowd : (Finset.range m).card ≤ (Finset.range n).card := by
    refine Finset.card_le_card_of_injOn kept (fun s member => ?_) (fun a left b right same => ?_)
    · simp only [Finset.coe_range,Set.mem_Iio] at member ⊢
      exact inside s _ (reads s member)
    · simp only [Finset.coe_range,Set.mem_Iio] at left right
      exact once a b _ (reads a left) (by rw [reads b right,same])
  rw [Finset.card_range,Finset.card_range] at crowd
  omega

structure Filled (homeOf : Nat → Nat) (m k : Nat) (cell : Nat → Option Nat) : Prop where
  inside : ∀ s i, cell s = some i → s < m ∧ i < k
  once : ∀ s s' i, cell s = some i → cell s' = some i → s = s'
  placed : ∀ i < k, ∃ s, cell s = some i
  reachable : ∀ s i, cell s = some i →
    ∀ j < distance m (homeOf i) s, (cell ((homeOf i + j) % m)).isSome = true

theorem Filled.start (homeOf : Nat → Nat) (m : Nat) : Filled homeOf m 0 (fun _ => none) where
  inside _ _ found := by contradiction
  once _ _ _ found := by contradiction
  placed _ before := absurd before (Nat.not_lt_zero _)
  reachable _ _ found := by contradiction

/- The next entry finds an empty cell, and no earlier one becomes unreachable. -/
theorem Filled.insert {homeOf : Nat → Nat} {k : Nat} {cell : Nat → Option Nat} (f : Filled homeOf m k cell)
    (room : k < m) (inHome : homeOf k < m) : ∃ s < m, place cell m m (homeOf k) = some s ∧
      Filled homeOf m (k+1) (Function.update cell s (some k)) := by
  obtain ⟨s,bound,found,vacant,path⟩ :=
    placeFinds inHome (freeCell (fun s i here => (f.inside s i here).2) f.once room)
  refine ⟨s,bound,found,?_⟩
  have cases : ∀ s' i, Function.update cell s (some k) s' = some i →
      (s' = s ∧ i = k) ∨ (s' ≠ s ∧ cell s' = some i) := by
    intro s' i here
    cases decEq s' s with
    | isTrue same =>
      subst same
      rw [Function.update_self] at here
      exact .inl ⟨rfl,(Option.some.inj here).symm⟩
    | isFalse other =>
      rw [Function.update_of_ne other] at here
      exact .inr ⟨other,here⟩
  have grows : ∀ x, (cell x).isSome = true → (Function.update cell s (some k) x).isSome = true := by
    intro x held
    cases decEq x s with
    | isTrue same => subst same; simp
    | isFalse other => rwa [Function.update_of_ne other]
  refine ⟨?_,?_,?_,?_⟩
  · intro s' i here
    rcases cases s' i here with ⟨rfl,rfl⟩ | ⟨_,old⟩
    · exact ⟨bound,Nat.lt_succ_self _⟩
    · have both := f.inside s' i old
      exact ⟨both.1,by omega⟩
  · intro s₁ s₂ i left right
    rcases cases s₁ i left with ⟨rfl,rfl⟩ | ⟨_,old₁⟩
    · rcases cases s₂ i right with ⟨rfl,_⟩ | ⟨_,old₂⟩
      · rfl
      · exact absurd (f.inside s₂ i old₂).2 (Nat.lt_irrefl _)
    · rcases cases s₂ i right with ⟨_,rfl⟩ | ⟨_,old₂⟩
      · exact absurd (f.inside s₁ i old₁).2 (Nat.lt_irrefl _)
      · exact f.once s₁ s₂ i old₁ old₂
  · intro i before
    rcases Nat.lt_succ_iff_lt_or_eq.mp before with early | rfl
    · obtain ⟨s',old⟩ := f.placed i early
      have other : s' ≠ s := by
        rintro rfl
        rw [vacant] at old
        contradiction
      exact ⟨s',by rw [Function.update_of_ne other,old]⟩
    · exact ⟨s,Function.update_self ..⟩
  · intro s' i here j before
    rcases cases s' i here with ⟨rfl,rfl⟩ | ⟨_,old⟩
    · exact grows _ (path j before)
    · exact grows _ (f.reachable s' i old j before)

end Probing
