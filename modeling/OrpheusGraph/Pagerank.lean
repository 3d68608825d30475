import OrpheusGraph.Builder
import OrpheusGraph.Lib.Chain

/-! PageRank over exact rationals. A division by zero has no value, and every operation on
no value has none, so a score that has a value was computed without one. The iteration is
the walk of a random surfer. -/
namespace OrpheusGraph
open Matrix Finset

abbrev CheckedRat : Type := Option ℚ

instance : Arith CheckedRat where
  ofNat n := some n
  add a b := Option.map₂ (· + ·) a b
  sub a b := Option.map₂ (· - ·) a b
  mul a b := Option.map₂ (· * ·) a b
  div a b := a.bind (fun x => b.bind (fun y => if y = 0 then none else some (x / y)))
  maximum a b := Option.map₂ max a b
  lt a b := (Option.map₂ (fun x y => decide (x < y)) a b).getD false
  isFinite a := a.isSome
  epsilon := some (1 / 2^23)
  damping := some (85 / 100)

namespace CheckedRat
open Arith

@[simp] theorem ofNatSome (n : Nat) : (ofNat n : CheckedRat) = some (n : ℚ) := rfl
@[simp] theorem addSome (x y : ℚ) : (add (some x) (some y) : CheckedRat) = some (x + y) := rfl
@[simp] theorem subSome (x y : ℚ) : (sub (some x) (some y) : CheckedRat) = some (x - y) := rfl
@[simp] theorem mulSome (x y : ℚ) : (mul (some x) (some y) : CheckedRat) = some (x * y) := rfl
@[simp] theorem maximumSome (x y : ℚ) : (maximum (some x) (some y) : CheckedRat) = some (max x y) := rfl
@[simp] theorem ltSome (x y : ℚ) : (lt (some x) (some y : CheckedRat)) = decide (x < y) := rfl

theorem divSome (x : ℚ) {y : ℚ} (nonzero : y ≠ 0) : (div (some x) (some y) : CheckedRat) = some (x / y) :=
  if_neg nonzero

end CheckedRat

/- A list of values, one for each node. -/
def valued {n : Nat} (x : Fin n → ℚ) : List CheckedRat := List.ofFn (fun i => some (x i))

theorem valuedModify {n : Nat} (x : Fin n → ℚ) (j : Fin n) (y : ℚ) :
    (valued x).modify j (fun s => Arith.add s (some y)) = valued (Function.update x j (x j + y)) := by
  refine List.ext_getElem? (fun k => ?_)
  rw [List.getElem?_modify,valued,valued,List.getElem?_ofFn,List.getElem?_ofFn]
  split
  · rename_i same
    subst same
    simp
  · rename_i other
    split
    · rename_i inside
      have apart : (⟨k,inside⟩ : Fin n) ≠ j := fun same => other (congrArg Fin.val same).symm
      simp [Function.update_of_ne apart]
    · rfl

/-! The random surfer. -/
namespace DiGraph
variable (g : DiGraph CheckedRat)

def degree (i : Fin g.nodes.length) : Nat := g.edges.countP (fun e => e.1 == i.val)

def links (i j : Fin g.nodes.length) : Nat := g.edges.countP (fun e => e.1 == i.val && e.2.1 == j.val)

/- Along one of the edges out of a node, each as likely as the others; from a node without
edges anywhere. -/
def walk : Matrix (Fin g.nodes.length) (Fin g.nodes.length) ℚ := fun i j =>
  if g.degree i = 0 then 1 / g.nodes.length else g.links i j / g.degree i

/- How likely the surfer is at each node after `k` steps. -/
def visits (d : ℚ) (k : Nat) : Fin g.nodes.length → ℚ := Chain.after (Chain.damped d g.walk) k

variable {g}

theorem linksSum (i : Fin g.nodes.length) : ∑ j, g.links i j = g.degree i := by
  have count : ∀ es : List (Nat × Nat × EdgeData CheckedRat), (∀ e ∈ es, e.2.1 < g.nodes.length) →
      ∑ j : Fin g.nodes.length, es.countP (fun e => e.1 == i.val && e.2.1 == j.val) = es.countP (fun e => e.1 == i.val) := by
    intro es inside
    induction es with
    | nil => simp
    | cons e es ih =>
      have tail := ih (fun x member => inside x (List.mem_cons_of_mem e member))
      have here := inside e List.mem_cons_self
      simp only [List.countP_cons,sum_add_distrib,tail]
      congr 1
      rw [Finset.sum_eq_single ⟨e.2.1,here⟩]
      · simp
      · intro j _ other
        have apart : e.2.1 ≠ j.val := fun same => other (Fin.ext same.symm)
        simp [apart]
      · simp
  exact count g.edges (fun e member => (g.inRange e member).2)

theorem walkRows : g.walk *ᵥ 1 = 1 := by
  refine Chain.rowsSum.mpr (fun i => ?_)
  have size : (g.nodes.length : ℚ) ≠ 0 := Nat.cast_ne_zero.mpr (by have := i.isLt; omega)
  unfold walk
  split
  · simp [size]
  · rename_i degree
    have nonzero : (g.degree i : ℚ) ≠ 0 := Nat.cast_ne_zero.mpr degree
    rw [← Finset.sum_div,← Nat.cast_sum,linksSum,div_self nonzero]

theorem walkNonneg (i j : Fin g.nodes.length) : 0 ≤ g.walk i j := by
  unfold walk
  split
  · exact div_nonneg zero_le_one (Nat.cast_nonneg _)
  · exact div_nonneg (Nat.cast_nonneg _) (Nat.cast_nonneg _)

end DiGraph

/-! The iteration is that walk. -/
section refines
variable {g : DiGraph CheckedRat} {d : ℚ}

theorem valuedMap {n : Nat} (x : Fin n → ℚ) : valued x = (List.finRange n).map (fun i => some (x i)) :=
  List.ofFn_eq_map

theorem outgoingDegree (adjacency : Order) (i : Fin g.nodes.length) : (g.outgoing adjacency i).length = g.degree i := by
  rw [DiGraph.outgoing,(adjacency.perm _).length_eq,DiGraph.degree,List.countP_eq_length_filter]

theorem outgoingLinks (adjacency : Order) (i j : Fin g.nodes.length) :
    (g.outgoing adjacency i).countP (fun e => e.2.1 == j.val) = g.links i j := by
  rw [DiGraph.outgoing,(adjacency.perm _).countP_eq,DiGraph.links,List.countP_filter]
  exact List.countP_congr (fun e _ => by rw [Bool.and_comm])

theorem degreesListed (adjacency : Order) : (List.range g.nodes.length).map (fun i => (g.outgoing adjacency i).length) =
    (List.finRange g.nodes.length).map g.degree := by
  rw [← List.map_coe_finRange_eq_range,List.map_map]
  exact List.map_congr_left (fun i _ => outgoingDegree adjacency i)

theorem danglingValue {n : Nat} (degree : Fin n → Nat) (x : Fin n → ℚ) :
    danglingSum ((List.finRange n).map degree) (valued x) = some (∑ i, if degree i = 0 then x i else 0) := by
  have sums : ∀ (is : List (Fin n)) (a : ℚ),
      is.foldl (fun sum i => if degree i = 0 then Arith.add sum (some (x i)) else sum) (some a : CheckedRat) =
        some (a + (is.map (fun i => if degree i = 0 then x i else 0)).sum) := by
    intro is
    induction is with
    | nil => simp
    | cons i is ih =>
      intro a
      rw [List.foldl_cons,List.map_cons,List.sum_cons,← add_assoc]
      split
      · rw [CheckedRat.addSome,ih]
      · rw [ih,add_zero]
  have whole := sums (List.finRange n) 0
  rw [zero_add,← Fin.sum_univ_def] at whole
  rw [danglingSum,valuedMap,List.zip_map',List.foldl_map,CheckedRat.ofNatSome,Nat.cast_zero]
  exact whole

/- One node's share, handed to each of its targets as often as there are edges to it. -/
theorem sharesValue {n : Nat} (share : ℚ) (es : List (Nat × Nat × EdgeData CheckedRat)) (inside : ∀ e ∈ es, e.2.1 < n)
    (s : Fin n → ℚ) : es.foldl (fun fresh e => fresh.modify e.2.1 (fun s => Arith.add s (some share))) (valued s) =
      valued (fun j => s j + es.countP (fun e => e.2.1 == j.val) * share) := by
  induction es generalizing s with
  | nil => simp
  | cons e es ih =>
    have here := inside e List.mem_cons_self
    rw [List.foldl_cons,valuedModify s ⟨e.2.1,here⟩ share,ih (fun x member => inside x (List.mem_cons_of_mem e member))]
    congr 1
    funext j
    rw [Function.update_apply,List.countP_cons]
    cases decEq j ⟨e.2.1,here⟩ with
    | isTrue same =>
      subst same
      simp only [if_pos,beq_self_eq_true]
      push_cast
      ring
    | isFalse other =>
      have apart : e.2.1 ≠ j.val := fun same => other (Fin.ext same.symm)
      simp [other,apart]

def pushed (g : DiGraph CheckedRat) (d : ℚ) (x : Fin g.nodes.length → ℚ) (i j : Fin g.nodes.length) : ℚ :=
  if g.degree i = 0 then 0 else g.links i j * (d * x i / g.degree i)

theorem numbered {α : Type} {n : Nat} (f : Fin n → α) :
    ((List.finRange n).map f).zipIdx = (List.finRange n).map (fun i => (f i,i.val)) := by
  refine List.ext_getElem (by simp) (fun k left right => ?_)
  simp

theorem spreadValue (adjacency : Order) (x s : Fin g.nodes.length → ℚ) :
    spreadScores adjacency g (some d) ((List.finRange g.nodes.length).map g.degree) (valued x) (valued s) =
      valued (fun j => s j + ∑ i, pushed g d x i j) := by
  have spreads : ∀ (is : List (Fin g.nodes.length)) (s : Fin g.nodes.length → ℚ),
      is.foldl (fun fresh i => if g.degree i = 0 then fresh
        else (g.outgoing adjacency i).foldl (fun fresh e => fresh.modify e.2.1
          (fun t => Arith.add t (Arith.div (Arith.mul (some d) (some (x i))) (Arith.ofNat (g.degree i))))) fresh) (valued s) =
        valued (fun j => s j + (is.map (fun i => pushed g d x i j)).sum) := by
    intro is
    induction is with
    | nil => simp
    | cons i is ih =>
      intro s
      rw [List.foldl_cons]
      simp only [List.map_cons,List.sum_cons,← add_assoc]
      cases decEq (g.degree i) 0 with
      | isTrue dangling => simp only [if_pos dangling,ih,pushed,add_zero]
      | isFalse links =>
        have nonzero : (g.degree i : ℚ) ≠ 0 := Nat.cast_ne_zero.mpr links
        have inside : ∀ e ∈ g.outgoing adjacency i, e.2.1 < g.nodes.length := fun e member =>
          (g.inRange e (List.mem_of_mem_filter ((adjacency.perm _).mem_iff.mp member))).2
        rw [if_neg links,CheckedRat.mulSome,CheckedRat.ofNatSome,CheckedRat.divSome _ nonzero,
          sharesValue _ _ inside,ih]
        simp only [outgoingLinks,pushed,if_neg links]
  have whole := spreads (List.finRange g.nodes.length) s
  simp only [← Fin.sum_univ_def] at whole
  rw [spreadScores,valuedMap x,List.zip_map',numbered,List.foldl_map]
  exact whole

theorem stepWalks (adjacency : Order) (size : g.nodes.length ≠ 0) {x : Fin g.nodes.length → ℚ} (mass : ∑ i, x i = 1) :
    pagerankStep adjacency g (some d) ((List.finRange g.nodes.length).map g.degree) (valued x) =
      valued (x ᵥ* Chain.damped d g.walk) := by
  have nonzero : (g.nodes.length : ℚ) ≠ 0 := Nat.cast_ne_zero.mpr size
  have base : ∀ y : ℚ, List.replicate g.nodes.length (some y) = valued (fun _ : Fin g.nodes.length => y) := fun y => by
    rw [valued,List.ofFn_const]
  rw [pagerankStep]
  simp only [danglingValue,CheckedRat.ofNatSome,CheckedRat.subSome,CheckedRat.mulSome,CheckedRat.divSome _ nonzero,
    CheckedRat.addSome,base,spreadValue]
  congr 1
  funext j
  have parts : ∀ i, d * (x i * g.walk i j) =
      d * (if g.degree i = 0 then x i else 0) / g.nodes.length + pushed g d x i j := by
    intro i
    unfold DiGraph.walk pushed
    split
    · ring
    · ring
  have walked : d * (x ᵥ* g.walk) j =
      d * (∑ i, if g.degree i = 0 then x i else 0) / g.nodes.length + ∑ i, pushed g d x i j := by
    calc d * (x ᵥ* g.walk) j
      _ = ∑ i, d * (x i * g.walk i j) := by rw [vecMul,dotProduct,Finset.mul_sum]
      _ = ∑ i, (d * (if g.degree i = 0 then x i else 0) / g.nodes.length + pushed g d x i j) :=
        Finset.sum_congr rfl (fun i _ => parts i)
      _ = _ := by rw [Finset.sum_add_distrib,← Finset.sum_div,← Finset.mul_sum]
  rw [Chain.dampedStep mass,Fintype.card_fin,walked,Nat.cast_one,add_assoc]

/- The scores after every iteration. -/
theorem scoresWalk (adjacency : Order) (size : g.nodes.length ≠ 0) (k : Nat) :
    pagerankScores adjacency g (some d) k = valued (g.visits d k) := by
  have nonzero : (g.nodes.length : ℚ) ≠ 0 := Nat.cast_ne_zero.mpr size
  have some_node : Nonempty (Fin g.nodes.length) := ⟨⟨0,Nat.pos_of_ne_zero size⟩⟩
  rw [pagerankScores]
  simp only [degreesListed]
  induction k with
  | zero =>
    rw [Function.iterate_zero,id,CheckedRat.ofNatSome,CheckedRat.ofNatSome,CheckedRat.divSome _ nonzero,Nat.cast_one,
      DiGraph.visits,Chain.afterZero,valued,← List.ofFn_const]
    simp only [Chain.uniform,Fintype.card_fin]
  | succ k ih =>
    have mass : ∑ i, g.visits d k i = 1 := Chain.massAfter (Chain.dampedRows DiGraph.walkRows) k
    rw [Function.iterate_succ_apply',ih,stepWalks adjacency size mass]
    exact congrArg valued (Chain.afterSucc _ k).symm

/-! The weights that are stored. -/
def peak {n : Nat} (x : Fin n → ℚ) : ℚ := (List.ofFn x).foldl max 0

def scale {n : Nat} (x : Fin n → ℚ) : ℚ := if 1 / 2^23 < peak x then peak x else 1

theorem peakExact {n : Nat} (x : Fin n → ℚ) :
    (peak x = 0 ∨ ∃ i, x i = peak x) ∧ 0 ≤ peak x ∧ ∀ i, x i ≤ peak x := by
  have listed : (0 :: List.ofFn x).max? = some (peak x) := List.max?_cons'
  obtain ⟨member,above⟩ := List.max?_eq_some_iff.mp listed
  refine ⟨?_,above 0 List.mem_cons_self,fun i => above _ (List.mem_cons_of_mem _ (List.mem_ofFn.mpr ⟨i,rfl⟩))⟩
  rcases List.mem_cons.mp member with zero | later
  · exact .inl zero
  · exact .inr (List.mem_ofFn.mp later)

theorem peakValue {n : Nat} (x : Fin n → ℚ) : (valued x).foldl Arith.maximum (Arith.ofNat 0) = some (peak x) := by
  have folds : ∀ (xs : List ℚ) (a : ℚ), (xs.map some).foldl Arith.maximum (some a : CheckedRat) = some (xs.foldl max a) := by
    intro xs
    induction xs with
    | nil => exact fun _ => rfl
    | cons y ys ih => exact fun a => ih (max a y)
  have listed : valued x = (List.ofFn x).map some := by
    rw [List.map_ofFn]
    rfl
  rw [listed,CheckedRat.ofNatSome,Nat.cast_zero]
  exact folds _ 0

theorem scalePositive {n : Nat} (x : Fin n → ℚ) : 0 < scale x := by
  unfold scale
  split
  · rename_i large
    exact lt_trans (by norm_num) large
  · exact zero_lt_one

theorem belowScale {n : Nat} (x : Fin n → ℚ) (i : Fin n) : x i ≤ scale x := by
  have below := (peakExact x).2.2 i
  unfold scale
  split
  · exact below
  · rename_i small
    exact below.trans ((not_lt.mp small).trans (by norm_num))

theorem rankedWeights {nodes : List (NodeData CheckedRat)} (x : Fin nodes.length → ℚ) :
    (rankedNodes nodes (valued x)).map NodeData.pagerankWeight = valued (fun i => x i / scale x) := by
  have norm : (if Arith.lt (Arith.epsilon : CheckedRat) (some (peak x)) then some (peak x) else Arith.ofNat 1) =
      some (scale x) := by
    change (if decide (1 / 2^23 < peak x) = true then some (peak x) else some ((1 : ℕ) : ℚ)) = _
    rw [Nat.cast_one,← apply_ite some,scale]
    simp only [decide_eq_true_eq]
  refine List.ext_getElem (by simp [rankedNodes,valued]) (fun k left right => ?_)
  have inside : k < nodes.length := by simpa [rankedNodes] using left
  simp only [rankedNodes,peakValue,norm,List.getElem_map,List.getElem_mapIdx]
  simp [valued,inside,CheckedRat.divSome _ (scalePositive x).ne']

theorem storedWeights (adjacency : Order) (size : g.nodes.length ≠ 0) (k : Nat) :
    (computePagerank adjacency g (some d) k).nodes.map NodeData.pagerankWeight =
      valued (fun i => g.visits d k i / scale (g.visits d k)) := by
  change (rankedNodes g.nodes (pagerankScores adjacency g (some d) k)).map _ = _
  rw [scoresWalk adjacency size]
  exact rankedWeights (g.visits d k)

theorem largestStored (adjacency : Order) (size : g.nodes.length ≠ 0) (k : Nat) :
    IsGreatest {w : ℚ | some w ∈ (computePagerank adjacency g (some d) k).nodes.map NodeData.pagerankWeight} 1 ↔
      ∃ i, 1 / 2^23 < g.visits d k i := by
  obtain ⟨attained,_,above⟩ := peakExact (g.visits d k)
  have member : ∀ w : ℚ, some w ∈ (computePagerank adjacency g (some d) k).nodes.map NodeData.pagerankWeight ↔
      ∃ i, g.visits d k i / scale (g.visits d k) = w := by
    intro w
    rw [storedWeights adjacency size,valued,List.mem_ofFn]
    exact exists_congr (fun i => Option.some_inj)
  constructor
  · rintro ⟨largest,_⟩
    obtain ⟨i,one⟩ := (member 1).mp largest
    rw [div_eq_one_iff_eq (scalePositive _).ne'] at one
    refine ⟨i,?_⟩
    rw [one]
    unfold scale
    split
    · assumption
    · norm_num
  · rintro ⟨i,visible⟩
    have large : 1 / 2^23 < peak (g.visits d k) := visible.trans_le (above i)
    have scaled : scale (g.visits d k) = peak (g.visits d k) := if_pos large
    refine ⟨(member 1).mpr ?_,fun w stored => ?_⟩
    · rcases attained with zero | ⟨j,top⟩
      · rw [zero] at large
        norm_num at large
      · exact ⟨j,by rw [scaled,top,div_self (scaled ▸ (scalePositive _).ne')]⟩
    · obtain ⟨j,rfl⟩ := (member w).mp stored
      exact (div_le_one (scalePositive _)).mpr (belowScale _ j)

theorem pagerankConserves (adjacency : Order) (g : DiGraph CheckedRat) (d : ℚ) (positive : 0 < d) (below : d < 1)
    (nonempty : g.nodes ≠ []) (k : Nat) :
    ∃ scores weights : Fin g.nodes.length → ℚ,
      pagerankScores adjacency g (some d) k = List.ofFn (fun i => some (scores i)) ∧
      ∑ i, scores i = 1 ∧ (∀ i, (1 - d) / g.nodes.length ≤ scores i ∧ 0 < scores i) ∧
      (computePagerank adjacency g (some d) k).nodes.map NodeData.pagerankWeight =
        List.ofFn (fun i => some (weights i)) ∧
      (∀ i, 0 < weights i ∧ weights i ≤ 1) ∧ ∀ i j, weights i < weights j ↔ scores i < scores j := by
  have size : g.nodes.length ≠ 0 := mt List.length_eq_zero_iff.mp nonempty
  have some_node : Nonempty (Fin g.nodes.length) := ⟨⟨0,Nat.pos_of_ne_zero size⟩⟩
  have jump : 0 < (1 - d) / g.nodes.length := div_pos (sub_pos.mpr below) (Nat.cast_pos.mpr (Nat.pos_of_ne_zero size))
  have least : ∀ i, (1 - d) / g.nodes.length ≤ g.visits d k i := by
    intro i
    have bound := Chain.afterBelow DiGraph.walkRows DiGraph.walkNonneg positive.le below.le k i
    rwa [Fintype.card_fin] at bound
  have divisor := scalePositive (g.visits d k)
  refine ⟨_,_,scoresWalk adjacency size k,Chain.massAfter (Chain.dampedRows DiGraph.walkRows) k,
    fun i => ⟨least i,jump.trans_le (least i)⟩,storedWeights adjacency size k,fun i => ⟨?_,?_⟩,fun i j => ?_⟩
  · exact div_pos (jump.trans_le (least i)) divisor
  · exact (div_le_one divisor).mpr (belowScale _ i)
  · exact div_lt_div_iff_of_pos_right divisor

def namedNode (name : String) : NodeData CheckedRat := ⟨name,"module",∅,some 0,some 0,some 0⟩

def namedLink : EdgeData CheckedRat := ⟨"calls",none,some 1,none,none,[]⟩

/- A self-loop, two parallel edges and a node without edges. -/
def forked : DiGraph CheckedRat where
  nodes := [namedNode "a",namedNode "b"]
  edges := [(0,0,namedLink),(0,1,namedLink),(0,1,namedLink)]
  inRange := by decide

theorem forkedConserves : ∃ scores : Fin 2 → ℚ,
    pagerankScores .newestFirst forked (some (85 / 100)) 20 = List.ofFn (fun i => some (scores i)) ∧
    ∑ i, scores i = 1 := by
  obtain ⟨scores,_,run,mass,_⟩ := pagerankConserves .newestFirst forked (85 / 100) (by norm_num) (by norm_num)
    (List.cons_ne_nil _ _) 20
  exact ⟨scores,run,mass⟩

/- As many nodes as it takes for a uniform score to be no more than the guard. -/
def scattered : DiGraph CheckedRat := ⟨(List.range (2^23)).map (fun i => namedNode (toString i)),[],fun _ member => nomatch member⟩

theorem scatteredLength : scattered.nodes.length = 2^23 := by rw [scattered,List.length_map,List.length_range]

/- Without edges the surfer is anywhere alike. -/
theorem edgelessVisits (bare : g.edges = []) (k : Nat) (i : Fin g.nodes.length) : g.visits d k i = 1 / g.nodes.length := by
  have size : g.nodes.length ≠ 0 := by have := i.isLt; omega
  have some_node : Nonempty (Fin g.nodes.length) := ⟨i⟩
  have nonzero : (g.nodes.length : ℚ) ≠ 0 := Nat.cast_ne_zero.mpr size
  have anywhere : g.walk = fun _ _ => 1 / (g.nodes.length : ℚ) := by
    funext i j
    simp [DiGraph.walk,DiGraph.degree,bare]
  induction k generalizing i with
  | zero => rw [DiGraph.visits,Chain.afterZero,Chain.uniform,Fintype.card_fin]
  | succ k ih =>
    have mass : ∑ i, g.visits d k i = 1 := Chain.massAfter (Chain.dampedRows DiGraph.walkRows) k
    have walked : (g.visits d k ᵥ* g.walk) i = 1 / g.nodes.length := by
      simp only [vecMul,dotProduct,anywhere,← Finset.sum_mul,mass,one_mul]
    have step : g.visits d (k+1) i = (g.visits d k ᵥ* Chain.damped d g.walk) i := congrFun (Chain.afterSucc _ k) i
    rw [step,Chain.dampedStep mass,walked,Fintype.card_fin]
    field_simp
    ring

theorem scatteredUnnormalized : ¬ IsGreatest {w : ℚ | some w ∈ (computePagerank .newestFirst scattered
    (some (85 / 100)) 20).nodes.map NodeData.pagerankWeight} 1 := by
  have size : scattered.nodes.length ≠ 0 := by rw [scatteredLength]; decide
  intro largest
  obtain ⟨i,visible⟩ := (largestStored .newestFirst size 20).mp largest
  rw [edgelessVisits rfl,scatteredLength] at visible
  norm_num at visible

/- Fewer nodes always leave one that is visited often enough. -/
theorem smallVisited (small : g.nodes.length < 2^23) (nonempty : g.nodes ≠ []) (k : Nat) :
    ∃ i, 1 / 2^23 < g.visits d k i := by
  have size : 0 < g.nodes.length := List.length_pos_iff.mpr nonempty
  have some_node : Nonempty (Fin g.nodes.length) := ⟨⟨0,size⟩⟩
  obtain ⟨i,average⟩ := Chain.someAverage (Chain.massAfter (Chain.dampedRows (d := d) g.walkRows) k)
  rw [Fintype.card_fin] at average
  have count : (g.nodes.length : ℚ) < 2^23 := by exact_mod_cast small
  exact ⟨i,(one_div_lt_one_div_of_lt (Nat.cast_pos.mpr size) count).trans_le average⟩

/- The largest weight is one exactly when some node is visited more often than the guard asks. -/
theorem normalizedIff (adjacency : Order) (g : DiGraph CheckedRat) (d : ℚ) (nonempty : g.nodes ≠ []) (k : Nat) :
    IsGreatest {w : ℚ | some w ∈ (computePagerank adjacency g (some d) k).nodes.map NodeData.pagerankWeight} 1 ↔
      ∃ i, 1 / 2^23 < g.visits d k i := largestStored adjacency (mt List.length_eq_zero_iff.mp nonempty) k

theorem forkedNormalized : IsGreatest {w : ℚ | some w ∈ (computePagerank .newestFirst forked
    (some (85 / 100)) 20).nodes.map NodeData.pagerankWeight} 1 :=
  (normalizedIff .newestFirst forked (85 / 100) (List.cons_ne_nil _ _) 20).mpr
    (smallVisited (by decide) (List.cons_ne_nil _ _) 20)

end refines
end OrpheusGraph
