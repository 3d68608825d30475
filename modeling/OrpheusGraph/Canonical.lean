import OrpheusGraph.Fold
import OrpheusGraph.Written

/-! Building does not depend on the order of its inputs. Nodes are sorted by name, the
additions of one source's share into different cells commute and those into one cell are
the same addition, and edges are sorted by all their fields. -/
namespace OrpheusGraph
variable {W : Type}

/- Weights that compare equal by bit pattern are equal. -/
class ExactCmp (W : Type) [TotalCmp W] : Prop where
  exact : ∀ {a b : W}, TotalCmp.totalCmp a b = .eq → a = b

/-! Inputs that differ in the order and the repetition of ACL tags. -/
theorem memDestutter (tags : List String) (tag : String) :
    tag ∈ tags.destutter (· ≠ ·) ↔ tag ∈ tags := by
  have from_ : ∀ (rest : List String) (last : String),
      tag ∈ rest.destutter' (· ≠ ·) last ↔ tag = last ∨ tag ∈ rest := by
    intro rest
    induction rest with
    | nil => intro last; simp
    | cons next rest ih =>
      intro last
      rw [List.destutter'_cons]
      by_cases same : last = next
      · simp [same,ih]
      · simp [same,ih]
  cases tags with
  | nil => simp
  | cons first rest => rw [List.destutter_cons',from_,List.mem_cons]

theorem memNormalizeAcl (acl : List String) (tag : String) : tag ∈ normalizeAcl acl ↔ tag ∈ acl := by
  rw [normalizeAcl,memDestutter,List.mem_insertionSort]

theorem normalizeAclSame {acl acl' : List String} (same : ∀ tag, tag ∈ acl ↔ tag ∈ acl') :
    normalizeAcl acl = normalizeAcl acl' := by
  have left := normalizeAclIncreasing acl
  have right := normalizeAclIncreasing acl'
  have perm : (normalizeAcl acl).Perm (normalizeAcl acl') :=
    (List.perm_ext_iff_of_nodup (left.imp ne_of_lt) (right.imp ne_of_lt)).mpr
      (fun tag => by rw [memNormalizeAcl,memNormalizeAcl,same])
  exact perm.eq_of_pairwise (fun a b _ _ lt gt => absurd (lt.trans gt) (lt_irrefl a)) left right

structure SameEdge (e e' : EdgeInput W) : Prop where
  fields : e' = { e with acl := e'.acl }
  acl : ∀ tag, tag ∈ e.acl ↔ tag ∈ e'.acl

/- The same edges in another order, each with its ACL listed in another way. -/
def SameInputs (edges edges' : List (EdgeInput W)) : Prop :=
  ∃ listed, edges.Perm listed ∧ List.Forall₂ SameEdge listed edges'

theorem SameEdge.resolved {e e' : EdgeInput W} (same : SameEdge e e') (indexMap : IndexMap String Nat) :
    resolveEdge indexMap e = resolveEdge indexMap e' := by
  have acl := normalizeAclSame same.acl
  rw [same.fields]
  unfold resolveEdge builtEdge
  simp only [acl]

theorem SameInputs.resolved {edges edges' : List (EdgeInput W)} (same : SameInputs edges edges')
    (indexMap : IndexMap String Nat) :
    (edges.filterMap (resolveEdge indexMap)).Perm (edges'.filterMap (resolveEdge indexMap)) := by
  obtain ⟨listed,perm,each⟩ := same
  have equal : listed.filterMap (resolveEdge indexMap) = edges'.filterMap (resolveEdge indexMap) := by
    clear perm
    induction each with
    | nil => rfl
    | cons head _ ih => rw [List.filterMap_cons,List.filterMap_cons,head.resolved,ih]
  exact equal ▸ perm.filterMap _

theorem sortedNodesPerm {nodes nodes' : List (NodeInput W)} (distinct : (nodes.map NodeInput.name).Nodup)
    (perm : nodes.Perm nodes') : sortedNodes nodes = sortedNodes nodes' := by
  have distinct' := (perm.map NodeInput.name).nodup_iff.mp distinct
  have same := (Fold.sortedDistinct distinct).trans (perm.trans (Fold.sortedDistinct distinct').symm)
  have sorted : ∀ ns : List (NodeInput W), (sortedNodes ns).Pairwise (fun a b => a.name ≤ b.name) := by
    intro ns
    have total : Std.Total (fun a b : NodeInput W => a.name ≤ b.name) := ⟨fun a b => le_total a.name b.name⟩
    have trans : IsTrans (NodeInput W) (fun a b => a.name ≤ b.name) := ⟨fun a b c => le_trans⟩
    exact List.pairwise_insertionSort _ _
  refine same.eq_of_pairwise (fun a b left right le ge => ?_) (sorted nodes) (sorted nodes')
  have inside := (Fold.sortedDistinct distinct).mem_iff.mp left
  have inside' := perm.mem_iff.mpr ((Fold.sortedDistinct distinct').mem_iff.mp right)
  exact List.inj_on_of_nodup_map distinct inside inside' (le_antisymm le ge)

/-! PageRank. -/
section pagerank
variable [Arith W] {g g' : DiGraph W}
open Arith

omit [Arith W] in
theorem modifySwap (cells : List W) (f : W → W) (i j : Nat) :
    (cells.modify i f).modify j f = (cells.modify j f).modify i f := by
  apply List.ext_getElem?
  intro k
  simp only [List.getElem?_modify]
  by_cases left : i = k <;> by_cases right : j = k <;> simp [left,right]

omit [Arith W] in
theorem outgoingPerm (edges : g.edges.Perm g'.edges) (adjacency adjacency' : Order) (i : Nat) :
    (g.outgoing adjacency i).Perm (g'.outgoing adjacency' i) :=
  (adjacency.perm _).trans ((edges.filter _).trans (adjacency'.perm _).symm)

theorem spreadPerm (edges : g.edges.Perm g'.edges) (adjacency adjacency' : Order) (damping : W)
    (outDegree : List Nat) (scores start : List W) :
    spreadScores adjacency g damping outDegree scores start =
      spreadScores adjacency' g' damping outDegree scores start := by
  unfold spreadScores
  congr 1
  funext fresh x
  split
  · rfl
  · exact (outgoingPerm edges adjacency adjacency' x.2).foldl_eq'
      (fun e _ e' _ cells => modifySwap cells _ e.2.1 e'.2.1) fresh

theorem scoresPerm (nodes : g.nodes = g'.nodes) (edges : g.edges.Perm g'.edges) (adjacency adjacency' : Order)
    (damping : W) (iterations : Nat) : pagerankScores adjacency g damping iterations =
      pagerankScores adjacency' g' damping iterations := by
  have degrees : (fun i => (g.outgoing adjacency i).length) = (fun i => (g'.outgoing adjacency' i).length) :=
    funext (fun i => (outgoingPerm edges adjacency adjacency' i).length_eq)
  have step : ∀ outDegree, pagerankStep adjacency g damping outDegree =
      pagerankStep adjacency' g' damping outDegree := by
    intro outDegree
    funext scores
    simp only [pagerankStep,nodes,spreadPerm edges adjacency adjacency']
  simp only [pagerankScores,nodes,degrees,step]

theorem rankedPerm (nodes : g.nodes = g'.nodes) (edges : g.edges.Perm g'.edges) (adjacency adjacency' : Order)
    (damping : W) (iterations : Nat) : (computePagerank adjacency g damping iterations).nodes =
      (computePagerank adjacency' g' damping iterations).nodes := by
  simp only [computePagerank,nodes,scoresPerm nodes edges adjacency adjacency']

end pagerank

/-! The snapshot. -/
theorem mapMFilter {α β : Type} (f : α → Option β) (xs : List α) :
    xs.mapM f = if xs.all (fun x => (f x).isSome) then some (xs.filterMap f) else none := by
  induction xs with
  | nil => rfl
  | cons x rest ih =>
    rw [List.mapM_cons,ih]
    cases value : f x with
    | none => simp [value]
    | some y => by_cases rest' : rest.all (fun x => (f x).isSome) = true <;> simp [value,rest']

theorem csrTie [TotalCmp W] [ExactCmp W] {a b : CsrEdge W} (tie : a.cmp b = .eq) : a = b := by
  obtain ⟨source,tie⟩ := Ordering.then_eq_eq.mp tie
  obtain ⟨target,tie⟩ := Ordering.then_eq_eq.mp tie
  obtain ⟨kind,tie⟩ := Ordering.then_eq_eq.mp tie
  obtain ⟨field,tie⟩ := Ordering.then_eq_eq.mp tie
  obtain ⟨weight,tie⟩ := Ordering.then_eq_eq.mp tie
  obtain ⟨opens,tie⟩ := Ordering.then_eq_eq.mp tie
  obtain ⟨closes,acl⟩ := Ordering.then_eq_eq.mp tie
  cases a
  cases b
  simp only [CsrEdge.mk.injEq]
  exact ⟨Std.LawfulEqOrd.eq_of_compare source,Std.LawfulEqOrd.eq_of_compare target,
    Std.LawfulEqOrd.eq_of_compare kind,Std.LawfulEqOrd.eq_of_compare field,ExactCmp.exact weight,
    Std.LawfulEqOrd.eq_of_compare opens,Std.LawfulEqOrd.eq_of_compare closes,
    Std.LawfulEqOrd.eq_of_compare acl⟩

theorem snapshotPerm [TotalCmp W] [ExactCmp W] (hash : String → Nat) {g g' : OrpheusGraphInner W}
    (nodes : g.graph.nodes = g'.graph.nodes) (edges : g.graph.edges.Perm g'.graph.edges) :
    toRkyvV2 hash g = toRkyvV2 hash g' := by
  have names : g.names = g'.names := by rw [OrpheusGraphInner.names,nodes]; rfl
  unfold toRkyvV2
  simp only [nodes,names,mapMFilter,edges.all_eq]
  split
  · have sorted := Sorting.sortedUnique edgeCmpLawful (edges.filterMap (csrEdge g'.names
      (indexNodes (g'.graph.nodes.mergeSort (fun a b => decide (a.name ≤ b.name))))))
      (fun _ _ _ _ => csrTie)
    simp only [Option.bind_eq_bind,Option.bind_some,sorted]
  · rfl

theorem buildOrderIrrelevant [Arith W] [TotalCmp W] [ExactCmp W] (hash : String → Nat)
    (adjacency adjacency' : Order) {nodes nodes' : List (NodeInput W)} {edges edges' : List (EdgeInput W)}
    (distinct : (nodes.map NodeInput.name).Nodup) (sameNodes : nodes.Perm nodes')
    (sameEdges : SameInputs edges edges') : toRkyvV2 hash (buildGraph adjacency nodes edges) =
      toRkyvV2 hash (buildGraph adjacency' nodes' edges') := by
  have inserted : builtNodes nodes true = builtNodes nodes' true := by
    simp only [builtNodes,sortedNodesPerm distinct sameNodes]
  have resolved : (edges.filterMap (resolveEdge (indexNodes (builtNodes nodes true)))).Perm
      (edges'.filterMap (resolveEdge (indexNodes (builtNodes nodes' true)))) := by
    rw [← inserted]
    exact sameEdges.resolved _
  apply snapshotPerm
  · show (computePagerank adjacency _ Arith.damping 20).nodes = (computePagerank adjacency' _ Arith.damping 20).nodes
    exact rankedPerm inserted resolved adjacency adjacency' Arith.damping 20
  · exact resolved

instance : ExactCmp Unit := ⟨fun _ => rfl⟩

def loopInput (acl : List String) : EdgeInput Unit := ⟨"a","a","calls",none,(),none,none,acl⟩

theorem shuffledBuild :
    toRkyvV2 (fun _ => 7) (buildGraph .insertion [⟨"b","module",∅,(),()⟩,⟨"a","module",∅,(),()⟩]
      [loopInput ["ops","dev"],loopInput []]) =
    toRkyvV2 (fun _ => 7) (buildGraph .newestFirst [⟨"a","module",∅,(),()⟩,⟨"b","module",∅,(),()⟩]
      [loopInput [],loopInput ["dev","ops","dev"]]) := by
  have tags : ∀ tag, tag ∈ ["ops","dev"] ↔ tag ∈ ["dev","ops","dev"] := by
    intro tag
    simp only [List.mem_cons,List.not_mem_nil,or_false]
    tauto
  exact buildOrderIrrelevant _ _ _ (by decide) (.swap _ _ _)
    ⟨[loopInput [],loopInput ["ops","dev"]],.swap _ _ _,
      .cons ⟨rfl,fun _ => .rfl⟩ (.cons ⟨rfl,tags⟩ .nil)⟩

end OrpheusGraph
