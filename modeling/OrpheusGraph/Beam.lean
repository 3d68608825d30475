import OrpheusGraph.Paths
import OrpheusGraph.Lib.Walks

/-! What a beam returns. A level holds exactly the fresh neighbours of its frontier that a
score exists for, so nothing of how they were enumerated is left in it; with room for every
node the levels are those of a breadth-first search. -/
namespace OrpheusGraph
open Walks
variable {W : Type}

/- An edge of the base or the overlay that the context sees. -/
def Joined (graph : GraphAccessor W) (ctx : DynamicContext W) (u v : String) : Prop :=
  (∃ b ∈ visibleBase graph ctx u, b.targetName = v) ∨ ∃ x ∈ visibleOverlay ctx u, x.2.1 = v

/- In the base or among the overlay nodes. -/
def Resolvable (graph : GraphAccessor W) (ctx : DynamicContext W) (n : String) : Prop :=
  (graph.getNode n).isSome = true ∨ n ∈ ctx.overlayNodes.map NodeData.name

section scores
variable [Arith W]

omit [Arith W] in
theorem overlayKnown (ctx : DynamicContext W) (n : String) :
    ((OverlayIndex.build ctx).nodes.get n).isSome = true ↔ n ∈ ctx.overlayNodes.map NodeData.name := by
  rw [nodeBuild,List.getLast?_isSome,List.mem_map,ne_eq,List.filter_eq_nil_iff]
  push Not
  simp only [beq_iff_eq]

theorem scoredIff (graph : GraphAccessor W) (ctx : DynamicContext W) (n : String) :
    (scoreOf graph ctx (.build ctx) n).isSome = true ↔ Resolvable graph ctx n := by
  rw [Resolvable,← overlayKnown]
  unfold scoreOf
  cases graph.getNode n <;> simp [resolveOverlayNodeIndexed]

/-! One level. -/
/- A map of names to the scores they have. -/
def Gathered (graph : GraphAccessor W) (ctx : DynamicContext W) (m : IndexMap String (NodeResult W)) : Prop :=
  ∀ n r, m.get n = some r → scoreOf graph ctx (.build ctx) n = some r

theorem keepBestGet {graph : GraphAccessor W} {ctx : DynamicContext W} {m : IndexMap String (NodeResult W)}
    (gathered : Gathered graph ctx m) {name : String} {r : NodeResult W}
    (scored : scoreOf graph ctx (.build ctx) name = some r) (n : String) :
    (keepBest m name r).get n = if n = name then some r else m.get n := by
  rw [keepBest,IndexMap.getInsert]
  cases held : m.get name with
  | none => rfl
  | some existing =>
    have same := (gathered name existing held).symm.trans scored
    cases Option.some.inj same
    simp

theorem levelNeighborGet {graph : GraphAccessor W} {ctx : DynamicContext W} {visited : List String}
    {m : IndexMap String (NodeResult W)} (gathered : Gathered graph ctx m) (e : NeighborEntry W) (n : String) :
    (levelNeighbor graph ctx (.build ctx) visited m e).get n =
      if n = e.name ∧ n ∉ visited then scoreOf graph ctx (.build ctx) n else m.get n := by
  unfold levelNeighbor
  split
  · rename_i old
    rw [if_neg]
    rintro ⟨rfl,fresh⟩
    exact fresh old
  · rename_i fresh
    cases scored : scoreOf graph ctx (.build ctx) e.name with
    | none =>
      show m.get n = _
      cases decEq n e.name with
      | isTrue same =>
        cases held : m.get n with
        | none => simp [same,scored]
        | some r => simp [gathered n r held]
      | isFalse other => simp [other]
    | some r =>
      show (keepBest m e.name r).get n = _
      rw [keepBestGet gathered scored]
      cases decEq n e.name with
      | isTrue same => simp [same,fresh,scored]
      | isFalse other => simp [other]

theorem levelNeighborsGet {graph : GraphAccessor W} {ctx : DynamicContext W} {visited : List String}
    (es : List (NeighborEntry W)) {m : IndexMap String (NodeResult W)} (gathered : Gathered graph ctx m)
    (n : String) : (es.foldl (levelNeighbor graph ctx (.build ctx) visited) m).get n =
      if n ∈ es.map NeighborEntry.name ∧ n ∉ visited then scoreOf graph ctx (.build ctx) n else m.get n := by
  induction es generalizing m with
  | nil => simp
  | cons e rest ih =>
    have kept : Gathered graph ctx (levelNeighbor graph ctx (.build ctx) visited m e) := by
      intro n r found
      rw [levelNeighborGet gathered] at found
      split at found
      · exact found
      · exact gathered n r found
    rw [List.foldl_cons,ih kept,levelNeighborGet gathered]
    simp only [List.map_cons,List.mem_cons]
    cases decEq n e.name with
    | isTrue same =>
      subst same
      rcases em (e.name ∈ visited) with old | fresh
      · simp [old]
      · simp [fresh]
    | isFalse other => simp [other]

/- The names next to a frontier. -/
def reachedBy (graph : GraphAccessor W) (ctx : DynamicContext W) (frontier : List String) : List String :=
  frontier.flatMap (fun u => (neighborsWithOverlay graph ctx u).map NeighborEntry.name)

theorem levelGet (graph : GraphAccessor W) (ctx : DynamicContext W) (visited frontier : List String)
    (n : String) : (levelOf graph ctx (.build ctx) visited frontier).get n =
      if n ∈ reachedBy graph ctx frontier ∧ n ∉ visited then scoreOf graph ctx (.build ctx) n else none := by
  have flat : levelOf graph ctx (.build ctx) visited frontier =
      (frontier.flatMap (neighborsWithOverlay graph ctx)).foldl
        (levelNeighbor graph ctx (.build ctx) visited) ∅ := (List.foldl_flatMap).symm
  have none : Gathered graph ctx ∅ := fun n r found => by cases found
  rw [flat,levelNeighborsGet _ none,List.map_flatMap]
  rfl

end scores

/-! The candidates of a level. -/
section levels
variable [Arith W] [TotalCmp W]

def candidatesOf (order : Order) (graph : GraphAccessor W) (ctx : DynamicContext W) (k : Nat)
    (visited frontier : List String) : List (NodeResult W) :=
  (byWeight (order.arrange ((levelOf graph ctx (.build ctx) visited frontier).entries.map Prod.snd))).take k

omit [Arith W] [TotalCmp W] in
theorem markedAll (results : List (NodeResult W)) (visited next : List String)
    (once : (results.map NodeResult.name).Nodup) (fresh : ∀ r ∈ results, r.name ∉ visited) :
    results.foldl markVisited (visited,next) =
      ((results.map NodeResult.name).reverse ++ visited,next ++ results.map NodeResult.name) := by
  induction results generalizing visited next with
  | nil => simp
  | cons r rest ih =>
    obtain ⟨other,tail⟩ := List.nodup_cons.mp once
    have marked : markVisited (visited,next) r = (r.name :: visited,next ++ [r.name]) :=
      if_neg (fresh r List.mem_cons_self)
    rw [List.foldl_cons,marked,ih _ _ tail]
    · simp
    · intro x later member
      rcases List.mem_cons.mp member with same | old
      · exact other (same ▸ List.mem_map_of_mem later)
      · exact fresh x (List.mem_cons_of_mem r later) old

variable {graph : GraphAccessor W} {ctx : DynamicContext W} (order : Order) (k : Nat)
  (visited frontier : List String)

theorem arrangedMember {r : NodeResult W} :
    r ∈ byWeight (order.arrange ((levelOf graph ctx (.build ctx) visited frontier).entries.map Prod.snd)) ↔
      ∃ n, (levelOf graph ctx (.build ctx) visited frontier).get n = some r := by
  rw [byWeight,List.mem_mergeSort,(order.perm _).mem_iff,List.mem_map]
  constructor
  · rintro ⟨⟨n,x⟩,member,rfl⟩
    exact ⟨n,getOfMem member⟩
  · rintro ⟨n,found⟩
    exact ⟨(n,r),memOfGet found,rfl⟩

/- What is known of a node that a level lets through. -/
structure Fresh (graph : GraphAccessor W) (ctx : DynamicContext W) (visited frontier : List String)
    (r : NodeResult W) : Prop where
  scored : scoreOf graph ctx (.build ctx) r.name = some r
  reached : r.name ∈ reachedBy graph ctx frontier
  unseen : r.name ∉ visited

omit [TotalCmp W] in
theorem arrangedFresh (named : graph.Named) {r : NodeResult W} :
    (∃ n, (levelOf graph ctx (.build ctx) visited frontier).get n = some r) ↔
      Fresh graph ctx visited frontier r := by
  constructor
  · rintro ⟨n,found⟩
    rw [levelGet] at found
    split at found
    · rename_i fresh
      cases scoreNamed named ctx found
      exact ⟨found,fresh.1,fresh.2⟩
    · cases found
  · rintro ⟨scored,reached,unseen⟩
    exact ⟨r.name,by rw [levelGet,if_pos ⟨reached,unseen⟩,scored]⟩

theorem candidateFresh (named : graph.Named) {r : NodeResult W}
    (member : r ∈ candidatesOf order graph ctx k visited frontier) : Fresh graph ctx visited frontier r :=
  (arrangedFresh visited frontier named).mp
    ((arrangedMember order visited frontier).mp (List.mem_of_mem_take member))

theorem candidatesAll (named : graph.Named)
    (wide : (levelOf graph ctx (.build ctx) visited frontier).entries.length ≤ k) {r : NodeResult W}
    (fresh : Fresh graph ctx visited frontier r) : r ∈ candidatesOf order graph ctx k visited frontier := by
  have member := (arrangedMember order visited frontier).mpr ((arrangedFresh visited frontier named).mpr fresh)
  rw [candidatesOf,List.take_of_length_le]
  · exact member
  · rwa [byWeight,List.length_mergeSort,(order.perm _).length_eq,List.length_map]

theorem candidatesOnce (named : graph.Named) :
    ((candidatesOf order graph ctx k visited frontier).map NodeResult.name).Nodup := by
  have sorted := (List.mergeSort_perm (order.arrange
    ((levelOf graph ctx (.build ctx) visited frontier).entries.map Prod.snd))
    (fun a b => (a.cmp b).isLE)).trans (order.perm _)
  have distinct := (levelNamed named ctx visited frontier).values ▸ IndexMap.keysNodup _
  exact ((sorted.map NodeResult.name).nodup_iff.mpr distinct).sublist ((List.take_sublist k _).map _)

theorem levelsStep (named : graph.Named) (depth : Nat) (more : frontier ≠ []) :
    beamLevels order graph ctx (.build ctx) k (depth + 1) visited frontier =
      candidatesOf order graph ctx k visited frontier ++
        beamLevels order graph ctx (.build ctx) k depth
          (((candidatesOf order graph ctx k visited frontier).map NodeResult.name).reverse ++ visited)
          ((candidatesOf order graph ctx k visited frontier).map NodeResult.name) := by
  have marked := markedAll (candidatesOf order graph ctx k visited frontier) visited []
    (candidatesOnce order k visited frontier named)
    (fun r member => (candidateFresh order k visited frontier named member).unseen)
  have step : beamLevels order graph ctx (.build ctx) k (depth + 1) visited frontier =
      if frontier.isEmpty then [] else candidatesOf order graph ctx k visited frontier ++
        beamLevels order graph ctx (.build ctx) k depth
          ((candidatesOf order graph ctx k visited frontier).foldl markVisited (visited,[])).1
          ((candidatesOf order graph ctx k visited frontier).foldl markVisited (visited,[])).2 := rfl
  rw [step,marked,if_neg (by simpa using more)]
  rfl

/- The names the code visits from a node. -/
def Next (graph : GraphAccessor W) (ctx : DynamicContext W) (u v : String) : Prop :=
  v ∈ (neighborsWithOverlay graph ctx u).map NeighborEntry.name

/- The levels below a frontier. -/
structure Levels (graph : GraphAccessor W) (ctx : DynamicContext W) (k depth : Nat)
    (visited frontier : List String) (results : List (NodeResult W)) : Prop where
  bound : results.length ≤ k * depth
  once : (results.map NodeResult.name).Nodup
  unseen : ∀ r ∈ results, r.name ∉ visited
  scored : ∀ r ∈ results, scoreOf graph ctx (.build ctx) r.name = some r
  walk : ∀ r ∈ results, ∃ u ∈ frontier, ∃ j, j ≤ depth ∧
    Walk (Next graph ctx) (· ∈ results.map NodeResult.name) j u r.name

omit [TotalCmp W] in
theorem Levels.none (graph : GraphAccessor W) (ctx : DynamicContext W) (k depth : Nat) :
    Levels graph ctx k depth visited frontier [] where
  bound := Nat.zero_le _
  once := List.nodup_nil
  unseen _ member := absurd member List.not_mem_nil
  scored _ member := absurd member List.not_mem_nil
  walk _ member := absurd member List.not_mem_nil

omit [TotalCmp W] in
theorem Levels.cons {depth : Nat} {candidates below : List (NodeResult W)} (few : candidates.length ≤ k)
    (distinct : (candidates.map NodeResult.name).Nodup)
    (fresh : ∀ r ∈ candidates, Fresh graph ctx visited frontier r)
    (rest : Levels graph ctx k depth ((candidates.map NodeResult.name).reverse ++ visited)
      (candidates.map NodeResult.name) below) :
    Levels graph ctx k (depth + 1) visited frontier (candidates ++ below) where
  bound := by
    have below := rest.bound
    rw [List.length_append,Nat.mul_succ]
    omega
  once := by
    rw [List.map_append]
    refine List.nodup_append.mpr ⟨distinct,rest.once,fun n here m later same => ?_⟩
    obtain ⟨r,member,rfl⟩ := List.mem_map.mp later
    exact rest.unseen r member (List.mem_append_left _ (List.mem_reverse.mpr (same ▸ here)))
  unseen r member := by
    rcases List.mem_append.mp member with here | later
    · exact (fresh r here).unseen
    · exact fun old => rest.unseen r later (List.mem_append_right _ old)
  scored r member := by
    rcases List.mem_append.mp member with here | later
    · exact (fresh r here).scored
    · exact rest.scored r later
  walk r member := by
    have step : ∀ c ∈ candidates, ∃ u ∈ frontier, Next graph ctx u c.name :=
      fun c listed => List.mem_flatMap.mp (fresh c listed).reached
    have inside : ∀ n, n ∈ candidates.map NodeResult.name → n ∈ (candidates ++ below).map NodeResult.name :=
      fun n listed => by rw [List.map_append]; exact List.mem_append_left _ listed
    rcases List.mem_append.mp member with here | later
    · obtain ⟨u,source,edge⟩ := step r here
      exact ⟨u,source,1,Nat.succ_le_succ (Nat.zero_le _),
        .step edge (inside _ (List.mem_map_of_mem here)) (.here _)⟩
    · obtain ⟨v,listed,j,within,walk⟩ := rest.walk r later
      obtain ⟨c,here,rfl⟩ := List.mem_map.mp listed
      obtain ⟨u,source,edge⟩ := step c here
      refine ⟨u,source,j + 1,Nat.succ_le_succ within,.step edge (inside _ listed)
        (walk.mono (fun _ _ h => h) (fun n inner => ?_))⟩
      rw [List.map_append]
      exact List.mem_append_right _ inner

theorem beamLevelsHold (ctx : DynamicContext W) (named : graph.Named) (depth : Nat) :
    Levels graph ctx k depth visited frontier
      (beamLevels order graph ctx (.build ctx) k depth visited frontier) := by
  induction depth generalizing visited frontier with
  | zero => exact .none visited frontier graph ctx k 0
  | succ depth ih =>
    rcases em (frontier = []) with rfl | more
    · exact .none visited [] graph ctx k (depth + 1)
    · rw [levelsStep order k visited frontier named depth more]
      exact .cons k visited frontier (List.length_take_le k _) (candidatesOnce order k visited frontier named)
        (fun r member => candidateFresh order k visited frontier named member) (ih _ _)

/-! The whole beam. -/
theorem beamHolds (ctx : DynamicContext W) (named : graph.Named) (start : String) (depth : Nat) :
    Levels graph ctx k depth [start] [start] (beamTraverse order graph ctx start k depth) := by
  have held := beamLevelsHold order k [start] [start] ctx named depth
  have perm : (beamTraverse order graph ctx start k depth).Perm
      (beamLevels order graph ctx (.build ctx) k depth [start] [start]) := List.mergeSort_perm _ _
  have names := perm.map NodeResult.name
  constructor
  · exact perm.length_eq ▸ held.bound
  · exact names.nodup_iff.mpr held.once
  · exact fun r member => held.unseen r (perm.mem_iff.mp member)
  · exact fun r member => held.scored r (perm.mem_iff.mp member)
  · intro r member
    obtain ⟨u,source,j,within,walk⟩ := held.walk r (perm.mem_iff.mp member)
    exact ⟨u,source,j,within,walk.mono (fun _ _ h => h) (fun _ inner => names.mem_iff.mpr inner)⟩

end levels

/-! The edges a query follows. -/
section edges
variable [Arith W] {graph : GraphAccessor W} {ctx : DynamicContext W}

/- A hub whose base edges the cutoff drops. -/
def cutOff (graph : GraphAccessor W) (ctx : DynamicContext W) (n : String) : Bool :=
  (graph.getNode n).any (fun node => ctx.maxFanOut.any (· < (graph.outgoingNeighbors n).length) &&
    !hasSemanticBoost ctx n && !hasHighPagerank ctx node)

/- A visible edge that the cutoff leaves. -/
def Leads (graph : GraphAccessor W) (ctx : DynamicContext W) (u v : String) : Prop :=
  (cutOff graph ctx u = false ∧ ∃ b ∈ visibleBase graph ctx u, b.targetName = v) ∨
    ∃ x ∈ visibleOverlay ctx u, x.2.1 = v

/- Such an edge with all its fields. -/
def Seen (graph : GraphAccessor W) (ctx : DynamicContext W) (u : String) (e : NeighborEntry W) : Prop :=
  (cutOff graph ctx u = false ∧ ∃ b ∈ visibleBase graph ctx u, e = .ofBase b) ∨
    ∃ x ∈ visibleOverlay ctx u, e = .ofOverlay x

theorem cutOffUncut (graph : GraphAccessor W) (uncut : ctx.maxFanOut = none) (n : String) :
    cutOff graph ctx n = false := by
  unfold cutOff
  cases graph.getNode n <;> simp [uncut]

theorem leadsUncut (uncut : ctx.maxFanOut = none) {u v : String} :
    Leads graph ctx u v ↔ Joined graph ctx u v := by
  rw [Leads,Joined,cutOffUncut graph uncut]
  simp

theorem baseVisible (graph : GraphAccessor W) (ctx : DynamicContext W) (n : String) :
    (baseEntries graph ctx n).filter (·.visible ctx) =
      if (graph.getNode n).isSome = true ∧ cutOff graph ctx n = false then
        (visibleBase graph ctx n).map .ofBase else [] := by
  rw [← visibleEntries]
  unfold baseEntries cutOff
  cases graph.getNode n with
  | none => simp
  | some node =>
    cases hub : ctx.maxFanOut.any (· < (graph.outgoingNeighbors n).length) && !hasSemanticBoost ctx n &&
        !hasHighPagerank ctx node <;> simp [hub]

theorem neighborsVisible (graph : GraphAccessor W) (ctx : DynamicContext W) (n : String) :
    neighborsWithOverlay graph ctx n =
      (if (graph.getNode n).isSome = true ∧ cutOff graph ctx n = false then
        (visibleBase graph ctx n).map .ofBase else []) ++ (visibleOverlay ctx n).map .ofOverlay := by
  rw [neighborsWithOverlay,neighborsWithOverlayIndexed,neighborsWithOverlayUnfiltered,collectVisible,
    baseVisible]
  rfl

/- The two ways to resolve an overlay node, and a node's neighbours through the index. -/
theorem overlayIndexAnswers (graph : GraphAccessor W) (ctx : DynamicContext W) (n : String) :
    resolveOverlayNode n ctx =
      ((ctx.overlayNodes.filter (fun nd => nd.name == n)).head?).map NodeView.ofData ∧
    resolveOverlayNodeIndexed n (.build ctx) =
      ((ctx.overlayNodes.filter (fun nd => nd.name == n)).getLast?).map NodeView.ofData ∧
    (resolveOverlayNodeIndexed n (.build ctx) = resolveOverlayNode n ctx ↔
      (ctx.overlayNodes.filter (fun nd => nd.name == n)).getLast? =
        (ctx.overlayNodes.filter (fun nd => nd.name == n)).head?) ∧
    neighborsWithOverlayIndexed graph ctx (.build ctx) n =
      (if (graph.getNode n).isSome = true ∧ cutOff graph ctx n = false then
        (visibleBase graph ctx n).map .ofBase else []) ++ (visibleOverlay ctx n).map .ofOverlay := by
  refine ⟨resolveFirst ctx n,resolveLast ctx n,?_,neighborsVisible graph ctx n⟩
  have injective : Function.Injective (NodeView.ofData (W := W)) := by
    intro a b same
    cases a
    cases b
    cases same
    rfl
  rw [resolveFirst,resolveLast,(Option.map_injective injective).eq_iff]

def twiceDefined : DynamicContext Unit :=
  ⟨∅,[⟨"a","first",∅,(),(),()⟩,⟨"a","second",∅,(),(),()⟩],[],∅,(),(),(),(),[],none,none,none,[]⟩

theorem indexTakesOther :
    resolveOverlayNodeIndexed "a" (.build twiceDefined) ≠ resolveOverlayNode "a" twiceDefined := by
  intro same
  have kinds := congrArg (Option.map NodeView.kind) same
  rw [resolveFirst,resolveLast] at kinds
  revert kinds
  decide

theorem nextLeads {u v : String} (next : Next graph ctx u v) : Leads graph ctx u v := by
  obtain ⟨e,listed,rfl⟩ := List.mem_map.mp next
  rw [neighborsVisible] at listed
  rcases List.mem_append.mp listed with base | overlay
  · split at base
    · rename_i kept
      obtain ⟨b,seen,rfl⟩ := List.mem_map.mp base
      exact .inl ⟨kept.2,b,seen,rfl⟩
    · cases base
  · obtain ⟨x,seen,rfl⟩ := List.mem_map.mp overlay
    exact .inr ⟨x,seen,rfl⟩

theorem leadsNext {u : String} (known : ∀ v ∈ graph.outgoingNeighbors u, (graph.getNode u).isSome = true) {v : String}
    (leads : Leads graph ctx u v) : Next graph ctx u v := by
  rw [Next,neighborsVisible]
  rcases leads with ⟨kept,b,seen,rfl⟩ | ⟨x,seen,rfl⟩
  · rw [if_pos ⟨known b (List.mem_of_mem_filter seen),kept⟩]
    exact List.mem_map_of_mem (List.mem_append_left _ (List.mem_map_of_mem seen))
  · exact List.mem_map_of_mem (List.mem_append_right _ (List.mem_map_of_mem seen))

end edges

theorem nodeResultCmpLawful [TotalCmp W] : Std.TransCmp (NodeResult.cmp (W := W)) :=
  Sorting.rankedLawful TotalCmp.lawful

/-! Two presentations with the same scores and the same edges, in whatever order. -/
section presentations
variable [Arith W] [TotalCmp W] {a b : GraphAccessor W} {ctx : DynamicContext W}
  (scores : scoreOf a ctx (.build ctx) = scoreOf b ctx (.build ctx))
  (next : ∀ u v, Next a ctx u v ↔ Next b ctx u v)
include scores next

theorem candidatesAgree (named : a.Named) (order order' : Order) (k : Nat) (visited frontier : List String) :
    candidatesOf order a ctx k visited frontier = candidatesOf order' b ctx k visited frontier := by
  have reached : ∀ n, n ∈ reachedBy a ctx frontier ↔ n ∈ reachedBy b ctx frontier := by
    intro n
    rw [reachedBy,reachedBy,List.mem_flatMap,List.mem_flatMap]
    exact exists_congr (fun u => and_congr_right (fun _ => next u n))
  have same : ∀ n, (levelOf a ctx (.build ctx) visited frontier).get n =
      (levelOf b ctx (.build ctx) visited frontier).get n := by
    intro n
    rw [levelGet,levelGet,scores]
    simp only [reached]
  have values := (entriesOfGet same).map Prod.snd
  have distinct : ((order.arrange ((levelOf a ctx (.build ctx) visited frontier).entries.map Prod.snd)).map
      NodeResult.name).Nodup := by
    rw [((order.perm _).map NodeResult.name).nodup_iff,(levelNamed named ctx visited frontier).values]
    exact IndexMap.keysNodup _
  rw [candidatesOf,candidatesOf,byWeight,byWeight,Sorting.sortedUniqueKey nodeResultCmpLawful
    (Order.arrangedPerm order order' values) distinct (fun _ _ => Sorting.rankedTied)]

theorem beamAgrees (named : a.Named) (named' : b.Named) (order order' : Order) (start : String)
    (k depth : Nat) : beamTraverse order a ctx start k depth = beamTraverse order' b ctx start k depth := by
  have levels : ∀ visited frontier, beamLevels order a ctx (.build ctx) k depth visited frontier =
      beamLevels order' b ctx (.build ctx) k depth visited frontier := by
    induction depth with
    | zero => exact fun _ _ => rfl
    | succ depth ih =>
      intro visited frontier
      rcases em (frontier = []) with rfl | more
      · rfl
      · rw [levelsStep order k visited frontier named depth more,
          levelsStep order' k visited frontier named' depth more,
          candidatesAgree scores next named order order' k visited frontier,ih]
  rw [beamTraverse,beamTraverse,levels]

end presentations

section queries
variable [Arith W] [TotalCmp W]

theorem beamStructure (order order' : Order) {a b : GraphAccessor W} (named : a.Named)
    (nodes : ∀ n, a.getNode n = b.getNode n)
    (outgoing : ∀ n, (a.outgoingNeighbors n).Perm (b.outgoingNeighbors n)) {ctx : DynamicContext W}
    (uncut : ctx.maxFanOut = none) (start : String) (k depth : Nat) :
    beamTraverse order a ctx start k depth = beamTraverse order' b ctx start k depth ∧
    (beamTraverse order a ctx start k depth).length ≤ k * depth ∧
    ((beamTraverse order a ctx start k depth).map NodeResult.name).Nodup ∧
    start ∉ (beamTraverse order a ctx start k depth).map NodeResult.name ∧
    (beamTraverse order a ctx start k depth).Pairwise (fun x y => (x.cmp y).isLE = true) ∧
    ∀ r ∈ beamTraverse order a ctx start k depth, ∃ j, j ≤ depth ∧
      Walk (Joined a ctx) (· ∈ (beamTraverse order a ctx start k depth).map NodeResult.name) j start r.name := by
  have named' : b.Named := fun n v found => named n v ((nodes n).trans found)
  have scores : scoreOf a ctx (.build ctx) = scoreOf b ctx (.build ctx) :=
    scoresOfNodes rfl (fun n => congrArg _ (nodes n))
  have next : ∀ u v, Next a ctx u v ↔ Next b ctx u v := by
    intro u v
    have seen : (visibleBase a ctx u).Perm (visibleBase b ctx u) := (outgoing u).filter _
    rw [Next,Next,neighborsVisible,neighborsVisible,cutOffUncut a uncut,cutOffUncut b uncut,nodes u]
    refine (List.Perm.map _ (List.Perm.append_right _ ?_)).mem_iff
    split
    · exact seen.map _
    · exact .refl _
  have held := beamHolds order k ctx named start depth
  refine ⟨beamAgrees scores next named named' order order' start k depth,held.bound,held.once,?_,
    Sorting.sortedBy nodeResultCmpLawful _,fun r member => ?_⟩
  · intro listed
    obtain ⟨r,member,same⟩ := List.mem_map.mp listed
    exact held.unseen r member (List.mem_singleton.mpr same)
  · obtain ⟨u,source,j,within,walk⟩ := held.walk r member
    cases List.mem_singleton.mp source
    exact ⟨j,within,walk.mono (fun _ _ edge => (leadsUncut uncut).mp (nextLeads edge)) (fun _ inner => inner)⟩

end queries

/- The same two parallel edges, listed newest first and oldest first. -/
theorem twinStructure :
    let a := twinGraph.accessor .newestFirst
    let b := twinGraph.accessor .insertion
    let ctx := plainContext none
    beamTraverse .insertion a ctx "a" 1 2 = beamTraverse .newestFirst b ctx "a" 1 2 ∧
    (beamTraverse .insertion a ctx "a" 1 2).length ≤ 1 * 2 ∧
    ((beamTraverse .insertion a ctx "a" 1 2).map NodeResult.name).Nodup ∧
    "a" ∉ (beamTraverse .insertion a ctx "a" 1 2).map NodeResult.name ∧
    (beamTraverse .insertion a ctx "a" 1 2).Pairwise (fun x y => (x.cmp y).isLE = true) ∧
    ∀ r ∈ beamTraverse .insertion a ctx "a" 1 2, ∃ j, j ≤ 2 ∧
      Walk (Joined a ctx) (· ∈ (beamTraverse .insertion a ctx "a" 1 2).map NodeResult.name) j "a" r.name :=
  beamStructure .insertion .newestFirst (a := twinGraph.accessor .newestFirst)
    (b := twinGraph.accessor .insertion)
    (SameGraph.keepsNames (twinGraph.named .newestFirst (pairIndexed _)) (.refl _)) (fun _ => rfl)
    (OrpheusGraphInner.agreesOfPerm (pairIndexed _) (pairIndexed _) .newestFirst .insertion (.refl _)
      (.refl _)).outgoing rfl "a" 1 2

section queries
variable [Arith W] [TotalCmp W]

/-! Room for every node. -/
omit [TotalCmp W] in
theorem levelNarrow (g : NamedGraph W) {a : GraphAccessor W} (same : SameGraph g.toGraphAccessor a)
    (ctx : DynamicContext W) (visited frontier : List String) :
    (levelOf a ctx (.build ctx) visited frontier).entries.length ≤ a.nodeCount + ctx.overlayNodes.length := by
  have inside : (levelOf a ctx (.build ctx) visited frontier).keys ⊆
      g.names ++ ctx.overlayNodes.map NodeData.name := by
    intro n member
    obtain ⟨r,found⟩ := Option.isSome_iff_exists.mp
      (((levelOf a ctx (.build ctx) visited frontier).containsKeyIff n).mpr member)
    rw [levelGet] at found
    split at found
    · rcases (scoredIff a ctx n).mp (Option.isSome_of_eq_some found) with known | listed
      · exact List.mem_append_left _ ((g.present n).mp ((same.isSome n).trans known))
      · exact List.mem_append_right _ listed
    · cases found
  have few := (List.subperm_of_subset (IndexMap.keysNodup _) inside).length_le
  rwa [List.length_append,List.length_map,← g.countNodes,same.nodeCount,IndexMap.keys,List.length_map]
    at few

theorem levelsComplete {graph : GraphAccessor W} (named : graph.Named) {ctx : DynamicContext W}
    (order : Order) {k : Nat}
    (wide : ∀ visited frontier, (levelOf graph ctx (.build ctx) visited frontier).entries.length ≤ k)
    (depth : Nat) {visited frontier : List String}
    (closed : ∀ x ∈ visited, x ∉ frontier → ∀ y, Next graph ctx x y → Resolvable graph ctx y → y ∈ visited)
    {j : Nat} {u n : String} (walk : Walk (Next graph ctx) (Resolvable graph ctx) j u n)
    (source : u ∈ visited) (within : j ≤ depth) (unseen : n ∉ visited) :
    n ∈ (beamLevels order graph ctx (.build ctx) k depth visited frontier).map NodeResult.name := by
  induction depth generalizing visited frontier j u n with
  | zero =>
    cases walk with
    | here => exact absurd source unseen
    | step => exact absurd within (Nat.not_succ_le_zero _)
  | succ depth deeper =>
    -- The walk is followed to its first node that has not been visited.
    induction walk with
    | here => exact absurd source unseen
    | @step j u w n edge ok rest ih =>
      rcases em (w ∈ visited) with old | fresh
      · exact ih old (Nat.le_of_succ_le within) unseen
      · have listed : u ∈ frontier := by
          by_contra inner
          exact fresh (closed u source inner w edge ok)
        rw [levelsStep order k visited frontier named depth (List.ne_nil_of_mem listed),List.map_append]
        have taken : ∀ x y, x ∈ frontier → Next graph ctx x y → Resolvable graph ctx y → y ∉ visited →
            y ∈ (candidatesOf order graph ctx k visited frontier).map NodeResult.name := by
          intro x y among next resolved new
          obtain ⟨r,scored⟩ := Option.isSome_iff_exists.mp ((scoredIff graph ctx y).mpr resolved)
          cases scoreNamed named ctx scored
          exact List.mem_map_of_mem (candidatesAll order k visited frontier named (wide _ _)
            ⟨scored,List.mem_flatMap.mpr ⟨x,among,next⟩,new⟩)
        rcases em (n ∈ (candidatesOf order graph ctx k visited frontier).map NodeResult.name) with here | later
        · exact List.mem_append_left _ here
        · refine List.mem_append_right _ (deeper ?_ rest ?_ (Nat.le_of_succ_le_succ within) ?_)
          · intro x member outside y next resolved
            rcases List.mem_append.mp member with now | before
            · exact absurd (List.mem_reverse.mp now) outside
            · rcases em (y ∈ visited) with seen | new
              · exact List.mem_append_right _ seen
              · rcases em (x ∈ frontier) with among | inner
                · exact List.mem_append_left _ (List.mem_reverse.mpr (taken x y among next resolved new))
                · exact List.mem_append_right _ (closed x before inner y next resolved)
          · exact List.mem_append_left _ (List.mem_reverse.mpr (taken u w listed edge ok fresh))
          · intro member
            rcases List.mem_append.mp member with now | before
            · exact later (List.mem_reverse.mp now)
            · exact unseen before

omit [Arith W] [TotalCmp W] in
theorem presentedKnown (g : NamedGraph W) {a : GraphAccessor W} (same : SameGraph g.toGraphAccessor a)
    (u : String) : ∀ v ∈ a.outgoingNeighbors u, (a.getNode u).isSome = true := by
  intro v member
  rw [← same.isSome u]
  exact (g.present u).mpr (g.sourcePresent ((same.outgoing u).mem_iff.mpr member))

omit [TotalCmp W] in
theorem nextIff (g : NamedGraph W) {a : GraphAccessor W} (same : SameGraph g.toGraphAccessor a)
    {ctx : DynamicContext W} {u v : String} : Next a ctx u v ↔ Leads a ctx u v :=
  ⟨nextLeads,leadsNext (presentedKnown g same u)⟩

omit [TotalCmp W] in
theorem seenIff (g : NamedGraph W) {a : GraphAccessor W} (same : SameGraph g.toGraphAccessor a)
    {ctx : DynamicContext W} {u : String} {e : NeighborEntry W} :
    e ∈ neighborsWithOverlayIndexed a ctx (.build ctx) u ↔ Seen a ctx u e := by
  show e ∈ neighborsWithOverlay a ctx u ↔ _
  rw [neighborsVisible,List.mem_append,Seen]
  refine or_congr ?_ ⟨fun member => ?_,?_⟩
  · split
    · rename_i kept
      simp [kept.2,eq_comm]
    · rename_i closed
      refine ⟨fun member => absurd member List.not_mem_nil,?_⟩
      rintro ⟨open_,b,seen,_⟩
      exact absurd ⟨presentedKnown g same u b (List.mem_of_mem_filter seen),open_⟩ closed
  · obtain ⟨x,seen,rfl⟩ := List.mem_map.mp member
    exact ⟨x,seen,rfl⟩
  · rintro ⟨x,seen,rfl⟩
    exact List.mem_map_of_mem seen

theorem beamReaches (order : Order) (g : NamedGraph W) {a : GraphAccessor W}
    (same : SameGraph g.toGraphAccessor a) (ctx : DynamicContext W) (start : String) {k : Nat} (depth : Nat)
    (wide : a.nodeCount + ctx.overlayNodes.length ≤ k) (n : String) :
    n ∈ (beamTraverse order a ctx start k depth).map NodeResult.name ↔
      n ≠ start ∧ ∃ j, j ≤ depth ∧ Walk (Leads a ctx) (Resolvable a ctx) j start n := by
  have named := same.keepsNames g
  have held := beamHolds order k ctx named start depth
  constructor
  · intro member
    obtain ⟨r,listed,rfl⟩ := List.mem_map.mp member
    obtain ⟨u,source,j,within,walk⟩ := held.walk r listed
    cases List.mem_singleton.mp source
    refine ⟨fun eq => held.unseen r listed (List.mem_singleton.mpr eq),j,within,
      walk.mono (fun _ _ => nextLeads) (fun n inner => ?_)⟩
    obtain ⟨x,among,rfl⟩ := List.mem_map.mp inner
    exact (scoredIff a ctx x.name).mp (Option.isSome_of_eq_some (held.scored x among))
  · rintro ⟨away,j,within,walk⟩
    have steps := walk.mono (fun u v => (nextIff g same).mpr) (fun _ ok => ok)
    have listed := levelsComplete named order (fun visited frontier =>
      Nat.le_trans (levelNarrow g same ctx visited frontier) wide) depth
      (fun x member outside => absurd member outside) steps (List.mem_singleton.mpr rfl) within
      (fun old => away (List.mem_singleton.mp old))
    exact ((List.mergeSort_perm _ _).map NodeResult.name).mem_iff.mpr listed

theorem beamExhaustive (order : Order) (g : NamedGraph W) {a : GraphAccessor W}
    (same : SameGraph g.toGraphAccessor a) (ctx : DynamicContext W) (start : String) {k : Nat} (depth : Nat)
    (wide : a.nodeCount + ctx.overlayNodes.length ≤ k) :
    ((beamTraverse order a ctx start k depth).map NodeResult.name).Nodup ∧
    ∀ r, r ∈ beamTraverse order a ctx start k depth ↔
      scoreOf a ctx (.build ctx) r.name = some r ∧ r.name ≠ start ∧
      ∃ j, 1 ≤ j ∧ j ≤ depth ∧ Walk (Leads a ctx) (Resolvable a ctx) j start r.name := by
  have held := beamHolds order k ctx (same.keepsNames g) start depth
  have reaches := beamReaches order g same ctx start depth wide
  refine ⟨held.once,fun r => ⟨fun member => ?_,?_⟩⟩
  · obtain ⟨away,j,within,walk⟩ := (reaches r.name).mp (List.mem_map_of_mem member)
    refine ⟨held.scored r member,away,j,?_,within,walk⟩
    cases walk with
    | here => exact absurd rfl away
    | step => exact Nat.succ_le_succ (Nat.zero_le _)
  · rintro ⟨scored,away,j,_,within,walk⟩
    obtain ⟨x,among,name⟩ := List.mem_map.mp ((reaches r.name).mpr ⟨away,j,within,walk⟩)
    have again := held.scored x among
    rw [name,scored] at again
    cases again
    exact among

end queries

theorem pairExhausted :
    let a := (pairGraph [callsEdge]).accessor .newestFirst
    let ctx := plainContext none
    ((beamTraverse .insertion a ctx "a" 2 1).map NodeResult.name).Nodup ∧
    ∀ r, r ∈ beamTraverse .insertion a ctx "a" 2 1 ↔
      scoreOf a ctx (.build ctx) r.name = some r ∧ r.name ≠ "a" ∧
      ∃ j, 1 ≤ j ∧ j ≤ 1 ∧ Walk (Leads a ctx) (Resolvable a ctx) j "a" r.name :=
  beamExhaustive .insertion ((pairGraph [callsEdge]).named .newestFirst (pairIndexed _)) (.refl _)
    (plainContext none) "a" (k := 2) 1 (Nat.le_refl 2)

/- A cutoff of zero hides the one base edge, which the context may see. -/
theorem cutoffStopsBeam : ¬ ∀ (g : NamedGraph Milli) (ctx : DynamicContext Milli) (start : String)
    (k depth : Nat), g.nodeCount + ctx.overlayNodes.length ≤ k → ∀ n,
      n ∈ (beamTraverse .insertion g.toGraphAccessor ctx start k depth).map NodeResult.name ↔
        n ≠ start ∧ ∃ j, 1 ≤ j ∧ j ≤ depth ∧
          Walk (Joined g.toGraphAccessor ctx) (Resolvable g.toGraphAccessor ctx) j start n := by
  intro exhaustive
  have equal := exhaustive ((pairGraph [callsEdge]).named .newestFirst (pairIndexed _)) (plainContext (some 0))
    "a" 2 1 (Nat.le_refl 2) "b"
  have walk : Walk (Joined ((pairGraph [callsEdge]).accessor .newestFirst) (plainContext (some 0)))
      (Resolvable ((pairGraph [callsEdge]).accessor .newestFirst) (plainContext (some 0))) 1 "a" "b" :=
    .step (.inl ⟨.ofEdge "b" callsEdge,List.mem_singleton.mpr rfl,rfl⟩) (.inl rfl) (.here "b")
  have stopped : "b" ∉ (beamTraverse .insertion ((pairGraph [callsEdge]).accessor .newestFirst)
      (plainContext (some 0)) "a" 2 1).map NodeResult.name := by decide +kernel
  exact stopped (equal.mpr ⟨by decide,1,Nat.le_refl 1,Nat.le_refl 1,walk⟩)

end OrpheusGraph
