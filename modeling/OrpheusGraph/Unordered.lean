import OrpheusGraph.Traversal
import OrpheusGraph.Lib.Distinct

/-! No query shows the order in which a hash map lists its entries. Every list read out of
one is sorted by a comparison that ends with the name, and names in it are distinct. -/
namespace OrpheusGraph
variable {W : Type}

def GraphAccessor.Named (g : GraphAccessor W) : Prop := ∀ n v, g.getNode n = some v → v.name = n

theorem SameGraph.keepsNames (g : NamedGraph W) {a : GraphAccessor W}
    (same : SameGraph g.toGraphAccessor a) : a.Named := by
  intro n v found
  have nodes := same.nodes n
  rw [found,Option.map_some] at nodes
  obtain ⟨v',held,unranked⟩ := Option.map_eq_some_iff.mp nodes
  have name : v'.name = v.name := congrArg NodeInput.name unranked
  exact name.symm.trans (g.named n v' held)

theorem Order.arrangedPerm {α : Type} (order order' : Order) {xs ys : List α} (perm : xs.Perm ys) :
    (order.arrange xs).Perm (order'.arrange ys) :=
  (order.perm xs).trans (perm.trans (order'.perm ys).symm)

/- A map from names to results that carry them. -/
def NamesResults (m : IndexMap String (NodeResult W)) : Prop := ∀ e ∈ m.entries, e.2.name = e.1

theorem NamesResults.values {m : IndexMap String (NodeResult W)} (named : NamesResults m) :
    (m.entries.map Prod.snd).map NodeResult.name = m.keys := by
  rw [List.map_map]
  exact List.map_congr_left (fun e member => named e member)

theorem memOfGet {V : Type} {m : IndexMap String V} {k : String} {v : V} (found : m.get k = some v) :
    (k,v) ∈ m.entries := by
  have among : ∀ es : List (String × V), IndexMap.find k es = some v → (k,v) ∈ es := by
    intro es
    induction es with
    | nil => intro found; cases found
    | cons e rest ih =>
      intro found
      rw [IndexMap.find] at found
      split at found
      · rename_i same
        cases Option.some.inj found
        exact same ▸ List.mem_cons_self
      · exact List.mem_cons_of_mem e (ih found)
  exact among m.entries found

theorem getOfMem {V : Type} {m : IndexMap String V} {k : String} {v : V} (member : (k,v) ∈ m.entries) :
    m.get k = some v := by
  have known : (m.get k).isSome = true := (m.containsKeyIff k).mpr (List.mem_map.mpr ⟨_,member,rfl⟩)
  obtain ⟨x,found⟩ := Option.isSome_iff_exists.mp known
  have same : (k,x) = (k,v) := List.inj_on_of_nodup_map m.keysNodup (memOfGet found) member rfl
  rw [found,(Prod.mk.inj same).2]

theorem entriesOfGet {V : Type} {m m' : IndexMap String V} (same : ∀ k, m.get k = m'.get k) :
    m.entries.Perm m'.entries := by
  refine (List.perm_ext_iff_of_nodup m.keysNodup.of_map m'.keysNodup.of_map).mpr (fun e => ?_)
  constructor
  · intro member
    exact memOfGet ((same e.1).symm.trans (getOfMem member))
  · intro member
    exact memOfGet ((same e.1).trans (getOfMem member))

theorem NamesResults.get {m : IndexMap String (NodeResult W)} (named : NamesResults m) {n : String}
    {r : NodeResult W} (found : m.get n = some r) : r.name = n := named _ (memOfGet found)

section scores
variable [Arith W]

theorem keepBestNamed {m : IndexMap String (NodeResult W)} (named : NamesResults m) {name : String}
    {r : NodeResult W} (same : r.name = name) : NamesResults (keepBest m name r) := by
  intro e member
  rcases IndexMap.memInsert m name _ e member with rfl | old
  · cases found : m.get name with
    | none => exact same
    | some existing =>
      show (if Arith.lt existing.weight r.weight then r else existing).name = name
      split
      · exact same
      · exact named.get found
  · exact named e old

omit [Arith W] in
theorem overlayNodeNamed (ctx : DynamicContext W) {n : String} {nd : NodeData W}
    (found : (OverlayIndex.build ctx).nodes.get n = some nd) : nd.name = n := by
  rw [nodeBuild] at found
  simpa using (List.mem_filter.mp (List.mem_of_getLast? found)).2

theorem scoreNamed {graph : GraphAccessor W} (named : graph.Named) (ctx : DynamicContext W)
    {n : String} {r : NodeResult W} (scored : scoreOf graph ctx (.build ctx) n = some r) : r.name = n := by
  unfold scoreOf at scored
  cases found : graph.getNode n with
  | some v =>
    rw [found] at scored
    exact Option.some.inj scored ▸ named n v found
  | none =>
    rw [found] at scored
    simp only [resolveOverlayNodeIndexed,Option.map_map] at scored
    obtain ⟨nd,stored,same⟩ := Option.map_eq_some_iff.mp scored
    exact same ▸ overlayNodeNamed ctx stored

theorem levelNamed {graph : GraphAccessor W} (named : graph.Named) (ctx : DynamicContext W)
    (visited frontier : List String) : NamesResults (levelOf graph ctx (.build ctx) visited frontier) := by
  have neighbor : ∀ (ns : List (NeighborEntry W)) (m : IndexMap String (NodeResult W)), NamesResults m →
      NamesResults (ns.foldl (levelNeighbor graph ctx (.build ctx) visited) m) := by
    intro ns
    induction ns with
    | nil => exact fun _ held => held
    | cons n rest ih =>
      intro m held
      refine ih _ ?_
      unfold levelNeighbor
      split
      · exact held
      · split
        · exact held
        · rename_i scored
          exact keepBestNamed held (scoreNamed named ctx scored)
  have level : ∀ (frontier : List String) (m : IndexMap String (NodeResult W)), NamesResults m →
      NamesResults (frontier.foldl (fun levelMap nodeName =>
        (neighborsWithOverlayIndexed graph ctx (.build ctx) nodeName).foldl
          (levelNeighbor graph ctx (.build ctx) visited) levelMap) m) := by
    intro frontier
    induction frontier with
    | nil => exact fun _ held => held
    | cons n rest ih => exact fun m held => ih _ (neighbor _ m held)
  exact level frontier ∅ (fun e member => by cases member)

end scores

section queries
variable [Arith W] [TotalCmp W]

/-! Each list that is read out of a map. -/
omit [Arith W] in
theorem byWeightUnordered {m : IndexMap String (NodeResult W)} (named : NamesResults m)
    (order order' : Order) :
    byWeight (order.arrange (m.entries.map Prod.snd)) = byWeight (order'.arrange (m.entries.map Prod.snd)) := by
  have distinct : ((order.arrange (m.entries.map Prod.snd)).map NodeResult.name).Nodup := by
    rw [((order.perm _).map NodeResult.name).nodup_iff,named.values]
    exact m.keysNodup
  exact Sorting.sortedUniqueKey (Sorting.rankedLawful TotalCmp.lawful)
    (Order.arrangedPerm order order' (.refl _)) distinct (fun _ _ => Sorting.rankedTied)

omit [Arith W] in
theorem seedsUnordered (order order' : Order) (ctx : DynamicContext W) (k : Nat) :
    seedsOf order ctx k = seedsOf order' ctx k := by
  have distinct : ((order.arrange ctx.semanticBoosts.entries).map Prod.fst).Nodup := by
    rw [((order.perm _).map Prod.fst).nodup_iff]
    exact ctx.semanticBoosts.keysNodup
  have lawful : Std.TransCmp (boostCmp (W := W)) := Sorting.rankedLawful TotalCmp.lawful
  rw [seedsOf,seedsOf,Sorting.sortedUniqueKey lawful (Order.arrangedPerm order order' (.refl _))
    distinct (fun _ _ => Sorting.rankedTied)]

theorem levelsUnordered {graph : GraphAccessor W} (named : graph.Named) (order order' : Order)
    (ctx : DynamicContext W) (k depth : Nat) (visited frontier : List String) :
    beamLevels order graph ctx (.build ctx) k depth visited frontier =
      beamLevels order' graph ctx (.build ctx) k depth visited frontier := by
  induction depth generalizing visited frontier with
  | zero => rfl
  | succ depth ih =>
    simp only [beamLevels,byWeightUnordered (levelNamed named ctx visited frontier) order order',ih]

theorem beamUnordered {graph : GraphAccessor W} (named : graph.Named) (order order' : Order)
    (ctx : DynamicContext W) (start : String) (k depth : Nat) :
    beamTraverse order graph ctx start k depth = beamTraverse order' graph ctx start k depth := by
  rw [beamTraverse,beamTraverse,levelsUnordered named order order']

theorem subgraphUnordered (graph : GraphAccessor W) (order order' : Order) (ctx : DynamicContext W)
    (k : Nat) : contextualSubgraph order graph ctx k = contextualSubgraph order' graph ctx k := by
  simp only [contextualSubgraph,seedsUnordered order order']

end queries

/-! The heatmap: what survives the threshold, and the edges between those nodes. -/
structure Filtered.Ok (f : Filtered W) : Prop where
  best : NamesResults f.bestResult
  once : (f.nodes.map NodeResult.name).Nodup
  inside : ∀ r ∈ f.nodes, r.name ∈ f.set
  set : f.set.Nodup

theorem removeNamed {m : IndexMap String (NodeResult W)} (named : NamesResults m) (k : String) :
    NamesResults (m.shiftRemove k) := fun e member => named e (List.mem_of_mem_filter member)

theorem Filtered.Ok.add {f : Filtered W} (ok : f.Ok) {best : IndexMap String (NodeResult W)}
    (named : NamesResults best) {name : String} (fresh : name ∉ f.set) {added : Option (NodeResult W)}
    (same : ∀ r ∈ added, r.name = name) :
    Filtered.Ok ⟨best,f.nodes ++ added.toList,name :: f.set⟩ where
  best := named
  once := by
    rw [List.map_append]
    refine List.nodup_append.mpr ⟨ok.once,by cases added <;> simp,fun n listed k alone eq => fresh ?_⟩
    obtain ⟨old,member,rfl⟩ := List.mem_map.mp listed
    obtain ⟨new,here,rfl⟩ := List.mem_map.mp alone
    exact same new (Option.mem_toList.mp here) ▸ eq ▸ ok.inside old member
  inside := by
    intro r member
    cases List.mem_append.mp member with
    | inl old => exact List.mem_cons_of_mem name (ok.inside r old)
    | inr new => exact same r (Option.mem_toList.mp new) ▸ List.mem_cons_self
  set := List.nodup_cons.mpr ⟨fresh,ok.set⟩

section filters
variable (startNodes : List String) (threshold : Nat)

theorem keepHotOk {f : Filtered W} (ok : f.Ok) (hit : String × Nat) :
    (keepHot startNodes threshold f hit).Ok := by
  unfold keepHot
  split
  · split
    · exact ok
    · rename_i r found
      have named := removeNamed ok.best hit.1
      split
      · exact ⟨named,ok.once,ok.inside,ok.set⟩
      · rename_i fresh
        exact ok.add named fresh (fun x member => Option.some.inj member ▸ ok.best.get found)
  · exact ok

/- What one entry of the hit counts adds. -/
def hotOf (f : Filtered W) (hit : String × Nat) :
    Option (NodeResult W) :=
  if threshold ≤ hit.2 ∧ hit.1 ∉ startNodes ∧ hit.1 ∉ f.set then f.bestResult.get hit.1 else none

theorem keepHotStep {f : Filtered W} (ok : f.Ok) (hit : String × Nat) :
    (keepHot startNodes threshold f hit).nodes = f.nodes ++ (hotOf startNodes threshold f hit).toList ∧
    (keepHot startNodes threshold f hit).set =
      (hotOf startNodes threshold f hit).toList.map NodeResult.name ++ f.set := by
  unfold keepHot hotOf
  by_cases hot : threshold ≤ hit.2 ∧ hit.1 ∉ startNodes
  · cases found : f.bestResult.get hit.1 with
    | none => simp [hot]
    | some r =>
      by_cases old : hit.1 ∈ f.set
      · simp [hot,old]
      · simp [hot,old,ok.best.get found]
  · have cold : ¬ (threshold ≤ hit.2 ∧ hit.1 ∉ startNodes ∧ hit.1 ∉ f.set) := fun h => hot ⟨h.1,h.2.1⟩
    simp [if_neg hot,if_neg cold]

theorem keepHotOthers {f : Filtered W} (ok : f.Ok) {hit other : String × Nat} (apart : other.1 ≠ hit.1) :
    hotOf startNodes threshold (keepHot startNodes threshold f hit) other =
      hotOf startNodes threshold f other := by
  have set : other.1 ∈ (keepHot startNodes threshold f hit).set ↔ other.1 ∈ f.set := by
    rw [(keepHotStep startNodes threshold ok hit).2,List.mem_append]
    refine or_iff_right (fun listed => apart ?_)
    obtain ⟨r,member,same⟩ := List.mem_map.mp listed
    have found := Option.mem_toList.mp member
    rw [hotOf] at found
    split at found
    · exact same ▸ ok.best.get found
    · cases found
  have best : (keepHot startNodes threshold f hit).bestResult.get other.1 = f.bestResult.get other.1 := by
    unfold keepHot
    split
    · split
      · rfl
      · split <;> simp [apart]
    · rfl
  rw [hotOf,hotOf,best]
  simp only [set]

theorem keepHotAll {f : Filtered W} (ok : f.Ok) {hits : List (String × Nat)}
    (distinct : (hits.map Prod.fst).Nodup) :
    (hits.foldl (keepHot startNodes threshold) f).Ok ∧
    (hits.foldl (keepHot startNodes threshold) f).nodes =
      f.nodes ++ hits.filterMap (hotOf startNodes threshold f) ∧
    (hits.foldl (keepHot startNodes threshold) f).set =
      (hits.filterMap (hotOf startNodes threshold f)).reverse.map NodeResult.name ++ f.set := by
  induction hits generalizing f with
  | nil => simpa using ok
  | cons hit rest ih =>
    obtain ⟨fresh,tail⟩ := List.nodup_cons.mp distinct
    obtain ⟨kept,nodes,set⟩ := ih (keepHotOk startNodes threshold ok hit) tail
    have later : rest.filterMap (hotOf startNodes threshold (keepHot startNodes threshold f hit)) =
        rest.filterMap (hotOf startNodes threshold f) :=
      List.filterMap_congr (fun other member =>
        keepHotOthers startNodes threshold ok (fun same => fresh (same ▸ List.mem_map_of_mem member)))
    rw [later] at nodes set
    rw [(keepHotStep startNodes threshold ok hit).1] at nodes
    rw [(keepHotStep startNodes threshold ok hit).2] at set
    refine ⟨kept,?_,?_⟩
    · rw [List.foldl_cons,nodes,List.filterMap_cons]
      cases hotOf startNodes threshold f hit <;> simp
    · rw [List.foldl_cons,set,List.filterMap_cons]
      cases hotOf startNodes threshold f hit <;> simp

theorem keepHotUnordered {f : Filtered W} (ok : f.Ok) {hits hits' : List (String × Nat)}
    (perm : hits.Perm hits') (distinct : (hits.map Prod.fst).Nodup) :
    (hits.foldl (keepHot startNodes threshold) f).nodes.Perm
      (hits'.foldl (keepHot startNodes threshold) f).nodes ∧
    (hits.foldl (keepHot startNodes threshold) f).set.Perm
      (hits'.foldl (keepHot startNodes threshold) f).set := by
  have other := (perm.map Prod.fst).nodup_iff.mp distinct
  obtain ⟨_,nodes,set⟩ := keepHotAll startNodes threshold ok distinct
  obtain ⟨_,nodes',set'⟩ := keepHotAll startNodes threshold ok other
  have picked := perm.filterMap (hotOf startNodes threshold f)
  rw [nodes,nodes',set,set']
  exact ⟨picked.append_left _,
    (((List.reverse_perm _).trans (picked.trans (List.reverse_perm _).symm)).map _).append_right _⟩

end filters

/-! The edges among the nodes that stay. -/
theorem edgesAmongSource (graph : GraphAccessor W) (ctx : DynamicContext W) (set : List String)
    (n : String) : ∀ e ∈ edgesAmong graph ctx set n, e.key.1 = n := by
  intro e member
  cases List.mem_append.mp member with
  | inl base =>
    obtain ⟨v,_,rfl⟩ := List.mem_map.mp base
    rfl
  | inr overlay =>
    obtain ⟨x,listed,rfl⟩ := List.mem_map.mp overlay
    have same := (List.mem_filter.mp listed).2
    rw [Bool.and_eq_true,beq_iff_eq] at same
    exact same.1

theorem seeEdgeKey : seeEdge (W := W) = Distinct.see EdgeResult.key := by
  funext s e
  unfold seeEdge Distinct.see
  congr

theorem reconstructFirsts (graph : GraphAccessor W) (ctx : DynamicContext W) (set listed : List String) :
    reconstructEdges graph ctx set listed =
      Distinct.firsts EdgeResult.key (listed.flatMap (edgesAmong graph ctx set)) := by
  rw [Distinct.firsts,List.foldl_flatMap,← seeEdgeKey]
  rfl

theorem edgesAmongSet (graph : GraphAccessor W) (ctx : DynamicContext W) {set set' : List String}
    (perm : set.Perm set') : edgesAmong graph ctx set = edgesAmong graph ctx set' := by
  funext n
  simp only [edgesAmong,perm.mem_iff]

theorem edgeResultCmpLawful : Std.TransCmp (EdgeResult.cmp (W := W)) :=
  inferInstanceAs (Std.TransCmp (compareLex (compareOn EdgeResult.source)
    (compareLex (compareOn EdgeResult.target) (compareOn EdgeResult.kind))))

theorem edgeResultTied (a b : EdgeResult W) (tied : a.cmp b = .eq) : a.key = b.key := by
  obtain ⟨source,rest⟩ := Ordering.then_eq_eq.mp tied
  obtain ⟨target,kind⟩ := Ordering.then_eq_eq.mp rest
  rw [EdgeResult.key,EdgeResult.key,Std.LawfulEqOrd.eq_of_compare source,
    Std.LawfulEqOrd.eq_of_compare target,Std.LawfulEqOrd.eq_of_compare kind]

theorem edgesUnordered (graph : GraphAccessor W) (ctx : DynamicContext W) (order order' : Order)
    {set set' : List String} (perm : set.Perm set') :
    byEdge (reconstructEdges graph ctx set (order.arrange set)) =
      byEdge (reconstructEdges graph ctx set' (order'.arrange set')) := by
  have same := Distinct.firstsGrouped EdgeResult.key Prod.fst (edgesAmongSource graph ctx set')
    (Order.arrangedPerm order order' perm)
  rw [byEdge,byEdge,reconstructFirsts,reconstructFirsts,edgesAmongSet graph ctx perm]
  exact Sorting.sortedUniqueKey edgeResultCmpLawful same (Distinct.firstsKeys _ _) edgeResultTied

section heat
variable [Arith W]

theorem heatNamed (beams : List (List (NodeResult W))) :
    NamesResults (beams.foldl heatBeam ⟨∅,∅,∅⟩).bestResult := by
  have result : ∀ (results : List (NodeResult W)) (s : List String × Heatmap W),
      NamesResults s.2.bestResult → NamesResults (results.foldl heatResult s).2.bestResult := by
    intro results
    induction results with
    | nil => exact fun _ held => held
    | cons r rest ih => exact fun s held => ih _ (keepBestNamed held rfl)
  have beam : ∀ (beams : List (List (NodeResult W))) (h : Heatmap W),
      NamesResults h.bestResult → NamesResults (beams.foldl heatBeam h).bestResult := by
    intro beams
    induction beams with
    | nil => exact fun _ held => held
    | cons b rest ih => exact fun h held => ih _ (result b ([],h) held)
  exact beam beams ⟨∅,∅,∅⟩ (fun e member => by cases member)

theorem keepStartOk {graph : GraphAccessor W} (named : graph.Named) (ctx : DynamicContext W)
    {f : Filtered W} (ok : f.Ok) (start : String) : (keepStart graph ctx (.build ctx) f start).Ok := by
  unfold keepStart
  split
  · exact ok
  · rename_i fresh
    split
    · rename_i r found
      exact ok.add (removeNamed ok.best start) fresh
        (fun x member => Option.some.inj member ▸ ok.best.get found)
    · exact ok.add ok.best fresh (fun r member => scoreNamed named ctx member)

theorem startedOk {graph : GraphAccessor W} (named : graph.Named) (ctx : DynamicContext W)
    {best : IndexMap String (NodeResult W)} (results : NamesResults best) (startNodes : List String) :
    (startNodes.foldl (keepStart graph ctx (.build ctx)) ⟨best,[],[]⟩).Ok := by
  have starts : ∀ (startNodes : List String) (f : Filtered W), f.Ok →
      (startNodes.foldl (keepStart graph ctx (.build ctx)) f).Ok := by
    intro startNodes
    induction startNodes with
    | nil => exact fun _ ok => ok
    | cons start rest ih => exact fun f ok => ih _ (keepStartOk named ctx ok start)
  exact starts startNodes _ ⟨results,List.nodup_nil,fun r member => absurd member List.not_mem_nil,
    List.nodup_nil⟩

theorem heatTied [TotalCmp W] {weightSum : IndexMap String W} {a b : NodeResult W}
    (tied : heatCmp weightSum a b = .eq) : a.name = b.name :=
  Std.LawfulEqOrd.eq_of_compare (Ordering.then_eq_eq.mp tied).2

theorem multiUnordered [TotalCmp W] {graph : GraphAccessor W} (named : graph.Named)
    (order order' : Order) (ctx : DynamicContext W) (startNodes : List String) (k depth threshold : Nat) :
    multiBeamIntersection order graph ctx startNodes k depth threshold =
      multiBeamIntersection order' graph ctx startNodes k depth threshold := by
  have beams : (fun start => beamTraverse order graph ctx start k depth) =
      (fun start => beamTraverse order' graph ctx start k depth) :=
    funext (fun start => beamUnordered named order order' ctx start k depth)
  unfold multiBeamIntersection
  rw [beams]
  generalize startNodes.map (fun start => beamTraverse order' graph ctx start k depth) = results
  have ok := startedOk named ctx (heatNamed results) startNodes
  have distinct : ((order.arrange (results.foldl heatBeam ⟨∅,∅,∅⟩).hitCount.entries).map Prod.fst).Nodup := by
    rw [((order.perm _).map Prod.fst).nodup_iff]
    exact IndexMap.keysNodup _
  have arranged := Order.arrangedPerm order order' (.refl (results.foldl heatBeam ⟨∅,∅,∅⟩).hitCount.entries)
  have kept := keepHotUnordered startNodes threshold ok arranged distinct
  have once := (keepHotAll startNodes threshold ok distinct).1.once
  have lawful : Std.TransCmp (heatCmp (results.foldl heatBeam ⟨∅,∅,∅⟩).weightSum) :=
    Sorting.rankedLawful TotalCmp.lawful
  have nodes := Sorting.sortedUniqueKey lawful kept.1 once (fun a b => heatTied)
  have edges := edgesUnordered graph ctx order order' kept.2
  exact congrArg₂ SubGraph.mk nodes edges

end heat
end OrpheusGraph
