import OrpheusGraph.Subgraphs

/-! What an intersection of beams holds. All occurrences of a name in the beams carry the
same result, so the heat of a name depends on how often it occurs and on nothing else. -/
namespace OrpheusGraph
variable {W : Type}

section heat
variable [Arith W]

/- How many beams return a name. -/
def hits (beams : List (List (NodeResult W))) (n : String) : Nat :=
  beams.countP (fun beam => n ∈ beam.map NodeResult.name)

/- What the three maps hold about a name. -/
structure Heat (W : Type) where
  count : Option Nat
  weight : Option W
  best : Option (NodeResult W)

def Heatmap.at (h : Heatmap W) (n : String) : Heat W :=
  ⟨h.hitCount.get n,h.weightSum.get n,h.bestResult.get n⟩

/- One more occurrence. -/
def Heat.add (x : Heat W) (r : NodeResult W) : Heat W where
  count := some (x.count.getD 0 + 1)
  weight := some (Arith.add (x.weight.getD (Arith.ofNat 0)) r.weight)
  best := some r

def heatStep (graph : GraphAccessor W) (ctx : DynamicContext W) (n : String) (x : Heat W) : Heat W :=
  ((scoreOf graph ctx (.build ctx) n).map x.add).getD x

variable {graph : GraphAccessor W} {ctx : DynamicContext W}

theorem heatResultAt {seen : List String} {h : Heatmap W} (gathered : Gathered graph ctx h.bestResult)
    {r : NodeResult W} (scored : scoreOf graph ctx (.build ctx) r.name = some r) (fresh : r.name ∉ seen)
    (n : String) : (heatResult (seen,h) r).2.at n = if n = r.name then heatStep graph ctx n (h.at n) else h.at n := by
  have best := keepBestGet gathered scored n
  cases decEq n r.name with
  | isTrue same =>
    subst same
    simp only [if_true] at best
    simp [Heatmap.at,heatResult,heatStep,Heat.add,fresh,scored,best]
  | isFalse other =>
    simp only [if_neg other] at best
    simp [Heatmap.at,heatResult,fresh,other,best]

theorem heatResultGathered (seen : List String) {h : Heatmap W} (gathered : Gathered graph ctx h.bestResult)
    {r : NodeResult W} (scored : scoreOf graph ctx (.build ctx) r.name = some r) :
    Gathered graph ctx (heatResult (seen,h) r).2.bestResult := by
  intro n x found
  have best := (keepBestGet gathered scored n).symm.trans found
  split at best
  · rename_i same
    cases Option.some.inj best
    exact same ▸ scored
  · exact gathered n x best

/- A beam: every name once, with its score. -/
structure Beam (graph : GraphAccessor W) (ctx : DynamicContext W) (results : List (NodeResult W)) : Prop where
  once : (results.map NodeResult.name).Nodup
  scored : ∀ r ∈ results, scoreOf graph ctx (.build ctx) r.name = some r

theorem heatResultsAt {results : List (NodeResult W)} (beam : Beam graph ctx results) {seen : List String}
    (fresh : ∀ r ∈ results, r.name ∉ seen) {h : Heatmap W} (gathered : Gathered graph ctx h.bestResult) :
    Gathered graph ctx (results.foldl heatResult (seen,h)).2.bestResult ∧
    ∀ n, (results.foldl heatResult (seen,h)).2.at n =
      if n ∈ results.map NodeResult.name then heatStep graph ctx n (h.at n) else h.at n := by
  induction results generalizing seen h with
  | nil => exact ⟨gathered,fun n => rfl⟩
  | cons r rest ih =>
    obtain ⟨other,tail⟩ := List.nodup_cons.mp beam.once
    have scored := beam.scored r List.mem_cons_self
    have new := fresh r List.mem_cons_self
    have step : heatResult (seen,h) r = (r.name :: seen,(heatResult (seen,h) r).2) := Prod.ext (if_neg new) rfl
    have later : ∀ x ∈ rest, x.name ∉ r.name :: seen := by
      intro x member old
      rcases List.mem_cons.mp old with same | before
      · exact other (same ▸ List.mem_map_of_mem member)
      · exact fresh x (List.mem_cons_of_mem r member) before
    obtain ⟨held,last⟩ := ih ⟨tail,fun x member => beam.scored x (List.mem_cons_of_mem r member)⟩ later
      (heatResultGathered seen gathered scored)
    rw [List.foldl_cons,step]
    refine ⟨held,fun n => ?_⟩
    rw [last,heatResultAt gathered scored new]
    cases decEq n r.name with
    | isTrue same =>
      subst same
      simp [other]
    | isFalse apart => simp [apart]

theorem heatBeamsAt {beams : List (List (NodeResult W))} (all : ∀ beam ∈ beams, Beam graph ctx beam)
    {h : Heatmap W} (gathered : Gathered graph ctx h.bestResult) :
    Gathered graph ctx (beams.foldl heatBeam h).bestResult ∧
    ∀ n, (beams.foldl heatBeam h).at n = (heatStep graph ctx n)^[hits beams n] (h.at n) := by
  induction beams generalizing h with
  | nil => exact ⟨gathered,fun n => rfl⟩
  | cons beam rest ih =>
    obtain ⟨kept,step⟩ := heatResultsAt (all beam List.mem_cons_self) (fun r _ => List.not_mem_nil) gathered
    obtain ⟨held,last⟩ := ih (fun b member => all b (List.mem_cons_of_mem beam member)) kept
    refine ⟨held,fun n => (last n).trans ?_⟩
    have here := congrArg (heatStep graph ctx n)^[hits rest n] (step n)
    refine here.trans ?_
    rw [hits,hits,List.countP_cons]
    split
    · rename_i listed
      rw [if_pos (decide_eq_true listed),Function.iterate_succ_apply]
    · rename_i absent
      rw [if_neg (mt of_decide_eq_true absent),Nat.add_zero]

/- The heat of a name that occurs a number of times. -/
def heatOf (graph : GraphAccessor W) (ctx : DynamicContext W) (n : String) (times : Nat) : Heat W :=
  (heatStep graph ctx n)^[times] ⟨none,none,none⟩

theorem heatOfCount {n : String} {r : NodeResult W} (scored : scoreOf graph ctx (.build ctx) n = some r)
    (times : Nat) : (heatOf graph ctx n times).count = if times = 0 then none else some times := by
  induction times with
  | zero => rfl
  | succ times ih =>
    have step : heatOf graph ctx n (times + 1) = (heatOf graph ctx n times).add r := by
      rw [heatOf,Function.iterate_succ_apply',heatStep,scored]
      rfl
    rw [step,Heat.add,ih]
    cases times <;> rfl

theorem heatOfBest {n : String} {r : NodeResult W} (scored : scoreOf graph ctx (.build ctx) n = some r)
    (times : Nat) : (heatOf graph ctx n times).best = if times = 0 then none else some r := by
  cases times with
  | zero => rfl
  | succ times =>
    rw [heatOf,Function.iterate_succ_apply',heatStep,scored]
    rfl

theorem hitScored {beams : List (List (NodeResult W))} (all : ∀ beam ∈ beams, Beam graph ctx beam) {n : String}
    (hit : 0 < hits beams n) : ∃ r, scoreOf graph ctx (.build ctx) n = some r := by
  obtain ⟨beam,member,listed⟩ := List.countP_pos_iff.mp hit
  obtain ⟨r,among,rfl⟩ := List.mem_map.mp (of_decide_eq_true listed)
  exact ⟨r,(all beam member).scored r among⟩

/-! The starts are kept first. -/
theorem keepStartStep {f : Filtered W} (gathered : Gathered graph ctx f.bestResult) {start : String}
    (fresh : start ∉ f.set) :
    (keepStart graph ctx (.build ctx) f start).nodes =
      f.nodes ++ (scoreOf graph ctx (.build ctx) start).toList ∧
    (keepStart graph ctx (.build ctx) f start).set = start :: f.set ∧
    ∀ n, (keepStart graph ctx (.build ctx) f start).bestResult.get n =
      if n = start then none else f.bestResult.get n := by
  unfold keepStart
  rw [if_neg fresh]
  cases held : f.bestResult.get start with
  | none =>
    refine ⟨rfl,rfl,fun n => ?_⟩
    show f.bestResult.get n = if n = start then none else f.bestResult.get n
    split
    · rename_i same
      exact same ▸ held
    · rfl
  | some r => exact ⟨by rw [gathered start r held]; rfl,rfl,fun n => IndexMap.getShiftRemove _ _ _⟩

theorem keepStarts (named : graph.Named) (starts : List String) {f : Filtered W}
    (gathered : Gathered graph ctx f.bestResult) :
    (∀ n, n ∈ (starts.foldl (keepStart graph ctx (.build ctx)) f).set ↔ n ∈ f.set ∨ n ∈ starts) ∧
    (∀ r, r ∈ (starts.foldl (keepStart graph ctx (.build ctx)) f).nodes ↔ r ∈ f.nodes ∨
      (r.name ∈ starts ∧ r.name ∉ f.set ∧ scoreOf graph ctx (.build ctx) r.name = some r)) ∧
    ∀ n, (starts.foldl (keepStart graph ctx (.build ctx)) f).bestResult.get n =
      if n ∈ starts ∧ n ∉ f.set then none else f.bestResult.get n := by
  induction starts generalizing f with
  | nil => simp
  | cons start rest ih =>
    rw [List.foldl_cons]
    rcases em (start ∈ f.set) with old | fresh
    · have step : keepStart graph ctx (.build ctx) f start = f := if_pos old
      obtain ⟨set,nodes,best⟩ := ih gathered
      rw [step]
      refine ⟨fun n => ?_,fun r => ?_,fun n => ?_⟩
      · rw [set,List.mem_cons]
        grind
      · rw [nodes,List.mem_cons]
        grind
      · rw [best]
        simp only [List.mem_cons]
        grind
    · obtain ⟨nodes,set,best⟩ := keepStartStep gathered fresh
      generalize keepStart graph ctx (.build ctx) f start = next at nodes set best
      have kept : Gathered graph ctx next.bestResult := by
        intro n r found
        rw [best] at found
        split at found
        · cases found
        · exact gathered n r found
      obtain ⟨set',nodes',best'⟩ := ih kept
      refine ⟨fun n => ?_,fun r => ?_,fun n => ?_⟩
      · rw [set',set,List.mem_cons,List.mem_cons]
        grind
      · rw [nodes',nodes,set,List.mem_append,Option.mem_toList,List.mem_cons,List.mem_cons]
        have name : scoreOf graph ctx (.build ctx) start = some r → r.name = start := scoreNamed named ctx
        grind
      · rw [best',set,best]
        simp only [List.mem_cons]
        grind

/-! Then the names that enough beams return. -/
def heatedBy (beams : List (List (NodeResult W))) : Heatmap W := beams.foldl heatBeam ⟨∅,∅,∅⟩

def startedFrom (graph : GraphAccessor W) (ctx : DynamicContext W) (startNodes : List String)
    (beams : List (List (NodeResult W))) : Filtered W :=
  startNodes.foldl (keepStart graph ctx (.build ctx)) ⟨(heatedBy beams).bestResult,[],[]⟩

def keptBy (order : Order) (graph : GraphAccessor W) (ctx : DynamicContext W) (startNodes : List String)
    (threshold : Nat) (beams : List (List (NodeResult W))) : Filtered W :=
  (order.arrange (heatedBy beams).hitCount.entries).foldl (keepHot startNodes threshold)
    (startedFrom graph ctx startNodes beams)

/- The names that an intersection is about. -/
def Selected (startNodes : List String) (threshold : Nat) (beams : List (List (NodeResult W))) (n : String) :
    Prop := n ∈ startNodes ∨ max threshold 1 ≤ hits beams n

theorem keptDistinct (order : Order) (beams : List (List (NodeResult W))) :
    ((order.arrange (heatedBy beams).hitCount.entries).map Prod.fst).Nodup := by
  rw [((order.perm _).map Prod.fst).nodup_iff]
  exact IndexMap.keysNodup _

theorem startedKeeps (named : graph.Named) (startNodes : List String)
    (beams : List (List (NodeResult W))) : (startedFrom graph ctx startNodes beams).Ok :=
  startedOk named ctx (heatNamed beams) startNodes

theorem keptOk (named : graph.Named) (order : Order) (startNodes : List String) (threshold : Nat)
    (beams : List (List (NodeResult W))) : (keptBy order graph ctx startNodes threshold beams).Ok :=
  (keepHotAll startNodes threshold (startedKeeps named startNodes beams) (keptDistinct order beams)).1

section kept
variable {beams : List (List (NodeResult W))} (all : ∀ beam ∈ beams, Beam graph ctx beam)

theorem gatheredNone : Gathered graph ctx (∅ : IndexMap String (NodeResult W)) :=
  fun n r found => by cases found

include all

theorem heatedAt (n : String) : (heatedBy beams).at n = heatOf graph ctx n (hits beams n) :=
  (heatBeamsAt all gatheredNone).2 n

theorem heatedHit (n : String) (c : Nat) :
    (heatedBy beams).hitCount.get n = some c ↔ c = hits beams n ∧ 0 < c := by
  have count : (heatedBy beams).hitCount.get n = (heatOf graph ctx n (hits beams n)).count :=
    congrArg Heat.count (heatedAt all n)
  rw [count]
  rcases Nat.eq_zero_or_pos (hits beams n) with none | some
  · rw [none]
    constructor
    · intro absent
      cases absent
    · rintro ⟨rfl,some⟩
      exact absurd some (Nat.lt_irrefl 0)
  · obtain ⟨r,scored⟩ := hitScored all some
    rw [heatOfCount scored,if_neg (Nat.ne_of_gt some),Option.some.injEq]
    constructor
    · rintro rfl
      exact ⟨rfl,some⟩
    · exact fun both => both.1.symm

theorem heatedBest {n : String} (hit : 0 < hits beams n) :
    (heatedBy beams).bestResult.get n = scoreOf graph ctx (.build ctx) n := by
  obtain ⟨r,scored⟩ := hitScored all hit
  have best := congrArg Heat.best (heatedAt all n)
  rw [heatOfBest scored,if_neg (Nat.ne_of_gt hit)] at best
  exact best.trans scored.symm

variable (named : graph.Named) (order : Order) (startNodes : List String) (threshold : Nat)
include named

/- The result an entry of the hit counts adds. -/
theorem hotResult (r : NodeResult W) :
    r ∈ (order.arrange (heatedBy beams).hitCount.entries).filterMap
      (hotOf startNodes threshold (startedFrom graph ctx startNodes beams)) ↔
    r.name ∉ startNodes ∧ max threshold 1 ≤ hits beams r.name ∧
      scoreOf graph ctx (.build ctx) r.name = some r := by
  obtain ⟨set,_,best⟩ := keepStarts named startNodes
    (f := ⟨(heatedBy beams).bestResult,[],[]⟩) (heatBeamsAt all gatheredNone).1
  have ok : (startedFrom graph ctx startNodes beams).Ok := startedKeeps named startNodes beams
  rw [List.mem_filterMap]
  constructor
  · rintro ⟨⟨n,c⟩,member,picked⟩
    unfold hotOf at picked
    split at picked
    · rename_i hot
      obtain ⟨enough,other,_⟩ := hot
      have name : r.name = n := ok.best.get picked
      obtain ⟨rfl,some⟩ := (heatedHit all n c).mp (getOfMem ((order.perm _).mem_iff.mp member))
      have found := (best n).symm.trans picked
      rw [if_neg (fun both => other both.1)] at found
      rw [name]
      exact ⟨other,by omega,(heatedBest all some).symm.trans found⟩
    · cases picked
  · rintro ⟨other,enough,scored⟩
    have some : 0 < hits beams r.name := by omega
    refine ⟨(r.name,hits beams r.name),?_,?_⟩
    · exact (order.perm _).mem_iff.mpr (memOfGet ((heatedHit all r.name _).mpr ⟨rfl,some⟩))
    · have outside : r.name ∉ (startedFrom graph ctx startNodes beams).set :=
        fun inside => ((set r.name).mp inside).elim List.not_mem_nil other
      rw [hotOf,if_pos ⟨by omega,other,outside⟩]
      refine (best r.name).trans ?_
      rw [if_neg (fun both => other both.1)]
      exact (heatedBest all some).trans scored

theorem keptNodes (r : NodeResult W) :
    r ∈ (keptBy order graph ctx startNodes threshold beams).nodes ↔
      scoreOf graph ctx (.build ctx) r.name = some r ∧ Selected startNodes threshold beams r.name := by
  obtain ⟨_,nodes,_⟩ := keepStarts named startNodes
    (f := ⟨(heatedBy beams).bestResult,[],[]⟩) (heatBeamsAt all gatheredNone).1
  have ok : (startedFrom graph ctx startNodes beams).Ok := startedKeeps named startNodes beams
  have kept := (keepHotAll startNodes threshold ok (keptDistinct order beams)).2.1
  rw [keptBy,kept,List.mem_append,hotResult all named order startNodes threshold r]
  have started : r ∈ (startedFrom graph ctx startNodes beams).nodes ↔
      r.name ∈ startNodes ∧ scoreOf graph ctx (.build ctx) r.name = some r := by
    refine (nodes r).trans ?_
    simp
  rw [started,Selected]
  tauto

theorem keptSet (n : String) :
    n ∈ (keptBy order graph ctx startNodes threshold beams).set ↔ Selected startNodes threshold beams n := by
  obtain ⟨set,_,_⟩ := keepStarts named startNodes
    (f := ⟨(heatedBy beams).bestResult,[],[]⟩) (heatBeamsAt all gatheredNone).1
  have ok : (startedFrom graph ctx startNodes beams).Ok := startedKeeps named startNodes beams
  have kept := (keepHotAll startNodes threshold ok (keptDistinct order beams)).2.2
  have started : n ∈ (startedFrom graph ctx startNodes beams).set ↔ n ∈ startNodes :=
    (set n).trans (by simp)
  rw [keptBy,kept,List.mem_append,started,Selected,List.mem_map]
  constructor
  · rintro (⟨r,member,rfl⟩ | start)
    · exact .inr ((hotResult all named order startNodes threshold r).mp (List.mem_reverse.mp member)).2.1
    · exact .inl start
  · rintro (start | enough)
    · exact .inr start
    · rcases em (n ∈ startNodes) with start | other
      · exact .inr start
      · obtain ⟨r,scored⟩ := hitScored all (Nat.lt_of_lt_of_le (by omega) enough)
        cases scoreNamed named ctx scored
        exact .inl ⟨r,List.mem_reverse.mpr ((hotResult all named order startNodes threshold r).mpr
          ⟨other,enough,scored⟩),rfl⟩

end kept

/-! Beams that return every name equally often are as good as each other. -/
theorem heatedWeight {beams beams' : List (List (NodeResult W))} {graph' : GraphAccessor W}
    (scores : scoreOf graph ctx (.build ctx) = scoreOf graph' ctx (.build ctx))
    (all : ∀ beam ∈ beams, Beam graph ctx beam) (all' : ∀ beam ∈ beams', Beam graph' ctx beam)
    (often : ∀ n, hits beams n = hits beams' n) [TotalCmp W] :
    heatCmp (heatedBy beams).weightSum = heatCmp (heatedBy beams').weightSum := by
  have weights : ∀ n, (heatedBy beams).weightSum.get n = (heatedBy beams').weightSum.get n := by
    intro n
    have left := congrArg Heat.weight (heatedAt all n)
    have right := congrArg Heat.weight (heatedAt all' n)
    have step : heatStep graph ctx n = heatStep graph' ctx n := by
      unfold heatStep
      rw [scores]
    rw [heatOf,often n,step] at left
    exact left.trans right.symm
  funext x y
  rw [heatCmp,heatCmp,weights,weights]

theorem keptAgrees {beams beams' : List (List (NodeResult W))} {graph' : GraphAccessor W}
    (named : graph.Named) (named' : graph'.Named)
    (scores : scoreOf graph ctx (.build ctx) = scoreOf graph' ctx (.build ctx))
    (all : ∀ beam ∈ beams, Beam graph ctx beam) (all' : ∀ beam ∈ beams', Beam graph' ctx beam)
    (often : ∀ n, hits beams n = hits beams' n) {startNodes startNodes' : List String}
    (starts : ∀ n, n ∈ startNodes ↔ n ∈ startNodes') (order order' : Order) (threshold : Nat) [TotalCmp W] :
    (keptBy order graph ctx startNodes threshold beams).nodes.mergeSort
        (fun a b => (heatCmp (heatedBy beams).weightSum a b).isLE) =
      (keptBy order' graph' ctx startNodes' threshold beams').nodes.mergeSort
        (fun a b => (heatCmp (heatedBy beams').weightSum a b).isLE) ∧
    (keptBy order graph ctx startNodes threshold beams).set.Perm
      (keptBy order' graph' ctx startNodes' threshold beams').set := by
  have ok : (keptBy order graph ctx startNodes threshold beams).Ok := keptOk named _ _ _ _
  have ok' : (keptBy order' graph' ctx startNodes' threshold beams').Ok := keptOk named' _ _ _ _
  have chosen : ∀ n, Selected startNodes threshold beams n ↔ Selected startNodes' threshold beams' n := by
    intro n
    rw [Selected,Selected,starts,often]
  have nodes : (keptBy order graph ctx startNodes threshold beams).nodes.Perm
      (keptBy order' graph' ctx startNodes' threshold beams').nodes := by
    refine (List.perm_ext_iff_of_nodup ok.once.of_map ok'.once.of_map).mpr (fun r => ?_)
    exact (keptNodes all named order startNodes threshold r).trans
      ((and_congr (by rw [scores]) (chosen r.name)).trans
        (keptNodes all' named' order' startNodes' threshold r).symm)
  have set : (keptBy order graph ctx startNodes threshold beams).set.Perm
      (keptBy order' graph' ctx startNodes' threshold beams').set := by
    refine (List.perm_ext_iff_of_nodup ok.set ok'.set).mpr (fun n => ?_)
    exact (keptSet all named order startNodes threshold n).trans
      ((chosen n).trans (keptSet all' named' order' startNodes' threshold n).symm)
  have lawful : Std.TransCmp (heatCmp (heatedBy beams').weightSum) := Sorting.rankedLawful TotalCmp.lawful
  refine ⟨?_,set⟩
  rw [heatedWeight scores all all' often]
  exact Sorting.sortedUniqueKey lawful nodes ok.once (fun a b => heatTied)

end heat

/-! The intersection itself. -/
section queries
variable [Arith W] [TotalCmp W]

def beamsOf (order : Order) (graph : GraphAccessor W) (ctx : DynamicContext W) (startNodes : List String)
    (k depth : Nat) : List (List (NodeResult W)) :=
  startNodes.map (fun start => beamTraverse order graph ctx start k depth)

theorem multiSplit (order : Order) (graph : GraphAccessor W) (ctx : DynamicContext W)
    (startNodes : List String) (k depth threshold : Nat) :
    multiBeamIntersection order graph ctx startNodes k depth threshold =
      let beams := beamsOf order graph ctx startNodes k depth
      let kept := keptBy order graph ctx startNodes threshold beams
      ⟨kept.nodes.mergeSort (fun a b => (heatCmp (heatedBy beams).weightSum a b).isLE),
        byEdge (reconstructEdges graph ctx kept.set (order.arrange kept.set))⟩ := rfl

theorem beamsHold {graph : GraphAccessor W} (named : graph.Named) (order : Order) (ctx : DynamicContext W)
    (startNodes : List String) (k depth : Nat) :
    ∀ beam ∈ beamsOf order graph ctx startNodes k depth, Beam graph ctx beam := by
  intro beam member
  obtain ⟨start,_,rfl⟩ := List.mem_map.mp member
  have held := beamHolds order k ctx named start depth
  exact ⟨held.once,held.scored⟩

theorem multiNodes {graph : GraphAccessor W} (named : graph.Named) (order : Order) (ctx : DynamicContext W)
    (startNodes : List String) (k depth threshold : Nat) (r : NodeResult W) :
    r ∈ (multiBeamIntersection order graph ctx startNodes k depth threshold).nodes ↔
      scoreOf graph ctx (.build ctx) r.name = some r ∧
      Selected startNodes threshold (beamsOf order graph ctx startNodes k depth) r.name :=
  List.mem_mergeSort.trans (keptNodes (beamsHold named order ctx startNodes k depth) named order startNodes
    threshold r)

theorem multiOnce {graph : GraphAccessor W} (named : graph.Named) (order : Order) (ctx : DynamicContext W)
    (startNodes : List String) (k depth threshold : Nat) :
    ((multiBeamIntersection order graph ctx startNodes k depth threshold).nodes.map NodeResult.name).Nodup := by
  have ok : (keptBy order graph ctx startNodes threshold (beamsOf order graph ctx startNodes k depth)).Ok :=
    keptOk named _ _ _ _
  exact ((List.mergeSort_perm _ _).map NodeResult.name).nodup_iff.mpr ok.once

theorem startsIrrelevant {graph : GraphAccessor W} (named : graph.Named) (order order' : Order)
    (ctx : DynamicContext W) {startNodes startNodes' : List String} (perm : startNodes.Perm startNodes')
    (k depth threshold : Nat) :
    multiBeamIntersection order graph ctx startNodes k depth threshold =
      multiBeamIntersection order' graph ctx startNodes' k depth threshold ∧
    ((multiBeamIntersection order graph ctx startNodes k depth threshold).nodes.map NodeResult.name).Nodup ∧
    ∀ r, r ∈ (multiBeamIntersection order graph ctx startNodes k depth threshold).nodes ↔
      scoreOf graph ctx (.build ctx) r.name = some r ∧ (r.name ∈ startNodes ∨ max threshold 1 ≤
        startNodes.countP (fun start => r.name ∈
          (beamTraverse order graph ctx start k depth).map NodeResult.name)) := by
  refine ⟨?_,multiOnce named order ctx startNodes k depth threshold,fun r => ?_⟩
  · have often : ∀ n, hits (beamsOf order graph ctx startNodes k depth) n =
        hits (beamsOf order' graph ctx startNodes' k depth) n := by
      intro n
      have beams : (fun start => beamTraverse order graph ctx start k depth) =
          (fun start => beamTraverse order' graph ctx start k depth) :=
        funext (fun start => beamUnordered named order order' ctx start k depth)
      rw [hits,hits,beamsOf,beamsOf,beams]
      exact (perm.map _).countP_eq _
    obtain ⟨nodes,set⟩ := keptAgrees named named rfl (beamsHold named order ctx startNodes k depth)
      (beamsHold named order' ctx startNodes' k depth) often (fun n => perm.mem_iff) order order' threshold
    rw [multiSplit,multiSplit]
    exact congrArg₂ SubGraph.mk nodes (edgesUnordered graph ctx order order' set)
  · rw [multiNodes named,Selected,hits,beamsOf,List.countP_map]
    rfl

end queries

theorem pairStartsSwapped :
    let a := (pairGraph [callsEdge]).accessor .newestFirst
    let ctx := plainContext none
    multiBeamIntersection .insertion a ctx ["a","b"] 2 1 1 =
      multiBeamIntersection .newestFirst a ctx ["b","a"] 2 1 1 ∧
    ((multiBeamIntersection .insertion a ctx ["a","b"] 2 1 1).nodes.map NodeResult.name).Nodup ∧
    ∀ r, r ∈ (multiBeamIntersection .insertion a ctx ["a","b"] 2 1 1).nodes ↔
      scoreOf a ctx (.build ctx) r.name = some r ∧ (r.name ∈ ["a","b"] ∨ max 1 1 ≤
        ["a","b"].countP (fun start => r.name ∈ (beamTraverse .insertion a ctx start 2 1).map NodeResult.name)) :=
  startsIrrelevant (SameGraph.keepsNames ((pairGraph [callsEdge]).named .newestFirst (pairIndexed _)) (.refl _))
    .insertion .newestFirst (plainContext none) (.swap _ _ _) 2 1 1

/-! The edges among the chosen names. -/
section edges

theorem amongIff (graph : GraphAccessor W) (ctx : DynamicContext W) (set : List String) (n : String)
    (e : EdgeResult W) : e ∈ edgesAmong graph ctx set n ↔
      (∃ v ∈ visibleBase graph ctx n, v.targetName ∈ set ∧ e = .ofBase n v) ∨
      ∃ x ∈ visibleOverlay ctx n, x.2.1 ∈ set ∧ e = .ofOverlay x := by
  rw [edgesAmong,List.mem_append,visibleBase,visibleOverlay]
  refine or_congr ?_ ?_
  · rw [List.mem_map]
    refine exists_congr (fun v => ?_)
    rw [List.mem_filter,decide_eq_true_iff,and_assoc]
    exact and_congr_right (fun _ => and_congr_right (fun _ => eq_comm))
  · rw [List.mem_map]
    refine exists_congr (fun x => ?_)
    rw [eq_comm (a := e)]
    simp only [List.mem_filter,Bool.and_eq_true,decide_eq_true_eq,and_assoc]

/- Of the edges with one key the first is kept. -/
theorem reconstructed (graph : GraphAccessor W) (ctx : DynamicContext W) (set listed : List String) :
    (∀ e ∈ reconstructEdges graph ctx set listed, ∃ n ∈ listed, e ∈ edgesAmong graph ctx set n) ∧
    ∀ n ∈ listed, ∀ e ∈ edgesAmong graph ctx set n, ∃ kept ∈ reconstructEdges graph ctx set listed,
      kept.key = e.key := by
  rw [reconstructFirsts]
  constructor
  · intro e member
    have found := (Distinct.memFirsts EdgeResult.key _ e).mp member
    exact List.mem_flatMap.mp (List.mem_of_find?_eq_some found)
  · intro n among e member
    have some : ((listed.flatMap (edgesAmong graph ctx set)).find?
        (fun y => decide (y.key = e.key))).isSome = true :=
      List.find?_isSome.mpr ⟨e,List.mem_flatMap.mpr ⟨n,among,member⟩,decide_eq_true rfl⟩
    obtain ⟨kept,found⟩ := Option.isSome_iff_exists.mp some
    have key : kept.key = e.key := by simpa using List.find?_some found
    exact ⟨kept,(Distinct.memFirsts EdgeResult.key _ kept).mpr (key ▸ found),key⟩

variable [Arith W] [TotalCmp W]

theorem multiPresent {graph : GraphAccessor W} (named : graph.Named) (order : Order) (ctx : DynamicContext W)
    (startNodes : List String) (k depth threshold : Nat) (n : String) :
    n ∈ (multiBeamIntersection order graph ctx startNodes k depth threshold).nodes.map NodeResult.name ↔
      Selected startNodes threshold (beamsOf order graph ctx startNodes k depth) n ∧ Resolvable graph ctx n := by
  rw [List.mem_map,← scoredIff]
  constructor
  · rintro ⟨r,member,rfl⟩
    obtain ⟨scored,chosen⟩ := (multiNodes named order ctx startNodes k depth threshold r).mp member
    exact ⟨chosen,Option.isSome_of_eq_some scored⟩
  · rintro ⟨chosen,resolved⟩
    obtain ⟨r,scored⟩ := Option.isSome_iff_exists.mp resolved
    cases scoreNamed named ctx scored
    exact ⟨r,(multiNodes named order ctx startNodes k depth threshold r).mpr ⟨scored,chosen⟩,rfl⟩

theorem multiEdges (order : Order) (graph : GraphAccessor W) (ctx : DynamicContext W)
    (startNodes : List String) (k depth threshold : Nat) :
    let set := (keptBy order graph ctx startNodes threshold (beamsOf order graph ctx startNodes k depth)).set
    (∀ e ∈ (multiBeamIntersection order graph ctx startNodes k depth threshold).edges,
      ∃ n ∈ set, e ∈ edgesAmong graph ctx set n) ∧
    ∀ n ∈ set, ∀ e ∈ edgesAmong graph ctx set n,
      ∃ kept ∈ (multiBeamIntersection order graph ctx startNodes k depth threshold).edges, kept.key = e.key := by
  intro set
  obtain ⟨sound,complete⟩ := reconstructed graph ctx set (order.arrange set)
  rw [multiSplit]
  constructor
  · intro e member
    obtain ⟨n,among,listed⟩ := sound e (List.mem_mergeSort.mp member)
    exact ⟨n,(order.perm set).mem_iff.mp among,listed⟩
  · intro n among e listed
    obtain ⟨kept,member,key⟩ := complete n ((order.perm set).mem_iff.mpr among) e listed
    exact ⟨kept,List.mem_mergeSort.mpr member,key⟩

/- An edge of the overlay joins two chosen names one of which resolves to nothing. -/
def Dangles (graph : GraphAccessor W) (ctx : DynamicContext W) (chosen : String → Prop) : Prop :=
  ∃ u, ∃ x ∈ visibleOverlay ctx u, chosen u ∧ chosen x.2.1 ∧
    ¬ (Resolvable graph ctx u ∧ Resolvable graph ctx x.2.1)

theorem multiClosed (order : Order) (g : NamedGraph W) {a : GraphAccessor W}
    (same : SameGraph g.toGraphAccessor a) (ctx : DynamicContext W) (startNodes : List String)
    (k depth threshold : Nat) :
    (multiBeamIntersection order a ctx startNodes k depth threshold).Closed ctx ↔
      ¬ Dangles a ctx (Selected startNodes threshold (beamsOf order a ctx startNodes k depth)) := by
  have named := same.keepsNames g
  have present := multiPresent named order ctx startNodes k depth threshold
  have set := keptSet (beamsHold named order ctx startNodes k depth) named order startNodes threshold
  obtain ⟨sound,complete⟩ := multiEdges order a ctx startNodes k depth threshold
  have source : ∀ {u : String} {x : String × String × EdgeData W}, x ∈ visibleOverlay ctx u → x.1 = u :=
    fun listed => eq_of_beq (List.mem_filter.mp listed).2
  constructor
  · rintro closed ⟨u,x,seen,first,second,broken⟩
    obtain ⟨kept,member,key⟩ := complete u ((set u).mpr first) (.ofOverlay x)
      ((amongIff a ctx _ u _).mpr (.inr ⟨x,seen,(set x.2.1).mpr second,rfl⟩))
    obtain ⟨from_,rest⟩ := Prod.mk.inj key
    obtain ⟨into,_⟩ := Prod.mk.inj rest
    have ends := closed.ends kept member
    rw [from_,into] at ends
    have left := ((present x.1).mp ends.1).2
    rw [source seen] at left
    exact broken ⟨left,((present x.2.1).mp ends.2).2⟩
  · intro whole
    refine ⟨multiOnce named order ctx startNodes k depth threshold,fun e member => ?_,fun e member => ?_⟩
    · obtain ⟨n,_,listed⟩ := sound e member
      rcases (amongIff a ctx _ n e).mp listed with ⟨v,seen,_,rfl⟩ | ⟨x,seen,_,rfl⟩
      · exact (List.mem_filter.mp seen).2
      · exact (List.mem_filter.mp (List.mem_of_mem_filter seen)).2
    · obtain ⟨n,among,listed⟩ := sound e member
      have first := (set n).mp among
      rcases (amongIff a ctx _ n e).mp listed with ⟨v,seen,inside,rfl⟩ | ⟨x,seen,inside,rfl⟩
      · have edge := List.mem_of_mem_filter seen
        have target : (a.getNode v.targetName).isSome = true := by
          rw [← same.isSome]
          exact (g.present _).mpr (g.targetPresent ((same.outgoing n).mem_iff.mpr edge))
        exact ⟨(present n).mpr ⟨first,.inl (presentedKnown g same n v edge)⟩,
          (present v.targetName).mpr ⟨(set _).mp inside,.inl target⟩⟩
      · have second := (set _).mp inside
        obtain ⟨left,right⟩ := not_not.mp (fun broken => whole ⟨n,x,seen,first,second,broken⟩)
        cases source seen
        exact ⟨(present x.1).mpr ⟨first,left⟩,(present x.2.1).mpr ⟨second,right⟩⟩

/- Both queries return closed subgraphs exactly when nothing dangles. -/
theorem closedIff (order : Order) (g : NamedGraph W) {a : GraphAccessor W}
    (same : SameGraph g.toGraphAccessor a) (ctx : DynamicContext W) (startNodes : List String)
    (seeds k depth threshold : Nat) :
    ((contextualSubgraph order a ctx seeds).Closed ctx ∧
      (multiBeamIntersection order a ctx startNodes k depth threshold).Closed ctx) ↔
    ¬ Dangles a ctx (Selected startNodes threshold (beamsOf order a ctx startNodes k depth)) := by
  rw [multiClosed order g same]
  exact and_iff_right (subgraphClosed (same.keepsNames g) ctx order seeds)

end edges

theorem pairClosed :
    let a := (pairGraph [callsEdge]).accessor .newestFirst
    let ctx := plainContext none
    ((contextualSubgraph .insertion a ctx 1).Closed ctx ∧
      (multiBeamIntersection .insertion a ctx ["a","b","a"] 2 1 2).Closed ctx) ↔
    ¬ Dangles a ctx (Selected ["a","b","a"] 2 (beamsOf .insertion a ctx ["a","b","a"] 2 1)) :=
  closedIff .insertion ((pairGraph [callsEdge]).named .newestFirst (pairIndexed _)) (.refl _) (plainContext none)
    ["a","b","a"] 1 2 1 2

/- An overlay edge to a start that exists nowhere. -/
def danglingContext : DynamicContext Milli :=
  { plainContext none with overlayEdges := [("a","ghost",callsEdge)] }

theorem ghostStartDangles : ¬ ∀ (g : NamedGraph Milli) (ctx : DynamicContext Milli) (startNodes : List String)
    (seeds k depth threshold : Nat), (contextualSubgraph .insertion g.toGraphAccessor ctx seeds).Closed ctx ∧
      (multiBeamIntersection .insertion g.toGraphAccessor ctx startNodes k depth threshold).Closed ctx := by
  intro closed
  have ends := (closed ((pairGraph []).named .newestFirst (pairIndexed _)) danglingContext ["a","ghost"]
    0 0 0 1).2.ends
  have listed : "ghost" ∈ (multiBeamIntersection .insertion ((pairGraph []).accessor .newestFirst) danglingContext
      ["a","ghost"] 0 0 1).edges.map EdgeResult.target := by decide +kernel
  obtain ⟨e,member,target⟩ := List.mem_map.mp listed
  have absent : "ghost" ∉ (multiBeamIntersection .insertion ((pairGraph []).accessor .newestFirst) danglingContext
      ["a","ghost"] 0 0 1).nodes.map NodeResult.name := by decide +kernel
  exact absent (target ▸ (ends e member).2)

end OrpheusGraph
