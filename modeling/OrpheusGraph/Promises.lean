import OrpheusGraph.Epochs
import OrpheusGraph.Optimal
import OrpheusGraph.Parallel

/-! What a client may build on, from one handle to the next: that an answered batch stays, that an update
is made to the graph that was read, and that a query has one answer. -/
namespace OrpheusGraph
open Storage Effects
variable {W : Type} [Arith W] [TotalCmp W] {loss : Prop} {pk : Packages W} {D : Known W} {faults : Faults W}
  {asked : List (Op W) → Prop} {st₀ st₁ st : Store W} {w w' : Writer W} {s s' : World W} {ops : List (Op W)} {n : Nat}

/-! An answered batch. -/
/- When the policy has the log synced with it, its answer is a durable state. -/
theorem syncedApply (tame : Tame loss faults) (h : Held loss pk D w s) (within : D.asked ops) (due : w.wal.due = true)
    (expectedSeq : Option Nat) (later : List (Op W) → Prop) :
    Act.ends (Step faults) (fun _ => True) (Writer.apply pk ops expectedSeq) (fun r w' s' => ∀ n, r = .ok n →
      ∃ d, w.delta.apply (w.base.asAccessor pk) ops = .ok d ∧
        (Small s' → Held loss pk ⟨n,later,s.published.length + 1,deltaAccessor (w.base.asAccessor pk) d⟩ w' s')) w s := by
  refine Writer.endsApply trivial (fun _ _ _ bad => nomatch bad) (fun _ _ _ _ _ => ⟨trivial,fun _ _ _ _ _ bad => nomatch bad⟩)
    (fun _ _ _ _ _ _ => ⟨trivial,fun _ _ _ bad => nomatch bad⟩) (fun d frame prepared s' same => ⟨trivial,trivial,?_⟩)
  subst same
  have durable : (w.accepted frame ops d).durableSeq = (w.accepted frame ops d).seq := by
    rw [Writer.acceptedDurable,if_pos due]
    rfl
  have count : (Writer.announced (w.ackedWorld frame s) ⟨w.base,d,w.seq + 1,w.epoch⟩).published.length = s.published.length + 1 := by
    rw [Writer.announced,List.length_append,ackedShown]
    rfl
  have pinned := Held.pinned (acceptedHeld h within prepared).2 (acceptedSound prepared) durable later
  rw [acceptedState,count] at pinned
  refine Act.endsWeaken (autoCompactHeld tame pinned (acceptedSound prepared)) (fun _ _ => trivial) (fun r w' s' _ held n answered => ?_)
  refine ⟨d,(preparedBatch prepared).2,fun small => ?_⟩
  cases r with
  | error e => contradiction
  | ok _ =>
    cases Except.ok.inj answered
    exact held small

/-! Runs of the sample store. -/
section sample

def answerOf (st : Store Unit) (q : Request Unit) : Option Nat :=
  match st.handle with
  | none => none
  | some w => (served q w st.world).1.1.toOption.join

def closedWorld (st : Store Unit) : World Unit :=
  match st.handle with
  | none => st.world
  | some w => ((w.close plainPackages).run World.answers st.world).2

theorem answeredRun {st : Store Unit} {w : Writer Unit} {q : Request Unit} {n : Nat} (handle : st.handle = some w)
    (answered : answerOf st q = some n) : ∃ w' s', answeredTo st q = ⟨s',some w'⟩ ∧
      Exec (Step noFaults) (q.run plainPackages w) st.world (.ok (some n),w') s' := by
  obtain ⟨s,_⟩ := st
  subst handle
  have run := answersRun noFaults (q.run plainPackages) w s
  change Exec _ _ _ (served q w s).1 (served q w s).2 at run
  change (served q w s).1.1.toOption.join = some n at answered
  have same : (served q w s).1.1 = .ok (some n) := by
    cases shown : (served q w s).1.1 with
    | error e => simp [shown,Except.toOption] at answered
    | ok m => simpa [shown,Except.toOption] using answered
  refine ⟨(served q w s).1.2,(served q w s).2,rfl,?_⟩
  rw [← same]
  exact run

theorem closedGoes {loss : Prop} {asked : List (Op Unit) → Prop} {st mid : Store Unit} (goes : Goes plainPackages noFaults loss asked st mid) :
    Goes plainPackages noFaults loss asked st ⟨closedWorld mid,none⟩ := by
  obtain ⟨s,handle⟩ := mid
  cases handle with
  | none => exact goes
  | some w => exact goes.served (.close (answersRun noFaults (Writer.close plainPackages) w s)) trivial

end sample

/- Closed and opened again. -/
def resumedStore (st : Store Unit) : Store Unit := reopenedStore (closedWorld st)

def onwardUpdate : List (Op Unit) := [.upsertNode (sampleNode "b")]

/-! A query. -/
section queries
variable {ctx : DynamicContext W} {a b : GraphAccessor W}

/- The same answers, apart from which of several ways a path takes and of several parallel edges a subgraph shows. -/
structure SameAnswers (ctx : DynamicContext W) (a b : GraphAccessor W) : Prop where
  beam : ∀ order order' start k depth, beamTraverse order a ctx start k depth = beamTraverse order' b ctx start k depth
  shared : ∀ order order' starts k depth threshold, (multiBeamIntersection order a ctx starts k depth threshold).nodes =
    (multiBeamIntersection order' b ctx starts k depth threshold).nodes
  plain : Plain a ctx → ∀ order order' k, contextualSubgraph order a ctx k = contextualSubgraph order' b ctx k ∧
    ∀ starts depth threshold, multiBeamIntersection order a ctx starts k depth threshold =
      multiBeamIntersection order' b ctx starts k depth threshold
  path : ∀ (heap heap' : BinaryHeap W) start finish, ∃ r r' least, (∀ fuel, least ≤ fuel →
    findPath heap a ctx start finish fuel = some r ∧ findPath heap' b ctx start finish fuel = some r') ∧ (r.isSome = true ↔ r'.isSome = true)

theorem sameAnswers (laws : CostLaws W) (g : NamedGraph W) (same : SameGraph g.toGraphAccessor a) (same' : SameGraph g.toGraphAccessor b)
    (uncut : ctx.maxFanOut = none) : SameAnswers ctx a b := by
  have named := same.keepsNames g
  have named' := same'.keepsNames g
  have scores : scoreOf a ctx (.build ctx) = scoreOf b ctx (.build ctx) := scoresOfNodes rfl (same.symm.trans same').nodes
  have next : ∀ u v, Next a ctx u v ↔ Next b ctx u v := fun u v => ((neighborsPerm g same same' uncut u).map _).mem_iff
  have beam := beamAgrees scores next named named'
  refine ⟨beam,fun order order' starts k depth threshold => ?_,fun plain order order' k =>
    ⟨subgraphPlain g same same' uncut plain order order' k,fun starts depth threshold =>
      multiPlain g same same' uncut plain order order' starts k depth threshold⟩,fun heap heap' start finish => ?_⟩
  · have beams : beamsOf order a ctx starts k depth = beamsOf order' b ctx starts k depth :=
      List.map_congr_left (fun start _ => beam order order' start k depth)
    obtain ⟨nodes,_⟩ := keptAgrees named named' scores (beamsHold named order ctx starts k depth)
      (beamsHold named' order' ctx starts k depth) (fun n => congrArg (hits · n) beams) (fun _ => Iff.rfl) order order' threshold
    exact nodes
  · obtain ⟨r,least,finds,found⟩ := findPathFinds laws a ctx start finish heap (routesBounded laws g same ctx start)
    obtain ⟨r',least',finds',found'⟩ := findPathFinds laws b ctx start finish heap' (routesBounded laws g same' ctx start)
    refine ⟨r,r',max least least',fun fuel enough => ⟨finds fuel ((Nat.le_max_left _ _).trans enough),
      finds' fuel ((Nat.le_max_right _ _).trans enough)⟩,?_⟩
    rw [foundIff laws found,foundIff laws found']
    exact exists_congr (fun j => ⟨fun walk => walk.mono (fun u v => (next u v).mp) (fun _ => id),
      fun walk => walk.mono (fun u v => (next u v).mpr) (fun _ => id)⟩)

omit [Arith W] [TotalCmp W] in
theorem Proper.named {g : GraphState W} (proper : Proper pk g) (room : g.delta.addedEdges.length ≤ 2^32) :
    ∃ graph : NamedGraph W, graph.toGraphAccessor = g.view pk := by
  obtain ⟨⟨base,shown,_,_⟩,h,reached⟩ := proper
  rw [GraphState.view]
  rw [← shown] at reached ⊢
  have count := reached.represents.count
  exact ⟨Merged.graph reached.represents reached.counted (reached.indexed (by omega)),rfl⟩

end queries

/- Costs of which none is less than another. -/
def flatLaws : CostLaws Unit where
  isCost _ := True
  zero := trivial
  edge _ := trivial
  add _ _ := trivial
  ltIff _ _ := ⟨(nomatch ·),(nomatch ·)⟩
  grows _ _ := rfl
  mono _ _ _ _ := rfl

def uncutContext : DynamicContext Unit := ⟨∅,[],[],∅,(),(),(),(),[],none,none,none,[]⟩

end OrpheusGraph
