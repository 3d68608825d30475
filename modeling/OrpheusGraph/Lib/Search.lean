import OrpheusGraph.Lib.Cheapest

/-! The search that settles nodes in order of cost. It discovers every node once: the first
settled node with an edge to it is its parent for good. -/
namespace Cheapest
variable {κ ℓ C : Type} [DecidableEq κ] {costs : Costs C}

structure State (κ ℓ C : Type) where
  dist : κ → Option C
  parent : κ → Option (κ × ℓ)
  queue : List (C × κ)

inductive Trail (net : Net κ ℓ costs) (parent : κ → Option (κ × ℓ)) : κ → List (κ × κ × ℓ) → Prop where
  | start : Trail net parent net.start []
  | step {t x steps} (away : t ≠ net.start) (last : parent t = some x) (before : Trail net parent x.1 steps) :
      Trail net parent t ((t,x) :: steps)

/- Why a node has the parent it has. -/
structure Parent (net : Net κ ℓ costs) (done : List κ) (s : State κ ℓ C) (t : κ) (c : C) (x : κ × ℓ)
    (a : C) : Prop where
  recorded : s.parent t = some x
  settled : x.1 ∈ done
  dist : s.dist x.1 = some a
  cost : c = costs.add a (net.enter t)
  edge : first net x.1 t = some (t,x.2)
  route : Route net (· = t) x.1 a
  first : ∀ u ∈ done, ∀ l, (t,l) ∈ net.next u → ∀ b, s.dist u = some b → costs.le a b

structure Inv (net : Net κ ℓ costs) (done : List κ) (s : State κ ℓ C) : Prop where
  origin : s.dist net.start = some costs.zero
  queued : ∀ e ∈ s.queue, s.dist e.2 = some e.1 ∧ e.2 ∉ done
  once : (s.queue.map Prod.snd).Nodup
  doneOnce : done.Nodup
  found : ∀ n ∈ done, ∃ c, s.dist n = some c
  listed : ∀ n c, s.dist n = some c → n ∈ done ∨ (c,n) ∈ s.queue
  ordered : ∀ u ∈ done, ∀ a, s.dist u = some a → ∀ e ∈ s.queue, costs.le a e.1
  sorted : done.Pairwise (fun u v => ∀ a b, s.dist u = some a → s.dist v = some b → costs.le b a)
  route : ∀ n c, s.dist n = some c → Route net (fun x => s.dist x = none) n c
  parents : ∀ t c, s.dist t = some c → t ≠ net.start → ∃ x a, Parent net done s t c x a
  trails : ∀ t c, s.dist t = some c → ∃ steps, Trail net s.parent t steps

def Closed (net : Net κ ℓ costs) (done : List κ) (s : State κ ℓ C) : Prop :=
  ∀ u ∈ done, ∀ x ∈ net.next u, ∃ c, s.dist x.1 = some c


variable {net : Net κ ℓ costs} {done : List κ} {s : State κ ℓ C}

theorem Inv.valid (inv : Inv net done s) {n : κ} {c : C} (found : s.dist n = some c) : costs.valid c :=
  (inv.route n c found).valid

/- Taking the least entry off the queue settles its node. -/
theorem Inv.pop (inv : Inv net done s) {e : C × κ} {rest : List (C × κ)} (perm : s.queue.Perm (e :: rest))
    (least : ∀ y ∈ s.queue, costs.le e.1 y.1) : Inv net (e.2 :: done) { s with queue := rest } := by
  have here : e ∈ s.queue := perm.mem_iff.mpr List.mem_cons_self
  have later : ∀ y ∈ rest, y ∈ s.queue := fun y member => perm.mem_iff.mpr (List.mem_cons_of_mem e member)
  obtain ⟨dist,fresh⟩ := inv.queued e here
  have names := ((perm.map Prod.snd).nodup_iff.mp inv.once)
  obtain ⟨alone,once⟩ := List.nodup_cons.mp names
  constructor
  · exact inv.origin
  · intro y member
    obtain ⟨known,open_⟩ := inv.queued y (later y member)
    refine ⟨known,fun settled => ?_⟩
    rcases List.mem_cons.mp settled with same | old
    · exact alone (same ▸ List.mem_map_of_mem member)
    · exact open_ old
  · exact once
  · exact List.nodup_cons.mpr ⟨fresh,inv.doneOnce⟩
  · intro n member
    rcases List.mem_cons.mp member with rfl | old
    · exact ⟨e.1,dist⟩
    · exact inv.found n old
  · intro n c found
    rcases inv.listed n c found with old | queued
    · exact .inl (List.mem_cons_of_mem _ old)
    · rcases List.mem_cons.mp (perm.mem_iff.mp queued) with same | other
      · exact .inl (same ▸ List.mem_cons_self)
      · exact .inr other
  · intro u member a known y queued
    rcases List.mem_cons.mp member with rfl | old
    · rw [dist] at known
      cases known
      exact least y (later y queued)
    · exact inv.ordered u old a known y (later y queued)
  · refine List.pairwise_cons.mpr ⟨fun v member a b known settled => ?_,inv.sorted⟩
    rw [dist] at known
    cases known
    exact inv.ordered v member b settled e here
  · exact inv.route
  · intro t c found away
    obtain ⟨x,a,parent⟩ := inv.parents t c found away
    refine ⟨x,a,parent.recorded,List.mem_cons_of_mem _ parent.settled,parent.dist,parent.cost,parent.edge,
      parent.route,fun u member l edge b known => ?_⟩
    rcases List.mem_cons.mp member with rfl | old
    · rw [dist] at known
      cases known
      exact inv.ordered x.1 parent.settled a parent.dist e here
    · exact parent.first u old l edge b known
  · exact inv.trails

/- What is known of a node that a settled one has an edge to. -/
theorem Inv.reached (inv : Inv net done s) {u t : κ} {l : ℓ} {a b : C} (settled : u ∈ done)
    (dist : s.dist u = some a) (edge : (t,l) ∈ net.next u) (known : s.dist t = some b) :
    costs.le b (costs.add a (net.enter t)) := by
  by_cases same : t = net.start
  · subst same
    rw [inv.origin] at known
    cases known
    exact costs.trans (inv.route u a dist).least (costs.grows (inv.valid dist) (net.validEnter _))
  · obtain ⟨x,d,parent⟩ := inv.parents t b known same
    rw [parent.cost]
    exact costs.mono (inv.valid parent.dist) (inv.valid dist) (net.validEnter t)
      (parent.first u settled l edge a dist)

def State.reach (s : State κ ℓ C) (t : κ) (x : κ × ℓ) (c : C) : State κ ℓ C where
  dist := Function.update s.dist t (some c)
  parent := Function.update s.parent t (some x)
  queue := (c,t) :: s.queue

def relax (net : Net κ ℓ costs) (u : κ) (c : C) (s : State κ ℓ C) (x : κ × ℓ) : State κ ℓ C :=
  let new := costs.add c (net.enter x.1)
  if (s.dist x.1).all (costs.better new) then s.reach x.1 (u,x.2) new else s

def State.start (net : Net κ ℓ costs) : State κ ℓ C where
  dist := Function.update (fun _ => none) net.start (some costs.zero)
  parent _ := none
  queue := [(costs.zero,net.start)]

theorem startInv (net : Net κ ℓ costs) : Inv net [] (State.start net) where
  origin := by simp [State.start]
  queued e member := by
    cases List.mem_singleton.mp member
    simp [State.start]
  once := by simp [State.start]
  doneOnce := .nil
  found n member := absurd member List.not_mem_nil
  listed n c found := by
    by_cases same : n = net.start
    · subst same
      simp only [State.start,Function.update_self,Option.some.injEq] at found
      exact .inr (found ▸ List.mem_cons_self)
    · simp [State.start,Function.update_of_ne same] at found
  ordered u member := absurd member List.not_mem_nil
  sorted := .nil
  route n c found := by
    by_cases same : n = net.start
    · subst same
      simp only [State.start,Function.update_self,Option.some.injEq] at found
      exact found ▸ .start (by simp [State.start])
    · simp [State.start,Function.update_of_ne same] at found
  parents t c found away := by simp [State.start,Function.update_of_ne away] at found
  trails t c found := by
    by_cases same : t = net.start
    · exact ⟨[],same ▸ .start⟩
    · simp [State.start,Function.update_of_ne same] at found

theorem Inv.trailKept (inv : Inv net done s) {t : κ} (fresh : s.dist t = none) (y : Option (κ × ℓ)) {n : κ}
    {steps : List (κ × κ × ℓ)} (trail : Trail net s.parent n steps) (found : ∃ c, s.dist n = some c) :
    Trail net (Function.update s.parent t y) n steps := by
  induction trail with
  | start => exact .start
  | step away last _ ih =>
    obtain ⟨c,known⟩ := found
    obtain ⟨x,a,parent⟩ := inv.parents _ c known away
    cases Option.some.inj (parent.recorded.symm.trans last)
    refine .step away ?_ (ih ⟨a,parent.dist⟩)
    rw [Function.update_of_ne (fun same => by rw [same,fresh] at known; cases known)]
    exact last

/- A new node is reached from the node being settled. -/
theorem Inv.reach {u : κ} (inv : Inv net (u :: done) s) (closed : Closed net done s) {c : C}
    (dist : s.dist u = some c) {x : κ × ℓ} (edge : x ∈ net.next u) (leads : first net u x.1 = some x)
    (fresh : s.dist x.1 = none) : Inv net (u :: done) (s.reach x.1 (u,x.2) (costs.add c (net.enter x.1))) := by
  have other : ∀ n d, s.dist n = some d → n ≠ x.1 := by
    intro n d known same
    rw [same,fresh] at known
    cases known
  have kept : ∀ n d, s.dist n = some d →
      Function.update s.dist x.1 (some (costs.add c (net.enter x.1))) n = some d := by
    intro n d known
    rw [Function.update_of_ne (other n d known),known]
  have valid := inv.valid dist
  have settledOld : ∀ v ∈ u :: done, ∀ a, Function.update s.dist x.1
      (some (costs.add c (net.enter x.1))) v = some a → s.dist v = some a := by
    intro v member a known
    obtain ⟨d,old⟩ := inv.found v member
    rw [Function.update_of_ne (other v d old)] at known
    exact known
  have last : ∀ v ∈ u :: done, ∀ a, s.dist v = some a → costs.le a c := by
    intro v member a known
    rcases List.mem_cons.mp member with rfl | old
    · rw [dist] at known
      cases known
      exact costs.refl _
    · exact (List.pairwise_cons.mp inv.sorted).1 v old c a dist known
  constructor
  · exact kept _ _ inv.origin
  · intro e member
    rcases List.mem_cons.mp member with rfl | old
    · refine ⟨Function.update_self _ _ _,fun settled => ?_⟩
      obtain ⟨d,known⟩ := inv.found _ settled
      exact other _ d known rfl
    · obtain ⟨known,open_⟩ := inv.queued e old
      exact ⟨kept _ _ known,open_⟩
  · refine List.nodup_cons.mpr ⟨fun listed => ?_,inv.once⟩
    obtain ⟨e,member,same⟩ := List.mem_map.mp listed
    exact other _ _ (inv.queued e member).1 same
  · exact inv.doneOnce
  · intro n member
    obtain ⟨d,known⟩ := inv.found n member
    exact ⟨d,kept n d known⟩
  · intro n d found
    by_cases same : n = x.1
    · subst same
      simp only [State.reach,Function.update_self,Option.some.injEq] at found
      exact .inr (found ▸ List.mem_cons_self)
    · simp only [State.reach,Function.update_of_ne same] at found
      exact (inv.listed n d found).imp_right (List.mem_cons_of_mem _)
  · intro v member a known e queued
    have old := settledOld v member a known
    rcases List.mem_cons.mp queued with rfl | before
    · exact costs.trans (last v member a old) (costs.grows valid (net.validEnter _))
    · exact inv.ordered v member a old e before
  · refine List.Pairwise.imp_of_mem (fun {v w} left right sorted a b known after => ?_) inv.sorted
    exact sorted a b (settledOld v left a known) (settledOld w right b after)
  · have fewer : ∀ n, Function.update s.dist x.1 (some (costs.add c (net.enter x.1))) n = none →
        s.dist n = none := by
      intro n none
      cases known : s.dist n with
      | none => rfl
      | some d => rw [kept n d known] at none; cases none
    intro n d found
    by_cases same : n = x.1
    · subst same
      simp only [State.reach,Function.update_self,Option.some.injEq] at found
      exact found ▸ .step ((inv.route u c dist).mono fewer) edge (by simp [State.reach])
    · simp only [State.reach,Function.update_of_ne same] at found
      exact (inv.route n d found).mono fewer
  · intro t d found away
    by_cases same : t = x.1
    · subst same
      simp only [State.reach,Function.update_self,Option.some.injEq] at found
      refine ⟨(u,x.2),c,Function.update_self _ _ _,List.mem_cons_self,kept u c dist,found.symm,leads,
        (inv.route u c dist).mono (fun n eq => eq ▸ fresh),fun v member l into b known => ?_⟩
      rcases List.mem_cons.mp member with rfl | old
      · rw [settledOld _ List.mem_cons_self b known] at dist
        cases dist
        exact costs.refl _
      · obtain ⟨e,reached⟩ := closed v old _ into
        exact absurd rfl (other _ e reached)
    · simp only [State.reach,Function.update_of_ne same] at found
      obtain ⟨y,a,parent⟩ := inv.parents t d found away
      refine ⟨y,a,?_,parent.settled,kept _ _ parent.dist,parent.cost,parent.edge,parent.route,
        fun v member l into b known => parent.first v member l into b (settledOld v member b known)⟩
      exact (Function.update_of_ne same _ _).trans parent.recorded
  · intro t d found
    by_cases same : t = x.1
    · subst same
      obtain ⟨steps,trail⟩ := inv.trails u c dist
      exact ⟨_,.step (fun origin => other _ _ inv.origin origin.symm) (Function.update_self _ _ _)
        (inv.trailKept fresh _ trail ⟨c,dist⟩)⟩
    · simp only [State.reach,Function.update_of_ne same] at found
      obtain ⟨steps,trail⟩ := inv.trails t d found
      exact ⟨steps,inv.trailKept fresh _ trail ⟨d,found⟩⟩

theorem relaxFresh {u : κ} {c : C} {x : κ × ℓ} (fresh : s.dist x.1 = none) :
    relax net u c s x = s.reach x.1 (u,x.2) (costs.add c (net.enter x.1)) := by
  simp [relax,fresh]

theorem relaxWorse {u : κ} {c d : C} {x : κ × ℓ} (known : s.dist x.1 = some d)
    (worse : ¬ costs.better (costs.add c (net.enter x.1)) d = true) : relax net u c s x = s := by
  simp [relax,known,worse]

theorem Closed.reach {t : κ} {x : κ × ℓ} {c : C} (closed : Closed net done s) :
    Closed net done (s.reach t x c) := by
  intro v member y edge
  obtain ⟨d,known⟩ := closed v member y edge
  by_cases same : y.1 = t
  · exact ⟨c,by rw [same]; exact Function.update_self _ _ _⟩
  · exact ⟨d,(Function.update_of_ne same _ _).trans known⟩

/- Expanding the node just settled, one edge at a time. -/
structure Expanding (net : Net κ ℓ costs) (u : κ) (done : List κ) (c : C) (s : State κ ℓ C) : Prop where
  inv : Inv net (u :: done) s
  closed : Closed net done s
  dist : s.dist u = some c

theorem Expanding.relax {u : κ} {c : C} (run : Expanding net u done c s) {x : κ × ℓ}
    (edge : x ∈ net.next u) (leads : s.dist x.1 = none → first net u x.1 = some x) : Expanding net u done c (relax net u c s x) ∧
      (∃ d, (Cheapest.relax net u c s x).dist x.1 = some d) ∧
      ∀ n d, s.dist n = some d → (Cheapest.relax net u c s x).dist n = some d := by
  cases known : s.dist x.1 with
  | none =>
    rw [relaxFresh known]
    have other : ∀ n d, s.dist n = some d → n ≠ x.1 := by
      intro n d found same
      rw [same,known] at found
      cases found
    have kept : ∀ n d, s.dist n = some d →
        (s.reach x.1 (u,x.2) (costs.add c (net.enter x.1))).dist n = some d :=
      fun n d found => (Function.update_of_ne (other n d found) _ _).trans found
    exact ⟨⟨run.inv.reach run.closed run.dist edge (leads known) known,run.closed.reach,kept u c run.dist⟩,
      ⟨_,Function.update_self _ _ _⟩,kept⟩
  | some d =>
    have le := run.inv.reached List.mem_cons_self run.dist edge known
    have valid := costs.validAdd (run.inv.valid run.dist) (net.validEnter x.1)
    have worse : ¬ costs.better (costs.add c (net.enter x.1)) d = true :=
      fun better => (costs.betterIff valid (run.inv.valid known)).mp better le
    rw [relaxWorse known worse]
    exact ⟨run,⟨d,known⟩,fun _ _ found => found⟩

theorem leadsHere {u : κ} {before rest : List (κ × ℓ)} {x : κ × ℓ} (split : net.next u = before ++ x :: rest)
    (known : ∀ y ∈ before, ∃ d, s.dist y.1 = some d) (fresh : s.dist x.1 = none) :
    first net u x.1 = some x := by
  have none : before.find? (fun y => decide (y.1 = x.1)) = none := by
    refine List.find?_eq_none.mpr (fun y member same => ?_)
    obtain ⟨d,found⟩ := known y member
    rw [of_decide_eq_true same,fresh] at found
    cases found
  rw [first,split,List.find?_append,none]
  simp

theorem Expanding.relaxAll {u : κ} {c : C} (run : Expanding net u done c s) {before xs : List (κ × ℓ)}
    (split : net.next u = before ++ xs) (known : ∀ y ∈ before, ∃ d, s.dist y.1 = some d) :
    Expanding net u done c (xs.foldl (Cheapest.relax net u c) s) ∧
      ∀ x ∈ net.next u, ∃ d, (xs.foldl (Cheapest.relax net u c) s).dist x.1 = some d := by
  induction xs generalizing s before with
  | nil => exact ⟨run,fun x member => known x (by rwa [split,List.append_nil] at member)⟩
  | cons x rest ih =>
    have edge : x ∈ net.next u := split ▸ List.mem_append_right before List.mem_cons_self
    obtain ⟨next,here,kept⟩ := run.relax edge (leadsHere split known)
    have later : net.next u = (before ++ [x]) ++ rest := by rw [split,List.append_assoc]; rfl
    refine ih next later (fun y member => ?_)
    rcases List.mem_append.mp member with old | new
    · obtain ⟨d,found⟩ := known y old
      exact ⟨d,kept y.1 d found⟩
    · exact List.mem_singleton.mp new ▸ here

theorem expand {u : κ} {c : C} (inv : Inv net (u :: done) s) (closed : Closed net done s)
    (dist : s.dist u = some c) :
    Inv net (u :: done) ((net.next u).foldl (Cheapest.relax net u c) s) ∧
      Closed net (u :: done) ((net.next u).foldl (Cheapest.relax net u c) s) := by
  obtain ⟨run,found⟩ := Expanding.relaxAll ⟨inv,closed,dist⟩ (List.nil_append _).symm
    (fun y member => absurd member List.not_mem_nil)
  refine ⟨run.inv,fun v member x edge => ?_⟩
  rcases List.mem_cons.mp member with rfl | old
  · exact found x edge
  · exact run.closed v old x edge

/-! What the invariant says about routes. -/
theorem Inv.frontier (inv : Inv net done s) (closed : Closed net done s) {avoid : κ → Prop} {n : κ} {a : C}
    (route : Route net avoid n a) :
    (n ∈ done ∧ ∃ d, s.dist n = some d ∧ costs.le d a) ∨ ∃ e ∈ s.queue, costs.le e.1 a := by
  induction route with
  | start =>
    rcases inv.listed _ _ inv.origin with settled | queued
    · exact .inl ⟨settled,_,inv.origin,costs.refl _⟩
    · exact .inr ⟨_,queued,costs.refl _⟩
  | @step u c x before edge _ ih =>
    have grows := costs.grows before.valid (net.validEnter x.1)
    rcases ih with ⟨settled,d,dist,le⟩ | ⟨e,queued,le⟩
    · obtain ⟨b,known⟩ := closed u settled x edge
      have reached := inv.reached settled dist edge known
      have below := costs.trans reached (costs.mono (inv.valid dist) before.valid (net.validEnter x.1) le)
      rcases inv.listed x.1 b known with done | queued
      · exact .inl ⟨done,b,known,below⟩
      · exact .inr ⟨_,queued,below⟩
    · exact .inr ⟨e,queued,costs.trans le grows⟩

theorem Inv.source (inv : Inv net done s) (closed : Closed net done s) {t : κ} {c a : C} {x : κ × ℓ}
    (parent : Parent net done s t c x a) : Source net t x.1 := by
  refine ⟨⟨x.2,List.mem_of_find?_eq_some parent.edge⟩,a,parent.route,fun u l b edge route => ?_⟩
  rcases inv.frontier closed route with ⟨settled,d,dist,le⟩ | ⟨e,queued,le⟩
  · exact costs.trans (parent.first u settled l edge d dist) le
  · exact costs.trans (inv.ordered _ parent.settled a parent.dist e queued) le

theorem Inv.retrace (inv : Inv net done s) (closed : Closed net done s) {t : κ} {c : C}
    {steps : List (κ × κ × ℓ)} (known : s.dist t = some c) (trail : Trail net s.parent t steps) :
    Retrace net t steps := by
  induction trail generalizing c with
  | start => exact .start
  | step away last _ ih =>
    obtain ⟨y,a,parent⟩ := inv.parents _ c known away
    cases Option.some.inj (parent.recorded.symm.trans last)
    exact .step away (inv.source closed parent) parent.edge (ih parent.dist)

theorem Inv.unreachable (inv : Inv net done s) (closed : Closed net done s) (empty : s.queue = [])
    {n : κ} (fresh : n ∉ done) (a : C) : ¬ Route net (fun _ => False) n a := by
  intro route
  rcases inv.frontier closed route with ⟨settled,_⟩ | ⟨e,queued,_⟩
  · exact fresh settled
  · rw [empty] at queued
    exact absurd queued List.not_mem_nil

theorem Inv.reachable (inv : Inv net done s) {n : κ} {c : C} (known : s.dist n = some c) :
    Route net (fun _ => False) n c := (inv.route n c known).mono (fun _ never => never.elim)

end Cheapest
