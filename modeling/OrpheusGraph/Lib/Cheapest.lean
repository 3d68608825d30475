import Mathlib

/-! Cheapest routes where a step costs what the node it enters costs. The last step of one
comes from a node that costs least among those with an edge to its end. -/
namespace Cheapest
variable {κ ℓ C σ : Type}

/- Costs are compared and added on the valid values only. -/
structure Costs (C : Type) where
  zero : C
  add : C → C → C
  le : C → C → Prop
  better : C → C → Bool
  valid : C → Prop
  validZero : valid zero
  validAdd : ∀ {a b}, valid a → valid b → valid (add a b)
  refl : ∀ a, le a a
  trans : ∀ {a b c}, le a b → le b c → le a c
  betterIff : ∀ {a b}, valid a → valid b → (better a b = true ↔ ¬ le b a)
  grows : ∀ {a b}, valid a → valid b → le a (add a b)
  mono : ∀ {a b c}, valid a → valid b → valid c → le a b → le (add a c) (add b c)

structure Net (κ ℓ : Type) {C : Type} (costs : Costs C) where
  next : κ → List (κ × ℓ)
  enter : κ → C
  validEnter : ∀ n, costs.valid (enter n)
  start : κ

variable {costs : Costs C} (net : Net κ ℓ costs)

inductive Route (avoid : κ → Prop) : κ → C → Prop where
  | start (free : ¬ avoid net.start) : Route avoid net.start costs.zero
  | step {u c x} (before : Route avoid u c) (edge : x ∈ net.next u) (free : ¬ avoid x.1) :
      Route avoid x.1 (costs.add c (net.enter x.1))

/- A node that costs least to reach, on the way to another, among those with an edge to it. -/
structure Source (t u : κ) : Prop where
  edge : ∃ l, (t,l) ∈ net.next u
  least : ∃ a, Route net (· = t) u a ∧
    ∀ v l b, (t,l) ∈ net.next v → Route net (· = t) v b → costs.le a b

inductive Behind (finish : κ) : κ → Prop where
  | finish : Behind finish finish
  | back {t u} (ahead : Behind finish t) (away : t ≠ net.start) (source : Source net t u) : Behind finish u

def OneSource (finish : κ) : Prop :=
  ∀ t, Behind net finish t → t ≠ net.start → ∀ u v, Source net t u → Source net t v → u = v

def first [DecidableEq κ] (u t : κ) : Option (κ × ℓ) := (net.next u).find? (fun y => decide (y.1 = t))

/- A route followed back to the start, through one source after the other. -/
inductive Retrace [DecidableEq κ] : κ → List (κ × κ × ℓ) → Prop where
  | start : Retrace net.start []
  | step {t x steps} (away : t ≠ net.start) (source : Source net t x.1)
      (edge : first net x.1 t = some (t,x.2)) (before : Retrace x.1 steps) : Retrace t ((t,x) :: steps)

variable {net}

theorem Route.mono {avoid avoid' : κ → Prop} (fewer : ∀ n, avoid' n → avoid n) {n : κ} {c : C}
    (route : Route net avoid n c) : Route net avoid' n c := by
  induction route with
  | start free => exact .start (mt (fewer _) free)
  | step _ edge free ih => exact .step ih edge (mt (fewer _) free)

theorem Route.valid {avoid : κ → Prop} {n : κ} {c : C} (route : Route net avoid n c) : costs.valid c := by
  induction route with
  | start => exact costs.validZero
  | step _ _ _ ih => exact costs.validAdd ih (net.validEnter _)

theorem Route.least {avoid : κ → Prop} {n : κ} {c : C} (route : Route net avoid n c) :
    costs.le costs.zero c := by
  induction route with
  | start => exact costs.refl _
  | step before _ _ ih => exact costs.trans ih (costs.grows before.valid (net.validEnter _))

theorem Retrace.route [DecidableEq κ] {t : κ} {steps : List (κ × κ × ℓ)} (trace : Retrace net t steps) :
    ∃ c, Route net (fun _ => False) t c := by
  cases trace with
  | start => exact ⟨_,.start id⟩
  | step _ source =>
    obtain ⟨⟨l,edge⟩,a,route,_⟩ := source
    exact ⟨_,.step (route.mono (fun _ never => never.elim)) edge id⟩

theorem Retrace.stops [DecidableEq κ] {t : κ} {steps : List (κ × κ × ℓ)} (trace : Retrace net t steps)
    (here : t = net.start) : steps = [] := by
  cases trace with
  | start => rfl
  | step away => exact absurd here away

/-! No route is cheaper than a retrace. -/
theorem Route.ends {avoid : κ → Prop} {n : κ} {c : C} (route : Route net avoid n c) : ¬ avoid n := by
  cases route with
  | start free => exact free
  | step _ _ free => exact free

/- A route stays clear of a node, or it has come to it once at no greater cost. -/
theorem Route.arrival {n : κ} {c : C} (route : Route net (fun _ => False) n c) {t : κ}
    (away : t ≠ net.start) : Route net (· = t) n c ∨ ∃ u l b, (t,l) ∈ net.next u ∧
      Route net (· = t) u b ∧ costs.le (costs.add b (net.enter t)) c := by
  induction route with
  | start => exact .inl (.start (Ne.symm away))
  | @step u c x before edge _ ih =>
    rcases ih with clear | ⟨v,l,b,into,reached,le⟩
    · rcases em (x.1 = t) with here | other
      · subst here
        exact .inr ⟨u,x.2,c,edge,clear,costs.refl _⟩
      · exact .inl (.step clear edge other)
    · exact .inr ⟨v,l,b,into,reached,costs.trans le (costs.grows before.valid (net.validEnter _))⟩

def stepsCost (net : Net κ ℓ costs) : List (κ × κ × ℓ) → C
  | [] => costs.zero
  | s :: rest => costs.add (stepsCost net rest) (net.enter s.1)

theorem Retrace.costValid [DecidableEq κ] {t : κ} {steps : List (κ × κ × ℓ)} (trace : Retrace net t steps) :
    costs.valid (stepsCost net steps) := by
  induction trace with
  | start => exact costs.validZero
  | step _ _ _ _ ih => exact costs.validAdd ih (net.validEnter _)

theorem Retrace.optimal [DecidableEq κ] {t : κ} {steps : List (κ × κ × ℓ)} (trace : Retrace net t steps)
    {c : C} (route : Route net (fun _ => False) t c) : costs.le (stepsCost net steps) c := by
  induction trace generalizing c with
  | start => exact route.least
  | @step t x steps away source _ before ih =>
    rcases route.arrival away with clear | ⟨u,l,b,edge,reached,le⟩
    · exact absurd rfl clear.ends
    · obtain ⟨_,a,shortest,least⟩ := source
      have tail := ih (shortest.mono (fun _ never => never.elim))
      have below := costs.trans tail (least u l b edge reached)
      exact costs.trans (costs.mono before.costValid reached.valid (net.validEnter t) below) le

/-! Nets with the same edges in different orders. -/
structure SameEdges (a b : Net κ ℓ costs) : Prop where
  next : ∀ u x, x ∈ a.next u ↔ x ∈ b.next u
  enter : a.enter = b.enter
  start : a.start = b.start

namespace SameEdges
variable {a b : Net κ ℓ costs}

theorem symm (same : SameEdges a b) : SameEdges b a :=
  ⟨fun u x => (same.next u x).symm,same.enter.symm,same.start.symm⟩

theorem route (same : SameEdges a b) {avoid : κ → Prop} {n : κ} {c : C} (route : Route a avoid n c) :
    Route b avoid n c := by
  induction route with
  | start free =>
    rw [same.start] at free ⊢
    exact .start free
  | step _ edge free ih =>
    rw [same.enter]
    exact .step ih ((same.next _ _).mp edge) free

theorem source (same : SameEdges a b) {t u : κ} (source : Source a t u) : Source b t u := by
  obtain ⟨⟨l,edge⟩,c,route,least⟩ := source
  refine ⟨⟨l,(same.next _ _).mp edge⟩,c,same.route route,fun v l d other before => ?_⟩
  exact least v l d ((same.next _ _).mpr other) (same.symm.route before)

/- With one source for every node on the way back, two nets give the same retrace as far as
their first edges show the same. -/
theorem retrace [DecidableEq κ] (same : SameEdges a b) {shown : ℓ → σ} {finish t : κ}
    (oneSource : OneSource a finish)
    (agree : ∀ t, Behind a finish t → t ≠ a.start → ∀ u, Source a t u → ∀ l l',
      first a u t = some (t,l) → first b u t = some (t,l') → shown l = shown l')
    (behind : Behind a finish t) {steps steps' : List (κ × κ × ℓ)} (left : Retrace a t steps)
    (right : Retrace b t steps') :
    steps.map (fun s => (s.1,s.2.1,shown s.2.2)) = steps'.map (fun s => (s.1,s.2.1,shown s.2.2)) := by
  induction left generalizing steps' with
  | start => rw [right.stops same.start]
  | @step t x steps away last edge before ih =>
    cases right with
    | start => exact absurd same.start.symm away
    | @step _ y _ _ last' edge' before' =>
      have origin := oneSource t behind away _ _ last (same.symm.source last')
      rw [← origin] at edge' before'
      have label := agree t behind away _ last _ _ edge edge'
      have rest := ih (.back behind away last) before'
      rw [List.map_cons,List.map_cons,rest,origin,label]

end SameEdges

end Cheapest
