import Mathlib.Data.List.Chain

/-! States that carry a version: a change takes the next one, and what keeps the version keeps
the content, up to an equivalence. -/
namespace Versions
variable {S : Type} (version : S → Nat) (same : S → S → Prop)

inductive Succeeds (a b : S) : Prop where
  | changed (next : version b = version a + 1)
  | kept (still : version b = version a) (content : same a b)

/- The later one has no smaller version, and the same content under the same version. -/
structure Precedes (a b : S) : Prop where
  le : version a ≤ version b
  content : version a = version b → same a b

variable {version same} {a b c : S}

theorem Succeeds.precedes (step : Succeeds version same a b) : Precedes version same a b := by
  cases step with
  | changed next => exact ⟨by omega,fun bad => by omega⟩
  | kept still content => exact ⟨still.ge,fun _ => content⟩

variable (equiv : Equivalence same)
include equiv

theorem Precedes.trans (first : Precedes version same a b) (second : Precedes version same b c) :
    Precedes version same a c := by
  have low := first.le
  have high := second.le
  refine ⟨low.trans high,fun ends => ?_⟩
  exact equiv.trans (first.content (by omega)) (second.content (by omega))

/- Along a chain of such steps that holds of any two. -/
theorem chainPrecedes {states : List S} (chain : states.IsChain (Succeeds version same)) :
    states.Pairwise (Precedes version same) := by
  have transitive : IsTrans S (Precedes version same) := ⟨fun _ _ _ => Precedes.trans equiv⟩
  exact List.isChain_iff_pairwise.mp (chain.imp (fun _ _ => Succeeds.precedes))

/- So who has read a version that is the present one has read the present content. -/
theorem presentContent {states : List S} (chain : states.IsChain (Succeeds version same)) {present : S}
    (last : states.getLast? = some present) {seen : S} (member : seen ∈ states) (now : version seen = version present) :
    same seen present := by
  obtain ⟨before,rfl⟩ := List.getLast?_eq_some_iff.mp last
  rcases List.mem_append.mp member with old | new
  · have ordered := (List.pairwise_append.mp (chainPrecedes equiv chain)).2.2
    exact (ordered seen old present (List.mem_singleton_self _)).content now
  · rw [List.mem_singleton.mp new]
    exact equiv.refl present

/-! Versions that begin again under another label. Whoever keeps the label goes on from the current
state, and a new label is one that was not known. -/
structure Names {E : Type} (version : S → Nat) (label : S → E) (same : S → S → Prop) (shown : List S) (labels : List E)
    (current : Option S) : Prop where
  known : ∀ a ∈ shown, label a ∈ labels
  live : ∀ c, current = some c → label c ∈ labels
  once : ∀ a ∈ shown, ∀ b ∈ shown, label a = label b → version a = version b → same a b
  newest : ∀ c, current = some c → ∀ a ∈ shown, label a = label c → Precedes version same a c

namespace Names
variable {E : Type} {label : S → E} {shown more : List S} {labels labels' : List E} {current : Option S} {d : S}

omit equiv in
theorem forget (names : Names version label same shown labels current) : Names version label same shown labels none :=
  ⟨names.known,fun _ bad => (nomatch bad),names.once,fun _ bad => nomatch bad⟩

omit equiv in
theorem grow (names : Names version label same shown labels current) (inside : labels ⊆ labels') :
    Names version label same shown labels' current :=
  ⟨fun a member => inside (names.known a member),fun c now => inside (names.live c now),names.once,names.newest⟩

theorem adding (names : Names version label same shown labels current) (own : label d ∈ labels)
    (before : ∀ a ∈ shown, label a = label d → Precedes version same a d) :
    Names version label same (shown ++ [d]) labels (some d) := by
  refine ⟨fun a member => ?_,fun c now => ?_,fun a first b second labelled equal => ?_,fun c now a member labelled => ?_⟩
  · rcases List.mem_append.mp member with old | new
    · exact names.known a old
    · exact List.mem_singleton.mp new ▸ own
  · exact Option.some.inj now ▸ own
  · rcases List.mem_append.mp first with old | new
    · rcases List.mem_append.mp second with old' | new'
      · exact names.once a old b old' labelled equal
      · cases List.mem_singleton.mp new'
        exact (before a old labelled).content equal
    · cases List.mem_singleton.mp new
      rcases List.mem_append.mp second with old' | new'
      · exact equiv.symm ((before b old' labelled.symm).content equal.symm)
      · cases List.mem_singleton.mp new'
        exact equiv.refl _
  · cases Option.some.inj now
    rcases List.mem_append.mp member with old | new
    · exact before a old labelled
    · cases List.mem_singleton.mp new
      exact ⟨Nat.le_refl _,fun _ => equiv.refl _⟩

theorem onward {c : S} (names : Names version label same shown labels (some c)) (step : Succeeds version same c d)
    (labelled : label d = label c) : Names version label same (shown ++ [d]) labels (some d) :=
  names.adding equiv (labelled ▸ names.live c rfl)
    (fun a member own => (names.newest c rfl a member (own.trans labelled)).trans equiv step.precedes)

theorem anew (names : Names version label same shown labels current) (new : label d ∉ labels) (inside : labels ⊆ labels')
    (own : label d ∈ labels') : Names version label same (shown ++ [d]) labels' (some d) :=
  (names.grow inside).adding equiv own (fun a member labelled => absurd (labelled ▸ names.known a member) new)

/- Along a chain under one label. -/
theorem chain {c : S} (names : Names version label same shown labels (some c))
    (steps : (c :: more).IsChain (fun a b => Succeeds version same a b ∧ label b = label a)) (last : (c :: more).getLast? = some d) :
    Names version label same (shown ++ more) labels (some d) := by
  induction more generalizing shown c with
  | nil =>
    cases Option.some.inj last
    rwa [List.append_nil]
  | cons e more ih =>
    obtain ⟨step,rest⟩ := List.isChain_cons_cons.mp steps
    rw [List.append_cons]
    exact ih (names.onward equiv step.1 step.2) rest (by rwa [List.getLast?_cons_cons] at last)

end Names
end Versions
