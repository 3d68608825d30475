import Mathlib

/-! Node and edge records. Weights are an arbitrary type: the source's f32 values are
stored, compared and copied here, and computed with only by the builder. A metadata
map is extensional, so two maps with the same entries are equal whatever their order. -/
namespace OrpheusGraph

/- `n as u32`. -/
def asU32 (n : Nat) : Nat := n % 2^32

abbrev Metadata := Std.ExtTreeMap String String

structure NodeData (W : Type) where
  name : String
  kind : String
  metadata : Metadata
  baseWeight : W
  noisePenalty : W
  pagerankWeight : W

structure EdgeData (W : Type) where
  kind : String
  fieldName : Option String
  baseWeight : W
  validFrom : Option Nat
  validTo : Option Nat
  acl : List String
  deriving DecidableEq, Repr

structure NodeInput (W : Type) where
  name : String
  kind : String
  metadata : Metadata
  baseWeight : W
  noisePenalty : W

structure EdgeInput (W : Type) where
  fromName : String
  toName : String
  kind : String
  fieldName : Option String
  baseWeight : W
  validFrom : Option Nat
  validTo : Option Nat
  acl : List String
  deriving DecidableEq, Repr

/- Sort, then drop consecutive duplicates. -/
def normalizeAcl (acl : List String) : List String :=
  (acl.insertionSort (· ≤ ·)).destutter (· ≠ ·)

theorem strictOfDistinctRuns {acl : List String} (sorted : acl.Pairwise (· ≤ ·))
    (chain : acl.IsChain (· ≠ ·)) : acl.Pairwise (· < ·) := by
  induction acl with
  | nil => exact .nil
  | cons tag rest ih =>
    obtain ⟨least,tail⟩ := List.pairwise_cons.mp sorted
    have strict := ih tail chain.tail
    refine List.pairwise_cons.mpr ⟨?_,strict⟩
    cases rest with
    | nil => simp
    | cons next rest =>
      have step : tag < next := lt_of_le_of_ne (least next (by simp)) (chain.rel_head? (by simp))
      intro other member
      rcases List.mem_cons.mp member with rfl | later
      · exact step
      · exact step.trans ((List.pairwise_cons.mp strict).1 other later)

theorem normalizeAclIncreasing (acl : List String) : (normalizeAcl acl).Pairwise (· < ·) := by
  have sorted : (normalizeAcl acl).Pairwise (· ≤ ·) :=
    (List.pairwise_insertionSort (· ≤ ·) acl).sublist (List.destutter_sublist _ _)
  exact strictOfDistinctRuns sorted (List.isChain_destutter _ _)

theorem normalizeAclFixed {acl : List String} (increasing : acl.Pairwise (· < ·)) :
    normalizeAcl acl = acl := by
  have sorted : acl.insertionSort (· ≤ ·) = acl :=
    List.Pairwise.insertionSort_eq (increasing.imp le_of_lt)
  have chain : acl.IsChain (· ≠ ·) := (increasing.imp ne_of_lt).isChain
  rw [normalizeAcl,sorted,List.destutter_of_isChain _ _ chain]

theorem normalizeAclTwice (acl : List String) : normalizeAcl (normalizeAcl acl) = normalizeAcl acl :=
  normalizeAclFixed (normalizeAclIncreasing acl)

/- The half-open window test that both ingestion paths apply: an edge whose
`validFrom` exceeds its `validTo` can never be visible. -/
def emptyWindow (validFrom validTo : Option Nat) : Bool :=
  match validFrom, validTo with
  | some vf, some vt => decide (vf > vt)
  | _, _ => false

def EdgeData.normalized {W : Type} (e : EdgeData W) : EdgeData W :=
  { e with acl := normalizeAcl e.acl }

/- What every edge that was ever ingested satisfies. -/
structure EdgeData.Canonical {W : Type} (e : EdgeData W) : Prop where
  window : emptyWindow e.validFrom e.validTo = false
  acl : e.acl.Pairwise (· < ·)

theorem EdgeData.normalizedCanonical {W : Type} {e : EdgeData W}
    (window : emptyWindow e.validFrom e.validTo = false) : e.normalized.Canonical :=
  ⟨window,normalizeAclIncreasing e.acl⟩

theorem EdgeData.Canonical.normalized {W : Type} {e : EdgeData W} (h : e.Canonical) :
    e.normalized = e := by
  simp [EdgeData.normalized,normalizeAclFixed h.acl]

end OrpheusGraph
