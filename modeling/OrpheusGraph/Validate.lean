import OrpheusGraph.Snapshot
import OrpheusGraph.Lib.Checked

/-! The semantic sweep over an indexed snapshot, check by check and in its order. Debug
formatting of a name inside a message is a parameter. -/
namespace OrpheusGraph
open Checked
variable {W : Type}

abbrev Check := Except String

namespace SerializableGraphV2

def checkSorted (debug : String → String) (sg : SerializableGraphV2 W) : Check Unit :=
  forM (List.range' 1 (sg.nodes.length - 1)) fun i => do
    let prev ← need "nodes short (sort check)" sg.nodes[i-1]?
    let cur ← need "nodes short (sort check)" sg.nodes[i]?
    refuse (cur.name ≤ prev.name)
      s!"nodes not strictly name-sorted at {i}: {debug prev.name} >= {debug cur.name}"

def checkCapacity (sg : SerializableGraphV2 W) : Check Unit := do
  let n := sg.nodes.length
  let m := sg.nameBuckets.length
  refuse (m ≠ bucketCapacity n)
    s!"name_buckets len {m} != canonical bucket_capacity({n})={bucketCapacity n}"
  refuse (¬m.isPowerOfTwo ∨ m ≤ n) s!"name_buckets len {m} is not a power of two > N={n}"

structure Sweep where
  seen : List Bool
  slotOf : List Nat
  empties : List Nat
  occupied : Nat

/- One slot of the bijection pass. -/
def sweepSlot (n : Nat) (buckets : List Nat) (s : Sweep) (slot : Nat) : Check Sweep := do
  let b ← need "name_buckets short" buckets[slot]?
  let empties := s.empties.set (slot + 1) (s.empties.getD slot 0 + if b = emptyBucket then 1 else 0)
  if b = emptyBucket then return { s with empties }
  refuse (n ≤ b) s!"name_buckets slot {slot} holds idx {b} >= N={n}"
  refuse (s.seen.getD b false) s!"name_buckets maps idx {b} more than once"
  return ⟨s.seen.set b true,s.slotOf.set b slot,empties,s.occupied + 1⟩

def sweepBuckets (sg : SerializableGraphV2 W) : Check Sweep := do
  let n := sg.nodes.length
  let m := sg.nameBuckets.length
  let s ← (List.range m).foldlM (sweepSlot n sg.nameBuckets)
    ⟨List.replicate n false,List.replicate n 0,List.replicate (m + 1) 0,0⟩
  refuse (s.occupied ≠ n) s!"name_buckets has {s.occupied} entries != node count {n}"
  return s

def emptiesOnPath (empties : List Nat) (m home slot : Nat) : Nat :=
  if home ≤ slot then empties.getD slot 0 - empties.getD home 0
  else (empties.getD m 0 - empties.getD home 0) + empties.getD slot 0

def checkReachable (debug : String → String) (hash : String → Nat) (sg : SerializableGraphV2 W)
    (s : Sweep) : Check Unit :=
  forM s.slotOf.zipIdx fun (slot,i) => do
    let node ← need "nodes short (reachability)" sg.nodes[i]?
    let m := sg.nameBuckets.length
    let count := emptiesOnPath s.empties m (hash node.name &&& (m - 1)) slot
    refuse (count ≠ 0) s!"node {i} ({debug node.name}) is unreachable by its own hash probe: {count} EMPTY slot(s) on the path from its hash home"

def checkEndpoints (sg : SerializableGraphV2 W) : Check Unit :=
  forM sg.edges.zipIdx fun (edge,i) =>
    refuse (sg.nodes.length ≤ edge.fromIdx ∨ sg.nodes.length ≤ edge.toIdx)
      s!"edge {i} endpoint out of range (from={edge.fromIdx}, to={edge.toIdx}, n={sg.nodes.length})"

def offsetStep (table : String) (e : Nat) (offsets : List Nat) (prev i : Nat) : Check Nat := do
  let cur ← need s!"{table} short" offsets[i]?
  refuse (cur < prev) s!"{table} not monotonic at {i}: {prev} -> {cur}"
  refuse (e < cur) s!"{table}[{i}]={cur} > E={e}"
  return cur

/- The shape of an offset table; both tables are checked alike. -/
def checkOffsets (table : String) (n e : Nat) (offsets : List Nat) : Check Unit := do
  refuse (offsets.length ≠ n + 1) s!"{table} len {offsets.length} != n+1 ({n + 1})"
  refuse (offsets[0]? ≠ some 0) s!"{table}[0] must be 0 (canonical CSR base)"
  let prev ← (List.range (n + 1)).foldlM (offsetStep table e offsets) 0
  refuse (prev ≠ e) s!"{table} sentinel {prev} != E={e}"

/- Every entry of every row is held to the row's number by `entry`. -/
def checkGroups (table : String) (n : Nat) (offsets : List Nat) (entry : Nat → Nat → Check Unit) :
    Check Unit :=
  forM (List.range n) fun i => do
    let lo ← need s!"{table} short (strong)" offsets[i]?
    let hi ← need s!"{table} short (strong)" offsets[i+1]?
    forM (List.range' lo (hi - lo)) (entry i)

def outgoingEntry (sg : SerializableGraphV2 W) (i k : Nat) : Check Unit := do
  let edge ← need s!"node_offsets slice {k} OOB" sg.edges[k]?
  refuse (edge.fromIdx ≠ i) s!"node_offsets group {i} holds edge {k} with from_idx {edge.fromIdx}"

def incomingEntry (sg : SerializableGraphV2 W) (j k : Nat) : Check Unit := do
  let m ← need "in_mirror short (strong)" sg.inMirror[k]?
  let edge ← need s!"in_mirror target {m} OOB" sg.edges[m]?
  refuse (edge.toIdx ≠ j) s!"in_offsets group {j} holds edge {m} with to_idx {edge.toIdx}"

def mirrorStep (sg : SerializableGraphV2 W) (seen : List Bool) (k : Nat) : Check (List Bool) := do
  let m ← need "in_mirror short" sg.inMirror[k]?
  refuse (sg.edges.length ≤ m) s!"in_mirror[{k}]={m} >= E={sg.edges.length}"
  refuse (seen.getD m false) s!"in_mirror duplicate entry {m}"
  return seen.set m true

def checkMirror (sg : SerializableGraphV2 W) : Check Unit := do
  let e := sg.edges.length
  refuse (sg.inMirror.length ≠ e) s!"in_mirror len {sg.inMirror.length} != E={e}"
  let _ ← (List.range e).foldlM (mirrorStep sg) (List.replicate e false)

def sweepCsr (debug : String → String) (hash : String → Nat) (sg : SerializableGraphV2 W) :
    Check Unit := do
  let n := sg.nodes.length
  let e := sg.edges.length
  checkSorted debug sg
  checkCapacity sg
  let s ← sweepBuckets sg
  checkReachable debug hash sg s
  checkEndpoints sg
  checkOffsets "node_offsets" n e sg.nodeOffsets
  checkGroups "node_offsets" n sg.nodeOffsets (outgoingEntry sg)
  checkOffsets "in_offsets" n e sg.inOffsets
  checkMirror sg
  checkGroups "in_offsets" n sg.inOffsets (incomingEntry sg)

/- Every defect is reported as a corrupt snapshot. -/
def validateCsr (debug : String → String) (hash : String → Nat) (sg : SerializableGraphV2 W) :
    Check Unit :=
  match sweepCsr debug hash sg with
  | .ok u => .ok u
  | .error msg => .error ("V2 CSR invalid: " ++ msg)

/-! What an accepted snapshot satisfies. `cell` reads the name table with its empty slots. -/
def cell (buckets : List Nat) (slot : Nat) : Option Nat := (buckets[slot]?).filter (· != emptyBucket)

def home (hash : String → Nat) (sg : SerializableGraphV2 W) (name : String) : Nat :=
  hash name &&& (sg.nameBuckets.length - 1)

structure WellFormed (hash : String → Nat) (sg : SerializableGraphV2 W) : Prop where
  sorted : sg.nodeNames.Pairwise (· < ·)
  capacity : sg.nameBuckets.length = bucketCapacity sg.nodes.length
  power : sg.nameBuckets.length.isPowerOfTwo
  room : sg.nodes.length < sg.nameBuckets.length
  inside : ∀ slot i, cell sg.nameBuckets slot = some i → i < sg.nodes.length
  once : ∀ slot slot' i, cell sg.nameBuckets slot = some i → cell sg.nameBuckets slot' = some i →
    slot = slot'
  placed : ∀ i < sg.nodes.length, ∃ slot, cell sg.nameBuckets slot = some i
  reachable : ∀ i node slot, sg.nodes[i]? = some node → cell sg.nameBuckets slot = some i →
    Probing.emptyOnPath (cell sg.nameBuckets) sg.nameBuckets.length (sg.home hash node.name) slot = 0
  endpoints : ∀ e ∈ sg.edges, e.fromIdx < sg.nodes.length ∧ e.toIdx < sg.nodes.length
  outgoing : Csr.Grouped CsrEdge.fromIdx sg.nodes.length sg.edges sg.nodeOffsets
  mirror : sg.inMirror.Perm (List.range sg.edges.length)
  incoming : Csr.Grouped (targetOf sg.edges) sg.nodes.length sg.inMirror sg.inOffsets

theorem cellSome {buckets : List Nat} {slot i : Nat} :
    cell buckets slot = some i ↔ buckets[slot]? = some i ∧ i ≠ emptyBucket := by
  simp [cell,Option.filter_eq_some_iff]

theorem cellInside {buckets : List Nat} {slot i : Nat} (found : cell buckets slot = some i) :
    slot < buckets.length :=
  (List.getElem?_eq_some_iff.mp (cellSome.mp found).1).1

theorem cellNone {buckets : List Nat} {slot b : Nat} (read : buckets[slot]? = some b) :
    cell buckets slot = none ↔ b = emptyBucket := by
  simp [cell,read,Option.filter]

theorem sortedExact (debug : String → String) (sg : SerializableGraphV2 W) :
    checkSorted debug sg = .ok () ↔ sg.nodeNames.Pairwise (· < ·) := by
  have lengths : sg.nodeNames.length = sg.nodes.length := List.length_map _
  rw [checkSorted,forMOk,← List.isChain_iff_pairwise,List.isChain_iff_getElem]
  simp only [bindOk,needOk,refuseOk,not_le]
  constructor
  · intro all i bound
    have here : i + 1 ∈ List.range' 1 (sg.nodes.length - 1) := by
      rw [List.mem_range'_1]; omega
    obtain ⟨prev,left,cur,right,order⟩ := all (i + 1) here
    rw [Nat.add_sub_cancel] at left
    obtain ⟨_,rfl⟩ := List.getElem?_eq_some_iff.mp left
    obtain ⟨_,rfl⟩ := List.getElem?_eq_some_iff.mp right
    simpa [nodeNames] using order
  · intro chain i member
    obtain ⟨first,last⟩ := List.mem_range'_1.mp member
    have order := chain (i - 1) (by omega)
    have back : i - 1 + 1 = i := by omega
    refine ⟨_,List.getElem?_eq_getElem (by omega),_,List.getElem?_eq_getElem (by omega),?_⟩
    simpa [nodeNames,back] using order

/-! The bijection pass. -/
structure SweepInv (n : Nat) (buckets : List Nat) (k : Nat) (s : Sweep) : Prop where
  seenLength : s.seen.length = n
  slotLength : s.slotOf.length = n
  emptiesLength : s.empties.length = buckets.length + 1
  empties : ∀ j ≤ k, s.empties[j]? = some (Probing.emptyBelow (cell buckets) j)
  seen : ∀ i < n, s.seen[i]? = some true ↔ ∃ slot < k, cell buckets slot = some i
  slotOf : ∀ i < n, ∀ slot < k, cell buckets slot = some i → s.slotOf[i]? = some slot
  occupied : s.occupied = s.seen.countP id

def Fresh (n : Nat) (buckets : List Nat) (k : Nat) : Prop :=
  ∀ i, cell buckets k = some i → i < n ∧ ∀ slot < k, cell buckets slot ≠ some i

def advance (buckets : List Nat) (s : Sweep) (k : Nat) : Sweep :=
  match cell buckets k with
  | none => { s with empties := s.empties.set (k + 1) (s.empties.getD k 0 + 1) }
  | some b => ⟨s.seen.set b true,s.slotOf.set b k,s.empties.set (k + 1) (s.empties.getD k 0),
      s.occupied + 1⟩

theorem SweepInv.fresh {n k b : Nat} {buckets : List Nat} {s : Sweep} (inv : SweepInv n buckets k s)
    (here : cell buckets k = some b) :
    Fresh n buckets k ↔ ¬n ≤ b ∧ ¬s.seen.getD b false = true := by
  have seen : b < n → (s.seen.getD b false = true ↔ ∃ slot < k, cell buckets slot = some b) := by
    intro bound
    rw [← inv.seen b bound,List.getD_eq_getElem?_getD,
      List.getElem?_eq_getElem (by rw [inv.seenLength]; exact bound)]
    simp
  constructor
  · intro fresh
    obtain ⟨bound,first⟩ := fresh b here
    refine ⟨by omega,fun twice => ?_⟩
    obtain ⟨slot,before,same⟩ := (seen bound).mp twice
    exact first slot before same
  · rintro ⟨bound,first⟩ i found
    rw [here] at found
    cases Option.some.inj found
    refine ⟨by omega,fun slot before same => first ?_⟩
    exact (seen (by omega)).mpr ⟨slot,before,same⟩

theorem sweepSlotExact {n k : Nat} {buckets : List Nat} {s t : Sweep} (inv : SweepInv n buckets k s)
    (bound : k < buckets.length) :
    sweepSlot n buckets s k = .ok t ↔ Fresh n buckets k ∧ advance buckets s k = t := by
  have read := List.getElem?_eq_getElem bound
  generalize buckets[k] = b at read
  rw [sweepSlot,bindOk]
  simp only [needOk,read,Option.some.injEq,exists_eq_left']
  cases decEq b emptyBucket with
  | isTrue vacant =>
    have none : cell buckets k = none := (cellNone read).mpr vacant
    have fresh : Fresh n buckets k := by
      intro i found
      rw [none] at found
      contradiction
    simp only [if_pos vacant,advance,none,fresh,true_and]
    exact ⟨fun same => Except.ok.inj same,fun same => congrArg Except.ok same⟩
  | isFalse other =>
    have here : cell buckets k = some b := cellSome.mpr ⟨read,other⟩
    rw [inv.fresh here,if_neg other]
    simp only [if_neg other,advance,here,bindOk,refuseOk,Nat.add_zero]
    constructor
    · rintro ⟨_,inside,_,first,same⟩
      exact ⟨⟨inside,first⟩,Except.ok.inj same⟩
    · rintro ⟨⟨inside,first⟩,same⟩
      exact ⟨(),inside,(),first,congrArg Except.ok same⟩

theorem emptiesAdvance {k c : Nat} {buckets : List Nat} {s : Sweep} {n : Nat} (inv : SweepInv n buckets k s)
    (bound : k < buckets.length) (count : c = if (cell buckets k).isNone then 1 else 0) :
    (s.empties.set (k + 1) (s.empties.getD k 0 + c)).length = buckets.length + 1 ∧
      ∀ j ≤ k + 1, (s.empties.set (k + 1) (s.empties.getD k 0 + c))[j]? =
        some (Probing.emptyBelow (cell buckets) j) := by
  refine ⟨by rw [List.length_set,inv.emptiesLength],fun j inside => ?_⟩
  rcases Nat.lt_succ_iff_lt_or_eq.mp (Nat.lt_succ_of_le inside) with before | rfl
  · rw [List.getElem?_set_ne (by omega)]
    exact inv.empties j (by omega)
  · rw [List.getElem?_set_self (by rw [inv.emptiesLength]; omega),Probing.emptyBelowSucc,
      List.getD_eq_getElem?_getD,inv.empties k (Nat.le_refl k),count]
    rfl

theorem advanceKeeps {n k : Nat} {buckets : List Nat} {s : Sweep} (inv : SweepInv n buckets k s)
    (bound : k < buckets.length) (fresh : Fresh n buckets k) :
    SweepInv n buckets (k+1) (advance buckets s k) := by
  unfold advance
  cases here : cell buckets k with
  | none =>
    obtain ⟨length,empties⟩ := emptiesAdvance (c := 1) inv bound (by simp [here])
    have earlier : ∀ slot i, slot < k + 1 → cell buckets slot = some i → slot < k := by
      intro slot i before found
      rcases Nat.lt_succ_iff_lt_or_eq.mp before with early | rfl
      · exact early
      · rw [here] at found; contradiction
    refine ⟨inv.seenLength,inv.slotLength,length,empties,fun i inside => ?_,?_,inv.occupied⟩
    · rw [inv.seen i inside]
      constructor
      · rintro ⟨slot,before,found⟩
        exact ⟨slot,by omega,found⟩
      · rintro ⟨slot,before,found⟩
        exact ⟨slot,earlier slot i before found,found⟩
    · exact fun i inside slot before found => inv.slotOf i inside slot (earlier slot i before found) found
  | some b =>
    obtain ⟨inside,first⟩ := fresh b here
    obtain ⟨length,empties⟩ := emptiesAdvance (c := 0) inv bound (by simp [here])
    have room : b < s.seen.length := by rw [inv.seenLength]; exact inside
    have unseen : s.seen[b] = false := by
      cases old : s.seen[b] with
      | false => rfl
      | true =>
        obtain ⟨slot,before,same⟩ := (inv.seen b inside).mp (by rw [List.getElem?_eq_getElem room,old])
        exact absurd same (first slot before)
    refine ⟨by rw [List.length_set,inv.seenLength],by rw [List.length_set,inv.slotLength],length,
      empties,fun i bounded => ?_,fun i bounded slot before found => ?_,?_⟩
    · cases decEq b i with
      | isTrue same =>
        subst same
        rw [List.getElem?_set_self room]
        exact ⟨fun _ => ⟨k,by omega,here⟩,fun _ => rfl⟩
      | isFalse other =>
        rw [List.getElem?_set_ne other,inv.seen i bounded]
        constructor
        · rintro ⟨slot,before,found⟩
          exact ⟨slot,by omega,found⟩
        · rintro ⟨slot,before,found⟩
          rcases Nat.lt_succ_iff_lt_or_eq.mp before with early | rfl
          · exact ⟨slot,early,found⟩
          · rw [here] at found
            exact absurd (Option.some.inj found) other
    · rcases Nat.lt_succ_iff_lt_or_eq.mp before with early | rfl
      · have other : b ≠ i := fun same => first slot early (by rw [found,same])
        rw [List.getElem?_set_ne other]
        exact inv.slotOf i bounded slot early found
      · rw [here] at found
        cases Option.some.inj found
        rw [List.getElem?_set_self (by rw [inv.slotLength]; exact inside)]
    · rw [List.countP_set room,unseen,inv.occupied]
      simp

/- Occupied cells and node numbers correspond one to one. -/
structure Bijection (sg : SerializableGraphV2 W) : Prop where
  inside : ∀ slot i, cell sg.nameBuckets slot = some i → i < sg.nodes.length
  once : ∀ slot slot' i, cell sg.nameBuckets slot = some i → cell sg.nameBuckets slot' = some i →
    slot = slot'
  placed : ∀ i < sg.nodes.length, ∃ slot, cell sg.nameBuckets slot = some i

theorem sweepStart (n : Nat) (buckets : List Nat) : SweepInv n buckets 0
    ⟨List.replicate n false,List.replicate n 0,List.replicate (buckets.length + 1) 0,0⟩ where
  seenLength := List.length_replicate
  slotLength := List.length_replicate
  emptiesLength := List.length_replicate
  empties j inside := by
    cases Nat.le_zero.mp inside
    simp [Probing.emptyBelow]
  seen i inside := by simp [inside]
  slotOf i inside slot before := absurd before (Nat.not_lt_zero slot)
  occupied := by simp [List.countP_replicate]

theorem allSeen {n k : Nat} {buckets : List Nat} {s : Sweep} (inv : SweepInv n buckets k s) :
    s.occupied = n ↔ ∀ i < n, s.seen[i]? = some true := by
  rw [inv.occupied]
  have total : s.seen.countP id = n ↔ s.seen.countP id = s.seen.length := by rw [inv.seenLength]
  rw [total,List.countP_eq_length]
  constructor
  · intro all i inside
    have room : i < s.seen.length := by rw [inv.seenLength]; exact inside
    rw [List.getElem?_eq_getElem room]
    exact congrArg some (all _ (List.getElem_mem room))
  · intro all b member
    obtain ⟨i,read⟩ := List.mem_iff_getElem?.mp member
    obtain ⟨room,_⟩ := List.getElem?_eq_some_iff.mp read
    rw [all i (by rw [← inv.seenLength]; exact room)] at read
    exact (Option.some.inj read).symm

theorem sweepSound {sg : SerializableGraphV2 W} {s : Sweep} (ok : sweepBuckets sg = .ok s) :
    sg.Bijection ∧ SweepInv sg.nodes.length sg.nameBuckets sg.nameBuckets.length s := by
  simp only [sweepBuckets,bindOk,refuseOk,not_not] at ok
  obtain ⟨t,run,_,full,last⟩ := ok
  cases Except.ok.inj last
  obtain ⟨inv,fresh⟩ := Checked.sweepSound (sweepStart sg.nodes.length sg.nameBuckets)
    (G := Fresh sg.nodes.length sg.nameBuckets) (fun k bound s t inv step => by
      obtain ⟨good,rfl⟩ := (sweepSlotExact inv bound).mp step
      exact ⟨good,advanceKeeps inv bound good⟩) run
  refine ⟨⟨fun slot i found => (fresh slot (cellInside found) i found).1,?_,?_⟩,inv⟩
  · intro slot slot' i left right
    rcases Nat.lt_trichotomy slot slot' with before | same | after
    · exact absurd left ((fresh slot' (cellInside right) i right).2 slot before)
    · exact same
    · exact absurd right ((fresh slot (cellInside left) i left).2 slot' after)
  · intro i inside
    obtain ⟨slot,_,found⟩ := (inv.seen i inside).mp ((allSeen inv).mp full i inside)
    exact ⟨slot,found⟩

theorem sweepComplete {sg : SerializableGraphV2 W} (ok : sg.Bijection) :
    ∃ s, sweepBuckets sg = .ok s := by
  have fresh : ∀ k < sg.nameBuckets.length, Fresh sg.nodes.length sg.nameBuckets k := by
    intro k bound i found
    refine ⟨ok.inside k i found,fun slot before same => ?_⟩
    exact absurd (ok.once slot k i same found) (by omega)
  obtain ⟨s,run,inv⟩ := Checked.sweepPasses (sweepStart sg.nodes.length sg.nameBuckets)
    (fun k bound s inv good => ⟨_,(sweepSlotExact inv bound).mpr ⟨good,rfl⟩,advanceKeeps inv bound good⟩)
    fresh
  refine ⟨s,?_⟩
  simp only [sweepBuckets,bindOk,refuseOk,not_not]
  refine ⟨s,run,(),(allSeen inv).mpr (fun i inside => (inv.seen i inside).mpr ?_),rfl⟩
  obtain ⟨slot,found⟩ := ok.placed i inside
  exact ⟨slot,cellInside found,found⟩

theorem homeInside (hash : String → Nat) {sg : SerializableGraphV2 W} (room : 0 < sg.nameBuckets.length)
    (name : String) : sg.home hash name < sg.nameBuckets.length := by
  have most : sg.home hash name ≤ sg.nameBuckets.length - 1 := Nat.and_le_right
  omega

/- The prefix sums give the number of empty slots on the path. -/
theorem emptiesExact {n slot home : Nat} {buckets : List Nat} {s : Sweep}
    (inv : SweepInv n buckets buckets.length s) (inSlot : slot < buckets.length)
    (inHome : home < buckets.length) : emptiesOnPath s.empties buckets.length home slot =
      Probing.emptyOnPath (cell buckets) buckets.length home slot := by
  have read : ∀ j ≤ buckets.length, s.empties.getD j 0 = Probing.emptyBelow (cell buckets) j := by
    intro j inside
    rw [List.getD_eq_getElem?_getD,inv.empties j inside]
    rfl
  rw [emptiesOnPath,Probing.emptyOnPath,read slot inSlot.le,read home inHome.le,read _ (Nat.le_refl _)]

theorem reachableExact (debug : String → String) (hash : String → Nat) {sg : SerializableGraphV2 W}
    {s : Sweep} (ok : sg.Bijection)
    (inv : SweepInv sg.nodes.length sg.nameBuckets sg.nameBuckets.length s) :
    checkReachable debug hash sg s = .ok () ↔
      ∀ i node slot, sg.nodes[i]? = some node → cell sg.nameBuckets slot = some i →
        Probing.emptyOnPath (cell sg.nameBuckets) sg.nameBuckets.length (sg.home hash node.name) slot = 0 := by
  rw [checkReachable,forMOk]
  simp only [bindOk,needOk,refuseOk,not_not]
  constructor
  · intro all i node slot read found
    have inSlot := cellInside found
    have placed := inv.slotOf i (ok.inside slot i found) slot inSlot found
    obtain ⟨node',read',clear⟩ := all (slot,i) (List.mem_zipIdx_iff_getElem?.mpr placed)
    rw [read] at read'
    cases Option.some.inj read'
    rw [← emptiesExact inv inSlot (homeInside hash (by omega) node.name)]
    exact clear
  · rintro all ⟨slot,i⟩ member
    have placed := List.mem_zipIdx_iff_getElem?.mp member
    have inside : i < sg.nodes.length := by
      obtain ⟨bound,_⟩ := List.getElem?_eq_some_iff.mp placed
      rwa [inv.slotLength] at bound
    obtain ⟨slot',found⟩ := ok.placed i inside
    have same := inv.slotOf i inside slot' (cellInside found) found
    rw [placed] at same
    cases Option.some.inj same
    have inSlot := cellInside found
    refine ⟨sg.nodes[i],List.getElem?_eq_getElem inside,?_⟩
    have clear := all i sg.nodes[i] slot (List.getElem?_eq_getElem inside) found
    rw [← emptiesExact inv inSlot (homeInside hash (by omega) _)] at clear
    exact clear

theorem endpointsExact (sg : SerializableGraphV2 W) : checkEndpoints sg = .ok () ↔
    ∀ e ∈ sg.edges, e.fromIdx < sg.nodes.length ∧ e.toIdx < sg.nodes.length := by
  rw [checkEndpoints,forMOk]
  simp only [refuseOk,not_or,not_le]
  constructor
  · intro all e member
    obtain ⟨i,read⟩ := List.mem_iff_getElem?.mp member
    exact all (e,i) (List.mem_zipIdx_iff_getElem?.mpr read)
  · rintro all ⟨e,i⟩ member
    exact all e (List.mem_of_getElem? (List.mem_zipIdx_iff_getElem?.mp member))

/-! The offset tables. -/
def PrevInv (offsets : List Nat) (k prev : Nat) : Prop :=
  match k with
  | 0 => prev = 0
  | k+1 => offsets[k]? = some prev

def Rising (e : Nat) (offsets : List Nat) (k : Nat) : Prop :=
  ∃ cur, offsets[k]? = some cur ∧ cur ≤ e ∧ ∀ j prev, k = j + 1 → offsets[j]? = some prev → prev ≤ cur

theorem offsetStepExact {table : String} {e k prev cur : Nat} {offsets : List Nat}
    (inv : PrevInv offsets k prev) : offsetStep table e offsets prev k = .ok cur ↔
      Rising e offsets k ∧ offsets[k]? = some cur := by
  have order : ∀ cur, (∀ j p, k = j + 1 → offsets[j]? = some p → p ≤ cur) ↔ prev ≤ cur := by
    intro cur
    cases k with
    | zero =>
      cases inv
      exact ⟨fun _ => Nat.zero_le cur,fun _ j p same => by omega⟩
    | succ k =>
      constructor
      · exact fun all => all k prev rfl inv
      · intro le j p same read
        cases Nat.succ.inj same
        rw [show offsets[k]? = some prev from inv] at read
        exact Option.some.inj read ▸ le
  simp only [offsetStep,bindOk,needOk,refuseOk,not_lt,Rising,order]
  constructor
  · rintro ⟨c,read,_,low,_,high,last⟩
    cases Except.ok.inj last
    exact ⟨⟨_,read,high,low⟩,read⟩
  · rintro ⟨⟨c,read,high,low⟩,same⟩
    cases Option.some.inj (same.symm.trans read)
    exact ⟨_,read,(),low,(),high,rfl⟩

theorem offsetsExact (table : String) (n e : Nat) (offsets : List Nat) :
    checkOffsets table n e offsets = .ok () ↔ Csr.Offsets n e offsets := by
  simp only [checkOffsets,bindOk,refuseOk,not_not]
  constructor
  · rintro ⟨_,length,_,first,prev,run,last⟩
    obtain ⟨inv,rising⟩ := Checked.sweepSound (I := PrevInv offsets) (G := Rising e offsets) rfl
      (fun k _ s t inv step => (offsetStepExact inv).mp step) run
    subst last
    refine ⟨length,first,fun i inside a b low high => ?_,inv⟩
    obtain ⟨cur,read,_,order⟩ := rising (i + 1) (by omega)
    rw [high] at read
    cases Option.some.inj read
    exact order i a rfl low
  · intro shape
    have rising : ∀ k < n + 1, Rising e offsets k := by
      intro k inside
      obtain ⟨cur,read⟩ := shape.entry (i := k) (by omega)
      refine ⟨cur,read,shape.bounded (by omega) read,?_⟩
      rintro j prev rfl before
      exact shape.rising j (by omega) prev cur before read
    obtain ⟨prev,run,inv⟩ := Checked.sweepPasses (f := offsetStep table e offsets) (I := PrevInv offsets) rfl
      (fun k _ s inv good => by
        have entry := good
        obtain ⟨cur,read,_⟩ := entry
        exact ⟨cur,(offsetStepExact inv).mpr ⟨good,read⟩,read⟩) rising
    refine ⟨(),shape.length,(),shape.first,prev,run,?_⟩
    rw [PrevInv,shape.last] at inv
    exact (Option.some.inj inv).symm

theorem groupsExact {table : String} {n total : Nat} {offsets : List Nat} {entry : Nat → Nat → Check Unit}
    (shape : Csr.Offsets n total offsets) : checkGroups table n offsets entry = .ok () ↔
      ∀ i < n, ∀ lo hi, offsets[i]? = some lo → offsets[i+1]? = some hi →
        ∀ k, lo ≤ k → k < hi → entry i k = .ok () := by
  rw [checkGroups,forMOk]
  simp only [bindOk,needOk,forMOk,List.mem_range,List.mem_range'_1]
  constructor
  · intro all i inside lo hi low high k lower upper
    obtain ⟨lo',low',hi',high',rows⟩ := all i inside
    rw [low] at low'
    rw [high] at high'
    cases Option.some.inj low'
    cases Option.some.inj high'
    exact rows k ⟨lower,by omega⟩
  · intro all i inside
    obtain ⟨lo,low⟩ := shape.entry (i := i) (by omega)
    obtain ⟨hi,high⟩ := shape.entry (i := i + 1) (by omega)
    refine ⟨lo,low,hi,high,fun k member => all i inside lo hi low high k member.1 ?_⟩
    have order := shape.rising i inside lo hi low high
    omega

theorem outgoingExact (sg : SerializableGraphV2 W) :
    (checkOffsets "node_offsets" sg.nodes.length sg.edges.length sg.nodeOffsets = .ok () ∧
      checkGroups "node_offsets" sg.nodes.length sg.nodeOffsets (outgoingEntry sg) = .ok ()) ↔
    Csr.Grouped CsrEdge.fromIdx sg.nodes.length sg.edges sg.nodeOffsets := by
  rw [offsetsExact]
  constructor
  · rintro ⟨shape,groups⟩
    refine ⟨shape,fun i inside lo hi low high k lower upper e read => ?_⟩
    have entry := (groupsExact shape).mp groups i inside lo hi low high k lower upper
    simp only [outgoingEntry,bindOk,needOk,refuseOk,not_not] at entry
    obtain ⟨e',read',same⟩ := entry
    rw [read] at read'
    cases Option.some.inj read'
    exact same
  · intro grouped
    refine ⟨grouped.toOffsets,(groupsExact grouped.toOffsets).mpr ?_⟩
    intro i inside lo hi low high k lower upper
    have bound := grouped.bounded (i := i + 1) (by omega) high
    have read := List.getElem?_eq_getElem (l := sg.edges) (i := k) (by omega)
    simp only [outgoingEntry,bindOk,needOk,refuseOk,not_not]
    exact ⟨_,read,grouped.row i inside lo hi low high k lower upper _ read⟩

/-! The incoming permutation. -/
structure MirrorInv (sg : SerializableGraphV2 W) (k : Nat) (seen : List Bool) : Prop where
  length : seen.length = sg.edges.length
  seen : ∀ m < sg.edges.length, seen[m]? = some true ↔ ∃ j < k, sg.inMirror[j]? = some m

def FreshEntry (sg : SerializableGraphV2 W) (k : Nat) : Prop :=
  ∃ m, sg.inMirror[k]? = some m ∧ m < sg.edges.length ∧ ∀ j < k, sg.inMirror[j]? ≠ some m

theorem mirrorStepExact {sg : SerializableGraphV2 W} {k : Nat} {seen t : List Bool}
    (inv : MirrorInv sg k seen) : mirrorStep sg seen k = .ok t ↔
      FreshEntry sg k ∧ ∃ m, sg.inMirror[k]? = some m ∧ seen.set m true = t := by
  have marked : ∀ m < sg.edges.length, (seen.getD m false = true ↔ ∃ j < k, sg.inMirror[j]? = some m) := by
    intro m bound
    rw [← inv.seen m bound,List.getD_eq_getElem?_getD,
      List.getElem?_eq_getElem (by rw [inv.length]; exact bound)]
    simp
  simp only [mirrorStep,bindOk,needOk,refuseOk,FreshEntry,not_le]
  constructor
  · rintro ⟨m,read,_,inside,_,unseen,last⟩
    refine ⟨⟨m,read,inside,fun j before same => unseen ?_⟩,m,read,Except.ok.inj last⟩
    exact (marked m inside).mpr ⟨j,before,same⟩
  · rintro ⟨⟨m,read,inside,first⟩,m',read',rfl⟩
    cases Option.some.inj (read.symm.trans read')
    refine ⟨m,read,(),inside,(),fun twice => ?_,rfl⟩
    obtain ⟨j,before,same⟩ := (marked m inside).mp twice
    exact first j before same

theorem mirrorKeeps {sg : SerializableGraphV2 W} {k m : Nat} {seen : List Bool} (inv : MirrorInv sg k seen)
    (read : sg.inMirror[k]? = some m) (inside : m < sg.edges.length) :
    MirrorInv sg (k+1) (seen.set m true) := by
  refine ⟨by rw [List.length_set,inv.length],fun i bounded => ?_⟩
  cases decEq m i with
  | isTrue same =>
    subst same
    rw [List.getElem?_set_self (by rw [inv.length]; exact inside)]
    exact ⟨fun _ => ⟨k,by omega,read⟩,fun _ => rfl⟩
  | isFalse other =>
    rw [List.getElem?_set_ne other,inv.seen i bounded]
    constructor
    · rintro ⟨j,before,found⟩
      exact ⟨j,by omega,found⟩
    · rintro ⟨j,before,found⟩
      rcases Nat.lt_succ_iff_lt_or_eq.mp before with early | rfl
      · exact ⟨j,early,found⟩
      · exact absurd (Option.some.inj (read.symm.trans found)) other

theorem mirrorStart (sg : SerializableGraphV2 W) :
    MirrorInv sg 0 (List.replicate sg.edges.length false) :=
  ⟨List.length_replicate,fun m inside => by simp [inside]⟩

theorem mirrorExact (sg : SerializableGraphV2 W) :
    checkMirror sg = .ok () ↔ sg.inMirror.Perm (List.range sg.edges.length) := by
  simp only [checkMirror,bindOk,refuseOk,not_not]
  constructor
  · rintro ⟨_,length,seen,run,_⟩
    obtain ⟨_,fresh⟩ := Checked.sweepSound (mirrorStart sg) (G := FreshEntry sg)
      (fun k _ s t inv step => by
        obtain ⟨good,m,read,rfl⟩ := (mirrorStepExact inv).mp step
        have entry := good
        obtain ⟨m',read',inside,_⟩ := entry
        cases Option.some.inj (read.symm.trans read')
        exact ⟨good,mirrorKeeps inv read inside⟩) run
    have distinct : sg.inMirror.Nodup := by
      refine List.nodup_iff_getElem?_ne_getElem?.mpr (fun j k before inside same => ?_)
      obtain ⟨m,read,_,first⟩ := fresh k (by omega)
      exact first j before (same.trans read)
    have subset : sg.inMirror ⊆ List.range sg.edges.length := by
      intro m member
      obtain ⟨k,read⟩ := List.mem_iff_getElem?.mp member
      obtain ⟨bound,_⟩ := List.getElem?_eq_some_iff.mp read
      obtain ⟨m',read',inside,_⟩ := fresh k (by omega)
      cases Option.some.inj (read.symm.trans read')
      exact List.mem_range.mpr inside
    exact (List.subperm_of_subset distinct subset).perm_of_length_le (by simp [length])
  · intro perm
    have length : sg.inMirror.length = sg.edges.length := by simpa using perm.length_eq
    have distinct : sg.inMirror.Nodup := perm.nodup_iff.mpr List.nodup_range
    have fresh : ∀ k < sg.edges.length, FreshEntry sg k := by
      intro k inside
      have read := List.getElem?_eq_getElem (l := sg.inMirror) (i := k) (by omega)
      refine ⟨_,read,List.mem_range.mp (perm.mem_iff.mp (List.mem_of_getElem? read)),?_⟩
      intro j before same
      exact List.nodup_iff_getElem?_ne_getElem?.mp distinct j k before (by omega) (same.trans read.symm)
    obtain ⟨seen,run,_⟩ := Checked.sweepPasses (mirrorStart sg)
      (fun k _ s inv good => by
        have entry := good
        obtain ⟨m,read,inside,_⟩ := entry
        exact ⟨_,(mirrorStepExact inv).mpr ⟨good,m,read,rfl⟩,mirrorKeeps inv read inside⟩) fresh
    exact ⟨(),length,seen,run,rfl⟩

theorem incomingExact {sg : SerializableGraphV2 W} (perm : sg.inMirror.Perm (List.range sg.edges.length)) :
    (checkOffsets "in_offsets" sg.nodes.length sg.edges.length sg.inOffsets = .ok () ∧
      checkGroups "in_offsets" sg.nodes.length sg.inOffsets (incomingEntry sg) = .ok ()) ↔
    Csr.Grouped (targetOf sg.edges) sg.nodes.length sg.inMirror sg.inOffsets := by
  have length : sg.inMirror.length = sg.edges.length := by simpa using perm.length_eq
  rw [offsetsExact]
  constructor
  · rintro ⟨shape,groups⟩
    refine ⟨length.symm ▸ shape,fun i inside lo hi low high k lower upper m read => ?_⟩
    have entry := (groupsExact shape).mp groups i inside lo hi low high k lower upper
    simp only [incomingEntry,bindOk,needOk,refuseOk,not_not] at entry
    obtain ⟨m',read',edge,found,same⟩ := entry
    cases Option.some.inj (read.symm.trans read')
    rw [targetOf,found]
    exact same
  · intro grouped
    have shape : Csr.Offsets sg.nodes.length sg.edges.length sg.inOffsets := length ▸ grouped.toOffsets
    refine ⟨shape,(groupsExact shape).mpr ?_⟩
    intro i inside lo hi low high k lower upper
    have bound := shape.bounded (i := i + 1) (by omega) high
    have read := List.getElem?_eq_getElem (l := sg.inMirror) (i := k) (by omega)
    have known := List.mem_range.mp (perm.mem_iff.mp (List.mem_of_getElem? read))
    have found := List.getElem?_eq_getElem known
    have same := grouped.row i inside lo hi low high k lower upper _ read
    rw [targetOf,found] at same
    simp only [incomingEntry,bindOk,needOk,refuseOk,not_not]
    exact ⟨_,read,_,found,same⟩

/- The sweep passes on exactly the well formed snapshots. -/
theorem validateExact (debug : String → String) (hash : String → Nat) (sg : SerializableGraphV2 W) :
    validateCsr debug hash sg = .ok () ↔ sg.WellFormed hash := by
  have prefixed : validateCsr debug hash sg = .ok () ↔ sweepCsr debug hash sg = .ok () := by
    unfold validateCsr
    split <;> simp [*]
  rw [prefixed]
  simp only [sweepCsr,bindOk]
  constructor
  · rintro ⟨_,sorted,_,capacity,s,swept,_,reachable,_,endpoints,_,nodeShape,_,nodeRows,_,inShape,_,
      mirror,inRows⟩
    simp only [checkCapacity,bindOk,refuseOk,not_or,not_not,not_le] at capacity
    obtain ⟨_,canonical,power,room⟩ := capacity
    obtain ⟨bijection,inv⟩ := sweepSound swept
    have perm := (mirrorExact sg).mp mirror
    exact ⟨(sortedExact debug sg).mp sorted,canonical,power,room,bijection.inside,bijection.once,
      bijection.placed,(reachableExact debug hash bijection inv).mp reachable,
      (endpointsExact sg).mp endpoints,(outgoingExact sg).mp ⟨nodeShape,nodeRows⟩,perm,
      (incomingExact perm).mp ⟨inShape,inRows⟩⟩
  · intro wf
    have bijection : sg.Bijection := ⟨wf.inside,wf.once,wf.placed⟩
    obtain ⟨s,swept⟩ := sweepComplete bijection
    obtain ⟨_,inv⟩ := sweepSound swept
    have capacity : checkCapacity sg = .ok () := by
      simp only [checkCapacity,bindOk,refuseOk,not_or,not_not,not_le]
      exact ⟨(),wf.capacity,wf.power,wf.room⟩
    obtain ⟨nodeShape,nodeRows⟩ := (outgoingExact sg).mpr wf.outgoing
    obtain ⟨inShape,inRows⟩ := (incomingExact wf.mirror).mpr wf.incoming
    exact ⟨(),(sortedExact debug sg).mpr wf.sorted,(),capacity,s,swept,(),
      (reachableExact debug hash bijection inv).mpr wf.reachable,(),(endpointsExact sg).mpr wf.endpoints,
      (),nodeShape,(),nodeRows,(),inShape,(),(mirrorExact sg).mpr wf.mirror,inRows⟩

end SerializableGraphV2

end OrpheusGraph
