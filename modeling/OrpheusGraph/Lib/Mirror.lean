import Mathlib

/-! Two-sided adjacency lists over a finite list of vertices: every labelled edge is
recorded at its tail and at its head. Counting edges by tail and by head agrees. -/
namespace Mirror
variable {K L : Type} [DecidableEq K]

structure Mirrored (vertices : List K) (out inc : K → List (K × L)) : Prop where
  distinct : vertices.Nodup
  absentOut : ∀ v, v ∉ vertices → out v = []
  absentInc : ∀ v, v ∉ vertices → inc v = []
  targets : ∀ f x, x ∈ out f → x.1 ∈ vertices
  sources : ∀ t x, x ∈ inc t → x.1 ∈ vertices
  agree : ∀ f t, (((out f).filter (fun x => decide (x.1 = t))).map Prod.snd).Perm
    (((inc t).filter (fun x => decide (x.1 = f))).map Prod.snd)

/- The number of edges `f → t` labelled `l` with `p f t l`. -/
def countEdges (vertices : List K) (out : K → List (K × L)) (p : K → K → L → Bool) : Nat :=
  (vertices.map (fun f => (out f).countP (fun x => p f x.1 x.2))).sum

omit [DecidableEq K] in
theorem countSplit {α : Type} (l : List α) (p q : α → Bool) (apart : ∀ x ∈ l, ¬ (p x ∧ q x)) :
    l.countP (fun x => p x || q x) = l.countP p + l.countP q := by
  induction l with
  | nil => rfl
  | cons x rest ih =>
    have tail := ih (fun y hy => apart y (List.mem_cons_of_mem _ hy))
    have head := apart x List.mem_cons_self
    simp only [List.countP_cons,tail]
    cases hp : p x <;> cases hq : q x <;> simp_all <;> omega

omit [DecidableEq K] in
theorem countEdgesSplit (vertices : List K) (out : K → List (K × L)) (p q : K → K → L → Bool)
    (apart : ∀ f t l, ¬ (p f t l ∧ q f t l)) :
    countEdges vertices out (fun f t l => p f t l || q f t l) =
      countEdges vertices out p + countEdges vertices out q := by
  unfold countEdges
  rw [← List.sum_map_add]
  congr 1
  refine List.map_congr_left (fun f _ => ?_)
  exact countSplit (out f) _ _ (fun x _ => apart f x.1 x.2)

omit [DecidableEq K] in
theorem countEdgesCongr {vertices : List K} {out : K → List (K × L)} {p q : K → K → L → Bool}
    (same : ∀ f ∈ vertices, ∀ x ∈ out f, p f x.1 x.2 = q f x.1 x.2) :
    countEdges vertices out p = countEdges vertices out q := by
  unfold countEdges
  congr 1
  refine List.map_congr_left (fun f hf => ?_)
  exact List.countP_congr (fun x hx => by rw [same f hf x hx])

theorem sumAt {vertices : List K} (distinct : vertices.Nodup) (k : K) (n : Nat) :
    (vertices.map (fun f => if f = k then n else 0)).sum = if k ∈ vertices then n else 0 := by
  induction vertices with
  | nil => simp
  | cons v rest ih =>
    obtain ⟨fresh,tail⟩ := List.nodup_cons.mp distinct
    simp only [List.map_cons,List.sum_cons,ih tail,List.mem_cons]
    by_cases h : v = k
    · subst h; simp [fresh]
    · simp [h,Ne.symm h]

theorem countAtTail {vertices : List K} (distinct : vertices.Nodup) {out : K → List (K × L)}
    (k : K) (absent : k ∉ vertices → out k = []) (p : K → K → L → Bool) :
    countEdges vertices out (fun f t l => decide (f = k) && p f t l) =
      (out k).countP (fun x => p k x.1 x.2) := by
  have at_k : ∀ f, (out f).countP (fun x => decide (f = k) && p f x.1 x.2) =
      if f = k then (out k).countP (fun x => p k x.1 x.2) else 0 := by
    intro f
    by_cases h : f = k
    · subst h; simp
    · simp [h]
  simp only [countEdges,at_k,sumAt distinct]
  split
  · rfl
  · rename_i missing; simp [absent missing]

theorem sumByKey {vertices : List K} (distinct : vertices.Nodup) (xs : List (K × L))
    (keys : ∀ x ∈ xs, x.1 ∈ vertices) (q : K → L → Bool) :
    (vertices.map (fun f => xs.countP (fun x => decide (x.1 = f) && q f x.2))).sum =
      xs.countP (fun x => q x.1 x.2) := by
  induction xs with
  | nil => simp
  | cons x rest ih =>
    have tail := ih (fun y hy => keys y (List.mem_cons_of_mem _ hy))
    have step : ∀ f, (if (decide (x.1 = f) && q f x.2) = true then 1 else 0) =
        if f = x.1 then (if q x.1 x.2 = true then 1 else 0) else 0 := by
      intro f
      by_cases h : f = x.1
      · subst h; simp
      · simp [h,Ne.symm h]
    simp only [List.countP_cons,List.sum_map_add,tail,step,sumAt distinct,
      keys x List.mem_cons_self,if_true]

/- Edges into `t`, counted at their tails, are the edges listed at `t`. -/
theorem Mirrored.countAtHead {vertices : List K} {out inc : K → List (K × L)}
    (m : Mirrored vertices out inc) (t : K) (q : K → L → Bool) :
    countEdges vertices out (fun f h l => decide (h = t) && q f l) =
      (inc t).countP (fun x => q x.1 x.2) := by
  rw [← sumByKey m.distinct (inc t) (m.sources t) q]
  unfold countEdges
  congr 1
  refine List.map_congr_left (fun f _ => ?_)
  have sides := (m.agree f t).countP_eq (q f)
  simpa [List.countP_map,List.countP_filter,Function.comp_def,Bool.and_comm] using sides

/- Masking a vertex: the edges newly covered are the uncovered ones leaving it and the
uncovered ones entering it from elsewhere, so a loop is counted once. -/
theorem Mirrored.countMask {vertices : List K} {out inc : K → List (K × L)}
    (m : Mirrored vertices out inc) (n : K) (p : K → K → L → Bool) :
    countEdges vertices out (fun f t l => p f t l || decide (f = n) || decide (t = n)) =
      countEdges vertices out p +
        (out n).countP (fun x => !p n x.1 x.2) +
        (inc n).countP (fun x => !decide (x.1 = n) && !p x.1 n x.2) := by
  have shape : countEdges vertices out (fun f t l => p f t l || decide (f = n) || decide (t = n)) =
      countEdges vertices out (fun f t l => p f t l || (decide (f = n) && !p f t l ||
        decide (t = n) && (!decide (f = n) && !p f n l))) := by
    refine countEdgesCongr (fun f _ x _ => ?_)
    by_cases ht : x.1 = n
    · subst ht; cases p f x.1 x.2 <;> cases hf : decide (f = x.1) <;> simp_all
    · cases p f x.1 x.2 <;> simp [ht]
  rw [shape,countEdgesSplit,countEdgesSplit,countAtTail m.distinct n (m.absentOut n),
    m.countAtHead n (fun f l => !decide (f = n) && !p f n l),Nat.add_assoc]
  · intro f t l; simp_all
  · intro f t l
    by_cases ht : t = n
    · subst ht; cases p f t l <;> simp
    · cases p f t l <;> simp [ht]

/-! Building one mirrored graph from another. -/
theorem Mirrored.listed {vertices : List K} {out inc : K → List (K × L)}
    (m : Mirrored vertices out inc) (f t : K) (l : L) : (t,l) ∈ out f ↔ (f,l) ∈ inc t := by
  have labels : l ∈ _ ↔ l ∈ _ := (m.agree f t).mem_iff
  simpa using labels

theorem Mirrored.mask {vertices kept : List K} {out inc : K → List (K × L)}
    (m : Mirrored vertices out inc) (keep : K → K → L → Bool) (distinct : kept.Nodup)
    (ends : ∀ f t l, (t,l) ∈ out f → keep f t l = true → f ∈ kept ∧ t ∈ kept) :
    Mirrored kept (fun f => (out f).filter (fun x => keep f x.1 x.2))
      (fun t => (inc t).filter (fun x => keep x.1 t x.2)) := by
  have incEnds : ∀ f t l, (f,l) ∈ inc t → keep f t l = true → f ∈ kept ∧ t ∈ kept :=
    fun f t l member => ends f t l ((m.listed f t l).mpr member)
  constructor
  · exact distinct
  · intro v absent
    refine List.filter_eq_nil_iff.mpr (fun x member kept => ?_)
    exact absent (ends v x.1 x.2 member kept).1
  · intro v absent
    refine List.filter_eq_nil_iff.mpr (fun x member kept => ?_)
    exact absent (incEnds x.1 v x.2 member kept).2
  · intro f x member
    obtain ⟨member,kept⟩ := List.mem_filter.mp member
    exact (ends f x.1 x.2 member kept).2
  · intro t x member
    obtain ⟨member,kept⟩ := List.mem_filter.mp member
    exact (incEnds x.1 t x.2 member kept).1
  · intro f t
    have out_keep : (((out f).filter (fun x => keep f x.1 x.2)).filter (fun x => decide (x.1 = t))).map
        Prod.snd = (((out f).filter (fun x => decide (x.1 = t))).map Prod.snd).filter (keep f t) := by
      rw [List.filter_map,List.filter_filter,List.filter_filter]
      congr 1
      exact List.filter_congr (fun x _ => by by_cases h : x.1 = t <;> simp [h])
    have inc_keep : (((inc t).filter (fun x => keep x.1 t x.2)).filter (fun x => decide (x.1 = f))).map
        Prod.snd = (((inc t).filter (fun x => decide (x.1 = f))).map Prod.snd).filter (keep f t) := by
      rw [List.filter_map,List.filter_filter,List.filter_filter]
      congr 1
      exact List.filter_congr (fun x _ => by by_cases h : x.1 = f <;> simp [h])
    rw [out_keep,inc_keep]
    exact (m.agree f t).filter _

theorem Mirrored.reorder {vertices : List K} {out inc out' inc' : K → List (K × L)}
    (m : Mirrored vertices out inc) (outs : ∀ f, (out' f).Perm (out f))
    (incs : ∀ t, (inc' t).Perm (inc t)) : Mirrored vertices out' inc' where
  distinct := m.distinct
  absentOut v absent := List.Perm.eq_nil (m.absentOut v absent ▸ outs v)
  absentInc v absent := List.Perm.eq_nil (m.absentInc v absent ▸ incs v)
  targets f x member := m.targets f x ((outs f).mem_iff.mp member)
  sources t x member := m.sources t x ((incs t).mem_iff.mp member)
  agree f t := ((((outs f).filter _).map _).trans (m.agree f t)).trans (((incs t).filter _).map _).symm

def outOf (es : List (K × K × L)) (f : K) : List (K × L) :=
  (es.filter (fun e => decide (e.1 = f))).map Prod.snd

def incOf (es : List (K × K × L)) (t : K) : List (K × L) :=
  (es.filter (fun e => decide (e.2.1 = t))).map (fun e => (e.1,e.2.2))

theorem ofList {vertices : List K} (distinct : vertices.Nodup) (es : List (K × K × L))
    (ends : ∀ e ∈ es, e.1 ∈ vertices ∧ e.2.1 ∈ vertices) :
    Mirrored vertices (outOf es) (incOf es) := by
  constructor
  · exact distinct
  · intro v absent
    simp only [outOf,List.map_eq_nil_iff,List.filter_eq_nil_iff]
    intro e member same
    exact absent (of_decide_eq_true same ▸ (ends e member).1)
  · intro v absent
    simp only [incOf,List.map_eq_nil_iff,List.filter_eq_nil_iff]
    intro e member same
    exact absent (of_decide_eq_true same ▸ (ends e member).2)
  · intro f x member
    obtain ⟨e,found,rfl⟩ := List.mem_map.mp member
    exact (ends e (List.mem_filter.mp found).1).2
  · intro t x member
    obtain ⟨e,found,rfl⟩ := List.mem_map.mp member
    exact (ends e (List.mem_filter.mp found).1).1
  · intro f t
    have same : ((outOf es f).filter (fun x => decide (x.1 = t))).map Prod.snd =
        ((incOf es t).filter (fun x => decide (x.1 = f))).map Prod.snd := by
      simp only [outOf,incOf,List.filter_map,List.map_map,List.filter_filter]
      congr 1
      exact List.filter_congr (fun e _ => by simp [Bool.and_comm])
    rw [same]

theorem Mirrored.append {vertices : List K} {out inc out' inc' : K → List (K × L)}
    (m : Mirrored vertices out inc) (n : Mirrored vertices out' inc') :
    Mirrored vertices (fun f => out f ++ out' f) (fun t => inc t ++ inc' t) := by
  constructor
  · exact m.distinct
  · intro v absent; simp [m.absentOut v absent,n.absentOut v absent]
  · intro v absent; simp [m.absentInc v absent,n.absentInc v absent]
  · intro f x member
    rcases List.mem_append.mp member with h | h
    · exact m.targets f x h
    · exact n.targets f x h
  · intro t x member
    rcases List.mem_append.mp member with h | h
    · exact m.sources t x h
    · exact n.sources t x h
  · intro f t
    simp only [List.filter_append,List.map_append]
    exact (m.agree f t).append (n.agree f t)

/-! A mirrored graph written out as one list of edges, and read back. -/
def edgesOf (vertices : List K) (out : K → List (K × L)) : List (K × K × L) :=
  vertices.flatMap (fun f => (out f).map (fun x => (f,x)))

theorem outOfEdges {vertices : List K} (distinct : vertices.Nodup) {out : K → List (K × L)}
    (absent : ∀ v, v ∉ vertices → out v = []) (f : K) : outOf (edgesOf vertices out) f = out f := by
  have part : ∀ vs : List K, vs.Nodup → outOf (edgesOf vs out) f = if f ∈ vs then out f else [] := by
    intro vs
    induction vs with
    | nil => intro _; rfl
    | cons v rest ih =>
      intro nodup
      obtain ⟨fresh,tail⟩ := List.nodup_cons.mp nodup
      have later := ih tail
      simp only [outOf,edgesOf,List.flatMap_cons,List.filter_append,List.map_append,List.filter_map,
        List.map_map] at later ⊢
      rw [later]
      cases decEq v f with
      | isTrue same => subst same; simp [fresh,Function.comp_def]
      | isFalse other => simp [other,Ne.symm other,Function.comp_def]
  rw [part vertices distinct]
  split
  · rfl
  · rename_i missing; rw [absent f missing]

/- A list falls apart into its entries at each key. -/
theorem partitionByKey {vertices : List K} (distinct : vertices.Nodup) (xs : List (K × L))
    (keys : ∀ x ∈ xs, x.1 ∈ vertices) :
    (vertices.flatMap (fun v => xs.filter (fun x => decide (x.1 = v)))).Perm xs := by
  induction vertices generalizing xs with
  | nil =>
    cases xs with
    | nil => exact .refl _
    | cons x rest => cases keys x List.mem_cons_self
  | cons v rest ih =>
    obtain ⟨fresh,tail⟩ := List.nodup_cons.mp distinct
    let others := xs.filter (fun x => !decide (x.1 = v))
    have inner := ih tail others (by
      intro x member
      obtain ⟨listed,other⟩ := List.mem_filter.mp member
      rcases List.mem_cons.mp (keys x listed) with same | later
      · simp [same] at other
      · exact later)
    have same : rest.flatMap (fun u => others.filter (fun x => decide (x.1 = u))) =
        rest.flatMap (fun u => xs.filter (fun x => decide (x.1 = u))) := by
      refine List.flatMap_congr (fun u member => ?_)
      rw [List.filter_filter]
      refine List.filter_congr (fun x _ => ?_)
      cases decEq x.1 u with
      | isTrue at_u =>
        have apart : ¬ x.1 = v := fun at_v => fresh (at_v ▸ at_u ▸ member)
        simp [apart]
      | isFalse other => simp [other]
    rw [same] at inner
    rw [List.flatMap_cons]
    exact (inner.append_left _).trans (List.filter_append_perm _ xs)

theorem Mirrored.incOfEdges {vertices : List K} {out inc : K → List (K × L)}
    (m : Mirrored vertices out inc) {vs : List K} (distinct : vs.Nodup)
    (cover : ∀ v, v ∈ vertices → v ∈ vs) (t : K) : (incOf (edgesOf vs out) t).Perm (inc t) := by
  have shape : incOf (edgesOf vs out) t =
      vs.flatMap (fun f => (((out f).filter (fun x => decide (x.1 = t))).map Prod.snd).map (fun l => (f,l))) := by
    simp only [incOf,edgesOf,List.filter_flatMap,List.map_flatMap,List.filter_map,List.map_map]
    rfl
  have sides : ∀ f, ((((out f).filter (fun x => decide (x.1 = t))).map Prod.snd).map
      (fun l => (f,l))).Perm ((inc t).filter (fun x => decide (x.1 = f))) := by
    intro f
    have labels := (m.agree f t).map (fun l => (f,l))
    have keyed : (((inc t).filter (fun x => decide (x.1 = f))).map Prod.snd).map (fun l => (f,l)) =
        (inc t).filter (fun x => decide (x.1 = f)) := by
      rw [List.map_map]
      refine (List.map_congr_left (fun x member => ?_)).trans (List.map_id _)
      have same : x.1 = f := by simpa using (List.mem_filter.mp member).2
      simp [← same]
    rwa [keyed] at labels
  rw [shape]
  refine (List.Perm.flatMap_left vs (fun f _ => sides f)).trans ?_
  exact partitionByKey distinct (inc t) (fun x member => cover x.1 (m.sources t x member))

omit [DecidableEq K] in
theorem countAppend (vertices : List K) (out out' : K → List (K × L)) (p : K → K → L → Bool) :
    countEdges vertices (fun f => out f ++ out' f) p =
      countEdges vertices out p + countEdges vertices out' p := by
  simp only [countEdges,List.countP_append,List.sum_map_add]

/- Two duplicate-free lists give one sum when the summand vanishes off their overlap. -/
theorem sumSupport {xs ys : List K} (dx : xs.Nodup) (dy : ys.Nodup) (g : K → Nat)
    (left : ∀ k ∈ xs, k ∉ ys → g k = 0) (right : ∀ k ∈ ys, k ∉ xs → g k = 0) :
    (xs.map g).sum = (ys.map g).sum := by
  rw [← List.sum_toFinset g dx,← List.sum_toFinset g dy]
  have lower : (xs.toFinset ∩ ys.toFinset).sum g = xs.toFinset.sum g := by
    refine Finset.sum_subset Finset.inter_subset_left (fun k member off => ?_)
    refine left k (List.mem_toFinset.mp member) (fun other => off ?_)
    exact Finset.mem_inter.mpr ⟨member,List.mem_toFinset.mpr other⟩
  have upper : (xs.toFinset ∩ ys.toFinset).sum g = ys.toFinset.sum g := by
    refine Finset.sum_subset Finset.inter_subset_right (fun k member off => ?_)
    refine right k (List.mem_toFinset.mp member) (fun other => off ?_)
    exact Finset.mem_inter.mpr ⟨List.mem_toFinset.mpr other,member⟩
  rw [← lower,upper]

theorem Mirrored.countKept {vertices kept : List K} {out inc : K → List (K × L)}
    (m : Mirrored vertices out inc) (keep : K → K → L → Bool) (distinct : kept.Nodup)
    (ends : ∀ f t l, (t,l) ∈ out f → keep f t l = true → f ∈ kept) :
    countEdges kept (fun f => (out f).filter (fun x => keep f x.1 x.2)) (fun _ _ _ => true) =
      countEdges vertices out keep := by
  have shape : countEdges kept (fun f => (out f).filter (fun x => keep f x.1 x.2)) (fun _ _ _ => true) =
      countEdges kept out keep := by
    simp [countEdges,List.countP_filter]
  rw [shape]
  refine sumSupport distinct m.distinct _ (fun f _ absent => ?_) (fun f _ absent => ?_)
  · simp [m.absentOut f absent]
  · refine List.countP_eq_zero.mpr (fun x member kept => ?_)
    exact absent (ends f x.1 x.2 member kept)

theorem countList {vertices : List K} (distinct : vertices.Nodup) (es : List (K × K × L))
    (ends : ∀ e ∈ es, e.1 ∈ vertices) :
    countEdges vertices (outOf es) (fun _ _ _ => true) = es.length := by
  have all := sumByKey distinct es ends (fun _ _ => true)
  simp only [Bool.and_true,List.countP_true] at all
  rw [← all]
  simp [countEdges,outOf,List.countP_eq_length_filter]

end Mirror
