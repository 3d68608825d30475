import Mathlib

/-! Insertion-ordered maps with unique keys. Replacing the value of a present key
keeps its position; removal keeps the order of the remaining entries. -/
structure IndexMap (K V : Type) where
  entries : List (K × V)
  unique : (entries.map Prod.fst).Nodup

namespace IndexMap
variable {K V : Type}

def empty : IndexMap K V := ⟨[],by simp⟩
instance : EmptyCollection (IndexMap K V) := ⟨empty⟩

def keys (m : IndexMap K V) : List K := m.entries.map Prod.fst
def isEmpty (m : IndexMap K V) : Bool := m.entries.isEmpty

@[simp] theorem keysEmpty : (∅ : IndexMap K V).keys = [] := rfl
@[simp] theorem isEmptyEmpty : (∅ : IndexMap K V).isEmpty = true := rfl
theorem keysNodup (m : IndexMap K V) : m.keys.Nodup := m.unique

variable [DecidableEq K]

/- The list operations behind the map, before uniqueness is attached. -/
def find (k : K) : List (K × V) → Option V
  | [] => none
  | e :: rest => if k = e.1 then some e.2 else find k rest

def put (k : K) (v : V) : List (K × V) → List (K × V)
  | [] => [(k,v)]
  | e :: rest => if k = e.1 then (k,v) :: rest else e :: put k v rest

def drop (k : K) (es : List (K × V)) : List (K × V) := es.filter (fun e => !decide (e.1 = k))

theorem putKeys (k : K) (v : V) (es : List (K × V)) :
    (put k v es).map Prod.fst =
      if k ∈ es.map Prod.fst then es.map Prod.fst else es.map Prod.fst ++ [k] := by
  induction es with
  | nil => simp [put]
  | cons e rest ih =>
    simp only [put]
    split
    · rename_i same; simp [same]
    · rename_i different
      simp only [List.map_cons,ih,List.mem_cons,different,false_or]
      split <;> simp

theorem findPut (k j : K) (v : V) (es : List (K × V)) :
    find j (put k v es) = if j = k then some v else find j es := by
  induction es with
  | nil => simp [put,find]
  | cons e rest ih =>
    simp only [put]
    split
    · rename_i same
      by_cases h : j = k <;> simp [find,h,← same]
    · rename_i different
      simp only [find,ih]
      by_cases he : j = e.1
      · have other : ¬ j = k := fun same => different (same ▸ he)
        have apart : ¬ e.1 = k := fun same => different same.symm
        simp [he,apart]
      · simp [he]

theorem findDrop (k j : K) (es : List (K × V)) :
    find j (drop k es) = if j = k then none else find j es := by
  induction es with
  | nil => simp [drop,find]
  | cons e rest ih =>
    simp only [drop,List.filter_cons] at ih ⊢
    by_cases he : e.1 = k
    · by_cases h : j = k
      · subst h; simpa [he] using ih
      · simp [he,h,find,ih]
    · by_cases hj : j = e.1
      · simp [he,hj,find]
      · simp [he,hj,find,ih]

theorem findIsSome (es : List (K × V)) (k : K) :
    (find k es).isSome = true ↔ k ∈ es.map Prod.fst := by
  induction es with
  | nil => simp [find]
  | cons e rest ih =>
    by_cases h : k = e.1
    · simp [find,h]
    · simpa [find,h] using ih

def get (m : IndexMap K V) (k : K) : Option V := find k m.entries
def containsKey (m : IndexMap K V) (k : K) : Bool := (m.get k).isSome

def insert (m : IndexMap K V) (k : K) (v : V) : IndexMap K V where
  entries := put k v m.entries
  unique := by
    rw [putKeys]
    split
    · exact m.unique
    · rename_i fresh
      refine List.nodup_append.mpr ⟨m.unique,by simp,?_⟩
      intro a ha b hb same
      exact fresh (by rwa [← List.mem_singleton.mp hb,← same])

def shiftRemove (m : IndexMap K V) (k : K) : IndexMap K V where
  entries := drop k m.entries
  unique := m.unique.sublist (List.filter_sublist.map _)

@[simp] theorem getEmpty (k : K) : (∅ : IndexMap K V).get k = none := rfl

@[simp] theorem getInsert (m : IndexMap K V) (k : K) (v : V) (j : K) :
    (m.insert k v).get j = if j = k then some v else m.get j := findPut k j v m.entries

@[simp] theorem getShiftRemove (m : IndexMap K V) (k j : K) :
    (m.shiftRemove k).get j = if j = k then none else m.get j := findDrop k j m.entries

theorem containsKeyIff (m : IndexMap K V) (k : K) : m.containsKey k = true ↔ k ∈ m.keys :=
  findIsSome m.entries k

theorem memKeysInsert (m : IndexMap K V) (k j : K) (v : V) :
    j ∈ (m.insert k v).keys ↔ j = k ∨ j ∈ m.keys := by
  simp only [← containsKeyIff,containsKey,getInsert]
  split <;> simp_all

theorem memKeysShiftRemove (m : IndexMap K V) (k j : K) :
    j ∈ (m.shiftRemove k).keys ↔ j ≠ k ∧ j ∈ m.keys := by
  simp only [← containsKeyIff,containsKey,getShiftRemove]
  split <;> simp_all

theorem getOfIsEmpty {m : IndexMap K V} (h : m.isEmpty = true) (k : K) : m.get k = none := by
  have nil : m.entries = [] := by simpa [isEmpty] using h
  simp [get,nil,find]

theorem insertFresh (m : IndexMap K V) (k : K) (v : V) (fresh : k ∉ m.keys) :
    (m.insert k v).entries = m.entries ++ [(k,v)] := by
  have appended : ∀ es : List (K × V), k ∉ es.map Prod.fst → put k v es = es ++ [(k,v)] := by
    intro es
    induction es with
    | nil => intro _; rfl
    | cons e rest ih =>
      intro fresh
      obtain ⟨other,tail⟩ := not_or.mp (fun h => fresh (List.mem_cons.mpr h))
      simp only [put,if_neg other,ih tail,List.cons_append]
  exact appended m.entries fresh

/- Of the values inserted under one key the last stays. -/
theorem getFold {α : Type} (key : α → K) (value : α → V) (xs : List α) (m : IndexMap K V) (k : K) :
    (xs.foldl (fun m x => m.insert (key x) (value x)) m).get k =
      (((xs.filter (fun x => decide (key x = k))).getLast?).map value).or (m.get k) := by
  induction xs generalizing m with
  | nil => rfl
  | cons x rest ih =>
    rw [List.foldl_cons,ih,getInsert,List.filter_cons]
    cases decEq (key x) k with
    | isTrue same =>
      rw [if_pos same.symm,if_pos (decide_eq_true same),List.getLast?_cons]
      cases (rest.filter (fun x => decide (key x = k))).getLast? <;> rfl
    | isFalse other => rw [if_neg (Ne.symm other),if_neg (by simpa using other)]

theorem memInsert (m : IndexMap K V) (k : K) (v : V) (e : K × V) (member : e ∈ (m.insert k v).entries) :
    e = (k,v) ∨ e ∈ m.entries := by
  have members : ∀ es : List (K × V), e ∈ put k v es → e = (k,v) ∨ e ∈ es := by
    intro es
    induction es with
    | nil => intro member; exact .inl (List.mem_singleton.mp member)
    | cons x rest ih =>
      intro member
      simp only [put] at member
      split at member
      · rcases List.mem_cons.mp member with same | later
        · exact .inl same
        · exact .inr (List.mem_cons_of_mem x later)
      · rcases List.mem_cons.mp member with same | later
        · exact .inr (same ▸ List.mem_cons_self)
        · rcases ih later with same | old
          · exact .inl same
          · exact .inr (List.mem_cons_of_mem x old)
  exact members m.entries member

/-! How many keys satisfy a predicate, across the two updates. -/
theorem countKeysInsert (m : IndexMap K V) (k : K) (v : V) (p : K → Bool) :
    (m.insert k v).keys.countP p =
      m.keys.countP p + if k ∉ m.keys ∧ p k = true then 1 else 0 := by
  have keys : (m.insert k v).keys = if k ∈ m.keys then m.keys else m.keys ++ [k] :=
    putKeys k v m.entries
  rw [keys]
  by_cases present : k ∈ m.keys
  · simp [present]
  · by_cases hp : p k = true <;> simp [present,hp,List.countP_append]

theorem countKeysShiftRemove (m : IndexMap K V) (k : K) (p : K → Bool) :
    (m.shiftRemove k).keys.countP p + (if k ∈ m.keys ∧ p k = true then 1 else 0) =
      m.keys.countP p := by
  have keys : (m.shiftRemove k).keys = m.keys.filter (fun j => !decide (j = k)) := by
    simp [shiftRemove,drop,IndexMap.keys,List.filter_map,Function.comp_def]
  have split : m.keys.countP p = (m.keys.filter (fun j => !decide (j = k))).countP p +
      (m.keys.filter (fun j => decide (j = k))).countP p := by
    simpa using List.countP_eq_countP_filter_add m.keys p (fun j => !decide (j = k))
  have alone : m.keys.filter (fun j => decide (j = k)) = if k ∈ m.keys then [k] else [] := by
    have same : m.keys.filter (fun j => decide (j = k)) = m.keys.filter (fun j => j == k) := rfl
    rw [same,List.filter_beq,List.Nodup.count m.keysNodup]
    split <;> simp
  rw [keys,split,alone]
  by_cases present : k ∈ m.keys <;> by_cases hp : p k = true <;> simp [present,hp]

end IndexMap
