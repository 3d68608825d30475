import OrpheusGraph.Lib.Durable

/-! What may be seen of a disk after an interruption. With `loss` the power may fail, and then
writes and changes of the directory come through in part; without it only the process ends. -/
namespace Storage
variable {loss : Prop}

section files
variable {β : Type} [Cell β] {f : File β} {xs : List β}

def Left (loss : Prop) (f : File β) (xs : List β) : Prop := xs = f.content ∨ loss ∧ Survives f xs

/- After one more write a file is left as before, or with that write, or with a part of it. -/
theorem leftPush {w : Write β} (left : Left loss (f.push w) xs) :
    Left loss f xs ∨ xs = w.apply f.content ∨
      ∃ off cells part, w = .put off cells ∧ Part cells part ∧ xs = (Write.put off part).apply f.content := by
  rcases left with rfl | ⟨may,s⟩
  · exact .inr (.inl (contentPush f w))
  cases s with
  | @between kept lost split =>
    rcases List.eq_nil_or_concat lost with rfl | ⟨init,last,rfl⟩
    · refine .inr (.inl ?_)
      rw [List.append_nil] at split
      rw [← split]
      exact contentPush f w
    · rw [File.push,List.concat_eq_append,← List.append_assoc] at split
      obtain ⟨split,_⟩ := List.append_inj' split rfl
      exact .inl (.inr ⟨may,.between split⟩)
  | @torn kept lost off cells part split torn =>
    rcases List.eq_nil_or_concat lost with rfl | ⟨init,last,rfl⟩
    · obtain ⟨same,last⟩ := List.append_inj' split rfl
      cases List.cons.inj last |>.1
      refine .inr (.inr ⟨off,cells,part,rfl,torn,?_⟩)
      rw [← same]
      rfl
    · rw [File.push,List.concat_eq_append,← List.cons_append,← List.append_assoc] at split
      obtain ⟨split,_⟩ := List.append_inj' split rfl
      exact .inl (.inr ⟨may,.torn split torn⟩)

theorem leftFlushed (left : Left loss f.flushed xs) : xs = f.content := by
  rcases left with rfl | ⟨_,s⟩
  · rfl
  · exact survivesFlushed s

theorem putEnd (xs part : List β) : (Write.put xs.length part).apply xs = xs ++ part := by
  have size : (resize xs.length xs).take xs.length = xs := by
    rw [resize,List.take_length,Nat.sub_self,List.replicate_zero,List.append_nil,List.take_length]
  rw [Write.apply,Nat.max_self,size,List.drop_eq_nil_of_le (Nat.le_add_right _ _),List.append_nil]

end files

namespace Disk
variable {N β : Type} [DecidableEq N] {d d' : Disk N β} {n : N} {o : Option (N × Nat)}

def Seen (loss : Prop) (d : Disk N β) (n : N) (o : Option (N × Nat)) : Prop := o = d.dir n ∨ loss ∧ d.MayBind n o

theorem seenDir : d.Seen loss n (d.dir n) := .inl rfl

theorem seenCreate {m : N} (other : n ≠ m) (seen : (d.create m).Seen loss n o) : d.Seen loss n o := by
  rcases seen with rfl | ⟨may,binds⟩
  · exact .inl (by rw [createDir,if_neg other])
  · exact .inr ⟨may,(createBinds.mp binds).resolve_right (fun h => other h.1)⟩

theorem seenChange {x : Entry N} (other : x.sets n = none) (seen : (d.change x).Seen loss n o) : d.Seen loss n o := by
  rcases seen with rfl | ⟨may,binds⟩
  · exact .inl (by rw [changeDir,other]; rfl)
  · refine .inr ⟨may,(changeBinds.mp binds).resolve_right (fun sets => ?_)⟩
    rw [other] at sets
    contradiction

theorem seenSyncDir (seen : d.syncDir.Seen loss n o) : o = d.dir n := by
  rcases seen with rfl | ⟨_,binds⟩
  · rfl
  · exact syncDirBinds.mp binds

variable [Cell β] {src dst : N} {cells : List β}

theorem seenReplacing (r : Replacing src dst cells d d') (other : n ≠ src) (seen : d'.Seen loss n o) :
    d.Seen loss n o ∨ n = dst ∧ o = some (d.spare src) ∧ d'.files (d.spare src) = ⟨cells,[]⟩ := by
  rcases seen with rfl | ⟨may,binds⟩
  · exact (replacingDir r other).imp_left .inl
  · exact (replacingBinds r other binds).imp_left (fun old => .inr ⟨may,old⟩)

theorem seenPowerLoss (may : loss) (lost : PowerLoss d d') (seen : d'.Seen loss n o) : d.Seen loss n o := by
  rcases seen with rfl | ⟨_,binds⟩
  · exact .inr ⟨may,lost.binds (mayBindDir d' n)⟩
  · exact .inr ⟨may,lost.binds binds⟩

/-! A name that leads to one file for good. -/
def Fixed (loss : Prop) (d : Disk N β) (n : N) (i : N × Nat) : Prop := ∀ o, d.Seen loss n o → o = some i

variable {i : N × Nat}

omit [Cell β] in
theorem Fixed.dir (f : d.Fixed loss n i) : d.dir n = some i := f _ seenDir

omit [Cell β] in
theorem Fixed.create (f : d.Fixed loss n i) {m : N} (other : n ≠ m) : (d.create m).Fixed loss n i :=
  fun o seen => f o (seenCreate other seen)

omit [Cell β] in
theorem Fixed.change (f : d.Fixed loss n i) {x : Entry N} (other : x.sets n = none) : (d.change x).Fixed loss n i :=
  fun o seen => f o (seenChange other seen)

omit [Cell β] in
theorem fixedSyncDir (bound : d.dir n = some i) : d.syncDir.Fixed loss n i := fun _ seen => (seenSyncDir seen).trans bound

theorem Fixed.replacing (f : d.Fixed loss n i) (r : Replacing src dst cells d d') (tmp : n ≠ src) (other : n ≠ dst) :
    d'.Fixed loss n i := fun o seen => f o ((seenReplacing r tmp seen).resolve_right (fun h => other h.1))

theorem Fixed.powerLoss (f : d.Fixed loss n i) (may : loss) (lost : PowerLoss d d') : d'.Fixed loss n i :=
  fun o seen => f o (seenPowerLoss may lost seen)

/-! A name that leads to synced files only, with one of some contents in each. -/
def Firm (loss : Prop) (d : Disk N β) (src n : N) (Q : Option (List β) → Prop) : Prop :=
  ∀ o, d.Seen loss n o → d.Backed src Q o

variable {Q Q' : Option (List β) → Prop}

omit [Cell β] in
theorem Firm.mono (f : d.Firm loss src n Q) (imp : ∀ o, Q o → Q' o) : d.Firm loss src n Q' :=
  fun o seen => (f o seen).mono imp

omit [Cell β] in
theorem Firm.carry (f : d.Firm loss src n Q) (seen : ∀ o, d'.Seen loss n o → d.Seen loss n o ∨ d'.Backed src Q o)
    (next : d.next ≤ d'.next)
    (files : ∀ k cells, k < d.next → d.files (src,k) = ⟨cells,[]⟩ → d'.files (src,k) = ⟨cells,[]⟩) :
    d'.Firm loss src n Q := by
  intro o there
  rcases seen o there with old | new
  · cases f o old with
    | nothing holds => exact .nothing holds
    | file born settled holds => exact .file (Nat.lt_of_lt_of_le born next) (files _ _ born settled) holds
  · exact new

omit [Cell β] in
theorem Firm.create (f : d.Firm loss src n Q) {m : N} (other : n ≠ m) : (d.create m).Firm loss src n Q := by
  refine f.carry (fun o seen => .inl (seenCreate other seen)) (Nat.le_succ _) (fun k cells born settled => ?_)
  have apart : (src,k) ≠ (m,d.next) := fun same => absurd (congrArg Prod.snd same) (by simp; omega)
  simpa only [Disk.create,Function.update_apply,if_neg apart] using settled

omit [Cell β] in
theorem Firm.change (f : d.Firm loss src n Q) {x : Entry N} (other : x.sets n = none) : (d.change x).Firm loss src n Q :=
  f.carry (fun _ seen => .inl (seenChange other seen)) (Nat.le_refl _) (fun _ _ _ settled => settled)

omit [Cell β] in
theorem Firm.syncDir (f : d.Firm loss src n Q) : d.syncDir.Firm loss src n Q :=
  f.carry (fun _ seen => .inl (.inl (seenSyncDir seen))) (Nat.le_refl _) (fun _ _ _ settled => settled)

omit [Cell β] in
theorem Firm.setFile (f : d.Firm loss src n Q) (g : File β) (other : i.1 ≠ src) : (d.setFile i g).Firm loss src n Q := by
  refine f.carry (fun o seen => .inl seen) (Nat.le_refl _) (fun k cells born settled => ?_)
  rw [setFileOther g (fun same => other (by rw [← same]))]
  exact settled

theorem Firm.replacing (f : d.Firm loss src n Q) {tmp : N} (r : Replacing tmp dst cells d d') (apart : n ≠ tmp)
    (same : n = dst → tmp = src ∧ Q (some cells)) : d'.Firm loss src n Q := by
  have grows : d' = d ∨ d.next < d'.next := by
    cases r with
    | before => exact .inl rfl
    | _ => exact .inr (Nat.lt_succ_self _)
  rcases grows with rfl | grows
  · exact f
  refine f.carry (fun o seen => ?_) (Nat.le_of_lt grows) (fun k held born settled => ?_)
  · rcases seenReplacing r apart seen with old | ⟨rfl,rfl,whole⟩
    · exact .inl old
    · obtain ⟨rfl,holds⟩ := same rfl
      exact .inr (.file grows whole holds)
  · rw [replacingFiles r (fun same => absurd (congrArg Prod.snd same) (Nat.ne_of_lt born))]
    exact settled

theorem firmReplaced {tmp : N} (holds : Q (some cells)) : (d.replaced tmp n cells).Firm loss tmp n Q := by
  intro o seen
  have bound : o = some (d.spare tmp) := by
    rcases seen with rfl | ⟨_,binds⟩
    · rw [replacedDir,if_pos rfl]
    · rw [replacedBinds,if_pos rfl] at binds
      exact binds
  subst bound
  exact .file (Nat.lt_succ_self _) (replacedFile d tmp n cells) holds

theorem backedPowerLoss (lost : PowerLoss d d') (b : d.Backed src Q o) : d'.Backed src Q o := by
  cases b with
  | nothing holds => exact .nothing holds
  | @file k cells born settled holds =>
    have kept : (d'.files (src,k)).synced = cells := by
      have back := lost.files (src,k)
      rw [settled] at back
      exact survivesFlushed (f := ⟨cells,[]⟩) back
    have flat := lost.writes (src,k)
    refine .file (lost.next.symm ▸ born) ?_ holds
    cases file : d'.files (src,k) with
    | mk synced writes =>
      rw [file] at kept flat
      rw [show synced = cells from kept,show writes = [] from flat]

theorem Firm.powerLoss (f : d.Firm loss src n Q) (may : loss) (lost : PowerLoss d d') : d'.Firm loss src n Q :=
  fun o seen => backedPowerLoss lost (f o (seenPowerLoss may lost seen))

theorem Firm.read (f : d.Firm loss src n Q) : Q (d.read n) := by
  have bound := f _ seenDir
  rw [Disk.read]
  cases found : d.dir n with
  | none =>
    rw [found] at bound
    cases bound with
    | nothing holds => exact holds
  | some i =>
    rw [found] at bound
    cases bound with
    | file born settled holds =>
      rw [Option.map_some,settled]
      exact holds

end Disk
end Storage
