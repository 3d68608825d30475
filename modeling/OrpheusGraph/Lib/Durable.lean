import OrpheusGraph.Lib.Disk

/-! Names that can be relied on: whichever changes of the directory come through, the name
leads to a synced file, and one knows what is in it. -/
namespace Storage
variable {N β : Type} [DecidableEq N]

namespace Disk

/- What a binding leads to: a file that was written as `src` and is synced, with contents in `Q`;
or nothing, when `Q` has it. -/
inductive Backed (d : Disk N β) (src : N) (Q : Option (List β) → Prop) : Option (N × Nat) → Prop where
  | nothing (holds : Q none) : Backed d src Q none
  | file {k : Nat} {cells : List β} (born : k < d.next) (settled : d.files (src,k) = ⟨cells,[]⟩)
      (holds : Q (some cells)) : Backed d src Q (some (src,k))

def Solid (d : Disk N β) (src n : N) (Q : Option (List β) → Prop) : Prop := ∀ o, d.MayBind n o → d.Backed src Q o

variable {d d' : Disk N β} {src n : N} {Q Q' : Option (List β) → Prop}

omit [DecidableEq N] in
theorem Backed.mono {o : Option (N × Nat)} (b : d.Backed src Q o) (imp : ∀ o, Q o → Q' o) : d.Backed src Q' o := by
  cases b with
  | nothing holds => exact .nothing (imp _ holds)
  | file born settled holds => exact .file born settled (imp _ holds)

theorem Solid.mono (s : d.Solid src n Q) (imp : ∀ o, Q o → Q' o) : d.Solid src n Q' :=
  fun o binds => (s o binds).mono imp

/- What a name is bound to is kept as long as its synced files are. -/
theorem Solid.carry (s : d.Solid src n Q) (binds : ∀ o, d'.MayBind n o → d.MayBind n o ∨ d'.Backed src Q o)
    (next : d.next ≤ d'.next)
    (files : ∀ k cells, k < d.next → d.files (src,k) = ⟨cells,[]⟩ → d'.files (src,k) = ⟨cells,[]⟩) :
    d'.Solid src n Q := by
  intro o bound
  rcases binds o bound with old | new
  · cases s o old with
    | nothing holds => exact .nothing holds
    | file born settled holds => exact .file (Nat.lt_of_lt_of_le born next) (files _ _ born settled) holds
  · exact new

theorem Solid.syncDir (s : d.Solid src n Q) : d.syncDir.Solid src n Q :=
  s.carry (fun _ bound => .inl (syncDirBinds.mp bound ▸ mayBindDir d n)) (Nat.le_refl _) (fun _ _ _ settled => settled)

theorem Solid.create (s : d.Solid src n Q) {m : N} (other : n ≠ m) : (d.create m).Solid src n Q := by
  refine s.carry (fun o bound => .inl ((createBinds.mp bound).resolve_right (fun h => other h.1))) (Nat.le_succ _)
    (fun k cells born settled => ?_)
  have apart : (src,k) ≠ (m,d.next) := fun same => absurd (congrArg Prod.snd same) (by simp; omega)
  simpa only [Disk.create,Function.update_apply,if_neg apart] using settled

theorem Solid.change (s : d.Solid src n Q) {x : Entry N} (other : x.sets n = none) : (d.change x).Solid src n Q := by
  refine s.carry (fun o bound => .inl ?_) (Nat.le_refl _) (fun _ _ _ settled => settled)
  rcases changeBinds.mp bound with old | sets
  · exact old
  · rw [other] at sets
    contradiction

variable [Cell β]

omit [Cell β] in
theorem Solid.setFile (s : d.Solid src n Q) {i : N × Nat} (f : File β) (other : i.1 ≠ src) :
    (d.setFile i f).Solid src n Q := by
  refine s.carry (fun o bound => .inl (setFileBinds.mp bound)) (Nat.le_refl _) (fun k cells born settled => ?_)
  rw [setFileOther f (fun same => other (by rw [← same]))]
  exact settled

/- While another name, or this one with the same contents, is being replaced. -/
theorem Solid.replacing (s : d.Solid src n Q) {tmp dst : N} {cells : List β} (r : Replacing tmp dst cells d d')
    (apart : n ≠ tmp) (same : n = dst → tmp = src ∧ Q (some cells)) : d'.Solid src n Q := by
  have grows : d' = d ∨ d.next < d'.next := by
    cases r with
    | before => exact .inl rfl
    | _ => exact .inr (Nat.lt_succ_self _)
  rcases grows with rfl | grows
  · exact s
  refine s.carry (fun o bound => ?_) (Nat.le_of_lt grows) (fun k held born settled => ?_)
  · rcases replacingBinds r apart bound with old | ⟨rfl,rfl,whole⟩
    · exact .inl old
    · obtain ⟨rfl,holds⟩ := same rfl
      exact .inr (.file grows whole holds)
  · rw [replacingFiles r (fun same => absurd (congrArg Prod.snd same) (Nat.ne_of_lt born))]
    exact settled

/- Either the new name still leads where it led, or to the new file. -/
theorem replacingLands {tmp dst : N} {cells : List β} (r : Replacing tmp dst cells d d') (apart : dst ≠ tmp) :
    d'.dir dst = some (d.spare tmp) ∨ d'.dir dst = d.dir dst ∧ ∀ o, d'.MayBind dst o → d.MayBind dst o := by
  have made : (d.create tmp).dir dst = d.dir dst ∧ ∀ o, (d.create tmp).MayBind dst o → d.MayBind dst o :=
    ⟨by rw [createDir,if_neg apart],fun o bound => (createBinds.mp bound).resolve_right (fun h => apart h.1)⟩
  cases r with
  | before => exact .inr ⟨rfl,fun _ bound => bound⟩
  | created => exact .inr made
  | drafted tears => exact .inr made
  | synced => exact .inr made
  | moved => exact .inl (by rw [movedDir,if_pos rfl])
  | replaced => exact .inl (by rw [replacedDir,if_pos rfl])

theorem Solid.replaced {tmp : N} {cells : List β} (holds : Q (some cells)) : (d.replaced tmp n cells).Solid tmp n Q := by
  intro o bound
  rw [replacedBinds,if_pos rfl] at bound
  subst bound
  exact .file (Nat.lt_succ_self _) (replacedFile d tmp n cells) holds

theorem Solid.powerLoss (s : d.Solid src n Q) (loss : PowerLoss d d') : d'.Solid src n Q := by
  refine s.carry (fun o bound => .inl (loss.binds bound)) (Nat.le_of_eq loss.next.symm) (fun k cells born settled => ?_)
  have kept : (d'.files (src,k)).synced = cells := by
    have back := loss.files (src,k)
    rw [settled] at back
    exact survivesFlushed (f := ⟨cells,[]⟩) back
  have flat := loss.writes (src,k)
  cases file : d'.files (src,k) with
  | mk synced writes =>
    rw [file] at kept flat
    rw [show synced = cells from kept,show writes = [] from flat]

theorem Solid.read (s : d.Solid src n Q) : Q (d.read n) := by
  have bound := s _ (mayBindDir d n)
  rw [Disk.read]
  cases found : d.dir n with
  | none =>
    rw [found] at bound
    cases bound with
    | nothing holds => exact holds
  | some i =>
    rw [found] at bound
    cases bound with
    | file born settled holds =>
      rw [Option.map_some,settled]
      exact holds

end Disk
end Storage
