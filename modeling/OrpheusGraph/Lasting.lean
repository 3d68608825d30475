import OrpheusGraph.Surviving

/-! What the clients of a store can rely on over whole runs, however often it is interrupted. -/
namespace OrpheusGraph
open Storage Effects
variable {W : Type} [Arith W] [TotalCmp W] {pk : Packages W} {faults later : Faults W} {asked : List (Op W) → Prop}
  {st₀ st₁ st : Store W} {w : Writer W} {u s' : World W} {create : Bool} {mode : BaseMode} {validate : Validation}
  {r : Except Stop (PersistentGraph W)}

/-! A store to try it on. -/
section sample

/- Of a power loss that leaves nothing that was not synced. -/
def flat {W : Type} (d : StoreDisk W) : StoreDisk W := ⟨fun i => ⟨(d.files i).synced,[]⟩,d.next,d.names,[]⟩

theorem flatLost {W : Type} (d : StoreDisk W) : d.PowerLoss (flat d) where
  next := rfl
  settled := rfl
  names := ⟨[],List.nil_sublist _,rfl⟩
  writes _ := rfl
  files i := by
    have none_kept : (d.files i).writes = [] ++ (d.files i).writes := rfl
    exact .between none_kept

def oneBatch : Request Unit := .apply [.upsertNode (sampleNode "a")] none

def answeredTo (st : Store Unit) (q : Request Unit) : Store Unit :=
  match st.handle with
  | none => st
  | some w => ⟨(served q w st.world).2,some (served q w st.world).1.2⟩

def servedStore (qs : List (Request Unit)) : Store Unit := qs.foldl answeredTo ⟨creating.2,handleOf creating.1.1⟩

def openedOn (u : World Unit) : (Except Stop (PersistentGraph Unit) × Unit) × World Unit :=
  ((Boot.open_ false .owned .full).run plainPackages ()).run World.answers u

theorem createdStore : Created plainPackages (servedStore []) := by
  have run := answersRun noFaults ((Boot.create emptyBase).run plainPackages) () World.empty
  have made : creating.1.1.toOption.isSome = true := by decide +kernel
  change Exec _ _ _ creating.1 creating.2 at run
  change Created plainPackages ⟨creating.2,handleOf creating.1.1⟩
  generalize creating = out at run made
  obtain ⟨⟨r,⟨⟩⟩,s₀⟩ := out
  cases r with
  | error e => simp [Except.toOption] at made
  | ok pg =>
    have sound : (Boot.create emptyBase).Sound plainPackages :=
      ⟨buildIndexed .newestFirst [] [] true,buildCanonical .newestFirst [] [] true⟩
    exact ⟨noFaults,.empty,.create emptyBase,pg,.empty,rfl,sound,run,rfl⟩

theorem servedGoes {loss : Prop} {asked : List (Op Unit) → Prop} {st mid : Store Unit} (qs : List (Request Unit))
    (within : ∀ q ∈ qs, q.Within asked) (goes : Goes plainPackages noFaults loss asked st mid) :
    Goes plainPackages noFaults loss asked st (qs.foldl answeredTo mid) := by
  induction qs generalizing mid with
  | nil => exact goes
  | cons q qs ih =>
    refine ih (fun x member => within x (List.mem_cons_of_mem _ member)) ?_
    obtain ⟨s,handle⟩ := mid
    cases handle with
    | none => exact goes
    | some w => exact goes.served (.request (answersRun noFaults (q.run plainPackages) w s)) (within q List.mem_cons_self)

def crashed (st : Store Unit) : World Unit := st.world.on (flat st.world.disk)

def reopenedStore (u : World Unit) : Store Unit := ⟨(openedOn u).2,handleOf (openedOn u).1.1⟩

theorem reopenedGoes {loss : Prop} {asked : List (Op Unit) → Prop} {st : Store Unit} {u : World Unit}
    (goes : Goes plainPackages noFaults loss asked st ⟨u,none⟩) : Goes plainPackages noFaults loss asked st (reopenedStore u) :=
  goes.served (.boot (answersRun noFaults ((Boot.open_ false .owned .full).run plainPackages) () u)) trivial

theorem answerOk {ε α : Type} {r : Except ε α} {p : α → Bool} (holds : r.toOption.any p = true) : ∃ x, r = .ok x ∧ p x = true := by
  cases r with
  | error e => contradiction
  | ok x => exact ⟨x,rfl,holds⟩

end sample

/-! A handle that has made everything durable. -/
section durable
variable (lawful : pk.Lawful) (tame : Tame True faults) (created : Created pk st₀) (before : Goes pk faults True asked st₀ st₁)
  (handle : st₁.handle = some w) (sound : w.wal.poisoned = false) (durable : w.durableSeq = w.seq)
include lawful tame created before handle sound durable

theorem durableTold {later : List (Op W) → Prop} (after : Goes pk faults True later st₁ st) (small : Small st.world) :
    ∃ t lo hi, Told True pk ⟨w.seq,later,st₁.world.published.length,w.state.view pk⟩ t lo hi st.world.published := by
  obtain ⟨D,rfl,stays⟩ := created.stays True lawful asked
  have held := before.stays lawful tame stays (small.earlier after.grows)
  obtain ⟨s,_⟩ := st₁
  subst handle
  have pinned : Held True pk ⟨w.seq,later,s.published.length,w.state.view pk⟩ w s := Held.pinned held sound durable later
  have now : Stays True pk ⟨w.seq,later,s.published.length,w.state.view pk⟩ ⟨s,some w⟩ := pinned
  obtain ⟨_,_,t,k,hi,tracks⟩ := (after.stays lawful tame now small).kept
  exact ⟨t,_,hi,tracks.told⟩

end durable
end OrpheusGraph
