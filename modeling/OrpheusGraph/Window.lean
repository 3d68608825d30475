import OrpheusGraph.Life

/-! How far the durable sequence number can lag: one counter is in the log writer, the
other is moved by the COMMIT stamp, and no failure parts them on a writer that goes on. -/
namespace OrpheusGraph
open Storage Effects
variable {W : Type} [Arith W] [TotalCmp W] {faults : Faults W} {pk : Packages W}

/- What anything but a batch does to the two: nothing, or it catches up. -/
structure Calm (w w' : Writer W) : Prop where
  seq : w'.seq = w.seq
  policy : w'.wal.policy = w.wal.policy
  mark : w'.durableSeq = w.durableSeq ∧ (w'.wal.poisoned = false → w.wal.poisoned = false ∧
      w'.wal.sinceFsync = w.wal.sinceFsync) ∨
    w'.durableSeq = w.seq ∧ (w'.wal.poisoned = false → w.wal.poisoned = false ∧ w'.wal.sinceFsync = 0)

omit [Arith W] [TotalCmp W] in
theorem Calm.same {w w' : Writer W} (wal : w'.wal = w.wal) (seq : w'.seq = w.seq)
    (durable : w'.durableSeq = w.durableSeq) : Calm w w' :=
  ⟨seq,by rw [wal],.inl ⟨durable,fun ok => by rw [wal] at ok ⊢; exact ⟨ok,rfl⟩⟩⟩

def CalmEnd (w : Writer W) {α : Type} (_ : Except Stop α) (w' : Writer W) (_ : World W) : Prop := Calm w w'

theorem compactCalm {w : Writer W} {s : World W} (sound : w.wal.poisoned = false) (behind : w.durableSeq ≤ w.seq) :
    Act.ends (Step faults) (fun _ => True) (Writer.compactLocked pk) (CalmEnd w) w s := by
  have caught : max w.durableSeq w.seq = w.seq := Nat.max_eq_right behind
  refine Writer.endsCompact trivial (fun _ => .same rfl rfl rfl) (fun _ _ => .same rfl rfl rfl)
    (fun sg _ _ s' _ => ⟨trivial,fun _ _ => .same rfl rfl rfl⟩)
    (fun sg _ _ s' _ => ⟨trivial,fun _ _ => .same rfl rfl rfl⟩) (fun sg _ _ => ?_)
  refine Writer.endsSettle sound (fun s' _ => ⟨trivial,fun _ _ => ?_⟩) (fun s' _ => ⟨trivial,fun _ _ _ _ => ?_⟩)
    (fun _ _ => ?_) (fun base _ s' _ => ⟨trivial,?_⟩)
  · exact ⟨rfl,rfl,.inl ⟨rfl,fun ok => nomatch ok⟩⟩
  · exact ⟨rfl,rfl,.inr ⟨caught,fun ok => nomatch ok⟩⟩
  · exact ⟨rfl,rfl,.inr ⟨caught,fun _ => ⟨sound,rfl⟩⟩⟩
  · exact ⟨rfl,rfl,.inr ⟨caught,fun _ => ⟨sound,rfl⟩⟩⟩

omit [Arith W] [TotalCmp W] in
theorem sealCalm {w : Writer W} {s : World W} (sound : w.wal.poisoned = false) :
    Act.ends (Step faults) (fun _ => True) Writer.sealLog (CalmEnd w) w s := by
  refine Writer.endsSeal sound (fun s' _ => ⟨trivial,fun _ _ => ?_⟩) (fun s' _ => ⟨trivial,fun _ _ => ?_⟩) ?_
  · exact ⟨rfl,rfl,.inl ⟨rfl,fun ok => nomatch ok⟩⟩
  · exact ⟨rfl,rfl,.inl ⟨rfl,fun ok => nomatch ok⟩⟩
  · exact ⟨rfl,rfl,.inr ⟨rfl,fun _ => ⟨sound,rfl⟩⟩⟩

/- Everything up to `seq` is durable, and no append is counted. -/
structure Idle (w : Writer W) : Prop where
  even : w.durableSeq = w.seq
  counted : w.wal.poisoned = false → w.wal.sinceFsync = 0

structure Window (n : Nat) (w : Writer W) : Prop where
  policy : w.wal.policy = .everyN n
  behind : w.durableSeq ≤ w.seq
  near : w.seq - w.durableSeq ≤ max n 1 - 1
  counted : w.wal.poisoned = false → w.seq = w.durableSeq + w.wal.sinceFsync

omit [Arith W] [TotalCmp W] in
theorem Idle.calm {w w' : Writer W} (idle : Idle w) (calm : Calm w w') : Idle w' := by
  obtain ⟨seq,_,⟨durable,counted⟩ | ⟨durable,counted⟩⟩ := calm
  · exact ⟨by rw [durable,seq,idle.even],fun ok => (counted ok).2.trans (idle.counted (counted ok).1)⟩
  · exact ⟨by rw [durable,seq],fun ok => (counted ok).2⟩

omit [Arith W] [TotalCmp W] in
theorem Window.calm {n : Nat} {w w' : Writer W} (window : Window n w) (calm : Calm w w') : Window n w' := by
  obtain ⟨seq,policy,⟨durable,counted⟩ | ⟨durable,counted⟩⟩ := calm
  · refine ⟨policy.trans window.policy,?_,?_,fun ok => ?_⟩
    · rw [durable,seq]
      exact window.behind
    · rw [durable,seq]
      exact window.near
    · rw [seq,durable,(counted ok).2]
      exact window.counted (counted ok).1
  · refine ⟨policy.trans window.policy,?_,?_,fun ok => ?_⟩
    · rw [durable,seq]
    · rw [durable,seq,Nat.sub_self]
      exact Nat.zero_le _
    · rw [seq,durable,(counted ok).2,Nat.add_zero]

omit [Arith W] [TotalCmp W] in
theorem Calm.grows {w w' : Writer W} (behind : w.durableSeq ≤ w.seq) (calm : Calm w w') :
    w.durableSeq ≤ w'.durableSeq := by
  obtain ⟨_,_,⟨durable,_⟩ | ⟨durable,_⟩⟩ := calm
  · exact durable.ge
  · exact durable ▸ behind

omit [Arith W] [TotalCmp W] in
/- An accepted batch is either the one the policy syncs at, or one more that is counted. -/
theorem Window.accepted {n : Nat} {w : Writer W} (window : Window n w) (sound : w.wal.poisoned = false)
    (frame : Bytes) (ops : List (Op W)) (d : GraphDelta W) :
    Window n (w.accepted frame ops d) ∧ w.durableSeq ≤ (w.accepted frame ops d).durableSeq ∧
      (w.accepted frame ops d).wal.poisoned = false := by
  have counted := window.counted sound
  have behind := window.behind
  have seq : (w.accepted frame ops d).seq = w.seq + 1 := rfl
  cases due : w.wal.due with
  | true =>
    have wal : (w.accepted frame ops d).wal = (w.wal.appended frame).fsynced := by rw [Writer.acceptedWal,if_pos due]
    have durable : (w.accepted frame ops d).durableSeq = w.seq + 1 := by rw [Writer.acceptedDurable,if_pos due]
    refine ⟨⟨?_,by omega,by omega,fun _ => ?_⟩,by omega,?_⟩
    · rw [wal]
      exact window.policy
    · rw [wal,durable]
      rfl
    · rw [wal]
      exact sound
  | false =>
    have wal : (w.accepted frame ops d).wal = w.wal.appended frame := by simp [due]
    have durable : (w.accepted frame ops d).durableSeq = w.durableSeq := by simp [due]
    have short : w.wal.sinceFsync + 1 < max n 1 := by
      rw [WalWriter.due,window.policy] at due
      simpa using due
    have more : (w.wal.appended frame).sinceFsync = w.wal.sinceFsync + 1 := by rw [WalWriter.appended,window.policy]
    refine ⟨⟨?_,by omega,by omega,fun _ => ?_⟩,by omega,?_⟩
    · rw [wal]
      exact window.policy
    · rw [wal,durable,more]
      omega
    · rw [wal]
      exact sound

omit [Arith W] [TotalCmp W] in
theorem Window.poisoned {n : Nat} {w w' : Writer W} (window : Window n w) (seq : w'.seq = w.seq)
    (durable : w'.durableSeq = w.durableSeq) (policy : w'.wal.policy = w.wal.policy) (bad : w'.wal.poisoned = true) :
    Window n w' := by
  refine ⟨policy.trans window.policy,?_,?_,fun ok => ?_⟩
  · rw [durable,seq]
    exact window.behind
  · rw [durable,seq]
    exact window.near
  · rw [bad] at ok
    contradiction

/- One request keeps the window and never takes the mark back. -/
theorem windowStep {n : Nat} {w : Writer W} {s : World W} (window : Window n w) {q : Request W}
    (allowed : ∀ policy, q = .setFsyncPolicy policy → policy = .everyN n) :
    Act.ends (Step faults) (fun _ => True) (q.run pk) (fun _ w' _ => Window n w' ∧ w.durableSeq ≤ w'.durableSeq) w s := by
  have calm : ∀ {α : Type} (r : Except Stop α) (w' : Writer W) (s' : World W), True → CalmEnd w r w' s' →
      Window n w' ∧ w.durableSeq ≤ w'.durableSeq := fun _ w' _ _ calm => ⟨window.calm calm,calm.grows window.behind⟩
  have onward : ∀ {α : Type} (r : Except Stop α) (w' : Writer W) (s' : World W), True → CalmEnd w r w' s' →
      Act.onward (Step faults) (fun _ => True) (fun _ => (pure none : Io W (Writer W) (Option Nat)))
        (fun _ w' _ => Window n w' ∧ w.durableSeq ≤ w'.durableSeq) r w' s' := by
    intro α r w' s' _ ended
    cases r with
    | ok _ => exact ⟨trivial,calm (.ok ()) w' s' trivial ended⟩
    | error e => exact calm (.ok ()) w' s' trivial ended
  cases q with
  | apply ops expectedSeq =>
    refine Act.endsBind (Writer.endsApply trivial (fun e _ => ⟨window,Nat.le_refl _⟩)
      (fun d frame _ s' _ => ⟨trivial,fun _ _ _ _ => ⟨window.poisoned rfl rfl rfl rfl,Nat.le_refl _⟩⟩)
      (fun d frame prepared due s' _ => ⟨trivial,fun _ _ => ⟨?_,Nat.le_refl _⟩⟩)
      (fun d frame prepared s' _ => ⟨trivial,trivial,?_⟩))
    · refine window.poisoned rfl rfl ?_ rfl
      change (w.logged frame).wal.policy = w.wal.policy
      rw [Writer.logged,if_pos due]
      rfl
    · obtain ⟨after,grows,still⟩ := window.accepted (Writer.preparedSound prepared) frame ops d
      refine Writer.endsAutoCompact (fun _ => ⟨trivial,trivial,after,grows⟩) (fun _ => ?_)
      refine Act.endsMono (compactCalm still after.behind) (fun r w' s' _ ended => ?_)
      have both : Window n w' ∧ w.durableSeq ≤ w'.durableSeq :=
        ⟨after.calm ended,grows.trans (ended.grows after.behind)⟩
      rcases r with (_ | _) | _
      · obtain ⟨policy,behind,near,counted⟩ := both.1
        exact ⟨trivial,⟨policy,behind,near,counted⟩,both.2⟩
      · exact both
      · exact ⟨trivial,both⟩
  | compact =>
    exact Act.endsBind (Writer.endsCompactCall trivial (fun _ => ⟨window,Nat.le_refl _⟩)
      (fun sound => Act.endsMono (compactCalm sound window.behind) onward))
  | flush =>
    exact Act.endsBind (Writer.endsFlush trivial (fun _ => ⟨window,Nat.le_refl _⟩)
      (fun sound => Act.endsMono (sealCalm sound) onward))
  | setFsyncPolicy policy =>
    cases allowed policy rfl
    exact ⟨trivial,⟨rfl,window.behind,window.near,window.counted⟩,Nat.le_refl _⟩
  | setAutoCompactThreshold threshold =>
    exact ⟨trivial,⟨window.policy,window.behind,window.near,window.counted⟩,Nat.le_refl _⟩

theorem idleStep {w : Writer W} {s : World W} (idle : Idle w) {q : Request W}
    (allowed : ∀ ops expectedSeq, q ≠ .apply ops expectedSeq) :
    Act.ends (Step faults) (fun _ => True) (q.run pk) (fun _ w' _ => Idle w') w s := by
  have onward : ∀ {α : Type} (r : Except Stop α) (w' : Writer W) (s' : World W), True → CalmEnd w r w' s' →
      Act.onward (Step faults) (fun _ => True) (fun _ => (pure none : Io W (Writer W) (Option Nat)))
        (fun _ w' _ => Idle w') r w' s' := by
    intro α r w' s' _ ended
    cases r with
    | ok _ => exact ⟨trivial,idle.calm ended⟩
    | error e => exact idle.calm ended
  cases q with
  | apply ops expectedSeq => exact absurd rfl (allowed ops expectedSeq)
  | compact =>
    exact Act.endsBind (Writer.endsCompactCall trivial (fun _ => idle)
      (fun sound => Act.endsMono (compactCalm sound idle.even.le) onward))
  | flush =>
    exact Act.endsBind (Writer.endsFlush trivial (fun _ => idle) (fun sound => Act.endsMono (sealCalm sound) onward))
  | setFsyncPolicy policy => exact ⟨trivial,idle.even,idle.counted⟩
  | setAutoCompactThreshold threshold => exact ⟨trivial,idle.even,idle.counted⟩

/- A handle starts with nothing behind. -/
theorem bootIdle (b : Boot W) (s : World W) :
    Act.ends (Step faults) (fun _ => True) (b.run pk) (fun r _ _ => ∀ pg, r = .ok pg → Idle pg.writer) () s := by
  have creates : ∀ (g : OrpheusGraphInner W) s, Act.ends (Step faults) (fun _ => True) (createStore pk g)
      (fun r _ _ => ∀ pg, r = .ok pg → Idle pg.writer) () s := by
    intro g s
    refine endsCreateStore trivial (fun _ _ bad => nomatch bad) (fun sg _ _ s' _ => ⟨trivial,fun _ _ bad => nomatch bad⟩)
      (fun sg epoch _ _ _ u made => ⟨trivial,fun report pg same => ?_⟩)
    cases Except.ok.inj same
    rw [made]
    exact ⟨rfl,fun _ => rfl⟩
  cases b with
  | create g => exact creates g s
  | open_ c mode validate =>
    refine endsOpenStore trivial (fun _ _ _ bad => nomatch bad) (fun _ v => ?_) (fun _ => creates _ s)
    refine endsOpenExisting trivial (fun _ _ _ bad => nomatch bad) (fun m base walFile scan commitFile rec handle r found => ?_)
    refine endsResume (I := fun _ => True) (fun _ _ => ⟨trivial,fun _ _ _ bad => nomatch bad⟩)
      (fun _ _ => ⟨trivial,fun _ _ _ bad => nomatch bad⟩) (fun _ _ _ _ _ => ⟨trivial,fun _ _ _ bad => nomatch bad⟩)
      (fun _ _ _ _ _ => ⟨trivial,fun _ _ _ bad => nomatch bad⟩)
      (fun epoch t _ => ⟨trivial,fun s' _ => ⟨trivial,fun _ _ => trivial,fun u made => ⟨trivial,fun report pg same => ?_⟩⟩⟩)
    cases Except.ok.inj same
    rw [made]
    exact ⟨(recoveredSeq found.recovered).symm,fun _ => rfl⟩

/- The handle may have served anything but a batch before the policy is set. -/
theorem everyNWindow {b : Boot W} {s s₀ s₁ s₂ : World W} {pg : PersistentGraph W} {w₁ w : Writer W} (n : Nat)
    (boots : Exec (Step faults) (b.run pk ()) s (.ok pg,()) s₀)
    (before : Serves pk faults (fun q => ∀ ops expectedSeq, q ≠ .apply ops expectedSeq) pg.writer s₀ w₁ s₁)
    (serves : Serves pk faults (fun q => ∀ policy, q = .setFsyncPolicy policy → policy = .everyN n)
      (Writer.setFsyncPolicy (.everyN n) w₁) s₁ w s₂) :
    w.durableSeq ≤ w.seq ∧ w.seq - w.durableSeq ≤ max n 1 - 1 ∧
    ∀ (q : Request W) (r : Except Stop (Option Nat)) (w' : Writer W) (s' : World W), (∀ policy, q = .setFsyncPolicy policy → policy = .everyN n) →
      Exec (Step faults) (q.run pk w) s₂ (r,w') s' →
      w.durableSeq ≤ w'.durableSeq ∧ w'.durableSeq ≤ w'.seq ∧ w'.seq - w'.durableSeq ≤ max n 1 - 1 := by
  have idle : Idle w₁ := by
    clear serves
    induction before with
    | start => exact Act.endsExec (bootIdle b s) boots pg rfl
    | step before ok run ih => exact Act.endsExec (idleStep ih ok) run
  have window : Window n w := by
    induction serves with
    | start =>
      refine ⟨rfl,idle.even.le,?_,fun ok => ?_⟩
      · change w₁.seq - w₁.durableSeq ≤ _
        rw [idle.even,Nat.sub_self]
        exact Nat.zero_le _
      · change w₁.seq = w₁.durableSeq + w₁.wal.sinceFsync
        rw [idle.even,idle.counted ok,Nat.add_zero]
    | step before ok run ih => exact (Act.endsExec (windowStep ih ok) run).1
  refine ⟨window.behind,window.near,fun q r w' s' allowed run => ?_⟩
  obtain ⟨after,grows⟩ := Act.endsExec (windowStep window allowed) run
  exact ⟨grows,after.behind,after.near⟩

theorem everyNWindowOfBatch : ∃ (pg : PersistentGraph Unit) (s₀ : World Unit) (w : Writer Unit) (s₂ : World Unit),
    Exec (Step ⟨fun _ => False,True⟩) ((Boot.create emptyBase).run plainPackages ()) World.empty (.ok pg,()) s₀ ∧
    Exec (Step ⟨fun _ => False,True⟩) ((Request.apply [] none).run plainPackages
      (Writer.setFsyncPolicy (.everyN 3) pg.writer)) s₀ (.ok (some 1),w) s₂ ∧
    w.durableSeq ≤ w.seq ∧ w.seq - w.durableSeq ≤ 2 := by
  have boots := answersRun ⟨fun _ => False,True⟩ ((Boot.create emptyBase).run plainPackages) () World.empty
  have made : (creating.1.1.toOption.map (fun pg =>
      (served (.apply [] none) (Writer.setFsyncPolicy (.everyN 3) pg.writer) creating.2).1.1.toOption)) =
        some (some (some 1)) := by decide +kernel
  change Exec _ _ _ creating.1 creating.2 at boots
  generalize creating = out at boots made
  obtain ⟨⟨r,⟨⟩⟩,s₀⟩ := out
  cases r with
  | error e => simp [Except.toOption] at made
  | ok pg =>
    have serves := answersRun ⟨fun _ => False,True⟩ ((Request.apply [] none).run plainPackages)
      (Writer.setFsyncPolicy (.everyN 3) pg.writer) s₀
    simp only [Except.toOption,Option.map_some,Option.some.injEq] at made
    change Exec _ _ _ (served (.apply [] none) (Writer.setFsyncPolicy (.everyN 3) pg.writer) s₀).1
      (served (.apply [] none) (Writer.setFsyncPolicy (.everyN 3) pg.writer) s₀).2 at serves
    rcases found : served (.apply [] none) (Writer.setFsyncPolicy (.everyN 3) pg.writer) s₀ with ⟨⟨r,w⟩,s₂⟩
    rw [found] at serves made
    cases r with
    | error e => simp at made
    | ok seq =>
      cases Option.some.inj made
      have window := everyNWindow 3 boots .start (.step .start (fun _ bad => by contradiction) serves)
      exact ⟨pg,s₀,w,s₂,boots,serves,window.1,window.2.1⟩

end OrpheusGraph
