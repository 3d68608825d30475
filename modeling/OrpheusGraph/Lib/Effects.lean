import Mathlib.Logic.Basic

/-! Programs that ask an environment for effects, run against a transition relation that
may answer in several ways. A run can be cut before any effect; `wp` carries one condition
for those states and another for the result. An `Act` is a program over a state of its own
that may fail, and keeps that state when it does. -/
namespace Effects

inductive Prog (E : Type) (R : E → Type) (α : Type) where
  | ret (a : α)
  | ask (e : E) (k : R e → Prog E R α)

namespace Prog
variable {E : Type} {R : E → Type} {α β : Type}

def bind : Prog E R α → (α → Prog E R β) → Prog E R β
  | .ret a, f => f a
  | .ask e k, f => .ask e (fun r => (k r).bind f)

def perform (e : E) : Prog E R (R e) := .ask e .ret

/- Run with an environment that answers in one way. -/
def run {S : Type} (answer : (e : E) → S → R e × S) : Prog E R α → S → α × S
  | .ret a, s => (a,s)
  | .ask e k, s => (k (answer e s).1).run answer (answer e s).2

end Prog

section semantics
variable {E : Type} {R : E → Type} {α β S : Type} (T : (e : E) → S → R e → S → Prop)

inductive Exec : Prog E R α → S → α → S → Prop where
  | ret (a : α) (s : S) : Exec (.ret a) s a s
  | ask {e : E} {k : R e → Prog E R α} {s s' t : S} {r : R e} {a : α} (step : T e s r s')
      (rest : Exec (k r) s' a t) : Exec (.ask e k) s a t

/- The states in which a run can be cut. -/
inductive Cut : Prog E R α → S → S → Prop where
  | here (p : Prog E R α) (s : S) : Cut p s s
  | ask {e : E} {k : R e → Prog E R α} {s s' t : S} {r : R e} (step : T e s r s')
      (rest : Cut (k r) s' t) : Cut (.ask e k) s t

def wp (C : S → Prop) : Prog E R α → (α → S → Prop) → S → Prop
  | .ret a, Q, s => C s ∧ Q a s
  | .ask e k, Q, s => C s ∧ ∀ r s', T e s r s' → wp C (k r) Q s'

variable {T} {C : S → Prop}

theorem wpNow {p : Prog E R α} {Q : α → S → Prop} {s : S} (h : wp T C p Q s) : C s := by
  cases p with
  | ret a => exact h.1
  | ask e k => exact h.1

theorem wpExec {p : Prog E R α} {Q : α → S → Prop} {s t : S} {a : α} (h : wp T C p Q s)
    (run : Exec T p s a t) : Q a t := by
  induction run with
  | ret a s => exact h.2
  | ask step rest ih => exact ih (h.2 _ _ step)

theorem wpCut {p : Prog E R α} {Q : α → S → Prop} {s t : S} (h : wp T C p Q s)
    (cut : Cut T p s t) : C t := by
  induction cut with
  | here p s => exact wpNow h
  | ask step rest ih => exact ih (h.2 _ _ step)

theorem wpMono {p : Prog E R α} {Q Q' : α → S → Prop} {s : S} (h : wp T C p Q s)
    (imp : ∀ a t, C t → Q a t → Q' a t) : wp T C p Q' s := by
  induction p generalizing s with
  | ret a => exact ⟨h.1,imp a s h.1 h.2⟩
  | ask e k ih => exact ⟨h.1,fun r s' step => ih r (h.2 r s' step)⟩

theorem wpWeaken {C' : S → Prop} {p : Prog E R α} {Q Q' : α → S → Prop} {s : S} (h : wp T C p Q s)
    (onTheWay : ∀ t, C t → C' t) (imp : ∀ a t, C t → Q a t → Q' a t) : wp T C' p Q' s := by
  induction p generalizing s with
  | ret a => exact ⟨onTheWay s h.1,imp a s h.1 h.2⟩
  | ask e k ih => exact ⟨onTheWay s h.1,fun r s' step => ih r (h.2 r s' step)⟩

theorem wpAnd {C' : S → Prop} {p : Prog E R α} {Q Q' : α → S → Prop} {s : S} (h : wp T C p Q s) (h' : wp T C' p Q' s) :
    wp T (fun t => C t ∧ C' t) p (fun a t => Q a t ∧ Q' a t) s := by
  induction p generalizing s with
  | ret a => exact ⟨⟨h.1,h'.1⟩,h.2,h'.2⟩
  | ask e k ih => exact ⟨⟨h.1,h'.1⟩,fun r s' step => ih r (h.2 r s' step) (h'.2 r s' step)⟩

/- What no effect undoes. -/
theorem wpStays (stays : ∀ e s r s', C s → T e s r s' → C s') {p : Prog E R α} {s : S} (now : C s) :
    wp T C p (fun _ t => C t) s := by
  induction p generalizing s with
  | ret a => exact ⟨now,now⟩
  | ask e k ih => exact ⟨now,fun r s' step => ih r (stays e s r s' now step)⟩

/- A run that is cut could have gone on to its end. -/
theorem wpAhead {ahead : S → S → Prop} (here : ∀ s, ahead s s) (onward : ∀ e s r s' t, T e s r s' → ahead s' t → ahead s t)
    (answers : ∀ e s, ∃ r s', T e s r s') {p : Prog E R α} {Q : α → S → Prop} {s : S} (h : wp T C p Q s) :
    wp T (fun u => ∃ a t, Q a t ∧ ahead u t) p Q s := by
  induction p generalizing s with
  | ret a => exact ⟨⟨a,s,h.2,here s⟩,h.2⟩
  | ask e k ih =>
    refine ⟨?_,fun r s' step => ih r (h.2 r s' step)⟩
    obtain ⟨r,s',step⟩ := answers e s
    obtain ⟨a,t,ended,later⟩ := wpNow (ih r (h.2 r s' step))
    exact ⟨a,t,ended,onward e s r s' t step later⟩

theorem wpBind {p : Prog E R α} {f : α → Prog E R β} {Q : β → S → Prop} {s : S}
    (h : wp T C p (fun a t => wp T C (f a) Q t) s) : wp T C (p.bind f) Q s := by
  induction p generalizing s with
  | ret a => exact h.2
  | ask e k ih => exact ⟨h.1,fun r s' step => ih r (h.2 r s' step)⟩

theorem execRun {answer : (e : E) → S → R e × S} (allowed : ∀ e s, T e s (answer e s).1 (answer e s).2)
    (p : Prog E R α) (s : S) : Exec T p s (p.run answer s).1 (p.run answer s).2 := by
  induction p generalizing s with
  | ret a => exact .ret a s
  | ask e k ih => exact .ask (allowed e s) (ih _ _)

end semantics

def Act (E : Type) (R : E → Type) (ε σ α : Type) : Type := σ → Prog E R (Except ε α × σ)

namespace Act
variable {E : Type} {R : E → Type} {ε σ τ α β S : Type}

instance : Monad (Act E R ε σ) where
  pure a := fun st => .ret (.ok a,st)
  bind p f := fun st => (p st).bind (fun out => match out.1 with
    | .ok a => f a out.2
    | .error e => .ret (.error e,out.2))

def fail (e : ε) : Act E R ε σ α := fun st => .ret (.error e,st)
def get : Act E R ε σ σ := fun st => .ret (.ok st,st)
def modify (f : σ → σ) : Act E R ε σ Unit := fun st => .ret (.ok (),f st)
def ask (e : E) : Act E R ε σ (R e) := fun st => .ask e (fun r => .ret (.ok r,st))
def attempt (p : Act E R ε σ α) : Act E R ε σ (Except ε α) :=
  fun st => (p st).bind (fun out => .ret (.ok out.1,out.2))

/- Run on a part of the state. -/
def within (look : σ → τ) (put : τ → σ → σ) (p : Act E R ε τ α) : Act E R ε σ α :=
  fun st => (p (look st)).bind (fun out => .ret (out.1,put out.2 st))

/- What holds after `p` for its result, its state and the environment's. -/
def ends (T : (e : E) → S → R e → S → Prop) (C : S → Prop) (p : Act E R ε σ α)
    (Q : Except ε α → σ → S → Prop) (st : σ) (s : S) : Prop :=
  wp T C (p st) (fun out t => Q out.1 out.2 t) s

variable {T : (e : E) → S → R e → S → Prop} {C : S → Prop} {st : σ} {s : S}

theorem endsGetBind {f : σ → Act E R ε σ β} {Q : Except ε β → σ → S → Prop} :
    ends T C (get >>= f) Q st s ↔ ends T C (f st) Q st s := Iff.rfl

theorem endsModifyBind {g : σ → σ} {f : Unit → Act E R ε σ β} {Q : Except ε β → σ → S → Prop} :
    ends T C (modify g >>= f) Q st s ↔ ends T C (f ()) Q (g st) s := Iff.rfl

theorem endsPureBind {a : α} {f : α → Act E R ε σ β} {Q : Except ε β → σ → S → Prop} :
    ends T C (pure a >>= f) Q st s ↔ ends T C (f a) Q st s := Iff.rfl

theorem endsAsk {e : E} {Q : Except ε (R e) → σ → S → Prop} :
    ends T C (ask e : Act E R ε σ (R e)) Q st s ↔
      C s ∧ ∀ r s', T e s r s' → C s' ∧ Q (.ok r) st s' := Iff.rfl

theorem endsExec {p : Act E R ε σ α} {Q : Except ε α → σ → S → Prop} {r : Except ε α} {st' : σ} {t : S}
    (h : ends T C p Q st s) (run : Exec T (p st) s (r,st') t) : Q r st' t :=
  wpExec (p := p st) (Q := fun out t => Q out.1 out.2 t) (a := (r,st')) h run

theorem endsCut {p : Act E R ε σ α} {Q : Except ε α → σ → S → Prop} {t : S} (h : ends T C p Q st s)
    (cut : Cut T (p st) s t) : C t := wpCut h cut

/- What a program leaves to the one that follows it. -/
def onward (T : (e : E) → S → R e → S → Prop) (C : S → Prop) (f : α → Act E R ε σ β)
    (Q : Except ε β → σ → S → Prop) : Except ε α → σ → S → Prop
  | .ok a, st, s => ends T C (f a) Q st s
  | .error e, st, s => Q (.error e) st s

theorem endsMono {p : Act E R ε σ α} {Q Q' : Except ε α → σ → S → Prop} (h : ends T C p Q st s)
    (imp : ∀ r st s, C s → Q r st s → Q' r st s) : ends T C p Q' st s :=
  wpMono h (fun out t => imp out.1 out.2 t)

theorem endsAnd {C' : S → Prop} {p : Act E R ε σ α} {Q Q' : Except ε α → σ → S → Prop} (h : ends T C p Q st s)
    (h' : ends T C' p Q' st s) : ends T (fun t => C t ∧ C' t) p (fun r st t => Q r st t ∧ Q' r st t) st s := wpAnd h h'

theorem endsWeaken {C' : S → Prop} {p : Act E R ε σ α} {Q Q' : Except ε α → σ → S → Prop} (h : ends T C p Q st s)
    (onTheWay : ∀ t, C t → C' t) (imp : ∀ r st t, C t → Q r st t → Q' r st t) : ends T C' p Q' st s :=
  wpWeaken h onTheWay (fun out t => imp out.1 out.2 t)

theorem endsStays (stays : ∀ e s r s', C s → T e s r s' → C s') {p : Act E R ε σ α} (now : C s) :
    ends T C p (fun _ _ t => C t) st s := wpStays stays now

theorem endsAhead {ahead : S → S → Prop} (here : ∀ s, ahead s s) (onward : ∀ e s r s' t, T e s r s' → ahead s' t → ahead s t)
    (answers : ∀ e s, ∃ r s', T e s r s') {p : Act E R ε σ α} {Q : Except ε α → σ → S → Prop} (h : ends T C p Q st s) :
    ends T (fun u => ∃ r st t, Q r st t ∧ ahead u t) p Q st s := by
  refine wpWeaken (wpAhead here onward answers h) (fun u reached => ?_) (fun _ _ _ done => done)
  obtain ⟨a,t,both⟩ := reached
  exact ⟨a.1,a.2,t,both⟩

theorem endsBind {p : Act E R ε σ α} {f : α → Act E R ε σ β} {Q : Except ε β → σ → S → Prop}
    (h : ends T C p (onward T C f Q) st s) : ends T C (p >>= f) Q st s := by
  refine wpBind (wpMono h (fun out t ok next => ?_))
  obtain ⟨r,st'⟩ := out
  cases r with
  | ok a => exact next
  | error e => exact ⟨ok,next⟩

theorem endsAttempt {p : Act E R ε σ α} {Q : Except ε (Except ε α) → σ → S → Prop}
    (h : ends T C p (fun r st s => Q (.ok r) st s) st s) : ends T C (attempt p) Q st s :=
  wpBind (wpMono h (fun _ _ ok next => ⟨ok,next⟩))

theorem endsWithin {look : σ → τ} {put : τ → σ → σ} {p : Act E R ε τ α} {Q : Except ε α → σ → S → Prop}
    (h : ends T C p (fun r part s => Q r (put part st) s) (look st) s) :
    ends T C (within look put p) Q st s :=
  wpBind (wpMono h (fun _ _ ok next => ⟨ok,next⟩))

end Act
end Effects
