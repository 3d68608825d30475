import Mathlib.Data.List.Basic

/-! Sequences of steps, up to the order of those that do not depend on one another. -/
namespace Traces
variable {α σ : Type}

/- Neighbors that are free of one another change places. -/
inductive Swaps (free : α → α → Prop) : List α → List α → Prop where
  | nil : Swaps free [] []
  | cons (x : α) {xs ys : List α} (rest : Swaps free xs ys) : Swaps free (x::xs) (x::ys)
  | swap {x y : α} (apart : free x y) (zs : List α) : Swaps free (x::y::zs) (y::x::zs)
  | trans {xs ys zs : List α} (first : Swaps free xs ys) (next : Swaps free ys zs) : Swaps free xs zs

namespace Swaps
variable {free : α → α → Prop} {xs ys : List α}

theorem refl (xs : List α) : Swaps free xs xs := by
  induction xs with
  | nil => exact .nil
  | cons x xs ih => exact .cons x ih

theorem perm (swaps : Swaps free xs ys) : xs.Perm ys := by
  induction swaps with
  | nil => exact .nil
  | cons x rest ih => exact .cons x ih
  | swap apart zs => exact .swap _ _ zs
  | trans first next ih ih' => exact ih.trans ih'

theorem symm (both : ∀ {x y}, free x y → free y x) (swaps : Swaps free xs ys) : Swaps free ys xs := by
  induction swaps with
  | nil => exact .nil
  | cons x rest ih => exact .cons x ih
  | swap apart zs => exact .swap (both apart) zs
  | trans first next ih ih' => exact ih'.trans ih

theorem past {x : α} (apart : ∀ y ∈ ys, free x y) (zs : List α) : Swaps free (x::(ys ++ zs)) (ys ++ x::zs) := by
  induction ys with
  | nil => exact .refl _
  | cons y ys ih =>
    have rest := ih (fun y member => apart y (List.mem_cons_of_mem _ member))
    exact .trans (.swap (apart y List.mem_cons_self) _) (.cons y rest)

/- Each step of one sequence is free of each step of the other. -/
theorem commute (apart : ∀ x ∈ xs, ∀ y ∈ ys, free x y) : Swaps free (xs ++ ys) (ys ++ xs) := by
  induction xs with
  | nil =>
    rw [List.nil_append,List.append_nil]
    exact .refl _
  | cons x xs ih =>
    have rest := ih (fun x member => apart x (List.mem_cons_of_mem _ member))
    exact .trans (.cons x rest) (past (apart x List.mem_cons_self) xs)

end Swaps

inductive Run (step : σ → α → σ → Prop) : σ → List α → σ → Prop where
  | done (s : σ) : Run step s [] s
  | step {s next last : σ} {a : α} {rest : List α} (first : step s a next) (onward : Run step next rest last) : Run step s (a::rest) last

/- Up to `same`, what a state does it does whatever way it came about, and free steps commute. -/
structure Confluent (step : σ → α → σ → Prop) (same : σ → σ → Prop) (free : α → α → Prop) : Prop where
  refl : ∀ s, same s s
  trans : ∀ {s t u}, same s t → same t u → same s u
  follows : ∀ {s t s' a}, same s t → step s a s' → ∃ t', step t a t' ∧ same s' t'
  diamond : ∀ {s next last a b}, free a b → step s a next → step next b last → ∃ mid t, step s b mid ∧ step mid a t ∧ same last t

section runs
variable {step : σ → α → σ → Prop} {same : σ → σ → Prop} {free : α → α → Prop} {s t s' : σ} {xs ys : List α}

theorem Run.follows (c : Confluent step same free) (run : Run step s xs s') (alike : same s t) : ∃ t', Run step t xs t' ∧ same s' t' := by
  induction run generalizing t with
  | done s => exact ⟨t,.done t,alike⟩
  | step first onward ih =>
    obtain ⟨next,taken,alike⟩ := c.follows alike first
    obtain ⟨last,rest,ends⟩ := ih alike
    exact ⟨last,.step taken rest,ends⟩

theorem Run.swapped (c : Confluent step same free) (swaps : Swaps free xs ys) (run : Run step s xs s') :
    ∃ t, Run step s ys t ∧ same s' t := by
  induction swaps generalizing s s' with
  | nil => exact ⟨s',run,c.refl s'⟩
  | cons x rest ih =>
    obtain _ | ⟨first,onward⟩ := run
    obtain ⟨t,taken,ends⟩ := ih onward
    exact ⟨t,.step first taken,ends⟩
  | swap apart zs =>
    obtain _ | ⟨first,onward⟩ := run
    obtain _ | ⟨second,rest⟩ := onward
    obtain ⟨mid,last,earlier,later,alike⟩ := c.diamond apart first second
    obtain ⟨t,taken,ends⟩ := rest.follows c alike
    exact ⟨t,.step earlier (.step later taken),ends⟩
  | trans first next ih ih' =>
    obtain ⟨mid,reached,alike⟩ := ih run
    obtain ⟨t,taken,ends⟩ := ih' reached
    exact ⟨t,taken,c.trans alike ends⟩

end runs
end Traces
