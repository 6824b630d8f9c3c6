import Cmogstored.Prog

/-! Reference machines. Such a machine says what a program is to ask in each of its states and how an
answer moves it on; it asks one request at a time and leaves nothing else open. Two histories that
follow one machine can therefore part only where a request was answered differently. -/

namespace Reference

open Prog

variable {Call : Type} {Res : Call → Type} {σ : Type}

/-- What is asked next, and where each answer leads. -/
abbrev Machine (Call : Type) (Res : Call → Type) (σ : Type) :=
  σ → Option (Σ request : Call, (Res request → σ))

variable {step : Machine Call Res σ}

def Asks (step : Machine Call Res σ) (state : σ) (request : Call) : Prop :=
  ∃ next, step state = some ⟨request, next⟩

/-- The state behind an answer; an answer to something else changes nothing. -/
def feed [DecidableEq Call] (step : Machine Call Res σ) (state : σ) (request : Call)
    (answer : Res request) : σ :=
  match step state with
  | some ⟨asked, next⟩ => if h : asked = request then next (h ▸ answer) else state
  | none => state

theorem feed_eq [DecidableEq Call] {state : σ} {request : Call} {next : Res request → σ}
    (h : step state = some ⟨request, next⟩) (answer : Res request) :
    feed step state request answer = next answer := by
  rw [feed, h]
  exact dif_pos rfl

/-- The requests of the history are those of the machine, which it leads to `final`. -/
inductive Follows (step : Machine Call Res σ) : σ → Trace Call Res → σ → Prop where
  | nil (state : σ) : Follows step state [] state
  | cons {state final : σ} {request : Call} {next : Res request → σ} {answer : Res request}
      {trace : Trace Call Res} (hstep : step state = some ⟨request, next⟩)
      (tail : Follows step (next answer) trace final) :
      Follows step state (⟨request, answer⟩ :: trace) final

/-- Some request of both histories was answered differently. -/
def Differ (first second : Trace Call Res) : Prop :=
  ∃ before request, ∃ a b : Res request, ∃ tail tail', a ≠ b ∧
    first = before ++ ⟨request, a⟩ :: tail ∧ second = before ++ ⟨request, b⟩ :: tail'

theorem Differ.cons {first second : Trace Call Res} (entry : Σ request : Call, Res request)
    (h : Differ first second) : Differ (entry :: first) (entry :: second) := by
  obtain ⟨before, request, a, b, tail, tail', hne, rfl, rfl⟩ := h
  exact ⟨entry :: before, request, a, b, tail, tail', hne, rfl, rfl⟩

theorem not_differ_self (trace : Trace Call Res) : ¬ Differ trace trace := by
  rintro ⟨before, request, a, b, tail, tail', hne, hfirst, hsecond⟩
  have htails := List.append_cancel_left (hfirst.symm.trans hsecond)
  cases (List.cons.inj htails).1
  exact hne rfl

/-- **A machine leaves the answers open and nothing else.** -/
theorem Follows.agree {state final final' : σ} {first second : Trace Call Res}
    (h : Follows step state first final) (h' : Follows step state second final') :
    first <+: second ∨ second <+: first ∨ Differ first second := by
  induction h generalizing second with
  | nil state => exact Or.inl List.nil_prefix
  | @cons state _ request next answer trace hstep tail ih =>
    cases h' with
    | nil => exact Or.inr (Or.inl List.nil_prefix)
    | @cons _ _ _ _ answer' trace' hstep' tail' =>
      cases hstep.symm.trans hstep'
      by_cases hanswer : answer = answer'
      · subst hanswer
        rcases ih tail' with h | h | h
        · exact Or.inl ((List.prefix_cons_inj _).mpr h)
        · exact Or.inr (Or.inl ((List.prefix_cons_inj _).mpr h))
        · exact Or.inr (Or.inr (h.cons _))
      · exact Or.inr (Or.inr ⟨[], request, answer, answer', trace, trace', hanswer, rfl, rfl⟩)

/-- What follows a part of a history follows the state it leads to. -/
theorem Follows.rest {state middle final : σ} {first second : Trace Call Res}
    (h : Follows step state first middle) (h' : Follows step state (first ++ second) final) :
    Follows step middle second final := by
  induction h with
  | nil state => exact h'
  | cons hstep tail ih =>
    cases h' with
    | cons hstep' tail' =>
      cases hstep.symm.trans hstep'
      exact ih tail'

end Reference
