import Cmogstored.Interleave

/-! The ends of a program in a world. A program is run by one thread alone; the calls it has made are kept, so
that what is said of an end may speak of what was asked and answered on the way. -/

namespace Prog

variable {Tid World Call : Type} {Res : Call → Type} {α β : Type}

/-- No call is left. -/
def Ended : Prog Call Res α → Prop
  | call _ _ => False
  | _ => True

theorem Runs.ask_bind {request : Call} {answer : Res request} {f : Res request → Prog Call Res β}
    {trace : Trace Call Res} {q : Prog Call Res β} (h : Runs (f answer) trace q) :
    Runs (ask request >>= f) (⟨request, answer⟩ :: trace) q := Runs.cons h

theorem Runs.bind {p q : Prog Call Res α} {trace : Trace Call Res} (h : Runs p trace q) (f : α → Prog Call Res β) :
    Runs (p >>= f) trace (q >>= f) := by
  induction h with
  | nil p => exact Runs.nil _
  | cons tail ih => exact Runs.cons ih

/-- `p.Ends handles thread Q world`: however the world answers, `Q` holds of the calls made, the world left
behind and the end. -/
def Ends (handles : Handler Tid World Call Res) (thread : Tid) :
    Prog Call Res α → (Trace Call Res → World → Prog Call Res α → Prop) → World → Prop
  | call request next, Q, world => ∀ answer world', handles world thread request answer world' →
      (next answer).Ends handles thread (fun trace => Q (⟨request, answer⟩ :: trace)) world'
  | p, Q, world => Q [] world p

variable {handles : Handler Tid World Call Res} {thread : Tid}

theorem ends_ret {value : α} {Q : Trace Call Res → World → Prog Call Res α → Prop} {world : World}
    (h : Q [] world (ret value)) : (ret value).Ends handles thread Q world := h

/-- The calls made so far are kept on the left. -/
theorem ends_ask_seen {request : Call} {f : Res request → Prog Call Res β}
    {Q : Trace Call Res → World → Prog Call Res β → Prop} {world : World} {seen : Trace Call Res}
    (h : ∀ answer world', handles world thread request answer world' →
      (f answer).Ends handles thread (fun trace => Q (seen ++ [⟨request, answer⟩] ++ trace)) world') :
    (ask request >>= f).Ends handles thread (fun trace => Q (seen ++ trace)) world := by
  intro answer world' hhandles
  have hrest := h answer world' hhandles
  simp only [List.append_assoc, List.singleton_append] at hrest
  exact hrest

theorem ends_require_bind {condition : Bool} {f : Unit → Prog Call Res β}
    {Q : Trace Call Res → World → Prog Call Res β → Prop} {world : World}
    (hfalse : condition = false → Q [] world abort)
    (htrue : condition = true → (f ()).Ends handles thread Q world) :
    (require condition >>= f).Ends handles thread Q world := by
  cases condition with
  | false => exact hfalse rfl
  | true => exact htrue rfl

/-- **What holds of every end holds of the end of a run.** -/
theorem Ends.of_runs {p q : Prog Call Res α} {Q : Trace Call Res → World → Prog Call Res α → Prop}
    {world world' : World} {trace : Trace Call Res} (h : p.Ends handles thread Q world) (hruns : Runs p trace q)
    (hended : q.Ended) (hhandled : Handled handles thread world trace world') : Q trace world' q := by
  induction hhandled generalizing p Q with
  | nil world =>
    cases hruns
    cases q with
    | call request next => exact hended.elim
    | ret value => exact h
    | abort => exact h
    | stuck => exact h
  | cons hhandles _ ih =>
    cases hruns with
    | cons hrest => exact ih (h _ _ hhandles) hrest

/-! ### A run that gets to its end -/

/-- `p.May handles thread Q world`: the world can answer such that `p` returns in `Q`. -/
def May (handles : Handler Tid World Call Res) (thread : Tid) (p : Prog Call Res α) (Q : α → World → Prop)
    (world : World) : Prop :=
  ∃ trace value world', Runs p trace (ret value) ∧ Handled handles thread world trace world' ∧ Q value world'

theorem may_ret {value : α} {Q : α → World → Prop} {world : World} (h : Q value world) :
    (ret value).May handles thread Q world := ⟨[], value, world, .nil _, .nil _, h⟩

theorem may_ask_bind {request : Call} {f : Res request → Prog Call Res β} {Q : β → World → Prop} {world world' : World}
    (answer : Res request) (hhandles : handles world thread request answer world')
    (h : (f answer).May handles thread Q world') : (ask request >>= f).May handles thread Q world := by
  obtain ⟨trace, value, world'', hruns, hhandled, hQ⟩ := h
  exact ⟨_, value, world'', hruns.ask_bind, .cons hhandles hhandled, hQ⟩

theorem May.bind {p : Prog Call Res α} {f : α → Prog Call Res β} {P : α → World → Prop} {Q : β → World → Prop}
    {world : World} (h : p.May handles thread P world)
    (hrest : ∀ value world', P value world' → (f value).May handles thread Q world') :
    (p >>= f).May handles thread Q world := by
  obtain ⟨trace, first, world', hruns, hhandled, hP⟩ := h
  induction hhandled generalizing p with
  | nil world =>
    cases hruns
    exact hrest first _ hP
  | cons hhandles _ ih =>
    cases hruns with
    | cons htail =>
      obtain ⟨rest, value, world'', hruns, hhandled, hQ⟩ := ih htail hP
      exact ⟨_, value, world'', .cons hruns, .cons hhandles hhandled, hQ⟩

end Prog
