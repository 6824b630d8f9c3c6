import Mathlib.Logic.Basic

/-! Programs that talk to their surroundings through calls. A program is the tree of its calls: at
each node it asks one request and continues with whatever answer comes back. A failed assertion is a
leaf of its own, and so is a loop that ran out of the fuel it was unfolded with. Nothing here fixes
what a call does: that is said later, by a contract or by a shared state. -/

/-- A program whose requests are `Call`, answered in `Res`. -/
inductive Prog (Call : Type) (Res : Call → Type) (α : Type) where
  | ret (value : α)
  | call (request : Call) (next : Res request → Prog Call Res α)
  | abort
  | stuck

namespace Prog

variable {Call : Type} {Res : Call → Type} {α β γ : Type}

protected def bind : Prog Call Res α → (α → Prog Call Res β) → Prog Call Res β
  | ret value, f => f value
  | call request next, f => call request fun answer => (next answer).bind f
  | abort, _ => abort
  | stuck, _ => stuck

instance : Monad (Prog Call Res) where
  pure := ret
  bind := Prog.bind

@[simp] theorem pure_eq (value : α) : (pure value : Prog Call Res α) = ret value := rfl

@[simp] theorem ret_bind (value : α) (f : α → Prog Call Res β) : (ret value >>= f) = f value := rfl

@[simp] theorem call_bind (request : Call) (next : Res request → Prog Call Res α)
    (f : α → Prog Call Res β) :
    (call request next >>= f) = call request fun answer => next answer >>= f := rfl

@[simp] theorem abort_bind (f : α → Prog Call Res β) : ((abort : Prog Call Res α) >>= f) = abort := rfl

theorem bind_assoc (p : Prog Call Res α) (f : α → Prog Call Res β) (g : β → Prog Call Res γ) :
    ((p >>= f) >>= g) = (p >>= fun value => f value >>= g) := by
  induction p with
  | ret value => rfl
  | call request next ih => exact congrArg (call request) (funext ih)
  | abort => rfl
  | stuck => rfl

/-- Asks one request and returns its answer. -/
def ask (request : Call) : Prog Call Res (Res request) := call request ret

@[simp] theorem ask_bind (request : Call) (f : Res request → Prog Call Res β) :
    (ask request >>= f) = call request f := rfl

/-- An assertion of the source: the program goes on only if the condition holds. -/
def require (condition : Bool) : Prog Call Res Unit := if condition then ret () else abort

@[simp] theorem require_true : (require true : Prog Call Res Unit) = ret () := rfl

@[simp] theorem require_false : (require false : Prog Call Res Unit) = abort := rfl

/-- The program with each request asked through `f`, which answers it alike. -/
def embed {Call' : Type} {Res' : Call' → Type} (f : Call → Call') :
    Prog Call (fun request => Res' (f request)) α → Prog Call' Res' α
  | ret value => ret value
  | call request next => call (f request) fun answer => (next answer).embed f
  | abort => abort
  | stuck => stuck

/-- The program with each request carried out by a program of finer calls. -/
def interp {Call' : Type} {Res' : Call' → Type} (f : (request : Call) → Prog Call' Res' (Res request)) :
    Prog Call Res α → Prog Call' Res' α
  | ret value => ret value
  | call request next => f request >>= fun answer => (next answer).interp f
  | abort => abort
  | stuck => stuck

/-! ### Runs

A trace lists the requests of a run with their answers. -/

abbrev Trace (Call : Type) (Res : Call → Type) := List (Σ request : Call, Res request)

/-- `Runs p trace q`: after the answers of `trace`, the program `p` has become `q`. -/
inductive Runs : Prog Call Res α → Trace Call Res → Prog Call Res α → Prop where
  | nil (p : Prog Call Res α) : Runs p [] p
  | cons {request : Call} {next : Res request → Prog Call Res α} {answer : Res request}
      {trace : Trace Call Res} {q : Prog Call Res α} (tail : Runs (next answer) trace q) :
      Runs (call request next) (⟨request, answer⟩ :: trace) q

theorem Runs.append {p q r : Prog Call Res α} {first second : Trace Call Res}
    (hfirst : Runs p first q) (hsecond : Runs q second r) : Runs p (first ++ second) r := by
  induction hfirst with
  | nil p => exact hsecond
  | cons tail ih => exact Runs.cons (ih hsecond)

theorem Runs.split {p r : Prog Call Res α} {first second : Trace Call Res}
    (h : Runs p (first ++ second) r) : ∃ q, Runs p first q ∧ Runs q second r := by
  induction first generalizing p with
  | nil => exact ⟨p, Runs.nil p, h⟩
  | cons entry first ih =>
    cases h with
    | cons tail =>
      obtain ⟨q, hfirst, hsecond⟩ := ih tail
      exact ⟨q, Runs.cons hfirst, hsecond⟩

theorem Runs.of_ask_bind {request : Call} {f : Res request → Prog Call Res β}
    {trace : Trace Call Res} {value : β} (h : Runs (ask request >>= f) trace (ret value)) :
    ∃ answer tail, trace = ⟨request, answer⟩ :: tail ∧ Runs (f answer) tail (ret value) := by
  cases h with
  | cons tail => exact ⟨_, _, rfl, tail⟩

theorem Runs.of_require_bind {condition : Bool} {f : Unit → Prog Call Res β} {trace : Trace Call Res} {value : β}
    (h : Runs (require condition >>= f) trace (ret value)) : condition = true ∧ Runs (f ()) trace (ret value) := by
  cases condition with
  | false => cases h
  | true => exact ⟨rfl, h⟩

/-- A run of a sequence is a run of its first part, then one of the rest. -/
theorem Runs.of_bind {p : Prog Call Res α} {f : α → Prog Call Res β} {trace : Trace Call Res}
    {value : β} (h : Runs (p >>= f) trace (ret value)) :
    ∃ first second result, trace = first ++ second ∧ Runs p first (ret result) ∧
      Runs (f result) second (ret value) := by
  induction p generalizing trace with
  | ret result => exact ⟨[], trace, result, rfl, Runs.nil _, h⟩
  | call request next ih =>
    cases h with
    | cons tail =>
      obtain ⟨first, second, result, rfl, hfirst, hsecond⟩ := ih _ tail
      exact ⟨_ :: first, second, result, rfl, Runs.cons hfirst, hsecond⟩
  | abort => cases h
  | stuck => cases h

/-- Plays a program against a policy that answers each request and remembers a state, for at most
`rounds` requests. -/
def play {State : Type} (policy : State → (request : Call) → Res request × State) :
    Nat → State → Prog Call Res α → Trace Call Res × Prog Call Res α
  | 0, _, p => ([], p)
  | rounds + 1, state, call request next =>
    let answer := policy state request
    let rest := play policy rounds answer.2 (next answer.1)
    (⟨request, answer.1⟩ :: rest.1, rest.2)
  | _ + 1, _, p => ([], p)

theorem runs_play {State : Type} (policy : State → (request : Call) → Res request × State)
    (rounds : Nat) (state : State) (p : Prog Call Res α) :
    Runs p (play policy rounds state p).1 (play policy rounds state p).2 := by
  induction rounds generalizing state p with
  | zero => exact Runs.nil p
  | succ rounds ih =>
    cases p with
    | call request next => exact Runs.cons (ih _ _)
    | ret value => exact Runs.nil _
    | abort => exact Runs.nil _
    | stuck => exact Runs.nil _

/-! ### Frames

`p.Within S Q`: whatever the answers are, every request of `p` is in `S` and every value it returns
is in `Q`. -/

def Within (S : Call → Prop) : Prog Call Res α → (α → Prop) → Prop
  | ret value, Q => Q value
  | call request next, Q => S request ∧ ∀ answer, (next answer).Within S Q
  | abort, _ => True
  | stuck, _ => True

variable {S : Call → Prop}

theorem within_ret {value : α} {Q : α → Prop} (h : Q value) :
    (ret value : Prog Call Res α).Within S Q := h

theorem within_ask {request : Call} {Q : Res request → Prop} (hrequest : S request)
    (h : ∀ answer, Q answer) : (ask request : Prog Call Res _).Within S Q := ⟨hrequest, h⟩

theorem Within.bind {p : Prog Call Res α} {f : α → Prog Call Res β} {Q : α → Prop} {R : β → Prop}
    (hp : p.Within S Q) (hf : ∀ value, Q value → (f value).Within S R) : (p >>= f).Within S R := by
  induction p with
  | ret value => exact hf value hp
  | call request next ih => exact ⟨hp.1, fun answer => ih answer (hp.2 answer)⟩
  | abort => trivial
  | stuck => trivial

theorem within_ask_bind {request : Call} {f : Res request → Prog Call Res β} {R : β → Prop}
    (hrequest : S request) (hf : ∀ answer, (f answer).Within S R) :
    (ask request >>= f).Within S R := ⟨hrequest, hf⟩

theorem within_require_bind {condition : Bool} {f : Unit → Prog Call Res β} {R : β → Prop}
    (hf : condition = true → (f ()).Within S R) : (require condition >>= f).Within S R := by
  cases condition with
  | false => trivial
  | true => exact hf rfl

theorem Within.mono {S' : Call → Prop} {p : Prog Call Res α} {Q R : α → Prop} (h : p.Within S Q)
    (hrequest : ∀ request, S request → S' request) (hvalue : ∀ value, Q value → R value) :
    p.Within S' R := by
  induction p with
  | ret value => exact hvalue value h
  | call request next ih => exact ⟨hrequest _ h.1, fun answer => ih answer (h.2 answer)⟩
  | abort => trivial
  | stuck => trivial

theorem within_of_forall (h : ∀ request, S request) (p : Prog Call Res α) :
    p.Within S fun _ => True := by
  induction p with
  | ret value => trivial
  | call request next ih => exact ⟨h request, ih⟩
  | abort => trivial
  | stuck => trivial

theorem Within.imp {p : Prog Call Res α} {Q R : α → Prop} (h : p.Within S Q)
    (hvalue : ∀ value, Q value → R value) : p.Within S R :=
  h.mono (fun _ => id) hvalue

theorem Within.and {p : Prog Call Res α} {Q R : α → Prop} {S' : Call → Prop} (h : p.Within S Q)
    (h' : p.Within S' R) : p.Within S fun value => Q value ∧ R value := by
  induction p with
  | ret value => exact ⟨h, h'⟩
  | call request next ih => exact ⟨h.1, fun answer => ih answer (h.2 answer) (h'.2 answer)⟩
  | abort => trivial
  | stuck => trivial

theorem within_embed {Call' : Type} {Res' : Call' → Type} {S' : Call' → Prop} {f : Call → Call'}
    {p : Prog Call (fun request => Res' (f request)) α} {Q : α → Prop}
    (h : p.Within (fun request => S' (f request)) Q) : (p.embed f).Within S' Q := by
  induction p with
  | ret value => exact h
  | call request next ih => exact ⟨h.1, fun answer => ih answer (h.2 answer)⟩
  | abort => trivial
  | stuck => trivial

theorem Within.interp {Call' : Type} {Res' : Call' → Type} {S' : Call' → Prop}
    {f : (request : Call) → Prog Call' Res' (Res request)} {p : Prog Call Res α} {Q : α → Prop}
    (h : p.Within S Q) (hf : ∀ request, S request → (f request).Within S' fun _ => True) :
    (p.interp f).Within S' Q := by
  induction p with
  | ret value => exact h
  | call request next ih => exact (hf request h.1).bind fun answer _ => ih answer (h.2 answer)
  | abort => trivial
  | stuck => trivial

/-- What holds of every value holds of the value of a run. -/
theorem Within.value_of_runs {p : Prog Call Res α} {trace : Trace Call Res} {Q : α → Prop} {value : α}
    (h : p.Within S Q) (hrun : Runs p trace (ret value)) : Q value := by
  generalize hret : ret value = q at hrun
  induction hrun with
  | nil p =>
    subst hret
    exact h
  | cons _ ih => exact ih (h.2 _) hret

/-- **Every request of a run is in the frame of the program.** -/
theorem Within.of_runs {p q : Prog Call Res α} {trace : Trace Call Res} {Q : α → Prop}
    (h : p.Within S Q) (hrun : Runs p trace q) : ∀ entry ∈ trace, S entry.1 := by
  induction hrun with
  | nil p => exact fun _ hentry => absurd hentry List.not_mem_nil
  | cons tail ih => exact List.forall_mem_cons.mpr ⟨h.1, ih (h.2 _)⟩

/-- `p.Sure S Q`: a frame of a program no assertion of which fails. -/
def Sure (S : Call → Prop) : Prog Call Res α → (α → Prop) → Prop
  | ret value, Q => Q value
  | call request next, Q => S request ∧ ∀ answer, (next answer).Sure S Q
  | abort, _ => False
  | stuck, _ => True

theorem sure_ret {value : α} {Q : α → Prop} (h : Q value) : (ret value : Prog Call Res α).Sure S Q := h

theorem Sure.bind {p : Prog Call Res α} {f : α → Prog Call Res β} {Q : α → Prop} {R : β → Prop}
    (hp : p.Sure S Q) (hf : ∀ value, Q value → (f value).Sure S R) : (p >>= f).Sure S R := by
  induction p with
  | ret value => exact hf value hp
  | call request next ih => exact ⟨hp.1, fun answer => ih answer (hp.2 answer)⟩
  | abort => exact hp.elim
  | stuck => trivial

theorem sure_ask_bind {request : Call} {f : Res request → Prog Call Res β} {R : β → Prop}
    (hrequest : S request) (hf : ∀ answer, (f answer).Sure S R) : (ask request >>= f).Sure S R :=
  ⟨hrequest, hf⟩

theorem sure_require_bind {condition : Bool} {f : Unit → Prog Call Res β} {R : β → Prop} (h : condition = true)
    (hf : (f ()).Sure S R) : (require condition >>= f).Sure S R := by
  subst h
  exact hf

theorem Sure.within {p : Prog Call Res α} {Q : α → Prop} (h : p.Sure S Q) : p.Within S Q := by
  induction p with
  | ret value => exact h
  | call request next ih => exact ⟨h.1, fun answer => ih answer (h.2 answer)⟩
  | abort => trivial
  | stuck => trivial

theorem Sure.imp {p : Prog Call Res α} {Q R : α → Prop} (h : p.Sure S Q) (hvalue : ∀ value, Q value → R value) :
    p.Sure S R := by
  induction p with
  | ret value => exact hvalue value h
  | call request next ih => exact ⟨h.1, fun answer => ih answer (h.2 answer)⟩
  | abort => exact h.elim
  | stuck => trivial

/-- No run of such a program ends with a failed assertion. -/
theorem Sure.not_runs_abort {p : Prog Call Res α} {Q : α → Prop} (h : p.Sure S Q) (trace : Trace Call Res) :
    ¬ Runs p trace abort := by
  intro hruns
  generalize habort : (abort : Prog Call Res α) = q at hruns
  induction hruns with
  | nil p =>
    subst habort
    exact h
  | cons _ ih => exact ih (h.2 _) habort

/-! ### Fuel

`Lasts n p`: the program does not run out of fuel before its `n`-th answer. -/

def Lasts : Nat → Prog Call Res α → Prop
  | 0, _ => True
  | _ + 1, ret _ => True
  | n + 1, call _ next => ∀ answer, Lasts n (next answer)
  | _ + 1, abort => True
  | _ + 1, stuck => False

theorem lasts_ret (n : Nat) (value : α) : Lasts n (ret value : Prog Call Res α) := by
  cases n <;> trivial

theorem lasts_abort (n : Nat) : Lasts n (abort : Prog Call Res α) := by
  cases n <;> trivial

theorem Lasts.pred {n : Nat} {p : Prog Call Res α} (h : Lasts (n + 1) p) : Lasts n p := by
  induction n generalizing p with
  | zero => trivial
  | succ n ih =>
    cases p with
    | ret value => trivial
    | call request next => exact fun answer => ih (h answer)
    | abort => trivial
    | stuck => exact h

theorem Lasts.le {m n : Nat} {p : Prog Call Res α} (h : Lasts n p) (hle : m ≤ n) : Lasts m p := by
  induction hle with
  | refl => exact h
  | step _ ih => exact ih h.pred

theorem lasts_bind {n : Nat} {p : Prog Call Res α} {f : α → Prog Call Res β} (hp : Lasts n p)
    (hf : ∀ value, Lasts n (f value)) : Lasts n (p >>= f) := by
  induction n generalizing p with
  | zero => trivial
  | succ n ih =>
    cases p with
    | ret value => exact hf value
    | call request next => exact fun answer => ih (hp answer) (fun value => (hf value).pred)
    | abort => trivial
    | stuck => exact hp.elim

/-- What follows a part needs to last only as long as the part did not. -/
theorem lasts_bind_runs {n : Nat} {p : Prog Call Res α} {f : α → Prog Call Res β} (hp : Lasts n p)
    (hf : ∀ trace value, Runs p trace (ret value) → Lasts (n - trace.length) (f value)) : Lasts n (p >>= f) := by
  induction n generalizing p with
  | zero => trivial
  | succ n ih =>
    cases p with
    | ret value => exact hf [] value (Runs.nil _)
    | call request next =>
      intro answer
      refine ih (hp answer) fun trace value hruns => ?_
      have hrest := hf (⟨request, answer⟩ :: trace) value (Runs.cons hruns)
      rwa [List.length_cons, Nat.add_sub_add_right] at hrest
    | abort => trivial
    | stuck => exact hp.elim

theorem lasts_ask_bind {n : Nat} {request : Call} {f : Res request → Prog Call Res β}
    (hf : ∀ answer, Lasts (n - 1) (f answer)) : Lasts n (ask request >>= f) := by
  cases n with
  | zero => trivial
  | succ n => exact hf

theorem lasts_require_bind {n : Nat} {condition : Bool} {f : Unit → Prog Call Res β}
    (hf : Lasts n (f ())) : Lasts n (require condition >>= f) := by
  cases condition with
  | false => exact lasts_abort n
  | true => exact hf

theorem lasts_embed {Call' : Type} {Res' : Call' → Type} {f : Call → Call'} {n : Nat}
    {p : Prog Call (fun request => Res' (f request)) α} (h : Lasts n p) : Lasts n (p.embed f) := by
  induction n generalizing p with
  | zero => trivial
  | succ n ih =>
    cases p with
    | ret value => trivial
    | call request next => exact fun answer => ih (h answer)
    | abort => trivial
    | stuck => exact h.elim

theorem Lasts.length_lt {n : Nat} {p : Prog Call Res α} {trace : Trace Call Res} (h : Lasts n p)
    (hrun : Runs p trace stuck) : n ≤ trace.length := by
  induction n generalizing p trace with
  | zero => exact Nat.zero_le _
  | succ n ih =>
    cases hrun with
    | nil => exact h.elim
    | cons tail => exact Nat.succ_le_succ (ih (h _) tail)

end Prog
