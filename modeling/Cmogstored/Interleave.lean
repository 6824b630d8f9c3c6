import Mathlib.Logic.Function.Basic
import Mathlib.Logic.Relation
import Cmogstored.ProgWp

/-! Threads that share a world. Each thread is a program of calls; at any moment one of them makes its
next call, and the world says which answers it may get and what becomes of the world. Nothing is said
about who is next. -/

namespace Prog

variable {Tid World Call : Type} {Res : Call → Type} {Ghost α : Type}

/-- The world and what each thread has left to do. -/
structure Config (Tid World Call : Type) (Res : Call → Type) (α : Type) where
  world : World
  threads : Tid → Prog Call Res α

/-- What a call does: `handles world thread request answer world'`. -/
abbrev Handler (Tid World Call : Type) (Res : Call → Type) :=
  World → Tid → (request : Call) → Res request → World → Prop

variable [DecidableEq Tid] {handles : Handler Tid World Call Res}

/-- One call of one thread. -/
inductive Config.Step (handles : Handler Tid World Call Res) :
    Config Tid World Call Res α → Config Tid World Call Res α → Prop where
  | call {config : Config Tid World Call Res α} {thread : Tid} {request : Call}
      {next : Res request → Prog Call Res α} {answer : Res request} {world : World}
      (hthread : config.threads thread = .call request next)
      (hhandles : handles config.world thread request answer world) :
      Config.Step handles config
        { world := world, threads := Function.update config.threads thread (next answer) }

/-- Any number of calls of any threads. -/
abbrev Config.Reaches (handles : Handler Tid World Call Res) :
    Config Tid World Call Res α → Config Tid World Call Res α → Prop :=
  Relation.ReflTransGen (Config.Step handles)

/-- Each thread keeps its contract from its ghost state on, and the invariant holds of the world and all
ghost states. -/
structure Config.Safe (K : Contract Call Res Ghost) (Q : α → Ghost → Prop)
    (I : World → (Tid → Ghost) → Prop) (config : Config Tid World Call Res α) (ghosts : Tid → Ghost) :
    Prop where
  inv : I config.world ghosts
  keeps : ∀ thread, wp K (config.threads thread) Q (ghosts thread)

section Invariants

variable {K : Contract Call Res Ghost} {Q : α → Ghost → Prop} {I : World → (Tid → Ghost) → Prop}

/-- What has to be shown of a call: it gets an answer that the contract expects, and the invariant holds
again. -/
abbrev Keeps (handles : Handler Tid World Call Res) (K : Contract Call Res Ghost)
    (I : World → (Tid → Ghost) → Prop) : Prop :=
  ∀ world ghosts thread request answer world', I world ghosts → K.must (ghosts thread) request →
    handles world thread request answer world' → K.may (ghosts thread) request answer ∧
      I world' (Function.update ghosts thread (K.next (ghosts thread) request answer))

theorem Config.Safe.step (hkeeps : Keeps handles K I) {config config' : Config Tid World Call Res α}
    {ghosts : Tid → Ghost} (h : config.Safe K Q I ghosts) (hstep : Config.Step handles config config') :
    ∃ ghosts', config'.Safe K Q I ghosts' := by
  cases hstep with
  | @call thread request next answer world hthread hhandles =>
    have hwp := h.keeps thread
    rw [hthread] at hwp
    obtain ⟨hmay, hinv⟩ := hkeeps _ _ _ _ _ _ h.inv hwp.1 hhandles
    refine ⟨_, hinv, fun other => ?_⟩
    by_cases hother : other = thread
    · subst hother
      dsimp only
      rw [Function.update_self, Function.update_self]
      exact hwp.2 answer hmay
    · dsimp only
      rw [Function.update_of_ne hother, Function.update_of_ne hother]
      exact h.keeps other

/-- **What every call keeps holds in every state that the threads can reach.** -/
theorem Config.Safe.reaches (hkeeps : Keeps handles K I) {config config' : Config Tid World Call Res α}
    {ghosts : Tid → Ghost} (h : config.Safe K Q I ghosts) (hreaches : Config.Reaches handles config config') :
    ∃ ghosts', config'.Safe K Q I ghosts' := by
  induction hreaches with
  | refl => exact ⟨ghosts, h⟩
  | tail _ hstep ih =>
    obtain ⟨ghosts', hsafe⟩ := ih
    exact hsafe.step hkeeps hstep

omit [DecidableEq Tid] in
/-- The next call of a thread is one its contract permits. -/
theorem Config.Safe.must {config : Config Tid World Call Res α} {ghosts : Tid → Ghost} {thread : Tid}
    {request : Call} {next : Res request → Prog Call Res α} (h : config.Safe K Q I ghosts)
    (hthread : config.threads thread = .call request next) : K.must (ghosts thread) request := by
  have hwp := h.keeps thread
  rw [hthread] at hwp
  exact hwp.1

/-- Calls that the invariant makes calls of another handler reach what that handler reaches. -/
theorem Config.Safe.reaches_of (hkeeps : Keeps handles K I) {handles' : Handler Tid World Call Res}
    (himp : ∀ world ghosts thread request answer world', I world ghosts → K.must (ghosts thread) request →
      handles world thread request answer world' → handles' world thread request answer world')
    {config config' : Config Tid World Call Res α} {ghosts : Tid → Ghost} (h : config.Safe K Q I ghosts)
    (hreaches : Config.Reaches handles config config') : Config.Reaches handles' config config' := by
  induction hreaches with
  | refl => exact .refl
  | tail hbefore hstep ih =>
    obtain ⟨ghosts', hsafe⟩ := h.reaches hkeeps hbefore
    refine ih.tail ?_
    cases hstep with
    | call hthread hhandles => exact .call hthread (himp _ _ _ _ _ _ hsafe.inv (hsafe.must hthread) hhandles)

end Invariants

/-! ### Runs of one thread -/

/-- The world carries out a run of one thread. -/
inductive Handled (handles : Handler Tid World Call Res) (thread : Tid) : World → Trace Call Res → World → Prop where
  | nil (world : World) : Handled handles thread world [] world
  | cons {world world' world'' : World} {request : Call} {answer : Res request} {trace : Trace Call Res}
      (hhandles : handles world thread request answer world') (hrest : Handled handles thread world' trace world'') :
      Handled handles thread world (⟨request, answer⟩ :: trace) world''

omit [DecidableEq Tid] in
theorem Handled.append {thread : Tid} {world world' world'' : World} {first second : Trace Call Res}
    (hfirst : Handled handles thread world first world') (hsecond : Handled handles thread world' second world'') :
    Handled handles thread world (first ++ second) world'' := by
  induction hfirst with
  | nil _ => exact hsecond
  | cons hhandles _ ih => exact .cons hhandles (ih hsecond)

omit [DecidableEq Tid] in
theorem Handled.split {thread : Tid} {world world'' : World} {first second : Trace Call Res}
    (h : Handled handles thread world (first ++ second) world'') :
    ∃ world', Handled handles thread world first world' ∧ Handled handles thread world' second world'' := by
  induction first generalizing world with
  | nil => exact ⟨world, .nil world, h⟩
  | cons entry first ih =>
    cases h with
    | cons hhandles hrest =>
      obtain ⟨world', hfirst, hsecond⟩ := ih hrest
      exact ⟨world', .cons hhandles hfirst, hsecond⟩

omit [DecidableEq Tid] in
theorem Handled.of_bind {β : Type} {thread : Tid} {world world'' : World} {p : Prog Call Res α}
    {f : α → Prog Call Res β}
    {trace : Trace Call Res} {value : β} (h : Handled handles thread world trace world'')
    (hruns : Runs (p >>= f) trace (ret value)) :
    ∃ first second result world', trace = first ++ second ∧ Runs p first (ret result) ∧
      Handled handles thread world first world' ∧ Runs (f result) second (ret value) ∧
      Handled handles thread world' second world'' := by
  obtain ⟨first, second, result, rfl, hfirst, hsecond⟩ := Runs.of_bind hruns
  obtain ⟨world', hbefore, hbehind⟩ := h.split
  exact ⟨first, second, result, world', rfl, hfirst, hbefore, hsecond, hbehind⟩

omit [DecidableEq Tid] in
theorem Handled.of_ask_bind {β : Type} {thread : Tid} {world world'' : World} {request : Call}
    {f : Res request → Prog Call Res β} {trace : Trace Call Res} {value : β}
    (h : Handled handles thread world trace world'') (hruns : Runs (ask request >>= f) trace (ret value)) :
    ∃ answer rest world', trace = ⟨request, answer⟩ :: rest ∧ handles world thread request answer world' ∧
      Runs (f answer) rest (ret value) ∧ Handled handles thread world' rest world'' := by
  obtain ⟨answer, rest, rfl, hrest⟩ := Runs.of_ask_bind hruns
  cases h with
  | cons hhandles hbehind => exact ⟨answer, rest, _, rfl, hhandles, hrest, hbehind⟩

/-- While the other threads sleep, a run of one of them is a run of all. -/
theorem Config.Reaches.of_runs {thread : Tid} {world world' : World} {p q : Prog Call Res α} {trace : Trace Call Res}
    (hruns : Runs p trace q) (hhandled : Handled handles thread world trace world')
    {threads : Tid → Prog Call Res α} (hthread : threads thread = p) :
    Config.Reaches handles ⟨world, threads⟩ ⟨world', Function.update threads thread q⟩ := by
  induction hhandled generalizing p threads with
  | nil world =>
    cases hruns
    rw [← hthread, Function.update_eq_self]
  | @cons world world' world'' request answer trace hhandles _ ih =>
    cases hruns with
    | cons hrest =>
      have hstep : Config.Step handles ⟨world, threads⟩ ⟨world', Function.update threads thread _⟩ :=
        .call hthread hhandles
      have hreaches := ih hrest (Function.update_self thread _ threads)
      rw [Function.update_idem] at hreaches
      exact .head hstep hreaches

end Prog
