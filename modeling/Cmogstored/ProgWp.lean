import Cmogstored.Prog

/-! Weakest preconditions for programs of calls. A contract says, for a ghost state that follows the
calls, which requests the program may make, which answers may come back, how the ghost state moves,
and in which ghost states a failed assertion is excused. -/

namespace Prog

variable {Call : Type} {Res : Call → Type} {Ghost α β : Type}

structure Contract (Call : Type) (Res : Call → Type) (Ghost : Type) where
  must : Ghost → Call → Prop
  may : Ghost → (request : Call) → Res request → Prop
  next : Ghost → (request : Call) → Res request → Ghost
  excused : Ghost → Prop

/-- Every run from `ghost` keeps the contract and returns only in `Q`. -/
def wp (K : Contract Call Res Ghost) : Prog Call Res α → (α → Ghost → Prop) → Ghost → Prop
  | ret value, Q, ghost => Q value ghost
  | call request next, Q, ghost =>
    K.must ghost request ∧
      ∀ answer, K.may ghost request answer → wp K (next answer) Q (K.next ghost request answer)
  | abort, _, ghost => K.excused ghost
  | stuck, _, _ => True

variable {K : Contract Call Res Ghost}

@[simp] theorem wp_ret {value : α} {Q : α → Ghost → Prop} {ghost : Ghost} :
    wp K (ret value) Q ghost ↔ Q value ghost := Iff.rfl

@[simp] theorem wp_pure {value : α} {Q : α → Ghost → Prop} {ghost : Ghost} :
    wp K (pure value) Q ghost ↔ Q value ghost := Iff.rfl

@[simp] theorem wp_bind {p : Prog Call Res α} {f : α → Prog Call Res β} {Q : β → Ghost → Prop}
    {ghost : Ghost} :
    wp K (p >>= f) Q ghost ↔ wp K p (fun value => wp K (f value) Q) ghost := by
  induction p generalizing ghost with
  | ret value => exact Iff.rfl
  | call request next ih =>
    exact and_congr_right fun _ => forall_congr' fun answer => imp_congr_right fun _ => ih answer
  | abort => exact Iff.rfl
  | stuck => exact Iff.rfl

theorem wp_mono {p : Prog Call Res α} {Q R : α → Ghost → Prop} {ghost : Ghost} (h : wp K p Q ghost)
    (himp : ∀ value ghost, Q value ghost → R value ghost) : wp K p R ghost := by
  induction p generalizing ghost with
  | ret value => exact himp value ghost h
  | call request next ih =>
    exact ⟨h.1, fun answer hmay => ih answer (h.2 answer hmay)⟩
  | abort => exact h
  | stuck => trivial

/-- A part of a program whose requests are all in `S` keeps an invariant of the ghost state that those
requests keep. -/
theorem wp_within {S : Call → Prop} {J : Ghost → Prop} {p : Prog Call Res α} {R : α → Prop}
    {ghost : Ghost}
    (hstep : ∀ ghost request, J ghost → S request → K.must ghost request ∧
      ∀ answer, K.may ghost request answer → J (K.next ghost request answer))
    (habort : ∀ ghost, J ghost → K.excused ghost) (hwithin : p.Within S R) (hghost : J ghost) :
    wp K p (fun value ghost => R value ∧ J ghost) ghost := by
  induction p generalizing ghost with
  | ret value => exact ⟨hwithin, hghost⟩
  | call request next ih =>
    obtain ⟨hmust, hnext⟩ := hstep ghost request hghost hwithin.1
    exact ⟨hmust, fun answer hmay => ih answer (hwithin.2 answer) (hnext answer hmay)⟩
  | abort => exact habort ghost hghost
  | stuck => trivial

/-- The same where no assertion can fail. -/
theorem wp_sure {S : Call → Prop} {J : Ghost → Prop} {p : Prog Call Res α} {R : α → Prop}
    {ghost : Ghost}
    (hstep : ∀ ghost request, J ghost → S request → K.must ghost request ∧
      ∀ answer, K.may ghost request answer → J (K.next ghost request answer))
    (hsure : p.Sure S R) (hghost : J ghost) :
    wp K p (fun value ghost => R value ∧ J ghost) ghost := by
  induction p generalizing ghost with
  | ret value => exact ⟨hsure, hghost⟩
  | call request next ih =>
    obtain ⟨hmust, hnext⟩ := hstep ghost request hghost hsure.1
    exact ⟨hmust, fun answer hmay => ih answer (hsure.2 answer) (hnext answer hmay)⟩
  | abort => exact hsure.elim
  | stuck => trivial

theorem wp_ask_bind {request : Call} {f : Res request → Prog Call Res β} {Q : β → Ghost → Prop}
    {ghost : Ghost} (hmust : K.must ghost request)
    (h : ∀ answer, K.may ghost request answer → wp K (f answer) Q (K.next ghost request answer)) :
    wp K (ask request >>= f) Q ghost := ⟨hmust, h⟩

/-- The rest may use that an assertion held; where it can fail, that must be excused. -/
theorem wp_require_bind {condition : Bool} {f : Unit → Prog Call Res β} {Q : β → Ghost → Prop}
    {ghost : Ghost} (hexcused : condition = false → K.excused ghost)
    (h : condition = true → wp K (f ()) Q ghost) : wp K (require condition >>= f) Q ghost := by
  cases condition with
  | false => exact hexcused rfl
  | true => exact h rfl

/-- A contract that permits every answer says of every run what it returns. -/
theorem within_of_wp {p : Prog Call Res α} {Q : α → Ghost → Prop} {ghost : Ghost}
    (hmay : ∀ ghost request answer, K.may ghost request answer) (h : wp K p Q ghost) :
    p.Within (fun _ => True) fun value => ∃ ghost, Q value ghost := by
  induction p generalizing ghost with
  | ret value => exact ⟨ghost, h⟩
  | call request next ih => exact ⟨trivial, fun answer => ih answer (h.2 answer (hmay ghost request answer))⟩
  | abort => trivial
  | stuck => trivial

/-- A contract as a part sees it whose requests are asked through `f`. -/
def Contract.comap {Call' : Type} {Res' : Call' → Type} (K : Contract Call' Res' Ghost)
    (f : Call → Call') : Contract Call (fun request => Res' (f request)) Ghost where
  must ghost request := K.must ghost (f request)
  may ghost request answer := K.may ghost (f request) answer
  next ghost request answer := K.next ghost (f request) answer
  excused := K.excused

theorem wp_embed {Call' : Type} {Res' : Call' → Type} {K : Contract Call' Res' Ghost}
    {f : Call → Call'} {p : Prog Call (fun request => Res' (f request)) α} {Q : α → Ghost → Prop}
    {ghost : Ghost} : wp K (p.embed f) Q ghost ↔ wp (K.comap f) p Q ghost := by
  induction p generalizing ghost with
  | ret value => exact Iff.rfl
  | call request next ih =>
    exact and_congr_right fun _ => forall_congr' fun answer => imp_congr_right fun _ => ih answer
  | abort => exact Iff.rfl
  | stuck => exact Iff.rfl

/-- A contract of the finer calls. `R` relates the two ghost states: each request that the coarse
contract permits is carried out within the fine one. -/
theorem wp_interp {Call' : Type} {Res' : Call' → Type} {Ghost' : Type} {K : Contract Call Res Ghost}
    {K' : Contract Call' Res' Ghost'} {f : (request : Call) → Prog Call' Res' (Res request)}
    {R : Ghost → Ghost' → Prop} {p : Prog Call Res α} {Q : α → Ghost → Prop} {ghost : Ghost}
    {ghost' : Ghost'}
    (hcall : ∀ ghost ghost' request, R ghost ghost' → K.must ghost request →
      wp K' (f request) (fun answer ghost' => K.may ghost request answer ∧
        R (K.next ghost request answer) ghost') ghost')
    (hexcused : ∀ ghost ghost', R ghost ghost' → K.excused ghost → K'.excused ghost')
    (h : wp K p Q ghost) (hrel : R ghost ghost') :
    wp K' (p.interp f) (fun value ghost' => ∃ ghost, Q value ghost ∧ R ghost ghost') ghost' := by
  induction p generalizing ghost ghost' with
  | ret value => exact ⟨ghost, h, hrel⟩
  | call request next ih =>
    refine wp_bind.mpr (wp_mono (hcall ghost ghost' request hrel h.1) ?_)
    rintro answer ghost'' ⟨hmay, hrel'⟩
    exact ih answer (h.2 answer hmay) hrel'
  | abort => exact hexcused ghost ghost' hrel h
  | stuck => trivial

/-- Two contracts at once. -/
def Contract.prod {Ghost' : Type} (K : Contract Call Res Ghost) (L : Contract Call Res Ghost') :
    Contract Call Res (Ghost × Ghost') where
  must ghosts request := K.must ghosts.1 request ∧ L.must ghosts.2 request
  may ghosts request answer := K.may ghosts.1 request answer ∧ L.may ghosts.2 request answer
  next ghosts request answer := (K.next ghosts.1 request answer, L.next ghosts.2 request answer)
  excused ghosts := K.excused ghosts.1 ∧ L.excused ghosts.2

theorem wp_prod {Ghost' : Type} {L : Contract Call Res Ghost'} {p : Prog Call Res α} {Q : α → Ghost → Prop}
    {R : α → Ghost' → Prop} {ghost : Ghost} {ghost' : Ghost'} (h : wp K p Q ghost) (h' : wp L p R ghost') :
    wp (K.prod L) p (fun value ghosts => Q value ghosts.1 ∧ R value ghosts.2) (ghost, ghost') := by
  induction p generalizing ghost ghost' with
  | ret value => exact ⟨h, h'⟩
  | call request next ih =>
    refine ⟨⟨h.1, h'.1⟩, fun answer hmay => ?_⟩
    exact ih answer (h.2 answer hmay.1) (h'.2 answer hmay.2)
  | abort => exact ⟨h, h'⟩
  | stuck => trivial

/-! ### Contracts along a trace -/

namespace Contract

/-- The ghost state after the calls of a trace. -/
def after (K : Contract Call Res Ghost) : Ghost → Trace Call Res → Ghost
  | ghost, [] => ghost
  | ghost, ⟨request, answer⟩ :: trace => K.after (K.next ghost request answer) trace

/-- The answers of the trace are all permitted. -/
def Allows (K : Contract Call Res Ghost) : Ghost → Trace Call Res → Prop
  | _, [] => True
  | ghost, ⟨request, answer⟩ :: trace =>
    K.may ghost request answer ∧ K.Allows (K.next ghost request answer) trace

theorem after_append (K : Contract Call Res Ghost) (ghost : Ghost) (first second : Trace Call Res) :
    K.after ghost (first ++ second) = K.after (K.after ghost first) second := by
  induction first generalizing ghost with
  | nil => rfl
  | cons entry first ih => exact ih _

end Contract

/-- **A run keeps what its start guarantees.** -/
theorem wp_of_runs {p q : Prog Call Res α} {trace : Trace Call Res} {Q : α → Ghost → Prop}
    {ghost : Ghost} (h : wp K p Q ghost) (hrun : Runs p trace q) (hallows : K.Allows ghost trace) :
    wp K q Q (K.after ghost trace) := by
  induction hrun generalizing ghost with
  | nil p => exact h
  | cons tail ih => exact ih (h.2 _ hallows.1) hallows.2

/-- **Every request of a run is one the contract permits at its time.** -/
theorem must_of_runs {p q : Prog Call Res α} {trace before after : Trace Call Res}
    {Q : α → Ghost → Prop} {ghost : Ghost} {request : Call} {answer : Res request}
    (h : wp K p Q ghost) (hrun : Runs p trace q) (hallows : K.Allows ghost trace)
    (htrace : trace = before ++ ⟨request, answer⟩ :: after) :
    K.must (K.after ghost before) request := by
  induction hrun generalizing ghost before with
  | nil p => simp at htrace
  | cons tail ih =>
    cases before with
    | nil =>
      rw [List.nil_append, List.cons.injEq] at htrace
      obtain ⟨hentry, -⟩ := htrace
      cases hentry
      exact h.1
    | cons entry before =>
      rw [List.cons_append, List.cons.injEq] at htrace
      obtain ⟨rfl, htrace⟩ := htrace
      have hrest := ih (h.2 _ hallows.1) hallows.2 htrace
      exact hrest

/-- **What every permitted call keeps holds along a run.** -/
theorem inv_of_runs {J : Ghost → Prop} {p q : Prog Call Res α} {trace : Trace Call Res}
    {Q : α → Ghost → Prop} {ghost : Ghost}
    (hstep : ∀ ghost request answer, J ghost → K.must ghost request →
      K.may ghost request answer → J (K.next ghost request answer))
    (h : wp K p Q ghost) (hrun : Runs p trace q) (hallows : K.Allows ghost trace) (hghost : J ghost) :
    J (K.after ghost trace) := by
  induction hrun generalizing ghost with
  | nil p => exact hghost
  | cons tail ih =>
    exact ih (h.2 _ hallows.1) hallows.2 (hstep _ _ _ hghost h.1 hallows.1)

/-- A contract that permits every answer. -/
theorem allows_of_may {ghost : Ghost} {trace : Trace Call Res}
    (hmay : ∀ ghost request answer, K.may ghost request answer) : K.Allows ghost trace := by
  induction trace generalizing ghost with
  | nil => trivial
  | cons entry trace ih => exact ⟨hmay _ _ _, ih⟩

end Prog
