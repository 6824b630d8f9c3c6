import Mathlib.Data.List.Basic

/-! Scanners that read a buffer by position and may move back. A step looks at the byte at the current
position and moves on, stops with a reason, or fails an assertion; a scan that reaches the end of the
buffer hands its state back so that it can go on when the buffer has grown. -/

namespace Scan

variable {fuel pos pos' : Nat}

variable {α σ ε : Type}

inductive Move (σ ε : Type) where
  | goto (state : σ) (pos : Nat)
  | halt (state : σ) (pos : Nat) (why : ε)
  | fail
  deriving DecidableEq, Repr

inductive Outcome (σ ε : Type) where
  | more (state : σ) (pos : Nat)
  | halted (state : σ) (pos : Nat) (why : ε)
  | failed
  | stuck
  deriving DecidableEq, Repr

/-- Scans `buf` from `pos`, for at most `fuel` positions. -/
def exec (step : List α → σ → Nat → α → Move σ ε) (buf : List α) : Nat → σ → Nat → Outcome σ ε
  | 0, _, _ => .stuck
  | fuel + 1, state, pos =>
    match buf[pos]? with
    | none => .more state pos
    | some c =>
      match step buf state pos c with
      | .goto state pos => exec step buf fuel state pos
      | .halt state pos why => .halted state pos why
      | .fail => .failed

/-! ### Invariants -/

/-- `I` holds where a scan can go on, `J` where it stopped for a reason. -/
def Outcome.Sat (I : σ → Nat → Prop) (J : σ → Nat → ε → Prop) : Outcome σ ε → Prop
  | more state pos => I state pos
  | halted state pos why => J state pos why
  | failed => True
  | stuck => True

def Move.Sat (I : σ → Nat → Prop) (J : σ → Nat → ε → Prop) : Move σ ε → Prop
  | goto state pos => I state pos
  | halt state pos why => J state pos why
  | fail => True

/-- **What every step keeps, a scan keeps.** -/
theorem exec_sat {step : List α → σ → Nat → α → Move σ ε} {buf : List α} {I : σ → Nat → Prop}
    {J : σ → Nat → ε → Prop}
    (hstep : ∀ state pos c, I state pos → buf[pos]? = some c → (step buf state pos c).Sat I J)
    (fuel : Nat) (state : σ) (pos : Nat) (h : I state pos) :
    (exec step buf fuel state pos).Sat I J := by
  induction fuel generalizing state pos with
  | zero => trivial
  | succ fuel ih =>
    rw [exec]
    cases hc : buf[pos]? with
    | none => exact h
    | some c =>
      have hmove := hstep state pos c h hc
      cases hmoved : step buf state pos c with
      | goto state' pos' =>
        rw [hmoved] at hmove
        simpa only [hmoved] using ih state' pos' hmove
      | halt state' pos' why =>
        rw [hmoved] at hmove
        simp only [hmoved]
        exact hmove
      | fail => simp only [hmoved, Outcome.Sat]

theorem Move.Sat.mono {I I' : σ → Nat → Prop} {J J' : σ → Nat → ε → Prop} {move : Move σ ε}
    (h : move.Sat I J) (hI : ∀ state pos, I state pos → I' state pos)
    (hJ : ∀ state pos why, J state pos why → J' state pos why) : move.Sat I' J' := by
  cases move with
  | goto state pos => exact hI state pos h
  | halt state pos why => exact hJ state pos why h
  | fail => trivial

/-- A transitive relation that holds across every step holds across a scan. -/
theorem exec_rel {step : List α → σ → Nat → α → Move σ ε} {buf : List α} {R : σ → σ → Prop}
    (htrans : ∀ {a b c : σ}, R a b → R b c → R a c)
    (hstep : ∀ state pos c, (step buf state pos c).Sat (fun state' _ => R state state')
      (fun state' _ _ => R state state'))
    (fuel : Nat) {origin : σ} (state : σ) (pos : Nat) (h : R origin state) :
    (exec step buf fuel state pos).Sat (fun state' _ => R origin state')
      (fun state' _ _ => R origin state') :=
  exec_sat (fun state pos c horigin _ => (hstep state pos c).mono (fun _ _ h => htrans horigin h)
    fun _ _ _ h => htrans horigin h) fuel state pos h

/-! ### Scans without fuel -/

variable {step : List α → σ → Nat → α → Move σ ε} {buf : List α}

/-- `Scans step buf state pos outcome`: the scan from `pos` ends, and ends like this. -/
inductive Scans (step : List α → σ → Nat → α → Move σ ε) (buf : List α) :
    σ → Nat → Outcome σ ε → Prop where
  | more {state : σ} {pos : Nat} (hend : buf[pos]? = none) : Scans step buf state pos (.more state pos)
  | goto {state state' : σ} {pos pos' : Nat} {c : α} {outcome : Outcome σ ε} (hc : buf[pos]? = some c)
      (hmove : step buf state pos c = .goto state' pos') (rest : Scans step buf state' pos' outcome) :
      Scans step buf state pos outcome
  | halt {state state' : σ} {pos pos' : Nat} {c : α} {why : ε} (hc : buf[pos]? = some c)
      (hmove : step buf state pos c = .halt state' pos' why) :
      Scans step buf state pos (.halted state' pos' why)
  | fail {state : σ} {pos : Nat} {c : α} (hc : buf[pos]? = some c)
      (hmove : step buf state pos c = .fail) : Scans step buf state pos .failed

theorem scans_exec {state : σ}
    (h : exec step buf fuel state pos ≠ .stuck) :
    Scans step buf state pos (exec step buf fuel state pos) := by
  induction fuel generalizing state pos with
  | zero => exact absurd rfl h
  | succ fuel ih =>
    rw [exec] at h ⊢
    cases hc : buf[pos]? with
    | none => exact .more hc
    | some c =>
      simp only [hc] at h ⊢
      cases hmove : step buf state pos c with
      | goto state' pos' =>
        simp only [hmove] at h ⊢
        exact .goto hc hmove (ih h)
      | halt state' pos' why => exact .halt hc hmove
      | fail => exact .fail hc hmove

/-- What every step keeps, a scan keeps. -/
theorem Scans.sat {I : σ → Nat → Prop} {J : σ → Nat → ε → Prop} {state : σ} {outcome : Outcome σ ε}
    (hstep : ∀ state pos c, I state pos → buf[pos]? = some c → (step buf state pos c).Sat I J)
    (h : Scans step buf state pos outcome) (hI : I state pos) : outcome.Sat I J := by
  induction h with
  | more hend => exact hI
  | goto hc hmove rest ih =>
    have hsat := hstep _ _ _ hI hc
    rw [hmove] at hsat
    exact ih hsat
  | halt hc hmove =>
    have hsat := hstep _ _ _ hI hc
    rw [hmove] at hsat
    exact hsat
  | fail hc hmove => trivial

/-- With enough fuel the scan ends as it must. -/
theorem Scans.exec_eq {state : σ} {outcome : Outcome σ ε}
    (h : Scans step buf state pos outcome) (hfuel : exec step buf fuel state pos ≠ .stuck) :
    exec step buf fuel state pos = outcome := by
  induction h generalizing fuel with
  | more hend =>
    cases fuel with
    | zero => exact absurd rfl hfuel
    | succ fuel => rw [exec, hend]
  | goto hc hmove rest ih =>
    cases fuel with
    | zero => exact absurd rfl hfuel
    | succ fuel =>
      rw [exec] at hfuel ⊢
      simp only [hc, hmove] at hfuel ⊢
      exact ih hfuel
  | halt hc hmove =>
    cases fuel with
    | zero => exact absurd rfl hfuel
    | succ fuel =>
      rw [exec]
      simp only [hc, hmove]
  | fail hc hmove =>
    cases fuel with
    | zero => exact absurd rfl hfuel
    | succ fuel =>
      rw [exec]
      simp only [hc, hmove]

/-- A scan ends in one way only. -/
theorem Scans.det {state : σ} {first second : Outcome σ ε}
    (h : Scans step buf state pos first) (h' : Scans step buf state pos second) : first = second := by
  induction h with
  | more hend =>
    cases h' with
    | more => rfl
    | goto hc => rw [hend] at hc; cases hc
    | halt hc => rw [hend] at hc; cases hc
    | fail hc => rw [hend] at hc; cases hc
  | goto hc hmove rest ih =>
    cases h' with
    | more hend => rw [hend] at hc; cases hc
    | goto hc' hmove' rest' =>
      obtain rfl := Option.some.inj (hc.symm.trans hc')
      obtain ⟨rfl, rfl⟩ := Move.goto.inj (hmove.symm.trans hmove')
      exact ih rest'
    | halt hc' hmove' =>
      obtain rfl := Option.some.inj (hc.symm.trans hc')
      cases hmove.symm.trans hmove'
    | fail hc' hmove' =>
      obtain rfl := Option.some.inj (hc.symm.trans hc')
      cases hmove.symm.trans hmove'
  | halt hc hmove =>
    cases h' with
    | more hend => rw [hend] at hc; cases hc
    | goto hc' hmove' =>
      obtain rfl := Option.some.inj (hc.symm.trans hc')
      cases hmove.symm.trans hmove'
    | halt hc' hmove' =>
      obtain rfl := Option.some.inj (hc.symm.trans hc')
      obtain ⟨rfl, rfl, rfl⟩ := Move.halt.inj (hmove.symm.trans hmove')
      rfl
    | fail hc' hmove' =>
      obtain rfl := Option.some.inj (hc.symm.trans hc')
      cases hmove.symm.trans hmove'
  | fail hc hmove =>
    cases h' with
    | more hend => rw [hend] at hc; cases hc
    | goto hc' hmove' =>
      obtain rfl := Option.some.inj (hc.symm.trans hc')
      cases hmove.symm.trans hmove'
    | halt hc' hmove' =>
      obtain rfl := Option.some.inj (hc.symm.trans hc')
      cases hmove.symm.trans hmove'
    | fail => rfl

/-- Where a move leads, the scan goes on. -/
theorem Scans.on {state state' : σ} {c : α} {outcome : Outcome σ ε}
    (h : Scans step buf state pos outcome) (hc : buf[pos]? = some c)
    (hmove : step buf state pos c = .goto state' pos') : Scans step buf state' pos' outcome := by
  cases h with
  | more hend => rw [hend] at hc; cases hc
  | goto hc' hmove' rest =>
    obtain rfl := Option.some.inj (hc.symm.trans hc')
    cases hmove.symm.trans hmove'
    exact rest
  | halt hc' hmove' =>
    obtain rfl := Option.some.inj (hc.symm.trans hc')
    cases hmove.symm.trans hmove'
  | fail hc' hmove' =>
    obtain rfl := Option.some.inj (hc.symm.trans hc')
    cases hmove.symm.trans hmove'

/-- A scan that reaches the end of the buffer goes on from every byte before it. -/
theorem Scans.more_goto {state state' : σ} {c : α}
    (h : Scans step buf state pos (.more state' pos')) (hc : buf[pos]? = some c) :
    ∃ state'' pos'', step buf state pos c = .goto state'' pos'' ∧ Scans step buf state'' pos'' (.more state' pos') := by
  cases h with
  | more hend => rw [hend] at hc; cases hc
  | goto hc' hmove rest =>
    obtain rfl := Option.some.inj (hc.symm.trans hc')
    exact ⟨_, _, hmove, rest⟩

/-- A scan that stops at the byte it looks at, or right behind it, stops in the buffer. -/
theorem Scans.halted_le {state state' : σ} {why : ε}
    (hhalt : ∀ state pos c state' pos' why, step buf state pos c = .halt state' pos' why →
      pos' ≤ pos + 1)
    (h : Scans step buf state pos (.halted state' pos' why)) : pos' ≤ buf.length := by
  generalize hend : Outcome.halted state' pos' why = outcome at h
  induction h with
  | more => cases hend
  | goto hc hmove rest ih => exact ih hend
  | halt hc hmove =>
    cases hend
    have hpos := (List.getElem?_eq_some_iff.mp hc).1
    exact Nat.le_trans (hhalt _ _ _ _ _ _ hmove) hpos
  | fail => cases hend

/-- Where a move leads: on with `I`, or to an end in `R`. -/
def Move.Leads (I : σ → Nat → Prop) (R : Outcome σ ε → Prop) : Move σ ε → Prop
  | goto state pos => I state pos
  | halt state pos why => R (.halted state pos why)
  | fail => R .failed

theorem Move.Leads.mono {I I' I'' : σ → Nat → Prop} {R R' R'' : Outcome σ ε → Prop} {move : Move σ ε}
    (h : move.Leads I R) (h' : move.Leads I' R')
    (hon : ∀ state pos, I state pos → I' state pos → I'' state pos)
    (hend : ∀ outcome, R outcome → R' outcome → R'' outcome) : move.Leads I'' R'' := by
  cases move with
  | goto state pos => exact hon state pos h h'
  | halt state pos why => exact hend _ h h'
  | fail => exact hend _ h h'

/-- **The ends of the moves are the ends of the scan.** -/
theorem Scans.leads {I : σ → Nat → Prop} {R : Outcome σ ε → Prop} {state : σ}
    {outcome : Outcome σ ε}
    (hstep : ∀ state pos c, I state pos → buf[pos]? = some c → (step buf state pos c).Leads I R)
    (hmore : ∀ state pos, I state pos → buf[pos]? = none → R (.more state pos))
    (h : Scans step buf state pos outcome) (hI : I state pos) : R outcome := by
  induction h with
  | more hend => exact hmore _ _ hI hend
  | goto hc hmove rest ih =>
    have hlead := hstep _ _ _ hI hc
    rw [hmove] at hlead
    exact ih hlead
  | halt hc hmove =>
    have hlead := hstep _ _ _ hI hc
    rw [hmove] at hlead
    exact hlead
  | fail hc hmove =>
    have hlead := hstep _ _ _ hI hc
    rw [hmove] at hlead
    exact hlead

/-- A measure that every move lowers bounds the fuel. -/
theorem exec_ne_stuck {I : σ → Nat → Prop} {M : σ → Nat → Nat}
    (hstep : ∀ state pos c, I state pos → buf[pos]? = some c → ∀ state' pos',
      step buf state pos c = .goto state' pos' → I state' pos' ∧ M state' pos' < M state pos)
    {state : σ} (h : I state pos) (hfuel : M state pos < fuel) :
    exec step buf fuel state pos ≠ .stuck := by
  induction fuel generalizing state pos with
  | zero => exact absurd hfuel (Nat.not_lt_zero _)
  | succ fuel ih =>
    rw [exec]
    cases hc : buf[pos]? with
    | none => simp
    | some c =>
      dsimp only
      cases hmove : step buf state pos c with
      | goto state' pos' =>
        obtain ⟨hinv, hless⟩ := hstep state pos c h hc state' pos' hmove
        exact ih hinv (by omega)
      | halt state' pos' why => simp
      | fail => simp

section Growing

variable {I : σ → Nat → Prop} {more : List α}
  (hstep : ∀ state pos c, I state pos → buf[pos]? = some c →
    step (buf ++ more) state pos c = step buf state pos c ∧
    ∀ state' pos', step buf state pos c = .goto state' pos' → I state' pos')

include hstep

/-- A scan that has reached the end goes on in the grown buffer as if it had started there. -/
theorem Scans.resume {state state' : σ} {outcome : Outcome σ ε}
    (h : Scans step buf state pos (.more state' pos')) (hinv : I state pos)
    (hrest : Scans step (buf ++ more) state' pos' outcome) :
    Scans step (buf ++ more) state pos outcome := by
  generalize hfirst : Outcome.more state' pos' = first at h
  induction h with
  | more hend =>
    cases hfirst
    exact hrest
  | goto hc hmove rest ih =>
    obtain ⟨hsame, hnext⟩ := hstep _ _ _ hinv hc
    exact .goto (List.getElem?_append_left (List.getElem?_eq_some_iff.mp hc).1 ▸ hc)
      (hsame.trans hmove) (ih (hnext _ _ hmove) hfirst)
  | halt hc hmove => cases hfirst
  | fail hc hmove => cases hfirst

/-- A scan that has stopped does not look at what follows. -/
theorem Scans.append {state : σ} {outcome : Outcome σ ε}
    (h : Scans step buf state pos outcome) (hinv : I state pos)
    (hstop : ∀ state' pos', outcome ≠ .more state' pos') :
    Scans step (buf ++ more) state pos outcome := by
  induction h with
  | more hend => exact absurd rfl (hstop _ _)
  | goto hc hmove rest ih =>
    obtain ⟨hsame, hnext⟩ := hstep _ _ _ hinv hc
    exact .goto (List.getElem?_append_left (List.getElem?_eq_some_iff.mp hc).1 ▸ hc)
      (hsame.trans hmove) (ih (hnext _ _ hmove) hstop)
  | halt hc hmove =>
    exact .halt (List.getElem?_append_left (List.getElem?_eq_some_iff.mp hc).1 ▸ hc)
      ((hstep _ _ _ hinv hc).1.trans hmove)
  | fail hc hmove =>
    exact .fail (List.getElem?_append_left (List.getElem?_eq_some_iff.mp hc).1 ▸ hc)
      ((hstep _ _ _ hinv hc).1.trans hmove)

end Growing

/-! ### Texts that are passed over -/

/-- `text` takes the scanner from one state to another, wherever it stands. -/
inductive Passes (step : List α → σ → Nat → α → Move σ ε) : σ → List α → σ → Prop where
  | nil (state : σ) : Passes step state [] state
  | cons {state next state' : σ} {c : α} {text : List α}
      (hstep : ∀ buf pos, step buf state pos c = .goto next (pos + 1)) (rest : Passes step next text state') :
      Passes step state (c :: text) state'

theorem Passes.append {state next state' : σ} {first second : List α} (h : Passes step state first next)
    (h' : Passes step next second state') : Passes step state (first ++ second) state' := by
  induction h with
  | nil state => exact h'
  | cons hstep rest ih => exact .cons hstep (ih h')

theorem Passes.split {state state' : σ} {first second : List α} (h : Passes step state (first ++ second) state') :
    ∃ next, Passes step state first next ∧ Passes step next second state' := by
  induction first generalizing state with
  | nil => exact ⟨state, .nil state, h⟩
  | cons c first ih =>
    cases h with
    | cons hstep rest =>
      obtain ⟨next, hfirst, hsecond⟩ := ih rest
      exact ⟨next, .cons hstep hfirst, hsecond⟩

/-- Behind a text that is passed over the scan goes on. -/
theorem Passes.scans {state state' : σ} {text behind : List α} {outcome : Outcome σ ε}
    (h : Passes step state text state') (before : List α)
    (hrest : Scans step (before ++ text ++ behind) state' (before ++ text).length outcome) :
    Scans step (before ++ text ++ behind) state before.length outcome := by
  induction h generalizing before with
  | nil state =>
    rw [List.append_nil] at hrest ⊢
    exact hrest
  | @cons state next state' c text hstep rest ih =>
    have hpos : (before ++ [c]).length = before.length + 1 := by simp
    rw [List.append_cons] at hrest ⊢
    have hscan := ih (before ++ [c]) hrest
    rw [hpos] at hscan
    apply Scans.goto _ (hstep _ _) hscan
    simp

end Scan
