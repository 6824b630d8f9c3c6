import Cmogstored.LineScan

/-! What a line scanner costs. A byte is looked at once while its line is read for the first time and at most once
more while it is read again, since the second reading ends at the same line end as the first. -/

namespace Scan

open List

variable {α σ ε : Type}

/-- A look at a byte, and what came of it. -/
structure Look (σ ε : Type) where
  state : σ
  pos : Nat
  move : Move σ ε

/-- The looks of `exec`, in their order. -/
def looks (step : List α → σ → Nat → α → Move σ ε) (buf : List α) : Nat → σ → Nat → List (Look σ ε)
  | 0, _, _ => []
  | fuel + 1, state, pos =>
    match buf[pos]? with
    | none => []
    | some c =>
      let move := step buf state pos c
      ⟨state, pos, move⟩ :: match move with
        | .goto state pos => looks step buf fuel state pos
        | _ => []

/-- The move goes backward. -/
def Look.back (look : Look σ ε) : Bool :=
  match look.move with
  | .goto _ pos => pos ≤ look.pos
  | _ => false

/-- The line ends to which the backward moves go, in their order. -/
def backs (lineEnd : σ → Nat) (trail : List (Look σ ε)) : List Nat :=
  (trail.filter Look.back).map fun look => lineEnd look.state

/-- What has been spent when the scanner stands at `pos`: `count` looks and the backward moves to `spent`. In a second
reading no line end lies before the byte at which the first one gave up. -/
structure Cost (newline : α) (buf : List α) (lineEnd : Nat) (again : Bool) (pos count : Nat) (spent : List Nat) :
    Prop where
  first : again = false → count ≤ pos + lineEnd + 1 ∧
    (0 < lineEnd → ∀ q, lineEnd < q → q < pos → buf[q]? ≠ some newline)
  second : again = true → 0 < lineEnd ∧ ∃ high ≤ buf.length, count ≤ high + pos ∧
    ∀ q, lineEnd < q → q + 1 < high → buf[q]? ≠ some newline
  fresh : ∀ line ∈ spent, 0 < line ∧ (line < lineEnd ∨ line = lineEnd ∧ again = true)
  nodup : spent.Nodup

/-- A move of a scanner that ends its lines at line ends, passes over none once the first line is behind it, and goes
back to a line end only. -/
inductive StrictMove (newline c : α) (lineEnd : Nat) (again : Bool) (pos : Nat) : Nat → Bool → Nat → Prop where
  | on (hclear : 0 < lineEnd → c ≠ newline) : StrictMove newline c lineEnd again pos lineEnd again (pos + 1)
  | next (hc : c = newline) (hpos : 0 < pos) (again' : Bool) :
      StrictMove newline c lineEnd again pos pos again' (pos + 1)
  | back (hfirst : again = false) (hend : 0 < lineEnd) :
      StrictMove newline c lineEnd again pos lineEnd true (lineEnd + 2)

section Moves

variable {newline c : α} {buf : List α} {lineEnd lineEnd' pos pos' count : Nat} {again again' : Bool}
  {spent : List Nat}

/-- Only the return to a line end goes backward. -/
theorem StrictMove.of_back (h : StrictMove newline c lineEnd again pos lineEnd' again' pos') (hback : pos' ≤ pos) :
    0 < lineEnd ∧ pos' = lineEnd + 2 := by
  cases h with
  | on hclear => exact absurd hback (Nat.not_succ_le_self _)
  | next hc hpos => exact absurd hback (Nat.not_succ_le_self _)
  | back hfirst hend => exact ⟨hend, rfl⟩

/-- At a line end everything before it has been looked at twice at most: a second reading does not get there before the
byte at which the first one gave up. -/
theorem Cost.at_newline (h : Cost newline buf lineEnd again pos count spent) (hc : buf[pos]? = some newline)
    (hat : lineEnd = 0 ∨ lineEnd < pos) : count ≤ 2 * pos + 1 := by
  cases again with
  | false =>
    have := (h.first rfl).1
    omega
  | true =>
    obtain ⟨hend, high, hhigh, hcount, hbefore⟩ := h.second rfl
    have hreached : high ≤ pos + 1 := by
      by_contra hhigher
      exact hbefore pos (by omega) (by omega) hc
    omega

theorem Cost.on (h : Cost newline buf lineEnd again pos count spent) (hc : buf[pos]? = some c)
    (hclear : 0 < lineEnd → c ≠ newline) : Cost newline buf lineEnd again (pos + 1) (count + 1) spent where
  first hfirst := by
    obtain ⟨hcount, hbefore⟩ := h.first hfirst
    refine ⟨by omega, fun hend q hq hlt => ?_⟩
    rcases Nat.lt_succ_iff_lt_or_eq.mp hlt with hlt | rfl
    · exact hbefore hend q hq hlt
    · rw [hc]
      exact fun heq => hclear hend (Option.some.inj heq)
  second hsecond := by
    obtain ⟨hend, high, hhigh, hcount, hbefore⟩ := h.second hsecond
    exact ⟨hend, high, hhigh, by omega, hbefore⟩
  fresh := h.fresh
  nodup := h.nodup

theorem Cost.back (h : Cost newline buf lineEnd false pos count spent) (hpos : pos < buf.length) (hend : 0 < lineEnd) :
    Cost newline buf lineEnd true (lineEnd + 2) (count + 1)
      (if lineEnd + 2 ≤ pos then spent ++ [lineEnd] else spent) := by
  obtain ⟨hcount, hbefore⟩ := h.first rfl
  have hnew : ∀ line ∈ spent, line < lineEnd := by
    intro line hline
    exact (h.fresh line hline).2.resolve_right fun hsame => Bool.noConfusion hsame.2
  refine ⟨nofun, fun _ => ⟨hend, pos + 1, hpos, by omega, fun q hq hlt => hbefore hend q hq (by omega)⟩, ?_, ?_⟩
  · intro line hline
    by_cases hsame : line = lineEnd
    · exact ⟨hsame ▸ hend, Or.inr ⟨hsame, rfl⟩⟩
    · have hold : line ∈ spent := by
        split at hline
        · rcases mem_append.mp hline with hline | hline
          · exact hline
          · exact absurd (mem_singleton.mp hline) hsame
        · exact hline
      exact ⟨(h.fresh line hold).1, Or.inl (hnew line hold)⟩
  · split
    · refine nodup_append.mpr ⟨h.nodup, pairwise_singleton .., fun line hline other hother => ?_⟩
      rw [mem_singleton.mp hother]
      exact Nat.ne_of_lt (hnew line hline)
    · exact h.nodup

theorem Cost.step (h : Cost newline buf lineEnd again pos count spent) (hc : buf[pos]? = some c)
    (hat : lineEnd = 0 ∨ lineEnd < pos) (hmove : StrictMove newline c lineEnd again pos lineEnd' again' pos') :
    Cost newline buf lineEnd' again' pos' (count + 1) (if pos' ≤ pos then spent ++ [lineEnd] else spent) := by
  have hlt : pos < buf.length := (List.getElem?_eq_some_iff.mp hc).1
  cases hmove with
  | on hclear =>
    rw [if_neg (Nat.not_succ_le_self pos)]
    exact h.on hc hclear
  | next hnewline hpos =>
    subst hnewline
    have hcount := h.at_newline hc hat
    rw [if_neg (Nat.not_succ_le_self _)]
    refine ⟨fun _ => ⟨by omega, fun _ q hq hlt => by omega⟩, fun _ => ⟨hpos, lineEnd' + 1, hlt, by omega, ?_⟩,
      fun line hline => ?_, h.nodup⟩
    · intro q hq hlt
      omega
    · obtain ⟨hpositive, hfresh⟩ := h.fresh line hline
      exact ⟨hpositive, Or.inl (by omega)⟩
  | back hfirst hend =>
    subst hfirst
    exact h.back hlt hend

/-- At any time the looks are at most two for each byte, and one more. -/
theorem Cost.count_le (h : Cost newline buf lineEnd again pos count spent) (hat : AtLine buf.length lineEnd pos) :
    count ≤ 2 * buf.length + 1 ∧ (pos < buf.length → count + 1 ≤ 2 * buf.length + 1) := by
  obtain ⟨hpos, hat⟩ := hat
  cases again with
  | false =>
    have := (h.first rfl).1
    omega
  | true =>
    obtain ⟨-, high, hhigh, hcount, -⟩ := h.second rfl
    omega

/-- More bytes behind the buffer do not matter. -/
theorem Cost.append (h : Cost newline buf lineEnd again pos count spent) (hpos : pos ≤ buf.length) (more : List α) :
    Cost newline (buf ++ more) lineEnd again pos count spent where
  first hfirst := by
    obtain ⟨hcount, hbefore⟩ := h.first hfirst
    refine ⟨hcount, fun hend q hq hlt => ?_⟩
    rw [List.getElem?_append_left (by omega)]
    exact hbefore hend q hq hlt
  second hsecond := by
    obtain ⟨hend, high, hhigh, hcount, hbefore⟩ := h.second hsecond
    refine ⟨hend, high, by simp; omega, hcount, fun q hq hlt => ?_⟩
    rw [List.getElem?_append_left (by omega)]
    exact hbefore q hq hlt
  fresh := h.fresh
  nodup := h.nodup

end Moves

/-! ### A scan -/

section Run

variable {newline : α} {step : List α → σ → Nat → α → Move σ ε} {buf : List α} {lineEnd : σ → Nat} {again : σ → Bool}
  {I : σ → Nat → Prop}

/-- What holds of every look: it is inside the buffer, the scanner does not leave the buffer, and it goes
backward to the line end that it knows. -/
structure Look.Sound (buf : List α) (lineEnd : σ → Nat) (I : σ → Nat → Prop) (look : Look σ ε) : Prop where
  knows : I look.state look.pos
  inside : look.pos < buf.length
  move : ∀ state pos, look.move = .goto state pos → pos ≤ buf.length ∧
    (pos ≤ look.pos → 0 < lineEnd look.state ∧ pos = lineEnd look.state + 2)

/-- What a scan adds to the cost. -/
structure CostOf (newline : α) (buf : List α) (lineEnd : σ → Nat) (again : σ → Bool) (I : σ → Nat → Prop) (count : Nat)
    (spent : List Nat) (trail : List (Look σ ε)) (outcome : Outcome σ ε) : Prop where
  bound : count + trail.length ≤ 2 * buf.length + 1
  nodup : (spent ++ backs lineEnd trail).Nodup
  sound : ∀ look ∈ trail, look.Sound buf lineEnd I
  more : ∀ state pos, outcome = .more state pos → I state pos ∧
    Cost newline buf (lineEnd state) (again state) pos (count + trail.length) (spent ++ backs lineEnd trail)

theorem backs_cons (look : Look σ ε) (trail : List (Look σ ε)) :
    backs lineEnd (look :: trail) = (if look.back then [lineEnd look.state] else []) ++ backs lineEnd trail := by
  unfold backs
  rw [filter_cons]
  split <;> rfl

theorem CostOf.nil {count : Nat} {spent : List Nat} {outcome : Outcome σ ε} (hbound : count ≤ 2 * buf.length + 1)
    (hnodup : spent.Nodup) (hmore : ∀ state pos, outcome = .more state pos → I state pos ∧
      Cost newline buf (lineEnd state) (again state) pos count spent) :
    CostOf newline buf lineEnd again I count spent [] outcome := by
  refine ⟨hbound, ?_, nofun, ?_⟩ <;> rw [backs, filter_nil, map_nil, append_nil]
  · exact hnodup
  · exact hmore

/-- One more look in front. -/
theorem CostOf.cons {count : Nat} {spent : List Nat} {outcome : Outcome σ ε} {look : Look σ ε} {trail : List (Look σ ε)}
    (hlook : look.Sound buf lineEnd I)
    (h : CostOf newline buf lineEnd again I (count + 1)
      (if look.back then spent ++ [lineEnd look.state] else spent) trail outcome) :
    CostOf newline buf lineEnd again I count spent (look :: trail) outcome := by
  have hspent : spent ++ backs lineEnd (look :: trail) =
      (if look.back then spent ++ [lineEnd look.state] else spent) ++ backs lineEnd trail := by
    rw [backs_cons]
    by_cases hback : look.back = true
    · rw [if_pos hback, if_pos hback, append_assoc]
    · rw [if_neg hback, if_neg hback, nil_append]
  have hlength : count + (look :: trail).length = count + 1 + trail.length := by
    rw [length_cons]
    omega
  refine ⟨?_, ?_, forall_mem_cons.mpr ⟨hlook, h.sound⟩, ?_⟩
  · rw [hlength]
    exact h.bound
  · rw [hspent]
    exact h.nodup
  · rw [hspent, hlength]
    exact h.more

/-- **A line scanner looks at each byte twice at most.** -/
theorem Cost.run (hat : ∀ state pos, I state pos → AtLine buf.length (lineEnd state) pos)
    (hstep : ∀ state pos c, I state pos → buf[pos]? = some c → ∀ state' pos',
      step buf state pos c = .goto state' pos' → I state' pos' ∧
        StrictMove newline c (lineEnd state) (again state) pos (lineEnd state') (again state') pos')
    {fuel pos count : Nat} {state : σ} {spent : List Nat} (hI : I state pos)
    (h : Cost newline buf (lineEnd state) (again state) pos count spent) :
    CostOf newline buf lineEnd again I count spent (looks step buf fuel state pos) (exec step buf fuel state pos) := by
  induction fuel generalizing state pos count spent with
  | zero =>
    apply CostOf.nil (h.count_le (hat state pos hI)).1 h.nodup
    intro state' pos' hmore
    cases hmore
  | succ fuel ih =>
    have hcount := h.count_le (hat state pos hI)
    rw [looks, exec]
    cases hc : buf[pos]? with
    | none =>
      apply CostOf.nil hcount.1 h.nodup
      intro state' pos' hmore
      cases hmore
      exact ⟨hI, h⟩
    | some c =>
      have hpos : pos < buf.length := (List.getElem?_eq_some_iff.mp hc).1
      dsimp only
      cases hmove : step buf state pos c with
      | goto state' pos' =>
        obtain ⟨hI', hstrict⟩ := hstep state pos c hI hc state' pos' hmove
        apply CostOf.cons
        · refine ⟨hI, hpos, fun state'' pos'' heq => ?_⟩
          cases heq
          exact ⟨(hat _ _ hI').1, hstrict.of_back⟩
        · have hrest := ih hI' (h.step hc (hat state pos hI).2 hstrict)
          simpa only [Look.back, decide_eq_true_eq] using hrest
      | halt | fail =>
        apply CostOf.cons
        · refine ⟨hI, hpos, fun state'' pos'' heq => ?_⟩
          cases heq
        · apply CostOf.nil (hcount.2 hpos) h.nodup
          intro state'' pos'' hmore
          cases hmore

end Run

end Scan
