import Cmogstored.Scan

/-! Scanners that read line by line and may read a line a second time. Such a scanner remembers where
the last line ended, 0 standing for the start of the buffer, and on a byte it does not expect it goes
back to the second byte of the current line, but only once a line. So it always ends, and never leaves
the buffer. -/

namespace Scan

variable {lineEnd pos len lineEnd' pos' : Nat} {again again' : Bool}

/-- A move of a line scanner: from the line end, the flag for a second reading and the position to the
new ones. -/
inductive LineMove (lineEnd : Nat) (again : Bool) (pos : Nat) : Nat → Bool → Nat → Prop where
  | on : LineMove lineEnd again pos lineEnd again (pos + 1)
  | next (again' : Bool) : LineMove lineEnd again pos pos again' (pos + 1)
  | back (hfirst : again = false) :
      LineMove lineEnd again pos lineEnd true (if lineEnd = 0 then 1 else lineEnd + 2)

theorem LineMove.back_of_pos (hend : 0 < lineEnd)
    (hfirst : again = false) : LineMove lineEnd again pos lineEnd true (lineEnd + 2) := by
  have hback : LineMove lineEnd again pos lineEnd true (if lineEnd = 0 then 1 else lineEnd + 2) :=
    .back hfirst
  rwa [if_neg (Nat.ne_of_gt hend)] at hback

/-- The position is in the buffer or at its end, behind the last line end. -/
def AtLine (len lineEnd pos : Nat) : Prop := pos ≤ len ∧ (lineEnd = 0 ∨ lineEnd < pos)

theorem LineMove.atLine
    (h : LineMove lineEnd again pos lineEnd' again' pos') (hat : AtLine len lineEnd pos)
    (hpos : pos < len) : AtLine len lineEnd' pos' := by
  obtain ⟨-, hend⟩ := hat
  cases h with
  | on => exact ⟨hpos, by omega⟩
  | next again' => exact ⟨hpos, by omega⟩
  | back hfirst =>
    split
    · exact ⟨by omega, by omega⟩
    · exact ⟨by omega, by omega⟩

/-- Where the current line can start at the earliest. -/
def lineBase (lineEnd pos : Nat) : Nat := if lineEnd = 0 then min pos 1 else lineEnd + 1

/-- Lines that are left count most, then whether the current one can be read again. -/
def lineMeasure (len lineEnd : Nat) (again : Bool) (pos : Nat) : Nat :=
  (len + 1 - lineBase lineEnd pos) * (2 * len + 4) + (if again then 0 else len + 2) + (len - pos)

theorem lineBase_le (hat : AtLine len lineEnd pos) :
    lineBase lineEnd pos ≤ pos := by
  unfold lineBase
  have := hat.2
  split <;> omega

/-- A later line weighs less, whatever the rest is. -/
theorem lineMeasure_lt_of_base
    (hbase : lineBase lineEnd pos < lineBase lineEnd' pos') (hle : lineBase lineEnd' pos' ≤ len) :
    lineMeasure len lineEnd' again' pos' < lineMeasure len lineEnd again pos := by
  have hlines : (len + 1 - lineBase lineEnd' pos' + 1) * (2 * len + 4) ≤
      (len + 1 - lineBase lineEnd pos) * (2 * len + 4) := Nat.mul_le_mul_right _ (by omega)
  rw [Nat.add_mul, Nat.one_mul] at hlines
  unfold lineMeasure
  split <;> split <;> omega

theorem LineMove.measure_lt
    (h : LineMove lineEnd again pos lineEnd' again' pos') (hat : AtLine len lineEnd pos)
    (hpos : pos < len) :
    lineMeasure len lineEnd' again' pos' < lineMeasure len lineEnd again pos := by
  have hat' := h.atLine hat hpos
  have hle' : lineBase lineEnd' pos' ≤ len := Nat.le_trans (lineBase_le hat') hat'.1
  by_cases hbase : lineBase lineEnd pos < lineBase lineEnd' pos'
  · exact lineMeasure_lt_of_base hbase hle'
  -- the line is the same one, so the scanner has moved on in it or started to read it again
  · have hat := hat.2
    cases h with
    | on =>
      have hsame : lineBase lineEnd (pos + 1) = lineBase lineEnd pos := by
        by_cases hzero : lineEnd = 0
        · simp only [lineBase, hzero, if_true] at hbase ⊢
          omega
        · simp only [lineBase, hzero, if_false]
      rw [lineMeasure, lineMeasure, hsame]
      omega
    | next again' =>
      unfold lineBase at hbase
      split at hbase <;> split at hbase <;> omega
    | back hfirst =>
      have hsame : lineBase lineEnd (if lineEnd = 0 then 1 else lineEnd + 2) = lineBase lineEnd pos := by
        by_cases hzero : lineEnd = 0
        · simp only [lineBase, hzero, if_true] at hbase ⊢
          omega
        · simp only [lineBase, hzero, if_false]
      rw [lineMeasure, lineMeasure, hsame, hfirst]
      simp only [if_true, Bool.false_eq_true, if_false]
      omega

/-- The measure of any state. A line end that the position has not passed yet, left over from another
buffer, is passed or forgotten before long. -/
def scanMeasure (len lineEnd : Nat) (again : Bool) (pos : Nat) : Nat :=
  if lineEnd = 0 ∨ lineEnd < pos then lineMeasure len lineEnd again pos
  else (len + 2) * (2 * len + 4) + (len - pos)

theorem lineMeasure_lt (len lineEnd : Nat) (again : Bool) (pos : Nat) :
    lineMeasure len lineEnd again pos < (len + 2) * (2 * len + 4) := by
  have hlines : (len + 1 - lineBase lineEnd pos) * (2 * len + 4) ≤ (len + 1) * (2 * len + 4) :=
    Nat.mul_le_mul_right _ (Nat.sub_le _ _)
  have hfuel : (len + 2) * (2 * len + 4) = (len + 1) * (2 * len + 4) + (2 * len + 4) := by
    rw [show len + 2 = len + 1 + 1 from rfl, Nat.add_mul (len + 1), Nat.one_mul]
  rw [hfuel]
  unfold lineMeasure
  split <;> omega

theorem LineMove.scanMeasure_lt
    (h : LineMove lineEnd again pos lineEnd' again' pos') (hpos : pos < len) :
    scanMeasure len lineEnd' again' pos' < scanMeasure len lineEnd again pos := by
  unfold scanMeasure
  by_cases hat : lineEnd = 0 ∨ lineEnd < pos
  · have hat : AtLine len lineEnd pos := ⟨Nat.le_of_lt hpos, hat⟩
    rw [if_pos hat.2, if_pos (h.atLine hat hpos).2]
    exact h.measure_lt hat hpos
  · rw [if_neg hat]
    split
    · have := lineMeasure_lt len lineEnd' again' pos'
      omega
    · rename_i hat'
      cases h with
      | on => omega
      | next again' => omega
      | back hfirst => split at hat' <;> omega

/-- Steps enough for any state and any buffer of this length. -/
def lineFuel (len : Nat) : Nat := (len + 3) * (2 * len + 4)

theorem scanMeasure_lt_fuel (len lineEnd : Nat) (again : Bool) (pos : Nat) :
    scanMeasure len lineEnd again pos < lineFuel len := by
  have hfuel : lineFuel len = (len + 2) * (2 * len + 4) + (2 * len + 4) := by
    rw [lineFuel, show len + 3 = len + 2 + 1 from rfl, Nat.add_mul (len + 2), Nat.one_mul]
  rw [hfuel]
  unfold scanMeasure
  split
  · have := lineMeasure_lt len lineEnd again pos
    omega
  · omega

section Lines

variable {α σ ε : Type} {step : List α → σ → Nat → α → Move σ ε} {buf : List α} {lineEnd : σ → Nat}
  {again : σ → Bool}
  (hline : ∀ state pos c, buf[pos]? = some c → ∀ state' pos', step buf state pos c = .goto state' pos' →
    LineMove (lineEnd state) (again state) pos (lineEnd state') (again state') pos')

include hline

/-- **A line scanner ends.** -/
theorem exec_lines_ne_stuck (state : σ) (pos : Nat) :
    exec step buf (lineFuel buf.length) state pos ≠ .stuck := by
  refine exec_ne_stuck (I := fun _ _ => True)
    (M := fun state pos => scanMeasure buf.length (lineEnd state) (again state) pos) ?_ trivial
    (scanMeasure_lt_fuel buf.length (lineEnd state) (again state) pos)
  intro state pos c _ hc state' pos' hmove
  have hpos : pos < buf.length := (List.getElem?_eq_some_iff.mp hc).1
  exact ⟨trivial, (hline state pos c hc state' pos' hmove).scanMeasure_lt hpos⟩

/-- A line scanner reaches the end of the buffer and not more. -/
theorem Scans.more_pos {state state' : σ}
    (h : Scans step buf state pos (.more state' pos')) (hat : AtLine buf.length (lineEnd state) pos) :
    pos' = buf.length ∧ AtLine buf.length (lineEnd state') pos' := by
  generalize hfirst : Outcome.more state' pos' = first at h
  induction h with
  | more hend =>
    cases hfirst
    have hle := List.getElem?_eq_none_iff.mp hend
    exact ⟨Nat.le_antisymm hat.1 hle, hat⟩
  | goto hc hmove rest ih =>
    have hpos := (List.getElem?_eq_some_iff.mp hc).1
    exact ih ((hline _ _ _ hc _ _ hmove).atLine hat hpos) hfirst
  | halt hc hmove => cases hfirst
  | fail hc hmove => cases hfirst

end Lines

end Scan
