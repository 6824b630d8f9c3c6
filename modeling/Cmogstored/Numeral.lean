import Mathlib.Data.List.Induction
import Mathlib.Algebra.Ring.Int.Defs
import Mathlib.Algebra.Ring.Nat

/-! Numerals read from the left into a register of fixed width. The register wraps around, and an overflow
is looked for by comparing its new value with the one before; that finds an overflow only if the register
gets smaller. -/

namespace Numeral

open List

variable {α : Type} (base : Nat) (digit : α → Nat) (m : Nat)

/-- The number a string of digits stands for. -/
def value (digits : List α) : Nat := digits.foldl (fun n c => n * base + digit c) 0

/-- One more digit into a signed register of `m` values; `none` when it gets smaller. -/
def incr (n : Int) (c : α) : Option Int :=
  if n ≤ Int.bmod (n * base + digit c) m then some (Int.bmod (n * base + digit c) m) else none

def accumulate (n : Int) (digits : List α) : Option Int := digits.foldlM (incr base digit m) n

/-- Some digit makes the register smaller. -/
def Drops (digits : List α) : Prop :=
  ∃ seen c, seen ++ [c] <+: digits ∧
    Int.bmod (value base digit (seen ++ [c])) m < Int.bmod (value base digit seen) m

@[simp] theorem value_nil : value base digit [] = 0 := rfl

theorem value_concat (digits : List α) (c : α) :
    value base digit (digits ++ [c]) = value base digit digits * base + digit c := by
  simp [value]

theorem value_le_of_isPrefix (hbase : 0 < base) {seen digits : List α} (h : seen <+: digits) :
    value base digit seen ≤ value base digit digits := by
  obtain ⟨rest, rfl⟩ := h
  induction rest using List.reverseRecOn with
  | nil => simp
  | append_singleton rest c ih =>
    rw [← append_assoc, value_concat]
    calc value base digit seen ≤ value base digit (seen ++ rest) := ih
      _ ≤ value base digit (seen ++ rest) * base := Nat.le_mul_of_pos_right _ hbase
      _ ≤ value base digit (seen ++ rest) * base + digit c := Nat.le_add_right _ _

/-- A digit read into the register is one read into the number, up to multiples of the width. -/
theorem bmod_value_concat (digits : List α) (c : α) :
    Int.bmod (Int.bmod (value base digit digits) m * base + digit c) m =
      Int.bmod (value base digit (digits ++ [c])) m := by
  rw [value_concat, Int.natCast_add, Int.natCast_mul, ← Int.bmod_add_bmod, Int.bmod_mul_bmod, Int.bmod_add_bmod]

theorem incr_value (digits : List α) (c : α) :
    incr base digit m (Int.bmod (value base digit digits) m) c =
      if Int.bmod (value base digit digits) m ≤ Int.bmod (value base digit (digits ++ [c])) m then
        some (Int.bmod (value base digit (digits ++ [c])) m) else none := by
  rw [incr, bmod_value_concat]

theorem drops_concat (digits : List α) (c : α) :
    Drops base digit m (digits ++ [c]) ↔ Drops base digit m digits ∨
      Int.bmod (value base digit (digits ++ [c])) m < Int.bmod (value base digit digits) m := by
  constructor
  · intro h
    obtain ⟨seen, d, hseen, hless⟩ := h
    rcases prefix_concat_iff.mp hseen with heq | hinside
    · obtain ⟨rfl, hd⟩ := append_inj' heq rfl
      cases hd
      exact Or.inr hless
    · exact Or.inl ⟨seen, d, hinside, hless⟩
  · intro h
    rcases h with ⟨seen, d, hseen, hless⟩ | hless
    · exact ⟨seen, d, hseen.trans (prefix_append _ _), hless⟩
    · exact ⟨digits, c, prefix_rfl, hless⟩

theorem accumulate_concat (n : Int) (digits : List α) (c : α) :
    accumulate base digit m n (digits ++ [c]) = (accumulate base digit m n digits).bind (incr base digit m · c) := by
  simp only [accumulate, foldlM_append, foldlM_cons, foldlM_nil, bind_pure]
  rfl

/-- **What the register holds**: the number up to multiples of its width, unless it got smaller on the way. -/
theorem accumulate_zero (digits : List α) :
    (¬ Drops base digit m digits →
      accumulate base digit m 0 digits = some (Int.bmod (value base digit digits) m)) ∧
    (Drops base digit m digits → accumulate base digit m 0 digits = none) := by
  induction digits using List.reverseRecOn with
  | nil =>
    constructor
    · intro _
      simp [accumulate]
    · intro h
      obtain ⟨seen, c, hseen, -⟩ := h
      exact absurd (prefix_nil.mp hseen) (by simp)
  | append_singleton digits c ih =>
    rw [accumulate_concat, drops_concat]
    constructor
    · intro hnone
      have hbefore : ¬ Drops base digit m digits := fun h => hnone (Or.inl h)
      have hle : Int.bmod (value base digit digits) m ≤ Int.bmod (value base digit (digits ++ [c])) m :=
        Int.not_lt.mp fun h => hnone (Or.inr h)
      rw [ih.1 hbefore, Option.bind_some, incr_value, if_pos hle]
    · intro hsome
      by_cases hbefore : Drops base digit m digits
      · rw [ih.2 hbefore, Option.bind_none]
      · have hless := hsome.resolve_left hbefore
        rw [ih.1 hbefore, Option.bind_some, incr_value, if_neg (Int.not_le.mpr hless)]

/-- A number that fits is what the register holds. -/
theorem bmod_value_of_lt {digits : List α} (h : 2 * value base digit digits < m) :
    Int.bmod (value base digit digits) m = value base digit digits := by
  apply Int.bmod_eq_of_le <;> omega

theorem not_drops_of_lt (hbase : 0 < base) {digits : List α} (h : 2 * value base digit digits < m) :
    ¬ Drops base digit m digits := by
  intro hdrops
  obtain ⟨seen, c, hseen, hless⟩ := hdrops
  have hinside := value_le_of_isPrefix base digit hbase hseen
  have hbefore := value_le_of_isPrefix base digit hbase (prefix_append seen [c])
  rw [bmod_value_of_lt base digit m (by omega), bmod_value_of_lt base digit m (by omega)] at hless
  omega

end Numeral
