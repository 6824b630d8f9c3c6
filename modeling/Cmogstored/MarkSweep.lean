import Mathlib.Logic.Function.Basic

/-! Tables that are collected by mark and sweep, judged by their history. A marking forgets which keys
are in use, each operation on a key puts it in use again, and a sweep removes what was not put in use
since. The history says what a table should hold; a table that follows it step by step holds that. -/

namespace MarkSweep

variable {Tid Key Val : Type}

/-- What happens to a table. -/
inductive TableEvent (Tid Key Val : Type) where
  | get (key : Key) (value : Val)
  | put (key : Key) (value : Val)
  | touch (key : Key)
  | mark (who : Tid)
  | sweep (who : Tid) (removed : List Key)
  deriving DecidableEq, Repr

/-- The key that an operation puts in use. -/
def TableEvent.key? : TableEvent Tid Key Val → Option Key
  | get key _ => some key
  | put key _ => some key
  | touch key => some key
  | mark _ => none
  | sweep _ _ => none

section History

variable [DecidableEq Key]

/-! ### Histories, newest event first -/

/-- The value last put under `key` since the key was last removed. -/
def value (default : Val) (key : Key) : List (TableEvent Tid Key Val) → Val
  | [] => default
  | .put other value' :: log => if other = key then value' else value default key log
  | .sweep _ removed :: log => if key ∈ removed then default else value default key log
  | _ :: log => value default key log

/-- Some operation on `key` has come since the key was last removed. -/
def present (key : Key) : List (TableEvent Tid Key Val) → Bool
  | [] => false
  | .sweep _ removed :: log => !decide (key ∈ removed) && present key log
  | event :: log => event.key? == some key || present key log

/-- Some operation on `key` has come since the last marking by `who`. -/
def touchedSince [DecidableEq Tid] (who : Tid) (key : Key) : List (TableEvent Tid Key Val) → Bool
  | [] => false
  | .mark other :: log => if other = who then false else touchedSince who key log
  | event :: log => event.key? == some key || touchedSince who key log

/-- Some operation on `key` has come since the last marking by anybody. -/
def touched (key : Key) : List (TableEvent Tid Key Val) → Bool
  | [] => false
  | .mark _ :: _ => false
  | event :: log => event.key? == some key || touched key log

/-- Each answer is the value put last, and each sweep removes the keys not touched since its marking. -/
def Sound [DecidableEq Tid] (default : Val) : List (TableEvent Tid Key Val) → Prop
  | [] => True
  | .get key answer :: log => answer = value default key log ∧ Sound default log
  | .sweep who removed :: log =>
    (∀ key, key ∈ removed ↔ present key log = true ∧ touchedSince who key log = false) ∧
      Sound default log
  | _ :: log => Sound default log

/-! ### Tables -/

/-- A key's entry: whether it is in use, and its value. -/
abbrev Table (Key Val : Type) := Key → Option (Bool × Val)

/-- The table that a history leaves. -/
def tableOf (default : Val) (log : List (TableEvent Tid Key Val)) : Table Key Val := fun key =>
  if present key log then some (touched key log, value default key log) else none

def Table.put (table : Table Key Val) (key : Key) (value : Val) : Table Key Val :=
  Function.update table key (some (true, value))

/-- The value of `key`, or the default for a key without entry. -/
def Table.get (default : Val) (table : Table Key Val) (key : Key) : Val :=
  ((table key).map Prod.snd).getD default

def Table.touch (default : Val) (table : Table Key Val) (key : Key) : Table Key Val :=
  table.put key (table.get default key)

def Table.mark (table : Table Key Val) : Table Key Val := fun key =>
  (table key).map fun entry => (false, entry.2)

/-- Only the entries in use stay. -/
def Table.sweep (table : Table Key Val) : Table Key Val := fun key =>
  (table key).filter Prod.fst

variable (default : Val) (log : List (TableEvent Tid Key Val))

theorem value_of_absent {key : Key} (h : present key log = false) : value default key log = default := by
  induction log with
  | nil => rfl
  | cons event log ih =>
    cases event with
    | sweep who removed =>
      rw [value]
      split
      next => rfl
      next hkept =>
        apply ih
        simpa [present, hkept] using h
    | put other value' =>
      obtain ⟨hne, habsent⟩ : other ≠ key ∧ present key log = false := by
        simpa [present, TableEvent.key?] using h
      rw [value, if_neg hne]
      exact ih habsent
    | get other value' => exact ih (by simpa [present, TableEvent.key?] using (Bool.or_eq_false_iff.mp h).2)
    | touch other => exact ih (by simpa [present, TableEvent.key?] using (Bool.or_eq_false_iff.mp h).2)
    | mark who => exact ih (by simpa [present, TableEvent.key?] using (Bool.or_eq_false_iff.mp h).2)

theorem tableOf_get (key : Key) : (tableOf default log).get default key = value default key log := by
  unfold Table.get tableOf
  split
  next => rfl
  next habsent => exact (value_of_absent default log (Bool.eq_false_iff.mpr habsent)).symm

/-! ### A table follows its history -/

/-- An operation on a key that leaves every value but that key's new one. -/
theorem tableOf_put (key : Key) (value' : Val) :
    tableOf default (.put key value' :: log) = (tableOf default log).put key value' := by
  funext other
  by_cases hother : other = key
  · subst hother
    simp [tableOf, Table.put, present, touched, value, TableEvent.key?]
  · have hne : key ≠ other := Ne.symm hother
    simp [tableOf, Table.put, present, touched, value, TableEvent.key?, Function.update_of_ne hother,
      beq_eq_false_iff_ne.mpr hne, hne]

theorem tableOf_get_cons (key : Key) (answer : Val) :
    tableOf default (.get key answer :: log) = (tableOf default log).touch default key := by
  rw [Table.touch, tableOf_get]
  funext other
  by_cases hother : other = key
  · subst hother
    simp [tableOf, Table.put, present, touched, value, TableEvent.key?]
  · have hne : key ≠ other := Ne.symm hother
    simp [tableOf, Table.put, present, touched, value, TableEvent.key?, Function.update_of_ne hother,
      beq_eq_false_iff_ne.mpr hne]

theorem tableOf_touch (key : Key) :
    tableOf default (.touch key :: log) = (tableOf default log).touch default key :=
  tableOf_get_cons default log key default

theorem tableOf_mark (who : Tid) : tableOf default (.mark who :: log) = (tableOf default log).mark := by
  funext key
  cases hpresent : present key log <;>
    simp [tableOf, Table.mark, present, touched, value, TableEvent.key?, hpresent]

theorem tableOf_sweep (who : Tid) {removed : List Key}
    (h : ∀ key, key ∈ removed ↔ present key log = true ∧ touched key log = false) :
    tableOf default (.sweep who removed :: log) = (tableOf default log).sweep := by
  funext key
  have hkey := h key
  cases hpresent : present key log <;> cases htouched : touched key log <;>
    simp [tableOf, Table.sweep, present, touched, value, TableEvent.key?, Option.filter, hpresent, htouched,
      hkey]

/-! ### The marking a sweep belongs to -/

variable [DecidableEq Tid] {log} {who : Tid} {key : Key}

theorem touchedSince_mark : touchedSince who key (.mark who :: log) = touched key (.mark who :: log) := by
  rw [touchedSince, if_pos rfl, touched]

/-- While nobody else marks, the last marking is one's own. -/
theorem touchedSince_cons {event : TableEvent Tid Key Val} (hmark : ∀ other, event ≠ .mark other)
    (h : touchedSince who key log = touched key log) :
    touchedSince who key (event :: log) = touched key (event :: log) := by
  cases event with
  | mark other => exact absurd rfl (hmark other)
  | get other value' => simp only [touchedSince, touched, h]
  | put other value' => simp only [touchedSince, touched, h]
  | touch other => simp only [touchedSince, touched, h]
  | sweep other removed => simp only [touchedSince, touched, h]

end History

end MarkSweep
