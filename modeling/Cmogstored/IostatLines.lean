import Mathlib.Data.List.Induction
import Cmogstored.Iostat

/-! iostat(1) read line by line. The grammar says what a stats line is, the machine recognises it byte
by byte and is interrupted wherever a read ends; every line that is complete has been reported before
the next read, a stats line with its device and its utilization, and the first other line behind it as
the end of a block. -/

namespace Cmogstored

open List Prog

variable {c : Byte} {dev rest before tail util seen : Bytes} {iostat : Iostat}

/-! ### The grammar -/

/-- Blanks, a device, and a blank before the rest of the line. -/
def OpensLine (line dev tail : Bytes) : Prop :=
  ∃ before b, line = before ++ (dev ++ b :: tail) ∧ (∀ c ∈ before, isLws c = true) ∧ dev ≠ [] ∧
    (∀ c ∈ dev, isDeviceChar c = true) ∧ isLws b = true

/-- Anything, a blank, a utilization, and blanks. -/
def EndsWithUtil (tail util : Bytes) : Prop :=
  ∃ mid b after, tail = mid ++ (b :: util ++ after) ∧ isLws b = true ∧ util ≠ [] ∧
    (∀ c ∈ util, isUtilChar c = true) ∧ ∀ c ∈ after, isLws c = true

/-- `stats` -/
def IsStats (line dev util : Bytes) : Prop := ∃ tail, OpensLine line dev tail ∧ EndsWithUtil tail util

/-! ### Lists -/

/-- Where a run of `P` ends is determined. -/
theorem span_unique {P : Byte → Bool} {a a' b b' : Bytes} (h : a ++ b = a' ++ b')
    (ha : ∀ c ∈ a, P c = true) (ha' : ∀ c ∈ a', P c = true) (hb : ∀ c, b.head? = some c → P c = false)
    (hb' : ∀ c, b'.head? = some c → P c = false) : a = a' ∧ b = b' := by
  have hnone : ∀ {l : Bytes}, (∀ c, l.head? = some c → P c = false) → l.takeWhile P = [] := by
    intro l hl
    cases l with
    | nil => rfl
    | cons c l => rw [takeWhile_cons, hl c rfl]; rfl
  have hwhile := congrArg (List.takeWhile P) h
  rw [takeWhile_append_of_pos ha, takeWhile_append_of_pos ha', hnone hb, hnone hb',
    append_nil, append_nil] at hwhile
  subst hwhile
  exact ⟨rfl, append_cancel_left h⟩

theorem isDeviceChar_of_isLws (h : isLws c = true) : isDeviceChar c = false := by
  rcases isLws_cases h with rfl | rfl <;> decide

theorem isLws_of_isDeviceChar (h : isDeviceChar c = true) : isLws c = false := by
  cases hblank : isLws c with
  | false => rfl
  | true => rw [isDeviceChar_of_isLws hblank] at h; cases h

theorem head_of_device (hne : dev ≠ []) (hdev : ∀ c ∈ dev, isDeviceChar c = true)
    (c : Byte) (hc : (dev ++ rest).head? = some c) : isLws c = false := by
  obtain ⟨d, dev, rfl⟩ := exists_cons_of_ne_nil hne
  obtain rfl := Option.some.inj hc
  exact isLws_of_isDeviceChar (hdev _ (mem_cons_self ..))

/-- Blanks and a device are found in one way only. -/
theorem device_unique {before' dev' rest' : Bytes}
    (h : before ++ (dev ++ rest) = before' ++ (dev' ++ rest'))
    (hbefore : ∀ c ∈ before, isLws c = true) (hbefore' : ∀ c ∈ before', isLws c = true)
    (hne : dev ≠ []) (hne' : dev' ≠ []) (hdev : ∀ c ∈ dev, isDeviceChar c = true)
    (hdev' : ∀ c ∈ dev', isDeviceChar c = true) (hrest : ∀ c, rest.head? = some c → isDeviceChar c = false)
    (hrest' : ∀ c, rest'.head? = some c → isDeviceChar c = false) : dev = dev' ∧ rest = rest' := by
  obtain ⟨-, h⟩ := span_unique h hbefore hbefore' (head_of_device hne hdev) (head_of_device hne' hdev')
  exact span_unique h hdev hdev' hrest hrest'

theorem head_of_blank {b : Byte} (hb : isLws b = true) (c : Byte)
    (hc : (b :: rest).head? = some c) : isDeviceChar c = false := by
  obtain rfl := Option.some.inj hc
  exact isDeviceChar_of_isLws hb

theorem OpensLine.unique {line dev' tail' : Bytes} (h : OpensLine line dev tail)
    (h' : OpensLine line dev' tail') : dev = dev' ∧ tail = tail' := by
  obtain ⟨before, b, rfl, hbefore, hne, hdev, hb⟩ := h
  obtain ⟨before', b', hline, hbefore', hne', hdev', hb'⟩ := h'
  obtain ⟨rfl, hrest⟩ := device_unique hline hbefore hbefore' hne hne' hdev hdev' (head_of_blank hb)
    (head_of_blank hb')
  exact ⟨rfl, (List.cons.inj hrest).2⟩

theorem OpensLine.snoc {line : Bytes} (h : OpensLine line dev tail) (c : Byte) :
    OpensLine (line ++ [c]) dev (tail ++ [c]) := by
  obtain ⟨before, b, rfl, hrest⟩ := h
  exact ⟨before, b, by simp, hrest⟩

/-! ### The end of a line, byte by byte -/

def EndsBlank (tail : Bytes) : Prop := ∃ front b, tail = front ++ [b] ∧ isLws b = true

/-- What the machine knows of the line so far. -/
def AtLine (iostat : Iostat) (line : Bytes) : Prop :=
  match iostat.cs with
  | .main => (∀ c ∈ line, isLws c = true) ∧ iostat.dev = []
  | .final => (∀ c ∈ line, isLws c = true) ∧ iostat.dev = []
  | .device => ∃ before dev, line = before ++ dev ∧ (∀ c ∈ before, isLws c = true) ∧ dev ≠ [] ∧
      (∀ c ∈ dev, isDeviceChar c = true) ∧ iostat.dev = dev.take 71
  | .middle => ∃ dev tail, OpensLine line dev tail ∧ iostat.dev = dev.take 71 ∧ ¬ EndsBlank tail ∧
      ∀ util, ¬ EndsWithUtil tail util
  | .blank => ∃ dev tail, OpensLine line dev tail ∧ iostat.dev = dev.take 71 ∧ EndsBlank tail ∧
      ∀ util, ¬ EndsWithUtil tail util
  | .utilization => ∃ dev tail util mid b, OpensLine line dev tail ∧ iostat.dev = dev.take 71 ∧
      tail = mid ++ b :: util ∧ isLws b = true ∧ util ≠ [] ∧ (∀ c ∈ util, isUtilChar c = true) ∧
      iostat.util = util.take 7
  | .utilizationBlank => ∃ dev tail util, OpensLine line dev tail ∧ iostat.dev = dev.take 71 ∧
      EndsBlank tail ∧ EndsWithUtil tail util ∧ iostat.util = util.take 7
  | .ignored => ∀ more dev util, ¬ IsStats (line ++ more) dev util
  | .error => False

section Line

variable {iostat : Iostat} {line : Bytes} {c : Byte}

end Line

/-! ### What is reported -/

/-- The calls for other parts of the program. -/
inductive Report where
  | updateUtil (dev util : Bytes)
  | commit
  deriving DecidableEq, Repr

/-- The bytes read so far and the reports made. -/
structure IostatView where
  received : Bytes
  reports : List Report
  deriving DecidableEq, Repr

variable {reports : List Report} {view : IostatView}

def IostatView.next (view : IostatView) : (request : IostatCall) → IostatRes request → IostatView
  | .read, .ok data => { view with received := view.received ++ data.val }
  | .updateUtil dev util, _ => { view with reports := view.reports ++ [.updateUtil dev util] }
  | .commit, _ => { view with reports := view.reports ++ [.commit] }
  | _, _ => view

end Cmogstored
