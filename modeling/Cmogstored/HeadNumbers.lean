import Cmogstored.Decimal
import Cmogstored.HeaderLine

/-! The numbers of a head: `Content-Length`, and the bounds of `Content-Range` and `Range`. `length_incr`
reads them digit by digit into an `off_t`. -/

namespace Cmogstored

open List Scan

/-! ### Digits -/

/-- `length_incr` for one digit after the other. -/
def lengthRun (len : Int) (digits : Bytes) : Option Int := digits.foldlM lengthIncr len

def IsDigits (digits : Bytes) : Prop := ∀ c ∈ digits, isDigit c = true

theorem beq_false_of_isDigit {c d : Byte} (hc : isDigit c = true) (hd : isDigit d = false) : (c == d) = false := by
  rw [beq_eq_false_iff_ne]
  intro heq
  rw [heq, hd] at hc
  cases hc

theorem not_isLws_of_isDigit {c : Byte} (hc : isDigit c = true) : isLws c = false := by
  rw [isLws, beq_false_of_isDigit hc (d := SP) (by decide), beq_false_of_isDigit hc (d := HT) (by decide)]
  rfl

theorem le_of_lengthIncr {len len' : Int} {c : Byte} (h : lengthIncr len c = some len') : len ≤ len' := by
  unfold lengthIncr at h
  dsimp only at h
  split at h
  · rename_i hge
    cases h
    exact hge
  · cases h

inductive Number where
  | contentLen | contentRangeBeg | contentRangeEnd | rangeBeg | rangeEnd
  deriving DecidableEq, Repr

namespace Number

/-- What the first digit is added to. -/
def start : Number → Fields → Int
  | contentLen, fields => fields.contentLen
  | contentRangeBeg, fields => fields.rangeBeg
  | contentRangeEnd, fields => fields.rangeEnd
  | rangeBeg, fields => if fields.rangeBeg < 0 then 0 else fields.rangeBeg
  | rangeEnd, fields => if fields.rangeEnd < 0 then 0 else fields.rangeEnd

def set : Number → Fields → Int → Fields
  | contentLen, fields, n => { fields with contentLen := n }
  | contentRangeBeg, fields, n => { fields with rangeBeg := n }
  | contentRangeEnd, fields, n => { fields with rangeEnd := n }
  | rangeBeg, fields, n => { fields with rangeBeg := n }
  | rangeEnd, fields, n => { fields with rangeEnd := n }

/-- The state behind a digit. -/
def digitsCs : Number → HttpCs
  | contentLen => .lengthDigits
  | contentRangeBeg => .contentRangeBeg
  | contentRangeEnd => .contentRangeEnd
  | rangeBeg => .rangeBeg
  | rangeEnd => .rangeEnd

/-- The states in which a digit belongs to the number. -/
def Awaits : Number → HttpCs → Prop
  | contentLen, cs => (∃ at_ : SepCs, at_.isOpen = true ∧ cs = .sep .contentLength at_) ∨ cs = .lengthDigits
  | contentRangeBeg, cs => cs = .contentRangeStart ∨ cs = .contentRangeBeg
  | contentRangeEnd, cs => cs = .contentRangeDash ∨ cs = .contentRangeEnd
  | rangeBeg, cs => cs = .rangeBeg
  | rangeEnd, cs => cs = .rangeEnd

variable (number : Number) {fields : Fields} {c : Byte} {n : Int}

theorem awaits_digitsCs : number.Awaits number.digitsCs := by
  cases number <;> simp [Awaits, digitsCs]

theorem set_set (n m : Int) (cs : HttpCs) :
    { number.set { number.set fields n with cs := cs } m with cs := cs } =
      { number.set fields m with cs := cs } := by
  cases number <;> rfl

theorem start_set (cs : HttpCs) (h : lengthIncr (number.start fields) c = some n) :
    number.start { number.set fields n with cs := cs } = n := by
  have hle := le_of_lengthIncr h
  cases number with
  | rangeBeg =>
    have hpos : 0 ≤ n := by
      simp only [start] at hle
      split at hle <;> omega
    exact if_neg (Int.not_lt.mpr hpos)
  | rangeEnd =>
    have hpos : 0 ≤ n := by
      simp only [start] at hle
      split at hle <;> omega
    exact if_neg (Int.not_lt.mpr hpos)
  | contentLen => rfl
  | contentRangeBeg => rfl
  | contentRangeEnd => rfl

theorem headStep_digit (buf : Bytes) (pos : Nat) (hcs : number.Awaits fields.cs) (hc : isDigit c = true) :
    headStep buf fields pos c =
      match lengthIncr (number.start fields) c with
      | some n => .goto { number.set fields n with cs := number.digitsCs } (pos + 1)
      | none => .halt { number.set fields (-1) with cs := number.digitsCs } (pos + 1) (.invalid .ERANGE) := by
  have hcr := beq_false_of_isDigit hc (d := CR) (by decide)
  have hdash := beq_false_of_isDigit hc (d := 45) (by decide)
  have hslash := beq_false_of_isDigit hc (d := 47) (by decide)
  have hlws := not_isLws_of_isDigit hc
  cases number with
  | contentLen =>
    have hnext : httpNext fields.cs c = (.contentLen, .lengthDigits) := by
      rcases hcs with ⟨at_, hopen, hcs⟩ | hcs
      · rw [hcs]
        simp [httpNext, sepNext_value hopen hlws hcr, valueNext, hc]
      · rw [hcs]
        simp [httpNext, hc]
    simp only [headStep, hnext]
    rfl
  | contentRangeBeg =>
    have hnext : httpNext fields.cs c = (.contentRangeBeg, .contentRangeBeg) := by
      rcases hcs with hcs | hcs <;> simp [hcs, httpNext, hc, hlws, hdash]
    simp only [headStep, hnext]
    rfl
  | contentRangeEnd =>
    have hnext : httpNext fields.cs c = (.contentRangeEnd, .contentRangeEnd) := by
      rcases hcs with hcs | hcs <;> simp [hcs, httpNext, hc, hslash]
    simp only [headStep, hnext]
    rfl
  | rangeBeg =>
    have hnext : httpNext fields.cs c = (.rangeBeg, .rangeBeg) := by
      have hcs : fields.cs = .rangeBeg := hcs
      simp [hcs, httpNext, hc, hdash]
    simp only [headStep, hnext]
    rfl
  | rangeEnd =>
    have hnext : httpNext fields.cs c = (.rangeEnd, .rangeEnd) := by
      have hcs : fields.cs = .rangeEnd := hcs
      simp [hcs, httpNext, hc]
    simp only [headStep, hnext]
    rfl

end Number

/-- The parser stops in `seen`, with `ERANGE`. -/
def OutOfRange (seen : Bytes) : Prop :=
  ∃ fields pos, Scans headStep seen .init 0 (.halted fields pos (.invalid .ERANGE))

theorem OutOfRange.append {seen : Bytes} (h : OutOfRange seen) (more : Bytes) : OutOfRange (seen ++ more) := by
  obtain ⟨fields, pos, hscan⟩ := h
  exact ⟨fields, pos, Scans.append (I := HeadAt seen) (headScan_step more) hscan (headAt_init seen) (by simp)⟩

section Digits

variable (number : Number) {seen digits : Bytes} {fields : Fields}

/-- A string of digits that `length_incr` lets through. -/
theorem Reading.digitRun (h : Reading seen fields) (hcs : number.Awaits fields.cs) (hdigits : IsDigits digits)
    (hne : digits ≠ []) {n : Int} (hrun : lengthRun (number.start fields) digits = some n) :
    Reading (seen ++ digits) { number.set fields n with cs := number.digitsCs } := by
  induction digits generalizing seen fields with
  | nil => exact absurd rfl hne
  | cons c digits ih =>
    have hc : isDigit c = true := hdigits c mem_cons_self
    rw [lengthRun, foldlM_cons] at hrun
    cases hincr : lengthIncr (number.start fields) c with
    | none =>
      rw [hincr] at hrun
      cases hrun
    | some m =>
      rw [hincr] at hrun
      have hread : Reading (seen ++ [c]) { number.set fields m with cs := number.digitsCs } := by
        apply h.of_goto
        rw [number.headStep_digit _ _ hcs hc, hincr]
      by_cases hlast : digits = []
      · subst hlast
        cases hrun
        exact hread
      · have hrest := ih hread number.awaits_digitsCs
          (fun d hd => hdigits d (mem_cons_of_mem _ hd)) hlast (by
            rw [number.start_set _ hincr]
            exact hrun)
        rw [number.set_set, append_assoc] at hrest
        exact hrest

/-- A string of digits that `length_incr` does not let through. -/
theorem Reading.digitRun_stop (h : Reading seen fields) (hcs : number.Awaits fields.cs)
    (hdigits : IsDigits digits) (hrun : lengthRun (number.start fields) digits = none) :
    OutOfRange (seen ++ digits) := by
  induction digits generalizing seen fields with
  | nil => cases hrun
  | cons c digits ih =>
    have hc : isDigit c = true := hdigits c mem_cons_self
    have hstep := number.headStep_digit (seen ++ [c]) seen.length hcs hc
    rw [lengthRun, foldlM_cons] at hrun
    rw [append_cons]
    cases hincr : lengthIncr (number.start fields) c with
    | none =>
      rw [hincr] at hstep
      have hstop : OutOfRange (seen ++ [c]) := ⟨_, _, h.resume.mp (.halt (by simp) hstep)⟩
      exact hstop.append digits
    | some m =>
      rw [hincr] at hrun hstep
      apply ih (h.of_goto hstep) number.awaits_digitsCs fun d hd => hdigits d (mem_cons_of_mem _ hd)
      rw [number.start_set _ hincr]
      exact hrun

end Digits

/-! ### Headers with numbers -/

/-- The name of a field, in letters of any case, and what separates it from its value. -/
structure HeaderStart (field : Field) where
  name : Bytes
  sep : Bytes
  name_eq : name.map toLower = field.text
  isSep : IsSep sep

structure Digits where
  text : Bytes
  isDigits : IsDigits text
  ne_nil : text ≠ []

structure BlankRun where
  text : Bytes
  isBlanks : IsBlanks text
  ne_nil : text ≠ []

/-- A header with numbers, up to the last of its digits. -/
inductive LengthHeader where
  | contentLength (start : HeaderStart .contentLength) (length : Digits)
  | contentRange (start : HeaderStart .contentRange) (blanks : BlankRun) (first last : Digits)
  | range (start : HeaderStart .range) (first last : Option Digits)

def HeaderStart.text {field : Field} (start : HeaderStart field) : Bytes := start.name ++ start.sep

def Digits.value (digits : Digits) : Nat := decimalValue digits.text

/-- The text of a bound that may be missing. -/
def boundText : Option Digits → Bytes
  | some digits => digits.text
  | none => []

/-- How a bound that may be missing is stored. -/
def boundValue : Option Digits → Int
  | some digits => digits.value
  | none => -1

namespace LengthHeader

def start : LengthHeader → Bytes
  | contentLength start _ => start.text
  | contentRange start _ _ _ => start.text
  | range start _ _ => start.text

def text : LengthHeader → Bytes
  | contentLength start length => start.text ++ length.text
  | contentRange start blanks first last =>
    start.text ++ ascii "bytes" ++ blanks.text ++ first.text ++ [45] ++ last.text
  | range start first last => start.text ++ ascii "bytes=" ++ boundText first ++ [45] ++ boundText last

def numbers : LengthHeader → List Digits
  | contentLength _ length => [length]
  | contentRange _ _ first last => [first, last]
  | range _ first last => first.toList ++ last.toList

end LengthHeader

/-! ### Reading such a header -/

/-- The numbers of `struct mog_http` that headers write. -/
structure Numbers where
  contentLen : Int
  rangeBeg : Int
  rangeEnd : Int
  deriving DecidableEq, Repr

def Fields.numbers (fields : Fields) : Numbers := ⟨fields.contentLen, fields.rangeBeg, fields.rangeEnd⟩

def Fields.withNumbers (fields : Fields) (numbers : Numbers) : Fields :=
  { fields with contentLen := numbers.contentLen, rangeBeg := numbers.rangeBeg, rangeEnd := numbers.rangeEnd }

/-- A bound of `Range` starts anew. -/
def boundRun : Option Digits → Option Int
  | some digits => lengthRun 0 digits.text
  | none => some (-1)

namespace LengthHeader

/-- The numbers are those of the header. -/
def Holds : LengthHeader → Numbers → Prop
  | contentLength _ length, numbers => numbers.contentLen = length.value
  | contentRange _ _ first last, numbers => numbers.rangeBeg = first.value ∧ numbers.rangeEnd = last.value
  | range _ first last, numbers => numbers.rangeBeg = boundValue first ∧ numbers.rangeEnd = boundValue last

/-- The numbers behind the header, made from the ones before it. -/
def run : LengthHeader → Numbers → Option Numbers
  | contentLength _ length, numbers =>
    (lengthRun numbers.contentLen length.text).map fun n => { numbers with contentLen := n }
  | contentRange _ _ first last, numbers =>
    (lengthRun numbers.rangeBeg first.text).bind fun m =>
      (lengthRun numbers.rangeEnd last.text).map fun n => { numbers with rangeBeg := m, rangeEnd := n }
  | range _ first last, numbers =>
    (boundRun first).bind fun m =>
      (boundRun last).map fun n => { numbers with rangeBeg := m, rangeEnd := n }

/-- The state behind the header. -/
def endCs : LengthHeader → HttpCs
  | contentLength _ _ => .lengthDigits
  | contentRange _ _ _ _ => .contentRangeEnd
  | range _ _ _ => .rangeEnd

end LengthHeader

theorem eq_none_of_both {first last : Option Int} {both : Int → Int → Numbers}
    (h : (first.bind fun m => last.map (both m)) = none) : first = none ∨ last = none := by
  cases first with
  | none => exact Or.inl rfl
  | some m => exact Or.inr (Option.map_eq_none_iff.mp h)

section Headers

variable {seen : Bytes} {fields : Fields}

theorem Reading.headerStart {field : Field} (start : HeaderStart field) (h : Reading seen fields)
    (hline : fields.cs.isLineStart = true) (hsmall : (seen ++ start.text).length ≤ 65536) :
    ∃ at_ lineEnd, at_.isOpen = true ∧ fields.lineEnd ≤ lineEnd ∧
      Reading (seen ++ start.text) { fields with cs := .sep field at_, lineEnd := lineEnd } := by
  rw [HeaderStart.text, ← append_assoc] at hsmall ⊢
  exact (h.field hline start.name_eq).sep rfl start.isSep hsmall

theorem Reading.contentLength (start : HeaderStart .contentLength) (length : Digits) (h : Reading seen fields)
    (hline : fields.cs.isLineStart = true) (hsmall : (seen ++ start.text).length ≤ 65536) :
    (∀ n, lengthRun fields.contentLen length.text = some n → ∃ lineEnd, fields.lineEnd ≤ lineEnd ∧
      Reading (seen ++ start.text ++ length.text)
        { fields with cs := .lengthDigits, contentLen := n, lineEnd := lineEnd }) ∧
    (lengthRun fields.contentLen length.text = none → OutOfRange (seen ++ start.text ++ length.text)) := by
  obtain ⟨at_, lineEnd, hopen, hlater, hread⟩ := h.headerStart start hline hsmall
  have hcs : Number.contentLen.Awaits (.sep .contentLength at_) := Or.inl ⟨at_, hopen, rfl⟩
  constructor
  · intro n hrun
    exact ⟨lineEnd, hlater, hread.digitRun .contentLen hcs length.isDigits length.ne_nil hrun⟩
  · intro hrun
    exact hread.digitRun_stop .contentLen hcs length.isDigits hrun

theorem keepRun_bytes {at_ : SepCs} (hopen : at_.isOpen = true) :
    keepRun (.sep .contentRange at_) (ascii "bytes") = some .contentRangeBlank := by
  cases at_ <;> simp only [SepCs.isOpen, Bool.false_eq_true] at hopen <;> decide +kernel

theorem keepRun_contentRangeBlank (blanks : BlankRun) :
    keepRun .contentRangeBlank blanks.text = some .contentRangeStart := by
  obtain ⟨text, hblanks, hne⟩ := blanks
  cases text with
  | nil => exact absurd rfl hne
  | cons c text =>
    have hfirst : httpNext .contentRangeBlank c = (.keep, .contentRangeStart) := by
      simp [httpNext, hblanks c mem_cons_self]
    rw [keepRun_cons hfirst]
    apply keepRun_of_loop
    intro d hd
    simp [httpNext, hblanks d (mem_cons_of_mem _ hd)]

theorem Reading.contentRange (start : HeaderStart .contentRange) (blanks : BlankRun) (first last : Digits)
    (h : Reading seen fields) (hline : fields.cs.isLineStart = true)
    (hsmall : (seen ++ start.text).length ≤ 65536) :
    (∀ m n, lengthRun fields.rangeBeg first.text = some m → lengthRun fields.rangeEnd last.text = some n →
      ∃ lineEnd, fields.lineEnd ≤ lineEnd ∧
        Reading (seen ++ start.text ++ ascii "bytes" ++ blanks.text ++ first.text ++ [45] ++ last.text)
          { fields with cs := .contentRangeEnd, rangeBeg := m, rangeEnd := n, lineEnd := lineEnd }) ∧
    (lengthRun fields.rangeBeg first.text = none ∨ lengthRun fields.rangeEnd last.text = none →
      OutOfRange (seen ++ start.text ++ ascii "bytes" ++ blanks.text ++ first.text ++ [45] ++ last.text)) := by
  obtain ⟨at_, lineEnd, hopen, hlater, hread⟩ := h.headerStart start hline hsmall
  have hfirst := (hread.word (keepRun_bytes hopen)).word (keepRun_contentRangeBlank blanks)
  have hlast : ∀ m, lengthRun fields.rangeBeg first.text = some m →
      Reading (seen ++ start.text ++ ascii "bytes" ++ blanks.text ++ first.text ++ [45])
        { fields with cs := .contentRangeDash, rangeBeg := m, lineEnd := lineEnd } := by
    intro m hm
    exact (hfirst.digitRun .contentRangeBeg (Or.inl rfl) first.isDigits first.ne_nil hm).keep rfl
  constructor
  · intro m n hm hn
    exact ⟨lineEnd, hlater, (hlast m hm).digitRun .contentRangeEnd (Or.inl rfl) last.isDigits last.ne_nil hn⟩
  · intro hnone
    cases hm : lengthRun fields.rangeBeg first.text with
    | none =>
      have hstop := hfirst.digitRun_stop .contentRangeBeg (Or.inl rfl) first.isDigits hm
      exact (hstop.append [45]).append last.text
    | some m =>
      rw [hm] at hnone
      have hn := hnone.resolve_left (by simp)
      exact (hlast m hm).digitRun_stop .contentRangeEnd (Or.inl rfl) last.isDigits hn

theorem Reading.bound (number : Number) (bound : Option Digits) (h : Reading seen fields)
    (hcs : fields.cs = number.digitsCs) (hstart : number.start fields = 0)
    (hmissing : number.set fields (-1) = fields) :
    (∀ m, boundRun bound = some m →
      Reading (seen ++ boundText bound) { number.set fields m with cs := number.digitsCs }) ∧
    (boundRun bound = none → OutOfRange (seen ++ boundText bound)) := by
  have hawaits : number.Awaits fields.cs := by
    rw [hcs]
    exact number.awaits_digitsCs
  cases bound with
  | none =>
    constructor
    · intro m hm
      cases hm
      rw [hmissing, ← hcs, boundText, append_nil]
      exact h
    · intro hnone
      cases hnone
  | some digits =>
    rw [boundRun, boundText, ← hstart]
    constructor
    · intro m hm
      exact h.digitRun number hawaits digits.isDigits digits.ne_nil hm
    · intro hnone
      exact h.digitRun_stop number hawaits digits.isDigits hnone

/-- Both bounds are missing behind `bytes=`. -/
theorem Reading.rangeUnit (start : HeaderStart .range) (h : Reading seen fields)
    (hline : fields.cs.isLineStart = true) (hsmall : (seen ++ start.text).length ≤ 65536) :
    ∃ lineEnd, fields.lineEnd ≤ lineEnd ∧ Reading (seen ++ start.text ++ ascii "bytes=")
      { fields with cs := .rangeBeg, rangeBeg := -1, rangeEnd := -1, lineEnd := lineEnd } := by
  obtain ⟨at_, lineEnd, hopen, hlater, hread⟩ := h.headerStart start hline hsmall
  have hnext : httpNext (.sep .range at_) 98 = (.rangeInit, .rangeUnit (ascii "ytes=")) :=
    sepNext_value hopen (by decide) (by decide)
  have hinit : Reading (seen ++ start.text ++ [98])
      { fields with cs := .rangeUnit (ascii "ytes="), rangeBeg := -1, rangeEnd := -1, lineEnd := lineEnd } := by
    apply hread.of_goto
    simp only [headStep, hnext]
  have hrun : keepRun (.rangeUnit (ascii "ytes=")) (ascii "ytes=") = some .rangeBeg := by decide +kernel
  have htext : ascii "bytes=" = [98] ++ ascii "ytes=" := by decide +kernel
  have hword := hinit.word hrun
  rw [append_assoc, ← htext] at hword
  exact ⟨lineEnd, hlater, hword⟩

theorem Reading.range (start : HeaderStart .range) (first last : Option Digits) (h : Reading seen fields)
    (hline : fields.cs.isLineStart = true) (hsmall : (seen ++ start.text).length ≤ 65536) :
    (∀ m n, boundRun first = some m → boundRun last = some n →
      ∃ lineEnd, fields.lineEnd ≤ lineEnd ∧
        Reading (seen ++ start.text ++ ascii "bytes=" ++ boundText first ++ [45] ++ boundText last)
          { fields with cs := .rangeEnd, rangeBeg := m, rangeEnd := n, lineEnd := lineEnd }) ∧
    (boundRun first = none ∨ boundRun last = none →
      OutOfRange (seen ++ start.text ++ ascii "bytes=" ++ boundText first ++ [45] ++ boundText last)) := by
  obtain ⟨lineEnd, hlater, hunit⟩ := h.rangeUnit start hline hsmall
  have hfirst := hunit.bound .rangeBeg first rfl rfl rfl
  have hdash : ∀ m, boundRun first = some m →
      Reading (seen ++ start.text ++ ascii "bytes=" ++ boundText first ++ [45])
        { fields with cs := .rangeEnd, rangeBeg := m, rangeEnd := -1, lineEnd := lineEnd } := by
    intro m hm
    exact (hfirst.1 m hm).keep rfl
  constructor
  · intro m n hm hn
    exact ⟨lineEnd, hlater, ((hdash m hm).bound .rangeEnd last rfl rfl rfl).1 n hn⟩
  · intro hnone
    cases hm : boundRun first with
    | none => exact ((hfirst.2 hm).append [45]).append (boundText last)
    | some m =>
      rw [hm] at hnone
      have hn := hnone.resolve_left (by simp)
      exact ((hdash m hm).bound .rangeEnd last rfl rfl rfl).2 hn

/-- **A header with numbers** is read to its end, or refused where a number gets smaller. -/
theorem Reading.header (header : LengthHeader) (h : Reading seen fields) (hline : fields.cs.isLineStart = true)
    (hsmall : (seen ++ header.start).length ≤ 65536) :
    (∀ numbers, header.run fields.numbers = some numbers → ∃ lineEnd, fields.lineEnd ≤ lineEnd ∧
      Reading (seen ++ header.text)
        { fields.withNumbers numbers with cs := header.endCs, lineEnd := lineEnd }) ∧
    (header.run fields.numbers = none → OutOfRange (seen ++ header.text)) := by
  cases header with
  | contentLength start length =>
    have hread := h.contentLength start length hline hsmall
    simp only [LengthHeader.text, ← append_assoc]
    constructor
    · intro numbers hrun
      obtain ⟨n, hn, rfl⟩ := Option.map_eq_some_iff.mp hrun
      exact hread.1 n hn
    · intro hrun
      exact hread.2 (Option.map_eq_none_iff.mp hrun)
  | contentRange start blanks first last =>
    have hread := h.contentRange start blanks first last hline hsmall
    simp only [LengthHeader.text, ← append_assoc]
    constructor
    · intro numbers hrun
      obtain ⟨m, hm, hrun⟩ := Option.bind_eq_some_iff.mp hrun
      obtain ⟨n, hn, rfl⟩ := Option.map_eq_some_iff.mp hrun
      exact hread.1 m n hm hn
    · intro hrun
      exact hread.2 (eq_none_of_both hrun)
  | range start first last =>
    have hread := h.range start first last hline hsmall
    simp only [LengthHeader.text, ← append_assoc]
    constructor
    · intro numbers hrun
      obtain ⟨m, hm, hrun⟩ := Option.bind_eq_some_iff.mp hrun
      obtain ⟨n, hn, rfl⟩ := Option.map_eq_some_iff.mp hrun
      exact hread.1 m n hm hn
    · intro hrun
      exact hread.2 (eq_none_of_both hrun)

end Headers

end Cmogstored
