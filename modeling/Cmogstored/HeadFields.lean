import Cmogstored.LineText

/-! The lines of a head one after the other, and what the headers with numbers among them leave behind. -/

namespace Cmogstored

open List Scan

/-! ### One line -/

/-- Where the parser can stand behind a line: `text` is what it has read since the start of the header,
`line` the line that ended. A line is `fresh` if it was not ignored from its start. -/
inductive BehindLine (fresh : Prop) (text line : Bytes) (fields : Fields) (pos : Nat) : Prop where
  | lineStart (hcs : fields.cs.isLineStart = true)
  -- the value may stand in the next line; if it does not, that line is ignored
  | awaitsFold (hfresh : fresh) (hcs : fields.cs.awaitsFold = true) (hend : fields.lineEnd + 1 = pos)
      (htext : LineText fields.cs text)
  | ignoredFold (hcs : fields.cs = .ignored .foldStart)
  -- the line that should be read once more has no second byte, so the next one is ignored instead
  | ignoredNext (hcs : fields.cs = .ignored .nameStart) (hline : line = [LF])

/-- The scan is in the line that starts at `b`, or has just left it. -/
structure InLine (fresh : Prop) (buf : Bytes) (a b : Nat) (marks : Marks) (fields : Fields) (pos : Nat) : Prop where
  wordRest : LF ∉ fields.cs.wordRest
  header : fields.cs.inRequestLine = false
  marks : fields.cs.inNumber = false → fields.marks = marks
  place : b ≤ pos ∧ pos < buf.length ∧ (fields.cs.isIgnored = true ∨
      fresh ∧ fields.lineEnd + 1 = b ∧ LineText fields.cs ((buf.take pos).drop a)) ∨
    pos = buf.length ∧ fields.cs.inNumber = false ∧ BehindLine fresh (buf.drop a) (buf.drop b) fields pos

/-- Only the last byte of the line is a line end. -/
structure LineIn (buf : Bytes) (b : Nat) : Prop where
  start : b < buf.length
  last : buf[buf.length - 1]? = some LF
  inside : ∀ p, b ≤ p → p + 1 < buf.length → buf[p]? ≠ some LF

theorem LineIn.pos_eq {buf : Bytes} {b pos : Nat} (h : LineIn buf b) (hb : b ≤ pos) (hc : buf[pos]? = some LF) :
    pos + 1 = buf.length := by
  have hless := (List.getElem?_eq_some_iff.mp hc).1
  by_contra hne
  exact h.inside pos hb (by omega) hc

theorem LineIn.lt {buf : Bytes} {b pos : Nat} {c : Byte} (h : LineIn buf b) (hc : buf[pos]? = some c) (hne : c ≠ LF) :
    pos + 1 < buf.length := by
  have hless := (List.getElem?_eq_some_iff.mp hc).1
  by_contra hge
  have hpos : pos = buf.length - 1 := by omega
  rw [hpos, h.last] at hc
  exact hne (Option.some.inj hc).symm

theorem drop_take_concat {buf : Bytes} {a pos : Nat} {c : Byte} (ha : a ≤ pos) (hc : buf[pos]? = some c) :
    (buf.take (pos + 1)).drop a = (buf.take pos).drop a ++ [c] := by
  have hless := (List.getElem?_eq_some_iff.mp hc).1
  rw [take_add_one, hc, Option.toList_some, drop_append_of_le_length]
  rw [length_take]
  omega

/-- A number that is not complete is refused, never passed over. -/
theorem httpNext_inNumber {cs : HttpCs} (c : Byte) (hcs : cs.inNumber = true) :
    (httpNext cs c).1.stops = false ∨ (httpNext cs c).1 = .invalid := by
  cases cs <;> simp only [HttpCs.inNumber, Bool.false_eq_true] at hcs <;> dsimp only [httpNext, wordNext] <;>
    (repeat' split) <;> first | exact Or.inl rfl | exact Or.inr rfl

theorem headStep_invalid {buf : Bytes} {fields fields' : Fields} {pos pos' : Nat} {c : Byte}
    (h : (httpNext fields.cs c).1 = .invalid) : headStep buf fields pos c ≠ .goto fields' pos' := by
  rcases hnext : httpNext fields.cs c with ⟨act, cs⟩
  rw [hnext] at h
  cases h
  simp [headStep, hnext]

theorem awaitsFold_quiet {cs : HttpCs} (h : cs.awaitsFold = true) :
    cs.isLineStart = false ∧ cs.inNumber = false := by
  cases cs <;> first | exact ⟨rfl, rfl⟩ | cases h

theorem isLineStart_quiet {cs : HttpCs} (h : cs.isLineStart = true) : cs.inNumber = false := by
  cases cs <;> first | rfl | cases h

section InLine

variable {fresh : Prop} {buf : Bytes} {a b : Nat} {marks : Marks} {fields fields' : Fields} {pos pos' : Nat} {c : Byte}

/-- A byte of a line that is ignored. -/
theorem InLine.ignored (hline : LineIn buf b) (h : InLine fresh buf a b marks fields pos) (hb : b ≤ pos)
    (hcs : fields.cs.isIgnored = true) (hc : buf[pos]? = some c)
    (hmove : headStep buf fields pos c = .goto fields' pos') : InLine fresh buf a b marks fields' pos' := by
  obtain ⟨at_, hat⟩ : ∃ at_, fields.cs = .ignored at_ := by
    cases hcs' : fields.cs <;> simp_all [HttpCs.isIgnored]
  have hmarks : fields.marks = marks := h.marks (by rw [hat]; rfl)
  have hword := httpNext_wordRest c h.wordRest
  have hends := httpNext_endsAt fields.cs c
  rw [hat] at hword hends
  rcases httpNext_ignored at_ c with ⟨at', hkeep⟩ | ⟨cs, hlast⟩ | hreject
  · have hne : c ≠ LF := by
      rintro rfl
      have hlf := httpNext_lf h.header h.wordRest
      rw [hat, hkeep] at hlf
      simp [HeadAct.endsLine, HeadAct.stops] at hlf
    simp only [headStep, hat, hkeep] at hmove
    cases hmove
    rw [hkeep] at hword
    exact ⟨hword, rfl, fun _ => hmarks, Or.inl ⟨by omega, hline.lt hc hne, Or.inl rfl⟩⟩
  · rw [hlast] at hword hends
    obtain ⟨rfl, hcs'⟩ := hends rfl
    simp only [headStep, hat, hlast] at hmove
    split at hmove
    · rename_i lineEnd hlineEnd
      cases hmove
      have hpos := hline.pos_eq hb hc
      -- the second reading of a line never waits for the value of a field
      have hnext : cs = .headers ∨ cs = .ignored .foldStart := by
        have : ignoredHeadNext at_ LF = (.lineEnd, cs) := hlast
        unfold ignoredHeadNext at this
        split at this <;> cases this
        · exact Or.inr rfl
        · exact Or.inl rfl
      rcases hnext with rfl | rfl
      · exact ⟨hword, rfl, fun _ => hmarks, Or.inr ⟨hpos, rfl, .lineStart rfl⟩⟩
      · exact ⟨hword, rfl, fun _ => hmarks, Or.inr ⟨hpos, rfl, .ignoredFold rfl⟩⟩
    · cases hmove
  · exact absurd hmove (headStep_ne_goto (by rw [hat, hreject]))

/-- A byte that sends the parser back to the start of the line. -/
theorem InLine.stops (hline : LineIn buf b) (h : InLine fresh buf a b marks fields pos)
    (hend : fields.lineEnd + 1 = b) (hstops : (httpNext fields.cs c).1.stops = true)
    (hmove : headStep buf fields pos c = .goto fields' pos') : InLine fresh buf a b marks fields' pos' := by
  have hnumber : fields.cs.inNumber = false := by
    by_contra hnumber
    rcases httpNext_inNumber c (by simpa using hnumber) with hnot | hinvalid
    · rw [hstops] at hnot
      cases hnot
    · exact headStep_invalid hinvalid hmove
  obtain ⟨rfl, rfl⟩ := headStep_goto_stops hmove hstops
  have hstart := hline.start
  refine ⟨by simp [HttpCs.wordRest], rfl, fun _ => h.marks hnumber, ?_⟩
  by_cases hmore : b + 1 < buf.length
  · exact Or.inl ⟨by omega, by omega, Or.inl rfl⟩
  · have hlast : buf.drop b = [LF] := by
      have hlf := hline.last
      have hb : buf.length - 1 = b := by omega
      rw [hb] at hlf
      rw [drop_eq_getElem?_toList_append, hlf]
      simp
      omega
    exact Or.inr ⟨by omega, rfl, .ignoredNext rfl hlast⟩

/-- A byte of a line that is read for the first time. -/
theorem InLine.direct (hline : LineIn buf b) (ha : a ≤ b) (hnone : ¬ StatesNumbers (buf.drop a))
    (h : InLine fresh buf a b marks fields pos) (hb : b ≤ pos) (hfresh : fresh)
    (hend : fields.lineEnd + 1 = b) (htext : LineText fields.cs ((buf.take pos).drop a)) (hc : buf[pos]? = some c)
    (hstops : (httpNext fields.cs c).1.stops = false)
    (hmove : headStep buf fields pos c = .goto fields' pos') : InLine fresh buf a b marks fields' pos' := by
  have hmore := drop_take_concat (Nat.le_trans ha hb) hc
  have hnext := httpNext_textNext h.header htext hstops
  rw [← hmore] at hnext
  have hquiet : ¬ StatesNumbers ((buf.take (pos + 1)).drop a) := by
    rintro ⟨header, hheader⟩
    rw [drop_take] at hheader
    exact hnone ⟨header, hheader.trans (List.take_prefix _ _)⟩
  -- outside numbers the marks stay as they were
  have hmarks : (httpNext fields.cs c).2.inNumber = false → fields'.marks = marks := by
    intro hnumber
    have hact : (httpNext fields.cs c).1.marks = false := by
      by_contra hact
      rcases hnext.marks (by simpa using hact) with hyes | hyes
      · rw [hnumber] at hyes
        cases hyes
      · exact hquiet hyes
    have hbefore : fields.cs.inNumber = false := by
      by_contra hbefore
      rcases hnext.inNumber (by simpa using hbefore) with hyes | hyes
      · rw [hnumber] at hyes
        cases hyes
      · exact hquiet hyes
    rw [headStep_marks hmove hact, h.marks hbefore]
  obtain ⟨hcs, rfl, hend'⟩ := headStep_direct hmove hstops
  have hword := httpNext_wordRest c h.wordRest
  have hheader := httpNext_not_inRequestLine c h.header
  rw [← hcs] at hword hheader hmarks
  refine ⟨hword, hheader, hmarks, ?_⟩
  by_cases hends : (httpNext fields.cs c).1.endsLine = true
  · obtain ⟨rfl, hwhere⟩ := httpNext_endsAt fields.cs c hends
    rw [if_pos hends] at hend'
    have hpos := hline.pos_eq hb hc
    have hall : (buf.take (pos + 1)).drop a = buf.drop a := by rw [hpos, take_length]
    have hlines : fields'.lineEnd + 1 = pos + 1 := by rw [hend']
    rw [← hcs] at hwhere
    refine Or.inr ⟨hpos, ?_⟩
    have hline' := hnext.line
    rw [hall, ← hcs] at hline'
    rcases hwhere with hstart | hfold | hfold
    · exact ⟨isLineStart_quiet hstart, .lineStart hstart⟩
    · obtain ⟨hnot, hnumber⟩ := awaitsFold_quiet hfold
      exact ⟨hnumber, .awaitsFold hfresh hfold hlines (hline'.resolve_left (by simp [hnot]))⟩
    · rw [hfold]
      exact ⟨rfl, .ignoredFold hfold⟩
  · rw [if_neg hends] at hend'
    have hne : c ≠ LF := by
      rintro rfl
      rcases httpNext_lf h.header h.wordRest with hyes | hyes
      · exact hends hyes
      · rw [hstops] at hyes
        cases hyes
    refine Or.inl ⟨by omega, hline.lt hc hne, Or.inr ⟨hfresh, by omega, ?_⟩⟩
    rw [hcs]
    rcases hnext.line with hstart | htext'
    · exact absurd ((httpNext_lineNext fields.cs c).lineStart hstart).1 hne
    · exact htext'

theorem inLine_step (hline : LineIn buf b) (ha : a ≤ b) (hnone : fresh → ¬ StatesNumbers (buf.drop a))
    (h : InLine fresh buf a b marks fields pos) (hc : buf[pos]? = some c) :
    (headStep buf fields pos c).Sat (InLine fresh buf a b marks) fun _ _ _ => True := by
  cases hmove : headStep buf fields pos c with
  | fail => trivial
  | halt fields' pos' why => trivial
  | goto fields' pos' =>
    have hless := (List.getElem?_eq_some_iff.mp hc).1
    rcases h.place with ⟨hb, -, hignored | ⟨hfresh, hend, htext⟩⟩ | ⟨hpos, -⟩
    · exact h.ignored hline hb hignored hc hmove
    · cases hstops : (httpNext fields.cs c).1.stops with
      | true => exact h.stops hline hend hstops hmove
      | false => exact h.direct hline ha (hnone hfresh) hb hfresh hend htext hc hstops hmove
    · omega

end InLine

/-- A line ends with the only line end in it. -/
def IsLine (line : Bytes) : Prop := ∃ text, LF ∉ text ∧ line = text ++ [LF]

theorem IsLine.ne_nil {line : Bytes} (h : IsLine line) : line ≠ [] := by
  obtain ⟨text, -, rfl⟩ := h
  simp

theorem IsLine.lineIn {line : Bytes} (h : IsLine line) (seen : Bytes) : LineIn (seen ++ line) seen.length := by
  obtain ⟨text, htext, rfl⟩ := h
  refine ⟨by simp, by simp, ?_⟩
  intro p hp hless
  rw [List.getElem?_append_right hp, List.getElem?_append_left (by simp at hless; omega)]
  intro hlf
  exact htext (mem_of_getElem? hlf)

/-- The parser stands behind a line end, `text` being what it has read of a header that goes on. -/
structure BetweenLines (fresh : Prop) (text : Bytes) (fields : Fields) (pos : Nat) : Prop where
  header : fields.cs.inRequestLine = false
  quiet : fields.cs.inNumber = false
  place : fields.cs.isIgnored = true ∨ fresh ∧ fields.lineEnd + 1 = pos ∧ LineText fields.cs text

/-- **A line in which no header states numbers** leaves the marks alone. -/
theorem Reading.line {fresh : Prop} {seen line : Bytes} {fields fields' : Fields} {a : Nat} (h : Reading seen fields)
    (hline : IsLine line) (ha : a ≤ seen.length) (hat : BetweenLines fresh (seen.drop a) fields seen.length)
    (hnone : fresh → ¬ StatesNumbers ((seen ++ line).drop a)) (h' : Reading (seen ++ line) fields') :
    fields'.marks = fields.marks ∧
      BehindLine fresh ((seen ++ line).drop a) line fields' (seen ++ line).length := by
  have hin := hline.lineIn seen
  have htake : (seen ++ line).take seen.length = seen := by simp
  have hdrop : (seen ++ line).drop seen.length = line := by simp
  have hinit : InLine fresh (seen ++ line) a seen.length fields.marks fields seen.length := by
    refine ⟨h.lineInv.wordRest, hat.header, fun _ => rfl, Or.inl ⟨Nat.le_refl _, hin.start, ?_⟩⟩
    rw [htake]
    exact hat.place
  have hsat : InLine fresh (seen ++ line) a seen.length fields.marks fields' (seen ++ line).length :=
    Scans.sat (J := fun _ _ _ => True) (fun _ _ _ hinv hc => inLine_step hin ha hnone hinv hc) (h.resume.mpr h') hinit
  rcases hsat.place with ⟨-, hless, -⟩ | ⟨-, hquiet, hbehind⟩
  · omega
  · rw [hdrop] at hbehind
    exact ⟨hsat.marks hquiet, hbehind⟩

/-! ### Bytes -/

section Bytes

variable {seen rest : Bytes} {fields fields' : Fields} {c : Byte}

theorem Reading.moves (h : Reading seen fields) (h' : Reading (seen ++ c :: rest) fields') :
    ∃ state pos, headStep (seen ++ c :: rest) fields seen.length c = .goto state pos ∧
      Scans headStep (seen ++ c :: rest) state pos (.more fields' (seen ++ c :: rest).length) :=
  (h.resume.mpr h').more_goto (by simp)

/-- A byte that does not send the parser back. -/
theorem Reading.step (h : Reading seen fields) (h' : Reading (seen ++ [c]) fields')
    (hstops : (httpNext fields.cs c).1.stops = false) :
    headStep (seen ++ [c]) fields seen.length c = .goto fields' (seen.length + 1) ∧
      fields'.cs = (httpNext fields.cs c).2 := by
  obtain ⟨state, pos, hmove, hrest⟩ := h.moves h'
  obtain ⟨hcs, rfl, -⟩ := headStep_direct hmove hstops
  have hend : Scans headStep (seen ++ [c]) state (seen.length + 1) (.more state (seen.length + 1)) := .more (by simp)
  have hsame := hrest.det hend
  injection hsame with hstate
  rw [hstate]
  exact ⟨hmove, hcs⟩

theorem Reading.not_reject (h : Reading seen fields) (hreject : (httpNext fields.cs c).1 = .reject) :
    ¬ Reading (seen ++ c :: rest) fields' := by
  intro h'
  obtain ⟨state, pos, hmove, -⟩ := h.moves h'
  exact headStep_ne_goto hreject hmove

end Bytes

/-! ### The end of a header -/

section Rest

variable {seen rest : Bytes} {fields fields' : Fields} {c : Byte}

theorem IsLine.tail (h : IsLine (c :: rest)) (hne : rest ≠ []) : c ≠ LF ∧ IsLine rest := by
  obtain ⟨text, htext, heq⟩ := h
  cases text with
  | nil => exact absurd (List.cons.inj heq).2 hne
  | cons d text =>
    obtain ⟨rfl, rfl⟩ := List.cons.inj heq
    exact ⟨fun hc => htext (by simp [hc]), text, fun hmem => htext (mem_cons_of_mem _ hmem), rfl⟩

/-- No line end stands between the last one and the end of this line. -/
theorem Reading.lineIn (h : Reading seen fields) (hfresh : fields.cs.isIgnored = false) (hne : fields.lineEnd ≠ 0)
    (hline : IsLine rest) : LineIn (seen ++ rest) (fields.lineEnd + 1) := by
  have hin := hline.lineIn seen
  have hpos : fields.lineEnd + 1 ≤ seen.length := by
    have := (h.headAt []).2
    omega
  refine ⟨by have := hin.start; omega, hin.last, ?_⟩
  intro p hp hless
  by_cases hbefore : p < seen.length
  · rw [List.getElem?_append_left hbefore]
    exact h.lineInv.line hne p hp hbefore (Or.inl hfresh)
  · exact hin.inside p (by omega) hless

/-- What `has_content_range` is set for: `/*` behind the last digit, and a blank or the end of the line. -/
def isContentRangeTail : Bytes → Bool
  | 47 :: 42 :: c :: _ => isLws c || c == CR
  | _ => false

/-- What `has_range` is set for: nothing but blanks behind the last digit. -/
def isRangeTail (tail : Bytes) : Bool := tail.dropWhile isLws == [CR, LF]

/-- The marks behind a header and what follows it in its line. -/
def LengthHeader.marked (header : LengthHeader) (tail : Bytes) (marks : Marks) (numbers : Numbers) : Marks :=
  match header with
  | .contentLength _ _ => { marks with numbers := numbers }
  | .contentRange _ _ _ _ =>
    { marks with numbers := numbers, hasContentRange := marks.hasContentRange || isContentRangeTail tail }
  | .range _ _ _ => { marks with numbers := numbers, hasRange := marks.hasRange || isRangeTail tail }

theorem Reading.lineEnd_ne_zero (h : Reading seen fields) (hcs : fields.cs.inRequestLine = false) :
    fields.lineEnd ≠ 0 := by
  intro hzero
  rw [(h.lineInv.request hzero).1] at hcs
  cases hcs

end Rest

/-! ### Headers without a value -/

/-- The name of a field, blanks, and the end of the line. -/
def isEmptyHeader (text : Bytes) : Bool :=
  fieldNames.any fun entry =>
    entry.1.isPrefixOf (text.map toLower) && (text.drop entry.1.length).dropWhile isLws == [CR, LF]

theorem isEmptyHeader_iff {text : Bytes} :
    isEmptyHeader text = true ↔ ∃ entry ∈ fieldNames, SepText entry.1 .lf text := by
  unfold isEmptyHeader
  rw [any_eq_true]
  constructor
  · rintro ⟨entry, hentry, h⟩
    rw [Bool.and_eq_true, isPrefixOf_iff_prefix, beq_iff_eq] at h
    obtain ⟨hname, hend⟩ := h
    refine ⟨entry, hentry, text.take entry.1.length, (text.drop entry.1.length).takeWhile isLws, ?_, ?_, ?_⟩
    · rw [map_take]
      exact (prefix_iff_eq_take.mp hname).symm
    · exact all_eq_true.mp all_takeWhile
    · rw [← hend, append_assoc, takeWhile_append_dropWhile, take_append_drop]
  · rintro ⟨entry, hentry, name, blanks, hname, hblanks, rfl⟩
    have hlength : entry.1.length = name.length := by rw [← hname, length_map]
    have hcr : isLws CR = false := by decide
    refine ⟨entry, hentry, ?_⟩
    rw [Bool.and_eq_true, isPrefixOf_iff_prefix, beq_iff_eq]
    constructor
    · rw [← hname, append_assoc, map_append]
      exact prefix_append _ _
    · rw [hlength, append_assoc, drop_left, dropWhile_append_of_pos hblanks, dropWhile_cons, hcr]
      rfl

theorem isEmptyHeader_of_awaitsFold {cs : HttpCs} {text : Bytes} (hcs : cs.awaitsFold = true)
    (htext : LineText cs text) : isEmptyHeader text = true := by
  apply isEmptyHeader_iff.mpr
  cases cs with
  | sep field at_ =>
    cases at_ <;> first | exact ⟨_, field.mem_fieldNames, htext⟩ | cases hcs
  | md5 at_ =>
    cases at_ with
    | sep at_ =>
      cases at_ <;>
        first
        | exact ⟨(ascii "content-md5:", .md5 (.sep .blank)), by simp [fieldNames], htext⟩
        | cases hcs
    | _ => cases hcs
  | _ => cases hcs

end Cmogstored
