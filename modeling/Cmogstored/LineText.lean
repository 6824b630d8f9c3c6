import Cmogstored.HeadLines

/-! What the parser has read of a line when it is in a given state of `header_line`. From it follows that a
number is written only where a header states one. -/

namespace Cmogstored

open List Scan

variable {text rest field : Bytes} {cs cs' : HttpCs} {act onError : HeadAct}

/-- A header with numbers starts here, and its last digit has been read. -/
def StatesNumbers (text : Bytes) : Prop := ∃ header : LengthHeader, header.text <+: text

theorem StatesNumbers.append (h : StatesNumbers text) (more : Bytes) :
    StatesNumbers (text ++ more) := by
  obtain ⟨header, hpre⟩ := h
  exact ⟨header, hpre.trans (prefix_append text more)⟩

/-- A field name, without regard to case, and the part of `sep` that leads to `at_`. -/
def SepText (field : Bytes) : SepCs → Bytes → Prop
  | .blank, text => ∃ name blanks, name.map toLower = field ∧ IsBlanks blanks ∧ text = name ++ blanks
  | .cr, text => ∃ name blanks, name.map toLower = field ∧ IsBlanks blanks ∧ text = name ++ blanks ++ [CR]
  | .lf, text => ∃ name blanks, name.map toLower = field ∧ IsBlanks blanks ∧ text = name ++ blanks ++ [CR, LF]
  | .fold, text => ∃ name blanks behind, name.map toLower = field ∧ IsBlanks blanks ∧ IsBlanks behind ∧
      behind ≠ [] ∧ text = name ++ blanks ++ [CR, LF] ++ behind

/-- What has been read of the line. -/
def LineText : HttpCs → Bytes → Prop
  | .headers, text => text = []
  | .headersAfterMd5, text => text = []
  | .name seen, text => text.map toLower = seen
  | .sep field at_, text => SepText field.text at_ text
  | .md5 (.sep at_), text => SepText (ascii "content-md5:") at_ text
  | .contentRangeUnit rest, text => ∃ (start : HeaderStart .contentRange) (word : Bytes),
      word ++ rest = ascii "bytes" ∧ text = start.text ++ word
  | .contentRangeBlank, text => ∃ start : HeaderStart .contentRange, text = start.text ++ ascii "bytes"
  | .contentRangeStart, text => ∃ (start : HeaderStart .contentRange) (blanks : BlankRun),
      text = start.text ++ ascii "bytes" ++ blanks.text
  | .contentRangeBeg, text => ∃ (start : HeaderStart .contentRange) (blanks : BlankRun) (first : Digits),
      text = start.text ++ ascii "bytes" ++ blanks.text ++ first.text
  | .contentRangeDash, text => ∃ (start : HeaderStart .contentRange) (blanks : BlankRun) (first : Digits),
      text = start.text ++ ascii "bytes" ++ blanks.text ++ first.text ++ [45]
  | .rangeUnit rest, text => ∃ (start : HeaderStart .range) (word : Bytes),
      word ++ rest = ascii "bytes=" ∧ text = start.text ++ word
  | .rangeBeg, text => ∃ (start : HeaderStart .range) (first : Option Digits),
      text = start.text ++ ascii "bytes=" ++ boundText first
  | .lengthDigits, text => StatesNumbers text
  | .contentRangeEnd, text => StatesNumbers text
  | .contentRangeSlash, text => StatesNumbers text
  | .contentRangeStar, text => StatesNumbers text
  | .rangeEnd, text => StatesNumbers text
  | .rangeEor, text => StatesNumbers text
  | .rangeEorLf, text => StatesNumbers text
  | _, _ => True

/-- A number has been touched, and the header that states it is not complete. -/
def HttpCs.inNumber : HttpCs → Bool
  | .contentRangeBeg => true
  | .contentRangeDash => true
  | .rangeUnit _ => true
  | .rangeBeg => true
  | _ => false

/-- What one more byte of a line does. -/
structure TextNext (cs : HttpCs) (text : Bytes) (next : HeadAct × HttpCs) : Prop where
  line : next.2.isLineStart = true ∨ LineText next.2 text
  marks : next.1.marks = true → next.2.inNumber = true ∨ StatesNumbers text
  inNumber : cs.inNumber = true → next.2.inNumber = true ∨ StatesNumbers text

/-- Outside numbers. -/
theorem TextNext.of_quiet (hcs : cs.inNumber = false)
    (hact : act.marks = false) (htext : LineText cs' text) : TextNext cs text (act, cs') where
  line := Or.inr htext
  marks h := absurd h (by simp [hact])
  inNumber h := absurd h (by simp [hcs])

theorem TextNext.of_number (hcs : cs'.inNumber = true)
    (htext : LineText cs' text) : TextNext cs text (act, cs') where
  line := Or.inr htext
  marks _ := Or.inl hcs
  inNumber _ := Or.inl hcs

theorem TextNext.of_states (h : StatesNumbers text)
    (htext : cs'.isLineStart = true ∨ LineText cs' text) : TextNext cs text (act, cs') where
  line := htext
  marks _ := Or.inr h
  inNumber _ := Or.inr h

section Next

variable {text : Bytes} {c : Byte}

theorem fieldNames_lineText {entry : Bytes × HttpCs} (hentry : entry ∈ fieldNames)
    (htext : text.map toLower = entry.1) : LineText entry.2 text := by
  have hsep : SepText entry.1 .blank text := ⟨text, [], htext, by simp [IsBlanks], by simp⟩
  simp only [fieldNames, mem_cons, not_mem_nil, or_false] at hentry
  rcases hentry with rfl | rfl | rfl | rfl | rfl | rfl | rfl <;> exact hsep

theorem nameNext_textNext {seen : Bytes} (hcs : cs.inNumber = false)
    (htext : text.map toLower = seen) (hact : (nameNext seen c onError).1.stops = false)
    (herror : onError.stops = true) : TextNext cs (text ++ [c]) (nameNext seen c onError) := by
  have hmore : (text ++ [c]).map toLower = seen ++ [toLower c] := by simp [htext]
  unfold nameNext at hact ⊢
  dsimp only at hact ⊢
  split
  · rename_i entry hentry
    have hname : entry.1 = seen ++ [toLower c] := by simpa using List.find?_some hentry
    exact .of_quiet hcs rfl (fieldNames_lineText (mem_of_find?_eq_some hentry) (hmore.trans hname.symm))
  · rename_i hnone
    rw [hnone] at hact
    dsimp only at hact
    split
    · exact .of_quiet hcs rfl hmore
    · rename_i hany
      rw [if_neg hany, herror] at hact
      cases hact

theorem headersNext_textNext (hcs : cs.inNumber = false) (htext : text = [])
    (hact : (headersNext c onError).1.stops = false) (herror : onError.stops = true) :
    TextNext cs (text ++ [c]) (headersNext c onError) := by
  subst htext
  unfold headersNext at hact ⊢
  split
  · exact .of_quiet hcs rfl trivial
  · rename_i hcr
    rw [if_neg hcr] at hact
    exact nameNext_textNext hcs rfl hact herror

theorem wordNext_textNext {c' : Byte} {more : Bytes → HttpCs}
    {last : HeadAct × HttpCs} (hact : (wordNext rest c' more last onError).1.stops = false)
    (hmore : ∀ rest', rest = c' :: rest' → TextNext cs text (.keep, more rest'))
    (hlast : rest = [c'] → TextNext cs text last) (herror : onError.stops = true) :
    TextNext cs text (wordNext rest c' more last onError) := by
  unfold wordNext at hact ⊢
  split
  · rw [herror] at hact
    cases hact
  · rename_i expected rest
    dsimp only at hact
    split
    · rename_i hc
      obtain rfl : c' = expected := by simpa using hc
      split
      · rename_i hempty
        exact hlast (by rw [isEmpty_iff.mp hempty])
      · exact hmore rest rfl
    · rename_i hc
      rw [if_neg hc, herror] at hact
      cases hact

/-- The value of a field starts. -/
theorem valueNext_textNext (field : Field) (start : HeaderStart field) (hcs : cs.inNumber = false)
    (hact : (valueNext field c).1.stops = false) : TextNext cs (start.text ++ [c]) (valueNext field c) := by
  cases field with
  | contentLength =>
    simp only [valueNext] at hact ⊢
    split
    · rename_i hc
      have hdigits : IsDigits [c] := by
        intro d hd
        obtain rfl := mem_singleton.mp hd
        exact hc
      have hstates : StatesNumbers (start.text ++ [c]) :=
        ⟨.contentLength start ⟨[c], hdigits, by simp⟩, prefix_refl _⟩
      exact .of_states hstates (Or.inr hstates)
    · rename_i hc
      rw [if_neg hc] at hact
      cases hact
  | contentRange =>
    simp only [valueNext] at hact ⊢
    split
    · rename_i hc
      obtain rfl : c = 98 := by simpa using hc
      exact .of_quiet hcs rfl ⟨start, [98], by decide +kernel, rfl⟩
    · rename_i hc
      rw [if_neg hc] at hact
      cases hact
  | range =>
    simp only [valueNext] at hact ⊢
    split
    · rename_i hc
      obtain rfl : c = 98 := by simpa using hc
      exact .of_number rfl ⟨start, [98], by decide +kernel, rfl⟩
    · rename_i hc
      rw [if_neg hc] at hact
      cases hact
  | connection =>
    simp only [valueNext] at hact ⊢
    (repeat' split) <;> exact .of_quiet hcs rfl trivial
  | transferEncoding =>
    simp only [valueNext] at hact ⊢
    (repeat' split) <;> exact .of_quiet hcs rfl trivial
  | trailer =>
    simp only [valueNext] at hact ⊢
    (repeat' split) <;> exact .of_quiet hcs rfl trivial

theorem IsBlanks.concat {blanks : Bytes} (h : IsBlanks blanks) (hc : isLws c = true) : IsBlanks (blanks ++ [c]) := by
  intro d hd
  rcases mem_append.mp hd with hd | hd
  · exact h d hd
  · obtain rfl := mem_singleton.mp hd
    exact hc

theorem SepText.blank (h : SepText field .blank text) (hc : isLws c = true) :
    SepText field .blank (text ++ [c]) := by
  obtain ⟨name, blanks, hname, hblanks, rfl⟩ := h
  exact ⟨name, blanks ++ [c], hname, hblanks.concat hc, by simp⟩

theorem SepText.cr (h : SepText field .blank text) : SepText field .cr (text ++ [CR]) := by
  obtain ⟨name, blanks, hname, hblanks, rfl⟩ := h
  exact ⟨name, blanks, hname, hblanks, rfl⟩

theorem SepText.lf (h : SepText field .cr text) : SepText field .lf (text ++ [LF]) := by
  obtain ⟨name, blanks, hname, hblanks, rfl⟩ := h
  exact ⟨name, blanks, hname, hblanks, by simp⟩

theorem SepText.fold (h : SepText field .lf text) (hc : isLws c = true) :
    SepText field .fold (text ++ [c]) := by
  obtain ⟨name, blanks, hname, hblanks, rfl⟩ := h
  exact ⟨name, blanks, [c], hname, hblanks, @IsBlanks.concat c [] (by simp [IsBlanks]) hc, by simp, rfl⟩

theorem SepText.folded (h : SepText field .fold text) (hc : isLws c = true) :
    SepText field .fold (text ++ [c]) := by
  obtain ⟨name, blanks, behind, hname, hblanks, hbehind, hne, rfl⟩ := h
  exact ⟨name, blanks, behind ++ [c], hname, hblanks, hbehind.concat hc, by simp, by simp⟩

theorem SepText.start {field : Field} {at_ : SepCs} (h : SepText field.text at_ text) (hopen : at_.isOpen = true) :
    ∃ start : HeaderStart field, text = start.text := by
  cases at_ with
  | blank =>
    obtain ⟨name, blanks, hname, hblanks, rfl⟩ := h
    exact ⟨⟨name, blanks, hname, Or.inl hblanks⟩, rfl⟩
  | fold =>
    obtain ⟨name, blanks, behind, hname, hblanks, hbehind, hne, rfl⟩ := h
    exact ⟨⟨name, _, hname, Or.inr ⟨blanks, behind, hblanks, hbehind, hne, rfl⟩⟩, by simp [HeaderStart.text]⟩
  | cr => cases hopen
  | lf => cases hopen

theorem sepNext_textNext (field : Field) (at_ : SepCs) (h : SepText field.text at_ text)
    (hact : (sepNext field at_ c).1.stops = false) :
    TextNext (.sep field at_) (text ++ [c]) (sepNext field at_ c) := by
  have hquiet : (HttpCs.sep field at_).inNumber = false := rfl
  cases at_ with
  | blank =>
    obtain ⟨start, hstart⟩ := h.start rfl
    simp only [sepNext] at hact ⊢
    split
    · exact .of_quiet hquiet rfl (h.blank ‹_›)
    · rename_i hlws
      rw [if_neg hlws] at hact
      split
      · rename_i hcr
        obtain rfl : c = CR := by simpa using hcr
        exact .of_quiet hquiet rfl h.cr
      · rename_i hcr
        rw [if_neg hcr] at hact
        rw [hstart]
        exact valueNext_textNext field start hquiet hact
  | cr =>
    simp only [sepNext] at hact ⊢
    split
    · rename_i hlf
      obtain rfl : c = LF := by simpa using hlf
      exact .of_quiet hquiet rfl h.lf
    · rename_i hlf
      rw [if_neg hlf] at hact
      cases hact
  | lf =>
    simp only [sepNext] at hact ⊢
    split
    · exact .of_quiet hquiet rfl (h.fold ‹_›)
    · rename_i hlws
      rw [if_neg hlws] at hact
      cases hact
  | fold =>
    obtain ⟨start, hstart⟩ := h.start rfl
    simp only [sepNext] at hact ⊢
    split
    · exact .of_quiet hquiet rfl (h.folded ‹_›)
    · rename_i hlws
      rw [if_neg hlws] at hact
      rw [hstart]
      exact valueNext_textNext field start hquiet hact

theorem md5HeadNext_textNext (at_ : Md5Cs) (h : LineText (.md5 at_) text)
    (hact : (md5HeadNext at_ c).1.stops = false) : TextNext (.md5 at_) (text ++ [c]) (md5HeadNext at_ c) := by
  have hquiet : (HttpCs.md5 at_).inNumber = false := rfl
  rcases hnext : md5Next at_ c with ⟨act, next⟩
  simp only [md5HeadNext, hnext] at hact ⊢
  cases at_ with
  | sep at_ =>
    have h : SepText (ascii "content-md5:") at_ text := h
    cases at_ with
    | blank =>
      simp only [md5Next] at hnext
      split at hnext
      · cases hnext
        exact .of_quiet hquiet rfl (h.blank ‹_›)
      split at hnext
      · rename_i hcr
        obtain rfl : c = CR := by simpa using hcr
        cases hnext
        exact .of_quiet hquiet rfl h.cr
      split at hnext <;> cases hnext <;> exact .of_quiet hquiet rfl trivial
    | cr =>
      simp only [md5Next] at hnext
      split at hnext
      · rename_i hlf
        obtain rfl : c = LF := by simpa using hlf
        cases hnext
        exact .of_quiet hquiet rfl h.lf
      · cases hnext
        exact .of_quiet hquiet rfl trivial
    | lf =>
      simp only [md5Next] at hnext
      split at hnext
      · cases hnext
        exact .of_quiet hquiet rfl (h.fold ‹_›)
      · cases hnext
        exact .of_quiet hquiet rfl trivial
    | fold =>
      simp only [md5Next] at hnext
      split at hnext
      · cases hnext
        exact .of_quiet hquiet rfl (h.folded ‹_›)
      · split at hnext <;> cases hnext <;> exact .of_quiet hquiet rfl trivial
  | eorLf =>
    simp only [md5Next] at hnext
    split at hnext <;> cases hnext
    · exact ⟨Or.inl rfl, by simp [HeadAct.marks, HeadAct.writes], by simp [HttpCs.inNumber]⟩
    · exact .of_quiet hquiet rfl trivial
  | _ =>
    simp only [md5Next] at hnext
    (repeat' split at hnext) <;> cases hnext <;> exact .of_quiet hquiet rfl trivial

/-! ### `Content-Range` and `Range` -/

theorem Digits.concat_isDigits {digits : Bytes} (h : IsDigits digits) (hc : isDigit c = true) :
    IsDigits (digits ++ [c]) := by
  intro d hd
  rcases mem_append.mp hd with hd | hd
  · exact h d hd
  · obtain rfl := mem_singleton.mp hd
    exact hc

/-- One more digit. -/
def Digits.concat (digits : Digits) (hc : isDigit c = true) : Digits :=
  ⟨digits.text ++ [c], Digits.concat_isDigits digits.isDigits hc, by simp⟩

/-- A number of one digit. -/
def Digits.single (hc : isDigit c = true) : Digits :=
  ⟨[c], @Digits.concat_isDigits c [] (by simp [IsDigits]) hc, by simp⟩

theorem contentRangeUnit_textNext (h : LineText (.contentRangeUnit rest) text)
    (hact : (httpNext (.contentRangeUnit rest) c).1.stops = false) :
    TextNext (.contentRangeUnit rest) (text ++ [c]) (httpNext (.contentRangeUnit rest) c) := by
  obtain ⟨start, word, hword, rfl⟩ := h
  apply wordNext_textNext hact
  · rintro rest' rfl
    exact .of_quiet rfl rfl ⟨start, word ++ [c], by simpa using hword, by simp⟩
  · rintro rfl
    exact .of_quiet rfl rfl ⟨start, by simp [← hword]⟩
  · rfl

theorem rangeUnit_textNext (h : LineText (.rangeUnit rest) text)
    (hact : (httpNext (.rangeUnit rest) c).1.stops = false) :
    TextNext (.rangeUnit rest) (text ++ [c]) (httpNext (.rangeUnit rest) c) := by
  obtain ⟨start, word, hword, rfl⟩ := h
  apply wordNext_textNext hact
  · rintro rest' rfl
    exact .of_number rfl ⟨start, word ++ [c], by simpa using hword, by simp⟩
  · rintro rfl
    exact .of_number rfl ⟨start, none, by simp [← hword, boundText]⟩
  · rfl

theorem contentRange_textNext (h : LineText cs text) (hact : (httpNext cs c).1.stops = false)
    (hcs : cs = .contentRangeBlank ∨ cs = .contentRangeStart ∨ cs = .contentRangeBeg ∨ cs = .contentRangeDash) :
    TextNext cs (text ++ [c]) (httpNext cs c) := by
  rcases hcs with rfl | rfl | rfl | rfl <;> simp only [httpNext] at hact ⊢
  · obtain ⟨start, rfl⟩ := h
    split
    · rename_i hc
      exact .of_quiet rfl rfl ⟨start, ⟨[c], by simpa [IsBlanks] using hc, by simp⟩, by simp⟩
    · exact .of_quiet rfl rfl trivial
  · obtain ⟨start, blanks, rfl⟩ := h
    split
    · rename_i hc
      exact .of_quiet rfl rfl ⟨start, ⟨blanks.text ++ [c], blanks.isBlanks.concat hc, by simp⟩, by simp⟩
    split
    · rename_i hc
      exact .of_number rfl ⟨start, blanks, .single hc, by simp [Digits.single]⟩
    · exact .of_quiet rfl rfl trivial
  · obtain ⟨start, blanks, first, rfl⟩ := h
    split
    · rename_i hc
      obtain rfl : c = 45 := by simpa using hc
      exact .of_number rfl ⟨start, blanks, first, by simp⟩
    · rename_i hdash
      split
      · rename_i hc
        exact .of_number rfl ⟨start, blanks, first.concat hc, by simp [Digits.concat]⟩
      · rename_i hc
        rw [if_neg hdash, if_neg hc] at hact
        cases hact
  · obtain ⟨start, blanks, first, rfl⟩ := h
    split
    · rename_i hc
      have hstates : StatesNumbers (start.text ++ ascii "bytes" ++ blanks.text ++ first.text ++ [45] ++ [c]) :=
        ⟨.contentRange start blanks first (.single hc), prefix_refl _⟩
      exact .of_states hstates (Or.inr hstates)
    · rename_i hc
      rw [if_neg hc] at hact
      cases hact

theorem rangeBeg_textNext (h : LineText .rangeBeg text) (hact : (httpNext .rangeBeg c).1.stops = false) :
    TextNext .rangeBeg (text ++ [c]) (httpNext .rangeBeg c) := by
  simp only [httpNext] at hact ⊢
  obtain ⟨start, first, rfl⟩ := h
  split
  · rename_i hc
    obtain rfl : c = 45 := by simpa using hc
    have hstates : StatesNumbers (start.text ++ ascii "bytes=" ++ boundText first ++ [45]) :=
      ⟨.range start first none, by simp [LengthHeader.text, boundText]⟩
    exact .of_states hstates (Or.inr hstates)
  · rename_i hdash
    split
    · rename_i hc
      cases first with
      | none => exact .of_number rfl ⟨start, some (.single hc), by simp [boundText, Digits.single]⟩
      | some first => exact .of_number rfl ⟨start, some (first.concat hc), by simp [boundText, Digits.concat]⟩
    · rename_i hc
      rw [if_neg hdash, if_neg hc] at hact
      cases hact

/-- Behind the numbers there is nothing left to know. -/
theorem states_textNext (h : StatesNumbers text)
    (hcs : cs = .lengthDigits ∨ cs = .contentRangeEnd ∨ cs = .contentRangeSlash ∨ cs = .contentRangeStar ∨
      cs = .rangeEnd ∨ cs = .rangeEor ∨ cs = .rangeEorLf) :
    TextNext cs (text ++ [c]) (httpNext cs c) := by
  have hstates := h.append [c]
  rcases hcs with rfl | rfl | rfl | rfl | rfl | rfl | rfl <;> dsimp only [httpNext, eorNext] <;>
    (repeat' split) <;>
    first
    | exact .of_states hstates (Or.inr hstates)
    | exact .of_states hstates (Or.inr trivial)
    | exact .of_states hstates (Or.inl rfl)

/-- **The text of a line grows with its state.** -/
theorem httpNext_textNext (hcs : cs.inRequestLine = false) (h : LineText cs text)
    (hact : (httpNext cs c).1.stops = false) : TextNext cs (text ++ [c]) (httpNext cs c) := by
  cases cs <;> try cases hcs
  case headers => exact headersNext_textNext rfl h hact rfl
  case headersAfterMd5 => exact headersNext_textNext rfl h hact rfl
  case name seen => exact nameNext_textNext rfl h hact rfl
  case sep field at_ => exact sepNext_textNext field at_ h hact
  case md5 at_ => exact md5HeadNext_textNext at_ h hact
  case contentRangeUnit rest => exact contentRangeUnit_textNext h hact
  case contentRangeBlank => exact contentRange_textNext h hact (by simp)
  case contentRangeStart => exact contentRange_textNext h hact (by simp)
  case contentRangeBeg => exact contentRange_textNext h hact (by simp)
  case contentRangeDash => exact contentRange_textNext h hact (by simp)
  case rangeUnit rest => exact rangeUnit_textNext h hact
  case rangeBeg => exact rangeBeg_textNext h hact
  case lengthDigits => exact states_textNext h (by simp)
  case contentRangeEnd => exact states_textNext h (by simp)
  case contentRangeSlash => exact states_textNext h (by simp)
  case contentRangeStar => exact states_textNext h (by simp)
  case rangeEnd => exact states_textNext h (by simp)
  case rangeEor => exact states_textNext h (by simp)
  case rangeEorLf => exact states_textNext h (by simp)
  all_goals
    dsimp only [httpNext, wordNext, eorNext, trailerMd5Next, ignoredHeadNext]
    (repeat' split) <;>
      first
      | exact .of_quiet rfl rfl trivial
      | exact ⟨Or.inl rfl, by simp [HeadAct.marks, HeadAct.writes], by simp [HttpCs.inNumber]⟩

end Next

/-! ### To the end of a line -/

/-- The value of the field may stand in the next line. -/
def HttpCs.awaitsFold : HttpCs → Bool
  | .sep _ .lf => true
  | .md5 (.sep .lf) => true
  | _ => false

/-- A line end leads to the next line, or to a folded one. -/
def EndsAt (c : Byte) (next : HeadAct × HttpCs) : Prop :=
  next.1.endsLine = true → c = LF ∧
    (next.2.isLineStart = true ∨ next.2.awaitsFold = true ∨ next.2 = .ignored .foldStart)

theorem endsAt_of_not {c : Byte} {next : HeadAct × HttpCs} (h : next.1.endsLine = false) : EndsAt c next := by
  intro hends
  rw [h] at hends
  cases hends

theorem nameNext_endsAt (seen : Bytes) (c : Byte) (herror : onError.endsLine = false) :
    EndsAt c (nameNext seen c onError) := by
  apply endsAt_of_not
  unfold nameNext
  dsimp only
  (repeat' split) <;> first | rfl | exact herror

theorem headersNext_endsAt (c : Byte) (herror : onError.endsLine = false) :
    EndsAt c (headersNext c onError) := by
  unfold headersNext
  split
  · exact endsAt_of_not rfl
  · exact nameNext_endsAt [] c herror

theorem wordNext_endsAt {c d : Byte} {more : Bytes → HttpCs} {last : HeadAct × HttpCs}
    (hlast : last.1.endsLine = false) (herror : onError.endsLine = false) :
    EndsAt c (wordNext rest d more last onError) := by
  apply endsAt_of_not
  unfold wordNext
  (repeat' split) <;> first | rfl | assumption

theorem md5HeadNext_endsAt (at_ : Md5Cs) (c : Byte) : EndsAt c (md5HeadNext at_ c) := by
  rcases hnext : md5Next at_ c with ⟨act, next⟩
  simp only [md5HeadNext, hnext]
  cases at_ with
  | sep at' =>
    cases at' <;> simp only [md5Next] at hnext <;> (repeat' split at hnext) <;> cases hnext <;>
      first | exact endsAt_of_not rfl | exact fun _ => ⟨by simp_all, Or.inr (Or.inl rfl)⟩
  | _ =>
    simp only [md5Next] at hnext
    (repeat' split at hnext) <;> cases hnext <;>
      first | exact endsAt_of_not rfl | exact fun _ => ⟨by simp_all, Or.inl rfl⟩

theorem ignoredHeadNext_endsAt (at_ : IgnoredCs) (c : Byte) : EndsAt c (ignoredHeadNext at_ c) := by
  unfold ignoredHeadNext
  split
  · exact endsAt_of_not rfl
  · rename_i hnext
    have hc : c = LF := by
      cases at_ <;> simp only [ignoredNext] at hnext <;> (repeat' split at hnext) <;> simp_all
    exact fun _ => ⟨hc, Or.inr (Or.inr rfl)⟩
  · rename_i hnext
    have hc : c = LF := by
      cases at_ <;> simp only [ignoredNext] at hnext <;> (repeat' split at hnext) <;> simp_all
    exact fun _ => ⟨hc, Or.inl rfl⟩
  · exact endsAt_of_not rfl

theorem httpNext_endsAt (cs : HttpCs) (c : Byte) : EndsAt c (httpNext cs c) := by
  cases cs with
  | headers => exact headersNext_endsAt c rfl
  | headersAfterMd5 => exact headersNext_endsAt c rfl
  | name seen => exact nameNext_endsAt seen c rfl
  | method rest => exact wordNext_endsAt rfl rfl
  | scheme rest => exact wordNext_endsAt rfl rfl
  | version rest => exact wordNext_endsAt rfl rfl
  | connectionValue keepAlive rest => exact wordNext_endsAt rfl rfl
  | contentRangeUnit rest => exact wordNext_endsAt rfl rfl
  | rangeUnit rest => exact wordNext_endsAt rfl rfl
  | chunkedValue rest => exact wordNext_endsAt rfl rfl
  | sep field at_ =>
    cases field <;> cases at_ <;> dsimp only [httpNext, sepNext, valueNext] <;> (repeat' split) <;>
      first | exact endsAt_of_not rfl | exact fun _ => ⟨by simp_all, Or.inr (Or.inl rfl)⟩
  | md5 at_ => exact md5HeadNext_endsAt at_ c
  | ignored at_ => exact ignoredHeadNext_endsAt at_ c
  | _ =>
    dsimp only [httpNext, eorNext, trailerMd5Next]
    (repeat' split) <;> first | exact endsAt_of_not rfl | exact fun _ => ⟨by simp_all, Or.inl rfl⟩

end Cmogstored
