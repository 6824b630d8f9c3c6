import Cmogstored.HeadFields

/-! The text of a head: a request line, and lines among which headers state numbers. A header without a value
hides the line behind it, and so does an empty line. -/

namespace Cmogstored

open List Scan

/-! ### The lines of a head -/

inductive HeadLine where
  -- a header with numbers, and the rest of its line
  | number (header : LengthHeader) (tail : Bytes)
  | other (text : Bytes)

namespace HeadLine

def text : HeadLine → Bytes
  | number header tail => header.text ++ tail
  | other text => text

/-- The line is spelled in full, `rest` being what follows it. -/
def Ok (rest : Bytes) : HeadLine → Prop
  | number _ tail => IsLine tail ∧ ∀ c, tail.head? = some c → isDigit c = false
  | other text => IsLine text ∧ ¬ StatesNumbers (text ++ rest)

/-- The headers with numbers. -/
def stated : HeadLine → List LengthHeader
  | number header _ => [header]
  | other _ => []

end HeadLine

def headText (lines : List HeadLine) : Bytes := lines.flatMap HeadLine.text

def LinesOk : List HeadLine → Prop
  | [] => True
  | line :: lines => line.Ok (headText lines) ∧ LinesOk lines

/-- The next line is ignored, unless it is the value of a header in the line before. -/
def Hides (seen rest : Bytes) (fields : Fields) : Prop :=
  fields.cs = .ignored .nameStart ∨
  fields.cs.awaitsFold = true ∧ fields.lineEnd + 1 = seen.length ∧
    ∃ a, a ≤ seen.length ∧ LineText fields.cs (seen.drop a) ∧ ¬ StatesNumbers ((seen ++ rest).drop a)

def Stands (hidden : Bool) (seen rest : Bytes) (fields : Fields) : Prop :=
  match hidden with
  | true => Hides seen rest fields
  | false => fields.cs.isLineStart = true ∨ fields.cs = .ignored .foldStart

section Lines

variable {seen line text rest : Bytes} {fields fields' : Fields}

theorem isLine_of_sepText {field : Bytes} (hfield : LF ∉ field) (h : SepText field .lf text) : IsLine text := by
  obtain ⟨name, blanks, hname, hblanks, rfl⟩ := h
  refine ⟨name ++ blanks ++ [CR], ?_, by simp⟩
  simp only [mem_append, mem_singleton, not_or]
  refine ⟨⟨?_, ?_⟩, by decide⟩
  · intro hmem
    apply hfield
    rw [← hname]
    exact mem_map.mpr ⟨LF, hmem, rfl⟩
  · intro hmem
    exact absurd (hblanks LF hmem) (by decide)

theorem isLine_of_awaitsFold {cs : HttpCs} (hcs : cs.awaitsFold = true) (htext : LineText cs text) : IsLine text := by
  obtain ⟨entry, hentry, hsep⟩ := isEmptyHeader_iff.mp (isEmptyHeader_of_awaitsFold hcs htext)
  exact isLine_of_sepText (fieldNames_wordRest entry hentry).2 hsep

theorem awaitsFold_next {cs : HttpCs} {c : Byte} (hcs : cs.awaitsFold = true) (hc : isLws c = false) :
    httpNext cs c = (.ignoreLine, .error) := by
  cases cs with
  | sep field at_ =>
    cases at_ with
    | lf => simp [httpNext, sepNext, hc]
    | _ => cases hcs
  | md5 at_ =>
    cases at_ with
    | sep at_ =>
      cases at_ with
      | lf => simp [httpNext, md5HeadNext, md5Next, hc]
      | _ => cases hcs
    | _ => cases hcs
  | _ => cases hcs

theorem awaitsFold_stops {cs : HttpCs} {c : Byte} (hcs : cs.awaitsFold = true) (hc : isLws c = false) :
    (httpNext cs c).1.stops = true := by
  rw [awaitsFold_next hcs hc]
  rfl

/-- A field name starts with a letter. -/
theorem head_of_fieldName {entry : Bytes × HttpCs} (hentry : entry ∈ fieldNames) {name : Bytes}
    (hname : name.map toLower = entry.1) : ∃ c more, name = c :: more ∧ isLws c = false := by
  have hletter : ∀ entry ∈ fieldNames, entry.1.head?.all (fun c => !isLws c) = true ∧ entry.1 ≠ [] := by
    decide +kernel
  obtain ⟨hhead, hne⟩ := hletter entry hentry
  rw [← hname] at hhead hne
  cases name with
  | nil => exact absurd rfl hne
  | cons c name =>
    refine ⟨c, name, rfl, ?_⟩
    by_contra hblank
    have hlower : toLower c = c := by
      rcases isLws_cases (by simpa using hblank) with rfl | rfl <;> rfl
    simp [hlower] at hhead
    exact hblank hhead

theorem HeaderStart.head {field : Field} (start : HeaderStart field) :
    ∃ c more, start.name = c :: more ∧ isLws c = false :=
  head_of_fieldName field.mem_fieldNames start.name_eq

theorem HeaderStart.lf {field : Field} (start : HeaderStart field) : LF ∉ start.name := by
  intro hmem
  have hfield : LF ∈ field.text := by
    rw [← start.name_eq]
    exact mem_map.mpr ⟨LF, hmem, rfl⟩
  exact (fieldNames_wordRest _ field.mem_fieldNames).2 hfield

theorem Digits.lf (digits : Digits) : LF ∉ digits.text := fun hmem => absurd (digits.isDigits LF hmem) (by decide)

theorem boundText_lf (bound : Option Digits) : LF ∉ boundText bound := by
  cases bound with
  | none => simp [boundText]
  | some digits => exact digits.lf

theorem IsBlanks.lf {blanks : Bytes} (h : IsBlanks blanks) : LF ∉ blanks := fun hmem => absurd (h LF hmem) (by decide)

/-- A header with numbers is a name, a separator and a value, and only the separator has a line end in it. -/
theorem LengthHeader.split (header : LengthHeader) : ∃ name sep value, header.text = name ++ sep ++ value ∧
    (∃ c more, name = c :: more ∧ isLws c = false) ∧ LF ∉ name ∧ IsSep sep ∧ LF ∉ value ∧ value ≠ [] := by
  have hbytes : LF ∉ ascii "bytes" ∧ LF ∉ ascii "bytes=" := by simp [ascii, LF]
  cases header with
  | contentLength start length => exact ⟨_, _, _, rfl, start.head, start.lf, start.isSep, length.lf, length.ne_nil⟩
  | contentRange start blanks first last =>
    refine ⟨start.name, start.sep, ascii "bytes" ++ blanks.text ++ first.text ++ [45] ++ last.text, ?_, start.head,
      start.lf, start.isSep, ?_, by simp⟩
    · simp [text, HeaderStart.text]
    · simp only [mem_append, mem_singleton, not_or]
      exact ⟨⟨⟨⟨hbytes.1, blanks.isBlanks.lf⟩, first.lf⟩, by decide⟩, last.lf⟩
  | range start first last =>
    refine ⟨start.name, start.sep, ascii "bytes=" ++ boundText first ++ [45] ++ boundText last, ?_, start.head,
      start.lf, start.isSep, ?_, by simp⟩
    · simp [text, HeaderStart.text]
    · simp only [mem_append, mem_singleton, not_or]
      exact ⟨⟨⟨hbytes.2, boundText_lf first⟩, by decide⟩, boundText_lf last⟩

theorem LengthHeader.head (header : LengthHeader) : ∃ c more, header.text = c :: more ∧ isLws c = false := by
  obtain ⟨name, sep, value, htext, ⟨c, more, rfl, hc⟩, -⟩ := header.split
  exact ⟨c, more ++ sep ++ value, by simp [htext], hc⟩

theorem IsLine.cons_append {before : Bytes} (hbefore : LF ∉ before) (h : IsLine line) : IsLine (before ++ line) := by
  obtain ⟨text, htext, rfl⟩ := h
  refine ⟨before ++ text, ?_, by simp⟩
  rw [mem_append, not_or]
  exact ⟨hbefore, htext⟩

theorem LengthHeader.start_isPrefix (header : LengthHeader) : header.start <+: header.text := by
  cases header with
  | contentLength start length => exact prefix_append _ _
  | contentRange start blanks first last =>
    simp only [LengthHeader.start, LengthHeader.text, append_assoc]
    exact prefix_append _ _
  | range start first last =>
    simp only [LengthHeader.start, LengthHeader.text, append_assoc]
    exact prefix_append _ _

end Lines

/-! ### All lines -/

section Walk

variable {seen text rest : Bytes} {fields fields' : Fields} {lines : List HeadLine}

/-- The empty line that ends the head. -/
theorem Accepts.lastLine {hidden : Bool} (h : Accepts (seen ++ [CR, LF]) fields') (hread : Reading seen fields)
    (hstands : Stands hidden seen rest fields) : fields'.marks = fields.marks := by
  have hsplit : seen ++ [CR, LF] = seen ++ [CR] ++ [LF] := by simp
  rw [hsplit] at h
  obtain ⟨fields'', hcr⟩ := h.reading (by simp)
  have hend : (seen ++ [CR] ++ [LF])[(seen ++ [CR]).length]? = some LF := by simp
  have hrest := hcr.resume.mpr h
  -- nothing but the start of a line lets the head end here
  have hback : ∀ hstops : (httpNext fields.cs CR).1.stops = true, fields.lineEnd + 1 = seen.length → False := by
    intro hstops hline
    obtain ⟨state, pos, hmove, hmore⟩ := hread.moves hcr
    obtain ⟨rfl, rfl⟩ := headStep_goto_stops hmove hstops
    have hnone : (seen ++ [CR])[fields.lineEnd + 2]? = none := by
      rw [List.getElem?_eq_none_iff, length_append, length_singleton]
      omega
    have hsame := hmore.det (.more hnone)
    injection hsame with hfields
    subst hfields
    have hhalt := hrest.det (.halt hend rfl)
    injection hhalt with _ _ hwhy
    cases hwhy
  cases hidden with
  | true =>
    rcases hstands with hcs | ⟨hcs, hline, -⟩
    · exact absurd hcr (hread.not_reject (by rw [hcs]; rfl))
    · exact (hback (awaitsFold_stops hcs (by decide)) hline).elim
  | false =>
    rcases hstands with hcs | hcs
    · have hblank : Reading (seen ++ [CR]) { fields with cs := .blankLf } := by
        apply hread.keep
        cases hcs' : fields.cs <;> rw [hcs'] at hcs <;> first | rfl | cases hcs
      obtain rfl := hcr.det hblank
      have hhalt := hrest.det (.halt hend rfl)
      injection hhalt with hfields
      rw [hfields]
      rfl
    · exact absurd hcr (hread.not_reject (by rw [hcs]; rfl))

end Walk

/-! ### The request line -/

/-- The bytes up to the first line end that the parser takes for one. -/
structure IsRequestLine (request : Bytes) (fields : Fields) : Prop where
  reading : Reading request fields
  headers : fields.cs = .headers
  first : ∀ part, part <+: request → part ≠ request → ∀ fields', Reading part fields' → fields'.lineEnd = 0

theorem IsRequestLine.marks {request : Bytes} {fields : Fields} (h : IsRequestLine request fields) :
    fields.marks = Fields.init.marks := by
  rcases eq_nil_or_concat request with rfl | ⟨part, c, hrequest⟩
  · rw [h.reading.det reading_nil]
  · rw [concat_eq_append] at hrequest
    subst hrequest
    obtain ⟨fields', hpart⟩ := h.reading.part
    have hzero := h.first part (prefix_append _ _) (by simp) fields' hpart
    obtain ⟨hrequest, hmarks⟩ := hpart.lineInv.request hzero
    obtain ⟨state, pos, hmove, hrest⟩ := hpart.moves h.reading
    rcases headStep_goto hmove with ⟨-, rfl, -⟩ | ⟨-, -, hpos⟩
    · have hnone : (part ++ [c])[part.length + 1]? = none := by simp
      have hsame := hrest.det (.more hnone)
      injection hsame with hfields
      rw [hfields, headStep_marks hmove (httpNext_inRequestLine c hrequest).marks, hmarks]
    · omega

theorem parse_eq_parsedOf (http : Http) {buf : Bytes} {outcome : Outcome Fields Halt}
    (hscan : Scans headStep buf .init 0 outcome) :
    mogHttpParse (mogHttpResetParser http) buf = parsedOf (mogHttpResetParser http) outcome :=
  mogHttpParse_eq rfl (headAt_init buf) hscan

/-- `mog_http_parse`, started afresh, accepts `head` to its end. -/
def ParsesTo (http : Http) (head : Bytes) (http' : Http) : Prop :=
  mogHttpParse (mogHttpResetParser http) head = some ⟨.done, none, http'⟩ ∧ http'.offset = head.length

theorem ParsesTo.accepts {http http' : Http} {head : Bytes} (h : ParsesTo http head http') :
    Accepts head http'.toFields := by
  obtain ⟨hparse, hall⟩ := h
  obtain ⟨outcome, hscan⟩ := exists_headScan head .init 0
  rw [parse_eq_parsedOf http hscan] at hparse
  cases outcome with
  | halted fields pos why =>
    cases why with
    | done =>
      cases hparse
      cases hall
      exact hscan
    | invalid errno => cases hparse
    | reject => cases hparse
  | more fields pos => cases hparse
  | failed => cases hparse
  | stuck => cases hparse

theorem Accepts.parsesTo {head : Bytes} {fields : Fields} (h : Accepts head fields) (http : Http) :
    ∃ http', ParsesTo http head http' ∧ http'.toFields = fields :=
  ⟨_, ⟨parse_eq_parsedOf http h, rfl⟩, rfl⟩

theorem Reading.accepts {seen : Bytes} {fields : Fields} (h : Reading seen fields) (hcs : fields.cs = .headers) :
    Accepts (seen ++ [CR, LF]) { fields with cs := .final } := by
  have hcr : Reading (seen ++ [CR]) { fields with cs := .blankLf } := h.keep (by rw [hcs]; rfl)
  have hsplit : seen ++ [CR, LF] = seen ++ [CR] ++ [LF] := by simp
  have hlength : (seen ++ [CR] ++ [LF]).length = (seen ++ [CR]).length + 1 := by simp
  have hc : (seen ++ [CR] ++ [LF])[(seen ++ [CR]).length]? = some LF := by simp
  rw [hsplit, Accepts, hlength]
  exact hcr.resume.mp (.halt hc rfl)

/-- The parser enters its error state in `seen`. -/
def Rejected (seen : Bytes) : Prop := ∃ fields pos, Scans headStep seen .init 0 (.halted fields pos .reject)

theorem isNameChar_of_toLower {c : Byte} (h : isNameChar (toLower c) = true) : isNameChar c = true := by
  unfold toLower at h
  split at h
  · rename_i hc
    simp [isNameChar, isAlpha, hc]
  · exact h

theorem eq_colon_of_toLower {c : Byte} (h : toLower c = 58) : c = 58 := by
  unfold toLower at h
  split at h
  · rename_i hc
    simp only [Bool.and_eq_true, decide_eq_true_eq, UInt8.le_iff_toNat_le] at hc
    have hsum := congrArg UInt8.toNat h
    rw [UInt8.toNat_add] at hsum
    simp at hsum hc
    omega
  · exact h

/-- The rest of a name, and its colon. -/
theorem keepRun_ignoredName {word text : Bytes} (hword : word.map toLower = text ++ [58])
    (htext : ∀ c ∈ text, isNameChar c = true) : keepRun (.ignored .name) word = some (.ignored .sep) := by
  induction word generalizing text with
  | nil => simp at hword
  | cons c word ih =>
    cases text with
    | nil =>
      simp only [map_cons, nil_append, cons.injEq, map_eq_nil_iff] at hword
      obtain ⟨hc, rfl⟩ := hword
      obtain rfl := eq_colon_of_toLower hc
      rfl
    | cons d text =>
      obtain ⟨rfl, hrest⟩ := List.cons.inj hword
      have hc := isNameChar_of_toLower (htext _ mem_cons_self)
      have hnext : httpNext (.ignored .name) c = (.keep, .ignored .name) := by
        simp [httpNext, ignoredHeadNext, ignoredNext, hc]
      rw [keepRun_cons hnext]
      exact ih hrest fun d hd => htext d (mem_cons_of_mem _ hd)

theorem Field.text_split (field : Field) : ∃ c d text, field.text = c :: d :: text ++ [58] ∧
    ∀ e ∈ c :: d :: text, isNameChar e = true := by
  have hall : field.text.dropLast.all isNameChar = true ∧ 2 ≤ field.text.dropLast.length ∧
      field.text = field.text.dropLast ++ [58] := by
    cases field <;> decide +kernel
  obtain ⟨hchars, hlength, hsplit⟩ := hall
  match htext : field.text.dropLast, hlength with
  | c :: d :: text, _ =>
    rw [htext] at hsplit hchars
    exact ⟨c, d, text, hsplit, all_eq_true.mp hchars⟩

section Passed

variable {seen rest : Bytes} {fields fields' : Fields}

theorem Reading.hiddenStart {c : Byte} (h : Reading seen fields) (hcs : fields.cs.awaitsFold = true)
    (hend : fields.lineEnd + 1 = seen.length) (htext : ∃ a, LineText fields.cs (seen.drop a)) (hc : isLws c = false) :
    Reading (seen ++ [c]) { fields with cs := .ignored .nameStart } := by
  have hlf : seen[fields.lineEnd]? = some LF := by
    obtain ⟨a, htext⟩ := htext
    obtain ⟨text, -, hline⟩ := isLine_of_awaitsFold hcs htext
    have hlast : seen.getLast? = some LF := by
      rw [← take_append_drop a seen, hline, ← append_assoc, getLast?_concat]
    rw [getLast?_eq_getElem?] at hlast
    rwa [← hend] at hlast
  have hpos : fields.lineEnd ≠ 0 := by
    apply h.lineEnd_ne_zero
    cases hcs' : fields.cs <;> rw [hcs'] at hcs <;> first | rfl | cases hcs
  apply h.of_goto
  have hbyte : (seen ++ [c])[fields.lineEnd]? = some LF := by
    rw [List.getElem?_append_left (by omega), hlf]
  have hwhere : 0 < fields.lineEnd ∧ (seen ++ [c])[fields.lineEnd]? = some LF ∧
      fields.lineEnd + 1 ≤ (seen ++ [c]).length :=
    ⟨Nat.pos_of_ne_zero hpos, hbyte, by simp; omega⟩
  simp only [headStep, awaitsFold_next hcs hc, if_pos hwhere, ← hend]

theorem Reading.hiddenName {field : Field} (start : HeaderStart field) (h : Reading seen fields)
    (hhides : Hides seen rest fields) : Reading (seen ++ start.name) { fields with cs := .ignored .sep } := by
  obtain ⟨c, d, text, htext, hchars⟩ := field.text_split
  obtain ⟨c, name, hname, rfl, hmap⟩ := map_eq_cons_iff.mp (start.name_eq.trans htext)
  obtain ⟨d, name, rfl, rfl, hrest⟩ := map_eq_cons_iff.mp hmap
  have hc := isNameChar_of_toLower (hchars _ mem_cons_self)
  have hd := isNameChar_of_toLower (hchars _ (mem_cons_of_mem _ mem_cons_self))
  have hrun := keepRun_ignoredName hrest fun e he => hchars e (mem_cons_of_mem _ (mem_cons_of_mem _ he))
  have hfirst : ∀ {e : Byte}, isNameChar e = true → httpNext (.ignored .nameStart) e = (.keep, .ignored .name) := by
    intro e he
    simp [httpNext, ignoredHeadNext, ignoredNext, he]
  have hnext : httpNext (.ignored .name) d = (.keep, .ignored .name) := by
    simp [httpNext, ignoredHeadNext, ignoredNext, hd]
  rw [hname]
  rcases hhides with hcs | ⟨hcs, hend, a, -, hline, -⟩
  · apply h.word
    rw [hcs, keepRun_cons (hfirst hc), keepRun_cons hnext, hrun]
  · have hblank : isLws c = false := by
      by_contra hblank
      rcases isLws_cases (by simpa using hblank) with rfl | rfl <;> exact absurd hc (by decide)
    have hread := h.hiddenStart hcs hend ⟨a, hline⟩ hblank
    rw [append_cons]
    apply hread.word
    rw [keepRun_cons (hfirst hd), hrun]

theorem keepRun_ignoredBlanks {at_ : IgnoredCs} (hat : at_ = .sep ∨ at_ = .fold ∨ at_ = .eor) {blanks : Bytes}
    (hblanks : IsBlanks blanks) : keepRun (.ignored at_) blanks = some (.ignored at_) := by
  apply keepRun_of_loop
  intro c hc
  rcases hat with rfl | rfl | rfl <;> simp [httpNext, ignoredHeadNext, ignoredNext, hblanks c hc]

theorem Reading.hiddenSep {sep : Bytes} (h : Reading seen fields) (hcs : fields.cs = .ignored .sep) (hsep : IsSep sep)
    (hsmall : (seen ++ sep).length ≤ 65536) :
    ∃ at_ lineEnd, (at_ = .sep ∨ at_ = .fold) ∧
      Reading (seen ++ sep) { fields with cs := .ignored at_, lineEnd := lineEnd } := by
  rcases hsep with hblanks | ⟨before, behind, hbefore, hbehind, hne, rfl⟩
  · refine ⟨.sep, fields.lineEnd, Or.inl rfl, h.word ?_⟩
    rw [hcs]
    exact keepRun_ignoredBlanks (Or.inl rfl) hblanks
  · obtain ⟨c, behind, rfl⟩ := exists_cons_of_ne_nil hne
    have hblanks : Reading (seen ++ before) { fields with cs := .ignored .sep } := by
      apply h.word
      rw [hcs]
      exact keepRun_ignoredBlanks (Or.inl rfl) hbefore
    have hcr : Reading (seen ++ before ++ [CR]) { fields with cs := .ignored .sepLf } := hblanks.keep rfl
    have hsmall' : (seen ++ before ++ [CR]).length ≤ 65535 := by
      simp at hsmall ⊢
      omega
    have hlf : Reading (seen ++ before ++ [CR] ++ [LF])
        { fields with cs := .ignored .foldStart, lineEnd := (seen ++ before ++ [CR]).length } :=
      hcr.lineEnd rfl hsmall'
    have hrun : keepRun (.ignored .foldStart) (c :: behind) = some (.ignored .fold) := by
      have hnext : httpNext (.ignored .foldStart) c = (.keep, .ignored .fold) := by
        simp [httpNext, ignoredHeadNext, ignoredNext, hbehind c mem_cons_self]
      rw [keepRun_cons hnext]
      exact keepRun_ignoredBlanks (Or.inr (Or.inl rfl)) fun d hd => hbehind d (mem_cons_of_mem _ hd)
    have hall := hlf.word hrun
    refine ⟨.fold, (seen ++ before ++ [CR]).length, Or.inr rfl, ?_⟩
    simpa using hall

/-- The value of a header that is passed over. -/
theorem keepRun_ignoredValue {at_ : IgnoredCs} (hat : at_ = .sep ∨ at_ = .fold) {value : Bytes} (hne : value ≠ [])
    (hhead : ∀ c, value.head? = some c → isLws c = false) (hplain : ∀ c ∈ value, isCtl c = false) :
    keepRun (.ignored at_) value = some (.ignored .value) := by
  obtain ⟨c, value, rfl⟩ := exists_cons_of_ne_nil hne
  have hctl : ∀ {d : Byte}, isCtl d = false → d ≠ CR ∧ d ≠ HT := by
    intro d hd
    constructor <;> (rintro rfl; exact absurd hd (by decide))
  have hc := hplain c mem_cons_self
  have hfirst : httpNext (.ignored at_) c = (.keep, .ignored .value) := by
    rcases hat with rfl | rfl <;> simp [httpNext, ignoredHeadNext, ignoredNext, hhead c rfl, hc, (hctl hc).1]
  rw [keepRun_cons hfirst]
  apply keepRun_of_loop
  intro d hd
  have hd := hplain d (mem_cons_of_mem _ hd)
  simp [httpNext, ignoredHeadNext, ignoredNext, hd, (hctl hd).1, (hctl hd).2]

/-- The header behind its name and separator. -/
def LengthHeader.value : LengthHeader → Bytes
  | contentLength _ length => length.text
  | contentRange _ blanks first last => ascii "bytes" ++ blanks.text ++ first.text ++ [45] ++ last.text
  | range _ first last => ascii "bytes=" ++ boundText first ++ [45] ++ boundText last

/-- The blanks within the value. -/
def LengthHeader.blanks : LengthHeader → Bytes
  | contentRange _ blanks _ _ => blanks.text
  | _ => []

theorem LengthHeader.text_eq (header : LengthHeader) : header.text = header.start ++ header.value := by
  cases header <;> simp [text, start, value]

theorem isCtl_of_isDigit {c : Byte} (hc : isDigit c = true) : isCtl c = false := by
  simp only [isDigit, isCtl, Bool.and_eq_true, decide_eq_true_eq, Bool.or_eq_false_iff, decide_eq_false_iff_not,
    beq_eq_false_iff_ne, UInt8.le_iff_toNat_le, UInt8.lt_iff_toNat_lt, ne_eq, ← UInt8.toNat_inj] at hc ⊢
  simp at hc ⊢
  omega

theorem boundText_plain (bound : Option Digits) : ∀ c ∈ boundText bound, isCtl c = false := by
  cases bound with
  | none => simp [boundText]
  | some digits => exact fun c hc => isCtl_of_isDigit (digits.isDigits c hc)

theorem LengthHeader.value_plain (header : LengthHeader) (htab : HT ∉ header.blanks) :
    ∀ c ∈ header.value, isCtl c = false := by
  have hdigits : ∀ digits : Digits, ∀ c ∈ digits.text, isCtl c = false := fun digits => boundText_plain (some digits)
  have hbytes : ∀ c ∈ ascii "bytes=", isCtl c = false := by simp [ascii, isCtl]
  have hword : ∀ c ∈ ascii "bytes", isCtl c = false := by simp [ascii, isCtl]
  have hdash : ∀ c ∈ [45], isCtl c = false := by simp [isCtl]
  cases header with
  | contentLength start length => exact hdigits length
  | contentRange start blanks first last =>
    have hblanks : ∀ c ∈ blanks.text, isCtl c = false := by
      intro c hc
      rcases isLws_cases (blanks.isBlanks c hc) with rfl | rfl
      · rfl
      · exact absurd hc htab
    simp only [value, forall_mem_append]
    exact ⟨⟨⟨⟨hword, hblanks⟩, hdigits first⟩, hdash⟩, hdigits last⟩
  | range start first last =>
    simp only [value, forall_mem_append]
    exact ⟨⟨⟨hbytes, boundText_plain first⟩, hdash⟩, boundText_plain last⟩

theorem LengthHeader.value_head (header : LengthHeader) : ∃ c more, header.value = c :: more ∧ isLws c = false := by
  cases header with
  | contentLength start length =>
    obtain ⟨c, more, hcons⟩ := exists_cons_of_ne_nil length.ne_nil
    exact ⟨c, more, hcons, not_isLws_of_isDigit (length.isDigits c (by simp [hcons]))⟩
  | contentRange start blanks first last => exact ⟨98, _, rfl, rfl⟩
  | range start first last => exact ⟨98, _, rfl, rfl⟩

theorem Reading.hiddenHeader (header : LengthHeader) (h : Reading seen fields) (hhides : Hides seen rest fields)
    (hsmall : (seen ++ header.start).length ≤ 65536) :
    ∃ at_ lineEnd, (at_ = .sep ∨ at_ = .fold) ∧
      Reading (seen ++ header.start) { fields with cs := .ignored at_, lineEnd := lineEnd } := by
  have hstart : ∀ {field : Field} (start : HeaderStart field), (seen ++ start.text).length ≤ 65536 →
      ∃ at_ lineEnd, (at_ = .sep ∨ at_ = .fold) ∧
        Reading (seen ++ start.text) { fields with cs := .ignored at_, lineEnd := lineEnd } := by
    intro field start hsmall
    rw [HeaderStart.text, ← append_assoc] at hsmall ⊢
    exact (h.hiddenName start hhides).hiddenSep rfl start.isSep hsmall
  cases header <;> exact hstart _ hsmall

/-- **A header in a line that is hidden is passed over.** -/
theorem Reading.passedOver (header : LengthHeader) (h : Reading seen fields) (hhides : Hides seen rest fields)
    (htab : HT ∉ header.blanks) (hsmall : (seen ++ header.text).length ≤ 65534) :
    ∃ lineEnd, Reading (seen ++ header.text ++ [CR, LF]) { fields with cs := .headers, lineEnd := lineEnd } := by
  rw [header.text_eq, ← append_assoc] at hsmall ⊢
  obtain ⟨at_, lineEnd, hat, hread⟩ := h.hiddenHeader header hhides (by rw [length_append] at hsmall; omega)
  obtain ⟨c, more, hvalue, hc⟩ := header.value_head
  have hrun : keepRun (.ignored at_) header.value = some (.ignored .value) := by
    apply keepRun_ignoredValue hat _ _ (header.value_plain htab)
    · simp [hvalue]
    · intro d hd
      rw [hvalue] at hd
      cases hd
      exact hc
  have hcr : Reading (seen ++ header.start ++ header.value ++ [CR])
      { fields with cs := .ignored .eorLf, lineEnd := lineEnd } := (hread.word hrun).keep rfl
  have hlf : Reading (seen ++ header.start ++ header.value ++ [CR] ++ [LF])
      { fields with cs := .headers, lineEnd := (seen ++ header.start ++ header.value ++ [CR]).length } :=
    hcr.lineEnd rfl (by rw [length_append, length_singleton]; omega)
  refine ⟨(seen ++ header.start ++ header.value ++ [CR]).length, ?_⟩
  rw [append_assoc _ [CR] [LF]] at hlf
  exact hlf

end Passed

end Cmogstored
