import Cmogstored.HeadScan

/-! Reading a header line: what the parser makes of a field name, of the blanks behind it and of a fixed
word, for any part of the head that it has read before. -/

namespace Cmogstored

open Scan

/-- The parser stands at the start of a header line. -/
def HttpCs.isLineStart : HttpCs → Bool
  | .headers => true
  | .headersAfterMd5 => true
  | _ => false

/-! ### One more byte -/

variable {seen more : Bytes} {fields fields' : Fields} {c : Byte} {cs : HttpCs}

theorem Reading.det (h : Reading seen fields) (h' : Reading seen fields') : fields = fields' := by
  have heq := Scans.det h h'
  injection heq

theorem Reading.of_goto (h : Reading seen fields)
    (hstep : headStep (seen ++ [c]) fields seen.length c = .goto fields' (seen.length + 1)) :
    Reading (seen ++ [c]) fields' := by
  have hend : (seen ++ [c]).length = seen.length + 1 := by simp
  rw [Reading, hend, ← h.resume]
  exact .goto (by simp) hstep (.more (by simp))

theorem Reading.keep (h : Reading seen fields) (hnext : httpNext fields.cs c = (.keep, cs)) :
    Reading (seen ++ [c]) { fields with cs := cs } := by
  apply h.of_goto
  simp only [headStep, hnext]

theorem Reading.lineEnd (h : Reading seen fields) (hnext : httpNext fields.cs c = (.lineEnd, cs))
    (hsmall : seen.length ≤ 65535) :
    Reading (seen ++ [c]) { fields with cs := cs, lineEnd := seen.length } := by
  apply h.of_goto
  simp only [headStep, hnext, toU16, if_pos hsmall]

/-- Whatever has been read was read in part before. -/
theorem Reading.part (h : Reading (seen ++ more) fields) : ∃ fields', Reading seen fields' := by
  obtain ⟨outcome, hscan⟩ := exists_headScan seen .init 0
  have hstop : (∀ fields' p', outcome ≠ .more fields' p') → False := by
    intro hstop
    have hwhole : Scans headStep (seen ++ more) .init 0 outcome :=
      Scans.append (I := HeadAt seen) (headScan_step more) hscan (headAt_init seen) hstop
    exact hstop _ _ (hwhole.det h)
  cases outcome with
  | more fields' p' =>
    obtain rfl := (headScan_more hscan (headAt_init seen)).1
    exact ⟨fields', hscan⟩
  | halted fields' p' why => exact (hstop (by simp)).elim
  | failed => exact (hstop (by simp)).elim
  | stuck => exact (hstop (by simp)).elim

/-! ### Words without actions -/

/-- The state behind `word`, if nothing is done on the way. -/
def keepRun (cs : HttpCs) : Bytes → Option HttpCs
  | [] => some cs
  | c :: word =>
    match httpNext cs c with
    | (.keep, cs) => keepRun cs word
    | _ => none

theorem keepRun_cons {cs' : HttpCs} {word : Bytes} (hnext : httpNext cs c = (.keep, cs')) :
    keepRun cs (c :: word) = keepRun cs' word := by
  rw [keepRun, hnext]

theorem keepRun_of_loop {word : Bytes} (hloop : ∀ c ∈ word, httpNext cs c = (.keep, cs)) :
    keepRun cs word = some cs := by
  induction word with
  | nil => rfl
  | cons c word ih =>
    rw [keepRun_cons (hloop c List.mem_cons_self)]
    exact ih fun c hc => hloop c (List.mem_cons_of_mem _ hc)

theorem Reading.word (h : Reading seen fields) {word : Bytes} (hrun : keepRun fields.cs word = some cs) :
    Reading (seen ++ word) { fields with cs := cs } := by
  induction word generalizing seen fields with
  | nil =>
    cases hrun
    rw [List.append_nil]
    exact h
  | cons c word ih =>
    rcases hnext : httpNext fields.cs c with ⟨act, cs'⟩
    rw [keepRun, hnext] at hrun
    cases act <;> try cases hrun
    have hread := ih (h.keep hnext) hrun
    rwa [List.append_assoc] at hread

/-! ### Field names -/

/-- The name of a field in lower case, with its colon. -/
def Field.text : Field → Bytes
  | .connection => ascii "connection:"
  | .contentLength => ascii "content-length:"
  | .contentRange => ascii "content-range:"
  | .range => ascii "range:"
  | .transferEncoding => ascii "transfer-encoding:"
  | .trailer => ascii "trailer:"

theorem Field.mem_fieldNames (field : Field) : (field.text, .sep field .blank) ∈ fieldNames := by
  cases field <;> decide +kernel

/-- No field name is the beginning of another. -/
theorem fieldNames_eq_of_isPrefix : ∀ entry ∈ fieldNames, ∀ entry' ∈ fieldNames,
    entry.1.isPrefixOf entry'.1 = true → entry = entry' := by
  decide +kernel

theorem fieldNames_head_ne : ∀ entry ∈ fieldNames, entry.1 ≠ [] ∧ entry.1.head? ≠ some CR := by
  decide +kernel

section Names

variable {entry : Bytes × HttpCs} (hentry : entry ∈ fieldNames)
include hentry

theorem nameNext_last (hlast : seen ++ [toLower c] = entry.1) (onError : HeadAct) :
    nameNext seen c onError = (.keep, entry.2) := by
  have hfind : fieldNames.find? (fun other => other.1 == entry.1) = some entry := by
    cases hfound : fieldNames.find? (fun other => other.1 == entry.1) with
    | none =>
      have hnone := List.find?_eq_none.mp hfound entry hentry
      simp at hnone
    | some other =>
      have hsame : other.1 = entry.1 := by simpa using List.find?_some hfound
      have hpre : other.1.isPrefixOf entry.1 = true := by
        rw [hsame]
        simp
      rw [fieldNames_eq_of_isPrefix other (List.mem_of_find?_eq_some hfound) entry hentry hpre]
  unfold nameNext
  simp only [hlast, hfind]

theorem nameNext_inside (hinside : (seen ++ [toLower c]).isPrefixOf entry.1 = true)
    (hmore : seen ++ [toLower c] ≠ entry.1) (onError : HeadAct) :
    nameNext seen c onError = (.keep, .name (seen ++ [toLower c])) := by
  have hfind : fieldNames.find? (fun other => other.1 == seen ++ [toLower c]) = none := by
    rw [List.find?_eq_none]
    intro other hother hsame
    have hsame : other.1 = seen ++ [toLower c] := by simpa using hsame
    rw [← hsame] at hinside hmore
    exact hmore (congrArg Prod.fst (fieldNames_eq_of_isPrefix other hother entry hentry hinside))
  have hany : (fieldNames.any fun other => (seen ++ [toLower c]).isPrefixOf other.1) = true :=
    List.any_eq_true.mpr ⟨entry, hentry, hinside⟩
  unfold nameNext
  simp only [hfind, hany, if_true]

theorem nameNext_run {rest : Bytes} (htext : seen ++ (c :: rest).map toLower = entry.1) :
    ∃ cs, (∀ onError, nameNext seen c onError = (.keep, cs)) ∧ keepRun cs rest = some entry.2 := by
  induction rest generalizing seen c with
  | nil => exact ⟨entry.2, nameNext_last hentry htext, rfl⟩
  | cons d rest ih =>
    rw [List.map_cons, List.append_cons] at htext
    have hinside : (seen ++ [toLower c]).isPrefixOf entry.1 = true := by
      rw [← htext]
      simp
    have hmore : seen ++ [toLower c] ≠ entry.1 := by
      intro hall
      rw [← hall] at htext
      simp at htext
    obtain ⟨cs, hnext, hrun⟩ := ih htext
    have hname : httpNext (.name (seen ++ [toLower c])) d = (.keep, cs) := hnext .ignoreLine
    exact ⟨_, nameNext_inside hentry hinside hmore, (keepRun_cons hname).trans hrun⟩

/-- A field name is read from the start of a line, in letters of any case. -/
theorem keepRun_lineStart (hcs : cs.isLineStart = true) {name : Bytes} (htext : name.map toLower = entry.1) :
    keepRun cs name = some entry.2 := by
  obtain ⟨hne, hcr⟩ := fieldNames_head_ne entry hentry
  cases name with
  | nil => exact absurd htext.symm hne
  | cons c rest =>
    have hc : (c == CR) = false := by
      rw [beq_eq_false_iff_ne]
      intro hc
      subst hc
      rw [← htext] at hcr
      exact hcr rfl
    obtain ⟨cs', hnext, hrun⟩ := @nameNext_run [] c _ hentry rest htext
    have hstart : httpNext cs c = (.keep, cs') := by
      cases cs <;> simp only [HttpCs.isLineStart, Bool.false_eq_true] at hcs <;>
        simp [httpNext, headersNext, hc, hnext]
    rw [keepRun_cons hstart, hrun]

end Names

theorem Reading.field {field : Field} {name : Bytes} (h : Reading seen fields)
    (hline : fields.cs.isLineStart = true) (hname : name.map toLower = field.text) :
    Reading (seen ++ name) { fields with cs := .sep field .blank } :=
  h.word (keepRun_lineStart field.mem_fieldNames hline hname)

/-! ### Separators -/

def IsBlanks (blanks : Bytes) : Prop := ∀ c ∈ blanks, isLws c = true

/-- `sep`: blanks, or a folded line and blanks. -/
def IsSep (sep : Bytes) : Prop :=
  IsBlanks sep ∨ ∃ before behind, IsBlanks before ∧ IsBlanks behind ∧ behind ≠ [] ∧
    sep = before ++ [CR, LF] ++ behind

/-- The places in `sep` where a value may start. -/
def SepCs.isOpen : SepCs → Bool
  | .blank => true
  | .fold => true
  | _ => false

theorem sepNext_blank {field : Field} {at_ : SepCs} (hopen : at_.isOpen = true) (hc : isLws c = true) :
    sepNext field at_ c = (.keep, .sep field at_) := by
  cases at_ <;> simp only [SepCs.isOpen, Bool.false_eq_true] at hopen <;> simp [sepNext, hc]

theorem sepNext_value {field : Field} {at_ : SepCs} (hopen : at_.isOpen = true) (hc : isLws c = false)
    (hcr : (c == CR) = false) : sepNext field at_ c = valueNext field c := by
  cases at_ <;> simp only [SepCs.isOpen, Bool.false_eq_true] at hopen <;> simp [sepNext, hc, hcr]

theorem Reading.blanks {field : Field} {at_ : SepCs} {blanks : Bytes} (h : Reading seen fields)
    (hcs : fields.cs = .sep field at_) (hopen : at_.isOpen = true) (hblanks : IsBlanks blanks) :
    Reading (seen ++ blanks) fields := by
  have hrun : keepRun fields.cs blanks = some fields.cs := by
    apply keepRun_of_loop
    intro c hc
    rw [hcs]
    exact sepNext_blank hopen (hblanks c hc)
  exact h.word hrun

/-- A separator leaves everything but the line end as it was. -/
theorem Reading.sep {field : Field} {sep : Bytes} (h : Reading seen fields)
    (hcs : fields.cs = .sep field .blank) (hsep : IsSep sep) (hsmall : (seen ++ sep).length ≤ 65536) :
    ∃ at_ lineEnd, at_.isOpen = true ∧ fields.lineEnd ≤ lineEnd ∧
      Reading (seen ++ sep) { fields with cs := .sep field at_, lineEnd := lineEnd } := by
  rcases hsep with hblanks | ⟨before, behind, hbefore, hbehind, hne, rfl⟩
  · refine ⟨.blank, fields.lineEnd, rfl, Nat.le_refl _, ?_⟩
    rw [← hcs]
    exact h.blanks hcs rfl hblanks
  · have hcr : Reading (seen ++ before ++ [CR]) { fields with cs := .sep field .cr } := by
      apply (h.blanks hcs rfl hbefore).keep
      rw [hcs]
      rfl
    have hcrSmall : (seen ++ before ++ [CR]).length ≤ 65535 := by
      simp at hsmall ⊢
      omega
    have hlf : Reading (seen ++ before ++ [CR] ++ [LF])
        { fields with cs := .sep field .lf, lineEnd := (seen ++ before ++ [CR]).length } :=
      hcr.lineEnd rfl hcrSmall
    cases behind with
    | nil => exact absurd rfl hne
    | cons c behind =>
      have hc : isLws c = true := hbehind c List.mem_cons_self
      have hnext : httpNext (.sep field .lf) c = (.keep, .sep field .fold) := by
        simp [httpNext, sepNext, hc]
      have hfold := hlf.keep hnext
      have hblanks := hfold.blanks rfl rfl fun c hc => hbehind c (List.mem_cons_of_mem _ hc)
      have hlater : fields.lineEnd ≤ (seen ++ before ++ [CR]).length := by
        have hline := (h.headAt []).2
        simp only [List.length_append]
        omega
      refine ⟨.fold, (seen ++ before ++ [CR]).length, rfl, hlater, ?_⟩
      simpa using hblanks

end Cmogstored
