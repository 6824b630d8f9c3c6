import Cmogstored.HeadNumbers

/-! Which states of the head parser write a number, and how they are entered: behind the name of their
field at the start of a line, and in no other way. -/

namespace Cmogstored

open Scan

variable {cs cs' : HttpCs} {c : Byte} {act onError : HeadAct} {seen : Bytes}

/-! ### The states of a header with numbers -/

/-- The header whose numbers are still being read. -/
def HttpCs.writing : HttpCs → Option Field
  | .sep .contentLength _ => some .contentLength
  | .lengthDigits => some .contentLength
  | .sep .contentRange _ => some .contentRange
  | .contentRangeUnit _ => some .contentRange
  | .contentRangeBlank => some .contentRange
  | .contentRangeStart => some .contentRange
  | .contentRangeBeg => some .contentRange
  | .contentRangeDash => some .contentRange
  | .contentRangeEnd => some .contentRange
  | .sep .range _ => some .range
  | .rangeUnit _ => some .range
  | .rangeBeg => some .range
  | .rangeEnd => some .range
  | _ => none

def HeadAct.writes : HeadAct → Option Field
  | .contentLen => some .contentLength
  | .contentRangeBeg => some .contentRange
  | .contentRangeEnd => some .contentRange
  | .rangeInit => some .range
  | .rangeBeg => some .range
  | .rangeEnd => some .range
  | _ => none

/-- What a transition does to the numbers and to the place in the line. -/
structure LineNext (cs : HttpCs) (c : Byte) (next : HeadAct × HttpCs) : Prop where
  act : ∀ field, next.1.writes = some field → cs.writing = some field
  entered : ∀ field, next.2.writing = some field →
    cs.writing = some field ∨ ∃ seen, cs = .name seen ∧ seen ++ [toLower c] = field.text
  name : ∀ seen, next.2 = .name seen → next.1 = .keep ∧
    (cs.isLineStart = true ∧ seen = [toLower c] ∨ ∃ before, cs = .name before ∧ seen = before ++ [toLower c])
  lineStart : next.2.isLineStart = true → c = LF ∧ (next.1 = .lineEnd ∨ next.1 = .hasRange)

/-- A transition that writes no number and stays within the line. -/
theorem LineNext.of_quiet (hact : act.writes = none)
    (hcs : cs'.writing = none) (hname : ∀ seen, cs' ≠ .name seen) (hline : cs'.isLineStart = false) :
    LineNext cs c (act, cs') where
  act field h := by
    rw [hact] at h
    cases h
  entered field h := by
    rw [hcs] at h
    cases h
  name seen h := absurd h (hname seen)
  lineStart h := by
    rw [hline] at h
    cases h

/-- A transition within a header with numbers. -/
theorem LineNext.of_writing {field : Field}
    (hwriting : cs.writing = some field) (hact : act.writes = none ∨ act.writes = some field)
    (hcs : cs'.writing = none ∨ cs'.writing = some field) (hname : ∀ seen, cs' ≠ .name seen)
    (hline : cs'.isLineStart = false) : LineNext cs c (act, cs') where
  act other h := by
    rcases hact with hact | hact
    · rw [hact] at h
      cases h
    · rw [← h, hact, hwriting]
  entered other h := by
    rcases hcs with hcs | hcs
    · rw [hcs] at h
      cases h
    · exact Or.inl (by rw [← h, hcs, hwriting])
  name seen h := absurd h (hname seen)
  lineStart h := by
    rw [hline] at h
    cases h

theorem LineNext.of_lineEnd (hc : c = LF)
    (hact : act = .lineEnd ∨ act = .hasRange) (hcs : cs'.writing = none) (hname : ∀ seen, cs' ≠ .name seen) :
    LineNext cs c (act, cs') where
  act field h := by
    rcases hact with rfl | rfl <;> cases h
  entered field h := by
    rw [hcs] at h
    cases h
  name seen h := absurd h (hname seen)
  lineStart _ := ⟨hc, hact⟩

/-- Only the names of the three fields lead to their states. -/
theorem fieldNames_writing : ∀ entry ∈ fieldNames,
    entry.2.writing.all (fun field => entry.1 == field.text) = true ∧ entry.2.isLineStart = false := by
  decide +kernel

theorem fieldNames_ne_name : ∀ entry ∈ fieldNames, ∀ seen, entry.2 ≠ .name seen := by
  intro entry hentry seen
  simp only [fieldNames, List.mem_cons, List.not_mem_nil, or_false] at hentry
  rcases hentry with h | h | h | h | h | h | h <;> simp [h]

theorem nameNext_lineNext
    (hcs : seen = [] ∧ cs.isLineStart = true ∨ cs = .name seen) (herror : onError.writes = none) :
    LineNext cs c (nameNext seen c onError) := by
  unfold nameNext
  dsimp only
  split
  · rename_i entry hentry
    have hmem := List.mem_of_find?_eq_some hentry
    have htext : entry.1 = seen ++ [toLower c] := by simpa using List.find?_some hentry
    obtain ⟨hwriting, hline⟩ := fieldNames_writing entry hmem
    refine ⟨?_, ?_, fun seen h => absurd h (fieldNames_ne_name entry hmem seen), ?_⟩
    · intro field hfield
      cases hfield
    · intro field hfield
      have hfield : entry.2.writing = some field := hfield
      rw [hfield] at hwriting
      have hname : seen ++ [toLower c] = field.text := by
        rw [← htext]
        simpa using hwriting
      rcases hcs with ⟨rfl, -⟩ | hcs
      · cases field <;> simp [Field.text, ascii] at hname
      · exact Or.inr ⟨seen, hcs, hname⟩
    · intro h
      rw [hline] at h
      cases h
  · split
    · refine ⟨by simp [HeadAct.writes], by simp [HttpCs.writing], ?_, by simp [HttpCs.isLineStart]⟩
      intro other hother
      cases hother
      rcases hcs with ⟨rfl, hline⟩ | hcs
      · exact ⟨rfl, Or.inl ⟨hline, rfl⟩⟩
      · exact ⟨rfl, Or.inr ⟨seen, hcs, rfl⟩⟩
    · exact .of_quiet herror rfl (by simp) rfl

theorem headersNext_lineNext (hcs : cs.isLineStart = true)
    (herror : onError.writes = none) : LineNext cs c (headersNext c onError) := by
  unfold headersNext
  split
  · exact .of_quiet rfl rfl (by simp) rfl
  · exact nameNext_lineNext (Or.inl ⟨rfl, hcs⟩) herror

theorem wordNext_lineNext {rest : Bytes} {c' : Byte} {more : Bytes → HttpCs}
    {last : HeadAct × HttpCs} (hmore : ∀ rest, LineNext cs c (.keep, more rest))
    (hlast : LineNext cs c last) (herror : onError.writes = none) :
    LineNext cs c (wordNext rest c' more last onError) := by
  unfold wordNext
  split
  · exact .of_quiet herror rfl (by simp) rfl
  · split
    · split
      · exact hlast
      · exact hmore _
    · exact .of_quiet herror rfl (by simp) rfl

theorem eorNext_lineNext (hact : act.writes = none)
    (herror : onError.writes = none) : LineNext cs c (eorNext c act onError) := by
  unfold eorNext
  split
  · exact .of_quiet hact rfl (by simp) rfl
  split
  · exact .of_quiet hact rfl (by simp) rfl
  · exact .of_quiet herror rfl (by simp) rfl

theorem valueNext_lineNext (field : Field) (c : Byte) (hcs : ∃ at_, cs = .sep field at_) :
    LineNext cs c (valueNext field c) := by
  obtain ⟨at_, rfl⟩ := hcs
  cases field <;> dsimp only [valueNext] <;> (repeat' split) <;>
    first
    | exact .of_quiet rfl rfl (by simp) rfl
    | exact .of_writing rfl (by simp [HeadAct.writes]) (by simp [HttpCs.writing]) (by simp) rfl

theorem sepNext_lineNext (field : Field) (at_ : SepCs) (c : Byte) :
    LineNext (.sep field at_) c (sepNext field at_ c) := by
  have hinside : ∀ act at', act.writes = none → LineNext (.sep field at_) c (act, .sep field at') := by
    intro act at' hact
    refine ⟨?_, ?_, by simp, by simp [HttpCs.isLineStart]⟩
    · intro other h
      rw [hact] at h
      cases h
    · intro other h
      left
      rw [← h]
      cases field <;> rfl
  have hvalue := valueNext_lineNext field c ⟨at_, rfl⟩
  cases at_ <;> dsimp only [sepNext] <;> (repeat' split) <;>
    first
    | exact hinside _ _ rfl
    | exact hvalue
    | exact .of_quiet rfl rfl (by simp) rfl

theorem md5HeadNext_lineNext (at_ : Md5Cs) (c : Byte) : LineNext (.md5 at_) c (md5HeadNext at_ c) := by
  have hquiet : ∀ act at', act.writes = none → LineNext (.md5 at_) c (act, .md5 at') :=
    fun act at' hact => .of_quiet hact rfl (by simp) rfl
  have herror : ∀ act, act.writes = none → LineNext (.md5 at_) c (act, .error) :=
    fun act hact => .of_quiet hact rfl (by simp) rfl
  unfold md5HeadNext
  dsimp only
  cases hnext : md5Next at_ c with
  | mk act next =>
    cases next with
    | inside at' => cases act <;> first | exact hquiet _ _ rfl | exact herror _ rfl
    | nextLine =>
      -- the line goes on unless it ends or is read again
      have hact : act = .lineEnd ∧ c = LF ∨ act = .ignoreLine ∨ act = .md5Err := by
        cases at_ with
        | sep at' => cases at' <;> simp only [md5Next] at hnext <;> (repeat' split at hnext) <;> simp_all
        | _ =>
          simp only [md5Next] at hnext
          (repeat' split at hnext) <;> simp_all
      rcases hact with ⟨rfl, hc⟩ | rfl | rfl
      · exact .of_lineEnd hc (Or.inl rfl) rfl (by simp)
      · exact herror _ rfl
      · exact herror _ rfl

theorem ignoredHeadNext_lineNext (at_ : IgnoredCs) (c : Byte) :
    LineNext (.ignored at_) c (ignoredHeadNext at_ c) := by
  unfold ignoredHeadNext
  split
  · exact .of_quiet rfl rfl (by simp) rfl
  · exact .of_quiet rfl rfl (by simp) rfl
  · rename_i hnext
    have hc : c = LF := by
      cases at_ <;> simp only [ignoredNext] at hnext <;> (repeat' split at hnext) <;> simp_all
    exact .of_lineEnd hc (Or.inl rfl) rfl (by simp)
  · exact .of_quiet rfl rfl (by simp) rfl

/-- **What a transition does**, for every state and byte. -/
theorem httpNext_lineNext (cs : HttpCs) (c : Byte) : LineNext cs c (httpNext cs c) := by
  have hquiet : ∀ {cs cs' : HttpCs} {act : HeadAct}, act.writes = none → cs'.writing = none →
      (∀ seen, cs' ≠ .name seen) → cs'.isLineStart = false → LineNext cs c (act, cs') := .of_quiet
  cases cs with
  | headers => exact headersNext_lineNext rfl rfl
  | headersAfterMd5 => exact headersNext_lineNext rfl rfl
  | name seen => exact nameNext_lineNext (Or.inr rfl) rfl
  | sep field at_ => exact sepNext_lineNext field at_ c
  | md5 at_ => exact md5HeadNext_lineNext at_ c
  | ignored at_ => exact ignoredHeadNext_lineNext at_ c
  | method rest => exact wordNext_lineNext (fun _ => hquiet rfl rfl (by simp) rfl) (hquiet rfl rfl (by simp) rfl) rfl
  | scheme rest => exact wordNext_lineNext (fun _ => hquiet rfl rfl (by simp) rfl) (hquiet rfl rfl (by simp) rfl) rfl
  | version rest => exact wordNext_lineNext (fun _ => hquiet rfl rfl (by simp) rfl) (hquiet rfl rfl (by simp) rfl) rfl
  | connectionValue keepAlive rest =>
    exact wordNext_lineNext (fun _ => hquiet rfl rfl (by simp) rfl) (hquiet rfl rfl (by simp) rfl) rfl
  | chunkedValue rest =>
    exact wordNext_lineNext (fun _ => hquiet rfl rfl (by simp) rfl) (hquiet rfl rfl (by simp) rfl) rfl
  | contentRangeUnit rest =>
    have hmore : ∀ rest', LineNext (.contentRangeUnit rest) c (.keep, .contentRangeUnit rest') :=
      fun _ => .of_writing rfl (Or.inl rfl) (Or.inr rfl) (by simp) rfl
    exact wordNext_lineNext hmore (.of_writing rfl (Or.inl rfl) (Or.inr rfl) (by simp) rfl) rfl
  | rangeUnit rest =>
    have hmore : ∀ rest', LineNext (.rangeUnit rest) c (.keep, .rangeUnit rest') :=
      fun _ => .of_writing rfl (Or.inl rfl) (Or.inr rfl) (by simp) rfl
    exact wordNext_lineNext hmore (.of_writing rfl (Or.inl rfl) (Or.inr rfl) (by simp) rfl) rfl
  | trailerMd5 rest =>
    dsimp only [httpNext, trailerMd5Next]
    (repeat' split) <;> first | exact hquiet rfl rfl (by simp) rfl | exact eorNext_lineNext rfl rfl
  | _ =>
    dsimp only [httpNext]
    (repeat' split) <;>
      first
      | exact hquiet rfl rfl (by simp) rfl
      | exact eorNext_lineNext rfl rfl
      | exact .of_writing rfl (by simp [HeadAct.writes]) (by simp [HttpCs.writing]) (by simp) rfl
      | exact .of_lineEnd (by simp_all) (by simp) rfl (by simp)

/-! ### Steps -/

def HeadAct.endsLine : HeadAct → Bool
  | .lineEnd => true
  | .hasRange => true
  | _ => false

/-- A step goes on behind its byte, or back to the second byte of the line. -/
theorem headStep_goto {buf : Bytes} {fields fields' : Fields} {pos pos' : Nat}
    (h : headStep buf fields pos c = .goto fields' pos') :
    (fields'.cs = (httpNext fields.cs c).2 ∧ pos' = pos + 1 ∧
      fields'.lineEnd = if (httpNext fields.cs c).1.endsLine then pos else fields.lineEnd) ∨
    (fields' = { fields with cs := .ignored .nameStart } ∧ pos' = fields.lineEnd + 2 ∧ 0 < fields.lineEnd) := by
  rcases hnext : httpNext fields.cs c with ⟨act, cs⟩
  simp only [headStep, hnext] at h
  cases act <;> dsimp only at h
  case ignoreLine =>
    split at h <;> cases h
    rename_i hend
    exact Or.inr ⟨rfl, rfl, hend.1⟩
  case md5Err =>
    (repeat' split at h) <;> cases h
    rename_i hend
    exact Or.inr ⟨rfl, rfl, hend.1⟩
  case lineEnd =>
    split at h
    · rename_i lineEnd hp
      cases h
      exact Or.inl ⟨rfl, rfl, eq_of_toU16 hp⟩
    · cases h
  case hasRange =>
    split at h
    · rename_i lineEnd hp
      cases h
      exact Or.inl ⟨rfl, rfl, eq_of_toU16 hp⟩
    · cases h
  all_goals
    repeat' split at h
    all_goals first | (cases h; exact Or.inl ⟨rfl, rfl, rfl⟩) | cases h

end Cmogstored
