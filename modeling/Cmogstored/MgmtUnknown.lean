import Cmogstored.Mgmt
import Cmogstored.MgmtCommands

/-! `invalid_line`: a line that is no word of the command grammar is read a second time, for its first
word, which is sent back. The marks are set again at every byte of the word; the last of them is the end of
the word, wherever the line had been cut and wherever the first reading had given up. -/

namespace Cmogstored

open List Prog Scan

variable {rest more : Bytes} {cs : MgmtCs}

/-! ### The first word of a line -/

/-- A byte other than space, tab, `\r` and `\n`. -/
def isWordByte (c : Byte) : Bool := !(isLws c || c == CR || c == LF)

/-- The first maximal run of such bytes. -/
def firstWord (line : Bytes) : Bytes := (line.dropWhile fun c => !isWordByte c).takeWhile isWordByte

/-- A line: its last byte is its only `\n`. -/
def IsMgmtLine (line : Bytes) : Prop := ∃ body, LF ∉ body ∧ line = body ++ [LF]

theorem firstWord_eq {blanks word : Bytes} {c : Byte} (hblanks : Blanks blanks) (hne : word ≠ [])
    (hword : ∀ c ∈ word, isWordByte c = true) (hc : isWordByte c = false) :
    firstWord (blanks ++ word ++ c :: rest) = word := by
  have hskip : ∀ b ∈ blanks, (!isWordByte b) = true := by
    intro b hb
    simp [isWordByte, hblanks b hb]
  obtain ⟨first, tail, rfl⟩ := exists_cons_of_ne_nil hne
  have hfirst : (!isWordByte first) = false := by simp [hword first (mem_cons_self ..)]
  rw [firstWord, append_assoc, dropWhile_append_of_pos hskip, cons_append,
    dropWhile_cons_of_neg (by simp [hfirst]), ← cons_append,
    takeWhile_append_of_pos hword, takeWhile_cons_of_neg (by simp [hc]), append_nil]

/-! ### The second reading -/

/-- The bytes up to `pos` are blanks and then the bytes of a word that starts at the first mark. -/
structure InWord (buf : Bytes) (fields : MgmtFields) (pos : Nat) : Prop where
  lt : fields.mark0 < pos
  blanks : Blanks (buf.take fields.mark0)
  word : ∀ c ∈ (buf.take pos).drop fields.mark0, isWordByte c = true

/-- The word ends at the second mark, and the byte there is before `pos`. -/
structure WordMarked (buf : Bytes) (fields : MgmtFields) (pos : Nat) : Prop extends
    InWord buf fields fields.mark1 where
  before : fields.mark1 < pos
  behind : ∃ c, buf[fields.mark1]? = some c ∧ isWordByte c = false

/-- What the second reading knows. -/
def EchoAt (buf : Bytes) (fields : MgmtFields) (pos : Nat) : Prop :=
  match fields.cs with
  | .invalidStart => Blanks (buf.take pos)
  | .invalidWord => InWord buf fields pos
  | .invalidRest => WordMarked buf fields pos
  -- no such line ends with `\r\n` in the first reading
  | .eorLf .unknown => False
  | _ => True

def EchoEnd (buf : Bytes) : Outcome MgmtFields MgmtStop → Prop
  | .halted fields pos (.call .unknown) => WordMarked buf fields pos
  | _ => True

section Steps

variable {accepting : Bool} {buf : Bytes} {fields : MgmtFields} {pos : Nat} {c : Byte}

theorem inWord_start (hblanks : Blanks (buf.take pos)) (hc : buf[pos]? = some c)
    (hword : isWordByte c = true) : InWord buf { fields with cs := cs, mark0 := pos } (pos + 1) := by
  have hpos := (List.getElem?_eq_some_iff.mp hc).1
  refine ⟨Nat.lt_succ_self pos, hblanks, ?_⟩
  show ∀ d ∈ (buf.take (pos + 1)).drop pos, isWordByte d = true
  rw [take_succ_of_getElem? hc, drop_left' (by rw [length_take]; omega)]
  simpa using hword

theorem InWord.snoc {mark1 : Nat} (h : InWord buf fields pos) (hc : buf[pos]? = some c)
    (hword : isWordByte c = true) : InWord buf { fields with cs := cs, mark1 := mark1 } (pos + 1) := by
  have hpos := (List.getElem?_eq_some_iff.mp hc).1
  have hlt := h.lt
  refine ⟨Nat.lt_succ_of_lt h.lt, h.blanks, ?_⟩
  show ∀ d ∈ (buf.take (pos + 1)).drop fields.mark0, isWordByte d = true
  rw [take_succ_of_getElem? hc, drop_append_of_le_length (by rw [length_take]; omega)]
  exact forall_mem_append.mpr ⟨h.word, by simpa using hword⟩

theorem InWord.marked (h : InWord buf fields pos) (hc : buf[pos]? = some c)
    (hword : isWordByte c = false) : WordMarked buf { fields with cs := cs, mark1 := pos } (pos + 1) :=
  { lt := h.lt, blanks := h.blanks, word := h.word, before := Nat.lt_succ_self pos, behind := ⟨c, hc, hword⟩ }

theorem WordMarked.on (h : WordMarked buf fields pos) :
    WordMarked buf { fields with cs := cs } (pos + 1) :=
  { lt := h.lt, blanks := h.blanks, word := h.word, before := Nat.lt_succ_of_lt h.before, behind := h.behind }

/-- The second reading starts at the start of the line. -/
theorem leads_again : (mgmtMove accepting fields pos notCommand).Leads (EchoAt buf) (EchoEnd buf) := by
  show Blanks (buf.take 0)
  rw [take_zero]
  exact nofun

theorem leads_fsck : (mgmtMove accepting fields pos (.setPrioFsck, .reason)).Leads (EchoAt buf) (EchoEnd buf) := by
  cases accepting <;> trivial

theorem mgmtStep_echo (hline : MgmtLineAt buf fields pos) (h : EchoAt buf fields pos)
    (hc : buf[pos]? = some c) :
    (mgmtStep accepting buf fields pos c).Leads (EchoAt buf) (EchoEnd buf) := by
  unfold mgmtStep
  unfold EchoAt at h
  cases hcs : fields.cs with
  | invalidStart =>
    rw [hcs] at h
    have hplace := hline.place
    rw [hcs] at hplace
    dsimp only [mgmtNext]
    split
    · exact Blanks.snoc h hc ‹_›
    · rename_i hlws
      have hlws : isLws c = false := by simpa using hlws
      split
      · trivial
      · rename_i hcr
        have hlf := (hplace.2.at_end h hc hlws).1
        exact inWord_start h hc (by simp [isWordByte, hlws, hlf, show c ≠ CR from by simpa using hcr])
  | invalidWord =>
    rw [hcs] at h
    have h : InWord buf fields pos := h
    dsimp only [mgmtNext]
    split
    · rename_i hlf
      exact h.marked hc (by simp [isWordByte, beq_iff_eq.mp hlf])
    · rename_i hlf
      split
      · rename_i hend
        exact h.marked hc (by simp [isWordByte, hend])
      · rename_i hword
        exact h.snoc hc (by simpa [isWordByte, hlf] using hword)
  | invalidRest =>
    rw [hcs] at h
    dsimp only [mgmtNext]
    split
    · exact WordMarked.on h
    · exact WordMarked.on h
  | eorLf fn =>
    rw [hcs] at h
    dsimp only [mgmtNext]
    split
    · cases fn <;> first | exact h.elim | trivial
    · exact leads_again
  | _ =>
    dsimp only [mgmtNext, mgmtEor, mgmtMarkedEor, mgmtWord, reasonNext, fsckNext]
    (repeat' split) <;> first | exact leads_again | exact leads_fsck | trivial

theorem echoEnd_mgmtExec (accepting : Bool) (buf : Bytes) (hcs : fields.cs = .start) :
    EchoEnd buf (mgmtExec accepting fields buf 0) := by
  have hstart : EchoAt buf fields 0 := by
    unfold EchoAt
    rw [hcs]
    trivial
  refine (scans_mgmtExec accepting (lineAt_start buf hcs)).leads
    (I := fun fields pos => MgmtLineAt buf fields pos ∧ EchoAt buf fields pos) (fun _ _ _ h hc => ?_)
    (fun _ _ _ _ => trivial) ⟨lineAt_start buf hcs, hstart⟩
  exact Move.Leads.mono (mgmtStep_line h.1 hc) (mgmtStep_echo h.1 h.2 hc)
    (fun _ _ hline hecho => ⟨hline.1, hecho⟩) fun _ _ hecho => hecho

/-- The marked bytes are the first word of what has been read. -/
theorem WordMarked.marked_eq (h : WordMarked buf fields pos) :
    fields.marked buf = firstWord (buf.take pos) := by
  obtain ⟨c, hc, hend⟩ := h.behind
  have hlt : fields.mark0 < fields.mark1 := h.lt
  have hmark := (List.getElem?_eq_some_iff.mp hc).1
  have hline : (buf.take pos)[fields.mark1]? = some c := by
    rw [List.getElem?_take_of_lt h.before]
    exact hc
  have hword : (buf.take pos).take fields.mark1 = buf.take fields.mark0 ++ fields.marked buf := by
    have hblanks : (buf.take fields.mark1).take fields.mark0 = buf.take fields.mark0 := by
      rw [take_take, Nat.min_eq_left (Nat.le_of_lt hlt)]
    rw [take_take, Nat.min_eq_left (Nat.le_of_lt h.before), MgmtFields.marked, ← hblanks,
      take_append_drop]
  have hrest : (buf.take pos).drop fields.mark1 = c :: (buf.take pos).drop (fields.mark1 + 1) := by
    obtain ⟨hlen, hget⟩ := List.getElem?_eq_some_iff.mp hline
    rw [drop_eq_getElem_cons hlen, hget]
  have hne : fields.marked buf ≠ [] := by
    rw [← length_pos_iff, MgmtFields.marked, length_drop, length_take]
    omega
  rw [← take_append_drop fields.mark1 (buf.take pos), hword, hrest]
  exact (firstWord_eq h.blanks hne h.word hend).symm

end Steps

/-! ### Unknown lines -/

/-- A line of which the first byte that is not blank is no `\r`, and which is no word of the grammar. -/
structure UnknownLine (line : Bytes) : Prop where
  ends : IsMgmtLine line
  noCr : (line.dropWhile isLws).head? ≠ some CR
  unknown : ¬ IsCommandLine line

/-- The marks are around the first word of the line, and before its end. -/
structure MarksWord (line : Bytes) (fields : MgmtFields) : Prop where
  lt : fields.mark0 < fields.mark1
  before : fields.mark1 < line.length
  marked : fields.marked line = firstWord line

section Unknown

variable {accepting : Bool} {line : Bytes} {base : MgmtFields}

theorem marked_append {fields : MgmtFields} (h : fields.mark1 < line.length) (more : Bytes) :
    fields.marked (line ++ more) = fields.marked line := by
  rw [MgmtFields.marked, MgmtFields.marked, take_append_of_le_length (Nat.le_of_lt h)]

theorem not_badLine (hnoCr : (line.dropWhile isLws).head? ≠ some CR) (more : Bytes) {seen : Bytes}
    (hseen : seen <+: line ++ more) (hlf : LF ∈ line) : ¬ BadLine seen := by
  rintro ⟨k, e, hblanks, hcr, -, -⟩
  obtain ⟨rest, hrest⟩ := hseen
  have hk := (List.getElem?_eq_some_iff.mp hcr).1
  have hbuf : (line ++ more)[k]? = some CR := by
    rw [← hrest, List.getElem?_append_left hk]
    exact hcr
  have hblanks : Blanks ((line ++ more).take k) := by
    rw [← hrest, take_append_of_le_length (Nat.le_of_lt hk)]
    exact hblanks
  -- the line ends behind its blanks, so the stray byte is part of it
  have hlt : k < line.length := by
    by_contra hge
    have hmem : LF ∈ (line ++ more).take k := by
      rw [take_append, take_of_length_le (Nat.le_of_not_lt hge)]
      exact mem_append_left _ hlf
    exact absurd (hblanks LF hmem) (by decide)
  rw [take_append_of_le_length (Nat.le_of_lt hlt)] at hblanks
  rw [List.getElem?_append_left hlt] at hbuf
  obtain ⟨hlen, hget⟩ := List.getElem?_eq_some_iff.mp hbuf
  refine hnoCr ?_
  rw [← take_append_drop k line, dropWhile_append_of_pos hblanks, drop_eq_getElem_cons hlen, hget,
    dropWhile_cons_of_neg (by decide)]
  rfl

theorem IsMgmtLine.lf_mem (h : IsMgmtLine line) : LF ∈ line := by
  obtain ⟨body, -, rfl⟩ := h
  exact mem_append_right _ (mem_singleton_self LF)

/-- The first `\n` of a buffer that starts with a line. -/
theorem IsMgmtLine.end_eq (h : IsMgmtLine line) {k : Nat} (hlf : (line ++ more)[k]? = some LF)
    (hno : LF ∉ (line ++ more).take k) : k + 1 = line.length := by
  obtain ⟨body, hbody, rfl⟩ := h
  have hat : (body ++ [LF] ++ more)[body.length]? = some LF := by simp
  rw [length_append, length_singleton]
  rcases Nat.lt_trichotomy k body.length with hlt | heq | hgt
  · rw [append_assoc, List.getElem?_append_left hlt] at hlf
    exact absurd (mem_of_getElem? hlf) hbody
  · rw [heq]
  · exact absurd (mem_take_of_getElem? hat hgt) hno

/-- A complete line that is unknown: where the parser stops, and what it has marked. -/
theorem UnknownLine.exec (accepting : Bool) (h : UnknownLine line) (hcs : base.cs = .start) (more : Bytes) :
    ∃ fields, mgmtExec accepting base (line ++ more) 0 = .halted fields line.length (.call .unknown) ∧
      MarksWord line fields := by
  have hend := lineEnd_mgmtExec accepting hcs (line ++ more)
  have hcommand := commandEnd_mgmtExec accepting (line ++ more) hcs
  have hecho := echoEnd_mgmtExec accepting (line ++ more) hcs
  cases hexec : mgmtExec accepting base (line ++ more) 0 with
  | more fields pos =>
    rw [hexec] at hend
    obtain ⟨rfl, hat⟩ := hend
    have hno := hat.noLf
    rw [take_length] at hno
    exact absurd (mem_append_left _ h.ends.lf_mem) hno
  | halted fields pos why =>
    rw [hexec] at hend hcommand hecho
    cases why with
    | reject => exact absurd hend (not_badLine h.noCr more (prefix_refl _) h.ends.lf_mem)
    | call fn =>
      obtain ⟨k, rfl, hlf, hno⟩ := hend
      have hpos := h.ends.end_eq hlf hno
      rw [hpos] at hcommand hecho
      have hfn : fn = .unknown := by
        rcases hcommand.1 with hfn | hline
        · exact hfn
        · rw [take_left] at hline
          exact absurd ⟨fn, hline.commandLine⟩ h.unknown
      subst hfn
      have hmarked := WordMarked.marked_eq hecho
      rw [take_left, marked_append hecho.before] at hmarked
      exact ⟨fields, by rw [hpos], hecho.lt, hecho.before, hmarked⟩
  | failed =>
    rw [hexec] at hend
    exact hend.elim
  | stuck =>
    rw [hexec] at hend
    exact hend.elim

/-- A part of such a line is read to its end. -/
theorem UnknownLine.exec_part (accepting : Bool) (h : UnknownLine line) (hcs : base.cs = .start) {seen : Bytes}
    (hseen : seen ++ rest = line) (hrest : rest ≠ []) :
    ∃ fields, mgmtExec accepting base seen 0 = .more fields seen.length ∧ fields.cs.parserState = .continue ∧
      LineRead accepting base seen fields := by
  have hno : LF ∉ seen := by
    obtain ⟨body, hbody, hline⟩ := h.ends
    rw [hline, ← dropLast_append_getLast hrest, ← append_assoc] at hseen
    have hbodies := append_inj_left' hseen rfl
    exact fun hmem => hbody (hbodies ▸ mem_append_left _ hmem)
  have hend := lineEnd_mgmtExec accepting hcs seen
  have hscan := scans_mgmtExec accepting (lineAt_start seen hcs)
  cases hexec : mgmtExec accepting base seen 0 with
  | more fields pos =>
    rw [hexec] at hend hscan
    obtain ⟨rfl, hat⟩ := hend
    refine ⟨fields, rfl, ?_, hcs, hscan⟩
    have hplace := hat.place
    cases hcs : fields.cs <;> rw [hcs] at hplace <;> first | rfl | exact hplace.elim
  | halted fields pos why =>
    rw [hexec] at hend
    cases why with
    | reject =>
      have hpre : seen <+: line ++ [] := ⟨rest, by rw [hseen, append_nil]⟩
      exact absurd hend (not_badLine h.noCr [] hpre h.ends.lf_mem)
    | call fn =>
      obtain ⟨k, -, hlf, -⟩ := hend
      exact absurd (mem_of_getElem? hlf) hno
  | failed =>
    rw [hexec] at hend
    exact hend.elim
  | stuck =>
    rw [hexec] at hend
    exact hend.elim

end Unknown

/-! ### Lines that arrive in pieces -/

/-- `mog_mgmt_parse` on a line that arrives in several reads: as long as the parser asks for more, the next
read is put behind the bytes it has parsed, as at the `reread` label. -/
def parsePieces (ctx : MgmtCtx) (fuel : Nat) : Mgmt → Bytes → List Bytes → MgmtIo (ParserState × Mgmt)
  | mgmt, _, [] => pure (.continue, mgmt)
  | mgmt, buf, data :: pieces => do
    let (state, mgmt') ← mogMgmtParse ctx fuel mgmt (buf.take mgmt.offset ++ data)
    match state with
    | .continue => parsePieces ctx fuel mgmt' (buf.take mgmt.offset ++ data) pieces
    | state => pure (state, mgmt')

/-- One reply, and the client behind it. -/
def echoed (fuel : Nat) (mgmt : Mgmt) (word : Bytes) : MgmtIo (ParserState × Mgmt) := do
  mgmtSys (.command (.unknown word))
  mgmtSys (.reply (ascii "ERROR: unknown command: " ++ word ++ ascii "\r\n"))
  let wbuf ← shared (mogTrywritev fuel [ascii "ERROR: unknown command: ", word, ascii "\r\n"])
  pure (.done, { mgmt with wbuf := wbuf })

section Pieces

variable {ctx : MgmtCtx} {fuel : Nat} {line : Bytes} {base : MgmtFields} {mgmt : Mgmt} {seen data : Bytes}

/-- The client has read `seen`, and no function has been called yet. -/
structure HasSeen (ctx : MgmtCtx) (base : MgmtFields) (seen : Bytes) (mgmt : Mgmt) : Prop where
  read : LineRead ctx.accepting base seen mgmt.toMgmtFields
  offset : mgmt.offset = seen.length
  null : mgmt.wbuf = .null

theorem HasSeen.parse_eq (h : HasSeen ctx base seen mgmt) :
    mogMgmtParse ctx fuel mgmt (seen ++ data) =
      match mgmtExec ctx.accepting base (seen ++ data) 0 with
      | .more fields pos => pure (fields.cs.parserState, { mgmt with toMgmtFields := fields, offset := pos })
      | .halted fields pos .reject => pure (.error, { mgmt with toMgmtFields := fields, offset := pos })
      | .halted fields pos (.call fn) => do
        mgmtSys (.command (commandOf fields (seen ++ data) fn))
        let mgmt ← mgmtAction fuel { mgmt with toMgmtFields := fields } (seen ++ data) fn
        pure (.done, { mgmt with cs := .final, offset := pos })
      | .failed => abort
      | .stuck => stuck := by
  have hnull : decide (mgmt.wbuf = .null) = true := decide_eq_true h.null
  have hle : decide (mgmt.offset ≤ (seen ++ data).length) = true := by
    rw [h.offset, length_append]
    exact decide_eq_true (Nat.le_add_right _ _)
  have hexec := h.read.exec_eq data
  rw [mogMgmtParse, hnull, hle, h.offset, hexec]
  rfl

/-- A read that does not end the line. -/
theorem HasSeen.part (fuel : Nat) (h : HasSeen ctx base seen mgmt) (hunknown : UnknownLine line) {rest : Bytes}
    (hseen : seen ++ data ++ rest = line) (hrest : rest ≠ []) :
    ∃ fields, mogMgmtParse ctx fuel mgmt (seen ++ data) =
        pure (.continue, { mgmt with toMgmtFields := fields, offset := (seen ++ data).length }) ∧
      LineRead ctx.accepting base (seen ++ data) fields := by
  obtain ⟨fields, hexec, hcontinue, hread⟩ :=
    hunknown.exec_part ctx.accepting h.read.start hseen hrest
  refine ⟨fields, ?_, hread⟩
  rw [h.parse_eq, hexec]
  dsimp only
  rw [hcontinue]

/-- The read that ends the line. -/
theorem HasSeen.last (fuel : Nat) (h : HasSeen ctx base seen mgmt) (hunknown : UnknownLine line)
    (hseen : seen ++ data = line ++ more) :
    ∃ fields, MarksWord line fields ∧ mogMgmtParse ctx fuel mgmt (seen ++ data) =
      echoed fuel { mgmt with toMgmtFields := { fields with cs := .final }, offset := line.length }
        (firstWord line) := by
  obtain ⟨fields, hexec, hmarks⟩ := hunknown.exec ctx.accepting h.read.start more
  refine ⟨fields, hmarks, ?_⟩
  have hnull : decide (mgmt.wbuf = .null) = true := decide_eq_true h.null
  have htext : [ascii "ERROR: unknown command: ", firstWord line, ascii "\r\n"].flatten =
      ascii "ERROR: unknown command: " ++ firstWord line ++ ascii "\r\n" := by
    simp only [flatten_cons, flatten_nil, append_nil, append_assoc]
  rw [h.parse_eq, hseen, hexec]
  dsimp only [commandOf, mgmtAction, mogMgmtFnUnknown, mogMgmtWritev, echoed]
  rw [marked_append hmarks.before, hmarks.marked, hnull, htext]
  simp only [bind_assoc]
  rfl

/-- A read ends the line, or it does not. -/
theorem ends_or_part (h : seen ++ rest = line ++ more) :
    (∃ more, seen = line ++ more) ∨ ∃ last, last ≠ [] ∧ seen ++ last = line ∧ rest = last ++ more := by
  rcases append_eq_append_iff.mp h with ⟨last, hline, hrest⟩ | ⟨behind, hseen, -⟩
  · by_cases hnil : last = []
    · exact Or.inl ⟨[], by rw [hline, hnil, append_nil, append_nil]⟩
    · exact Or.inr ⟨last, hnil, hline.symm, hrest⟩
  · exact Or.inl ⟨behind, hseen⟩

theorem HasSeen.pieces (h : HasSeen ctx base seen mgmt) (hunknown : UnknownLine line)
    {pieces : List Bytes} (hcut : seen ++ pieces.flatten = line ++ more) :
    ∃ fields, MarksWord line fields ∧ parsePieces ctx fuel mgmt seen pieces =
      echoed fuel { mgmt with toMgmtFields := { fields with cs := .final }, offset := line.length }
        (firstWord line) := by
  induction pieces generalizing seen mgmt with
  | nil =>
    rw [flatten_nil, append_nil] at hcut
    exact absurd (hcut ▸ mem_append_left _ hunknown.ends.lf_mem) h.read.noLf
  | cons data pieces ih =>
    have htake : seen.take mgmt.offset = seen := by rw [h.offset, take_length]
    rw [flatten_cons, ← append_assoc] at hcut
    rw [parsePieces, htake]
    rcases ends_or_part hcut with ⟨behind, hseen⟩ | ⟨last, hne, hline, hrest⟩
    · obtain ⟨fields, hmarks, hparse⟩ := h.last fuel hunknown hseen
      refine ⟨fields, hmarks, ?_⟩
      rw [hparse, echoed]
      simp only [bind_assoc]
      rfl
    · obtain ⟨fields, hparse, hread⟩ := h.part fuel hunknown hline hne
      rw [hparse]
      exact ih ⟨hread, rfl, h.null⟩ (by rw [hrest, ← append_assoc, hline])

end Pieces

/-- **Unknown commands are echoed exactly.** A line that is no word of the command grammar arrives in any
number of reads, with anything behind it. The parser makes one reply, with the first word of the line; the
marks are around that word, before the end of the line, and the parser stops right behind the line. -/
theorem unknown_line_echoed (ctx : MgmtCtx) (fuel : Nat) {mgmt : Mgmt} {line more : Bytes} {pieces : List Bytes}
    (hcs : mgmt.cs = .start) (hoffset : mgmt.offset = 0) (hnull : mgmt.wbuf = .null) (hline : UnknownLine line)
    (hcut : pieces.flatten = line ++ more) :
    ∃ fields, MarksWord line fields ∧ parsePieces ctx fuel mgmt [] pieces =
      echoed fuel { mgmt with toMgmtFields := { fields with cs := .final }, offset := line.length }
        (firstWord line) := by
  have hseen : HasSeen ctx mgmt.toMgmtFields [] mgmt := ⟨lineRead_nil hcs, hoffset, hnull⟩
  exact hseen.pieces hline hcut

theorem unknown_line_echoed_split :
    ∃ fields, MarksWord [63, 63, SP, LF] fields ∧
      parsePieces zeroHashCtx 1 mogMgmtInit [] [[63], [63, SP, LF, 119]] =
        echoed 1 { mogMgmtInit with toMgmtFields := { fields with cs := .final }, offset := 4 } [63, 63] := by
  have hline : UnknownLine [63, 63, SP, LF] := by
    refine ⟨⟨[63, 63, SP], by decide, rfl⟩, by decide, fun h => ?_⟩
    rcases h.head with hlws | hmem
    · cases hlws
    · revert hmem
      decide
  exact unknown_line_echoed zeroHashCtx 1 rfl rfl rfl hline
    (show [[63], [63, SP, LF, 119]].flatten = [63, 63, SP, LF] ++ [119] from rfl)

end Cmogstored
