import Cmogstored.MgmtScan

/-! `command`, the grammar of the management protocol, and what the machine has read of it in each of its
states, with its marks around the argument. A line for which a function other than `mog_mgmt_fn_unknown` is
called is a word of the grammar, and the function gets an argument of its grammar. -/

namespace Cmogstored

open List Scan

variable {rest word text path : Bytes} {c : Byte} {m0 m1 : Nat}

/-! ### The grammar -/

/-- `path` -/
def IsMgmtPath (path : Bytes) : Prop := ∃ rest, path = 47 :: rest ∧ ∀ c ∈ rest, isPathChar c = true

/-- `eor` -/
def IsEor (eor : Bytes) : Prop := eor = [LF] ∨ eor = [CR, LF]

/-- `reason?` -/
def IsReason (reason : Bytes) : Prop :=
  reason = [] ∨ ∃ word, reason = SP :: word ∧ word ≠ [] ∧ ∀ c ∈ word, isReasonChar c = true

/-- `"MD5 "` and `"SHA-1 "` -/
def digestNames : List Bytes := [ascii "MD5 ", ascii "SHA-1 "]

/-- `size`: a line with its path. -/
def SizeLine (line path : Bytes) : Prop :=
  IsMgmtPath path ∧ ∃ eor, IsEor eor ∧ line = ascii "size " ++ path ++ eor

/-- `digest` -/
def DigestLine (line path : Bytes) : Prop :=
  IsMgmtPath path ∧ ∃ name ∈ digestNames, ∃ reason eor, IsReason reason ∧ IsEor eor ∧
    line = name ++ path ++ (reason ++ eor)

/-- The digits of `server aio_threads` are digits, with the end of the line behind them. -/
def ThreadsOk (fields : MgmtFields) (buf : Bytes) : Prop :=
  (buf[fields.mark1]? = some LF ∨ buf[fields.mark1]? = some CR) ∧ (fields.marked buf).all isDigit = true

/-- `"server aio_threads"i` -/
def IsThreadsName (name : Bytes) : Prop := name.map toLower = ascii "server aio_threads"

/-- `' '?'='` -/
def threadsSigns : List Bytes := [[61], [SP, 61]]

/-- The commands, without the end of their line. -/
def CommandBody : MgmtFn → Bytes → Prop
  | .blank, body => Blanks body
  | .size, body => ∃ path, IsMgmtPath path ∧ body = ascii "size " ++ path
  | .digest, body => ∃ name ∈ digestNames, ∃ path reason, IsMgmtPath path ∧ IsReason reason ∧
      body = name ++ path ++ reason
  | .watch, body => body = ascii "watch"
  | .aioThreads, body => ∃ name, IsThreadsName name ∧ ∃ sign ∈ threadsSigns, ∃ blank ∈ [[], [SP]],
      ∃ digits, digits ≠ [] ∧ (∀ c ∈ digits, isDigit c = true) ∧ body = name ++ sign ++ blank ++ digits
  | .shutdown, body => body = ascii "shutdown" ∨
      ∃ n, body = ascii "shutdown" ++ List.replicate (n + 1) SP ++ ascii "graceful"
  | .unknown, _ => False

/-- A line that calls `fn`. -/
def CommandLine (fn : MgmtFn) (line : Bytes) : Prop :=
  ∃ body eor, CommandBody fn body ∧ IsEor eor ∧ line = body ++ eor

/-- `command`: a word of the command grammar. -/
def IsCommandLine (line : Bytes) : Prop := ∃ fn, CommandLine fn line

/-- The start of a digest command, up to and including the first four letters of a reason, which are
`fsck`. -/
def FiresFsck (line : Bytes) : Prop :=
  ∃ name ∈ digestNames, ∃ path, IsMgmtPath path ∧ name ++ path ++ ascii " fsck" <+: line

theorem FiresFsck.append {line : Bytes} (h : FiresFsck line) (more : Bytes) : FiresFsck (line ++ more) := by
  obtain ⟨name, hname, path, hpath, hpre⟩ := h
  exact ⟨name, hname, path, hpath, hpre.trans (prefix_append line more)⟩

/-- How the lines of the grammar start. -/
theorem IsCommandLine.head {c : Byte} (h : IsCommandLine (c :: rest)) :
    isLws c = true ∨ toLower c ∈ [CR, LF, 109, 115, 119] := by
  obtain ⟨fn, body, eor, hbody, heor, hline⟩ := h
  cases fn with
  | blank =>
    cases body with
    | nil =>
      rcases heor with rfl | rfl
      · obtain rfl : c = LF := (List.cons.inj hline).1
        exact Or.inr (by decide)
      · obtain rfl : c = CR := (List.cons.inj hline).1
        exact Or.inr (by decide)
    | cons b body =>
      obtain rfl : c = b := (List.cons.inj hline).1
      exact Or.inl (hbody c (mem_cons_self ..))
  | size =>
    obtain ⟨path, -, rfl⟩ := hbody
    obtain rfl : c = 115 := (List.cons.inj hline).1
    exact Or.inr (by decide)
  | digest =>
    obtain ⟨name, hname, path, reason, -, -, rfl⟩ := hbody
    rcases mem_pair.mp hname with rfl | rfl
    · obtain rfl : c = 77 := (List.cons.inj hline).1
      exact Or.inr (by decide)
    · obtain rfl : c = 83 := (List.cons.inj hline).1
      exact Or.inr (by decide)
  | watch =>
    obtain rfl : body = ascii "watch" := hbody
    obtain rfl : c = 119 := (List.cons.inj hline).1
    exact Or.inr (by decide)
  | aioThreads =>
    obtain ⟨name, hname, sign, -, blank, -, digits, -, -, rfl⟩ := hbody
    cases name with
    | nil => cases hname
    | cons d name =>
      obtain rfl : c = d := (List.cons.inj hline).1
      have hd : toLower c = 115 := (List.cons.inj hname).1
      rw [hd]
      exact Or.inr (by decide)
  | shutdown =>
    have hc : c = 115 := by
      rcases hbody with rfl | ⟨n, rfl⟩
      · exact (List.cons.inj hline).1
      · exact (List.cons.inj hline).1
    subst hc
    exact Or.inr (by decide)
  | unknown => exact hbody.elim

/-! ### What has been read of a command -/

/-- Behind one of `names` a path from the first mark on. -/
def PathText (names : List Bytes) (m0 : Nat) (text : Bytes) : Prop :=
  ∃ name ∈ names, ∃ path, IsMgmtPath path ∧ text = name ++ path ∧ m0 = name.length

/-- Behind one of `names` a path between the marks, and then `tail`. -/
def MarkedText (names : List Bytes) (m0 m1 : Nat) (tail text : Bytes) : Prop :=
  ∃ name ∈ names, ∃ path, IsMgmtPath path ∧ text = name ++ path ++ tail ∧ m0 = name.length ∧
    m1 = (name ++ path).length

/-- A digest command up to the blank behind its path, and then `word`. -/
abbrev DigestText (m0 m1 : Nat) (word text : Bytes) : Prop := MarkedText digestNames m0 m1 (SP :: word) text

/-- `server aio_threads` up to its digits. -/
def ThreadsText (blank text : Bytes) : Prop :=
  ∃ name, IsThreadsName name ∧ ∃ sign ∈ threadsSigns, text = name ++ sign ++ blank

/-- The same with digits from the first mark on. -/
def DigitsText (m0 : Nat) (text : Bytes) : Prop :=
  ∃ blank ∈ [[], [SP]], ∃ start, ThreadsText blank start ∧ ∃ digits, digits ≠ [] ∧
    (∀ c ∈ digits, isDigit c = true) ∧ text = start ++ digits ∧ m0 = start.length

/-- `shutdown` and at least one blank. -/
def GracefulText (word text : Bytes) : Prop :=
  ∃ n, text = ascii "shutdown" ++ List.replicate (n + 1) SP ++ word

/-- A command with its marks, without the end of its line. -/
def BodyText : MgmtFn → Nat → Nat → Bytes → Prop
  | .size, m0, m1, body => MarkedText [ascii "size "] m0 m1 [] body
  | .digest, m0, m1, body => ∃ reason, IsReason reason ∧ MarkedText digestNames m0 m1 reason body
  | .aioThreads, m0, m1, body => DigitsText m0 body ∧ m1 = body.length
  | fn, _, _, body => CommandBody fn body

/-- A line that calls `fn`, with its marks. -/
def CalledLine (fn : MgmtFn) (m0 m1 : Nat) (line : Bytes) : Prop :=
  ∃ body eor, BodyText fn m0 m1 body ∧ IsEor eor ∧ line = body ++ eor

def CommandText (m0 m1 : Nat) : MgmtCs → Bytes → Prop
  | .start, text => text = []
  | .blank, text => Blanks text
  | .upperS, text => text = ascii "S"
  | .lowerS, text => text = ascii "s"
  | .md5 rest, text => text ++ rest = ascii "MD5"
  | .sha1 rest, text => text ++ rest = ascii "SHA-1"
  | .digestBlank, text => text ++ [SP] ∈ digestNames
  | .digestSlash, text => text ∈ digestNames
  | .digestPath, text => PathText digestNames m0 text
  | .reasonStart, text => DigestText m0 m1 [] text
  | .reason, text => ∃ word, word ≠ [] ∧ (∀ c ∈ word, isReasonChar c = true) ∧ DigestText m0 m1 word text
  | .fsck rest, text => ∃ word, word ≠ [] ∧ word ++ rest = ascii "fsck" ∧ DigestText m0 m1 word text
  | .server rest, text => text.map toLower ++ rest = ascii "server aio_threads"
  | .threadsEquals, text => IsThreadsName text
  | .threadsSign, text => ∃ name, IsThreadsName name ∧ text = name ++ [SP]
  | .threadsStart, text => ThreadsText [] text
  | .threadsBlank, text => ThreadsText [SP] text
  | .threadsDigits, text => DigitsText m0 text
  | .shutdown rest, text => text ++ rest = ascii "shutdown"
  | .shutdownEnd, text => text = ascii "shutdown"
  | .gracefulBlank, text => GracefulText [] text
  | .graceful rest, text => ∃ word, word ++ rest = ascii "graceful" ∧ GracefulText word text
  | .gracefulEnd, text => GracefulText (ascii "graceful") text
  | .size rest, text => text ++ rest = ascii "size "
  | .sizeSlash, text => text = ascii "size "
  | .sizePath, text => PathText [ascii "size "] m0 text
  | .watch rest, text => text ++ rest = ascii "watch"
  | .watchEnd, text => text = ascii "watch"
  | .eorLf fn, text => ∃ body, BodyText fn m0 m1 body ∧ text = body ++ [CR]
  | _, _ => True

/-- What one more byte `c` does behind `text`. -/
def CommandNext (m0 m1 : Nat) (text : Bytes) (c : Byte) (next : MgmtAct × MgmtCs) : Prop :=
  match next.1 with
  | .mark0 => CommandText text.length m1 next.2 (text ++ [c])
  | .mark1 => CommandText m0 text.length next.2 (text ++ [c])
  | .call fn => fn = .unknown ∨ CalledLine fn m0 m1 (text ++ [c])
  | .mark1Call fn => fn = .unknown ∨ CalledLine fn m0 text.length (text ++ [c])
  | .invalidLine => True
  | .reject => True
  | .setPrioFsck => FiresFsck (text ++ [c]) ∧ CommandText m0 m1 next.2 (text ++ [c])
  | _ => CommandText m0 m1 next.2 (text ++ [c])

section Next

theorem IsMgmtPath.snoc (h : IsMgmtPath path) (hc : isPathChar c = true) : IsMgmtPath (path ++ [c]) := by
  obtain ⟨rest, rfl, hrest⟩ := h
  exact ⟨rest ++ [c], rfl, forall_mem_append.mpr ⟨hrest, by simpa using hc⟩⟩

theorem commandNext_notCommand : CommandNext m0 m1 text c notCommand := trivial

/-- A letter of a fixed word; `key` is the letter as it is compared. -/
theorem commandNext_word {key : Byte} {more : Bytes → MgmtCs} {last : MgmtAct × MgmtCs}
    (hmore : ∀ rest', rest = key :: rest' → CommandText m0 m1 (more rest') (text ++ [c]))
    (hlast : rest = [key] → CommandNext m0 m1 text c last) :
    CommandNext m0 m1 text c (mgmtWord rest key more last) := by
  unfold mgmtWord
  split
  · exact commandNext_notCommand
  · rename_i expected rest
    split
    · rename_i heq
      obtain rfl := beq_iff_eq.mp heq
      split
      · rename_i hempty
        exact hlast (by rw [isEmpty_iff.mp hempty])
      · exact hmore rest rfl
    · exact commandNext_notCommand

/-- The same for a word whose state says what is still to come of it. -/
theorem commandNext_fixed {more : Bytes → MgmtCs} {last : MgmtAct × MgmtCs} (h : text ++ rest = word)
    (hmore : ∀ rest, text ++ [c] ++ rest = word → CommandText m0 m1 (more rest) (text ++ [c]))
    (hlast : text ++ [c] = word → CommandNext m0 m1 text c last) :
    CommandNext m0 m1 text c (mgmtWord rest c more last) := by
  refine commandNext_word (fun rest' hrest => hmore rest' ?_) fun hrest => hlast ?_
  · rw [← h, hrest, append_assoc, singleton_append]
  · rw [← h, hrest]

/-- The end of a line, or something else. -/
theorem commandNext_eor (fn : MgmtFn) {other : MgmtAct × MgmtCs} (h : BodyText fn m0 m1 text)
    (hother : CommandNext m0 m1 text c other) : CommandNext m0 m1 text c (mgmtEor c fn other) := by
  unfold mgmtEor
  split
  · rename_i hlf
    exact Or.inr ⟨text, [LF], h, Or.inl rfl, by rw [beq_iff_eq.mp hlf]⟩
  split
  · rename_i hcr
    exact ⟨text, h, by rw [beq_iff_eq.mp hcr]⟩
  · exact hother

theorem commandNext_markedEor {fn : MgmtFn} (h : BodyText fn m0 text.length text) :
    CommandNext m0 m1 text c (mgmtMarkedEor c fn notCommand) := by
  unfold mgmtMarkedEor
  split
  · rename_i hlf
    exact Or.inr ⟨text, [LF], h, Or.inl rfl, by rw [beq_iff_eq.mp hlf]⟩
  split
  · rename_i hcr
    exact ⟨text, h, by rw [beq_iff_eq.mp hcr]⟩
  · exact commandNext_notCommand

theorem pathText_start {names : List Bytes} (h : text ∈ names) (hc : (c == 47) = true) :
    PathText names text.length (text ++ [c]) := by
  obtain rfl := beq_iff_eq.mp hc
  exact ⟨text, h, [47], ⟨[], rfl, nofun⟩, rfl, rfl⟩

theorem PathText.snoc {names : List Bytes} (h : PathText names m0 text) (hc : isPathChar c = true) :
    PathText names m0 (text ++ [c]) := by
  obtain ⟨name, hname, path, hpath, rfl, hm0⟩ := h
  exact ⟨name, hname, path ++ [c], hpath.snoc hc, append_assoc _ _ _, hm0⟩

/-- The path ends here. -/
theorem PathText.marked {names : List Bytes} (h : PathText names m0 text) (tail : Bytes) :
    MarkedText names m0 text.length tail (text ++ tail) := by
  obtain ⟨name, hname, path, hpath, rfl, hm0⟩ := h
  exact ⟨name, hname, path, hpath, rfl, hm0, rfl⟩

theorem DigestText.snoc (h : DigestText m0 m1 word text) : DigestText m0 m1 (word ++ [c]) (text ++ [c]) := by
  obtain ⟨name, hname, path, hpath, rfl, hmarks⟩ := h
  exact ⟨name, hname, path, hpath, by rw [append_assoc, cons_append], hmarks⟩

theorem DigestText.body (h : DigestText m0 m1 word text) (hne : word ≠ [])
    (hword : ∀ c ∈ word, isReasonChar c = true) : BodyText .digest m0 m1 text :=
  ⟨SP :: word, Or.inr ⟨word, rfl, hne, hword⟩, h⟩

theorem DigestText.fires (h : DigestText m0 m1 (ascii "fsck") text) : FiresFsck text := by
  obtain ⟨name, hname, path, hpath, rfl, -⟩ := h
  exact ⟨name, hname, path, hpath, prefix_refl _⟩

theorem commandNext_reason (hne : word ≠ []) (hword : ∀ c ∈ word, isReasonChar c = true)
    (h : DigestText m0 m1 word text) : CommandNext m0 m1 text c (reasonNext c) := by
  refine commandNext_eor .digest (h.body hne hword) ?_
  split
  · rename_i hchar
    exact ⟨word ++ [c], by simp, forall_mem_append.mpr ⟨hword, by simpa using hchar⟩, h.snoc⟩
  · exact commandNext_notCommand

theorem isReasonChar_fsck : ∀ c ∈ ascii "fsck", isReasonChar c = true := all_eq_true.mp (by decide)

theorem commandNext_fsck (hne : word ≠ []) (hword : word ++ rest = ascii "fsck")
    (h : DigestText m0 m1 word text) : CommandNext m0 m1 text c (fsckNext rest c) := by
  have hchars : ∀ c ∈ word, isReasonChar c = true := fun c hc =>
    isReasonChar_fsck c (hword ▸ mem_append_left _ hc)
  unfold fsckNext
  split
  · exact commandNext_reason hne hchars h
  · rename_i expected rest
    split
    · rename_i heq
      obtain rfl := beq_iff_eq.mp heq
      split
      · rename_i hempty
        have hdone : word ++ [c] = ascii "fsck" := by rw [← hword, isEmpty_iff.mp hempty]
        have htext : DigestText m0 m1 (ascii "fsck") (text ++ [c]) := hdone ▸ h.snoc
        exact ⟨htext.fires, ascii "fsck", by decide, isReasonChar_fsck, htext⟩
      · exact ⟨word ++ [c], by simp, by rw [← hword, append_assoc, singleton_append], h.snoc⟩
    · exact commandNext_reason hne hchars h

theorem GracefulText.snoc (h : GracefulText word text) :
    GracefulText (word ++ [c]) (text ++ [c]) := by
  obtain ⟨n, rfl⟩ := h
  exact ⟨n, append_assoc _ _ _⟩

/-- One more blank. -/
theorem GracefulText.blank (h : GracefulText [] text) : GracefulText [] (text ++ [SP]) := by
  obtain ⟨n, rfl⟩ := h
  refine ⟨n + 1, ?_⟩
  rw [append_nil, append_nil, append_assoc, ← replicate_succ']

theorem ThreadsText.digit {blank : Bytes} (h : ThreadsText blank text) (hblank : blank ∈ [[], [SP]])
    (hc : isDigit c = true) : DigitsText text.length (text ++ [c]) :=
  ⟨blank, hblank, text, h, [c], by simp, by simpa using hc, rfl, rfl⟩

theorem DigitsText.snoc (h : DigitsText m0 text) (hc : isDigit c = true) : DigitsText m0 (text ++ [c]) := by
  obtain ⟨blank, hblank, start, hstart, digits, -, hdigits, rfl, hm0⟩ := h
  exact ⟨blank, hblank, start, hstart, digits ++ [c], by simp,
    forall_mem_append.mpr ⟨hdigits, by simpa using hc⟩, append_assoc _ _ _, hm0⟩

theorem toLower_server_e (hc : (toLower c == 101) = true) (htext : text.map toLower = ascii "s") :
    (text ++ [c]).map toLower ++ ascii "rver aio_threads" = ascii "server aio_threads" := by
  rw [map_append, htext, map_singleton, beq_iff_eq.mp hc]
  rfl

/-- **One byte** of a line. -/
theorem mgmtNext_commandText {cs : MgmtCs} (h : CommandText m0 m1 cs text) :
    CommandNext m0 m1 text c (mgmtNext cs c) := by
  have hletter : ∀ word : Bytes, text = word → ∀ letter, (c == letter) = true →
      text ++ [c] = word ++ [letter] := by
    intro word hword letter heq
    rw [hword, beq_iff_eq.mp heq]
  cases cs with
  | start =>
    have hletter := hletter [] h
    obtain rfl : text = [] := h
    dsimp only [mgmtNext]
    split
    · rename_i hlws
      show Blanks [c]
      intro d hd
      rwa [mem_singleton.mp hd]
    split
    · rename_i heq
      show [] ++ [c] ++ ascii "D5" = ascii "MD5"
      rw [hletter _ heq]
      rfl
    split
    · exact hletter _ ‹_›
    split
    · exact hletter _ ‹_›
    split
    · rename_i heq
      show [] ++ [c] ++ ascii "atch" = ascii "watch"
      rw [hletter _ heq]
      rfl
    · exact commandNext_eor .blank nofun commandNext_notCommand
  | blank =>
    dsimp only [mgmtNext]
    split
    · rename_i hlws
      exact forall_mem_append.mpr ⟨h, by simpa using hlws⟩
    · exact commandNext_eor .blank h commandNext_notCommand
  | upperS =>
    have hletter := hletter _ h
    dsimp only [mgmtNext]
    split
    · rename_i heq
      show text ++ [c] ++ ascii "A-1" = ascii "SHA-1"
      rw [hletter _ heq]
      rfl
    split
    · rename_i heq
      exact toLower_server_e heq (by rw [show text = ascii "S" from h]; rfl)
    · exact commandNext_notCommand
  | lowerS =>
    have hletter := hletter _ h
    dsimp only [mgmtNext]
    split
    · rename_i heq
      show text ++ [c] ++ ascii "utdown" = ascii "shutdown"
      rw [hletter _ heq]
      rfl
    split
    · rename_i heq
      show text ++ [c] ++ ascii "ze " = ascii "size "
      rw [hletter _ heq]
      rfl
    split
    · rename_i heq
      exact toLower_server_e heq (by rw [show text = ascii "s" from h]; rfl)
    · exact commandNext_notCommand
  | md5 rest =>
    refine commandNext_fixed h (fun _ h => h) fun hword => ?_
    show text ++ [c] ++ [SP] ∈ digestNames
    rw [hword]
    decide
  | sha1 rest =>
    refine commandNext_fixed h (fun _ h => h) fun hword => ?_
    show text ++ [c] ++ [SP] ∈ digestNames
    rw [hword]
    decide
  | digestBlank =>
    dsimp only [mgmtNext]
    split
    · rename_i heq
      show text ++ [c] ∈ digestNames
      rw [hletter _ rfl _ heq]
      exact h
    · exact commandNext_notCommand
  | digestSlash =>
    dsimp only [mgmtNext]
    split
    · exact pathText_start h ‹_›
    · exact commandNext_notCommand
  | digestPath =>
    dsimp only [mgmtNext]
    split
    · rename_i heq
      obtain rfl := beq_iff_eq.mp heq
      exact PathText.marked h [SP]
    split
    · exact PathText.snoc h ‹_›
    · have hmarked := PathText.marked h []
      rw [append_nil] at hmarked
      exact commandNext_markedEor ⟨[], Or.inl rfl, hmarked⟩
  | reasonStart =>
    have htext : DigestText m0 m1 [c] (text ++ [c]) := DigestText.snoc h
    dsimp only [mgmtNext]
    split
    · rename_i heq
      exact ⟨[c], by simp, by rw [beq_iff_eq.mp heq]; rfl, htext⟩
    split
    · rename_i hchar
      exact ⟨[c], by simp, by simpa using hchar, htext⟩
    · exact commandNext_notCommand
  | reason =>
    obtain ⟨word, hne, hword, htext⟩ := h
    exact commandNext_reason hne hword htext
  | fsck rest =>
    obtain ⟨word, hne, hword, htext⟩ := h
    exact commandNext_fsck hne hword htext
  | server rest =>
    have hmap : (text ++ [c]).map toLower = text.map toLower ++ [toLower c] := by simp
    refine commandNext_word (fun rest' hrest => ?_) fun hrest => ?_
    · show (text ++ [c]).map toLower ++ rest' = _
      rw [hmap, ← show text.map toLower ++ rest = _ from h, hrest, append_assoc, singleton_append]
    · show (text ++ [c]).map toLower = _
      rw [hmap, ← show text.map toLower ++ rest = _ from h, hrest]
  | threadsEquals =>
    dsimp only [mgmtNext]
    split
    · exact ⟨text, h, hletter _ rfl _ ‹_›⟩
    split
    · exact ⟨text, h, [61], mem_cons_self .., by rw [append_nil, hletter _ rfl _ ‹_›]⟩
    · exact commandNext_notCommand
  | threadsSign =>
    obtain ⟨name, hname, rfl⟩ := h
    dsimp only [mgmtNext]
    split
    · refine ⟨name, hname, [SP, 61], by decide, ?_⟩
      rw [append_nil, hletter _ rfl _ ‹_›, append_assoc]
      rfl
    · exact commandNext_notCommand
  | threadsStart =>
    dsimp only [mgmtNext]
    split
    · obtain ⟨name, hname, sign, hsign, rfl⟩ := h
      exact ⟨name, hname, sign, hsign, by rw [hletter _ rfl _ ‹_›, append_nil]⟩
    split
    · exact ThreadsText.digit h (mem_cons_self ..) ‹_›
    · exact commandNext_notCommand
  | threadsBlank =>
    dsimp only [mgmtNext]
    split
    · exact ThreadsText.digit h (by decide) ‹_›
    · exact commandNext_notCommand
  | threadsDigits =>
    dsimp only [mgmtNext]
    split
    · exact DigitsText.snoc h ‹_›
    · exact commandNext_markedEor ⟨h, rfl⟩
  | shutdown rest => exact commandNext_fixed h (fun _ h => h) fun h => h
  | shutdownEnd =>
    dsimp only [mgmtNext]
    split
    · exact ⟨0, hletter _ h _ ‹_›⟩
    · exact commandNext_eor .shutdown (Or.inl h) commandNext_notCommand
  | gracefulBlank =>
    dsimp only [mgmtNext]
    split
    · rename_i heq
      obtain rfl := beq_iff_eq.mp heq
      exact GracefulText.blank h
    split
    · rename_i heq
      exact ⟨[c], by rw [beq_iff_eq.mp heq]; rfl, GracefulText.snoc h⟩
    · exact commandNext_notCommand
  | graceful rest =>
    obtain ⟨word, hword, htext⟩ := h
    refine commandNext_word (fun rest' hrest => ⟨word ++ [c], ?_, htext.snoc⟩) fun hrest => ?_
    · rw [← hword, hrest, append_assoc, singleton_append]
    · show GracefulText (ascii "graceful") (text ++ [c])
      rw [← hword, hrest]
      exact htext.snoc
  | gracefulEnd => exact commandNext_eor .shutdown (Or.inr h) commandNext_notCommand
  | size rest => exact commandNext_fixed h (fun _ h => h) fun h => h
  | sizeSlash =>
    dsimp only [mgmtNext]
    split
    · exact pathText_start (mem_singleton.mpr h) ‹_›
    · exact commandNext_notCommand
  | sizePath =>
    dsimp only [mgmtNext]
    split
    · exact PathText.snoc h ‹_›
    · have hmarked := PathText.marked h []
      rw [append_nil] at hmarked
      exact commandNext_markedEor hmarked
  | watch rest => exact commandNext_fixed h (fun _ h => h) fun h => h
  | watchEnd => exact commandNext_eor .watch h commandNext_notCommand
  | eorLf fn =>
    obtain ⟨body, hbody, rfl⟩ := h
    dsimp only [mgmtNext]
    split
    · rename_i hlf
      refine Or.inr ⟨body, [CR, LF], hbody, Or.inr rfl, ?_⟩
      rw [beq_iff_eq.mp hlf, append_assoc]
      rfl
    · exact commandNext_notCommand
  | invalidStart =>
    dsimp only [mgmtNext]
    (repeat' split) <;> trivial
  | invalidWord =>
    dsimp only [mgmtNext]
    split
    · exact Or.inl rfl
    (repeat' split) <;> trivial
  | invalidRest =>
    dsimp only [mgmtNext]
    split
    · exact Or.inl rfl
    · trivial
  | final => exact commandNext_notCommand
  | error => trivial

end Next

/-! ### Lines -/

section Lines

variable {accepting : Bool} {buf : Bytes} {base fields : MgmtFields} {pos : Nat} {fn : MgmtFn}

/-- What the machine has read, and what `set_prio_fsck` has done so far. -/
structure CommandAt (base : MgmtFields) (buf : Bytes) (fields : MgmtFields) (pos : Nat) : Prop where
  text : CommandText fields.mark0 fields.mark1 fields.cs (buf.take pos)
  prio : fields.prio = base.prio ∨ FiresFsck buf

/-- What a called function can take from the line. -/
def CommandEnd (base : MgmtFields) (buf : Bytes) : Outcome MgmtFields MgmtStop → Prop
  | .halted fields pos (.call fn) => (fn = .unknown ∨ CalledLine fn fields.mark0 fields.mark1 (buf.take pos)) ∧
      (fields.prio = base.prio ∨ FiresFsck buf)
  | _ => True

theorem FiresFsck.of_take (h : FiresFsck (buf.take pos)) : FiresFsck buf := by
  have happend := h.append (buf.drop pos)
  rwa [take_append_drop] at happend

theorem mgmtStep_command (h : CommandAt base buf fields pos) (hc : buf[pos]? = some c) :
    (mgmtStep accepting buf fields pos c).Leads (CommandAt base buf) (CommandEnd base buf) := by
  have hnext := @mgmtNext_commandText _ c _ _ _ h.text
  have hpos : (buf.take pos).length = pos := by
    rw [length_take, Nat.min_eq_left (Nat.le_of_lt (List.getElem?_eq_some_iff.mp hc).1)]
  unfold mgmtStep mgmtMove
  unfold CommandNext at hnext
  rw [← take_succ_of_getElem? hc, hpos] at hnext
  dsimp only
  cases hact : (mgmtNext fields.cs c).1 with
  | setPrioFsck =>
    rw [hact] at hnext
    have hfires : FiresFsck buf := hnext.1.of_take
    show CommandAt base buf (if accepting then _ else _) (pos + 1)
    split
    · exact ⟨hnext.2, Or.inr hfires⟩
    · exact ⟨hnext.2, Or.inr hfires⟩
  | invalidLine =>
    have hcs := mgmtNext_invalidLine fields.cs c hact
    refine ⟨?_, h.prio⟩
    show CommandText _ _ (mgmtNext fields.cs c).2 _
    rw [hcs]
    trivial
  | reject => trivial
  | _ =>
    rw [hact] at hnext
    exact ⟨hnext, h.prio⟩

/-- **A line that calls a function is a word of its grammar**, and the priority is set only where a reason
starts with `fsck`. -/
theorem commandEnd_mgmtExec (accepting : Bool) (buf : Bytes) (hcs : base.cs = .start) :
    CommandEnd base buf (mgmtExec accepting base buf 0) := by
  refine (scans_mgmtExec accepting (lineAt_start buf hcs)).leads
    (fun _ _ _ h hc => mgmtStep_command h hc) (fun _ _ _ _ => trivial) ⟨?_, Or.inl rfl⟩
  rw [hcs]
  exact take_zero

/-! What the functions get. -/

theorem BodyText.commandBody {body : Bytes} (h : BodyText fn m0 m1 body) : CommandBody fn body := by
  cases fn with
  | size =>
    obtain ⟨name, hname, path, hpath, rfl, -⟩ := h
    exact ⟨path, hpath, by rw [mem_singleton.mp hname, append_nil]⟩
  | digest =>
    obtain ⟨reason, hreason, name, hname, path, hpath, rfl, -⟩ := h
    exact ⟨name, hname, path, reason, hpath, hreason, rfl⟩
  | aioThreads =>
    obtain ⟨⟨blank, hblank, _, ⟨name, hname, sign, hsign, rfl⟩, digits, hne, hdigits, rfl, -⟩, -⟩ := h
    exact ⟨name, hname, sign, hsign, blank, hblank, digits, hne, hdigits, rfl⟩
  | _ => exact h

theorem CalledLine.commandLine {line : Bytes} (h : CalledLine fn m0 m1 line) : CommandLine fn line := by
  obtain ⟨body, eor, hbody, heor, rfl⟩ := h
  exact ⟨body, eor, hbody.commandBody, heor, rfl⟩

/-- What stands between the marks. -/
theorem marked_eq {before arg behind : Bytes} (htake : buf.take pos = before ++ arg ++ behind)
    (hmark0 : fields.mark0 = before.length) (hmark1 : fields.mark1 = (before ++ arg).length) :
    fields.marked buf = arg := by
  have hle : fields.mark1 ≤ pos := by
    have hlen := congrArg List.length htake
    rw [length_take, length_append, ← hmark1] at hlen
    omega
  rw [MgmtFields.marked, ← Nat.min_eq_left hle, ← take_take, htake, hmark0, hmark1, take_left, drop_left]

/-- An argument of its grammar. -/
def ArgumentEnd (buf : Bytes) : Outcome MgmtFields MgmtStop → Prop
  | .halted fields pos (.call .size) => SizeLine (buf.take pos) (fields.marked buf)
  | .halted fields pos (.call .digest) => DigestLine (buf.take pos) (fields.marked buf)
  | .halted fields _ (.call .aioThreads) => ThreadsOk fields buf
  | _ => True

theorem CalledLine.argument (h : CalledLine fn fields.mark0 fields.mark1 (buf.take pos)) :
    ArgumentEnd buf (.halted fields pos (.call fn)) := by
  obtain ⟨body, eor, hbody, heor, hline⟩ := h
  cases fn with
  | size =>
    obtain ⟨name, hname, path, hpath, rfl, hmark0, hmark1⟩ := hbody
    obtain rfl := mem_singleton.mp hname
    rw [append_nil] at hline
    show SizeLine _ _
    rw [marked_eq hline hmark0 hmark1]
    exact ⟨hpath, eor, heor, hline⟩
  | digest =>
    obtain ⟨reason, hreason, name, hname, path, hpath, rfl, hmark0, hmark1⟩ := hbody
    rw [append_assoc] at hline
    show DigestLine _ _
    rw [marked_eq hline hmark0 hmark1]
    exact ⟨hpath, name, hname, reason, eor, hreason, heor, hline⟩
  | aioThreads =>
    obtain ⟨⟨_, _, start, -, digits, -, hdigits, rfl, hmark0⟩, hmark1⟩ := hbody
    refine ⟨?_, ?_⟩
    · have hat : (buf.take pos)[fields.mark1]? = eor[0]? := by
        rw [hline, hmark1, getElem?_append_right (Nat.le_refl _), Nat.sub_self]
      rw [getElem?_take] at hat
      split at hat
      · rw [hat]
        rcases heor with rfl | rfl
        · exact Or.inl rfl
        · exact Or.inr rfl
      · rcases heor with rfl | rfl <;> cases hat
    · rw [marked_eq hline hmark0 hmark1]
      exact all_eq_true.mpr hdigits
  | _ => trivial

/-- **A function that is called gets an argument of its grammar.** -/
theorem argumentEnd_mgmtExec (accepting : Bool) (buf : Bytes) (hcs : base.cs = .start) :
    ArgumentEnd buf (mgmtExec accepting base buf 0) := by
  have hend := commandEnd_mgmtExec accepting buf hcs
  cases hexec : mgmtExec accepting base buf 0 with
  | halted fields pos why =>
    rw [hexec] at hend
    cases why with
    | call fn =>
      rcases hend.1 with rfl | hline
      · trivial
      · exact hline.argument
    | reject => trivial
  | _ => trivial

end Lines

end Cmogstored
