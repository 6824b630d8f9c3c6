import Cmogstored.MgmtParser

/-! The command lines of a management client as a scanner: it ends on every buffer, it stops exactly at
the end of the first line, and what it has made of the bytes so far does not depend on how they
arrived. -/

namespace Cmogstored

open List Scan

variable {rest buf : Bytes} {c : Byte} {fn : MgmtFn} {cs : MgmtCs} {pos : Nat}

/-! ### What a byte can do -/

/-- Where in a line the machine is. -/
inductive LinePhase where
  | blanks
  -- behind the `\r` that follows the blanks
  | blankCr
  -- behind the first letter of a command
  | command
  -- in the second reading, of an invalid line
  | invalidBlanks
  | invalid
  | ended
  deriving DecidableEq

def MgmtCs.phase : MgmtCs → LinePhase
  | .start => .blanks
  | .blank => .blanks
  | .eorLf .blank => .blankCr
  | .invalidStart => .invalidBlanks
  | .invalidWord => .invalid
  | .invalidRest => .invalid
  | .final => .ended
  | .error => .ended
  | _ => .command

/-- The letters of a fixed word that are still to come. -/
def MgmtCs.word : MgmtCs → Bytes
  | .md5 rest => rest
  | .sha1 rest => rest
  | .fsck rest => rest
  | .server rest => rest
  | .shutdown rest => rest
  | .graceful rest => rest
  | .size rest => rest
  | .watch rest => rest
  | _ => []

/-- A transition that reads on. -/
def MgmtAct.reads : MgmtAct → Bool
  | .keep => true
  | .mark0 => true
  | .mark1 => true
  | .alg _ => true
  | .setPrioFsck => true
  | _ => false

/-- The function that a transition calls. -/
def MgmtAct.calls : MgmtAct → Option MgmtFn
  | .call fn => some fn
  | .mark1Call fn => some fn
  | _ => none

/-- Reading on in a command. -/
structure OnCommand (next : MgmtAct × MgmtCs) : Prop where
  reads : next.1.reads = true
  command : next.2.phase = .command
  word : LF ∉ next.2.word

/-- A byte inside a command line goes on, or makes the line an invalid one. -/
def Inside (next : MgmtAct × MgmtCs) : Prop := next = notCommand ∨ OnCommand next

theorem inside_notCommand : Inside notCommand := Or.inl rfl

theorem mgmtWord_inside {more : Bytes → MgmtCs} {last : MgmtAct × MgmtCs}
    (hmore : ∀ rest, (more rest).word = rest ∧ (more rest).phase = .command) (hword : LF ∉ rest)
    (hlast : OnCommand last) : Inside (mgmtWord rest c more last) := by
  unfold mgmtWord
  split
  · exact inside_notCommand
  · rename_i expected rest
    split
    · split
      · exact Or.inr hlast
      · refine Or.inr ⟨rfl, (hmore rest).2, ?_⟩
        rw [(hmore rest).1]
        exact fun hmem => hword (mem_cons_of_mem _ hmem)
    · exact inside_notCommand

/-- A fixed word has no end of a line. -/
theorem mgmtWord_lf {more : Bytes → MgmtCs} {last : MgmtAct × MgmtCs}
    (hword : LF ∉ rest) : mgmtWord rest LF more last = notCommand := by
  unfold mgmtWord
  split
  · rfl
  · rename_i expected rest
    have hne : LF ≠ expected := fun h => hword (h ▸ mem_cons_self ..)
    rw [if_neg (by rwa [beq_iff_eq])]

theorem mgmtEor_inside {other : MgmtAct × MgmtCs} (hc : c ≠ LF)
    (hfn : fn ≠ .blank) (hother : Inside other) : Inside (mgmtEor c fn other) := by
  unfold mgmtEor
  rw [if_neg (by rwa [beq_iff_eq])]
  split
  · exact Or.inr ⟨rfl, by cases fn <;> first | rfl | exact absurd rfl hfn, not_mem_nil⟩
  · exact hother

theorem mgmtMarkedEor_inside {other : MgmtAct × MgmtCs} (hc : c ≠ LF)
    (hfn : fn ≠ .blank) (hother : Inside other) : Inside (mgmtMarkedEor c fn other) := by
  unfold mgmtMarkedEor
  rw [if_neg (by rwa [beq_iff_eq])]
  split
  · exact Or.inr ⟨rfl, by cases fn <;> first | rfl | exact absurd rfl hfn, not_mem_nil⟩
  · exact hother

theorem reasonNext_inside (hc : c ≠ LF) : Inside (reasonNext c) := by
  refine mgmtEor_inside hc nofun ?_
  split
  · exact Or.inr ⟨rfl, rfl, not_mem_nil⟩
  · exact inside_notCommand

theorem fsckNext_inside (hc : c ≠ LF) (hword : LF ∉ rest) :
    Inside (fsckNext rest c) := by
  unfold fsckNext
  split
  · exact reasonNext_inside hc
  · split
    · split
      · exact Or.inr ⟨rfl, rfl, not_mem_nil⟩
      · exact Or.inr ⟨rfl, rfl, fun hmem => hword (mem_cons_of_mem _ hmem)⟩
    · exact reasonNext_inside hc

theorem mgmtNext_command (hphase : cs.phase = .command) (hc : c ≠ LF)
    (hword : LF ∉ cs.word) : Inside (mgmtNext cs c) := by
  have hon : ∀ {act : MgmtAct} {cs : MgmtCs}, act.reads = true → cs.phase = .command → cs.word = [] →
      OnCommand (act, cs) := fun hreads hphase hword => ⟨hreads, hphase, by simp [hword]⟩
  have hletters : ∀ {act : MgmtAct} {cs : MgmtCs}, act.reads = true → cs.phase = .command →
      LF ∉ cs.word → Inside (act, cs) := fun hreads hphase hword => Or.inr ⟨hreads, hphase, hword⟩
  cases cs with
  | md5 rest => exact mgmtWord_inside (fun _ => ⟨rfl, rfl⟩) hword (hon rfl rfl rfl)
  | sha1 rest => exact mgmtWord_inside (fun _ => ⟨rfl, rfl⟩) hword (hon rfl rfl rfl)
  | server rest => exact mgmtWord_inside (fun _ => ⟨rfl, rfl⟩) hword (hon rfl rfl rfl)
  | shutdown rest => exact mgmtWord_inside (fun _ => ⟨rfl, rfl⟩) hword (hon rfl rfl rfl)
  | graceful rest => exact mgmtWord_inside (fun _ => ⟨rfl, rfl⟩) hword (hon rfl rfl rfl)
  | size rest => exact mgmtWord_inside (fun _ => ⟨rfl, rfl⟩) hword (hon rfl rfl rfl)
  | watch rest => exact mgmtWord_inside (fun _ => ⟨rfl, rfl⟩) hword (hon rfl rfl rfl)
  | fsck rest => exact fsckNext_inside hc hword
  | reason => exact reasonNext_inside hc
  | eorLf fn =>
    dsimp only [mgmtNext]
    rw [if_neg (by rwa [beq_iff_eq])]
    exact inside_notCommand
  | start => cases hphase
  | blank => cases hphase
  | invalidStart => cases hphase
  | invalidWord => cases hphase
  | invalidRest => cases hphase
  | final => cases hphase
  | error => cases hphase
  | _ =>
    dsimp only [mgmtNext]
    (repeat' split) <;>
      first
      | exact inside_notCommand
      | exact hletters rfl rfl not_mem_nil
      | exact hletters rfl rfl (by decide)
      | exact mgmtEor_inside hc nofun inside_notCommand
      | exact mgmtMarkedEor_inside hc nofun inside_notCommand

/-- The end of a line ends a command, or makes the line an invalid one. -/
def AtEnd (next : MgmtAct × MgmtCs) : Prop := next = notCommand ∨ ∃ fn, next.1.calls = some fn

theorem reasonNext_lf : AtEnd (reasonNext LF) := Or.inr ⟨.digest, rfl⟩

theorem fsckNext_lf (hword : LF ∉ rest) : AtEnd (fsckNext rest LF) := by
  unfold fsckNext
  split
  · exact reasonNext_lf
  · rename_i expected rest
    have hne : LF ≠ expected := fun h => hword (h ▸ mem_cons_self ..)
    rw [if_neg (by rwa [beq_iff_eq])]
    exact reasonNext_lf

theorem mgmtNext_command_lf (hphase : cs.phase = .command) (hword : LF ∉ cs.word) :
    AtEnd (mgmtNext cs LF) := by
  cases cs with
  | md5 rest => exact Or.inl (mgmtWord_lf hword)
  | sha1 rest => exact Or.inl (mgmtWord_lf hword)
  | server rest => exact Or.inl (mgmtWord_lf hword)
  | shutdown rest => exact Or.inl (mgmtWord_lf hword)
  | graceful rest => exact Or.inl (mgmtWord_lf hword)
  | size rest => exact Or.inl (mgmtWord_lf hword)
  | watch rest => exact Or.inl (mgmtWord_lf hword)
  | fsck rest => exact fsckNext_lf hword
  | start => cases hphase
  | blank => cases hphase
  | invalidStart => cases hphase
  | invalidWord => cases hphase
  | invalidRest => cases hphase
  | final => cases hphase
  | error => cases hphase
  | _ => first | exact Or.inl rfl | exact Or.inr ⟨_, rfl⟩

theorem MgmtCs.eq_of_blanks (h : cs.phase = .blanks) : cs = .start ∨ cs = .blank := by
  cases cs with
  | start => exact Or.inl rfl
  | blank => exact Or.inr rfl
  | eorLf fn => cases fn <;> cases h
  | _ => cases h

theorem MgmtCs.eq_of_blankCr (h : cs.phase = .blankCr) : cs = .eorLf .blank := by
  cases cs with
  | eorLf fn => cases fn <;> first | rfl | cases h
  | _ => cases h

theorem MgmtCs.eq_of_invalidBlanks (h : cs.phase = .invalidBlanks) :
    cs = .invalidStart := by
  cases cs with
  | invalidStart => rfl
  | eorLf fn => cases fn <;> cases h
  | _ => cases h

theorem MgmtCs.eq_of_invalid (h : cs.phase = .invalid) :
    cs = .invalidWord ∨ cs = .invalidRest := by
  cases cs with
  | invalidWord => exact Or.inl rfl
  | invalidRest => exact Or.inr rfl
  | eorLf fn => cases fn <;> cases h
  | _ => cases h

/-- What the blanks at the start of a line can be followed by. -/
theorem mgmtNext_blanks (hphase : cs.phase = .blanks) (c : Byte) :
    (isLws c = true ∧ mgmtNext cs c = (.keep, .blank)) ∨
    (c = LF ∧ mgmtNext cs c = (.call .blank, .final)) ∨
    (c = CR ∧ mgmtNext cs c = (.keep, .eorLf .blank)) ∨
    (isLws c = false ∧ c ≠ LF ∧ c ≠ CR ∧ Inside (mgmtNext cs c)) := by
  by_cases hlws : isLws c = true
  · exact Or.inl ⟨hlws, by rcases cs.eq_of_blanks hphase with rfl | rfl <;> exact if_pos hlws⟩
  by_cases hlf : c = LF
  · subst hlf
    exact Or.inr (Or.inl ⟨rfl, by rcases cs.eq_of_blanks hphase with rfl | rfl <;> rfl⟩)
  by_cases hcr : c = CR
  · subst hcr
    exact Or.inr (Or.inr (Or.inl ⟨rfl, by rcases cs.eq_of_blanks hphase with rfl | rfl <;> rfl⟩))
  · refine Or.inr (Or.inr (Or.inr ⟨by simpa using hlws, hlf, hcr, ?_⟩))
    have heor : mgmtEor c .blank notCommand = notCommand := by
      rw [mgmtEor, if_neg (by rwa [beq_iff_eq]), if_neg (by rwa [beq_iff_eq])]
    have hletters : ∀ {cs : MgmtCs}, cs.phase = .command → LF ∉ cs.word → Inside (.keep, cs) :=
      fun hphase hword => Or.inr ⟨rfl, hphase, hword⟩
    rcases cs.eq_of_blanks hphase with rfl | rfl
    · dsimp only [mgmtNext]
      rw [if_neg hlws, heor]
      (repeat' split) <;>
        first
        | exact inside_notCommand
        | exact hletters rfl not_mem_nil
        | exact hletters rfl (by decide)
    · dsimp only [mgmtNext]
      rw [if_neg hlws, heor]
      exact inside_notCommand

/-- In the second reading the machine only looks for the end of the line. -/
theorem mgmtNext_invalid (hphase : cs.phase = .invalid) (c : Byte) :
    (c = LF ∧ (mgmtNext cs c).1.calls = some .unknown) ∨
    (c ≠ LF ∧ (mgmtNext cs c).1.reads = true ∧ (mgmtNext cs c).2.phase = .invalid ∧
      (mgmtNext cs c).2.word = []) := by
  by_cases hlf : c = LF
  · subst hlf
    exact Or.inl ⟨rfl, by rcases cs.eq_of_invalid hphase with rfl | rfl <;> rfl⟩
  · have hne : ¬ (c == LF) = true := by rwa [beq_iff_eq]
    refine Or.inr ⟨hlf, ?_⟩
    rcases cs.eq_of_invalid hphase with rfl | rfl
    · dsimp only [mgmtNext]
      rw [if_neg hne]
      split <;> exact ⟨rfl, rfl, rfl⟩
    · dsimp only [mgmtNext]
      rw [if_neg hne]
      exact ⟨rfl, rfl, rfl⟩

/-! ### Steps -/

section Steps

variable {accepting : Bool} {buf : Bytes} {fields : MgmtFields} {pos : Nat} {c : Byte}

theorem mgmtStep_reads (h : (mgmtNext fields.cs c).1.reads = true) :
    ∃ fields', mgmtStep accepting buf fields pos c = .goto fields' (pos + 1) ∧
      fields'.cs = (mgmtNext fields.cs c).2 := by
  unfold mgmtStep mgmtMove
  dsimp only
  split <;> rename_i hact <;> rw [hact] at h <;> cases h
  · exact ⟨_, rfl, rfl⟩
  · exact ⟨_, rfl, rfl⟩
  · exact ⟨_, rfl, rfl⟩
  · exact ⟨_, rfl, rfl⟩
  · exact ⟨_, rfl, by split <;> rfl⟩

theorem mgmtStep_calls (h : (mgmtNext fields.cs c).1.calls = some fn) :
    ∃ fields', mgmtStep accepting buf fields pos c = .halt fields' (pos + 1) (.call fn) := by
  unfold mgmtStep mgmtMove
  dsimp only
  split <;> rename_i hact <;> rw [hact] at h <;> cases h
  · exact ⟨_, rfl⟩
  · exact ⟨_, rfl⟩

/-- The only way back is to the start of the line. -/
theorem mgmtStep_goes_back {fields' : MgmtFields} {pos' : Nat} (h : ¬ (mgmtNext fields.cs c).1.reads = true)
    (hmove : mgmtStep accepting buf fields pos c = .goto fields' pos') :
    (mgmtNext fields.cs c).1 = .invalidLine ∧ fields' = { fields with cs := (mgmtNext fields.cs c).2 } ∧
      pos' = 0 := by
  unfold mgmtStep mgmtMove at hmove
  dsimp only at hmove
  split at hmove <;> rename_i hact <;> first | exact absurd (by rw [hact]; rfl) h | cases hmove
  exact ⟨hact, rfl, rfl⟩

theorem mgmtStep_notCommand (h : mgmtNext fields.cs c = notCommand) :
    mgmtStep accepting buf fields pos c = .goto { fields with cs := .invalidStart } 0 := by
  unfold mgmtStep mgmtMove
  rw [h]
  rfl

end Steps

/-! ### Lines -/

def Blanks (bytes : Bytes) : Prop := ∀ c ∈ bytes, isLws c = true

/-- Blanks followed by something other than the end of a line. -/
def LineOpened (buf : Bytes) : Prop :=
  ∃ k d, Blanks (buf.take k) ∧ buf[k]? = some d ∧ isLws d = false ∧ d ≠ LF ∧
    (d = CR → ∃ e, buf[k + 1]? = some e ∧ e ≠ LF)

/-- Blanks and a `\r` that is not part of the end of a line. -/
def BadLine (buf : Bytes) : Prop :=
  ∃ k e, Blanks (buf.take k) ∧ buf[k]? = some CR ∧ buf[k + 1]? = some e ∧ e ≠ LF

/-- The bytes up to `pos`, as the phase has them. -/
def MgmtPlace (buf : Bytes) (pos : Nat) : LinePhase → Prop
  | .blanks => Blanks (buf.take pos)
  | .blankCr => ∃ k, pos = k + 1 ∧ Blanks (buf.take k) ∧ buf[k]? = some CR
  | .command => LineOpened buf
  | .invalidBlanks => Blanks (buf.take pos) ∧ LineOpened buf
  | .invalid => LineOpened buf
  | .ended => False

structure MgmtLineAt (buf : Bytes) (fields : MgmtFields) (pos : Nat) : Prop where
  le : pos ≤ buf.length
  noLf : LF ∉ buf.take pos
  word : LF ∉ fields.cs.word
  place : MgmtPlace buf pos fields.cs.phase

theorem take_succ_of_getElem? (hc : buf[pos]? = some c) :
    buf.take (pos + 1) = buf.take pos ++ [c] := by
  rw [take_add_one, hc]
  rfl

theorem Blanks.snoc (h : Blanks (buf.take pos))
    (hc : buf[pos]? = some c) (hlws : isLws c = true) : Blanks (buf.take (pos + 1)) := by
  rw [take_succ_of_getElem? hc]
  intro d hd
  rcases mem_append.mp hd with hd | hd
  · exact h d hd
  · rwa [mem_singleton.mp hd]

theorem mem_take_of_getElem? {k n : Nat} (hc : buf[k]? = some c) (h : k < n) :
    c ∈ buf.take n := by
  have hk := (List.getElem?_eq_some_iff.mp hc).1
  refine mem_of_getElem? (i := k) ?_
  rw [List.getElem?_take_of_lt h]
  exact hc

/-- Where the blanks of an opened line end is determined. -/
theorem LineOpened.at_end (h : LineOpened buf)
    (hblanks : Blanks (buf.take pos)) (hc : buf[pos]? = some c) (hlws : isLws c = false) :
    c ≠ LF ∧ (c = CR → ∃ e, buf[pos + 1]? = some e ∧ e ≠ LF) := by
  obtain ⟨k, d, hk, hd, hdlws, hdlf, hdcr⟩ := h
  obtain rfl : k = pos := by
    rcases Nat.lt_trichotomy k pos with hlt | heq | hlt
    · rw [hblanks d (mem_take_of_getElem? hd hlt)] at hdlws
      cases hdlws
    · exact heq
    · rw [hk c (mem_take_of_getElem? hc hlt)] at hlws
      cases hlws
  obtain rfl := Option.some.inj (hd.symm.trans hc)
  exact ⟨hdlf, hdcr⟩

/-- What the end of a scan says about the line. -/
def LineEnd (buf : Bytes) : Outcome MgmtFields MgmtStop → Prop
  | .more fields pos => pos = buf.length ∧ MgmtLineAt buf fields pos
  | .halted _ pos (.call _) => ∃ k, pos = k + 1 ∧ buf[k]? = some LF ∧ LF ∉ buf.take k
  | .halted _ _ .reject => BadLine buf
  | .failed => False
  | .stuck => False

/-- The line is being read a second time. -/
def LinePhase.second : LinePhase → Bool
  | .invalidBlanks => true
  | .invalid => true
  | _ => false

/-- How many bytes are still to be read, a second reading included. -/
def readsLeft (buf : Bytes) (fields : MgmtFields) (pos : Nat) : Nat :=
  (if fields.cs.phase.second then 0 else buf.length + 1) + (buf.length - pos)

section Scanning

variable {accepting : Bool} {buf : Bytes} {fields : MgmtFields} {pos : Nat} {c : Byte}

/-- Where a byte leads: on in the line with less to read, or to an end. -/
abbrev LineMoves (accepting : Bool) (buf : Bytes) (fields : MgmtFields) (pos : Nat) (c : Byte) : Prop :=
  (mgmtStep accepting buf fields pos c).Leads
    (fun fields' pos' => MgmtLineAt buf fields' pos' ∧ readsLeft buf fields' pos' < readsLeft buf fields pos)
    (LineEnd buf)

/-- Reading on over a byte of the line. -/
theorem MgmtLineAt.on (h : MgmtLineAt buf fields pos) (hc : buf[pos]? = some c) (hlf : c ≠ LF)
    (hreads : (mgmtNext fields.cs c).1.reads = true) (hword : LF ∉ (mgmtNext fields.cs c).2.word)
    (hplace : MgmtPlace buf (pos + 1) (mgmtNext fields.cs c).2.phase)
    (hsecond : (mgmtNext fields.cs c).2.phase.second = fields.cs.phase.second) :
    LineMoves accepting buf fields pos c := by
  obtain ⟨fields', hmove, hcs⟩ : ∃ fields', mgmtStep accepting buf fields pos c =
      .goto fields' (pos + 1) ∧ fields'.cs = (mgmtNext fields.cs c).2 := mgmtStep_reads hreads
  have hpos := (List.getElem?_eq_some_iff.mp hc).1
  rw [LineMoves, hmove]
  refine ⟨⟨hpos, ?_, hcs ▸ hword, hcs ▸ hplace⟩, ?_⟩
  · rw [take_succ_of_getElem? hc, mem_append, mem_singleton]
    exact fun hmem => hmem.elim h.noLf fun heq => hlf heq.symm
  · rw [readsLeft, readsLeft, hcs, hsecond]
    omega

theorem MgmtLineAt.call {fn : MgmtFn} (h : MgmtLineAt buf fields pos) (hc : buf[pos]? = some LF)
    (hcalls : (mgmtNext fields.cs LF).1.calls = some fn) : LineMoves accepting buf fields pos LF := by
  obtain ⟨fields', hmove⟩ : ∃ fields', mgmtStep accepting buf fields pos LF =
      .halt fields' (pos + 1) (.call fn) := mgmtStep_calls hcalls
  rw [LineMoves, hmove]
  exact ⟨pos, rfl, hc, h.noLf⟩

/-- The line is read again from its start. -/
theorem leads_of_notCommand (hfirst : fields.cs.phase.second = false) (hopened : LineOpened buf)
    (h : mgmtNext fields.cs c = notCommand) : LineMoves accepting buf fields pos c := by
  rw [LineMoves, mgmtStep_notCommand h]
  have hblanks : Blanks (buf.take 0) := by
    rw [take_zero]
    exact nofun
  refine ⟨⟨Nat.zero_le _, by rw [take_zero]; exact not_mem_nil, not_mem_nil, hblanks,
    hopened⟩, ?_⟩
  rw [readsLeft, readsLeft, hfirst]
  show 0 + (buf.length - 0) < buf.length + 1 + (buf.length - pos)
  omega

theorem MgmtLineAt.inside (h : MgmtLineAt buf fields pos) (hc : buf[pos]? = some c) (hlf : c ≠ LF)
    (hfirst : fields.cs.phase.second = false) (hopened : LineOpened buf)
    (hinside : Inside (mgmtNext fields.cs c)) : LineMoves accepting buf fields pos c := by
  rcases hinside with hnot | hon
  · exact leads_of_notCommand hfirst hopened hnot
  · refine h.on hc hlf hon.reads hon.word ?_ ?_
    · rw [hon.command]
      exact hopened
    · rw [hon.command, hfirst]
      rfl

/-- **One byte**: the line goes on, is read again, or has ended. -/
theorem mgmtStep_line (h : MgmtLineAt buf fields pos) (hc : buf[pos]? = some c) :
    LineMoves accepting buf fields pos c := by
  have hplace := h.place
  cases hphase : fields.cs.phase with
  | blanks =>
    rw [hphase] at hplace
    rcases mgmtNext_blanks hphase c with ⟨hlws, hnext⟩ | ⟨rfl, hnext⟩ | ⟨rfl, hnext⟩ |
      ⟨hlws, hlf, hcr, hinside⟩
    · refine h.on hc (by rintro rfl; cases hlws) (by rw [hnext]; rfl) ?_ ?_
        (by rw [hnext, hphase]; rfl)
      · rw [hnext]
        exact not_mem_nil
      · rw [hnext]
        exact Blanks.snoc hplace hc hlws
    · exact h.call hc (by rw [hnext]; rfl)
    · refine h.on hc (by decide) (by rw [hnext]; rfl) ?_ ?_ (by rw [hnext, hphase]; rfl)
      · rw [hnext]
        exact not_mem_nil
      · rw [hnext]
        exact ⟨pos, rfl, hplace, hc⟩
    · exact h.inside hc hlf (by rw [hphase]; rfl)
        ⟨pos, c, hplace, hc, hlws, hlf, fun heq => absurd heq hcr⟩ hinside
  | blankCr =>
    rw [hphase] at hplace
    obtain ⟨k, rfl, hblanks, hcr⟩ := hplace
    have hcs := fields.cs.eq_of_blankCr hphase
    by_cases hlf : c = LF
    · subst hlf
      exact h.call hc (by rw [hcs]; rfl)
    · refine leads_of_notCommand (by rw [hphase]; rfl)
        ⟨k, CR, hblanks, hcr, rfl, by decide, fun _ => ⟨c, hc, hlf⟩⟩ ?_
      rw [hcs]
      exact if_neg (by rwa [beq_iff_eq])
  | command =>
    rw [hphase] at hplace
    have hfirst : fields.cs.phase.second = false := by rw [hphase]; rfl
    by_cases hlf : c = LF
    · subst hlf
      rcases mgmtNext_command_lf hphase h.word with hnot | ⟨fn, hcalls⟩
      · exact leads_of_notCommand hfirst hplace hnot
      · exact h.call hc hcalls
    · exact h.inside hc hlf hfirst hplace (mgmtNext_command hphase hlf h.word)
  | invalidBlanks =>
    rw [hphase] at hplace
    obtain ⟨hblanks, hopened⟩ := hplace
    have hcs := fields.cs.eq_of_invalidBlanks hphase
    by_cases hlws : isLws c = true
    · have hnext : mgmtNext fields.cs c = (.keep, .invalidStart) := by
        rw [hcs]
        exact if_pos hlws
      refine h.on hc (by rintro rfl; cases hlws) (by rw [hnext]; rfl) ?_ ?_
        (by rw [hnext, hphase]; rfl)
      · rw [hnext]
        exact not_mem_nil
      · rw [hnext]
        exact ⟨hblanks.snoc hc hlws, hopened⟩
    · have hend := hopened.at_end hblanks hc (by simpa using hlws)
      by_cases hcr : c = CR
      · subst hcr
        obtain ⟨e, he, hne⟩ := hend.2 rfl
        have hmove : mgmtStep accepting buf fields pos CR =
            .halt { fields with cs := .error } pos .reject := by
          unfold mgmtStep mgmtMove
          rw [hcs]
          rfl
        rw [LineMoves, hmove]
        exact ⟨pos, e, hblanks, hc, he, hne⟩
      · have hnext : mgmtNext fields.cs c = (.mark0, .invalidWord) := by
          rw [hcs]
          simp only [mgmtNext, if_neg hlws]
          exact if_neg (by rwa [beq_iff_eq])
        refine h.on hc hend.1 (by rw [hnext]; rfl) ?_ ?_ (by rw [hnext, hphase]; rfl)
        · rw [hnext]
          exact not_mem_nil
        · rw [hnext]
          exact hopened
  | invalid =>
    rw [hphase] at hplace
    rcases mgmtNext_invalid hphase c with ⟨rfl, hcalls⟩ | ⟨hlf, hreads, hinvalid, hword⟩
    · exact h.call hc hcalls
    · refine h.on hc hlf hreads ?_ ?_ (by rw [hinvalid, hphase])
      · rw [hword]
        exact not_mem_nil
      · rw [hinvalid]
        exact hplace
  | ended =>
    rw [hphase] at hplace
    exact hplace.elim

/-- **A scan stops at the end of the first line**, or where a line starts with a stray `\r`. -/
theorem lineEnd_of_scans {outcome : Outcome MgmtFields MgmtStop} (h : MgmtLineAt buf fields pos)
    (hscan : Scans (mgmtStep accepting) buf fields pos outcome) : LineEnd buf outcome := by
  refine hscan.leads (fun _ _ _ hat hc => (mgmtStep_line hat hc).mono (mgmtStep_line hat hc)
    (fun _ _ hnext _ => hnext.1) fun _ hend _ => hend) (fun _ _ hat hnone => ?_) h
  exact ⟨Nat.le_antisymm hat.le (List.getElem?_eq_none_iff.mp hnone), hat⟩

/-- **The parser always ends.** -/
theorem scans_mgmtExec (accepting : Bool) (h : MgmtLineAt buf fields pos) :
    Scans (mgmtStep accepting) buf fields pos (mgmtExec accepting fields buf pos) := by
  refine scans_exec (exec_ne_stuck (I := MgmtLineAt buf) (M := readsLeft buf) ?_ h ?_)
  · intro fields pos c hat hc fields' pos' hmove
    have hleads : LineMoves accepting buf fields pos c := mgmtStep_line hat hc
    rwa [LineMoves, hmove] at hleads
  · have hleft : readsLeft buf fields pos ≤ buf.length + 1 + buf.length := by
      unfold readsLeft
      split <;> omega
    omega

/-- A line that is no command is read again as an invalid one. -/
theorem mgmtNext_invalidLine (cs : MgmtCs) (c : Byte) (h : (mgmtNext cs c).1 = .invalidLine) :
    (mgmtNext cs c).2 = .invalidStart := by
  revert h
  cases cs <;>
    dsimp only [mgmtNext, mgmtWord, mgmtEor, mgmtMarkedEor, reasonNext, fsckNext, notCommand] <;>
    (repeat' split) <;> first | exact fun _ => rfl | exact nofun

/-- A line is not read a third time. -/
theorem mgmtNext_second (h : cs.phase.second = true) (c : Byte) :
    (mgmtNext cs c).1 ≠ .invalidLine ∧
      ((mgmtNext cs c).1.reads = true → (mgmtNext cs c).2.phase.second = true) := by
  cases cs with
  | invalidStart =>
    simp only [mgmtNext]
    (repeat' split) <;> exact ⟨nofun, fun hreads => by first | rfl | cases hreads⟩
  | invalidWord =>
    simp only [mgmtNext]
    (repeat' split) <;> exact ⟨nofun, fun hreads => by first | rfl | cases hreads⟩
  | invalidRest =>
    simp only [mgmtNext]
    (repeat' split) <;> exact ⟨nofun, fun hreads => by first | rfl | cases hreads⟩
  | eorLf fn => cases fn <;> cases h
  | _ => cases h

/-- **The fuel of the parser is enough** in any of its states. -/
theorem mgmtExec_ne_stuck (accepting : Bool) (fields : MgmtFields) (buf : Bytes) (pos : Nat) :
    mgmtExec accepting fields buf pos ≠ .stuck := by
  refine exec_ne_stuck (I := fun _ _ => True) (M := readsLeft buf) ?_ trivial ?_
  · intro fields pos c _ hc fields' pos' hmove
    have hpos := (List.getElem?_eq_some_iff.mp hc).1
    refine ⟨trivial, ?_⟩
    by_cases hreads : (mgmtNext fields.cs c).1.reads = true
    · obtain ⟨read, hread, hcs⟩ : ∃ read, mgmtStep accepting buf fields pos c = .goto read (pos + 1) ∧
          read.cs = (mgmtNext fields.cs c).2 := mgmtStep_reads hreads
      obtain ⟨rfl, rfl⟩ := Move.goto.inj (hmove.symm.trans hread)
      have hsecond : fields.cs.phase.second = true → (mgmtNext fields.cs c).2.phase.second = true :=
        fun h => (mgmtNext_second h c).2 hreads
      rw [readsLeft, readsLeft, hcs]
      cases hphase : fields.cs.phase.second with
      | true =>
        rw [hsecond hphase]
        omega
      | false => split <;> simp <;> omega
    · obtain ⟨hact, rfl, rfl⟩ : (mgmtNext fields.cs c).1 = .invalidLine ∧
          fields' = { fields with cs := (mgmtNext fields.cs c).2 } ∧ pos' = 0 :=
        mgmtStep_goes_back hreads hmove
      have hfirst : fields.cs.phase.second = false := by
        by_contra hsecond
        exact (mgmtNext_second (Bool.not_eq_false _ ▸ hsecond) c).1 hact
      rw [readsLeft, readsLeft, hfirst, mgmtNext_invalidLine _ _ hact]
      show 0 + (buf.length - 0) < buf.length + 1 + (buf.length - pos)
      omega
  · have hleft : readsLeft buf fields pos ≤ buf.length + 1 + buf.length := by
      unfold readsLeft
      split <;> omega
    omega

/-- The machine at the start of a line. -/
theorem lineAt_start (buf : Bytes) (hcs : fields.cs = .start) : MgmtLineAt buf fields 0 := by
  refine ⟨Nat.zero_le _, by rw [take_zero]; exact not_mem_nil, ?_, ?_⟩
  · rw [hcs]
    exact not_mem_nil
  · rw [hcs]
    show Blanks (buf.take 0)
    rw [take_zero]
    exact nofun

end Scanning

/-! ### Lines that arrive in pieces -/

theorem LineOpened.append (h : LineOpened buf) (more : Bytes) : LineOpened (buf ++ more) := by
  obtain ⟨k, d, hblanks, hd, hlws, hlf, hcr⟩ := h
  have hk := (List.getElem?_eq_some_iff.mp hd).1
  refine ⟨k, d, ?_, List.getElem?_append_left hk ▸ hd, hlws, hlf, fun heq => ?_⟩
  · rwa [take_append_of_le_length (by omega)]
  · obtain ⟨e, he, hne⟩ := hcr heq
    exact ⟨e, List.getElem?_append_left (List.getElem?_eq_some_iff.mp he).1 ▸ he, hne⟩

theorem MgmtLineAt.append {fields : MgmtFields} (h : MgmtLineAt buf fields pos)
    (more : Bytes) : MgmtLineAt (buf ++ more) fields pos := by
  have htake : ∀ k ≤ pos, (buf ++ more).take k = buf.take k := fun k hk =>
    take_append_of_le_length (Nat.le_trans hk h.le)
  have hplace := h.place
  refine ⟨?_, by rw [htake pos (Nat.le_refl _)]; exact h.noLf, h.word, ?_⟩
  · rw [length_append]
    exact Nat.le_add_right_of_le h.le
  · cases hphase : fields.cs.phase with
    | blanks =>
      rw [hphase] at hplace
      show Blanks _
      rw [htake pos (Nat.le_refl _)]
      exact hplace
    | blankCr =>
      rw [hphase] at hplace
      obtain ⟨k, rfl, hblanks, hcr⟩ := hplace
      refine ⟨k, rfl, ?_, List.getElem?_append_left (List.getElem?_eq_some_iff.mp hcr).1 ▸ hcr⟩
      rw [htake k (Nat.le_succ k)]
      exact hblanks
    | command =>
      rw [hphase] at hplace
      exact LineOpened.append hplace more
    | invalidBlanks =>
      rw [hphase] at hplace
      refine ⟨?_, hplace.2.append more⟩
      rw [htake pos (Nat.le_refl _)]
      exact hplace.1
    | invalid =>
      rw [hphase] at hplace
      exact LineOpened.append hplace more
    | ended =>
      rw [hphase] at hplace
      exact hplace.elim

section Pieces

variable {accepting : Bool} {base fields : MgmtFields} {seen : Bytes}

/-- The parser, started on `seen`, has read all of it and waits for the rest of the line. -/
structure LineRead (accepting : Bool) (base : MgmtFields) (seen : Bytes) (fields : MgmtFields) :
    Prop where
  start : base.cs = .start
  scan : Scans (mgmtStep accepting) seen base 0 (.more fields seen.length)

theorem lineRead_nil (hstart : base.cs = .start) : LineRead accepting base [] base :=
  ⟨hstart, .more rfl⟩

theorem LineRead.lineAt (h : LineRead accepting base seen fields) : MgmtLineAt seen fields seen.length :=
  (lineEnd_of_scans (lineAt_start seen h.start) h.scan).2

theorem LineRead.noLf (h : LineRead accepting base seen fields) : LF ∉ seen := by
  have hnoLf := h.lineAt.noLf
  rwa [take_length] at hnoLf

/-- A step looks at its byte only. -/
theorem mgmtStep_append (accepting : Bool) (buf more : Bytes) (fields : MgmtFields) (pos : Nat)
    (c : Byte) :
    mgmtStep accepting (buf ++ more) fields pos c = mgmtStep accepting buf fields pos c := rfl

/-- **What the parser makes of a line does not depend on where it was interrupted.** -/
theorem LineRead.exec_eq (h : LineRead accepting base seen fields) (more : Bytes) :
    mgmtExec accepting fields (seen ++ more) seen.length = mgmtExec accepting base (seen ++ more) 0 := by
  have hrest := scans_mgmtExec accepting (h.lineAt.append more)
  have hwhole := scans_mgmtExec accepting (lineAt_start (seen ++ more) h.start)
  have hresumed : Scans (mgmtStep accepting) (seen ++ more) base 0 _ :=
    Scans.resume (I := fun _ _ => True)
      (fun state pos c _ _ => ⟨mgmtStep_append accepting seen more state pos c, fun _ _ _ => trivial⟩)
      h.scan trivial hrest
  exact hresumed.det hwhole

/-- The command of a complete line is the same whatever follows it. -/
theorem mgmtExec_append (hstart : base.cs = .start) {why : MgmtStop}
    (h : mgmtExec accepting base buf 0 = .halted fields pos why) (more : Bytes) :
    mgmtExec accepting base (buf ++ more) 0 = .halted fields pos why := by
  have hscan := scans_mgmtExec accepting (lineAt_start buf hstart)
  rw [h] at hscan
  have hlonger : Scans (mgmtStep accepting) (buf ++ more) base 0 (.halted fields pos why) :=
    Scans.append (I := fun _ _ => True)
      (fun state pos c _ _ => ⟨mgmtStep_append accepting buf more state pos c, fun _ _ _ => trivial⟩)
      hscan trivial (by simp)
  exact (scans_mgmtExec accepting (lineAt_start _ hstart)).det hlonger

/-- The marks stay in the buffer. -/
theorem mgmtExec_mark1 {why : MgmtStop} (hmark : base.mark1 = 0)
    (h : mgmtExec accepting base buf 0 = .halted fields pos why) : fields.mark1 ≤ buf.length := by
  have hsat : (mgmtExec accepting base buf 0).Sat (fun fields _ => fields.mark1 ≤ buf.length)
      (fun fields _ _ => fields.mark1 ≤ buf.length) := by
    refine exec_sat (fun fields pos c hle hc => ?_) _ base 0 (by omega)
    have hpos := (List.getElem?_eq_some_iff.mp hc).1
    unfold mgmtStep mgmtMove
    dsimp only
    split
    · exact hle
    · exact hle
    · exact Nat.le_of_lt hpos
    · exact hle
    · show MgmtFields.mark1 _ ≤ _
      split <;> exact hle
    · exact hle
    · exact Nat.le_of_lt hpos
    · exact hle
    · exact hle
  rw [h] at hsat
  exact hsat

/-- What the parser makes of the whole buffer. -/
theorem lineEnd_mgmtExec (accepting : Bool) (hstart : base.cs = .start) (buf : Bytes) :
    LineEnd buf (mgmtExec accepting base buf 0) :=
  lineEnd_of_scans (lineAt_start buf hstart) (scans_mgmtExec accepting (lineAt_start buf hstart))

end Pieces

end Cmogstored
