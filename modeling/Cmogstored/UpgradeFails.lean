import Cmogstored.Ends
import Cmogstored.Supervise

/-! What a failed upgrade leaves behind. The pid file is removed before anything else is tried, and nobody puts
it back. -/

namespace Cmogstored

open Prog

/-! ### Files -/

/-- The files that the daemon knows by name or by descriptor. -/
structure PidFiles where
  /-- the inode of a path -/
  links : Bytes → Option Nat
  contents : Nat → Bytes
  fds : Fd → Option Nat

namespace PidFiles

/-- What can be read at a path. -/
def text (w : PidFiles) (path : Bytes) : Option Bytes := (w.links path).map w.contents

/-- An inode that nobody uses. -/
def Fresh (w : PidFiles) (inode : Nat) : Prop := (∀ path, w.links path ≠ some inode) ∧ ∀ fd, w.fds fd ≠ some inode

/-- A file is opened. -/
def opened (w : PidFiles) (fd : Fd) (inode : Nat) : PidFiles := { w with fds := Function.update w.fds fd (some inode) }

/-- A file is created, or cut off. -/
def emptied (w : PidFiles) (path : Bytes) (inode : Nat) : PidFiles :=
  { w with
    links := Function.update w.links path (some inode)
    contents := Function.update w.contents inode [] }

/-- What is in a file after bytes were written at its beginning. -/
def overlay (bytes old : Bytes) : Bytes := bytes ++ old.drop bytes.length

def wrote (w : PidFiles) (fd : Fd) (bytes : Bytes) : PidFiles :=
  match w.fds fd with
  | none => w
  | some inode => { w with contents := Function.update w.contents inode (overlay bytes (w.contents inode)) }

def unlinked (w : PidFiles) (path : Bytes) : PidFiles := { w with links := Function.update w.links path none }

end PidFiles

/-- What a call does to the files, with all its outcomes. An answer `ENOENT` says nothing about the file. -/
def pidHandles : Handler Unit PidFiles DaemonCall DaemonRes
  | w, _, .openPid path .read, .ok fd, w' =>
    w.fds fd = none ∧ ∃ inode, w.links path = some inode ∧ w' = w.opened fd inode
  | w, _, .openPid path flags, .ok fd, w' =>
    w.fds fd = none ∧ ∃ inode,
      (w.links path = some inode ∧
        w' = (if flags = .restore then w.emptied path inode else w).opened fd inode) ∨
      (w.links path = none ∧ w.Fresh inode ∧ w' = (w.emptied path inode).opened fd inode)
  | w, _, .pread fd, .ok (data, _), w' =>
    (∃ inode, w.fds fd = some inode ∧ data.val <+: (w.contents inode).take pidBufSize ∧
      (data.val = [] → w.contents inode = [])) ∧ w' = w
  | w, _, .dprintf fd text, (written, enospc, landed), w' =>
    w' = w.wrote fd (if 1 < written ∧ enospc = false then text else text.take landed)
  | w, _, .close fd, _, w' => w' = { w with fds := Function.update w.fds fd none }
  | w, _, .unlink path, .ok _, w' => w.links path ≠ none ∧ w' = w.unlinked path
  | w, _, _, _, w' => w' = w

/-! ### The course of an attempt -/

abbrev DaemonEntry := (request : DaemonCall) × DaemonRes request

/-- What spoils a failed attempt: the pid file is removed, or the own pid gets into a `.oldbin` that held `old`. -/
def Spoils (path old : Bytes) : DaemonEntry → Prop
  | ⟨.unlink other, .ok _⟩ => other = path
  | ⟨.dprintf _ text, (written, enospc, landed)⟩ => (1 < written ∧ enospc = false) ∨
      (text <+: PidFiles.overlay (text.take landed) old ∧ ¬ text <+: old)
  | _ => False

/-- The calls that change no file. -/
def Harmless : DaemonCall → Prop
  | .openPid _ _ | .dprintf _ _ | .close _ | .unlink _ => False
  | _ => True

section Frames

variable {S : DaemonCall → Prop}

theorem pidfileRead_within (hpread : ∀ fd, S (.pread fd)) (fd : Fd) : (pidfileRead fd).Within S fun _ => True := by
  refine within_ask_bind (hpread fd) fun answer => ?_
  cases answer with
  | error e => trivial
  | ok answer =>
    dsimp only
    split
    · trivial
    · split <;> trivial

theorem pidIsRunning_within (hesrch : ∀ pid asks, S (.esrch pid asks)) (pid : Pid) (asks : Asks) :
    (pidIsRunning pid asks).Within S fun _ => True := by
  unfold pidIsRunning
  split
  · trivial
  · exact within_ask_bind (hesrch pid asks) fun _ => trivial

variable (hfprintf : ∀ text, S (.fprintf text))

include hfprintf

theorem svcEmitFds_within (fds : List Int) : (svcEmitFds fds).Within S fun _ => True := by
  induction fds with
  | nil => trivial
  | cons fd rest ih =>
    have hemit : (emitFd fd).Within S fun _ => True := by
      unfold emitFd
      split
      · trivial
      · refine within_ask_bind (hfprintf _) fun more => ?_
        cases more <;> trivial
    refine hemit.bind fun result _ => ?_
    obtain ⟨more, text⟩ := result
    cases more with
    | false => trivial
    | true => exact ih.bind fun _ _ => trivial

theorem svcEachEmit_within (svcs : List (List Int)) : (svcEachEmit svcs).Within S fun _ => True := by
  induction svcs with
  | nil => trivial
  | cons fds rest ih =>
    refine (svcEmitFds_within hfprintf fds).bind fun result _ => ?_
    obtain ⟨more, text⟩ := result
    cases more with
    | false => trivial
    | true => exact ih.bind fun _ _ => trivial

end Frames

theorem upgradeFork_harmless (ctx : DaemonCtx) (d : Daemon) :
    (upgradeFork ctx d).Within Harmless fun result => result.2.old = d.old := by
  refine within_ask_bind trivial fun memstream => ?_
  cases memstream with
  | false => rfl
  | true =>
    refine within_ask_bind trivial fun put => ?_
    cases put with
    | false => rfl
    | true =>
      refine (svcEachEmit_within (fun _ => trivial) ctx.svcFds).bind fun text _ => ?_
      refine within_ask_bind trivial fun closed => ?_
      cases closed with
      | false => rfl
      | true =>
        refine within_require_bind fun _ => within_ask_bind trivial fun pid => ?_
        split
        · have hregister : (mogProcessRegister d.processes pid.val MOG_PROC_UPGRADE).Within Harmless fun _ => True := by
            refine within_require_bind fun _ => ?_
            split <;> trivial
          exact hregister.bind fun _ _ => rfl
        · rfl

section Attempts

variable {ctx : DaemonCtx} {path old : Bytes} {w w' : PidFiles} {trace first second : Trace DaemonCall DaemonRes}
  {α : Type}

/-- Nothing that counts has happened. -/
def Idle (path : Bytes) (trace : Trace DaemonCall DaemonRes) : Prop :=
  ∀ entry ∈ trace, ∀ old, ¬ Spoils path old entry

theorem Idle.append (hfirst : Idle path first) (hsecond : Idle path second) : Idle path (first ++ second) :=
  List.forall_mem_append.mpr ⟨hfirst, hsecond⟩

/-- What a harmless part leaves behind. -/
theorem harmless_handled {p : DaemonIo α} {Q : α → Prop} {value : α} (h : p.Within Harmless Q)
    (hruns : Runs p trace (.ret value)) (hhandled : Handled pidHandles () w trace w') (path : Bytes) :
    w' = w ∧ Idle path trace := by
  have hcalls := h.of_runs hruns
  clear hruns h
  induction hhandled with
  | nil w => exact ⟨rfl, nofun⟩
  | @cons w w₁ w' request answer trace hstep _ ih =>
    obtain ⟨hrequest, htrace⟩ := List.forall_mem_cons.mp hcalls
    obtain ⟨rfl, hidle⟩ := ih htrace
    cases request with
    | openPid | dprintf | close | unlink => exact hrequest.elim
    | pread fd =>
      refine ⟨?_, List.forall_mem_cons.mpr ⟨fun _ => id, hidle⟩⟩
      cases answer with
      | ok answer => exact hstep.2
      | error e => exact hstep
    | _ => exact ⟨hstep, List.forall_mem_cons.mpr ⟨fun _ => id, hidle⟩⟩

theorem harmless_bind {β : Type} {p : DaemonIo α} {f : α → DaemonIo β} {Q : α → Prop} {value : β}
    (h : p.Within Harmless Q) (hruns : Runs (p >>= f) trace (.ret value))
    (hhandled : Handled pidHandles () w trace w') (path : Bytes) :
    ∃ first second result, trace = first ++ second ∧ Idle path first ∧ Runs (f result) second (.ret value) ∧
      Handled pidHandles () w second w' := by
  obtain ⟨first, second, result, _, rfl, hfirst, hbefore, hsecond, hbehind⟩ := hhandled.of_bind hruns
  obtain ⟨rfl, hidle⟩ := harmless_handled h hfirst hbefore path
  exact ⟨first, second, result, rfl, hidle, hsecond, hbehind⟩

/-- The files have not changed. -/
def SameFiles (w w' : PidFiles) : Prop := w'.links = w.links ∧ w'.contents = w.contents

theorem SameFiles.text (h : SameFiles w w') (path : Bytes) : w'.text path = w.text path := by
  rw [PidFiles.text, PidFiles.text, h.1, h.2]

/-- Either nothing has happened, or the pid file is gone. -/
def Removal (path : Bytes) (w w' : PidFiles) (trace : Trace DaemonCall DaemonRes) (removed : Bool) : Prop :=
  (SameFiles w w' ∧ Idle path trace) ∨
    (removed = true ∧ w'.links path = none ∧ (⟨.unlink path, .ok ()⟩ : DaemonEntry) ∈ trace)

theorem Removal.behind {w₁ : PidFiles} {removed : Bool} (hsame : SameFiles w w₁) (hidle : Idle path first)
    (h : Removal path w₁ w' second removed) : Removal path w w' (first ++ second) removed := by
  rcases h with ⟨hsame', hidle'⟩ | ⟨hremoved, hgone, hmem⟩
  · exact Or.inl ⟨⟨hsame'.1.trans hsame.1, hsame'.2.trans hsame.2⟩, hidle.append hidle'⟩
  · exact Or.inr ⟨hremoved, hgone, List.mem_append_right _ hmem⟩

theorem doUnlink_removal {removed : Bool} (hruns : Runs (doUnlink path) trace (.ret removed))
    (hhandled : Handled pidHandles () w trace w') : Removal path w w' trace removed := by
  obtain ⟨answer, rest, w₁, rfl, hstep, hruns₁, hhandled₁⟩ := hhandled.of_ask_bind hruns
  cases answer with
  | ok _ =>
    cases hruns₁
    cases hhandled₁
    obtain ⟨-, rfl⟩ := hstep
    exact Or.inr ⟨rfl, Function.update_self .., List.mem_cons_self ..⟩
  | error e =>
    obtain rfl : w₁ = w := hstep
    cases e <;> (cases hruns₁; cases hhandled₁; exact Or.inl ⟨⟨rfl, rfl⟩, by simp [Idle, Spoils]⟩)

theorem unlinkIfOwnerOrUnused_removal {removed : Bool}
    (hruns : Runs (unlinkIfOwnerOrUnused ctx path) trace (.ret removed))
    (hhandled : Handled pidHandles () w trace w') : Removal path w w' trace removed := by
  obtain ⟨answer, rest, w₁, rfl, hstep, hruns₁, hhandled₁⟩ := hhandled.of_ask_bind hruns
  cases answer with
  | error e =>
    obtain rfl : w₁ = w := hstep
    cases e <;> (cases hruns₁; cases hhandled₁; exact Or.inl ⟨⟨rfl, rfl⟩, by simp [Idle, Spoils]⟩)
  | ok fd =>
    obtain ⟨-, inode, -, rfl⟩ := hstep
    obtain ⟨reads, _, pid, rfl, hidle, hruns₂, hhandled₂⟩ :=
      harmless_bind (pidfileRead_within (fun _ => trivial) fd) hruns₁ hhandled₁ path
    obtain ⟨_, rest, w₂, rfl, hclose, hruns₃, hhandled₃⟩ := hhandled₂.of_ask_bind hruns₂
    have hsame : SameFiles w w₂ := by
      obtain rfl : w₂ = _ := hclose
      exact ⟨rfl, rfl⟩
    have hbefore : Idle path (⟨.openPid path .read, .ok fd⟩ :: (reads ++ [⟨.close fd, ()⟩])) :=
      List.forall_mem_cons.mpr ⟨fun _ => id, hidle.append (by simp [Idle, Spoils])⟩
    rw [List.append_cons, ← List.cons_append]
    refine Removal.behind hsame hbefore ?_
    have hnot : ∀ {w : PidFiles} {trace}, Runs (pure false) trace (.ret removed) →
        Handled pidHandles () w trace w' → Removal path w w' trace removed := by
      intro w trace hruns hhandled
      cases hruns
      cases hhandled
      exact Or.inl ⟨⟨rfl, rfl⟩, nofun⟩
    split at hruns₃
    · exact doUnlink_removal hruns₃ hhandled₃
    · split at hruns₃
      · split at hruns₃
        · exact doUnlink_removal hruns₃ hhandled₃
        · obtain ⟨asks, rest, runs, rfl, hidle', hruns₄, hhandled₄⟩ :=
            harmless_bind (pidIsRunning_within (fun _ _ => trivial) pid .unlinks) hruns₃ hhandled₃ path
          refine Removal.behind ⟨rfl, rfl⟩ hidle' ?_
          cases runs with
          | true => exact hnot hruns₄ hhandled₄
          | false => exact doUnlink_removal hruns₄ hhandled₄
      · exact hnot hruns₃ hhandled₃

theorem oldbinOf_ne (path : Bytes) : path ≠ oldbinOf path := by
  intro heq
  have hlength := congrArg List.length heq
  rw [oldbinOf, List.length_append] at hlength
  have hpos : 0 < (ascii ".oldbin").length := by decide
  omega

/-- A file that starts with `text` stays as it is when a part of `text` is written to it. -/
theorem overlay_take {text : Bytes} (k : Nat) (h : text <+: old) : PidFiles.overlay (text.take k) old = old := by
  rw [PidFiles.overlay]
  calc
    text.take k ++ old.drop (text.take k).length
      = old.take (text.take k).length ++ old.drop (text.take k).length := by
        rw [← List.prefix_iff_eq_take.mp ((List.take_prefix k text).trans h)]
    _ = old := List.take_append_drop ..

/-- `.oldbin` has been opened as `fd`. -/
structure OldbinOpen (path : Bytes) (fd : Fd) (w w' : PidFiles) : Prop where
  links : w'.links path = w.links path
  text : w'.text path = w.text path
  opened : ∃ inode, w'.links (oldbinOf path) = some inode ∧ w'.fds fd = some inode ∧
    w'.contents inode = (w.text (oldbinOf path)).getD []

theorem oldbin_opened {fd : Fd} (h : pidHandles w () (.openPid (oldbinOf path) .oldbin) (.ok fd) w') :
    OldbinOpen path fd w w' := by
  obtain ⟨-, inode, ⟨hlinks, rfl⟩ | ⟨hlinks, hfresh, rfl⟩⟩ := h
  · refine ⟨rfl, rfl, inode, hlinks, Function.update_self .., ?_⟩
    rw [PidFiles.text, hlinks]
    rfl
  · have hpath : (w.emptied (oldbinOf path) inode).links path = w.links path :=
      Function.update_of_ne (oldbinOf_ne path) ..
    refine ⟨hpath, ?_, inode, Function.update_self .., Function.update_self .., ?_⟩
    · show ((w.emptied (oldbinOf path) inode).links path).map _ = (w.links path).map _
      rw [hpath]
      cases hlink : w.links path with
      | none => rfl
      | some other =>
        have hne : other ≠ inode := fun heq => hfresh.1 path (heq ▸ hlink)
        exact congrArg some (Function.update_of_ne hne ..)
    · rw [PidFiles.text, hlinks]
      exact Function.update_self ..

/-- No own pid in `.oldbin` that was not there. -/
def OldbinIntact (ctx : DaemonCtx) (path : Bytes) (w w' : PidFiles) : Prop :=
  ∀ text, w'.text (oldbinOf path) = some text → pidText ctx.self <+: text → w.text (oldbinOf path) = some text

/-- What `.oldbin` held. -/
abbrev oldText (path : Bytes) (w : PidFiles) : Bytes := (w.text (oldbinOf path)).getD []

theorem oldbinIntact_of_starts {text : Bytes} (htext : w'.text (oldbinOf path) = some text)
    (hstarts : pidText ctx.self <+: text → pidText ctx.self <+: oldText path w ∧ text = oldText path w) :
    OldbinIntact ctx path w w' := by
  intro text' htext' hpre
  obtain rfl := Option.some.inj (htext.symm.trans htext')
  obtain ⟨hold, rfl⟩ := hstarts hpre
  cases hbefore : w.text (oldbinOf path) with
  | some old => rw [oldText, hbefore, Option.getD_some]
  | none =>
    rw [oldText, hbefore] at hold
    exact absurd (List.prefix_nil.mp hold) (List.append_ne_nil_of_right_ne_nil _ nofun)

/-- The own pid, or a part of it, is written to `.oldbin`. -/
theorem OldbinOpen.wrote {fd : Fd} (h : OldbinOpen path fd w w') (ctx : DaemonCtx) (k : Nat) :
    (w'.wrote fd ((pidText ctx.self).take k)).links = w'.links ∧
      (w'.wrote fd ((pidText ctx.self).take k)).text (oldbinOf path) =
        some (PidFiles.overlay ((pidText ctx.self).take k) (oldText path w)) ∧
      (w.text path = some (pidText ctx.self) →
        (w'.wrote fd ((pidText ctx.self).take k)).text path = some (pidText ctx.self)) := by
  obtain ⟨inode, hlink, hfd, hold⟩ := h.opened
  generalize hbytes : PidFiles.overlay ((pidText ctx.self).take k) (oldText path w) = bytes
  have hwrote : w'.wrote fd ((pidText ctx.self).take k) =
      { w' with contents := Function.update w'.contents inode bytes } := by
    rw [PidFiles.wrote, hfd, ← hbytes]
    dsimp only
    rw [hold]
  rw [hwrote]
  refine ⟨rfl, ?_, fun hpath => ?_⟩
  · show (w'.links (oldbinOf path)).map _ = _
    rw [hlink]
    exact congrArg some (Function.update_self ..)
  · have hpath' := h.text.trans hpath
    obtain ⟨other, hother, hcontents⟩ := Option.map_eq_some_iff.mp hpath'
    show (w'.links path).map _ = _
    rw [hother]
    refine congrArg some ?_
    show Function.update w'.contents inode bytes other = _
    by_cases hsame : other = inode
    · -- the two names may be links to one file
      subst hsame
      rw [Function.update_self, ← hbytes, oldText, ← hold, hcontents]
      exact overlay_take k (List.prefix_refl _)
    · rw [Function.update_of_ne hsame]
      exact hcontents

/-- What `mog_pidfile_upgrade_prepare` does behind the removal of the pid file. -/
structure Prepared (ctx : DaemonCtx) (path : Bytes) (w w' : PidFiles) (trace : Trace DaemonCall DaemonRes)
    (ready : Bool) (old : Option Bytes) : Prop where
  links : w'.links path = w.links path
  text : w.text path = some (pidText ctx.self) → w'.text path = some (pidText ctx.self)
  spoiled : (ready = false ∧ old = none ∧
      (OldbinIntact ctx path w w' ↔ ∀ entry ∈ trace, ¬ Spoils path (oldText path w) entry)) ∨
    (old ≠ none ∧ ∃ entry ∈ trace, Spoils path (oldText path w) entry)

theorem Prepared.idle (hlinks : w'.links path = w.links path) (htext : w'.text path = w.text path)
    (hidle : Idle path trace) (hold : OldbinIntact ctx path w w') : Prepared ctx path w w' trace false none :=
  ⟨hlinks, fun hself => htext.trans hself, Or.inl ⟨rfl, rfl, iff_of_true hold fun entry h => hidle entry h _⟩⟩

theorem prepareOldbin_prepared {p p' : Pidfile} {ready : Bool}
    (hruns : Runs (prepareOldbin ctx p (oldbinOf path)) trace (.ret (ready, p')))
    (hhandled : Handled pidHandles () w trace w') : Prepared ctx path w w' trace ready p'.old := by
  obtain ⟨answer, rest, w₁, rfl, hstep, hruns₁, hhandled₁⟩ := hhandled.of_ask_bind hruns
  cases answer with
  | error e =>
    obtain rfl : w₁ = w := hstep
    cases hruns₁
    cases hhandled₁
    exact .idle rfl rfl (by simp [Idle, Spoils]) fun _ h _ => h
  | ok fd =>
    have hopen := oldbin_opened hstep
    obtain ⟨reads, _, pid, rfl, hreads, hruns₂, hhandled₂⟩ :=
      harmless_bind (pidfileRead_within (fun _ => trivial) fd) hruns₁ hhandled₁ path
    obtain ⟨asks, _, runs, rfl, hasks, hruns₃, hhandled₃⟩ :=
      harmless_bind (pidIsRunning_within (fun _ _ => trivial) pid .prepares) hruns₂ hhandled₂ path
    have hbefore : Idle path (⟨.openPid (oldbinOf path) .oldbin, .ok fd⟩ :: (reads ++ asks)) :=
      List.forall_mem_cons.mpr ⟨fun _ => id, hreads.append hasks⟩
    have hclose : Idle path [⟨.close fd, ()⟩] := by simp [Idle, Spoils]
    rw [← List.append_assoc, ← List.cons_append]
    cases runs with
    | true =>
      obtain ⟨_, _, w₂, rfl, hstep, hruns₄, hhandled₄⟩ := hhandled₃.of_ask_bind hruns₃
      cases hruns₄
      cases hhandled₄
      obtain rfl : w' = _ := hstep
      obtain ⟨inode, hlink, -, hold⟩ := hopen.opened
      refine .idle hopen.links hopen.text (hbefore.append hclose) (oldbinIntact_of_starts ?_ fun h => ⟨h, rfl⟩)
      show (w₁.links (oldbinOf path)).map _ = _
      rw [hlink]
      exact congrArg some hold
    | false =>
      obtain ⟨_, rest, done, w₂, rfl, hwrite, hhandled₄, hruns₅, hhandled₅⟩ := hhandled₃.of_bind hruns₃
      obtain ⟨⟨written, enospc, landed⟩, _, w₃, rfl, hstep, hwritten, hnil⟩ := hhandled₄.of_ask_bind hwrite
      cases hwritten
      cases hnil
      have hdone : rest = [⟨.close fd, ()⟩] ∧ SameFiles w₂ w' ∧ ready = (!(decide (written ≤ 1) || enospc)) ∧
          p'.old = if !(decide (written ≤ 1) || enospc) then some (oldbinOf path) else none := by
        cases hok : (!(decide (written ≤ 1) || enospc)) <;> rw [hok] at hruns₅ <;>
        · obtain ⟨_, _, w₃, rfl, hstep, hruns₆, hhandled₆⟩ := hhandled₅.of_ask_bind hruns₅
          cases hruns₆
          cases hhandled₆
          obtain rfl : w' = _ := hstep
          exact ⟨rfl, ⟨rfl, rfl⟩, rfl, rfl⟩
      obtain ⟨rfl, hfiles, rfl, hold⟩ := hdone
      rw [hold]
      by_cases hok : 1 < written ∧ enospc = false
      · -- the own pid is in `.oldbin`, and `old` stays
        obtain ⟨hlinks, -, hself⟩ := hopen.wrote ctx (pidText ctx.self).length
        rw [List.take_length] at hlinks hself
        obtain rfl : w₂ = w₁.wrote fd (pidText ctx.self) := Eq.trans hstep (by rw [if_pos hok])
        refine ⟨by rw [hfiles.1, hlinks, hopen.links], fun h => (hfiles.text path).trans (hself h),
          Or.inr ⟨by simp [hok], ⟨.dprintf fd (pidText ctx.self), (written, enospc, landed)⟩, by simp, Or.inl hok⟩⟩
      · obtain ⟨hlinks, htext, hself⟩ := hopen.wrote ctx landed
        obtain rfl : w₂ = w₁.wrote fd ((pidText ctx.self).take landed) := Eq.trans hstep (by rw [if_neg hok])
        have hfailed : (!(decide (written ≤ 1) || enospc)) = false := by simpa using hok
        rw [hfailed]
        refine ⟨by rw [hfiles.1, hlinks, hopen.links], fun h => (hfiles.text path).trans (hself h),
          Or.inl ⟨rfl, rfl, ?_⟩⟩
        rw [← hfiles.text] at htext
        constructor
        · intro hintact
          refine List.forall_mem_append.mpr ⟨fun entry h => hbefore entry h _,
            List.forall_mem_cons.mpr ⟨?_, fun entry h => hclose entry h _⟩⟩
          rintro (hwhole | ⟨hstarts, hnot⟩)
          · exact hok hwhole
          · refine hnot ?_
            rw [oldText, hintact _ htext hstarts]
            exact hstarts
        · intro hspoils
          refine oldbinIntact_of_starts htext fun hstarts => ?_
          have hnot := hspoils ⟨.dprintf fd (pidText ctx.self), (written, enospc, landed)⟩ (by simp)
          have hold : pidText ctx.self <+: oldText path w := by
            by_contra hold
            exact hnot (Or.inr ⟨hstarts, hold⟩)
          exact ⟨hold, overlay_take landed hold⟩

theorem runs_of_require {condition : Bool} {f : Unit → DaemonIo α} {value : α}
    (h : Runs (require condition >>= f) trace (.ret value)) : Runs (f ()) trace (.ret value) := by
  cases condition with
  | false => cases h
  | true => exact h

/-- All that `mog_pidfile_upgrade_prepare` does. -/
theorem prepare_intact {p p' : Pidfile} {ready : Bool} (hpidfile : p.pidfile = some path) (hold : p.old = none)
    (hself : w.text path = some (pidText ctx.self))
    (hruns : Runs (mogPidfileUpgradePrepare ctx p) trace (.ret (ready, p')))
    (hhandled : Handled pidHandles () w trace w') :
    (w'.text path = some (pidText ctx.self) ∧ OldbinIntact ctx path w w' ∧ p'.old = none ↔
      ∀ entry ∈ trace, ¬ Spoils path (oldText path w) entry) := by
  unfold mogPidfileUpgradePrepare at hruns
  rw [hpidfile] at hruns
  obtain ⟨removes, opens, removed, w₁, rfl, hremove, hhandled₁, hopen, hhandled₂⟩ :=
    hhandled.of_bind (runs_of_require hruns)
  have hremoval := unlinkIfOwnerOrUnused_removal hremove hhandled₁
  cases removed with
  | false =>
    cases hopen
    cases hhandled₂
    rcases hremoval with ⟨hsame, hidle⟩ | ⟨hnot, -⟩
    · rw [List.append_nil]
      refine iff_of_true ⟨(hsame.text path).trans hself, fun text htext _ => ?_, hold⟩ fun entry h => hidle entry h _
      rwa [hsame.text] at htext
    · cases hnot
  | true =>
    have hprepared := prepareOldbin_prepared (runs_of_require hopen) hhandled₂
    rcases hremoval with ⟨hsame, hidle⟩ | ⟨-, hgone, hmem⟩
    · have hspoiled := hprepared.spoiled
      rw [OldbinIntact, oldText, hsame.text] at hspoiled
      rw [List.forall_mem_append, and_iff_right fun entry h => hidle entry h _,
        and_iff_right (hprepared.text ((hsame.text path).trans hself))]
      rcases hspoiled with ⟨-, hnone, hiff⟩ | ⟨hset, entry, hentry, hspoils⟩
      · rw [and_iff_left hnone]
        exact hiff
      · exact iff_of_false (fun h => hset h.2) fun h => h entry hentry hspoils
    · refine iff_of_false (fun h => ?_) fun h => h _ (List.mem_append_left _ hmem) rfl
      have htext := h.1
      rw [PidFiles.text, hprepared.links, hgone] at htext
      cases htext

end Attempts

/-- The pid file as it was, nothing in `.oldbin` that was not there, and `old` null. -/
structure PidfileIntact (ctx : DaemonCtx) (path : Bytes) (w w' : PidFiles) (d' : Daemon) : Prop where
  pidfile : w'.text path = some (pidText ctx.self)
  oldbin : OldbinIntact ctx path w w'
  old : d'.old = none

/-- **A failed upgrade leaves the pid file as it was** exactly if the file is not removed and, where it is taken for
missing, the own pid does not get into `.oldbin`. -/
theorem failed_upgrade_intact_iff (ctx : DaemonCtx) (d : Daemon) (path : Bytes) (hpidfile : d.pidfile = some path)
    (hold : d.old = none) (w : PidFiles) (hself : w.text path = some (pidText ctx.self))
    (trace : Trace DaemonCall DaemonRes) (pid : Pid) (d' : Daemon) (w' : PidFiles)
    (hruns : Runs (mogUpgradeSpawn ctx d) trace (.ret (pid, d'))) (hhandled : Handled pidHandles () w trace w') :
    (pid ≤ 0 → PidfileIntact ctx path w w' d') ↔
      0 < pid ∨ ∀ entry ∈ trace, ¬ Spoils path ((w.text (oldbinOf path)).getD []) entry := by
  obtain ⟨prepares, rest, ⟨ready, pidfile⟩, w₁, rfl, hprepare, hhandled₁, hrest, hhandled₂⟩ := hhandled.of_bind hruns
  have hiff := prepare_intact hpidfile hold hself hprepare hhandled₁
  have hfork : w' = w₁ ∧ d'.old = pidfile.old ∧ Idle path rest := by
    cases ready with
    | true =>
      have hharmless := upgradeFork_harmless ctx { d with toPidfile := pidfile }
      obtain ⟨hsame, hidle⟩ := harmless_handled hharmless hrest hhandled₂ path
      exact ⟨hsame, hharmless.value_of_runs hrest, hidle⟩
    | false =>
      cases hrest
      cases hhandled₂
      exact ⟨rfl, rfl, nofun⟩
  obtain ⟨rfl, hold', hidle⟩ := hfork
  rw [List.forall_mem_append, and_iff_left fun entry h => hidle entry h _, ← hiff, ← hold', ← Int.not_le,
    ← imp_iff_not_or]
  exact imp_congr_right fun _ => ⟨fun h => ⟨h.pidfile, h.oldbin, h.old⟩, fun h => ⟨h.1, h.2.1, h.2.2⟩⟩

/-- A daemon with the pid 7 and a pid file. -/
def pidfileDaemon : Daemon := { daemonAtStart with pidfile := some (ascii "/p"), pidfileExists := true, owner := 7 }

def pidfileWorld : PidFiles where
  links path := if path = ascii "/p" then some 0 else none
  contents _ := ascii "7\n"
  fds _ := none

/-- The pid file is taken for missing, and `.oldbin` cannot be opened. -/
theorem failed_upgrade_intact_enoent :
    PidfileIntact ⟨7, [[3]]⟩ (ascii "/p") pidfileWorld pidfileWorld pidfileDaemon := by
  have hhandled : Handled pidHandles () pidfileWorld [⟨.openPid (ascii "/p") .read, .error .ENOENT⟩,
      ⟨.openPid (oldbinOf (ascii "/p")) .oldbin, .error .EMFILE⟩] pidfileWorld := .cons rfl (.cons rfl (.nil _))
  have hruns : Runs (mogUpgradeSpawn ⟨7, [[3]]⟩ pidfileDaemon) [⟨.openPid (ascii "/p") .read, .error .ENOENT⟩,
      ⟨.openPid (oldbinOf (ascii "/p")) .oldbin, .error .EMFILE⟩] (.ret (-1, pidfileDaemon)) := .cons (.cons (.nil _))
  have hiff := failed_upgrade_intact_iff ⟨7, [[3]]⟩ pidfileDaemon (ascii "/p") rfl rfl pidfileWorld (by decide) _ _ _ _
    hruns hhandled
  exact hiff.mpr (Or.inr (by simp [Spoils])) (by decide)

theorem pidfileRead_seven (fd : Fd) (h : (ascii "7\n").length ≤ pidBufSize) :
    Runs (pidfileRead fd) [⟨.pread fd, .ok (⟨ascii "7\n", h⟩, [])⟩] (.ret 7) := by
  apply Runs.ask_bind
  have hstrtol : strtol (ascii "7\n" ++ []) = (7, LF) := by decide
  dsimp only
  rw [if_neg (by decide), hstrtol]
  exact .nil _

/-- The pid file is removed, and then `.oldbin` cannot be opened: there is no pid file any more. -/
theorem failed_upgrade_removes :
    ∃ trace w', Runs (mogUpgradeSpawn ⟨7, [[3]]⟩ pidfileDaemon) trace (.ret (-1, pidfileDaemon)) ∧
      Handled pidHandles () pidfileWorld trace w' ∧ pidfileWorld.text (ascii "/p") = some (pidText 7) ∧
      w'.text (ascii "/p") = none := by
  have hremoved : Runs (unlinkIfOwnerOrUnused ⟨7, [[3]]⟩ (ascii "/p")) [⟨.openPid (ascii "/p") .read, .ok 5⟩,
      ⟨.pread 5, .ok (⟨ascii "7\n", by decide⟩, [])⟩, ⟨.close 5, ()⟩, ⟨.unlink (ascii "/p"), .ok ()⟩] (.ret true) :=
    .cons (((pidfileRead_seven 5 _).bind _).append (.cons (.cons (.nil _))))
  have hrun : Runs (mogUpgradeSpawn ⟨7, [[3]]⟩ pidfileDaemon) [⟨.openPid (ascii "/p") .read, .ok 5⟩,
      ⟨.pread 5, .ok (⟨ascii "7\n", by decide⟩, [])⟩, ⟨.close 5, ()⟩, ⟨.unlink (ascii "/p"), .ok ()⟩,
      ⟨.openPid (oldbinOf (ascii "/p")) .oldbin, .error .EMFILE⟩] (.ret (-1, pidfileDaemon)) :=
    ((hremoved.bind _).bind _).append (.cons (.nil _))
  refine ⟨_, _, hrun, .cons ⟨rfl, 0, rfl, rfl⟩ (.cons ⟨⟨0, rfl, by decide, by decide⟩, rfl⟩ (.cons rfl
    (.cons ⟨by decide, rfl⟩ (.cons rfl (.nil _))))), by decide, by decide⟩

end Cmogstored
