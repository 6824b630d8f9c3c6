import Cmogstored.Docroot
import Cmogstored.MgmtRuns

/-! The files that management commands name. The `path` of the grammar is a slash and any further path
characters, slashes among them; `get_path` refuses two dots in a row; `mog_stat` and `mog_open_read` drop
the first byte. -/

namespace Cmogstored

open Prog Scan Reference

/-- The path a call gives to `fstatat` or `openat`, with the slash that is dropped there. -/
def pathOf : MgmtCall → Option Bytes
  | .sys (.stat path) => some path
  | .sys (.openRead path) => some path
  | _ => none

/-- A line of the stream is a command for this path, and `get_path` accepts it. -/
def NamedBy (received path : Bytes) : Prop :=
  ∃ line, line <:+: received ∧ (SizeLine line path ∨ DigestLine line path) ∧ mogValidPath path = true

theorem NamedBy.append {received path : Bytes} (h : NamedBy received path) (more : Bytes) :
    NamedBy (received ++ more) path := by
  obtain ⟨line, hline, hnamed⟩ := h
  exact ⟨line, hline.trans (List.prefix_append _ _).isInfix, hnamed⟩

theorem IsMgmtPath.of_line {line path : Bytes} (h : SizeLine line path ∨ DigestLine line path) :
    IsMgmtPath path := h.elim (fun h => h.1) fun h => h.1

/-- **Only a second slash leads out of the document root.** -/
theorem below_iff {path : Bytes} (hpath : IsMgmtPath path) (hvalid : mogValidPath path = true) :
    Below (path.drop 1) ↔ ¬ ascii "//" <+: path := by
  obtain ⟨rest, rfl, -⟩ := hpath
  have hslashes : ascii "//" <+: 47 :: rest ↔ rest.head? = some 47 := by
    cases rest with
    | nil => simp [ascii, List.cons_prefix_cons]
    | cons c rest => simp [ascii, List.cons_prefix_cons, eq_comm]
  rw [hslashes]
  refine ⟨fun h => h.relative, fun h => ⟨h, fun hparent => ?_⟩⟩
  have hdots : ascii ".." <:+: 47 :: rest := hparent.isInfix.trans (List.suffix_cons 47 rest).isInfix
  rw [← pathTraversalFound_iff] at hdots
  rw [mogValidPath, hdots, Bool.not_true, Bool.and_false] at hvalid
  cases hvalid

/-! ### Tasks with a path -/

/-- The path that is still to be looked up. -/
def Task.path : Task → Option Bytes
  | .stat path => some path
  | .openFile _ _ path => some path
  | .expire _ _ path => some path
  | .reopen _ _ path => some path
  | _ => none

section Paths

variable {ctx : MgmtCtx} {talk : Talk} {path : Bytes}

/-- A call looks up the path of its task, and no task gets another one. -/
theorem Task.step_path {task : Task} {request : MgmtCall} {next : MgmtRes request → Task}
    (h : task.step ctx = some ⟨request, next⟩) :
    (pathOf request = some path → task.path = some path) ∧
      ∀ answer, (next answer).path = some path → task.path = some path := by
  have hbegin : ∀ job : Job, job.begin.path = none := fun job => by
    unfold Job.begin
    split <;> rfl
  cases task with
  | idle => cases h
  | watching => cases h
  | stat _ =>
    cases h
    exact ⟨id, fun answer hpath => by cases answer <;> cases hpath⟩
  | openFile alg prio _ =>
    cases h
    refine ⟨id, fun answer hpath => ?_⟩
    cases answer with
    | ok fd => exact absurd ((hbegin _).symm.trans hpath) nofun
    | error errno =>
      dsimp only [Task.opened] at hpath
      split at hpath
      · exact hpath
      · cases hpath
  | expire alg prio _ =>
    cases h
    refine ⟨nofun, fun answer hpath => ?_⟩
    dsimp only [Task.expired] at hpath
    split at hpath
    · exact hpath
    · cases hpath
  | reopen alg prio _ =>
    cases h
    refine ⟨id, fun answer hpath => ?_⟩
    cases answer with
    | ok fd => exact absurd ((hbegin _).symm.trans hpath) nofun
    | error errno => cases hpath
  | ready job =>
    cases h
    exact ⟨nofun, fun answer hpath => by cases answer <;> cases hpath⟩
  | hash job data =>
    cases h
    refine ⟨nofun, fun answer hpath => ?_⟩
    dsimp only [Task.hashed] at hpath
    (repeat' split at hpath) <;> cases hpath
  | reply text job =>
    cases h
    refine ⟨nofun, fun _ hpath => ?_⟩
    cases job with
    | none => cases hpath
    | some job =>
      dsimp only [Job.finish] at hpath
      split at hpath <;> cases hpath
  | _ =>
    cases h
    exact ⟨nofun, fun _ hpath => by cases hpath⟩

/-- The path of a command that has just been taken. -/
theorem Ref.take_path {ref ref' : Ref} {command : Command} (hok : RefOk ref)
    (h : ref.take ctx.accepting = some (command, ref')) (hpath : ref'.task.path = some path) :
    NamedBy ref.rest path := by
  obtain ⟨fields, pos, fn, hexec, rfl, rfl⟩ := Ref.take_eq h
  have hargument := argumentEnd_mgmtExec ctx.accepting ref.rest hok.start
  rw [hexec] at hargument
  have hline := (List.take_prefix pos ref.rest).isInfix
  cases fn with
  | size =>
    dsimp only [commandOf, Task.start] at hpath
    split at hpath
    · cases hpath
      exact ⟨_, hline, Or.inl hargument, ‹_›⟩
    · cases hpath
  | digest =>
    dsimp only [commandOf, Task.start] at hpath
    split at hpath
    · cases hpath
      exact ⟨_, hline, Or.inr hargument, ‹_›⟩
    · cases hpath
  | aioThreads =>
    dsimp only [commandOf, Task.start] at hpath
    split at hpath <;> cases hpath
  | _ => cases hpath

/-- Paths come from lines of the stream. -/
def PathsNamed (talk : Talk) : Prop :=
  ∀ path, talk.ref.task.path = some path → NamedBy talk.received path

theorem PathsNamed.next {request : MgmtCall} (h : PathsNamed talk) (hkept : Kept talk)
    (hmust : (talkContract ctx).must talk request) (answer : MgmtRes request) :
    PathsNamed (talk.next ctx request answer) := by
  intro path hpath
  refine NamedBy.append ?_ _
  cases haction : isAction request with
  | false =>
    refine h path ?_
    have href : talk.ref.hears ctx request answer = talk.ref.grow (receivedBy ⟨request, answer⟩) := by
      rw [Ref.hears, haction]
      rfl
    rwa [show (talk.next ctx request answer).ref = _ from href] at hpath
  | true =>
    obtain ⟨next, hstep⟩ := hmust.1 haction
    rw [(moved_of_step haction hstep answer).ref] at hpath
    rcases Ref.step_cases hstep with ⟨-, command, ref', htake, rfl, hnext⟩ | ⟨-, next', htask, hnext⟩
    · rw [hnext] at hpath
      obtain ⟨line, hline, hnamed⟩ := Ref.take_path hkept.ok htake hpath
      obtain ⟨taken, hreceived, -⟩ := hkept.lines
      exact ⟨line, hline.trans (hreceived ▸ (List.suffix_append taken _).isInfix), hnamed⟩
    · rw [hnext, Ref.behind_task] at hpath
      exact h path ((Task.step_path htask).2 answer hpath)

theorem pathsNamed_after {fuel : Nat} {trace : MgmtRun} {q : MgmtIo Unit}
    (hrun : Runs (mgmtServe ctx fuel mogMgmtInit) trace q) : PathsNamed (talkAfter ctx trace) :=
  (inv_of_runs (J := fun talk => Kept talk ∧ PathsNamed talk)
    (fun _ _ answer hkept hmust _ => ⟨hkept.1.next hmust answer, hkept.2.next hkept.1 hmust answer⟩)
    (wp_mgmtServe fuel (holds_init ctx)) hrun (allows_of_may fun _ _ _ => trivial)
    ⟨kept_start, nofun⟩).2

theorem isAction_of_pathOf {request : MgmtCall} (h : pathOf request = some path) :
    isAction request = true := by
  cases request with
  | sys request => cases request <;> first | rfl | cases h
  | _ => cases h

end Paths

/-- **Management paths.** Every path that is looked up is the argument of a line of the stream that the
grammar accepts, has no two dots in a row, and stays below the document root exactly if it does not start
with two slashes. -/
theorem mgmt_path_below_iff (ctx : MgmtCtx) (fuel : Nat) {trace : MgmtRun} {q : MgmtIo Unit}
    (hrun : Runs (mgmtServe ctx fuel mogMgmtInit) trace q) :
    ∀ entry ∈ trace, ∀ path, pathOf entry.1 = some path →
      NamedBy (mgmtReceived trace) path ∧ (Below (path.drop 1) ↔ ¬ ascii "//" <+: path) := by
  rintro ⟨request, answer⟩ hentry path hpath
  obtain ⟨before, after, rfl⟩ := List.append_of_mem hentry
  obtain ⟨asked, hbefore, hafter⟩ := hrun.split
  have hnamed : NamedBy (mgmtReceived before) path := by
    cases hafter with
    | cons tail =>
      obtain ⟨next, hstep⟩ := (wp_after hbefore).1.1 (isAction_of_pathOf hpath)
      rcases Ref.step_cases hstep with ⟨-, command, ref', -, rfl, -⟩ | ⟨-, next', htask, -⟩
      · cases hpath
      · have hreceived : (talkAfter ctx before).received = mgmtReceived before :=
          (shows_after ctx .start before).received
        exact hreceived ▸ pathsNamed_after hbefore path ((Task.step_path htask).1 hpath)
  have hreceived : mgmtReceived (before ++ ⟨request, answer⟩ :: after)
      = mgmtReceived before ++ mgmtReceived (⟨request, answer⟩ :: after) := List.flatMap_append
  refine ⟨hreceived ▸ hnamed.append _, ?_⟩
  obtain ⟨line, -, hline, hvalid⟩ := hnamed
  exact below_iff (.of_line hline) hvalid

/-- A client asks for the size of a file, up to its lookup. -/
def sizeLookup (path : Bytes) (h : (ascii "size " ++ path ++ [LF]).length ≤ 496) : MgmtRun :=
  [⟨.sys (.read 496), .ok ⟨ascii "size " ++ path ++ [LF], h⟩⟩, ⟨.command (.size path), ()⟩,
    ⟨.sys (.stat path), .error .ENOENT⟩]

theorem mgmt_path_escapes : ∃ q, ∃ entry ∈ sizeLookup (ascii "//etc/passwd") (by decide),
    Runs (mgmtServe zeroHashCtx 5 mogMgmtInit) (sizeLookup (ascii "//etc/passwd") (by decide)) q ∧
    pathOf entry.1 = some (ascii "//etc/passwd") ∧ ¬ Below ((ascii "//etc/passwd").drop 1) := by
  have hrun : Runs (mgmtServe zeroHashCtx 5 mogMgmtInit) (sizeLookup (ascii "//etc/passwd") (by decide)) _ :=
    .cons (.cons (.cons (.nil _)))
  exact ⟨_, ⟨.sys (.stat (ascii "//etc/passwd")), .error .ENOENT⟩, by simp [sizeLookup], hrun, rfl,
    fun h => h.relative rfl⟩

theorem mgmt_path_below_iff_plain : Below ((ascii "/a").drop 1) := by
  have hrun : Runs (mgmtServe zeroHashCtx 5 mogMgmtInit) (sizeLookup (ascii "/a") (by decide)) _ :=
    .cons (.cons (.cons (.nil _)))
  refine (mgmt_path_below_iff zeroHashCtx 5 hrun ⟨.sys (.stat (ascii "/a")), .error .ENOENT⟩ ?_ _ rfl).2.mpr
    (by decide)
  simp [sizeLookup]

end Cmogstored
