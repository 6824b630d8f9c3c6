import Cmogstored.Ends
import Cmogstored.Usage

/-! `mog_dev_mkusage` of `dev.c`: the usage file of a device is written under another name and renamed. Whether it
went well is read off `errno` at the end, so `errno` is carried along here. -/

namespace Cmogstored

open List Prog

/-! ### The calls -/

/-- What `close` returns; of its errors the code looks for `EBADF` and `EINTR`. -/
inductive Closed where
  | ok
  | EBADF
  | error (errno : Errno)
  deriving DecidableEq, Repr

inductive UsageCall where
  | unlink (path : Bytes)
  /-- `mog_open_put(svc, path, O_EXCL|O_CREAT)` -/
  | openPut (path : Bytes)
  | fdmapExpire
  | fstatvfs (fd : Fd)
  | time
  /-- `mog_mnt_acquire(dev->st_dev)` -/
  | mntAcquire
  | dprintf (fd : Fd) (text : Bytes)
  | fchmod (fd : Fd)
  | close (fd : Fd)
  | rename (old new : Bytes)
  deriving DecidableEq, Repr

@[reducible] def UsageRes : UsageCall → Type
  | .unlink _ => Except Errno Unit
  | .openPut _ => Except Errno Fd
  -- the number of connections expired, and the `errno` it leaves behind
  | .fdmapExpire => Nat × Errno
  | .fstatvfs _ => Except Errno Statvfs
  | .time => Int
  | .mntAcquire => Option Bytes
  -- what it returned, and `errno`
  | .dprintf _ _ => Int × Option Errno
  | .fchmod _ => Except Errno Unit
  | .close _ => Closed
  | .rename _ _ => Except Errno Unit

abbrev UsageIo := Prog UsageCall UsageRes

abbrev UsageTrace := Trace UsageCall UsageRes

abbrev UsageEntry := (request : UsageCall) × UsageRes request

abbrev usageSys (request : UsageCall) : UsageIo (UsageRes request) := Prog.ask request

/-! ### The code -/

/-- What the device and its service fix. -/
structure UsageCtx where
  docroot : Bytes
  /-- `dev->prefix` -/
  devPrefix : Bytes
  pid : Nat
  /-- the product with `f_frsize / 1024.0` in `long double` -/
  scale : UInt64 → UInt64 → UInt64

namespace UsageCtx

/-- `"%s/usage"` -/
def usagePath (ctx : UsageCtx) : Bytes := ctx.devPrefix ++ ascii "/usage"

/-- `"%s.%x"` -/
def tmpPath (ctx : UsageCtx) : Bytes :=
  ctx.usagePath ++ ascii "." ++ ascii (String.ofList (Nat.toDigits 16 ctx.pid))

/-- The text of a usage file, if the counters and the mount entry allow one. -/
def record (ctx : UsageCtx) (now : Int) (device : Option Bytes) (v : Statvfs) : Emitted :=
  emitUsage ctx.scale (ctx.docroot ++ ctx.devPrefix) now device v

end UsageCtx

/-- `emit_usage` with its calls: what it returns, and `errno`. -/
def emitUsageTo (ctx : UsageCtx) (fd : Fd) (v : Statvfs) : UsageIo (Int × Option Errno) := do
  -- the division by `total` comes before everything else
  require (v.use ≠ none)
  let now ← usageSys .time
  let device ← usageSys .mntAcquire
  match ctx.record now device v with
  | .trap => abort
  -- ENODEV
  | .noMount => pure (-1, some .other)
  | .text usage => usageSys (.dprintf fd usage)

/-- `mog_close`, which is not tried again whatever happens. -/
def mogCloseUsage (fd : Fd) : UsageIo Unit := do
  let closed ← usageSys (.close fd)
  require (closed ≠ .EBADF)

/-- The `out` label; `fd` is -1 once the file is closed. -/
def mkusageOut (ctx : UsageCtx) (fd : Option Fd) (errno : Option Errno) : UsageIo Int := do
  if errno ≠ none then do
    let _ ← usageSys (.unlink ctx.tmpPath)
  match fd with
  | none => pure (if errno ≠ none then -1 else 0)
  | some fd => do
    mogCloseUsage fd
    pure (if errno ≠ none then -1 else 0)

/-- From `errno = 0` before `mog_rename` on. -/
def mkusageRename (ctx : UsageCtx) : UsageIo Int := do
  match ← usageSys (.rename ctx.tmpPath ctx.usagePath) with
  | .ok _ => mkusageOut ctx none none
  | .error errno => mkusageOut ctx none (some errno)

/-- From `close` on. -/
def mkusageClose (ctx : UsageCtx) (fd : Fd) : UsageIo Int := do
  match ← usageSys (.close fd) with
  | .ok => mkusageRename ctx
  | .EBADF => abort
  | .error .EINTR => mkusageRename ctx
  | .error errno => mkusageOut ctx none (some errno)

/-- From `fchmod` on. -/
def mkusageChmod (ctx : UsageCtx) (fd : Fd) : UsageIo Int := do
  match ← usageSys (.fchmod fd) with
  | .error errno => mkusageOut ctx (some fd) (some errno)
  | .ok _ => mkusageClose ctx fd

/-- From `emit_usage` on. -/
def mkusageEmit (ctx : UsageCtx) (fd : Fd) (v : Statvfs) : UsageIo Int := do
  let (rc, errno) ← emitUsageTo ctx fd v
  if rc < 0 then mkusageOut ctx (some fd) errno else mkusageChmod ctx fd

/-- From `fstatvfs` on. -/
def mkusageWrite (ctx : UsageCtx) (fd : Fd) : UsageIo Int := do
  match ← usageSys (.fstatvfs fd) with
  | .error errno => mkusageOut ctx (some fd) (some errno)
  | .ok v => mkusageEmit ctx fd v

/-- The second attempt to open the file. -/
def mkusageReopen (ctx : UsageCtx) : UsageIo Int := do
  match ← usageSys (.openPut ctx.tmpPath) with
  | .error errno => mkusageOut ctx none (some errno)
  | .ok fd => mkusageWrite ctx fd

/-- What follows an `open` that failed: `mog_open_expire_retry`, and another attempt. -/
def mkusageRetry (ctx : UsageCtx) (errno : Errno) : UsageIo Int :=
  match errno with
  | .ENFILE | .EMFILE | .ENOMEM => do
    let (expired, left) ← usageSys .fdmapExpire
    if 0 < expired then mkusageReopen ctx else mkusageOut ctx none (some left)
  | errno => mkusageOut ctx none (some errno)

/-- From the first `open` on. -/
def mkusageOpen (ctx : UsageCtx) : UsageIo Int := do
  match ← usageSys (.openPut ctx.tmpPath) with
  | .error errno => mkusageRetry ctx errno
  | .ok fd => mkusageWrite ctx fd

def mogDevMkusage (ctx : UsageCtx) : UsageIo Int := do
  match ← usageSys (.unlink ctx.tmpPath) with
  | .ok _ => mkusageOpen ctx
  | .error .ENOENT => mkusageOpen ctx
  | .error errno => mkusageOut ctx none (some errno)

/-! ### Files -/

/-- What can be read at each path, and the path under which a descriptor was created. -/
structure UsageFiles where
  files : Bytes → Option Bytes
  fds : Fd → Option Bytes

/-- What a call does to the files, with all its outcomes. `dprintf` may write a part of its text only, but then it
returns a negative number or leaves `ENOSPC` behind. -/
def usageHandles : Handler Unit UsageFiles UsageCall UsageRes
  | w, _, .unlink path, .ok _, w' =>
    w.files path ≠ none ∧ w' = { w with files := Function.update w.files path none }
  | w, _, .unlink path, .error e, w' => (e = .ENOENT → w.files path = none) ∧ w' = w
  | w, _, .openPut path, .ok fd, w' =>
    w.files path = none ∧ w.fds fd = none ∧
      w' = ⟨Function.update w.files path (some []), Function.update w.fds fd (some path)⟩
  | w, _, .dprintf fd text, (rc, errno), w' =>
    ∃ path old kept, w.fds fd = some path ∧ w.files path = some old ∧ kept <+: text ∧
      (0 ≤ rc → errno ≠ some .ENOSPC → kept = text) ∧
      w' = { w with files := Function.update w.files path (some (old ++ kept)) }
  | w, _, .close fd, answer, w' =>
    (answer = .EBADF ↔ w.fds fd = none) ∧ w' = { w with fds := Function.update w.fds fd none }
  | w, _, .rename old new, .ok _, w' =>
    w.files old ≠ none ∧
      w' = { w with files := Function.update (Function.update w.files new (w.files old)) old none }
  | w, _, _, _, w' => w' = w

/-- A step behind the `open` that failed. -/
def UsageFails : UsageEntry → Prop
  | ⟨.fstatvfs _, .error _⟩ => True
  | ⟨.mntAcquire, none⟩ => True
  | ⟨.dprintf _ _, (rc, errno)⟩ => rc < 0 ∨ errno = some .ENOSPC
  | ⟨.fchmod _, .error _⟩ => True
  | ⟨.close _, .error errno⟩ => errno ≠ .EINTR
  | ⟨.rename _ _, .error _⟩ => True
  | _ => False

section Outcomes

variable (ctx : UsageCtx)

/-- `emit_usage` detected a failure, or some other step failed. -/
def UsageFailed (trace : UsageTrace) : Prop :=
  (∀ fd, ⟨.openPut ctx.tmpPath, .ok fd⟩ ∉ trace) ∨ ∃ entry ∈ trace, UsageFails entry

/-- The descriptor that was opened is closed once, and no other one is. -/
structure ClosedOnce (trace : UsageTrace) : Prop where
  once : ∀ fd, ⟨.openPut ctx.tmpPath, .ok fd⟩ ∈ trace → trace.countP (fun entry => entry.1 = .close fd) = 1
  none_else : ∀ fd, ⟨.openPut ctx.tmpPath, .ok fd⟩ ∉ trace → trace.countP (fun entry => entry.1 = .close fd) = 0

/-- The attempt failed, and nothing of it is left. -/
structure UsageKept (w w' : UsageFiles) (trace : UsageTrace) (rc : Int) : Prop where
  usage : w'.files ctx.usagePath = w.files ctx.usagePath
  tmp : w'.files ctx.tmpPath = none
  closed : ClosedOnce ctx trace
  rc_eq : rc = -1

/-- The file that the answers of the system describe is in place, and it is all there. -/
structure UsageReplaced (w' : UsageFiles) (trace : UsageTrace) (rc : Int) : Prop where
  usage : ∃ fd v now device record, ⟨.fstatvfs fd, .ok v⟩ ∈ trace ∧ ⟨.time, now⟩ ∈ trace ∧
    ⟨.mntAcquire, device⟩ ∈ trace ∧ ctx.record now device v = .text record ∧
    w'.files ctx.usagePath = some record
  tmp : w'.files ctx.tmpPath = none
  closed : ClosedOnce ctx trace
  rc_eq : rc = 0

/-- The usage file is replaced only by a complete one. -/
def UsageSafe (w w' : UsageFiles) (trace : UsageTrace) : UsageIo Int → Prop
  | .ret rc => (UsageFailed ctx trace → UsageKept ctx w w' trace rc) ∧
      (¬ UsageFailed ctx trace → UsageReplaced ctx w' trace rc)
  | _ => False

/-! ### When it is so -/

/-- `dprintf` failed and did not say why. -/
def UnsaidFailure : UsageEntry → Prop
  | ⟨.dprintf _ _, (rc, errno)⟩ => rc < 0 ∧ errno = none
  | _ => False

/-- `dprintf` did not fail, but left `ENOSPC` behind. -/
def FullDisk : UsageEntry → Prop
  | ⟨.dprintf _ _, (rc, errno)⟩ => 0 ≤ rc ∧ errno = some .ENOSPC
  | _ => False

def UsageRenamed : UsageEntry → Prop
  | ⟨.rename _ _, .ok _⟩ => True
  | _ => False

/-- The counters of the file system make `emit_usage` divide by zero. -/
def UsageTraps : UsageEntry → Prop
  | ⟨.fstatvfs _, .ok v⟩ => v.use = none
  | _ => False

/-- The answers that the code is ready for. -/
structure UsageFine (trace : UsageTrace) : Prop where
  said : ∀ entry ∈ trace, ¬ UnsaidFailure entry
  full : (∃ entry ∈ trace, FullDisk entry) → ∀ entry ∈ trace, ¬ UsageRenamed entry
  divides : ∀ entry ∈ trace, ¬ UsageTraps entry

/-- The temporary file can be removed if it is still there. -/
def UsageUnlinks (trace : UsageTrace) : Prop :=
  ∀ e, ⟨.unlink ctx.tmpPath, .error e⟩ ∈ trace.tail → e = .ENOENT

variable {ctx} {w₀ w w' : UsageFiles} {seen : UsageTrace} {fd : Fd}

/-- What is to be shown of every end. -/
def UsageVerdict (ctx : UsageCtx) (w₀ : UsageFiles) (trace : UsageTrace) (w' : UsageFiles) (q : UsageIo Int) : Prop :=
  UsageUnlinks ctx trace → (UsageSafe ctx w₀ w' trace q ↔ UsageFine trace)

theorem tmpPath_ne (ctx : UsageCtx) : ctx.tmpPath ≠ ctx.usagePath := by
  intro heq
  have hlength := congrArg List.length heq
  have hdot : (ascii ".").length = 1 := by decide
  simp only [UsageCtx.tmpPath, length_append, hdot] at hlength
  omega

theorem verdict_kept {rc : Int} (hfailed : UsageFailed ctx seen) (hfine : UsageFine seen)
    (hkept : UsageUnlinks ctx seen → UsageKept ctx w₀ w' seen rc) : UsageVerdict ctx w₀ seen w' (.ret rc) := by
  intro hunlinks
  apply iff_of_true _ hfine
  exact ⟨fun _ => hkept hunlinks, fun hnot => absurd hfailed hnot⟩

theorem verdict_bad {rc : Int} (hfailed : UsageFailed ctx seen) (hbad : ¬ UsageFine seen) (hrc : rc = 0) :
    UsageVerdict ctx w₀ seen w' (.ret rc) := by
  intro _
  apply iff_of_false _ hbad
  intro hsafe
  have hminus := (hsafe.1 hfailed).rc_eq
  omega

/-- An entry that neither opens nor closes, and none of those that the code is not ready for. -/
structure PlainEntry (entry : UsageEntry) : Prop where
  opens : ∀ path, entry.1 ≠ .openPut path
  closes : ∀ fd, entry.1 ≠ .close fd
  said : ¬ UnsaidFailure entry
  renames : ¬ UsageRenamed entry
  divides : ¬ UsageTraps entry

/-- The file has been opened, and closed if `closed` says so; it has not been renamed. -/
structure UsageWriting (ctx : UsageCtx) (w₀ w : UsageFiles) (fd : Fd) (closed : Bool) (seen : UsageTrace) : Prop where
  usage : w.files ctx.usagePath = w₀.files ctx.usagePath
  fds : closed = false → w.fds fd = some ctx.tmpPath
  opened : ∀ fd', ⟨.openPut ctx.tmpPath, .ok fd'⟩ ∈ seen ↔ fd' = fd
  closes : ∀ fd', seen.countP (fun entry => entry.1 = .close fd') = if closed ∧ fd' = fd then 1 else 0
  said : ∀ entry ∈ seen, ¬ UnsaidFailure entry
  renames : ∀ entry ∈ seen, ¬ UsageRenamed entry
  divides : ∀ entry ∈ seen, ¬ UsageTraps entry
  ne_nil : seen ≠ []

theorem forall_mem_concat {P : UsageEntry → Prop}
    {last : UsageEntry} (h : ∀ entry ∈ seen, P entry) (hlast : P last) :
    ∀ entry ∈ seen ++ [last], P entry := by
  intro other hother
  rcases mem_append.mp hother with hmem | hmem
  · exact h other hmem
  · rw [mem_singleton.mp hmem]
    exact hlast

section Stages

variable {closed : Bool}

theorem UsageWriting.plain (h : UsageWriting ctx w₀ w fd closed seen) (entry : UsageEntry)
    (hplain : PlainEntry entry) (husage : w'.files ctx.usagePath = w.files ctx.usagePath) (hfds : w'.fds = w.fds) :
    UsageWriting ctx w₀ w' fd closed (seen ++ [entry]) where
  usage := husage.trans h.usage
  fds := by
    rw [hfds]
    exact h.fds
  opened fd' := by
    rw [mem_append, h.opened, mem_singleton, or_iff_left]
    intro heq
    exact hplain.opens _ (congrArg Sigma.fst heq).symm
  closes fd' := by
    have hcount : [entry].countP (fun entry => entry.1 = .close fd') = 0 := by simp [hplain.closes fd']
    rw [countP_append, h.closes, hcount, Nat.add_zero]
  said := forall_mem_concat h.said hplain.said
  renames := forall_mem_concat h.renames hplain.renames
  divides := forall_mem_concat h.divides hplain.divides
  ne_nil := by simp

theorem UsageWriting.asked (h : UsageWriting ctx w₀ w fd closed seen) (entry : UsageEntry) (hplain : PlainEntry entry) :
    UsageWriting ctx w₀ w fd closed (seen ++ [entry]) := h.plain entry hplain rfl rfl

theorem UsageWriting.close {answer : Closed} (h : UsageWriting ctx w₀ w fd false seen)
    (hclose : usageHandles w () (.close fd) answer w') :
    answer ≠ .EBADF ∧ UsageWriting ctx w₀ w' fd true (seen ++ [⟨.close fd, answer⟩]) := by
  obtain ⟨hbad, rfl⟩ := hclose
  constructor
  · intro heq
    have hnone := hbad.mp heq
    rw [h.fds rfl] at hnone
    cases hnone
  · exact {
      usage := h.usage
      fds := nofun
      opened := by
        intro fd'
        rw [mem_append, h.opened, mem_singleton, or_iff_left]
        intro heq
        cases congrArg Sigma.fst heq
      closes := by
        intro fd'
        rw [countP_append, h.closes, countP_singleton]
        by_cases heq : fd' = fd
        · simp [heq]
        · simp [heq, Ne.symm heq]
      said := forall_mem_concat h.said id
      renames := forall_mem_concat h.renames id
      divides := forall_mem_concat h.divides id
      ne_nil := by simp }

theorem UsageWriting.closedOnce (h : UsageWriting ctx w₀ w fd true seen) : ClosedOnce ctx seen where
  once fd' hopened := by rw [h.closes, if_pos ⟨rfl, (h.opened fd').mp hopened⟩]
  none_else fd' hnot := by
    rw [h.closes, if_neg]
    rintro ⟨-, heq⟩
    exact hnot ((h.opened fd').mpr heq)

theorem UsageWriting.fine (h : UsageWriting ctx w₀ w fd closed seen) : UsageFine seen where
  said := h.said
  full _ := h.renames
  divides := h.divides

theorem unlink_frame {answer : Except Errno Unit} (hunlink : usageHandles w () (.unlink ctx.tmpPath) answer w') :
    w'.files ctx.usagePath = w.files ctx.usagePath ∧ w'.fds = w.fds := by
  cases answer with
  | ok _ =>
    obtain ⟨-, rfl⟩ := hunlink
    exact ⟨Function.update_of_ne (tmpPath_ne ctx).symm .., rfl⟩
  | error e =>
    obtain ⟨-, rfl⟩ := hunlink
    exact ⟨rfl, rfl⟩

/-- The temporary file is gone behind the last `unlink`. -/
theorem unlink_tmp {answer : Except Errno Unit} (rest : UsageTrace)
    (hunlink : usageHandles w () (.unlink ctx.tmpPath) answer w') (hseen : seen ≠ [])
    (hunlinks : UsageUnlinks ctx (seen ++ [⟨.unlink ctx.tmpPath, answer⟩] ++ rest)) : w'.files ctx.tmpPath = none := by
  cases answer with
  | ok _ =>
    obtain ⟨-, rfl⟩ := hunlink
    exact Function.update_self ..
  | error e =>
    obtain ⟨hnone, rfl⟩ := hunlink
    apply hnone
    apply hunlinks
    rw [append_assoc, tail_append_of_ne_nil hseen]
    simp

theorem plain_unlink (ctx : UsageCtx) (answer : Except Errno Unit) : PlainEntry ⟨.unlink ctx.tmpPath, answer⟩ :=
  ⟨nofun, nofun, id, id, id⟩

/-- A failure while the file is open. -/
theorem ends_out_open (h : UsageWriting ctx w₀ w fd false seen) (hfails : ∃ entry ∈ seen, UsageFails entry)
    (errno : Errno) :
    (mkusageOut ctx (some fd) (some errno)).Ends usageHandles () (fun trace => UsageVerdict ctx w₀ (seen ++ trace))
      w := by
  refine ends_ask_seen fun answer w₁ hunlink => ends_ask_seen fun closed w₂ hclose => ?_
  obtain ⟨husage, hfds⟩ := unlink_frame hunlink
  obtain ⟨hbad, hshut⟩ := (h.plain _ (plain_unlink ctx answer) husage hfds).close hclose
  apply ends_require_bind
  · intro hfalse
    exact absurd (of_decide_eq_false hfalse) (not_not_intro hbad)
  intro _
  apply ends_ret
  rw [append_nil]
  obtain ⟨entry, hmem, hfail⟩ := hfails
  refine verdict_kept (Or.inr ⟨entry, by simp [hmem], hfail⟩) hshut.fine fun hunlinks => ?_
  refine ⟨hshut.usage, ?_, hshut.closedOnce, rfl⟩
  have htmp := unlink_tmp _ hunlink h.ne_nil hunlinks
  obtain ⟨-, rfl⟩ := hclose
  exact htmp

/-- A failure behind `close`. -/
theorem ends_out_closed (h : UsageWriting ctx w₀ w fd true seen) (hfails : ∃ entry ∈ seen, UsageFails entry)
    (errno : Errno) :
    (mkusageOut ctx none (some errno)).Ends usageHandles () (fun trace => UsageVerdict ctx w₀ (seen ++ trace)) w := by
  refine ends_ask_seen fun answer w₁ hunlink => ?_
  obtain ⟨husage, hfds⟩ := unlink_frame hunlink
  have hdone := h.plain _ (plain_unlink ctx answer) husage hfds
  apply ends_ret
  obtain ⟨entry, hmem, hfail⟩ := hfails
  rw [append_nil]
  refine verdict_kept (Or.inr ⟨entry, by simp [hmem], hfail⟩) hdone.fine fun hunlinks => ?_
  refine ⟨hdone.usage, unlink_tmp [] hunlink h.ne_nil ?_, hdone.closedOnce, rfl⟩
  rwa [append_nil]

/-- What `rename` has to find: the record was written, or `ENOSPC` was overlooked. -/
structure UsageWritten (ctx : UsageCtx) (w : UsageFiles) (seen : UsageTrace) : Prop where
  some_tmp : w.files ctx.tmpPath ≠ none
  whole : (∀ entry ∈ seen, ¬ UsageFails entry) → ∃ fd v now device record, ⟨.fstatvfs fd, .ok v⟩ ∈ seen ∧
    ⟨.time, now⟩ ∈ seen ∧ ⟨.mntAcquire, device⟩ ∈ seen ∧ ctx.record now device v = .text record ∧
    w.files ctx.tmpPath = some record
  full : (∃ entry ∈ seen, UsageFails entry) → ∃ entry ∈ seen, FullDisk entry

theorem UsageWritten.plain {entry : UsageEntry} (h : UsageWritten ctx w seen)
    (hentry : ¬ UsageFails entry) (htmp : w'.files ctx.tmpPath = w.files ctx.tmpPath) :
    UsageWritten ctx w' (seen ++ [entry]) where
  some_tmp := by
    rw [htmp]
    exact h.some_tmp
  whole hnone := by
    obtain ⟨fd, v, now, device, record, hv, hnow, hdevice, hrecord, hwhole⟩ :=
      h.whole fun entry hmem => hnone entry (mem_append_left _ hmem)
    exact ⟨fd, v, now, device, record, mem_append_left _ hv, mem_append_left _ hnow,
      mem_append_left _ hdevice, hrecord, htmp.trans hwhole⟩
  full := by
    rintro ⟨other, hmem, hfail⟩
    rcases mem_append.mp hmem with hmem | hmem
    · obtain ⟨full, hfull, hdisk⟩ := h.full ⟨other, hmem, hfail⟩
      exact ⟨full, mem_append_left _ hfull, hdisk⟩
    · rw [mem_singleton.mp hmem] at hfail
      exact absurd hfail hentry

theorem ends_rename (h : UsageWriting ctx w₀ w fd true seen) (hwritten : UsageWritten ctx w seen) :
    (mkusageRename ctx).Ends usageHandles () (fun trace => UsageVerdict ctx w₀ (seen ++ trace)) w := by
  refine ends_ask_seen fun answer w₁ hrename => ?_
  cases answer with
  | error errno =>
    obtain rfl : w₁ = w := hrename
    have hdone := h.asked ⟨.rename ctx.tmpPath ctx.usagePath, .error errno⟩ ⟨nofun, nofun, id, id, id⟩
    exact ends_out_closed hdone ⟨_, mem_append_right _ (mem_singleton_self _), trivial⟩ errno
  | ok done =>
    obtain ⟨-, rfl⟩ := hrename
    apply ends_ret
    rw [append_nil]
    have hlast : ∀ {P : UsageEntry → Prop}, (∀ entry ∈ seen, ¬ P entry) →
        ¬ P ⟨.rename ctx.tmpPath ctx.usagePath, .ok done⟩ →
        ∀ entry ∈ seen ++ [⟨.rename ctx.tmpPath ctx.usagePath, .ok done⟩], ¬ P entry := forall_mem_concat
    by_cases hfails : ∃ entry ∈ seen, UsageFails entry
    -- `emit_usage` has seen the full disk, and its caller has not
    · obtain ⟨full, hfull, hdisk⟩ := hwritten.full hfails
      obtain ⟨entry, hmem, hfail⟩ := hfails
      refine verdict_bad (Or.inr ⟨entry, mem_append_left _ hmem, hfail⟩) ?_ rfl
      intro hfine
      have hrenamed := hfine.full ⟨full, mem_append_left _ hfull, hdisk⟩
      exact hrenamed _ (mem_append_right _ (mem_singleton_self _)) trivial
    · have hnone : ∀ entry ∈ seen, ¬ UsageFails entry := fun entry hmem hfail => hfails ⟨entry, hmem, hfail⟩
      obtain ⟨fd', v, now, device, record, hv, hnow, hdevice, hrecord, htmp⟩ := hwritten.whole hnone
      have hsucceeded : ¬ UsageFailed ctx (seen ++ [⟨.rename ctx.tmpPath ctx.usagePath, .ok done⟩]) := by
        rintro (hunopened | ⟨entry, hmem, hfail⟩)
        · exact hunopened fd (mem_append_left _ ((h.opened fd).mpr rfl))
        · exact hlast hnone id entry hmem hfail
      intro _
      apply iff_of_true
      · refine ⟨fun hfailed => absurd hfailed hsucceeded, fun _ => ⟨?_, Function.update_self .., ?_, rfl⟩⟩
        · refine ⟨fd', v, now, device, record, mem_append_left _ hv, mem_append_left _ hnow,
            mem_append_left _ hdevice, hrecord, ?_⟩
          dsimp only
          rw [Function.update_of_ne (tmpPath_ne ctx).symm, Function.update_self, htmp]
        · constructor
          · intro fd' hopened
            have hmem : ⟨.openPut ctx.tmpPath, .ok fd'⟩ ∈ seen := by simpa using hopened
            rw [countP_append, h.closedOnce.once fd' hmem]
            simp
          · intro fd' hopened
            have hmem : ⟨.openPut ctx.tmpPath, .ok fd'⟩ ∉ seen := by simpa using hopened
            rw [countP_append, h.closedOnce.none_else fd' hmem]
            simp
      · refine ⟨hlast h.said id, ?_, hlast h.divides id⟩
        rintro ⟨entry, hmem, hdisk⟩
        refine absurd hdisk (hlast ?_ id entry hmem)
        intro entry hmem hdisk
        apply hnone entry hmem
        rcases entry with ⟨request, answer⟩
        cases request with
        | dprintf fd text => exact Or.inr hdisk.2
        | _ => exact hdisk.elim

/-- `close` and what follows it. -/
theorem ends_close (h : UsageWriting ctx w₀ w fd false seen) (hwritten : UsageWritten ctx w seen) :
    (mkusageClose ctx fd).Ends usageHandles () (fun trace => UsageVerdict ctx w₀ (seen ++ trace)) w := by
  refine ends_ask_seen fun answer w₁ hclose => ?_
  obtain ⟨hbad, hshut⟩ := h.close hclose
  have hrename : ¬ UsageFails ⟨.close fd, answer⟩ → (mkusageRename ctx).Ends usageHandles ()
      (fun trace => UsageVerdict ctx w₀ (seen ++ [⟨.close fd, answer⟩] ++ trace)) w₁ := by
    intro hfine
    apply ends_rename hshut
    apply hwritten.plain hfine
    rw [hclose.2]
  cases answer with
  | ok => exact hrename id
  | EBADF => exact absurd rfl hbad
  | error errno =>
    by_cases hintr : errno = .EINTR
    · subst hintr
      exact hrename (not_not_intro rfl)
    · have hrun := ends_out_closed hshut ⟨_, mem_append_right _ (mem_singleton_self _), hintr⟩ errno
      cases errno with
      | EINTR => exact absurd rfl hintr
      | _ => exact hrun

/-- `dprintf` has failed and `errno` is zero: nothing is removed, and nothing is reported. -/
theorem ends_out_unsaid {text : Bytes} {rc : Int} (h : UsageWriting ctx w₀ w fd false seen) (hneg : rc < 0)
    (hfds : w'.fds = w.fds) :
    (mkusageOut ctx (some fd) none).Ends usageHandles ()
      (fun trace => UsageVerdict ctx w₀ (seen ++ [⟨.dprintf fd text, (rc, none)⟩] ++ trace)) w' := by
  refine ends_ask_seen fun answer w₁ hclose => ?_
  have hmem : (⟨.dprintf fd text, (rc, none)⟩ : UsageEntry) ∈
      seen ++ [⟨.dprintf fd text, (rc, none)⟩] ++ [⟨.close fd, answer⟩] := by simp
  apply ends_require_bind
  · intro hfalse
    have hnone := hclose.1.mp (of_not_not (of_decide_eq_false hfalse))
    rw [hfds, h.fds rfl] at hnone
    cases hnone
  intro _
  apply ends_ret
  rw [append_nil]
  refine verdict_bad (Or.inr ⟨_, hmem, Or.inl hneg⟩) ?_ rfl
  intro hfine
  exact hfine.said _ hmem ⟨hneg, rfl⟩

/-- `fchmod` and what follows it. -/
theorem ends_fchmod (h : UsageWriting ctx w₀ w fd false seen) (hwritten : UsageWritten ctx w seen) :
    (mkusageChmod ctx fd).Ends usageHandles () (fun trace => UsageVerdict ctx w₀ (seen ++ trace)) w := by
  refine ends_ask_seen fun answer w₁ hfchmod => ?_
  cases answer with
  | error errno =>
    obtain rfl : w₁ = w := hfchmod
    have hdone := h.asked ⟨.fchmod fd, .error errno⟩ ⟨nofun, nofun, id, id, id⟩
    exact ends_out_open hdone ⟨_, mem_append_right _ (mem_singleton_self _), trivial⟩ errno
  | ok done =>
    obtain rfl : w₁ = w := hfchmod
    have hdone := h.asked ⟨.fchmod fd, .ok done⟩ ⟨nofun, nofun, id, id, id⟩
    exact ends_close hdone (hwritten.plain id rfl)

theorem record_trap {now : Int} {device : Option Bytes} {v : Statvfs} (huse : v.use ≠ none) :
    ctx.record now device v ≠ .trap := by
  unfold UsageCtx.record emitUsage
  cases huse' : v.use with
  | none => exact absurd huse' huse
  | some use => cases device <;> simp

theorem record_noMount {now : Int} {device : Option Bytes} {v : Statvfs} (h : ctx.record now device v = .noMount) :
    device = none := by
  unfold UsageCtx.record emitUsage at h
  cases device with
  | none => rfl
  | some device => cases huse : v.use <;> simp [huse] at h

theorem record_text {now : Int} {device : Option Bytes} {v : Statvfs} {usage : Bytes}
    (h : ctx.record now device v = .text usage) : device ≠ none := by
  intro hnone
  subst hnone
  unfold UsageCtx.record emitUsage at h
  cases huse : v.use <;> simp [huse] at h

/-- `dprintf` has not failed: the record is in the file unless `ENOSPC` was left behind. -/
theorem written_dprintf {v : Statvfs} {now : Int} {device : Option Bytes} {usage : Bytes} {rc : Int}
    {errno : Option Errno} (hnone : ∀ entry ∈ seen, ¬ UsageFails entry) (hv : ⟨.fstatvfs fd, .ok v⟩ ∈ seen)
    (hnow : ⟨.time, now⟩ ∈ seen) (hdevice : ⟨.mntAcquire, device⟩ ∈ seen)
    (hrecord : ctx.record now device v = .text usage) (hpos : 0 ≤ rc) (hsome : w.files ctx.tmpPath ≠ none)
    (hwhole : errno ≠ some .ENOSPC → w.files ctx.tmpPath = some usage) :
    UsageWritten ctx w (seen ++ [⟨.dprintf fd usage, (rc, errno)⟩]) where
  some_tmp := hsome
  whole hfine := by
    refine ⟨fd, v, now, device, usage, mem_append_left _ hv, mem_append_left _ hnow,
      mem_append_left _ hdevice, hrecord, hwhole fun hfull => ?_⟩
    exact hfine _ (mem_append_right _ (mem_singleton_self _)) (Or.inr hfull)
  full := by
    intro ⟨entry, hmem, hfail⟩
    rcases mem_append.mp hmem with hmem | hmem
    · exact absurd hfail (hnone entry hmem)
    · rw [mem_singleton.mp hmem] at hfail
      exact ⟨_, mem_append_right _ (mem_singleton_self _), hpos, hfail.resolve_left (Int.not_lt.mpr hpos)⟩

/-- `emit_usage` and what follows it. -/
theorem ends_emit {v : Statvfs} (h : UsageWriting ctx w₀ w fd false seen) (htmp : w.files ctx.tmpPath = some [])
    (hnone : ∀ entry ∈ seen, ¬ UsageFails entry) (hv : ⟨.fstatvfs fd, .ok v⟩ ∈ seen) (huse : v.use ≠ none) :
    (mkusageEmit ctx fd v).Ends usageHandles () (fun trace => UsageVerdict ctx w₀ (seen ++ trace)) w := by
  unfold mkusageEmit emitUsageTo
  rw [decide_eq_true huse, require_true, ret_bind, bind_assoc]
  refine ends_ask_seen fun now w₁ hnow => ?_
  obtain rfl : w₁ = w := hnow
  rw [bind_assoc]
  refine ends_ask_seen fun device w₂ hdevice => ?_
  obtain rfl : w₂ = w₁ := hdevice
  have hasked := (h.asked ⟨.time, now⟩ ⟨nofun, nofun, id, id, id⟩).asked ⟨.mntAcquire, device⟩
    ⟨nofun, nofun, id, id, id⟩
  cases hrecord : ctx.record now device v with
  | trap => exact absurd hrecord (record_trap huse)
  | noMount =>
    obtain rfl := record_noMount hrecord
    exact ends_out_open hasked ⟨_, mem_append_right _ (mem_singleton_self _), trivial⟩ .other
  | text usage =>
    refine ends_ask_seen fun answer w₃ hdprintf => ?_
    obtain ⟨rc, errno⟩ := answer
    obtain ⟨path, old, kept, hpath, hold, hkept, hwhole, rfl⟩ := hdprintf
    obtain rfl : path = ctx.tmpPath := Option.some.inj (hpath.symm.trans (h.fds rfl))
    obtain rfl : old = [] := Option.some.inj (hold.symm.trans htmp)
    have husage : Function.update w₂.files ctx.tmpPath (some kept) ctx.usagePath =
        w₂.files ctx.usagePath := Function.update_of_ne (tmpPath_ne ctx).symm ..
    dsimp only
    rw [nil_append]
    split
    -- a negative number: the rest depends on `errno`
    · rename_i hneg
      cases errno with
      | none => exact ends_out_unsaid hasked hneg rfl
      | some errno =>
        apply ends_out_open
        · exact hasked.plain _ ⟨nofun, nofun, nofun, id, id⟩ husage rfl
        · exact ⟨_, mem_append_right _ (mem_singleton_self _), Or.inl hneg⟩
    · rename_i hpos
      apply ends_fchmod
      · exact hasked.plain _ ⟨nofun, nofun, fun hunsaid => hpos hunsaid.1, id, id⟩ husage rfl
      · have hmount : ¬ UsageFails ⟨.mntAcquire, device⟩ := by
          cases device with
          | none => exact absurd rfl (record_text hrecord)
          | some device => exact id
        refine written_dprintf (forall_mem_concat (forall_mem_concat hnone id) hmount) (by simp [hv]) (by simp)
          (by simp) hrecord (Int.not_lt.mp hpos) (by simp) fun hspace => ?_
        rw [← hwhole (Int.not_lt.mp hpos) hspace]
        exact Function.update_self ..

/-- `fstatvfs` and what follows it. -/
theorem ends_write (h : UsageWriting ctx w₀ w fd false seen) (htmp : w.files ctx.tmpPath = some [])
    (hnone : ∀ entry ∈ seen, ¬ UsageFails entry) :
    (mkusageWrite ctx fd).Ends usageHandles () (fun trace => UsageVerdict ctx w₀ (seen ++ trace)) w := by
  refine ends_ask_seen fun answer w₁ hfstatvfs => ?_
  cases answer with
  | error errno =>
    obtain rfl : w₁ = w := hfstatvfs
    have hdone := h.asked ⟨.fstatvfs fd, .error errno⟩ ⟨nofun, nofun, id, id, id⟩
    exact ends_out_open hdone ⟨_, mem_append_right _ (mem_singleton_self _), trivial⟩ errno
  | ok v =>
    obtain rfl : w₁ = w := hfstatvfs
    by_cases huse : v.use = none
    -- the division traps
    · have hmem : (⟨.fstatvfs fd, .ok v⟩ : UsageEntry) ∈
          seen ++ [⟨.fstatvfs fd, .ok v⟩] := mem_append_right _ (mem_singleton_self _)
      have htraps : (mkusageEmit ctx fd v) = abort := by
        unfold mkusageEmit emitUsageTo
        rw [decide_eq_false (not_not_intro huse)]
        rfl
      dsimp only
      rw [htraps]
      intro _
      apply iff_of_false id
      intro hfine
      rw [append_nil] at hfine
      exact hfine.divides _ hmem huse
    · have hdone := h.asked ⟨.fstatvfs fd, .ok v⟩ ⟨nofun, nofun, id, id, huse⟩
      exact ends_emit hdone htmp (forall_mem_concat hnone id)
        (mem_append_right _ (mem_singleton_self _)) huse

/-- No `open` has succeeded yet. -/
structure UsageUnopened (ctx : UsageCtx) (w₀ w : UsageFiles) (seen : UsageTrace) : Prop where
  usage : w.files ctx.usagePath = w₀.files ctx.usagePath
  opened : ∀ fd, ⟨.openPut ctx.tmpPath, .ok fd⟩ ∉ seen
  closes : ∀ fd, seen.countP (fun entry => entry.1 = .close fd) = 0
  said : ∀ entry ∈ seen, ¬ UnsaidFailure entry
  renames : ∀ entry ∈ seen, ¬ UsageRenamed entry
  divides : ∀ entry ∈ seen, ¬ UsageTraps entry
  fails : ∀ entry ∈ seen, ¬ UsageFails entry

theorem UsageUnopened.plain (h : UsageUnopened ctx w₀ w seen) (entry : UsageEntry)
    (hopens : ∀ fd, entry ≠ ⟨.openPut ctx.tmpPath, .ok fd⟩) (hcloses : ∀ fd, entry.1 ≠ .close fd)
    (hentry : ¬ UnsaidFailure entry ∧ ¬ UsageRenamed entry ∧ ¬ UsageTraps entry ∧ ¬ UsageFails entry)
    (husage : w'.files ctx.usagePath = w.files ctx.usagePath) : UsageUnopened ctx w₀ w' (seen ++ [entry]) where
  usage := husage.trans h.usage
  opened fd hmem := by
    rcases mem_append.mp hmem with hmem | hmem
    · exact h.opened fd hmem
    · exact hopens fd (mem_singleton.mp hmem).symm
  closes fd := by
    rw [countP_append, h.closes, Nat.zero_add, countP_singleton, if_neg]
    simpa using hcloses fd
  said := forall_mem_concat h.said hentry.1
  renames := forall_mem_concat h.renames hentry.2.1
  divides := forall_mem_concat h.divides hentry.2.2.1
  fails := forall_mem_concat h.fails hentry.2.2.2

/-- The file could not be opened. -/
theorem ends_out_unopened (h : UsageUnopened ctx w₀ w seen) (hseen : seen ≠ []) (errno : Errno) :
    (mkusageOut ctx none (some errno)).Ends usageHandles () (fun trace => UsageVerdict ctx w₀ (seen ++ trace)) w := by
  refine ends_ask_seen fun answer w₁ hunlink => ?_
  have hdone := h.plain ⟨.unlink ctx.tmpPath, answer⟩ nofun nofun ⟨id, id, id, id⟩ (unlink_frame hunlink).1
  apply ends_ret
  rw [append_nil]
  refine verdict_kept (Or.inl hdone.opened) ⟨hdone.said, fun _ => hdone.renames, hdone.divides⟩ fun hunlinks => ?_
  refine ⟨hdone.usage, unlink_tmp [] hunlink hseen ?_, ?_, rfl⟩
  · rwa [append_nil]
  · exact ⟨fun fd hmem => absurd hmem (hdone.opened fd), fun fd _ => hdone.closes fd⟩

/-- The file has just been created. -/
theorem UsageUnopened.open (h : UsageUnopened ctx w₀ w seen)
    (hopen : usageHandles w () (.openPut ctx.tmpPath) (.ok fd) w') :
    UsageWriting ctx w₀ w' fd false (seen ++ [⟨.openPut ctx.tmpPath, .ok fd⟩]) ∧ w'.files ctx.tmpPath = some [] := by
  obtain ⟨-, -, rfl⟩ := hopen
  constructor
  · exact {
      usage := (Function.update_of_ne (tmpPath_ne ctx).symm ..).trans h.usage
      fds := fun _ => Function.update_self ..
      opened := by
        intro fd'
        rw [mem_append, or_iff_right (h.opened fd'), mem_singleton]
        constructor
        · intro heq
          cases heq
          rfl
        · intro heq
          rw [heq]
      closes := by
        intro fd'
        rw [countP_append, h.closes]
        simp
      said := forall_mem_concat h.said id
      renames := forall_mem_concat h.renames id
      divides := forall_mem_concat h.divides id
      ne_nil := by simp }
  · exact Function.update_self ..

theorem ends_reopen (h : UsageUnopened ctx w₀ w seen) :
    (mkusageReopen ctx).Ends usageHandles () (fun trace => UsageVerdict ctx w₀ (seen ++ trace)) w := by
  refine ends_ask_seen fun answer w₁ hopen => ?_
  cases answer with
  | error errno =>
    obtain rfl : w₁ = w := hopen
    have hdone := h.plain ⟨.openPut ctx.tmpPath, .error errno⟩ nofun nofun ⟨id, id, id, id⟩ rfl
    exact ends_out_unopened hdone (by simp) errno
  | ok fd =>
    obtain ⟨hwriting, htmp⟩ := h.open hopen
    exact ends_write hwriting htmp (forall_mem_concat h.fails id)

/-- An `open` that failed may be tried once more. -/
theorem ends_retry (h : UsageUnopened ctx w₀ w seen) (hseen : seen ≠ []) (errno : Errno) :
    (mkusageRetry ctx errno).Ends usageHandles () (fun trace => UsageVerdict ctx w₀ (seen ++ trace)) w := by
  have hexpire : (do
      let (expired, left) ← usageSys .fdmapExpire
      if 0 < expired then mkusageReopen ctx else mkusageOut ctx none (some left) : UsageIo Int).Ends usageHandles ()
      (fun trace => UsageVerdict ctx w₀ (seen ++ trace)) w := by
    refine ends_ask_seen fun answer w₁ hexpire => ?_
    obtain ⟨expired, left⟩ := answer
    obtain rfl : w₁ = w := hexpire
    have hdone := h.plain ⟨.fdmapExpire, (expired, left)⟩ nofun nofun ⟨id, id, id, id⟩ rfl
    dsimp only
    split
    · exact ends_reopen hdone
    · exact ends_out_unopened hdone (by simp) left
  cases errno with
  | ENFILE => exact hexpire
  | EMFILE => exact hexpire
  | ENOMEM => exact hexpire
  | _ => exact ends_out_unopened h hseen _

theorem ends_open (h : UsageUnopened ctx w₀ w seen) :
    (mkusageOpen ctx).Ends usageHandles () (fun trace => UsageVerdict ctx w₀ (seen ++ trace)) w := by
  refine ends_ask_seen fun answer w₁ hopen => ?_
  cases answer with
  | error errno =>
    obtain rfl : w₁ = w := hopen
    have hdone := h.plain ⟨.openPut ctx.tmpPath, .error errno⟩ nofun nofun ⟨id, id, id, id⟩ rfl
    exact ends_retry hdone (by simp) errno
  | ok fd =>
    obtain ⟨hwriting, htmp⟩ := h.open hopen
    exact ends_write hwriting htmp (forall_mem_concat h.fails id)

theorem ends_mkusage (ctx : UsageCtx) (w : UsageFiles) :
    (mogDevMkusage ctx).Ends usageHandles () (UsageVerdict ctx w) w := by
  have hstart : UsageUnopened ctx w w [] := ⟨rfl, by simp, by simp, by simp, by simp, by simp, by simp⟩
  rw [show UsageVerdict ctx w = fun trace => UsageVerdict ctx w ([] ++ trace) from rfl]
  apply ends_ask_seen
  intro answer w₁ hunlink
  have hdone := hstart.plain ⟨.unlink ctx.tmpPath, answer⟩ nofun nofun ⟨id, id, id, id⟩
    (unlink_frame hunlink).1
  cases answer with
  | ok done => exact ends_open hdone
  | error errno =>
    cases errno with
    | ENOENT => exact ends_open hdone
    | _ => exact ends_out_unopened hdone (by simp) _

end Stages

/-- **The usage file is replaced by a complete one or not at all**, just when `emit_usage` neither finds an empty
file system, nor a full disk, nor a write that fails and leaves `errno` alone. -/
theorem usage_replaced_iff {trace : UsageTrace} {q : UsageIo Int} (hruns : Runs (mogDevMkusage ctx) trace q)
    (hended : q.Ended) (hhandled : Handled usageHandles () w trace w') (hunlinks : UsageUnlinks ctx trace) :
    UsageSafe ctx w w' trace q ↔ UsageFine trace :=
  (ends_mkusage ctx w).of_runs hruns hended hhandled hunlinks

/-! ### A run -/

/-- The calls when nothing is in the way of the code; `dprintf` returns the length, and leaves `errno` behind. -/
def usageCalls (ctx : UsageCtx) (fd : Fd) (v : Statvfs) (now : Int) (device usage : Bytes) (errno : Option Errno) :
    UsageTrace :=
  [⟨.unlink ctx.tmpPath, .error .ENOENT⟩, ⟨.openPut ctx.tmpPath, .ok fd⟩, ⟨.fstatvfs fd, .ok v⟩] ++
    [⟨.time, now⟩, ⟨.mntAcquire, some device⟩, ⟨.dprintf fd usage, (usage.length, errno)⟩] ++
    [⟨.fchmod fd, .ok ()⟩, ⟨.close fd, .ok⟩, ⟨.rename ctx.tmpPath ctx.usagePath, .ok ()⟩]

section Run

variable {v : Statvfs} {now : Int} {device usage : Bytes}

theorem usageCalls_runs (fd : Fd) (hrecord : ctx.record now (some device) v = .text usage) (errno : Option Errno) :
    Runs (mogDevMkusage ctx) (usageCalls ctx fd v now device usage errno) (.ret 0) := by
  have huse : v.use ≠ none := by
    intro hnone
    simp [UsageCtx.record, emitUsage, hnone] at hrecord
  have hpos : ¬ (usage.length : Int) < 0 := by omega
  apply Runs.append (q := mkusageChmod ctx fd)
  · apply Runs.append (q := mkusageEmit ctx fd v)
    · exact .cons (.cons (.cons (.nil _)))
    · unfold mkusageEmit emitUsageTo
      rw [decide_eq_true huse, require_true, ret_bind, bind_assoc]
      apply Runs.ask_bind
      rw [bind_assoc]
      apply Runs.ask_bind
      rw [hrecord]
      apply Runs.ask_bind
      dsimp only
      rw [if_neg hpos]
      exact .nil _
  · exact .cons (.cons (.cons (.nil _)))

/-- From a world without files. -/
theorem usageCalls_handled {kept : Bytes} {errno : Option Errno} (hkept : kept <+: usage)
    (hwhole : errno ≠ some .ENOSPC → kept = usage) :
    ∃ w, Handled usageHandles () ⟨fun _ => none, fun _ => none⟩ (usageCalls ctx fd v now device usage errno) w := by
  refine ⟨_, .cons ⟨fun _ => rfl, rfl⟩ (.cons ⟨rfl, rfl, rfl⟩ (.cons rfl (.cons rfl (.cons rfl (.cons
    ⟨ctx.tmpPath, [], kept, ?_, ?_, hkept, fun _ => hwhole, rfl⟩
    (.cons rfl (.cons ⟨?_, rfl⟩ (.cons ⟨?_, rfl⟩ (.nil _)))))))))⟩
  · exact Function.update_self ..
  · exact Function.update_self ..
  · simp
  · simp

end Run

/-- A device of one docroot, and the counters of its file system. -/
def usageSample : UsageCtx := ⟨ascii "/var/mogdata", ascii "/dev1", 7, fun _ blocks => blocks⟩

def usageSampleCounters : Statvfs := ⟨1024, 100, 50, 50⟩

/-- The record fits on the disk, and is put in place. -/
theorem usage_replaced_sample : ∃ trace w', Runs (mogDevMkusage usageSample) trace (.ret 0) ∧
    UsageSafe usageSample ⟨fun _ => none, fun _ => none⟩ w' trace (.ret 0) := by
  have hrecord : ∃ usage, usageSample.record 0 (some (ascii "sda1")) usageSampleCounters = .text usage := ⟨_, rfl⟩
  obtain ⟨usage, hrecord⟩ := hrecord
  have hruns := usageCalls_runs 5 hrecord none
  obtain ⟨w', hhandled⟩ := usageCalls_handled (prefix_refl usage) fun _ => rfl
  refine ⟨_, w', hruns, (usage_replaced_iff hruns trivial hhandled ?_).mpr ⟨?_, ?_, ?_⟩⟩
  · simp [UsageUnlinks, usageCalls]
  · simp [UnsaidFailure, usageCalls]
  · simp [FullDisk, usageCalls]
  · simp [UsageTraps, usageCalls, usageSampleCounters]
    decide

/-- The disk is full: nothing of the record is written, the empty file is put in place and 0 is returned. -/
theorem usage_full_disk : ∃ trace w', Runs (mogDevMkusage usageSample) trace (.ret 0) ∧
    Handled usageHandles () ⟨fun _ => none, fun _ => none⟩ trace w' ∧ UsageUnlinks usageSample trace ∧
    UsageFailed usageSample trace ∧ ¬ UsageSafe usageSample ⟨fun _ => none, fun _ => none⟩ w' trace (.ret 0) := by
  have hrecord : ∃ usage, usageSample.record 0 (some (ascii "sda1")) usageSampleCounters = .text usage := ⟨_, rfl⟩
  obtain ⟨usage, hrecord⟩ := hrecord
  have hruns := usageCalls_runs 5 hrecord (some .ENOSPC)
  obtain ⟨w', hhandled⟩ := usageCalls_handled (List.nil_prefix (l := usage))
    fun hspace => absurd rfl hspace
  have hfailed : UsageFailed usageSample
      (usageCalls usageSample 5 usageSampleCounters 0 (ascii "sda1") usage (some .ENOSPC)) :=
    Or.inr ⟨⟨.dprintf 5 usage, (usage.length, some .ENOSPC)⟩, by simp [usageCalls], Or.inr rfl⟩
  refine ⟨_, w', hruns, hhandled, by simp [UsageUnlinks, usageCalls], hfailed, fun hsafe => ?_⟩
  cases (hsafe.1 hfailed).rc_eq

end Outcomes

end Cmogstored
