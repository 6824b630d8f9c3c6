import Cmogstored.Decimal
import Cmogstored.Mgmt

/-! `pidfile.c` and `upgrade.c`: the pid file of the daemon, and the upgrade to another binary. While an
upgrade is under way the file is free for the new process, and the daemon has its own pid in `.oldbin`. -/

namespace Cmogstored

open Prog

/-- `pid_t` -/
abbrev Pid := Int

/-- What the parent gets from `fork`. -/
abbrev Forked := { pid : Pid // pid = -1 ∨ 0 < pid }

/-- Whose process is forked. -/
inductive Role where
  | worker (id : Nat)
  | upgrade
  | iostat
  deriving DecidableEq, Repr

/-- The flags that a pid file is opened with. -/
inductive PidOpen where
  /-- `O_RDONLY` -/
  | read
  /-- `O_CREAT|O_RDWR` -/
  | oldbin
  /-- `O_TRUNC|O_CREAT|O_WRONLY` -/
  | restore
  deriving DecidableEq, Repr

/-- Which function asks whether a process is running. -/
inductive Asks where
  | unlinks | prepares | aborts
  deriving DecidableEq, Repr

/-- The signals that have come since the last time. -/
structure Signals where
  chld : Bool
  usr2 : Bool
  /-- `SIGQUIT`, `SIGTERM` or `SIGINT` -/
  quit : Bool
  deriving DecidableEq, Repr

inductive Waited where
  | reaped (pid : Pid) (status : Int)
  | none
  | EINTR
  | ECHILD
  | failed
  deriving DecidableEq, Repr

inductive DaemonCall where
  | openPid (path : Bytes) (flags : PidOpen)
  /-- `pread` of a pid file, from its beginning -/
  | pread (fd : Fd)
  | dprintf (fd : Fd) (text : Bytes)
  | close (fd : Fd)
  | unlink (path : Bytes)
  /-- `kill(pid, 0)`: whether there is no such process -/
  | esrch (pid : Pid) (asks : Asks)
  | openMemstream
  | fputs (text : Bytes)
  | fprintf (text : Bytes)
  | memstreamClose
  | fork (role : Role)
  /-- `mog_sleep`, which lets signals in -/
  | sleep (seconds : Nat)
  /-- `mog_selfwake_wait` and `mog_notify_wait` -/
  | wait
  | waitpid
  | pipe
  /-- the reading end of the pipe goes to the queue of the main thread -/
  | iostatAdd (fd : Fd)
  | kill (pid : Pid)
  /-- no call: the test of the loop of `run_master` -/
  | test (running : Nat)
  deriving DecidableEq

/-- `sizeof(pid_t) * 8 / 3 + 1` -/
def pidBufSize : Nat := 11

@[reducible] def DaemonRes : DaemonCall → Type
  | .openPid _ _ => Except Errno Fd
  /- the bytes that were read, and those that lie behind them in memory -/
  | .pread _ => Except Errno ({ data : Bytes // data.length ≤ pidBufSize } × Bytes)
  /- what it returned, whether `errno` is `ENOSPC`, and how many bytes are in the file if it failed -/
  | .dprintf _ _ => Int × Bool × Nat
  | .unlink _ => Except Errno Unit
  | .esrch _ _ => Bool
  | .openMemstream => Bool
  | .fputs _ => Bool
  | .fprintf _ => Bool
  | .memstreamClose => Bool
  | .fork _ => Forked
  | .sleep _ => Signals
  | .wait => Signals
  | .waitpid => Waited
  | .pipe => Except Errno (Fd × Fd)
  | _ => Unit

abbrev DaemonIo := Prog DaemonCall DaemonRes

abbrev daemonSys (request : DaemonCall) : DaemonIo (DaemonRes request) := Prog.ask request

/-- What stays the same while the daemon runs. -/
structure DaemonCtx where
  /-- `getpid()` -/
  self : Pid
  /-- `mgmt_fd`, `http_fd` and `httpget_fd` of the services -/
  svcFds : List (List Int)

/-- The static variables of `pidfile.c`. -/
structure Pidfile where
  pidfile : Option Bytes
  pidfileExists : Bool
  old : Option Bytes
  owner : Pid
  deriving DecidableEq, Repr

/-! ### Numbers -/

/-- `(pid_t)tmp` -/
def toPid (tmp : Int) : Pid := tmp.bmod (2 ^ 32)

/-- `"%d\n"` -/
def pidText (pid : Pid) : Bytes := lld pid ++ [LF]

/-! ### `pidfile.c` -/

def pidIsRunning (pid : Pid) (asks : Asks) : DaemonIo Bool := do
  if pid ≤ 0 then pure false
  else do
    let esrch ← daemonSys (.esrch pid asks)
    pure (!esrch)

def pidWrite (ctx : DaemonCtx) (fd : Fd) : DaemonIo Bool := do
  let (written, enospc, _) ← daemonSys (.dprintf fd (pidText ctx.self))
  pure (!(written ≤ 1 || enospc))

/-- `pidfile_read`: 0 if the file is empty, -1 on error. -/
def pidfileRead (fd : Fd) : DaemonIo Pid := do
  match ← daemonSys (.pread fd) with
  | .error _ => pure (-1)
  | .ok (data, behind) =>
    if data.val.length = 0 then pure 0
    else
      let (tmp, ending) := strtol (data.val ++ behind)
      if ending = LF && 0 < tmp && tmp < longMax then pure (toPid tmp) else pure (-1)

/-- The `do_unlink` label. -/
def doUnlink (path : Bytes) : DaemonIo Bool := do
  match ← daemonSys (.unlink path) with
  | .ok _ => pure true
  | .error .ENOENT => pure true
  | .error _ => pure false

def unlinkIfOwnerOrUnused (ctx : DaemonCtx) (path : Bytes) : DaemonIo Bool := do
  match ← daemonSys (.openPid path .read) with
  | .error .ENOENT => pure true
  | .error _ => pure false
  | .ok fd => do
    let pid ← pidfileRead fd
    daemonSys (.close fd)
    if pid = 0 then doUnlink path
    else if 0 < pid then
      if pid = ctx.self then doUnlink path
      else if !(← pidIsRunning pid .unlinks) then doUnlink path
      else pure false
    else pure false

/-- The name of the file that holds the pid of the old process. -/
def oldbinOf (pidfile : Bytes) : Bytes := pidfile ++ ascii ".oldbin"

/-- `mog_pidfile_upgrade_prepare` behind the removal of the pid file. -/
def prepareOldbin (ctx : DaemonCtx) (p : Pidfile) (old : Bytes) : DaemonIo (Bool × Pidfile) := do
  match ← daemonSys (.openPid old .oldbin) with
  | .error _ => pure (false, { p with old := none })
  | .ok fd => do
    let pid ← pidfileRead fd
    if ← pidIsRunning pid .prepares then do
      daemonSys (.close fd)
      pure (false, { p with old := none })
    else if ← pidWrite ctx fd then do
      daemonSys (.close fd)
      pure (true, { p with old := some old })
    else do
      daemonSys (.close fd)
      pure (false, { p with old := none })

def mogPidfileUpgradePrepare (ctx : DaemonCtx) (p : Pidfile) : DaemonIo (Bool × Pidfile) :=
  match p.pidfile with
  | none => pure (true, p)
  | some pidfile => do
    require (p.owner = ctx.self)
    if !(← unlinkIfOwnerOrUnused ctx pidfile) then pure (false, p)
    else do
      require (p.old = none)
      prepareOldbin ctx p (oldbinOf pidfile)

def upgradeFailed (p : Pidfile) (pidfile : Bytes) : DaemonIo Bool := do
  match ← daemonSys (.openPid pidfile .read) with
  | .error _ => pure true
  | .ok fd => do
    let pid ← pidfileRead fd
    daemonSys (.close fd)
    if !(← pidIsRunning pid .aborts) then pure true
    else do
      require (p.old ≠ none)
      pure false

/-- `mog_pidfile_upgrade_abort` once the upgrade is known to have failed. -/
def restorePidfile (ctx : DaemonCtx) (p : Pidfile) (pidfile : Bytes) : DaemonIo Pidfile := do
  match ← daemonSys (.openPid pidfile .restore) with
  | .error _ => pure { p with pidfileExists := false }
  | .ok fd => do
    let _ ← pidWrite ctx fd
    daemonSys (.close fd)
    -- `open(NULL)` fails with EFAULT
    match p.old with
    | none => pure { p with pidfileExists := true }
    | some old => do
      if ← unlinkIfOwnerOrUnused ctx old then pure { p with pidfileExists := true, old := none }
      else pure { p with pidfileExists := true }

def mogPidfileUpgradeAbort (ctx : DaemonCtx) (p : Pidfile) : DaemonIo Pidfile :=
  match p.pidfile with
  | none => pure p
  | some pidfile => do
    require (p.owner = ctx.self)
    if !(← upgradeFailed p pidfile) then pure p
    else restorePidfile ctx p pidfile

end Cmogstored
