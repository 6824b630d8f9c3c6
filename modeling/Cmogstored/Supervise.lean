import Cmogstored.Pidfile

/-! The processes of the daemon: `process.c`, `upgrade.c`, and what `cmogstored.c` does about children. -/

namespace Cmogstored

open Prog

/-! ### `process.c` -/

/-- `UINT_MAX` -/
def uintMax : Nat := 2 ^ 32 - 1

def MOG_PROC_UNKNOWN : Nat := uintMax

def MOG_PROC_IOSTAT : Nat := uintMax - 1

def MOG_PROC_UPGRADE : Nat := uintMax - 2

/-- The table of the processes, with their ids. -/
abbrev Processes := List (Pid × Nat)

/-- `hash_insert` leaves an entry that is there already. -/
def mogProcessRegister (processes : Processes) (pid : Pid) (id : Nat) : DaemonIo Processes := do
  require (id ≠ MOG_PROC_UNKNOWN)
  if processes.any (·.1 = pid) then pure processes else pure ((pid, id) :: processes)

def mogProcessReaped (processes : Processes) (pid : Pid) : Nat × Processes :=
  (((processes.find? (·.1 = pid)).map (·.2)).getD MOG_PROC_UNKNOWN, processes.filter (·.1 ≠ pid))

def mogProcessIsWorker (id : Nat) : Bool :=
  id ≠ MOG_PROC_UNKNOWN && id ≠ MOG_PROC_IOSTAT && id ≠ MOG_PROC_UPGRADE

/-! ### State -/

/-- The static variables of the daemon. -/
structure Daemon extends Pidfile where
  processes : Processes
  upgradePid : Pid
  sigchldHit : Bool
  doUpgrade : Bool
  doExit : Bool
  workerProcesses : Nat
  iostatRunning : Bool

/-- The handler of the signals. -/
def Daemon.signalled (d : Daemon) (signals : Signals) : Daemon :=
  { d with
    sigchldHit := d.sigchldHit || signals.chld
    doUpgrade := d.doUpgrade || signals.usr2
    doExit := d.doExit || signals.quit }

/-! ### `upgrade.c` -/

/-- `FD_PFX` -/
def fdPfx : Bytes := ascii "CMOGSTORED_FD="

/-- `emit_fd`: whether to go on, and what was written. -/
def emitFd (fd : Int) : DaemonIo (Bool × Bytes) := do
  if fd < 0 then pure (true, [])
  else if ← daemonSys (.fprintf (lld fd ++ ascii ",")) then pure (true, lld fd ++ ascii ",")
  else pure (false, [])

/-- `svc_emit_fd_i`, over the descriptors of a service. -/
def svcEmitFds : List Int → DaemonIo (Bool × Bytes)
  | [] => pure (true, [])
  | fd :: rest => do
    let (more, text) ← emitFd fd
    if !more then pure (false, text)
    else do
      let (more, text') ← svcEmitFds rest
      pure (more, text ++ text')

/-- `mog_svc_each(svc_emit_fd_i, fp)` -/
def svcEachEmit : List (List Int) → DaemonIo Bytes
  | [] => pure []
  | fds :: rest => do
    let (more, text) ← svcEmitFds fds
    if !more then pure text
    else do
      let text' ← svcEachEmit rest
      pure (text ++ text')

/-- `mog_upgrade_spawn` behind `mog_pidfile_upgrade_prepare`. -/
def upgradeFork (ctx : DaemonCtx) (d : Daemon) : DaemonIo (Pid × Daemon) := do
  if !(← daemonSys .openMemstream) then pure (-1, d)
  else if !(← daemonSys (.fputs fdPfx)) then pure (-1, d)
  else do
    let text ← svcEachEmit ctx.svcFds
    if !(← daemonSys .memstreamClose) then pure (-1, d)
    else do
      require ((fdPfx ++ text).getLast? = some 44)
      let pid ← daemonSys (.fork .upgrade)
      if 0 < pid.val then do
        let processes ← mogProcessRegister d.processes pid.val MOG_PROC_UPGRADE
        pure (pid.val, { d with processes := processes })
      else pure (pid.val, d)

def mogUpgradeSpawn (ctx : DaemonCtx) (d : Daemon) : DaemonIo (Pid × Daemon) := do
  let (ready, pidfile) ← mogPidfileUpgradePrepare ctx d.toPidfile
  if !ready then pure (-1, { d with toPidfile := pidfile })
  else upgradeFork ctx { d with toPidfile := pidfile }

/-! ### `cmogstored.c` -/

def upgradeHandler (ctx : DaemonCtx) (d : Daemon) : DaemonIo Daemon := do
  let d := { d with doUpgrade := false }
  if 0 < d.upgradePid then pure d
  else do
    let (pid, d) ← mogUpgradeSpawn ctx d
    pure { d with upgradePid := pid }

/-- `fork_worker`, in the parent. -/
def forkWorker (d : Daemon) (id : Nat) : DaemonIo Daemon := do
  let pid ← daemonSys (.fork (.worker id))
  if 0 < pid.val then do
    let processes ← mogProcessRegister d.processes pid.val id
    pure { d with processes := processes }
  else do
    let signals ← daemonSys (.sleep 10)
    pure (d.signalled signals)

def workerDied (d : Daemon) (id : Nat) : DaemonIo Daemon := do
  if d.doExit then pure d else forkWorker d id

/-- `iostat_fork_exec`, in the parent. -/
def iostatForkExec (d : Daemon) (outFd : Fd) : DaemonIo (Pid × Daemon) := do
  let pid ← daemonSys (.fork .iostat)
  if pid.val < 0 then pure (pid.val, d)
  else do
    let processes ← mogProcessRegister d.processes pid.val MOG_PROC_IOSTAT
    daemonSys (.close outFd)
    pure (pid.val, { d with processes := processes })

def mogIostatRespawn (d : Daemon) : DaemonIo (Bool × Daemon) := do
  match ← daemonSys .pipe with
  | .error _ => pure (false, d)
  | .ok (inFd, outFd) => do
    let (pid, d) ← iostatForkExec d outFd
    if pid < 0 then pure (false, d)
    else do
      daemonSys (.iostatAdd inFd)
      pure (true, d)

def iostatDied (d : Daemon) : DaemonIo Daemon := do
  if d.doExit then pure d
  else do
    let (running, d) ← mogIostatRespawn d
    pure { d with iostatRunning := running }

def processDied (ctx : DaemonCtx) (d : Daemon) (pid : Pid) : DaemonIo Daemon := do
  let (id, processes) := mogProcessReaped d.processes pid
  let d := { d with processes := processes }
  if mogProcessIsWorker id then workerDied d id
  else if id = MOG_PROC_IOSTAT then do
    -- the master has no iostat
    require (d.workerProcesses = 0)
    iostatDied d
  else if id = MOG_PROC_UPGRADE then do
    require (pid = d.upgradePid)
    let pidfile ← mogPidfileUpgradeAbort ctx d.toPidfile
    pure { d with toPidfile := pidfile, upgradePid := -1 }
  else pure d

/-- The loop of `sigchld_handler`. -/
def sigchldLoop (ctx : DaemonCtx) : Nat → Daemon → DaemonIo Daemon
  | 0, _ => stuck
  | fuel + 1, d => do
    match ← daemonSys .waitpid with
    | .reaped pid _ => do
      let d ← processDied ctx d pid
      sigchldLoop ctx fuel d
    | .none => pure d
    | .EINTR => pure { d with sigchldHit := true }
    | .ECHILD => pure d
    | .failed => abort

def sigchldHandler (ctx : DaemonCtx) (fuel : Nat) (d : Daemon) : DaemonIo Daemon :=
  sigchldLoop ctx fuel { d with sigchldHit := false }

/-- A process that starts to serve. -/
def daemonAtStart : Daemon where
  pidfile := none
  pidfileExists := false
  old := none
  owner := 0
  processes := []
  upgradePid := -1
  sigchldHit := false
  doUpgrade := false
  doExit := false
  workerProcesses := 0
  iostatRunning := false

end Cmogstored
