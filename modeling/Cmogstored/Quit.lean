import Cmogstored.Decimal
import Cmogstored.Server

/-! Graceful shutdown: `mog_fdmap_requeue` and `mog_queue_quit_loop`. All threads but one are gone, and
nobody listens any more. The clients that are left are queued once more and stepped until they are done. -/

namespace Cmogstored

open Prog

/-- `mfd->fd_type`, and the struct of a client. -/
inductive Slot where
  | client (conn : Conn)
  | file
  | queue
  | svc
  | other

inductive QuitCall where
  /-- `aref(fd)` -/
  | slot (fd : Client)
  | save (mfd : Client) (conn : Conn)
  | activeqAdd (mfd : Client)
  /-- the test of the loop -/
  | test (nr : Nat)
  /-- an assertion that is to be watched -/
  | asserts (holds : Bool)
  /-- `mog_idleq_wait`; without a client if it was interrupted, or woken by another descriptor -/
  | idleqWait
  /-- a step is over, and this is what it has left behind -/
  | stepped (mfd : Client) (conn : Conn) (next : MgmtNext)
  | idleqPush (mfd : Client) (ev : Qev)
  | activeqPush (mfd : Client)
  | fdPut (mfd : Client)
  | http (mfd : Client) (request : Call)
  | mgmt (mfd : Client) (request : MgmtCall)

@[reducible] def QuitRes : QuitCall → Type
  | .slot _ => Slot
  | .idleqWait => Option Client
  | .http _ request => Res request
  | .mgmt _ request => MgmtRes request
  | _ => Unit

abbrev QuitIo := Prog QuitCall QuitRes

abbrev quitSys (request : QuitCall) : QuitIo (QuitRes request) := Prog.ask request

def quitAssert (condition : Bool) : QuitIo Unit := do
  quitSys (.asserts condition)
  require condition

/-- `mog_nr_active_at_quit++`, a `size_t` -/
def nrIncrement (nr : Nat) : Nat := (nr + 1) % 2 ^ 64

/-- `mog_nr_active_at_quit--` -/
def nrDecrement (nr : Nat) : Nat := (nr + (2 ^ 64 - 1)) % 2 ^ 64

/-- Ignores fsck priority in shutdown. -/
def Conn.requeued : Conn → Conn
  | .mgmt state => .mgmt { state with prio := .none }
  | .http fdType state => .http fdType state

/-- The loop of `mog_fdmap_requeue`, over the descriptors below `fd`. -/
def mogFdmapRequeue : Nat → Nat → QuitIo Nat
  | 0, nr => pure nr
  | fd + 1, nr => do
    match ← quitSys (.slot fd) with
    | .client conn => do
      quitSys (.save fd conn.requeued)
      quitSys (.activeqAdd fd)
      mogFdmapRequeue fd (nrIncrement nr)
    | _ => mogFdmapRequeue fd nr

/-! ### Steps -/

def quitMgmtHandler (mfd : Client) : (request : MgmtCall) → QuitIo (MgmtRes request)
  | .command _ => pure ()
  | .reply _ => pure ()
  | .stepped _ _ => pure ()
  | .subscribing _ => pure ()
  | request => quitSys (.mgmt mfd request)

def quitHttpHandler (mfd : Client) : (request : Call) → QuitIo (Res request)
  | .note _ => pure ()
  | request => quitSys (.http mfd request)

/-- `mgmt_close` and `http_close`, with the counter. -/
def quitClose (mfd : Client) (wbuf : Wbuf) (nr : Nat) : QuitIo Nat := do
  require (wbuf = .null || wbuf = .error)
  quitSys (.fdPut mfd)
  pure (nrDecrement nr)

def mogMgmtQuitStep (ctx : MgmtCtx) (fuel : Nat) (mfd : Client) (mgmt : Mgmt) (nr : Nat) : QuitIo Nat := do
  let (mgmt, next) ← (mgmtQueueStep ctx fuel mgmt).interp (quitMgmtHandler mfd)
  quitSys (.stepped mfd (.mgmt mgmt) next)
  match next with
  | .waitRd =>
    if mgmt.forward ≠ .none || mgmt.rbuf ≠ none then do
      -- something is in progress, do not drop it
      quitSys (.idleqPush mfd .rd)
      pure nr
    else do
      quitAssert (mgmt.prio = .none)
      quitClose mfd mgmt.wbuf nr
  | .ignore => do
    -- no new iostat watchers during shutdown
    quitAssert (mgmt.prio = .none)
    quitClose mfd mgmt.wbuf nr
  | .close => quitClose mfd mgmt.wbuf nr
  | .active => do
    quitSys (.activeqPush mfd)
    pure nr
  | .waitWr => do
    quitSys (.idleqPush mfd .wr)
    pure nr

def mogHttpQuitStep (ctx : Ctx) (fuel : Nat) (mfd : Client) (http : Http) (nr : Nat) : QuitIo Nat := do
  let (http, next) ← (httpQueueStep ctx fuel http).interp (quitHttpHandler mfd)
  quitSys (.stepped mfd (.http ctx.fdType http) (.ofNext next))
  match next with
  | .waitRd =>
    if http.forward ≠ none || http.rbuf ≠ none then do
      quitSys (.idleqPush mfd .rd)
      pure nr
    else quitClose mfd http.wbuf nr
  | .close => quitClose mfd http.wbuf nr
  | .active => do
    quitSys (.activeqPush mfd)
    pure nr
  | .waitWr => do
    quitSys (.idleqPush mfd .wr)
    pure nr

def queueQuitStep (ctx : ServerCtx) (fuel : Nat) (mfd : Client) (nr : Nat) : QuitIo Nat := do
  match ← quitSys (.slot mfd) with
  | .client (.mgmt mgmt) => mogMgmtQuitStep ctx.mgmt fuel mfd mgmt nr
  | .client (.http fdType http) => mogHttpQuitStep { ctx.http with fdType := fdType } fuel mfd http nr
  | .other => pure nr
  | _ => do
    quitAssert false
    pure nr

def mogQueueQuitLoop (ctx : ServerCtx) : Nat → Nat → QuitIo Unit
  | 0, _ => stuck
  | fuel + 1, nr => do
    quitSys (.test nr)
    if nr = 0 then pure ()
    else do
      quitAssert (nr ≤ intMax)
      match ← quitSys .idleqWait with
      | none => mogQueueQuitLoop ctx fuel nr
      | some mfd => do
        let nr ← queueQuitStep ctx fuel mfd nr
        mogQueueQuitLoop ctx fuel nr

/-- The end of `cmogstored_exit`. -/
def quitClients (ctx : ServerCtx) (maxFd fuel : Nat) : QuitIo Unit := do
  let nr ← mogFdmapRequeue maxFd 0
  mogQueueQuitLoop ctx fuel nr

/-! ### The clients -/

structure QuitWorld where
  /-- the clients that are open -/
  clients : Client → Option Conn
  /-- armed in the quit queue -/
  armed : Client → Bool
  /-- the last step -/
  last : Option (Client × Conn × MgmtNext)
  /-- the test of the loop has failed -/
  ended : Bool

/-- The answers that a call may get. -/
def QuitWorld.may (w : QuitWorld) : (request : QuitCall) → QuitRes request → Prop
  | .slot fd, slot =>
    match w.clients fd with
    | some conn => slot = .client conn
    | none => ∀ conn, slot ≠ .client conn
  | .idleqWait, some mfd => w.armed mfd = true
  | _, _ => True

/-- What a call does. -/
def QuitWorld.next (w : QuitWorld) : (request : QuitCall) → QuitRes request → QuitWorld
  | .save mfd conn, _ => { w with clients := Function.update w.clients mfd (some conn) }
  | .activeqAdd mfd, _ => { w with armed := Function.update w.armed mfd true }
  | .test nr, _ => { w with ended := nr = 0 }
  | .idleqWait, some mfd => { w with armed := Function.update w.armed mfd false }
  | .stepped mfd conn next, _ =>
    { w with clients := Function.update w.clients mfd (some conn), last := some (mfd, conn, next) }
  | .idleqPush mfd _, _ => { w with armed := Function.update w.armed mfd true }
  | .activeqPush mfd, _ => { w with armed := Function.update w.armed mfd true }
  | .fdPut mfd, _ =>
    { w with clients := Function.update w.clients mfd none, armed := Function.update w.armed mfd false }
  | _, _ => w

def quitHandles : Handler Unit QuitWorld QuitCall QuitRes :=
  fun w _ request answer w' => w.may request answer ∧ w' = w.next request answer

/-- The states that a management client may be in between two steps, of whatever service. -/
inductive LiveMgmt : Mgmt → Prop where
  | init : LiveMgmt mogMgmtInit
  | step {ctx : MgmtCtx} {fuel : Nat} {mgmt mgmt' : Mgmt} {next : MgmtNext} {trace : MgmtRun}
      (hlive : LiveMgmt mgmt) (hruns : Runs (mogMgmtQueueStep ctx fuel mgmt) trace (.ret (mgmt', next)))
      (hnext : next ≠ .close ∧ next ≠ .ignore) : LiveMgmt mgmt'
  /-- a watcher that was subscribed, and then blocked when the statistics were sent -/
  | blocked {ctx : MgmtCtx} {fuel : Nat} {mgmt mgmt' : Mgmt} {trace : MgmtRun} {buf : Bytes} {off : Nat}
      (hlive : LiveMgmt mgmt) (hruns : Runs (mogMgmtQueueStep ctx fuel mgmt) trace (.ret (mgmt', .ignore)))
      (hwatches : mgmt'.forward = .iostat) : LiveMgmt { mgmt' with wbuf := .pending buf off }

end Cmogstored
