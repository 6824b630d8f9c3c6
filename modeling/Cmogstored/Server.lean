import Cmogstored.Http
import Cmogstored.Interleave
import Cmogstored.Mgmt

/-! The threads of the server and what they share: `queue_loop.c`, `queue_epoll.c`, `fsck_queue.c`, the
subscribers of `svc_dev.c`, and the threads that accept clients. A client is known by its descriptor, as
its `struct mog_fd` is. What a thread does under a lock, and what `epoll` does in one call, is one call
here. -/

namespace Cmogstored

open Prog

abbrev Client := Nat

/-- `st_dev` -/
abbrev Dev := Nat

/-- A `struct mog_svc`. -/
abbrev Svc := Nat

/-- The part of `struct mog_fd` that depends on its type. -/
inductive Conn where
  | mgmt (mgmt : Mgmt)
  | http (fdType : FdType) (http : Http)

inductive Qev where
  | rd | wr
  deriving DecidableEq

/-- Which of the two functions asks `fsck_queue_for`. -/
inductive FsckStage where
  | ready | next
  deriving DecidableEq

inductive ServerCall where
  /-- `mog_idleq_wait`; without a client to show for it if it was interrupted, or timed out -/
  | idleqWait (forever : Bool)
  | idleqAdd (mfd : Client) (ev : Qev)
  | idleqPush (mfd : Client) (ev : Qev)
  | activeqPush (mfd : Client)
  /-- the struct of a client, when a step of it begins -/
  | conn (mfd : Client)
  /-- a look at the struct of a client -/
  | peek (mfd : Client)
  /-- what has become of the struct -/
  | save (mfd : Client) (conn : Conn)
  | http (mfd : Client) (request : Call)
  | mgmt (mfd : Client) (request : MgmtCall)
  /-- `fstat` in `fsck_queue_for`: the device, or nothing if it failed -/
  | fsckQueueFor (mfd : Client) (fd : Fd) (stage : FsckStage)
  /-- what `mog_fsck_queue_ready` does under the lock of the queue -/
  | fsckReady (dev : Dev) (mfd : Client)
  /-- what `mog_fsck_queue_next` does under the lock of the queue: the client that it took out -/
  | fsckNext (dev : Dev) (mfd : Client)
  /-- `mog_svc_devstats_subscribe` -/
  | subscribe (mfd : Client)
  | fdPut (mfd : Client)
  /-- `accept` on a listener of the service -/
  | accept (svc : Svc)
  /-- the services whose statistics are to be sent now -/
  | notified
  /-- takes `devstats_lock`: the subscribers -/
  | devstatsLock (svc : Svc)
  /-- `mog_mgmt_writev` to a subscriber, which is removed if `wbuf` is not null afterwards -/
  | devstatsWrite (svc : Svc) (mfd : Client)
  | devstatsUnlock (svc : Svc)

@[reducible] def ServerRes : ServerCall → Type
  | .idleqWait _ => Option Client
  | .conn _ => Conn
  | .peek _ => Conn
  | .http _ request => Res request
  | .mgmt _ request => MgmtRes request
  | .fsckQueueFor _ _ _ => Option Dev
  | .fsckReady _ _ => Bool
  | .fsckNext _ _ => Option Client
  | .accept _ => Option Client
  | .notified => List Svc
  | .devstatsLock _ => List Client
  | .devstatsWrite _ _ => Wbuf
  | _ => Unit

abbrev ServerIo := Prog ServerCall ServerRes

abbrev serverSys (request : ServerCall) : ServerIo (ServerRes request) := Prog.ask request

structure ServerCtx where
  mgmt : MgmtCtx
  http : Ctx

/-! ### `fsck_queue.c` -/

def mogFsckQueueReady (mfd : Client) (fd : Fd) : ServerIo Bool := do
  match ← serverSys (.fsckQueueFor mfd fd .ready) with
  | none => pure true
  | some dev => serverSys (.fsckReady dev mfd)

def mogFsckQueueNext (mfd : Client) (fd : Fd) : ServerIo Unit := do
  match ← serverSys (.fsckQueueFor mfd fd .next) with
  | none => pure ()
  | some dev =>
    match ← serverSys (.fsckNext dev mfd) with
    | none => pure ()
    | some nextMfd => do
      match ← serverSys (.peek nextMfd) with
      | .mgmt nextMgmt => require (nextMgmt.prio = .fsck)
      | .http _ _ => abort
      serverSys (.activeqPush nextMfd)

/-! ### `mog_queue_step` -/

/-- The calls of a management client. Its marks are none, but for the points where the struct is handed
over and where it is given back. -/
def mgmtHandler (mfd : Client) : (request : MgmtCall) → ServerIo (MgmtRes request)
  | .fsckQueueReady fd => mogFsckQueueReady mfd fd
  | .fsckQueueNext fd => mogFsckQueueNext mfd fd
  | .subscribing mgmt => serverSys (.save mfd (.mgmt mgmt))
  | .devstatsSubscribe => serverSys (.subscribe mfd)
  | .closed _ => serverSys (.fdPut mfd)
  | .command _ => pure ()
  | .reply _ => pure ()
  | .stepped _ _ => pure ()
  | request => serverSys (.mgmt mfd request)

def httpHandler (mfd : Client) : (request : Call) → ServerIo (Res request)
  | .note (.closed _) => serverSys (.fdPut mfd)
  | .note _ => pure ()
  | request => serverSys (.http mfd request)

def MgmtNext.ofNext : Next → MgmtNext
  | .close => .close
  | .active => .active
  | .waitRd => .waitRd
  | .waitWr => .waitWr

/-- The struct is written back unless the client is somebody else's by now. -/
def saveStepped (mfd : Client) (conn : Conn) (next : MgmtNext) : ServerIo MgmtNext :=
  match next with
  | .ignore => pure .ignore
  | .close => pure .close
  | next => do
    serverSys (.save mfd conn)
    pure next

def mogQueueStep (ctx : ServerCtx) (fuel : Nat) (mfd : Client) : ServerIo MgmtNext := do
  match ← serverSys (.conn mfd) with
  | .mgmt mgmt => do
    let (mgmt, next) ← (mogMgmtQueueStep ctx.mgmt fuel mgmt).interp (mgmtHandler mfd)
    saveStepped mfd (.mgmt mgmt) next
  | .http fdType http => do
    let (http, next) ← (mogHttpQueueStep { ctx.http with fdType := fdType } fuel http).interp
      (httpHandler mfd)
    saveStepped mfd (.http fdType http) (.ofNext next)

/-! ### `queue_loop.c` -/

def queueXchgMaybe (mfd : Client) : ServerIo Client := do
  match ← serverSys (.idleqWait false) with
  | some recentMfd => do
    serverSys (.activeqPush mfd)
    pure recentMfd
  | none => pure mfd

def mogQueueXchg (mfd : Client) (ev : Qev) : ServerIo (Option Client) := do
  serverSys (.idleqPush mfd ev)
  serverSys (.idleqWait true)

def mogQueueLoop (ctx : ServerCtx) : Nat → Option Client → ServerIo Unit
  | 0, _ => stuck
  | fuel + 1, none => do
    let mfd ← serverSys (.idleqWait true)
    mogQueueLoop ctx fuel mfd
  | fuel + 1, some mfd => do
    match ← mogQueueStep ctx fuel mfd with
    | .active => do
      let mfd ← queueXchgMaybe mfd
      mogQueueLoop ctx fuel (some mfd)
    | .waitRd => do
      let mfd ← mogQueueXchg mfd .rd
      mogQueueLoop ctx fuel mfd
    | .waitWr => do
      let mfd ← mogQueueXchg mfd .wr
      mogQueueLoop ctx fuel mfd
    | .ignore => do
      let mfd ← serverSys (.idleqWait true)
      mogQueueLoop ctx fuel mfd
    | .close => do
      let mfd ← serverSys (.idleqWait true)
      mogQueueLoop ctx fuel mfd

/-! ### Other threads -/

/-- The three kinds of listeners, by their `post_accept` functions. -/
inductive Listener where
  | mgmt | http | httpget
  deriving DecidableEq

/-- The struct that a `post_accept` function sets up. -/
def Listener.init : Listener → Conn
  | .mgmt => .mgmt mogMgmtInit
  | .http => .http .http mogHttpInit
  | .httpget => .http .httpget mogHttpInit

def postAccept (listener : Listener) (fd : Client) : ServerIo Unit := do
  serverSys (.save fd listener.init)
  serverSys (.idleqAdd fd .rd)

def mogAcceptLoop (svc : Svc) (listener : Listener) : Nat → ServerIo Unit
  | 0 => stuck
  | fuel + 1 => do
    match ← serverSys (.accept svc) with
    | none => mogAcceptLoop svc listener fuel
    | some fd => do
      postAccept listener fd
      mogAcceptLoop svc listener fuel

/-- The loop over the subscribers. -/
def devstatsEach (svc : Svc) : List Client → ServerIo Unit
  | [] => pure ()
  | mfd :: rest => do
    match ← serverSys (.peek mfd) with
    | .mgmt mgmt => require (mgmt.wbuf = .null)
    | .http _ _ => abort
    match ← serverSys (.devstatsWrite svc mfd) with
    | .null => devstatsEach svc rest
    | .error => do
      match ← serverSys (.peek mfd) with
      | .mgmt mgmt => require (mgmt.rbuf = none)
      | .http _ _ => abort
      serverSys (.fdPut mfd)
      devstatsEach svc rest
    | .pending _ _ => do
      serverSys (.idleqPush mfd .wr)
      devstatsEach svc rest

def mogSvcDevstatsBroadcast (svc : Svc) : ServerIo Unit := do
  let subscribers ← serverSys (.devstatsLock svc)
  devstatsEach svc subscribers
  serverSys (.devstatsUnlock svc)

def broadcastAll : List Svc → ServerIo Unit
  | [] => pure ()
  | svc :: rest => do
    mogSvcDevstatsBroadcast svc
    broadcastAll rest

/-- The notify thread. -/
def notifyLoop : Nat → ServerIo Unit
  | 0 => stuck
  | fuel + 1 => do
    let svcs ← serverSys .notified
    broadcastAll svcs
    notifyLoop fuel

end Cmogstored
