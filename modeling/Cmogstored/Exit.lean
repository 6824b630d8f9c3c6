import Cmogstored.Quit
import Cmogstored.ServerWorld

/-! `exit.c`, `devstats_shutdown_i` of `svc_dev.c` and the loop of the main thread. The main thread sends the
statistics; when it has to exit, it stops the threads that accept, sweeps the lists of the watchers, stops the
workers, and sweeps once more what they have subscribed in the meantime. From there on it is alone. -/

namespace Cmogstored

open Prog

inductive ExitCall where
  | server (request : ServerCall)
  /-- whether the main loop is left: `do_exit` is set, or the parent is gone -/
  | exits
  /-- `svc_quit_accept_i` of all services -/
  | quitAccept
  /-- `LIST_REMOVE` -/
  | devstatsRemove (svc : Svc) (mfd : Client)
  /-- `mog_queue_stop`, which returns when all workers are gone -/
  | queueStop

@[reducible] def ExitRes : ExitCall → Type
  | .server request => ServerRes request
  | .exits => Bool
  | _ => Unit

abbrev ExitIo := Prog ExitCall ExitRes

abbrev exitSys (request : ExitCall) : ExitIo (ExitRes request) := Prog.ask request

/-- A thread as it was before. -/
abbrev ofServer {α : Type} (p : ServerIo α) : ExitIo α := p.embed ExitCall.server

/-! ### The sweeps -/

/-- The loop over the subscribers. -/
def devstatsShutdownEach (svc : Svc) : List Client → ExitIo Unit
  | [] => pure ()
  | mfd :: rest => do
    match ← exitSys (.server (.peek mfd)) with
    | .mgmt mgmt => do
      require (mgmt.wbuf = .null)
      require (mgmt.rbuf = none)
    | .http _ _ => abort
    exitSys (.devstatsRemove svc mfd)
    exitSys (.server (.fdPut mfd))
    devstatsShutdownEach svc rest

def devstatsShutdownI (svc : Svc) : ExitIo Unit := do
  let subscribers ← exitSys (.server (.devstatsLock svc))
  devstatsShutdownEach svc subscribers
  exitSys (.server (.devstatsUnlock svc))

def mogSvcDevShutdown : List Svc → ExitIo Unit
  | [] => pure ()
  | svc :: rest => do
    devstatsShutdownI svc
    mogSvcDevShutdown rest

/-- `cmogstored_exit` up to the point where the main thread is alone. -/
def cmogstoredExit (svcs : List Svc) : ExitIo Unit := do
  exitSys .quitAccept
  mogSvcDevShutdown svcs
  exitSys .queueStop
  mogSvcDevShutdown svcs

/-- `main_worker_loop` of a process with the given services; `mog_notify_wait` sends the statistics. -/
def mainWorkerLoop (svcs : List Svc) : Nat → ExitIo Unit
  | 0 => stuck
  | fuel + 1 => do
    let due ← exitSys (.server .notified)
    ofServer (broadcastAll due)
    if ← exitSys .exits then cmogstoredExit svcs else mainWorkerLoop svcs fuel

/-! ### The world of the threads -/

structure ExitWorld (Tid : Type) where
  base : World Tid
  accepting : Bool
  /-- only the main thread is left -/
  stopped : Bool

def ServerCall.isAccept : ServerCall → Bool
  | .accept _ => true
  | _ => false

/-- What a call does. A worker is cancelled where it waits for a client, with none in its hands. -/
def exitHandles {Tid : Type} [DecidableEq Tid] (fstat : Fstat) (main : Tid) :
    Handler Tid (ExitWorld Tid) ExitCall ExitRes
  | w, thread, .server request, answer, w' =>
    (request.isAccept = true → w.accepting = true) ∧ (w.stopped = true → thread = main) ∧
      ∃ base, serverHandles fstat w.base thread request answer base ∧ w' = { w with base := base }
  | w, _, .exits, _, w' => w' = w
  | w, _, .quitAccept, _, w' => w' = { w with accepting := false }
  | w, thread, .devstatsRemove svc mfd, _, w' => w' = { w with base := w.base.unsubscribed thread svc mfd }
  | w, thread, .queueStop, _, w' =>
    (∀ other, other ≠ thread → w.base.hands other = []) ∧ w' = { w with stopped := true }

/-- The threads of a process before they have done anything: the main thread, workers, and threads that accept
clients of one of its services. -/
structure IsProcess {Tid : Type} (ctx : ServerCtx) (svcs : List Svc) (main : Tid) (threads : Tid → ExitIo Unit) :
    Prop where
  main_eq : ∃ fuel, threads main = mainWorkerLoop svcs fuel
  others : ∀ thread, thread ≠ main → (∃ fuel, threads thread = ofServer (mogQueueLoop ctx fuel none)) ∨
    ∃ svc listener fuel, svc ∈ svcs ∧ threads thread = ofServer (mogAcceptLoop svc listener fuel)

abbrev ExitConfig (Tid : Type) := Config Tid (ExitWorld Tid) ExitCall ExitRes Unit

def exitStart {Tid : Type} (threads : Tid → ExitIo Unit) : ExitConfig Tid where
  world := { base := .start, accepting := true, stopped := false }
  threads := threads

/-! ### The world of the main thread alone -/

/-- The clients of the quit loop, with the lists they are linked in. -/
structure QuitWatch where
  quit : QuitWorld
  /-- `mgmt->svc` -/
  svcOf : Client → Svc
  /-- `svc->devstats_subscribers` -/
  subscribers : Svc → List Client

/-- What the main thread finds. -/
def ExitWorld.alone {Tid : Type} (w : ExitWorld Tid) : QuitWatch where
  quit :=
    { clients := fun mfd => if w.base.isOpen mfd then some (w.base.conns mfd) else none
      armed := fun _ => false
      last := none
      ended := false }
  svcOf := w.base.svcOf
  subscribers := w.base.subscribers

/-- `LIST_INSERT_HEAD` -/
def QuitWatch.subscribed (w : QuitWatch) (mfd : Client) : QuitWatch :=
  { w with
    subscribers := Function.update w.subscribers (w.svcOf mfd) (mfd :: w.subscribers (w.svcOf mfd)) }

def QuitWatch.next (w : QuitWatch) : (request : QuitCall) → QuitRes request → QuitWatch
  | .mgmt mfd .devstatsSubscribe, _ => w.subscribed mfd
  | request, answer => { w with quit := w.quit.next request answer }

def quitWatchHandles : Handler Unit QuitWatch QuitCall QuitRes :=
  fun w _ request answer w' => w.quit.may request answer ∧ w' = w.next request answer

end Cmogstored
