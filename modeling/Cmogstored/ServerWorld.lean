import Cmogstored.Server

/-! What the threads share, and what each call does to it. `epoll` is one-shot: a client that has been
delivered to a thread is not delivered again before it is armed again. The last fields of the world
decide nothing; they remember what has happened. -/

namespace Cmogstored

open Prog

/-- `struct fsck_queue`; `active` is a `size_t`. -/
structure FsckQueue where
  queue : List Client
  active : Nat

/-- `fq->max_active` -/
def maxActive : Nat := 1

def FsckQueue.increment (fq : FsckQueue) : FsckQueue := { fq with active := (fq.active + 1) % 2 ^ 64 }

def FsckQueue.decrement (fq : FsckQueue) : FsckQueue :=
  { fq with active := (fq.active + (2 ^ 64 - 1)) % 2 ^ 64 }

structure World (Tid : Type) where
  /-- armed in its `epoll` queue -/
  armed : Client → Bool
  fsck : Dev → FsckQueue
  /-- `svc->devstats_subscribers` -/
  subscribers : Svc → List Client
  /-- the holder of `svc->devstats_lock` -/
  lock : Svc → Option Tid
  isOpen : Client → Bool
  conns : Client → Conn
  /-- `mgmt->svc` -/
  svcOf : Client → Svc
  /-- what `fstat` says of the file that a client opened last -/
  outcome : Client → Option Dev
  /-- the clients that a thread got and has not passed on -/
  hands : Tid → List Client
  /-- the client whose struct a thread works on, inside `mog_queue_step` -/
  stepping : Tid → Option Client
  /-- the clients between a true return of `mog_fsck_queue_ready` and `mog_fsck_queue_next`, with the
  device of the slot they took, if any -/
  digest : Client → Option (Option Dev)
  /-- those that took a slot of the device -/
  running : Dev → List Client
  /-- those taken out of the queue of the device that have not been in `mog_fsck_queue_ready` since -/
  woken : Dev → List Client

namespace World

variable {Tid : Type} [DecidableEq Tid]

def start : World Tid where
  armed _ := false
  fsck _ := { queue := [], active := 0 }
  subscribers _ := []
  lock _ := none
  isOpen _ := false
  conns _ := .mgmt mogMgmtInit
  svcOf _ := 0
  outcome _ := some 0
  hands _ := []
  stepping _ := none
  digest _ := none
  running _ := []
  woken _ := []

/-- A thread gets a client. -/
def receive (w : World Tid) (thread : Tid) (mfd : Client) : World Tid :=
  { w with hands := Function.update w.hands thread (mfd :: w.hands thread) }

/-- A thread passes a client on, and has done with it if it was stepping it. -/
def release (w : World Tid) (thread : Tid) (mfd : Client) : World Tid :=
  { w with
    hands := Function.update w.hands thread ((w.hands thread).erase mfd)
    stepping := Function.update w.stepping thread ((w.stepping thread).filter (· ≠ mfd)) }

def deliver (w : World Tid) (thread : Tid) (mfd : Client) : World Tid :=
  { w with armed := Function.update w.armed mfd false }.receive thread mfd

def arm (w : World Tid) (thread : Tid) (mfd : Client) : World Tid :=
  { w.release thread mfd with armed := Function.update w.armed mfd true }

/-- The struct of a client. -/
def setConn (w : World Tid) (mfd : Client) (conn : Conn) : World Tid :=
  { w with conns := Function.update w.conns mfd conn }

/-- A step begins, or is over. -/
def setStepping (w : World Tid) (thread : Tid) (client : Option Client) : World Tid :=
  { w with stepping := Function.update w.stepping thread client }

/-- `mog_fd_put`: a closed descriptor leaves `epoll` as well. -/
def put (w : World Tid) (thread : Tid) (mfd : Client) : World Tid :=
  { w.release thread mfd with
    armed := Function.update w.armed mfd false
    isOpen := Function.update w.isOpen mfd false }

def accepted (w : World Tid) (thread : Tid) (svc : Svc) (mfd : Client) : World Tid :=
  { w.receive thread mfd with
    isOpen := Function.update w.isOpen mfd true
    svcOf := Function.update w.svcOf mfd svc }

/-- The client has been in `mog_fsck_queue_ready`. -/
def asked (w : World Tid) (mfd : Client) (digest : Option (Option Dev)) : World Tid :=
  { w with
    digest := Function.update w.digest mfd digest
    woken := fun dev => (w.woken dev).erase mfd }

/-- `fq->active++` -/
def takeSlot (w : World Tid) (dev : Dev) (mfd : Client) : World Tid :=
  { w.asked mfd (some (some dev)) with
    fsck := Function.update w.fsck dev (w.fsck dev).increment
    running := Function.update w.running dev (mfd :: w.running dev) }

/-- `SIMPLEQ_INSERT_TAIL` -/
def enqueue (w : World Tid) (thread : Tid) (dev : Dev) (mfd : Client) : World Tid :=
  { (w.asked mfd none).release thread mfd with
    fsck := Function.update w.fsck dev { w.fsck dev with queue := (w.fsck dev).queue ++ [mfd] } }

/-- `fq->active--` -/
def giveSlot (w : World Tid) (dev : Dev) (mfd : Client) : World Tid :=
  { w with
    fsck := Function.update w.fsck dev (w.fsck dev).decrement
    digest := Function.update w.digest mfd none
    running := Function.update w.running dev ((w.running dev).erase mfd) }

/-- `SIMPLEQ_REMOVE_HEAD` -/
def dequeue (w : World Tid) (thread : Tid) (dev : Dev) (mfd : Client) (rest : List Client) : World Tid :=
  { w.receive thread mfd with
    fsck := Function.update w.fsck dev { w.fsck dev with queue := rest }
    woken := Function.update w.woken dev (mfd :: w.woken dev) }

/-- `LIST_INSERT_HEAD` -/
def subscribed (w : World Tid) (thread : Tid) (mfd : Client) : World Tid :=
  { w.release thread mfd with
    subscribers := Function.update w.subscribers (w.svcOf mfd) (mfd :: w.subscribers (w.svcOf mfd)) }

/-- `LIST_REMOVE` -/
def unsubscribed (w : World Tid) (thread : Tid) (svc : Svc) (mfd : Client) : World Tid :=
  { w.receive thread mfd with
    subscribers := Function.update w.subscribers svc ((w.subscribers svc).erase mfd) }

def setLock (w : World Tid) (svc : Svc) (holder : Option Tid) : World Tid :=
  { w with lock := Function.update w.lock svc holder }

end World

def Conn.setWbuf (conn : Conn) (wbuf : Wbuf) : Conn :=
  match conn with
  | .mgmt state => .mgmt { state with wbuf := wbuf }
  | .http fdType state => .http fdType { state with wbuf := wbuf }

/-- What is assumed of `fstat` on the file of a digest: what may be decided when the file is opened, and
what a call may say then. -/
structure Fstat where
  opens : Option Dev → Prop
  answers : Option Dev → Option Dev → Prop

/-- The calls that open the file of a digest. -/
def opensFile : MgmtCall → Bool
  | .sys (.openRead _) => true
  | _ => false

section Handler

variable {Tid : Type} [DecidableEq Tid]

/-- `mog_fsck_queue_next` under the lock of the queue. -/
def nextHandles (w : World Tid) (thread : Tid) (dev : Dev) (mfd : Client) (answer : Option Client)
    (w' : World Tid) : Prop :=
  let given := w.giveSlot dev mfd
  if (given.fsck dev).active < maxActive then
    match (given.fsck dev).queue with
    | [] => answer = none ∧ w' = given
    | first :: rest => answer = some first ∧ w' = given.dequeue thread dev first rest
  else answer = none ∧ w' = given

/-- **What a call does.** -/
def serverHandles (fstat : Fstat) : Handler Tid (World Tid) ServerCall ServerRes
  | w, _, .idleqWait _, none, w' => w' = w
  | w, thread, .idleqWait _, some mfd, w' => w.armed mfd = true ∧ w' = w.deliver thread mfd
  | w, thread, .idleqAdd mfd _, _, w' => w' = w.arm thread mfd
  | w, thread, .idleqPush mfd _, _, w' => w' = w.arm thread mfd
  | w, thread, .activeqPush mfd, _, w' => w' = w.arm thread mfd
  | w, thread, .conn mfd, conn, w' => conn = w.conns mfd ∧ w' = w.setStepping thread (some mfd)
  | w, _, .peek mfd, conn, w' => conn = w.conns mfd ∧ w' = w
  | w, thread, .save mfd conn, _, w' => w' = (w.setConn mfd conn).setStepping thread none
  | w, _, .http _ _, _, w' => w' = w
  | w, _, .mgmt mfd request, _, w' =>
    if opensFile request then
      ∃ outcome, fstat.opens outcome ∧ w' = { w with outcome := Function.update w.outcome mfd outcome }
    else w' = w
  | w, _, .fsckQueueFor mfd _ .ready, none, w' =>
    fstat.answers (w.outcome mfd) none ∧ w' = w.asked mfd (some none)
  | w, _, .fsckQueueFor mfd _ .next, none, w' =>
    fstat.answers (w.outcome mfd) none ∧ w' = { w with digest := Function.update w.digest mfd none }
  | w, _, .fsckQueueFor mfd _ _, some dev, w' => fstat.answers (w.outcome mfd) (some dev) ∧ w' = w
  | w, _, .fsckReady dev mfd, true, w' => (w.fsck dev).active < maxActive ∧ w' = w.takeSlot dev mfd
  | w, thread, .fsckReady dev mfd, false, w' =>
    ¬ (w.fsck dev).active < maxActive ∧ w' = w.enqueue thread dev mfd
  | w, thread, .fsckNext dev mfd, answer, w' => nextHandles w thread dev mfd answer w'
  | w, thread, .subscribe mfd, _, w' => w.lock (w.svcOf mfd) = none ∧ w' = w.subscribed thread mfd
  | w, thread, .fdPut mfd, _, w' => w' = w.put thread mfd
  | w, _, .accept _, none, w' => w' = w
  | w, thread, .accept svc, some mfd, w' => w.isOpen mfd = false ∧ w' = w.accepted thread svc mfd
  | w, _, .notified, _, w' => w' = w
  | w, thread, .devstatsLock svc, listed, w' =>
    w.lock svc = none ∧ listed = w.subscribers svc ∧ w' = w.setLock svc (some thread)
  | w, _, .devstatsWrite _ _, .null, w' => w' = w
  | w, thread, .devstatsWrite svc mfd, wbuf, w' =>
    w' = (w.unsubscribed thread svc mfd).setConn mfd ((w.conns mfd).setWbuf wbuf)
  | w, _, .devstatsUnlock svc, _, w' => w' = w.setLock svc none

end Handler

/-! ### Where a client is -/

inductive Place (Tid : Type) where
  | armed
  | held (thread : Tid)
  | fsck (dev : Dev)
  | subscribed (svc : Svc)
  | closed

def World.At {Tid : Type} (w : World Tid) (mfd : Client) : Place Tid → Prop
  | .armed => w.armed mfd = true
  | .held thread => mfd ∈ w.hands thread
  | .fsck dev => mfd ∈ (w.fsck dev).queue
  | .subscribed svc => mfd ∈ w.subscribers svc
  | .closed => w.isOpen mfd = false

/-- The threads of the server, before they have done anything. -/
def IsServerThread (ctx : ServerCtx) (p : ServerIo Unit) : Prop :=
  (∃ fuel, p = mogQueueLoop ctx fuel none) ∨ (∃ svc listener fuel, p = mogAcceptLoop svc listener fuel) ∨
  (∃ fuel, p = notifyLoop fuel)

end Cmogstored
