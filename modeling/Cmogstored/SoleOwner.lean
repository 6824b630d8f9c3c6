import Cmogstored.Script
import Cmogstored.ServerOwners

/-! Each client has one owner, whatever the threads do. -/

namespace Cmogstored

open Prog

variable {grip : Grip} {mfd : Client}

variable {Tid : Type}

/-- The client in the middle of a step. -/
def Grip.working (grip : Grip) : Option Client :=
  match grip.turn with
  | some (_, .saved _) => none
  | some (mfd, _) => some mfd
  | none => none

theorem Grip.working_eq_some (h : grip.working = some mfd) :
    ∃ phase, grip.turn = some (mfd, phase) := by
  unfold Grip.working at h
  split at h
  · cases h
  · cases h
    exact ⟨_, ‹_›⟩
  · cases h

theorem Grip.working_of_turn {phase : TurnPhase} (hturn : grip.turn = some (mfd, phase))
    (hphase : ∀ bare, phase ≠ .saved bare) : grip.working = some mfd := by
  unfold Grip.working
  rw [hturn]
  cases phase with
  | saved bare => exact absurd rfl (hphase bare)
  | _ => rfl

theorem Grip.working_drop (grip : Grip) (mfd : Client) :
    (grip.drop mfd).working = grip.working.filter (· ≠ mfd) := by
  unfold Grip.working Grip.drop
  cases hturn : grip.turn with
  | none => rfl
  | some turn =>
    obtain ⟨other, phase⟩ := turn
    by_cases hother : other = mfd
    · subst hother
      cases phase <;> simp [Option.filter_some]
    · cases phase <;> simp [Option.filter_some, hother]

/-- A thread works on the struct of the client that it is stepping. -/
def Working (w : World Tid) (grips : Tid → Grip) : Prop := ∀ thread, w.stepping thread = (grips thread).working

section Working

variable [DecidableEq Tid] {w w' : World Tid} {grips : Tid → Grip} {thread : Tid} {grip : Grip} {mfd : Client}

theorem Working.step (h : Working w grips)
    (hstepping : w'.stepping = Function.update w.stepping thread grip.working) :
    Working w' (Function.update grips thread grip) := by
  intro other
  rw [hstepping]
  by_cases hother : other = thread
  · subst hother
    rw [Function.update_self, Function.update_self]
  · rw [Function.update_of_ne hother, Function.update_of_ne hother]
    exact h other

/-- The step goes on. -/
theorem Working.same (h : Working w grips) (hstepping : w'.stepping = w.stepping)
    (hworking : grip.working = (grips thread).working) : Working w' (Function.update grips thread grip) :=
  h.step (by rw [hstepping, hworking, ← h thread, Function.update_eq_self])

/-- The thread passes a client on. -/
theorem Working.drop (h : Working w grips) (mfd : Client)
    (hstepping : w'.stepping = Function.update w.stepping thread ((w.stepping thread).filter (· ≠ mfd))) :
    Working w' (Function.update grips thread ((grips thread).drop mfd)) :=
  h.step (by rw [hstepping, h thread, Grip.working_drop])

/-- The client of a step has come from one phase to another. -/
theorem Working.goes_on (h : Working w grips) {phase phase' : TurnPhase} (hstepping : w'.stepping = w.stepping)
    (hturn : (grips thread).turn = some (mfd, phase)) (hphase : ∀ bare, phase ≠ .saved bare)
    (hturn' : grip.turn = some (mfd, phase')) (hphase' : ∀ bare, phase' ≠ .saved bare) :
    Working w' (Function.update grips thread grip) :=
  h.same hstepping (by rw [Grip.working_of_turn hturn hphase, Grip.working_of_turn hturn' hphase'])

theorem working_keeps (fstat : Fstat) :
    Keeps (serverHandles fstat : Handler Tid _ _ _) gripContract
      fun w grips => ServerInv w grips ∧ Working w grips := by
  rintro w grips thread request answer w' ⟨hinv, h⟩ hmust hhandles
  obtain ⟨hmay, hinv'⟩ := serverInv_keeps fstat w grips thread request answer w' hinv hmust hhandles
  refine ⟨hmay, hinv', ?_⟩
  have hquiet : ∀ (w' : World Tid) (grip : Grip), w'.stepping = w.stepping → grip.turn = (grips thread).turn →
      Working w' (Function.update grips thread grip) := fun w' grip hw hturn =>
    h.same hw (by unfold Grip.working; rw [hturn])
  cases request with
  | idleqWait forever =>
    cases answer with
    | none =>
      obtain rfl : w' = w := hhandles
      exact hquiet _ _ rfl rfl
    | some mfd =>
      obtain ⟨-, rfl⟩ := hhandles
      exact hquiet _ _ rfl rfl
  | idleqAdd mfd ev =>
    obtain rfl : w' = _ := hhandles
    exact h.drop mfd rfl
  | idleqPush mfd ev =>
    obtain rfl : w' = _ := hhandles
    exact h.drop mfd rfl
  | activeqPush mfd =>
    obtain rfl : w' = _ := hhandles
    exact h.drop mfd rfl
  | conn mfd =>
    obtain ⟨rfl, rfl⟩ := hhandles
    refine h.step (congrArg (Function.update w.stepping thread) (Grip.working_of_turn rfl ?_).symm)
    split <;> exact nofun
  | peek mfd =>
    obtain ⟨-, rfl⟩ := hhandles
    exact hquiet _ _ rfl rfl
  | save mfd conn =>
    obtain rfl : w' = _ := hhandles
    exact h.step rfl
  | http mfd request =>
    obtain rfl : w' = w := hhandles
    exact hquiet _ _ rfl rfl
  | mgmt mfd request =>
    have hhandles : if opensFile request then _ else _ := hhandles
    split at hhandles
    · obtain ⟨outcome, -, rfl⟩ := hhandles
      exact hquiet _ _ rfl rfl
    · obtain rfl : w' = w := hhandles
      exact hquiet _ _ rfl rfl
  | fsckQueueFor mfd fd stage =>
    cases stage with
    | ready =>
      cases answer <;> obtain ⟨-, rfl⟩ := hhandles <;>
        exact h.goes_on rfl hmust.2 nofun rfl nofun
    | next =>
      obtain ⟨-, slot, hturn⟩ := hmust
      cases answer <;> obtain ⟨-, rfl⟩ := hhandles <;>
        exact h.goes_on rfl hturn nofun rfl nofun
  | fsckReady dev mfd =>
    cases answer with
    | true =>
      obtain ⟨-, rfl⟩ := hhandles
      exact h.goes_on rfl hmust.2 nofun rfl nofun
    | false =>
      obtain ⟨-, rfl⟩ := hhandles
      exact h.drop mfd rfl
  | fsckNext dev mfd =>
    refine h.goes_on ?_ hmust.2 nofun rfl nofun
    rcases nextHandles_cases hhandles with ⟨-, rfl, -⟩ | ⟨first, rest, -, -, rfl⟩ <;> rfl
  | subscribe mfd =>
    obtain ⟨-, rfl⟩ := hhandles
    exact h.drop mfd rfl
  | fdPut mfd =>
    obtain rfl : w' = _ := hhandles
    exact h.drop mfd rfl
  | accept svc =>
    cases answer with
    | none =>
      obtain rfl : w' = w := hhandles
      exact hquiet _ _ rfl rfl
    | some mfd =>
      obtain ⟨-, rfl⟩ := hhandles
      exact hquiet _ _ rfl rfl
  | notified =>
    obtain rfl : w' = w := hhandles
    exact hquiet _ _ rfl rfl
  | devstatsLock svc =>
    obtain ⟨-, -, rfl⟩ := hhandles
    exact hquiet _ _ rfl rfl
  | devstatsWrite svc mfd =>
    cases answer with
    | null =>
      obtain rfl : w' = w := hhandles
      exact hquiet _ _ rfl rfl
    | error =>
      obtain rfl : w' = _ := hhandles
      exact hquiet _ _ rfl rfl
    | pending buf off =>
      obtain rfl : w' = _ := hhandles
      exact hquiet _ _ rfl rfl
  | devstatsUnlock svc =>
    obtain rfl : w' = _ := hhandles
    exact hquiet _ _ rfl rfl

end Working

/-! ### Every state of the server -/

/-- The client that a call acts on. -/
def ServerCall.actsOn : ServerCall → Option Client
  | .idleqAdd mfd _ => some mfd
  | .idleqPush mfd _ => some mfd
  | .activeqPush mfd => some mfd
  | .conn mfd => some mfd
  | .save mfd _ => some mfd
  | .http mfd _ => some mfd
  | .mgmt mfd _ => some mfd
  | .fsckQueueFor mfd _ _ => some mfd
  | .fsckReady _ mfd => some mfd
  | .fsckNext _ mfd => some mfd
  | .subscribe mfd => some mfd
  | .fdPut mfd => some mfd
  | _ => none

/-- The calls in which a thread may sleep for as long as it takes. -/
def ServerCall.Sleeps : ServerCall → Prop
  | .idleqWait forever => forever = true
  | .accept _ => True
  | .notified => True
  | _ => False

theorem Grip.must.held {request : ServerCall} (h : grip.must request)
    (hacts : request.actsOn = some mfd) : mfd ∈ grip.held := by
  cases request with
  | fsckQueueFor other fd stage =>
    cases hacts
    cases stage with
    | ready => exact h.1
    | next => exact h.1
  | idleqAdd | idleqPush | activeqPush | conn | save | http | mgmt | fsckReady | fsckNext | subscribe | fdPut =>
    cases hacts
    exact h.1
  | _ => cases hacts

theorem Grip.must.empty {request : ServerCall} (h : grip.must request) (hsleeps : request.Sleeps) :
    grip.held = [] := by
  cases request with
  | idleqWait forever =>
    have hforever : forever = true := hsleeps
    subst hforever
    exact h.1
  | accept svc => exact h.1
  | notified => exact h.1
  | _ => exact hsleeps.elim

variable [DecidableEq Tid]

abbrev ServerConfig (Tid : Type) := Config Tid (World Tid) ServerCall ServerRes Unit

/-- The state of a server whose threads have not done anything yet. -/
def serverStart (threads : Tid → ServerIo Unit) : ServerConfig Tid where
  world := .start
  threads := threads

/-- **Each client has one owner.** -/
structure OneOwner (config : ServerConfig Tid) : Prop where
  /-- a client is armed, held by a thread, linked in an fsck queue, linked among the subscribers, or
  closed, and only one of these -/
  place : ∀ mfd, ∃! place, config.world.At mfd place
  /-- and it is linked only once -/
  fsck : ∀ dev, (config.world.fsck dev).queue.Nodup
  subscribers : ∀ svc, (config.world.subscribers svc).Nodup
  /-- a subscriber is linked in the list of its service, and has no buffers -/
  svc : ∀ svc mfd, mfd ∈ config.world.subscribers svc →
    config.world.svcOf mfd = svc ∧ (config.world.conns mfd).bare = true
  /-- a thread acts on the clients that it holds -/
  acts : ∀ thread request next mfd, config.threads thread = .call request next →
    request.actsOn = some mfd → mfd ∈ config.world.hands thread
  /-- or on a subscriber under the lock -/
  writes : ∀ thread svc mfd next, config.threads thread = .call (.devstatsWrite svc mfd) next →
    mfd ∈ config.world.subscribers svc ∧ config.world.lock svc = some thread
  /-- it holds the client from the beginning of `mog_queue_step` until it has done with the struct -/
  steps : ∀ thread mfd, config.world.stepping thread = some mfd → mfd ∈ config.world.hands thread
  /-- so that no client is stepped twice at once -/
  once : ∀ thread thread' mfd, config.world.stepping thread = some mfd →
    config.world.stepping thread' = some mfd → thread = thread'
  /-- a thread that sleeps has forgotten no client -/
  sleeps : ∀ thread request next, config.threads thread = .call request next → request.Sleeps →
    config.world.hands thread = []
  /-- and no client that is open is forgotten -/
  kept : ∀ mfd, config.world.isOpen mfd = true → config.world.armed mfd = true ∨
    (∃ thread, mfd ∈ config.world.hands thread) ∨ (∃ dev, mfd ∈ (config.world.fsck dev).queue) ∨
    ∃ svc, mfd ∈ config.world.subscribers svc

omit [DecidableEq Tid] in
theorem OneOwner.of_safe {config : ServerConfig Tid} {grips : Tid → Grip}
    (h : config.Safe gripContract (fun _ _ => True) (fun w grips => ServerInv w grips ∧ Working w grips) grips) :
    OneOwner config := by
  obtain ⟨hinv, hworking⟩ := h.inv
  have hsteps : ∀ thread mfd, config.world.stepping thread = some mfd → mfd ∈ config.world.hands thread := by
    intro thread mfd hstepping
    rw [hworking thread] at hstepping
    obtain ⟨phase, hturn⟩ := Grip.working_eq_some hstepping
    rw [hinv.hands]
    exact hinv.turn thread mfd phase hturn
  refine ⟨hinv.owned.place, hinv.owned.fsck, hinv.owned.subscribers,
    fun svc mfd hlinked => ⟨hinv.svc svc mfd hlinked, hinv.bare svc mfd hlinked⟩, ?_, ?_, hsteps, ?_, ?_, ?_⟩
  · intro thread request next mfd hthread hacts
    have hmust : (grips thread).must request := h.must hthread
    rw [hinv.hands]
    exact hmust.held hacts
  · intro thread svc mfd next hthread
    obtain ⟨rest, hlisting⟩ := h.must hthread
    obtain ⟨-, hlocked, hlinked, -⟩ := hinv.listed hlisting
    exact ⟨hlinked, hlocked⟩
  · intro thread thread' mfd hstepping hstepping'
    have hat : config.world.At mfd (.held thread) := hsteps thread mfd hstepping
    have hat' : config.world.At mfd (.held thread') := hsteps thread' mfd hstepping'
    exact Place.held.inj (hinv.owned.eq hat hat')
  · intro thread request next hthread hsleeps
    have hmust : (grips thread).must request := h.must hthread
    rw [hinv.hands]
    exact hmust.empty hsleeps
  · intro mfd hopen
    obtain ⟨place, hplace, -⟩ := hinv.owned.place mfd
    cases place with
    | armed => exact Or.inl hplace
    | held thread => exact Or.inr (Or.inl ⟨thread, hplace⟩)
    | fsck dev => exact Or.inr (Or.inr (Or.inl ⟨dev, hplace⟩))
    | subscribed svc => exact Or.inr (Or.inr (Or.inr ⟨svc, hplace⟩))
    | closed => exact absurd hopen (Bool.eq_false_iff.mp hplace)

/-- **Each client has one owner in every state that the threads of the server can reach.** -/
theorem each_client_has_one_owner (ctx : ServerCtx) (fstat : Fstat) (threads : Tid → ServerIo Unit)
    (hthreads : ∀ thread, IsServerThread ctx (threads thread)) (config : ServerConfig Tid)
    (hreaches : Config.Reaches (serverHandles fstat) (serverStart threads) config) : OneOwner config := by
  have hstart : (serverStart threads).Safe gripContract (fun _ _ => True)
      (fun w grips => ServerInv w grips ∧ Working w grips) fun _ => .start :=
    ⟨⟨serverInv_start, fun _ => rfl⟩, fun thread => wp_serverThread (hthreads thread)⟩
  obtain ⟨grips, hsafe⟩ := hstart.reaches (working_keeps fstat) hreaches
  exact .of_safe hsafe

/-- A thread that accepts one management client, and one that steps it. -/
def twoThreads : Bool → ServerIo Unit
  | true => mogAcceptLoop 0 .mgmt 2
  | false => mogQueueLoop ⟨zeroHashCtx, plainCtx⟩ 8 none

theorem twoThreads_server (thread : Bool) : IsServerThread ⟨zeroHashCtx, plainCtx⟩ (twoThreads thread) := by
  cases thread with
  | true => exact Or.inr (Or.inl ⟨0, .mgmt, 2, rfl⟩)
  | false => exact Or.inl ⟨8, rfl⟩

abbrev ServerRun := Trace ServerCall ServerRes

/-- Client 5 is accepted. -/
def acceptRun : ServerRun :=
  [⟨.accept 0, some 5⟩, ⟨.save 5 (.mgmt mogMgmtInit), ()⟩, ⟨.idleqAdd 5 .rd, ()⟩]

theorem accept_runs : Runs (twoThreads true) acceptRun (mogAcceptLoop 0 .mgmt 1) := .cons (.cons (.cons (.nil _)))

def acceptedWorld : World Bool :=
  (((World.start.accepted true 0 5).setConn 5 (.mgmt mogMgmtInit)).setStepping true none).arm true 5

theorem accept_handled {fstat : Fstat} : Handled (serverHandles fstat) true .start acceptRun acceptedWorld :=
  .cons ⟨rfl, rfl⟩ (.cons rfl (.cons rfl (.nil _)))

/-- The thread that steps the client has read nothing yet. -/
theorem each_client_has_one_owner_stepped : ∃ config : ServerConfig Bool,
    config.world.stepping false = some 5 ∧ config.world.At 5 (.held false) ∧ OneOwner config := by
  let fstat : Fstat := ⟨fun _ => True, fun _ _ => True⟩
  have hruns : Runs (twoThreads false) [⟨.idleqWait true, some 5⟩, ⟨.conn 5, .mgmt mogMgmtInit⟩] _ :=
    .cons (.cons (.nil _))
  have hhandled : Handled (serverHandles fstat) false acceptedWorld
      [⟨.idleqWait true, some 5⟩, ⟨.conn 5, .mgmt mogMgmtInit⟩] _ :=
    .cons ⟨rfl, rfl⟩ (.cons ⟨rfl, rfl⟩ (.nil _))
  have haccepted : Config.Reaches (serverHandles fstat) (serverStart twoThreads) _ :=
    .of_runs accept_runs accept_handled rfl
  have hreaches := haccepted.trans (Config.Reaches.of_runs hruns hhandled rfl)
  exact ⟨_, rfl, List.mem_singleton_self 5,
    each_client_has_one_owner _ fstat twoThreads twoThreads_server _ hreaches⟩

end Cmogstored
