import Cmogstored.FsckSlots

/-! What the fsck queues are good for, and what becomes of them when `fstat` says now this, now that. -/

namespace Cmogstored

open Prog

variable {Tid : Type} [DecidableEq Tid]

/-- A client that `mog_fsck_queue_next` has taken out of the queue of the device and has queued again, and
that has not been in `mog_fsck_queue_ready` since. -/
def OnItsWay (w : World Tid) (dev : Dev) (mfd : Client) : Prop :=
  mfd ∈ w.woken dev ∧ (w.conns mfd).due = true ∧ (w.armed mfd = true ∨ ∃ thread, mfd ∈ w.hands thread)

section Waiting

variable {w : World Tid} {grips : Tid → Grip} {dev : Dev}

omit [DecidableEq Tid] in
/-- Nobody waits for a free slot without somebody on its way to take it. -/
theorem FsckInv.waits (h : FsckInv w grips) (hqueue : (w.fsck dev).queue ≠ []) :
    (w.fsck dev).active = maxActive ∨ ∃ mfd, OnItsWay w dev mfd := by
  cases hwoken : w.woken dev with
  | nil =>
    have hwakes := (h.slots dev).wakes hqueue
    rw [hwoken] at hwakes
    exact Or.inl (Nat.le_antisymm (h.slots dev).le hwakes)
  | cons mfd rest =>
    have hmem : mfd ∈ w.woken dev := by
      rw [hwoken]
      exact List.mem_cons_self ..
    obtain ⟨-, hdue, hplace⟩ := (h.turns.waiting mfd).woken dev hmem
    exact Or.inr ⟨mfd, hmem, hdue, hplace⟩

end Waiting

omit [DecidableEq Tid] in
theorem fsckInv_start : FsckInv (.start : World Tid) fun _ => .start where
  inv := serverInv_start
  working _ := rfl
  turns := {
    waiting := fun _ => ⟨fun _ hmem => absurd hmem List.not_mem_nil, fun _ hmem => absurd hmem List.not_mem_nil, nofun⟩
    fits := nofun
    digest := nofun
    fresh := nofun }
  slots _ := {
    nodup := List.nodup_nil
    mem := fun _ => iff_of_false List.not_mem_nil nofun
    active := rfl
    le := Nat.zero_le _
    woken := List.nodup_nil
    wakes := fun hne => absurd rfl hne }

/-! ### `fstat` succeeds -/

/-- There is always a queue to be found. -/
def Found (w : World Tid) : Prop := ∀ mfd, (w.outcome mfd).isSome = true ∧ w.digest mfd ≠ some none

/-- **One digest a device, and no waiter is lost.** -/
structure OneDigest (w : World Tid) (dev : Dev) : Prop where
  /-- those between a true return of `mog_fsck_queue_ready` and `mog_fsck_queue_next` -/
  nodup : (w.running dev).Nodup
  mem : ∀ mfd, mfd ∈ w.running dev ↔ w.digest mfd = some (some dev)
  /-- have a slot each -/
  slot : ∀ mfd, w.digest mfd ≠ some none
  active : (w.fsck dev).active = (w.running dev).length
  le : (w.fsck dev).active ≤ maxActive
  /-- no client is linked twice -/
  queue : (w.fsck dev).queue.Nodup
  linked : ∀ mfd dev', mfd ∈ (w.fsck dev).queue → mfd ∈ (w.fsck dev').queue → dev = dev'
  waits : (w.fsck dev).queue ≠ [] → (w.fsck dev).active = maxActive ∨ ∃ mfd, OnItsWay w dev mfd

theorem serverHandles_mono {fstat fstat' : Fstat} (hopens : ∀ outcome, fstat.opens outcome → fstat'.opens outcome)
    (hanswers : ∀ outcome answer, fstat.answers outcome answer → fstat'.answers outcome answer)
    {w w' : World Tid} {thread : Tid} {request : ServerCall} {answer : ServerRes request}
    (h : serverHandles fstat w thread request answer w') : serverHandles fstat' w thread request answer w' := by
  cases request with
  | mgmt mfd request =>
    have h : if opensFile request then _ else _ := h
    show if opensFile request then _ else _
    split at h
    · obtain ⟨outcome, houtcome, hw⟩ := h
      rw [if_pos ‹_›]
      exact ⟨outcome, hopens outcome houtcome, hw⟩
    · rw [if_neg ‹_›]
      exact h
  | fsckQueueFor mfd fd stage =>
    cases stage <;> cases answer <;> exact ⟨hanswers _ _ h.1, h.2⟩
  | idleqWait forever => cases answer <;> exact h
  | fsckReady dev mfd => cases answer <;> exact h
  | accept svc => cases answer <;> exact h
  | devstatsWrite svc mfd => cases answer <;> exact h
  | _ => exact h

section Succeeding

variable {w w' : World Tid} {grips : Tid → Grip} {thread : Tid}

/-- Where `fstat` succeeds it agrees. -/
theorem agreeing_of_succeeding {request : ServerCall} {answer : ServerRes request} (h : FsckInv w grips)
    (hfound : Found w) (hmust : (grips thread).must request)
    (hhandles : serverHandles .succeeding w thread request answer w') :
    agreeingHandles w thread request answer w' := by
  have hopens : ∀ outcome, Fstat.succeeding.opens outcome → Fstat.independent.opens outcome := fun _ h => h
  refine ⟨serverHandles_mono hopens (fun _ _ hanswers => Or.inl hanswers) hhandles, ?_⟩
  cases request with
  | fsckQueueFor mfd fd stage =>
    obtain ⟨hsome, hslot⟩ := hfound mfd
    have hanswer : answer = w.outcome mfd := by
      cases stage <;> cases answer <;> exact hhandles.1
    cases stage with
    | ready =>
      rintro rfl
      rw [← hanswer] at hsome
      cases hsome
    | next =>
      show w.digest mfd = some answer
      obtain ⟨-, slot, hturn⟩ := hmust
      obtain ⟨hdigest, -⟩ := h.turns.fits _ _ _ hturn
      cases slot with
      | none => exact absurd hdigest hslot
      | some dev => rw [hdigest, hanswer, (h.turns.waiting mfd).slot dev hdigest]
  | _ => trivial

omit [DecidableEq Tid] in
theorem Found.of_update {mfd : Client} {slot : Option (Option Dev)} (h : Found w)
    (houtcome : w'.outcome = w.outcome) (hdigest : w'.digest = Function.update w.digest mfd slot)
    (hslot : slot ≠ some none) : Found w' := by
  intro other
  rw [houtcome, hdigest]
  refine ⟨(h other).1, ?_⟩
  by_cases hother : other = mfd
  · subst hother
    rwa [Function.update_self]
  · rw [Function.update_of_ne hother]
    exact (h other).2

theorem Found.step {request : ServerCall} {answer : ServerRes request} (h : Found w)
    (hhandles : serverHandles .succeeding w thread request answer w') : Found w' := by
  have hsame : ∀ next : World Tid, w' = next → next.outcome = w.outcome → next.digest = w.digest → Found w' := by
    rintro next rfl houtcome hdigest other
    rw [houtcome, hdigest]
    exact h other
  cases request with
  | idleqWait forever =>
    cases answer with
    | none => exact hsame _ hhandles rfl rfl
    | some mfd => exact hsame _ hhandles.2 rfl rfl
  | conn mfd => exact hsame _ hhandles.2 rfl rfl
  | peek mfd => exact hsame _ hhandles.2 rfl rfl
  | mgmt mfd request =>
    have hhandles : if opensFile request then _ else _ := hhandles
    split at hhandles
    · obtain ⟨outcome, hopens, rfl⟩ := hhandles
      intro other
      refine ⟨?_, (h other).2⟩
      show (Function.update w.outcome mfd outcome other).isSome = true
      by_cases hother : other = mfd
      · subst hother
        rw [Function.update_self]
        exact hopens
      · rw [Function.update_of_ne hother]
        exact (h other).1
    · exact hsame _ hhandles rfl rfl
  | fsckQueueFor mfd fd stage =>
    cases answer with
    | none =>
      -- a failed `fstat` is none of those that succeed
      have hanswer : none = w.outcome mfd := by cases stage <;> exact hhandles.1
      have hsome := (h mfd).1
      rw [← hanswer] at hsome
      cases hsome
    | some dev => cases stage <;> exact hsame _ hhandles.2 rfl rfl
  | fsckReady dev mfd =>
    cases answer with
    | true =>
      obtain ⟨-, rfl⟩ := hhandles
      exact h.of_update rfl rfl nofun
    | false =>
      obtain ⟨-, rfl⟩ := hhandles
      exact h.of_update rfl rfl nofun
  | fsckNext dev mfd =>
    rcases nextHandles_cases hhandles with ⟨-, rfl, -⟩ | ⟨first, rest, -, -, rfl⟩ <;>
      exact h.of_update rfl rfl nofun
  | subscribe mfd => exact hsame _ hhandles.2 rfl rfl
  | accept svc =>
    cases answer with
    | none => exact hsame _ hhandles rfl rfl
    | some mfd => exact hsame _ hhandles.2 rfl rfl
  | devstatsLock svc => exact hsame _ hhandles.2.2 rfl rfl
  | devstatsWrite svc mfd => cases answer <;> exact hsame _ hhandles rfl rfl
  | _ => exact hsame _ hhandles rfl rfl

end Succeeding

theorem found_keeps : Keeps (serverHandles .succeeding : Handler Tid _ _ _) gripContract fun w grips =>
    FsckInv w grips ∧ Found w := by
  rintro w grips thread request answer w' ⟨h, hfound⟩ hmust hhandles
  obtain ⟨hmay, hinv⟩ := fsckInv_keeps w grips thread request answer w' h hmust
    (agreeing_of_succeeding h hfound hmust hhandles)
  exact ⟨hmay, hinv, hfound.step hhandles⟩

/-- **The fsck queue admits one digest a device and loses no waiter**, in every state that the threads of
the server can reach. -/
theorem fsck_queue_one_digest (ctx : ServerCtx) (threads : Tid → ServerIo Unit)
    (hthreads : ∀ thread, IsServerThread ctx (threads thread)) (config : ServerConfig Tid)
    (hreaches : Config.Reaches (serverHandles .succeeding) (serverStart threads) config) (dev : Dev) :
    OneDigest config.world dev := by
  have hstart : (serverStart threads).Safe gripContract (fun _ _ => True)
      (fun w grips => FsckInv w grips ∧ Found w) fun _ => .start :=
    ⟨⟨fsckInv_start, fun _ => ⟨rfl, nofun⟩⟩, fun thread => wp_serverThread (hthreads thread)⟩
  obtain ⟨grips, ⟨h, hfound⟩, -⟩ := hstart.reaches found_keeps hreaches
  obtain ⟨hnodup, hmem, hactive, hle, -, -⟩ := h.slots dev
  refine ⟨hnodup, hmem, fun mfd => (hfound mfd).2, hactive, hle, h.inv.owned.fsck dev, ?_, h.waits⟩
  intro mfd dev' hlinked hlinked'
  have hat : config.world.At mfd (.fsck dev) := hlinked
  have hat' : config.world.At mfd (.fsck dev') := hlinked'
  exact Place.fsck.inj (h.inv.owned.eq hat hat')

/-! ### `fstat` may fail -/

/-- **The slots are accounted for.** -/
structure SlotsSurvive (config : ServerConfig Tid) (dev : Dev) : Prop where
  /-- those whose increment has not been undone -/
  nodup : (config.world.running dev).Nodup
  /-- who takes a slot has none -/
  takes : ∀ thread mfd next, config.threads thread = .call (.fsckReady dev mfd) next →
    mfd ∉ config.world.running dev
  /-- who gives a slot back has it -/
  gives : ∀ thread mfd next, config.threads thread = .call (.fsckNext dev mfd) next →
    mfd ∈ config.world.running dev
  /-- and has given it back when the step is over -/
  ends : ∀ mfd ∈ config.world.running dev, ∃ thread, config.world.stepping thread = some mfd
  /-- `active` does not wrap -/
  active : (config.world.fsck dev).active = (config.world.running dev).length
  le : (config.world.fsck dev).active ≤ maxActive
  /-- once all digests have ended nobody is left waiting without somebody who will wake him -/
  drained : config.world.running dev = [] → (config.world.fsck dev).active = 0 ∧
    ((config.world.fsck dev).queue ≠ [] → ∃ mfd, OnItsWay config.world dev mfd)

omit [DecidableEq Tid] in
theorem SlotsSurvive.of_safe {config : ServerConfig Tid} {grips : Tid → Grip}
    (hsafe : config.Safe gripContract (fun _ _ => True) FsckInv grips) (dev : Dev) : SlotsSurvive config dev := by
  have h := hsafe.inv
  obtain ⟨hnodup, hmem, hactive, hle, -, -⟩ := h.slots dev
  refine ⟨hnodup, ?_, ?_, ?_, hactive, hle, fun hnone => ?_⟩
  · intro thread mfd next hthread hrunning
    obtain ⟨-, hturn⟩ := hsafe.must hthread
    obtain ⟨-, hdigest, -⟩ := h.turns.fits _ _ _ hturn
    rw [hmem, hdigest] at hrunning
    cases hrunning
  · intro thread mfd next hthread
    obtain ⟨-, hturn⟩ := hsafe.must hthread
    exact (hmem mfd).mpr (h.turns.fits _ _ _ hturn).1
  · intro mfd hrunning
    have hdigest := (hmem mfd).mp hrunning
    obtain ⟨thread, phase, hturn⟩ := h.turns.digest mfd _ hdigest
    refine ⟨thread, (h.working thread).trans (Grip.working_of_turn hturn ?_)⟩
    rintro bare rfl
    rw [(h.turns.fits _ _ _ hturn).1] at hdigest
    cases hdigest
  · have hzero : (config.world.fsck dev).active = 0 := by rw [hactive, hnone]; rfl
    refine ⟨hzero, fun hqueue => (h.waits hqueue).resolve_left ?_⟩
    rw [hzero]
    exact nofun

/-- **The slots survive as long as `fstat` agrees**: in every state reached by steps in which it does. -/
theorem fsck_slots_survive (ctx : ServerCtx) (threads : Tid → ServerIo Unit)
    (hthreads : ∀ thread, IsServerThread ctx (threads thread)) (config : ServerConfig Tid)
    (hreaches : Config.Reaches agreeingHandles (serverStart threads) config) (dev : Dev) :
    SlotsSurvive config dev := by
  have hstart : (serverStart threads).Safe gripContract (fun _ _ => True) FsckInv fun _ => .start :=
    ⟨fsckInv_start, fun thread => wp_serverThread (hthreads thread)⟩
  obtain ⟨grips, hsafe⟩ := hstart.reaches fsckInv_keeps hreaches
  exact .of_safe hsafe dev

/-! ### A digest, call by call -/

/-- The client has asked for a digest of low priority. -/
def digestDue : Mgmt :=
  { mogMgmtInit with
    prio := .fsck
    forward := .file
      { fd := 3, fsize := -1, foff := 0, path := some (ascii "/dev1/a"), tmppath := none, digest := some [] } }

/-- The line is read, the file is opened, and the step of the digest begins. -/
def dueRun : ServerRun :=
  [⟨.idleqWait true, some 5⟩, ⟨.conn 5, .mgmt mogMgmtInit⟩,
    ⟨.mgmt 5 (.sys (.read 496)), .ok ⟨ascii "MD5 /dev1/a fsck\n", by decide⟩⟩,
    ⟨.mgmt 5 (.sys (.openRead (ascii "/dev1/a"))), .ok 3⟩, ⟨.save 5 (.mgmt digestDue), ()⟩,
    ⟨.idleqWait false, none⟩, ⟨.conn 5, .mgmt digestDue⟩]

/-- The file is empty, and the digest is sent. -/
def digestRun : ServerRun :=
  [⟨.mgmt 5 .ioprioDrop, 0⟩, ⟨.mgmt 5 (.readFile 3), .ok ⟨[], by decide⟩⟩, ⟨.mgmt 5 (.ioprioRestore 0), ()⟩,
    ⟨.mgmt 5 (.sys (.writev [ascii "/dev1/a", ascii " MD5=" ++ List.replicate 32 48 ++ [CR, LF]])), .ok 46⟩]

def dueWorld : World Bool :=
  let opened := (acceptedWorld.deliver false 5).setStepping false (some 5)
  let opened := { opened with outcome := Function.update opened.outcome 5 (some 0) }
  ((opened.setConn 5 (.mgmt digestDue)).setStepping false none).setStepping false (some 5)

section Runs

variable {fstat : Fstat}

theorem due_handled (hopens : fstat.opens (some 0)) :
    Handled (serverHandles fstat) false acceptedWorld dueRun dueWorld :=
  .cons ⟨rfl, rfl⟩ (.cons ⟨rfl, rfl⟩ (.cons rfl (.cons ⟨some 0, hopens, rfl⟩ (.cons rfl (.cons rfl
    (.cons ⟨rfl, rfl⟩ (.nil _)))))))

theorem digest_handled (w : World Bool) : Handled (serverHandles fstat) false w digestRun w :=
  .cons rfl (.cons rfl (.cons rfl (.cons rfl (.nil _))))

/-- After the client has been accepted and its digest is due the thread goes on. -/
theorem reaches_of_runs {run : ServerRun} {w : World Bool} {q : ServerIo Unit} (hopens : fstat.opens (some 0))
    (hhandled : Handled (serverHandles fstat) false dueWorld run w)
    (hruns : Runs (twoThreads false) (dueRun ++ run) q) :
    Config.Reaches (serverHandles fstat) (serverStart twoThreads)
      ⟨w, Function.update (Function.update twoThreads true (mogAcceptLoop 0 .mgmt 1)) false q⟩ :=
  (Config.Reaches.of_runs accept_runs accept_handled rfl).trans
    (Config.Reaches.of_runs hruns ((due_handled hopens).append hhandled) rfl)

end Runs

/-- The digest has a slot. -/
def slotRun : ServerRun := [⟨.fsckQueueFor 5 3 .ready, some 0⟩, ⟨.fsckReady 0 5, true⟩]

theorem slot_reached : ∃ config, Config.Reaches (serverHandles .succeeding) (serverStart twoThreads) config ∧
    config.world.running 0 = [5] := by
  have hruns : Runs (twoThreads false) (dueRun ++ slotRun) _ :=
    .cons (.cons (.cons (.cons (.cons (.cons (.cons (.cons (.cons (.nil _)))))))))
  have hhandled : Handled (serverHandles .succeeding) false dueWorld slotRun (dueWorld.takeSlot 0 5) :=
    .cons ⟨rfl, rfl⟩ (.cons ⟨Nat.one_pos, rfl⟩ (.nil _))
  exact ⟨_, reaches_of_runs rfl hhandled hruns, rfl⟩

theorem fsck_queue_one_digest_five : ∃ config : ServerConfig Bool,
    config.world.running 0 = [5] ∧ OneDigest config.world 0 := by
  obtain ⟨config, hreaches, hrunning⟩ := slot_reached
  exact ⟨config, hrunning, fsck_queue_one_digest _ twoThreads twoThreads_server config hreaches 0⟩

/-- `fstat` fails in `mog_fsck_queue_ready` and succeeds in `mog_fsck_queue_next`. -/
def wrapRun : ServerRun :=
  ⟨.fsckQueueFor 5 3 .ready, none⟩ :: digestRun ++ [⟨.fsckQueueFor 5 3 .next, some 0⟩, ⟨.fsckNext 0 5, none⟩]

/-- It fails in `mog_fsck_queue_next`, and the step is over. -/
def failedRun : ServerRun :=
  [⟨.fsckQueueFor 5 3 .next, none⟩, ⟨.mgmt 5 (.sys (.close 3)), ()⟩, ⟨.save 5 (.mgmt mogMgmtInit), ()⟩]

/-- `fstat` succeeds in `mog_fsck_queue_ready` and fails in `mog_fsck_queue_next`. -/
def leakRun : ServerRun := slotRun ++ digestRun ++ failedRun

/-- A slot that nobody took. -/
theorem dueWorld_active : (((dueWorld.asked 5 (some none)).giveSlot 0 5).fsck 0).active = 2 ^ 64 - 1 := by
  show (0 + (2 ^ 64 - 1)) % 2 ^ 64 = 2 ^ 64 - 1
  omega

theorem wrap_reached : ∃ config, Config.Reaches (serverHandles .independent) (serverStart twoThreads) config ∧
    config.world.running 0 = [] ∧ (config.world.fsck 0).active = 2 ^ 64 - 1 := by
  have hruns : Runs (twoThreads false) (dueRun ++ wrapRun) _ :=
    .cons (.cons (.cons (.cons (.cons (.cons (.cons (.cons (.cons (.cons (.cons (.cons (.cons (.cons
      (.nil _))))))))))))))
  have hfull : ¬ (((dueWorld.asked 5 (some none)).giveSlot 0 5).fsck 0).active < maxActive := by
    rw [dueWorld_active]
    decide
  have hnext : nextHandles (dueWorld.asked 5 (some none)) false 0 5 none
      ((dueWorld.asked 5 (some none)).giveSlot 0 5) := by
    unfold nextHandles
    dsimp only
    rw [if_neg hfull]
    exact ⟨rfl, rfl⟩
  have hhandled : Handled (serverHandles .independent) false dueWorld wrapRun
      ((dueWorld.asked 5 (some none)).giveSlot 0 5) :=
    .cons ⟨Or.inr rfl, rfl⟩ ((digest_handled _).append (.cons ⟨Or.inl rfl, rfl⟩ (.cons hnext (.nil _))))
  exact ⟨_, reaches_of_runs rfl hhandled hruns, rfl, dueWorld_active⟩

theorem leak_reached : ∃ config, Config.Reaches (serverHandles .independent) (serverStart twoThreads) config ∧
    config.world.running 0 = [5] ∧ ∀ thread, config.world.stepping thread = none := by
  have hruns : Runs (twoThreads false) (dueRun ++ leakRun) _ :=
    .cons (.cons (.cons (.cons (.cons (.cons (.cons (.cons (.cons (.cons (.cons (.cons (.cons (.cons (.cons (.cons
      (.nil _))))))))))))))))
  have hslot : Handled (serverHandles .independent) false dueWorld slotRun (dueWorld.takeSlot 0 5) :=
    .cons ⟨Or.inl rfl, rfl⟩ (.cons ⟨Nat.one_pos, rfl⟩ (.nil _))
  have hleft : Handled (serverHandles .independent) false (dueWorld.takeSlot 0 5) failedRun _ :=
    .cons ⟨Or.inr rfl, rfl⟩ (.cons rfl (.cons rfl (.nil _)))
  refine ⟨_, reaches_of_runs rfl ((hslot.append (digest_handled _)).append hleft) hruns, rfl, fun thread => ?_⟩
  cases thread <;> rfl

/-- **The slots do not survive an `fstat` that changes its mind**: `active` is decremented by a client that
had not incremented it, and wraps; or it stays incremented after the digest. -/
theorem fsck_slots_lost :
    (∃ config, Config.Reaches (serverHandles .independent) (serverStart twoThreads) config ∧
      (config.world.fsck 0).active = 2 ^ 64 - 1 ∧ ¬ SlotsSurvive config 0) ∧
    ∃ config, Config.Reaches (serverHandles .independent) (serverStart twoThreads) config ∧
      config.world.running 0 = [5] ∧ (∀ thread, config.world.stepping thread = none) ∧ ¬ SlotsSurvive config 0 := by
  obtain ⟨config, hreaches, hnone, hactive⟩ := wrap_reached
  obtain ⟨config', hreaches', hrunning, hover⟩ := leak_reached
  refine ⟨⟨config, hreaches, hactive, fun h => ?_⟩, config', hreaches', hrunning, hover, fun h => ?_⟩
  · have hcount := h.active
    rw [hactive, hnone] at hcount
    exact absurd hcount (by decide)
  · obtain ⟨thread, hstepping⟩ := h.ends 5 (by rw [hrunning]; exact List.mem_singleton_self 5)
    rw [hover thread] at hstepping
    cases hstepping

theorem fsck_slots_survive_five : ∃ config : ServerConfig Bool,
    config.world.running 0 = [5] ∧ SlotsSurvive config 0 := by
  obtain ⟨config, hreaches, hrunning⟩ := slot_reached
  have hstart : (serverStart twoThreads).Safe gripContract (fun _ _ => True)
      (fun w grips => FsckInv w grips ∧ Found w) fun _ => .start :=
    ⟨⟨fsckInv_start, fun _ => ⟨rfl, nofun⟩⟩, fun thread => wp_serverThread (twoThreads_server thread)⟩
  have hagreeing := hstart.reaches_of found_keeps
    (fun _ _ _ _ _ _ hinv hmust hhandles => agreeing_of_succeeding hinv.1 hinv.2 hmust hhandles) hreaches
  exact ⟨config, hrunning, fsck_slots_survive _ twoThreads twoThreads_server config hagreeing 0⟩

end Cmogstored
