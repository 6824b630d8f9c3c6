import Cmogstored.ServerFsck

/-! The slots of the fsck queues. Both functions look the queue up with an `fstat` of their own. As long as
the two agree, `active` counts the digests that run, and nobody waits without somebody to wake him. -/

namespace Cmogstored

open List Prog

variable {Tid : Type}

/-! ### Counting -/

theorem FsckQueue.active_increment {fq : FsckQueue} (h : fq.active < maxActive) :
    fq.increment.active = fq.active + 1 := by
  have hmax : maxActive = 1 := rfl
  show (fq.active + 1) % 2 ^ 64 = fq.active + 1
  omega

theorem FsckQueue.active_decrement {fq : FsckQueue} (hpos : 0 < fq.active) (hle : fq.active ≤ maxActive) :
    fq.decrement.active = fq.active - 1 := by
  have hmax : maxActive = 1 := rfl
  show (fq.active + (2 ^ 64 - 1)) % 2 ^ 64 = fq.active - 1
  omega

theorem FsckQueue.queue_increment (fq : FsckQueue) : fq.increment.queue = fq.queue := by rw [increment]

section Slots

variable {w w' : World Tid} {dev : Dev} {mfd : Client}

theorem Slots.same (h : Slots w dev) (hfsck : w'.fsck dev = w.fsck dev) (hrunning : w'.running dev = w.running dev)
    (hdigest : ∀ mfd, w'.digest mfd = some (some dev) ↔ w.digest mfd = some (some dev))
    (hwoken : w'.woken dev = w.woken dev) : Slots w' dev := by
  refine ⟨by rw [hrunning]; exact h.nodup, fun mfd => ?_, by rw [hfsck, hrunning]; exact h.active,
    by rw [hfsck]; exact h.le, by rw [hwoken]; exact h.woken, by rw [hfsck, hwoken]; exact h.wakes⟩
  rw [hrunning, hdigest]
  exact h.mem mfd

/-- The digest of a client without a slot begins or ends. -/
theorem digest_without_slot {slot : Option (Option Dev)} (hbefore : ∀ dev, w.digest mfd ≠ some (some dev))
    (hafter : ∀ dev, slot ≠ some (some dev)) (dev : Dev) (other : Client) :
    Function.update w.digest mfd slot other = some (some dev) ↔ w.digest other = some (some dev) := by
  by_cases hother : other = mfd
  · subst hother
    rw [Function.update_self]
    exact iff_of_false (hafter dev) (hbefore dev)
  · rw [Function.update_of_ne hother]

/-- A client that asks is no more on its way. -/
theorem length_le_erase (woken : List Client) (mfd : Client) : woken.length ≤ (woken.erase mfd).length + 1 := by
  rw [length_erase]
  split <;> omega

theorem Slots.takeSlot (h : ∀ dev, Slots w dev) (hfree : (w.fsck dev).active < maxActive)
    (hdigest : w.digest mfd = none) (hwoken : ∀ dev', mfd ∈ w.woken dev' → dev' = dev) (dev' : Dev) :
    Slots (w.takeSlot dev mfd) dev' := by
  by_cases hdev : dev' = dev
  · subst hdev
    obtain ⟨hnodup, hmem, hactive, hle, hwokenNodup, hwakes⟩ := h dev'
    have hfsck : (w.takeSlot dev' mfd).fsck dev' = (w.fsck dev').increment := Function.update_self ..
    have hrunning : (w.takeSlot dev' mfd).running dev' = mfd :: w.running dev' := Function.update_self ..
    have hwoken' : (w.takeSlot dev' mfd).woken dev' = (w.woken dev').erase mfd := rfl
    have hcount := FsckQueue.active_increment hfree
    refine ⟨?_, fun other => ?_, ?_, ?_, hwokenNodup.erase mfd, ?_⟩
    · rw [hrunning]
      refine nodup_cons.mpr ⟨fun hrunning => ?_, hnodup⟩
      rw [hmem, hdigest] at hrunning
      cases hrunning
    · rw [hrunning, mem_cons, hmem]
      show _ ↔ Function.update w.digest mfd (some (some dev')) other = some (some dev')
      by_cases hother : other = mfd
      · subst hother
        rw [Function.update_self]
        exact iff_of_true (Or.inl rfl) rfl
      · rw [Function.update_of_ne hother, or_iff_right hother]
    · rw [hfsck, hrunning, hcount, hactive, length_cons]
    · rw [hfsck, hcount]
      exact hfree
    · rw [hfsck, hwoken', hcount, FsckQueue.queue_increment]
      intro hqueue
      have := hwakes hqueue
      have := length_le_erase (w.woken dev') mfd
      omega
  · refine (h dev').same (Function.update_of_ne hdev ..) (Function.update_of_ne hdev ..) (fun other => ?_)
      (erase_of_not_mem fun hmem => hdev (hwoken dev' hmem))
    show Function.update w.digest mfd (some (some dev)) other = some (some dev') ↔ _
    by_cases hother : other = mfd
    · subst hother
      rw [Function.update_self, hdigest]
      refine iff_of_false (fun heq => hdev ?_) nofun
      cases heq
      rfl
    · rw [Function.update_of_ne hother]

theorem Slots.enqueue [DecidableEq Tid] {thread : Tid} (h : ∀ dev, Slots w dev)
    (hfull : ¬ (w.fsck dev).active < maxActive) (hdigest : w.digest mfd = none)
    (hwoken : ∀ dev', mfd ∈ w.woken dev' → dev' = dev) (dev' : Dev) : Slots (w.enqueue thread dev mfd) dev' := by
  have hsame : ∀ dev' other, (w.enqueue thread dev mfd).digest other = some (some dev') ↔
      w.digest other = some (some dev') :=
    digest_without_slot (fun _ => by rw [hdigest]; nofun) nofun
  by_cases hdev : dev' = dev
  · subst hdev
    obtain ⟨hnodup, hmem, hactive, hle, hwokenNodup, -⟩ := h dev'
    have hcount : ((w.enqueue thread dev' mfd).fsck dev').active = (w.fsck dev').active := by
      show (Function.update w.fsck dev' _ dev').active = _
      rw [Function.update_self]
    refine ⟨hnodup, fun other => (hmem other).trans (hsame dev' other).symm, hcount.trans hactive,
      by rw [hcount]; exact hle, hwokenNodup.erase mfd, fun _ => ?_⟩
    rw [hcount]
    omega
  · exact (h dev').same (Function.update_of_ne hdev ..) rfl (hsame dev')
      (erase_of_not_mem fun hmem => hdev (hwoken dev' hmem))

/-- A slot is given back, and who waits for it, if anybody, is on its way. -/
theorem Slots.next [DecidableEq Tid] {thread : Tid} {answer : Option Client} (h : ∀ dev, Slots w dev)
    (hdigest : w.digest mfd = some (some dev)) (hqueued : ∀ other ∈ (w.fsck dev).queue, other ∉ w.woken dev)
    (hnext : nextHandles w thread dev mfd answer w') (dev' : Dev) : Slots w' dev' := by
  have hdigest' : ∀ other, (w.giveSlot dev mfd).digest other = Function.update w.digest mfd none other := fun _ => rfl
  by_cases hdev : dev' = dev
  · subst hdev
    obtain ⟨hnodup, hmem, hactive, hle, hwoken, hwakes⟩ := h dev'
    have hrunning := (hmem mfd).mpr hdigest
    have hlength := length_pos_of_mem hrunning
    have hfsck : (w.giveSlot dev' mfd).fsck dev' = (w.fsck dev').decrement := Function.update_self ..
    have hgiven : (w.giveSlot dev' mfd).running dev' = (w.running dev').erase mfd := Function.update_self ..
    have hcount := FsckQueue.active_decrement (by omega) hle
    have hmem' : ∀ other, other ∈ (w.giveSlot dev' mfd).running dev' ↔
        (w.giveSlot dev' mfd).digest other = some (some dev') := by
      intro other
      rw [hgiven, hnodup.mem_erase_iff, hmem, hdigest']
      by_cases hother : other = mfd
      · subst hother
        rw [Function.update_self]
        exact iff_of_false (fun hne => hne.1 rfl) nofun
      · rw [Function.update_of_ne hother, and_iff_right hother]
    have hactive' : ((w.giveSlot dev' mfd).fsck dev').active = ((w.giveSlot dev' mfd).running dev').length := by
      rw [hfsck, hcount, hgiven, length_erase_of_mem hrunning, hactive]
    have hle' : ((w.giveSlot dev' mfd).fsck dev').active ≤ maxActive := by
      rw [hfsck, hcount]
      omega
    have hnodup' : ((w.giveSlot dev' mfd).running dev').Nodup := by
      rw [hgiven]
      exact hnodup.erase mfd
    rcases nextHandles_cases hnext with ⟨-, rfl, hnobody⟩ | ⟨first, rest, hqueue, -, rfl⟩
    · refine ⟨hnodup', hmem', hactive', hle', hwoken, fun hne => ?_⟩
      rcases hnobody with hempty | hfull
      · rw [giveSlot_queue] at hne
        exact absurd hempty hne
      · exact Nat.le_add_right_of_le hfull
    · have hdequeued : (((w.giveSlot dev' mfd).dequeue thread dev' first rest).fsck dev').active =
          ((w.giveSlot dev' mfd).fsck dev').active := by
        show (Function.update (w.giveSlot dev' mfd).fsck dev' _ dev').active = _
        rw [Function.update_self]
      have hwoken' : ((w.giveSlot dev' mfd).dequeue thread dev' first rest).woken dev' =
          first :: w.woken dev' := Function.update_self ..
      refine ⟨hnodup', hmem', hdequeued.trans hactive', by rw [hdequeued]; exact hle', ?_, fun _ => ?_⟩
      · rw [hwoken']
        refine nodup_cons.mpr ⟨hqueued first ?_, hwoken⟩
        rw [hqueue]
        exact mem_cons_self ..
      · have := hwakes (by rw [hqueue]; exact cons_ne_nil _ _)
        rw [hdequeued, hfsck, hcount, hwoken', length_cons]
        omega
  · have hgiven : Slots (w.giveSlot dev mfd) dev' := by
      refine (h dev').same (Function.update_of_ne hdev ..) (Function.update_of_ne hdev ..) (fun other => ?_) rfl
      rw [hdigest']
      by_cases hother : other = mfd
      · subst hother
        rw [Function.update_self, hdigest]
        refine iff_of_false nofun fun heq => hdev ?_
        cases heq
        rfl
      · rw [Function.update_of_ne hother]
    rcases nextHandles_cases hnext with ⟨-, rfl, -⟩ | ⟨first, rest, -, -, rfl⟩
    · exact hgiven
    · exact hgiven.same (Function.update_of_ne hdev ..) rfl (fun _ => Iff.rfl) (Function.update_of_ne hdev ..)

end Slots

/-! ### What `fstat` says -/

/-- Each call of `fstat` succeeds or fails, whatever the others did. -/
def Fstat.independent : Fstat where
  opens outcome := outcome.isSome = true
  answers outcome answer := answer = outcome ∨ answer = none

/-- `fstat` succeeds. -/
def Fstat.succeeding : Fstat where
  opens outcome := outcome.isSome = true
  answers outcome answer := answer = outcome

/-- The two calls of `fstat` for a digest agree: the one in `mog_fsck_queue_next` says what the one in
`mog_fsck_queue_ready` said when the digest began, and a client that comes from the queue, where it got
only because `fstat` succeeded, is not refused by it now. -/
def FstatAgrees (w : World Tid) : (request : ServerCall) → ServerRes request → Prop
  | .fsckQueueFor mfd _ .ready, answer => answer = none → ∀ dev, mfd ∉ w.woken dev
  | .fsckQueueFor mfd _ .next, answer => w.digest mfd = some answer
  | _, _ => True

/-- The steps in which `fstat` agrees. -/
def agreeingHandles [DecidableEq Tid] : Handler Tid (World Tid) ServerCall ServerRes :=
  fun w thread request answer w' =>
    serverHandles .independent w thread request answer w' ∧ FstatAgrees w request answer

/-! ### Every call -/

structure FsckInv (w : World Tid) (grips : Tid → Grip) : Prop where
  inv : ServerInv w grips
  working : Working w grips
  turns : Turns w grips
  slots : ∀ dev, Slots w dev

section Keeps

variable [DecidableEq Tid] {w w' : World Tid} {grips : Tid → Grip} {thread : Tid} {mfd : Client}

omit [DecidableEq Tid] in
/-- A client in the hands of nobody is not on its way. -/
theorem FsckInv.not_woken (h : FsckInv w grips) (place : Place Tid) (hat : w.At mfd place)
    (harmed : place ≠ .armed) (hheld : ∀ holder, place ≠ .held holder) (dev : Dev) : mfd ∉ w.woken dev := by
  intro hwoken
  rcases ((h.turns.waiting mfd).woken dev hwoken).2.2 with hat' | ⟨holder, hat'⟩
  · exact harmed (h.inv.owned.eq hat (b := .armed) hat')
  · exact h.inv.owned.not_held place hat hheld holder hat'

omit [DecidableEq Tid] in
/-- Nor is it in the hands of anybody. -/
theorem FsckInv.not_held (h : FsckInv w grips) (place : Place Tid) (hat : w.At mfd place)
    (hheld : ∀ holder, place ≠ .held holder) (holder : Tid) : mfd ∉ (grips holder).held := by
  rw [← h.inv.hands]
  exact h.inv.owned.not_held place hat hheld holder

omit [DecidableEq Tid] in
theorem FsckInv.not_queued (h : FsckInv w grips) (place : Place Tid) (hat : w.At mfd place)
    (hplace : ∀ dev, place ≠ .fsck dev) (dev : Dev) : mfd ∉ (w.fsck dev).queue :=
  fun hqueued => hplace dev (h.inv.owned.eq hat (b := .fsck dev) hqueued)

omit [DecidableEq Tid] in
/-- A client waits for the device of its file, if for any. -/
theorem FsckInv.woken_dev (h : FsckInv w grips) {dev : Dev} (houtcome : w.outcome mfd = some dev) (dev' : Dev)
    (hwoken : mfd ∈ w.woken dev') : dev' = dev := by
  have hdev := ((h.turns.waiting mfd).woken dev' hwoken).1
  rw [houtcome] at hdev
  exact (Option.some.inj hdev).symm

theorem FsckInv.next (h : FsckInv w grips) {dev : Dev} {answer : Option Client}
    (hheld : mfd ∈ (grips thread).held) (hturn : (grips thread).turn = some (mfd, .leaving dev))
    (hnext : nextHandles w thread dev mfd answer w') :
    Turns w' (Function.update grips thread
        { grips thread with turn := some (mfd, .idle), held := answer.toList ++ (grips thread).held }) ∧
      ∀ dev', Slots w' dev' := by
  obtain ⟨hdigest, hnot⟩ := h.turns.fits _ _ _ hturn
  have hover : Turns (w.giveSlot dev mfd) (Function.update grips thread
      { grips thread with turn := some (mfd, .idle) }) :=
    h.turns.over h.inv hheld hturn hnot rfl rfl rfl (giveSlot_queue w dev · mfd) rfl rfl rfl
  refine ⟨?_, Slots.next h.slots hdigest (fun other hqueued => ?_) hnext⟩
  · rcases nextHandles_cases hnext with ⟨rfl, rfl, -⟩ | ⟨first, rest, hqueue, rfl, rfl⟩
    · exact hover
    · have hgiven : ServerInv (w.giveSlot dev mfd) (Function.update grips thread
          { grips thread with turn := some (mfd, .idle) }) :=
        h.inv.quiet rfl rfl (giveSlot_queue w dev · mfd) rfl rfl (turn_of_step hheld rfl nofun)
          rfl rfl rfl rfl rfl
      have hqueue' : ((w.giveSlot dev mfd).fsck dev).queue = first :: rest := by rw [giveSlot_queue, hqueue]
      have hturns : Turns _ (Function.update (Function.update grips thread _) thread _) :=
        hover.dequeue hgiven hqueue'
      rw [Function.update_self, Function.update_idem] at hturns
      exact hturns
  · exact h.not_woken (.fsck dev) hqueued nofun nofun dev

/-- **Every call in which `fstat` agrees keeps the invariant.** -/
theorem fsckInv_keeps : Keeps (agreeingHandles : Handler Tid _ _ _) gripContract FsckInv := by
  rintro w grips thread request answer w' h hmust ⟨hhandles, hagrees⟩
  obtain ⟨hmay, hinv', hworking'⟩ :=
    working_keeps .independent w grips thread request answer w' ⟨h.inv, h.working⟩ hmust hhandles
  refine ⟨hmay, ?_⟩
  suffices hsuff : Turns w' (Function.update grips thread (gripContract.next (grips thread) request answer)) ∧
      ∀ dev, Slots w' dev from ⟨hinv', hworking', hsuff.1, hsuff.2⟩
  have hnodup : ∀ dev, (w.woken dev).Nodup := fun dev => (h.slots dev).woken
  have hquiet : ∀ w' : World Tid, w' = w →
      Turns w' (Function.update grips thread (grips thread)) ∧ ∀ dev, Slots w' dev := by
    rintro _ rfl
    rw [Function.update_eq_self]
    exact ⟨h.turns, h.slots⟩
  have hslots : ∀ w' : World Tid, w'.fsck = w.fsck → w'.running = w.running → w'.digest = w.digest →
      w'.woken = w.woken → ∀ dev, Slots w' dev := fun w' hfsck hrunning hdigest hwoken dev =>
    (h.slots dev).same (by rw [hfsck]) (by rw [hrunning]) (fun _ => by rw [hdigest]) (by rw [hwoken])
  cases request with
  | idleqWait forever =>
    cases answer with
    | none => exact hquiet _ hhandles
    | some mfd =>
      obtain ⟨harmed, rfl⟩ := hhandles
      refine ⟨h.turns.quiet (fun other => ?_) rfl rfl fun _ hmem => mem_cons_of_mem _ hmem,
        hslots _ rfl rfl rfl rfl⟩
      refine ⟨rfl, rfl, rfl, fun _ hmem => hmem, fun _ => Iff.rfl, fun hplace => ?_⟩
      by_cases hother : other = mfd
      · subst hother
        refine Or.inr ⟨thread, ?_⟩
        show other ∈ Function.update w.hands thread (other :: w.hands thread) thread
        rw [Function.update_self]
        exact mem_cons_self ..
      · show Function.update w.armed mfd false other = true ∨ _
        rw [Function.update_of_ne hother]
        exact place_receive w thread hplace
  | idleqAdd mfd ev =>
    obtain rfl : w' = w.arm thread mfd := hhandles
    exact ⟨h.turns.arm h.inv hmust, hslots _ rfl rfl rfl rfl⟩
  | idleqPush mfd ev =>
    obtain rfl : w' = w.arm thread mfd := hhandles
    exact ⟨h.turns.arm h.inv hmust, hslots _ rfl rfl rfl rfl⟩
  | activeqPush mfd =>
    obtain rfl : w' = w.arm thread mfd := hhandles
    exact ⟨h.turns.arm h.inv hmust, hslots _ rfl rfl rfl rfl⟩
  | conn mfd =>
    obtain ⟨rfl, rfl⟩ := hhandles
    exact ⟨h.turns.conn h.inv hmust.1 hmust.2, hslots _ rfl rfl rfl rfl⟩
  | peek mfd => exact hquiet _ hhandles.2
  | save mfd conn =>
    obtain rfl : w' = (w.setConn mfd conn).setStepping thread none := hhandles
    exact ⟨h.turns.save h.inv conn hmust, hslots _ rfl rfl rfl rfl⟩
  | http mfd request => exact hquiet _ hhandles
  | mgmt mfd request =>
    have hhandles : if opensFile request then _ else _ := hhandles
    split at hhandles
    · rename_i hopens
      obtain ⟨outcome, -, rfl⟩ := hhandles
      obtain ⟨hheld, hturn | ⟨hnot, -⟩⟩ := hmust
      · exact ⟨h.turns.opened h.inv outcome hheld hturn, hslots _ rfl rfl rfl rfl⟩
      · rw [hopens] at hnot
        cases hnot
    · exact hquiet _ hhandles
  | fsckQueueFor mfd fd stage =>
    cases stage with
    | ready =>
      obtain ⟨hheld, hturn⟩ := hmust
      obtain ⟨hdue, hdigest⟩ := h.turns.fits _ _ _ hturn
      cases answer with
      | none =>
        obtain ⟨-, rfl⟩ := hhandles
        have hsame : ∀ dev other, Function.update w.digest mfd (some none) other = some (some dev) ↔ _ :=
          digest_without_slot (fun _ => by rw [hdigest]; nofun) nofun
        exact ⟨h.turns.asked h.inv hnodup hheld hturn nofun rfl rfl rfl (fun _ => rfl) rfl rfl rfl,
          fun dev => (h.slots dev).same rfl rfl (hsame dev) (erase_of_not_mem (hagrees rfl dev))⟩
      | some dev =>
        obtain ⟨houtcome | hfailed, rfl⟩ := hhandles
        · refine ⟨h.turns.stepped h.inv hheld (only_turn hturn) (fun other _ => .refl w' other) rfl
            ⟨hdue, hdigest, houtcome.symm⟩ (fun other hother => h.turns.fresh_stays other hother
              fun _ _ hmem => hmem) (h.turns.waiting mfd), h.slots⟩
        · cases hfailed
    | next =>
      obtain ⟨hheld, slot, hturn⟩ := hmust
      obtain ⟨hdigest, hnot⟩ := h.turns.fits _ _ _ hturn
      have hagrees : w.digest mfd = some answer := hagrees
      cases answer with
      | none =>
        obtain ⟨-, rfl⟩ := hhandles
        have hsame : ∀ dev other, Function.update w.digest mfd none other = some (some dev) ↔ _ :=
          digest_without_slot (fun _ => by rw [hagrees]; nofun) nofun
        exact ⟨h.turns.over h.inv hheld hturn hnot rfl rfl rfl (fun _ => rfl) rfl rfl rfl,
          fun dev => (h.slots dev).same rfl rfl (hsame dev) rfl⟩
      | some dev =>
        obtain ⟨-, rfl⟩ := hhandles
        exact ⟨h.turns.stepped h.inv hheld (only_turn hturn) (fun other _ => .refl w' other) rfl
          ⟨hagrees, hnot⟩ (fun other hother => h.turns.fresh_stays other hother fun _ _ hmem => hmem)
          (h.turns.waiting mfd), h.slots⟩
  | fsckReady dev mfd =>
    obtain ⟨hheld, hturn⟩ := hmust
    obtain ⟨hdue, hdigest, houtcome⟩ := h.turns.fits _ _ _ hturn
    cases answer with
    | true =>
      obtain ⟨hfree, rfl⟩ := hhandles
      refine ⟨h.turns.asked h.inv hnodup hheld hturn ?_ rfl rfl rfl (fun dev' => ?_) rfl rfl rfl,
        Slots.takeSlot h.slots hfree hdigest (h.woken_dev houtcome)⟩
      · rintro _ ⟨⟩
        exact houtcome
      · exact takeSlot_queue w dev dev' mfd
    | false =>
      obtain ⟨hfull, rfl⟩ := hhandles
      exact ⟨h.turns.enqueue h.inv hnodup hheld hturn,
        Slots.enqueue h.slots hfull hdigest (h.woken_dev houtcome)⟩
  | fsckNext dev mfd => exact h.next hmust.1 hmust.2 hhandles
  | subscribe mfd =>
    obtain ⟨-, rfl⟩ := hhandles
    exact ⟨h.turns.subscribe h.inv hmust.1 hmust.2, hslots _ rfl rfl rfl rfl⟩
  | fdPut mfd =>
    obtain rfl : w' = w.put thread mfd := hhandles
    exact ⟨h.turns.put h.inv hmust, hslots _ rfl rfl rfl rfl⟩
  | accept svc =>
    cases answer with
    | none => exact hquiet _ hhandles
    | some mfd =>
      obtain ⟨hclosed, rfl⟩ := hhandles
      exact ⟨h.turns.fresh_comes h.inv (h.not_held .closed hclosed nofun) (h.not_queued .closed hclosed nofun)
        (h.not_woken .closed hclosed nofun nofun) (fun _ _ => rfl) rfl rfl rfl rfl rfl rfl rfl rfl rfl,
        hslots _ rfl rfl rfl rfl⟩
  | notified => exact hquiet _ hhandles
  | devstatsLock svc =>
    obtain ⟨-, -, rfl⟩ := hhandles
    exact ⟨h.turns.quiet (fun other => ⟨rfl, rfl, rfl, fun _ hmem => hmem, fun _ => Iff.rfl, id⟩) rfl rfl
      fun _ hmem => hmem, hslots _ rfl rfl rfl rfl⟩
  | devstatsWrite svc mfd =>
    obtain ⟨rest, hlisting⟩ := hmust
    have hat : w.At mfd (.subscribed svc) := (h.inv.listed hlisting).2.2.1
    have hremoved : ∀ wbuf, Turns ((w.unsubscribed thread svc mfd).setConn mfd ((w.conns mfd).setWbuf wbuf))
        (Function.update grips thread { grips thread with
          listing := (grips thread).listed, held := mfd :: (grips thread).held, fresh := some mfd }) :=
      fun wbuf => h.turns.fresh_comes h.inv (h.not_held _ hat nofun) (h.not_queued _ hat nofun)
        (h.not_woken _ hat nofun nofun) (fun other hother => Function.update_of_ne hother ..)
        rfl rfl rfl rfl rfl rfl rfl rfl rfl
    cases answer with
    | null =>
      obtain rfl : w' = w := hhandles
      exact ⟨h.turns.quiet (fun other => .refl w' other) rfl rfl fun _ hmem => hmem, h.slots⟩
    | error =>
      obtain rfl : w' = _ := hhandles
      exact ⟨hremoved _, hslots _ rfl rfl rfl rfl⟩
    | pending buf off =>
      obtain rfl : w' = _ := hhandles
      exact ⟨hremoved _, hslots _ rfl rfl rfl rfl⟩
  | devstatsUnlock svc =>
    obtain rfl : w' = w.setLock svc none := hhandles
    exact ⟨h.turns.quiet (fun other => ⟨rfl, rfl, rfl, fun _ hmem => hmem, fun _ => Iff.rfl, id⟩) rfl rfl
      fun _ hmem => hmem, hslots _ rfl rfl rfl rfl⟩

end Keeps

end Cmogstored
