import Cmogstored.SoleOwner

/-! The fsck queues. A digest takes a slot of its device and gives it back in the same step; who does not
get one is queued, and whoever gives a slot back lets the first of the queue try again. -/

namespace Cmogstored

open Prog

variable {Tid : Type}

/-! ### The invariant -/

/-- What is known of the client that a thread steps. -/
def TurnPhase.Fits (w : World Tid) (mfd : Client) : TurnPhase → Prop
  | .due => (w.conns mfd).due = true ∧ w.digest mfd = none
  | .asking dev => (w.conns mfd).due = true ∧ w.digest mfd = none ∧ w.outcome mfd = some dev
  | .digesting slot => w.digest mfd = some slot ∧ ∀ dev, mfd ∉ w.woken dev
  | .leaving dev => w.digest mfd = some (some dev) ∧ ∀ dev, mfd ∉ w.woken dev
  | .idle => w.digest mfd = none ∧ ∀ dev, mfd ∉ w.woken dev
  | .saved _ => w.digest mfd = none ∧ ∀ dev, mfd ∉ w.woken dev

/-- A client that waits has an open file on the device that it waits for. -/
structure FsckWaiting (w : World Tid) (mfd : Client) : Prop where
  queued : ∀ dev, mfd ∈ (w.fsck dev).queue → w.outcome mfd = some dev ∧ (w.conns mfd).due = true
  woken : ∀ dev, mfd ∈ w.woken dev → w.outcome mfd = some dev ∧ (w.conns mfd).due = true ∧
    (w.armed mfd = true ∨ ∃ thread, mfd ∈ w.hands thread)
  slot : ∀ dev, w.digest mfd = some (some dev) → w.outcome mfd = some dev

/-- The turns of the clients. -/
structure Turns (w : World Tid) (grips : Tid → Grip) : Prop where
  waiting : ∀ mfd, FsckWaiting w mfd
  fits : ∀ thread mfd phase, (grips thread).turn = some (mfd, phase) → phase.Fits w mfd
  digest : ∀ mfd slot, w.digest mfd = some slot → ∃ thread phase, (grips thread).turn = some (mfd, phase)
  fresh : ∀ thread mfd, (grips thread).fresh = some mfd → mfd ∈ (grips thread).held ∧ ∀ dev, mfd ∉ w.woken dev

/-- The slots of a device. -/
structure Slots (w : World Tid) (dev : Dev) : Prop where
  nodup : (w.running dev).Nodup
  mem : ∀ mfd, mfd ∈ w.running dev ↔ w.digest mfd = some (some dev)
  active : (w.fsck dev).active = (w.running dev).length
  le : (w.fsck dev).active ≤ maxActive
  woken : (w.woken dev).Nodup
  /-- as many clients as there are free slots are on their way -/
  wakes : (w.fsck dev).queue ≠ [] → maxActive ≤ (w.fsck dev).active + (w.woken dev).length

/-- The call leaves a client alone. -/
structure Untouched (w w' : World Tid) (mfd : Client) : Prop where
  conns : w'.conns mfd = w.conns mfd
  outcome : w'.outcome mfd = w.outcome mfd
  digest : w'.digest mfd = w.digest mfd
  queue : ∀ dev, mfd ∈ (w'.fsck dev).queue → mfd ∈ (w.fsck dev).queue
  woken : ∀ dev, mfd ∈ w'.woken dev ↔ mfd ∈ w.woken dev
  place : (w.armed mfd = true ∨ ∃ thread, mfd ∈ w.hands thread) →
    w'.armed mfd = true ∨ ∃ thread, mfd ∈ w'.hands thread

section Untouched

variable {w w' : World Tid} {mfd : Client}

theorem Untouched.waiting (h : Untouched w w' mfd) (hwaiting : FsckWaiting w mfd) : FsckWaiting w' mfd := by
  refine ⟨fun dev hqueued => ?_, fun dev hwoken => ?_, fun dev hslot => ?_⟩
  · rw [h.outcome, h.conns]
    exact hwaiting.queued dev (h.queue dev hqueued)
  · obtain ⟨houtcome, hdue, hplace⟩ := hwaiting.woken dev ((h.woken dev).mp hwoken)
    rw [h.outcome, h.conns]
    exact ⟨houtcome, hdue, h.place hplace⟩
  · rw [h.outcome]
    rw [h.digest] at hslot
    exact hwaiting.slot dev hslot

theorem Untouched.fits (h : Untouched w w' mfd) {phase : TurnPhase} (hfits : phase.Fits w mfd) :
    phase.Fits w' mfd := by
  have hwoken : (∀ dev, mfd ∉ w.woken dev) → ∀ dev, mfd ∉ w'.woken dev := fun hnot dev hmem =>
    hnot dev ((h.woken dev).mp hmem)
  cases phase with
  | due => exact ⟨by rw [h.conns]; exact hfits.1, by rw [h.digest]; exact hfits.2⟩
  | asking dev =>
    exact ⟨by rw [h.conns]; exact hfits.1, by rw [h.digest]; exact hfits.2.1,
      by rw [h.outcome]; exact hfits.2.2⟩
  | digesting slot => exact ⟨h.digest.trans hfits.1, hwoken hfits.2⟩
  | leaving dev => exact ⟨h.digest.trans hfits.1, hwoken hfits.2⟩
  | idle => exact ⟨h.digest.trans hfits.1, hwoken hfits.2⟩
  | saved bare => exact ⟨h.digest.trans hfits.1, hwoken hfits.2⟩

end Untouched

section Turns

variable [DecidableEq Tid] {w w' : World Tid} {grips : Tid → Grip} {thread : Tid} {grip : Grip} {mfd : Client}

/-- A call that is about one client. -/
theorem Turns.step (h : Turns w grips) (hinv : ServerInv w grips) (mfd : Client)
    (huntouched : ∀ other, other ≠ mfd → Untouched w w' other)
    (hmine : ∀ other, other ≠ thread → mfd ∉ (grips other).held)
    (hturn : ∀ other phase, other ≠ mfd → grip.turn = some (other, phase) →
      (grips thread).turn = some (other, phase))
    (hleft : ∀ other phase, other ≠ mfd → (grips thread).turn = some (other, phase) →
      grip.turn = some (other, phase) ∨ ∃ bare, phase = .saved bare)
    (hfits : ∀ phase, grip.turn = some (mfd, phase) → phase.Fits w' mfd)
    (hdigest : ∀ slot, w'.digest mfd = some slot → ∃ phase, grip.turn = some (mfd, phase))
    (hfresh : ∀ other, grip.fresh = some other → other ∈ grip.held ∧
      ((other ≠ mfd ∧ (grips thread).fresh = some other) ∨ ∀ dev, other ∉ w'.woken dev))
    (hwaiting : FsckWaiting w' mfd) : Turns w' (Function.update grips thread grip) := by
  refine ⟨fun other => ?_, fun holder other phase => ?_, fun other slot hslot => ?_, fun holder other => ?_⟩
  · by_cases hother : other = mfd
    · subst hother
      exact hwaiting
    · exact (huntouched other hother).waiting (h.waiting other)
  · by_cases hholder : holder = thread
    · subst hholder
      rw [Function.update_self]
      by_cases hother : other = mfd
      · subst hother
        exact hfits phase
      · exact fun hphase => (huntouched other hother).fits (h.fits _ _ _ (hturn other phase hother hphase))
    · rw [Function.update_of_ne hholder]
      intro hphase
      have hother : other ≠ mfd := by
        rintro rfl
        exact hmine holder hholder (hinv.turn holder other phase hphase)
      exact (huntouched other hother).fits (h.fits _ _ _ hphase)
  · by_cases hother : other = mfd
    · subst hother
      obtain ⟨phase, hphase⟩ := hdigest slot hslot
      exact ⟨thread, phase, by rw [Function.update_self]; exact hphase⟩
    · rw [(huntouched other hother).digest] at hslot
      obtain ⟨holder, phase, hphase⟩ := h.digest other slot hslot
      by_cases hholder : holder = thread
      · subst hholder
        rcases hleft other phase hother hphase with hkept | ⟨bare, rfl⟩
        · exact ⟨holder, phase, by rw [Function.update_self]; exact hkept⟩
        · rw [(h.fits _ _ _ hphase).1] at hslot
          cases hslot
      · exact ⟨holder, phase, by rw [Function.update_of_ne hholder]; exact hphase⟩
  · by_cases hholder : holder = thread
    · subst hholder
      rw [Function.update_self]
      intro hother
      obtain ⟨hheld, ⟨hne, hold⟩ | hnot⟩ := hfresh other hother
      · exact ⟨hheld, fun dev hmem =>
          (h.fresh holder other hold).2 dev (((huntouched other hne).woken dev).mp hmem)⟩
      · exact ⟨hheld, hnot⟩
    · rw [Function.update_of_ne hholder]
      intro hother
      obtain ⟨hheld, hnot⟩ := h.fresh holder other hother
      have hne : other ≠ mfd := by
        rintro rfl
        exact hmine holder hholder hheld
      exact ⟨hheld, fun dev hmem => hnot dev (((huntouched other hne).woken dev).mp hmem)⟩

/-- A call that touches no client. -/
theorem Turns.quiet (h : Turns w grips) (huntouched : ∀ mfd, Untouched w w' mfd)
    (hturn : grip.turn = (grips thread).turn) (hfresh : grip.fresh = (grips thread).fresh)
    (hheld : ∀ mfd ∈ (grips thread).held, mfd ∈ grip.held) : Turns w' (Function.update grips thread grip) := by
  have hsame : ∀ holder, (Function.update grips thread grip holder).turn = (grips holder).turn ∧
      (Function.update grips thread grip holder).fresh = (grips holder).fresh ∧
      ∀ mfd ∈ (grips holder).held, mfd ∈ (Function.update grips thread grip holder).held := by
    intro holder
    by_cases hholder : holder = thread
    · subst hholder
      rw [Function.update_self]
      exact ⟨hturn, hfresh, hheld⟩
    · rw [Function.update_of_ne hholder]
      exact ⟨rfl, rfl, fun _ hmem => hmem⟩
  refine ⟨fun mfd => (huntouched mfd).waiting (h.waiting mfd), fun holder mfd phase hphase => ?_,
    fun mfd slot hslot => ?_, fun holder mfd hmfd => ?_⟩
  · rw [(hsame holder).1] at hphase
    exact (huntouched mfd).fits (h.fits holder mfd phase hphase)
  · rw [(huntouched mfd).digest] at hslot
    obtain ⟨holder, phase, hphase⟩ := h.digest mfd slot hslot
    exact ⟨holder, phase, by rw [(hsame holder).1]; exact hphase⟩
  · rw [(hsame holder).2.1] at hmfd
    obtain ⟨hmem, hnot⟩ := h.fresh holder mfd hmfd
    exact ⟨(hsame holder).2.2 mfd hmem, fun dev hwoken => hnot dev (((huntouched mfd).woken dev).mp hwoken)⟩

/-! ### Clients in the hands of a thread -/

omit [DecidableEq Tid] in
theorem ServerInv.sole_holder (hinv : ServerInv w grips) (hheld : mfd ∈ (grips thread).held) (other : Tid)
    (hne : other ≠ thread) : mfd ∉ (grips other).held := by
  intro hother
  rw [← hinv.hands] at hheld hother
  have hat : w.At mfd (.held thread) := hheld
  have hat' : w.At mfd (.held other) := hother
  exact hne (Place.held.inj (hinv.owned.eq hat' hat))

omit [DecidableEq Tid] in
theorem ServerInv.not_queued (hinv : ServerInv w grips) (hheld : mfd ∈ (grips thread).held) (dev : Dev) :
    mfd ∉ (w.fsck dev).queue := by
  intro hqueued
  rw [← hinv.hands] at hheld
  exact hinv.owned.not_held (.fsck dev) hqueued nofun thread hheld

omit [DecidableEq Tid] in
/-- The digest of a client is the business of the thread that holds it. -/
theorem Turns.digest_eq_none (h : Turns w grips) (hinv : ServerInv w grips) (hheld : mfd ∈ (grips thread).held)
    (hturn : ∀ phase, (grips thread).turn = some (mfd, phase) → ∃ bare, phase = .saved bare) :
    w.digest mfd = none := by
  cases hdigest : w.digest mfd with
  | none => rfl
  | some slot =>
    obtain ⟨holder, phase, hphase⟩ := h.digest mfd slot hdigest
    obtain rfl : holder = thread := by
      by_contra hne
      exact hinv.sole_holder hheld holder hne (hinv.turn holder mfd phase hphase)
    obtain ⟨bare, rfl⟩ := hturn phase hphase
    rw [(h.fits _ _ _ hphase).1] at hdigest
    cases hdigest

omit [DecidableEq Tid] in
/-- A client with which a thread may do what it likes is out of the fsck queues. -/
theorem Turns.of_owns (h : Turns w grips) (hinv : ServerInv w grips) (howns : (grips thread).Owns mfd) :
    w.digest mfd = none ∧ ∀ dev, mfd ∉ w.woken dev := by
  obtain ⟨hheld, hidle | ⟨hstill, hfresh⟩⟩ := howns
  · exact h.fits _ _ _ hidle
  · exact ⟨h.digest_eq_none hinv hheld (hstill mfd), (h.fresh thread mfd hfresh).2⟩

/-! ### Calls -/

omit [DecidableEq Tid] in
theorem Untouched.refl (w : World Tid) (mfd : Client) : Untouched w w mfd where
  conns := rfl
  outcome := rfl
  digest := rfl
  queue _ hmem := hmem
  woken _ := Iff.rfl
  place hplace := hplace

/-- A client that nobody else wants is passed on. -/
theorem untouched_release (w : World Tid) (thread : Tid) {other mfd : Client} (hother : other ≠ mfd)
    (hplace : w.armed other = true ∨ ∃ holder, other ∈ w.hands holder) :
    w.armed other = true ∨ ∃ holder, other ∈ (w.release thread mfd).hands holder := by
  rcases hplace with harmed | ⟨holder, hheld⟩
  · exact Or.inl harmed
  · refine Or.inr ⟨holder, ?_⟩
    show other ∈ Function.update w.hands thread ((w.hands thread).erase mfd) holder
    by_cases hholder : holder = thread
    · subst hholder
      rw [Function.update_self]
      exact (List.mem_erase_of_ne hother).mpr hheld
    · rw [Function.update_of_ne hholder]
      exact hheld

theorem place_receive (w : World Tid) (thread : Tid) {other mfd : Client}
    (hplace : w.armed other = true ∨ ∃ holder, other ∈ w.hands holder) :
    w.armed other = true ∨ ∃ holder, other ∈ (w.receive thread mfd).hands holder := by
  rcases hplace with harmed | ⟨holder, hheld⟩
  · exact Or.inl harmed
  · refine Or.inr ⟨holder, ?_⟩
    show other ∈ Function.update w.hands thread (mfd :: w.hands thread) holder
    by_cases hholder : holder = thread
    · subst hholder
      rw [Function.update_self]
      exact List.mem_cons_of_mem _ hheld
    · rw [Function.update_of_ne hholder]
      exact hheld

/-- What a thread drops of a client is only what it had to do with it. -/
theorem Turns.dropped (h : Turns w grips) (hinv : ServerInv w grips) (hheld : mfd ∈ (grips thread).held)
    (huntouched : ∀ other, other ≠ mfd → Untouched w w' other)
    (hdigest : w'.digest mfd = none) (hwaiting : FsckWaiting w' mfd) :
    Turns w' (Function.update grips thread ((grips thread).drop mfd)) := by
  refine h.step hinv mfd huntouched (hinv.sole_holder hheld) ?_ ?_ ?_ ?_ ?_ hwaiting
  · intro other phase _ hphase
    exact (Option.filter_eq_some_iff.mp hphase).1
  · intro other phase hother hphase
    refine Or.inl (Option.filter_eq_some_iff.mpr ⟨hphase, ?_⟩)
    exact decide_eq_true hother
  · intro phase hphase
    exact absurd rfl (of_decide_eq_true (Option.filter_eq_some_iff.mp hphase).2)
  · intro slot hslot
    rw [hdigest] at hslot
    cases hslot
  · intro other hother
    obtain ⟨hold, hne⟩ := Option.filter_eq_some_iff.mp hother
    have hne := of_decide_eq_true hne
    exact ⟨(List.mem_erase_of_ne hne).mpr (h.fresh thread other hold).1, Or.inl ⟨hne, hold⟩⟩

theorem Turns.arm (h : Turns w grips) (hinv : ServerInv w grips) (hfree : (grips thread).Free mfd) :
    Turns (w.arm thread mfd) (Function.update grips thread ((grips thread).drop mfd)) := by
  refine h.dropped hinv hfree.1 (fun other hother => ?_) (h.digest_eq_none hinv hfree.1 hfree.2) ?_
  · refine ⟨rfl, rfl, rfl, fun _ hmem => hmem, fun _ => Iff.rfl, fun hplace => ?_⟩
    show Function.update w.armed mfd true other = true ∨ _
    rw [Function.update_of_ne hother]
    exact untouched_release w thread hother hplace
  · obtain ⟨hqueued, hwoken, hslot⟩ := h.waiting mfd
    refine ⟨hqueued, fun dev hmem => ?_, hslot⟩
    obtain ⟨houtcome, hdue, -⟩ := hwoken dev hmem
    exact ⟨houtcome, hdue, Or.inl (Function.update_self ..)⟩

theorem Turns.put (h : Turns w grips) (hinv : ServerInv w grips) (howns : (grips thread).Owns mfd) :
    Turns (w.put thread mfd) (Function.update grips thread ((grips thread).drop mfd)) := by
  obtain ⟨hdigest, hnot⟩ := h.of_owns hinv howns
  refine h.dropped hinv howns.1 (fun other hother => ?_) hdigest ?_
  · refine ⟨rfl, rfl, rfl, fun _ hmem => hmem, fun _ => Iff.rfl, fun hplace => ?_⟩
    show Function.update w.armed mfd false other = true ∨ _
    rw [Function.update_of_ne hother]
    exact untouched_release w thread hother hplace
  · obtain ⟨hqueued, -, hslot⟩ := h.waiting mfd
    exact ⟨hqueued, fun dev hmem => absurd hmem (hnot dev), hslot⟩

theorem Turns.subscribe (h : Turns w grips) (hinv : ServerInv w grips) (hheld : mfd ∈ (grips thread).held)
    (hturn : (grips thread).turn = some (mfd, .saved true)) :
    Turns (w.subscribed thread mfd) (Function.update grips thread ((grips thread).drop mfd)) := by
  obtain ⟨hdigest, hnot⟩ := h.fits _ _ _ hturn
  refine h.dropped hinv hheld (fun other hother => ?_) hdigest ?_
  · exact ⟨rfl, rfl, rfl, fun _ hmem => hmem, fun _ => Iff.rfl, untouched_release w thread hother⟩
  · obtain ⟨hqueued, -, hslot⟩ := h.waiting mfd
    exact ⟨hqueued, fun dev hmem => absurd hmem (hnot dev), hslot⟩

theorem Turns.enqueue (h : Turns w grips) (hinv : ServerInv w grips) (hnodup : ∀ dev, (w.woken dev).Nodup)
    {dev : Dev} (hheld : mfd ∈ (grips thread).held) (hturn : (grips thread).turn = some (mfd, .asking dev)) :
    Turns (w.enqueue thread dev mfd) (Function.update grips thread ((grips thread).drop mfd)) := by
  obtain ⟨hdue, hdigest, houtcome⟩ := h.fits _ _ _ hturn
  have hqueue : ∀ dev' other, other ∈ ((w.enqueue thread dev mfd).fsck dev').queue →
      other ∈ (w.fsck dev').queue ∨ (dev' = dev ∧ other = mfd) := by
    intro dev' other hmem
    have hmem : other ∈ (Function.update w.fsck dev _ dev').queue := hmem
    by_cases hdev : dev' = dev
    · subst hdev
      rw [Function.update_self] at hmem
      rcases List.mem_append.mp hmem with hold | hnew
      · exact Or.inl hold
      · exact Or.inr ⟨rfl, List.mem_singleton.mp hnew⟩
    · rw [Function.update_of_ne hdev] at hmem
      exact Or.inl hmem
  refine h.dropped hinv hheld (fun other hother => ?_) (Function.update_self ..) ?_
  · refine ⟨rfl, rfl, Function.update_of_ne hother .., fun dev' hmem => ?_, fun dev' => ?_,
      untouched_release w thread hother⟩
    · rcases hqueue dev' other hmem with hold | ⟨-, heq⟩
      · exact hold
      · exact absurd heq hother
    · exact (hnodup dev').mem_erase_iff.trans (and_iff_right hother)
  · refine ⟨fun dev' hmem => ?_, fun dev' hmem => ?_, fun dev' hslot => ?_⟩
    · rcases hqueue dev' mfd hmem with hold | ⟨rfl, -⟩
      · exact (h.waiting mfd).queued dev' hold
      · exact ⟨houtcome, hdue⟩
    · exact absurd rfl ((hnodup dev').mem_erase_iff.mp hmem).1
    · rw [show (w.enqueue thread dev mfd).digest mfd = none from Function.update_self ..] at hslot
      cases hslot

/-- The step of a client goes on, or begins. -/
theorem Turns.stepped (h : Turns w grips) (hinv : ServerInv w grips) {phase : TurnPhase}
    (hheld : mfd ∈ (grips thread).held)
    (hbefore : ∀ other was, other ≠ mfd → (grips thread).turn = some (other, was) → ∃ bare, was = .saved bare)
    (huntouched : ∀ other, other ≠ mfd → Untouched w w' other)
    (hturn : grip.turn = some (mfd, phase)) (hfits : phase.Fits w' mfd)
    (hfresh : ∀ other, grip.fresh = some other → other ∈ grip.held ∧
      ((other ≠ mfd ∧ (grips thread).fresh = some other) ∨ ∀ dev, other ∉ w'.woken dev))
    (hwaiting : FsckWaiting w' mfd) : Turns w' (Function.update grips thread grip) := by
  refine h.step hinv mfd huntouched (hinv.sole_holder hheld) ?_ ?_ ?_ (fun _ _ => ⟨phase, hturn⟩) hfresh hwaiting
  · intro other was hother hwas
    rw [hturn] at hwas
    cases hwas
    exact absurd rfl hother
  · exact fun other was hother hwas => Or.inr (hbefore other was hother hwas)
  · intro was hwas
    rw [hturn] at hwas
    cases hwas
    exact hfits

omit [DecidableEq Tid] in
/-- In the middle of a step there is no other. -/
theorem only_turn {phase : TurnPhase} (hturn : (grips thread).turn = some (mfd, phase)) (other : Client)
    (was : TurnPhase) (hother : other ≠ mfd) (hwas : (grips thread).turn = some (other, was)) :
    ∃ bare, was = .saved bare := by
  rw [hturn] at hwas
  cases hwas
  exact absurd rfl hother

theorem Turns.conn (h : Turns w grips) (hinv : ServerInv w grips) (hheld : mfd ∈ (grips thread).held)
    (hstill : (grips thread).Still) :
    Turns (w.setStepping thread (some mfd)) (Function.update grips thread
      { grips thread with turn := some (mfd, if (w.conns mfd).due then .due else .idle), fresh := none }) := by
  have huntouched : ∀ other, Untouched w (w.setStepping thread (some mfd)) other := fun other =>
    ⟨rfl, rfl, rfl, fun _ hmem => hmem, fun _ => Iff.rfl, fun hplace => hplace⟩
  refine h.stepped hinv hheld (fun other was _ hwas => hstill other was hwas) (fun other _ => huntouched other)
    rfl ?_ nofun ((huntouched mfd).waiting (h.waiting mfd))
  have hdigest := h.digest_eq_none hinv hheld (hstill mfd)
  split
  · exact ⟨‹_›, hdigest⟩
  · exact ⟨hdigest, fun dev hmem => absurd ((h.waiting mfd).woken dev hmem).2.1 ‹_›⟩

omit [DecidableEq Tid] in
/-- The clients that came to the thread lately are still there. -/
theorem Turns.fresh_stays (h : Turns w grips) (other : Client) (hfresh : (grips thread).fresh = some other)
    (hwoken : ∀ other dev, other ∈ w'.woken dev → other ∈ w.woken dev) :
    other ∈ (grips thread).held ∧
      ((other ≠ mfd ∧ (grips thread).fresh = some other) ∨ ∀ dev, other ∉ w'.woken dev) := by
  obtain ⟨hheld, hnot⟩ := h.fresh thread other hfresh
  exact ⟨hheld, Or.inr fun dev hmem => hnot dev (hwoken other dev hmem)⟩

theorem Turns.save (h : Turns w grips) (hinv : ServerInv w grips) (conn : Conn)
    (howns : (grips thread).Owns mfd) :
    Turns ((w.setConn mfd conn).setStepping thread none) (Function.update grips thread
      { grips thread with turn := some (mfd, .saved conn.bare) }) := by
  obtain ⟨hdigest, hnot⟩ := h.of_owns hinv howns
  refine h.stepped hinv howns.1 ?_ (fun other hother => ?_) rfl ⟨hdigest, hnot⟩
    (fun other hother => h.fresh_stays other hother fun _ _ hmem => hmem) ?_
  · rcases howns.2 with hidle | ⟨hstill, -⟩
    · exact only_turn hidle
    · exact fun other was _ hwas => hstill other was hwas
  · exact ⟨Function.update_of_ne hother .., rfl, rfl, fun _ hmem => hmem, fun _ => Iff.rfl, fun hplace => hplace⟩
  · exact ⟨fun dev hmem => absurd hmem (hinv.not_queued howns.1 dev), fun dev hmem => absurd hmem (hnot dev),
      (h.waiting mfd).slot⟩

/-- The file of the next digest has been opened. -/
theorem Turns.opened (h : Turns w grips) (hinv : ServerInv w grips) (outcome : Option Dev)
    (hheld : mfd ∈ (grips thread).held) (hturn : (grips thread).turn = some (mfd, .idle)) :
    Turns { w with outcome := Function.update w.outcome mfd outcome }
      (Function.update grips thread (grips thread)) := by
  obtain ⟨hdigest, hnot⟩ := h.fits _ _ _ hturn
  refine h.stepped hinv hheld (only_turn hturn) (fun other hother => ?_) hturn ⟨hdigest, hnot⟩
    (fun other hother => h.fresh_stays other hother fun _ _ hmem => hmem) ?_
  · exact ⟨rfl, Function.update_of_ne hother .., rfl, fun _ hmem => hmem, fun _ => Iff.rfl, fun hplace => hplace⟩
  · refine ⟨fun dev hmem => absurd hmem (hinv.not_queued hheld dev), fun dev hmem => absurd hmem (hnot dev), ?_⟩
    intro dev hslot
    have hslot : w.digest mfd = some (some dev) := hslot
    rw [hdigest] at hslot
    cases hslot

/-- `mog_fsck_queue_ready` is through. -/
theorem Turns.asked (h : Turns w grips) (hinv : ServerInv w grips) (hnodup : ∀ dev, (w.woken dev).Nodup)
    {was : TurnPhase} {slot : Option Dev} (hheld : mfd ∈ (grips thread).held)
    (hturn : (grips thread).turn = some (mfd, was)) (hslot : ∀ dev, slot = some dev → w.outcome mfd = some dev)
    (hconns : w'.conns = w.conns) (houtcome : w'.outcome = w.outcome)
    (hdigest : w'.digest = Function.update w.digest mfd (some slot))
    (hqueue : ∀ dev, (w'.fsck dev).queue = (w.fsck dev).queue)
    (hwoken : w'.woken = fun dev => (w.woken dev).erase mfd)
    (harmed : w'.armed = w.armed) (hhands : w'.hands = w.hands) :
    Turns w' (Function.update grips thread { grips thread with turn := some (mfd, .digesting slot) }) := by
  have hnot : ∀ dev, mfd ∉ w'.woken dev := fun dev hmem => by
    rw [hwoken] at hmem
    exact absurd rfl ((hnodup dev).mem_erase_iff.mp hmem).1
  have hmine : w'.digest mfd = some slot := by rw [hdigest, Function.update_self]
  refine h.stepped hinv hheld (only_turn hturn) (fun other hother => ?_) rfl ⟨hmine, hnot⟩
    (fun other hother => h.fresh_stays other hother fun other dev hmem => ?_) ?_
  · refine ⟨by rw [hconns], by rw [houtcome], by rw [hdigest, Function.update_of_ne hother],
      fun dev hmem => by rwa [hqueue] at hmem, fun dev => ?_, fun hplace => by rwa [harmed, hhands]⟩
    rw [hwoken]
    exact (hnodup dev).mem_erase_iff.trans (and_iff_right hother)
  · rw [hwoken] at hmem
    exact ((hnodup dev).mem_erase_iff.mp hmem).2
  · refine ⟨fun dev hmem => ?_, fun dev hmem => absurd hmem (hnot dev), fun dev hdev => ?_⟩
    · rw [hqueue] at hmem
      exact absurd hmem (hinv.not_queued hheld dev)
    · rw [hmine] at hdev
      rw [houtcome]
      exact hslot dev (Option.some.inj hdev)

/-- The digest is over. -/
theorem Turns.over (h : Turns w grips) (hinv : ServerInv w grips) {was : TurnPhase}
    (hheld : mfd ∈ (grips thread).held) (hturn : (grips thread).turn = some (mfd, was))
    (hnot : ∀ dev, mfd ∉ w.woken dev) (hconns : w'.conns = w.conns) (houtcome : w'.outcome = w.outcome)
    (hdigest : w'.digest = Function.update w.digest mfd none)
    (hqueue : ∀ dev, (w'.fsck dev).queue = (w.fsck dev).queue) (hwoken : w'.woken = w.woken)
    (harmed : w'.armed = w.armed) (hhands : w'.hands = w.hands) :
    Turns w' (Function.update grips thread { grips thread with turn := some (mfd, .idle) }) := by
  have hmine : w'.digest mfd = none := by rw [hdigest, Function.update_self]
  refine h.stepped hinv hheld (only_turn hturn) (fun other hother => ?_) rfl ⟨hmine, by rwa [hwoken]⟩
    (fun other hother => h.fresh_stays other hother fun other dev hmem => by rwa [hwoken] at hmem) ?_
  · exact ⟨by rw [hconns], by rw [houtcome], by rw [hdigest, Function.update_of_ne hother],
      fun dev hmem => by rwa [hqueue] at hmem, fun dev => by rw [hwoken], fun hplace => by rwa [harmed, hhands]⟩
  · refine ⟨fun dev hmem => ?_, fun dev hmem => ?_, fun dev hdev => ?_⟩
    · rw [hqueue] at hmem
      exact absurd hmem (hinv.not_queued hheld dev)
    · rw [hwoken] at hmem
      exact absurd hmem (hnot dev)
    · rw [hmine] at hdev
      cases hdev

/-- The first of the queue is taken out. -/
theorem Turns.dequeue (h : Turns w grips) (hinv : ServerInv w grips) {dev : Dev} {rest : List Client}
    (hqueue : (w.fsck dev).queue = mfd :: rest) :
    Turns (w.dequeue thread dev mfd rest) (Function.update grips thread
      { grips thread with held := mfd :: (grips thread).held }) := by
  have hqueued : mfd ∈ (w.fsck dev).queue := by
    rw [hqueue]
    exact List.mem_cons_self ..
  have hnot : ∀ other, mfd ∉ (grips other).held := fun other hheld => hinv.not_queued hheld dev hqueued
  have hfsck : ∀ dev' other, other ∈ ((w.dequeue thread dev mfd rest).fsck dev').queue →
      other ∈ (w.fsck dev').queue := by
    intro dev' other hmem
    have hmem : other ∈ (Function.update w.fsck dev _ dev').queue := hmem
    by_cases hdev : dev' = dev
    · subst hdev
      rw [Function.update_self] at hmem
      rw [hqueue]
      exact List.mem_cons_of_mem _ hmem
    · rwa [Function.update_of_ne hdev] at hmem
  have hwoken : ∀ dev' other, other ∈ (w.dequeue thread dev mfd rest).woken dev' ↔
      (dev' = dev ∧ other = mfd) ∨ other ∈ w.woken dev' := by
    intro dev' other
    show other ∈ Function.update w.woken dev (mfd :: w.woken dev) dev' ↔ _
    by_cases hdev : dev' = dev
    · subst hdev
      rw [Function.update_self, List.mem_cons, and_iff_right rfl]
    · rw [Function.update_of_ne hdev, or_iff_right fun heq => hdev heq.1]
  refine h.step hinv mfd (fun other hother => ?_) (fun other _ => hnot other) (fun _ _ _ hphase => hphase)
    (fun _ _ _ hphase => Or.inl hphase) ?_ ?_ ?_ ?_
  · exact ⟨rfl, rfl, rfl, fun dev' => hfsck dev' other,
      fun dev' => (hwoken dev' other).trans (or_iff_right fun heq => hother heq.2), place_receive w thread⟩
  · exact fun phase hphase => absurd (hinv.turn thread mfd phase hphase) (hnot thread)
  · intro slot hslot
    obtain ⟨holder, phase, hphase⟩ := h.digest mfd slot hslot
    exact absurd (hinv.turn holder mfd phase hphase) (hnot holder)
  · intro other hother
    obtain ⟨hheld, hold⟩ := h.fresh thread other hother
    refine ⟨List.mem_cons_of_mem _ hheld, Or.inl ⟨?_, hother⟩⟩
    rintro rfl
    exact hnot thread hheld
  · obtain ⟨houtcome, hdue⟩ := (h.waiting mfd).queued dev hqueued
    have hhands : mfd ∈ (w.dequeue thread dev mfd rest).hands thread := by
      show mfd ∈ Function.update w.hands thread (mfd :: w.hands thread) thread
      rw [Function.update_self]
      exact List.mem_cons_self ..
    refine ⟨fun dev' hmem => (h.waiting mfd).queued dev' (hfsck dev' mfd hmem), fun dev' hmem => ?_,
      (h.waiting mfd).slot⟩
    rcases (hwoken dev' mfd).mp hmem with ⟨rfl, -⟩ | hold
    · exact ⟨houtcome, hdue, Or.inr ⟨thread, hhands⟩⟩
    · exact ⟨((h.waiting mfd).woken dev' hold).1, hdue, Or.inr ⟨thread, hhands⟩⟩

/-- A client comes to the thread that nobody had before. -/
theorem Turns.fresh_comes (h : Turns w grips) (hinv : ServerInv w grips) (hnot : ∀ other, mfd ∉ (grips other).held)
    (hqueued : ∀ dev, mfd ∉ (w.fsck dev).queue) (hnotWoken : ∀ dev, mfd ∉ w.woken dev)
    (hconns : ∀ other, other ≠ mfd → w'.conns other = w.conns other) (houtcome : w'.outcome = w.outcome)
    (hdigest : w'.digest = w.digest) (hfsck : w'.fsck = w.fsck) (hwoken : w'.woken = w.woken)
    (harmed : w'.armed = w.armed) (hhands : w'.hands = (w.receive thread mfd).hands)
    (hturn : grip.turn = (grips thread).turn) (hheld : grip.held = mfd :: (grips thread).held)
    (hfresh : grip.fresh = some mfd) : Turns w' (Function.update grips thread grip) := by
  refine h.step hinv mfd (fun other hother => ?_) (fun other _ => hnot other) (fun _ _ _ hphase => hturn ▸ hphase)
    (fun _ _ _ hphase => Or.inl (hturn ▸ hphase)) ?_ ?_ ?_ ?_
  · refine ⟨hconns other hother, by rw [houtcome], by rw [hdigest], fun dev hmem => by rwa [hfsck] at hmem,
      fun dev => by rw [hwoken], fun hplace => ?_⟩
    rw [harmed, hhands]
    exact place_receive w thread hplace
  · intro phase hphase
    rw [hturn] at hphase
    exact absurd (hinv.turn thread mfd phase hphase) (hnot thread)
  · intro slot hslot
    rw [hdigest] at hslot
    obtain ⟨holder, phase, hphase⟩ := h.digest mfd slot hslot
    exact absurd (hinv.turn holder mfd phase hphase) (hnot holder)
  · intro other hother
    rw [hfresh] at hother
    cases hother
    rw [hheld, hwoken]
    exact ⟨List.mem_cons_self .., Or.inr hnotWoken⟩
  · refine ⟨fun dev hmem => ?_, fun dev hmem => ?_, fun dev hslot => ?_⟩
    · rw [hfsck] at hmem
      exact absurd hmem (hqueued dev)
    · rw [hwoken] at hmem
      exact absurd hmem (hnotWoken dev)
    · rw [hdigest] at hslot
      rw [houtcome]
      exact (h.waiting mfd).slot dev hslot

end Turns

end Cmogstored
