import Cmogstored.Interleave
import Cmogstored.Ioutil

/-! The utilization table with any number of threads. All of its memory is touched under `iou_lock`
only, so what a function does under that lock is one step; `cleanup_lock` is held from
`mog_iou_cleanup_begin` to `mog_iou_cleanup_finish`, with the steps of other threads in between. -/

namespace Cmogstored

open Prog MarkSweep

/-! ### The functions -/

/-- What is done in one go under `iou_lock`. -/
inductive IouSection where
  | read (dev : DevT)
  | write (dev : DevT) (util : Bytes)
  | active (dev : DevT)
  | mark
  | sweep
  deriving DecidableEq, Repr

inductive IouCall where
  | lockCleanup
  | unlockCleanup
  | locked (part : IouSection)
  deriving DecidableEq, Repr

@[reducible] def IouSection.Res : IouSection → Type
  | .read _ => Bytes
  | _ => Unit

@[reducible] def IouRes : IouCall → Type
  | .locked part => part.Res
  | _ => Unit

abbrev Iou := Prog IouCall IouRes

abbrev iou (request : IouCall) : Iou (IouRes request) := ask request

abbrev underIouLock (part : IouSection) : Iou part.Res := iou (.locked part)

def mogIouRead (dev : DevT) : Iou Bytes := underIouLock (.read dev)

def mogIouWrite (dev : DevT) (util : Bytes) : Iou Unit := underIouLock (.write dev util)

def mogIouActive (dev : DevT) : Iou Unit := underIouLock (.active dev)

def mogIouCleanupBegin : Iou Unit := do
  iou .lockCleanup
  underIouLock .mark

def mogIouCleanupFinish : Iou Unit := do
  underIouLock .sweep
  iou .unlockCleanup

/-! ### Their callers -/

/-- The calls a thread makes into `ioutil.c`. -/
inductive IouOp where
  | read (dev : DevT)
  | write (dev : DevT) (util : Bytes)
  | active (dev : DevT)
  | cleanupBegin
  | cleanupFinish
  deriving DecidableEq, Repr

@[reducible] def IouOp.Res : IouOp → Type
  | .read _ => Bytes
  | _ => Unit

def IouOp.code : (op : IouOp) → Iou op.Res
  | .read dev => mogIouRead dev
  | .write dev util => mogIouWrite dev util
  | .active dev => mogIouActive dev
  | .cleanupBegin => mogIouCleanupBegin
  | .cleanupFinish => mogIouCleanupFinish

/-- Each `mog_iou_cleanup_begin` is followed by a `mog_iou_cleanup_finish` of the same thread, and none
comes in between; the ghost state says whether a cleanup is open. -/
def matchedCalls : Contract IouOp IouOp.Res Bool where
  must isOpen op :=
    match op with
    | .cleanupBegin => isOpen = false
    | .cleanupFinish => isOpen = true
    | _ => True
  may _ _ _ := True
  next isOpen op _ :=
    match op with
    | .cleanupBegin => true
    | .cleanupFinish => false
    | _ => isOpen
  excused _ := True

/-- A thread whose cleanups are matched. -/
def Matched (client : Prog IouOp IouOp.Res Unit) : Prop :=
  wp matchedCalls client (fun _ isOpen => isOpen = false) false

/-! ### The shared state -/

section World

variable {Tid : Type}

/-- A call that a thread has made, its answer, and the devices that have lost their entries by it. -/
structure IouDone (Tid : Type) where
  who : Tid
  call : (op : IouOp) × op.Res
  removed : List DevT

def IouDone.event (done : IouDone Tid) : TableEvent Tid DevT Bytes :=
  match done.call with
  | ⟨.read dev, answer⟩ => .get dev answer
  | ⟨.write dev util, _⟩ => .put dev util
  | ⟨.active dev, _⟩ => .touch dev
  | ⟨.cleanupBegin, _⟩ => .mark done.who
  | ⟨.cleanupFinish, _⟩ => .sweep done.who done.removed

/-- The memory, the holder of `cleanup_lock`, the first fault, and the calls so far, the last one first. -/
structure IouWorld (Tid : Type) where
  store : Store
  cleanupLock : Option Tid
  fault : Option Fault
  log : List (IouDone Tid)

def IouWorld.initial : IouWorld Tid := ⟨⟨fun _ => none, []⟩, none, none, []⟩

def IouSection.run (alloc : Ptr) (order : List Ptr) : (part : IouSection) → Mem part.Res
  | .read dev => iouRead alloc dev
  | .write dev util => iouWrite alloc dev util
  | .active dev => iouActive alloc dev
  | .mark => cleanupBegin order
  | .sweep => cleanupFinish order

/-- The devices that have an entry. -/
def Store.devs (s : Store) : List DevT := s.table.filterMap fun p => (s.heap p).map Ioutil.stDev

/-- The call that a section belongs to. -/
def IouSection.call : (part : IouSection) → part.Res → (op : IouOp) × op.Res
  | .read dev, answer => ⟨.read dev, answer⟩
  | .write dev util, _ => ⟨.write dev util, ()⟩
  | .active dev, _ => ⟨.active dev, ()⟩
  | .mark, _ => ⟨.cleanupBegin, ()⟩
  | .sweep, _ => ⟨.cleanupFinish, ()⟩

/-- What a section has done between two states of the memory. -/
def IouSection.done (who : Tid) (before after : Store) (part : IouSection) (answer : part.Res) : IouDone Tid :=
  ⟨who, part.call answer, before.devs.filter (· ∉ after.devs)⟩

/-- The steps: `xmalloc` returns any address that is not allocated, and a walk through the hash table
meets its entries in any order. -/
inductive IouHandles : Handler Tid (IouWorld Tid) IouCall IouRes where
  | lockCleanup {world : IouWorld Tid} {who : Tid} (hfree : world.cleanupLock = none) :
      IouHandles world who .lockCleanup () { world with cleanupLock := some who }
  | unlockCleanup {world : IouWorld Tid} {who : Tid} :
      IouHandles world who .unlockCleanup () { world with cleanupLock := none }
  | locked {world : IouWorld Tid} {who : Tid} {part : IouSection} {alloc : Ptr} {order : List Ptr}
      {answer : part.Res} {after : Store} (hfresh : world.store.heap alloc = none)
      (horder : order.Perm world.store.table)
      (hrun : part.run alloc order world.store = .ok (answer, after)) :
      IouHandles world who (.locked part) answer
        { world with store := after, log := part.done who world.store after answer :: world.log }
  | fault {world : IouWorld Tid} {who : Tid} {part : IouSection} {alloc : Ptr} {order : List Ptr}
      {answer : part.Res} {fault : Fault} (hfresh : world.store.heap alloc = none)
      (horder : order.Perm world.store.table)
      (hrun : part.run alloc order world.store = .error fault) :
      IouHandles world who (.locked part) answer { world with fault := some fault }

end World

/-! ### What the functions keep to -/

/-- Where a thread is in its cleanup. -/
inductive CleanupPhase where
  | outside
  | entered
  | marked
  | swept
  deriving DecidableEq, Repr

/-- The order of the calls within a cleanup. -/
def cleanupCalls : Contract IouCall IouRes CleanupPhase where
  must phase request :=
    match request with
    | .lockCleanup => phase = .outside
    | .unlockCleanup => phase = .swept
    | .locked .mark => phase = .entered
    | .locked .sweep => phase = .marked
    | .locked _ => phase = .outside ∨ phase = .marked
  may _ _ _ := True
  next phase request _ :=
    match request with
    | .lockCleanup => .entered
    | .unlockCleanup => .outside
    | .locked .mark => .marked
    | .locked .sweep => .swept
    | .locked _ => phase
  excused _ := True

/-- Between two calls of a thread. -/
def CleanupPhase.between (isOpen : Bool) : CleanupPhase := if isOpen then .marked else .outside

theorem code_keeps {isOpen : Bool} {op : IouOp} (h : matchedCalls.must isOpen op) :
    wp cleanupCalls op.code (fun answer phase => matchedCalls.may isOpen op answer ∧
      phase = .between (matchedCalls.next isOpen op answer)) (.between isOpen) := by
  cases op with
  | read dev => cases isOpen <;> exact ⟨by simp [cleanupCalls, CleanupPhase.between], fun _ _ => ⟨trivial, rfl⟩⟩
  | write dev util =>
    cases isOpen <;> exact ⟨by simp [cleanupCalls, CleanupPhase.between], fun _ _ => ⟨trivial, rfl⟩⟩
  | active dev =>
    cases isOpen <;> exact ⟨by simp [cleanupCalls, CleanupPhase.between], fun _ _ => ⟨trivial, rfl⟩⟩
  | cleanupBegin =>
    obtain rfl : isOpen = false := h
    exact ⟨rfl, fun _ _ => ⟨rfl, fun _ _ => ⟨trivial, rfl⟩⟩⟩
  | cleanupFinish =>
    obtain rfl : isOpen = true := h
    exact ⟨rfl, fun _ _ => ⟨rfl, fun _ _ => ⟨trivial, rfl⟩⟩⟩

theorem Matched.keeps {client : Prog IouOp IouOp.Res Unit} (h : Matched client) :
    wp cleanupCalls (client.interp IouOp.code) (fun _ phase => phase = .outside) .outside := by
  have hcall : ∀ isOpen phase op, phase = CleanupPhase.between isOpen → matchedCalls.must isOpen op →
      wp cleanupCalls op.code (fun answer phase => matchedCalls.may isOpen op answer ∧
        phase = .between (matchedCalls.next isOpen op answer)) phase := by
    rintro isOpen phase op rfl hmust
    exact code_keeps hmust
  refine wp_mono (wp_interp hcall (fun _ _ _ _ => trivial) h rfl) ?_
  rintro _ phase ⟨isOpen, rfl, rfl⟩
  rfl

/-! ### The invariant -/

section Invariant

variable {Tid : Type} [DecidableEq Tid]

abbrev IouWorld.events (world : IouWorld Tid) : List (TableEvent Tid DevT Bytes) := world.log.map IouDone.event

structure IouInv (world : IouWorld Tid) (phases : Tid → CleanupPhase) : Prop where
  noFault : world.fault = none
  holds : world.store.Holds (tableOf noUtil world.events)
  sound : Sound noUtil world.events
  /-- Only the holder of `cleanup_lock` is inside a cleanup. -/
  owner : ∀ who, phases who ≠ .outside → world.cleanupLock = some who
  /-- The last marking is that of the cleanup that is open. -/
  lastMark : ∀ who, phases who = .marked →
    ∀ dev, touchedSince who dev world.events = touched dev world.events

theorem Store.Holds.mem_devs {s : Store} {table : Table DevT Bytes} (h : s.Holds table) {dev : DevT} :
    dev ∈ s.devs ↔ (table dev).isSome = true := by
  rw [Store.devs, List.mem_filterMap]
  constructor
  · rintro ⟨p, hp, hdev⟩
    obtain ⟨iou, hiou, rfl⟩ := Option.map_eq_some_iff.mp hdev
    rw [(h.entry p hp iou hiou).2]
    rfl
  · intro hsome
    obtain ⟨entry, hentry⟩ := Option.isSome_iff_exists.mp hsome
    obtain ⟨p, hp, hfor⟩ := h.covers dev entry hentry
    exact ⟨p, hp, beq_iff_eq.mp hfor⟩

/-- What a section does to the table behind the memory. -/
def IouSection.onTable (table : Table DevT Bytes) : (part : IouSection) → part.Res × Table DevT Bytes
  | .read dev => (table.get noUtil dev, table.touch noUtil dev)
  | .write dev util => ((), table.put dev util)
  | .active dev => ((), table.touch noUtil dev)
  | .mark => ((), table.mark)
  | .sweep => ((), table.sweep)

/-- **Each section runs through**, whatever address it gets and in whatever order it walks. -/
theorem IouSection.run_ok {s : Store} {table : Table DevT Bytes} (h : s.Holds table) {alloc : Ptr}
    (hfresh : s.heap alloc = none) {order : List Ptr} (horder : order.Perm s.table)
    (part : IouSection) :
    ∃ after, part.run alloc order s = .ok ((part.onTable table).1, after) ∧
      after.Holds (part.onTable table).2 := by
  cases part with
  | read dev => exact iouRead_ok h hfresh dev
  | write dev util => exact iouWrite_ok h hfresh dev util
  | active dev => exact iouActive_ok h hfresh dev
  | mark => exact cleanupBegin_ok h horder
  | sweep => exact cleanupFinish_ok h horder

/-- What a section adds to a sound history, but for who has marked last. -/
def EventFits (log : List (TableEvent Tid DevT Bytes)) : TableEvent Tid DevT Bytes → Prop
  | .get dev answer => answer = value noUtil dev log
  | .sweep _ removed => ∀ dev, dev ∈ removed ↔ present dev log = true ∧ touched dev log = false
  | _ => True

omit [DecidableEq Tid] in
/-- The event of a section is what it has done to the table of the history. -/
theorem event_onTable {s after : Store} {log : List (TableEvent Tid DevT Bytes)} {part : IouSection}
    (h : s.Holds (tableOf noUtil log)) (hafter : after.Holds (part.onTable (tableOf noUtil log)).2)
    (who : Tid) :
    after.Holds (tableOf noUtil
        ((part.done who s after (part.onTable (tableOf noUtil log)).1).event :: log)) ∧
      EventFits log (part.done who s after (part.onTable (tableOf noUtil log)).1).event := by
  cases part with
  | read dev =>
    refine ⟨?_, tableOf_get noUtil log dev⟩
    exact (tableOf_get_cons noUtil log dev _).symm ▸ hafter
  | write dev util => exact ⟨(tableOf_put noUtil log dev util).symm ▸ hafter, trivial⟩
  | active dev => exact ⟨(tableOf_touch noUtil log dev).symm ▸ hafter, trivial⟩
  | mark => exact ⟨(tableOf_mark noUtil log who).symm ▸ hafter, trivial⟩
  | sweep =>
    have hremoved : ∀ dev, dev ∈ s.devs.filter (· ∉ after.devs) ↔
        present dev log = true ∧ touched dev log = false := by
      intro dev
      rw [List.mem_filter, decide_eq_true_iff, h.mem_devs, hafter.mem_devs]
      cases hpresent : present dev log <;> cases htouched : touched dev log <;>
        simp [IouSection.onTable, tableOf, Table.sweep, Option.filter, hpresent, htouched]
    exact ⟨(tableOf_sweep noUtil log who hremoved).symm ▸ hafter, hremoved⟩

theorem IouInv.initial : IouInv (@IouWorld.initial Tid) fun _ => .outside :=
  ⟨rfl, holds_empty, trivial, fun _ h => absurd rfl h, fun _ h => by cases h⟩

/-- Two threads are never inside a cleanup at once. -/
theorem IouInv.alone {world : IouWorld Tid} {phases : Tid → CleanupPhase} (h : IouInv world phases)
    {who other : Tid} (hwho : phases who ≠ .outside) (hother : phases other ≠ .outside) : other = who :=
  Option.some.inj ((h.owner other hother).symm.trans (h.owner who hwho))

theorem sound_cons {log : List (TableEvent Tid DevT Bytes)} (h : Sound noUtil log) {event : TableEvent Tid DevT Bytes}
    (hfits : EventFits log event)
    (hmark : ∀ who removed, event = .sweep who removed →
      ∀ dev, touchedSince who dev log = touched dev log) : Sound noUtil (event :: log) := by
  cases event with
  | get dev answer => exact ⟨hfits, h⟩
  | sweep who removed =>
    refine ⟨fun dev => ?_, h⟩
    rw [hmark who removed rfl dev]
    exact hfits dev
  | put dev util => exact h
  | touch dev => exact h
  | mark who => exact h

theorem next_outside {phase : CleanupPhase} {part : IouSection} {answer : part.Res}
    (hmust : cleanupCalls.must phase (.locked part)) (h : phase = .outside) :
    cleanupCalls.next phase (.locked part) answer = .outside := by
  subst h
  cases part with
  | mark => cases hmust
  | sweep => cases hmust
  | _ => rfl

theorem next_marked {phase : CleanupPhase} {part : IouSection} {answer : part.Res}
    (hmust : cleanupCalls.must phase (.locked part))
    (h : cleanupCalls.next phase (.locked part) answer = .marked) :
    part = .mark ∨ part ≠ .mark ∧ phase = .marked := by
  cases part with
  | mark => exact Or.inl rfl
  | sweep => cases h
  | _ => exact Or.inr ⟨IouSection.noConfusion, h⟩

omit [DecidableEq Tid] in
theorem event_ne_mark {part : IouSection} {who : Tid} {before after : Store} {answer : part.Res}
    (h : part ≠ .mark) (other : Tid) : (part.done who before after answer).event ≠ .mark other := by
  cases part with
  | mark => exact absurd rfl h
  | _ => rintro ⟨⟩

/-- A section of one thread. -/
theorem IouInv.locked {world : IouWorld Tid} {phases : Tid → CleanupPhase} (h : IouInv world phases)
    {who : Tid} {part : IouSection} (hmust : cleanupCalls.must (phases who) (.locked part))
    {answer : part.Res} {after : Store}
    (hholds : after.Holds (tableOf noUtil ((part.done who world.store after answer).event :: world.events)))
    (hfits : EventFits world.events (part.done who world.store after answer).event) :
    IouInv { world with store := after, log := part.done who world.store after answer :: world.log }
      (Function.update phases who (cleanupCalls.next (phases who) (.locked part) answer)) := by
  refine ⟨h.noFault, hholds, sound_cons h.sound hfits ?_, ?_, ?_⟩
  · intro sweeper removed hsweep
    cases part with
    | sweep =>
      obtain ⟨rfl, -⟩ := TableEvent.sweep.inj hsweep
      exact h.lastMark who hmust
    | _ => cases hsweep
  · intro other hother
    by_cases hwho : other = who
    · subst hwho
      rw [Function.update_self] at hother
      exact h.owner other fun houtside => hother (next_outside hmust houtside)
    · rw [Function.update_of_ne hwho] at hother
      exact h.owner other hother
  · intro other hmarked dev
    by_cases hwho : other = who
    · subst hwho
      rw [Function.update_self] at hmarked
      rcases next_marked hmust hmarked with rfl | ⟨hpart, hphase⟩
      · exact touchedSince_mark
      · exact touchedSince_cons (event_ne_mark hpart) (h.lastMark other hphase dev)
    · -- the marking of another thread would need the lock
      rw [Function.update_of_ne hwho] at hmarked
      refine touchedSince_cons (event_ne_mark ?_) (h.lastMark other hmarked dev)
      rintro rfl
      refine hwho (h.alone ?_ (by rw [hmarked]; exact CleanupPhase.noConfusion))
      rw [show phases who = .entered from hmust]
      exact CleanupPhase.noConfusion

theorem IouInv.step : Keeps (@IouHandles Tid) cleanupCalls IouInv := by
  intro world phases who request answer world' h hmust hhandles
  refine ⟨trivial, ?_⟩
  cases hhandles with
  | lockCleanup hfree =>
    have hnone : ∀ other, phases other = .outside := by
      intro other
      by_contra hother
      have howner := h.owner other hother
      rw [hfree] at howner
      cases howner
    refine ⟨h.noFault, h.holds, h.sound, ?_, ?_⟩
    · intro other hother
      by_cases hwho : other = who
      · rw [hwho]
      · rw [Function.update_of_ne hwho] at hother
        exact absurd (hnone other) hother
    · intro other hmarked
      by_cases hwho : other = who
      · rw [hwho, Function.update_self] at hmarked
        cases hmarked
      · rw [Function.update_of_ne hwho, hnone] at hmarked
        cases hmarked
  | unlockCleanup =>
    have hinside : phases who ≠ .outside := by
      rw [show phases who = .swept from hmust]
      exact CleanupPhase.noConfusion
    have hnone : ∀ other, Function.update phases who .outside other = .outside := by
      intro other
      by_cases hwho : other = who
      · rw [hwho, Function.update_self]
      · rw [Function.update_of_ne hwho]
        by_contra hother
        exact hwho (h.alone hinside hother)
    refine ⟨h.noFault, h.holds, h.sound, fun other hother => absurd (hnone other) hother, ?_⟩
    intro other hmarked
    exact absurd ((hnone other).symm.trans hmarked) CleanupPhase.noConfusion
  | @locked _ _ part alloc order answer after hfresh horder hrun =>
    obtain ⟨after', hok, hafter⟩ := part.run_ok h.holds hfresh horder
    rw [hrun] at hok
    cases hok
    obtain ⟨hholds, hfits⟩ := event_onTable h.holds hafter who
    exact h.locked hmust hholds hfits
  | @fault _ _ part alloc order answer fault hfresh horder hrun =>
    obtain ⟨after, hok, -⟩ := part.run_ok h.holds hfresh horder
    rw [hrun] at hok
    cases hok

/-! ### The calls of a thread -/

/-- The calls of one thread in their order, with their answers. -/
def callsBy (who : Tid) (log : List (IouDone Tid)) : Trace IouOp IouOp.Res :=
  ((log.filter (·.who = who)).map IouDone.call).reverse

/-- Where the code is while a thread has `left` to do. -/
inductive InHand : Prog IouOp IouOp.Res Unit → Iou Unit → Prop where
  | between (left : Prog IouOp IouOp.Res Unit) : InHand left (left.interp IouOp.code)
  | marks (next : Unit → Prog IouOp IouOp.Res Unit) :
      InHand (.call .cleanupBegin next) (underIouLock .mark >>= fun _ => (next ()).interp IouOp.code)
  | unlocks (left : Prog IouOp IouOp.Res Unit) : InHand left (iou .unlockCleanup >>= fun _ => left.interp IouOp.code)

/-- The threads have made the calls of the log and got their answers. -/
def LogTold (clients : Tid → Prog IouOp IouOp.Res Unit) (config : Config Tid (IouWorld Tid) IouCall IouRes Unit) :
    Prop :=
  ∀ who, ∃ left, Runs (clients who) (callsBy who config.world.log) left ∧ InHand left (config.threads who)

omit [DecidableEq Tid] in
/-- One step of the code is within a call, or it makes one. -/
theorem InHand.step {left : Prog IouOp IouOp.Res Unit} {request : IouCall} {next : IouRes request → Iou Unit}
    {answer : IouRes request} {world world' : IouWorld Tid} {who : Tid} (h : InHand left (.call request next))
    (hhandles : IouHandles world who request answer world') (hok : world'.fault = none) :
    (world'.log = world.log ∧ InHand left (next answer)) ∨
      ∃ done left', world'.log = done :: world.log ∧ done.who = who ∧ Runs left [done.call] left' ∧
        InHand left' (next answer) := by
  generalize hcode : Prog.call request next = code at h
  cases h with
  | between =>
    cases left with
    | call op rest =>
      cases op with
      | cleanupBegin =>
        cases hcode
        cases hhandles
        exact Or.inl ⟨rfl, .marks rest⟩
      | cleanupFinish =>
        cases hcode
        cases hhandles with
        | locked => exact Or.inr ⟨_, rest (), rfl, rfl, .cons (.nil _), .unlocks _⟩
        | fault => cases hok
      | _ =>
        cases hcode
        cases hhandles with
        | locked => exact Or.inr ⟨_, rest answer, rfl, rfl, .cons (.nil _), .between _⟩
        | fault => cases hok
    | _ => cases hcode
  | marks rest =>
    cases hcode
    cases hhandles with
    | locked => exact Or.inr ⟨_, rest (), rfl, rfl, .cons (.nil _), .between _⟩
    | fault => cases hok
  | unlocks =>
    cases hcode
    cases hhandles
    exact Or.inl ⟨rfl, .between left⟩

theorem LogTold.step {clients : Tid → Prog IouOp IouOp.Res Unit}
    {config config' : Config Tid (IouWorld Tid) IouCall IouRes Unit} (h : LogTold clients config)
    (hstep : Config.Step IouHandles config config') (hok : config'.world.fault = none) : LogTold clients config' := by
  cases hstep with
  | @call thread request next answer world hthread hhandles =>
    intro who
    obtain ⟨left, hruns, hdoing⟩ := h who
    dsimp only
    by_cases hwho : who = thread
    · subst hwho
      rw [hthread] at hdoing
      rw [Function.update_self]
      rcases hdoing.step hhandles hok with ⟨hlog, hdoing'⟩ | ⟨done, left', hlog, rfl, hcall, hdoing'⟩
      · exact ⟨left, hlog ▸ hruns, hdoing'⟩
      · refine ⟨left', ?_, hdoing'⟩
        rw [hlog, callsBy, List.filter_cons_of_pos (by simp), List.map_cons, List.reverse_cons]
        exact hruns.append hcall
    · -- the calls of the other threads stay as they are
      rw [Function.update_of_ne hwho]
      refine ⟨left, ?_, hdoing⟩
      obtain ⟨_, -, hother⟩ := h thread
      rw [hthread] at hother
      rcases hother.step hhandles hok with ⟨hlog, -⟩ | ⟨done, _, hlog, rfl, -, -⟩
      · exact hlog ▸ hruns
      · rw [hlog, callsBy, List.filter_cons_of_neg (by simpa using Ne.symm hwho)]
        exact hruns

/-- The table as the threads see it by their calls. -/
structure IouTableSound (clients : Tid → Prog IouOp IouOp.Res Unit)
    (config : Config Tid (IouWorld Tid) IouCall IouRes Unit) : Prop where
  told : LogTold clients config
  noFault : config.world.fault = none
  sound : Sound noUtil config.world.events
  entries : ∀ dev, dev ∈ config.world.store.devs ↔ present dev config.world.events = true

/-- **The utilization table under any interleaving.** The calls of all threads come one behind the other in a
log. No assertion fails and no memory is used or freed that is not allocated; the table has an entry for each
device used since its entry was last removed; each read returns what was last written since then; and each
cleanup removes the entries that were not used since it began. -/
theorem iouTable_sound {clients : Tid → Prog IouOp IouOp.Res Unit} (hmatched : ∀ who, Matched (clients who))
    {config : Config Tid (IouWorld Tid) IouCall IouRes Unit}
    (hreaches : Config.Reaches IouHandles ⟨.initial, fun who => (clients who).interp IouOp.code⟩ config) :
    IouTableSound clients config := by
  have hstart : Config.Safe cleanupCalls (fun _ phase => phase = .outside) IouInv
      (⟨.initial, fun who => (clients who).interp IouOp.code⟩ :
        Config Tid (IouWorld Tid) IouCall IouRes Unit) fun _ => .outside :=
    ⟨IouInv.initial, fun who => (hmatched who).keeps⟩
  have htold : LogTold clients config := by
    induction hreaches with
    | refl => exact fun who => ⟨clients who, .nil _, .between _⟩
    | tail hbefore hstep ih =>
      obtain ⟨phases, hsafe⟩ := hstart.reaches IouInv.step (hbefore.tail hstep)
      exact ih.step hstep hsafe.inv.noFault
  obtain ⟨phases, hsafe⟩ := hstart.reaches IouInv.step hreaches
  refine ⟨htold, hsafe.inv.noFault, hsafe.inv.sound, fun dev => ?_⟩
  rw [hsafe.inv.holds.mem_devs, tableOf]
  cases present dev config.world.events <;> simp

/-! ### One thread alone -/

/-- What a call does to the table. -/
def IouOp.onTable (table : Table DevT Bytes) : (op : IouOp) → op.Res × Table DevT Bytes
  | .read dev => (table.get noUtil dev, table.touch noUtil dev)
  | .write dev util => ((), table.put dev util)
  | .active dev => ((), table.touch noUtil dev)
  | .cleanupBegin => ((), table.mark)
  | .cleanupFinish => ((), table.sweep)

/-- What a thread does to the table while no other thread runs. -/
def runTable {α : Type} : Prog IouOp IouOp.Res α → Table DevT Bytes → Option (α × Table DevT Bytes)
  | .ret value, table => some (value, table)
  | .call op next, table => runTable (next (op.onTable table).1) (op.onTable table).2
  | .abort, _ => none
  | .stuck, _ => none

omit [DecidableEq Tid] in
theorem IouHandles.onTable {world world' : IouWorld Tid} {who : Tid} {part : IouSection} {answer : part.Res}
    (h : IouHandles world who (.locked part) answer world') {table : Table DevT Bytes}
    (hholds : world.store.Holds table) :
    answer = (part.onTable table).1 ∧ world'.store.Holds (part.onTable table).2 := by
  cases h with
  | locked hfresh horder hrun =>
    obtain ⟨after, hok, hafter⟩ := part.run_ok hholds hfresh horder
    rw [hrun] at hok
    cases hok
    exact ⟨rfl, hafter⟩
  | fault hfresh horder hrun =>
    obtain ⟨after, hok, -⟩ := part.run_ok hholds hfresh horder
    rw [hrun] at hok
    cases hok

omit [DecidableEq Tid] in
theorem IouOp.handled {op : IouOp} {trace : Trace IouCall IouRes} {answer : op.Res}
    (hruns : Runs op.code trace (.ret answer)) {world world' : IouWorld Tid} {who : Tid}
    (hhandled : Handled IouHandles who world trace world') {table : Table DevT Bytes}
    (hholds : world.store.Holds table) :
    answer = (op.onTable table).1 ∧ world'.store.Holds (op.onTable table).2 := by
  cases op with
  | cleanupBegin =>
    obtain ⟨_, _, rfl, hmark⟩ := Runs.of_ask_bind hruns
    cases hmark with
    | cons hdone =>
      cases hdone
      cases hhandled with
      | cons hlock hrest =>
        cases hlock
        cases hrest with
        | cons hpart hnil =>
          cases hnil
          exact hpart.onTable hholds
  | cleanupFinish =>
    obtain ⟨_, _, rfl, hunlock⟩ := Runs.of_ask_bind hruns
    cases hunlock with
    | cons hdone =>
      cases hdone
      cases hhandled with
      | cons hpart hrest =>
        cases hrest with
        | cons hunlock hnil =>
          cases hnil
          cases hunlock
          exact hpart.onTable hholds
  | _ =>
    cases hruns with
    | cons hdone =>
      cases hdone
      cases hhandled with
      | cons hpart hnil =>
        cases hnil
        exact hpart.onTable hholds

omit [DecidableEq Tid] in
/-- **A thread on its own leaves the table that its calls describe.** -/
theorem runTable_of_handled {α : Type} {client : Prog IouOp IouOp.Res α} {trace : Trace IouCall IouRes}
    {result : α} (hruns : Runs (client.interp IouOp.code) trace (.ret result))
    {world world' : IouWorld Tid} {who : Tid} (hhandled : Handled IouHandles who world trace world')
    {table : Table DevT Bytes} (hholds : world.store.Holds table) :
    ∃ table', runTable client table = some (result, table') ∧ world'.store.Holds table' := by
  induction client generalizing trace world table with
  | ret value =>
    cases hruns
    cases hhandled
    exact ⟨table, rfl, hholds⟩
  | call op next ih =>
    obtain ⟨first, second, answer, rfl, hfirst, hsecond⟩ := Runs.of_bind hruns
    obtain ⟨middle, hbefore, hafter⟩ := hhandled.split
    obtain ⟨rfl, hmiddle⟩ := IouOp.handled hfirst hbefore hholds
    exact ih _ hsecond hafter hmiddle
  | abort => cases hruns
  | stuck => cases hruns

end Invariant

/-- The memory behind a section. -/
def IouSection.after (part : IouSection) (alloc : Ptr) (order : List Ptr) (s : Store) : Store :=
  match part.run alloc order s with
  | .ok (_, after) => after
  | .error _ => s

theorem IouHandles.after {Tid : Type} {world : IouWorld Tid} {part : IouSection} {answer : part.Res} (who : Tid)
    (alloc : Ptr) (order : List Ptr) (hfresh : world.store.heap alloc = none)
    (horder : order.Perm world.store.table)
    (hanswer : (part.run alloc order world.store).map Prod.fst = .ok answer) :
    IouHandles world who (.locked part) answer { world with
      store := part.after alloc order world.store
      log := part.done who world.store (part.after alloc order world.store) answer :: world.log } := by
  cases hrun : part.run alloc order world.store with
  | error fault =>
    rw [hrun] at hanswer
    cases hanswer
  | ok result =>
    rw [hrun] at hanswer
    cases hanswer
    refine .locked hfresh horder ?_
    rw [IouSection.after, hrun]

/-- Two devices are written, one of them is read during a cleanup, and the other one behind it. -/
def cleanupClient : Prog IouOp IouOp.Res Bytes :=
  .call (.write 3 (ascii "7.5")) fun _ => .call (.write 5 (ascii "2")) fun _ => .call .cleanupBegin fun _ =>
    .call (.read 3) fun _ => .call .cleanupFinish fun _ => .call (.read 5) .ret

def cleanupTrace : Trace IouCall IouRes :=
  [⟨.locked (.write 3 (ascii "7.5")), ()⟩, ⟨.locked (.write 5 (ascii "2")), ()⟩, ⟨.lockCleanup, ()⟩,
    ⟨.locked .mark, ()⟩, ⟨.locked (.read 3), ascii "7.5"⟩, ⟨.locked .sweep, ()⟩, ⟨.unlockCleanup, ()⟩,
    ⟨.locked (.read 5), noUtil⟩]

theorem runTable_of_handled_cleanup :
    ∃ world' table', runTable cleanupClient (fun _ => none) = some (noUtil, table') ∧
      (world' : IouWorld Unit).store.Holds table' := by
  have hhandled : ∃ world', Handled IouHandles () IouWorld.initial cleanupTrace world' :=
    ⟨_, .cons (.after _ 0 [] rfl (.refl _) rfl) (.cons (.after _ 1 [0] rfl (.refl _) rfl) (.cons (.lockCleanup rfl)
      (.cons (.after _ 2 [1, 0] rfl (.refl _) rfl) (.cons (.after _ 2 [1, 0] rfl (.refl _) rfl)
      (.cons (.after _ 2 [1, 0] rfl (.refl _) rfl) (.cons .unlockCleanup
      (.cons (.after _ 1 [0] rfl (.refl _) rfl) (.nil _))))))))⟩
  obtain ⟨world', hhandled⟩ := hhandled
  have hruns : Runs (cleanupClient.interp IouOp.code) cleanupTrace (.ret noUtil) :=
    .cons (.cons (.cons (.cons (.cons (.cons (.cons (.cons (.nil _))))))))
  exact ⟨world', runTable_of_handled hruns hhandled holds_empty⟩

/-- One thread cleans up around a read of another. -/
def cleanupClients (who : Bool) : Prog IouOp IouOp.Res Unit :=
  if who then .call .cleanupBegin fun _ => .call .cleanupFinish .ret
  else .call (.write 3 (ascii "7.5")) fun _ => .call (.write 5 (ascii "2")) fun _ => .call (.read 3) fun _ => .ret ()

theorem cleanupClients_matched (who : Bool) : Matched (cleanupClients who) := by
  cases who
  · exact ⟨trivial, fun _ _ => ⟨trivial, fun _ _ => ⟨trivial, fun _ _ => rfl⟩⟩⟩
  · exact ⟨rfl, fun _ _ => ⟨rfl, fun _ _ => rfl⟩⟩

/-- The device that is read during the cleanup keeps its entry, the other one loses it. -/
theorem iouTable_sound_cleanup : ∃ config,
    callsBy false config.world.log =
      [⟨.write 3 (ascii "7.5"), ()⟩, ⟨.write 5 (ascii "2"), ()⟩, ⟨.read 3, ascii "7.5"⟩] ∧
      callsBy true config.world.log = [⟨.cleanupBegin, ()⟩, ⟨.cleanupFinish, ()⟩] ∧ config.world.store.devs = [3] ∧
      IouTableSound cleanupClients config := by
  have hworlds : ∃ w₁ w₂ w₃ w₄, Handled IouHandles false IouWorld.initial (cleanupTrace.take 2) w₁ ∧
      Handled IouHandles true w₁ [⟨.lockCleanup, ()⟩, ⟨.locked .mark, ()⟩] w₂ ∧
      Handled IouHandles false w₂ [⟨.locked (.read 3), ascii "7.5"⟩] w₃ ∧
      Handled IouHandles true w₃ [⟨.locked .sweep, ()⟩] w₄ ∧
      callsBy false w₄.log = [⟨.write 3 (ascii "7.5"), ()⟩, ⟨.write 5 (ascii "2"), ()⟩, ⟨.read 3, ascii "7.5"⟩] ∧
      callsBy true w₄.log = [⟨.cleanupBegin, ()⟩, ⟨.cleanupFinish, ()⟩] ∧ w₄.store.devs = [3] :=
    ⟨_, _, _, _, .cons (.after _ 0 [] rfl (.refl _) rfl) (.cons (.after _ 1 [0] rfl (.refl _) rfl) (.nil _)),
      .cons (.lockCleanup rfl) (.cons (.after _ 2 [1, 0] rfl (.refl _) rfl) (.nil _)),
      .cons (.after _ 2 [1, 0] rfl (.refl _) rfl) (.nil _), .cons (.after _ 2 [1, 0] rfl (.refl _) rfl) (.nil _),
      rfl, rfl, rfl⟩
  obtain ⟨w₁, w₂, w₃, w₄, hwrites, hmarks, hreads, hsweeps, hcalls⟩ := hworlds
  have hreaches : Config.Reaches IouHandles ⟨.initial, fun who => (cleanupClients who).interp IouOp.code⟩ _ :=
    ((Config.Reaches.of_runs (.cons (.cons (.nil _))) hwrites rfl).trans
      (Config.Reaches.of_runs (.cons (.cons (.nil _))) hmarks rfl)).trans
      ((Config.Reaches.of_runs (.cons (.nil _)) hreads rfl).trans
        (Config.Reaches.of_runs (.cons (.nil _)) hsweeps rfl))
  exact ⟨_, hcalls.1, hcalls.2.1, hcalls.2.2, iouTable_sound cleanupClients_matched hreaches⟩

end Cmogstored
