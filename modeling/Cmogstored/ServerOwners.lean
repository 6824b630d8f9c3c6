import Cmogstored.ServerStep

/-! Every client has exactly one owner. A client moves from one place to another in one call; the lemmas
here say so for each of the moves, and the invariant follows the threads through all of them. -/

namespace Cmogstored

open List Prog

variable {dev : Dev} {rest : List Client} {svc : Svc}

variable {Tid : Type}

/-- Every client is in one place, and linked there once. -/
structure Owned (w : World Tid) : Prop where
  place : ∀ mfd, ∃! place, w.At mfd place
  hands : ∀ thread, (w.hands thread).Nodup
  fsck : ∀ dev, (w.fsck dev).queue.Nodup
  subscribers : ∀ svc, (w.subscribers svc).Nodup

/-- Nothing is where it was not before, but for one client that has moved from `a` to `b`. -/
def Moves (w w' : World Tid) (mfd : Client) (a b : Place Tid) : Prop :=
  ∀ other place, w'.At other place ↔
    (other = mfd ∧ place = b) ∨ (¬ (other = mfd ∧ place = a) ∧ w.At other place)

section Places

variable {w w' : World Tid} {thread : Tid} {mfd : Client} {a b : Place Tid}

theorem Owned.eq (h : Owned w) (ha : w.At mfd a) (hb : w.At mfd b) : a = b :=
  (h.place mfd).unique ha hb

theorem Owned.not_held (h : Owned w) (place : Place Tid) (hat : w.At mfd place)
    (hplace : ∀ holder, place ≠ .held holder) (holder : Tid) : mfd ∉ w.hands holder :=
  fun hheld => hplace holder (h.eq hat (b := .held holder) hheld)

theorem Owned.place_of_moves (h : Owned w) (ha : w.At mfd a) (hmoves : Moves w w' mfd a b) :
    ∀ mfd, ∃! place, w'.At mfd place := by
  intro other
  by_cases hother : other = mfd
  · subst hother
    refine ⟨b, (hmoves other b).mpr (Or.inl ⟨rfl, rfl⟩), fun place hplace => ?_⟩
    rcases (hmoves other place).mp hplace with ⟨-, hb⟩ | ⟨hne, hold⟩
    · exact hb
    · exact absurd ⟨rfl, h.eq hold ha⟩ hne
  · have hat : ∀ place, w'.At other place ↔ w.At other place := fun place => by
      rw [hmoves other place]
      simp [hother]
    obtain ⟨place, hplace, hunique⟩ := h.place other
    exact ⟨place, (hat place).mpr hplace, fun place' hplace' => hunique place' ((hat place').mp hplace')⟩

/-- Nothing moves. -/
theorem Owned.same (h : Owned w) (harmed : w'.armed = w.armed) (hhands : w'.hands = w.hands)
    (hqueue : ∀ dev, (w'.fsck dev).queue = (w.fsck dev).queue) (hsubscribers : w'.subscribers = w.subscribers)
    (hopen : w'.isOpen = w.isOpen) : Owned w' := by
  have hat : ∀ mfd place, w'.At mfd place ↔ w.At mfd place := by
    intro mfd place
    cases place <;> simp only [World.At, harmed, hhands, hqueue, hsubscribers, hopen]
  refine ⟨fun mfd => ?_, fun thread => hhands ▸ h.hands thread, fun dev => hqueue dev ▸ h.fsck dev,
    fun svc => hsubscribers ▸ h.subscribers svc⟩
  obtain ⟨place, hplace, hunique⟩ := h.place mfd
  exact ⟨place, (hat mfd place).mpr hplace, fun place' hplace' => hunique place' ((hat mfd place').mp hplace')⟩

end Places

/-! ### The moves -/

section Moves

variable [DecidableEq Tid] {w : World Tid} {thread : Tid} {mfd : Client}

theorem mem_receive (w : World Tid) (thread holder : Tid) (mfd other : Client) :
    other ∈ (w.receive thread mfd).hands holder ↔ (holder = thread ∧ other = mfd) ∨ other ∈ w.hands holder := by
  unfold World.receive
  by_cases hholder : holder = thread
  · subst hholder
    simp
  · simp [hholder]

theorem mem_release (h : Owned w) (thread holder : Tid) (mfd other : Client) :
    other ∈ (w.release thread mfd).hands holder ↔ ¬ (holder = thread ∧ other = mfd) ∧ other ∈ w.hands holder := by
  unfold World.release
  by_cases hholder : holder = thread
  · subst hholder
    simp [(h.hands holder).mem_erase_iff]
  · simp [hholder]

theorem nodup_receive (h : ∀ holder, (w.hands holder).Nodup) (hnew : mfd ∉ w.hands thread) (holder : Tid) :
    ((w.receive thread mfd).hands holder).Nodup := by
  unfold World.receive
  by_cases hholder : holder = thread
  · subst hholder
    simp [hnew, h holder]
  · simp [hholder, h holder]

theorem nodup_release (h : Owned w) (thread holder : Tid) (mfd : Client) :
    ((w.release thread mfd).hands holder).Nodup := by
  unfold World.release
  by_cases hholder : holder = thread
  · subst hholder
    simp [(h.hands holder).erase mfd]
  · simp [hholder, h.hands holder]

theorem moves_deliver (w : World Tid) (thread : Tid) (mfd : Client) :
    Moves w (w.deliver thread mfd) mfd .armed (.held thread) := by
  intro other place
  cases place with
  | armed =>
    show Function.update w.armed mfd false other = true ↔ _
    by_cases hother : other = mfd
    · subst hother
      simp [World.At]
    · simp [World.At, hother]
  | held holder =>
    refine (mem_receive _ thread holder mfd other).trans ?_
    simp [World.At, and_comm]
  | fsck dev => simp [World.At, World.deliver, World.receive]
  | subscribed svc => simp [World.At, World.deliver, World.receive]
  | closed => simp [World.At, World.deliver, World.receive]

theorem moves_arm (h : Owned w) (thread : Tid) (mfd : Client) :
    Moves w (w.arm thread mfd) mfd (.held thread) .armed := by
  intro other place
  cases place with
  | armed =>
    show Function.update w.armed mfd true other = true ↔ _
    by_cases hother : other = mfd
    · subst hother
      simp
    · simp [World.At, hother]
  | held holder =>
    refine (mem_release h thread holder mfd other).trans ?_
    simp [World.At, and_comm]
  | fsck dev => simp [World.At, World.arm, World.release]
  | subscribed svc => simp [World.At, World.arm, World.release]
  | closed => simp [World.At, World.arm, World.release]

theorem moves_put (h : Owned w) (hheld : mfd ∈ w.hands thread) :
    Moves w (w.put thread mfd) mfd (.held thread) .closed := by
  have hdisarmed : ¬ w.armed mfd = true := fun harmed =>
    nomatch h.eq (a := .held thread) (b := .armed) hheld harmed
  intro other place
  cases place with
  | armed =>
    show Function.update w.armed mfd false other = true ↔ _
    by_cases hother : other = mfd
    · subst hother
      simp [World.At, hdisarmed]
    · simp [World.At, hother]
  | held holder =>
    refine (mem_release h thread holder mfd other).trans ?_
    simp [World.At, and_comm]
  | fsck dev => simp [World.At, World.put, World.release]
  | subscribed svc => simp [World.At, World.put, World.release]
  | closed =>
    show Function.update w.isOpen mfd false other = false ↔ _
    by_cases hother : other = mfd
    · subst hother
      simp
    · simp [World.At, hother]

theorem moves_accepted (w : World Tid) (thread : Tid) (svc : Svc) (mfd : Client) :
    Moves w (w.accepted thread svc mfd) mfd .closed (.held thread) := by
  intro other place
  cases place with
  | armed => simp [World.At, World.accepted, World.receive]
  | held holder =>
    refine (mem_receive _ thread holder mfd other).trans ?_
    simp [World.At, and_comm]
  | fsck dev => simp [World.At, World.accepted, World.receive]
  | subscribed svc => simp [World.At, World.accepted, World.receive]
  | closed =>
    show Function.update w.isOpen mfd true other = false ↔ _
    by_cases hother : other = mfd
    · subst hother
      simp
    · simp [World.At, hother]

theorem moves_enqueue (h : Owned w) (thread : Tid) (dev : Dev) (mfd : Client) :
    Moves w (w.enqueue thread dev mfd) mfd (.held thread) (.fsck dev) := by
  intro other place
  cases place with
  | armed => simp [World.At, World.enqueue, World.release, World.asked]
  | held holder =>
    refine (mem_release h thread holder mfd other).trans ?_
    simp [World.At, and_comm]
  | fsck dev' =>
    show other ∈ (Function.update w.fsck dev _ dev').queue ↔ _
    by_cases hdev : dev' = dev
    · subst hdev
      simp [World.At, or_comm]
    · simp [World.At, hdev]
  | subscribed svc => simp [World.At, World.enqueue, World.release, World.asked]
  | closed => simp [World.At, World.enqueue, World.release, World.asked]

theorem moves_dequeue (h : Owned w)
    (hqueue : (w.fsck dev).queue = mfd :: rest) :
    Moves w (w.dequeue thread dev mfd rest) mfd (.fsck dev) (.held thread) := by
  have hnot : mfd ∉ rest := by
    have hnodup := h.fsck dev
    rw [hqueue] at hnodup
    exact (nodup_cons.mp hnodup).1
  intro other place
  cases place with
  | armed => simp [World.At, World.dequeue, World.receive]
  | held holder =>
    refine (mem_receive _ thread holder mfd other).trans ?_
    simp [World.At, and_comm]
  | fsck dev' =>
    show other ∈ (Function.update w.fsck dev _ dev').queue ↔ _
    by_cases hdev : dev' = dev
    · subst hdev
      by_cases hother : other = mfd
      · subst hother
        simp [hnot]
      · simp [World.At, hqueue, hother]
    · simp [World.At, hdev]
  | subscribed svc => simp [World.At, World.dequeue, World.receive]
  | closed => simp [World.At, World.dequeue, World.receive]

theorem moves_subscribed (h : Owned w) (thread : Tid) (mfd : Client) :
    Moves w (w.subscribed thread mfd) mfd (.held thread) (.subscribed (w.svcOf mfd)) := by
  intro other place
  cases place with
  | armed => simp [World.At, World.subscribed, World.release]
  | held holder =>
    refine (mem_release h thread holder mfd other).trans ?_
    simp [World.At, and_comm]
  | fsck dev => simp [World.At, World.subscribed, World.release]
  | subscribed svc =>
    show other ∈ Function.update w.subscribers (w.svcOf mfd) _ svc ↔ _
    by_cases hsvc : svc = w.svcOf mfd
    · subst hsvc
      simp [World.At]
    · simp [World.At, hsvc]
  | closed => simp [World.At, World.subscribed, World.release]

theorem moves_unsubscribed (h : Owned w) (thread : Tid) (svc : Svc) (mfd : Client) :
    Moves w (w.unsubscribed thread svc mfd) mfd (.subscribed svc) (.held thread) := by
  intro other place
  cases place with
  | armed => simp [World.At, World.unsubscribed, World.receive]
  | held holder =>
    refine (mem_receive _ thread holder mfd other).trans ?_
    simp [World.At, and_comm]
  | fsck dev => simp [World.At, World.unsubscribed, World.receive]
  | subscribed svc' =>
    show other ∈ Function.update w.subscribers svc _ svc' ↔ _
    by_cases hsvc : svc' = svc
    · subst hsvc
      simp [World.At, (h.subscribers svc').mem_erase_iff]
    · simp [World.At, hsvc]
  | closed => simp [World.At, World.unsubscribed, World.receive]

theorem Owned.deliver (h : Owned w) (harmed : w.armed mfd = true) : Owned (w.deliver thread mfd) where
  place := h.place_of_moves (a := .armed) harmed (moves_deliver w thread mfd)
  hands := nodup_receive h.hands (h.not_held .armed harmed nofun thread)
  fsck := h.fsck
  subscribers := h.subscribers

theorem Owned.arm (h : Owned w) (hheld : mfd ∈ w.hands thread) : Owned (w.arm thread mfd) where
  place := h.place_of_moves (a := .held thread) hheld (moves_arm h thread mfd)
  hands holder := nodup_release h thread holder mfd
  fsck := h.fsck
  subscribers := h.subscribers

theorem Owned.put (h : Owned w) (hheld : mfd ∈ w.hands thread) : Owned (w.put thread mfd) where
  place := h.place_of_moves (a := .held thread) hheld (moves_put h hheld)
  hands holder := nodup_release h thread holder mfd
  fsck := h.fsck
  subscribers := h.subscribers

theorem Owned.accepted (h : Owned w) (hclosed : w.isOpen mfd = false) (svc : Svc) :
    Owned (w.accepted thread svc mfd) where
  place := h.place_of_moves (a := .closed) hclosed (moves_accepted w thread svc mfd)
  hands := nodup_receive h.hands (h.not_held .closed hclosed nofun thread)
  fsck := h.fsck
  subscribers := h.subscribers

theorem Owned.enqueue (h : Owned w) (hheld : mfd ∈ w.hands thread) (dev : Dev) :
    Owned (w.enqueue thread dev mfd) where
  place := h.place_of_moves (a := .held thread) hheld (moves_enqueue h thread dev mfd)
  hands holder := nodup_release h thread holder mfd
  fsck dev' := by
    show (Function.update w.fsck dev _ dev').queue.Nodup
    by_cases hdev : dev' = dev
    · subst hdev
      have hnot : mfd ∉ (w.fsck dev').queue := fun hqueued =>
        h.not_held (.fsck dev') hqueued nofun thread hheld
      rw [Function.update_self]
      refine nodup_append.mpr ⟨h.fsck dev', by simp, fun a ha b hb heq => hnot ?_⟩
      rwa [heq, mem_singleton.mp hb] at ha
    · rw [Function.update_of_ne hdev]
      exact h.fsck dev'
  subscribers := h.subscribers

theorem Owned.dequeue (h : Owned w)
    (hqueue : (w.fsck dev).queue = mfd :: rest) : Owned (w.dequeue thread dev mfd rest) where
  place := h.place_of_moves (a := .fsck dev) (by rw [World.At, hqueue]; exact mem_cons_self ..)
    (moves_dequeue h hqueue)
  hands := nodup_receive h.hands (h.not_held (.fsck dev)
    (by rw [World.At, hqueue]; exact mem_cons_self ..) nofun thread)
  fsck dev' := by
    show (Function.update w.fsck dev _ dev').queue.Nodup
    by_cases hdev : dev' = dev
    · subst hdev
      rw [Function.update_self]
      have hnodup := h.fsck dev'
      rw [hqueue] at hnodup
      exact (nodup_cons.mp hnodup).2
    · rw [Function.update_of_ne hdev]
      exact h.fsck dev'
  subscribers := h.subscribers

theorem Owned.subscribed (h : Owned w) (hheld : mfd ∈ w.hands thread) : Owned (w.subscribed thread mfd) where
  place := h.place_of_moves (a := .held thread) hheld (moves_subscribed h thread mfd)
  hands holder := nodup_release h thread holder mfd
  fsck := h.fsck
  subscribers svc := by
    show (Function.update w.subscribers (w.svcOf mfd) _ svc).Nodup
    by_cases hsvc : svc = w.svcOf mfd
    · subst hsvc
      have hnot : mfd ∉ w.subscribers (w.svcOf mfd) := fun hlinked =>
        h.not_held (.subscribed _) hlinked nofun thread hheld
      rw [Function.update_self]
      exact nodup_cons.mpr ⟨hnot, h.subscribers _⟩
    · rw [Function.update_of_ne hsvc]
      exact h.subscribers svc

theorem Owned.unsubscribed (h : Owned w) (hlinked : mfd ∈ w.subscribers svc) :
    Owned (w.unsubscribed thread svc mfd) where
  place := h.place_of_moves (a := .subscribed svc) hlinked (moves_unsubscribed h thread svc mfd)
  hands := nodup_receive h.hands (h.not_held (.subscribed svc) hlinked nofun thread)
  fsck := h.fsck
  subscribers svc' := by
    show (Function.update w.subscribers svc _ svc').Nodup
    by_cases hsvc : svc' = svc
    · subst hsvc
      rw [Function.update_self]
      exact (h.subscribers svc').erase mfd
    · rw [Function.update_of_ne hsvc]
      exact h.subscribers svc'

end Moves

/-! ### The invariant -/

/-- What holds of the world and of all threads. -/
structure ServerInv (w : World Tid) (grips : Tid → Grip) : Prop where
  owned : Owned w
  hands : ∀ thread, w.hands thread = (grips thread).held
  turn : ∀ thread mfd phase, (grips thread).turn = some (mfd, phase) → mfd ∈ (grips thread).held
  svc : ∀ svc mfd, mfd ∈ w.subscribers svc → w.svcOf mfd = svc
  bare : ∀ svc mfd, mfd ∈ w.subscribers svc → (w.conns mfd).bare = true
  saved : ∀ thread mfd, (grips thread).turn = some (mfd, .saved true) → (w.conns mfd).bare = true
  /-- the list is the one under the lock -/
  listing : ∀ thread svc todo, (grips thread).listing = some (svc, todo) →
    w.lock svc = some thread ∧ todo.Nodup ∧ ∀ mfd ∈ todo, mfd ∈ w.subscribers svc

section Inv

variable [DecidableEq Tid] {w w' : World Tid} {grips : Tid → Grip} {thread : Tid} {grip : Grip} {mfd : Client}

theorem update_cases {α : Type} {P : Tid → α → Prop} {f : Tid → α} {value : α} (hself : P thread value)
    (hother : ∀ other, other ≠ thread → P other (f other)) (holder : Tid) :
    P holder (Function.update f thread value holder) := by
  by_cases hholder : holder = thread
  · subst hholder
    rw [Function.update_self]
    exact hself
  · rw [Function.update_of_ne hholder]
    exact hother holder hholder

/-- A call of one thread: it changes the structs of clients in its hands only, and the subscribers of a
service only by adding to them, or under the lock. -/
theorem ServerInv.step (h : ServerInv w grips) (howned : Owned w')
    (hhands : w'.hands = Function.update w.hands thread grip.held)
    (hturn : ∀ mfd phase, grip.turn = some (mfd, phase) → mfd ∈ grip.held ∧
      (phase = .saved true → (w'.conns mfd).bare = true))
    (hconns : ∀ mfd, w'.conns mfd ≠ w.conns mfd → mfd ∈ w.hands thread ∨ mfd ∈ grip.held)
    (hsvcOf : ∀ mfd, w'.svcOf mfd ≠ w.svcOf mfd → mfd ∈ grip.held)
    (hadded : ∀ svc mfd, mfd ∈ w'.subscribers svc → mfd ∈ w.subscribers svc ∨
      (w'.svcOf mfd = svc ∧ (w'.conns mfd).bare = true))
    (hremoved : ∀ svc mfd, mfd ∈ w.subscribers svc → mfd ∈ w'.subscribers svc ∨ w.lock svc = some thread)
    (hlock : ∀ svc, w'.lock svc = w.lock svc ∨ w.lock svc = none ∨ w.lock svc = some thread)
    (hlisting : ∀ svc todo, grip.listing = some (svc, todo) →
      w'.lock svc = some thread ∧ todo.Nodup ∧ ∀ mfd ∈ todo, mfd ∈ w'.subscribers svc) :
    ServerInv w' (Function.update grips thread grip) := by
  have hself : w'.hands thread = grip.held := by rw [hhands, Function.update_self]
  have hsame : ∀ other, other ≠ thread → w'.hands other = w.hands other := fun other hne => by
    rw [hhands, Function.update_of_ne hne]
  -- a struct that somebody else relies on has not changed
  have hkept : ∀ mfd, mfd ∉ w.hands thread → mfd ∉ w'.hands thread → w'.conns mfd = w.conns mfd ∧
      w'.svcOf mfd = w.svcOf mfd := by
    intro mfd hbefore hafter
    rw [hself] at hafter
    refine ⟨by_contra fun hne => ?_, by_contra fun hne => hafter (hsvcOf mfd hne)⟩
    exact (hconns mfd hne).elim hbefore hafter
  have hlinked : ∀ svc mfd, mfd ∈ w'.subscribers svc → mfd ∈ w.subscribers svc →
      w'.conns mfd = w.conns mfd ∧ w'.svcOf mfd = w.svcOf mfd := fun svc mfd hnew hold =>
    hkept mfd (h.owned.not_held (.subscribed svc) hold nofun thread)
      (howned.not_held (.subscribed svc) hnew nofun thread)
  refine ⟨howned, ?_, ?_, ?_, ?_, ?_, ?_⟩
  · exact update_cases (P := fun holder (grip : Grip) => w'.hands holder = grip.held) hself
      fun other hne => (hsame other hne).trans (h.hands other)
  · exact update_cases
      (P := fun _ (grip : Grip) => ∀ mfd phase, grip.turn = some (mfd, phase) → mfd ∈ grip.held)
      (fun mfd phase hphase => (hturn mfd phase hphase).1) fun other _ => h.turn other
  · intro svc mfd hnew
    rcases hadded svc mfd hnew with hold | ⟨hsvc, -⟩
    · rw [(hlinked svc mfd hnew hold).2]
      exact h.svc svc mfd hold
    · exact hsvc
  · intro svc mfd hnew
    rcases hadded svc mfd hnew with hold | ⟨-, hbare⟩
    · rw [(hlinked svc mfd hnew hold).1]
      exact h.bare svc mfd hold
    · exact hbare
  · refine update_cases
      (P := fun _ (grip : Grip) => ∀ mfd, grip.turn = some (mfd, .saved true) → (w'.conns mfd).bare = true)
      (fun mfd hphase => (hturn mfd _ hphase).2 rfl) fun other hne mfd hphase => ?_
    have hheld : mfd ∈ w.hands other := h.hands other ▸ h.turn other mfd _ hphase
    have hbefore : mfd ∉ w.hands thread := fun hmine =>
      hne (Place.held.inj (h.owned.eq (a := .held other) (b := .held thread) hheld hmine))
    have hafter : mfd ∉ w'.hands thread := fun hmine =>
      hne (Place.held.inj (howned.eq (a := .held other) (b := .held thread)
        (by rw [World.At, hsame other hne]; exact hheld) hmine))
    rw [(hkept mfd hbefore hafter).1]
    exact h.saved other mfd hphase
  · refine update_cases
      (P := fun holder (grip : Grip) => ∀ svc todo, grip.listing = some (svc, todo) →
        w'.lock svc = some holder ∧ todo.Nodup ∧ ∀ mfd ∈ todo, mfd ∈ w'.subscribers svc)
      hlisting fun other hne svc todo hlisted => ?_
    obtain ⟨hlocked, hnodup, hmem⟩ := h.listing other svc todo hlisted
    have hforeign : w.lock svc ≠ some thread := by
      rw [hlocked]
      exact fun heq => hne (Option.some.inj heq)
    refine ⟨?_, hnodup, fun mfd htodo => (hremoved svc mfd (hmem mfd htodo)).resolve_right hforeign⟩
    rcases hlock svc with hsame | hnone | hmine
    · exact hsame.trans hlocked
    · rw [hlocked] at hnone
      cases hnone
    · exact absurd hmine hforeign

/-- A call that touches no struct, no subscriber and no lock. -/
theorem ServerInv.moved (h : ServerInv w grips) (howned : Owned w')
    (hhands : w'.hands = Function.update w.hands thread grip.held)
    (hturn : ∀ mfd phase, grip.turn = some (mfd, phase) → mfd ∈ grip.held ∧
      (phase = .saved true → (w.conns mfd).bare = true))
    (hconns : w'.conns = w.conns) (hsvcOf : w'.svcOf = w.svcOf) (hsubscribers : w'.subscribers = w.subscribers)
    (hlock : w'.lock = w.lock) (hlisting : grip.listing = (grips thread).listing) :
    ServerInv w' (Function.update grips thread grip) := by
  refine h.step howned hhands (by rwa [hconns]) (fun mfd hne => absurd (by rw [hconns]) hne)
    (fun mfd hne => absurd (by rw [hsvcOf]) hne) ?_ ?_ (fun svc => Or.inl (by rw [hlock])) ?_
  · rw [hsubscribers]
    exact fun svc mfd hlinked => Or.inl hlinked
  · rw [hsubscribers]
    exact fun svc mfd hlinked => Or.inl hlinked
  · rw [hsubscribers, hlock, hlisting]
    exact h.listing thread

/-- A call after which every client is where it was. -/
theorem ServerInv.quiet (h : ServerInv w grips) (harmed : w'.armed = w.armed) (hhands : w'.hands = w.hands)
    (hqueue : ∀ dev, (w'.fsck dev).queue = (w.fsck dev).queue) (hopen : w'.isOpen = w.isOpen)
    (hheld : grip.held = (grips thread).held)
    (hturn : ∀ mfd phase, grip.turn = some (mfd, phase) → mfd ∈ grip.held ∧
      (phase = .saved true → (w.conns mfd).bare = true))
    (hconns : w'.conns = w.conns) (hsvcOf : w'.svcOf = w.svcOf) (hsubscribers : w'.subscribers = w.subscribers)
    (hlock : w'.lock = w.lock) (hlisting : grip.listing = (grips thread).listing) :
    ServerInv w' (Function.update grips thread grip) := by
  refine h.moved (h.owned.same harmed hhands hqueue hsubscribers hopen) ?_ hturn hconns hsvcOf hsubscribers
    hlock hlisting
  rw [hhands, hheld, ← h.hands thread, Function.update_eq_self]

omit [DecidableEq Tid] in
/-- A thread goes on with the client of its step. -/
theorem turn_of_step {phase : TurnPhase} (hheld : mfd ∈ grip.held) (hturn : grip.turn = some (mfd, phase))
    (hsaved : phase ≠ .saved true) : ∀ other phase', grip.turn = some (other, phase') → other ∈ grip.held ∧
      (phase' = .saved true → (w.conns other).bare = true) := by
  intro other phase' hphase
  rw [hturn] at hphase
  cases hphase
  exact ⟨hheld, fun heq => absurd heq hsaved⟩

omit [DecidableEq Tid] in
/-- What is known of the step of a thread. -/
theorem ServerInv.turns (h : ServerInv w grips) (thread : Tid) :
    ∀ mfd phase, (grips thread).turn = some (mfd, phase) → mfd ∈ (grips thread).held ∧
      (phase = .saved true → (w.conns mfd).bare = true) := by
  intro mfd phase hphase
  refine ⟨h.turn thread mfd phase hphase, ?_⟩
  rintro rfl
  exact h.saved thread mfd hphase

omit [DecidableEq Tid] in
/-- The same once a client is dropped. -/
theorem ServerInv.turns_drop (h : ServerInv w grips) (thread : Tid) (mfd : Client) :
    ∀ other phase, ((grips thread).drop mfd).turn = some (other, phase) →
      other ∈ ((grips thread).drop mfd).held ∧ (phase = .saved true → (w.conns other).bare = true) := by
  intro other phase hphase
  obtain ⟨hturn, hne⟩ := Option.filter_eq_some_iff.mp hphase
  obtain ⟨hmem, hbare⟩ := h.turns thread other phase hturn
  refine ⟨?_, hbare⟩
  show other ∈ (grips thread).held.erase mfd
  exact (mem_erase_of_ne (of_decide_eq_true hne)).mpr hmem

theorem hands_release (h : ServerInv w grips) (thread : Tid) (mfd : Client) :
    (w.release thread mfd).hands = Function.update w.hands thread ((grips thread).drop mfd).held := by
  show Function.update w.hands thread ((w.hands thread).erase mfd) = _
  rw [h.hands thread]
  rfl

theorem hands_receive (h : ServerInv w grips) (thread : Tid) (mfd : Client) :
    (w.receive thread mfd).hands = Function.update w.hands thread (mfd :: (grips thread).held) := by
  show Function.update w.hands thread (mfd :: w.hands thread) = _
  rw [h.hands thread]

theorem ServerInv.arm (h : ServerInv w grips) (hheld : mfd ∈ (grips thread).held) :
    ServerInv (w.arm thread mfd) (Function.update grips thread ((grips thread).drop mfd)) :=
  h.moved (h.owned.arm (by rw [h.hands]; exact hheld)) (hands_release h thread mfd)
    (h.turns_drop thread mfd) rfl rfl rfl rfl rfl

theorem ServerInv.deliver (h : ServerInv w grips) (harmed : w.armed mfd = true) :
    mfd ∉ (grips thread).held ∧ ServerInv (w.deliver thread mfd)
      (Function.update grips thread { grips thread with held := mfd :: (grips thread).held }) := by
  refine ⟨?_, h.moved (h.owned.deliver harmed) (hands_receive h thread mfd) ?_ rfl rfl rfl rfl rfl⟩
  · rw [← h.hands thread]
    exact h.owned.not_held .armed harmed nofun thread
  · intro other phase hphase
    obtain ⟨hmem, hbare⟩ := h.turns thread other phase hphase
    exact ⟨mem_cons_of_mem _ hmem, hbare⟩

/-- A thread writes the struct of a client in its hands. -/
theorem ServerInv.save (h : ServerInv w grips) (conn : Conn) (hheld : mfd ∈ (grips thread).held) :
    ServerInv ((w.setConn mfd conn).setStepping thread none) (Function.update grips thread
      { grips thread with turn := some (mfd, .saved conn.bare) }) := by
  have hset : ((w.setConn mfd conn).setStepping thread none).conns mfd = conn := Function.update_self ..
  refine h.step (h.owned.same rfl rfl (fun _ => rfl) rfl rfl) ?_ ?_ (fun other hne => ?_)
    (fun other hne => absurd rfl hne) (fun _ _ hlinked => Or.inl hlinked) (fun _ _ hlinked => Or.inl hlinked)
    (fun _ => Or.inl rfl) (h.listing thread)
  · show w.hands = Function.update w.hands thread (grips thread).held
    rw [← h.hands thread, Function.update_eq_self]
  · intro other phase hphase
    cases hphase
    refine ⟨hheld, fun hbare => ?_⟩
    rw [hset]
    exact TurnPhase.saved.inj hbare
  · by_cases hother : other = mfd
    · subst hother
      exact Or.inr hheld
    · exact absurd (Function.update_of_ne hother ..) hne

theorem ServerInv.subscribe (h : ServerInv w grips) (hheld : mfd ∈ (grips thread).held)
    (hbare : (w.conns mfd).bare = true) :
    ServerInv (w.subscribed thread mfd) (Function.update grips thread ((grips thread).drop mfd)) := by
  refine h.step (h.owned.subscribed (by rw [h.hands]; exact hheld)) (hands_release h thread mfd)
    (h.turns_drop thread mfd) (fun other hne => absurd rfl hne) (fun other hne => absurd rfl hne) ?_ ?_
    (fun _ => Or.inl rfl) ?_
  · intro svc other hlinked
    rcases (moves_subscribed h.owned thread mfd other (.subscribed svc)).mp hlinked with ⟨rfl, hsvc⟩ | ⟨-, hold⟩
    · exact Or.inr ⟨(Place.subscribed.inj hsvc).symm, hbare⟩
    · exact Or.inl hold
  · exact fun svc other hlinked => Or.inl
      ((moves_subscribed h.owned thread mfd other (.subscribed svc)).mpr (Or.inr ⟨nofun, hlinked⟩))
  · intro svc todo hlisted
    obtain ⟨hlocked, hnodup, hmem⟩ := h.listing thread svc todo hlisted
    exact ⟨hlocked, hnodup, fun other htodo =>
      (moves_subscribed h.owned thread mfd other (.subscribed svc)).mpr (Or.inr ⟨nofun, hmem other htodo⟩)⟩

theorem ServerInv.put (h : ServerInv w grips) (hheld : mfd ∈ (grips thread).held) :
    ServerInv (w.put thread mfd) (Function.update grips thread ((grips thread).drop mfd)) :=
  h.moved (h.owned.put (by rw [h.hands]; exact hheld)) (hands_release h thread mfd)
    (h.turns_drop thread mfd) rfl rfl rfl rfl rfl

theorem ServerInv.accept (h : ServerInv w grips) (hclosed : w.isOpen mfd = false) (svc : Svc) :
    ServerInv (w.accepted thread svc mfd) (Function.update grips thread
      { grips thread with held := mfd :: (grips thread).held, fresh := some mfd }) := by
  refine h.step (h.owned.accepted hclosed svc) (hands_receive h thread mfd) ?_
    (fun other hne => absurd rfl hne) (fun other hne => ?_) (fun _ _ hlinked => Or.inl hlinked)
    (fun _ _ hlinked => Or.inl hlinked) (fun _ => Or.inl rfl) (h.listing thread)
  · intro other phase hphase
    obtain ⟨hmem, hbare⟩ := h.turns thread other phase hphase
    exact ⟨mem_cons_of_mem _ hmem, hbare⟩
  · by_cases hother : other = mfd
    · subst hother
      exact mem_cons_self ..
    · exact absurd (Function.update_of_ne hother ..) hne

theorem ServerInv.lock (h : ServerInv w grips) (hfree : w.lock svc = none) :
    ServerInv (w.setLock svc (some thread)) (Function.update grips thread
      { grips thread with listing := some (svc, w.subscribers svc) }) := by
  refine h.step (h.owned.same rfl rfl (fun _ => rfl) rfl rfl) ?_ (h.turns thread)
    (fun other hne => absurd rfl hne) (fun other hne => absurd rfl hne) (fun _ _ hlinked => Or.inl hlinked)
    (fun _ _ hlinked => Or.inl hlinked) (fun svc' => ?_) ?_
  · show w.hands = Function.update w.hands thread (grips thread).held
    rw [← h.hands thread, Function.update_eq_self]
  · by_cases hsvc : svc' = svc
    · subst hsvc
      exact Or.inr (Or.inl hfree)
    · exact Or.inl (Function.update_of_ne hsvc ..)
  · intro svc' todo hlisted
    cases hlisted
    exact ⟨Function.update_self .., h.owned.subscribers svc, fun _ hmem => hmem⟩

theorem ServerInv.unlock (h : ServerInv w grips) {todo : List Client}
    (hlisted : (grips thread).listing = some (svc, todo)) :
    ServerInv (w.setLock svc none) (Function.update grips thread { grips thread with listing := none }) := by
  refine h.step (h.owned.same rfl rfl (fun _ => rfl) rfl rfl) ?_ (h.turns thread)
    (fun other hne => absurd rfl hne) (fun other hne => absurd rfl hne) (fun _ _ hlinked => Or.inl hlinked)
    (fun _ _ hlinked => Or.inl hlinked) (fun svc' => ?_) nofun
  · show w.hands = Function.update w.hands thread (grips thread).held
    rw [← h.hands thread, Function.update_eq_self]
  · by_cases hsvc : svc' = svc
    · subst hsvc
      exact Or.inr (Or.inr (h.listing thread svc' todo hlisted).1)
    · exact Or.inl (Function.update_of_ne hsvc ..)

omit [DecidableEq Tid] in
/-- The next subscriber of the list, and the rest of it. -/
theorem ServerInv.listed (h : ServerInv w grips)
    (hlisting : (grips thread).listing = some (svc, mfd :: rest)) :
    (grips thread).listed = some (svc, rest) ∧ w.lock svc = some thread ∧ mfd ∈ w.subscribers svc ∧
      mfd ∉ rest ∧ rest.Nodup ∧ ∀ other ∈ rest, other ∈ w.subscribers svc := by
  obtain ⟨hlocked, hnodup, hmem⟩ := h.listing thread svc _ hlisting
  obtain ⟨hnot, hrest⟩ := nodup_cons.mp hnodup
  refine ⟨by rw [Grip.listed, hlisting]; rfl, hlocked, hmem mfd (mem_cons_self ..), hnot, hrest,
    fun other hother => hmem other (mem_cons_of_mem _ hother)⟩

theorem ServerInv.write (h : ServerInv w grips)
    (hlisting : (grips thread).listing = some (svc, mfd :: rest)) :
    ServerInv w (Function.update grips thread { grips thread with listing := (grips thread).listed }) := by
  obtain ⟨hlisted, hlocked, -, -, hnodup, hmem⟩ := h.listed hlisting
  refine h.step h.owned ?_ (h.turns thread) (fun other hne => absurd rfl hne)
    (fun other hne => absurd rfl hne) (fun _ _ hlinked => Or.inl hlinked)
    (fun _ _ hlinked => Or.inl hlinked) (fun _ => Or.inl rfl) ?_
  · show w.hands = Function.update w.hands thread (grips thread).held
    rw [← h.hands thread, Function.update_eq_self]
  · intro svc' todo htodo
    have htodo : (grips thread).listed = some (svc', todo) := htodo
    rw [hlisted] at htodo
    cases htodo
    exact ⟨hlocked, hnodup, hmem⟩

theorem ServerInv.unsubscribe (h : ServerInv w grips)
    (hlisting : (grips thread).listing = some (svc, mfd :: rest)) (conn : Conn) :
    ServerInv ((w.unsubscribed thread svc mfd).setConn mfd conn) (Function.update grips thread
      { grips thread with
        listing := (grips thread).listed, held := mfd :: (grips thread).held, fresh := some mfd }) := by
  obtain ⟨hlisted, hlocked, hlinked, hnot, hnodup, hmem⟩ := h.listed hlisting
  have hmoves := moves_unsubscribed h.owned thread svc mfd
  have howned : Owned (w.unsubscribed thread svc mfd) := h.owned.unsubscribed hlinked
  have hconn : ∀ other, other ≠ mfd → ((w.unsubscribed thread svc mfd).setConn mfd conn).conns other
      = w.conns other := fun other hne => Function.update_of_ne hne ..
  refine h.step (howned.same rfl rfl (fun _ => rfl) rfl rfl) (hands_receive h thread mfd) ?_
    (fun other hne => ?_) (fun other hne => absurd rfl hne) ?_ ?_ (fun _ => Or.inl rfl) ?_
  · intro other phase hphase
    obtain ⟨hheld, hbare⟩ := h.turns thread other phase hphase
    refine ⟨mem_cons_of_mem _ hheld, fun hsaved => ?_⟩
    have hne : other ≠ mfd := by
      rintro rfl
      exact h.owned.not_held (.subscribed svc) hlinked nofun thread (by rw [h.hands]; exact hheld)
    rw [hconn other hne]
    exact hbare hsaved
  · by_cases hother : other = mfd
    · subst hother
      exact Or.inr (mem_cons_self ..)
    · exact absurd (hconn other hother) hne
  · intro svc' other hnew
    rcases (hmoves other (.subscribed svc')).mp hnew with ⟨-, hplace⟩ | ⟨-, hold⟩
    · cases hplace
    · exact Or.inl hold
  · intro svc' other hold
    by_cases hgone : other = mfd ∧ (Place.subscribed svc' : Place Tid) = .subscribed svc
    · obtain ⟨-, hsvc⟩ := hgone
      cases hsvc
      exact Or.inr hlocked
    · exact Or.inl ((hmoves other (.subscribed svc')).mpr (Or.inr ⟨hgone, hold⟩))
  · intro svc' todo htodo
    have htodo : (grips thread).listed = some (svc', todo) := htodo
    rw [hlisted] at htodo
    cases htodo
    refine ⟨hlocked, hnodup, fun other hother => ?_⟩
    refine (hmoves other (.subscribed svc)).mpr (Or.inr ⟨fun hgone => hnot ?_, hmem other hother⟩)
    rw [← hgone.1]
    exact hother

theorem ServerInv.enqueue (h : ServerInv w grips) (hheld : mfd ∈ (grips thread).held) (dev : Dev) :
    ServerInv (w.enqueue thread dev mfd) (Function.update grips thread ((grips thread).drop mfd)) :=
  h.moved (h.owned.enqueue (by rw [h.hands]; exact hheld) dev) (hands_release h thread mfd)
    (h.turns_drop thread mfd) rfl rfl rfl rfl rfl

omit [DecidableEq Tid] in
theorem giveSlot_queue (w : World Tid) (dev dev' : Dev) (mfd : Client) :
    ((w.giveSlot dev mfd).fsck dev').queue = (w.fsck dev').queue := by
  show (Function.update w.fsck dev _ dev').queue = _
  by_cases hdev : dev' = dev
  · subst hdev
    rw [Function.update_self, FsckQueue.decrement]
  · rw [Function.update_of_ne hdev]

omit [DecidableEq Tid] in
theorem takeSlot_queue (w : World Tid) (dev dev' : Dev) (mfd : Client) :
    ((w.takeSlot dev mfd).fsck dev').queue = (w.fsck dev').queue := by
  show (Function.update w.fsck dev _ dev').queue = _
  by_cases hdev : dev' = dev
  · subst hdev
    rw [Function.update_self, FsckQueue.increment]
  · rw [Function.update_of_ne hdev]

/-- What `mog_fsck_queue_next` can do. -/
theorem nextHandles_cases {answer : Option Client} (h : nextHandles w thread dev mfd answer w') :
    (answer = none ∧ w' = w.giveSlot dev mfd ∧
      ((w.fsck dev).queue = [] ∨ maxActive ≤ ((w.giveSlot dev mfd).fsck dev).active)) ∨
    ∃ first rest, (w.fsck dev).queue = first :: rest ∧ answer = some first ∧
      w' = (w.giveSlot dev mfd).dequeue thread dev first rest := by
  unfold nextHandles at h
  dsimp only at h
  split at h
  · split at h
    · rename_i hempty
      rw [giveSlot_queue] at hempty
      exact Or.inl ⟨h.1, h.2, Or.inl hempty⟩
    · rename_i first rest hqueue
      rw [giveSlot_queue] at hqueue
      exact Or.inr ⟨first, rest, hqueue, h.1, h.2⟩
  · rename_i hfull
    exact Or.inl ⟨h.1, h.2, Or.inr (Nat.le_of_not_lt hfull)⟩

/-- Behind `mog_fsck_queue_next` the popped client is in the hands of the thread as well. -/
theorem ServerInv.next (h : ServerInv w grips) {answer : Option Client}
    (hheld : mfd ∈ (grips thread).held) (hnext : nextHandles w thread dev mfd answer w') :
    (∀ first, answer = some first → first ∉ (grips thread).held) ∧
      ServerInv w' (Function.update grips thread
        { grips thread with turn := some (mfd, .idle), held := answer.toList ++ (grips thread).held }) := by
  have howned : Owned (w.giveSlot dev mfd) := h.owned.same rfl rfl (giveSlot_queue w dev · mfd) rfl rfl
  have hnone : ServerInv (w.giveSlot dev mfd) (Function.update grips thread
      { grips thread with turn := some (mfd, .idle), held := (grips thread).held }) :=
    h.quiet rfl rfl (giveSlot_queue w dev · mfd) rfl rfl (turn_of_step hheld rfl nofun) rfl rfl rfl rfl rfl
  rcases nextHandles_cases hnext with ⟨rfl, rfl, -⟩ | ⟨first, rest, hqueue, rfl, rfl⟩
  · exact ⟨nofun, hnone⟩
  · have hqueued : first ∈ (w.fsck dev).queue := by
      rw [hqueue]
      exact mem_cons_self ..
    have hgiven : ((w.giveSlot dev mfd).fsck dev).queue = first :: rest := by rw [giveSlot_queue, hqueue]
    refine ⟨fun _ heq => ?_, h.moved (howned.dequeue hgiven) (hands_receive h thread first)
      (turn_of_step (mem_cons_of_mem _ hheld) rfl nofun) rfl rfl rfl rfl rfl⟩
    rw [← Option.some.inj heq, ← h.hands thread]
    exact h.owned.not_held (.fsck dev) hqueued nofun thread

/-- **Every call keeps the invariant.** -/
theorem serverInv_keeps (fstat : Fstat) :
    Keeps (serverHandles fstat : Handler Tid _ _ _) gripContract ServerInv := by
  intro w grips thread request answer w' h hmust hhandles
  have hquiet : ∀ w' : World Tid, w' = w → ServerInv w' (Function.update grips thread (grips thread)) := by
    rintro _ rfl
    rwa [Function.update_eq_self]
  cases request with
  | idleqWait forever =>
    cases answer with
    | none => exact ⟨trivial, hquiet _ hhandles⟩
    | some mfd =>
      obtain ⟨harmed, rfl⟩ := hhandles
      exact h.deliver harmed
  | idleqAdd mfd ev =>
    obtain rfl : w' = w.arm thread mfd := hhandles
    exact ⟨trivial, h.arm hmust.1⟩
  | idleqPush mfd ev =>
    obtain rfl : w' = w.arm thread mfd := hhandles
    exact ⟨trivial, h.arm hmust.1⟩
  | activeqPush mfd =>
    obtain rfl : w' = w.arm thread mfd := hhandles
    exact ⟨trivial, h.arm hmust.1⟩
  | conn mfd =>
    obtain ⟨rfl, rfl⟩ := hhandles
    refine ⟨trivial, h.quiet rfl rfl (fun _ => rfl) rfl rfl (turn_of_step hmust.1 rfl ?_) rfl rfl rfl rfl rfl⟩
    split <;> exact nofun
  | peek mfd => exact ⟨trivial, hquiet _ hhandles.2⟩
  | save mfd conn =>
    obtain rfl : w' = (w.setConn mfd conn).setStepping thread none := hhandles
    exact ⟨trivial, h.save conn hmust.1⟩
  | http mfd request => exact ⟨trivial, hquiet _ hhandles⟩
  | mgmt mfd request =>
    refine ⟨trivial, ?_⟩
    have hhandles : if opensFile request then _ else _ := hhandles
    split at hhandles
    · obtain ⟨outcome, -, rfl⟩ := hhandles
      exact h.quiet rfl rfl (fun _ => rfl) rfl rfl (h.turns thread) rfl rfl rfl rfl rfl
    · exact hquiet _ hhandles
  | fsckQueueFor mfd fd stage =>
    refine ⟨trivial, ?_⟩
    cases stage with
    | ready =>
      cases answer with
      | none =>
        obtain ⟨-, rfl⟩ := hhandles
        exact h.quiet rfl rfl (fun _ => rfl) rfl rfl (turn_of_step hmust.1 rfl nofun) rfl rfl rfl rfl rfl
      | some dev =>
        obtain ⟨-, rfl⟩ := hhandles
        exact h.quiet rfl rfl (fun _ => rfl) rfl rfl (turn_of_step hmust.1 rfl nofun) rfl rfl rfl rfl rfl
    | next =>
      cases answer with
      | none =>
        obtain ⟨-, rfl⟩ := hhandles
        exact h.quiet rfl rfl (fun _ => rfl) rfl rfl (turn_of_step hmust.1 rfl nofun) rfl rfl rfl rfl rfl
      | some dev =>
        obtain ⟨-, rfl⟩ := hhandles
        exact h.quiet rfl rfl (fun _ => rfl) rfl rfl (turn_of_step hmust.1 rfl nofun) rfl rfl rfl rfl rfl
  | fsckReady dev mfd =>
    refine ⟨trivial, ?_⟩
    cases answer with
    | true =>
      obtain ⟨-, rfl⟩ := hhandles
      exact h.quiet rfl rfl (takeSlot_queue w dev · mfd) rfl rfl (turn_of_step hmust.1 rfl nofun)
        rfl rfl rfl rfl rfl
    | false =>
      obtain ⟨-, rfl⟩ := hhandles
      exact h.enqueue hmust.1 dev
  | fsckNext dev mfd =>
    obtain ⟨hnew, hinv⟩ := h.next hmust.1 hhandles
    refine ⟨?_, hinv⟩
    cases answer with
    | none => trivial
    | some first => exact hnew first rfl
  | subscribe mfd =>
    obtain ⟨-, rfl⟩ := hhandles
    exact ⟨trivial, h.subscribe hmust.1 (h.saved thread mfd hmust.2)⟩
  | fdPut mfd =>
    obtain rfl : w' = w.put thread mfd := hhandles
    exact ⟨trivial, h.put hmust.1⟩
  | accept svc =>
    refine ⟨trivial, ?_⟩
    cases answer with
    | none => exact hquiet _ hhandles
    | some mfd =>
      obtain ⟨hclosed, rfl⟩ := hhandles
      exact h.accept hclosed svc
  | notified => exact ⟨trivial, hquiet _ hhandles⟩
  | devstatsLock svc =>
    obtain ⟨hfree, rfl, rfl⟩ := hhandles
    exact ⟨trivial, h.lock hfree⟩
  | devstatsWrite svc mfd =>
    obtain ⟨rest, hlisting⟩ := hmust
    refine ⟨trivial, ?_⟩
    cases answer with
    | null =>
      obtain rfl : w' = w := hhandles
      exact h.write hlisting
    | error =>
      obtain rfl : w' = _ := hhandles
      exact h.unsubscribe hlisting _
    | pending buf off =>
      obtain rfl : w' = _ := hhandles
      exact h.unsubscribe hlisting _
  | devstatsUnlock svc =>
    obtain rfl : w' = w.setLock svc none := hhandles
    exact ⟨trivial, h.unlock hmust⟩

omit [DecidableEq Tid] in
theorem serverInv_start : ServerInv (.start : World Tid) fun _ => .start where
  owned := ⟨fun mfd => ⟨.closed, rfl, fun place hplace => by
      cases place with
      | closed => rfl
      | armed => cases hplace
      | _ => exact absurd hplace not_mem_nil⟩,
    fun _ => nodup_nil, fun _ => nodup_nil, fun _ => nodup_nil⟩
  hands _ := rfl
  turn := nofun
  svc _ _ hlinked := absurd hlinked not_mem_nil
  bare _ _ hlinked := absurd hlinked not_mem_nil
  saved := nofun
  listing := nofun

end Inv

end Cmogstored
