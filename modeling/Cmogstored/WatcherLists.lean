import Cmogstored.ExitStep
import Cmogstored.Script
import Cmogstored.ServerOwners

/-! Who is linked in the lists of the watchers, from the start of the process to the end of the quit loop.
While there are threads the lists hold watchers that are open, and the main thread is not alone before all lists
are empty. In the quit loop a client that becomes a watcher is linked and then closed. -/

namespace Cmogstored

open Prog

variable {Tid : Type}

/-! ### The threads -/

/-- What the threads keep of the lists. -/
structure WatchInv (svcs : List Svc) (main : Tid) (w : ExitWorld Tid) (grips : Tid → Grip) (watches : Tid → Watch) :
    Prop where
  linked : ∀ svc mfd, mfd ∈ w.base.subscribers svc → (w.base.conns mfd).watches = true
  saved : ∀ thread mfd, (watches thread).saved = some mfd →
    mfd ∈ w.base.hands thread ∧ (w.base.conns mfd).watches = true
  ofSvcs : ∀ mfd, w.base.isOpen mfd = true → w.base.svcOf mfd ∈ svcs
  isMain : ∀ thread, (watches thread).main = true ↔ thread = main
  stopped : (watches main).stopped = w.stopped
  unstopped : w.stopped = false → (watches main).cleared = []
  cleared : ∀ svc ∈ (watches main).cleared, w.base.subscribers svc = []
  /-- nobody gets in front of the last sweep -/
  sweeping : w.stopped = true → ∀ svc todo, (grips main).listing = some (svc, todo) →
    ∀ mfd ∈ w.base.subscribers svc, mfd ∈ todo

section Threads

variable [DecidableEq Tid] {svcs : List Svc} {main thread : Tid} {w w' : ExitWorld Tid} {base : World Tid}
  {grips : Tid → Grip} {watches : Tid → Watch} {grip : Grip} {watch : Watch} {mfd : Client}

/-- A call of one thread, which adds to the lists only while there are workers. -/
theorem WatchInv.step (h : WatchInv svcs main w grips watches) (howned : Owned w.base)
    (hhands : ∀ other, other ≠ thread → base.hands other = w.base.hands other)
    (hconns : ∀ mfd, mfd ∉ w.base.hands thread → (base.conns mfd).watches = (w.base.conns mfd).watches)
    (hadded : ∀ svc mfd, mfd ∈ base.subscribers svc → mfd ∈ w.base.subscribers svc ∨
      ((base.conns mfd).watches = true ∧ w.stopped = false))
    (hsaved : ∀ mfd, watch.saved = some mfd → mfd ∈ base.hands thread ∧ (base.conns mfd).watches = true)
    (hsvcs : ∀ mfd, base.isOpen mfd = true →
      (w.base.isOpen mfd = true ∧ base.svcOf mfd = w.base.svcOf mfd) ∨ base.svcOf mfd ∈ svcs)
    (hmain : watch.main = (watches thread).main) (hstopped : watch.stopped = (watches thread).stopped)
    (hcleared : thread = main → ∀ svc ∈ watch.cleared, svc ∈ (watches thread).cleared ∨
      (watch.stopped = true ∧ base.subscribers svc = []))
    (hsweeping : w.stopped = true → ∀ svc todo, (Function.update grips thread grip main).listing = some (svc, todo) →
      ∀ mfd ∈ base.subscribers svc, mfd ∈ todo) :
    WatchInv svcs main { w with base := base } (Function.update grips thread grip)
      (Function.update watches thread watch) := by
  have hlinked : ∀ svc mfd, mfd ∈ base.subscribers svc → (base.conns mfd).watches = true := by
    intro svc mfd hmem
    rcases hadded svc mfd hmem with hold | ⟨hwatches, -⟩
    · rw [hconns mfd (howned.not_held (.subscribed svc) hold nofun thread)]
      exact h.linked svc mfd hold
    · exact hwatches
  -- a list that was empty when there were no workers any more is empty still
  have hkept : ∀ svc ∈ (watches main).cleared, base.subscribers svc = [] := by
    intro svc hsvc
    rw [List.eq_nil_iff_forall_not_mem]
    intro mfd hmem
    rcases hadded svc mfd hmem with hold | ⟨-, hunstopped⟩
    · rw [h.cleared svc hsvc] at hold
      exact absurd hold List.not_mem_nil
    · rw [h.unstopped hunstopped] at hsvc
      exact absurd hsvc List.not_mem_nil
  have hclearedMain : ∀ svc ∈ (Function.update watches thread watch main).cleared,
      (svc ∈ (watches main).cleared ∨ w.stopped = true) ∧ base.subscribers svc = [] := by
    intro svc hsvc
    by_cases heq : main = thread
    · subst heq
      rw [Function.update_self] at hsvc
      rcases hcleared rfl svc hsvc with hold | ⟨hnow, hempty⟩
      · exact ⟨Or.inl hold, hkept svc hold⟩
      · exact ⟨Or.inr (h.stopped.symm.trans (hstopped.symm.trans hnow)), hempty⟩
    · rw [Function.update_of_ne heq] at hsvc
      exact ⟨Or.inl hsvc, hkept svc hsvc⟩
  refine ⟨hlinked, ?_, ?_, ?_, ?_, ?_, fun svc hsvc => (hclearedMain svc hsvc).2, hsweeping⟩
  · refine update_cases (P := fun holder (watch : Watch) => ∀ mfd, watch.saved = some mfd →
      mfd ∈ base.hands holder ∧ (base.conns mfd).watches = true) hsaved ?_
    intro other hother mfd hmfd
    obtain ⟨hheld, hwatches⟩ := h.saved other mfd hmfd
    refine ⟨by rw [hhands other hother]; exact hheld, ?_⟩
    have hnot : mfd ∉ w.base.hands thread := by
      intro hmine
      have hat : w.base.At mfd (.held other) := hheld
      have hat' : w.base.At mfd (.held thread) := hmine
      exact hother (Place.held.inj (howned.eq hat hat'))
    rw [hconns mfd hnot]
    exact hwatches
  · intro mfd hopen
    rcases hsvcs mfd hopen with ⟨hbefore, hsvc⟩ | hsvc
    · show base.svcOf mfd ∈ svcs
      rw [hsvc]
      exact h.ofSvcs mfd hbefore
    · exact hsvc
  · refine update_cases (P := fun holder (watch : Watch) => watch.main = true ↔ holder = main) ?_ fun other _ =>
      h.isMain other
    rw [hmain]
    exact h.isMain thread
  · show (Function.update watches thread watch main).stopped = w.stopped
    by_cases heq : main = thread
    · subst heq
      rw [Function.update_self, hstopped]
      exact h.stopped
    · rw [Function.update_of_ne heq]
      exact h.stopped
  · intro hunstopped
    rw [List.eq_nil_iff_forall_not_mem]
    intro svc hsvc
    rcases (hclearedMain svc hsvc).1 with hold | hnow
    · rw [h.unstopped hunstopped] at hold
      exact absurd hold List.not_mem_nil
    · exact absurd hnow (Bool.eq_false_iff.mp hunstopped)

theorem WatchInv.sweeping_same (h : WatchInv svcs main w grips watches)
    (hlisting : grip.listing = (grips thread).listing) (hstopped : w.stopped = true) (svc : Svc) (todo : List Client)
    (htodo : (Function.update grips thread grip main).listing = some (svc, todo)) :
    ∀ mfd ∈ w.base.subscribers svc, mfd ∈ todo := by
  apply h.sweeping hstopped svc todo
  by_cases heq : main = thread
  · subst heq
    rwa [Function.update_self, hlisting] at htodo
  · rwa [Function.update_of_ne heq] at htodo

/-- A call that leaves the clients and the lists as they are. -/
theorem WatchInv.quiet (h : WatchInv svcs main w grips watches) (howned : Owned w.base)
    (hsubscribers : base.subscribers = w.base.subscribers) (hconns : base.conns = w.base.conns)
    (hopen : base.isOpen = w.base.isOpen) (hsvcOf : base.svcOf = w.base.svcOf)
    (hhands : ∀ other, other ≠ thread → base.hands other = w.base.hands other)
    (hlisting : grip.listing = (grips thread).listing) :
    WatchInv svcs main { w with base := base } (Function.update grips thread grip)
      (Function.update watches thread { watches thread with saved := none }) := by
  refine h.step howned hhands (fun mfd _ => by rw [hconns]) ?_ nofun ?_ rfl rfl (fun _ svc hsvc => Or.inl hsvc) ?_
  · intro svc mfd hmem
    rw [hsubscribers] at hmem
    exact Or.inl hmem
  · intro mfd hmfd
    rw [hopen] at hmfd
    exact Or.inl ⟨hmfd, by rw [hsvcOf]⟩
  · rw [hsubscribers]
    exact h.sweeping_same hlisting

omit [DecidableEq Tid] in
/-- No thread but the main thread is left when the workers are stopped. -/
theorem WatchInv.running (h : WatchInv svcs main w grips watches) (halone : w.stopped = true → thread = main)
    (hworker : (watches thread).main = false) : w.stopped = false := by
  rw [Bool.eq_false_iff]
  intro hstopped
  rw [(h.isMain thread).mpr (halone hstopped)] at hworker
  cases hworker

theorem WatchInv.save (h : WatchInv svcs main w grips watches) (howned : Owned w.base) (conn : Conn)
    (hheld : mfd ∈ w.base.hands thread) (hlisting : grip.listing = (grips thread).listing) :
    WatchInv svcs main { w with base := (w.base.setConn mfd conn).setStepping thread none }
      (Function.update grips thread grip)
      (Function.update watches thread { watches thread with saved := if conn.watches then some mfd else none }) := by
  refine h.step howned (fun _ _ => rfl) ?_ (fun svc mfd hmem => Or.inl hmem) ?_ (fun mfd hopen => Or.inl ⟨hopen, rfl⟩)
    rfl rfl (fun _ svc hsvc => Or.inl hsvc) ?_
  · intro other hother
    have hne : other ≠ mfd := fun heq => hother (heq ▸ hheld)
    show (Function.update w.base.conns mfd conn other).watches = _
    rw [Function.update_of_ne hne]
  · intro other hother
    have hwatches : conn.watches = true ∧ mfd = other := by
      have hother : (if conn.watches then some mfd else none) = some other := hother
      split at hother
      · exact ⟨‹_›, Option.some.inj hother⟩
      · cases hother
    obtain ⟨hwatches, rfl⟩ := hwatches
    refine ⟨hheld, ?_⟩
    show (Function.update w.base.conns mfd conn mfd).watches = true
    rw [Function.update_self]
    exact hwatches
  · exact h.sweeping_same hlisting

theorem WatchInv.subscribe (h : WatchInv svcs main w grips watches) (howned : Owned w.base)
    (hrunning : w.stopped = false) (hwatches : (w.base.conns mfd).watches = true) :
    WatchInv svcs main { w with base := w.base.subscribed thread mfd } (Function.update grips thread grip)
      (Function.update watches thread { watches thread with saved := none }) := by
  refine h.step howned (fun other hother => Function.update_of_ne hother ..) (fun _ _ => rfl) ?_ nofun
    (fun mfd hopen => Or.inl ⟨hopen, rfl⟩) rfl rfl (fun _ svc hsvc => Or.inl hsvc) ?_
  · intro svc other hmem
    have hmem : other ∈ Function.update w.base.subscribers (w.base.svcOf mfd) _ svc := hmem
    by_cases hsvc : svc = w.base.svcOf mfd
    · subst hsvc
      rw [Function.update_self] at hmem
      rcases List.mem_cons.mp hmem with rfl | hmem
      · exact Or.inr ⟨hwatches, hrunning⟩
      · exact Or.inl hmem
    · rw [Function.update_of_ne hsvc] at hmem
      exact Or.inl hmem
  · intro hstopped
    exact absurd hstopped (Bool.eq_false_iff.mp hrunning)

theorem WatchInv.put (h : WatchInv svcs main w grips watches) (howned : Owned w.base)
    (hlisting : grip.listing = (grips thread).listing) :
    WatchInv svcs main { w with base := w.base.put thread mfd } (Function.update grips thread grip)
      (Function.update watches thread { watches thread with saved := none }) := by
  refine h.step howned (fun other hother => Function.update_of_ne hother ..) (fun _ _ => rfl)
    (fun svc mfd hmem => Or.inl hmem) nofun ?_ rfl rfl (fun _ svc hsvc => Or.inl hsvc) ?_
  · intro other hopen
    have hopen : Function.update w.base.isOpen mfd false other = true := hopen
    by_cases hother : other = mfd
    · subst hother
      rw [Function.update_self] at hopen
      cases hopen
    · rw [Function.update_of_ne hother] at hopen
      exact Or.inl ⟨hopen, rfl⟩
  · exact h.sweeping_same hlisting

theorem WatchInv.accept (h : WatchInv svcs main w grips watches) (howned : Owned w.base) {svc : Svc}
    (hsvc : svc ∈ svcs) (hlisting : grip.listing = (grips thread).listing) :
    WatchInv svcs main { w with base := w.base.accepted thread svc mfd } (Function.update grips thread grip)
      (Function.update watches thread { watches thread with saved := none }) := by
  refine h.step howned (fun other hother => Function.update_of_ne hother ..) (fun _ _ => rfl)
    (fun svc mfd hmem => Or.inl hmem) nofun ?_ rfl rfl (fun _ svc hsvc => Or.inl hsvc) ?_
  · intro other hopen
    have hopen : Function.update w.base.isOpen mfd true other = true := hopen
    show _ ∨ Function.update w.base.svcOf mfd svc other ∈ svcs
    by_cases hother : other = mfd
    · subst hother
      rw [Function.update_self]
      exact Or.inr hsvc
    · rw [Function.update_of_ne hother] at hopen
      exact Or.inl ⟨hopen, Function.update_of_ne hother ..⟩
  · exact h.sweeping_same hlisting

/-- The first client of the list that a thread goes through is taken off. -/
theorem WatchInv.unsubscribe (h : WatchInv svcs main w grips watches) (howned : Owned w.base) {svc : Svc}
    {rest : List Client} {conn : Conn} (hconn : conn.watches = (w.base.conns mfd).watches)
    (hbefore : (grips thread).listing = some (svc, mfd :: rest)) (hafter : grip.listing = some (svc, rest)) :
    WatchInv svcs main { w with base := (w.base.unsubscribed thread svc mfd).setConn mfd conn }
      (Function.update grips thread grip) (Function.update watches thread { watches thread with saved := none }) := by
  have hmem : ∀ {other svc'}, other ∈ Function.update w.base.subscribers svc ((w.base.subscribers svc).erase mfd) svc' →
      other ∈ w.base.subscribers svc' ∧ (svc' = svc → other ≠ mfd) := by
    intro other svc' hother
    by_cases hsvc : svc' = svc
    · subst hsvc
      rw [Function.update_self, (howned.subscribers svc').mem_erase_iff] at hother
      exact ⟨hother.2, fun _ => hother.1⟩
    · rw [Function.update_of_ne hsvc] at hother
      exact ⟨hother, fun heq => absurd heq hsvc⟩
  refine h.step howned (fun other hother => Function.update_of_ne hother ..) ?_
    (fun svc' other hother => Or.inl (hmem hother).1) nofun (fun mfd hopen => Or.inl ⟨hopen, rfl⟩) rfl rfl
    (fun _ svc hsvc => Or.inl hsvc) ?_
  · intro other _
    show (Function.update w.base.conns mfd conn other).watches = _
    by_cases hother : other = mfd
    · subst hother
      rw [Function.update_self]
      exact hconn
    · rw [Function.update_of_ne hother]
  · intro hstopped svc' todo htodo other hother
    obtain ⟨hlinked, hne⟩ := hmem hother
    by_cases heq : main = thread
    · subst heq
      rw [Function.update_self, hafter] at htodo
      cases htodo
      have hlisted := h.sweeping hstopped svc (mfd :: rest) hbefore other hlinked
      exact (List.mem_cons.mp hlisted).resolve_left (hne rfl)
    · rw [Function.update_of_ne heq] at htodo
      exact h.sweeping hstopped svc' todo htodo other hlinked

/-- The first client of the list has been written to and stays linked. -/
theorem WatchInv.written (h : WatchInv svcs main w grips watches) (howned : Owned w.base)
    (hrunning : w.stopped = false) :
    WatchInv svcs main w (Function.update grips thread grip)
      (Function.update watches thread { watches thread with saved := none }) := by
  refine h.step howned (fun _ _ => rfl) (fun _ _ => rfl) (fun svc mfd hmem => Or.inl hmem) nofun
    (fun mfd hopen => Or.inl ⟨hopen, rfl⟩) rfl rfl (fun _ svc hsvc => Or.inl hsvc) ?_
  intro hstopped
  exact absurd hstopped (Bool.eq_false_iff.mp hrunning)

theorem WatchInv.lock (h : WatchInv svcs main w grips watches) (howned : Owned w.base) {svc : Svc}
    (hlisting : grip.listing = some (svc, w.base.subscribers svc)) :
    WatchInv svcs main { w with base := w.base.setLock svc (some thread) } (Function.update grips thread grip)
      (Function.update watches thread { watches thread with saved := none }) := by
  refine h.step howned (fun _ _ => rfl) (fun _ _ => rfl) (fun svc mfd hmem => Or.inl hmem) nofun
    (fun mfd hopen => Or.inl ⟨hopen, rfl⟩) rfl rfl (fun _ svc hsvc => Or.inl hsvc) ?_
  intro hstopped svc' todo htodo other hother
  by_cases heq : main = thread
  · subst heq
    rw [Function.update_self, hlisting] at htodo
    cases htodo
    exact hother
  · rw [Function.update_of_ne heq] at htodo
    exact h.sweeping hstopped svc' todo htodo other hother

/-- A list that the main thread has gone through, when there are no workers any more, is empty. -/
theorem WatchInv.unlock (h : WatchInv svcs main w grips watches) (howned : Owned w.base) {svc : Svc}
    (hbefore : (grips thread).listing = some (svc, [])) (hafter : grip.listing = none) :
    WatchInv svcs main { w with base := w.base.setLock svc none } (Function.update grips thread grip)
      (Function.update watches thread ((watches thread).next (.server (.devstatsUnlock svc)))) := by
  refine h.step howned (fun _ _ => rfl) (fun _ _ => rfl) (fun svc mfd hmem => Or.inl hmem) nofun
    (fun mfd hopen => Or.inl ⟨hopen, rfl⟩) rfl rfl ?_ ?_
  · intro hthread svc' hsvc'
    subst hthread
    have hsvc' :
        svc' ∈ if (watches thread).stopped then svc :: (watches thread).cleared else (watches thread).cleared :=
      hsvc'
    split at hsvc'
    · rename_i hstopped
      rcases List.mem_cons.mp hsvc' with rfl | hsvc'
      · refine Or.inr ⟨hstopped, List.eq_nil_iff_forall_not_mem.mpr fun mfd hmfd => ?_⟩
        exact List.not_mem_nil (h.sweeping (h.stopped.symm.trans hstopped) svc' [] hbefore mfd hmfd)
      · exact Or.inl hsvc'
    · exact Or.inl hsvc'
  · intro hstopped svc' todo htodo
    by_cases heq : main = thread
    · subst heq
      rw [Function.update_self, hafter] at htodo
      cases htodo
    · rw [Function.update_of_ne heq] at htodo
      exact h.sweeping hstopped svc' todo htodo

theorem WatchInv.stop (h : WatchInv svcs main w grips watches) (hmain : (watches thread).main = true)
    (hlisting : (grips thread).listing = none) :
    WatchInv svcs main { w with stopped := true } (Function.update grips thread (grips thread))
      (Function.update watches thread ((watches thread).next .queueStop)) := by
  have hthread : thread = main := (h.isMain thread).mp hmain
  subst hthread
  rw [Function.update_eq_self]
  refine ⟨h.linked, ?_, h.ofSvcs, ?_, ?_, nofun, ?_, ?_⟩
  · refine update_cases (P := fun holder (watch : Watch) => ∀ mfd, watch.saved = some mfd →
      mfd ∈ w.base.hands holder ∧ (w.base.conns mfd).watches = true) nofun fun other _ => h.saved other
  · exact update_cases (P := fun holder (watch : Watch) => watch.main = true ↔ holder = thread)
      (h.isMain thread) fun other _ => h.isMain other
  · rw [Function.update_self]
    rfl
  · rw [Function.update_self]
    intro svc hsvc
    exact absurd hsvc List.not_mem_nil
  · intro _ svc todo htodo
    rw [hlisting] at htodo
    cases htodo

theorem Conn.setWbuf_watches (conn : Conn) (wbuf : Wbuf) : (conn.setWbuf wbuf).watches = conn.watches := by
  cases conn <;> rfl

/-- A call that any thread may make. -/
theorem watchInv_server {fstat : Fstat} {request : ServerCall} {answer : ServerRes request}
    (hinv : ServerInv w.base grips) (h : WatchInv svcs main w grips watches) (hmust : (grips thread).must request)
    (hwatch : (watches thread).must svcs (.server request)) (halone : w.stopped = true → thread = main)
    (hhandles : serverHandles fstat w.base thread request answer base) :
    WatchInv svcs main { w with base := base } (Function.update grips thread ((grips thread).next request answer))
      (Function.update watches thread ((watches thread).next (.server request))) := by
  have howned := hinv.owned
  have hheld : ∀ {mfd}, mfd ∈ (grips thread).held → mfd ∈ w.base.hands thread := fun hmem => by
    rw [hinv.hands]
    exact hmem
  have hsame : ∀ {base : World Tid} {grip : Grip}, base = w.base → grip.listing = (grips thread).listing →
      WatchInv svcs main { w with base := base } (Function.update grips thread grip)
        (Function.update watches thread { watches thread with saved := none }) := by
    intro base grip heq hlisting
    subst heq
    exact h.quiet howned rfl rfl rfl rfl (fun _ _ => rfl) hlisting
  cases request with
  | idleqWait forever =>
    cases answer with
    | none => exact hsame hhandles rfl
    | some mfd =>
      obtain ⟨-, rfl⟩ := hhandles
      exact h.quiet howned rfl rfl rfl rfl (fun other hother => Function.update_of_ne hother ..) rfl
  | idleqAdd mfd ev =>
    obtain rfl : base = w.base.arm thread mfd := hhandles
    exact h.quiet howned rfl rfl rfl rfl (fun other hother => Function.update_of_ne hother ..) rfl
  | idleqPush mfd ev =>
    obtain rfl : base = w.base.arm thread mfd := hhandles
    exact h.quiet howned rfl rfl rfl rfl (fun other hother => Function.update_of_ne hother ..) rfl
  | activeqPush mfd =>
    obtain rfl : base = w.base.arm thread mfd := hhandles
    exact h.quiet howned rfl rfl rfl rfl (fun other hother => Function.update_of_ne hother ..) rfl
  | conn mfd =>
    obtain ⟨-, rfl⟩ := hhandles
    exact h.quiet howned rfl rfl rfl rfl (fun _ _ => rfl) rfl
  | peek mfd => exact hsame hhandles.2 rfl
  | save mfd conn =>
    obtain rfl : base = (w.base.setConn mfd conn).setStepping thread none := hhandles
    exact h.save howned conn (hheld hmust.1) rfl
  | http mfd request => exact hsame hhandles rfl
  | mgmt mfd request =>
    have hhandles : if opensFile request then _ else _ := hhandles
    split at hhandles
    · obtain ⟨outcome, -, rfl⟩ := hhandles
      exact h.quiet howned rfl rfl rfl rfl (fun _ _ => rfl) rfl
    · exact hsame hhandles rfl
  | fsckQueueFor mfd fd stage =>
    cases stage <;> cases answer <;> obtain ⟨-, rfl⟩ := hhandles <;>
      exact h.quiet howned rfl rfl rfl rfl (fun _ _ => rfl) rfl
  | fsckReady dev mfd =>
    cases answer with
    | true =>
      obtain ⟨-, rfl⟩ := hhandles
      exact h.quiet howned rfl rfl rfl rfl (fun _ _ => rfl) rfl
    | false =>
      obtain ⟨-, rfl⟩ := hhandles
      exact h.quiet howned rfl rfl rfl rfl (fun other hother => Function.update_of_ne hother ..) rfl
  | fsckNext dev mfd =>
    rcases nextHandles_cases hhandles with ⟨-, rfl, -⟩ | ⟨first, rest, -, -, rfl⟩
    · exact h.quiet howned rfl rfl rfl rfl (fun _ _ => rfl) rfl
    · exact h.quiet howned rfl rfl rfl rfl (fun other hother => Function.update_of_ne hother ..) rfl
  | subscribe mfd =>
    obtain ⟨-, rfl⟩ := hhandles
    exact h.subscribe howned (h.running halone hwatch.1) (h.saved thread mfd hwatch.2).2
  | fdPut mfd =>
    obtain rfl : base = w.base.put thread mfd := hhandles
    exact h.put howned rfl
  | accept svc =>
    cases answer with
    | none => exact hsame hhandles rfl
    | some mfd =>
      obtain ⟨-, rfl⟩ := hhandles
      exact h.accept howned hwatch.2 rfl
  | notified => exact hsame hhandles rfl
  | devstatsLock svc =>
    obtain ⟨-, rfl, rfl⟩ := hhandles
    exact h.lock howned rfl
  | devstatsWrite svc mfd =>
    obtain ⟨rest, hlisting⟩ := hmust
    have hlisted : (grips thread).listed = some (svc, rest) := by rw [Grip.listed, hlisting]; rfl
    cases answer with
    | null =>
      obtain rfl : base = w.base := hhandles
      have hrunning : w.stopped = false := by
        rw [Bool.eq_false_iff]
        intro hstopped
        have hwatch : (watches thread).stopped = false := hwatch
        rw [halone hstopped, h.stopped, hstopped] at hwatch
        cases hwatch
      exact h.written howned hrunning
    | error =>
      obtain rfl : base = _ := hhandles
      exact h.unsubscribe howned (Conn.setWbuf_watches _ _) hlisting hlisted
    | pending buf off =>
      obtain rfl : base = _ := hhandles
      exact h.unsubscribe howned (Conn.setWbuf_watches _ _) hlisting hlisted
  | devstatsUnlock svc =>
    obtain rfl : base = w.base.setLock svc none := hhandles
    exact h.unlock howned hmust rfl

/-- **Every call of a thread of the process keeps the lists in order.** -/
theorem exit_keeps (fstat : Fstat) (svcs : List Svc) (main : Tid) :
    Keeps (exitHandles fstat main) (exitGrip.prod (watchContract svcs)) fun w ghosts =>
      ServerInv w.base (Prod.fst ∘ ghosts) ∧ WatchInv svcs main w (Prod.fst ∘ ghosts) (Prod.snd ∘ ghosts) := by
  intro w ghosts thread request answer w' hboth hmust hhandles
  obtain ⟨hinv, h⟩ := hboth
  obtain ⟨hgrip, hwatch⟩ := hmust
  beta_reduce
  rw [Function.comp_update, Function.comp_update]
  have hquiet : ∀ {w' : ExitWorld Tid}, w'.base = w.base → w'.stopped = w.stopped →
      ServerInv w'.base (Function.update (Prod.fst ∘ ghosts) thread (ghosts thread).1) ∧
        WatchInv svcs main w' (Function.update (Prod.fst ∘ ghosts) thread (ghosts thread).1)
          (Function.update (Prod.snd ∘ ghosts) thread { (ghosts thread).2 with saved := none }) := by
    intro w' hbase hstopped
    have hsame : Function.update (Prod.fst ∘ ghosts) thread (ghosts thread).1 = Prod.fst ∘ ghosts :=
      Function.update_eq_self ..
    rw [hsame, hbase]
    refine ⟨hinv, ?_⟩
    have hkept : WatchInv svcs main w (Function.update (Prod.fst ∘ ghosts) thread (ghosts thread).1) _ :=
      h.quiet hinv.owned rfl rfl rfl rfl (fun _ _ => rfl) rfl
    rw [hsame] at hkept
    obtain ⟨base', accepting', stopped'⟩ := w'
    cases hbase
    cases hstopped
    exact ⟨hkept.linked, hkept.saved, hkept.ofSvcs, hkept.isMain, hkept.stopped, hkept.unstopped, hkept.cleared,
      hkept.sweeping⟩
  cases request with
  | server request =>
    obtain ⟨-, halone, base, hbase, rfl⟩ := hhandles
    obtain ⟨hmay, hinv'⟩ := serverInv_keeps fstat w.base _ thread request answer base hinv hgrip hbase
    exact ⟨⟨hmay, trivial⟩, hinv', watchInv_server hinv h hgrip hwatch halone hbase⟩
  | exits =>
    obtain rfl : w' = w := hhandles
    exact ⟨⟨trivial, trivial⟩, hquiet rfl rfl⟩
  | quitAccept =>
    obtain rfl : w' = { w with accepting := false } := hhandles
    exact ⟨⟨trivial, trivial⟩, hquiet rfl rfl⟩
  | devstatsRemove svc mfd =>
    obtain rfl : w' = { w with base := w.base.unsubscribed thread svc mfd } := hhandles
    obtain ⟨rest, hlisting⟩ := hgrip
    have hlisted : (ghosts thread).1.listed = some (svc, rest) := by rw [Grip.listed, hlisting]; rfl
    -- the struct is left as it is
    have hconn : (w.base.unsubscribed thread svc mfd).setConn mfd (w.base.conns mfd)
        = w.base.unsubscribed thread svc mfd :=
      congrArg (fun conns => { w.base.unsubscribed thread svc mfd with conns := conns }) (Function.update_eq_self ..)
    have hinv' : ServerInv ((w.base.unsubscribed thread svc mfd).setConn mfd (w.base.conns mfd)) _ :=
      hinv.unsubscribe hlisting (w.base.conns mfd)
    have h' : WatchInv svcs main
        { w with base := (w.base.unsubscribed thread svc mfd).setConn mfd (w.base.conns mfd) }
        (Function.update (Prod.fst ∘ ghosts) thread (exitGrip.next (ghosts thread).1 (.devstatsRemove svc mfd) ()))
        _ :=
      h.unsubscribe hinv.owned rfl hlisting hlisted
    rw [hconn] at hinv' h'
    exact ⟨⟨trivial, trivial⟩, hinv', h'⟩
  | queueStop =>
    obtain ⟨-, rfl⟩ := hhandles
    have hsame : Function.update (Prod.fst ∘ ghosts) thread (ghosts thread).1 = Prod.fst ∘ ghosts :=
      Function.update_eq_self ..
    refine ⟨⟨trivial, trivial⟩, ?_, h.stop hwatch hgrip.2.2⟩
    show ServerInv w.base (Function.update (Prod.fst ∘ ghosts) thread (ghosts thread).1)
    rw [hsame]
    exact hinv

end Threads

end Cmogstored
