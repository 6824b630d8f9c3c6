import Cmogstored.WatcherLists

/-! The lists of the watchers in the quit loop, where nobody takes anybody off them: whoever is linked there has
been closed. -/

namespace Cmogstored

open Prog

/-- A list is modified in the quit loop when all that are linked in it are closed. -/
def quitListContract : Contract QuitCall QuitRes QuitWatch where
  must w request := ∀ mfd, request = .mgmt mfd .devstatsSubscribe →
    ∀ other ∈ w.subscribers (w.svcOf mfd), w.quit.clients other = none
  may w := w.quit.may
  next := QuitWatch.next
  excused _ := True

/-- Between two steps only closed clients are linked. -/
def QuitWatch.AllClosed (w : QuitWatch) : Prop := ∀ svc mfd, mfd ∈ w.subscribers svc → w.quit.clients mfd = none

section Quit

variable {w w' : QuitWatch} {mfd : Client} {fuel nr : Nat} {conn : Conn}

/-- A client that is open is linked nowhere, and may change. -/
theorem QuitWatch.AllClosed.changed (h : w.AllClosed) (hopen : w.quit.clients mfd ≠ none)
    (hsubscribers : w'.subscribers = w.subscribers)
    (hclients : ∀ other, other ≠ mfd → w'.quit.clients other = w.quit.clients other) : w'.AllClosed := by
  intro svc other hother
  rw [hsubscribers] at hother
  have hclosed := h svc other hother
  rw [hclients other fun heq => hopen (heq ▸ hclosed)]
  exact hclosed

/-- A client is closed, linked or not. -/
theorem QuitWatch.AllClosed.put (h : w.AllClosed)
    (hlinked : ∀ svc other, other ∈ w'.subscribers svc → other ≠ mfd → other ∈ w.subscribers svc)
    (hclients : w'.quit.clients = Function.update w.quit.clients mfd none) : w'.AllClosed := by
  intro svc other hother
  rw [hclients]
  by_cases heq : other = mfd
  · subst heq
    rw [Function.update_self]
  · rw [Function.update_of_ne heq]
    exact h svc other (hlinked svc other hother heq)

/-- How far the lists have come with the step of a client, which began at `w`. -/
structure Linking (w : QuitWatch) (mfd : Client) (own : Own) (w' : QuitWatch) : Prop where
  quit : w'.quit = w.quit
  still : own ≠ .gone → w'.subscribers = w.subscribers
  linked : ∀ svc other, other ∈ w'.subscribers svc → other ≠ mfd → other ∈ w.subscribers svc

theorem Linking.goes_on {own own' : Own} (h : Linking w mfd own w') (hown : own' ≠ .gone → own ≠ .gone) :
    Linking w mfd own' w' :=
  ⟨h.quit, fun hne => h.still (hown hne), h.linked⟩

theorem QuitWatch.mem_subscribed {svc : Svc} {other : Client} (hother : other ∈ (w.subscribed mfd).subscribers svc)
    (hne : other ≠ mfd) : other ∈ w.subscribers svc := by
  have hother : other ∈ Function.update w.subscribers (w.svcOf mfd) _ svc := hother
  by_cases hsvc : svc = w.svcOf mfd
  · subst hsvc
    rw [Function.update_self] at hother
    exact (List.mem_cons.mp hother).resolve_left hne
  · rwa [Function.update_of_ne hsvc] at hother

theorem wp_quitMgmtHandler {own : Own} (h : w.AllClosed) (request : MgmtCall) (hlinking : Linking w mfd own w')
    (hmust : own.must request) :
    wp quitListContract (quitMgmtHandler mfd request)
      (fun answer w'' => True ∧ Linking w mfd (own.next request answer) w'') w' := by
  -- any call but a subscription
  have hcall : (∀ answer, own.next request answer ≠ .gone → own ≠ .gone) → request ≠ .devstatsSubscribe →
      wp quitListContract (quitSys (.mgmt mfd request))
        (fun answer w'' => True ∧ Linking w mfd (own.next request answer) w'') w' := by
    intro hown hrequest
    refine ⟨fun other heq => absurd (QuitCall.mgmt.inj heq).2 hrequest, fun answer _ => ⟨trivial, ?_⟩⟩
    have hsame : w'.next (.mgmt mfd request) answer = w' := by
      cases request with
      | devstatsSubscribe => exact absurd rfl hrequest
      | _ => rfl
    show Linking w mfd _ (w'.next (.mgmt mfd request) answer)
    rw [hsame]
    exact hlinking.goes_on (hown answer)
  cases request with
  | devstatsSubscribe =>
    obtain rfl : own = .bared := hmust
    have hsame := hlinking.still nofun
    refine ⟨fun other heq => ?_, fun answer _ => ⟨trivial, hlinking.quit, fun hne => absurd rfl hne, ?_⟩⟩
    · intro linked hmem
      rw [hsame] at hmem
      rw [hlinking.quit]
      exact h _ linked hmem
    · intro svc linked hmem hne
      exact hlinking.linked svc linked (QuitWatch.mem_subscribed hmem hne) hne
  | subscribing mgmt => exact ⟨trivial, hlinking.goes_on fun _ => by rw [hmust.1]; exact nofun⟩
  | command command => exact ⟨trivial, hlinking⟩
  | reply text => exact ⟨trivial, hlinking⟩
  | stepped next mgmt => exact ⟨trivial, hlinking⟩
  | fsckQueueReady fd => exact hcall (fun _ _ => by rw [show own = .due from hmust]; exact nofun) nofun
  | fsckQueueNext fd => exact hcall (fun _ _ => by rw [show own = .digesting from hmust]; exact nofun) nofun
  | closed mgmt => exact hcall (fun _ _ => by rw [show own = .idle from hmust]; exact nofun) nofun
  | _ => exact hcall (fun _ hne => hne) nofun

theorem list_quitClose (wbuf : Wbuf) (h : w.AllClosed)
    (hlinked : ∀ svc other, other ∈ w'.subscribers svc → other ≠ mfd → other ∈ w.subscribers svc)
    (hclients : ∀ other, other ≠ mfd → w'.quit.clients other = w.quit.clients other) :
    wp quitListContract (quitClose mfd wbuf nr) (fun _ w'' => w''.AllClosed) w' := by
  refine wp_require_bind (fun _ => trivial) fun _ => wp_ask_bind nofun fun _ _ => ?_
  refine QuitWatch.AllClosed.put h hlinked ?_
  funext other
  by_cases heq : other = mfd
  · subst heq
    show Function.update w'.quit.clients other none other = _
    rw [Function.update_self, Function.update_self]
  · calc
      Function.update w'.quit.clients mfd none other = w'.quit.clients other := Function.update_of_ne heq ..
      _ = w.quit.clients other := hclients other heq
      _ = Function.update w.quit.clients mfd none other := (Function.update_of_ne heq ..).symm

theorem list_push {request : QuitCall} (hrequest : request = .activeqPush mfd ∨ ∃ ev, request = .idleqPush mfd ev)
    (h : w'.AllClosed) :
    wp quitListContract (do let _ ← quitSys request; pure nr) (fun _ w'' => w''.AllClosed) w' := by
  rcases hrequest with rfl | ⟨ev, rfl⟩
  · exact ⟨nofun, fun _ _ => h⟩
  · exact ⟨nofun, fun _ _ => h⟩

theorem list_mogMgmtQuitStep (ctx : MgmtCtx) {mgmt : Mgmt} (h : w.AllClosed)
    (hclient : w.quit.clients mfd = some (.mgmt mgmt)) :
    wp quitListContract (mogMgmtQuitStep ctx fuel mfd mgmt nr) (fun _ w' => w'.AllClosed) w := by
  have hopen : w.quit.clients mfd ≠ none := by rw [hclient]; exact nofun
  have hstart : Linking w mfd (if mgmt.due then .due else .idle) w := ⟨rfl, fun _ => rfl, fun _ _ hmem _ => hmem⟩
  refine wp_bind.mpr (wp_mono (wp_interp (R := Linking w mfd) (fun own w' request hlinking hmust =>
    wp_quitMgmtHandler h request hlinking hmust) (fun _ _ _ _ => trivial) (own_mgmtQueueStep ctx fuel mgmt) hstart) ?_)
  intro result w' hresult
  obtain ⟨mgmt', next⟩ := result
  obtain ⟨own, hreturned, hlinking⟩ := hresult
  refine wp_ask_bind nofun fun _ _ => ?_
  have hclients : ∀ other, other ≠ mfd →
      (w'.next (.stepped mfd (.mgmt mgmt') next) ()).quit.clients other = w.quit.clients other := by
    intro other hne
    show Function.update w'.quit.clients mfd _ other = _
    rw [Function.update_of_ne hne, hlinking.quit]
  have hclose : ∀ wbuf, wp quitListContract (quitClose mfd wbuf nr) (fun _ w'' => w''.AllClosed)
      (w'.next (.stepped mfd (.mgmt mgmt') next) ()) := fun wbuf => list_quitClose wbuf h hlinking.linked hclients
  have hpush : next ≠ .ignore → (w'.next (.stepped mfd (.mgmt mgmt') next) ()).AllClosed := by
    intro hne
    have hown : own ≠ .gone := by
      rw [hreturned.2, if_neg hne]
      exact nofun
    exact h.changed hopen (hlinking.still hown) hclients
  cases next with
  | close => exact hclose _
  | active => exact list_push (Or.inl rfl) (hpush nofun)
  | waitWr => exact list_push (Or.inr ⟨_, rfl⟩) (hpush nofun)
  | ignore => exact ⟨nofun, fun _ _ => wp_require_bind (fun _ => trivial) fun _ => hclose _⟩
  | waitRd =>
    dsimp only
    split
    · exact list_push (Or.inr ⟨_, rfl⟩) (hpush nofun)
    · exact ⟨nofun, fun _ _ => wp_require_bind (fun _ => trivial) fun _ => hclose _⟩

/-- The calls of an HTTP client concern no list. -/
theorem quitHttpHandler_http (mfd : Client) (request : Call) :
    (quitHttpHandler mfd request).Within (fun call => ∃ request, call = .http mfd request) fun _ => True := by
  cases request with
  | note event => exact within_ret trivial
  | _ => exact within_ask ⟨_, rfl⟩ fun _ => trivial

theorem list_mogHttpQuitStep (ctx : Ctx) (http : Http) (h : w.AllClosed) (hopen : w.quit.clients mfd ≠ none) :
    wp quitListContract (mogHttpQuitStep ctx fuel mfd http nr) (fun _ w' => w'.AllClosed) w := by
  have hwithin := (within_of_forall (S := fun _ => True) (fun _ => trivial) (httpQueueStep ctx fuel http)).interp
    fun request _ => quitHttpHandler_http mfd request
  have hstep : wp quitListContract ((httpQueueStep ctx fuel http).interp (quitHttpHandler mfd))
      (fun _ w' => True ∧ w' = w) w := by
    refine wp_within (J := fun w' => w' = w) ?_ (fun _ _ => trivial) hwithin rfl
    intro w' request heq hrequest
    subst heq
    obtain ⟨request, rfl⟩ := hrequest
    exact ⟨nofun, fun _ _ => rfl⟩
  refine wp_bind.mpr (wp_mono hstep ?_)
  intro result w' hresult
  obtain ⟨http', next⟩ := result
  obtain ⟨-, rfl⟩ := hresult
  refine wp_ask_bind nofun fun _ _ => ?_
  have hclients : ∀ other, other ≠ mfd →
      (w'.next (.stepped mfd (.http ctx.fdType http') (.ofNext next)) ()).quit.clients other = w'.quit.clients other :=
    fun other hne => Function.update_of_ne hne ..
  have hclose : ∀ wbuf, wp quitListContract (quitClose mfd wbuf nr) (fun _ w'' => w''.AllClosed)
      (w'.next (.stepped mfd (.http ctx.fdType http') (.ofNext next)) ()) := fun wbuf =>
    list_quitClose wbuf h (fun _ _ hmem _ => hmem) hclients
  have hpush : (w'.next (.stepped mfd (.http ctx.fdType http') (.ofNext next)) ()).AllClosed :=
    h.changed hopen rfl hclients
  cases next with
  | close => exact hclose _
  | active => exact list_push (Or.inl rfl) hpush
  | waitWr => exact list_push (Or.inr ⟨_, rfl⟩) hpush
  | waitRd =>
    dsimp only
    split
    · exact list_push (Or.inr ⟨_, rfl⟩) hpush
    · exact hclose _

/-- What `aref` says of a client. -/
theorem QuitWorld.client_of_slot {w : QuitWorld} {slot : Slot} (hslot : w.may (.slot mfd) slot)
    (hconn : slot = .client conn) : w.clients mfd = some conn := by
  subst hconn
  cases hclient : w.clients mfd with
  | none =>
    simp only [QuitWorld.may, hclient] at hslot
    exact absurd rfl (hslot conn)
  | some conn' =>
    simp only [QuitWorld.may, hclient] at hslot
    exact congrArg some (Slot.client.inj hslot).symm

theorem list_queueQuitStep (ctx : ServerCtx) (mfd : Client) (h : w.AllClosed) :
    wp quitListContract (queueQuitStep ctx fuel mfd nr) (fun _ w' => w'.AllClosed) w := by
  refine wp_ask_bind nofun fun slot hslot => ?_
  cases slot with
  | client conn =>
    have hclient : w.quit.clients mfd = some conn := QuitWorld.client_of_slot hslot rfl
    have hopen : w.quit.clients mfd ≠ none := by rw [hclient]; exact nofun
    cases conn with
    | mgmt mgmt => exact list_mogMgmtQuitStep ctx.mgmt h hclient
    | http fdType http => exact list_mogHttpQuitStep _ http h hopen
  | other => exact h
  | _ => exact ⟨nofun, fun _ _ => trivial⟩

theorem list_mogQueueQuitLoop (ctx : ServerCtx) (h : w.AllClosed) :
    wp quitListContract (mogQueueQuitLoop ctx fuel nr) (fun _ w' => w'.AllClosed) w := by
  induction fuel generalizing nr w with
  | zero => trivial
  | succ fuel ih =>
    refine wp_ask_bind nofun fun _ _ => ?_
    split
    · exact h
    · refine wp_bind.mpr ⟨nofun, fun _ _ => ?_⟩
      refine wp_bind.mp (wp_require_bind (fun _ => trivial) fun _ => wp_ask_bind nofun fun woken _ => ?_)
      cases woken with
      | none => exact ih h
      | some mfd =>
        refine wp_bind.mpr (wp_mono (list_queueQuitStep ctx mfd ?_) fun nr' w' h' => ih h')
        exact h

theorem list_mogFdmapRequeue (fd : Nat) (h : w.AllClosed) :
    wp quitListContract (mogFdmapRequeue fd nr) (fun _ w' => w'.AllClosed) w := by
  induction fd generalizing nr w with
  | zero => exact h
  | succ fd ih =>
    refine wp_ask_bind nofun fun slot hslot => ?_
    cases slot with
    | client conn =>
      have hclient : w.quit.clients fd = some conn := QuitWorld.client_of_slot hslot rfl
      refine wp_ask_bind nofun fun _ _ => wp_ask_bind nofun fun _ _ => ih ?_
      have hopen : w.quit.clients fd ≠ none := by rw [hclient]; exact nofun
      exact h.changed hopen rfl fun other hne => Function.update_of_ne hne ..
    | _ => exact ih h

/-- **The end of the process.** -/
theorem list_quitClients (ctx : ServerCtx) (maxFd : Nat) (h : w.AllClosed) :
    wp quitListContract (quitClients ctx maxFd fuel) (fun _ w' => w'.AllClosed) w :=
  wp_bind.mpr (wp_mono (list_mogFdmapRequeue maxFd h) fun _ _ h' => list_mogQueueQuitLoop ctx h')

end Quit

/-! ### Every run -/

/-- An open management client that waits for statistics. -/
def LiveWatcher (clients : Client → Option Conn) (mfd : Client) : Prop :=
  ∃ mgmt : Mgmt, clients mfd = some (.mgmt mgmt) ∧ mgmt.forward = .iostat ∧ mgmt.wbuf = .null ∧ mgmt.rbuf = none

/-- All that are linked in the list of a service are such clients. -/
def QuitWatch.Live (w : QuitWatch) (svc : Svc) : Prop := ∀ mfd ∈ w.subscribers svc, LiveWatcher w.quit.clients mfd

abbrev QuitWatchConfig := Config Unit QuitWatch QuitCall QuitRes Unit

/-- **The lists in a state of the process**, and in what the main thread makes of it when it is alone. -/
structure WatchersLive {Tid : Type} (quitCtx : ServerCtx) (main : Tid) (config : ExitConfig Tid) : Prop where
  /-- as long as there are threads all lists are in order -/
  threads : ∀ svc, config.world.alone.Live svc
  /-- in the quit loop, where a list is modified, it is in order if and only if nobody is linked in it yet -/
  quit : config.threads main = .ret () → ∀ maxFd fuel (quit : QuitWatchConfig),
    Config.Reaches quitWatchHandles ⟨config.world.alone, fun _ => quitClients quitCtx maxFd fuel⟩ quit →
    ∀ mfd next, quit.threads () = .call (.mgmt mfd .devstatsSubscribe) next →
      (quit.world.Live (quit.world.svcOf mfd) ↔ quit.world.subscribers (quit.world.svcOf mfd) = [])

section Process

variable {Tid : Type} [DecidableEq Tid] {svcs : List Svc} {main : Tid} {w : ExitWorld Tid} {grips : Tid → Grip}
  {watches : Tid → Watch}

omit [DecidableEq Tid] in
theorem WatchInv.live (h : WatchInv svcs main w grips watches) (hinv : ServerInv w.base grips) (svc : Svc) :
    w.alone.Live svc := by
  intro mfd hlinked
  have hopen : w.base.isOpen mfd = true := by
    by_contra hclosed
    have hat : w.base.At mfd (.subscribed svc) := hlinked
    have hat' : w.base.At mfd .closed := Bool.eq_false_iff.mpr hclosed
    cases hinv.owned.eq hat hat'
  have hwatches := h.linked svc mfd hlinked
  have hbare := hinv.bare svc mfd hlinked
  have hclient : w.alone.quit.clients mfd = some (w.base.conns mfd) := if_pos hopen
  cases hconn : w.base.conns mfd with
  | http fdType http =>
    rw [hconn] at hwatches
    cases hwatches
  | mgmt mgmt =>
    rw [hconn] at hwatches hbare hclient
    have hbare : (decide (mgmt.wbuf = .null) && decide (mgmt.rbuf = none)) = true := hbare
    rw [Bool.and_eq_true, decide_eq_true_eq, decide_eq_true_eq] at hbare
    exact ⟨mgmt, hclient, of_decide_eq_true hwatches, hbare.1, hbare.2⟩

omit [DecidableEq Tid] in
/-- When the main thread is alone all lists are empty. -/
theorem WatchInv.empty (h : WatchInv svcs main w grips watches) (hinv : ServerInv w.base grips)
    (hdone : (watches main).Done svcs) (svc : Svc) : w.base.subscribers svc = [] := by
  obtain ⟨-, hcleared⟩ := hdone ((h.isMain main).mpr rfl)
  rw [List.eq_nil_iff_forall_not_mem]
  intro mfd hlinked
  obtain ⟨mgmt, hclient, -⟩ := h.live hinv svc mfd hlinked
  have hopen : w.base.isOpen mfd = true := by
    by_contra hclosed
    have hnone : w.alone.quit.clients mfd = none := if_neg hclosed
    rw [hnone] at hclient
    cases hclient
  have hsvc : svc ∈ svcs := by
    rw [← hinv.svc svc mfd hlinked]
    exact h.ofSvcs mfd hopen
  rw [h.cleared svc (hcleared svc hsvc)] at hlinked
  exact List.not_mem_nil hlinked

/-- A list of which all members are closed is in order if it is empty. -/
theorem QuitWatch.live_iff_nil {w : QuitWatch} {svc : Svc}
    (hclosed : ∀ mfd ∈ w.subscribers svc, w.quit.clients mfd = none) : w.Live svc ↔ w.subscribers svc = [] := by
  constructor
  · intro hlive
    rw [List.eq_nil_iff_forall_not_mem]
    intro mfd hlinked
    obtain ⟨mgmt, hclient, -⟩ := hlive mfd hlinked
    rw [hclosed mfd hlinked] at hclient
    cases hclient
  · intro hnil mfd hlinked
    rw [hnil] at hlinked
    exact absurd hlinked List.not_mem_nil

theorem watchInv_start (svcs : List Svc) (main : Tid) (threads : Tid → ExitIo Unit) :
    WatchInv svcs main (exitStart threads).world (fun _ => .start) fun thread => .start (thread = main) where
  linked _ _ hlinked := absurd hlinked List.not_mem_nil
  saved := nofun
  ofSvcs := nofun
  isMain _ := decide_eq_true_iff
  stopped := rfl
  unstopped _ := rfl
  cleared _ hsvc := absurd hsvc List.not_mem_nil
  sweeping := nofun

/-- **Watcher lists hold live watchers** as long as there are threads, and in the quit loop as long as no client
finds another one linked when it is subscribed. -/
theorem watcher_lists_live (ctx quitCtx : ServerCtx) (fstat : Fstat) (svcs : List Svc) (main : Tid)
    (threads : Tid → ExitIo Unit) (hprocess : IsProcess ctx svcs main threads) (config : ExitConfig Tid)
    (hreaches : Config.Reaches (exitHandles fstat main) (exitStart threads) config) :
    WatchersLive quitCtx main config := by
  have hstart : (exitStart threads).Safe (exitGrip.prod (watchContract svcs)) (fun _ ghosts => ghosts.2.Done svcs)
      (fun w ghosts => ServerInv w.base (Prod.fst ∘ ghosts) ∧
        WatchInv svcs main w (Prod.fst ∘ ghosts) (Prod.snd ∘ ghosts))
      fun thread => (.start, .start (thread = main)) :=
    ⟨⟨serverInv_start, watchInv_start svcs main threads⟩, wp_process hprocess⟩
  obtain ⟨ghosts, hsafe⟩ := hstart.reaches (exit_keeps fstat svcs main) hreaches
  obtain ⟨hinv, hwatch⟩ := hsafe.inv
  refine ⟨hwatch.live hinv, ?_⟩
  intro hmain maxFd fuel quit hquit mfd next hnext
  have hdone := hsafe.keeps main
  rw [hmain] at hdone
  have hempty : config.world.alone.AllClosed := by
    intro svc mfd hlinked
    rw [show config.world.alone.subscribers svc = [] from hwatch.empty hinv hdone svc] at hlinked
    exact absurd hlinked List.not_mem_nil
  have hkeeps : Keeps quitWatchHandles quitListContract fun w (ghosts : Unit → QuitWatch) => ghosts () = w := by
    intro w ghosts thread request answer w' hghosts _ hhandles
    obtain ⟨hmay, rfl⟩ := hhandles
    obtain rfl : w = ghosts () := hghosts.symm
    exact ⟨hmay, Function.update_self ..⟩
  have hsafe' : Config.Safe quitListContract (fun _ w' => w'.AllClosed) (fun w ghosts => ghosts () = w)
      ⟨config.world.alone, fun _ => quitClients quitCtx maxFd fuel⟩ fun _ => config.world.alone :=
    ⟨rfl, fun _ => list_quitClients quitCtx maxFd hempty⟩
  obtain ⟨ghosts', hsafe'⟩ := hsafe'.reaches hkeeps hquit
  have hclosed := hsafe'.must hnext mfd rfl
  rw [show ghosts' () = quit.world from hsafe'.inv] at hclosed
  exact QuitWatch.live_iff_nil hclosed

end Process

/-- The main thread of a process with one service, and a thread that accepts its clients. -/
def watchedThreads : Bool → ExitIo Unit
  | true => ofServer (mogAcceptLoop 0 .mgmt 3)
  | false => mainWorkerLoop [0] 1

/-- Two clients are accepted. -/
def twoAccepted : Trace ExitCall ExitRes :=
  [⟨.server (.accept 0), some 5⟩, ⟨.server (.save 5 (.mgmt mogMgmtInit)), ()⟩, ⟨.server (.idleqAdd 5 .rd), ()⟩,
    ⟨.server (.accept 0), some 6⟩, ⟨.server (.save 6 (.mgmt mogMgmtInit)), ()⟩, ⟨.server (.idleqAdd 6 .rd), ()⟩]

/-- Then the main thread is told to exit, and finds nobody in the list. -/
def exitRun : Trace ExitCall ExitRes :=
  [⟨.server .notified, []⟩, ⟨.exits, true⟩, ⟨.quitAccept, ()⟩, ⟨.server (.devstatsLock 0), []⟩,
    ⟨.server (.devstatsUnlock 0), ()⟩, ⟨.queueStop, ()⟩, ⟨.server (.devstatsLock 0), []⟩,
    ⟨.server (.devstatsUnlock 0), ()⟩]

def afterAccept {Tid : Type} [DecidableEq Tid] (thread : Tid) (w : World Tid) (mfd : Client) : World Tid :=
  (((w.accepted thread 0 mfd).setConn mfd (.mgmt mogMgmtInit)).setStepping thread none).arm thread mfd

/-- The main thread is alone, and both clients are open. -/
def bothLeft : ExitWorld Bool where
  base := let accepted := afterAccept true (afterAccept true .start 5) 6
    (((accepted.setLock 0 (some false)).setLock 0 none).setLock 0 (some false)).setLock 0 none
  accepting := false
  stopped := true

def bothLeftThreads : Bool → ExitIo Unit :=
  Function.update (Function.update watchedThreads true (ofServer (mogAcceptLoop 0 .mgmt 1))) false (.ret ())

theorem exitHandles_server {Tid : Type} [DecidableEq Tid] {main : Tid} {fstat : Fstat} {w : ExitWorld Tid}
    {thread : Tid} {request : ServerCall}
    {answer : ServerRes request} {base : World Tid} (haccepting : w.accepting = true) (hstopped : w.stopped = false)
    (hhandles : serverHandles fstat w.base thread request answer base) :
    exitHandles fstat main w thread (.server request) answer { w with base := base } := by
  refine ⟨fun _ => haccepting, fun hyes => ?_, base, hhandles, rfl⟩
  rw [hstopped] at hyes
  cases hyes

theorem bothLeft_reached (fstat : Fstat) :
    Config.Reaches (exitHandles fstat false) (exitStart watchedThreads) ⟨bothLeft, bothLeftThreads⟩ := by
  have haccepts : Runs (watchedThreads true) twoAccepted (ofServer (mogAcceptLoop 0 .mgmt 1)) :=
    .cons (.cons (.cons (.cons (.cons (.cons (.nil _))))))
  have hexits : Runs (watchedThreads false) exitRun (.ret ()) :=
    .cons (.cons (.cons (.cons (.cons (.cons (.cons (.cons (.nil _))))))))
  have hmain : ∀ {w : ExitWorld Bool} {request : ServerCall} {answer : ServerRes request} {base : World Bool},
      request.isAccept = false → serverHandles fstat w.base false request answer base →
      exitHandles fstat false w false (.server request) answer { w with base := base } := by
    intro w request answer base haccept hhandles
    refine ⟨fun hyes => ?_, fun _ => rfl, base, hhandles, rfl⟩
    rw [haccept] at hyes
    cases hyes
  have hidle : ∀ other, other ≠ false → (afterAccept true (afterAccept true .start 5) 6).hands other = [] := by
    intro other hother
    cases other with
    | false => exact absurd rfl hother
    | true => rfl
  have haccepted : Handled (exitHandles fstat false) true (exitStart watchedThreads).world twoAccepted
      { base := afterAccept true (afterAccept true .start 5) 6, accepting := true, stopped := false } :=
    .cons (exitHandles_server rfl rfl ⟨rfl, rfl⟩) (.cons (exitHandles_server rfl rfl rfl)
      (.cons (exitHandles_server rfl rfl rfl) (.cons (exitHandles_server rfl rfl ⟨rfl, rfl⟩)
        (.cons (exitHandles_server rfl rfl rfl) (.cons (exitHandles_server rfl rfl rfl) (.nil _))))))
  have hleft : Handled (exitHandles fstat false) false
      { base := afterAccept true (afterAccept true .start 5) 6, accepting := true, stopped := false } exitRun
      bothLeft :=
    .cons (hmain rfl rfl) (.cons rfl (.cons rfl (.cons (hmain rfl ⟨rfl, rfl, rfl⟩) (.cons (hmain rfl rfl)
      (.cons ⟨hidle, rfl⟩ (.cons (hmain rfl ⟨rfl, rfl, rfl⟩) (.cons (hmain rfl rfl) (.nil _))))))))
  exact (Config.Reaches.of_runs haccepts haccepted rfl).trans (Config.Reaches.of_runs hexits hleft rfl)

/-- No service listens any more. -/
def quittingCtx : ServerCtx := ⟨{ zeroHashCtx with accepting := false }, plainCtx⟩

/-- A client that watches. -/
def watchingMgmt : Mgmt := { mogMgmtInit with forward := .iostat, cs := .final, offset := 6 }

/-- Both clients are queued, and one of them wants to watch. It is closed, and so is the other one, as far as
the point where it is subscribed. -/
def watchRun : Trace QuitCall QuitRes :=
  [⟨.slot 6, .client (.mgmt mogMgmtInit)⟩, ⟨.save 6 (.mgmt mogMgmtInit), ()⟩, ⟨.activeqAdd 6, ()⟩,
    ⟨.slot 5, .client (.mgmt mogMgmtInit)⟩, ⟨.save 5 (.mgmt mogMgmtInit), ()⟩, ⟨.activeqAdd 5, ()⟩,
    ⟨.slot 4, .other⟩, ⟨.slot 3, .other⟩, ⟨.slot 2, .other⟩, ⟨.slot 1, .other⟩, ⟨.slot 0, .other⟩,
    ⟨.test 2, ()⟩, ⟨.asserts true, ()⟩, ⟨.idleqWait, some 5⟩, ⟨.slot 5, .client (.mgmt mogMgmtInit)⟩,
    ⟨.mgmt 5 (.sys (.read 496)), .ok ⟨ascii "watch\n", by decide⟩⟩, ⟨.mgmt 5 .notifyRefresh, ()⟩,
    ⟨.mgmt 5 .devstatsSubscribe, ()⟩, ⟨.stepped 5 (.mgmt watchingMgmt) .ignore, ()⟩, ⟨.asserts true, ()⟩,
    ⟨.fdPut 5, ()⟩, ⟨.test 1, ()⟩, ⟨.asserts true, ()⟩, ⟨.idleqWait, some 6⟩,
    ⟨.slot 6, .client (.mgmt mogMgmtInit)⟩, ⟨.mgmt 6 (.sys (.read 496)), .ok ⟨ascii "watch\n", by decide⟩⟩,
    ⟨.mgmt 6 .notifyRefresh, ()⟩]

/-- A run of the main thread that gets answers it may get. -/
theorem handled_of_allows {w : QuitWatch} {trace : Trace QuitCall QuitRes} (h : quitListContract.Allows w trace) :
    Handled quitWatchHandles () w trace (quitListContract.after w trace) := by
  induction trace generalizing w with
  | nil => exact .nil w
  | cons entry trace ih => exact .cons ⟨h.1, rfl⟩ (ih h.2)

theorem watch_reached : ∃ (quit : QuitWatchConfig) (next : Unit → QuitIo Unit),
    Config.Reaches quitWatchHandles ⟨bothLeft.alone, fun _ => quitClients quittingCtx 7 3⟩ quit ∧
      quit.threads () = .call (.mgmt 6 .devstatsSubscribe) next ∧ quit.world.svcOf 6 = 0 ∧
      quit.world.subscribers 0 = [5] ∧ quit.world.quit.clients 5 = none := by
  have hruns : ∃ next, Runs (quitClients quittingCtx 7 3) watchRun (.call (.mgmt 6 .devstatsSubscribe) next) :=
    ⟨_, .cons (.cons (.cons (.cons (.cons (.cons (.cons (.cons (.cons (.cons (.cons (.cons (.cons (.cons (.cons
      (.cons (.cons (.cons (.cons (.cons (.cons (.cons (.cons (.cons (.cons (.cons (.cons
        (.nil _)))))))))))))))))))))))))))⟩
  have hother : ∀ {w : QuitWatch} {fd : Client}, w.quit.clients fd = none →
      quitListContract.may w (.slot fd) Slot.other := by
    intro w fd hnone
    show w.quit.may (.slot fd) Slot.other
    simp [QuitWorld.may, hnone]
  have hallows : quitListContract.Allows bothLeft.alone watchRun :=
    ⟨rfl, trivial, trivial, rfl, trivial, trivial, hother rfl, hother rfl, hother rfl, hother rfl, hother rfl,
      trivial, trivial, rfl, rfl, trivial, trivial, trivial, trivial, trivial, trivial, trivial, trivial, rfl,
      rfl, trivial, trivial, trivial⟩
  obtain ⟨next, hruns⟩ := hruns
  have hreaches : Config.Reaches quitWatchHandles ⟨bothLeft.alone, fun _ => quitClients quittingCtx 7 3⟩ _ :=
    Config.Reaches.of_runs hruns (handled_of_allows hallows) rfl
  have hsvc : (quitListContract.after bothLeft.alone watchRun).svcOf 6 = 0 := rfl
  have hlist : (quitListContract.after bothLeft.alone watchRun).subscribers 0 = [5] := rfl
  have hclosed : (quitListContract.after bothLeft.alone watchRun).quit.clients 5 = none := rfl
  refine ⟨_, next, hreaches, ?_, hsvc, hlist, hclosed⟩
  dsimp only
  rw [Function.update_self]

/-- **A closed client is linked** when the next one is subscribed: two clients send `watch` to a process that
shuts down. -/
theorem closed_watcher_linked : ∃ (config : ExitConfig Bool) (quit : QuitWatchConfig) (next : Unit → QuitIo Unit),
    Config.Reaches (exitHandles ⟨fun _ => True, fun _ _ => True⟩ false) (exitStart watchedThreads) config ∧
    config.threads false = .ret () ∧
    Config.Reaches quitWatchHandles ⟨config.world.alone, fun _ => quitClients quittingCtx 7 3⟩ quit ∧
    quit.threads () = .call (.mgmt 6 .devstatsSubscribe) next ∧
    quit.world.subscribers (quit.world.svcOf 6) = [5] ∧ quit.world.quit.clients 5 = none ∧
    ¬ quit.world.Live (quit.world.svcOf 6) := by
  obtain ⟨quit, next, hreaches, hnext, hsvc, hlist, hclosed⟩ := watch_reached
  refine ⟨_, quit, next, bothLeft_reached _, rfl, hreaches, hnext, ?_, hclosed, ?_⟩
  · rw [hsvc]
    exact hlist
  · intro hlive
    rw [hsvc] at hlive
    obtain ⟨mgmt, hclient, -⟩ := hlive 5 (by rw [hlist]; exact List.mem_singleton_self 5)
    rw [hclosed] at hclient
    cases hclient

/-- A process with a thread that accepts a client and one that steps it. -/
def threeThreads : Option Bool → ExitIo Unit
  | some true => ofServer (mogAcceptLoop 0 .mgmt 2)
  | some false => ofServer (mogQueueLoop quittingCtx 5 none)
  | none => mainWorkerLoop [0] 1

theorem threeThreads_process : IsProcess quittingCtx [0] none threeThreads where
  main_eq := ⟨1, rfl⟩
  others thread hthread := by
    match thread, hthread with
    | some true, _ => exact Or.inr ⟨0, .mgmt, 2, List.mem_singleton_self 0, rfl⟩
    | some false, _ => exact Or.inl ⟨5, rfl⟩
    | none, hnone => exact absurd rfl hnone

/-- The client watches. -/
theorem watcher_lists_live_linked : ∃ config : ExitConfig (Option Bool),
    config.world.alone.subscribers 0 = [5] ∧ WatchersLive quittingCtx none config := by
  let fstat : Fstat := ⟨fun _ => True, fun _ _ => True⟩
  let accept : Trace ExitCall ExitRes := [⟨.server (.accept 0), some 5⟩,
    ⟨.server (.save 5 (.mgmt mogMgmtInit)), ()⟩, ⟨.server (.idleqAdd 5 .rd), ()⟩]
  let accepted : ExitWorld (Option Bool) := ⟨afterAccept (some true) .start 5, true, false⟩
  let watch : Trace ExitCall ExitRes := [⟨.server (.idleqWait true), some 5⟩,
    ⟨.server (.conn 5), .mgmt mogMgmtInit⟩,
    ⟨.server (.mgmt 5 (.sys (.read 496))), .ok ⟨ascii "watch\n", by decide⟩⟩,
    ⟨.server (.mgmt 5 .notifyRefresh), ()⟩, ⟨.server (.save 5 (.mgmt watchingMgmt)), ()⟩,
    ⟨.server (.subscribe 5), ()⟩]
  have haccepts : Runs (threeThreads (some true)) accept _ := .cons (.cons (.cons (.nil _)))
  have haccepted : Handled (exitHandles fstat none) (some true) (exitStart threeThreads).world accept accepted :=
    .cons (exitHandles_server rfl rfl ⟨rfl, rfl⟩) (.cons (exitHandles_server rfl rfl rfl)
      (.cons (exitHandles_server rfl rfl rfl) (.nil _)))
  have hwatches : Runs (threeThreads (some false)) watch _ := .cons (.cons (.cons (.cons (.cons (.cons (.nil _))))))
  have hlinked : Handled (exitHandles fstat none) (some false) accepted watch _ :=
    .cons (exitHandles_server rfl rfl ⟨rfl, rfl⟩) (.cons (exitHandles_server rfl rfl ⟨rfl, rfl⟩)
      (.cons (exitHandles_server rfl rfl rfl) (.cons (exitHandles_server rfl rfl rfl)
        (.cons (exitHandles_server rfl rfl rfl) (.cons (exitHandles_server rfl rfl ⟨rfl, rfl⟩) (.nil _))))))
  have hreaches : Config.Reaches (exitHandles fstat none) (exitStart threeThreads) _ :=
    (Config.Reaches.of_runs haccepts haccepted rfl).trans (Config.Reaches.of_runs hwatches hlinked rfl)
  exact ⟨_, rfl, watcher_lists_live _ quittingCtx fstat [0] none threeThreads threeThreads_process _ hreaches⟩

end Cmogstored
