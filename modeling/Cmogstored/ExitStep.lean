import Cmogstored.Exit
import Cmogstored.ServerStep

/-! What a thread of the process does with the lists of the watchers. A client is handed to
`mog_svc_devstats_subscribe` as soon as its struct is that of a watcher; the main thread leaves no list of a
service behind it that it has not swept after the workers were gone. -/

namespace Cmogstored

open Prog

/-- `MOG_IOSTAT` -/
def Conn.watches : Conn → Bool
  | .mgmt state => state.forward = .iostat
  | .http _ _ => false

/-! ### The contracts of a thread of the process -/

/-- The clients in the hands of a thread. -/
def exitGrip : Contract ExitCall ExitRes Grip where
  must grip request :=
    match request with
    | .server request => grip.must request
    | .devstatsRemove svc mfd => ∃ rest, grip.listing = some (svc, mfd :: rest)
    | .queueStop => grip.Empty
    | _ => True
  may grip request answer :=
    match request, answer with
    | .server request, answer => grip.may request answer
    | _, _ => True
  next grip request answer :=
    match request, answer with
    | .server request, answer => grip.next request answer
    | .devstatsRemove _ mfd, _ => { grip with
        listing := grip.listed, held := mfd :: grip.held, fresh := some mfd }
    | _, _ => grip
  excused _ := True

/-- What matters of a thread for the lists of the watchers. -/
structure Watch where
  /-- it is the main thread -/
  main : Bool
  /-- the client whose struct was written back last, as that of a watcher -/
  saved : Option Client
  /-- it has stopped the workers -/
  stopped : Bool
  /-- and swept the lists of these services since then -/
  cleared : List Svc

/-- A thread that has done nothing yet. -/
def Watch.start (main : Bool) : Watch where
  main := main
  saved := none
  stopped := false
  cleared := []

def Watch.must (svcs : List Svc) (watch : Watch) : ExitCall → Prop
  | .server (.save _ _) => watch.main = false
  | .server (.subscribe mfd) => watch.main = false ∧ watch.saved = some mfd
  | .server (.accept svc) => watch.main = false ∧ svc ∈ svcs
  | .server (.devstatsWrite _ _) => watch.stopped = false
  | .devstatsRemove _ _ => watch.main = true
  | .queueStop => watch.main = true
  | _ => True

def Watch.next (watch : Watch) : ExitCall → Watch
  | .server (.save mfd conn) => { watch with saved := if conn.watches then some mfd else none }
  | .server (.devstatsUnlock svc) => { watch with
      saved := none, cleared := if watch.stopped then svc :: watch.cleared else watch.cleared }
  | .queueStop => { watch with saved := none, stopped := true, cleared := [] }
  | _ => { watch with saved := none }

def watchContract (svcs : List Svc) : Contract ExitCall ExitRes Watch where
  must := Watch.must svcs
  may _ _ _ := True
  next watch request _ := watch.next request
  excused _ := True

section Watching

variable {svcs : List Svc} {main : Bool} {watch : Watch} {mfd : Client} {α : Type}

/-- A thread that has not stopped anybody. -/
structure Watch.Plain (main : Bool) (watch : Watch) : Prop where
  main : watch.main = main
  stopped : watch.stopped = false
  cleared : watch.cleared = []

theorem Watch.Plain.start (main : Bool) : (Watch.start main).Plain main := ⟨rfl, rfl, rfl⟩

/-- The calls that such a thread may make wherever it is. -/
def Unguarded (svcs : List Svc) (main : Bool) : ServerCall → Prop
  | .save _ _ => main = false
  | .subscribe _ => False
  | .accept svc => main = false ∧ svc ∈ svcs
  | _ => True

theorem Watch.Plain.must {request : ServerCall} (h : watch.Plain main) (hcall : Unguarded svcs main request) :
    watch.must svcs (.server request) := by
  cases request with
  | save mfd conn => exact h.main.trans hcall
  | subscribe mfd => exact hcall.elim
  | accept svc => exact ⟨h.main.trans hcall.1, hcall.2⟩
  | devstatsWrite svc mfd => exact h.stopped
  | _ => trivial

theorem Watch.Plain.next (h : watch.Plain main) (request : ServerCall) :
    (watch.next (.server request)).Plain main := by
  cases request with
  | devstatsUnlock svc =>
    refine ⟨h.main, h.stopped, ?_⟩
    show (if watch.stopped then _ else _) = _
    rw [h.stopped]
    exact h.cleared
  | _ => exact ⟨h.main, h.stopped, h.cleared⟩

/-- The same contract for the calls of a thread before it is one of the process. -/
abbrev serverWatch (svcs : List Svc) : Contract ServerCall ServerRes Watch :=
  (watchContract svcs).comap ExitCall.server

theorem wp_unguarded {p : ServerIo α} {Q : α → Prop} (h : p.Within (Unguarded svcs main) Q)
    (hplain : watch.Plain main) :
    wp (serverWatch svcs) p (fun value watch' => Q value ∧ watch'.Plain main) watch := by
  refine wp_within ?_ (fun _ _ => trivial) h hplain
  intro watch request hplain hcall
  exact ⟨hplain.must hcall, fun _ _ => hplain.next request⟩

/-! ### Workers -/

theorem mogFsckQueueReady_unguarded (mfd : Client) (fd : Fd) :
    (mogFsckQueueReady mfd fd).Within (Unguarded svcs false) fun _ => True := by
  refine within_ask_bind trivial fun answer => ?_
  cases answer with
  | none => trivial
  | some dev => exact within_ask trivial fun _ => trivial

theorem mogFsckQueueNext_unguarded (mfd : Client) (fd : Fd) :
    (mogFsckQueueNext mfd fd).Within (Unguarded svcs false) fun _ => True := by
  refine within_ask_bind trivial fun answer => ?_
  cases answer with
  | none => trivial
  | some dev =>
    refine within_ask_bind trivial fun nextMfd => ?_
    cases nextMfd with
    | none => trivial
    | some nextMfd =>
      refine within_ask_bind trivial fun conn => ?_
      cases conn with
      | http fdType http => trivial
      | mgmt nextMgmt => exact within_require_bind fun _ => within_ask trivial fun _ => trivial

/-- A client that is about to be subscribed was written back last, as a watcher. -/
def Handed (mfd : Client) (own : Own) (watch : Watch) : Prop :=
  watch.Plain false ∧ (own = .bared → watch.saved = some mfd)

theorem watch_mgmtHandler {own : Own} (request : MgmtCall) (h : Handed mfd own watch) (hmust : own.must request) :
    wp (serverWatch svcs) (mgmtHandler mfd request) (fun answer watch' =>
      True ∧ Handed mfd (own.next request answer) watch') watch := by
  obtain ⟨hplain, hsaved⟩ := h
  have hother : ∀ {p : ServerIo (MgmtRes request)}, p.Within (Unguarded svcs false) (fun _ => True) →
      (∀ answer, own.next request answer ≠ .bared) →
      wp (serverWatch svcs) p (fun answer watch' => True ∧ Handed mfd (own.next request answer) watch') watch :=
    fun hwithin hnext => wp_mono (wp_unguarded hwithin hplain) fun answer _ h =>
      ⟨trivial, h.2, fun hbared => absurd hbared (hnext answer)⟩
  cases request with
  | subscribing mgmt =>
    refine ⟨hplain.main, fun _ _ => ⟨trivial, hplain.next (.save mfd (.mgmt mgmt)), fun _ => ?_⟩⟩
    exact if_pos (decide_eq_true hmust.2.2)
  | devstatsSubscribe =>
    exact ⟨⟨hplain.main, hsaved hmust⟩, fun _ _ => ⟨trivial, hplain.next (.subscribe mfd), nofun⟩⟩
  | fsckQueueReady fd => exact hother (mogFsckQueueReady_unguarded mfd fd) fun now => by cases now <;> exact nofun
  | fsckQueueNext fd => exact hother (mogFsckQueueNext_unguarded mfd fd) nofun
  | closed mgmt => exact hother (within_ask trivial fun _ => trivial) nofun
  | command command => exact ⟨trivial, hplain, hsaved⟩
  | reply text => exact ⟨trivial, hplain, hsaved⟩
  | stepped next mgmt => exact ⟨trivial, hplain, hsaved⟩
  | _ =>
    refine hother (within_ask trivial fun _ => trivial) fun _ => ?_
    rcases hmust with rfl | ⟨-, rfl⟩ <;> exact nofun

theorem httpHandler_unguarded (mfd : Client) (request : Call) :
    (httpHandler mfd request).Within (Unguarded svcs false) fun _ => True := by
  cases request with
  | note event =>
    cases event with
    | closed http => exact within_ask trivial fun _ => trivial
    | _ => exact within_ret trivial
  | _ => exact within_ask trivial fun _ => trivial

theorem saveStepped_unguarded (mfd : Client) (conn : Conn) (next : MgmtNext) :
    (saveStepped mfd conn next).Within (Unguarded svcs false) fun _ => True := by
  cases next with
  | ignore => exact within_ret trivial
  | close => exact within_ret trivial
  | _ => exact within_ask_bind rfl fun _ => within_ret trivial

theorem watch_mogQueueStep (ctx : ServerCtx) (fuel : Nat) (mfd : Client) (h : watch.Plain false) :
    wp (serverWatch svcs) (mogQueueStep ctx fuel mfd) (fun _ watch' => watch'.Plain false) watch := by
  refine wp_ask_bind trivial fun conn _ => ?_
  have hplain := h.next (.conn mfd)
  have hsave : ∀ {watch : Watch} (conn : Conn) (next : MgmtNext), watch.Plain false →
      wp (serverWatch svcs) (saveStepped mfd conn next) (fun _ watch' => watch'.Plain false) watch :=
    fun conn next hplain =>
      wp_mono (wp_unguarded (saveStepped_unguarded mfd conn next) hplain) fun _ _ h => h.2
  cases conn with
  | mgmt mgmt =>
    have hstart : Handed mfd (if mgmt.due then .due else .idle) (watch.next (.server (.conn mfd))) :=
      ⟨hplain, by split <;> exact nofun⟩
    refine wp_bind.mpr (wp_mono (wp_interp (R := Handed mfd) (fun own watch request h hmust =>
      watch_mgmtHandler request h hmust) (fun _ _ _ _ => trivial) (own_mogMgmtQueueStep ctx.mgmt fuel mgmt)
      hstart) fun result watch' hresult => ?_)
    obtain ⟨own, -, hhanded⟩ := hresult
    exact hsave _ _ hhanded.1
  | http fdType http =>
    have hstep : ((mogHttpQueueStep { ctx.http with fdType := fdType } fuel http).interp
        (httpHandler mfd)).Within (Unguarded svcs false) fun _ => True :=
      (within_of_forall (S := fun _ => True) (fun _ => trivial) _).interp fun request _ =>
        httpHandler_unguarded mfd request
    refine wp_bind.mpr (wp_mono (wp_unguarded hstep hplain) fun result watch' hresult => ?_)
    exact hsave _ _ hresult.2

theorem watch_mogQueueLoop (ctx : ServerCtx) (fuel : Nat) (mfd : Option Client) (h : watch.Plain false) :
    wp (serverWatch svcs) (mogQueueLoop ctx fuel mfd) (fun _ watch' => watch'.Plain false) watch := by
  induction fuel generalizing mfd watch with
  | zero => trivial
  | succ fuel ih =>
    have hgoes : ∀ {α : Type} {p : ServerIo α} {watch : Watch} (f : α → ServerIo Unit),
        p.Within (Unguarded svcs false) (fun _ => True) → watch.Plain false →
        (∀ value watch, watch.Plain false →
          wp (serverWatch svcs) (f value) (fun _ watch' => watch'.Plain false) watch) →
        wp (serverWatch svcs) (p >>= f) (fun _ watch' => watch'.Plain false) watch :=
      fun f hp hplain hf => wp_bind.mpr (wp_mono (wp_unguarded hp hplain) fun value _ h => hf value _ h.2)
    have hwait : (serverSys (.idleqWait true)).Within (Unguarded svcs false) fun _ => True :=
      within_ask trivial fun _ => trivial
    have hpush : ∀ mfd ev, (mogQueueXchg mfd ev).Within (Unguarded svcs false) fun _ => True := fun mfd ev =>
      within_ask_bind trivial fun _ => hwait
    have hmaybe : ∀ mfd, (queueXchgMaybe mfd).Within (Unguarded svcs false) fun _ => True := by
      intro mfd
      refine within_ask_bind trivial fun recentMfd => ?_
      cases recentMfd with
      | none => exact within_ret trivial
      | some recentMfd => exact within_ask_bind trivial fun _ => within_ret trivial
    cases mfd with
    | none => exact hgoes _ hwait h fun mfd _ hplain => ih mfd hplain
    | some mfd =>
      refine wp_bind.mpr (wp_mono (watch_mogQueueStep ctx fuel mfd h) fun next watch' hplain => ?_)
      cases next with
      | active => exact hgoes _ (hmaybe mfd) hplain fun mfd _ hplain => ih (some mfd) hplain
      | waitRd => exact hgoes _ (hpush mfd .rd) hplain fun mfd _ hplain => ih mfd hplain
      | waitWr => exact hgoes _ (hpush mfd .wr) hplain fun mfd _ hplain => ih mfd hplain
      | ignore => exact hgoes _ hwait hplain fun mfd _ hplain => ih mfd hplain
      | close => exact hgoes _ hwait hplain fun mfd _ hplain => ih mfd hplain

theorem mogAcceptLoop_unguarded {svc : Svc} (hsvc : svc ∈ svcs) (listener : Listener) (fuel : Nat) :
    (mogAcceptLoop svc listener fuel).Within (Unguarded svcs false) fun _ => True := by
  induction fuel with
  | zero => trivial
  | succ fuel ih =>
    refine within_ask_bind ⟨rfl, hsvc⟩ fun answer => ?_
    cases answer with
    | none => exact ih
    | some fd =>
      refine Within.bind (Q := fun _ => True) ?_ fun _ _ => ih
      exact within_ask_bind rfl fun _ => within_ask trivial fun _ => trivial

/-! ### The main thread -/

theorem devstatsEach_unguarded (svc : Svc) (subscribers : List Client) :
    (devstatsEach svc subscribers).Within (Unguarded svcs true) fun _ => True := by
  induction subscribers with
  | nil => trivial
  | cons mfd rest ih =>
    refine within_ask_bind trivial fun conn => ?_
    cases conn with
    | http fdType http => trivial
    | mgmt mgmt =>
      refine within_require_bind fun _ => within_ask_bind trivial fun wbuf => ?_
      cases wbuf with
      | null => exact ih
      | pending buf off => exact within_ask_bind trivial fun _ => ih
      | error =>
        refine within_ask_bind trivial fun conn => ?_
        cases conn with
        | http fdType http => trivial
        | mgmt mgmt => exact within_require_bind fun _ => within_ask_bind trivial fun _ => ih

theorem broadcastAll_unguarded (due : List Svc) : (broadcastAll due).Within (Unguarded svcs true) fun _ => True := by
  induction due with
  | nil => trivial
  | cons svc due ih =>
    refine Within.bind (Q := fun _ => True) ?_ fun _ _ => ih
    refine within_ask_bind trivial fun subscribers => ?_
    exact (devstatsEach_unguarded svc subscribers).bind fun _ _ => within_ask trivial fun _ => trivial

/-- The main thread goes on with its sweeps. -/
structure Watch.Swept (watch watch' : Watch) (swept : List Svc) : Prop where
  main : watch'.main = true
  stopped : watch'.stopped = watch.stopped
  kept : ∀ svc ∈ watch.cleared, svc ∈ watch'.cleared
  cleared : watch.stopped = true → ∀ svc ∈ swept, svc ∈ watch'.cleared

theorem Watch.Swept.refl (hmain : watch.main = true) : watch.Swept watch [] :=
  ⟨hmain, rfl, fun _ h => h, fun _ _ h => absurd h List.not_mem_nil⟩

theorem watch_devstatsShutdownEach (svc : Svc) (subscribers : List Client) (hmain : watch.main = true) :
    wp (watchContract svcs) (devstatsShutdownEach svc subscribers) (fun _ watch' => watch.Swept watch' []) watch := by
  induction subscribers generalizing watch with
  | nil => exact .refl hmain
  | cons mfd rest ih =>
    refine wp_ask_bind trivial fun conn _ => ?_
    cases conn with
    | http fdType http => trivial
    | mgmt mgmt =>
      refine wp_require_bind (fun _ => trivial) fun _ => wp_require_bind (fun _ => trivial) fun _ => ?_
      refine wp_ask_bind hmain fun _ _ => wp_ask_bind trivial fun _ _ => ?_
      have hmain' : Watch.main { watch with saved := none } = true := hmain
      exact wp_mono (ih hmain') fun _ _ h => ⟨h.main, h.stopped, h.kept, h.cleared⟩

theorem watch_mogSvcDevShutdown (swept : List Svc) (hmain : watch.main = true) :
    wp (watchContract svcs) (mogSvcDevShutdown swept) (fun _ watch' => watch.Swept watch' swept) watch := by
  induction swept generalizing watch with
  | nil => exact .refl hmain
  | cons svc swept ih =>
    refine wp_bind.mpr (wp_ask_bind trivial fun subscribers _ => ?_)
    refine wp_bind.mpr (wp_mono (watch_devstatsShutdownEach svc subscribers hmain) fun _ watch' hswept => ?_)
    refine ⟨trivial, fun _ _ => ?_⟩
    have hmain' : (watch'.next (.server (.devstatsUnlock svc))).main = true := hswept.main
    show wp (watchContract svcs) (mogSvcDevShutdown swept) _ _
    refine wp_mono (ih hmain') fun _ watch'' hrest => ?_
    have hcleared : ∀ other ∈ watch'.cleared, other ∈ watch''.cleared := by
      intro other hother
      apply hrest.kept
      show other ∈ if watch'.stopped then svc :: watch'.cleared else watch'.cleared
      split
      · exact List.mem_cons_of_mem svc hother
      · exact hother
    have hkept : ∀ other ∈ watch.cleared, other ∈ watch''.cleared := fun other hother =>
      hcleared other (hswept.kept other hother)
    refine ⟨hrest.main, hrest.stopped.trans hswept.stopped, hkept, ?_⟩
    intro hstopped other hother
    have hstopped' : watch'.stopped = true := hswept.stopped.trans hstopped
    rcases List.mem_cons.mp hother with rfl | hother
    · apply hrest.kept
      show other ∈ if watch'.stopped then other :: watch'.cleared else watch'.cleared
      rw [hstopped']
      exact List.mem_cons_self ..
    · exact hrest.cleared hstopped' other hother

/-- The main thread is through with all lists. -/
def Watch.Done (svcs : List Svc) (watch : Watch) : Prop :=
  watch.main = true → watch.stopped = true ∧ ∀ svc ∈ svcs, svc ∈ watch.cleared

theorem watch_cmogstoredExit (hmain : watch.main = true) :
    wp (watchContract svcs) (cmogstoredExit svcs) (fun _ watch' => watch'.Done svcs) watch := by
  refine wp_ask_bind trivial fun _ _ => ?_
  refine wp_bind.mpr (wp_mono (watch_mogSvcDevShutdown svcs hmain) fun _ watch' hswept => ?_)
  refine wp_ask_bind hswept.main fun _ _ => ?_
  refine wp_mono (watch_mogSvcDevShutdown svcs hswept.main) fun _ watch'' hswept' _ => ?_
  exact ⟨hswept'.stopped, hswept'.cleared rfl⟩

theorem watch_mainWorkerLoop (fuel : Nat) (h : watch.Plain true) :
    wp (watchContract svcs) (mainWorkerLoop svcs fuel) (fun _ watch' => watch'.Done svcs) watch := by
  induction fuel generalizing watch with
  | zero => trivial
  | succ fuel ih =>
    refine wp_ask_bind trivial fun due _ => ?_
    have hbroadcast : wp (serverWatch svcs) (broadcastAll due) _ _ :=
      wp_unguarded (broadcastAll_unguarded due) (h.next .notified)
    refine wp_bind.mpr (wp_mono (wp_embed.mpr hbroadcast) fun _ watch' hplain => ?_)
    refine wp_ask_bind trivial fun exits _ => ?_
    cases exits with
    | true => exact watch_cmogstoredExit hplain.2.main
    | false => exact ih ⟨hplain.2.main, hplain.2.stopped, hplain.2.cleared⟩

end Watching

section Gripping

variable {svcs : List Svc} {grip : Grip} {α : Type}

theorem wp_ofServer {p : ServerIo α} {Q : α → Grip → Prop} (h : wp gripContract p Q grip) :
    wp exitGrip (ofServer p) Q grip :=
  wp_embed.mpr h

/-- The loop over the subscribers: `rest` is still to be closed. -/
theorem wp_devstatsShutdownEach (svc : Svc) (rest : List Client) (hheld : grip.held = []) (hstill : grip.Still)
    (hlisting : grip.listing = some (svc, rest)) :
    wp exitGrip (devstatsShutdownEach svc rest) (fun _ grip' => grip'.held = [] ∧ grip'.Still ∧
      grip'.listing = some (svc, [])) grip := by
  induction rest generalizing grip with
  | nil => exact ⟨hheld, hstill, hlisting⟩
  | cons mfd rest ih =>
    have hlisted : grip.listed = some (svc, rest) := by rw [Grip.listed, hlisting]; rfl
    refine wp_ask_bind (Or.inr ⟨svc, rest, hlisting⟩) fun conn _ => ?_
    cases conn with
    | http fdType http => trivial
    | mgmt mgmt =>
      refine wp_require_bind (fun _ => trivial) fun _ => wp_require_bind (fun _ => trivial) fun _ => ?_
      refine wp_ask_bind ⟨rest, hlisting⟩ fun _ _ => ?_
      refine wp_ask_bind ⟨List.mem_cons_self .., Or.inr ⟨hstill, rfl⟩⟩ fun _ _ => ih ?_ ?_ hlisted
      · show (mfd :: grip.held).erase mfd = []
        rw [hheld]
        simp
      · intro other phase hturn
        obtain ⟨hturn, -⟩ := Option.filter_eq_some_iff.mp hturn
        exact hstill other phase hturn

theorem wp_mogSvcDevShutdown (swept : List Svc) (h : grip.Loop none) :
    wp exitGrip (mogSvcDevShutdown swept) (fun _ grip' => grip'.Loop none) grip := by
  induction swept generalizing grip with
  | nil => exact h
  | cons svc swept ih =>
    refine wp_bind.mpr (wp_ask_bind h.empty fun subscribers _ => ?_)
    refine wp_bind.mpr (wp_mono (wp_devstatsShutdownEach svc subscribers h.held h.still rfl) ?_)
    intro _ grip' hswept
    obtain ⟨hheld, hstill, hlisting⟩ := hswept
    exact ⟨hlisting, fun _ _ => ih ⟨hheld, hstill, rfl⟩⟩

theorem wp_cmogstoredExit (h : grip.Loop none) :
    wp exitGrip (cmogstoredExit svcs) (fun _ grip' => grip'.Loop none) grip := by
  refine wp_ask_bind trivial fun _ _ => ?_
  refine wp_bind.mpr (wp_mono (wp_mogSvcDevShutdown svcs h) fun _ grip' hloop => ?_)
  exact wp_ask_bind hloop.empty fun _ _ => wp_mogSvcDevShutdown svcs hloop

/-- **The main thread** closes the watchers that it takes off the lists. -/
theorem wp_mainWorkerLoop (fuel : Nat) (h : grip.Loop none) :
    wp exitGrip (mainWorkerLoop svcs fuel) (fun _ grip' => grip'.Loop none) grip := by
  induction fuel generalizing grip with
  | zero => trivial
  | succ fuel ih =>
    refine wp_ask_bind h.empty fun due _ => ?_
    refine wp_bind.mpr (wp_mono (wp_ofServer (wp_broadcastAll due h)) fun _ grip' hloop => ?_)
    refine wp_ask_bind trivial fun exits _ => ?_
    cases exits with
    | true => exact wp_cmogstoredExit hloop
    | false => exact ih hloop

end Gripping

/-- Every thread of the process keeps both contracts. -/
theorem wp_process {Tid : Type} [DecidableEq Tid] {ctx : ServerCtx} {svcs : List Svc} {main : Tid}
    {threads : Tid → ExitIo Unit} (h : IsProcess ctx svcs main threads) (thread : Tid) :
    wp (exitGrip.prod (watchContract svcs)) (threads thread) (fun _ ghosts => ghosts.2.Done svcs)
      (.start, .start (thread = main)) := by
  have hboth : ∀ {p : ExitIo Unit} {watch : Watch} {Q : Unit → Grip → Prop}, wp exitGrip p Q .start →
      wp (watchContract svcs) p (fun _ watch' => watch'.Done svcs) watch →
      wp (exitGrip.prod (watchContract svcs)) p (fun _ ghosts => ghosts.2.Done svcs) (.start, watch) :=
    fun hgrip hwatch => wp_mono (wp_prod hgrip hwatch) fun _ _ h => h.2
  have hworker : ∀ {p : ServerIo Unit}, wp (serverWatch svcs) p (fun _ watch' => watch'.Plain false) (.start false) →
      wp (watchContract svcs) (ofServer p) (fun _ watch' => watch'.Done svcs) (.start false) := by
    intro p hwatch
    refine wp_mono (wp_embed.mpr hwatch) fun _ watch' hplain hmain => ?_
    rw [hplain.main] at hmain
    cases hmain
  by_cases hthread : thread = main
  · subst hthread
    obtain ⟨fuel, hfuel⟩ := h.main_eq
    rw [hfuel, decide_eq_true rfl]
    exact hboth (wp_mainWorkerLoop fuel loop_start) (watch_mainWorkerLoop fuel (.start true))
  · rw [decide_eq_false hthread]
    rcases h.others thread hthread with ⟨fuel, hworks⟩ | ⟨svc, listener, fuel, hsvc, haccepts⟩
    · rw [hworks]
      exact hboth (wp_ofServer (wp_mogQueueLoop ctx fuel loop_start))
        (hworker (watch_mogQueueLoop ctx fuel none (.start false)))
    · rw [haccepts]
      refine hboth (wp_ofServer (wp_mogAcceptLoop svc listener fuel loop_start)) (hworker ?_)
      exact wp_mono (wp_unguarded (mogAcceptLoop_unguarded hsvc listener fuel) (.start false)) fun _ _ h => h.2

end Cmogstored
