import Cmogstored.HttpFrame
import Cmogstored.ServerWorld

/-! What a thread does with the clients it gets. The contract follows the clients in a thread's hands and
how far it has come with the one it steps; no thread touches a client that it does not hold. -/

namespace Cmogstored

open List Prog Scan

/-- Linked among the subscribers a client has no buffers. -/
def Conn.bare : Conn → Bool
  | .mgmt state => state.wbuf = .null && state.rbuf = none
  | .http _ _ => false

/-- The digest of an open file waits for its turn. -/
def Mgmt.due (mgmt : Mgmt) : Bool :=
  match mgmt.forward, mgmt.prio with
  | .file _, .fsck => mgmt.wbuf = .null
  | _, _ => false

def Conn.due : Conn → Bool
  | .mgmt state => state.due
  | .http _ _ => false

/-! ### The contract of a thread -/

/-- How far the step of a client has come. -/
inductive TurnPhase where
  /-- its turn at the fsck queue has to be asked for first -/
  | due
  | idle
  | asking (dev : Dev)
  | digesting (slot : Option Dev)
  | leaving (dev : Dev)
  /-- the struct is written back -/
  | saved (bare : Bool)

structure Grip where
  /-- the clients in the hands of the thread -/
  held : List Client
  /-- the client that is stepped -/
  turn : Option (Client × TurnPhase)
  /-- a client that was accepted, or taken off a list of subscribers -/
  fresh : Option Client
  /-- the subscribers to be written to, under the lock of their service -/
  listing : Option (Svc × List Client)

def Grip.start : Grip where
  held := []
  turn := none
  fresh := none
  listing := none

/-- No step is under way. -/
def Grip.Still (grip : Grip) : Prop := ∀ mfd phase, grip.turn = some (mfd, phase) → ∃ bare, phase = .saved bare

/-- Nothing is in the hands of the thread. -/
def Grip.Empty (grip : Grip) : Prop := grip.held = [] ∧ grip.Still ∧ grip.listing = none

/-- The client is not in the middle of a step. -/
def Grip.Free (grip : Grip) (mfd : Client) : Prop :=
  mfd ∈ grip.held ∧ ∀ phase, grip.turn = some (mfd, phase) → ∃ bare, phase = .saved bare

/-- The thread may do with the client what it likes. -/
def Grip.Owns (grip : Grip) (mfd : Client) : Prop :=
  mfd ∈ grip.held ∧ (grip.turn = some (mfd, .idle) ∨ (grip.Still ∧ grip.fresh = some mfd))

def Grip.drop (grip : Grip) (mfd : Client) : Grip :=
  { grip with
    held := grip.held.erase mfd
    turn := grip.turn.filter fun turn => turn.1 ≠ mfd
    fresh := grip.fresh.filter (· ≠ mfd) }

/-- The next subscriber has been written to. -/
def Grip.listed (grip : Grip) : Option (Svc × List Client) :=
  grip.listing.map fun listing => (listing.1, listing.2.tail)

def Grip.must (grip : Grip) : ServerCall → Prop
  | .idleqWait true => grip.Empty
  | .idleqWait false => grip.Still
  | .idleqAdd mfd _ => grip.Free mfd
  | .idleqPush mfd _ => grip.Free mfd
  | .activeqPush mfd => grip.Free mfd
  | .conn mfd => mfd ∈ grip.held ∧ grip.Still
  | .peek mfd => mfd ∈ grip.held ∨ ∃ svc rest, grip.listing = some (svc, mfd :: rest)
  | .save mfd _ => grip.Owns mfd
  | .http mfd _ => mfd ∈ grip.held ∧ grip.turn = some (mfd, .idle)
  | .mgmt mfd request => mfd ∈ grip.held ∧ (grip.turn = some (mfd, .idle) ∨
      (opensFile request = false ∧ ∃ slot, grip.turn = some (mfd, .digesting slot)))
  | .fsckQueueFor mfd _ .ready => mfd ∈ grip.held ∧ grip.turn = some (mfd, .due)
  | .fsckQueueFor mfd _ .next => mfd ∈ grip.held ∧ ∃ slot, grip.turn = some (mfd, .digesting slot)
  | .fsckReady dev mfd => mfd ∈ grip.held ∧ grip.turn = some (mfd, .asking dev)
  | .fsckNext dev mfd => mfd ∈ grip.held ∧ grip.turn = some (mfd, .leaving dev)
  | .subscribe mfd => mfd ∈ grip.held ∧ grip.turn = some (mfd, .saved true)
  | .fdPut mfd => grip.Owns mfd
  | .accept _ => grip.Empty
  | .notified => grip.Empty
  | .devstatsLock _ => grip.Empty
  | .devstatsWrite svc mfd => ∃ rest, grip.listing = some (svc, mfd :: rest)
  | .devstatsUnlock svc => grip.listing = some (svc, [])

/-- A client that comes is not there already. -/
def Grip.may (grip : Grip) : (request : ServerCall) → ServerRes request → Prop
  | .idleqWait _, some mfd => mfd ∉ grip.held
  | .fsckNext _ _, some mfd => mfd ∉ grip.held
  | _, _ => True

def Grip.next (grip : Grip) : (request : ServerCall) → ServerRes request → Grip
  | .idleqWait _, some mfd => { grip with held := mfd :: grip.held }
  | .idleqAdd mfd _, _ => grip.drop mfd
  | .idleqPush mfd _, _ => grip.drop mfd
  | .activeqPush mfd, _ => grip.drop mfd
  | .conn mfd, conn => { grip with turn := some (mfd, if conn.due then .due else .idle), fresh := none }
  | .save mfd conn, _ => { grip with turn := some (mfd, .saved conn.bare) }
  | .fsckQueueFor mfd _ .ready, none => { grip with turn := some (mfd, .digesting none) }
  | .fsckQueueFor mfd _ .ready, some dev => { grip with turn := some (mfd, .asking dev) }
  | .fsckQueueFor mfd _ .next, none => { grip with turn := some (mfd, .idle) }
  | .fsckQueueFor mfd _ .next, some dev => { grip with turn := some (mfd, .leaving dev) }
  | .fsckReady dev mfd, true => { grip with turn := some (mfd, .digesting (some dev)) }
  | .fsckReady _ mfd, false => grip.drop mfd
  | .fsckNext _ mfd, answer => { grip with turn := some (mfd, .idle), held := answer.toList ++ grip.held }
  | .subscribe mfd, _ => grip.drop mfd
  | .fdPut mfd, _ => grip.drop mfd
  | .accept _, some mfd => { grip with held := mfd :: grip.held, fresh := some mfd }
  | .devstatsLock svc, listed => { grip with listing := some (svc, listed) }
  | .devstatsWrite _ _, .null => { grip with listing := grip.listed }
  | .devstatsWrite _ mfd, _ => { grip with
      listing := grip.listed, held := mfd :: grip.held, fresh := some mfd }
  | .devstatsUnlock _, _ => { grip with listing := none }
  | _, _ => grip

/-- The assertions of the code are not the subject here: a thread whose assertion fails takes the server
down with it. -/
def gripContract : Contract ServerCall ServerRes Grip where
  must := Grip.must
  may := Grip.may
  next := Grip.next
  excused _ := True

/-! ### Steps of a management client -/

/-- How far a step has come, as the client itself sees it. -/
inductive Own where
  | due | idle | digesting | bared | gone
  deriving DecidableEq

def Own.must (own : Own) : MgmtCall → Prop
  | .fsckQueueReady _ => own = .due
  | .fsckQueueNext _ => own = .digesting
  | .subscribing mgmt => own = .idle ∧ (Conn.mgmt mgmt).bare = true ∧ mgmt.forward = .iostat
  | .devstatsSubscribe => own = .bared
  | .closed _ => own = .idle
  | .command _ => True
  | .reply _ => True
  | .stepped _ _ => True
  | request => own = .idle ∨ (opensFile request = false ∧ own = .digesting)

def Own.next (own : Own) : (request : MgmtCall) → MgmtRes request → Own
  | .fsckQueueReady _, true => .digesting
  | .fsckQueueReady _, false => .gone
  | .fsckQueueNext _, _ => .idle
  | .subscribing _, _ => .bared
  | .devstatsSubscribe, _ => .gone
  | .closed _, _ => .gone
  | _, _ => own

def ownContract : Contract MgmtCall MgmtRes Own where
  must := Own.must
  may _ _ _ := True
  next := Own.next
  excused _ := True

/-- The calls that leave a client as it is. -/
def Plain : MgmtCall → Prop
  | .fsckQueueReady _ => False
  | .fsckQueueNext _ => False
  | .subscribing _ => False
  | .devstatsSubscribe => False
  | .closed _ => False
  | _ => True

/-- The plain calls that a digest may make. -/
def Digests (request : MgmtCall) : Prop := Plain request ∧ opensFile request = false

section Own

variable {ctx : MgmtCtx} {fuel : Nat} {mgmt : Mgmt} {accepting : Bool} {prio : Prio} {α : Type}

theorem Plain.next {request : MgmtCall} (h : Plain request) (own : Own) (answer : MgmtRes request) :
    own.next request answer = own := by
  cases request with
  | fsckQueueReady fd => exact h.elim
  | fsckQueueNext fd => exact h.elim
  | subscribing mgmt => exact h.elim
  | devstatsSubscribe => exact h.elim
  | closed mgmt => exact h.elim
  | _ => rfl

theorem Plain.must {request : MgmtCall} (h : Plain request) {own : Own}
    (hown : own = .idle ∨ (opensFile request = false ∧ own = .digesting)) : own.must request := by
  cases request with
  | fsckQueueReady fd => exact h.elim
  | fsckQueueNext fd => exact h.elim
  | subscribing mgmt => exact h.elim
  | devstatsSubscribe => exact h.elim
  | closed mgmt => exact h.elim
  | command _ => trivial
  | reply _ => trivial
  | stepped _ _ => trivial
  | _ => exact hown

theorem wp_plain {p : MgmtIo α} {Q : α → Prop} (h : p.Within Plain Q) :
    wp ownContract p (fun value own => Q value ∧ own = .idle) .idle := by
  refine wp_within (J := fun own => own = Own.idle) (fun own request hown hplain => ?_) (fun _ _ => trivial) h rfl
  subst hown
  exact ⟨hplain.must (Or.inl rfl), fun answer _ => hplain.next _ answer⟩

theorem wp_digests {p : MgmtIo α} {Q : α → Prop} (h : p.Within Digests Q) :
    wp ownContract p (fun value own => Q value ∧ own = .digesting) .digesting := by
  refine wp_within (J := fun own => own = Own.digesting) (fun own request hown hplain => ?_) (fun _ _ => trivial) h rfl
  subst hown
  exact ⟨hplain.1.must (Or.inr ⟨hplain.2, rfl⟩), fun answer _ => hplain.1.next _ answer⟩

/-! Frames of the functions of `mgmt.c`. -/

theorem trywritev_digests (fuel : Nat) (iov : List Bytes) :
    (shared (mogTrywritev fuel iov)).Within Digests fun _ => True :=
  within_embed (mogTrywritev_sure (fun _ => ⟨trivial, rfl⟩) fuel iov).within

/-- What `mog_tryflush` says of the buffer that it leaves. -/
def FlushedBuffer (result : WrState × Wbuf) : Prop :=
  (result.1 = .done → result.2 = .null) ∧ (result.1 = .busy → result.2 ≠ .null)

theorem tryflush_digests (fuel : Nat) (buf : Bytes) (off : Nat) :
    (shared (mogTryflush fuel buf off)).Within Digests FlushedBuffer := by
  refine within_embed ?_
  induction fuel generalizing off with
  | zero => trivial
  | succ fuel ih =>
    refine within_ask_bind ⟨trivial, rfl⟩ fun answer => ?_
    split
    · split
      · exact ⟨fun _ => rfl, nofun⟩
      · exact ih _
    · exact ⟨nofun, fun _ => nofun⟩
    · exact ih _
    · exact ⟨nofun, nofun⟩

theorem writev_digests (fuel : Nat) (mgmt : Mgmt) (iov : List Bytes) :
    (mogMgmtWritev fuel mgmt iov).Within Digests
      fun mgmt' => mgmt'.forward = mgmt.forward ∧ mgmt'.prio = mgmt.prio :=
  within_require_bind fun _ => within_ask_bind ⟨trivial, rfl⟩ fun _ =>
    (trywritev_digests fuel iov).bind fun _ _ => ⟨rfl, rfl⟩

theorem getPath_digests (fuel : Nat) (mgmt : Mgmt) (buf : Bytes) :
    (getPath fuel mgmt buf).Within Digests fun
      | .ok _ => True
      | .error mgmt' => mgmt'.forward = mgmt.forward ∧ mgmt'.prio = mgmt.prio := by
  unfold getPath
  split
  · trivial
  · exact (writev_digests fuel mgmt _).bind fun _ h => h

/-- A watcher has nothing to be written. -/
def Watches (mgmt : Mgmt) : Prop := mgmt.forward = .iostat → mgmt.wbuf = .null

theorem plain_of_digests {p : MgmtIo α} {Q R : α → Prop} (h : p.Within Digests Q)
    (hvalue : ∀ value, Q value → R value) : p.Within Plain R :=
  h.mono (fun _ h => h.1) hvalue

/-- A command leaves the priority alone, and only one of them makes a watcher. -/
theorem mgmtAction_plain (hforward : mgmt.forward = .none) (hnull : mgmt.wbuf = .null) (buf : Bytes)
    (fn : MgmtFn) : (mgmtAction fuel mgmt buf fn).Within Plain fun mgmt' =>
      Watches mgmt' ∧ mgmt'.prio = mgmt.prio := by
  have hsame : ∀ mgmt' : Mgmt, mgmt'.forward = mgmt.forward ∧ mgmt'.prio = mgmt.prio →
      Watches mgmt' ∧ mgmt'.prio = mgmt.prio := by
    rintro mgmt' ⟨hsame, hprio⟩
    refine ⟨fun hiostat => ?_, hprio⟩
    rw [hsame, hforward] at hiostat
    cases hiostat
  have hwritev : ∀ iov, (mogMgmtWritev fuel mgmt iov).Within Plain fun mgmt' =>
      Watches mgmt' ∧ mgmt'.prio = mgmt.prio := fun iov =>
    plain_of_digests (writev_digests fuel mgmt iov) hsame
  have hpath : (getPath fuel mgmt buf).Within Plain fun
      | .ok _ => True
      | .error mgmt' => Watches mgmt' ∧ mgmt'.prio = mgmt.prio :=
    plain_of_digests (getPath_digests fuel mgmt buf) fun result h => by
      cases result with
      | ok _ => trivial
      | error mgmt' => exact hsame mgmt' h
  cases fn with
  | blank => exact hwritev _
  | size =>
    refine hpath.bind fun result hresult => ?_
    cases result with
    | error mgmt' => exact hresult
    | ok path =>
      refine within_ask_bind trivial fun answer => ?_
      split <;> exact hwritev _
  | digest =>
    refine hpath.bind fun result hresult => ?_
    cases result with
    | error mgmt' => exact hresult
    | ok path =>
      refine (within_embed (within_of_forall (fun _ => trivial) _)).bind fun file _ => ?_
      split
      · exact ⟨nofun, rfl⟩
      · exact hwritev _
  | watch => exact ⟨fun _ => hnull, rfl⟩
  | aioThreads =>
    refine within_require_bind fun _ => within_require_bind fun _ => ?_
    dsimp only
    split
    · exact within_ask_bind trivial fun _ => hwritev _
    · exact hwritev _
  | shutdown => exact within_ask_bind trivial fun _ => hsame mgmt ⟨rfl, rfl⟩
  | unknown => exact hwritev _

/-- A watcher that nobody writes to is in the list of the subscribers, and not stepped. -/
def Mgmt.Awake (mgmt : Mgmt) : Prop := mgmt.forward = .iostat → mgmt.wbuf ≠ .null

/-- Where `mgmt_queue_step` has come to with a client of the given priority. -/
structure MgmtStepped (accepting : Bool) (prio : Prio) (result : Mgmt × MgmtNext) : Prop where
  awake : result.2 ≠ .close → result.2 ≠ .ignore → result.1.Awake
  waits : result.2 = .waitRd → result.1.wbuf = .null
  /-- only a watcher is ignored when there is no fsck queue -/
  ignored : result.2 = .ignore → prio = .none →
    result.1.forward = .iostat ∧ result.1.wbuf = .null ∧ result.1.rbuf = none
  /-- and nobody gets into one while nobody listens -/
  prio : accepting = false → prio = .none → result.1.prio = .none

/-- The client is still the thread's, unless it is to be ignored. -/
def Returned (accepting : Bool) (prio : Prio) (result : Mgmt × MgmtNext) (own : Own) : Prop :=
  MgmtStepped accepting prio result ∧ own = if result.2 = .ignore then .gone else .idle

/-- The step ends with a client that has no watch. -/
theorem Returned.of_forward (hforward : mgmt.forward ≠ .iostat)
    (hprio : accepting = false → prio = .none → mgmt.prio = .none) :
    Returned accepting prio (mgmt, .ofWbuf mgmt.wbuf) .idle := by
  have hnext : MgmtNext.ofWbuf mgmt.wbuf ≠ .waitRd ∧ MgmtNext.ofWbuf mgmt.wbuf ≠ .ignore := by
    cases mgmt.wbuf <;> exact ⟨nofun, nofun⟩
  refine ⟨⟨fun _ _ hiostat => absurd hiostat hforward, fun hwaits => absurd hwaits hnext.1,
    fun hignored => absurd hignored hnext.2, hprio⟩, ?_⟩
  exact (if_neg hnext.2).symm

theorem Returned.closed (hprio : accepting = false → prio = .none → mgmt.prio = .none) :
    Returned accepting prio (mgmt, .close) .idle :=
  ⟨⟨fun hne => absurd rfl hne, nofun, nofun, hprio⟩, rfl⟩

theorem own_mgmtIostatForever (hforward : mgmt.forward = .iostat) (hnull : mgmt.wbuf = .null)
    (hprio : accepting = false → prio = .none → mgmt.prio = .none) :
    wp ownContract (mgmtIostatForever mgmt) (Returned accepting prio) .idle := by
  refine wp_ask_bind (Or.inl rfl) fun _ _ => wp_ask_bind ⟨rfl, ?_, hforward⟩ fun _ _ => ?_
  · show (decide (mgmt.wbuf = .null) && decide (none = none)) = true
    rw [hnull]
    rfl
  · refine wp_ask_bind rfl fun _ _ => ⟨⟨fun _ hne => absurd rfl hne, nofun, fun _ _ => ?_, hprio⟩, rfl⟩
    exact ⟨hforward, hnull, rfl⟩

theorem own_mgmtDone (hwatches : Watches mgmt) (hprio : accepting = false → prio = .none → mgmt.prio = .none)
    (buf : Bytes) : wp ownContract (mgmtDone mgmt buf) (Returned accepting prio) .idle := by
  unfold mgmtDone
  split
  · exact own_mgmtIostatForever ‹_› (hwatches ‹_›) hprio
  · rename_i hiostat
    refine wp_bind.mpr (wp_require_bind (fun _ => trivial) fun _ => ?_)
    have hreset : ∀ mgmt' : Mgmt, mgmt'.forward = mgmt.forward → mgmt'.prio = mgmt.prio → wp ownContract (do
        let mgmt := mogMgmtResetParser mgmt'
        require (mgmt.wbuf ≠ .error)
        pure (mgmt, MgmtNext.ofWbuf mgmt.wbuf)) (Returned accepting prio) .idle := by
      intro mgmt' hforward hsame
      refine wp_require_bind (fun _ => trivial) fun _ => .of_forward ?_ fun haccepting hnone =>
        hsame.trans (hprio haccepting hnone)
      show mgmt'.forward ≠ .iostat
      rw [hforward]
      exact hiostat
    dsimp only
    split <;> exact hreset _ rfl rfl

theorem mgmtExec_prio (fields : MgmtFields) (buf : Bytes) (pos : Nat) :
    (mgmtExec false fields buf pos).Sat (fun fields' _ => fields'.prio = fields.prio)
      fun fields' _ _ => fields'.prio = fields.prio := by
  refine exec_sat (fun fields' pos c hprio _ => ?_) _ _ _ rfl
  unfold mgmtStep mgmtMove
  dsimp only
  split <;> exact hprio

/-- Behind a parse of a client that has nothing else to do. -/
structure ParsedMgmt (accepting : Bool) (prio : Prio) (mgmt' : Mgmt) (state : ParserState) : Prop where
  prio : accepting = false → mgmt'.prio = prio
  watches : Watches mgmt'
  idle : state ≠ .done → mgmt'.forward = .none

theorem own_mogMgmtParse (ctx : MgmtCtx) (fuel : Nat) (hforward : mgmt.forward = .none)
    (hsame : ctx.accepting = false → mgmt.prio = prio) (buf : Bytes) :
    wp ownContract (mogMgmtParse ctx fuel mgmt buf)
      (fun result own => ParsedMgmt ctx.accepting prio result.2 result.1 ∧ own = .idle) .idle := by
  refine wp_require_bind (fun _ => trivial) fun hnull => wp_require_bind (fun _ => trivial) fun _ => ?_
  have hnull := of_decide_eq_true hnull
  have hprio : ctx.accepting = false →
      (mgmtExec ctx.accepting mgmt.toMgmtFields buf mgmt.offset).Sat (fun fields' _ => fields'.prio = prio)
        fun fields' _ _ => fields'.prio = prio := by
    intro haccepting
    rw [haccepting, ← hsame haccepting]
    exact mgmtExec_prio _ _ _
  split <;> rename_i hexec
  · rw [hexec] at hprio
    exact ⟨⟨hprio, fun _ => hnull, fun _ => hforward⟩, rfl⟩
  · rw [hexec] at hprio
    exact ⟨⟨hprio, fun _ => hnull, fun _ => hforward⟩, rfl⟩
  · rw [hexec] at hprio
    refine wp_ask_bind trivial fun _ _ => wp_bind.mpr (wp_mono (wp_plain (mgmtAction_plain ?_ ?_ _ _)) ?_)
    · exact hforward
    · exact hnull
    · rintro mgmt' own ⟨⟨hwatches, hprio'⟩, rfl⟩
      exact ⟨⟨fun haccepting => hprio'.trans (hprio haccepting), hwatches, fun hne => absurd rfl hne⟩, rfl⟩
  · trivial
  · trivial

/-- Behind a parse the step is over or more is read. -/
def ParsedOwn (accepting : Bool) (prio : Prio) : MgmtParse → Own → Prop
  | .out mgmt next, own => Returned accepting prio (mgmt, next) own
  | .reread mgmt _, own => own = .idle ∧ mgmt.forward = .none ∧ mgmt.wbuf = .null ∧
      (accepting = false → mgmt.prio = prio)

theorem own_mgmtParseBuf (ctx : MgmtCtx) (fuel : Nat) (hforward : mgmt.forward = .none)
    (hsame : ctx.accepting = false → mgmt.prio = prio) (buf : Bytes) :
    wp ownContract (mgmtParseBuf ctx fuel mgmt buf) (ParsedOwn ctx.accepting prio) .idle := by
  refine wp_bind.mpr (wp_mono (own_mogMgmtParse ctx fuel hforward hsame buf) ?_)
  rintro ⟨state, mgmt'⟩ own ⟨⟨hprio, hwatches, hidle⟩, rfl⟩
  have hnone : ctx.accepting = false → prio = .none → mgmt'.prio = .none := fun haccepting hnone =>
    (hprio haccepting).trans hnone
  dsimp only
  split
  · exact Returned.closed hnone
  · cases state with
    | error => exact Returned.closed hnone
    | «continue» =>
      refine wp_require_bind (fun _ => trivial) fun hnull => ?_
      split
      · exact wp_require_bind (fun _ => trivial) fun _ => Returned.closed hnone
      · exact ⟨rfl, hidle nofun, of_decide_eq_true hnull, hprio⟩
    | done => exact wp_bind.mpr (wp_mono (own_mgmtDone hwatches hnone buf) fun _ _ h => h)

theorem own_mgmtReread (ctx : MgmtCtx) (fuel : Nat) (hforward : mgmt.forward = .none)
    (hnull : mgmt.wbuf = .null) (hsame : ctx.accepting = false → mgmt.prio = prio) (buf : Bytes) :
    wp ownContract (mgmtReread ctx fuel mgmt buf) (Returned ctx.accepting prio) .idle := by
  induction fuel generalizing mgmt buf with
  | zero => trivial
  | succ fuel ih =>
    have hnone : ctx.accepting = false → prio = .none → mgmt.prio = .none := fun haccepting hnone =>
      (hsame haccepting).trans hnone
    have hwaits : ∀ rbuf, Returned ctx.accepting prio ({ mgmt with rbuf := rbuf }, .waitRd) .idle := by
      refine fun rbuf => ⟨⟨fun _ _ hiostat => ?_, fun _ => hnull, nofun, hnone⟩, rfl⟩
      rw [show mgmt.forward = .iostat from hiostat] at hforward
      cases hforward
    refine wp_ask_bind (Or.inl rfl) fun answer _ => ?_
    show wp ownContract _ _ Own.idle
    split
    · split
      · exact Returned.closed hnone
      · refine wp_bind.mpr (wp_mono (own_mgmtParseBuf ctx fuel hforward hsame _) ?_)
        rintro (⟨mgmt', next⟩ | ⟨mgmt', buf'⟩) own hparsed
        · exact hparsed
        · obtain ⟨rfl, hforward', hnull', hsame'⟩ := hparsed
          exact ih hforward' hnull' hsame' _
    · split
      · exact hwaits _
      · exact hwaits mgmt.rbuf
    · exact ih hforward hnull hsame _
    · exact Returned.closed hnone

theorem digestRead_digests (rounds : Nat) (file : MogFile) :
    (mogDigestRead rounds file).Within Digests fun _ => True := by
  induction rounds generalizing file with
  | zero => trivial
  | succ rounds ih =>
    refine within_ask_bind ⟨trivial, rfl⟩ fun answer => ?_
    split
    · split
      · exact ih _
      · trivial
    · exact ih _
    · trivial

theorem digestWhole_digests (fuel : Nat) (file : MogFile) :
    (digestWhole fuel file).Within Digests fun result => result.1 ≠ .continue := by
  induction fuel generalizing file with
  | zero => trivial
  | succ fuel ih =>
    refine (digestRead_digests digestRounds file).bind fun result _ => ?_
    split
    · exact ih _
    · rename_i hnot
      exact fun heq => hnot result.2 (by rw [← heq])

theorem digestReadSome_digests (fuel : Nat) (prio : Prio) (file : MogFile) :
    (digestReadSome fuel prio file).Within Digests fun result => prio = .fsck → result.1 ≠ .continue := by
  cases prio with
  | none => exact (digestRead_digests digestRounds file).imp fun _ _ => nofun
  | fsck =>
    refine within_ask_bind ⟨trivial, rfl⟩ fun ioprio => (digestWhole_digests fuel file).bind fun result hdone => ?_
    split
    · exact within_ask_bind ⟨trivial, rfl⟩ fun _ _ => hdone
    · exact fun _ => hdone

/-- The reply at the end of a digest. -/
theorem digestReply_digests (ctx : MgmtCtx) (fuel : Nat) (mgmt : Mgmt) (file : MogFile) :
    (mogMgmtFnDigestEmit ctx fuel mgmt file).Within Digests (fun mgmt' => mgmt'.prio = mgmt.prio) ∧
    (mogMgmtFnDigestErr fuel mgmt file).Within Digests (fun mgmt' => mgmt'.prio = mgmt.prio) :=
  ⟨(writev_digests fuel mgmt _).imp fun _ h => h.2,
    within_ask_bind ⟨trivial, rfl⟩ fun _ => (writev_digests fuel mgmt _).imp fun _ h => h.2⟩

/-- **A digest of low priority that has started gives its turn back**, in the same step. -/
theorem own_mgmtDigestStep_fsck (ctx : MgmtCtx) (fuel : Nat) (hprio : mgmt.prio = .fsck) (file : MogFile) :
    wp ownContract (mgmtDigestStep ctx fuel mgmt file)
      (fun mgmt' own => mgmt'.forward ≠ .iostat ∧ own = .idle) .digesting := by
  have hdone : ∀ mgmt' file, mgmt'.prio = mgmt.prio →
      wp ownContract (digestDone mgmt' file) (fun mgmt' own => mgmt'.forward ≠ .iostat ∧ own = .idle)
        .digesting := by
    intro mgmt' file hsame
    unfold digestDone
    rw [if_pos (hsame.trans hprio)]
    exact wp_ask_bind rfl fun _ _ => wp_ask_bind (Or.inl rfl) fun _ _ => ⟨nofun, rfl⟩
  obtain ⟨hemit, herr⟩ : (∀ file, (mogMgmtFnDigestEmit ctx fuel mgmt file).Within Digests _) ∧
      ∀ file, (mogMgmtFnDigestErr fuel mgmt file).Within Digests _ :=
    ⟨fun file => (digestReply_digests ctx fuel mgmt file).1,
      fun file => (digestReply_digests ctx fuel mgmt file).2⟩
  refine wp_bind.mpr (wp_mono (wp_digests (digestReadSome_digests fuel mgmt.prio file)) ?_)
  rintro ⟨next, file'⟩ own ⟨hnext, rfl⟩
  refine wp_require_bind (fun _ => trivial) fun _ => ?_
  cases next with
  | «continue» => exact absurd rfl (hnext hprio)
  | eof =>
    refine wp_bind.mpr (wp_mono (wp_digests (hemit file')) ?_)
    rintro mgmt' own ⟨hsame, rfl⟩
    exact hdone mgmt' file' hsame
  | error =>
    refine wp_bind.mpr (wp_mono (wp_digests (herr file')) ?_)
    rintro mgmt' own ⟨hsame, rfl⟩
    exact hdone mgmt' file' hsame

theorem mgmtDigestStep_plain (ctx : MgmtCtx) (fuel : Nat) (hprio : mgmt.prio = .none) (file : MogFile) :
    (mgmtDigestStep ctx fuel mgmt file).Within Plain fun mgmt' =>
      mgmt'.forward ≠ .iostat ∧ mgmt'.prio = .none := by
  have hdone : ∀ mgmt' file, mgmt'.prio = mgmt.prio → (digestDone mgmt' file).Within Plain fun mgmt' =>
      mgmt'.forward ≠ .iostat ∧ mgmt'.prio = .none := by
    intro mgmt' file hsame
    unfold digestDone
    rw [if_neg (by rw [hsame, hprio]; nofun)]
    exact within_ask_bind trivial fun _ => ⟨nofun, rfl⟩
  refine (plain_of_digests (digestReadSome_digests fuel mgmt.prio file) fun _ _ => trivial).bind ?_
  rintro ⟨next, file'⟩ -
  obtain ⟨hemit, herr⟩ := digestReply_digests ctx fuel mgmt file'
  refine within_require_bind fun _ => ?_
  cases next with
  | «continue» => exact ⟨nofun, hprio⟩
  | eof => exact (plain_of_digests hemit fun _ h => h).bind fun mgmt' hsame => hdone mgmt' file' hsame
  | error => exact (plain_of_digests herr fun _ h => h).bind fun mgmt' hsame => hdone mgmt' file' hsame

theorem own_mgmtDigestInProgress (ctx : MgmtCtx) (fuel : Nat) (hnull : mgmt.wbuf = .null) :
    wp ownContract (mgmtDigestInProgress ctx fuel mgmt) (Returned accepting mgmt.prio)
      (if mgmt.due then .due else .idle) := by
  unfold mgmtDigestInProgress
  cases hforward : mgmt.forward with
  | none => trivial
  | iostat => trivial
  | file file =>
    dsimp only
    cases hprio : mgmt.prio with
    | none =>
      rw [if_neg (by simp [Mgmt.due, hforward, hprio])]
      refine wp_bind.mpr (wp_mono (wp_plain (mgmtDigestStep_plain ctx fuel hprio file)) ?_)
      rintro mgmt' own ⟨⟨hforward', hprio'⟩, rfl⟩
      exact .of_forward hforward' fun _ _ => hprio'
    | fsck =>
      rw [if_pos (by simp [Mgmt.due, hforward, hprio, hnull])]
      refine wp_ask_bind rfl fun now _ => ?_
      cases now with
      | false => exact ⟨⟨fun _ hne => absurd rfl hne, nofun, nofun, nofun⟩, rfl⟩
      | true =>
        refine wp_bind.mpr (wp_mono (own_mgmtDigestStep_fsck ctx fuel hprio file) ?_)
        rintro mgmt' own ⟨hforward', rfl⟩
        exact .of_forward hforward' nofun

theorem own_mgmtQueueStep (ctx : MgmtCtx) (fuel : Nat) (mgmt : Mgmt) :
    wp ownContract (mgmtQueueStep ctx fuel mgmt) (Returned ctx.accepting mgmt.prio)
      (if mgmt.due then .due else .idle) := by
  unfold mgmtQueueStep
  split
  · rename_i hbusy
    rw [if_neg (by unfold Mgmt.due; split <;> simp [hbusy])]
    unfold mgmtWbufInProgress
    split
    · trivial
    · trivial
    · refine wp_bind.mpr (wp_mono (wp_plain (plain_of_digests (tryflush_digests fuel _ _) fun _ h => h)) ?_)
      rintro ⟨state, wbuf⟩ own ⟨⟨hdone, hbusy⟩, rfl⟩
      dsimp only
      cases state with
      | err => exact .closed fun _ hprio => hprio
      | busy => exact ⟨⟨fun _ _ _ => hbusy rfl, nofun, nofun, fun _ hprio => hprio⟩, rfl⟩
      | done =>
        dsimp only
        split
        · exact own_mgmtIostatForever ‹_› (hdone rfl) fun _ hprio => hprio
        · rename_i hforward
          exact ⟨⟨fun _ _ hiostat => absurd hiostat hforward, nofun, nofun, fun _ hprio => hprio⟩, rfl⟩
  · rename_i hnull
    have hnull := not_not.mp hnull
    split
    · exact own_mgmtDigestInProgress ctx fuel hnull
    · rename_i hnone
      have hnone := not_not.mp hnone
      rw [if_neg (by simp [Mgmt.due, hnone])]
      refine wp_require_bind (fun _ => trivial) fun _ => ?_
      split
      · exact own_mgmtReread ctx fuel hnone hnull (fun _ => rfl) _
      · split
        · refine wp_bind.mpr (wp_mono (own_mgmtParseBuf ctx fuel hnone (fun _ => rfl) _) ?_)
          rintro (⟨mgmt', next⟩ | ⟨mgmt', buf'⟩) own hparsed
          · exact hparsed
          · obtain ⟨rfl, hforward', hnull', hsame'⟩ := hparsed
            exact own_mgmtReread ctx fuel hforward' hnull' hsame' _
        · exact own_mgmtReread ctx fuel hnone hnull (fun _ => rfl) _

/-- **One step of a management client.** -/
theorem own_mogMgmtQueueStep (ctx : MgmtCtx) (fuel : Nat) (mgmt : Mgmt) :
    wp ownContract (mogMgmtQueueStep ctx fuel mgmt)
      (fun result own => MgmtStepped ctx.accepting mgmt.prio result ∧
        own = if result.2 = .ignore ∨ result.2 = .close then .gone else .idle)
      (if mgmt.due then .due else .idle) := by
  refine wp_bind.mpr (wp_mono (own_mgmtQueueStep ctx fuel mgmt) ?_)
  rintro ⟨mgmt', next⟩ own ⟨hstepped, hown⟩
  refine wp_ask_bind trivial fun _ _ => ?_
  show wp ownContract _ _ own
  rw [hown]
  split
  · rename_i hclose
    obtain rfl : next = .close := hclose
    exact wp_bind.mpr (wp_require_bind (fun _ => trivial) fun _ => ⟨rfl, fun _ _ => ⟨hstepped, rfl⟩⟩)
  · rename_i hopen
    refine ⟨hstepped, ?_⟩
    by_cases hignore : next = .ignore
    · subst hignore
      rfl
    · show (if next = .ignore then Own.gone else .idle) = _
      rw [if_neg hignore, if_neg (not_or.mpr ⟨hignore, hopen⟩)]

end Own

/-! ### Steps of a thread -/

/-- What the thread holds while its client is so far. -/
def Own.Grips (mfd : Client) (own : Own) (grip : Grip) : Prop :=
  grip.listing = none ∧
    match own with
    | .due => grip.held = [mfd] ∧ grip.turn = some (mfd, .due)
    | .idle => grip.held = [mfd] ∧ grip.turn = some (mfd, .idle)
    | .digesting => grip.held = [mfd] ∧ ∃ slot, grip.turn = some (mfd, .digesting slot)
    | .bared => grip.held = [mfd] ∧ grip.turn = some (mfd, .saved true)
    | .gone => grip.held = [] ∧ grip.turn = none

section Grips

variable {mfd : Client} {grip : Grip}

theorem Grip.drop_last {phase : TurnPhase} (hheld : grip.held = [mfd]) (hturn : grip.turn = some (mfd, phase)) :
    (grip.drop mfd).held = [] ∧ (grip.drop mfd).turn = none := by
  simp [Grip.drop, hheld, hturn]

theorem Own.Grips.gone {phase : TurnPhase} (hlisting : grip.listing = none) (hheld : grip.held = [mfd])
    (hturn : grip.turn = some (mfd, phase)) : Own.gone.Grips mfd (grip.drop mfd) :=
  ⟨hlisting, Grip.drop_last hheld hturn⟩

theorem wp_mogFsckQueueReady (fd : Fd) (h : Own.due.Grips mfd grip) :
    wp gripContract (mogFsckQueueReady mfd fd)
      (fun now grip' => (if now then Own.digesting else .gone).Grips mfd grip') grip := by
  obtain ⟨hlisting, hheld, hturn⟩ := h
  have hmem : mfd ∈ grip.held := by rw [hheld]; exact mem_singleton_self mfd
  refine wp_ask_bind ⟨hmem, hturn⟩ fun answer _ => ?_
  cases answer with
  | none => exact ⟨hlisting, hheld, none, rfl⟩
  | some dev =>
    refine ⟨⟨hmem, rfl⟩, fun now _ => ?_⟩
    cases now with
    | true => exact ⟨hlisting, hheld, some dev, rfl⟩
    | false => exact Own.Grips.gone hlisting hheld rfl

theorem wp_mogFsckQueueNext (fd : Fd) (h : Own.digesting.Grips mfd grip) :
    wp gripContract (mogFsckQueueNext mfd fd) (fun _ grip' => Own.idle.Grips mfd grip') grip := by
  obtain ⟨hlisting, hheld, slot, hturn⟩ := h
  have hmem : mfd ∈ grip.held := by rw [hheld]; exact mem_singleton_self mfd
  refine wp_ask_bind ⟨hmem, slot, hturn⟩ fun answer _ => ?_
  cases answer with
  | none => exact ⟨hlisting, hheld, rfl⟩
  | some dev =>
    refine wp_ask_bind ⟨hmem, rfl⟩ fun nextMfd hmay => ?_
    cases nextMfd with
    | none => exact ⟨hlisting, hheld, rfl⟩
    | some nextMfd =>
      have hne : nextMfd ≠ mfd := by
        rintro rfl
        exact hmay hmem
      refine wp_ask_bind (Or.inl (mem_cons_self ..)) fun conn _ => ?_
      have hpush : ∀ grip' : Grip, grip'.held = [nextMfd, mfd] → grip'.turn = some (mfd, .idle) →
          grip'.listing = none →
          wp gripContract (serverSys (.activeqPush nextMfd)) (fun _ grip' => Own.idle.Grips mfd grip')
            grip' := by
        intro grip' hheld' hturn' hlisting'
        refine ⟨⟨by rw [hheld']; exact mem_cons_self .., fun phase hphase => ?_⟩, fun _ _ => ?_⟩
        · rw [hturn'] at hphase
          cases hphase
          exact absurd rfl hne
        · refine ⟨hlisting', ?_, ?_⟩
          · show grip'.held.erase nextMfd = [mfd]
            rw [hheld', erase_cons_head]
          · show grip'.turn.filter _ = some (mfd, .idle)
            rw [hturn']
            simp [hne.symm]
      cases conn with
      | http fdType http => trivial
      | mgmt nextMgmt =>
        exact wp_require_bind (fun _ => trivial) fun _ =>
          hpush _ (by rw [← hheld]; rfl) rfl hlisting

/-- The calls of a management client, as its thread makes them. -/
theorem wp_mgmtHandler {own : Own} (request : MgmtCall) (h : own.Grips mfd grip) (hmust : own.must request) :
    wp gripContract (mgmtHandler mfd request)
      (fun answer grip' => True ∧ (own.next request answer).Grips mfd grip') grip := by
  have hplain : Plain request → own = .idle ∨ (opensFile request = false ∧ own = .digesting) →
      wp gripContract (serverSys (.mgmt mfd request))
        (fun answer grip' => True ∧ (own.next request answer).Grips mfd grip') grip := by
    intro hplain hown
    have hnext : ∀ answer, True ∧ (own.next request answer).Grips mfd grip := fun answer => by
      rw [hplain.next own answer]
      exact ⟨trivial, h⟩
    rcases hown with rfl | ⟨hopens, rfl⟩
    · obtain ⟨-, hheld, hturn⟩ := h
      refine ⟨⟨by rw [hheld]; exact mem_singleton_self mfd, Or.inl hturn⟩, fun answer _ => hnext answer⟩
    · obtain ⟨-, hheld, slot, hturn⟩ := h
      exact ⟨⟨by rw [hheld]; exact mem_singleton_self mfd, Or.inr ⟨hopens, slot, hturn⟩⟩,
        fun answer _ => hnext answer⟩
  cases request with
  | fsckQueueReady fd =>
    obtain rfl : own = .due := hmust
    refine wp_mono (wp_mogFsckQueueReady fd h) fun now grip' hgrip => ⟨trivial, ?_⟩
    cases now <;> exact hgrip
  | fsckQueueNext fd =>
    obtain rfl : own = .digesting := hmust
    exact wp_mono (wp_mogFsckQueueNext fd h) fun _ grip' hgrip => ⟨trivial, hgrip⟩
  | subscribing mgmt =>
    obtain ⟨rfl, hbare, -⟩ := hmust
    obtain ⟨hlisting, hheld, hturn⟩ := h
    refine ⟨⟨by rw [hheld]; exact mem_singleton_self mfd, Or.inl hturn⟩, fun _ _ => ⟨trivial, ?_⟩⟩
    exact ⟨hlisting, hheld, congrArg (fun bare => some (mfd, TurnPhase.saved bare)) hbare⟩
  | devstatsSubscribe =>
    obtain rfl : own = .bared := hmust
    obtain ⟨hlisting, hheld, hturn⟩ := h
    exact ⟨⟨by rw [hheld]; exact mem_singleton_self mfd, hturn⟩, fun _ _ =>
      ⟨trivial, Own.Grips.gone hlisting hheld hturn⟩⟩
  | closed mgmt =>
    obtain rfl : own = .idle := hmust
    obtain ⟨hlisting, hheld, hturn⟩ := h
    exact ⟨⟨by rw [hheld]; exact mem_singleton_self mfd, Or.inl hturn⟩, fun _ _ =>
      ⟨trivial, Own.Grips.gone hlisting hheld hturn⟩⟩
  | command _ => exact ⟨trivial, h⟩
  | reply _ => exact ⟨trivial, h⟩
  | stepped _ _ => exact ⟨trivial, h⟩
  | _ => exact hplain trivial hmust

/-! ### Steps of a connection -/

/-- The same for an HTTP client, which nobody else ever gets. -/
def Own.httpMust (own : Own) : Call → Prop
  | .note (.closed _) => own = .idle
  | .note _ => True
  | _ => own = .idle

def Own.httpNext (own : Own) : (request : Call) → Res request → Own
  | .note (.closed _), _ => .gone
  | _, _ => own

def httpOwnContract : Contract Call Res Own where
  must := Own.httpMust
  may _ _ _ := True
  next := Own.httpNext
  excused _ := True

theorem own_mogHttpQueueStep (ctx : Ctx) (fuel : Nat) (http : Http) :
    wp httpOwnContract (mogHttpQueueStep ctx fuel http)
      (fun result own => own = if result.2 = .close then .gone else .idle) .idle := by
  have hstep : wp httpOwnContract (httpQueueStep ctx fuel http) (fun result own => HttpWaits result ∧ own = .idle)
      .idle := by
    refine wp_within (J := fun own => own = Own.idle) (fun own request hown hcall => ?_) (fun _ _ => trivial)
      (httpQueueStep_step ctx fuel http) rfl
    subst hown
    cases request with
    | note event =>
      cases event with
      | closed _ => exact hcall.elim
      | _ => exact ⟨trivial, fun _ _ => rfl⟩
    | _ => exact ⟨rfl, fun _ _ => rfl⟩
  refine wp_bind.mpr (wp_mono hstep ?_)
  rintro ⟨http', next⟩ own ⟨-, rfl⟩
  refine wp_ask_bind trivial fun _ _ => ?_
  show wp httpOwnContract _ _ Own.idle
  split
  · rename_i hclose
    obtain rfl : next = .close := hclose
    exact wp_bind.mpr (wp_require_bind (fun _ => trivial) fun _ => ⟨rfl, fun _ _ => rfl⟩)
  · rename_i hopen
    exact (if_neg hopen).symm

theorem wp_httpHandler {own : Own} (request : Call) (h : own.Grips mfd grip) (hmust : own.httpMust request) :
    wp gripContract (httpHandler mfd request)
      (fun answer grip' => True ∧ (own.httpNext request answer).Grips mfd grip') grip := by
  have hidle : own = .idle → mfd ∈ grip.held ∧ grip.turn = some (mfd, .idle) := by
    rintro rfl
    exact ⟨by rw [h.2.1]; exact mem_singleton_self mfd, h.2.2⟩
  cases request with
  | note event =>
    cases event with
    | closed http =>
      obtain ⟨hmem, hturn⟩ := hidle hmust
      obtain rfl : own = .idle := hmust
      exact ⟨⟨hmem, Or.inl hturn⟩, fun _ _ => ⟨trivial, Own.Grips.gone h.1 h.2.1 hturn⟩⟩
    | _ => exact ⟨trivial, h⟩
  | _ => exact ⟨hidle hmust, fun _ _ => ⟨trivial, h⟩⟩

/-! ### Threads -/

/-- Between two steps the thread holds nothing but the client it goes on with. -/
structure Grip.Loop (grip : Grip) (mfd : Option Client) : Prop where
  held : grip.held = mfd.toList
  still : grip.Still
  listing : grip.listing = none

theorem Grip.Loop.empty (h : grip.Loop none) : grip.Empty := ⟨h.held, h.still, h.listing⟩

theorem Grip.Loop.free (h : grip.Loop (some mfd)) : grip.Free mfd :=
  ⟨by rw [h.held]; exact mem_singleton_self mfd, fun phase hturn => h.still mfd phase hturn⟩

theorem Grip.Loop.dropped (h : grip.Loop (some mfd)) : (grip.drop mfd).Loop none where
  held := by
    show grip.held.erase mfd = []
    rw [h.held]
    simp
  still other phase hturn := by
    obtain ⟨hturn, -⟩ := Option.filter_eq_some_iff.mp hturn
    exact h.still other phase hturn
  listing := h.listing

/-- Behind a step the client is in the thread's hands unless it was ignored or closed. -/
def SteppedGrip (mfd : Client) (next : MgmtNext) (grip : Grip) : Prop :=
  grip.Loop (if next = .ignore ∨ next = .close then none else some mfd)

theorem wp_saveStepped {own : Own} (conn : Conn) (next : MgmtNext) (h : own.Grips mfd grip)
    (hown : own = if next = .ignore ∨ next = .close then .gone else .idle) :
    wp gripContract (saveStepped mfd conn next) (fun next grip' => SteppedGrip mfd next grip') grip := by
  have hgone : own = .gone → grip.Loop none := by
    rintro rfl
    refine ⟨h.2.1, fun other phase hturn => ?_, h.1⟩
    rw [h.2.2] at hturn
    cases hturn
  have hsave : own = .idle → ∀ next : MgmtNext, ¬ (next = .ignore ∨ next = .close) →
      wp gripContract (do serverSys (.save mfd conn); pure next)
        (fun next grip' => SteppedGrip mfd next grip') grip := by
    rintro rfl next hnext
    refine wp_ask_bind ⟨by rw [h.2.1]; exact mem_singleton_self mfd, Or.inl h.2.2⟩ fun _ _ => ?_
    show Grip.Loop _ _
    rw [if_neg hnext]
    refine ⟨h.2.1, fun other phase hturn => ?_, h.1⟩
    cases hturn
    exact ⟨_, rfl⟩
  cases next with
  | ignore => exact hgone hown
  | close => exact hgone hown
  | active => exact hsave hown _ (by simp)
  | waitRd => exact hsave hown _ (by simp)
  | waitWr => exact hsave hown _ (by simp)

theorem wp_mogQueueStep (ctx : ServerCtx) (fuel : Nat) (h : grip.Loop (some mfd)) :
    wp gripContract (mogQueueStep ctx fuel mfd) (fun next grip' => SteppedGrip mfd next grip') grip := by
  refine wp_ask_bind ⟨by rw [h.held]; exact mem_singleton_self mfd, h.still⟩ fun conn _ => ?_
  cases conn with
  | mgmt mgmt =>
    have hstart : (if mgmt.due then Own.due else .idle).Grips mfd
        (gripContract.next grip (.conn mfd) (.mgmt mgmt)) := by
      have hturn : (gripContract.next grip (.conn mfd) (.mgmt mgmt)).turn
          = some (mfd, if mgmt.due then .due else .idle) := rfl
      cases hdue : mgmt.due with
      | true =>
        rw [hdue] at hturn
        exact ⟨h.listing, h.held, hturn⟩
      | false =>
        rw [hdue] at hturn
        exact ⟨h.listing, h.held, hturn⟩
    refine wp_bind.mpr (wp_mono (wp_interp (R := Own.Grips mfd) (fun own grip request hgrips hmust =>
      wp_mgmtHandler request hgrips hmust) (fun _ _ _ _ => trivial)
      (own_mogMgmtQueueStep ctx.mgmt fuel mgmt) hstart) ?_)
    rintro ⟨mgmt', next⟩ grip' ⟨own, ⟨-, hown⟩, hgrips⟩
    exact wp_saveStepped _ next hgrips hown
  | http fdType http =>
    have hstart : Own.idle.Grips mfd (gripContract.next grip (.conn mfd) (.http fdType http)) :=
      ⟨h.listing, h.held, rfl⟩
    refine wp_bind.mpr (wp_mono (wp_interp (R := Own.Grips mfd) (fun own grip request hgrips hmust =>
      wp_httpHandler request hgrips hmust) (fun _ _ _ _ => trivial)
      (own_mogHttpQueueStep _ fuel http) hstart) ?_)
    rintro ⟨http', next⟩ grip' ⟨own, hown, hgrips⟩
    refine wp_saveStepped _ _ hgrips (hown.trans ?_)
    cases next <;> rfl

/-- A client that comes to a thread between two steps. -/
theorem Grip.Loop.received (h : grip.Loop none) :
    Grip.Loop { grip with held := mfd :: grip.held } (some mfd) where
  held := by
    show mfd :: grip.held = [mfd]
    rw [h.held]
    rfl
  still := h.still
  listing := h.listing

theorem wp_idleqWait (h : grip.Loop none) :
    wp gripContract (serverSys (.idleqWait true)) (fun mfd grip' => grip'.Loop mfd) grip := by
  refine ⟨h.empty, fun answer _ => ?_⟩
  cases answer with
  | none => exact h
  | some mfd => exact h.received

theorem wp_mogQueueXchg (ev : Qev) (h : grip.Loop (some mfd)) :
    wp gripContract (mogQueueXchg mfd ev) (fun mfd grip' => grip'.Loop mfd) grip :=
  wp_ask_bind h.free fun _ _ => wp_idleqWait h.dropped

theorem wp_queueXchgMaybe (h : grip.Loop (some mfd)) :
    wp gripContract (queueXchgMaybe mfd) (fun mfd grip' => grip'.Loop (some mfd)) grip := by
  refine wp_ask_bind h.still fun answer hmay => ?_
  cases answer with
  | none => exact h
  | some recentMfd =>
    have hne : recentMfd ≠ mfd := by
      rintro rfl
      exact hmay h.free.1
    refine wp_ask_bind ⟨mem_cons_of_mem _ h.free.1, h.free.2⟩ fun _ _ => ⟨?_, ?_, h.listing⟩
    · show (recentMfd :: grip.held).erase mfd = [recentMfd]
      rw [h.held]
      simp [hne]
    · intro other phase hturn
      obtain ⟨hturn, -⟩ := Option.filter_eq_some_iff.mp hturn
      exact h.still other phase hturn

/-- **A queue thread** holds its client from the wait to the next re-arm. -/
theorem wp_mogQueueLoop (ctx : ServerCtx) (fuel : Nat) {mfd : Option Client} (h : grip.Loop mfd) :
    wp gripContract (mogQueueLoop ctx fuel mfd) (fun _ _ => True) grip := by
  induction fuel generalizing mfd grip with
  | zero => trivial
  | succ fuel ih =>
    cases mfd with
    | none => exact wp_bind.mpr (wp_mono (wp_idleqWait h) fun mfd grip' hloop => ih hloop)
    | some mfd =>
      refine wp_bind.mpr (wp_mono (wp_mogQueueStep ctx fuel h) fun next grip' hstepped => ?_)
      cases next with
      | active => exact wp_bind.mpr (wp_mono (wp_queueXchgMaybe hstepped) fun _ _ hloop => ih hloop)
      | waitRd => exact wp_bind.mpr (wp_mono (wp_mogQueueXchg .rd hstepped) fun _ _ hloop => ih hloop)
      | waitWr => exact wp_bind.mpr (wp_mono (wp_mogQueueXchg .wr hstepped) fun _ _ hloop => ih hloop)
      | ignore => exact wp_bind.mpr (wp_mono (wp_idleqWait hstepped) fun _ _ hloop => ih hloop)
      | close => exact wp_bind.mpr (wp_mono (wp_idleqWait hstepped) fun _ _ hloop => ih hloop)

/-- **An accept thread** arms a client as soon as it is set up. -/
theorem wp_mogAcceptLoop (svc : Svc) (listener : Listener) (fuel : Nat) (h : grip.Loop none) :
    wp gripContract (mogAcceptLoop svc listener fuel) (fun _ _ => True) grip := by
  induction fuel generalizing grip with
  | zero => trivial
  | succ fuel ih =>
    refine wp_ask_bind h.empty fun answer _ => ?_
    cases answer with
    | none => exact ih h
    | some fd =>
      have hreceived : Grip.Loop { grip with held := fd :: grip.held, fresh := some fd } (some fd) :=
        ⟨h.received.held, h.still, h.listing⟩
      refine wp_bind.mpr (wp_ask_bind ⟨hreceived.free.1, Or.inr ⟨hreceived.still, rfl⟩⟩ fun _ _ => ?_)
      have hsaved : Grip.Loop { grip with
          held := fd :: grip.held, fresh := some fd, turn := some (fd, .saved listener.init.bare) }
          (some fd) :=
        ⟨h.received.held, fun other phase hturn => by cases hturn; exact ⟨_, rfl⟩, h.listing⟩
      exact ⟨hsaved.free, fun _ _ => ih hsaved.dropped⟩

/-- The loop over the subscribers: `rest` is still to be written to. -/
theorem wp_devstatsEach (svc : Svc) (rest : List Client) (hheld : grip.held = []) (hstill : grip.Still)
    (hlisting : grip.listing = some (svc, rest)) :
    wp gripContract (devstatsEach svc rest) (fun _ grip' => grip'.held = [] ∧ grip'.Still ∧
      grip'.listing = some (svc, [])) grip := by
  induction rest generalizing grip with
  | nil => exact ⟨hheld, hstill, hlisting⟩
  | cons mfd rest ih =>
    refine wp_ask_bind (Or.inr ⟨svc, rest, hlisting⟩) fun conn _ => ?_
    cases conn with
    | http fdType http => trivial
    | mgmt mgmt =>
      refine wp_require_bind (fun _ => trivial) fun _ => ?_
      refine wp_ask_bind ⟨rest, hlisting⟩ fun wbuf _ => ?_
      have hlisted : grip.listed = some (svc, rest) := by rw [Grip.listed, hlisting]; rfl
      have herased : (mfd :: grip.held).erase mfd = [] := by rw [hheld]; simp
      have hdropped : ∀ grip' : Grip, grip'.Still → (grip'.drop mfd).Still := by
        intro grip' hstill' other phase hturn
        obtain ⟨hturn, -⟩ := Option.filter_eq_some_iff.mp hturn
        exact hstill' other phase hturn
      cases wbuf with
      | null => exact ih hheld hstill hlisted
      | error =>
        refine wp_ask_bind (Or.inl (mem_cons_self ..)) fun conn _ => ?_
        cases conn with
        | http fdType http => trivial
        | mgmt mgmt =>
          refine wp_require_bind (fun _ => trivial) fun _ => ?_
          refine wp_ask_bind ⟨mem_cons_self .., Or.inr ⟨hstill, rfl⟩⟩ fun _ _ => ?_
          exact ih herased (hdropped _ hstill) hlisted
      | pending buf off =>
        refine wp_ask_bind ⟨mem_cons_self .., fun phase => hstill mfd phase⟩ fun _ _ => ?_
        exact ih herased (hdropped _ hstill) hlisted

theorem wp_broadcastAll (svcs : List Svc) (h : grip.Loop none) :
    wp gripContract (broadcastAll svcs) (fun _ grip' => grip'.Loop none) grip := by
  induction svcs generalizing grip with
  | nil => exact h
  | cons svc svcs ih =>
    refine wp_bind.mpr (wp_ask_bind h.empty fun subscribers _ => ?_)
    refine wp_bind.mpr (wp_mono (wp_devstatsEach svc subscribers h.held h.still rfl) ?_)
    rintro _ grip' ⟨hheld, hstill, hlisting⟩
    exact ⟨hlisting, fun _ _ => ih ⟨hheld, hstill, rfl⟩⟩

/-- **The notify thread** gives back every client whose statistics were blocked. -/
theorem wp_notifyLoop (fuel : Nat) (h : grip.Loop none) :
    wp gripContract (notifyLoop fuel) (fun _ _ => True) grip := by
  induction fuel generalizing grip with
  | zero => trivial
  | succ fuel ih =>
    refine wp_ask_bind h.empty fun svcs _ => ?_
    exact wp_bind.mpr (wp_mono (wp_broadcastAll svcs h) fun _ _ hloop => ih hloop)

theorem loop_start : Grip.start.Loop none := ⟨rfl, nofun, rfl⟩

/-- Every thread of the server keeps the contract. -/
theorem wp_serverThread {ctx : ServerCtx} {p : ServerIo Unit} (h : IsServerThread ctx p) :
    wp gripContract p (fun _ _ => True) .start := by
  rcases h with ⟨fuel, rfl⟩ | ⟨svc, listener, fuel, rfl⟩ | ⟨fuel, rfl⟩
  · exact wp_mogQueueLoop ctx fuel loop_start
  · exact wp_mogAcceptLoop svc listener fuel loop_start
  · exact wp_notifyLoop fuel loop_start

end Grips

end Cmogstored
