import Mathlib.Data.Nat.Count
import Cmogstored.Quit
import Cmogstored.Script
import Cmogstored.ServerStep

/-! The accounts of a graceful shutdown: how many clients are left, and who will be stepped again. -/

namespace Cmogstored

open Prog

/-! ### Counting -/

/-- One less below a bound, where one of them is taken away. -/
theorem count_erase {p q : Nat → Prop} [DecidablePred p] [DecidablePred q] {k bound : Nat} (hk : k < bound)
    (hpk : p k) (hqk : ¬ q k) (hsame : ∀ n, n ≠ k → (q n ↔ p n)) : Nat.count q bound + 1 = Nat.count p bound := by
  induction bound with
  | zero => omega
  | succ bound ih =>
    rw [Nat.count_succ, Nat.count_succ]
    rcases Nat.lt_or_eq_of_le (Nat.le_of_lt_succ hk) with hlt | rfl
    · have hbound : (q bound ↔ p bound) := hsame bound (by omega)
      have hih := ih hlt
      simp only [hbound]
      omega
    · have hbelow : Nat.count q k = Nat.count p k := by
        apply Nat.le_antisymm
        · exact Nat.count_mono_left fun n hn => (hsame n (Nat.ne_of_lt hn)).mp
        · exact Nat.count_mono_left fun n hn => (hsame n (Nat.ne_of_lt hn)).mpr
      simp [hpk, hqk, hbelow]

/-! ### Steps of a client -/

theorem mgmtQueueStep_stepped (ctx : MgmtCtx) (fuel : Nat) (mgmt : Mgmt) :
    (mgmtQueueStep ctx fuel mgmt).Within (fun _ => True) (MgmtStepped ctx.accepting mgmt.prio) :=
  (within_of_wp (fun _ _ _ => trivial) (own_mgmtQueueStep ctx fuel mgmt)).imp fun _ ⟨_, hstepped, _⟩ => hstepped

theorem LiveMgmt.awake {mgmt : Mgmt} (h : LiveMgmt mgmt) : mgmt.Awake := by
  cases h with
  | init => exact nofun
  | step _ hruns hnext =>
    obtain ⟨_, hstepped, -⟩ :=
      (within_of_wp (fun _ _ _ => trivial) (own_mogMgmtQueueStep _ _ _)).value_of_runs hruns
    exact hstepped.awake hnext.1 hnext.2
  | blocked _ _ _ => exact fun _ => nofun

/-! ### What the loop may rely on -/

namespace QuitWorld

/-- The clients that are not closed. -/
def Open (w : QuitWorld) (mfd : Client) : Prop := (w.clients mfd).isSome = true

instance (w : QuitWorld) : DecidablePred w.Open := fun _ => inferInstanceAs (Decidable (_ = true))

/-- How many there are. -/
def nrOpen (w : QuitWorld) (maxFd : Nat) : Nat := Nat.count w.Open maxFd

end QuitWorld

/-- A request is under way. A watcher that is subscribed has been answered. -/
def Conn.InProgress : Conn → Prop
  | .http _ state => state.wbuf ≠ .null ∨ state.rbuf ≠ none ∨ state.forward ≠ none
  | .mgmt state => state.wbuf ≠ .null ∨ state.rbuf ≠ none ∨ ∃ file, state.forward = .file file

/-- What `mgmt_digest_in_progress` asserts, where it is called. -/
def Mgmt.DigestAsserts (mgmt : Mgmt) : Prop :=
  mgmt.wbuf = .null → mgmt.forward ≠ .none → ∃ file, mgmt.forward = .file file

theorem Mgmt.Awake.digestAsserts {mgmt : Mgmt} (h : mgmt.Awake) : mgmt.DigestAsserts := by
  intro hnull hsome
  cases hforward : mgmt.forward with
  | none => exact absurd hforward hsome
  | iostat => exact absurd hnull (h hforward)
  | file file => exact ⟨file, rfl⟩

/-- When a call may be made. -/
def QuitWorld.must (maxFd : Nat) (w : QuitWorld) : QuitCall → Prop
  | .test nr => nr = w.nrOpen maxFd ∧ ∀ mfd, w.Open mfd → w.armed mfd = true
  | .asserts holds => holds = true
  | .idleqWait => ∀ mfd mgmt, w.armed mfd = true → w.clients mfd = some (.mgmt mgmt) → mgmt.DigestAsserts
  | .activeqAdd mfd => w.Open mfd ∧ w.armed mfd = false
  | .idleqPush mfd _ => w.Open mfd ∧ w.armed mfd = false
  | .activeqPush mfd => w.Open mfd ∧ w.armed mfd = false
  | .fdPut mfd => w.armed mfd = false ∧ ∃ conn next, w.clients mfd = some conn ∧
      w.last = some (mfd, conn, next) ∧ (next = .close ∨ ¬ conn.InProgress)
  | _ => True

def quitContract (maxFd : Nat) : Contract QuitCall QuitRes QuitWorld where
  must w request := w.ended = false ∧ w.must maxFd request
  may := QuitWorld.may
  next := QuitWorld.next
  excused _ := True

/-! ### Between two calls -/

/-- What holds of the clients all the time: none is a watcher that should sleep. -/
structure QuitInv (maxFd : Nat) (w : QuitWorld) : Prop where
  bound : ∀ mfd, w.Open mfd → mfd < maxFd
  awake : ∀ mfd mgmt, w.clients mfd = some (.mgmt mgmt) → mgmt.Awake
  going : w.ended = false

/-- At the head of the loop of `mog_fdmap_requeue`, where the descriptors from `fd` on are done. -/
structure Requeueing (maxFd fd nr : Nat) (w : QuitWorld) : Prop extends QuitInv maxFd w where
  nr_eq : nr + w.nrOpen fd = w.nrOpen maxFd
  armed : ∀ mfd, w.armed mfd = true ↔ w.Open mfd ∧ fd ≤ mfd
  prio : ∀ mfd mgmt, w.clients mfd = some (.mgmt mgmt) → fd ≤ mfd → mgmt.prio = .none

/-- Where `mog_queue_quit_loop` has come to; the clients in `out` have been taken out of the queue. -/
structure Quitting (maxFd nr : Nat) (out : Client → Prop) (w : QuitWorld) : Prop extends QuitInv maxFd w where
  nr_eq : nr = w.nrOpen maxFd
  armed : ∀ mfd, w.armed mfd = true ↔ w.Open mfd ∧ ¬ out mfd
  prio : ∀ mfd mgmt, w.clients mfd = some (.mgmt mgmt) → mgmt.prio = .none

theorem Requeueing.quitting {maxFd nr : Nat} {w : QuitWorld} (h : Requeueing maxFd 0 nr w) :
    Quitting maxFd nr (fun _ => False) w where
  toQuitInv := h.toQuitInv
  nr_eq := by simpa [QuitWorld.nrOpen] using h.nr_eq
  armed := by simpa using h.armed
  prio mfd mgmt hclient := h.prio mfd mgmt hclient (Nat.zero_le mfd)

section Steps

variable {maxFd nr fd : Nat} {w : QuitWorld} {mfd : Client} {conn : Conn} {next : MgmtNext}

theorem QuitWorld.nrOpen_le (w : QuitWorld) (maxFd : Nat) : w.nrOpen maxFd ≤ maxFd := Nat.count_le w.Open

/-- A client that is replaced by another state of itself is as open as before. -/
theorem QuitWorld.open_update {clients : Client → Option Conn}
    (hsame : clients = Function.update w.clients mfd (some conn))
    (hopen : w.Open mfd) (other : Client) : (clients other).isSome = true ↔ w.Open other := by
  subst hsame
  by_cases hother : other = mfd
  · subst hother
    simp [hopen]
  · rw [Function.update_of_ne hother]
    rfl

theorem QuitWorld.nrOpen_congr {w' : QuitWorld} (hsame : ∀ mfd, w'.Open mfd ↔ w.Open mfd) (bound : Nat) :
    w'.nrOpen bound = w.nrOpen bound := by
  apply Nat.le_antisymm
  · exact Nat.count_mono_left fun mfd _ => (hsame mfd).mp
  · exact Nat.count_mono_left fun mfd _ => (hsame mfd).mpr

/-- What has to hold of a client that goes back to the queue. -/
def Conn.Queueable : Conn → Prop
  | .mgmt state => state.prio = .none ∧ state.Awake
  | .http _ _ => True

/-- A client goes back to the queue. -/
theorem Quitting.pushed {w' : QuitWorld} (h : Quitting maxFd nr (· = mfd) w) (hopen : w.Open mfd)
    (hqueueable : conn.Queueable) (hclients : w'.clients = Function.update w.clients mfd (some conn))
    (harmed : w'.armed = Function.update w.armed mfd true) (hended : w'.ended = w.ended) :
    Quitting maxFd nr (fun _ => False) w' := by
  have hsame : ∀ other, w'.Open other ↔ w.Open other := QuitWorld.open_update hclients hopen
  have hmgmt : ∀ other mgmt, w'.clients other = some (.mgmt mgmt) → mgmt.prio = .none ∧ mgmt.Awake := by
    intro other mgmt hclient
    rw [hclients] at hclient
    by_cases hother : other = mfd
    · subst hother
      rw [Function.update_self] at hclient
      cases hclient
      exact hqueueable
    · rw [Function.update_of_ne hother] at hclient
      exact ⟨h.prio other mgmt hclient, h.awake other mgmt hclient⟩
  refine ⟨⟨?_, fun other mgmt hclient => (hmgmt other mgmt hclient).2, hended.trans h.going⟩, ?_, ?_,
    fun other mgmt hclient => (hmgmt other mgmt hclient).1⟩
  · intro other hother
    exact h.bound other ((hsame other).mp hother)
  · exact h.nr_eq.trans (QuitWorld.nrOpen_congr hsame maxFd).symm
  · intro other
    rw [hsame, harmed]
    by_cases hother : other = mfd
    · subst hother
      simp [hopen]
    · rw [Function.update_of_ne hother, h.armed]
      simp [hother]

/-- A client is closed, and counted down. -/
theorem Quitting.closed {w' : QuitWorld} (hmax : maxFd ≤ intMax) (h : Quitting maxFd nr (· = mfd) w)
    (hopen : w.Open mfd) (hclients : w'.clients = Function.update w.clients mfd none)
    (harmed : w'.armed = Function.update w.armed mfd false) (hended : w'.ended = w.ended) :
    Quitting maxFd (nrDecrement nr) (fun _ => False) w' := by
  have hgone : ¬ w'.Open mfd := by simp [QuitWorld.Open, hclients]
  have hother : ∀ other, other ≠ mfd → w'.clients other = w.clients other := by
    intro other hne
    rw [hclients, Function.update_of_ne hne]
  have hsame : ∀ other, other ≠ mfd → (w'.Open other ↔ w.Open other) := by
    intro other hne
    unfold QuitWorld.Open
    rw [hother other hne]
  have hne : ∀ {other mgmt}, w'.clients other = some (.mgmt mgmt) → w.clients other = some (.mgmt mgmt) := by
    intro other mgmt hclient
    rw [← hother other fun heq => hgone (by rw [← heq, QuitWorld.Open, hclient]; rfl)]
    exact hclient
  have hless : w'.nrOpen maxFd + 1 = nr :=
    (count_erase (h.bound mfd hopen) hopen hgone hsame).trans h.nr_eq.symm
  refine ⟨⟨?_, fun other mgmt hclient => h.awake other mgmt (hne hclient), hended.trans h.going⟩, ?_, ?_,
    fun other mgmt hclient => h.prio other mgmt (hne hclient)⟩
  · intro other hopen'
    exact h.bound other ((hsame other fun heq => hgone (heq ▸ hopen')).mp hopen')
  · have hle := w'.nrOpen_le maxFd
    rw [← hless, nrDecrement]
    rw [intMax] at hmax
    omega
  · intro other
    rw [harmed]
    by_cases heq : other = mfd
    · subst heq
      simp [hgone]
    · rw [Function.update_of_ne heq, h.armed, hsame other heq]
      simp [heq]

end Steps

/-! ### The steps of a client -/

section Clients

variable {maxFd nr fuel : Nat} {w : QuitWorld} {mfd : Client} {conn : Conn} {next : MgmtNext}

/-- What a step leaves to the loop: the accounts are in order again. -/
def Balanced (maxFd nr : Nat) (w : QuitWorld) : Prop := Quitting maxFd nr (fun _ => False) w

/-- The calls that a client makes in its step. -/
def QuitCall.OfStep : QuitCall → Prop
  | .http _ _ => True
  | .mgmt _ _ => True
  | _ => False

/-- They change nothing here. -/
theorem wp_ofStep {α : Type} {p : QuitIo α} {Q : α → Prop} (hgoing : w.ended = false)
    (h : p.Within QuitCall.OfStep Q) :
    wp (quitContract maxFd) p (fun value w' => Q value ∧ w' = w) w := by
  refine wp_within (J := fun w' => w' = w) ?_ (fun _ _ => trivial) h rfl
  rintro w' request rfl hstep
  cases request with
  | http mfd request => exact ⟨⟨hgoing, trivial⟩, fun _ _ => rfl⟩
  | mgmt mfd request => exact ⟨⟨hgoing, trivial⟩, fun _ _ => rfl⟩
  | _ => exact hstep.elim

theorem wp_push {request : QuitCall} (hrequest : request = .activeqPush mfd ∨ ∃ ev, request = .idleqPush mfd ev)
    (h : Quitting maxFd nr (· = mfd) w) (hopen : w.Open mfd) (hqueueable : conn.Queueable) :
    wp (quitContract maxFd) (do let _ ← quitSys request; pure nr) (Balanced maxFd)
      (w.next (.stepped mfd conn next) ()) := by
  have hstepped : (w.next (.stepped mfd conn next) ()).Open mfd := by simp [QuitWorld.next, QuitWorld.Open]
  have hunarmed : w.armed mfd = false := by
    have harmed := h.armed mfd
    simpa using harmed
  rcases hrequest with rfl | ⟨ev, rfl⟩
  · exact ⟨⟨h.going, hstepped, hunarmed⟩, fun _ _ => h.pushed hopen hqueueable rfl rfl rfl⟩
  · exact ⟨⟨h.going, hstepped, hunarmed⟩, fun _ _ => h.pushed hopen hqueueable rfl rfl rfl⟩

theorem wp_quitClose (hmax : maxFd ≤ intMax) (wbuf : Wbuf) (h : Quitting maxFd nr (· = mfd) w) (hopen : w.Open mfd)
    (hclose : next = .close ∨ ¬ conn.InProgress) :
    wp (quitContract maxFd) (quitClose mfd wbuf nr) (Balanced maxFd) (w.next (.stepped mfd conn next) ()) := by
  have hunarmed : w.armed mfd = false := by
    have harmed := h.armed mfd
    simpa using harmed
  refine wp_require_bind (fun _ => trivial) fun _ => wp_ask_bind ⟨h.going, hunarmed, conn, next, ?_, rfl, hclose⟩ ?_
  · simp [QuitWorld.next]
  · intro _ _
    exact h.closed hmax hopen (Function.update_idem _ _ _) rfl rfl

theorem wp_quitAssert {f : Unit → QuitIo Nat} {condition : Bool} {Q : Nat → QuitWorld → Prop}
    (hgoing : w.ended = false) (hcondition : condition = true) (h : wp (quitContract maxFd) (f ()) Q w) :
    wp (quitContract maxFd) (quitAssert condition >>= f) Q w := by
  subst hcondition
  exact ⟨⟨hgoing, rfl⟩, fun _ _ => h⟩

theorem quitMgmtHandler_within (mfd : Client) (request : MgmtCall) :
    (quitMgmtHandler mfd request).Within QuitCall.OfStep fun _ => True := by
  cases request <;> first | trivial | exact within_ask trivial fun _ => trivial

theorem quitHttpHandler_within (mfd : Client) (request : Call) :
    (quitHttpHandler mfd request).Within QuitCall.OfStep fun _ => True := by
  cases request <;> first | trivial | exact within_ask trivial fun _ => trivial

theorem wp_mogMgmtQuitStep {ctx : MgmtCtx} (hmax : maxFd ≤ intMax) (haccepting : ctx.accepting = false)
    {mgmt : Mgmt} (h : Quitting maxFd nr (· = mfd) w) (hclient : w.clients mfd = some (.mgmt mgmt)) :
    wp (quitContract maxFd) (mogMgmtQuitStep ctx fuel mfd mgmt nr) (Balanced maxFd) w := by
  have hopen : w.Open mfd := by rw [QuitWorld.Open, hclient]; rfl
  have hprio := h.prio mfd mgmt hclient
  have hwithin := (mgmtQueueStep_stepped ctx fuel mgmt).interp fun request _ => quitMgmtHandler_within mfd request
  refine wp_bind.mpr (wp_mono (wp_ofStep h.going hwithin) ?_)
  rintro ⟨mgmt', next⟩ w' ⟨hstepped, rfl⟩
  have hprio' : mgmt'.prio = .none := hstepped.prio haccepting hprio
  refine wp_ask_bind ⟨h.going, trivial⟩ fun _ _ => ?_
  have hpush : next ≠ .close → next ≠ .ignore → (Conn.mgmt mgmt').Queueable := fun hclose hignore =>
    ⟨hprio', hstepped.awake hclose hignore⟩
  cases next with
  | close => exact wp_quitClose hmax _ h hopen (Or.inl rfl)
  | active => exact wp_push (Or.inl rfl) h hopen (hpush (by simp) (by simp))
  | waitWr => exact wp_push (Or.inr ⟨_, rfl⟩) h hopen (hpush (by simp) (by simp))
  | ignore =>
    obtain ⟨hforward, hnull, hrbuf⟩ := hstepped.ignored rfl hprio
    refine wp_quitAssert h.going (decide_eq_true hprio') (wp_quitClose hmax _ h hopen (Or.inr ?_))
    simp [Conn.InProgress, show mgmt'.forward = .iostat from hforward, show mgmt'.wbuf = .null from hnull,
      show mgmt'.rbuf = none from hrbuf]
  | waitRd =>
    dsimp only
    split
    · exact wp_push (Or.inr ⟨_, rfl⟩) h hopen (hpush (by simp) (by simp))
    · rename_i hidle
      have hnull : mgmt'.wbuf = .null := hstepped.waits rfl
      simp only [Bool.or_eq_true, decide_eq_true_eq, not_or, not_not] at hidle
      refine wp_quitAssert h.going (decide_eq_true hprio') (wp_quitClose hmax _ h hopen (Or.inr ?_))
      simp [Conn.InProgress, hidle.1, hidle.2, hnull]

theorem wp_mogHttpQuitStep {ctx : Ctx} (hmax : maxFd ≤ intMax) {http : Http}
    (h : Quitting maxFd nr (· = mfd) w) (hopen : w.Open mfd) :
    wp (quitContract maxFd) (mogHttpQuitStep ctx fuel mfd http nr) (Balanced maxFd) w := by
  have hwithin := (httpQueueStep_step ctx fuel http).interp fun request _ => quitHttpHandler_within mfd request
  refine wp_bind.mpr (wp_mono (wp_ofStep h.going hwithin) ?_)
  rintro ⟨http', next⟩ w' ⟨hwaits, rfl⟩
  refine wp_ask_bind ⟨h.going, trivial⟩ fun _ _ => ?_
  cases next with
  | close => exact wp_quitClose hmax _ h hopen (Or.inl rfl)
  | active => exact wp_push (Or.inl rfl) h hopen trivial
  | waitWr => exact wp_push (Or.inr ⟨_, rfl⟩) h hopen trivial
  | waitRd =>
    dsimp only
    split
    · exact wp_push (Or.inr ⟨_, rfl⟩) h hopen trivial
    · rename_i hidle
      simp only [Bool.or_eq_true, decide_eq_true_eq, not_or, not_not] at hidle
      have hnull : http'.wbuf = .null := hwaits rfl hidle.1
      refine wp_quitClose hmax _ h hopen (Or.inr ?_)
      simp [Conn.InProgress, hidle.1, hidle.2, hnull]

end Clients

/-! ### The loops -/

section Loops

variable {maxFd nr fuel : Nat} {w : QuitWorld}

theorem wp_queueQuitStep {ctx : ServerCtx} (hmax : maxFd ≤ intMax) (haccepting : ctx.mgmt.accepting = false)
    {mfd : Client} (h : Quitting maxFd nr (· = mfd) w) (hopen : w.Open mfd) :
    wp (quitContract maxFd) (queueQuitStep ctx fuel mfd nr) (Balanced maxFd) w := by
  obtain ⟨conn, hclient⟩ := Option.isSome_iff_exists.mp hopen
  refine wp_ask_bind ⟨h.going, trivial⟩ fun slot hslot => ?_
  have hslot : slot = .client conn := by
    have hmay : w.may (.slot mfd) slot := hslot
    simpa [QuitWorld.may, hclient] using hmay
  subst hslot
  cases conn with
  | mgmt mgmt => exact wp_mogMgmtQuitStep hmax haccepting h hclient
  | http fdType http => exact wp_mogHttpQuitStep hmax h hopen

/-- A client is taken out of the queue. -/
theorem Quitting.woken {mfd : Client} (h : Balanced maxFd nr w) (harmed : w.armed mfd = true) :
    Quitting maxFd nr (· = mfd) (w.next .idleqWait (some mfd)) where
  toQuitInv := ⟨h.bound, h.awake, h.going⟩
  nr_eq := h.nr_eq
  prio := h.prio
  armed other := by
    show Function.update w.armed mfd false other = true ↔ w.Open other ∧ ¬ other = mfd
    by_cases hother : other = mfd
    · subst hother
      simp
    · rw [Function.update_of_ne hother, h.armed]
      simp [hother]

/-- **`mog_queue_quit_loop`** -/
theorem wp_mogQueueQuitLoop {ctx : ServerCtx} (hmax : maxFd ≤ intMax) (haccepting : ctx.mgmt.accepting = false)
    (h : Balanced maxFd nr w) :
    wp (quitContract maxFd) (mogQueueQuitLoop ctx fuel nr) (fun _ w' => ∀ mfd, w'.clients mfd = none) w := by
  induction fuel generalizing nr w with
  | zero => trivial
  | succ fuel ih =>
    have harmed : ∀ mfd, w.Open mfd → w.armed mfd = true := by
      intro mfd hopen
      exact (h.armed mfd).mpr ⟨hopen, not_false⟩
    refine wp_ask_bind ⟨h.going, h.nr_eq, harmed⟩ fun _ _ => ?_
    split
    · rename_i hzero
      intro mfd
      by_contra hsome
      have hopen : w.Open mfd := Option.isSome_iff_ne_none.mpr hsome
      have hnone := (Nat.count_iff_forall_not.mp (h.nr_eq.symm.trans hzero)) mfd (h.bound mfd hopen)
      exact hnone hopen
    · rename_i hpos
      have hle : nr ≤ intMax := h.nr_eq ▸ Nat.le_trans (w.nrOpen_le maxFd) hmax
      have hstill : w.next (.test nr) () = w := by
        have hgoing : decide (nr = 0) = w.ended := by simp [hpos, h.going]
        simp [QuitWorld.next, hgoing]
      refine wp_bind.mpr ⟨⟨?_, decide_eq_true hle⟩, fun _ _ => ?_⟩
      · show (w.next (.test nr) ()).ended = false
        rw [hstill]
        exact h.going
      show wp _ (require (decide (nr ≤ intMax))) _ (w.next (.test nr) ())
      rw [hstill, decide_eq_true hle]
      refine wp_ask_bind ⟨h.going, fun mfd mgmt _ hclient => (h.awake mfd mgmt hclient).digestAsserts⟩ ?_
      intro woken hwoken
      cases woken with
      | none => exact ih h
      | some mfd =>
        have hmfd : w.armed mfd = true := hwoken
        have hopen : (w.next .idleqWait (some mfd)).Open mfd := ((h.armed mfd).mp hmfd).1
        have hstep : wp (quitContract maxFd) (queueQuitStep ctx fuel mfd nr) (Balanced maxFd) _ :=
          wp_queueQuitStep hmax haccepting (Quitting.woken h hmfd) hopen
        exact wp_bind.mpr (wp_mono hstep fun nr' w' h' => ih h')

theorem Conn.requeued_awake {conn : Conn} (h : ∀ mgmt, conn = .mgmt mgmt → mgmt.Awake) : conn.requeued.Queueable := by
  cases conn with
  | mgmt mgmt => exact ⟨rfl, h mgmt rfl⟩
  | http fdType http => trivial

theorem succ_le_iff_of_ne {fd other : Nat} (hne : other ≠ fd) : fd + 1 ≤ other ↔ fd ≤ other := by
  omega

/-- A descriptor that is no client is passed over. -/
theorem Requeueing.skipped {fd : Nat} (h : Requeueing maxFd (fd + 1) nr w) (hnone : w.clients fd = none) :
    Requeueing maxFd fd nr w := by
  have hclosed : ¬ w.Open fd := by simp [QuitWorld.Open, hnone]
  have hbehind : ∀ other, w.Open other → (fd + 1 ≤ other ↔ fd ≤ other) := by
    intro other hopen
    exact succ_le_iff_of_ne fun heq => hclosed (heq ▸ hopen)
  refine ⟨h.toQuitInv, ?_, ?_, ?_⟩
  · have hcount := h.nr_eq
    rwa [QuitWorld.nrOpen, Nat.count_succ, if_neg hclosed] at hcount
  · intro other
    rw [h.armed]
    exact and_congr_right (hbehind other)
  · intro other mgmt hclient hle
    have hopen : w.Open other := by rw [QuitWorld.Open, hclient]; rfl
    exact h.prio other mgmt hclient ((hbehind other hopen).mpr hle)

/-- A client is queued and counted. -/
theorem Requeueing.added {fd : Nat} {conn : Conn} {w' : QuitWorld} (hmax : maxFd ≤ intMax)
    (h : Requeueing maxFd (fd + 1) nr w) (hclient : w.clients fd = some conn)
    (hclients : w'.clients = Function.update w.clients fd (some conn.requeued))
    (harmed : w'.armed = Function.update w.armed fd true) (hended : w'.ended = w.ended) :
    Requeueing maxFd fd (nrIncrement nr) w' := by
  have hopen : w.Open fd := by rw [QuitWorld.Open, hclient]; rfl
  have hsame : ∀ other, w'.Open other ↔ w.Open other := QuitWorld.open_update hclients hopen
  have hqueueable : conn.requeued.Queueable := by
    apply Conn.requeued_awake
    intro mgmt hmgmt
    exact h.awake fd mgmt (hmgmt ▸ hclient)
  have hmgmt : ∀ other mgmt, w'.clients other = some (.mgmt mgmt) →
      mgmt.Awake ∧ (fd ≤ other → mgmt.prio = .none) := by
    intro other mgmt hclient'
    rw [hclients] at hclient'
    by_cases hother : other = fd
    · subst hother
      rw [Function.update_self] at hclient'
      rw [Option.some.inj hclient'] at hqueueable
      exact ⟨hqueueable.2, fun _ => hqueueable.1⟩
    · rw [Function.update_of_ne hother] at hclient'
      exact ⟨h.awake other mgmt hclient', fun hle =>
        h.prio other mgmt hclient' ((succ_le_iff_of_ne hother).mpr hle)⟩
  refine ⟨⟨?_, fun other mgmt hclient' => (hmgmt other mgmt hclient').1, hended.trans h.going⟩, ?_, ?_,
    fun other mgmt hclient' => (hmgmt other mgmt hclient').2⟩
  · intro other hother
    exact h.bound other ((hsame other).mp hother)
  · have hcount := h.nr_eq
    have hle := w.nrOpen_le maxFd
    have hsucc : w.nrOpen (fd + 1) = w.nrOpen fd + 1 := Nat.count_succ_eq_succ_count_iff.mpr hopen
    rw [QuitWorld.nrOpen_congr hsame, QuitWorld.nrOpen_congr hsame, nrIncrement]
    rw [intMax] at hmax
    omega
  · intro other
    rw [harmed, hsame]
    by_cases hother : other = fd
    · subst hother
      simp [hopen]
    · rw [Function.update_of_ne hother, h.armed]
      exact and_congr_right fun _ => succ_le_iff_of_ne hother

/-- **`mog_fdmap_requeue`** -/
theorem wp_mogFdmapRequeue {fd : Nat} (hmax : maxFd ≤ intMax) (h : Requeueing maxFd fd nr w) :
    wp (quitContract maxFd) (mogFdmapRequeue fd nr) (Balanced maxFd) w := by
  induction fd generalizing nr w with
  | zero => exact h.quitting
  | succ fd ih =>
    refine wp_ask_bind ⟨h.going, trivial⟩ fun slot hslot => ?_
    have hmay : w.may (.slot fd) slot := hslot
    cases hclient : w.clients fd with
    | none =>
      simp only [QuitWorld.may, hclient] at hmay
      cases slot with
      | client conn => exact absurd rfl (hmay conn)
      | _ => exact ih (h.skipped hclient)
    | some conn =>
      simp only [QuitWorld.may, hclient] at hmay
      subst hmay
      have hunarmed : w.armed fd = false := by
        rw [← Bool.not_eq_true, h.armed]
        exact fun hbehind => Nat.not_succ_le_self fd hbehind.2
      have hopen : (w.next (.save fd conn.requeued) ()).Open fd := by simp [QuitWorld.next, QuitWorld.Open]
      refine wp_ask_bind ⟨h.going, trivial⟩ fun _ _ => wp_ask_bind ⟨h.going, hopen, hunarmed⟩ fun _ _ => ?_
      exact ih (h.added hmax hclient rfl rfl rfl)

end Loops

/-! ### Every run -/

/-- The clients when `mog_fdmap_requeue` is called: each in a state that its steps have left it in, and none
queued, since the queue is new. -/
structure QuitStart (maxFd : Nat) (w : QuitWorld) : Prop where
  bound : ∀ mfd, w.Open mfd → mfd < maxFd
  live : ∀ mfd mgmt, w.clients mfd = some (.mgmt mgmt) → LiveMgmt mgmt
  unarmed : ∀ mfd, w.armed mfd = false
  going : w.ended = false

theorem QuitStart.requeueing {maxFd : Nat} {w : QuitWorld} (h : QuitStart maxFd w) : Requeueing maxFd maxFd 0 w where
  bound := h.bound
  awake mfd mgmt hclient := (h.live mfd mgmt hclient).awake
  going := h.going
  nr_eq := Nat.zero_add _
  armed mfd := by
    rw [h.unarmed mfd]
    simp only [Bool.false_eq_true, false_iff, not_and]
    intro hopen
    exact Nat.not_le_of_lt (h.bound mfd hopen)
  prio mfd mgmt hclient hle := by
    have hopen : w.Open mfd := by rw [QuitWorld.Open, hclient]; rfl
    exact absurd (h.bound mfd hopen) (Nat.not_lt_of_le hle)

abbrev QuitConfig := Config Unit QuitWorld QuitCall QuitRes Unit

/-- What a state of the shutdown says about its accounts. -/
structure Accounts (maxFd : Nat) (config : QuitConfig) : Prop where
  /-- at the test of the loop the counter is the number of clients that are not closed -/
  test : ∀ {nr next}, config.threads () = .call (.test nr) next → nr = config.world.nrOpen maxFd
  /-- and all of these are armed in the queue -/
  armed : ∀ {nr next}, config.threads () = .call (.test nr) next →
    ∀ mfd, config.world.Open mfd → config.world.armed mfd = true
  /-- no assertion of the loop and of the quit steps fails -/
  asserts : ∀ {holds next}, config.threads () = .call (.asserts holds) next → holds = true
  /-- nor that of `mgmt_digest_in_progress`, of whatever client is stepped next -/
  digest : ∀ {next}, config.threads () = .call .idleqWait next → ∀ mfd mgmt, config.world.armed mfd = true →
    config.world.clients mfd = some (.mgmt mgmt) → mgmt.DigestAsserts
  /-- a client is closed once, and before the end of its request only by what its step returned -/
  closes : ∀ {mfd next}, config.threads () = .call (.fdPut mfd) next → ∃ conn last,
    config.world.clients mfd = some conn ∧ config.world.last = some (mfd, conn, last) ∧
      (last = .close ∨ ¬ conn.InProgress)
  /-- when the test has failed the loop is over -/
  over_of_ended : config.world.ended = true → ∀ request next, config.threads () ≠ .call request next
  /-- and it is over when all clients are closed only -/
  closed_of_over : config.threads () = .ret () → ∀ mfd, config.world.clients mfd = none

/-- **The accounts of a graceful shutdown are in order in every state it reaches.** -/
theorem quit_accounts (ctx : ServerCtx) (haccepting : ctx.mgmt.accepting = false) {maxFd : Nat}
    (hmax : maxFd ≤ intMax) (fuel : Nat) {w : QuitWorld} (hstart : QuitStart maxFd w) {config : QuitConfig}
    (hreaches : Config.Reaches quitHandles ⟨w, fun _ => quitClients ctx maxFd fuel⟩ config) :
    Accounts maxFd config := by
  let I : QuitWorld → (Unit → QuitWorld) → Prop := fun w ghosts => ghosts () = w
  let Q : Unit → QuitWorld → Prop := fun _ w' => ∀ mfd, w'.clients mfd = none
  have hsafe : Config.Safe (quitContract maxFd) Q I ⟨w, fun _ => quitClients ctx maxFd fuel⟩ (fun _ => w) := by
    refine ⟨rfl, fun _ => wp_bind.mpr (wp_mono (wp_mogFdmapRequeue hmax hstart.requeueing) ?_)⟩
    exact fun nr w' h => wp_mogQueueQuitLoop hmax haccepting h
  have hkeeps : Keeps quitHandles (quitContract maxFd) I := by
    rintro w ghosts thread request answer w' hghosts - ⟨hmay, rfl⟩
    obtain rfl : w = ghosts () := hghosts.symm
    exact ⟨hmay, by simp [I, quitContract]⟩
  obtain ⟨ghosts, hsafe⟩ := hsafe.reaches hkeeps hreaches
  have hghosts : ghosts () = config.world := hsafe.inv
  have hmust : ∀ {request next}, config.threads () = .call request next →
      config.world.ended = false ∧ config.world.must maxFd request := by
    intro request next hthread
    rw [← hghosts]
    exact hsafe.must hthread
  refine ⟨fun h => (hmust h).2.1, fun h => (hmust h).2.2, fun h => (hmust h).2, fun h => (hmust h).2,
    fun h => (hmust h).2.2, ?_, ?_⟩
  · intro hended request next hthread
    rw [(hmust hthread).1] at hended
    cases hended
  · intro hret
    have hkept := hsafe.keeps ()
    rw [hret, hghosts] at hkept
    exact hkept

/-- A management client that has sent a blank and `\r`. -/
def halfLine : Mgmt := { mogMgmtInit with cs := .eorLf .blank, offset := 2, rbuf := some [SP, CR] }

theorem halfLine_live : LiveMgmt halfLine :=
  @LiveMgmt.step zeroHashCtx 3 _ _ .waitRd [⟨.sys (.read 496), .ok ⟨[SP, CR], by decide⟩⟩,
    ⟨.sys (.read 494), .error .EAGAIN⟩, ⟨.stepped .waitRd halfLine, ()⟩] .init (.cons (.cons (.cons (.nil _))))
    ⟨nofun, nofun⟩

/-- It is the only client that is left. -/
def oneClient : QuitWorld where
  clients := Function.update (fun _ => none) 0 (some (.mgmt halfLine))
  armed _ := false
  last := none
  ended := false

/-- It is queued, gets an answer to its line, and is found to have sent nothing more. -/
def oneClientRun : Trace QuitCall QuitRes :=
  [⟨.slot 0, .client (.mgmt halfLine)⟩, ⟨.save 0 (.mgmt halfLine), ()⟩, ⟨.activeqAdd 0, ()⟩, ⟨.test 1, ()⟩,
    ⟨.asserts true, ()⟩, ⟨.idleqWait, some 0⟩, ⟨.slot 0, .client (.mgmt halfLine)⟩,
    ⟨.mgmt 0 (.sys (.read 494)), .ok ⟨[LF], by decide⟩⟩, ⟨.mgmt 0 (.sys (.writev [ascii "\r\n"])), .ok 2⟩,
    ⟨.stepped 0 (.mgmt mogMgmtInit) .active, ()⟩, ⟨.activeqPush 0, ()⟩, ⟨.test 1, ()⟩, ⟨.asserts true, ()⟩,
    ⟨.idleqWait, some 0⟩, ⟨.slot 0, .client (.mgmt mogMgmtInit)⟩, ⟨.mgmt 0 (.sys (.read 496)), .error .EAGAIN⟩,
    ⟨.stepped 0 (.mgmt mogMgmtInit) .waitRd, ()⟩, ⟨.asserts true, ()⟩]

theorem oneClient_start : QuitStart 1 oneClient where
  bound mfd hopen := by
    by_contra hmfd
    have hne : mfd ≠ 0 := fun heq => hmfd (heq ▸ Nat.zero_lt_one)
    simp [QuitWorld.Open, oneClient, Function.update_of_ne hne] at hopen
  live mfd mgmt hclient := by
    by_cases hmfd : mfd = 0
    · subst hmfd
      cases hclient
      exact halfLine_live
    · simp [oneClient, Function.update_of_ne hmfd] at hclient
  unarmed _ := rfl
  going := rfl

/-- The client is about to be closed. -/
theorem quit_accounts_oneClient : ∃ (config : QuitConfig) (next : Unit → QuitIo Unit),
    config.threads () = .call (.fdPut 0) next ∧ config.world.last = some (0, .mgmt mogMgmtInit, .waitRd) ∧
      Accounts 1 config := by
  let ctx : ServerCtx := ⟨{ zeroHashCtx with accepting := false }, plainCtx⟩
  have hruns : ∃ next, Runs (quitClients ctx 1 5) oneClientRun (.call (.fdPut 0) next) :=
    ⟨_, .cons (.cons (.cons (.cons (.cons (.cons (.cons (.cons (.cons (.cons (.cons (.cons (.cons (.cons (.cons
      (.cons (.cons (.cons (.nil _))))))))))))))))))⟩
  have hhandled : Handled quitHandles () oneClient oneClientRun _ :=
    .cons ⟨rfl, rfl⟩ (.cons ⟨trivial, rfl⟩ (.cons ⟨trivial, rfl⟩ (.cons ⟨trivial, rfl⟩ (.cons ⟨trivial, rfl⟩
      (.cons ⟨rfl, rfl⟩ (.cons ⟨rfl, rfl⟩ (.cons ⟨trivial, rfl⟩ (.cons ⟨trivial, rfl⟩ (.cons ⟨trivial, rfl⟩
        (.cons ⟨trivial, rfl⟩ (.cons ⟨trivial, rfl⟩ (.cons ⟨trivial, rfl⟩ (.cons ⟨rfl, rfl⟩ (.cons ⟨rfl, rfl⟩
          (.cons ⟨trivial, rfl⟩ (.cons ⟨trivial, rfl⟩ (.cons ⟨trivial, rfl⟩ (.nil _))))))))))))))))))
  obtain ⟨next, hruns⟩ := hruns
  have hreaches : Config.Reaches quitHandles ⟨oneClient, fun _ => quitClients ctx 1 5⟩ _ :=
    Config.Reaches.of_runs hruns hhandled rfl
  refine ⟨_, next, ?_, ?_, quit_accounts ctx rfl (by decide) 5 oneClient_start hreaches⟩
  · dsimp only
    rw [Function.update_self]
  · rfl

end Cmogstored
