import Cmogstored.HttpRule
import Cmogstored.Script

/-! Closing over a pending response. `http_close` asserts that nothing is left to flush. Most answers
are waited for when the socket blocks, but two kinds of answer are followed by `MOG_NEXT_CLOSE`
without looking at `wbuf`: the ones to a head that does not parse, and the ones that stop an upload
whose body is being read. -/

namespace Cmogstored

open Prog

/-- Where in a step the client is. -/
inductive Phase where
  | reading
  | handling
  | forwarding
  | committing
  deriving DecidableEq, Repr

/-- An answer written in these phases ends the connection at once. -/
def Phase.closing : Phase → Bool
  | reading => true
  | handling => false
  | forwarding => true
  | committing => false

/-- The phase, and whether an answer that ends the connection was blocked in this step. -/
structure Replying where
  phase : Phase
  blocked : Bool
  deriving DecidableEq, Repr

variable {state : Replying} {fd : Fd} {file : MogFile} (ctx : Ctx) (fuel : Nat) (http : Http) (phase : Phase)
  (request : Call)

def Replying.next (state : Replying) : (request : Call) → Res request → Replying
  | .note (.handed _ _), _ => { state with phase := .handling }
  | .note (.forward _), _ => { state with phase := .forwarding }
  | .note (.commit _), _ => { state with phase := .committing }
  | .note (.stepped _ _), _ => { phase := .reading, blocked := false }
  | .writev _, .error .EAGAIN => { state with blocked := state.blocked || state.phase.closing }
  | _, _ => state

/-- A step that closes leaves `wbuf` empty or in error exactly when no such answer was blocked; a
flush never starts after a write error. -/
def pendingContract : Contract Call Res Replying where
  must state
    | .note (.stepped .close http) =>
      (http.wbuf = .null ∨ http.wbuf = .error) ↔ state.blocked = false
    | .note (.flush http) => http.wbuf ≠ .error
    | _ => True
  may _ _ _ := True
  next := Replying.next
  excused _ := True

/-- Nothing is left to flush. -/
def Wbuf.settled (wbuf : Wbuf) : Prop := wbuf = .null ∨ wbuf = .error

/-! ### Answers -/

theorem trywritevRetry_pending (total : Int) (iov : List Bytes) (phase : Phase)
    (hphase : phase.closing = true) :
    wp pendingContract (trywritevRetry fuel total iov)
      (fun wbuf state => wbuf.settled ↔ state.blocked = false) ⟨phase, false⟩ := by
  induction fuel generalizing total iov with
  | zero => trivial
  | succ fuel ih =>
    refine ⟨trivial, fun answer _ => ?_⟩
    rcases answer with errno | w
    · cases errno
      case EINTR => exact ih _ _
      case EAGAIN =>
        show _ ↔ (false || phase.closing) = false
        simp [hphase, Wbuf.settled, wbufNewv]
      all_goals exact iff_of_true (Or.inr rfl) rfl
    · show wp _ (if _ then _ else _) _ _
      split
      · exact iff_of_true (Or.inl rfl) rfl
      · exact ih _ _

theorem mogHttpResp_pending (status : Status) (alive : Bool)
    (phase : Phase) (hphase : phase.closing = true) :
    wp pendingContract (mogHttpResp fuel http status alive)
      (fun http state => http.wbuf.settled ↔ state.blocked = false) ⟨phase, false⟩ := by
  refine wp_ask_bind trivial fun date _ => wp_require_bind (fun _ => trivial) fun _ => ?_
  refine wp_ask_bind trivial fun _ _ => wp_bind.mpr ?_
  unfold mogTrywritev
  split
  · exact iff_of_true (Or.inl rfl) rfl
  · exact trywritevRetry_pending fuel _ _ phase hphase

/-- Calls that say nothing about blocked answers. -/
theorem wp_pending_quiet {α : Type} {S : Call → Prop} {program : Io α} {R : α → Prop}
    (hquiet : ∀ request, S request → pendingContract.must state request ∧
      ∀ answer, state.next request answer = state) (h : program.Within S R) :
    wp pendingContract program (fun value state' => R value ∧ state' = state) state := by
  refine wp_within (J := fun state' => state' = state) ?_ (fun _ _ => trivial) h rfl
  rintro state' request rfl hrequest
  exact ⟨(hquiet request hrequest).1, fun answer _ => (hquiet request hrequest).2 answer⟩

theorem BodyCall.quiet (h : BodyCall fd request) :
    pendingContract.must state request ∧ ∀ answer, state.next request answer = state := by
  cases request with
  | note event => cases event <;> first | exact h.elim | exact ⟨trivial, fun _ => rfl⟩
  | _ => first | exact h.elim | exact ⟨trivial, fun _ => rfl⟩

theorem InputCall.quiet (h : InputCall request) :
    pendingContract.must state request ∧ ∀ answer, state.next request answer = state := by
  cases request with
  | note event => cases event <;> first | exact h.elim | exact ⟨trivial, fun _ => rfl⟩
  | _ => first | exact h.elim | exact ⟨trivial, fun _ => rfl⟩

theorem DropCall.quiet (h : DropCall file request) :
    pendingContract.must state request ∧ ∀ answer, state.next request answer = state := by
  cases request <;> first | exact h.elim | exact ⟨trivial, fun _ => rfl⟩

/-- The end of a step: the connection closes with nothing pending unless an answer was blocked, or it
stays open and no write error has happened. -/
def StepEnd (result : Http × Next) (state : Replying) : Prop :=
  if result.2 = .close then result.1.wbuf.settled ↔ state.blocked = false
  else result.1.wbuf ≠ .error

theorem stepEnd_close {http : Http} :
    StepEnd (http, .close) state ↔ (http.wbuf.settled ↔ state.blocked = false) := by
  simp [StepEnd]

theorem stepEnd_open {http : Http} {next : Next} (hnext : next ≠ .close) :
    StepEnd (http, next) state ↔ http.wbuf ≠ .error := by
  simp [StepEnd, hnext]

/-! ### The parts of a step -/

theorem flushDone_pending (state : Replying) (hnull : http.wbuf = .null)
    (hblocked : state.blocked = false) :
    wp pendingContract (flushDone http) StepEnd state := by
  unfold flushDone
  split
  · split
    · exact wp_ask_bind trivial fun _ _ => (stepEnd_open (by simp)).mpr (by simp [mogHttpResetParser])
    · refine wp_require_bind (fun _ => trivial) fun _ => (stepEnd_open (by simp)).mpr ?_
      simp [hnull]
  · exact stepEnd_close.mpr (iff_of_true (Or.inl hnull) hblocked)

theorem httpWbufInProgress_pending
    (herror : http.wbuf ≠ .error) :
    wp pendingContract (httpWbufInProgress fuel http) StepEnd ⟨phase, false⟩ := by
  refine wp_ask_bind herror fun _ _ => ?_
  split
  · trivial
  · trivial
  · rename_i buf off _
    refine wp_bind.mpr (wp_mono (wp_pending_quiet ?_ (mogTryflush_within fuel buf off)) ?_)
    · rintro (_ | _) h <;> first | exact h.elim | exact ⟨trivial, fun _ => rfl⟩
    · rintro ⟨flushed, wbuf⟩ state ⟨hresult, rfl⟩
      cases flushed with
      | err => exact stepEnd_close.mpr (iff_of_true (Or.inl hresult) rfl)
      | done => exact flushDone_pending _ _ hresult rfl
      | busy =>
        obtain ⟨off', hbusy⟩ := hresult
        refine (stepEnd_open (by simp)).mpr ?_
        simp only at hbusy
        simp [hbusy]

theorem stepEnd_null {http : Http} {next : Next} (hnull : http.wbuf = .null)
    (hblocked : state.blocked = false) : StepEnd (http, next) state := by
  by_cases hnext : next = .close
  · subst hnext
    exact stepEnd_close.mpr (iff_of_true (Or.inl hnull) hblocked)
  · exact (stepEnd_open hnext).mpr (by simp [hnull])

theorem SendCall.quiet (h : SendCall request) :
    pendingContract.must state request ∧ ∀ answer, state.next request answer = state := by
  cases request with
  | note event => cases event <;> first | exact h.elim | exact ⟨trivial, fun _ => rfl⟩
  | _ => first | exact h.elim | exact ⟨trivial, fun _ => rfl⟩

theorem stop_pending (status : Option Status) (hnull : http.wbuf = .null) :
    wp pendingContract (stop fuel http status) StepEnd ⟨.forwarding, false⟩ := by
  have hreply : wp pendingContract (stopReply fuel http status)
      (fun http state => http.wbuf.settled ↔ state.blocked = false) ⟨.forwarding, false⟩ := by
    cases status with
    | none => exact iff_of_true (Or.inl hnull) rfl
    | some status => exact mogHttpResp_pending fuel http status false .forwarding rfl
  refine wp_bind.mpr (wp_mono hreply fun http' state hsettled => ?_)
  cases hforward : http'.forward with
  | none =>
    rw [fileCloseNull_none http' hforward]
    exact stepEnd_close.mpr hsettled
  | some file =>
    refine wp_bind.mpr (wp_mono (wp_pending_quiet DropCall.quiet
      (fileCloseNull_within http' hforward)) ?_)
    rintro http'' state' ⟨rfl, rfl⟩
    exact stepEnd_close.mpr hsettled

/-- What an answer that is waited for can leave. -/
theorem ProcessCall.keeps (h : ProcessCall request)
    (hblocked : state.blocked = false) (hphase : state.phase.closing = false) :
    pendingContract.must state request ∧ ∀ answer, (state.next request answer).blocked = false ∧
      (state.next request answer).phase.closing = false := by
  cases request with
  | note event =>
    cases event <;> first | exact h.elim | exact ⟨trivial, fun _ => ⟨hblocked, by first | exact hphase | rfl⟩⟩
  | writev iov =>
    refine ⟨trivial, fun answer => ?_⟩
    rcases answer with errno | w
    · cases errno <;> simp [Replying.next, hblocked, hphase]
    · exact ⟨hblocked, hphase⟩
  | _ => first | exact h.elim | exact ⟨trivial, fun _ => ⟨hblocked, hphase⟩⟩

/-- While a request is handled or an upload committed, no answer counts as blocked. -/
def Waiting (state : Replying) : Prop := state.blocked = false ∧ state.phase.closing = false

theorem wp_pending_waiting {α : Type} {program : Io α} {R : α → Prop}
    (h : program.Within ProcessCall R) (hstate : Waiting state) :
    wp pendingContract program (fun value state' => R value ∧ Waiting state') state :=
  wp_within (J := Waiting)
    (fun _ request hstate hrequest =>
      ⟨(hrequest.keeps request hstate.1 hstate.2).1,
        fun answer _ => (hrequest.keeps request hstate.1 hstate.2).2 answer⟩)
    (fun _ _ => trivial) h hstate

theorem httpPutCommit_pending :
    wp pendingContract (httpPutCommit ctx fuel http) StepEnd ⟨.forwarding, false⟩ := by
  -- entering `put_commit_resp` is what makes the answer one that is waited for
  have hcommit : wp pendingContract (putCommitResp ctx fuel http)
      (fun _ state => Waiting state) ⟨.forwarding, false⟩ :=
    ⟨trivial, fun answer _ => wp_mono (wp_pending_waiting
      ((putCommitResp_process ctx fuel http).2 answer) ⟨rfl, rfl⟩) fun _ _ h => h.2⟩
  refine wp_bind.mpr (wp_mono hcommit fun http' state hstate => ?_)
  split
  · rename_i hpending
    exact (stepEnd_open (by simp)).mpr (by simp [hpending])
  · rename_i herror
    exact stepEnd_close.mpr (iff_of_true (Or.inr herror) hstate.1)
  · rename_i hnull
    split
    · exact wp_ask_bind trivial fun _ _ => stepEnd_null rfl hstate.1
    · exact stepEnd_null hnull hstate.1

theorem putFinish_pending (exit : PutExit)
    (hnull : exit.http.wbuf = .null) :
    wp pendingContract (putFinish ctx fuel exit) StepEnd ⟨.forwarding, false⟩ := by
  cases exit with
  | waitRd http => exact stepEnd_null hnull rfl
  | stop http => exact stop_pending fuel http none hnull
  | writeErr http errno defaultMsg => exact stop_pending fuel http _ hnull
  | commit http => exact httpPutCommit_pending ctx fuel http

theorem httpForwardInProgress_pending
    (hnull : http.wbuf = .null) (hforward : http.forward ≠ none) :
    wp pendingContract (httpForwardInProgress ctx fuel http) StepEnd ⟨phase, false⟩ := by
  refine wp_ask_bind trivial fun _ _ => ?_
  split
  · refine wp_mono (wp_pending_quiet SendCall.quiet (mogHttpGetInProgress_within fuel http)) ?_
    rintro ⟨http', next⟩ state ⟨hsent, rfl⟩
    exact stepEnd_null hsent.1 rfl
  · refine wp_require_bind (fun _ => trivial) fun _ => ?_
    obtain ⟨file, hfile⟩ := Option.ne_none_iff_exists'.mp hforward
    refine wp_bind.mpr (wp_mono (wp_pending_quiet BodyCall.quiet
      (putInProgress_within fuel http hfile)) ?_)
    rintro exit state ⟨hsame, rfl⟩
    exact putFinish_pending ctx fuel exit (hsame.wbuf.trans hnull)

theorem queueDone_pending (buf : Bytes) (phase : Phase) :
    wp pendingContract (queueDone ctx fuel http buf) StepEnd ⟨phase, false⟩ := by
  have hprocess : wp pendingContract (httpProcessClient ctx fuel http buf)
      (fun _ state => Waiting state) ⟨phase, false⟩ :=
    wp_ask_bind trivial fun _ _ => wp_mono (wp_pending_waiting
      (processMethod_within ctx fuel http buf) ⟨rfl, rfl⟩) fun _ _ h => h.2
  refine wp_bind.mpr (wp_mono hprocess fun http' state hstate => ?_)
  obtain ⟨phase', blocked⟩ := state
  obtain ⟨rfl, hphase⟩ := hstate
  split
  · rename_i herror
    exact stepEnd_close.mpr (iff_of_true (Or.inr herror) rfl)
  · rename_i hpending
    refine wp_bind.mpr (wp_httpDeferRbuf trivial fun http'' _ hwbuf _ => ?_)
    exact (stepEnd_open (by simp)).mpr (by simp [hwbuf, hpending])
  · rename_i hnull
    split
    · rename_i hforward
      refine wp_bind.mpr (wp_httpDeferRbuf trivial fun http'' _ hwbuf hforward' => ?_)
      exact httpForwardInProgress_pending ctx fuel http'' phase' (hwbuf.trans hnull)
        (hforward'.symm ▸ hforward)
    · split
      · refine wp_bind.mpr (wp_httpDeferRbuf trivial fun http'' _ hwbuf _ => ?_)
        exact wp_ask_bind trivial fun _ _ => stepEnd_null rfl rfl
      · exact stepEnd_null hnull rfl

theorem queueFinish_pending (input : Input)
    (hnull : input.http.wbuf = .null) :
    wp pendingContract (queueFinish ctx fuel input) StepEnd ⟨.reading, false⟩ := by
  have herr : ∀ http status, wp pendingContract (queueErr fuel http status) StepEnd
      ⟨.reading, false⟩ := fun http status =>
    wp_bind.mpr (wp_mono (mogHttpResp_pending fuel http status false .reading rfl)
      fun _ _ h => stepEnd_close.mpr h)
  cases input with
  | bad http errno => exact herr http _
  | tooLong http => exact herr http _
  | request http buf => exact queueDone_pending ctx fuel http buf .reading
  | blocked http => exact stepEnd_null hnull rfl
  | gone http => exact stepEnd_null hnull rfl

/-! ### Steps and runs -/

theorem httpQueueStep_pending (herror : http.wbuf ≠ .error) :
    wp pendingContract (httpQueueStep ctx fuel http) StepEnd ⟨.reading, false⟩ := by
  refine wp_httpQueueStep ?_ ?_ ?_
  · exact fun _ => httpWbufInProgress_pending fuel http .reading herror
  · exact httpForwardInProgress_pending ctx fuel http .reading
  · intro hnull _
    refine wp_mono (wp_pending_quiet InputCall.quiet (queueInput_within fuel http)) ?_
    rintro input state ⟨hsame, rfl⟩
    exact queueFinish_pending ctx fuel input (hsame.wbuf.trans hnull)

/-- The connection between two steps: no write error has happened. -/
def Unbroken (http : Http) (state : Replying) : Prop :=
  http.wbuf ≠ .error ∧ state = ⟨.reading, false⟩

theorem mogHttpQueueStep_pending (state : Replying)
    (h : Unbroken http state) :
    wp pendingContract (mogHttpQueueStep ctx fuel http)
      (fun result state => result.2 ≠ .close → Unbroken result.1 state) state := by
  obtain ⟨herror, rfl⟩ := h
  refine wp_bind.mpr (wp_mono (httpQueueStep_pending ctx fuel http herror) ?_)
  rintro ⟨http', next⟩ state hend
  refine wp_ask_bind ?_ fun _ _ => ?_
  · cases next with
    | close => exact stepEnd_close.mp hend
    | _ => trivial
  · split
    · rename_i hclose
      refine wp_bind.mpr (wp_require_bind (fun _ => trivial) fun _ => ?_)
      exact ⟨trivial, fun _ _ hopen => absurd hclose hopen⟩
    · rename_i hopen
      exact fun _ => ⟨(stepEnd_open hopen).mp hend, rfl⟩

/-- What has happened in the current step of a connection. -/
def replying (trace : Run) : Replying := pendingContract.after ⟨.reading, false⟩ trace

theorem serve_pending :
    wp pendingContract (serve ctx fuel mogHttpInit) (fun _ _ => True) ⟨.reading, false⟩ :=
  wp_serve (mogHttpQueueStep_pending ctx) ⟨by simp [mogHttpInit], rfl⟩

/-- **A connection is closed over a pending response exactly when the answer that closes it was
blocked.** In every run, whenever `http_queue_step` returns `MOG_NEXT_CLOSE`, nothing is left in
`wbuf` if and only if no answer to a bad head and no answer that stops an upload in progress was
blocked in that step; and a flush never starts after a write error. -/
theorem close_over_pending_iff (ctx : Ctx) (fuel : Nat) (trace before after : Run) (q : Io Unit)
    (http : Http) (hrun : Runs (serve ctx fuel mogHttpInit) trace q) :
    (trace = before ++ ⟨.note (.stepped .close http), ()⟩ :: after →
      ((http.wbuf = .null ∨ http.wbuf = .error) ↔ (replying before).blocked = false)) ∧
    (trace = before ++ ⟨.note (.flush http), ()⟩ :: after → http.wbuf ≠ .error) := by
  have hallows : pendingContract.Allows ⟨.reading, false⟩ trace := allows_of_may fun _ _ _ => trivial
  exact ⟨must_of_runs (serve_pending ctx fuel) hrun hallows,
    must_of_runs (serve_pending ctx fuel) hrun hallows⟩

/-- A request line that does not parse, on a socket whose first write blocks. -/
def blockedBadHead : Script := .sending ["FOO"] [some .EAGAIN]

/-- The 400 is still pending when the step closes the connection, and the assertion of `http_close`
fails. -/
theorem close_over_pending_blocked :
    ∃ (trace before after : Run) (q : Io Unit) (http : Http),
      Runs (serve plainCtx 12 mogHttpInit) trace q ∧
      trace = before ++ ⟨.note (.stepped .close http), ()⟩ :: after ∧
      ¬(http.wbuf = .null ∨ http.wbuf = .error) ∧ aborted q = true := by
  have hclose : ∃ split, splitAtClose (scripted 12 blockedBadHead).1 = some split ∧
      ¬(split.2.1.wbuf = .null ∨ split.2.1.wbuf = .error) := by
    decide +kernel
  have haborted : aborted (scripted 12 blockedBadHead).2 = true := by decide +kernel
  obtain ⟨⟨before, http, after⟩, hsplit, hpending⟩ := hclose
  exact ⟨_, before, after, _, http, runs_scripted 12 blockedBadHead, splitAtClose_eq hsplit, hpending,
    haborted⟩

/-- A request for the root on a socket that takes the answer. -/
def plainGet : Script := .sending ["GET / HTTP/1.0\r\n\r\n"] []

theorem close_over_pending_iff_plainGet :
    ∃ (trace before after : Run) (http : Http),
      trace = before ++ ⟨.note (.stepped .close http), ()⟩ :: after ∧
      ((http.wbuf = .null ∨ http.wbuf = .error) ↔ (replying before).blocked = false) := by
  have hclose : (splitAtClose (scripted 12 plainGet).1).isSome = true := by decide +kernel
  obtain ⟨⟨before, http, after⟩, hsplit⟩ := Option.isSome_iff_exists.mp hclose
  have htrace := splitAtClose_eq hsplit
  exact ⟨_, before, after, http, htrace,
    (close_over_pending_iff plainCtx 12 _ before after _ http (runs_scripted 12 plainGet)).1 htrace⟩

end Cmogstored
