import Cmogstored.MgmtFraming

/-! Whole runs of a management client: which commands are executed, in which order and with which
arguments, and what is sent, depends on the stream and on the answers of the system, not on how the stream
was cut into reads. -/

namespace Cmogstored

open List Prog Reference Scan

variable {request : MgmtCall} {ref : Ref} {talk : Talk}

/-! ### Whole runs -/

def mgmtReceived (trace : MgmtRun) : Bytes := trace.flatMap receivedBy

def mgmtSent (trace : MgmtRun) : Bytes := trace.flatMap sentBy

def mgmtReplies (trace : MgmtRun) : List Bytes := trace.flatMap fun entry => repliesBy entry.1

def mgmtCommands (trace : MgmtRun) : List Command := trace.flatMap fun entry => commandsBy entry.1

/-- The same call is to be made again: it is not the client's turn yet, or it was interrupted. -/
def isRetry : (Σ request : MgmtCall, MgmtRes request) → Bool
  | ⟨.fsckQueueReady _, false⟩ => true
  | ⟨.readFile _, .error .EINTR⟩ => true
  | _ => false

def mgmtActions (trace : MgmtRun) : MgmtRun :=
  trace.filter fun entry => isAction entry.1 && !isRetry entry

/-- The client has gone. -/
def mgmtGone (trace : MgmtRun) : Bool := trace.any goneBy

section Runs

variable {ctx : MgmtCtx}

/-- The ghost state tells what the trace shows. -/
structure Shows (talk : Talk) (trace : MgmtRun) (talk' : Talk) : Prop where
  received : talk'.received = talk.received ++ mgmtReceived trace
  sent : talk'.sent = talk.sent ++ mgmtSent trace
  replies : talk'.replies = talk.replies ++ mgmtReplies trace
  commands : talk'.commands = talk.commands ++ mgmtCommands trace
  gone : talk'.gone = (talk.gone || mgmtGone trace)

theorem shows_after (ctx : MgmtCtx) (talk : Talk) (trace : MgmtRun) :
    Shows talk trace ((talkContract ctx).after talk trace) := by
  induction trace generalizing talk with
  | nil => exact ⟨by simp [Contract.after, mgmtReceived], by simp [Contract.after, mgmtSent],
      by simp [Contract.after, mgmtReplies], by simp [Contract.after, mgmtCommands],
      by simp [Contract.after, mgmtGone]⟩
  | cons entry trace ih =>
    have hrest := ih (talk.next ctx entry.1 entry.2)
    refine ⟨hrest.received.trans ?_, hrest.sent.trans ?_, hrest.replies.trans ?_, hrest.commands.trans ?_,
      hrest.gone.trans ?_⟩
    · simp [Talk.next, mgmtReceived]
    · simp [Talk.next, mgmtSent]
    · simp [Talk.next, mgmtReplies]
    · simp [Talk.next, mgmtCommands]
    · simp [Talk.next, mgmtGone, Bool.or_assoc]

/-- What the calls of a command that has been started show. -/
structure Quiet (task : Task) (request : MgmtCall) (next : MgmtRes request → Task) : Prop where
  commands : commandsBy request = []
  received : ∀ answer, receivedBy ⟨request, answer⟩ = []
  sent : ∀ answer, sentBy ⟨request, answer⟩ = []
  next : ∀ answer, (next answer).due + (repliesBy request).length = task.due ∧
    ((next answer).watches = true → task.watches = true)

theorem begin_due (job : Job) (watched : Bool) :
    job.begin.due = 1 ∧ (job.begin.watches = true → watched = true) := by
  unfold Job.begin
  split <;> exact ⟨rfl, nofun⟩

theorem finish_due (job : Job) (watched : Bool) :
    job.finish.due + 1 = 1 ∧ (job.finish.watches = true → watched = true) := by
  unfold Job.finish
  split <;> exact ⟨rfl, nofun⟩

theorem Task.step_quiet {task : Task} {next : MgmtRes request → Task}
    (h : task.step ctx = some ⟨request, next⟩) : Quiet task request next := by
  cases task with
  | idle => cases h
  | watching => cases h
  | stat path =>
    cases h
    exact ⟨rfl, fun _ => rfl, fun _ => rfl, fun answer => by cases answer <;> exact ⟨rfl, nofun⟩⟩
  | openFile alg prio path =>
    cases h
    refine ⟨rfl, fun _ => rfl, fun _ => rfl, fun answer => ?_⟩
    cases answer with
    | ok fd => exact begin_due _ _
    | error errno =>
      dsimp only [Task.opened]
      split <;> exact ⟨rfl, nofun⟩
  | expire alg prio path =>
    cases h
    refine ⟨rfl, fun _ => rfl, fun _ => rfl, fun answer => ?_⟩
    dsimp only [Task.expired]
    split <;> exact ⟨rfl, nofun⟩
  | reopen alg prio path =>
    cases h
    refine ⟨rfl, fun _ => rfl, fun _ => rfl, fun answer => ?_⟩
    cases answer with
    | ok fd => exact begin_due _ _
    | error errno => exact ⟨rfl, nofun⟩
  | ready job =>
    cases h
    exact ⟨rfl, fun _ => rfl, fun _ => rfl, fun answer => by cases answer <;> exact ⟨rfl, nofun⟩⟩
  | hash job data =>
    cases h
    refine ⟨rfl, fun _ => rfl, fun _ => rfl, fun answer => ?_⟩
    dsimp only [Task.hashed]
    (repeat' split) <;> exact ⟨rfl, nofun⟩
  | reply text job =>
    cases h
    refine ⟨rfl, fun _ => rfl, fun _ => rfl, fun _ => ?_⟩
    cases job with
    | none => exact ⟨rfl, nofun⟩
    | some job => exact finish_due job _
  | refresh =>
    cases h
    exact ⟨rfl, fun _ => rfl, fun _ => rfl, fun _ => ⟨rfl, fun _ => rfl⟩⟩
  | subscribe =>
    cases h
    exact ⟨rfl, fun _ => rfl, fun _ => rfl, fun _ => ⟨rfl, fun _ => rfl⟩⟩
  | _ =>
    cases h
    exact ⟨rfl, fun _ => rfl, fun _ => rfl, fun _ => ⟨rfl, nofun⟩⟩

/-- What a run keeps to. -/
structure Kept (talk : Talk) : Prop where
  ok : RefOk talk.ref
  /-- what was sent and what is owed are the replies -/
  sent : talk.sent ++ talk.owed = talk.replies.flatten
  /-- each command has taken one line -/
  lines : ∃ taken, talk.received = taken ++ talk.ref.rest ∧ taken.count LF = talk.commands.length ∧
    (taken = [] ∨ taken.getLast? = some LF)
  /-- each command has been answered, but for the one at hand -/
  due : talk.commands.countP Command.replies = talk.replies.length + talk.ref.task.due
  /-- a watcher takes no further command -/
  watch : talk.ref.task.watches = true → talk.commands.getLast? = some .watch

/-- How the reference moves on. -/
theorem Ref.step_cases {next : MgmtRes request → Ref}
    (h : ref.step ctx = some ⟨request, next⟩) :
    (ref.task = .idle ∧ ∃ command ref', ref.take ctx.accepting = some (command, ref') ∧
      request = .command command ∧ ∀ answer, next answer = ref') ∨
    (ref.task ≠ .idle ∧ ∃ next', ref.task.step ctx = some ⟨request, next'⟩ ∧
      ∀ answer, next answer = ref.behind (next' answer)) := by
  unfold Ref.step at h
  split at h
  · rename_i hidle
    split at h
    · rename_i command ref' htake
      cases h
      exact Or.inl ⟨hidle, command, ref', htake, rfl, fun _ => rfl⟩
    · cases h
  · rename_i hbusy
    split at h
    · rename_i request' next' hstep
      cases h
      exact Or.inr ⟨hbusy, next', hstep, fun _ => rfl⟩
    · cases h

theorem Ref.behind_rest (ref : Ref) (task : Task) : (ref.behind task).rest = ref.rest := by
  unfold Ref.behind
  split <;> rfl

theorem Ref.behind_task (ref : Ref) (task : Task) : (ref.behind task).task = task := by
  unfold Ref.behind
  split <;> rfl

theorem take_line {buf : Bytes} {k : Nat} (hlf : buf[k]? = some LF) (hno : LF ∉ buf.take k) :
    (buf.take (k + 1)).count LF = 1 ∧ (buf.take (k + 1)).getLast? = some LF := by
  rw [take_succ_of_getElem? hlf, count_append, count_eq_zero.mpr hno, List.getLast?_concat]
  exact ⟨rfl, rfl⟩

/-- A line has been taken. -/
theorem Kept.take {command : Command} (h : Kept talk)
    (hidle : talk.ref.task = .idle) (htake : talk.ref.take ctx.accepting = some (command, ref)) :
    (∃ taken, talk.received = taken ++ ref.rest ∧ taken.count LF = talk.commands.length + 1 ∧
      (taken = [] ∨ taken.getLast? = some LF)) ∧
    (talk.commands ++ [command]).countP Command.replies = talk.replies.length + ref.task.due ∧
    (ref.task.watches = true → command = .watch) := by
  obtain ⟨fields, pos, fn, hexec, rfl, rfl⟩ := Ref.take_eq htake
  have hend := lineEnd_mgmtExec ctx.accepting h.ok.start talk.ref.rest
  rw [hexec] at hend
  obtain ⟨k, rfl, hlf, hno⟩ := hend
  obtain ⟨taken, hreceived, hcount, -⟩ := h.lines
  obtain ⟨hone, hlast⟩ := take_line hlf hno
  refine ⟨⟨taken ++ talk.ref.rest.take (k + 1), ?_, ?_, Or.inr ?_⟩, ?_, Task.start_watches⟩
  · rw [append_assoc, take_append_drop]
    exact hreceived
  · rw [count_append, hcount, hone]
  · rw [List.getLast?_append, hlast]
    rfl
  · have hdue := h.due
    rw [hidle, show Task.idle.due = 0 from rfl] at hdue
    rw [countP_append, hdue, Task.start_due]
    simp [countP_cons]

/-- A call of the command at hand. -/
theorem Kept.busy {next : MgmtRes request → Task} (h : Kept talk)
    (hquiet : Quiet talk.ref.task request next) (hsettles : talk.Settles request) (answer : MgmtRes request)
    (hok : RefOk ref) (hrest : ref.rest = talk.ref.rest) (htask : ref.task = next answer)
    (href : (talk.next ctx request answer).ref = ref) : Kept (talk.next ctx request answer) where
  ok := href ▸ hok
  sent := by
    show (talk.sent ++ sentBy _) ++ talk.owes request answer = (talk.replies ++ repliesBy request).flatten
    rw [hquiet.sent, append_nil]
    unfold Talk.owes
    rw [hquiet.sent]
    cases request with
    | reply text =>
      have hsent := h.sent
      rw [show talk.owed = [] from hsettles, append_nil] at hsent
      rw [hsent, flatten_append]
      exact congrArg (talk.replies.flatten ++ ·) (append_nil text).symm
    | _ => exact h.sent.trans (congrArg List.flatten (append_nil _).symm)
  lines := by
    rw [href, hrest]
    show ∃ taken, talk.received ++ receivedBy _ = _ ∧ _ = (talk.commands ++ commandsBy request).length ∧ _
    rw [hquiet.received, hquiet.commands, append_nil, append_nil]
    exact h.lines
  due := by
    show (talk.commands ++ commandsBy request).countP _ = (talk.replies ++ repliesBy request).length + _
    rw [href, htask, hquiet.commands, append_nil, h.due, length_append, ← (hquiet.next answer).1]
    omega
  watch hwatches := by
    rw [href, htask] at hwatches
    show (talk.commands ++ commandsBy request).getLast? = _
    rw [hquiet.commands, append_nil]
    exact h.watch ((hquiet.next answer).2 hwatches)

/-- A socket operation sends from what is owed. -/
theorem sentBy_prefix (hsocket : isAction request = false)
    (hsettles : talk.Settles request) (answer : MgmtRes request) :
    sentBy ⟨request, answer⟩ <+: talk.owed := by
  cases request with
  | sys request =>
    cases request with
    | read _ => exact nil_prefix
    | write buf =>
      obtain rfl : buf = talk.owed := hsettles
      cases answer with
      | ok w => exact take_prefix _ _
      | error errno => exact nil_prefix
    | writev iov =>
      have howed : iov.flatten = talk.owed := hsettles
      cases answer with
      | ok w => exact howed ▸ take_prefix _ _
      | error errno => exact nil_prefix
    | _ => cases hsocket
  | ioprioDrop => exact nil_prefix
  | ioprioRestore _ => exact nil_prefix
  | subscribing _ => exact nil_prefix
  | stepped _ _ => exact nil_prefix
  | closed _ => exact nil_prefix
  | _ => cases hsocket

theorem quiet_of_socket (hsocket : isAction request = false) :
    repliesBy request = [] ∧ commandsBy request = [] := by
  cases request with
  | reply _ => cases hsocket
  | command _ => cases hsocket
  | _ => exact ⟨rfl, rfl⟩

/-- A socket operation, or a mark. -/
theorem Kept.socket (h : Kept talk) (hsocket : isAction request = false)
    (hsettles : talk.Settles request) (answer : MgmtRes request) : Kept (talk.next ctx request answer) := by
  obtain ⟨hreplies, hcommands⟩ := quiet_of_socket hsocket
  have href : (talk.next ctx request answer).ref = talk.ref.grow (receivedBy ⟨request, answer⟩) := by
    show talk.ref.hears ctx request answer = _
    rw [Ref.hears, hsocket]
    rfl
  refine ⟨href ▸ h.ok.grow _, ?_, ?_, ?_, ?_⟩
  · show (talk.sent ++ sentBy ⟨request, answer⟩) ++ talk.owes request answer
      = (talk.replies ++ repliesBy request).flatten
    obtain ⟨left, hleft⟩ := sentBy_prefix hsocket hsettles answer
    rw [Talk.owes, hreplies, append_nil, ← h.sent]
    dsimp only
    rw [← hleft, drop_left, append_assoc]
  · show ∃ taken, talk.received ++ receivedBy ⟨request, answer⟩ = _ ∧
      _ = (talk.commands ++ commandsBy request).length ∧ _
    obtain ⟨taken, hreceived, hcount, hlast⟩ := h.lines
    rw [href, hcommands, append_nil]
    exact ⟨taken, by rw [hreceived, append_assoc]; rfl, hcount, hlast⟩
  · show (talk.commands ++ commandsBy request).countP _ = (talk.replies ++ repliesBy request).length + _
    rw [href, hcommands, hreplies, append_nil, append_nil]
    exact h.due
  · show _ → (talk.commands ++ commandsBy request).getLast? = _
    rw [href, hcommands, append_nil]
    exact h.watch

theorem Kept.next (h : Kept talk)
    (hmust : (talkContract ctx).must talk request) (answer : MgmtRes request) :
    Kept (talk.next ctx request answer) := by
  cases haction : isAction request with
  | false => exact h.socket haction hmust.2 answer
  | true =>
    obtain ⟨next, hstep⟩ := hmust.1 haction
    have href := (moved_of_step haction hstep answer).ref
    have hok := h.ok.step hstep answer
    rcases Ref.step_cases hstep with ⟨hidle, command, ref', htake, rfl, hnext⟩ | ⟨hbusy, next', htask, hnext⟩
    · obtain ⟨⟨taken, hreceived, hcount, hlast⟩, hdue, hwatch⟩ := h.take hidle htake
      rw [hnext] at href
      refine ⟨href ▸ RefOk.take htake, ?_, ?_, href ▸ ?_, fun hwatches => ?_⟩
      · show (talk.sent ++ []) ++ talk.owed.drop 0 = (talk.replies ++ []).flatten
        rw [append_nil, append_nil]
        exact h.sent
      · refine ⟨taken, ?_, ?_, hlast⟩
        · rw [href]
          exact (append_nil _).trans hreceived
        · show _ = (talk.commands ++ [command]).length
          rw [hcount, length_append]
          rfl
      · show (talk.commands ++ [command]).countP _ = (talk.replies ++ []).length + _
        rw [append_nil]
        exact hdue
      · rw [href] at hwatches
        show (talk.commands ++ [command]).getLast? = _
        rw [List.getLast?_concat, hwatch hwatches]
    · refine h.busy (Task.step_quiet htask) hmust.2 answer hok ?_ ?_ href
      · rw [hnext, Ref.behind_rest]
      · rw [hnext, Ref.behind_task]

theorem kept_start : Kept .start where
  ok := refOk_start
  sent := rfl
  lines := ⟨[], rfl, rfl, Or.inl rfl⟩
  due := rfl
  watch := nofun

theorem Ref.grow_grow (ref : Ref) (more rest : Bytes) :
    (ref.grow more).grow rest = ref.grow (more ++ rest) := by
  simp only [Ref.grow, append_assoc]

theorem received_of_action (haction : isAction request = true)
    (answer : MgmtRes request) : receivedBy ⟨request, answer⟩ = [] := by
  cases request with
  | sys request =>
    cases request with
    | read _ => cases haction
    | _ => rfl
  | _ => rfl

/-- A call that is to be made again leaves the reference where it is. -/
theorem Ref.step_retry {next : MgmtRes request → Ref}
    {answer : MgmtRes request} (h : ref.step ctx = some ⟨request, next⟩)
    (hretry : isRetry ⟨request, answer⟩ = true) : next answer = ref := by
  rcases Ref.step_cases h with ⟨-, command, ref', -, rfl, -⟩ | ⟨-, next', hstep, hnext⟩
  · cases hretry
  · rw [hnext]
    obtain ⟨rest, fields, task⟩ := ref
    cases task with
    | ready job =>
      cases hstep
      cases answer with
      | false => rfl
      | true => cases hretry
    | hash job data =>
      cases hstep
      unfold isRetry at hretry
      split at hretry
      · rename_i heq
        cases heq
      · rename_i heq
        cases heq
        rfl
      · cases hretry
    | _ =>
      cases hstep <;> cases hretry

/-- **A run follows its reference**, which may be given the whole stream at once. -/
theorem follows_of_runs {α : Type} {p q : MgmtIo α} {Q : α → Talk → Prop} {trace : MgmtRun}
    (h : wp (talkContract ctx) p Q talk) (hrun : Runs p trace q) (hok : RefOk talk.ref) (future : Bytes) :
    Follows (Ref.step ctx) (talk.ref.grow (mgmtReceived trace ++ future)) (mgmtActions trace)
      (((talkContract ctx).after talk trace).ref.grow future) := by
  induction hrun generalizing talk with
  | nil p => exact .nil _
  | @cons request next answer trace q tail ih =>
    obtain ⟨⟨hasks, -⟩, hnext⟩ := h
    have hrest := ih (hnext answer trivial)
    have hcat : mgmtReceived (⟨request, answer⟩ :: trace) ++ future
        = receivedBy ⟨request, answer⟩ ++ (mgmtReceived trace ++ future) := append_assoc _ _ _
    rw [hcat, ← Ref.grow_grow]
    cases haction : isAction request with
    | false =>
      have href : (talk.next ctx request answer).ref
          = talk.ref.grow (receivedBy ⟨request, answer⟩) := by
        show talk.ref.hears ctx request answer = _
        rw [Ref.hears, haction]
        rfl
      have hskip : mgmtActions (⟨request, answer⟩ :: trace) = mgmtActions trace :=
        filter_cons_of_neg (by rw [haction]; exact Bool.false_ne_true)
      rw [hskip, ← href]
      exact hrest (href ▸ hok.grow _)
    | true =>
      obtain ⟨after, hstep⟩ := hasks haction
      have href := (moved_of_step haction hstep answer).ref
      have hrest := hrest (href ▸ hok.step hstep answer)
      rw [show ((talkContract ctx).next talk request answer).ref = after answer from href] at hrest
      rw [received_of_action haction, Ref.grow_nil]
      cases hretry : isRetry ⟨request, answer⟩ with
      | true =>
        have hskip : mgmtActions (⟨request, answer⟩ :: trace) = mgmtActions trace :=
          filter_cons_of_neg (by rw [haction, hretry]; exact Bool.false_ne_true)
        rw [Ref.step_retry hstep hretry] at hrest
        rw [hskip]
        exact hrest
      | false =>
        have hkeep : mgmtActions (⟨request, answer⟩ :: trace)
            = ⟨request, answer⟩ :: mgmtActions trace :=
          filter_cons_of_pos (by rw [haction, hretry]; rfl)
        rw [hkeep]
        exact .cons (hok.step_grow hstep _) hrest

end Runs

/-! ### Fuel -/

section Fuel

variable {n fuel : Nat} {mgmt : Mgmt}

theorem mogMgmtWritev_lasts (hfuel : n ≤ fuel) (mgmt : Mgmt) (iov : List Bytes) :
    Lasts n (mogMgmtWritev fuel mgmt iov) := by
  refine lasts_require_bind (lasts_ask_bind fun _ => lasts_bind (lasts_embed ?_) fun _ => lasts_ret _ _)
  exact mogTrywritev_lasts (by omega) iov

theorem getPath_lasts (hfuel : n ≤ fuel) (mgmt : Mgmt) (buf : Bytes) : Lasts n (getPath fuel mgmt buf) := by
  unfold getPath
  split
  · exact lasts_ret _ _
  · exact lasts_bind (mogMgmtWritev_lasts hfuel mgmt _) fun _ => lasts_ret _ _

theorem openRead_lasts (n : Nat) (path : Bytes) : Lasts n (mogFileOpenRead path) := by
  refine lasts_bind (openExpireRetry_lasts (lasts_ask_bind fun _ => lasts_ret _ _)) fun answer => ?_
  split <;> exact lasts_ret _ _

theorem mgmtAction_lasts (hfuel : n ≤ fuel) (mgmt : Mgmt) (buf : Bytes) (fn : MgmtFn) :
    Lasts n (mgmtAction fuel mgmt buf fn) := by
  have hwritev := fun mgmt iov => mogMgmtWritev_lasts hfuel mgmt iov
  cases fn with
  | blank => exact hwritev _ _
  | size =>
    refine lasts_bind (getPath_lasts hfuel mgmt buf) fun path => ?_
    split
    · exact lasts_ret _ _
    · refine lasts_ask_bind fun answer => ?_
      split <;> exact (hwritev _ _).le (Nat.sub_le _ _)
  | digest =>
    refine lasts_bind (getPath_lasts hfuel mgmt buf) fun path => ?_
    split
    · exact lasts_ret _ _
    · refine lasts_bind (lasts_embed (openRead_lasts n _)) fun file => ?_
      split
      · exact lasts_ret _ _
      · exact hwritev _ _
  | watch => exact lasts_ret _ _
  | aioThreads =>
    refine lasts_require_bind (lasts_require_bind ?_)
    dsimp only
    split
    · exact lasts_ask_bind fun _ => (hwritev _ _).le (Nat.sub_le _ _)
    · exact hwritev _ _
  | shutdown => exact lasts_ask_bind fun _ => lasts_ret _ _
  | unknown => exact hwritev _ _

theorem mogMgmtParse_lasts (ctx : MgmtCtx) (hfuel : n ≤ fuel) (mgmt : Mgmt) (buf : Bytes) :
    Lasts n (mogMgmtParse ctx fuel mgmt buf) := by
  refine lasts_require_bind (lasts_require_bind ?_)
  split
  · exact lasts_ret _ _
  · exact lasts_ret _ _
  · exact lasts_ask_bind fun _ =>
      lasts_bind (mgmtAction_lasts (by omega) _ _ _) fun _ => lasts_ret _ _
  · exact lasts_abort _
  · rename_i hstuck
    exact absurd hstuck (mgmtExec_ne_stuck _ _ _ _)

theorem mgmtIostatForever_lasts (n : Nat) (mgmt : Mgmt) : Lasts n (mgmtIostatForever mgmt) :=
  lasts_ask_bind fun _ => lasts_ask_bind fun _ => lasts_ask_bind fun _ => lasts_ret _ _

theorem mgmtParseBuf_lasts (ctx : MgmtCtx) (hfuel : n ≤ fuel) (mgmt : Mgmt) (buf : Bytes) :
    Lasts n (mgmtParseBuf ctx fuel mgmt buf) := by
  refine lasts_bind (mogMgmtParse_lasts ctx hfuel mgmt buf) ?_
  rintro ⟨state, mgmt'⟩
  dsimp only
  split
  · exact lasts_ret _ _
  · cases state with
    | error => exact lasts_ret _ _
    | «continue» =>
      refine lasts_require_bind ?_
      split
      · exact lasts_require_bind (lasts_ret _ _)
      · exact lasts_ret _ _
    | done =>
      refine lasts_bind ?_ fun _ => lasts_ret _ _
      unfold mgmtDone
      split
      · exact mgmtIostatForever_lasts n mgmt'
      · refine lasts_bind (lasts_require_bind ?_) fun _ => lasts_require_bind (lasts_ret _ _)
        dsimp only
        split <;> exact lasts_ret _ _

theorem mgmtReread_lasts (ctx : MgmtCtx) (hfuel : n ≤ fuel) (mgmt : Mgmt) (buf : Bytes) :
    Lasts n (mgmtReread ctx fuel mgmt buf) := by
  induction fuel generalizing n mgmt buf with
  | zero =>
    obtain rfl := Nat.le_zero.mp hfuel
    trivial
  | succ fuel ih =>
    refine lasts_ask_bind fun answer => ?_
    split
    · split
      · exact lasts_ret _ _
      · refine lasts_bind (mgmtParseBuf_lasts ctx (by omega) _ _) fun parsed => ?_
        split
        · exact lasts_ret _ _
        · exact ih (by omega) _ _
    · split <;> exact lasts_ret _ _
    · exact ih (by omega) _ _
    · exact lasts_ret _ _

theorem mogDigestRead_lasts (n rounds : Nat) (file : MogFile) : Lasts n (mogDigestRead rounds file) := by
  induction rounds generalizing n file with
  | zero => exact lasts_ret _ _
  | succ rounds ih =>
    refine lasts_ask_bind fun answer => ?_
    split
    · split
      · exact ih _ _
      · exact lasts_ret _ _
    · exact ih _ _
    · exact lasts_ret _ _

/-- Each round of the loop reads at least once. -/
theorem digestWhole_lasts (hfuel : n ≤ fuel) (file : MogFile) : Lasts n (digestWhole fuel file) := by
  induction fuel generalizing n file with
  | zero =>
    obtain rfl := Nat.le_zero.mp hfuel
    trivial
  | succ fuel ih =>
    cases n with
    | zero => trivial
    | succ n =>
      rw [digestWhole, show digestRounds = 1022 + 1 from rfl, mogDigestRead, Prog.bind_assoc]
      refine lasts_ask_bind fun answer => lasts_bind ?_ fun digested => ?_
      · split
        · split
          · exact mogDigestRead_lasts _ _ _
          · exact lasts_ret _ _
        · exact mogDigestRead_lasts _ _ _
        · exact lasts_ret _ _
      · split
        · exact ih (Nat.le_of_succ_le_succ hfuel) _
        · exact lasts_ret _ _

theorem mgmtDigestInProgress_lasts (ctx : MgmtCtx) (hfuel : n ≤ fuel) (mgmt : Mgmt) :
    Lasts n (mgmtDigestInProgress ctx fuel mgmt) := by
  have hwritev := fun mgmt iov => mogMgmtWritev_lasts hfuel mgmt iov
  have hdone : ∀ mgmt file, Lasts n (digestDone mgmt file) := by
    intro mgmt file
    unfold digestDone
    split
    · exact lasts_ask_bind fun _ => lasts_ask_bind fun _ => lasts_ret _ _
    · exact lasts_ask_bind fun _ => lasts_ret _ _
  have hstepped : ∀ file, Lasts n (digestStepped ctx fuel mgmt file) := by
    intro file
    refine lasts_bind (lasts_bind ?_ ?_) fun _ => lasts_ret _ _
    · unfold digestReadSome
      split
      · refine lasts_ask_bind fun ioprio => lasts_bind ((digestWhole_lasts hfuel file).le (Nat.sub_le _ _)) fun _ => ?_
        split
        · exact lasts_ask_bind fun _ => lasts_ret _ _
        · exact lasts_ret _ _
      · exact mogDigestRead_lasts _ _ _
    · rintro ⟨next, file⟩
      refine lasts_require_bind ?_
      cases next with
      | «continue» => exact lasts_ret _ _
      | eof => exact lasts_bind (hwritev _ _) fun _ => hdone _ _
      | error =>
        refine lasts_bind (lasts_ask_bind fun _ => ?_) fun _ => hdone _ _
        exact (hwritev _ _).le (Nat.sub_le _ _)
  unfold mgmtDigestInProgress
  split
  · exact lasts_abort _
  · exact lasts_abort _
  · split
    · exact hstepped _
    · refine lasts_ask_bind fun now => ?_
      split
      · exact (hstepped _).le (Nat.sub_le _ _)
      · exact lasts_ret _ _

theorem mgmtQueueStep_lasts (ctx : MgmtCtx) (hfuel : n ≤ fuel) (mgmt : Mgmt) :
    Lasts n (mgmtQueueStep ctx fuel mgmt) := by
  unfold mgmtQueueStep
  split
  · unfold mgmtWbufInProgress
    split
    · exact lasts_abort _
    · exact lasts_abort _
    · refine lasts_bind (lasts_embed (mogTryflush_lasts hfuel _ _)) ?_
      rintro ⟨state, wbuf⟩
      dsimp only
      split
      · exact lasts_ret _ _
      · exact lasts_ret _ _
      · split
        · exact mgmtIostatForever_lasts n _
        · exact lasts_ret _ _
  · split
    · exact mgmtDigestInProgress_lasts ctx hfuel mgmt
    · refine lasts_require_bind ?_
      split
      · exact mgmtReread_lasts ctx hfuel mgmt _
      · split
        · refine lasts_bind (mgmtParseBuf_lasts ctx hfuel mgmt _) fun parsed => ?_
          split
          · exact lasts_ret _ _
          · exact mgmtReread_lasts ctx hfuel _ _
        · exact mgmtReread_lasts ctx hfuel mgmt _

/-- **A client stops for want of fuel only after that many calls.** -/
theorem mgmtServe_lasts (ctx : MgmtCtx) (hfuel : n < fuel) (mgmt : Mgmt) :
    Lasts n (mgmtServe ctx fuel mgmt) := by
  induction fuel generalizing n mgmt with
  | zero => omega
  | succ fuel ih =>
    rw [mgmtServe, mogMgmtQueueStep, Prog.bind_assoc]
    refine lasts_bind (mgmtQueueStep_lasts ctx (Nat.le_of_lt_succ hfuel) mgmt) ?_
    rintro ⟨mgmt', next⟩
    have hrest : ∀ m, m < n → ∀ result : Mgmt × MgmtNext, Lasts m (do
        let stepped ← pure result
        if stepped.2 = .close || (stepped.2 = .ignore && stepped.1.forward = .iostat) then pure ()
        else mgmtServe ctx fuel stepped.1) := by
      intro m hm result
      show Lasts m (if _ then _ else _)
      split
      · exact lasts_ret _ _
      · exact ih (by omega) result.1
    dsimp only
    rw [Prog.bind_assoc]
    cases n with
    | zero => trivial
    | succ n =>
      refine lasts_ask_bind fun _ => ?_
      split
      · refine lasts_bind ?_ fun result => hrest n (Nat.lt_succ_self n) result
        exact lasts_bind (lasts_require_bind (lasts_ask_bind fun _ => lasts_ret _ _)) fun _ =>
          lasts_ret _ _
      · exact hrest n (Nat.lt_succ_self n) _

end Fuel

/-! ### Framing -/

/-- What was executed so far has been answered, and the answers have been sent. -/
def Settled (trace : MgmtRun) : Prop :=
  mgmtSent trace = (mgmtReplies trace).flatten ∧
    (mgmtReplies trace).length = (mgmtCommands trace).countP Command.replies

/-- The client asks for more input. -/
def AwaitsInput (q : MgmtIo Unit) : Prop := ∃ size next, q = call (.sys (.read size)) next

/-- Why a client may be closed: it has gone, or behind the lines that were executed there is one that
starts with a stray `\r`, or one that does not fit the buffer. -/
def MayClose (trace : MgmtRun) : Prop :=
  mgmtGone trace = true ∨
  ∃ lines rest, mgmtReceived trace = lines ++ rest ∧ lines.count LF = (mgmtCommands trace).length ∧
    (lines = [] ∨ lines.getLast? = some LF) ∧
    (BadLine rest ∨ (MOG_RBUF_BASE_SIZE ≤ rest.length ∧ LF ∉ rest))

/-- What holds of a client that has done `trace` and goes on as `q`. -/
structure Framed (trace : MgmtRun) (q : MgmtIo Unit) : Prop where
  unfailing : q ≠ abort
  /-- More is read only when every complete line has been executed and answered. -/
  served : AwaitsInput q →
    (mgmtReceived trace).count LF = (mgmtCommands trace).length ∧ Settled trace
  /-- A command starts only when those before it have been answered. -/
  ordered : ∀ command next, q = call (.command command) next → Settled trace
  closed : ∀ mgmt next, q = call (.stepped .close mgmt) next → MayClose trace
  ended : q = ret () → MayClose trace ∨ (mgmtCommands trace).getLast? = some .watch

section Framing

variable {ctx : MgmtCtx} {fuel : Nat} {trace : MgmtRun} {q : MgmtIo Unit}

/-- The ghost state at the end of a run. -/
abbrev talkAfter (ctx : MgmtCtx) (trace : MgmtRun) : Talk := (talkContract ctx).after .start trace

theorem kept_after (hrun : Runs (mgmtServe ctx fuel mogMgmtInit) trace q) : Kept (talkAfter ctx trace) :=
  inv_of_runs (fun _ _ answer hkept hmust _ => hkept.next hmust answer)
    (wp_mgmtServe fuel (holds_init ctx)) hrun (allows_of_may fun _ _ _ => trivial) kept_start

theorem wp_after (hrun : Runs (mgmtServe ctx fuel mogMgmtInit) trace q) :
    wp (talkContract ctx) q (fun _ talk => talk.Ends ∨ talk.ref.task = .watching) (talkAfter ctx trace) :=
  wp_of_runs (wp_mgmtServe fuel (holds_init ctx)) hrun (allows_of_may fun _ _ _ => trivial)

/-- Nothing is owed and nothing is due. -/
theorem settled_of_idle (hrun : Runs (mgmtServe ctx fuel mogMgmtInit) trace q)
    (hidle : (talkAfter ctx trace).ref.task = .idle) (howed : (talkAfter ctx trace).owed = []) :
    Settled trace := by
  have hkept := kept_after hrun
  have hshows := shows_after ctx .start trace
  have hsent := hkept.sent
  have hdue := hkept.due
  rw [howed, append_nil, hshows.sent, hshows.replies] at hsent
  rw [hidle, hshows.commands, hshows.replies] at hdue
  exact ⟨hsent, hdue.symm⟩

theorem mayClose_of_ends (hrun : Runs (mgmtServe ctx fuel mogMgmtInit) trace q)
    (hends : (talkAfter ctx trace).Ends) : MayClose trace := by
  have hshows := shows_after ctx .start trace
  rcases hends with hgone | hrest
  · rw [hshows.gone] at hgone
    exact Or.inl hgone
  · obtain ⟨taken, hreceived, hcount, hlast⟩ := (kept_after hrun).lines
    rw [hshows.received] at hreceived
    rw [hshows.commands] at hcount
    exact Or.inr ⟨taken, _, hreceived, hcount, hlast, hrest⟩

theorem framed_of_runs (hrun : Runs (mgmtServe ctx fuel mogMgmtInit) trace q) : Framed trace q := by
  have hwp := wp_after hrun
  have hshows := shows_after ctx .start trace
  refine ⟨?_, ?_, ?_, ?_, ?_⟩
  · rintro rfl
    exact hwp
  · rintro ⟨size, next, rfl⟩
    obtain ⟨⟨-, hidle, howed, hlf⟩, -⟩ := hwp
    refine ⟨?_, settled_of_idle hrun hidle howed⟩
    obtain ⟨taken, hreceived, hcount, -⟩ := (kept_after hrun).lines
    rw [hshows.received] at hreceived
    rw [hshows.commands] at hcount
    rw [show mgmtReceived trace = _ from hreceived, count_append, count_eq_zero.mpr hlf]
    exact hcount
  · rintro command next rfl
    obtain ⟨⟨hasks, howed⟩, -⟩ := hwp
    obtain ⟨after, hstep⟩ := hasks rfl
    rcases Ref.step_cases hstep with ⟨hidle, -⟩ | ⟨-, next', htask, -⟩
    · exact settled_of_idle hrun hidle howed
    · have hquiet := (Task.step_quiet htask).commands
      cases hquiet
  · rintro mgmt next rfl
    exact mayClose_of_ends hrun hwp.1.2
  · rintro rfl
    rcases hwp with hends | hwatch
    · exact Or.inl (mayClose_of_ends hrun hends)
    · have hlast := (kept_after hrun).watch (by rw [hwatch]; rfl)
      rw [hshows.commands] at hlast
      exact Or.inr hlast

/-- Commands and replies are actions. -/
theorem quiet_of_skipped {entry : Σ request : MgmtCall, MgmtRes request}
    (h : (isAction entry.1 && !isRetry entry) = false) :
    commandsBy entry.1 = [] ∧ repliesBy entry.1 = [] := by
  obtain ⟨request, answer⟩ := entry
  cases request with
  | command _ => cases h
  | reply _ => cases h
  | _ => exact ⟨rfl, rfl⟩

theorem of_actions (trace : MgmtRun) :
    mgmtCommands (mgmtActions trace) = mgmtCommands trace ∧
      mgmtReplies (mgmtActions trace) = mgmtReplies trace := by
  induction trace with
  | nil => exact ⟨rfl, rfl⟩
  | cons entry trace ih =>
    cases hkeep : (isAction entry.1 && !isRetry entry) with
    | true =>
      rw [show mgmtActions (entry :: trace) = entry :: mgmtActions trace from
        filter_cons_of_pos hkeep]
      exact ⟨congrArg (commandsBy entry.1 ++ ·) ih.1, congrArg (repliesBy entry.1 ++ ·) ih.2⟩
    | false =>
      obtain ⟨hcommands, hreplies⟩ := quiet_of_skipped hkeep
      rw [show mgmtActions (entry :: trace) = mgmtActions trace from
        filter_cons_of_neg (by rw [hkeep]; exact Bool.false_ne_true)]
      refine ⟨ih.1.trans ?_, ih.2.trans ?_⟩
      · show _ = commandsBy entry.1 ++ mgmtCommands trace
        rw [hcommands, nil_append]
      · show _ = repliesBy entry.1 ++ mgmtReplies trace
        rw [hreplies, nil_append]

/-- An idle reference goes on with a command only. -/
theorem actions_eq_of_isPrefix {state final final' : Ref} {first second : MgmtRun}
    (h : Follows (Ref.step ctx) state first final) (h' : Follows (Ref.step ctx) state second final')
    (hstarts : first <+: second) (hidle : final.task = .idle)
    (hcount : (mgmtCommands first).length = (mgmtCommands second).length) : first = second := by
  obtain ⟨rest, rfl⟩ := hstarts
  cases h.rest h' with
  | nil => exact (append_nil first).symm
  | cons hstep tail =>
    rcases Ref.step_cases hstep with ⟨-, command, ref', -, rfl, -⟩ | ⟨hbusy, -⟩
    · rw [mgmtCommands, mgmtCommands, flatMap_append, length_append, flatMap_cons] at hcount
      simp [commandsBy] at hcount
    · exact absurd hidle hbusy

/-- **Commands are framed independently of segmentation.** Two clients get parts of one stream, cut into
reads and mixed with blocked and interrupted calls in any way. Each executes every complete line once, in
order, and answers it before the next; unless the system answered one of their calls differently they do
the same, and when they have seen the same lines they have sent the same bytes. -/
theorem mgmt_lines_framed (ctx : MgmtCtx) (stream : Bytes) {fuel fuel' : Nat} {trace trace' : MgmtRun}
    {q q' : MgmtIo Unit} (hrun : Runs (mgmtServe ctx fuel mogMgmtInit) trace q)
    (hrun' : Runs (mgmtServe ctx fuel' mogMgmtInit) trace' q')
    (hstream : mgmtReceived trace <+: stream) (hstream' : mgmtReceived trace' <+: stream) :
    Framed trace q ∧
    (mgmtActions trace <+: mgmtActions trace' ∨ mgmtActions trace' <+: mgmtActions trace ∨
      Differ (mgmtActions trace) (mgmtActions trace')) ∧
    (AwaitsInput q → AwaitsInput q' → (mgmtReceived trace).count LF = (mgmtReceived trace').count LF →
      ¬ Differ (mgmtActions trace) (mgmtActions trace') →
      mgmtActions trace = mgmtActions trace' ∧ mgmtSent trace = mgmtSent trace') ∧
    ∀ calls, ∃ enough, Lasts calls (mgmtServe ctx enough mogMgmtInit) := by
  obtain ⟨future, rfl⟩ := hstream
  obtain ⟨future', hfuture'⟩ := hstream'
  have hfollows := follows_of_runs (wp_mgmtServe fuel (holds_init ctx)) hrun refOk_start future
  have hfollows' := follows_of_runs (wp_mgmtServe fuel' (holds_init ctx)) hrun' refOk_start future'
  rw [hfuture'] at hfollows'
  have hagree := hfollows.agree hfollows'
  refine ⟨framed_of_runs hrun, hagree, fun hawaits hawaits' hlines hsame => ?_,
    fun calls => ⟨calls + 1, mgmtServe_lasts ctx (Nat.lt_succ_self calls) _⟩⟩
  obtain ⟨hserved, hsettled⟩ := (framed_of_runs hrun).served hawaits
  obtain ⟨hserved', hsettled'⟩ := (framed_of_runs hrun').served hawaits'
  have hcount : (mgmtCommands (mgmtActions trace)).length = (mgmtCommands (mgmtActions trace')).length := by
    rw [(of_actions trace).1, (of_actions trace').1, ← hserved, ← hserved', hlines]
  have hidle : (talkAfter ctx trace).ref.task = .idle := by
    obtain ⟨size, next, rfl⟩ := hawaits
    exact (wp_after hrun).1.2.1
  have hidle' : (talkAfter ctx trace').ref.task = .idle := by
    obtain ⟨size, next, rfl⟩ := hawaits'
    exact (wp_after hrun').1.2.1
  have hactions : mgmtActions trace = mgmtActions trace' := by
    rcases hagree with hstarts | hstarts | hdiffer
    · exact actions_eq_of_isPrefix hfollows hfollows' hstarts hidle hcount
    · exact (actions_eq_of_isPrefix hfollows' hfollows hstarts hidle' hcount.symm).symm
    · exact absurd hdiffer hsame
  refine ⟨hactions, ?_⟩
  rw [hsettled.1, hsettled'.1, ← (of_actions trace).2, ← (of_actions trace').2, hactions]

/-- An empty line in one read. -/
def lineAtOnce : MgmtRun :=
  [⟨.sys (.read 496), .ok ⟨[CR, LF], by decide⟩⟩, ⟨.command .blank, ()⟩, ⟨.reply [CR, LF], ()⟩,
    ⟨.sys (.writev [[CR, LF]]), .ok 2⟩, ⟨.stepped .active mogMgmtInit, ()⟩]

/-- The same line in two reads, with its reply blocked at first. -/
def lineInPieces : MgmtRun :=
  [⟨.sys (.read 496), .ok ⟨[CR], by decide⟩⟩, ⟨.sys (.read 495), .error .EAGAIN⟩,
    ⟨.stepped .waitRd { mogMgmtInit with cs := .eorLf .blank, offset := 1, rbuf := some [CR] }, ()⟩,
    ⟨.sys (.read 495), .ok ⟨[LF], by decide⟩⟩, ⟨.command .blank, ()⟩, ⟨.reply [CR, LF], ()⟩,
    ⟨.sys (.writev [[CR, LF]]), .error .EAGAIN⟩,
    ⟨.stepped .waitWr { mogMgmtInit with wbuf := .pending [CR, LF] 0 }, ()⟩,
    ⟨.sys (.write [CR, LF]), .ok 2⟩, ⟨.stepped .active mogMgmtInit, ()⟩]

theorem mgmt_lines_framed_blank :
    mgmtActions lineAtOnce = mgmtActions lineInPieces ∧ mgmtSent lineAtOnce = mgmtSent lineInPieces := by
  have hrun : Runs (mgmtServe zeroHashCtx 9 mogMgmtInit) lineAtOnce _ :=
    .cons (.cons (.cons (.cons (.cons (.nil _)))))
  have hrun' : Runs (mgmtServe zeroHashCtx 9 mogMgmtInit) lineInPieces _ :=
    .cons (.cons (.cons (.cons (.cons (.cons (.cons (.cons (.cons (.cons (.nil _))))))))))
  exact (mgmt_lines_framed zeroHashCtx [CR, LF] hrun hrun' (prefix_refl _) (prefix_refl _)).2.2.1
    ⟨_, _, rfl⟩ ⟨_, _, rfl⟩ rfl (not_differ_self _)

end Framing

end Cmogstored
