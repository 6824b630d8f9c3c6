import Cmogstored.MgmtPrio

/-! Which digests get fsck treatment: along a run of a management client, what is known of `mgmt->prio` is
carried from line to line. It fits the line at hand as long as every line that sets it starts its digest. -/

namespace Cmogstored

open Prog Scan Reference

variable {request : MgmtCall} {trace : MgmtRun} {last : LastLine}

/-! ### Runs -/

/-- Where the reference stands, and what the run has shown of its lines. -/
structure LinesKept (ref : Ref) (last : LastLine) : Prop where
  ok : RefOk ref
  rest : last.rest = ref.rest
  prio : PrioKept ref.task ref.fields.prio last

section Runs

variable {ctx : MgmtCtx} {ref : Ref} {last : LastLine}

theorem linesKept_start : LinesKept .start .start :=
  ⟨refOk_start, rfl, .of_left rfl rfl rfl nofun⟩

/-- Another line. -/
theorem LinesKept.take {command : Command} {ref' : Ref} (h : LinesKept ref last) (hidle : ref.task = .idle)
    (htake : ref.take true = some (command, ref')) (hclean : last.Clean) :
    LinesKept ref' (last.next ⟨.command command, ()⟩) := by
  obtain ⟨fields, pos, fn, hexec, rfl, rfl⟩ := Ref.take_eq htake
  have hend := lineEnd_mgmtExec true h.ok.start ref.rest
  have hcommand := commandEnd_mgmtExec true ref.rest h.ok.start
  rw [hexec] at hend hcommand
  obtain ⟨k, rfl, hlf, hno⟩ := hend
  have hnone : ref.fields.prio ≠ .fsck := by
    intro hfsck
    obtain ⟨hfires, hopened⟩ := h.prio.left (by rw [hidle]; rfl) hfsck
    rw [hclean.1 hfires] at hopened
    cases hopened
  have hfires : fields.prio = .fsck ↔ FiresFsck (headLine last.rest) := by
    rw [h.rest, ← firesFsck_headLine hlf hno]
    refine ⟨fun hfsck => ?_, mgmtExec_prio_fsck h.ok.start hexec⟩
    rcases hcommand.2 with hsame | hfires
    · exact absurd (hsame.symm.trans hfsck) hnone
    · exact hfires
  have hline : fields.prio = .fsck ↔ IsFsckLine (headLine last.rest) :=
    ⟨fun hfsck => hclean.2 (hfires.mp hfsck), fun hline => hfires.mpr hline.fires⟩
  refine ⟨⟨rfl, rfl, rfl⟩, ?_, prioKept_start ?_ hline fun hfsck => ⟨hfires.mp hfsck, rfl⟩⟩
  · show tailLines last.rest = ref.rest.drop (k + 1)
    rw [tailLines, h.rest, idxOf_lf hlf hno]
  · intro alg p path hdigest
    cases fn <;> cases hdigest
    rfl

theorem LastLine.next_rest (haction : isAction request = true)
    (hcommand : ∀ command, request ≠ .command command) (answer : MgmtRes request) :
    (last.next ⟨request, answer⟩).rest = last.rest := by
  cases request with
  | sys request =>
    cases request with
    | read size => cases haction
    | openRead path => cases answer <;> rfl
    | _ => rfl
  | command command => exact absurd rfl (hcommand command)
  | _ => rfl

/-- A call of the command at hand. -/
theorem LinesKept.busy {next : MgmtRes request → Task} (h : LinesKept ref last)
    (hstep : ref.task.step ctx = some ⟨request, next⟩) (haction : isAction request = true)
    (hcommand : ∀ command, request ≠ .command command) (answer : MgmtRes request) :
    LinesKept (ref.behind (next answer)) (last.next ⟨request, answer⟩) := by
  refine ⟨h.ok.behind _, ?_, ?_⟩
  · rw [LastLine.next_rest haction hcommand, Ref.behind_rest]
    exact h.rest
  · obtain ⟨rest, fields, task⟩ := ref
    by_cases hclose : ∃ job, task = .close job
    · obtain ⟨job, rfl⟩ := hclose
      cases hstep
      exact .of_left rfl rfl rfl nofun
    · have hsame : (Ref.behind ⟨rest, fields, task⟩ (next answer)).fields = fields := by
        unfold Ref.behind
        split
        · rename_i job htask
          exact absurd ⟨job, htask⟩ hclose
        · rfl
      rw [Ref.behind_task, hsame]
      exact h.prio.step hstep answer fun job htask => hclose ⟨job, htask⟩

/-- A call that is no action. -/
theorem LinesKept.grow (h : LinesKept ref last) (haction : isAction request = false)
    (answer : MgmtRes request) :
    LinesKept (ref.grow (receivedBy ⟨request, answer⟩)) (last.next ⟨request, answer⟩) := by
  have hsame : LinesKept (ref.grow []) last := by
    rw [Ref.grow_nil]
    exact h
  cases request with
  | sys request =>
    cases request with
    | read size =>
      cases answer with
      | ok data =>
        exact ⟨h.ok.grow _, congrArg (· ++ data.val) h.rest,
          ⟨h.prio.opens, h.prio.job, h.prio.queues, h.prio.left⟩⟩
      | error errno => exact hsame
    | write bytes => exact hsame
    | writev iov => exact hsame
    | _ => cases haction
  | ioprioDrop => exact hsame
  | ioprioRestore ioprio => exact hsame
  | subscribing mgmt => exact hsame
  | stepped next mgmt => exact hsame
  | closed mgmt => exact hsame
  | _ => cases haction

/-- **One call** of a client: the lines before another one is executed are clean. -/
theorem LinesKept.next {talk : Talk} (h : LinesKept talk.ref last)
    (hopen : ctx.accepting = true) (hmust : (talkContract ctx).must talk request)
    (hclean : ∀ command, request = .command command → last.Clean) (answer : MgmtRes request) :
    LinesKept (talk.next ctx request answer).ref (last.next ⟨request, answer⟩) := by
  cases haction : isAction request with
  | false =>
    have href : (talk.next ctx request answer).ref = talk.ref.grow (receivedBy ⟨request, answer⟩) := by
      show talk.ref.hears ctx request answer = _
      rw [Ref.hears, haction]
      rfl
    rw [href]
    exact h.grow haction answer
  | true =>
    obtain ⟨next, hstep⟩ := hmust.1 haction
    rw [(moved_of_step haction hstep answer).ref]
    rcases Ref.step_cases hstep with ⟨hidle, command, ref', htake, rfl, hnext⟩ | ⟨-, next', htask, hnext⟩
    · rw [hnext]
      rw [hopen] at htake
      exact h.take hidle htake (hclean command rfl)
    · rw [hnext]
      refine h.busy htask haction ?_ answer
      rintro command rfl
      cases (Task.step_quiet htask).commands

/-- The condition on the lines of a run that starts behind `last`. -/
def CleanFrom (last : LastLine) (trace : MgmtRun) : Prop :=
  ∀ before command behind, trace = before ++ ⟨.command command, ()⟩ :: behind → (last.after before).Clean

theorem CleanFrom.tail {entry : Σ request : MgmtCall, MgmtRes request}
    (h : CleanFrom last (entry :: trace)) : CleanFrom (last.next entry) trace := by
  rintro before command behind rfl
  exact h (entry :: before) command behind rfl

/-- **A whole run.** -/
theorem linesKept_of_runs {α : Type} {p q : MgmtIo α} {Q : α → Talk → Prop} {talk : Talk}
    (hopen : ctx.accepting = true) (hwp : wp (talkContract ctx) p Q talk) (hrun : Runs p trace q)
    (h : LinesKept talk.ref last) (hclean : CleanFrom last trace) :
    LinesKept ((talkContract ctx).after talk trace).ref (last.after trace) := by
  induction hrun generalizing talk last with
  | nil p => exact h
  | @cons request next answer trace q tail ih =>
    obtain ⟨hmust, hnext⟩ := hwp
    refine ih (hnext answer trivial) (h.next hopen hmust ?_ answer) hclean.tail
    rintro command rfl
    exact hclean [] command trace rfl

theorem CleanFrom.append {first second : MgmtRun} (h : CleanFrom last (first ++ second)) :
    CleanFrom last first ∧ CleanFrom (last.after first) second := by
  constructor
  · rintro before command behind rfl
    exact h before command (behind ++ second) (by simp)
  · rintro before command behind rfl
    have hclean := h (first ++ before) command behind (by simp)
    rwa [LastLine.after, List.foldl_append] at hclean

end Runs

/-! ### Clients -/

/-- A client that has been accepted, has made the calls of `trace` in any number of steps, and has more
steps to come. -/
inductive MgmtReached (ctx : MgmtCtx) : Mgmt → MgmtRun → Prop where
  | init : MgmtReached ctx mogMgmtInit []
  | step {fuel : Nat} {mgmt mgmt' : Mgmt} {trace trace' : MgmtRun} {next : MgmtNext}
      (reached : MgmtReached ctx mgmt trace)
      (hrun : Runs (mogMgmtQueueStep ctx fuel mgmt) trace' (ret (mgmt', next))) (hclose : next ≠ .close)
      (hwatch : next = .ignore → mgmt'.forward ≠ .iostat) : MgmtReached ctx mgmt' (trace ++ trace')

/-- The line that was executed last. -/
abbrev lastLine (trace : MgmtRun) : Bytes := (LastLine.start.after trace).line

/-- **Only fsck digests get fsck treatment**: of a client that has made the calls of `trace`, and of its next
step when this has made those of `trace'` and goes on as `q`. -/
structure FsckOnly (mgmt : Mgmt) (trace trace' : MgmtRun) (q : MgmtIo (Mgmt × MgmtNext)) : Prop where
  /-- the digest that the step executes -/
  executes : ∀ file, mgmt.forward = .file file → (mgmt.prio = .fsck ↔ IsFsckLine (lastLine trace))
  /-- `mog_fsck_queue_ready`: a digest that may have to wait -/
  waits : ∀ fd next, q = call (.fsckQueueReady fd) next → IsFsckLine (lastLine (trace ++ trace'))
  /-- `mog_fsck_queue_next`: a digest that has waited -/
  leaves : ∀ fd next, q = call (.fsckQueueNext fd) next → IsFsckLine (lastLine (trace ++ trace'))
  /-- `mog_ioprio_drop`: a digest that is read with a low I/O priority -/
  drops : ∀ next, q = call .ioprioDrop next → IsFsckLine (lastLine (trace ++ trace'))
  /-- `mog_ioprio_restore` -/
  restores : ∀ ioprio next, q = call (.ioprioRestore ioprio) next → IsFsckLine (lastLine (trace ++ trace'))

section Clients

variable {ctx : MgmtCtx} {mgmt : Mgmt} {trace : MgmtRun}

theorem MgmtReached.holds (h : MgmtReached ctx mgmt trace) : TalkHolds ctx mgmt (talkAfter ctx trace) := by
  induction h with
  | init => exact holds_init ctx
  | @step fuel mgmt mgmt' trace trace' next _ hrun hclose hwatch ih =>
    have hstepped := wp_of_runs (wp_mogMgmtQueueStep fuel ih) hrun (allows_of_may fun _ _ _ => trivial)
    rw [← (talkContract ctx).after_append] at hstepped
    rcases hstepped with ⟨hnext, -⟩ | ⟨hnext, hforward, -⟩ | ⟨-, hholds⟩
    · exact absurd hnext hclose
    · exact absurd hforward (hwatch hnext)
    · exact hholds

theorem MgmtReached.lines (h : MgmtReached ctx mgmt trace) (hopen : ctx.accepting = true)
    (hclean : CleanFrom .start trace) : LinesKept (talkAfter ctx trace).ref (LastLine.start.after trace) := by
  induction h with
  | init => exact linesKept_start
  | @step fuel mgmt mgmt' trace trace' next reached hrun _ _ ih =>
    obtain ⟨hfirst, hsecond⟩ := hclean.append
    have hlines := linesKept_of_runs hopen (wp_mogMgmtQueueStep fuel reached.holds) hrun (ih hfirst) hsecond
    rw [← (talkContract ctx).after_append] at hlines
    rwa [LastLine.after, List.foldl_append]

/-- A call of the fsck queue. -/
theorem LinesKept.queues {ref : Ref} (h : LinesKept ref last)
    (hasks : Asks (Ref.step ctx) ref request)
    (hqueue : (∃ fd, request = .fsckQueueReady fd) ∨ ∃ fd, request = .fsckQueueNext fd) :
    IsFsckLine last.line := by
  obtain ⟨next, hstep⟩ := hasks
  rcases Ref.step_cases hstep with ⟨-, command, -, -, rfl, -⟩ | ⟨-, next', htask, -⟩
  · rcases hqueue with ⟨fd, hfd⟩ | ⟨fd, hfd⟩ <;> cases hfd
  · have hjob : ref.task.queues = true ∧ ∃ job, ref.task.job = some job := by
      rcases hqueue with ⟨fd, rfl⟩ | ⟨fd, rfl⟩ <;> cases hcase : ref.task <;> rw [hcase] at htask <;> cases htask <;>
        exact ⟨rfl, _, rfl⟩
    obtain ⟨hqueues, job, hjob⟩ := hjob
    exact (h.prio.job job hjob).2.mp (h.prio.queues hqueues)

theorem LinesKept.atFsck {ref : Ref} (h : LinesKept ref last) (hfsck : ref.AtFsck) : IsFsckLine last.line := by
  obtain ⟨job, hjob, hprio⟩ := hfsck
  obtain ⟨hsame, hline⟩ := h.prio.job job hjob
  exact hline.mp (hsame.symm.trans hprio)

/-- **Only fsck digests get fsck treatment**, in every run of a client whose lines are clean: a line whose
reason starts with `fsck` has exactly this reason, and its file has been opened before another line is
executed. -/
theorem fsck_only_of_clean (hopen : ctx.accepting = true) (hreached : MgmtReached ctx mgmt trace) {fuel : Nat}
    {trace' : MgmtRun} {q : MgmtIo (Mgmt × MgmtNext)} (hrun : Runs (mogMgmtQueueStep ctx fuel mgmt) trace' q)
    (hclean : CleanFrom .start (trace ++ trace')) : FsckOnly mgmt trace trace' q := by
  obtain ⟨hfirst, hsecond⟩ := hclean.append
  have hlines := hreached.lines hopen hfirst
  have hwp := wp_mogMgmtQueueStep fuel hreached.holds
  have hnow := linesKept_of_runs hopen hwp hrun hlines hsecond
  have hgoes := wp_of_runs hwp hrun (allows_of_may fun _ _ _ => trivial)
  have hlast : lastLine (trace ++ trace') = ((LastLine.start.after trace).after trace').line := by
    rw [lastLine, LastLine.after, List.foldl_append]
    rfl
  refine ⟨fun file hforward => ?_, fun fd next hq => ?_, fun fd next hq => ?_, fun next hq => ?_,
    fun ioprio next hq => ?_⟩
  · have hdoing := hreached.holds.doing
    unfold Doing at hdoing
    rw [hforward] at hdoing
    obtain ⟨job, data, hhashing, htask⟩ := hdoing
    have hjob : (talkAfter ctx trace).ref.task.job = some job := by
      rw [htask, Job.at_]
      split <;> rfl
    obtain ⟨hprio, hline⟩ := hlines.prio.job job hjob
    rw [hhashing.prio, hprio]
    exact hline
  · subst hq
    rw [hlast]
    exact hnow.queues (hgoes.1.1 rfl) (Or.inl ⟨fd, rfl⟩)
  · subst hq
    rw [hlast]
    exact hnow.queues (hgoes.1.1 rfl) (Or.inr ⟨fd, rfl⟩)
  · subst hq
    rw [hlast]
    exact hnow.atFsck hgoes.1.2
  · subst hq
    rw [hlast]
    exact hnow.atFsck hgoes.1.2

/-! ### Two clients -/

theorem cleanFrom_nil : CleanFrom last [] := by
  intro before command behind htrace
  cases before <;> cases htrace

theorem cleanFrom_cons {answer : MgmtRes request}
    (hcommand : ∀ command, request = .command command → last.Clean)
    (h : CleanFrom (last.next ⟨request, answer⟩) trace) : CleanFrom last (⟨request, answer⟩ :: trace) := by
  intro before command behind htrace
  cases before with
  | nil =>
    cases htrace
    exact hcommand command rfl
  | cons entry before =>
    cases htrace
    exact h before command behind rfl

/-- A client for which the file of a digest has been opened. -/
def digestClient (prio : Prio) (path : Bytes) : Mgmt :=
  { mogMgmtInit with
    prio := prio
    forward := .file
      { fd := 9, fsize := -1, foff := 0, path := some path, tmppath := none, digest := some [] } }

/-- `MD5 /a fsck` -/
def fsckLine : Bytes := [77, 68, 53, 32, 47, 97, 32, 102, 115, 99, 107, 10]

theorem fsckLine_isFsckLine : IsFsckLine fsckLine :=
  ⟨ascii "MD5 ", by decide, [47, 97], [LF], ⟨[97], rfl, List.all_eq_true.mp (by decide)⟩, Or.inl rfl, rfl⟩

/-- The step of a client that sends one digest command. -/
def digestStart (line path : Bytes) (hline : line.length ≤ 496) : MgmtRun :=
  [⟨.sys (.read 496), .ok ⟨line, hline⟩⟩, ⟨.command (.digest .md5 .fsck path), ()⟩,
    ⟨.sys (.openRead path), .ok 9⟩, ⟨.stepped .active (digestClient .fsck path), ()⟩]

theorem fsck_only_of_clean_digest :
    FsckOnly (digestClient .fsck [47, 97]) (digestStart fsckLine [47, 97] (by decide)) []
      (mogMgmtQueueStep zeroHashCtx 9 (digestClient .fsck [47, 97])) := by
  have hrun : Runs (mogMgmtQueueStep zeroHashCtx 9 mogMgmtInit)
      (digestStart fsckLine [47, 97] (by decide)) (ret (digestClient .fsck [47, 97], .active)) :=
    .cons (.cons (.cons (.cons (.nil _))))
  have hreached : MgmtReached zeroHashCtx (digestClient .fsck [47, 97]) _ := .step .init hrun nofun nofun
  have hclean : LastLine.Clean { line := [], opened := false, rest := fsckLine } := by
    refine ⟨?_, fun _ => fsckLine_isFsckLine⟩
    rintro ⟨name, hname, path, hpath, hpre⟩
    have hnil := (List.append_eq_nil_iff.mp (List.prefix_nil.mp hpre)).2
    cases hnil
  refine fsck_only_of_clean rfl hreached (Runs.nil _) ?_
  refine cleanFrom_cons nofun (cleanFrom_cons (fun _ _ => hclean) (cleanFrom_cons nofun (cleanFrom_cons nofun ?_)))
  exact cleanFrom_nil

/-- `MD5 /a fsckx` -/
def fsckxLine : Bytes := [77, 68, 53, 32, 47, 97, 32, 102, 115, 99, 107, 120, 10]

/-- `MD5 /a fsck-`, which is no command, and `MD5 /b` -/
def fsckLeft : Bytes :=
  [77, 68, 53, 32, 47, 97, 32, 102, 115, 99, 107, 45, 10, 77, 68, 53, 32, 47, 98, 10]

theorem not_isFsckLine {line : Bytes} (h : line.reverse[1]? ≠ some 107) (hcr : line.reverse[1]? ≠ some CR) :
    ¬ IsFsckLine line := by
  rintro ⟨name, -, path, eor, -, heor, rfl⟩
  rcases heor with rfl | rfl
  · exact h (by simp [ascii])
  · exact hcr (by simp)

/-- The step that makes no command of the first line. -/
def leftStart : MgmtRun :=
  [⟨.sys (.read 496), .ok ⟨fsckLeft, by decide⟩⟩, ⟨.command (.unknown [77, 68, 53]), ()⟩,
    ⟨.reply (ascii "ERROR: unknown command: MD5\r\n"), ()⟩,
    ⟨.sys (.writev [ascii "ERROR: unknown command: ", [77, 68, 53], ascii "\r\n"]), .ok ⟨29, by decide⟩⟩,
    ⟨.stepped .active { mogMgmtInit with prio := .fsck, rbuf := some [77, 68, 53, 32, 47, 98, 10] }, ()⟩]

/-- The step that executes the second one. -/
def leftDigest : MgmtRun :=
  [⟨.command (.digest .md5 .fsck [47, 98]), ()⟩, ⟨.sys (.openRead [47, 98]), .ok 9⟩,
    ⟨.stepped .active (digestClient .fsck [47, 98]), ()⟩]

/-- Two clients whose digests get fsck treatment: the reason of one is `fsckx`, the other one gives no reason
behind a line that was none. -/
theorem fsck_not_only :
    (MgmtReached zeroHashCtx (digestClient .fsck [47, 97]) (digestStart fsckxLine [47, 97] (by decide)) ∧
      ¬ FsckOnly (digestClient .fsck [47, 97]) (digestStart fsckxLine [47, 97] (by decide)) []
        (mogMgmtQueueStep zeroHashCtx 9 (digestClient .fsck [47, 97]))) ∧
    (MgmtReached zeroHashCtx (digestClient .fsck [47, 98]) (leftStart ++ leftDigest) ∧
      ¬ FsckOnly (digestClient .fsck [47, 98]) (leftStart ++ leftDigest) []
        (mogMgmtQueueStep zeroHashCtx 9 (digestClient .fsck [47, 98]))) := by
  have hfsckx : Runs (mogMgmtQueueStep zeroHashCtx 9 mogMgmtInit)
      (digestStart fsckxLine [47, 97] (by decide)) (ret (digestClient .fsck [47, 97], .active)) :=
    .cons (.cons (.cons (.cons (.nil _))))
  have hstart : Runs (mogMgmtQueueStep zeroHashCtx 9 mogMgmtInit) leftStart
      (ret ({ mogMgmtInit with prio := .fsck, rbuf := some [77, 68, 53, 32, 47, 98, 10] }, .active)) :=
    .cons (.cons (.cons (.cons (.cons (.nil _)))))
  have hdigest : Runs (mogMgmtQueueStep zeroHashCtx 9
      { mogMgmtInit with prio := .fsck, rbuf := some [77, 68, 53, 32, 47, 98, 10] }) leftDigest
      (ret (digestClient .fsck [47, 98], .active)) := .cons (.cons (.cons (.nil _)))
  refine ⟨⟨.step .init hfsckx nofun nofun, fun h => ?_⟩,
    .step (.step .init hstart nofun nofun) hdigest nofun nofun, fun h => ?_⟩
  · exact not_isFsckLine (by decide) (by decide) ((h.executes _ rfl).mp rfl)
  · exact not_isFsckLine (by decide) (by decide) ((h.executes _ rfl).mp rfl)

end Clients

end Cmogstored
