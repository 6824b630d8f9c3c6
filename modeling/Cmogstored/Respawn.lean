import Cmogstored.Ends
import Cmogstored.UpgradeFails

/-! The loop of a process that serves `mgmt` clients: `main_worker_loop` and `run_worker` of `cmogstored.c`,
with what becomes of iostat in it. -/

namespace Cmogstored

open List Prog

/-- `if (do_upgrade) upgrade_handler()`, where `master` says that `master_pid` is `getpid()`. -/
def workerUpgrade (ctx : DaemonCtx) (master : Bool) (d : Daemon) : DaemonIo Daemon :=
  if !d.doUpgrade then pure d
  else if master then upgradeHandler ctx d
  else pure { d with doUpgrade := false }

/-- What an iteration of `main_worker_loop` does about signals. -/
def workerSignals (ctx : DaemonCtx) (master : Bool) (fuel : Nat) (d : Daemon) : DaemonIo Daemon := do
  if d.sigchldHit then do
    let d ← sigchldHandler ctx fuel d
    workerUpgrade ctx master d
  else workerUpgrade ctx master d

/-- An iteration of `main_worker_loop`; `none` once `cmogstored_exit` is called. -/
def mainWorkerRound (ctx : DaemonCtx) (master haveMgmt : Bool) (fuel : Nat) (d : Daemon) :
    DaemonIo (Option Daemon) := do
  let signals ← daemonSys .wait
  let d ← workerSignals ctx master fuel (d.signalled signals)
  if d.doExit then pure none
  -- `mog_mnt_refresh`
  else if haveMgmt then pure (some d)
  else if haveMgmt && !d.iostatRunning && !d.doExit then do
    let (running, d) ← mogIostatRespawn d
    pure (some { d with iostatRunning := running })
  else pure (some d)

/-- So many iterations; the loop goes on as long as there is a parent. -/
def mainWorkerRounds (ctx : DaemonCtx) (master haveMgmt : Bool) (fuel : Nat) : Nat → Daemon → DaemonIo (Option Daemon)
  | 0, d => pure (some d)
  | rounds + 1, d => do
    match ← mainWorkerRound ctx master haveMgmt fuel d with
    | none => pure none
    | some d => mainWorkerRounds ctx master haveMgmt fuel rounds d

/-- `run_worker`, from where `have_mgmt` is known. -/
def runWorker (ctx : DaemonCtx) (master haveMgmt : Bool) (fuel rounds : Nat) (d : Daemon) :
    DaemonIo (Option Daemon) := do
  if haveMgmt then do
    let (running, d) ← mogIostatRespawn d
    mainWorkerRounds ctx master haveMgmt fuel rounds { d with iostatRunning := running }
  else mainWorkerRounds ctx master haveMgmt fuel rounds d

/-! ### The table of the processes -/

def isIostat (entry : Pid × Nat) : Bool := entry.2 = MOG_PROC_IOSTAT

def Role.id : Role → Nat
  | .worker id => id
  | .upgrade => MOG_PROC_UPGRADE
  | .iostat => MOG_PROC_IOSTAT

theorem reaped_eq_self {processes : Processes} {pid : Pid} (h : pid ∉ processes.map (·.1)) :
    processes.filter (·.1 ≠ pid) = processes := by
  rw [filter_eq_self]
  intro entry hentry
  rw [decide_eq_true_iff]
  rintro rfl
  exact h (mem_map_of_mem hentry)

/-- One entry less, if it was iostat that exited. -/
theorem reaped_count (processes : Processes) (pid : Pid) (h : (processes.map (·.1)).Nodup) :
    (mogProcessReaped processes pid).2.countP isIostat +
      (if (mogProcessReaped processes pid).1 = MOG_PROC_IOSTAT then 1 else 0) = processes.countP isIostat := by
  induction processes with
  | nil => rfl
  | cons entry rest ih =>
    obtain ⟨hnot, hrest⟩ := nodup_cons.mp h
    have ih := ih hrest
    unfold mogProcessReaped at ih ⊢
    by_cases hpid : entry.1 = pid
    · subst hpid
      rw [List.find?_cons_of_pos (by simp), filter_cons_of_neg (by simp), reaped_eq_self hnot, countP_cons]
      simp [isIostat]
    · rw [List.find?_cons_of_neg (by simpa using hpid), filter_cons_of_pos (by simpa using hpid),
        countP_cons, countP_cons]
      dsimp only at ih ⊢
      omega

/-- The table as the answers so far make it, and whether the last attempt to start iostat failed. -/
structure Course where
  processes : Processes
  failed : Bool

def Course.next (course : Course) : (request : DaemonCall) → DaemonRes request → Course
  | .pipe, .error _ => { course with failed := true }
  | .fork role, pid =>
    if 0 < pid.val then
      { processes := (pid.val, role.id) :: course.processes, failed := course.failed && role ≠ .iostat }
    else { course with failed := course.failed || role = .iostat }
  | .waitpid, .reaped pid _ => { course with processes := course.processes.filter (·.1 ≠ pid) }
  | _, _ => course

def Course.must (course : Course) : DaemonCall → Prop
  | .fork .iostat => course.processes.countP isIostat = 0
  | .fork (.worker id) => id ≠ MOG_PROC_IOSTAT
  | _ => True

/-- No two processes have one pid. -/
def Course.may (course : Course) : (request : DaemonCall) → DaemonRes request → Prop
  | .fork _, pid => pid.val ∉ course.processes.map (·.1)
  | _, _ => True

def courseContract : Contract DaemonCall DaemonRes Course where
  must := Course.must
  may := Course.may
  next := Course.next
  excused _ := True

/-- At most one iostat. -/
def Course.Single (course : Course) : Prop := course.processes.countP isIostat ≤ 1

theorem single_next (course : Course) (request : DaemonCall) (answer : DaemonRes request) (h : course.Single)
    (hmust : course.must request) : (course.next request answer).Single := by
  unfold Course.Single at h ⊢
  cases request with
  | fork role =>
    simp only [Course.next]
    split
    · rw [countP_cons]
      cases role with
      | iostat =>
        have hnone : course.processes.countP isIostat = 0 := hmust
        rw [hnone]
        exact Nat.le_of_eq rfl
      | upgrade => exact h
      | worker id =>
        have hid : isIostat (answer.val, id) = false := decide_eq_false hmust
        rw [Role.id, hid]
        exact h
    · exact h
  | waitpid =>
    cases answer with
    | reaped pid status => exact Nat.le_trans (filter_sublist.countP_le) h
    | _ => exact h
  | pipe => cases answer <;> exact h
  | _ => exact h

/-! ### What the parts of the loop do to the table -/

/-- The calls that neither start a process nor wait for one. -/
def Calm : DaemonCall → Prop
  | .fork _ => False
  | .pipe => False
  | .waitpid => False
  | _ => True

theorem doUnlink_calm (path : Bytes) : (doUnlink path).Within Calm fun _ => True := by
  apply within_ask_bind trivial
  intro answer
  split <;> trivial

theorem pidfileRead_calm (fd : Fd) : (pidfileRead fd).Within Calm fun _ => True :=
  pidfileRead_within (fun _ => trivial) fd

theorem pidIsRunning_calm (pid : Pid) (asks : Asks) : (pidIsRunning pid asks).Within Calm fun _ => True :=
  pidIsRunning_within (fun _ _ => trivial) pid asks

theorem pidWrite_calm (ctx : DaemonCtx) (fd : Fd) : (pidWrite ctx fd).Within Calm fun _ => True :=
  within_ask_bind trivial fun _ => trivial

theorem unlinkIfOwnerOrUnused_calm (ctx : DaemonCtx) (path : Bytes) :
    (unlinkIfOwnerOrUnused ctx path).Within Calm fun _ => True := by
  apply within_ask_bind trivial
  intro answer
  split
  · trivial
  · trivial
  · apply (pidfileRead_calm _).bind
    intro pid _
    apply within_ask_bind trivial
    intro _
    split
    · exact doUnlink_calm path
    · split
      · split
        · exact doUnlink_calm path
        · apply (pidIsRunning_calm pid .unlinks).bind
          intro running _
          split
          · exact doUnlink_calm path
          · trivial
      · trivial

theorem mogPidfileUpgradePrepare_calm (ctx : DaemonCtx) (p : Pidfile) :
    (mogPidfileUpgradePrepare ctx p).Within Calm fun _ => True := by
  unfold mogPidfileUpgradePrepare
  split
  · trivial
  · apply within_require_bind
    intro _
    apply (unlinkIfOwnerOrUnused_calm ctx _).bind
    intro removed _
    split
    · trivial
    · apply within_require_bind
      intro _
      apply within_ask_bind trivial
      intro answer
      split
      · trivial
      · apply (pidfileRead_calm _).bind
        intro pid _
        apply (pidIsRunning_calm pid .prepares).bind
        intro running _
        split
        · exact within_ask_bind trivial fun _ => trivial
        · apply (pidWrite_calm ctx _).bind
          intro written _
          split <;> exact within_ask_bind trivial fun _ => trivial

theorem upgradeFailed_calm (p : Pidfile) (pidfile : Bytes) : (upgradeFailed p pidfile).Within Calm fun _ => True := by
  apply within_ask_bind trivial
  intro answer
  split
  · trivial
  · apply (pidfileRead_calm _).bind
    intro pid _
    apply within_ask_bind trivial
    intro _
    apply (pidIsRunning_calm pid .aborts).bind
    intro running _
    split
    · trivial
    · exact within_require_bind fun _ => trivial

theorem mogPidfileUpgradeAbort_calm (ctx : DaemonCtx) (p : Pidfile) :
    (mogPidfileUpgradeAbort ctx p).Within Calm fun _ => True := by
  unfold mogPidfileUpgradeAbort
  split
  · trivial
  · apply within_require_bind
    intro _
    apply (upgradeFailed_calm p _).bind
    intro failed _
    split
    · trivial
    · apply within_ask_bind trivial
      intro answer
      split
      · trivial
      · apply (pidWrite_calm ctx _).bind
        intro _ _
        apply within_ask_bind trivial
        intro _
        split
        · trivial
        · apply (unlinkIfOwnerOrUnused_calm ctx _).bind
          intro removed _
          split <;> trivial

/-- The table is the one that the answers make, and has iostat unless the last attempt failed. -/
structure Tended (course : Course) (d : Daemon) : Prop where
  table : course.processes = d.processes
  apart : (d.processes.map (·.1)).Nodup
  count : d.doExit = false → d.processes.countP isIostat = if course.failed then 0 else 1

theorem Tended.signalled {course : Course} {d : Daemon} (h : Tended course d) (signals : Signals) :
    Tended course (d.signalled signals) := by
  refine ⟨h.table, h.apart, fun hexit => h.count ?_⟩
  have hexit : (d.doExit || signals.quit) = false := hexit
  exact (Bool.or_eq_false_iff.mp hexit).1

/-- A process other than iostat is entered. -/
theorem Tended.registered {course : Course} {d : Daemon} {pid : Pid} {id : Nat} (h : Tended course d)
    (hpid : pid ∉ course.processes.map (·.1)) (hid : id ≠ MOG_PROC_IOSTAT) :
    Tended { course with processes := (pid, id) :: course.processes }
      { d with processes := (pid, id) :: d.processes } := by
  rw [h.table] at hpid ⊢
  refine ⟨rfl, nodup_cons.mpr ⟨hpid, h.apart⟩, fun hexit => ?_⟩
  have hother : isIostat (pid, id) = false := decide_eq_false hid
  rw [countP_cons, hother]
  exact h.count hexit

section Table

variable {ctx : DaemonCtx} {course : Course} {d : Daemon} {α : Type}

theorem wp_calm {p : DaemonIo α} {R : α → Prop} (h : p.Within Calm R) :
    wp courseContract p (fun value course' => R value ∧ course' = course) course := by
  apply wp_within (J := fun course' => course' = course) ?_ (fun _ _ => trivial) h rfl
  rintro _ request rfl hcalm
  cases request with
  | fork | pipe | waitpid => exact hcalm.elim
  | _ => exact ⟨trivial, fun _ _ => rfl⟩

theorem wp_mogProcessRegister {processes : Processes} {pid : Pid} {id : Nat} {Q : Processes → Course → Prop}
    (hfresh : pid ∉ processes.map (·.1)) (h : Q ((pid, id) :: processes) course) :
    wp courseContract (mogProcessRegister processes pid id) Q course := by
  apply wp_require_bind fun _ => trivial
  intro _
  have hany : processes.any (·.1 = pid) = false := by
    rw [any_eq_false]
    intro entry hentry heq
    exact hfresh (of_decide_eq_true heq ▸ mem_map_of_mem hentry)
  rw [hany]
  exact h

/-- A new iostat in place of none, or none. -/
theorem tended_mogIostatRespawn (htable : course.processes = d.processes) (hapart : (d.processes.map (·.1)).Nodup)
    (hnone : d.processes.countP isIostat = 0) :
    wp courseContract (mogIostatRespawn d) (fun result => (Tended · result.2)) course := by
  apply wp_ask_bind trivial
  intro answer _
  cases answer with
  | error e => exact ⟨htable, hapart, fun _ => hnone⟩
  | ok fds =>
    obtain ⟨inFd, outFd⟩ := fds
    have hmust : course.processes.countP isIostat = 0 := by rw [htable, hnone]
    refine wp_bind.mpr (wp_ask_bind hmust fun pid hfresh => ?_)
    have hfresh : pid.val ∉ course.processes.map (·.1) := hfresh
    show wp courseContract _ _ (course.next (.fork .iostat) pid)
    simp only [Course.next]
    rcases pid.property with hpid | hpid
    · have hneg : pid.val < 0 := by
        rw [hpid]
        decide
      rw [if_pos hneg, if_neg (Int.not_lt.mpr (Int.le_of_lt hneg)), wp_pure, if_pos hneg]
      refine ⟨htable, hapart, fun _ => ?_⟩
      simpa using hnone
    · have hneg : ¬ pid.val < 0 := Int.not_lt.mpr (Int.le_of_lt hpid)
      rw [if_neg hneg, if_pos hpid]
      rw [htable] at hfresh
      refine wp_bind.mpr (wp_mogProcessRegister hfresh (wp_ask_bind trivial fun _ _ => ?_))
      rw [wp_pure, if_neg hneg]
      refine wp_ask_bind trivial fun _ _ => ⟨congrArg _ htable, nodup_cons.mpr ⟨hfresh, hapart⟩, fun _ => ?_⟩
      show ((pid.val, MOG_PROC_IOSTAT) :: d.processes).countP isIostat =
        if (course.failed && decide (Role.iostat ≠ .iostat)) then 0 else 1
      rw [countP_cons, hnone]
      simp [isIostat]

theorem tended_forkWorker {id : Nat} (h : Tended course d) (hid : id ≠ MOG_PROC_IOSTAT) :
    wp courseContract (forkWorker d id) (fun d' => (Tended · d')) course := by
  apply wp_ask_bind hid
  intro pid hfresh
  have hfresh : pid.val ∉ course.processes.map (·.1) := hfresh
  show wp courseContract _ _ (course.next (.fork (.worker id)) pid)
  simp only [Course.next]
  split
  · apply wp_bind.mpr (wp_mogProcessRegister (h.table ▸ hfresh) _)
    simpa [Role.id] using h.registered hfresh hid
  · apply wp_ask_bind trivial
    intro signals _
    show Tended { course with failed := course.failed || decide (Role.worker id = .iostat) } (d.signalled signals)
    simpa using h.signalled signals

theorem tended_upgradeFork (h : Tended course d) :
    wp courseContract (upgradeFork ctx d)
      (fun result course' => Tended course' result.2 ∧ result.2.doUpgrade = d.doUpgrade) course := by
  have hkept : Tended course d ∧ d.doUpgrade = d.doUpgrade := ⟨h, rfl⟩
  apply wp_ask_bind trivial
  intro memstream _
  cases memstream with
  | false => exact hkept
  | true =>
    apply wp_ask_bind trivial
    intro put _
    cases put with
    | false => exact hkept
    | true =>
      refine wp_bind.mpr (wp_mono (wp_calm (svcEachEmit_within (fun _ => trivial) ctx.svcFds)) ?_)
      intro text course' hemit
      obtain ⟨-, rfl⟩ := hemit
      apply wp_ask_bind trivial
      intro closed _
      cases closed with
      | false => exact hkept
      | true =>
        refine wp_require_bind (fun _ => trivial) fun _ => wp_ask_bind trivial fun pid hfresh => ?_
        have hfresh : pid.val ∉ course'.processes.map (·.1) := hfresh
        show wp courseContract _ _ (course'.next (.fork .upgrade) pid)
        simp only [Course.next]
        split
        · refine wp_bind.mpr (wp_mogProcessRegister (h.table ▸ hfresh) ⟨?_, rfl⟩)
          simpa [Role.id] using h.registered hfresh (by decide : MOG_PROC_UPGRADE ≠ MOG_PROC_IOSTAT)
        · simpa using hkept

theorem tended_upgradeHandler (h : Tended course d) :
    wp courseContract (upgradeHandler ctx d) (fun d' course' => Tended course' d' ∧ d'.doUpgrade = false) course := by
  unfold upgradeHandler
  dsimp only
  split
  · exact ⟨⟨h.table, h.apart, h.count⟩, rfl⟩
  · refine wp_bind.mpr (wp_bind.mpr (wp_mono (wp_calm (mogPidfileUpgradePrepare_calm ctx _)) ?_))
    intro result course' hready
    obtain ⟨-, rfl⟩ := hready
    obtain ⟨ready, pidfile⟩ := result
    cases ready with
    | false => exact ⟨⟨h.table, h.apart, h.count⟩, rfl⟩
    | true =>
      let d' : Daemon := { d with toPidfile := pidfile, doUpgrade := false }
      have hready : Tended course' d' := ⟨h.table, h.apart, h.count⟩
      refine wp_mono (tended_upgradeFork hready) fun result course' hforked => ?_
      exact ⟨⟨hforked.1.table, hforked.1.apart, hforked.1.count⟩, hforked.2⟩

theorem tended_processDied (pid : Pid) (status : Int) (h : Tended course d) :
    wp courseContract (processDied ctx d pid) (fun d' => (Tended · d'))
      (course.next .waitpid (.reaped pid status)) := by
  have hcount := reaped_count d.processes pid h.apart
  have hapart : (((mogProcessReaped d.processes pid).2).map (·.1)).Nodup :=
    h.apart.sublist (filter_sublist.map _)
  have htable : (course.next .waitpid (.reaped pid status)).processes = (mogProcessReaped d.processes pid).2 := by
    show course.processes.filter (·.1 ≠ pid) = _
    rw [h.table]
    rfl
  have hfailed : (course.next .waitpid (.reaped pid status)).failed = course.failed := rfl
  unfold processDied
  generalize mogProcessReaped d.processes pid = reaped at hcount hapart htable ⊢
  generalize course.next .waitpid (.reaped pid status) = course' at htable hfailed ⊢
  obtain ⟨id, processes⟩ := reaped
  dsimp only at hcount hapart htable ⊢
  by_cases hid : id = MOG_PROC_IOSTAT
  · subst hid
    rw [if_pos rfl] at hcount
    rw [if_neg (by decide), if_pos rfl]
    apply wp_require_bind fun _ => trivial
    intro _
    unfold iostatDied
    by_cases hexit : d.doExit = true
    · rw [if_pos hexit]
      refine ⟨htable, hapart, fun hnot => ?_⟩
      rw [hexit] at hnot
      cases hnot
    · have hbefore := h.count (Bool.not_eq_true _ ▸ hexit)
      have hnone : processes.countP isIostat = 0 := by
        split at hbefore <;> omega
      rw [if_neg hexit]
      apply wp_bind.mpr (wp_mono (tended_mogIostatRespawn htable hapart hnone) _)
      intro result course'' hresult
      exact ⟨hresult.table, hresult.apart, hresult.count⟩
  · rw [if_neg hid, Nat.add_zero] at hcount
    have hrest : Tended course' { d with processes := processes } := by
      refine ⟨htable, hapart, fun hexit => ?_⟩
      rw [hfailed]
      exact hcount.trans (h.count hexit)
    split
    · unfold workerDied
      split
      · exact hrest
      · exact tended_forkWorker hrest hid
    · split
      · apply wp_require_bind fun _ => trivial
        intro _
        refine wp_bind.mpr (wp_mono (wp_calm (mogPidfileUpgradeAbort_calm ctx _)) fun result course'' habort => ?_)
        obtain ⟨-, rfl⟩ := habort
        exact ⟨hrest.table, hrest.apart, hrest.count⟩
      · exact hrest

theorem tended_sigchldLoop (fuel : Nat) (h : Tended course d) :
    wp courseContract (sigchldLoop ctx fuel d) (fun d' => (Tended · d')) course := by
  induction fuel generalizing course d with
  | zero => trivial
  | succ fuel ih =>
    apply wp_ask_bind trivial
    intro answer _
    cases answer with
    | reaped pid status => exact wp_bind.mpr (wp_mono (tended_processDied pid status h) fun _ _ => ih)
    | none => exact h
    | EINTR => exact ⟨h.table, h.apart, h.count⟩
    | ECHILD => exact h
    | failed => trivial

theorem tended_workerUpgrade (master : Bool) (h : Tended course d) :
    wp courseContract (workerUpgrade ctx master d)
      (fun d' course' => Tended course' d' ∧ d'.doUpgrade = false) course := by
  unfold workerUpgrade
  split
  · rename_i hnot
    exact ⟨h, by simpa using hnot⟩
  · split
    · exact tended_upgradeHandler h
    · exact ⟨⟨h.table, h.apart, h.count⟩, rfl⟩

theorem tended_workerSignals (master : Bool) (fuel : Nat) (h : Tended course d) :
    wp courseContract (workerSignals ctx master fuel d) (fun d' course' => Tended course' d' ∧ d'.doUpgrade = false)
      course := by
  unfold workerSignals
  split
  · let d' : Daemon := { d with sigchldHit := false }
    have hchld : Tended course d' := ⟨h.table, h.apart, h.count⟩
    exact wp_bind.mpr (wp_mono (tended_sigchldLoop fuel hchld) fun _ _ => tended_workerUpgrade master)
  · exact tended_workerUpgrade master h

/-- An iteration that does not exit leaves nothing to be done but for children that exited meanwhile. -/
theorem tended_mainWorkerRound (master : Bool) (fuel : Nat) (h : Tended course d) :
    wp courseContract (mainWorkerRound ctx master true fuel d) (fun result course' =>
      ∀ d', result = some d' → Tended course' d' ∧ d'.doExit = false ∧ d'.doUpgrade = false) course := by
  apply wp_ask_bind trivial
  intro signals _
  apply wp_bind.mpr (wp_mono (tended_workerSignals master fuel (h.signalled signals)) _)
  intro d' course' hhandled
  split
  · exact fun _ hnone => absurd hnone nofun
  · rename_i hexit
    rintro _ ⟨⟩
    exact ⟨hhandled.1, by simpa using hexit, hhandled.2⟩

/-- **What the loop keeps.** -/
theorem tended_mainWorkerRounds (master : Bool) (fuel rounds : Nat) (h : Tended course d) :
    wp courseContract (mainWorkerRounds ctx master true fuel (rounds + 1) d) (fun result course' =>
      ∀ d', result = some d' → Tended course' d' ∧ d'.doExit = false ∧ d'.doUpgrade = false) course := by
  induction rounds generalizing course d with
  | zero =>
    refine wp_bind.mpr (wp_mono (tended_mainWorkerRound master fuel h) fun result course' hresult => ?_)
    cases result with
    | none => exact fun _ hnone => absurd hnone nofun
    | some d' => exact hresult
  | succ rounds ih =>
    refine wp_bind.mpr (wp_mono (tended_mainWorkerRound master fuel h) fun result course' hresult => ?_)
    cases result with
    | none => exact fun _ hnone => absurd hnone nofun
    | some d' => exact ih (hresult d' rfl).1

end Table

/-! ### iostat is not brought back -/

/-- From some iteration on `mog_iostat_respawn` has been called, also if no child exits. -/
def Retried (ctx : DaemonCtx) (master : Bool) (fuel : Nat) (d : Daemon) : Prop :=
  ∃ rounds, ∀ trace d', Runs (mainWorkerRounds ctx master true fuel rounds d) trace (ret (some d')) →
    (∀ pid status, ⟨.waitpid, .reaped pid status⟩ ∉ trace) → ∃ answer, ⟨.pipe, answer⟩ ∈ trace

def noSignals : Signals := ⟨false, false, false⟩

/-- A wake-up without a reason. -/
def NoNews (entry : (request : DaemonCall) × DaemonRes request) : Prop :=
  entry = ⟨.wait, noSignals⟩ ∨ entry = ⟨.waitpid, .none⟩

/-- An iteration in which nothing happens. -/
theorem quiet_round (ctx : DaemonCtx) (master : Bool) (fuel : Nat) {d : Daemon} (hexit : d.doExit = false)
    (hupgrade : d.doUpgrade = false) :
    ∃ trace, (∀ entry ∈ trace, NoNews entry) ∧ Runs (mainWorkerRound ctx master true (fuel + 1) d) trace
      (ret (some { d with sigchldHit := false })) := by
  obtain ⟨pidfile, processes, upgradePid, sigchldHit, doUpgrade, doExit, workers, running⟩ := d
  cases hexit
  cases hupgrade
  cases sigchldHit with
  | false =>
    refine ⟨[⟨.wait, noSignals⟩], ?_, .cons (.nil _)⟩
    intro entry hentry
    exact Or.inl (mem_singleton.mp hentry)
  | true =>
    refine ⟨[⟨.wait, noSignals⟩, ⟨.waitpid, .none⟩], ?_, .cons (.cons (.nil _))⟩
    intro entry hentry
    simpa [NoNews] using hentry

theorem quiet_loop (ctx : DaemonCtx) (master : Bool) (fuel rounds : Nat) {d : Daemon} (hexit : d.doExit = false)
    (hupgrade : d.doUpgrade = false) :
    ∃ trace d', (∀ entry ∈ trace, NoNews entry) ∧
      Runs (mainWorkerRounds ctx master true (fuel + 1) rounds d) trace (ret (some d')) := by
  induction rounds generalizing d with
  | zero => exact ⟨[], d, nofun, .nil _⟩
  | succ rounds ih =>
    obtain ⟨first, hfirst, hround⟩ := quiet_round ctx master fuel hexit hupgrade
    obtain ⟨second, d', hsecond, hloop⟩ := @ih { d with sigchldHit := false } hexit hupgrade
    refine ⟨first ++ second, d', ?_, (hround.bind _).append hloop⟩
    intro entry hentry
    rcases mem_append.mp hentry with hentry | hentry
    · exact hfirst entry hentry
    · exact hsecond entry hentry

/-- While no child exits, nothing starts iostat. -/
theorem not_retried (ctx : DaemonCtx) (master : Bool) (fuel : Nat) {d : Daemon} (hexit : d.doExit = false)
    (hupgrade : d.doUpgrade = false) : ¬ Retried ctx master (fuel + 1) d := by
  rintro ⟨rounds, hretried⟩
  obtain ⟨trace, d', hquiet, hrun⟩ := quiet_loop ctx master fuel rounds hexit hupgrade
  obtain ⟨answer, hpipe⟩ := hretried trace d' hrun fun pid status hreaped => by
    rcases hquiet _ hreaped with heq | heq <;> cases heq
  rcases hquiet _ hpipe with heq | heq <;> cases heq

/-- The descriptors of the pipes that are neither closed nor handed to the queue. -/
def stillOpen : List Fd → Trace DaemonCall DaemonRes → List Fd
  | fds, [] => fds
  | fds, ⟨.pipe, .ok (inFd, outFd)⟩ :: trace => stillOpen (inFd :: outFd :: fds) trace
  | fds, ⟨.close fd, _⟩ :: trace => stillOpen (fds.erase fd) trace
  | fds, ⟨.iostatAdd fd, _⟩ :: trace => stillOpen (fds.erase fd) trace
  | fds, _ :: trace => stillOpen fds trace

/-- `fork` returned -1. -/
def forkFailed : Forked := ⟨-1, Or.inl rfl⟩

/-- The course of an attempt that fails. -/
theorem respawn_false {d d' : Daemon} {trace : Trace DaemonCall DaemonRes}
    (h : Runs (mogIostatRespawn d) trace (ret (false, d'))) :
    (∃ e, trace = [⟨.pipe, .error e⟩]) ∨ ∃ fds, trace = [⟨.pipe, .ok fds⟩, ⟨.fork .iostat, forkFailed⟩] := by
  obtain ⟨answer, calls, rfl, hcalls⟩ := h.of_ask_bind
  cases answer with
  | error e =>
    cases hcalls
    exact Or.inl ⟨e, rfl⟩
  | ok fds =>
    obtain ⟨first, rest, result, rfl, hfork, hrest⟩ := hcalls.of_bind
    obtain ⟨pid, calls, rfl, hforked⟩ := hfork.of_ask_bind
    rcases pid.property with hpid | hpid
    · obtain rfl : pid = forkFailed := Subtype.ext hpid
      cases hforked
      cases hrest
      exact Or.inr ⟨fds, rfl⟩
    · have hneg : ¬ pid.val < 0 := Int.not_lt.mpr (Int.le_of_lt hpid)
      rw [if_neg hneg] at hforked
      obtain ⟨_, calls, processes, rfl, -, hclose⟩ := hforked.of_bind
      obtain ⟨_, calls, rfl, hret⟩ := hclose.of_ask_bind
      cases hret
      dsimp only at hrest
      rw [if_neg hneg] at hrest
      obtain ⟨_, calls, rfl, hret⟩ := hrest.of_ask_bind
      cases hret

/-- The descriptors stay open if it is the fork that fails. -/
theorem stillOpen_respawn_iff {d d' : Daemon} {trace : Trace DaemonCall DaemonRes}
    (h : Runs (mogIostatRespawn d) trace (ret (false, d'))) :
    stillOpen [] trace = [] ↔ ⟨.fork .iostat, forkFailed⟩ ∉ trace := by
  rcases respawn_false h with ⟨e, rfl⟩ | ⟨⟨inFd, outFd⟩, rfl⟩
  · simp [stillOpen]
  · simp [stillOpen]

/-- What the answers of a run make of the table at the start. -/
def courseOf (d : Daemon) (trace : Trace DaemonCall DaemonRes) : Course :=
  courseContract.after ⟨d.processes, false⟩ trace

/-- The pids that the answers of a run give are of no other process in the table. -/
def FreshPids (d : Daemon) (trace : Trace DaemonCall DaemonRes) : Prop :=
  courseContract.Allows ⟨d.processes, false⟩ trace

/-- **Whether iostat is brought back.** There is never more than one iostat in the table. At the end of an
iteration it is there, or will be again, just if the last attempt to start it did not fail, for a failed attempt
is not repeated; and the descriptors of a failed attempt are left open just if the fork failed. -/
theorem iostat_brought_back_iff (ctx : DaemonCtx) (master : Bool) (fuel rounds : Nat) {d : Daemon}
    {trace : Trace DaemonCall DaemonRes} {q : DaemonIo (Option Daemon)} (hapart : (d.processes.map (·.1)).Nodup)
    (hnone : d.processes.countP isIostat = 0)
    (hrun : Runs (runWorker ctx master true (fuel + 1) (rounds + 1) d) trace q) (hfresh : FreshPids d trace) :
    (courseOf d trace).processes.countP isIostat ≤ 1 ∧
      (∀ d', q = ret (some d') → d'.processes = (courseOf d trace).processes ∧
        ((d'.processes.countP isIostat = 0 → Retried ctx master (fuel + 1) d') ↔ (courseOf d trace).failed = false)) ∧
      ∀ d₁ d₂ calls, Runs (mogIostatRespawn d₁) calls (ret (false, d₂)) →
        (stillOpen [] calls = [] ↔ ⟨.fork .iostat, forkFailed⟩ ∉ calls) := by
  have hwp : wp courseContract (runWorker ctx master true (fuel + 1) (rounds + 1) d) (fun result course' =>
      ∀ d', result = some d' → Tended course' d' ∧ d'.doExit = false ∧ d'.doUpgrade = false) ⟨d.processes, false⟩ := by
    refine wp_bind.mpr (wp_mono (tended_mogIostatRespawn rfl hapart hnone) fun result course h => ?_)
    let d' : Daemon := { result.2 with iostatRunning := result.1 }
    have hstarted : Tended course d' := ⟨h.table, h.apart, h.count⟩
    exact tended_mainWorkerRounds master (fuel + 1) rounds hstarted
  refine ⟨?_, ?_, fun d₁ d₂ calls => stillOpen_respawn_iff⟩
  · apply inv_of_runs (J := Course.Single)
      (fun course request answer h hmust _ => single_next course request answer h hmust)
      hwp hrun hfresh
    exact Nat.le_trans (Nat.le_of_eq hnone) (Nat.zero_le 1)
  · rintro d' rfl
    obtain ⟨htended, hexit, hupgrade⟩ := wp_of_runs hwp hrun hfresh d' rfl
    have hcount : d'.processes.countP isIostat = if (courseOf d trace).failed then 0 else 1 := htended.count hexit
    refine ⟨htended.table.symm, fun hretried => ?_, fun hfine hzero => ?_⟩
    · rw [← Bool.not_eq_true]
      intro hfailed
      rw [if_pos hfailed] at hcount
      exact not_retried ctx master fuel hexit hupgrade (hretried hcount)
    · rw [hzero, hfine] at hcount
      cases hcount

/-- iostat starts, exits, and is started again. -/
def diedTrace : Trace DaemonCall DaemonRes :=
  [⟨.pipe, .ok (5, 6)⟩, ⟨.fork .iostat, ⟨7, Or.inr (by decide)⟩⟩, ⟨.close 6, ()⟩, ⟨.iostatAdd 5, ()⟩,
    ⟨.wait, ⟨true, false, false⟩⟩, ⟨.waitpid, .reaped 7 0⟩, ⟨.pipe, .ok (8, 9)⟩,
    ⟨.fork .iostat, ⟨10, Or.inr (by decide)⟩⟩, ⟨.close 9, ()⟩, ⟨.iostatAdd 8, ()⟩, ⟨.waitpid, .none⟩]

/-- There is no descriptor left for the pipe. -/
def failedTrace : Trace DaemonCall DaemonRes := [⟨.pipe, .error .EMFILE⟩]

def startedAgain : Daemon := { daemonAtStart with processes := [(10, MOG_PROC_IOSTAT)], iostatRunning := true }

theorem iostat_brought_back_died :
    Runs (runWorker ⟨1, []⟩ true true 2 1 daemonAtStart) diedTrace (ret (some startedAgain)) ∧
      (courseOf daemonAtStart diedTrace).processes.countP isIostat ≤ 1 ∧
      startedAgain.processes = (courseOf daemonAtStart diedTrace).processes ∧
      (startedAgain.processes.countP isIostat = 0 → Retried ⟨1, []⟩ true 2 startedAgain) ∧
      (stillOpen [] failedTrace = [] ↔ ⟨.fork .iostat, forkFailed⟩ ∉ failedTrace) := by
  have hrun : Runs (runWorker ⟨1, []⟩ true true 2 1 daemonAtStart) diedTrace (ret (some startedAgain)) :=
    .cons (.cons (.cons (.cons (.cons (.cons (.cons (.cons (.cons (.cons (.cons (.nil _)))))))))))
  have hfresh : FreshPids daemonAtStart diedTrace :=
    ⟨trivial, not_mem_nil, trivial, trivial, trivial, trivial, trivial, not_mem_nil, trivial, trivial, trivial, trivial⟩
  have hapart : (daemonAtStart.processes.map (·.1)).Nodup := nodup_nil
  obtain ⟨hsingle, hback, hleft⟩ := iostat_brought_back_iff ⟨1, []⟩ true 1 0 hapart rfl hrun hfresh
  obtain ⟨htable, hretried⟩ := hback startedAgain rfl
  exact ⟨hrun, hsingle, htable, hretried.mpr rfl, hleft daemonAtStart daemonAtStart _ (.cons (.nil _))⟩

/-- No descriptors are left when the process starts: iostat is not started then, nor later when there are some.
If it is the fork that fails, both ends of the pipe stay open. -/
theorem iostat_never_retried :
    Runs (runWorker ⟨1, []⟩ true true 1 1 daemonAtStart) [⟨.pipe, .error .EMFILE⟩, ⟨.wait, noSignals⟩]
        (ret (some daemonAtStart)) ∧
      daemonAtStart.doExit = false ∧ daemonAtStart.processes.countP isIostat = 0 ∧
      ¬ Retried ⟨1, []⟩ true 1 daemonAtStart ∧
      Runs (mogIostatRespawn daemonAtStart) [⟨.pipe, .ok (5, 6)⟩, ⟨.fork .iostat, forkFailed⟩]
        (ret (false, daemonAtStart)) ∧
      stillOpen [] [⟨.pipe, .ok (5, 6)⟩, ⟨.fork .iostat, forkFailed⟩] = [5, 6] :=
  ⟨.cons (.cons (.nil _)), rfl, rfl, not_retried _ _ _ rfl rfl, .cons (.cons (.nil _)), rfl⟩

end Cmogstored
