import Cmogstored.Respawn

/-! `run_master` of `cmogstored.c`: the process that forks the workers, and again those that die. -/

namespace Cmogstored

open List Prog

/-- `mog_kill_each_worker`: how many workers are registered. -/
def mogKillEachWorker : Processes → DaemonIo Nat
  | [] => pure 0
  | (pid, id) :: rest => do
    require (id ≠ MOG_PROC_UNKNOWN)
    if mogProcessIsWorker id then do
      daemonSys (.kill pid)
      let count ← mogKillEachWorker rest
      pure (count + 1)
    else mogKillEachWorker rest

/-- The first loop of `run_master`. -/
def forkWorkers : List Nat → Daemon → DaemonIo Daemon
  | [], d => pure d
  | id :: ids, d => do
    let d ← forkWorker d id
    forkWorkers ids d

/-- An iteration of the second loop, and what it makes of `running`. -/
def masterRound (ctx : DaemonCtx) (fuel running : Nat) (d : Daemon) : DaemonIo (Nat × Daemon) := do
  let signals ← daemonSys .wait
  let d ← workerSignals ctx true fuel (d.signalled signals)
  if d.doExit then do
    let running ← mogKillEachWorker d.processes
    pure (running, d)
  else pure (running, d)

/-- So many iterations, or fewer when nothing is running any more. -/
def masterRounds (ctx : DaemonCtx) (fuel : Nat) : Nat → Nat → Daemon → DaemonIo (Nat × Daemon)
  | 0, running, d => pure (running, d)
  | rounds + 1, running, d =>
    if running = 0 then pure (running, d)
    else do
      let (running, d) ← masterRound ctx fuel running d
      masterRounds ctx fuel rounds running d

def runMaster (ctx : DaemonCtx) (fuel rounds : Nat) (d : Daemon) : DaemonIo (Nat × Daemon) := do
  let running := d.workerProcesses
  let d ← forkWorkers (range running) d
  masterRounds ctx fuel rounds running d

def isWorker (entry : Pid × Nat) : Bool := mogProcessIsWorker entry.2

/-- The table is the one that the answers make, and nothing is running only if no worker is left in it. -/
structure MasterOk (result : Nat × Daemon) (course : Course) : Prop where
  tended : Tended course result.2
  gone : result.1 = 0 → result.2.doExit = true ∧ result.2.processes.countP isWorker = 0

variable {ctx : DaemonCtx} {course : Course} {d : Daemon} {running : Nat}

theorem mogKillEachWorker_count (processes : Processes) :
    (mogKillEachWorker processes).Within Calm (· = processes.countP isWorker) := by
  induction processes with
  | nil => rfl
  | cons entry rest ih =>
    apply within_require_bind
    intro _
    rw [countP_cons]
    change Within Calm (if isWorker entry then _ else _) _
    split
    · apply within_ask_bind trivial
      exact fun _ => ih.bind fun _ hcount => congrArg (· + 1) hcount
    · exact ih

theorem tended_forkWorkers (ids : List Nat) (hids : ∀ id ∈ ids, id < MOG_PROC_UPGRADE) (h : Tended course d) :
    wp courseContract (forkWorkers ids d) (fun d' => (Tended · d')) course := by
  induction ids generalizing course d with
  | nil => exact h
  | cons id ids ih =>
    obtain ⟨hid, hids⟩ := forall_mem_cons.mp hids
    have hother : id ≠ MOG_PROC_IOSTAT := by
      rintro rfl
      exact absurd hid (by decide)
    apply wp_bind.mpr (wp_mono (tended_forkWorker h hother) _)
    exact fun _ _ => ih hids

theorem masterOk_masterRound (fuel : Nat) (hrunning : running ≠ 0) (h : Tended course d) :
    wp courseContract (masterRound ctx fuel running d) MasterOk course := by
  apply wp_ask_bind trivial
  intro signals _
  apply wp_bind.mpr (wp_mono (tended_workerSignals true fuel (h.signalled signals)) _)
  rintro d' course' ⟨htended, -⟩
  split
  · rename_i hexit
    apply wp_bind.mpr (wp_mono (wp_calm (mogKillEachWorker_count d'.processes)) _)
    rintro count _ ⟨rfl, rfl⟩
    exact ⟨htended, fun hzero => ⟨hexit, hzero⟩⟩
  · exact ⟨htended, fun hzero => absurd hzero hrunning⟩

theorem masterOk_masterRounds (fuel rounds : Nat) (h : MasterOk (running, d) course) :
    wp courseContract (masterRounds ctx fuel rounds running d) MasterOk course := by
  induction rounds generalizing running d course with
  | zero => exact h
  | succ rounds ih =>
    unfold masterRounds
    split
    · exact h
    · apply wp_bind.mpr (wp_mono (masterOk_masterRound fuel ‹_› h.tended) _)
      exact fun _ _ => ih

/-- **The master does not return before its workers are gone.** Its table lists just the processes it has forked and
not waited for yet; and it returns only when it was told to exit and every worker that it ever forked, at the start or
in place of another, has been waited for. -/
theorem master_outlives_workers (ctx : DaemonCtx) (fuel rounds : Nat) {d d' : Daemon}
    {trace : Trace DaemonCall DaemonRes} (hnone : d.processes = []) (hsome : 0 < d.workerProcesses)
    (hids : d.workerProcesses ≤ MOG_PROC_UPGRADE) (hrun : Runs (runMaster ctx fuel rounds d) trace (ret (running, d')))
    (hfresh : courseContract.Allows ⟨[], true⟩ trace) :
    d'.processes = (courseContract.after ⟨[], true⟩ trace).processes ∧ (running = 0 →
      d'.doExit = true ∧ ∀ entry ∈ (courseContract.after ⟨[], true⟩ trace).processes, isWorker entry = false) := by
  have hstart : Tended ⟨[], true⟩ d := ⟨hnone.symm, by simp [hnone], fun _ => by simp [hnone]⟩
  have hwp : wp courseContract (runMaster ctx fuel rounds d) MasterOk ⟨[], true⟩ := by
    apply wp_bind.mpr (wp_mono (tended_forkWorkers _ _ hstart) _)
    · exact fun id hid => Nat.lt_of_lt_of_le (mem_range.mp hid) hids
    · intro d'' course htended
      exact masterOk_masterRounds fuel rounds ⟨htended, fun hzero => absurd hzero (Nat.ne_of_gt hsome)⟩
  obtain ⟨htended, hgone⟩ := wp_of_runs hwp hrun hfresh
  refine ⟨htended.table.symm, fun hzero => ⟨(hgone hzero).1, ?_⟩⟩
  rw [htended.table]
  simpa [countP_eq_zero] using (hgone hzero).2

/-- A worker that exits when it is told to. -/
def oneWorkerTrace : Trace DaemonCall DaemonRes :=
  [⟨.fork (.worker 0), ⟨9, Or.inr (by decide)⟩⟩, ⟨.wait, ⟨false, false, true⟩⟩, ⟨.kill 9, ()⟩,
    ⟨.wait, ⟨true, false, false⟩⟩, ⟨.waitpid, .reaped 9 0⟩, ⟨.waitpid, .ECHILD⟩]

theorem master_outlives_one_worker :
    ∃ d', Runs (runMaster ⟨1, []⟩ 2 2 { daemonAtStart with workerProcesses := 1 }) oneWorkerTrace (ret (0, d')) ∧
      d'.doExit = true := by
  have hrun : Runs (runMaster ⟨1, []⟩ 2 2 { daemonAtStart with workerProcesses := 1 }) oneWorkerTrace
      (ret (0, { daemonAtStart with workerProcesses := 1, doExit := true })) :=
    .cons (.cons (.cons (.cons (.cons (.cons (.nil _))))))
  have hfresh : courseContract.Allows ⟨[], true⟩ oneWorkerTrace :=
    ⟨not_mem_nil, trivial, trivial, trivial, trivial, trivial, trivial⟩
  exact ⟨_, hrun, ((master_outlives_workers ⟨1, []⟩ 2 2 rfl (by decide) (by decide) hrun hfresh).2 rfl).1⟩

end Cmogstored
