import Cmogstored.MgmtCommands
import Cmogstored.MgmtRuns

/-! `mgmt->prio`: it is set when the first four letters of a reason are `fsck`, whatever follows them, and
reset when a digest has ended. In between it is handed on from line to line, and from one call of a command
to the next. -/

namespace Cmogstored

open List Prog Reference Scan

/-! ### The priority behind a line -/

section Line

variable {accepting : Bool} {buf : Bytes} {base fields : MgmtFields} {pos : Nat}

/-- The machine after the bytes of `text`, if it reads all of them without going back. -/
def readsOn (accepting : Bool) : Bytes → MgmtFields → Nat → Option MgmtFields
  | [], fields, _ => some fields
  | c :: text, fields, pos =>
    match mgmtStep accepting [] fields pos c with
    | .goto fields' pos' => if pos' = pos + 1 then readsOn accepting text fields' pos' else none
    | _ => none

theorem readsOn_cons {c : Byte} {text : Bytes} {fields' : MgmtFields}
    (hmove : mgmtStep accepting [] fields pos c = .goto fields' (pos + 1)) :
    readsOn accepting (c :: text) fields pos = readsOn accepting text fields' (pos + 1) := by
  rw [readsOn, hmove]
  exact if_pos rfl

theorem readsOn_append (first second : Bytes) (fields : MgmtFields) (pos : Nat) :
    readsOn accepting (first ++ second) fields pos =
      (readsOn accepting first fields pos).bind fun fields' =>
        readsOn accepting second fields' (pos + first.length) := by
  induction first generalizing fields pos with
  | nil => rfl
  | cons c first ih =>
    rw [cons_append, readsOn, readsOn, length_cons]
    split
    · split
      · rename_i hpos
        rw [ih, hpos, Nat.add_right_comm, Nat.add_assoc]
      · rfl
    · rfl

/-- A scan of a buffer that holds the text at `pos` goes on behind it. -/
theorem scans_of_readsOn {text : Bytes} {outcome : Outcome MgmtFields MgmtStop}
    (h : readsOn accepting text fields pos = some base) (htext : text <+: buf.drop pos)
    (hscan : Scans (mgmtStep accepting) buf fields pos outcome) :
    Scans (mgmtStep accepting) buf base (pos + text.length) outcome := by
  induction text generalizing fields pos with
  | nil =>
    cases h
    exact hscan
  | cons c text ih =>
    obtain ⟨rest, hrest⟩ := htext
    have hc : buf[pos]? = some c := by
      rw [← List.head?_drop, ← hrest]
      rfl
    have hdrop : text <+: buf.drop (pos + 1) := by
      rw [← tail_drop, ← hrest]
      exact ⟨rest, rfl⟩
    rw [readsOn] at h
    split at h
    · rename_i fields' pos' hmove
      split at h
      · rename_i hpos
        subst hpos
        rw [length_cons, Nat.add_comm text.length, ← Nat.add_assoc]
        exact ih h hdrop (hscan.on hc hmove)
      · cases h
    · cases h

theorem readsOn_name (accepting : Bool) {name : Bytes} (hname : name ∈ digestNames) (hcs : base.cs = .start) :
    ∃ alg, readsOn accepting name base 0 = some { base with cs := .digestSlash, alg := alg } := by
  obtain ⟨cs, mark0, mark1, alg, prio⟩ := base
  obtain rfl : cs = .start := hcs
  rcases mem_pair.mp hname with rfl | rfl
  · exact ⟨.md5, rfl⟩
  · exact ⟨.sha1, rfl⟩

theorem readsOn_pathChars {rest : Bytes} (hrest : ∀ c ∈ rest, isPathChar c = true)
    (hcs : fields.cs = .digestPath) : readsOn accepting rest fields pos = some fields := by
  induction rest generalizing pos with
  | nil => rfl
  | cons c rest ih =>
    have hchar := hrest c (mem_cons_self ..)
    have hblank : (c == SP) = false := by
      apply beq_false_of_ne
      rintro rfl
      cases hchar
    have hmove : mgmtStep accepting [] fields pos c = .goto fields (pos + 1) := by
      obtain ⟨cs, mark0, mark1, alg, prio⟩ := fields
      obtain rfl : cs = .digestPath := hcs
      dsimp only [mgmtStep, mgmtNext]
      rw [hblank, hchar]
      rfl
    rw [readsOn_cons hmove]
    exact ih fun d hd => hrest d (mem_cons_of_mem _ hd)

theorem readsOn_path {path : Bytes} (hpath : IsMgmtPath path) (hcs : fields.cs = .digestSlash) :
    readsOn accepting path fields pos = some { fields with cs := .digestPath, mark0 := pos } := by
  obtain ⟨rest, rfl, hrest⟩ := hpath
  have hmove : mgmtStep accepting [] fields pos 47 =
      .goto { fields with cs := .digestPath, mark0 := pos } (pos + 1) := by
    rw [mgmtStep, hcs]
    rfl
  rw [readsOn_cons hmove]
  exact readsOn_pathChars hrest rfl

theorem readsOn_fsck (hcs : fields.cs = .digestPath) :
    readsOn true (ascii " fsck") fields pos =
      some { fields with cs := .reason, mark1 := pos, prio := .fsck } := by
  obtain ⟨cs, mark0, mark1, alg, prio⟩ := fields
  obtain rfl : cs = .digestPath := hcs
  show readsOn true [SP, 102, 115, 99, 107] _ pos = _
  calc
    _ = readsOn true [102, 115, 99, 107] _ (pos + 1) := readsOn_cons rfl
    _ = readsOn true [115, 99, 107] _ (pos + 1 + 1) := readsOn_cons rfl
    _ = readsOn true [99, 107] _ (pos + 1 + 1 + 1) := readsOn_cons rfl
    _ = readsOn true [107] _ (pos + 1 + 1 + 1 + 1) := readsOn_cons rfl
    _ = readsOn true [] _ (pos + 1 + 1 + 1 + 1 + 1) := readsOn_cons rfl

/-- What a scan keeps from then on. -/
theorem scans_prio_fsck {outcome : Outcome MgmtFields MgmtStop}
    (h : Scans (mgmtStep true) buf fields pos outcome) (hprio : fields.prio = .fsck) :
    outcome.Sat (fun fields' _ => fields'.prio = .fsck) fun fields' _ _ => fields'.prio = .fsck := by
  refine h.sat (fun fields' pos c hprio _ => ?_) hprio
  unfold mgmtStep mgmtMove
  dsimp only
  split <;> first | exact hprio | rfl

/-- **Where the priority is set**: behind a line whose reason starts with `fsck`, and nowhere else. -/
theorem mgmtExec_prio_fsck (hcs : base.cs = .start) {why : MgmtStop}
    (h : mgmtExec true base buf 0 = .halted fields pos why) (hfires : FiresFsck buf) : fields.prio = .fsck := by
  obtain ⟨name, hname, path, hpath, htext⟩ := hfires
  obtain ⟨alg, hread⟩ := readsOn_name true hname hcs
  have hreads : ∃ fields', readsOn true (name ++ path ++ ascii " fsck") base 0 = some fields' ∧
      fields'.prio = .fsck := by
    rw [readsOn_append, readsOn_append, hread, Option.bind_some, readsOn_path hpath rfl, Option.bind_some,
      readsOn_fsck rfl]
    exact ⟨_, rfl, rfl⟩
  obtain ⟨fields', hreads, hset⟩ := hreads
  have hscan := scans_mgmtExec true (lineAt_start buf hcs)
  have hprio := scans_prio_fsck (scans_of_readsOn hreads htext hscan) hset
  rw [h] at hprio
  exact hprio

end Line

/-! ### What a run shows of its lines -/

/-- The first line of a stream, with its `\n`. -/
def headLine (stream : Bytes) : Bytes := stream.take (stream.idxOf LF + 1)

/-- What follows it. -/
def tailLines (stream : Bytes) : Bytes := stream.drop (stream.idxOf LF + 1)

/-- The line that was executed last, whether a file has been opened for it, and the bytes behind it that
have been received so far. -/
structure LastLine where
  line : Bytes
  opened : Bool
  rest : Bytes

def LastLine.start : LastLine where
  line := []
  opened := false
  rest := []

def LastLine.next (last : LastLine) : (Σ request : MgmtCall, MgmtRes request) → LastLine
  | ⟨.sys (.read _), .ok data⟩ => { last with rest := last.rest ++ data.val }
  | ⟨.sys (.openRead _), .ok _⟩ => { last with opened := true }
  | ⟨.command _, _⟩ => { line := headLine last.rest, opened := false, rest := tailLines last.rest }
  | _ => last

def LastLine.after (last : LastLine) (trace : MgmtRun) : LastLine := trace.foldl LastLine.next last

/-- A digest command whose reason is exactly `fsck`. -/
def IsFsckLine (line : Bytes) : Prop :=
  ∃ name ∈ digestNames, ∃ path eor, IsMgmtPath path ∧ IsEor eor ∧ line = name ++ path ++ ascii " fsck" ++ eor

theorem IsFsckLine.fires {line : Bytes} (h : IsFsckLine line) : FiresFsck line := by
  obtain ⟨name, hname, path, eor, hpath, -, rfl⟩ := h
  exact ⟨name, hname, path, hpath, prefix_append _ eor⟩

/-- Another line may be executed: the last one did not start a reason with `fsck`, or its file has been
opened, and the next one does not start a reason with `fsck`, or has exactly this reason. -/
def LastLine.Clean (last : LastLine) : Prop :=
  (FiresFsck last.line → last.opened = true) ∧
    (FiresFsck (headLine last.rest) → IsFsckLine (headLine last.rest))

section HeadLine

variable {stream : Bytes} {k : Nat}

theorem idxOf_lf (hlf : stream[k]? = some LF) (hno : LF ∉ stream.take k) : stream.idxOf LF = k := by
  obtain ⟨hlt, hget⟩ := List.getElem?_eq_some_iff.mp hlf
  have hsplit : stream = stream.take k ++ LF :: stream.drop (k + 1) := by
    rw [← hget, ← drop_eq_getElem_cons hlt, take_append_drop]
  rw [hsplit, idxOf_append_of_notMem hno, idxOf_cons_self, length_take]
  omega

theorem lf_notMem_fires {name path : Bytes} (hname : name ∈ digestNames) (hpath : IsMgmtPath path) :
    LF ∉ name ++ path ++ ascii " fsck" := by
  obtain ⟨rest, rfl, hrest⟩ := hpath
  have hnames : ∀ name ∈ digestNames, LF ∉ name := by decide
  simp only [mem_append, mem_cons, not_or]
  refine ⟨⟨hnames name hname, by decide, fun hmem => ?_⟩, by decide⟩
  exact absurd (hrest LF hmem) (by decide)

/-- What fires is in the line itself. -/
theorem firesFsck_headLine (hlf : stream[k]? = some LF) (hno : LF ∉ stream.take k) :
    FiresFsck stream ↔ FiresFsck (headLine stream) := by
  have hhead : headLine stream = stream.take (k + 1) := by rw [headLine, idxOf_lf hlf hno]
  constructor
  · rintro ⟨name, hname, path, hpath, hpre⟩
    refine ⟨name, hname, path, hpath, ?_⟩
    rw [hhead]
    rcases prefix_or_prefix_of_prefix hpre (List.take_prefix (k + 1) stream) with h | h
    · exact h
    · have hmem : LF ∈ stream.take (k + 1) := mem_take_of_getElem? hlf (Nat.lt_succ_self k)
      exact absurd (h.subset hmem) (lf_notMem_fires hname hpath)
  · intro hfires
    exact FiresFsck.of_take (hhead ▸ hfires)

end HeadLine

/-! ### The priority of a task -/

/-- A file is still to be opened for a digest of this priority. -/
def Task.opens : Task → Option Prio
  | .openFile _ prio _ => some prio
  | .expire _ prio _ => some prio
  | .reopen _ prio _ => some prio
  | _ => none

/-- The next call is one of the fsck queue. -/
def Task.queues : Task → Bool
  | .ready _ => true
  | .next _ => true
  | _ => false

/-- What the priority says of the line that was executed last. -/
structure PrioKept (task : Task) (prio : Prio) (last : LastLine) : Prop where
  opens : ∀ p, task.opens = some p → p = prio ∧ (prio = .fsck ↔ IsFsckLine last.line)
  job : ∀ job, task.job = some job → job.prio = prio ∧ (prio = .fsck ↔ IsFsckLine last.line)
  queues : task.queues = true → prio = .fsck
  /-- a priority that no digest will reset -/
  left : task.job = none → prio = .fsck → FiresFsck last.line ∧ last.opened = false

section Tasks

variable {ctx : MgmtCtx} {prio : Prio} {last : LastLine}

/-- A task that neither opens a file nor computes a digest. -/
theorem PrioKept.of_left {task : Task} (hopens : task.opens = none) (hjob : task.job = none)
    (hqueues : task.queues = false) (hleft : prio = .fsck → FiresFsck last.line ∧ last.opened = false) :
    PrioKept task prio last where
  opens p h := by
    rw [hopens] at h
    cases h
  job job h := by
    rw [hjob] at h
    cases h
  queues h := by
    rw [hqueues] at h
    cases h
  left _ := hleft

/-- A task of a digest. -/
theorem PrioKept.of_job {task : Task} {job : Job} (hopens : task.opens = none) (hjob : task.job = some job)
    (hqueues : task.queues = true → job.prio = .fsck) (hprio : job.prio = prio)
    (hline : prio = .fsck ↔ IsFsckLine last.line) : PrioKept task prio last where
  opens p h := by
    rw [hopens] at h
    cases h
  job job' h := by
    cases hjob.symm.trans h
    exact ⟨hprio, hline⟩
  queues h := hprio ▸ hqueues h
  left h := by
    rw [hjob] at h
    cases h

theorem prioKept_begin {job : Job} (hprio : job.prio = prio) (hline : prio = .fsck ↔ IsFsckLine last.line) :
    PrioKept job.begin prio last := by
  unfold Job.begin
  split
  · exact .of_job rfl rfl (fun _ => ‹_›) hprio hline
  · exact .of_job rfl rfl nofun hprio hline

theorem prioKept_finish {job : Job} (hprio : job.prio = prio) (hline : prio = .fsck ↔ IsFsckLine last.line) :
    PrioKept job.finish prio last := by
  unfold Job.finish
  split
  · exact .of_job rfl rfl (fun _ => ‹_›) hprio hline
  · exact .of_job rfl rfl nofun hprio hline

/-- **One call of a command** keeps what is known of the priority. -/
theorem PrioKept.step {task : Task} {request : MgmtCall} {next : MgmtRes request → Task}
    (h : PrioKept task prio last) (hstep : task.step ctx = some ⟨request, next⟩) (answer : MgmtRes request)
    (hclose : ∀ job, task ≠ .close job) : PrioKept (next answer) prio (last.next ⟨request, answer⟩) := by
  have hgive : ∀ {alg : Alg} {path : Bytes}, task.job = none → PrioKept (noFile alg path) prio last :=
    fun hjob => .of_left rfl rfl rfl (h.left hjob)
  cases task with
  | idle => cases hstep
  | watching => cases hstep
  | stat path =>
    cases hstep
    refine .of_left ?_ ?_ ?_ (h.left rfl) <;> cases answer <;> rfl
  | openFile alg p path =>
    cases hstep
    obtain ⟨rfl, hline⟩ := h.opens p rfl
    cases answer with
    | ok fd => exact prioKept_begin rfl hline
    | error errno =>
      show PrioKept (if errno.noDescriptor then _ else _) p last
      split
      · exact ⟨fun q hq => by cases hq; exact ⟨rfl, hline⟩, nofun, nofun, fun _ => h.left rfl⟩
      · exact hgive rfl
  | expire alg p path =>
    cases hstep
    obtain ⟨rfl, hline⟩ := h.opens p rfl
    show PrioKept (if 0 < answer.1 then _ else _) p last
    split
    · exact ⟨fun q hq => by cases hq; exact ⟨rfl, hline⟩, nofun, nofun, fun _ => h.left rfl⟩
    · exact hgive rfl
  | reopen alg p path =>
    cases hstep
    obtain ⟨rfl, hline⟩ := h.opens p rfl
    cases answer with
    | ok fd => exact prioKept_begin rfl hline
    | error errno => exact hgive rfl
  | ready job =>
    cases hstep
    obtain ⟨hprio, hline⟩ := h.job job rfl
    show PrioKept (if answer then _ else _) prio last
    split
    · exact .of_job rfl rfl nofun hprio hline
    · exact .of_job rfl rfl (fun _ => hprio ▸ h.queues rfl) hprio hline
  | hash job data =>
    cases hstep
    obtain ⟨hprio, hline⟩ := h.job job rfl
    show PrioKept (Task.hashed ctx job data answer) prio last
    unfold Task.hashed
    split
    · split
      · exact .of_job rfl rfl nofun hprio hline
      · exact .of_job rfl rfl nofun hprio hline
    · exact .of_job rfl rfl nofun hprio hline
    · exact .of_job rfl rfl nofun hprio hline
  | seek job =>
    cases hstep
    obtain ⟨hprio, hline⟩ := h.job job rfl
    exact .of_job rfl rfl nofun hprio hline
  | threads nr =>
    cases hstep
    exact .of_left rfl rfl rfl (h.left rfl)
  | quit =>
    cases hstep
    exact .of_left rfl rfl rfl (h.left rfl)
  | refresh =>
    cases hstep
    exact .of_left rfl rfl rfl (h.left rfl)
  | subscribe =>
    cases hstep
    exact .of_left rfl rfl rfl (h.left rfl)
  | reply text job =>
    cases hstep
    cases job with
    | none => exact .of_left rfl rfl rfl (h.left rfl)
    | some job =>
      obtain ⟨hprio, hline⟩ := h.job job rfl
      exact prioKept_finish hprio hline
  | next job =>
    cases hstep
    obtain ⟨hprio, hline⟩ := h.job job rfl
    exact .of_job rfl rfl nofun hprio hline
  | close job => exact absurd rfl (hclose job)

/-- A command that has just been taken. -/
theorem prioKept_start {command : Command} (hprio : ∀ alg p path, command = .digest alg p path → p = prio)
    (hline : prio = .fsck ↔ IsFsckLine last.line) (hleft : prio = .fsck → FiresFsck last.line ∧ last.opened = false) :
    PrioKept (Task.start command) prio last := by
  cases command with
  | digest alg p path =>
    obtain rfl := hprio alg p path rfl
    dsimp only [Task.start]
    split
    · exact ⟨fun q hq => by cases hq; exact ⟨rfl, hline⟩, nofun, nofun, fun _ => hleft⟩
    · exact .of_left rfl rfl rfl hleft
  | size path =>
    dsimp only [Task.start]
    split <;> exact .of_left rfl rfl rfl hleft
  | aioThreads digits =>
    dsimp only [Task.start]
    split <;> exact .of_left rfl rfl rfl hleft
  | _ => exact .of_left rfl rfl rfl hleft

end Tasks

end Cmogstored
