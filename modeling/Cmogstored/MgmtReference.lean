import Cmogstored.Mgmt
import Cmogstored.MgmtScan
import Cmogstored.Reference

/-! What a management client is for: it takes the lines of a stream one after another, and for each of
them does what the command says, call by call, up to and including its reply. This machine knows no
buffers, no blocked sockets and no steps. -/

namespace Cmogstored

open Prog Scan Reference

variable {command : Command} {accepting : Bool}

/-- A digest of an open file. -/
structure Job where
  alg : Alg
  prio : Prio
  path : Bytes
  fd : Fd
  deriving DecidableEq

/-- What is left to do of a command. -/
inductive Task where
  | idle
  | stat (path : Bytes)
  | openFile (alg : Alg) (prio : Prio) (path : Bytes)
  -- no descriptor was left: idle connections are expired before a second attempt
  | expire (alg : Alg) (prio : Prio) (path : Bytes)
  | reopen (alg : Alg) (prio : Prio) (path : Bytes)
  | ready (job : Job)
  | hash (job : Job) (data : Bytes)
  | seek (job : Job)
  | threads (nr : Nat)
  | quit
  | refresh
  | subscribe
  | watching
  -- the reply, and the digest that ends with it
  | reply (text : Bytes) (job : Option Job)
  | next (job : Job)
  | close (job : Job)
  deriving DecidableEq

/-- A reply that ends the command. -/
def Task.answer (iov : List Bytes) : Task := .reply iov.flatten none

def uriInvalid : Task := .answer [ascii "ERROR: uri invalid (contains ..)\r\n"]

def Task.start : Command → Task
  | .blank => .answer [ascii "\r\n"]
  | .size path => if mogValidPath path then .stat path else uriInvalid
  | .digest alg prio path => if mogValidPath path then .openFile alg prio path else uriInvalid
  | .watch => .refresh
  | .aioThreads digits =>
    if 0 < strtoull digits && strtoull digits ≤ 100 then .threads (strtoull digits)
    else .answer [ascii "\r\n"]
  | .shutdown => .quit
  | .unknown word => .answer [ascii "ERROR: unknown command: ", word, ascii "\r\n"]

/-- The digest of an open file waits for its turn if it is of low priority. -/
def Job.begin (job : Job) : Task :=
  match job.prio with
  | .fsck => .ready job
  | .none => .hash job []

/-- Behind the reply. -/
def Job.finish (job : Job) : Task :=
  match job.prio with
  | .fsck => .next job
  | .none => .close job

def noFile (alg : Alg) (path : Bytes) : Task := .answer [path, alg.label ++ ascii "-1\r\n"]

/-- The errors of `open` after which idle connections are expired. -/
def Errno.noDescriptor : Errno → Bool
  | ENFILE => true
  | EMFILE => true
  | ENOMEM => true
  | _ => false

def Task.opened (alg : Alg) (prio : Prio) (path : Bytes) : Except Errno Fd → Task
  | .ok fd => Job.begin { alg := alg, prio := prio, path := path, fd := fd }
  | .error errno => if errno.noDescriptor then .expire alg prio path else noFile alg path

/-- The number of connections expired decides about a second attempt. -/
def Task.expired (alg : Alg) (prio : Prio) (path : Bytes) (answer : Nat × Errno) : Task :=
  if 0 < answer.1 then .reopen alg prio path else noFile alg path

def Task.reopened (alg : Alg) (prio : Prio) (path : Bytes) : Except Errno Fd → Task
  | .ok fd => Job.begin { alg := alg, prio := prio, path := path, fd := fd }
  | .error _ => noFile alg path

def Task.statted (path : Bytes) : Except Errno Stat → Task
  | .ok sb => .answer [path, ascii " " ++ lld sb.size.val ++ ascii "\r\n"]
  | .error _ => .answer [path, ascii " -1\r\n"]

def digestText (ctx : MgmtCtx) (job : Job) (data : Bytes) : Bytes :=
  [job.path, job.alg.label ++ mogDigestHex (ctx.hash job.alg data).val ++ ascii "\r\n"].flatten

def digestErrText (job : Job) (offset : Int) : Bytes :=
  [ascii "ERR read ", job.path, ascii " at " ++ lld offset ++ ascii " failed\r\n"].flatten

def Task.hashed (ctx : MgmtCtx) (job : Job) (data : Bytes) :
    Except Errno { data : Bytes // data.length ≤ fsbufSize } → Task
  | .ok more =>
    if 0 < more.val.length then .hash job (data ++ more.val) else .reply (digestText ctx job data) (some job)
  | .error .EINTR => .hash job data
  | .error _ => .seek job

/-- The digest that is being computed. -/
def Task.job : Task → Option Job
  | .ready job => some job
  | .hash job _ => some job
  | .seek job => some job
  | .reply _ job => job
  | .next job => some job
  | .close job => some job
  | _ => none

def Task.step (ctx : MgmtCtx) : Machine MgmtCall MgmtRes Task
  | .idle => none
  | .watching => none
  | .stat path => some ⟨.sys (.stat path), .statted path⟩
  | .openFile alg prio path => some ⟨.sys (.openRead path), .opened alg prio path⟩
  | .expire alg prio path => some ⟨.sys .fdmapExpire, .expired alg prio path⟩
  | .reopen alg prio path => some ⟨.sys (.openRead path), .reopened alg prio path⟩
  | .ready job => some ⟨.fsckQueueReady job.fd, fun now => if now then .hash job [] else .ready job⟩
  | .hash job data => some ⟨.readFile job.fd, .hashed ctx job data⟩
  | .seek job => some ⟨.lseek job.fd, fun offset => .reply (digestErrText job offset) (some job)⟩
  | .threads nr => some ⟨.setNThreads nr, fun _ => .answer [ascii "\r\n"]⟩
  | .quit => some ⟨.quit, fun _ => .idle⟩
  | .refresh => some ⟨.notifyRefresh, fun _ => .subscribe⟩
  | .subscribe => some ⟨.devstatsSubscribe, fun _ => .watching⟩
  | .reply text job =>
    some ⟨.reply text, fun _ => match job with | none => .idle | some job => job.finish⟩
  | .next job => some ⟨.fsckQueueNext job.fd, fun _ => .close job⟩
  | .close job => some ⟨.sys (.close job.fd), fun _ => .idle⟩

/-- The lines that are still to be taken, what the parser keeps from line to line, and the command at
hand. -/
structure Ref where
  rest : Bytes
  fields : MgmtFields
  task : Task

variable {ref ref' : Ref}

def Ref.start : Ref where
  rest := []
  fields := mogMgmtInit.toMgmtFields
  task := .idle

/-- The priority of a digest lasts until its file is closed. -/
def Ref.behind (ref : Ref) (task : Task) : Ref :=
  match ref.task with
  | .close _ => { ref with task := task, fields := { ref.fields with prio := .none } }
  | _ => { ref with task := task }

/-- The first line of `rest`, and what is left when it has been taken. -/
def Ref.take (accepting : Bool) (ref : Ref) : Option (Command × Ref) :=
  match mgmtExec accepting ref.fields ref.rest 0 with
  | .halted fields pos (.call fn) =>
    let command := commandOf fields ref.rest fn
    some (command,
      { rest := ref.rest.drop pos, fields := fields.reset, task := .start command })
  | _ => none

def Ref.step (ctx : MgmtCtx) : Machine MgmtCall MgmtRes Ref := fun ref =>
  if ref.task = .idle then
    match ref.take ctx.accepting with
    | some (command, ref) => some ⟨.command command, fun _ => ref⟩
    | none => none
  else
    match ref.task.step ctx with
    | some ⟨request, next⟩ => some ⟨request, fun answer => ref.behind (next answer)⟩
    | none => none

/-! ### Replies -/

/-- The commands that are answered; a watcher gets statistics instead. -/
def Command.replies : Command → Bool
  | .watch => false
  | .shutdown => false
  | _ => true

/-- The number of replies that are still due. -/
def Task.due : Task → Nat
  | .idle => 0
  | .quit => 0
  | .refresh => 0
  | .subscribe => 0
  | .watching => 0
  | .next _ => 0
  | .close _ => 0
  | _ => 1

theorem Task.start_due (command : Command) : (Task.start command).due = if command.replies then 1 else 0 := by
  cases command <;> simp only [Task.start, Command.replies] <;> (repeat' split) <;>
    first | rfl | contradiction

/-- The client becomes a watcher. -/
def Task.watches : Task → Bool
  | .refresh => true
  | .subscribe => true
  | .watching => true
  | _ => false

theorem Task.start_watches (h : (Task.start command).watches = true) :
    command = .watch := by
  revert h
  cases command <;> dsimp only [Task.start] <;> (repeat' split) <;>
    first | exact fun _ => rfl | exact fun h => absurd h Bool.false_ne_true

/-! ### Streams that grow -/

def Ref.grow (ref : Ref) (more : Bytes) : Ref := { ref with rest := ref.rest ++ more }

/-- The parser starts each line afresh. -/
structure RefOk (ref : Ref) : Prop where
  start : ref.fields.cs = .start
  mark0 : ref.fields.mark0 = 0
  mark1 : ref.fields.mark1 = 0

theorem refOk_start : RefOk .start := ⟨rfl, rfl, rfl⟩

theorem RefOk.behind (h : RefOk ref) (task : Task) : RefOk (ref.behind task) := by
  unfold Ref.behind
  split <;> exact ⟨h.start, h.mark0, h.mark1⟩

theorem RefOk.grow (h : RefOk ref) (more : Bytes) : RefOk (ref.grow more) :=
  ⟨h.start, h.mark0, h.mark1⟩

theorem Ref.grow_behind (ref : Ref) (more : Bytes) (task : Task) :
    (ref.grow more).behind task = (ref.behind task).grow more := by
  simp only [Ref.behind, Ref.grow]
  split <;> rfl

/-- How a line is taken. -/
theorem Ref.take_eq
    (h : ref.take accepting = some (command, ref')) :
    ∃ fields pos fn, mgmtExec accepting ref.fields ref.rest 0 = .halted fields pos (.call fn) ∧
      command = commandOf fields ref.rest fn ∧
      ref' = { rest := ref.rest.drop pos, fields := fields.reset, task := .start command } := by
  unfold Ref.take at h
  split at h
  · rename_i fields pos fn hexec
    cases h
    exact ⟨fields, pos, fn, hexec, rfl, rfl⟩
  · cases h

theorem RefOk.take
    (h : ref.take accepting = some (command, ref')) : RefOk ref' := by
  obtain ⟨fields, pos, fn, -, -, rfl⟩ := Ref.take_eq h
  exact ⟨rfl, rfl, rfl⟩

theorem commandOf_append {fields : MgmtFields} {buf : Bytes} (h : fields.mark1 ≤ buf.length)
    (more : Bytes) (fn : MgmtFn) : commandOf fields (buf ++ more) fn = commandOf fields buf fn := by
  have hmarked : fields.marked (buf ++ more) = fields.marked buf := by
    rw [MgmtFields.marked, MgmtFields.marked, List.take_append_of_le_length h]
  cases fn <;> simp only [commandOf, hmarked]

/-- A line is taken alike whatever follows it. -/
theorem RefOk.take_grow (hok : RefOk ref)
    (h : ref.take accepting = some (command, ref')) (more : Bytes) :
    (ref.grow more).take accepting = some (command, ref'.grow more) := by
  obtain ⟨fields, pos, fn, hexec, rfl, rfl⟩ := Ref.take_eq h
  have hend := lineEnd_mgmtExec accepting hok.start ref.rest
  rw [hexec] at hend
  obtain ⟨k, rfl, hlf, -⟩ := hend
  have hpos := (List.getElem?_eq_some_iff.mp hlf).1
  have hgrown := mgmtExec_append hok.start hexec more
  simp only [Ref.take, Ref.grow, hgrown, commandOf_append (mgmtExec_mark1 hok.mark1 hexec),
    List.drop_append_of_le_length (show k + 1 ≤ ref.rest.length from hpos)]

theorem RefOk.step_grow {ctx : MgmtCtx} {request : MgmtCall} {next : MgmtRes request → Ref}
    (hok : RefOk ref) (h : ref.step ctx = some ⟨request, next⟩) (more : Bytes) :
    (ref.grow more).step ctx = some ⟨request, fun answer => (next answer).grow more⟩ := by
  unfold Ref.step at h ⊢
  have htask : (ref.grow more).task = ref.task := rfl
  rw [htask]
  split at h
  · rename_i hidle
    rw [if_pos hidle]
    split at h
    · rename_i command ref' htake
      cases h
      rw [hok.take_grow htake]
    · cases h
  · rename_i hbusy
    rw [if_neg hbusy]
    split at h
    · rename_i asked next' hstep
      cases h
      simp only [Ref.grow_behind]
    · cases h

theorem RefOk.step {ctx : MgmtCtx} {ref : Ref} {request : MgmtCall} {next : MgmtRes request → Ref}
    (hok : RefOk ref) (h : ref.step ctx = some ⟨request, next⟩) (answer : MgmtRes request) :
    RefOk (next answer) := by
  unfold Ref.step at h
  split at h
  · split at h
    · rename_i command ref' htake
      cases h
      exact RefOk.take htake
    · cases h
  · split at h
    · cases h
      exact hok.behind _
    · cases h

end Cmogstored
