import Cmogstored.BufferedOutput
import Cmogstored.MgmtCommands
import Cmogstored.MgmtReference

/-! A management client keeps to its reference, however its input is cut into reads and however its
output is blocked: each call that is no socket operation is the one the reference asks next, the bytes
written are those of the replies, and more is read only when every complete line has been served. -/

namespace Cmogstored

open Prog Scan Reference

variable {ref : Ref} {request : MgmtCall} {iov : List Bytes}

variable (fuel : Nat)

/-! ### What a run shows -/

/-- The bytes a call read from the socket. -/
def receivedBy : (Σ request : MgmtCall, MgmtRes request) → Bytes
  | ⟨.sys (.read _), .ok data⟩ => data.val
  | _ => []

/-- The bytes a call put on the wire. -/
def sentBy : (Σ request : MgmtCall, MgmtRes request) → Bytes
  | ⟨.sys request, answer⟩ => acceptedBy ⟨request, answer⟩
  | _ => []

/-- The client has gone: end of file, or an error that ends the connection. -/
def goneBy : (Σ request : MgmtCall, MgmtRes request) → Bool
  | ⟨.sys (.read _), .ok data⟩ => data.val.isEmpty
  | ⟨.sys (.read _), .error errno⟩ => errno.hard
  | ⟨.sys (.write _), .error errno⟩ => errno.hard
  | ⟨.sys (.writev _), .error errno⟩ => errno.hard
  | _ => false

def repliesBy : MgmtCall → List Bytes
  | .reply text => [text]
  | _ => []

def commandsBy : MgmtCall → List Command
  | .command command => [command]
  | _ => []

/-- Everything but the socket operations, the I/O priority and the marks of a step. -/
def isAction : MgmtCall → Bool
  | .sys (.read _) => false
  | .sys (.write _) => false
  | .sys (.writev _) => false
  | .ioprioDrop => false
  | .ioprioRestore _ => false
  | .subscribing _ => false
  | .stepped _ _ => false
  | .closed _ => false
  | _ => true

/-! ### The ghost state -/

/-- What was received, sent, replied and executed so far, where the reference stands, and what of the
last reply is still to be sent. -/
structure Talk where
  received : Bytes
  sent : Bytes
  replies : List Bytes
  commands : List Command
  gone : Bool
  ref : Ref
  owed : Bytes

def Talk.start : Talk where
  received := []
  sent := []
  replies := []
  commands := []
  gone := false
  ref := .start
  owed := []

def Ref.hears (ctx : MgmtCtx) (ref : Ref) (request : MgmtCall) (answer : MgmtRes request) : Ref :=
  if isAction request then feed (Ref.step ctx) ref request answer
  else ref.grow (receivedBy ⟨request, answer⟩)

def Talk.owes (talk : Talk) (request : MgmtCall) (answer : MgmtRes request) : Bytes :=
  match repliesBy request with
  | [] => talk.owed.drop (sentBy ⟨request, answer⟩).length
  | text :: _ => text

def Talk.next (ctx : MgmtCtx) (talk : Talk) (request : MgmtCall) (answer : MgmtRes request) : Talk where
  received := talk.received ++ receivedBy ⟨request, answer⟩
  sent := talk.sent ++ sentBy ⟨request, answer⟩
  replies := talk.replies ++ repliesBy request
  commands := talk.commands ++ commandsBy request
  gone := talk.gone || goneBy ⟨request, answer⟩
  ref := talk.ref.hears ctx request answer
  owed := talk.owes request answer

/-- Why a client may be closed: it has gone, its line starts with a stray `\r`, or the line does not fit
the buffer. -/
def Talk.Ends (talk : Talk) : Prop :=
  talk.gone = true ∨ BadLine talk.ref.rest ∨
    (MOG_RBUF_BASE_SIZE ≤ talk.ref.rest.length ∧ LF ∉ talk.ref.rest)

/-- A digest of low priority is being computed. -/
def Ref.AtFsck (ref : Ref) : Prop := ∃ job, ref.task.job = some job ∧ job.prio = .fsck

/-- What holds besides when a request is made. -/
def Talk.Settles (talk : Talk) : MgmtCall → Prop
  | .sys (.read _) => talk.ref.task = .idle ∧ talk.owed = [] ∧ LF ∉ talk.ref.rest
  | .sys (.write buf) => buf = talk.owed
  | .sys (.writev iov) => iov.flatten = talk.owed
  | .command _ => talk.owed = []
  | .reply _ => talk.owed = []
  | .ioprioDrop => talk.ref.AtFsck
  | .ioprioRestore _ => talk.ref.AtFsck
  | .stepped .close _ => talk.Ends
  | _ => True

def talkContract (ctx : MgmtCtx) : Contract MgmtCall MgmtRes Talk where
  must talk request := (isAction request = true → Asks (Ref.step ctx) talk.ref request) ∧
    talk.Settles request
  may _ _ _ := True
  next talk request answer := talk.next ctx request answer
  excused _ := False

/-! ### Actions -/

section Actions

variable {ctx : MgmtCtx} {talk : Talk} {α β : Type}

theorem Ref.step_busy {next : MgmtRes request → Task}
    (hbusy : ref.task ≠ .idle) (h : ref.task.step ctx = some ⟨request, next⟩) :
    ref.step ctx = some ⟨request, fun answer => ref.behind (next answer)⟩ := by
  rw [Ref.step, if_neg hbusy, h]

/-- The state behind an action, as far as it matters later. -/
structure Moved (talk talk' : Talk) (ref : Ref) (owed : Bytes) : Prop where
  ref : talk'.ref = ref
  owed : talk'.owed = owed
  gone : talk.gone = true → talk'.gone = true

theorem moved_of_step {next : MgmtRes request → Ref} (haction : isAction request = true)
    (h : talk.ref.step ctx = some ⟨request, next⟩) (answer : MgmtRes request) :
    Moved talk (talk.next ctx request answer) (next answer) (talk.owes request answer) := by
  refine ⟨?_, rfl, fun hgone => ?_⟩
  · show talk.ref.hears ctx request answer = next answer
    rw [Ref.hears, if_pos haction, feed_eq h]
  · show (talk.gone || _) = true
    rw [hgone]
    rfl

/-- A call that the reference asks next. -/
theorem wp_action (next : MgmtRes request → Task)
    {f : MgmtRes request → MgmtIo β} {Q : β → Talk → Prop} (hbusy : talk.ref.task ≠ .idle)
    (hstep : talk.ref.task.step ctx = some ⟨request, next⟩) (haction : isAction request = true)
    (hsettles : talk.Settles request)
    (h : ∀ answer talk', Moved talk talk' (talk.ref.behind (next answer)) (talk.owes request answer) →
      wp (talkContract ctx) (f answer) Q talk') :
    wp (talkContract ctx) (ask request >>= f) Q talk := by
  have hasks := Ref.step_busy hbusy hstep
  exact wp_ask_bind ⟨fun _ => ⟨_, hasks⟩, hsettles⟩
    fun answer _ => h answer _ (moved_of_step haction hasks answer)

/-- The same inside a shared part. -/
theorem wp_shared_action {request : Call} (next : Res request → Task) {f : Res request → Io β}
    {Q : β → Talk → Prop} (hbusy : talk.ref.task ≠ .idle)
    (hstep : talk.ref.task.step ctx = some ⟨.sys request, next⟩)
    (haction : isAction (.sys request) = true) (hsettles : talk.Settles (.sys request))
    (h : ∀ answer talk', Moved talk talk' (talk.ref.behind (next answer)) (talk.owes (.sys request) answer) →
      wp ((talkContract ctx).comap MgmtCall.sys) (f answer) Q talk') :
    wp ((talkContract ctx).comap MgmtCall.sys) (ask request >>= f) Q talk := by
  have hasks := Ref.step_busy hbusy hstep
  exact wp_ask_bind ⟨fun _ => ⟨_, hasks⟩, hsettles⟩
    fun answer _ => h answer _ (moved_of_step haction hasks answer)

end Actions

/-! ### Writing -/

section Writing

variable {ctx : MgmtCtx} {talk : Talk}

/-- What a write buffer says of the bytes still to be sent. -/
def Owes (talk : Talk) : Wbuf → Prop
  | .null => talk.owed = []
  | .error => talk.gone = true
  | .pending buf off => talk.owed = buf.drop off ∧ off < buf.length

theorem Ref.grow_nil (ref : Ref) : ref.grow [] = ref := by
  rw [Ref.grow, List.append_nil]

/-- A socket operation that reads nothing leaves the reference where it is. -/
theorem moved_of_socket (ctx : MgmtCtx) (talk : Talk) (request : Call) (answer : Res request)
    (hsocket : isAction (.sys request) = false)
    (hreceived : receivedBy ⟨.sys request, answer⟩ = []) :
    Moved talk (talk.next ctx (.sys request) answer) talk.ref
      (talk.owed.drop (acceptedBy ⟨request, answer⟩).length) := by
  refine ⟨?_, rfl, fun hgone => ?_⟩
  · show talk.ref.hears ctx (.sys request) answer = talk.ref
    rw [Ref.hears, hsocket, hreceived, Ref.grow_nil]
    rfl
  · show (talk.gone || _) = true
    rw [hgone]
    rfl

theorem hard_of_ne {errno : Errno} (hblocked : errno ≠ .EAGAIN) (hagain : errno ≠ .EINTR) :
    errno.hard = true := hard_of_kind (kind_of_hard hblocked hagain)

theorem gone_next {answer : MgmtRes request} (h : goneBy ⟨request, answer⟩ = true) :
    (talk.next ctx request answer).gone = true := by
  show (talk.gone || _) = true
  rw [h, Bool.or_true]

theorem drop_taken {bytes : Bytes} (w : Fin (bytes.length + 1)) (rest : Bytes) :
    rest.drop (bytes.take w).length = rest.drop w := by
  rw [List.length_take, Nat.min_eq_left (Nat.lt_succ_iff.mp w.isLt)]

theorem wp_trywritevRetry (howed : iov.flatten = talk.owed)
    (hne : talk.owed ≠ []) :
    wp ((talkContract ctx).comap MgmtCall.sys) (trywritevRetry fuel iov.flatten.length iov)
      (fun wbuf talk' => talk'.ref = talk.ref ∧ Owes talk' wbuf) talk := by
  induction fuel generalizing talk iov with
  | zero => trivial
  | succ fuel ih =>
    rw [trywritevRetry_succ]
    refine wp_ask_bind ⟨nofun, howed⟩ fun answer _ => ?_
    have hmoved := moved_of_socket ctx talk (.writev iov) answer rfl rfl
    split
    · rename_i w _
      have hdrop := hmoved.owed
      rw [show acceptedBy ⟨.writev iov, .ok w⟩ = iov.flatten.take w from rfl, drop_taken, ← howed]
        at hdrop
      split
      · rename_i hall
        refine ⟨hmoved.ref, ?_⟩
        rw [hall, List.drop_length] at hdrop
        exact hdrop
      · rename_i hpart
        refine wp_mono (ih ?_ ?_) fun wbuf talk' h => ⟨h.1.trans hmoved.ref, h.2⟩
        · rw [iovAdvance_flatten]
          exact hdrop.symm
        · show (talk.next ctx _ _).owed ≠ []
          rw [hdrop, Ne, List.drop_eq_nil_iff]
          omega
    · refine ⟨hmoved.ref, hmoved.owed.trans howed.symm, ?_⟩
      rw [howed]
      exact List.length_pos_iff.mpr hne
    · refine wp_mono (ih ?_ ?_) fun wbuf talk' h => ⟨h.1.trans hmoved.ref, h.2⟩
      · exact howed.trans hmoved.owed.symm
      · exact hmoved.owed ▸ hne
    · exact ⟨hmoved.ref, gone_next (hard_of_ne ‹_› ‹_›)⟩

theorem wp_tryflush {buf : Bytes} {off : Nat} (howed : talk.owed = buf.drop off)
    (hoff : off < buf.length) :
    wp ((talkContract ctx).comap MgmtCall.sys) (mogTryflush fuel buf off)
      (fun result talk' => talk'.ref = talk.ref ∧ match result.1 with
        | .done => result.2 = .null ∧ talk'.owed = []
        | .busy => ∃ off, result.2 = .pending buf off ∧ Owes talk' (.pending buf off)
        | .err => result.2 = .null ∧ talk'.gone = true) talk := by
  induction fuel generalizing talk off with
  | zero => trivial
  | succ fuel ih =>
    refine wp_ask_bind ⟨nofun, howed.symm⟩ fun answer _ => ?_
    have hmoved := moved_of_socket ctx talk (.write (buf.drop off)) answer rfl rfl
    split
    · rename_i w _
      have hdrop := hmoved.owed
      rw [show acceptedBy ⟨.write (buf.drop off), .ok w⟩ = (buf.drop off).take w from rfl, drop_taken,
        howed, List.drop_drop] at hdrop
      have hw := List.length_drop (i := off) (l := buf)
      split
      · rename_i hall
        refine ⟨hmoved.ref, rfl, ?_⟩
        refine hdrop.trans (List.drop_eq_nil_of_le ?_)
        omega
      · rename_i hpart
        refine wp_mono (ih hdrop ?_) fun result talk' h => ⟨h.1.trans hmoved.ref, h.2⟩
        omega
    · exact ⟨hmoved.ref, off, rfl, hmoved.owed.trans howed, hoff⟩
    · refine wp_mono (ih ?_ hoff) fun result talk' h => ⟨h.1.trans hmoved.ref, h.2⟩
      exact hmoved.owed.trans howed
    · exact ⟨hmoved.ref, rfl, gone_next (hard_of_ne ‹_› ‹_›)⟩

end Writing

/-! ### Commands -/

/-- The digest at hand. -/
structure Hashing (mgmt : Mgmt) (file : MogFile) (job : Job) (data : Bytes) : Prop where
  fd : file.fd = job.fd
  path : file.path = some job.path
  digest : file.digest = some data
  alg : mgmt.alg = job.alg
  prio : mgmt.prio = job.prio
  -- under `MOG_PRIO_FSCK` a digest is computed in one go
  whole : job.prio = .fsck → data = []

/-- A digest between two steps. -/
def Job.at_ (job : Job) (data : Bytes) : Task :=
  match job.prio with
  | .fsck => .ready job
  | .none => .hash job data

/-- What `mgmt->forward` says of the task. -/
def Doing (mgmt : Mgmt) (task : Task) : Prop :=
  match mgmt.forward with
  | .none => task = .idle
  | .iostat => task = .refresh
  | .file file => ∃ job data, Hashing mgmt file job data ∧ task = job.at_ data

/-- A command has been started, and its reply written unless there is a file to be read first. -/
structure Acted (mgmt : Mgmt) (ref : Ref) (mgmt' : Mgmt) (talk' : Talk) : Prop where
  fields : mgmt'.toMgmtFields = mgmt.toMgmtFields
  rbuf : mgmt'.rbuf = mgmt.rbuf
  offset : mgmt'.offset = mgmt.offset
  owes : Owes talk' mgmt'.wbuf
  doing : Doing mgmt' talk'.ref.task
  rest : talk'.ref.rest = ref.rest
  refFields : talk'.ref.fields = ref.fields

section Commands

variable {ctx : MgmtCtx} {talk : Talk} {mgmt : Mgmt} {buf : Bytes}

def afterReply : Option Job → Task
  | none => .idle
  | some job => job.finish

theorem wp_mogMgmtWritev {job : Option Job} (hnull : mgmt.wbuf = .null)
    (howed : talk.owed = []) (htask : talk.ref.task = .reply iov.flatten job) :
    wp (talkContract ctx) (mogMgmtWritev fuel mgmt iov) (fun mgmt' talk' => ∃ wbuf,
      mgmt' = { mgmt with wbuf := wbuf } ∧ Owes talk' wbuf ∧
      talk'.ref = talk.ref.behind (afterReply job)) talk := by
  refine wp_require_bind (fun hbusy => ?_) fun _ => ?_
  · rw [hnull] at hbusy
    cases hbusy
  · refine wp_action (fun _ => afterReply job) (by rw [htask]; nofun) (by rw [htask]; rfl) rfl
      howed fun _ talk' hmoved => ?_
    have howes : talk'.owed = iov.flatten := hmoved.owed
    refine wp_bind.mpr (wp_embed.mpr ?_)
    unfold mogTrywritev
    split
    · rename_i hempty
      refine ⟨.null, rfl, ?_, hmoved.ref⟩
      exact howes.trans (List.length_eq_zero_iff.mp hempty)
    · rename_i hsome
      refine wp_mono (wp_trywritevRetry fuel howes.symm ?_) fun wbuf talk'' h =>
        ⟨wbuf, rfl, h.2, h.1.trans hmoved.ref⟩
      rw [howes]
      exact fun hnil => hsome (by rw [hnil]; rfl)

/-- A command that only replies. -/
theorem wp_answer (hnull : mgmt.wbuf = .null)
    (hforward : mgmt.forward = .none) (howed : talk.owed = []) (htask : talk.ref.task = .answer iov) :
    wp (talkContract ctx) (mogMgmtWritev fuel mgmt iov) (Acted mgmt talk.ref) talk := by
  refine wp_mono (wp_mogMgmtWritev fuel hnull howed htask) ?_
  rintro _ talk' ⟨wbuf, rfl, howes, href⟩
  have hbehind : talk.ref.behind .idle = { talk.ref with task := .idle } := by
    rw [Ref.behind, htask]
    rfl
  rw [show talk.ref.behind (afterReply none) = talk.ref.behind .idle from rfl, hbehind] at href
  refine ⟨rfl, rfl, rfl, howes, ?_, by rw [href], by rw [href]⟩
  unfold Doing
  rw [hforward, href]

/-- What an action before the last one leaves as it was. -/
theorem Acted.of_moved {ref' : Ref} {mgmt' : Mgmt} {talk' : Talk} (hrest : ref'.rest = ref.rest)
    (hfields : ref'.fields = ref.fields) (h : Acted mgmt ref' mgmt' talk') : Acted mgmt ref mgmt' talk' :=
  { h with rest := h.rest.trans hrest, refFields := h.refFields.trans hfields }

theorem wp_getPath {γ : Type} {k : Except Mgmt Bytes → MgmtIo γ} {Q : γ → Talk → Prop}
    (hnull : mgmt.wbuf = .null) (hforward : mgmt.forward = .none) (howed : talk.owed = [])
    {task : Task} (htask : talk.ref.task = if mogValidPath (mgmt.marked buf) then task else uriInvalid)
    (hok : talk.ref.task = task → wp (talkContract ctx) (k (.ok (mgmt.marked buf))) Q talk)
    (hbad : ∀ mgmt' talk', Acted mgmt talk.ref mgmt' talk' →
      wp (talkContract ctx) (k (.error mgmt')) Q talk') :
    wp (talkContract ctx) (getPath fuel mgmt buf >>= k) Q talk := by
  unfold getPath
  split
  · rename_i hvalid
    rw [if_pos hvalid] at htask
    exact hok htask
  · rename_i hinvalid
    rw [if_neg hinvalid] at htask
    rw [bind_assoc]
    exact wp_bind.mpr (wp_mono (wp_answer fuel hnull hforward howed htask) hbad)

theorem behind_of_ne (hne : ∀ job, ref.task ≠ .close job) (task : Task) :
    ref.behind task = { ref with task := task } := by
  unfold Ref.behind
  split
  · exact absurd ‹_› (hne _)
  · rfl

theorem wp_mogMgmtFnSize (hnull : mgmt.wbuf = .null) (hforward : mgmt.forward = .none)
    (howed : talk.owed = []) (htask : talk.ref.task = .start (.size (mgmt.marked buf))) :
    wp (talkContract ctx) (mogMgmtFnSize fuel mgmt buf) (Acted mgmt talk.ref) talk := by
  refine wp_getPath fuel hnull hforward howed htask (fun hstat => ?_) fun mgmt' talk' h => h
  refine wp_action (.statted (mgmt.marked buf)) (by rw [hstat]; nofun) (by rw [hstat]; rfl) rfl
    trivial fun answer talk' hmoved => ?_
  have href := hmoved.ref
  rw [behind_of_ne (by rw [hstat]; nofun)] at href
  have howed' : talk'.owed = [] := hmoved.owed.trans (by rw [Talk.owes, howed]; rfl)
  split
  all_goals
    refine wp_mono (wp_answer fuel hnull hforward howed' (by rw [href]; rfl)) fun mgmt' talk'' h => ?_
    exact h.of_moved (by rw [href]) (by rw [href])

/-- The second attempt, if there is one. -/
theorem wp_openExpireRetry {alg : Alg} {prio : Prio} {path : Bytes} (errno : Errno) (howed : talk.owed = [])
    (htask : talk.ref.task = .opened alg prio path (.error errno)) :
    wp ((talkContract ctx).comap MgmtCall.sys) (mogOpenExpireRetry errno) (fun result talk' =>
      talk'.owed = [] ∧ talk'.ref = { talk.ref with
        task := if result.1 then .reopen alg prio path else noFile alg path }) talk := by
  have hexpire : errno.noDescriptor = true → wp ((talkContract ctx).comap MgmtCall.sys)
      (do let expired ← sys .fdmapExpire; pure (decide (0 < expired.1), expired.2))
      (fun result talk' => talk'.owed = [] ∧ talk'.ref = { talk.ref with
        task := if result.1 then .reopen alg prio path else noFile alg path }) talk := by
    intro hno
    rw [Task.opened, if_pos hno] at htask
    refine wp_shared_action (.expired alg prio path) (by simp [htask]) (by rw [htask]; rfl) rfl
      trivial fun answer talk' hmoved => ?_
    have href := hmoved.ref
    rw [behind_of_ne (by simp [htask])] at href
    refine ⟨hmoved.owed.trans (by rw [Talk.owes, howed]; rfl), href.trans ?_⟩
    simp only [Task.expired, decide_eq_true_eq]
  unfold mogOpenExpireRetry
  split
  · exact hexpire rfl
  · exact hexpire rfl
  · exact hexpire rfl
  · refine ⟨howed, ?_⟩
    have hother : errno.noDescriptor = false := by cases errno <;> first | rfl | contradiction
    rw [Task.opened, if_neg (by simp [hother])] at htask
    exact congrArg (fun task => { talk.ref with task := task }) htask

/-- Opening the file of a digest. -/
theorem wp_openRead {alg : Alg} {prio : Prio} {path : Bytes} (howed : talk.owed = [])
    (htask : talk.ref.task = .openFile alg prio path) :
    wp (talkContract ctx) (shared (mogFileOpenRead path)) (fun result talk' => talk'.owed = [] ∧
      match result with
      | .ok file => talk'.ref = { talk.ref with task := Job.begin ⟨alg, prio, path, file.fd⟩ }
      | .error _ => talk'.ref = { talk.ref with task := noFile alg path }) talk := by
  refine wp_embed.mpr (wp_bind.mpr (wp_shared_action (.opened alg prio path) (by rw [htask]; nofun)
    (by rw [htask]; rfl) rfl trivial fun answer talk₁ hmoved => ?_))
  have href := hmoved.ref
  rw [behind_of_ne (by rw [htask]; nofun)] at href
  have howed₁ : talk₁.owed = [] := hmoved.owed.trans (by rw [Talk.owes, howed]; rfl)
  cases answer with
  | ok fd => exact ⟨howed₁, href⟩
  | error errno =>
    refine wp_bind.mpr (wp_mono (wp_openExpireRetry errno howed₁ (by rw [href])) ?_)
    rintro ⟨again, left⟩ talk₂ ⟨howed₂, href₂⟩
    rw [href] at href₂
    dsimp only
    split
    · rename_i hagain
      have htask₂ : talk₂.ref.task = .reopen alg prio path := by
        rw [href₂]
        exact if_pos hagain
      refine wp_shared_action (.reopened alg prio path) (by rw [htask₂]; nofun)
        (by rw [htask₂]; rfl) rfl trivial fun answer talk₃ hmoved => ?_
      have href₃ := hmoved.ref
      rw [behind_of_ne (by rw [htask₂]; nofun), href₂] at href₃
      have howed₃ : talk₃.owed = [] := hmoved.owed.trans (by rw [Talk.owes, howed₂]; rfl)
      cases answer with
      | ok fd => exact ⟨howed₃, href₃⟩
      | error errno => exact ⟨howed₃, href₃⟩
    · rename_i hstop
      rw [if_neg hstop] at href₂
      exact ⟨howed₂, href₂⟩

theorem wp_mogMgmtFnDigest (hnull : mgmt.wbuf = .null) (hforward : mgmt.forward = .none)
    (howed : talk.owed = [])
    (htask : talk.ref.task = .start (.digest mgmt.alg mgmt.prio (mgmt.marked buf))) :
    wp (talkContract ctx) (mogMgmtFnDigest fuel mgmt buf) (Acted mgmt talk.ref) talk := by
  refine wp_getPath fuel hnull hforward howed htask (fun hopen => ?_) fun mgmt' talk' h => h
  refine wp_bind.mpr (wp_mono (wp_openRead howed hopen) ?_)
  rintro (errno | file) talk' ⟨howed', href⟩
  · refine wp_mono (wp_answer fuel hnull hforward howed' (by rw [href]; rfl)) fun mgmt' talk'' h => ?_
    exact h.of_moved (by rw [href]) (by rw [href])
  · refine ⟨rfl, rfl, rfl, ?_, ?_, by rw [href], by rw [href]⟩
    · show Owes talk' mgmt.wbuf
      rw [hnull]
      exact howed'
    · refine ⟨⟨mgmt.alg, mgmt.prio, mgmt.marked buf, file.fd⟩, [], ⟨rfl, rfl, rfl, rfl, rfl, fun _ => rfl⟩, ?_⟩
      rw [href]
      rfl

theorem wp_mogMgmtFnAioThreads (hnull : mgmt.wbuf = .null) (hforward : mgmt.forward = .none)
    (howed : talk.owed = []) (hthreads : ThreadsOk mgmt.toMgmtFields buf)
    (htask : talk.ref.task = .start (.aioThreads (mgmt.marked buf))) :
    wp (talkContract ctx) (mogMgmtFnAioThreads fuel mgmt buf) (Acted mgmt talk.ref) talk := by
  refine wp_require_bind (fun hend => ?_) fun _ => wp_require_bind (fun hdigits => ?_) fun _ => ?_
  · rcases hthreads.1 with h | h
    · rw [h] at hend
      cases hend
    · rw [h, Bool.or_eq_false_iff] at hend
      cases hend.2
  · rw [hthreads.2] at hdigits
    cases hdigits
  · dsimp only
    split
    · rename_i hnr
      rw [Task.start, if_pos hnr] at htask
      refine wp_action (fun _ => .answer [ascii "\r\n"]) (by simp [htask]) (by rw [htask]; rfl) rfl
        trivial fun _ talk' hmoved => ?_
      have href := hmoved.ref
      rw [behind_of_ne (by simp [htask])] at href
      have howed' : talk'.owed = [] := hmoved.owed.trans (by rw [Talk.owes, howed]; rfl)
      refine wp_mono (wp_answer fuel hnull hforward howed' (by rw [href])) fun mgmt' talk'' h => ?_
      exact h.of_moved (by rw [href]) (by rw [href])
    · rename_i hnr
      rw [Task.start, if_neg hnr] at htask
      exact wp_answer fuel hnull hforward howed htask

/-- **The function called at the end of a line does what its command says.** -/
theorem wp_mgmtAction (fn : MgmtFn) (hnull : mgmt.wbuf = .null)
    (hforward : mgmt.forward = .none) (howed : talk.owed = [])
    (hthreads : fn = .aioThreads → ThreadsOk mgmt.toMgmtFields buf)
    (htask : talk.ref.task = .start (commandOf mgmt.toMgmtFields buf fn)) :
    wp (talkContract ctx) (mgmtAction fuel mgmt buf fn) (Acted mgmt talk.ref) talk := by
  cases fn with
  | blank => exact wp_answer fuel hnull hforward howed htask
  | size => exact wp_mogMgmtFnSize fuel hnull hforward howed htask
  | digest => exact wp_mogMgmtFnDigest fuel hnull hforward howed htask
  | watch =>
    refine ⟨rfl, rfl, rfl, ?_, htask, rfl, rfl⟩
    show Owes talk mgmt.wbuf
    rw [hnull]
    exact howed
  | aioThreads => exact wp_mogMgmtFnAioThreads fuel hnull hforward howed (hthreads rfl) htask
  | shutdown =>
    have htask : talk.ref.task = .quit := htask
    refine wp_action (fun _ => .idle) (by rw [htask]; nofun) (by rw [htask]; rfl) rfl trivial
      fun _ talk' hmoved => ?_
    have href := hmoved.ref
    rw [behind_of_ne (by rw [htask]; nofun)] at href
    refine ⟨rfl, rfl, rfl, ?_, ?_, by rw [href], by rw [href]⟩
    · show Owes talk' mgmt.wbuf
      rw [hnull]
      exact hmoved.owed.trans (by rw [Talk.owes, howed]; rfl)
    · unfold Doing
      rw [hforward, href]
  | unknown => exact wp_answer fuel hnull hforward howed htask

end Commands

/-! ### Digests -/

section Digests

variable {ctx : MgmtCtx} {talk : Talk} {mgmt : Mgmt} {file : MogFile} {job : Job} {data : Bytes}

/-- Where a digest stands after reading. -/
def Task.read (ctx : MgmtCtx) (job : Job) (data : Bytes) : DigestNext → Task
  | .continue => .hash job data
  | .eof => .reply (digestText ctx job data) (some job)
  | .error => .seek job

/-- The file after reading. -/
structure HasRead (ctx : MgmtCtx) (talk : Talk) (file : MogFile) (job : Job) (next : DigestNext)
    (file' : MogFile) (data : Bytes) (talk' : Talk) : Prop where
  fd : file'.fd = file.fd
  path : file'.path = file.path
  digest : file'.digest = some data
  owed : talk'.owed = talk.owed
  ref : talk'.ref = { talk.ref with task := .read ctx job data next }

theorem HasRead.trans {talk₁ talk₂ : Talk} {file₁ file₂ : MogFile} {next : DigestNext} {data₂ : Bytes}
    (hfd : file₁.fd = file.fd) (hpath : file₁.path = file.path) (howed : talk₁.owed = talk.owed)
    (hrest : talk₁.ref.rest = talk.ref.rest) (hfields : talk₁.ref.fields = talk.ref.fields)
    (h : HasRead ctx talk₁ file₁ job next file₂ data₂ talk₂) :
    HasRead ctx talk file job next file₂ data₂ talk₂ where
  fd := h.fd.trans hfd
  path := h.path.trans hpath
  digest := h.digest
  owed := h.owed.trans howed
  ref := h.ref.trans (by dsimp only; rw [hrest, hfields])

theorem wp_mogDigestRead (rounds : Nat) (hfd : file.fd = job.fd) (hdigest : file.digest = some data)
    (htask : talk.ref.task = .hash job data) :
    wp (talkContract ctx) (mogDigestRead rounds file) (fun result talk' => ∃ data',
      HasRead ctx talk file job result.1 result.2 data' talk') talk := by
  induction rounds generalizing talk file data with
  | zero =>
    refine ⟨data, rfl, rfl, hdigest, rfl, ?_⟩
    exact congrArg (fun task => { talk.ref with task := task }) htask
  | succ rounds ih =>
    refine wp_action (.hashed ctx job data) (by rw [htask]; nofun) (by rw [htask, hfd]; rfl) rfl trivial
      fun answer talk' hmoved => ?_
    have href := hmoved.ref
    rw [behind_of_ne (by rw [htask]; nofun)] at href
    have howed : talk'.owed = talk.owed := hmoved.owed
    split
    · rename_i more
      split
      · rename_i hsome
        rw [Task.hashed, if_pos hsome] at href
        have hnext : talk'.ref.task = .hash job (data ++ more.val) := by rw [href]
        refine wp_mono (ih hfd (by rw [hdigest]; rfl) hnext) ?_
        rintro result talk'' ⟨data', h⟩
        refine ⟨data', HasRead.trans ?_ ?_ howed ?_ ?_ h⟩
        · rfl
        · rfl
        · rw [href]
        · rw [href]
      · rename_i hnone
        rw [Task.hashed, if_neg hnone] at href
        exact ⟨data, rfl, rfl, hdigest, howed, href⟩
    · refine wp_mono (ih hfd hdigest (by rw [href]; rfl)) ?_
      rintro result talk'' ⟨data', h⟩
      exact ⟨data', h.trans rfl rfl howed (by rw [href]) (by rw [href])⟩
    · rename_i errno hagain
      have hseek : Task.hashed ctx job data (.error errno) = .seek job := by
        cases errno <;> first | rfl | contradiction
      rw [hseek] at href
      exact ⟨data, rfl, rfl, hdigest, howed, href⟩

theorem wp_digestWhole (hfd : file.fd = job.fd) (hdigest : file.digest = some data)
    (htask : talk.ref.task = .hash job data) :
    wp (talkContract ctx) (digestWhole fuel file) (fun result talk' => result.1 ≠ .continue ∧
      ∃ data', HasRead ctx talk file job result.1 result.2 data' talk') talk := by
  induction fuel generalizing talk file data with
  | zero => trivial
  | succ fuel ih =>
    refine wp_bind.mpr (wp_mono (wp_mogDigestRead digestRounds hfd hdigest htask) ?_)
    rintro ⟨next, file'⟩ talk' ⟨data', h⟩
    cases next with
    | «continue» =>
      refine wp_mono (ih (h.fd.trans hfd) h.digest (by rw [h.ref]; rfl)) ?_
      rintro result talk'' ⟨hdone, data'', h'⟩
      exact ⟨hdone, data'', h'.trans h.fd h.path h.owed (by rw [h.ref]) (by rw [h.ref])⟩
    | eof => exact ⟨nofun, data', h⟩
    | error => exact ⟨nofun, data', h⟩

theorem Task.read_job (ctx : MgmtCtx) (job : Job) (data : Bytes) (next : DigestNext) :
    (Task.read ctx job data next).job = some job := by
  cases next <;> rfl

theorem wp_digestReadSome {prio : Prio} (hprio : prio = job.prio) (hfd : file.fd = job.fd)
    (hdigest : file.digest = some data) (htask : talk.ref.task = .hash job data) :
    wp (talkContract ctx) (digestReadSome fuel prio file) (fun result talk' =>
      (prio = .fsck → result.1 ≠ .continue) ∧
      ∃ data', HasRead ctx talk file job result.1 result.2 data' talk') talk := by
  cases prio with
  | none =>
    refine wp_mono (wp_mogDigestRead digestRounds hfd hdigest htask) fun result talk' h => ?_
    exact ⟨nofun, h⟩
  | fsck =>
    have hfsck : talk.ref.AtFsck := ⟨job, by rw [htask]; rfl, hprio.symm⟩
    refine wp_ask_bind ⟨nofun, hfsck⟩ fun ioprio _ => ?_
    have hdropped : ((talkContract ctx).next talk .ioprioDrop ioprio).ref = talk.ref := Ref.grow_nil _
    refine wp_bind.mpr (wp_mono (wp_digestWhole fuel hfd hdigest (by rw [hdropped, htask])) ?_)
    rintro result talk' ⟨hdone, data', h⟩
    have hread : HasRead ctx talk file job result.1 result.2 data' talk' :=
      h.trans rfl rfl (by rfl) (by rw [hdropped]) (by rw [hdropped])
    have hfsck' : talk'.ref.AtFsck := ⟨job, by rw [hread.ref]; exact Task.read_job .., hprio.symm⟩
    split
    · refine wp_ask_bind ⟨nofun, hfsck'⟩ fun _ _ => ⟨fun _ => hdone, data', ?_⟩
      exact ⟨hread.fd, hread.path, hread.digest, hread.owed, (Ref.grow_nil _).trans hread.ref⟩
    · exact ⟨fun _ => hdone, data', hread⟩

/-- The reference when the file of a digest has been closed. -/
def Ref.digested (ref : Ref) : Ref :=
  { ref with task := .idle, fields := { ref.fields with prio := .none } }

theorem wp_digestDone (hfd : file.fd = job.fd) (hprio : mgmt.prio = job.prio)
    (htask : talk.ref.task = job.finish) :
    wp (talkContract ctx) (digestDone mgmt file) (fun mgmt' talk' =>
      mgmt' = { mgmt with prio := .none, forward := .none } ∧ talk'.ref = talk.ref.digested ∧
      talk'.owed = talk.owed ∧ (talk.gone = true → talk'.gone = true)) talk := by
  have hclose : ∀ talk₁ : Talk, talk₁.ref.task = .close job →
      wp (talkContract ctx) (do shared (mogFileClose file); pure { mgmt with prio := .none, forward := .none })
        (fun mgmt' talk' => mgmt' = { mgmt with prio := .none, forward := .none } ∧
          talk'.ref = talk₁.ref.digested ∧ talk'.owed = talk₁.owed ∧
          (talk₁.gone = true → talk'.gone = true)) talk₁ := by
    intro talk₁ htask₁
    rw [show shared (mogFileClose file) = mgmtSys (.sys (.close file.fd)) from rfl]
    refine wp_action (fun _ => .idle) (by simp [htask₁]) (by rw [htask₁, hfd]; rfl) rfl trivial
      fun _ talk' hmoved => ?_
    have href := hmoved.ref
    rw [Ref.behind, htask₁] at href
    exact ⟨rfl, href, hmoved.owed, hmoved.gone⟩
  unfold digestDone
  cases hjob : job.prio with
  | none =>
    rw [if_neg (by simp [hprio, hjob])]
    refine hclose talk ?_
    rw [htask, Job.finish, hjob]
  | fsck =>
    rw [if_pos (hprio.trans hjob)]
    have htask : talk.ref.task = .next job := by rw [htask, Job.finish, hjob]
    refine wp_action (fun _ => .close job) (by simp [htask]) (by rw [htask, hfd]; rfl) rfl trivial
      fun _ talk₁ hmoved => ?_
    have href := hmoved.ref
    rw [behind_of_ne (by simp [htask])] at href
    refine wp_mono (hclose talk₁ (by rw [href])) ?_
    rintro mgmt' talk' ⟨hmgmt, href', howed, hgone⟩
    refine ⟨hmgmt, ?_, howed.trans hmoved.owed, fun h => hgone (hmoved.gone h)⟩
    rw [href', href]
    rfl

end Digests

/-! ### Between two steps -/

/-- The bytes that are kept, of which the parser has read the first `offset`: none or all of them. -/
structure LineHeld (ctx : MgmtCtx) (mgmt : Mgmt) (ref : Ref) : Prop where
  read : LineRead ctx.accepting ref.fields (ref.rest.take mgmt.offset) mgmt.toMgmtFields
  all : mgmt.offset = 0 ∨ mgmt.offset = ref.rest.length
  rbuf : mgmt.rbuf.getD [] = ref.rest
  short : ref.rest.length ≤ MOG_RBUF_BASE_SIZE
  room : mgmt.offset < MOG_RBUF_BASE_SIZE

structure TalkHolds (ctx : MgmtCtx) (mgmt : Mgmt) (talk : Talk) : Prop where
  ok : RefOk talk.ref
  owes : Owes talk mgmt.wbuf
  open_ : mgmt.wbuf ≠ .error
  doing : Doing mgmt talk.ref.task
  served : mgmt.forward ≠ .iostat
  line : LineHeld ctx mgmt talk.ref
  fresh : mgmt.forward ≠ .none → mgmt.offset = 0

/-- What a step returns. -/
def StepOk (ctx : MgmtCtx) (result : Mgmt × MgmtNext) (talk : Talk) : Prop :=
  (result.2 = .close → talk.Ends ∧ (result.1.wbuf = .null ∨ result.1.wbuf = .error)) ∧
  (result.2 ≠ .close → (result.2 = .ignore ∧ result.1.forward = .iostat ∧ talk.ref.task = .watching) ∨
    TalkHolds ctx result.1 talk)

section Steps

variable {ctx : MgmtCtx} {talk : Talk} {mgmt : Mgmt}

theorem LineRead.eq_of_nil {accepting : Bool} {base fields : MgmtFields}
    (h : LineRead accepting base [] fields) : fields = base := by
  cases h.scan with
  | more => rfl
  | goto hc => cases hc

/-- The parser at the start of a line that is kept. -/
theorem lineHeld_fresh (hok : RefOk ref) (hfields : mgmt.toMgmtFields = ref.fields)
    (hoffset : mgmt.offset = 0) (hrbuf : mgmt.rbuf.getD [] = ref.rest)
    (hshort : ref.rest.length ≤ MOG_RBUF_BASE_SIZE) : LineHeld ctx mgmt ref where
  read := by
    rw [hoffset, hfields]
    exact lineRead_nil hok.start
  all := Or.inl hoffset
  rbuf := hrbuf
  short := hshort
  room := by
    rw [hoffset]
    decide

theorem LineHeld.fields_eq (h : LineHeld ctx mgmt ref) (hoffset : mgmt.offset = 0) :
    mgmt.toMgmtFields = ref.fields := by
  have hread := h.read
  rw [hoffset] at hread
  exact hread.eq_of_nil

theorem stepOk_ofWbuf (howes : Owes talk mgmt.wbuf)
    (hholds : mgmt.wbuf ≠ .error → TalkHolds ctx mgmt talk) :
    StepOk ctx (mgmt, .ofWbuf mgmt.wbuf) talk := by
  cases hwbuf : mgmt.wbuf with
  | null => exact ⟨nofun, fun _ => Or.inr (hholds (by rw [hwbuf]; nofun))⟩
  | error =>
    rw [hwbuf] at howes
    exact ⟨fun _ => ⟨Or.inl howes, Or.inr hwbuf⟩, fun hne => absurd rfl hne⟩
  | pending buf off => exact ⟨nofun, fun _ => Or.inr (hholds (by rw [hwbuf]; nofun))⟩

/-- A digest that has replied gives its file back. -/
theorem wp_digestReplied {file : MogFile} {job : Job} {talk₁ : Talk}
    (h : TalkHolds ctx mgmt talk)
    (hnull : mgmt.wbuf = .null) (hfile : mgmt.forward ≠ .none) (hfd : file.fd = job.fd)
    (hprio : mgmt.prio = job.prio) (howed : talk₁.owed = [])
    (hrest : talk₁.ref.rest = talk.ref.rest) (hfields : talk₁.ref.fields = talk.ref.fields)
    (htask : talk₁.ref.task = .reply iov.flatten (some job)) :
    wp (talkContract ctx) (do
      let mgmt ← mogMgmtWritev fuel mgmt iov
      digestDone mgmt file) (fun mgmt' talk' => Owes talk' mgmt'.wbuf ∧
        (mgmt'.wbuf ≠ .error → TalkHolds ctx mgmt' talk')) talk₁ := by
  refine wp_bind.mpr (wp_mono (wp_mogMgmtWritev fuel hnull howed htask) ?_)
  rintro _ talk₂ ⟨wbuf, rfl, howes, href₂⟩
  rw [behind_of_ne (by rw [htask]; nofun)] at href₂
  refine wp_mono (wp_digestDone hfd (by exact hprio) (by rw [href₂]; rfl)) ?_
  rintro _ talk₃ ⟨rfl, href₃, howed₃, hgone⟩
  have hoffset := h.fresh hfile
  have howes₃ : Owes talk₃ wbuf := by
    cases wbuf with
    | null => exact howed₃.trans howes
    | error => exact hgone howes
    | pending buf off => exact ⟨howed₃.trans howes.1, howes.2⟩
  have hrest₃ : talk₃.ref.rest = talk.ref.rest := by rw [href₃, href₂]; exact hrest
  have hfields₃ : talk₃.ref.fields = { talk.ref.fields with prio := .none } := by
    rw [href₃, href₂, Ref.digested]
    dsimp only
    rw [hfields]
  have hok₃ : RefOk talk₃.ref := by
    refine ⟨?_, ?_, ?_⟩ <;> rw [hfields₃]
    · exact h.ok.start
    · exact h.ok.mark0
    · exact h.ok.mark1
  refine ⟨howes₃, fun hopen => ⟨hok₃, howes₃, hopen, ?_, nofun, ?_, fun hne => absurd rfl hne⟩⟩
  · rw [href₃]
    rfl
  · refine lineHeld_fresh hok₃ ?_ hoffset ?_ ?_
    · rw [hfields₃, ← h.line.fields_eq hoffset]
    · rw [hrest₃]
      exact h.line.rbuf
    · rw [hrest₃]
      exact h.line.short

end Steps

end Cmogstored
