import Cmogstored.HttpRule
import Cmogstored.Script

/-! The file of a request. A descriptor is opened into `http->forward` and has to be given back to
`mog_file_close` before the next request or the end of the connection. Uploads always do that. The
file of a GET is given back by `mog_http_get_in_progress` only, so it is lost when the connection
ends between the head and the body of the response: on a write error, or because a blocked head was
flushed to a client that does not keep the connection. -/

namespace Cmogstored

open Prog

variable {file : MogFile} {errno : Errno}

variable (ctx : Ctx) (fuel : Nat) (http : Http) (buf path : Bytes) (flags : OpenFlags)

/-- The descriptors a connection holds, the request it is answering, and whether the response to a
GET was cut off before its body. -/
structure Files where
  opened : List Fd
  method : Method
  persistent : Bool
  cut : Bool
  deriving DecidableEq, Repr

variable {files : Files}

def Files.holding (files : Files) : Bool := !files.opened.isEmpty

/-- A file is open for a response. -/
def Files.sending (files : Files) : Bool := files.method = .get && files.holding

def Files.next (files : Files) : (request : Call) → Res request → Files
  | .note (.handed http _), _ =>
    { files with method := http.httpMethod, persistent := http.persistent }
  | .openRead _, .ok fd => { files with opened := fd :: files.opened }
  | .openPut _ _, .ok fd => { files with opened := fd :: files.opened }
  | .close fd, _ => { files with opened := files.opened.erase fd }
  | .send _ _, .error errno => { files with cut := files.cut || (errno.hard && files.sending) }
  | .writev _, .error errno => { files with cut := files.cut || (errno.hard && files.sending) }
  | .write _, .error errno => { files with cut := files.cut || (errno.hard && files.holding) }
  | .write buf, .ok w =>
    { files with cut := files.cut || (w.val == buf.length && !files.persistent && files.holding) }
  | _, _ => files

/-- Only open files are used and closed, a file is opened only when none is held, and none is held
when the connection turns to the next request. When it ends, none is held exactly if no response was
cut off. -/
def filesContract : Contract Call Res Files where
  must files
    | .openRead _ => files.opened = []
    | .openPut _ _ => files.opened = []
    | .note (.reset _) => files.opened = []
    | .note (.stepped .close _) => files.opened = [] ↔ files.cut = false
    | .fstat fd => fd ∈ files.opened
    | .sendfile fd _ _ => fd ∈ files.opened
    | .pwrite fd _ _ => fd ∈ files.opened
    | .fchmod fd => fd ∈ files.opened
    | .close fd => fd ∈ files.opened
    | _ => True
  may _ _ _ := True
  next := Files.next
  excused _ := True

/-- `forward` is what the connection holds. -/
def Holds (http : Http) (files : Files) : Prop :=
  files.opened = (http.forward.map MogFile.fd).toList

theorem Holds.none {http : Http} (h : Holds http files)
    (hnone : http.forward = none) : files.opened = [] := by
  rw [h, hnone]
  rfl

theorem Holds.some {http : Http} (h : Holds http files)
    (hfile : http.forward = some file) : files.opened = [file.fd] := by
  rw [h, hfile]
  rfl

theorem Holds.opened_eq_nil {http : Http} (h : Holds http files) :
    files.opened = [] ↔ http.forward = Option.none := by
  rw [h]
  cases http.forward <;> simp

/-- The connection between two calls of the code that handles a request. -/
structure Tidy (http : Http) (files : Files) : Prop where
  holds : Holds http files
  cut : files.cut = false
  method : http.forward ≠ none → files.method = http.httpMethod
  persistent : http.forward ≠ none → files.persistent = http.persistent

/-- Nothing is held. -/
structure Released (http : Http) (files : Files) : Prop where
  forward : http.forward = none
  opened : files.opened = []
  cut : files.cut = false

theorem Released.tidy {http : Http} (h : Released http files) : Tidy http files where
  holds := by rw [Holds, h.opened, h.forward]; rfl
  cut := h.cut
  method hforward := absurd h.forward hforward
  persistent hforward := absurd h.forward hforward

/-! ### Writing -/

/-- What writing a response head leaves: a hard error cuts it off if its file is open. -/
def Files.written (files : Files) (wbuf : Wbuf) : Files :=
  { files with cut := wbuf = .error && files.sending }

theorem Files.written_of_ne {wbuf : Wbuf} (hcut : files.cut = false)
    (hwbuf : wbuf ≠ .error) : files.written wbuf = files := by
  rcases files with ⟨opened, method, persistent, cut⟩
  subst hcut
  simp [written, hwbuf]

theorem Files.written_of_not_sending {wbuf : Wbuf} (hcut : files.cut = false)
    (hsending : files.sending = false) : files.written wbuf = files := by
  rcases files with ⟨opened, method, persistent, cut⟩
  subst hcut
  simp [written, hsending]

/-- A write that fails: a hard error is what `written` says, the others leave everything. -/
theorem Files.next_error (request : Call) (answer : Res request)
    (hcut : files.cut = false) (hnext : files.next request answer =
      { files with cut := files.cut || (errno.hard && files.sending) }) :
    files.next request answer = if errno.hard then files.written .error else files := by
  rcases files with ⟨opened, method, persistent, cut⟩
  subst hcut
  rw [hnext]
  cases errno.hard <;> simp [written]

theorem trywritevRetry_files (total : Int) (iov : List Bytes) (files : Files)
    (hcut : files.cut = false) :
    wp filesContract (trywritevRetry fuel total iov) (fun wbuf files' => files' = files.written wbuf)
      files := by
  induction fuel generalizing total iov with
  | zero => trivial
  | succ fuel ih =>
    refine ⟨trivial, fun answer _ => ?_⟩
    rcases answer with errno | w
    · have hnext := Files.next_error (.writev iov) (.error errno) hcut rfl
      change wp filesContract _ _ (files.next (.writev iov) (.error errno))
      rw [hnext]
      cases errno
      case EINTR => exact ih _ _
      case EAGAIN => exact (Files.written_of_ne hcut (by simp [wbufNewv])).symm
      all_goals rfl
    · show wp _ (if _ then _ else _) _ files
      split
      · exact (Files.written_of_ne hcut (by simp)).symm
      · exact ih _ _

theorem trysendLoop_files (more : Bool) (files : Files)
    (hcut : files.cut = false) :
    wp filesContract (trysendLoop fuel buf more) (fun wbuf files' => files' = files.written wbuf)
      files := by
  induction fuel generalizing buf with
  | zero => trivial
  | succ fuel ih =>
    rw [trysendLoop]
    split
    · exact (Files.written_of_ne hcut (by simp)).symm
    · refine ⟨trivial, fun answer _ => ?_⟩
      rcases answer with errno | w
      · have hnext := Files.next_error (.send buf more) (.error errno) hcut rfl
        change wp filesContract _ _ (files.next (.send buf more) (.error errno))
        rw [hnext]
        cases errno
        case EINTR => exact ih _
        case EAGAIN => exact (Files.written_of_ne hcut (by simp)).symm
        all_goals rfl
      · show wp _ (if _ then _ else _) _ files
        split
        · exact (Files.written_of_ne hcut (by simp)).symm
        · exact ih _

theorem mogTrywritev_files (iov : List Bytes) (files : Files)
    (hcut : files.cut = false) :
    wp filesContract (mogTrywritev fuel iov) (fun wbuf files' => files' = files.written wbuf)
      files := by
  unfold mogTrywritev
  split
  · exact (Files.written_of_ne hcut (by simp)).symm
  · exact trywritevRetry_files fuel _ iov files hcut

theorem mogTrysend_files (more : Int) (files : Files)
    (hcut : files.cut = false) :
    wp filesContract (mogTrysend ctx fuel buf more) (fun wbuf files' => files' = files.written wbuf)
      files := by
  unfold mogTrysend
  split
  · exact trysendLoop_files fuel buf _ files hcut
  · exact mogTrywritev_files fuel _ files hcut

/-- A short answer is written when no file is open for a response. -/
theorem mogHttpResp_files (status : Status) (alive : Bool) (files : Files)
    (hcut : files.cut = false) (hsending : files.sending = false) :
    wp filesContract (mogHttpResp fuel http status alive) (fun http' files' =>
      http'.forward = http.forward ∧ http'.httpMethod = http.httpMethod ∧ files' = files) files := by
  refine wp_ask_bind trivial fun date _ => wp_require_bind (fun _ => trivial) fun _ => ?_
  refine wp_ask_bind trivial fun _ _ => wp_bind.mpr ?_
  refine wp_mono (mogTrywritev_files fuel _ files hcut) ?_
  rintro wbuf _ rfl
  exact ⟨rfl, rfl, Files.written_of_not_sending hcut hsending⟩

/-! ### Opening and dropping a file -/

/-- Calls that neither open nor close a file, nor write a response. -/
theorem wp_files_quiet {α : Type} {S : Call → Prop} {program : Io α} {R : α → Prop}
    (hquiet : ∀ request, S request → filesContract.must files request ∧
      ∀ answer, files.next request answer = files) (h : program.Within S R) :
    wp filesContract program (fun value files' => R value ∧ files' = files) files := by
  refine wp_within (J := fun files' => files' = files) ?_ (fun _ _ => trivial) h rfl
  rintro files' request rfl hrequest
  exact ⟨(hquiet request hrequest).1, fun answer _ => (hquiet request hrequest).2 answer⟩

theorem wp_files_silent {α : Type} {program : Io α} {R : α → Prop}
    (h : program.Within (fun _ => False) R) :
    wp filesContract program (fun value files' => R value ∧ files' = files) files :=
  wp_files_quiet (fun _ hfalse => hfalse.elim) h

/-- An `open` in the making: it ends with the descriptor it returns held, and with none otherwise. -/
def Opens {α : Type} (fd : α → Fd) (program : Io (Except Errno α)) : Prop :=
  ∀ files : Files, files.opened = [] → wp filesContract program
    (fun answer files' => files' = { files with opened := (answer.toOption.map fd).toList }) files

theorem Files.opened_nil (h : files.opened = []) :
    { files with opened := [] } = files := by
  rcases files with ⟨opened, method, persistent, cut⟩
  subst h
  rfl

/-- After a failed attempt the connection holds what it held. -/
theorem Opens.error {α : Type} {fd : α → Fd} {files' : Files}
    (hnil : files.opened = [])
    (h : files' = { files with opened := (Except.toOption (.error errno : Except Errno α)).map fd |>.toList }) :
    files' = files :=
  h.trans (Files.opened_nil hnil)

theorem openRead_opens : Opens id (sys (.openRead path)) := by
  intro files hnil
  refine ⟨hnil, fun answer _ => ?_⟩
  cases answer with
  | error errno => exact (Files.opened_nil hnil).symm
  | ok fd =>
    show { files with opened := fd :: files.opened } = _
    rw [hnil]
    rfl

theorem openPut_opens : Opens id (sys (.openPut path flags)) := by
  intro files hnil
  refine ⟨hnil, fun answer _ => ?_⟩
  cases answer with
  | error errno => exact (Files.opened_nil hnil).symm
  | ok fd =>
    show { files with opened := fd :: files.opened } = _
    rw [hnil]
    rfl

/-- An attempt is repeated only when it held nothing. -/
theorem Opens.retry {attempt : Io (Except Errno Fd)} (h : Opens id attempt) :
    Opens id (openExpireRetry attempt) := by
  intro files hnil
  refine wp_bind.mpr (wp_mono (h files hnil) ?_)
  rintro (errno | fd) files' hfiles
  · obtain rfl := Opens.error hnil hfiles
    have hexpire : wp filesContract (mogOpenExpireRetry errno)
        (fun _ files'' => files'' = files') files' := by
      unfold mogOpenExpireRetry
      split <;> first | exact rfl | exact wp_ask_bind trivial fun _ _ => rfl
    refine wp_bind.mpr (wp_mono hexpire ?_)
    rintro ⟨again, errno'⟩ _ rfl
    cases again
    · exact (Files.opened_nil hnil).symm
    · exact h _ hnil
  · exact hfiles

/-- A descriptor turned into a `mog_file` with the same descriptor. -/
theorem Opens.map {α β : Type} {fd : α → Fd} {fd' : β → Fd} {program : Io (Except Errno α)}
    {f : Except Errno α → Io (Except Errno β)} (h : Opens fd program)
    (hok : ∀ value, ∃ value', f (.ok value) = pure (.ok value') ∧ fd' value' = fd value)
    (herror : ∀ errno files, files.opened = [] → wp filesContract (f (.error errno))
      (fun answer files' => files' = { files with opened := (answer.toOption.map fd').toList }) files) :
    Opens fd' (program >>= f) := by
  intro files hnil
  refine wp_bind.mpr (wp_mono (h files hnil) ?_)
  rintro (errno | value) files' hfiles
  · obtain rfl := Opens.error hnil hfiles
    exact herror errno _ hnil
  · obtain ⟨value', hvalue, hfd⟩ := hok value
    rw [hvalue, hfiles]
    simp [Except.toOption, hfd]

theorem opens_error {α : Type} {fd : α → Fd}
    (hnil : files.opened = []) :
    wp filesContract (pure (.error errno) : Io (Except Errno α))
      (fun answer files' => files' = { files with opened := (answer.toOption.map fd).toList }) files :=
  (Files.opened_nil hnil).symm

theorem mogFileOpenRead_opens : Opens MogFile.fd (mogFileOpenRead path) :=
  (openRead_opens path).retry.map (fun _ => ⟨_, rfl, rfl⟩) fun _ _ hnil => opens_error hnil

theorem mkpathOpenPut_opens :
    Opens id (mkpathOpenPut path flags) := by
  have hmkdirs : ∀ dirs files, wp filesContract (mkdirs dirs) (fun _ files' => files' = files) files := by
    intro dirs
    induction dirs with
    | nil => exact fun _ => rfl
    | cons dir dirs ih =>
      intro files
      refine wp_ask_bind trivial fun answer _ => ?_
      split <;> first | exact ih _ | exact rfl
  refine (openPut_opens path flags).map (fun value => ⟨value, rfl, rfl⟩) fun errno files hnil => ?_
  split
  · refine wp_bind.mpr (wp_mono (Q := fun _ files' => files' = files) ?_ ?_)
    · unfold mogMkpathFor
      split
      · exact hmkdirs _ _
      · exact rfl
    · rintro made _ rfl
      split
      · exact openPut_opens path flags _ hnil
      · exact opens_error hnil
  · exact opens_error hnil

theorem mogFileOpenPut_opens :
    Opens MogFile.fd (mogFileOpenPut path flags) :=
  (mkpathOpenPut_opens path flags).retry.map (fun _ => ⟨_, rfl, rfl⟩) fun _ _ hnil => opens_error hnil

theorem openTmp_opens : Opens MogFile.fd (openTmp ctx path) := by
  intro files hnil
  refine wp_ask_bind trivial fun result _ => ?_
  refine Opens.map (mogFileOpenPut_opens _ _) ?_ ?_ files hnil
  · exact fun _ => ⟨_, rfl, rfl⟩
  · intro errno files hnil
    split
    · rename_i hok
      cases hok
    · refine wp_ask_bind trivial fun result' _ => ?_
      refine Opens.map (mogFileOpenPut_opens _ _) ?_ ?_ files hnil
      · exact fun _ => ⟨_, rfl, rfl⟩
      · exact fun _ _ hnil => opens_error hnil
    · exact opens_error hnil

theorem openPut_opensFile :
    Opens MogFile.fd (openPut ctx http path) := by
  have htarget : Opens MogFile.fd (openTarget ctx http path) := by
    unfold openTarget
    split
    · exact mogFileOpenPut_opens _ _
    · exact openTmp_opens _ _
  exact htarget.map (fun _ => ⟨_, rfl, rfl⟩) fun _ _ hnil => opens_error hnil

theorem mogFileClose_files {β : Type} {f : Unit → Io β}
    {Q : β → Files → Prop} (hopened : files.opened = [file.fd])
    (h : wp filesContract (f ()) Q { files with opened := [] }) :
    wp filesContract (mogFileClose file >>= f) Q files := by
  refine wp_ask_bind ?_ fun _ _ => ?_
  · show file.fd ∈ files.opened
    simp [hopened]
  · show wp filesContract (f ()) Q { files with opened := files.opened.erase file.fd }
    simpa [hopened] using h

theorem fileCloseNull_files (files : Files) (hholds : Holds http files) :
    wp filesContract (fileCloseNull http) (fun http' files' =>
      http' = { http with forward := none } ∧ files' = { files with opened := [] }) files := by
  cases hforward : http.forward with
  | none =>
    rw [fileCloseNull_none http hforward, ← hforward]
    exact ⟨rfl, (Files.opened_nil (hholds.none hforward)).symm⟩
  | some file =>
    unfold fileCloseNull
    rw [hforward]
    have hunlink : wp filesContract (unlinkTmp file) (fun _ files' => files' = files) files := by
      unfold unlinkTmp
      split
      · exact rfl
      · exact wp_ask_bind trivial fun _ _ => rfl
    refine wp_bind.mpr (wp_mono hunlink ?_)
    rintro _ _ rfl
    exact mogFileClose_files (hholds.some hforward) ⟨rfl, rfl⟩

theorem Files.sending_of_method (h : files.method ≠ .get) :
    files.sending = false := by
  simp [sending, holding, h]

theorem Files.sending_of_opened (h : files.opened = []) :
    files.sending = false := by
  simp [sending, holding, h]

/-- An upload that is given up releases its file. -/
theorem stop_files (status : Option Status) (files : Files)
    (hholds : Holds http files) (hcut : files.cut = false) (hsending : files.sending = false) :
    wp filesContract (stop fuel http status)
      (fun result files' => result.2 = .close ∧ Released result.1 files') files := by
  have hreply : wp filesContract (stopReply fuel http status)
      (fun http' files' => http'.forward = http.forward ∧ files' = files) files := by
    cases status with
    | none => exact ⟨rfl, rfl⟩
    | some status =>
      exact wp_mono (mogHttpResp_files fuel http status false files hcut hsending)
        fun _ _ h => ⟨h.1, h.2.2⟩
  refine wp_bind.mpr (wp_mono hreply ?_)
  rintro http' _ ⟨hforward, rfl⟩
  refine wp_bind.mpr (wp_mono (fileCloseNull_files http' _ ?_) ?_)
  · rw [Holds, hforward]
    exact hholds
  · rintro _ _ ⟨rfl, rfl⟩
    exact ⟨rfl, rfl, rfl, hcut⟩

/-- A committed upload has released its file before it is answered. -/
theorem putCommitResp_files (files : Files)
    (hholds : Holds http files) (hcut : files.cut = false) :
    wp filesContract (putCommitResp ctx fuel http) Released files := by
  have hfinish : ∀ (forward : Option MogFile) (status : Status) (alive : Bool),
      Holds { http with forward := forward } files →
      wp filesContract (fileCloseNull { http with forward := forward } >>= fun http =>
        mogHttpResp fuel http status alive) Released files := by
    intro forward status alive hholds
    refine wp_bind.mpr (wp_mono (fileCloseNull_files _ files hholds) ?_)
    rintro _ _ ⟨rfl, rfl⟩
    refine wp_mono (mogHttpResp_files fuel _ status alive _ hcut (Files.sending_of_opened rfl)) ?_
    rintro http' _ ⟨hforward, -, rfl⟩
    exact ⟨hforward, rfl, hcut⟩
  refine wp_ask_bind trivial fun _ _ => ?_
  cases hforward : http.forward with
  | none => trivial
  | some file =>
    have hopened := hholds.some hforward
    dsimp only
    split
    · have hperms : wp filesContract (setPermsCommit file)
          (fun result files' => result.2.fd = file.fd ∧ files' = files) files := by
        refine wp_ask_bind ?_ fun answer _ => ?_
        · show file.fd ∈ files.opened
          simp [hopened]
        · split
          · exact ⟨rfl, rfl⟩
          · split
            · exact ⟨rfl, rfl⟩
            · split
              · trivial
              · refine wp_ask_bind trivial fun answer _ => ?_
                split <;> exact ⟨rfl, rfl⟩
      refine wp_bind.mpr (wp_mono hperms ?_)
      rintro ⟨ok, file'⟩ files' ⟨hfd, rfl⟩
      have hholds' : Holds { http with forward := some file' } files' := by
        rw [Holds, hopened, ← hfd]
        rfl
      cases ok
      · exact hfinish (some file') .internalServerError false hholds'
      · exact hfinish (some file') .created true hholds'
    · exact hfinish http.forward .badRequest true hholds

/-! ### The end of a step -/

/-- A step that closes the connection has lost a file exactly if a response was cut off; any other
step leaves the connection as the next one expects it. -/
def Files.StepEnd (result : Http × Next) (files : Files) : Prop :=
  if result.2 = .close then files.opened = [] ↔ files.cut = false else Tidy result.1 files

theorem Files.stepEnd_close {http : Http} :
    StepEnd (http, .close) files ↔ (files.opened = [] ↔ files.cut = false) := by
  simp [StepEnd]

theorem Files.stepEnd_tidy {http : Http} {next : Next} (hnext : next ≠ .close) :
    StepEnd (http, next) files ↔ Tidy http files := by
  simp [StepEnd, hnext]

theorem Released.stepEnd {http : Http} {next : Next} (h : Released http files) :
    Files.StepEnd (http, next) files := by
  by_cases hnext : next = .close
  · subst hnext
    exact Files.stepEnd_close.mpr (iff_of_true h.opened h.cut)
  · exact (Files.stepEnd_tidy hnext).mpr h.tidy

theorem mogHttpReset_files {http : Http} (next : Next) (hopened : files.opened = [])
    (hcut : files.cut = false) :
    wp filesContract (mogHttpReset http >>= fun http => pure (http, next)) Files.StepEnd files :=
  wp_ask_bind hopened fun _ _ => Released.stepEnd ⟨rfl, hopened, hcut⟩

/-! ### The body of a GET -/

theorem getDone_files (file : MogFile) (files : Files)
    (hopened : files.opened = [file.fd]) (hcut : files.cut = false) :
    wp filesContract (getDone http file) Files.StepEnd files := by
  refine mogFileClose_files hopened ?_
  split
  · exact mogHttpReset_files .active rfl hcut
  · exact Files.stepEnd_close.mpr (iff_of_true rfl hcut)

theorem sendfileRetry_files (file : MogFile) (count : Nat) (files : Files)
    (hfile : http.forward = some file) (htidy : Tidy http files) :
    wp filesContract (sendfileRetry fuel http file count) Files.StepEnd files := by
  have hopened := htidy.holds.some hfile
  have hforward : http.forward ≠ none := by simp [hfile]
  induction fuel with
  | zero => trivial
  | succ fuel ih =>
    refine wp_ask_bind ?_ fun answer _ => ?_
    · show file.fd ∈ files.opened
      simp [hopened]
    split
    · split
      · dsimp only
        split
        · exact getDone_files _ _ files hopened htidy.cut
        · refine (Files.stepEnd_tidy (by simp)).mpr ⟨?_, htidy.cut, ?_, ?_⟩
          · exact hopened
          · exact fun _ => htidy.method hforward
          · exact fun _ => htidy.persistent hforward
      · exact getDone_files _ _ files hopened htidy.cut
    · exact (Files.stepEnd_tidy (by simp)).mpr htidy
    · exact ih
    · exact getDone_files _ _ files hopened htidy.cut

theorem mogHttpGetInProgress_files (files : Files)
    (htidy : Tidy http files) :
    wp filesContract (mogHttpGetInProgress fuel http) Files.StepEnd files := by
  refine wp_require_bind (fun _ => trivial) fun _ => ?_
  cases hforward : http.forward with
  | none => trivial
  | some file =>
    refine wp_require_bind (fun _ => trivial) fun _ => ?_
    dsimp only
    split
    · exact getDone_files http file files (htidy.holds.some hforward) htidy.cut
    · exact sendfileRetry_files fuel http file _ files hforward htidy

/-! ### Uploads -/

/-- An upload that is neither answered nor given up. -/
structure Uploading (http : Http) (files : Files) : Prop where
  holds : Holds http files
  cut : files.cut = false
  method : files.method = http.httpMethod
  persistent : files.persistent = http.persistent
  put : http.httpMethod = .put
  wbuf : http.wbuf = .null

theorem Uploading.sending {http : Http} (h : Uploading http files) :
    files.sending = false := by
  refine Files.sending_of_method ?_
  rw [h.method, h.put]
  simp

theorem SameClient.holds {http http' : Http} (h : SameClient http http')
    (hholds : Holds http files) : Holds http' files := by
  have hrel := h.forward
  rw [Holds] at hholds ⊢
  rw [hholds]
  cases hforward : http.forward with
  | none =>
    rw [hforward] at hrel
    cases hforward' : http'.forward with
    | none => rfl
    | some file' => rw [hforward'] at hrel; cases hrel
  | some file =>
    rw [hforward] at hrel
    cases hforward' : http'.forward with
    | none => rw [hforward'] at hrel; cases hrel
    | some file' =>
      rw [hforward'] at hrel
      cases hrel with
      | some hsame => simp [hsame.fd]

theorem Uploading.same {http http' : Http} (h : Uploading http files)
    (hsame : SameClient http http') : Uploading http' files where
  holds := hsame.holds h.holds
  cut := h.cut
  method := h.method.trans hsame.request.httpMethod.symm
  persistent := h.persistent.trans hsame.request.persistent.symm
  put := hsame.request.httpMethod.trans h.put
  wbuf := hsame.wbuf.trans h.wbuf

theorem Released.same {http http' : Http} (h : Released http files)
    (hsame : SameClient http http') : Released http' files where
  forward := by
    have hopened := (hsame.holds h.tidy.holds).opened_eq_nil
    exact hopened.mp h.opened
  opened := h.opened
  cut := h.cut

theorem Uploading.tidy {http : Http} (h : Uploading http files) :
    Tidy http files where
  holds := h.holds
  cut := h.cut
  method _ := h.method
  persistent _ := h.persistent

theorem BodyCall.ofFiles {fd : Fd} (hopened : files.opened = [fd]) (request : Call)
    (h : BodyCall fd request) :
    filesContract.must files request ∧ ∀ answer, files.next request answer = files := by
  cases request with
  | note event => cases event <;> first | exact h.elim | exact ⟨trivial, fun _ => rfl⟩
  | pwrite target buf foff =>
    refine ⟨?_, fun _ => rfl⟩
    show target ∈ files.opened
    rw [hopened, show target = fd from h]
    exact List.mem_singleton_self fd
  | _ => first | exact h.elim | exact ⟨trivial, fun _ => rfl⟩

theorem httpPutCommit_files (files : Files)
    (h : Uploading http files) :
    wp filesContract (httpPutCommit ctx fuel http) Files.StepEnd files := by
  refine wp_bind.mpr (wp_mono (putCommitResp_files ctx fuel http files h.holds h.cut) ?_)
  intro http' files' hreleased
  split
  · exact hreleased.stepEnd
  · exact hreleased.stepEnd
  · split
    · exact mogHttpReset_files .active hreleased.opened hreleased.cut
    · exact hreleased.stepEnd

theorem putFinish_files (exit : PutExit) (files : Files)
    (h : Uploading exit.http files) :
    wp filesContract (putFinish ctx fuel exit) Files.StepEnd files := by
  have hstop : ∀ http status, Uploading http files →
      wp filesContract (stop fuel http status) Files.StepEnd files := fun http status h =>
    wp_mono (stop_files fuel http status files h.holds h.cut h.sending) fun _ _ hend => hend.2.stepEnd
  cases exit with
  | waitRd http => exact (Files.stepEnd_tidy (by simp)).mpr h.tidy
  | stop http => exact hstop http none h
  | writeErr http errno defaultMsg => exact hstop http _ h
  | commit http => exact httpPutCommit_files ctx fuel http files h

theorem httpForwardInProgress_files (files : Files)
    (htidy : Tidy http files) (hnull : http.wbuf = .null) (hforward : http.forward ≠ none) :
    wp filesContract (httpForwardInProgress ctx fuel http) Files.StepEnd files := by
  refine wp_ask_bind trivial fun _ _ => ?_
  split
  · exact mogHttpGetInProgress_files fuel http files htidy
  · refine wp_require_bind (fun _ => trivial) fun hput => ?_
    obtain ⟨file, hfile⟩ := Option.ne_none_iff_exists'.mp hforward
    have huploading : Uploading http files :=
      ⟨htidy.holds, htidy.cut, htidy.method hforward, htidy.persistent hforward,
        of_decide_eq_true hput, hnull⟩
    refine wp_bind.mpr (wp_mono (wp_files_quiet (BodyCall.ofFiles (htidy.holds.some hfile))
      (putInProgress_within fuel http hfile)) ?_)
    rintro exit _ ⟨hsame, rfl⟩
    exact putFinish_files ctx fuel exit _ (huploading.same hsame)

/-! ### Handling a request -/

/-- A request that was handled: a response is cut off exactly if a write error met it with its file
open. -/
structure FilesHandled (http : Http) (files : Files) : Prop where
  holds : Holds http files
  cut : files.cut = true ↔ http.forward ≠ none ∧ http.wbuf = .error
  method : http.forward ≠ none → files.method = http.httpMethod
  persistent : http.forward ≠ none → files.persistent = http.persistent

theorem Released.handled {http : Http} (h : Released http files) :
    FilesHandled http files where
  holds := h.tidy.holds
  cut := by simp [h.cut, h.forward]
  method := h.tidy.method
  persistent := h.tidy.persistent

theorem Uploading.handled {http : Http} (h : Uploading http files) :
    FilesHandled http files where
  holds := h.holds
  cut := by simp [h.cut, h.wbuf]
  method := h.tidy.method
  persistent := h.tidy.persistent

/-- A request is handed over with nothing held. -/
structure Fresh (http : Http) (files : Files) : Prop extends Released http files where
  method : files.method = http.httpMethod
  persistent : files.persistent = http.persistent
  wbuf : http.wbuf = .null

theorem mogHttpResp_handled {http : Http} (status : Status)
    (alive : Bool) (h : Released http files) :
    wp filesContract (mogHttpResp fuel http status alive) FilesHandled files := by
  refine wp_mono (mogHttpResp_files fuel http status alive files h.cut
    (Files.sending_of_opened h.opened)) ?_
  rintro http' _ ⟨hforward, -, rfl⟩
  exact Released.handled ⟨hforward.trans h.forward, h.opened, h.cut⟩

theorem wp_mogHttpPath {http : Http} {buf : Bytes} {β : Type}
    {f : Except (Option Errno) Bytes → Io β} {Q : β → Files → Prop}
    (h : ∀ path, wp filesContract (f path) Q files) :
    wp filesContract (mogHttpPath http buf >>= f) Q files := by
  refine wp_bind.mpr (wp_mono (wp_files_silent (mogHttpPath_within http buf)) ?_)
  rintro path _ ⟨-, rfl⟩
  exact h path

theorem mogHttpDelete_files {http : Http}
    (h : Released http files) :
    wp filesContract (mogHttpDelete ctx fuel http buf) FilesHandled files := by
  unfold mogHttpDelete
  split
  · exact mogHttpResp_handled fuel _ _ h
  · refine wp_mogHttpPath fun path => ?_
    split
    · exact mogHttpResp_handled fuel _ _ h
    · refine wp_require_bind (fun _ => trivial) fun _ => ?_
      split
      · exact mogHttpResp_handled fuel _ _ h
      · refine wp_ask_bind trivial fun answer _ => ?_
        split <;> exact mogHttpResp_handled fuel _ _ h

theorem mogHttpMkcol_files {http : Http}
    (h : Released http files) :
    wp filesContract (mogHttpMkcol ctx fuel http buf) FilesHandled files := by
  unfold mogHttpMkcol
  split
  · exact mogHttpResp_handled fuel _ _ h
  · refine wp_mogHttpPath fun path => ?_
    split <;> exact mogHttpResp_handled fuel _ _ h

/-- A GET or HEAD before its head is written; only a GET has a file open. -/
structure Serving (http : Http) (files : Files) : Prop where
  holds : Holds http files
  cut : files.cut = false
  method : files.method = http.httpMethod
  persistent : files.persistent = http.persistent
  get : http.forward ≠ none → http.httpMethod = .get

theorem Fresh.serving {http : Http} (h : Fresh http files) : Serving http files where
  holds := h.tidy.holds
  cut := h.cut
  method := h.method
  persistent := h.persistent
  get hforward := absurd h.forward hforward

theorem Serving.sending {http : Http} (h : Serving http files) :
    files.sending = true ↔ http.forward ≠ none := by
  constructor
  · intro hsending hnone
    rw [Files.sending_of_opened (h.holds.none hnone)] at hsending
    cases hsending
  · intro hforward
    have hopened : files.opened ≠ [] := fun hnil => hforward (h.holds.opened_eq_nil.mp hnil)
    simp [Files.sending, Files.holding, h.method, h.get hforward, hopened]

theorem Serving.handled {http : Http} (h : Serving http files) (wbuf : Wbuf) :
    FilesHandled { http with wbuf := wbuf } (files.written wbuf) where
  holds := h.holds
  cut := by
    show (decide (wbuf = .error) && files.sending) = true ↔ http.forward ≠ none ∧ wbuf = .error
    rw [Bool.and_eq_true, decide_eq_true_iff, h.sending, and_comm]
  method _ := h.method
  persistent _ := h.persistent

theorem applyRange_files {http : Http} (reply : RangeReply)
    (h : Serving http files) : wp filesContract (applyRange http reply) Serving files := by
  cases reply with
  | ok => exact h
  | partialContent offset count rangeEnd =>
    refine ⟨?_, h.cut, h.method, h.persistent, fun hforward => h.get ?_⟩
    · rw [Holds, h.holds]
      cases http.forward <;> rfl
    · cases hnone : http.forward with
      | none => simp [hnone] at hforward
      | some file => simp
  | bad =>
    unfold applyRange
    cases hforward : http.forward with
    | none => exact wp_require_bind (fun _ => trivial) fun _ => h
    | some file =>
      refine mogFileClose_files (h.holds.some hforward) ?_
      exact ⟨rfl, h.cut, h.method, h.persistent, fun hne => absurd rfl hne⟩

theorem httpGetRespHdr_files {http : Http} (size mtime : Int)
    (h : Serving http files) :
    wp filesContract (httpGetRespHdr ctx fuel http size mtime) FilesHandled files := by
  refine wp_ask_bind trivial fun now _ => ?_
  split
  · trivial
  · refine wp_bind.mpr (wp_mono (applyRange_files _ h) fun http' files' h' => ?_)
    refine wp_require_bind (fun _ => trivial) fun _ => wp_require_bind (fun _ => trivial) fun _ => ?_
    refine wp_ask_bind trivial fun _ _ => wp_bind.mpr ?_
    refine wp_mono (mogTrysend_files ctx fuel _ _ files' h'.cut) ?_
    rintro wbuf _ rfl
    exact h'.handled wbuf

theorem getErr_files {http : Http} (errno : Errno)
    (h : Released http files) : wp filesContract (getErr fuel http errno) FilesHandled files := by
  unfold getErr
  split <;> exact mogHttpResp_handled fuel _ _ h

theorem headStat_files {http : Http}
    (h : Fresh http files) : wp filesContract (headStat ctx fuel http path) FilesHandled files := by
  refine wp_ask_bind trivial fun answer _ => ?_
  split
  · exact getErr_files fuel _ h.toReleased
  · split
    · exact httpGetRespHdr_files ctx fuel _ _ h.serving
    · exact mogHttpResp_handled fuel _ _ h.toReleased

theorem getFile_files {http : Http}
    (h : Fresh http files) (hget : http.httpMethod = .get) :
    wp filesContract (getFile ctx fuel http path) FilesHandled files := by
  refine wp_bind.mpr (wp_mono (mogFileOpenRead_opens path files h.opened) ?_)
  rintro (errno | file) files' hfiles
  · obtain rfl := Opens.error h.opened hfiles
    exact getErr_files fuel errno h.toReleased
  · have hopened : files'.opened = [file.fd] := by rw [hfiles]; rfl
    have hclosed : Released http { files' with opened := [] } :=
      ⟨h.forward, rfl, by rw [hfiles]; exact h.cut⟩
    refine wp_ask_bind ?_ fun answer _ => ?_
    · show file.fd ∈ files'.opened
      simp [hopened]
    · split
      · exact mogFileClose_files hopened (getErr_files fuel _ hclosed)
      · split
        · refine httpGetRespHdr_files ctx fuel _ _ ⟨hopened, ?_, ?_, ?_, fun _ => hget⟩
          · exact hclosed.cut
          · rw [hfiles]
            exact h.method
          · rw [hfiles]
            exact h.persistent
        · exact mogFileClose_files hopened (mogHttpResp_handled fuel _ _ hclosed)

theorem mogHttpGetOpen_files {http : Http}
    (h : Fresh http files) (hmethod : http.httpMethod = .get ∨ http.httpMethod = .head) :
    wp filesContract (mogHttpGetOpen ctx fuel http buf) FilesHandled files := by
  refine wp_mogHttpPath fun path => ?_
  split
  · exact mogHttpResp_handled fuel _ _ h.toReleased
  · refine wp_require_bind (fun _ => trivial) fun _ => wp_require_bind (fun _ => trivial) fun _ => ?_
    split
    · exact httpGetRespHdr_files ctx fuel _ _ h.serving
    · split
      · exact headStat_files ctx fuel _ h
      · rename_i hhead
        exact getFile_files ctx fuel _ h (hmethod.resolve_right hhead)

/-! ### Starting an upload -/

theorem stop_handled {http : Http} (status : Option Status)
    (hholds : Holds http files) (hcut : files.cut = false) (hsending : files.sending = false) :
    wp filesContract (stop fuel http status >>= fun result => pure result.1) FilesHandled files :=
  wp_bind.mpr (wp_mono (stop_files fuel http status files hholds hcut hsending)
    fun _ _ hend => hend.2.handled)

theorem putErr_files {http : Http} (errno : Option Errno)
    (h : Released http files) : wp filesContract (putErr fuel http errno) FilesHandled files := by
  unfold putErr
  split
  · exact mogHttpResp_handled fuel _ _ h
  · exact mogHttpResp_handled fuel _ _ h
  · exact mogHttpResp_handled fuel _ _ h
  · exact stop_handled fuel _ h.tidy.holds h.cut (Files.sending_of_opened h.opened)

theorem chunkedBodyAfterHeader_files {http : Http} (h : Uploading http files) (hfile : http.forward = some file) :
    wp filesContract (chunkedBodyAfterHeader ctx fuel http buf) FilesHandled files := by
  refine wp_bind.mpr (wp_mono (wp_files_silent (mogChunkInit_within http)) ?_)
  rintro init _ ⟨hinit, rfl⟩
  have hstart : SameClient http { init with offset := http.offset } :=
    hinit.trans (SameClient.of_fields (SameRequest.refl _) rfl rfl rfl)
  refine wp_bind.mpr (wp_mono (wp_files_quiet
    (fun request hrequest => BodyCall.ofFiles (h.holds.some hfile) request hrequest.body)
    (mogChunkParse_within _ _ _ (hstart.uploads ⟨file, hfile, SameUpload.refl file⟩))) ?_)
  rintro parsed _ ⟨hparsed, rfl⟩
  have hup := (h.same hstart).same hparsed
  dsimp only
  split
  · exact stop_handled fuel _ hup.holds hup.cut hup.sending
  · refine wp_require_bind (fun _ => trivial) fun _ => ?_
    split
    · exact wp_require_bind (fun _ => trivial) fun _ => hup.handled
    · exact wp_require_bind (fun _ => trivial) fun _ => hup.handled
    · refine wp_require_bind (fun _ => trivial) fun _ => wp_bind.mpr ?_
      refine wp_mono (wp_files_silent (stashAdvanceRbuf_within _ _)) ?_
      rintro http' _ ⟨hsame, rfl⟩
      have hup' := hup.same hsame
      exact Uploading.handled ⟨hup'.holds, hup'.cut, hup'.method, hup'.persistent, hup'.put, hup'.wbuf⟩
    · refine wp_bind.mpr (wp_mono (putCommitResp_files ctx fuel _ _ hup.holds hup.cut) ?_)
      intro http' files' hreleased
      refine wp_require_bind (fun _ => trivial) fun _ => wp_bind.mpr ?_
      refine wp_mono (wp_files_silent (stashAdvanceRbuf_within _ _)) ?_
      rintro http'' _ ⟨hsame, rfl⟩
      have hreleased' := hreleased.same hsame
      exact Released.handled ⟨hreleased'.forward, hreleased'.opened, hreleased'.cut⟩

theorem identityBodyAfterHeader_files {http : Http} (h : Uploading http files) (hfile : http.forward = some file) :
    wp filesContract (identityBodyAfterHeader fuel http buf) FilesHandled files := by
  unfold identityBodyAfterHeader
  dsimp only
  split
  · exact h.handled
  · rw [hfile]
    refine wp_bind.mpr (wp_mono (wp_files_quiet
      (fun request hrequest => BodyCall.ofFiles (h.holds.some hfile) request hrequest.body)
      (mogHttpWriteFull_within fuel file _ none)) ?_)
    rintro ⟨ok, errno, file'⟩ files' ⟨hsame, rfl⟩
    have hholds : files'.opened = [file'.fd] := by
      rw [hsame.fd]
      exact h.holds.some hfile
    dsimp only
    split
    · exact Uploading.handled ⟨hholds, h.cut, h.method, h.persistent, h.put, h.wbuf⟩
    · exact stop_handled fuel _ hholds h.cut h.sending

theorem putBody_files {http : Http} (h : Uploading http files) (hfile : http.forward = some file) :
    wp filesContract (putBody ctx fuel http buf) FilesHandled files := by
  unfold putBody
  split
  · split
    · have hnone : SameClient http { http with rbuf := none } :=
        SameClient.of_fields (SameRequest.refl _) rfl rfl rfl
      refine wp_bind.mpr (wp_mono (wp_files_silent (mogChunkInit_within _)) ?_)
      rintro http' _ ⟨hsame, rfl⟩
      have hinit := h.same (hnone.trans hsame)
      exact Uploading.handled ⟨hinit.holds, hinit.cut, hinit.method, hinit.persistent, hinit.put, hinit.wbuf⟩
    · exact h.handled
  · refine wp_require_bind (fun _ => trivial) fun _ => ?_
    split
    · exact chunkedBodyAfterHeader_files ctx fuel buf h hfile
    · exact identityBodyAfterHeader_files fuel buf h hfile

theorem mogHttpPut_files {http : Http}
    (h : Fresh http files) (hput : http.httpMethod = .put) :
    wp filesContract (mogHttpPut ctx fuel http buf) FilesHandled files := by
  unfold mogHttpPut
  split
  · exact mogHttpResp_handled fuel _ _ h.toReleased
  · refine wp_mogHttpPath fun path => ?_
    split
    · exact putErr_files fuel _ h.toReleased
    · refine wp_require_bind (fun _ => trivial) fun _ => wp_require_bind (fun _ => trivial) fun _ => ?_
      split
      · refine wp_bind.mpr (wp_mono (openPut_opensFile ctx http _ files h.opened) ?_)
        rintro (errno | file) files' hfiles
        · obtain rfl := Opens.error h.opened hfiles
          exact putErr_files fuel _ h.toReleased
        · have hup : Uploading { http with forward := some file } files' := by
            subst hfiles
            exact ⟨rfl, h.cut, h.method, h.persistent, hput, h.wbuf⟩
          exact putBody_files ctx fuel buf hup rfl
      · exact stop_handled fuel _ h.tidy.holds h.cut (Files.sending_of_opened h.opened)

/-! ### Steps and runs -/

theorem processMethod_files {http : Http}
    (h : Fresh http files) :
    wp filesContract (processMethod ctx fuel http buf) FilesHandled files := by
  unfold processMethod
  split
  · trivial
  · exact mogHttpGetOpen_files ctx fuel buf h (Or.inl ‹_›)
  · exact mogHttpGetOpen_files ctx fuel buf h (Or.inr ‹_›)
  · exact mogHttpDelete_files ctx fuel buf h.toReleased
  · exact mogHttpMkcol_files ctx fuel buf h.toReleased
  · exact mogHttpPut_files ctx fuel buf h ‹_›

theorem FilesHandled.deferred {http http' : Http} (h : FilesHandled http files)
    (herror : http.wbuf ≠ .error) (hfields : http'.toFields = http.toFields)
    (hforward : http'.forward = http.forward) : Tidy http' files where
  holds := by rw [Holds, hforward]; exact h.holds
  cut := by simpa [herror] using h.cut
  method hne := by rw [hfields]; exact h.method (hforward ▸ hne)
  persistent hne := by rw [hfields]; exact h.persistent (hforward ▸ hne)

theorem queueDone_files {http : Http}
    (h : Released http files) (hnull : http.wbuf = .null) :
    wp filesContract (queueDone ctx fuel http buf) Files.StepEnd files := by
  refine wp_bind.mpr (wp_ask_bind trivial fun _ _ => ?_)
  have hfresh : Fresh http
      { files with method := http.httpMethod, persistent := http.persistent } :=
    { forward := h.forward, opened := h.opened, cut := h.cut, method := rfl, persistent := rfl
      wbuf := hnull }
  refine wp_mono (processMethod_files ctx fuel buf hfresh) fun http' files' hhandled => ?_
  split
  · rename_i herror
    refine Files.stepEnd_close.mpr ?_
    rw [hhandled.holds.opened_eq_nil, ← Bool.not_eq_true, hhandled.cut]
    simp [herror]
  · rename_i hpending
    refine wp_bind.mpr (wp_httpDeferRbuf trivial fun http'' hfields _ hforward => ?_)
    exact (Files.stepEnd_tidy (by simp)).mpr (hhandled.deferred (by simp [hpending]) hfields hforward)
  · rename_i hnull'
    have herror : http'.wbuf ≠ .error := by simp [hnull']
    have htidy : Tidy http' files' := hhandled.deferred herror rfl rfl
    split
    · rename_i hforward
      refine wp_bind.mpr (wp_httpDeferRbuf trivial fun http'' hfields hwbuf hforward' => ?_)
      refine httpForwardInProgress_files ctx fuel http'' files' ?_ (hwbuf.trans hnull') ?_
      · exact hhandled.deferred herror hfields hforward'
      · rw [hforward']
        exact hforward
    · rename_i hnone
      have hopened := htidy.holds.none (not_not.mp hnone)
      split
      · refine wp_bind.mpr (wp_httpDeferRbuf trivial fun http'' _ _ _ => ?_)
        exact mogHttpReset_files .active hopened htidy.cut
      · exact Files.stepEnd_close.mpr (iff_of_true hopened htidy.cut)

/-- What a flush leaves: an error cuts the response off if its file is open, and so does the end of
the flush for a client that does not stay. -/
theorem mogTryflush_files (off : Nat) (files : Files)
    (hcut : files.cut = false) :
    wp filesContract (mogTryflush fuel buf off) (fun result files' => files' = { files with
      cut := match result.1 with
        | .err => files.holding
        | .done => !files.persistent && files.holding
        | .busy => false }) files := by
  rcases files with ⟨opened, method, persistent, cut⟩
  subst hcut
  induction fuel generalizing off with
  | zero => trivial
  | succ fuel ih =>
    refine ⟨trivial, fun answer _ => ?_⟩
    rcases answer with errno | w
    · cases errno
      case EINTR => exact ih _
      case EAGAIN => rfl
      all_goals rfl
    · show wp _ (if _ then _ else _) _ (Files.next _ (.write (buf.drop off)) (.ok w))
      split
      · simp [*, Files.next, Files.holding]
      · rename_i hshort
        have hnext : Files.next ⟨opened, method, persistent, false⟩ (.write (buf.drop off)) (.ok w) =
            ⟨opened, method, persistent, false⟩ := by
          simp only [Files.next, beq_false_of_ne hshort, Bool.false_and, Bool.or_false]
        rw [hnext]
        exact ih _

theorem flushDone_files {http : Http} (hholds : Holds http files)
    (hcut : files.cut = (!files.persistent && files.holding))
    (hmethod : http.forward ≠ none → files.method = http.httpMethod)
    (hpersistent : http.forward ≠ none → files.persistent = http.persistent) :
    wp filesContract (flushDone http) Files.StepEnd files := by
  unfold flushDone
  split
  · rename_i hkeep
    split
    · rename_i hnone
      have hopened := hholds.none hnone
      exact mogHttpReset_files .active hopened (by simp [hcut, Files.holding, hopened])
    · rename_i hforward
      refine wp_require_bind (fun _ => trivial) fun _ => (Files.stepEnd_tidy (by simp)).mpr ?_
      exact ⟨hholds, by simp [hcut, hpersistent hforward, hkeep], hmethod, hpersistent⟩
  · rename_i hleave
    refine Files.stepEnd_close.mpr ?_
    rw [hcut]
    by_cases hnone : http.forward = none
    · have hopened := hholds.none hnone
      simp [Files.holding, hopened]
    · simp [hpersistent hnone, hleave, Files.holding]

theorem httpWbufInProgress_files (files : Files) (htidy : Tidy http files) :
    wp filesContract (httpWbufInProgress fuel http) Files.StepEnd files := by
  refine wp_ask_bind trivial fun _ _ => ?_
  split
  · trivial
  · trivial
  · refine wp_bind.mpr (wp_mono (mogTryflush_files fuel _ _ files htidy.cut) ?_)
    rintro ⟨state, wbuf⟩ _ rfl
    cases state with
    | err => exact Files.stepEnd_close.mpr (by simp [Files.holding])
    | busy =>
      refine (Files.stepEnd_tidy (by simp)).mpr ⟨htidy.holds, rfl, htidy.method, htidy.persistent⟩
    | done => exact flushDone_files htidy.holds rfl htidy.method htidy.persistent

theorem queueFinish_files (input : Input) (files : Files)
    (h : Released input.http files) (hnull : input.http.wbuf = .null) :
    wp filesContract (queueFinish ctx fuel input) Files.StepEnd files := by
  have herr : ∀ http status, Released http files →
      wp filesContract (queueErr fuel http status) Files.StepEnd files := by
    intro http status h
    refine wp_bind.mpr (wp_mono (mogHttpResp_files fuel http status false files h.cut
      (Files.sending_of_opened h.opened)) ?_)
    rintro http' _ ⟨-, -, rfl⟩
    exact Files.stepEnd_close.mpr (iff_of_true h.opened h.cut)
  cases input with
  | bad http errno => exact herr http _ h
  | tooLong http => exact herr http _ h
  | request http buf => exact queueDone_files ctx fuel buf h hnull
  | blocked http => exact h.stepEnd
  | gone http => exact h.stepEnd

theorem InputCall.ofFiles (request : Call) (h : InputCall request) :
    filesContract.must files request ∧ ∀ answer, files.next request answer = files := by
  cases request with
  | note event => cases event <;> first | exact h.elim | exact ⟨trivial, fun _ => rfl⟩
  | _ => first | exact h.elim | exact ⟨trivial, fun _ => rfl⟩

theorem httpQueueStep_files (files : Files)
    (htidy : Tidy http files) :
    wp filesContract (httpQueueStep ctx fuel http) Files.StepEnd files := by
  refine wp_httpQueueStep ?_ ?_ ?_
  · exact fun _ => httpWbufInProgress_files fuel http files htidy
  · exact httpForwardInProgress_files ctx fuel http files htidy
  · intro hnull hnone
    refine wp_mono (wp_files_quiet InputCall.ofFiles (queueInput_within fuel http)) ?_
    rintro input _ ⟨hsame, rfl⟩
    exact queueFinish_files ctx fuel input _
      ⟨hsame.forward.trans hnone, htidy.holds.none hnone, htidy.cut⟩ (hsame.wbuf.trans hnull)

theorem mogHttpQueueStep_files (files : Files)
    (htidy : Tidy http files) :
    wp filesContract (mogHttpQueueStep ctx fuel http)
      (fun result files' => result.2 ≠ .close → Tidy result.1 files') files := by
  refine wp_bind.mpr (wp_mono (httpQueueStep_files ctx fuel http files htidy) ?_)
  rintro ⟨http', next⟩ files' hend
  by_cases hclose : next = .close
  · subst hclose
    refine wp_ask_bind (Files.stepEnd_close.mp hend) fun _ _ => ?_
    refine wp_bind.mpr (wp_require_bind (fun _ => trivial) fun _ => ?_)
    exact ⟨trivial, fun _ _ hopen => absurd rfl hopen⟩
  · refine wp_ask_bind ?_ fun _ _ => ?_
    · cases next <;> trivial
    · rw [if_neg hclose]
      exact fun _ => (Files.stepEnd_tidy hclose).mp hend

/-- What a connection holds after a run. -/
def filesAfter (trace : Run) : Files := filesContract.after ⟨[], .none, false, false⟩ trace

theorem serve_files :
    wp filesContract (serve ctx fuel mogHttpInit) (fun _ _ => True) ⟨[], .none, false, false⟩ :=
  wp_serve (mogHttpQueueStep_files ctx) (Released.tidy ⟨rfl, rfl, rfl⟩)

/-- The descriptor a call works on. -/
def Call.fd : Call → Option Fd
  | .fstat fd => some fd
  | .sendfile fd _ _ => some fd
  | .pwrite fd _ _ => some fd
  | .fchmod fd => some fd
  | .close fd => some fd
  | _ => none

/-- **A file is released exactly once unless its response is cut off.** In every run a descriptor is
only used or closed while it is open, so it is closed at most once; a file is opened only when none
is held; none is held when the connection turns to the next request; and when it closes, none is left
open if and only if no response was cut off between its head and its body. -/
theorem files_released_iff (ctx : Ctx) (fuel : Nat) (trace before after : Run) (q : Io Unit)
    (request : Call) (answer : Res request)
    (hrun : Runs (serve ctx fuel mogHttpInit) trace q)
    (htrace : trace = before ++ ⟨request, answer⟩ :: after) :
    (∀ fd, request.fd = some fd → fd ∈ (filesAfter before).opened) ∧
    (∀ path, request = .openRead path → (filesAfter before).opened = []) ∧
    (∀ path flags, request = .openPut path flags → (filesAfter before).opened = []) ∧
    (∀ http, request = .note (.reset http) → (filesAfter before).opened = []) ∧
    (∀ http, request = .note (.stepped .close http) →
      ((filesAfter before).opened = [] ↔ (filesAfter before).cut = false)) := by
  have hmust : filesContract.must (filesAfter before) request :=
    must_of_runs (serve_files ctx fuel) hrun (allows_of_may fun _ _ _ => trivial) htrace
  refine ⟨fun fd hfd => ?_, ?_, ?_, ?_, ?_⟩
  · cases request <;> simp only [Call.fd, Option.some.injEq, reduceCtorEq] at hfd <;>
      exact hfd ▸ hmust
  · rintro path rfl
    exact hmust
  · rintro path flags rfl
    exact hmust
  · rintro http rfl
    exact hmust
  · rintro http rfl
    exact hmust

/-- The head is flushed, the connection closed, and the file stays open. -/
theorem files_lost_blockedGet :
    ∃ (trace before after : Run) (q : Io Unit) (http : Http),
      Runs (serve plainCtx 20 mogHttpInit) trace q ∧
      trace = before ++ ⟨.note (.stepped .close http), ()⟩ :: after ∧
      (filesAfter before).opened ≠ [] := by
  have hclose : ∃ split, splitAtClose (scripted 20 blockedGet).1 = some split ∧
      (filesAfter split.1).opened ≠ [] := by
    decide +kernel
  obtain ⟨⟨before, http, after⟩, hsplit, hopened⟩ := hclose
  exact ⟨_, before, after, _, http, runs_scripted 20 blockedGet, splitAtClose_eq hsplit, hopened⟩

theorem files_released_iff_servedGet :
    ∃ (trace before after : Run) (http : Http),
      trace = before ++ ⟨.note (.stepped .close http), ()⟩ :: after ∧
      ((filesAfter before).opened = [] ↔ (filesAfter before).cut = false) ∧
      (filesAfter before).opened = [] := by
  have hclose : ∃ split, splitAtClose (scripted 20 servedGet).1 = some split ∧
      (filesAfter split.1).opened = [] := by
    decide +kernel
  obtain ⟨⟨before, http, after⟩, hsplit, hopened⟩ := hclose
  have htrace := splitAtClose_eq hsplit
  exact ⟨_, before, after, http, htrace,
    (files_released_iff plainCtx 20 _ before after _ _ _ (runs_scripted 20 servedGet) htrace).2.2.2.2
      http rfl, hopened⟩

end Cmogstored
