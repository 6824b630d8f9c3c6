import Cmogstored.Docroot
import Cmogstored.HeadInput
import Cmogstored.RequestLine
import Cmogstored.Script

/-! The paths a connection looks up. They all come out of `mog_http_path`, or are made from such a path
by `tmppath_for` and `mog_mkpath_for`; the names of an upload in progress are kept in its file. So no
call of any run leaves the document root. -/

namespace Cmogstored

open Prog Scan

variable {file : MogFile} {path name : Bytes}

/-- Every path in a call is safe, and so is the one a request is handed over with. -/
def CallConfined (ctx : Ctx) : Call → Prop
  | .openRead path => PathOk path
  | .stat path => PathOk path
  | .openPut path _ => UploadName ctx path
  | .mkdir path => PathOk path
  | .unlink path => UploadName ctx path
  | .rename old new => TmpOk ctx old ∧ PathOk new
  | .note (.handed http buf) => ∀ path, mogHttpPath http buf = pure (.ok path) →
      PathOk path ∧ ∀ result, TmpOk ctx (tmppathFor ctx path result)
  | _ => True

/-- The names a file was opened under. -/
structure FileOk (ctx : Ctx) (file : MogFile) : Prop where
  path : ∀ path, file.path = some path → PathOk path
  tmppath : ∀ name, file.tmppath = some name → TmpOk ctx name

def ForwardOk (ctx : Ctx) (http : Http) : Prop := ∀ file, http.forward = some file → FileOk ctx file

section Confined

variable {ctx : Ctx} {http http' : Http} {buf : Bytes} {fd : Fd} (fuel : Nat) (request : Call)

/-! ### Frames without paths -/

theorem ReplyCall.confined (h : ReplyCall request) : CallConfined ctx request := by
  cases request with
  | note event => cases event <;> trivial
  | _ => trivial

theorem FlushCall.confined (h : FlushCall request) : CallConfined ctx request := by
  cases request <;> trivial

theorem WriteCall.confined (h : WriteCall fd request) :
    CallConfined ctx request := by
  cases request with
  | note event => cases event <;> trivial
  | _ => trivial

theorem BodyCall.confined (h : BodyCall fd request) :
    CallConfined ctx request := by
  cases request with
  | note event => cases event <;> trivial
  | _ => trivial

theorem InputCall.confined (h : InputCall request) : CallConfined ctx request := by
  cases request with
  | note event => cases event <;> trivial
  | _ => trivial

theorem DropCall.confined (hfile : FileOk ctx file) (request : Call)
    (h : DropCall file request) : CallConfined ctx request := by
  cases request with
  | unlink path => exact Or.inr (hfile.tmppath path h)
  | note event => cases event <;> trivial
  | _ => trivial

/-! ### Files and their names -/

theorem forwardOk_of_eq (h : ForwardOk ctx http) (heq : http'.forward = http.forward) :
    ForwardOk ctx http' := by
  intro file hfile
  exact h file (heq ▸ hfile)

theorem forwardOk_none (hnone : http.forward = none) : ForwardOk ctx http := by
  intro file hfile
  rw [hnone] at hfile
  cases hfile

theorem forwardOk_some (h : FileOk ctx file) (hsome : http.forward = some file) :
    ForwardOk ctx http := by
  intro file' hfile
  rw [hsome] at hfile
  cases hfile
  exact h

theorem FileOk.congr {file' : MogFile} (h : FileOk ctx file) (hpath : file'.path = file.path)
    (htmppath : file'.tmppath = file.tmppath) : FileOk ctx file' :=
  ⟨fun path heq => h.path path (hpath ▸ heq), fun name heq => h.tmppath name (htmppath ▸ heq)⟩

theorem SameClient.forwardOk (h : SameClient http http') (hforward : ForwardOk ctx http) :
    ForwardOk ctx http' := by
  intro file' hfile'
  have hrel := h.forward
  rw [hfile'] at hrel
  cases hfile : http.forward with
  | none => rw [hfile] at hrel; cases hrel
  | some file =>
    rw [hfile] at hrel
    cases hrel with
    | some hsame => exact (hforward file hfile).congr hsame.path hsame.tmppath

/-- A file without names. -/
structure Nameless (file : MogFile) : Prop where
  path : file.path = none
  tmppath : file.tmppath = none

theorem Nameless.fileOk (h : Nameless file) : FileOk ctx file := by
  refine ⟨fun path heq => ?_, fun name heq => ?_⟩
  · rw [h.path] at heq
    cases heq
  · rw [h.tmppath] at heq
    cases heq

/-! ### The path of a request -/

theorem pathOk_of_isPath (h : IsPath path) (hvalid : mogValidPath path = true) :
    PathOk path := by
  obtain ⟨chars, rfl, -, hchars, hhead⟩ := h
  rw [mogValidPath, Bool.and_eq_true, decide_eq_true_iff, Bool.not_eq_true'] at hvalid
  obtain ⟨hlength, hfound⟩ := hvalid
  have hdots : ¬ ascii ".." <:+: 47 :: chars := by
    rw [← pathTraversalFound_iff, hfound]
    exact Bool.false_ne_true
  refine ⟨⟨rfl, ⟨hhead, fun hcomponent => ?_⟩, ?_⟩, Nat.le_of_lt_succ hlength, hdots⟩
  · exact hdots (hcomponent.isInfix.trans (List.drop_suffix 1 _).isInfix)
  · exact List.forall_mem_cons.mpr ⟨by decide, hchars⟩

theorem mogHttpPath_confined {S : Call → Prop} (h : TargetIn buf http.toFields) :
    (mogHttpPath http buf).Within S fun answer => ∀ path, answer = .ok path → PathOk path := by
  refine within_require_bind fun _ => ?_
  dsimp only
  split
  · rintro _ ⟨⟩
  · rename_i hvalid
    split
    · rintro _ ⟨⟩
    · rintro _ ⟨⟩
      exact pathOk_of_isPath h.path (by simpa using hvalid)

theorem mogHttpResp_confined (http : Http) (status : Status) (alive : Bool) :
    (mogHttpResp fuel http status alive).Within (CallConfined ctx)
      fun http' => http'.forward = http.forward := by
  refine (mogHttpResp_within fuel http status alive).mono ReplyCall.confined fun http' h => ?_
  obtain ⟨wbuf, rfl⟩ := h
  rfl

/-! ### GET and HEAD -/

theorem applyRange_confined (http : Http) (reply : RangeReply) (h : ForwardOk ctx http) :
    (applyRange http reply).Within (CallConfined ctx) (ForwardOk ctx) := by
  unfold applyRange
  split
  · exact h
  · intro file' hfile'
    obtain ⟨file, hfile, rfl⟩ := Option.map_eq_some_iff.mp hfile'
    exact (h file hfile).congr rfl rfl
  · split
    · exact within_ask_bind trivial fun _ => forwardOk_none rfl
    · exact within_require_bind fun _ => h

theorem httpGetRespHdr_confined (http : Http) (size mtime : Int) (h : ForwardOk ctx http) :
    (httpGetRespHdr ctx fuel http size mtime).Within (CallConfined ctx) (ForwardOk ctx) := by
  refine within_ask_bind trivial fun now => ?_
  split
  · trivial
  · refine (applyRange_confined _ _ h).bind fun http' hforward => ?_
    refine within_require_bind fun _ => within_require_bind fun _ => within_ask_bind trivial fun _ => ?_
    exact (mogTrysend_sure (fun _ => trivial) (fun _ _ => trivial) _ _ _ _).within.bind
      fun _ _ => forwardOk_of_eq hforward rfl

theorem mogHttpResp_forwardOk (status : Status) (alive : Bool) (h : ForwardOk ctx http) :
    (mogHttpResp fuel http status alive).Within (CallConfined ctx) (ForwardOk ctx) :=
  (mogHttpResp_confined fuel http status alive).imp fun _ heq => forwardOk_of_eq h heq

theorem getErr_confined (errno : Errno) (h : ForwardOk ctx http) :
    (getErr fuel http errno).Within (CallConfined ctx) (ForwardOk ctx) := by
  unfold getErr
  split <;> exact mogHttpResp_forwardOk _ _ _ h

theorem mogFileOpenRead_confined (hpath : PathOk path) :
    (mogFileOpenRead path).Within (CallConfined ctx)
      fun answer => ∀ file, answer = .ok file → Nameless file := by
  have hopen : CallConfined ctx (.openRead path) := hpath
  refine (openExpireRetry_within trivial (within_ask hopen fun _ => trivial)).bind fun answer _ => ?_
  split
  · rintro _ ⟨⟩
    exact ⟨rfl, rfl⟩
  · rintro _ ⟨⟩

theorem getFile_confined (hpath : PathOk path) (h : ForwardOk ctx http) :
    (getFile ctx fuel http path).Within (CallConfined ctx) (ForwardOk ctx) := by
  refine (mogFileOpenRead_confined hpath).bind fun answer hanswer => ?_
  split
  · exact getErr_confined _ _ h
  · rename_i file
    refine within_ask_bind trivial fun answer => ?_
    split
    · exact within_ask_bind trivial fun _ => getErr_confined _ _ h
    · split
      · refine httpGetRespHdr_confined _ _ _ _ (forwardOk_some ?_ rfl)
        exact (hanswer file rfl).fileOk.congr rfl rfl
      · exact within_ask_bind trivial fun _ => mogHttpResp_forwardOk _ _ _ h

theorem headStat_confined (hpath : PathOk path) (h : ForwardOk ctx http) :
    (headStat ctx fuel http path).Within (CallConfined ctx) (ForwardOk ctx) := by
  refine within_ask_bind hpath fun answer => ?_
  split
  · exact getErr_confined _ _ h
  · split
    · exact httpGetRespHdr_confined _ _ _ _ h
    · exact mogHttpResp_forwardOk _ _ _ h

theorem mogHttpGetOpen_confined (htarget : TargetIn buf http.toFields)
    (h : ForwardOk ctx http) :
    (mogHttpGetOpen ctx fuel http buf).Within (CallConfined ctx) (ForwardOk ctx) := by
  refine (mogHttpPath_confined htarget).bind fun answer hanswer => ?_
  split
  · exact mogHttpResp_forwardOk _ _ _ h
  · refine within_require_bind fun _ => within_require_bind fun _ => ?_
    split
    · exact httpGetRespHdr_confined _ _ _ _ h
    · split
      · exact headStat_confined _ (hanswer _ rfl) h
      · exact getFile_confined _ (hanswer _ rfl) h

/-! ### DELETE and MKCOL -/

theorem mogHttpDelete_confined (htarget : TargetIn buf http.toFields)
    (h : ForwardOk ctx http) :
    (mogHttpDelete ctx fuel http buf).Within (CallConfined ctx) (ForwardOk ctx) := by
  unfold mogHttpDelete
  split
  · exact mogHttpResp_forwardOk _ _ _ h
  · refine (mogHttpPath_confined htarget).bind fun answer hanswer => ?_
    split
    · exact mogHttpResp_forwardOk _ _ _ h
    · refine within_require_bind fun _ => ?_
      split
      · exact mogHttpResp_forwardOk _ _ _ h
      · refine within_ask_bind (Or.inl (hanswer _ rfl)) fun answer => ?_
        split <;> exact mogHttpResp_forwardOk _ _ _ h

theorem mogHttpMkcol_confined (htarget : TargetIn buf http.toFields)
    (h : ForwardOk ctx http) :
    (mogHttpMkcol ctx fuel http buf).Within (CallConfined ctx) (ForwardOk ctx) := by
  unfold mogHttpMkcol
  split
  · exact mogHttpResp_forwardOk _ _ _ h
  · refine (mogHttpPath_confined htarget).bind fun answer _ => ?_
    split <;> exact mogHttpResp_forwardOk _ _ _ h

/-! ### PUT -/

theorem mkdirs_confined (dirs : List Bytes) (h : ∀ dir ∈ dirs, PathOk dir) :
    (mkdirs dirs).Within (CallConfined ctx) fun _ => True := by
  induction dirs with
  | nil => trivial
  | cons dir dirs ih =>
    rw [List.forall_mem_cons] at h
    refine within_ask_bind h.1 fun answer => ?_
    split
    · exact ih h.2
    · exact ih h.2
    · trivial

theorem pathOk_of_mem_mkpathDirs {dir : Bytes} (h : UploadName ctx name)
    (hdir : dir ∈ mkpathDirs name) : PathOk dir := by
  obtain ⟨k, hk, rfl⟩ := List.mem_map.mp hdir
  have hmem := (List.mem_filter.mp (List.mem_of_mem_tail hk)).2
  rw [Bool.and_eq_true, decide_eq_true_iff, beq_iff_eq] at hmem
  exact h.pathOk_take hmem.1 hmem.2

theorem mkpathOpenPut_confined (flags : OpenFlags) (h : UploadName ctx name) :
    (mkpathOpenPut name flags).Within (CallConfined ctx) fun _ => True := by
  refine within_ask_bind h fun answer => ?_
  split
  · refine Within.bind (Q := fun _ => True) ?_ fun made _ => ?_
    · unfold mogMkpathFor
      split
      · exact mkdirs_confined _ fun _ => pathOk_of_mem_mkpathDirs h
      · trivial
    · split
      · exact within_ask h fun _ => trivial
      · trivial
  · trivial

theorem mogFileOpenPut_confined (flags : OpenFlags) (h : UploadName ctx name) :
    (mogFileOpenPut name flags).Within (CallConfined ctx)
      fun answer => ∀ file, answer = .ok file → Nameless file := by
  refine (openExpireRetry_within trivial (mkpathOpenPut_confined flags h)).bind fun answer _ => ?_
  split
  · rintro _ ⟨⟩
    exact ⟨rfl, rfl⟩
  · rintro _ ⟨⟩

/-- What `open_put` opened has no path yet, and its temporary name if it has one. -/
def Opened (ctx : Ctx) (answer : Except Errno MogFile) : Prop :=
  ∀ file, answer = .ok file → ∀ name, file.tmppath = some name → TmpOk ctx name

theorem openTmp_confined (hpath : PathOk path) :
    (openTmp ctx path).Within (CallConfined ctx) (Opened ctx) := by
  have hname : ∀ result, TmpOk ctx (tmppathFor ctx path result) := tmpOk_tmppathFor ctx hpath
  refine within_ask_bind trivial fun result => ?_
  refine (mogFileOpenPut_confined _ (Or.inr (hname result))).bind fun answer hanswer => ?_
  split
  · rintro _ ⟨⟩ _ ⟨⟩
    exact hname result
  · refine within_ask_bind trivial fun result => ?_
    refine (mogFileOpenPut_confined _ (Or.inr (hname result))).bind fun answer hanswer => ?_
    split
    · rintro _ ⟨⟩ _ ⟨⟩
      exact hname result
    · rintro _ ⟨⟩
  · rintro _ ⟨⟩

theorem openPut_confined (http : Http) (hpath : PathOk path) :
    (openPut ctx http path).Within (CallConfined ctx)
      fun answer => ∀ file, answer = .ok file → FileOk ctx file := by
  have htarget : (openTarget ctx http path).Within (CallConfined ctx) (Opened ctx) := by
    unfold openTarget
    split
    · refine (mogFileOpenPut_confined _ (Or.inl hpath)).imp fun answer hanswer file heq name hname => ?_
      rw [(hanswer file heq).tmppath] at hname
      cases hname
    · exact openTmp_confined hpath
  refine htarget.bind fun answer hanswer => ?_
  split
  · rintro _ ⟨⟩
  · rename_i file
    rintro _ ⟨⟩
    refine ⟨?_, fun name hname => hanswer file rfl name hname⟩
    rintro _ ⟨⟩
    exact hpath

/-! ### The end of an upload -/

theorem fileCloseNull_confined (http : Http) (h : ForwardOk ctx http) :
    (fileCloseNull http).Within (CallConfined ctx) fun http' => http' = { http with forward := none } := by
  cases hforward : http.forward with
  | none =>
    rw [fileCloseNull_none http hforward, ← hforward]
    exact within_ret rfl
  | some file =>
    exact (fileCloseNull_within http hforward).mono (DropCall.confined (h file hforward)) fun _ => id

theorem stop_confined (status : Option Status) (h : ForwardOk ctx http) :
    (stop fuel http status).Within (CallConfined ctx) fun result =>
      result.1.forward = none ∧ result.2 = .close := by
  have hreply : (stopReply fuel http status).Within (CallConfined ctx) (ForwardOk ctx) := by
    unfold stopReply
    split
    · exact mogHttpResp_forwardOk _ _ _ h
    · exact h
  refine hreply.bind fun http' hforward => (fileCloseNull_confined _ hforward).bind fun _ hclosed => ?_
  subst hclosed
  exact ⟨rfl, rfl⟩

theorem setPermsCommit_confined (h : FileOk ctx file) :
    (setPermsCommit file).Within (CallConfined ctx) fun result => FileOk ctx result.2 := by
  refine within_ask_bind trivial fun answer => ?_
  split
  · exact h
  · split
    · exact h
    · rename_i name hname
      split
      · trivial
      · rename_i path hpath
        refine within_ask_bind ⟨h.tmppath name hname, h.path path hpath⟩ fun answer => ?_
        split
        · exact ⟨h.path, fun _ hnone => by cases hnone⟩
        · exact h

theorem putCommitResp_confined (h : ForwardOk ctx http) :
    (putCommitResp ctx fuel http).Within (CallConfined ctx) fun http' => http'.forward = none := by
  have hfinish : ∀ (http : Http) (status : Status) (alive : Bool), ForwardOk ctx http →
      (fileCloseNull http >>= fun http => mogHttpResp fuel http status alive).Within (CallConfined ctx)
        fun http' => http'.forward = none := by
    intro http status alive hforward
    refine (fileCloseNull_confined _ hforward).bind fun http' hclosed => ?_
    subst hclosed
    exact mogHttpResp_confined _ _ _ _
  refine within_ask_bind trivial fun _ => ?_
  split
  · trivial
  · rename_i file hfile
    split
    · refine (setPermsCommit_confined (h file hfile)).bind fun result hresult => ?_
      rcases result with ⟨ok, file⟩
      cases ok
      · exact hfinish _ _ _ (forwardOk_some hresult rfl)
      · exact hfinish _ _ _ (forwardOk_some hresult rfl)
    · exact hfinish _ _ _ h

/-! ### The body of an upload -/

theorem chunkedBodyAfterHeader_confined (hfile : http.forward = some file)
    (h : ForwardOk ctx http) :
    (chunkedBodyAfterHeader ctx fuel http buf).Within (CallConfined ctx) (ForwardOk ctx) := by
  refine (mogChunkInit_within http).bind fun init hinit => ?_
  have hstart : SameClient http { init with offset := http.offset } :=
    hinit.trans (SameClient.of_fields (SameRequest.refl _) rfl rfl rfl)
  have huploads := hstart.uploads ⟨file, hfile, SameUpload.refl file⟩
  refine ((mogChunkParse_within _ _ _ huploads).mono WriteCall.confined fun _ => id).bind
    fun parsed hparsed => ?_
  have hforward : ForwardOk ctx parsed.http := (hstart.trans hparsed).forwardOk h
  dsimp only
  split
  · exact (stop_confined _ _ hforward).bind fun _ hstop => forwardOk_none hstop.1
  · refine within_require_bind fun _ => ?_
    split
    · exact within_require_bind fun _ => hforward
    · exact within_require_bind fun _ => hforward
    · refine within_require_bind fun _ => (stashAdvanceRbuf_within _ _).bind fun _ hstash => ?_
      exact forwardOk_of_eq (hstash.forwardOk hforward) rfl
    · refine (putCommitResp_confined _ hforward).bind fun _ hcommit => within_require_bind fun _ => ?_
      refine (stashAdvanceRbuf_within _ _).bind fun _ hstash => ?_
      exact forwardOk_of_eq (hstash.forwardOk (forwardOk_none hcommit)) rfl

theorem identityBodyAfterHeader_confined (h : ForwardOk ctx http) :
    (identityBodyAfterHeader fuel http buf).Within (CallConfined ctx) (ForwardOk ctx) := by
  unfold identityBodyAfterHeader
  dsimp only
  split
  · exact h
  · split
    · trivial
    · rename_i file hfile
      refine ((mogHttpWriteFull_within _ _ _ _).mono WriteCall.confined fun _ => id).bind
        fun result hresult => ?_
      have hwritten := (h file hfile).congr hresult.path hresult.tmppath
      split
      · exact forwardOk_some hwritten rfl
      · exact (stop_confined _ _ (forwardOk_some hwritten rfl)).bind fun _ hstop =>
          forwardOk_none hstop.1

theorem putErr_confined (errno : Option Errno) (h : ForwardOk ctx http) :
    (putErr fuel http errno).Within (CallConfined ctx) (ForwardOk ctx) := by
  unfold putErr
  split
  · exact mogHttpResp_forwardOk _ _ _ h
  · exact mogHttpResp_forwardOk _ _ _ h
  · exact mogHttpResp_forwardOk _ _ _ h
  · exact (stop_confined _ _ h).bind fun _ hstop => forwardOk_none hstop.1

theorem putBody_confined (hfile : http.forward = some file)
    (h : ForwardOk ctx http) :
    (putBody ctx fuel http buf).Within (CallConfined ctx) (ForwardOk ctx) := by
  unfold putBody
  split
  · split
    · refine (mogChunkInit_within _).bind fun _ hinit => ?_
      exact forwardOk_of_eq (hinit.forwardOk (forwardOk_of_eq h rfl)) rfl
    · exact h
  · refine within_require_bind fun _ => ?_
    split
    · exact chunkedBodyAfterHeader_confined _ hfile h
    · exact identityBodyAfterHeader_confined _ h

theorem mogHttpPut_confined (htarget : TargetIn buf http.toFields)
    (h : ForwardOk ctx http) :
    (mogHttpPut ctx fuel http buf).Within (CallConfined ctx) (ForwardOk ctx) := by
  unfold mogHttpPut
  split
  · exact mogHttpResp_forwardOk _ _ _ h
  · refine (mogHttpPath_confined htarget).bind fun answer hanswer => ?_
    split
    · exact putErr_confined _ _ h
    · refine within_require_bind fun _ => within_require_bind fun _ => ?_
      split
      · refine (openPut_confined _ (hanswer _ rfl)).bind fun answer hopened => ?_
        split
        · exact putErr_confined _ _ h
        · exact putBody_confined _ rfl (forwardOk_some (hopened _ rfl) rfl)
      · exact (stop_confined _ _ h).bind fun _ hstop => forwardOk_none hstop.1

/-! ### A step -/

/-- What a connection is between two steps. -/
structure Steady (ctx : Ctx) (http : Http) : Prop where
  resting : http.wbuf = .null → http.forward = none → Resting http
  forward : ForwardOk ctx http

theorem steady_reset (http : Http) : Steady ctx (mogHttpResetParser http) :=
  ⟨fun _ _ => resting_reset http, forwardOk_none rfl⟩

theorem steady_of_some (hfile : http.forward = some file) (h : ForwardOk ctx http) :
    Steady ctx http := by
  refine ⟨fun _ hnone => ?_, h⟩
  rw [hfile] at hnone
  cases hnone

/-- What a step leaves, unless it closes the connection. -/
def StepConfined (ctx : Ctx) (result : Http × Next) : Prop := result.2 ≠ .close → Steady ctx result.1

theorem mogHttpReset_confined (http : Http) :
    (mogHttpReset http >>= fun http => pure (http, Next.active)).Within (CallConfined ctx)
      (StepConfined ctx) :=
  within_ask_bind trivial fun _ _ => steady_reset http

theorem stepConfined_close (http : Http) : StepConfined ctx (http, .close) := fun hne => absurd rfl hne

theorem httpWbufInProgress_confined (h : ForwardOk ctx http) :
    (httpWbufInProgress fuel http).Within (CallConfined ctx) (StepConfined ctx) := by
  refine within_ask_bind trivial fun _ => ?_
  split
  · trivial
  · trivial
  · refine ((mogTryflush_within _ _ _).mono FlushCall.confined fun _ => id).bind fun result hresult => ?_
    rcases result with ⟨state, wbuf⟩
    cases state with
    | err => exact stepConfined_close _
    | busy =>
      obtain ⟨off, hoff⟩ := hresult
      dsimp only at hoff
      subst hoff
      exact fun _ => ⟨nofun, forwardOk_of_eq h rfl⟩
    | done =>
      dsimp only [flushDone]
      split
      · split
        · exact mogHttpReset_confined _
        · rename_i hforward
          refine within_require_bind fun _ _ => ⟨fun _ hnone => absurd hnone hforward, ?_⟩
          exact forwardOk_of_eq h rfl
      · exact stepConfined_close _

theorem getDone_confined (http : Http) (file : MogFile) :
    (getDone http file).Within (CallConfined ctx) (StepConfined ctx) := by
  refine within_ask_bind trivial fun _ => ?_
  split
  · exact mogHttpReset_confined _
  · exact stepConfined_close _

theorem sendfileRetry_confined (count : Nat)
    (hfile : http.forward = some file) (h : ForwardOk ctx http) :
    (sendfileRetry fuel http file count).Within (CallConfined ctx) (StepConfined ctx) := by
  induction fuel with
  | zero => trivial
  | succ fuel ih =>
    refine within_ask_bind trivial fun answer => ?_
    split
    · split
      · dsimp only
        split
        · exact getDone_confined _ _
        · refine fun _ => steady_of_some rfl (forwardOk_some ?_ rfl)
          exact (h file hfile).congr rfl rfl
      · exact getDone_confined _ _
    · exact fun _ => steady_of_some hfile h
    · exact ih
    · exact getDone_confined _ _

theorem mogHttpGetInProgress_confined (h : ForwardOk ctx http) :
    (mogHttpGetInProgress fuel http).Within (CallConfined ctx) (StepConfined ctx) := by
  refine within_require_bind fun _ => ?_
  split
  · trivial
  · rename_i file hfile
    refine within_require_bind fun _ => ?_
    dsimp only
    split
    · exact getDone_confined _ _
    · exact sendfileRetry_confined _ _ hfile h

theorem httpPutCommit_confined (h : ForwardOk ctx http) :
    (httpPutCommit ctx fuel http).Within (CallConfined ctx) (StepConfined ctx) := by
  refine (putCommitResp_confined fuel h).bind fun http' hnone => ?_
  split
  · rename_i hpending
    exact fun _ => ⟨fun hnull => absurd (hpending.symm.trans hnull) nofun, forwardOk_none hnone⟩
  · exact stepConfined_close _
  · split
    · exact mogHttpReset_confined _
    · exact stepConfined_close _

theorem mogHttpPutInProgress_confined (hfile : http.forward = some file)
    (h : ForwardOk ctx http) :
    (mogHttpPutInProgress ctx fuel http).Within (CallConfined ctx) (StepConfined ctx) := by
  refine ((putInProgress_within fuel http hfile).mono BodyCall.confined fun _ => id).bind
    fun exit hexit => ?_
  have hforward := hexit.forwardOk h
  cases exit with
  | waitRd http' =>
    obtain ⟨file', hfile', -⟩ := hexit.uploads ⟨file, hfile, SameUpload.refl file⟩
    exact fun _ => steady_of_some hfile' hforward
  | stop http' => exact (stop_confined _ _ hforward).imp fun _ hstop hne => absurd hstop.2 hne
  | writeErr http' errno defaultMsg =>
    exact (stop_confined _ _ hforward).imp fun _ hstop hne => absurd hstop.2 hne
  | commit http' => exact httpPutCommit_confined _ hforward

theorem httpForwardInProgress_confined (hfile : http.forward = some file)
    (h : ForwardOk ctx http) :
    (httpForwardInProgress ctx fuel http).Within (CallConfined ctx) (StepConfined ctx) := by
  refine within_ask_bind trivial fun _ => ?_
  split
  · exact mogHttpGetInProgress_confined _ h
  · exact within_require_bind fun _ => mogHttpPutInProgress_confined _ hfile h

theorem processMethod_confined (htarget : TargetIn buf http.toFields)
    (h : ForwardOk ctx http) :
    (processMethod ctx fuel http buf).Within (CallConfined ctx) (ForwardOk ctx) := by
  unfold processMethod
  split
  · trivial
  · exact mogHttpGetOpen_confined _ htarget h
  · exact mogHttpGetOpen_confined _ htarget h
  · exact mogHttpDelete_confined _ htarget h
  · exact mogHttpMkcol_confined _ htarget h
  · exact mogHttpPut_confined _ htarget h

theorem handed_confined (htarget : TargetIn buf http.toFields) :
    CallConfined ctx (.note (.handed http buf)) := by
  intro path hpath
  have hok := mogHttpPath_confined (S := fun _ => True) htarget
  rw [hpath] at hok
  exact ⟨hok path rfl, tmpOk_tmppathFor ctx (hok path rfl)⟩

theorem queueDone_confined (htarget : TargetIn buf http.toFields)
    (h : ForwardOk ctx http) :
    (queueDone ctx fuel http buf).Within (CallConfined ctx) (StepConfined ctx) := by
  refine (within_ask_bind (handed_confined htarget) fun _ => processMethod_confined fuel htarget h).bind
    fun http' hforward => ?_
  split
  · exact stepConfined_close _
  · rename_i hpending
    refine (httpDeferRbuf_within _ _).bind fun _ hdefer _ => ⟨fun hnull => ?_, ?_⟩
    · exact absurd ((hdefer.2.1.trans hpending).symm.trans hnull) nofun
    · exact forwardOk_of_eq hforward hdefer.2.2
  · split
    · rename_i hsome
      obtain ⟨file, hfile⟩ := Option.ne_none_iff_exists'.mp hsome
      refine (httpDeferRbuf_within _ _).bind fun _ hdefer => ?_
      exact httpForwardInProgress_confined _ (hdefer.2.2.trans hfile)
        (forwardOk_of_eq hforward hdefer.2.2)
    · split
      · exact (httpDeferRbuf_within _ _).bind fun _ _ => mogHttpReset_confined _
      · exact stepConfined_close _

/-- **A step of a connection looks up nothing outside the document root.** -/
theorem httpQueueStep_confined (h : Steady ctx http) :
    (httpQueueStep ctx fuel http).Within (CallConfined ctx) (StepConfined ctx) := by
  unfold httpQueueStep
  split
  · exact httpWbufInProgress_confined _ h.forward
  · rename_i hnull
    split
    · rename_i hsome
      obtain ⟨file, hfile⟩ := Option.ne_none_iff_exists'.mp hsome
      exact httpForwardInProgress_confined _ hfile h.forward
    · rename_i hnone
      have hnull : http.wbuf = .null := of_not_not hnull
      have hnone : http.forward = none := of_not_not hnone
      have hinput := queueInput_reading fuel http hnull (h.resting hnull hnone)
      refine ((hinput.and (queueInput_within fuel http)).mono InputCall.confined fun _ => id).bind
        fun input hinput => ?_
      obtain ⟨hok, hsame⟩ := hinput
      have hforward : ForwardOk ctx input.http := forwardOk_none (hsame.forward.trans hnone)
      cases input with
      | bad http' errno =>
        exact (mogHttpResp_confined _ _ _ _).bind fun _ _ => stepConfined_close _
      | tooLong http' => exact (mogHttpResp_confined _ _ _ _).bind fun _ _ => stepConfined_close _
      | request http' buf => exact queueDone_confined _ (headScan_target hok) hforward
      | blocked http' => exact fun _ => ⟨fun _ _ => hok, hforward⟩
      | gone http' => exact stepConfined_close _

theorem serve_within (h : Steady ctx http) :
    (serve ctx fuel http).Within (CallConfined ctx) fun _ => True := by
  induction fuel generalizing http with
  | zero => trivial
  | succ fuel ih =>
    refine Within.bind (Q := StepConfined ctx) ?_ fun result hresult => ?_
    · refine (httpQueueStep_confined fuel h).bind fun result hresult => ?_
      refine within_ask_bind trivial fun _ => ?_
      split
      · refine Within.bind (Q := fun _ => True) ?_ fun _ _ => hresult
        exact within_require_bind fun _ => within_ask trivial fun _ => trivial
      · exact hresult
    · dsimp only
      split
      · trivial
      · rename_i hopen
        exact ih (hresult hopen)

end Confined

/-- **HTTP paths stay inside the document root**, in every run of a connection. -/
theorem serve_confined (ctx : Ctx) (fuel : Nat) {trace : Run} {rest : Io Unit}
    (hrun : Runs (serve ctx fuel mogHttpInit) trace rest) :
    ∀ entry ∈ trace, CallConfined ctx entry.1 :=
  (serve_within fuel ⟨fun _ _ => resting_init, forwardOk_none rfl⟩).of_runs hrun

/-- An upload of one byte. -/
def shortPut : Script := .sending ["PUT /dev1/a HTTP/1.0\r\nContent-Length: 1\r\n\r\n", "x"] []

theorem serve_confined_shortPut :
    (∃ entry ∈ (scripted 40 shortPut).1,
      entry.1 = .rename (ascii "/dev1/a.00000000.1.tmp") (ascii "/dev1/a")) ∧
    ∀ entry ∈ (scripted 40 shortPut).1, CallConfined plainCtx entry.1 :=
  ⟨by decide +kernel, serve_confined plainCtx 40 (runs_scripted 40 shortPut)⟩

end Cmogstored
