import Cmogstored.Http

/-! What each function leaves alone: the calls it can make, and the parts of a client it does not
touch. Every later argument about a connection rests on these, so that it only has to look at the
calls it is about. -/

namespace Cmogstored

open Prog Scan

variable {file : MogFile} {a b c origin : Http} {fd : Fd} {S : Call → Prop}

/-- The client of a round's end. -/
def Round.http : Round → Http
  | again http => http
  | out exit => exit.http

def Input.http : Input → Http
  | bad http _ => http
  | tooLong http => http
  | request http _ => http
  | blocked http => http
  | gone http => http

def Parse.http : Parse → Http
  | out input => input.http
  | reread http _ => http

variable (ctx : Ctx) (fuel : Nat) (http : Http) (buf : Bytes) (request : Call) (errno : Option Errno)

/-! ### Writing a response -/

/-- The calls of a short answer. -/
def ReplyCall : Call → Prop
  | .now => True
  | .writev _ => True
  | .note (.response _ _ _ _ _) => True
  | _ => False

/-- A short answer changes `wbuf`, and clears `persistent` unless it keeps the connection. -/
theorem mogHttpResp_within (status : Status) (alive : Bool) :
    (mogHttpResp fuel http status alive).Within ReplyCall fun http' =>
      ∃ wbuf, http' = { http.setPersistent (alive && http.persistent) with wbuf := wbuf } := by
  refine within_ask_bind trivial fun date => within_require_bind fun _ => ?_
  refine within_ask_bind trivial fun _ => ?_
  exact (mogTrywritev_sure (fun _ => trivial) _ _).within.bind fun wbuf _ => ⟨wbuf, rfl⟩

/-- The calls of a flush. -/
def FlushCall : Call → Prop
  | .write _ => True
  | _ => False

theorem mogTryflush_within (off : Nat) :
    (mogTryflush fuel buf off).Within FlushCall fun result =>
      match result.1 with
      | .err => result.2 = .null
      | .done => result.2 = .null
      | .busy => ∃ off', result.2 = .pending buf off' := by
  induction fuel generalizing off with
  | zero => trivial
  | succ fuel ih =>
    refine within_ask_bind trivial fun answer => ?_
    split
    · split
      · exact within_ret rfl
      · exact ih _
    · exact within_ret ⟨off, rfl⟩
    · exact ih _
    · exact within_ret rfl

/-! ### The file of an upload -/

/-- Removing and closing one file. -/
def DropCall (file : MogFile) : Call → Prop
  | .unlink path => file.tmppath = some path
  | .close fd => fd = file.fd
  | _ => False

/-- Dropping the upload changes `forward` only. -/
theorem fileCloseNull_within (hfile : http.forward = some file) :
    (fileCloseNull http).Within (DropCall file) fun http' => http' = { http with forward := none } := by
  unfold fileCloseNull
  rw [hfile]
  refine Within.bind (Q := fun _ => True) ?_ fun _ _ => ⟨rfl, fun _ => rfl⟩
  unfold unlinkTmp
  split
  · trivial
  · exact within_ask_bind ‹_› fun _ => trivial

theorem fileCloseNull_none (hnone : http.forward = none) :
    fileCloseNull http = pure http := by
  rw [fileCloseNull, hnone]

/-- The same upload, further on: the file may have grown, the rest stands. -/
structure SameUpload (file file' : MogFile) : Prop where
  fd : file'.fd = file.fd
  path : file'.path = file.path
  tmppath : file'.tmppath = file.tmppath

theorem SameUpload.refl (file : MogFile) : SameUpload file file := ⟨rfl, rfl, rfl⟩

theorem SameUpload.trans {a b c : MogFile} (h : SameUpload a b) (h' : SameUpload b c) :
    SameUpload a c :=
  ⟨h'.fd.trans h.fd, h'.path.trans h.path, h'.tmppath.trans h.tmppath⟩

/-- The calls that move bytes of a body from memory to its file. -/
def WriteCall (fd : Fd) : Call → Prop
  | .note (.chunkParse _ _) => True
  | .pwrite target _ _ => target = fd
  | _ => False

/-- The calls made while a body is read. -/
def BodyCall (fd : Fd) : Call → Prop
  | .read _ => True
  | request => WriteCall fd request

theorem WriteCall.body (h : WriteCall fd request) :
    BodyCall fd request := by
  cases request <;> trivial

theorem pwriteLoop_within {origin : MogFile} (file : MogFile) (buf : Bytes)
    (errno : Option Errno) (hsame : SameUpload origin file) :
    (pwriteLoop fuel file buf errno).Within (WriteCall origin.fd)
      fun result => SameUpload origin result.2.2 := by
  induction fuel generalizing file buf errno with
  | zero => trivial
  | succ fuel ih =>
    refine within_ask_bind hsame.fd fun answer => ?_
    split
    · split
      · dsimp only
        split
        · exact ⟨hsame.fd, hsame.path, hsame.tmppath⟩
        · exact ih _ _ _ ⟨hsame.fd, hsame.path, hsame.tmppath⟩
      · exact hsame
    · exact ih _ _ _ hsame
    · exact hsame

theorem mogHttpWriteFull_within (file : MogFile) (buf : Bytes) (errno : Option Errno) :
    (mogHttpWriteFull fuel file buf errno).Within (WriteCall file.fd)
      fun result => SameUpload file result.2.2 := by
  unfold mogHttpWriteFull
  dsimp only
  split
  · exact ⟨rfl, rfl, rfl⟩
  · have hsame : SameUpload file { file with digest := file.digest.map (· ++ buf) } := ⟨rfl, rfl, rfl⟩
    exact pwriteLoop_within fuel _ buf none hsame

/-! ### The chunk machine -/

/-- The fields that `chunk_parser.rl` does not write. -/
structure SameRequest (fields fields' : Fields) : Prop where
  httpMethod : fields'.httpMethod = fields.httpMethod
  persistent : fields'.persistent = fields.persistent
  chunked : fields'.chunked = fields.chunked
  hasTrailerMd5 : fields'.hasTrailerMd5 = fields.hasTrailerMd5
  hasContentRange : fields'.hasContentRange = fields.hasContentRange
  rangeBeg : fields'.rangeBeg = fields.rangeBeg

theorem SameRequest.refl (fields : Fields) : SameRequest fields fields :=
  ⟨rfl, rfl, rfl, rfl, rfl, rfl⟩

theorem SameRequest.trans {a b c : Fields} (h : SameRequest a b) (h' : SameRequest b c) :
    SameRequest a c :=
  ⟨h'.httpMethod.trans h.httpMethod, h'.persistent.trans h.persistent, h'.chunked.trans h.chunked,
    h'.hasTrailerMd5.trans h.hasTrailerMd5, h'.hasContentRange.trans h.hasContentRange,
    h'.rangeBeg.trans h.rangeBeg⟩

theorem chunkStep_sameRequest (fields : Fields) (p : Nat) (c : Byte) :
    (chunkStep buf fields p c).Sat (fun fields' _ => SameRequest fields fields')
      (fun fields' _ _ => SameRequest fields fields') := by
  unfold chunkStep
  rcases chunkNext fields.chunkCs c with ⟨act, cs⟩
  cases act <;> dsimp only <;> (repeat' split) <;> first | trivial | exact ⟨rfl, rfl, rfl, rfl, rfl, rfl⟩

theorem chunkScan_sameRequest (fuel : Nat) (fields : Fields) (p : Nat) :
    (exec chunkStep buf fuel fields p).Sat (fun fields' _ => SameRequest fields fields')
      (fun fields' _ _ => SameRequest fields fields') :=
  exec_rel (R := SameRequest) SameRequest.trans (chunkStep_sameRequest buf) fuel fields p
    (SameRequest.refl fields)

/-! ### The body of an upload -/

/-- The same client, further on with the body of its upload. -/
structure SameClient (http http' : Http) : Prop where
  request : SameRequest http.toFields http'.toFields
  wbuf : http'.wbuf = http.wbuf
  skipRbufDefer : http'.skipRbufDefer = http.skipRbufDefer
  forward : Option.Rel SameUpload http.forward http'.forward

theorem sameUpload_rel_refl (forward : Option MogFile) : Option.Rel SameUpload forward forward := by
  cases forward with
  | none => exact .none
  | some file => exact .some (SameUpload.refl file)

theorem sameUpload_rel_trans {a b c : Option MogFile} (hab : Option.Rel SameUpload a b)
    (hbc : Option.Rel SameUpload b c) : Option.Rel SameUpload a c := by
  cases hab with
  | none => exact hbc
  | some hfirst =>
    cases hbc with
    | some hsecond => exact .some (hfirst.trans hsecond)

theorem SameClient.trans (h : SameClient a b) (h' : SameClient b c) :
    SameClient a c :=
  ⟨h.request.trans h'.request, h'.wbuf.trans h.wbuf, h'.skipRbufDefer.trans h.skipRbufDefer,
    sameUpload_rel_trans h.forward h'.forward⟩

/-- A change of fields the request does not show, and of the read buffer, keeps the client. -/
theorem SameClient.of_fields {http http' : Http} (h : SameRequest http.toFields http'.toFields)
    (hwbuf : http'.wbuf = http.wbuf) (hskip : http'.skipRbufDefer = http.skipRbufDefer)
    (hforward : http'.forward = http.forward) : SameClient http http' :=
  ⟨h, hwbuf, hskip, hforward ▸ sameUpload_rel_refl _⟩

theorem SameClient.refl : SameClient http http :=
  of_fields (SameRequest.refl _) rfl rfl rfl

theorem SameClient.setFields {http : Http} {fields : Fields}
    (h : SameRequest http.toFields fields) : SameClient http { http with toFields := fields } :=
  of_fields h rfl rfl rfl

/-- The client's file is `file`, as far as the body has changed it. -/
def Uploads (http : Http) (file : MogFile) : Prop :=
  ∃ file', http.forward = some file' ∧ SameUpload file file'

theorem SameClient.uploads {http http' : Http} (h : SameClient http http')
    (hfile : Uploads http file) : Uploads http' file := by
  obtain ⟨file', hforward, hsame⟩ := hfile
  have hrel := h.forward
  rw [hforward] at hrel
  cases hforward' : http'.forward with
  | none => rw [hforward'] at hrel; cases hrel
  | some file'' =>
    rw [hforward'] at hrel
    cases hrel with
    | some hnext => exact ⟨file'', hforward', hsame.trans hnext⟩

theorem chunkData_within (http : Http) (p : Nat)
    (errno : Option Errno) (hfile : Uploads http file) :
    (chunkData fuel buf http p errno).Within (WriteCall file.fd) fun result =>
      match result.1 with
      | .goto http' _ => SameClient http http'
      | .out http' _ _ => SameClient http http' := by
  unfold chunkData
  split
  · dsimp only
    split
    · exact SameClient.of_fields ⟨rfl, rfl, rfl, rfl, rfl, rfl⟩ rfl rfl rfl
    · refine within_require_bind fun _ => ?_
      exact SameClient.of_fields ⟨rfl, rfl, rfl, rfl, rfl, rfl⟩ rfl rfl rfl
  · refine within_require_bind fun _ => ?_
    obtain ⟨file', hforward, hsame⟩ := hfile
    rw [hforward]
    rw [← hsame.fd]
    refine (mogHttpWriteFull_within _ _ _ _).bind fun result hresult => ?_
    have hclient : Option.Rel SameUpload http.forward (some result.2.2) := hforward ▸ .some hresult
    dsimp only
    split
    · split
      · exact ⟨⟨rfl, rfl, rfl, rfl, rfl, rfl⟩, rfl, rfl, hclient⟩
      · exact ⟨⟨rfl, rfl, rfl, rfl, rfl, rfl⟩, rfl, rfl, hclient⟩
    · exact ⟨⟨rfl, rfl, rfl, rfl, rfl, rfl⟩, rfl, rfl, hclient⟩

theorem chunkParsed_within (http : Http) (p : Nat)
    (errno : Option Errno) :
    (chunkParsed buf http p errno).Within S fun parsed => SameClient http parsed.http := by
  unfold chunkParsed
  dsimp only
  split
  · exact SameClient.of_fields (SameRequest.refl _) rfl rfl rfl
  · refine within_require_bind fun _ => ?_
    exact SameClient.of_fields (SameRequest.refl _) rfl rfl rfl

theorem chunkExec_within (rounds : Nat)
    (http : Http) (p : Nat) (errno : Option Errno) (hfile : Uploads http file)
    (hsame : SameClient origin http) :
    (chunkExec fuel buf rounds http p errno).Within (WriteCall file.fd)
      fun parsed => SameClient origin parsed.http := by
  induction rounds generalizing http p errno with
  | zero => trivial
  | succ rounds ih =>
    have hscan := chunkScan_sameRequest buf (lineFuel buf.length) http.toFields p
    have hparsed : ∀ fields p errno, SameRequest http.toFields fields →
        (chunkParsed buf { http with toFields := fields } p errno).Within (WriteCall file.fd)
          fun parsed => SameClient origin parsed.http := fun fields p errno h =>
      (chunkParsed_within _ _ _ _).imp fun _ hclient =>
        (hsame.trans (SameClient.setFields h)).trans hclient
    rw [chunkExec]
    split
    · rename_i hexec
      rw [hexec] at hscan
      exact hparsed _ _ _ hscan
    · rename_i hexec
      rw [hexec] at hscan
      exact hparsed _ _ _ hscan
    · rename_i hexec
      rw [hexec] at hscan
      exact hparsed _ _ _ hscan
    · rename_i hexec
      rw [hexec] at hscan
      exact hparsed _ _ _ hscan
    · rename_i fields pos hexec
      rw [hexec] at hscan
      have hstart : SameClient http { http with toFields := fields } := SameClient.setFields hscan
      refine (chunkData_within _ _ _ _ _ (hstart.uploads hfile)).bind fun result hdata => ?_
      split
      · exact ih _ _ _ (hdata.uploads (hstart.uploads hfile)) (hsame.trans (hstart.trans hdata))
      · refine (chunkParsed_within _ _ _ _).imp fun _ hclient => ?_
        refine (hsame.trans (hstart.trans hdata)).trans (SameClient.trans ?_ hclient)
        split
        · exact SameClient.of_fields ⟨rfl, rfl, rfl, rfl, rfl, rfl⟩ rfl rfl rfl
        · exact SameClient.refl _
    · trivial
    · trivial

theorem mogChunkParse_within
    (hfile : Uploads http file) :
    (mogChunkParse fuel http buf).Within (WriteCall file.fd)
      fun parsed => SameClient http parsed.http := by
  refine within_ask_bind trivial fun _ => within_require_bind fun _ => ?_
  exact chunkExec_within _ _ _ _ _ _ hfile (SameClient.refl _)

/-! ### Reading the body from the socket -/

theorem identityAgain_within (file : MogFile) (need : Int)
    (bufLen : Nat) (hfile : http.forward = some file) (hsame : SameClient origin http) :
    (identityAgain fuel http file need bufLen).Within (BodyCall file.fd)
      fun exit => SameClient origin exit.http := by
  induction fuel generalizing http file need bufLen with
  | zero => trivial
  | succ fuel ih =>
    refine within_require_bind fun _ => within_ask_bind trivial fun answer => ?_
    split
    · split
      · exact hsame
      · refine ((mogHttpWriteFull_within _ _ _ _).mono WriteCall.body fun _ => id).bind fun result hresult => ?_
        have hgrown : SameClient origin { http with forward := some result.2.2 } :=
          hsame.trans ⟨SameRequest.refl _, rfl, rfl, hfile ▸ .some hresult⟩
        dsimp only
        split
        · split
          · exact hgrown
          · rw [← hresult.fd]
            exact ih _ _ _ _ rfl hgrown
        · exact hgrown
    · exact hsame
    · exact ih _ _ _ _ hfile hsame
    · exact hsame

theorem identityPutInProgress_within
    (hfile : http.forward = some file) :
    (identityPutInProgress fuel http).Within (BodyCall file.fd)
      fun exit => SameClient http exit.http := by
  refine within_require_bind fun _ => ?_
  simp only [hfile]
  generalize (if http.hasContentRange then _ else _ : Int) = need
  split
  · exact SameClient.refl _
  · exact identityAgain_within _ _ _ _ _ hfile (SameClient.refl _)

theorem readRetry_within (count : Nat) :
    (readRetry fuel count).Within (BodyCall fd) fun _ => True := by
  induction fuel with
  | zero => trivial
  | succ fuel ih =>
    refine within_ask_bind trivial fun answer => ?_
    split
    · exact ih
    · trivial

theorem readErr_sameClient :
    SameClient http (readErr http errno).http := by
  unfold readErr
  split <;> exact SameClient.refl http

theorem stashAdvanceRbuf_within :
    (stashAdvanceRbuf http buf).Within S fun http' => SameClient http http' := by
  unfold stashAdvanceRbuf
  dsimp only
  split
  · exact SameClient.of_fields (SameRequest.refl _) rfl rfl rfl
  · refine within_require_bind fun _ => within_require_bind fun _ => ?_
    exact SameClient.of_fields ⟨rfl, rfl, rfl, rfl, rfl, rfl⟩ rfl rfl rfl

theorem mogChunkInit_within :
    (mogChunkInit http).Within S fun http' => SameClient http http' :=
  within_require_bind fun _ =>
    within_ret (SameClient.of_fields ⟨rfl, rfl, rfl, rfl, rfl, rfl⟩ rfl rfl rfl)

theorem chunkedRead_within
    (hfile : http.forward = some file) :
    (chunkedRead fuel http file).Within (BodyCall file.fd) fun round => SameClient http round.http := by
  refine within_require_bind fun _ => (readRetry_within _ _).bind fun answer _ => ?_
  split
  · exact readErr_sameClient http _
  · split
    · exact readErr_sameClient http none
    · refine ((mogHttpWriteFull_within _ _ _ _).mono WriteCall.body fun _ => id).bind fun result hresult => ?_
      have hgrown : Option.Rel SameUpload http.forward (some result.2.2) := hfile ▸ .some hresult
      dsimp only
      split
      · split
        · refine (mogChunkInit_within _).bind fun http' hinit => within_ret ?_
          refine SameClient.trans ?_ hinit
          exact ⟨⟨rfl, rfl, rfl, rfl, rfl, rfl⟩, rfl, rfl, hgrown⟩
        · exact ⟨⟨rfl, rfl, rfl, rfl, rfl, rfl⟩, rfl, rfl, hgrown⟩
      · exact ⟨⟨rfl, rfl, rfl, rfl, rfl, rfl⟩, rfl, rfl, hgrown⟩

theorem chunkedParsed_within (inTrailer : Bool) (http : Http) (buf : Bytes) :
    (chunkedParsed inTrailer http buf).Within S fun round => SameClient http round.http := by
  unfold chunkedParsed
  split
  · exact within_require_bind fun _ => SameClient.of_fields (SameRequest.refl _) rfl rfl rfl
  · exact within_require_bind fun _ => SameClient.of_fields (SameRequest.refl _) rfl rfl rfl
  · exact (stashAdvanceRbuf_within _ _).bind fun _ hstash => hstash
  · exact (stashAdvanceRbuf_within _ _).bind fun _ hstash => within_require_bind fun _ => hstash

theorem chunkedLine_within (inTrailer : Bool) (http : Http)
    (hfile : Uploads http file) :
    (chunkedLine fuel inTrailer http).Within (BodyCall file.fd)
      fun round => SameClient http round.http := by
  refine (readRetry_within _ _).bind fun answer _ => ?_
  split
  · exact readErr_sameClient http _
  · split
    · exact readErr_sameClient http none
    · refine ((mogChunkParse_within _ _ _ hfile).mono WriteCall.body fun _ => id).bind fun parsed hparsed => ?_
      split
      · exact hparsed
      · refine within_require_bind fun _ => ?_
        exact (chunkedParsed_within _ _ _).imp fun _ h => hparsed.trans h

theorem chunkedRound_within (inTrailer : Bool) (http : Http)
    (hfile : http.forward = some file) :
    (chunkedRound fuel inTrailer http).Within (BodyCall file.fd)
      fun round => SameClient http round.http := by
  refine within_require_bind fun _ => ?_
  have huploads : Uploads http file := ⟨file, hfile, SameUpload.refl file⟩
  rw [hfile]
  dsimp only
  split
  · refine within_require_bind fun _ => ?_
    split
    · have hstart : SameClient http (startTrailer http) :=
        SameClient.of_fields ⟨rfl, rfl, rfl, rfl, rfl, rfl⟩ rfl rfl rfl
      exact (chunkedLine_within _ _ _ (hstart.uploads huploads)).imp fun _ h => hstart.trans h
    · exact chunkedRead_within _ _ hfile
  · exact chunkedLine_within _ _ _ huploads
  · exact chunkedLine_within _ _ _ huploads
  · trivial

theorem chunkedPutInProgress_within (inTrailer : Bool)
    (http : Http) (hfile : Uploads http file) (hsame : SameClient origin http) :
    (chunkedPutInProgress fuel inTrailer http).Within (BodyCall file.fd)
      fun exit => SameClient origin exit.http := by
  induction fuel generalizing inTrailer http with
  | zero => trivial
  | succ fuel ih =>
    obtain ⟨file', hforward, hupload⟩ := hfile
    rw [← hupload.fd] at ih ⊢
    refine (chunkedRound_within _ _ _ hforward).bind fun round hround => ?_
    split
    · exact hsame.trans hround
    · refine ih _ _ ?_ (hsame.trans hround)
      exact hround.uploads ⟨file', hforward, hupload⟩

/-- **A body in progress only reads, and writes to its own file.** -/
theorem putInProgress_within
    (hfile : http.forward = some file) :
    (putInProgress fuel http).Within (BodyCall file.fd) fun exit => SameClient http exit.http := by
  unfold putInProgress
  split
  · exact chunkedPutInProgress_within _ _ _ ⟨file, hfile, SameUpload.refl file⟩ (SameClient.refl _)
  · exact identityPutInProgress_within _ _ hfile

/-! ### Sending the body of a GET -/

/-- The calls of a body that is sent. -/
def SendCall : Call → Prop
  | .sendfile _ _ _ => True
  | .close _ => True
  | .note (.reset _) => True
  | _ => False

/-- What sending leaves: no response is pending, and while the file is open the request stands. -/
def Sent (http : Http) (result : Http × Next) : Prop :=
  result.1.wbuf = .null ∧ (result.1.forward ≠ none → result.1.httpMethod = http.httpMethod)

theorem getDone_within (file : MogFile) (hnull : http.wbuf = .null) :
    (getDone http file).Within SendCall (Sent http) := by
  refine within_ask_bind trivial fun _ => ?_
  split
  · exact within_ask_bind trivial fun _ => ⟨rfl, fun hne => absurd rfl hne⟩
  · exact ⟨hnull, fun _ => rfl⟩

theorem sendfileRetry_within (file : MogFile) (count : Nat)
    (hnull : http.wbuf = .null) :
    (sendfileRetry fuel http file count).Within SendCall (Sent http) := by
  induction fuel with
  | zero => trivial
  | succ fuel ih =>
    refine within_ask_bind trivial fun answer => ?_
    split
    · split
      · dsimp only
        split
        · exact getDone_within _ _ hnull
        · exact ⟨hnull, fun _ => rfl⟩
      · exact getDone_within _ _ hnull
    · exact ⟨hnull, fun _ => rfl⟩
    · exact ih
    · exact getDone_within _ _ hnull

theorem mogHttpGetInProgress_within :
    (mogHttpGetInProgress fuel http).Within SendCall (Sent http) := by
  refine within_require_bind fun hnull => ?_
  have hnull : http.wbuf = .null := of_decide_eq_true hnull
  split
  · trivial
  · refine within_require_bind fun _ => ?_
    dsimp only
    split
    · exact getDone_within _ _ hnull
    · exact sendfileRetry_within _ _ _ _ hnull

/-! ### Reading a head -/

/-- The calls made while a head is read. -/
def InputCall : Call → Prop
  | .read _ => True
  | .note (.headParse _ _) => True
  | _ => False

/-- Reading a head fills the parsed fields, the offset and the read buffer. -/
structure SameOutput (http http' : Http) : Prop where
  wbuf : http'.wbuf = http.wbuf
  forward : http'.forward = http.forward
  skipRbufDefer : http'.skipRbufDefer = http.skipRbufDefer

theorem SameOutput.refl : SameOutput http http := ⟨rfl, rfl, rfl⟩

theorem SameOutput.trans (h : SameOutput a b) (h' : SameOutput b c) :
    SameOutput a c :=
  ⟨h'.wbuf.trans h.wbuf, h'.forward.trans h.forward, h'.skipRbufDefer.trans h.skipRbufDefer⟩

theorem mogHttpParse_sameOutput {http : Http} {buf : Bytes} {parsed : Parsed}
    (h : mogHttpParse http buf = some parsed) : SameOutput http parsed.http := by
  unfold mogHttpParse at h
  dsimp only at h
  split at h
  · split at h
    · split at h <;> cases h
      exact ⟨rfl, rfl, rfl⟩
    · split at h <;> cases h
      exact ⟨rfl, rfl, rfl⟩
    · cases h
      exact ⟨rfl, rfl, rfl⟩
    · cases h
      exact ⟨rfl, rfl, rfl⟩
    · cases h
    · cases h
  · cases h

theorem mogRbufGrow_within (cur : Rbuf) :
    (mogRbufGrow cur).Within S fun _ => True := by
  unfold mogRbufGrow
  split
  · trivial
  · refine within_require_bind fun _ => ?_
    split <;> trivial

theorem queueParse_within (rbuf : Rbuf) :
    (queueParse http rbuf).Within InputCall fun parse => SameOutput http parse.http := by
  refine within_ask_bind trivial fun _ => ?_
  split
  · trivial
  · rename_i parsed hparsed
    have hsame := mogHttpParse_sameOutput hparsed
    split
    · exact hsame
    · exact hsame
    · split
      · refine (mogRbufGrow_within _).bind fun grown _ => ?_
        split
        · exact hsame.trans ⟨rfl, rfl, rfl⟩
        · exact hsame.trans ⟨rfl, rfl, rfl⟩
      · exact hsame

theorem queueReread_within (rbuf : Rbuf)
    (hsame : SameOutput origin http) :
    (queueReread fuel http rbuf).Within InputCall fun input => SameOutput origin input.http := by
  induction fuel generalizing http rbuf with
  | zero => trivial
  | succ fuel ih =>
    refine within_ask_bind trivial fun answer => ?_
    split
    · split
      · exact hsame
      · refine (queueParse_within _ _).bind fun parse hparse => ?_
        split
        · exact hsame.trans hparse
        · exact ih _ _ (hsame.trans hparse)
    · split
      · exact hsame.trans ⟨rfl, rfl, rfl⟩
      · exact hsame
    · exact ih _ _ hsame
    · exact hsame

/-- **Reading a head only reads.** -/
theorem queueInput_within :
    (queueInput fuel http).Within InputCall fun input => SameOutput http input.http := by
  refine within_require_bind fun _ => ?_
  split
  · exact queueReread_within _ _ _ (SameOutput.refl _)
  · refine within_require_bind fun _ => ?_
    split
    · refine (queueParse_within _ _).bind fun parse hparse => ?_
      split
      · exact hparse
      · exact queueReread_within _ _ _ hparse
    · exact queueReread_within _ _ _ (SameOutput.refl _)

/-! ### Answering a request -/

/-- The calls of `http_process_client` after it has noted its request: it writes but never reads from
the socket, and does not send the body of a GET. -/
def ProcessCall : Call → Prop
  | .read _ => False
  | .write _ => False
  | .sendfile _ _ _ => False
  | .note (.response _ _ _ _ _) => True
  | .note (.chunkParse _ _) => True
  | .note (.commit _) => True
  | .note _ => False
  | _ => True

theorem ReplyCall.process (h : ReplyCall request) : ProcessCall request := by
  cases request with
  | note event => cases event <;> trivial
  | _ => trivial

theorem WriteCall.process (h : WriteCall fd request) :
    ProcessCall request := by
  cases request with
  | note event => cases event <;> trivial
  | _ => trivial

theorem DropCall.process (h : DropCall file request) :
    ProcessCall request := by
  cases request with
  | note event => exact h.elim
  | _ => trivial

/-- An answer leaves the request and the read buffer as they are. -/
structure SameInput (http http' : Http) : Prop where
  httpMethod : http'.httpMethod = http.httpMethod
  offset : http'.offset = http.offset
  rbuf : http'.rbuf = http.rbuf
  skipRbufDefer : http'.skipRbufDefer = http.skipRbufDefer

theorem SameInput.refl : SameInput http http := ⟨rfl, rfl, rfl, rfl⟩

theorem SameInput.trans (h : SameInput a b) (h' : SameInput b c) : SameInput a c :=
  ⟨h'.httpMethod.trans h.httpMethod, h'.offset.trans h.offset, h'.rbuf.trans h.rbuf,
    h'.skipRbufDefer.trans h.skipRbufDefer⟩

theorem mogHttpResp_process (status : Status) (alive : Bool) :
    (mogHttpResp fuel http status alive).Within ProcessCall fun http' => SameInput http http' := by
  refine (mogHttpResp_within fuel http status alive).mono ReplyCall.process fun http' h => ?_
  obtain ⟨wbuf, rfl⟩ := h
  exact ⟨rfl, rfl, rfl, rfl⟩

theorem mogHttpPath_within :
    (mogHttpPath http buf).Within S fun _ => True := by
  refine within_require_bind fun _ => ?_
  dsimp only
  split
  · trivial
  · split <;> trivial

theorem mogHttpDelete_process :
    (mogHttpDelete ctx fuel http buf).Within ProcessCall fun http' => SameInput http http' := by
  unfold mogHttpDelete
  split
  · exact mogHttpResp_process _ _ _ _
  · refine (mogHttpPath_within _ _).bind fun path _ => ?_
    split
    · exact mogHttpResp_process _ _ _ _
    · refine within_require_bind fun _ => ?_
      split
      · exact mogHttpResp_process _ _ _ _
      · refine within_ask_bind trivial fun answer => ?_
        split <;> exact mogHttpResp_process _ _ _ _

theorem mogHttpMkcol_process :
    (mogHttpMkcol ctx fuel http buf).Within ProcessCall fun http' => SameInput http http' := by
  unfold mogHttpMkcol
  split
  · exact mogHttpResp_process _ _ _ _
  · refine (mogHttpPath_within _ _).bind fun path _ => ?_
    split <;> exact mogHttpResp_process _ _ _ _

theorem applyRange_process (reply : RangeReply) :
    (applyRange http reply).Within ProcessCall fun http' => SameInput http http' := by
  unfold applyRange
  split
  · exact SameInput.refl _
  · exact ⟨rfl, rfl, rfl, rfl⟩
  · split
    · exact within_ask_bind trivial fun _ => ⟨rfl, rfl, rfl, rfl⟩
    · exact within_require_bind fun _ => SameInput.refl _

theorem httpGetRespHdr_process (size mtime : Int) :
    (httpGetRespHdr ctx fuel http size mtime).Within ProcessCall fun http' => SameInput http http' := by
  refine within_ask_bind trivial fun now => ?_
  split
  · trivial
  · refine (applyRange_process _ _).bind fun http' hrange => ?_
    refine within_require_bind fun _ => within_require_bind fun _ => ?_
    refine within_ask_bind trivial fun _ => ?_
    exact (mogTrysend_sure (fun _ => trivial) (fun _ _ => trivial) _ _ _ _).within.bind
      fun _ _ => hrange.trans ⟨rfl, rfl, rfl, rfl⟩

theorem getErr_process (errno : Errno) :
    (getErr fuel http errno).Within ProcessCall fun http' => SameInput http http' := by
  unfold getErr
  split <;> exact mogHttpResp_process _ _ _ _

theorem openExpireRetry_within {attempt : Io (Except Errno Fd)}
    (hexpire : S .fdmapExpire) (h : attempt.Within S fun _ => True) :
    (openExpireRetry attempt).Within S fun _ => True := by
  refine h.bind fun answer _ => ?_
  split
  · trivial
  · refine Within.bind (Q := fun _ => True) ?_ fun result _ => ?_
    · unfold mogOpenExpireRetry
      split
      · exact within_ask_bind hexpire fun _ => trivial
      · exact within_ask_bind hexpire fun _ => trivial
      · exact within_ask_bind hexpire fun _ => trivial
      · trivial
    · dsimp only
      split
      · exact h
      · trivial

theorem mogFileOpenRead_process (path : Bytes) :
    (mogFileOpenRead path).Within ProcessCall fun _ => True := by
  refine (openExpireRetry_within trivial (within_ask trivial fun _ => trivial)).bind fun answer _ => ?_
  split <;> trivial

theorem mogHttpGetOpen_process :
    (mogHttpGetOpen ctx fuel http buf).Within ProcessCall fun http' => SameInput http http' := by
  refine (mogHttpPath_within _ _).bind fun path _ => ?_
  split
  · exact mogHttpResp_process _ _ _ _
  · refine within_require_bind fun _ => within_require_bind fun _ => ?_
    split
    · exact httpGetRespHdr_process _ _ _ _ _
    · split
      · refine within_ask_bind trivial fun answer => ?_
        split
        · exact getErr_process _ _ _
        · split
          · exact httpGetRespHdr_process _ _ _ _ _
          · exact mogHttpResp_process _ _ _ _
      · refine (mogFileOpenRead_process _).bind fun answer _ => ?_
        split
        · exact getErr_process _ _ _
        · refine within_ask_bind trivial fun answer => ?_
          split
          · exact within_ask_bind trivial fun _ => getErr_process _ _ _
          · split
            · exact (httpGetRespHdr_process _ _ _ _ _).imp fun _ h => ⟨h.1, h.2, h.3, h.4⟩
            · exact within_ask_bind trivial fun _ => mogHttpResp_process _ _ _ _

theorem mkdirs_process (dirs : List Bytes) : (mkdirs dirs).Within ProcessCall fun _ => True := by
  induction dirs with
  | nil => trivial
  | cons dir dirs ih =>
    refine within_ask_bind trivial fun answer => ?_
    split
    · exact ih
    · exact ih
    · trivial

theorem mkpathOpenPut_process (path : Bytes) (flags : OpenFlags) :
    (mkpathOpenPut path flags).Within ProcessCall fun _ => True := by
  refine within_ask_bind trivial fun answer => ?_
  split
  · refine Within.bind (Q := fun _ => True) ?_ fun made _ => ?_
    · unfold mogMkpathFor
      split
      · exact mkdirs_process _
      · trivial
    · split
      · exact within_ask trivial fun _ => trivial
      · trivial
  · trivial

theorem mogFileOpenPut_process (path : Bytes) (flags : OpenFlags) :
    (mogFileOpenPut path flags).Within ProcessCall fun _ => True := by
  refine (openExpireRetry_within trivial (mkpathOpenPut_process _ _)).bind fun answer _ => ?_
  split <;> trivial

theorem openPut_process (path : Bytes) :
    (openPut ctx http path).Within ProcessCall fun _ => True := by
  have htmp : (openTmp ctx path).Within ProcessCall fun _ => True := by
    refine within_ask_bind trivial fun _ => (mogFileOpenPut_process _ _).bind fun answer _ => ?_
    split
    · trivial
    · refine within_ask_bind trivial fun _ => (mogFileOpenPut_process _ _).bind fun answer _ => ?_
      split <;> trivial
    · trivial
  have htarget : (openTarget ctx http path).Within ProcessCall fun _ => True := by
    unfold openTarget
    split
    · exact mogFileOpenPut_process _ _
    · exact htmp
  refine htarget.bind fun answer _ => ?_
  split <;> trivial

theorem fileCloseNull_process :
    (fileCloseNull http).Within ProcessCall fun http' => http' = { http with forward := none } := by
  cases hforward : http.forward with
  | none =>
    rw [fileCloseNull_none http hforward, ← hforward]
    exact within_ret rfl
  | some file => exact (fileCloseNull_within http hforward).mono DropCall.process fun _ => id

theorem stop_process (status : Option Status) :
    (stop fuel http status).Within ProcessCall fun result =>
      SameInput http result.1 ∧ result.1.forward = none ∧ result.2 = .close := by
  have hreply : (stopReply fuel http status).Within ProcessCall fun http' => SameInput http http' := by
    unfold stopReply
    split
    · exact mogHttpResp_process _ _ _ _
    · exact SameInput.refl _
  refine hreply.bind fun http' hsame => (fileCloseNull_process _).bind fun http'' hclosed => ?_
  subst hclosed
  exact ⟨⟨hsame.1, hsame.2, hsame.3, hsame.4⟩, rfl, rfl⟩

theorem setPermsCommit_process (file : MogFile) :
    (setPermsCommit file).Within ProcessCall fun _ => True := by
  refine within_ask_bind trivial fun answer => ?_
  split
  · trivial
  · split
    · trivial
    · split
      · trivial
      · refine within_ask_bind trivial fun answer => ?_
        split <;> trivial

theorem putCommitResp_process :
    (putCommitResp ctx fuel http).Within ProcessCall fun http' =>
      SameInput http http' ∧ http'.forward = none := by
  have hfinish : ∀ (file : Option MogFile) (status : Status) (alive : Bool),
      (fileCloseNull { http with forward := file } >>= fun http =>
        mogHttpResp fuel http status alive).Within ProcessCall fun http' =>
          SameInput http http' ∧ http'.forward = none := by
    intro file status alive
    refine (fileCloseNull_process _).bind fun http' hclosed => ?_
    subst hclosed
    refine (mogHttpResp_within _ _ _ _).mono ReplyCall.process fun http' h => ?_
    obtain ⟨wbuf, rfl⟩ := h
    exact ⟨⟨rfl, rfl, rfl, rfl⟩, rfl⟩
  refine within_ask_bind trivial fun _ => ?_
  split
  · trivial
  · split
    · refine (setPermsCommit_process _).bind fun result _ => ?_
      rcases result with ⟨ok, file⟩
      cases ok
      · exact hfinish _ _ _
      · exact hfinish _ _ _
    · exact hfinish http.forward _ _

theorem chunkedBodyAfterHeader_process (hfile : Uploads http file) :
    (chunkedBodyAfterHeader ctx fuel http buf).Within ProcessCall fun http' =>
      http'.httpMethod = http.httpMethod := by
  refine (mogChunkInit_within http).bind fun init hinit => ?_
  have hstart : SameClient http { init with offset := http.offset } :=
    hinit.trans (SameClient.of_fields (SameRequest.refl _) rfl rfl rfl)
  refine ((mogChunkParse_within _ _ _ (hstart.uploads hfile)).mono WriteCall.process
    fun _ => id).bind fun parsed hparsed => ?_
  have hmethod : parsed.http.httpMethod = http.httpMethod := (hstart.trans hparsed).request.httpMethod
  dsimp only
  split
  · exact (stop_process _ _ _).bind fun _ hstop => hstop.1.httpMethod.trans hmethod
  · refine within_require_bind fun _ => ?_
    split
    · exact within_require_bind fun _ => hmethod
    · exact within_require_bind fun _ => hmethod
    · refine within_require_bind fun _ => (stashAdvanceRbuf_within _ _).bind fun _ hstash => ?_
      exact hstash.request.httpMethod.trans hmethod
    · refine (putCommitResp_process _ _ _).bind fun _ hcommit => within_require_bind fun _ => ?_
      refine (stashAdvanceRbuf_within _ _).bind fun _ hstash => ?_
      exact (hstash.request.httpMethod.trans hcommit.1.httpMethod).trans hmethod

theorem identityBodyAfterHeader_process :
    (identityBodyAfterHeader fuel http buf).Within ProcessCall fun http' =>
      http'.httpMethod = http.httpMethod := by
  unfold identityBodyAfterHeader
  dsimp only
  split
  · exact within_ret rfl
  · split
    · trivial
    · refine ((mogHttpWriteFull_within _ _ _ _).mono WriteCall.process fun _ => id).bind
        fun result _ => ?_
      split
      · exact within_ret rfl
      · exact (stop_process _ _ _).bind fun _ hstop => hstop.1.httpMethod

theorem putErr_process :
    (putErr fuel http errno).Within ProcessCall fun http' => http'.httpMethod = http.httpMethod := by
  unfold putErr
  split
  · exact (mogHttpResp_process _ _ _ _).imp fun _ h => h.httpMethod
  · exact (mogHttpResp_process _ _ _ _).imp fun _ h => h.httpMethod
  · exact (mogHttpResp_process _ _ _ _).imp fun _ h => h.httpMethod
  · exact (stop_process _ _ _).bind fun _ hstop => hstop.1.httpMethod

theorem putBody_process
    (hfile : http.forward = some file) :
    (putBody ctx fuel http buf).Within ProcessCall fun http' =>
      http'.httpMethod = http.httpMethod := by
  unfold putBody
  split
  · split
    · exact (mogChunkInit_within _).bind fun _ hinit => hinit.request.httpMethod
    · exact within_ret rfl
  · refine within_require_bind fun _ => ?_
    split
    · exact chunkedBodyAfterHeader_process _ _ _ _ ⟨file, hfile, SameUpload.refl file⟩
    · exact identityBodyAfterHeader_process _ _ _

theorem mogHttpPut_process :
    (mogHttpPut ctx fuel http buf).Within ProcessCall fun http' =>
      http'.httpMethod = http.httpMethod := by
  unfold mogHttpPut
  split
  · exact (mogHttpResp_process _ _ _ _).imp fun _ h => h.httpMethod
  · refine (mogHttpPath_within _ _).bind fun path _ => ?_
    split
    · exact putErr_process _ _ _
    · refine within_require_bind fun _ => within_require_bind fun _ => ?_
      split
      · refine (openPut_process _ _ _).bind fun answer _ => ?_
        split
        · exact putErr_process _ _ _
        · exact putBody_process _ _ _ _ rfl
      · exact (stop_process _ _ _).bind fun _ hstop => hstop.1.httpMethod

/-- **A request is answered without reading from its socket.** -/
theorem processMethod_within :
    (processMethod ctx fuel http buf).Within ProcessCall fun http' =>
      http'.httpMethod = http.httpMethod := by
  unfold processMethod
  split
  · trivial
  · exact (mogHttpGetOpen_process _ _ _ _).imp fun _ h => h.httpMethod
  · exact (mogHttpGetOpen_process _ _ _ _).imp fun _ h => h.httpMethod
  · exact (mogHttpDelete_process _ _ _ _).imp fun _ h => h.httpMethod
  · exact (mogHttpMkcol_process _ _ _ _).imp fun _ h => h.httpMethod
  · exact mogHttpPut_process _ _ _ _

/-! ### The end of an upload -/

/-- The calls of a step after its request was handed over. -/
def AfterCall : Call → Prop
  | .note (.headParse _ _) => False
  | .note (.handed _ _) => False
  | .note (.stepped _ _) => False
  | .note (.closed _) => False
  | _ => True

theorem ProcessCall.after (h : ProcessCall request) : AfterCall request := by
  cases request with
  | note event => cases event <;> trivial
  | _ => trivial

theorem BodyCall.after (h : BodyCall fd request) : AfterCall request := by
  cases request with
  | note event => cases event <;> trivial
  | _ => trivial

theorem SendCall.after (h : SendCall request) : AfterCall request := by
  cases request with
  | note event => cases event <;> trivial
  | _ => trivial

/-- A client that waits for input has an upload under way, or nothing to be written. -/
def HttpWaits (result : Http × Next) : Prop :=
  result.2 = .waitRd → result.1.forward = none → result.1.wbuf = .null

theorem HttpWaits.of_next {result : Http × Next} (h : result.2 ≠ .waitRd) : HttpWaits result :=
  fun hwaits => absurd hwaits h

theorem putFinish_within (exit : PutExit) :
    (putFinish ctx fuel exit).Within AfterCall fun result =>
      (result.1.forward ≠ none → result.1.httpMethod = exit.http.httpMethod) ∧
        (exit.http.forward ≠ none → HttpWaits result) := by
  have hstop : ∀ http status, (stop fuel http status).Within AfterCall fun result =>
      (result.1.forward ≠ none → result.1.httpMethod = http.httpMethod) ∧
        (http.forward ≠ none → HttpWaits result) := fun http status =>
    (stop_process fuel http status).mono ProcessCall.after fun _ h =>
      ⟨fun _ => h.1.httpMethod, fun _ => .of_next (by rw [h.2.2]; exact nofun)⟩
  cases exit with
  | waitRd http => exact within_ret ⟨fun _ => rfl, fun hsome _ hnone => absurd hnone hsome⟩
  | stop http => exact hstop http none
  | writeErr http errno defaultMsg => exact hstop http _
  | commit http =>
    refine ((putCommitResp_process ctx fuel http).mono ProcessCall.after fun _ => id).bind
      fun http' hcommit => ?_
    have hdone : http'.forward ≠ none → http'.httpMethod = http.httpMethod :=
      fun _ => hcommit.1.httpMethod
    split
    · exact ⟨hdone, fun _ => .of_next nofun⟩
    · exact ⟨hdone, fun _ => .of_next nofun⟩
    · split
      · exact within_ask_bind trivial fun _ => within_ret ⟨fun hne => absurd rfl hne, fun _ => .of_next nofun⟩
      · exact ⟨hdone, fun _ => .of_next nofun⟩

theorem httpDeferRbuf_within :
    (httpDeferRbuf http buf).Within S fun http' =>
      http'.toFields = http.toFields ∧ http'.wbuf = http.wbuf ∧ http'.forward = http.forward := by
  unfold httpDeferRbuf
  split
  · exact ⟨rfl, rfl, rfl⟩
  · refine within_require_bind fun _ => ?_
    dsimp only
    split
    · exact ⟨rfl, rfl, rfl⟩
    · exact ⟨rfl, rfl, rfl⟩

/-! ### A whole step -/

/-- The calls before the end of a step. -/
def StepCall : Call → Prop
  | .note (.stepped _ _) => False
  | .note (.closed _) => False
  | _ => True

theorem AfterCall.step (request : Call) (h : AfterCall request) : StepCall request := by
  cases request with
  | note event => cases event <;> trivial
  | _ => trivial

theorem InputCall.step (request : Call) (h : InputCall request) : StepCall request := by
  cases request with
  | note event => cases event <;> trivial
  | _ => trivial

theorem FlushCall.step (request : Call) (h : FlushCall request) : StepCall request := by
  cases request with
  | note event => cases event <;> trivial
  | _ => trivial

theorem mogHttpReset_step : (mogHttpReset http).Within StepCall fun _ => True :=
  within_ask_bind trivial fun _ => trivial

theorem httpForwardInProgress_step (hsome : http.forward ≠ none) :
    (httpForwardInProgress ctx fuel http).Within StepCall HttpWaits := by
  refine within_ask_bind trivial fun _ => ?_
  split
  · exact (mogHttpGetInProgress_within fuel http).mono
      (fun request h => AfterCall.step request (SendCall.after request h)) fun _ hsent _ _ => hsent.1
  · refine within_require_bind fun _ => ?_
    obtain ⟨file, hfile⟩ := Option.ne_none_iff_exists'.mp hsome
    refine ((putInProgress_within fuel http hfile).mono
      (fun request h => AfterCall.step request (BodyCall.after request h)) fun _ => id).bind fun exit hexit => ?_
    refine (putFinish_within ctx fuel exit).mono AfterCall.step fun _ hfinish => hfinish.2 fun hnone => ?_
    have hrel := hexit.forward
    rw [hfile, hnone] at hrel
    cases hrel

theorem httpWbufInProgress_step :
    (httpWbufInProgress fuel http).Within StepCall HttpWaits := by
  refine within_ask_bind trivial fun _ => ?_
  split
  · trivial
  · trivial
  · refine ((mogTryflush_within fuel _ _).mono FlushCall.step fun _ => id).bind ?_
    rintro ⟨state, wbuf⟩ -
    cases state with
    | err => exact HttpWaits.of_next nofun
    | busy => exact HttpWaits.of_next nofun
    | done =>
      show Within StepCall (flushDone _) _
      unfold flushDone
      split
      · split
        · exact (mogHttpReset_step _).bind fun _ _ => HttpWaits.of_next nofun
        · exact within_require_bind fun _ => HttpWaits.of_next nofun
      · exact HttpWaits.of_next nofun

theorem queueDone_step :
    (queueDone ctx fuel http buf).Within StepCall HttpWaits := by
  refine Within.bind (Q := fun _ => True) (within_ask_bind trivial fun _ => ?_) fun http' _ => ?_
  · exact (processMethod_within ctx fuel http buf).mono
      (fun request h => AfterCall.step request (ProcessCall.after request h)) fun _ _ => trivial
  · split
    · exact HttpWaits.of_next nofun
    · exact (httpDeferRbuf_within _ _).bind fun _ _ => HttpWaits.of_next nofun
    · split
      · rename_i hsome
        refine (httpDeferRbuf_within _ _).bind fun http'' hdefer => ?_
        exact httpForwardInProgress_step ctx fuel http'' (by rw [hdefer.2.2]; exact hsome)
      · split
        · exact (httpDeferRbuf_within _ _).bind fun _ _ =>
            (mogHttpReset_step _).bind fun _ _ => HttpWaits.of_next nofun
        · exact HttpWaits.of_next nofun

/-- **A step neither ends nor closes its connection before it returns**, and does not wait for input with a
response pending. -/
theorem httpQueueStep_step :
    (httpQueueStep ctx fuel http).Within StepCall HttpWaits := by
  have herr : ∀ http status, (queueErr fuel http status).Within StepCall HttpWaits := fun http status =>
    ((mogHttpResp_process fuel http status false).mono
      (fun request h => AfterCall.step request (ProcessCall.after request h)) fun _ => id).bind
      fun _ _ => HttpWaits.of_next nofun
  unfold httpQueueStep
  split
  · exact httpWbufInProgress_step fuel http
  · rename_i hnull
    split
    · exact httpForwardInProgress_step ctx fuel http ‹_›
    · refine ((queueInput_within fuel http).mono InputCall.step fun _ => id).bind fun input hinput => ?_
      cases input with
      | bad http' errno => exact herr _ _
      | tooLong http' => exact herr _ _
      | request http' buf => exact queueDone_step ctx fuel http' buf
      | blocked http' => exact fun _ _ => hinput.wbuf.trans (not_not.mp hnull)
      | gone http' => exact HttpWaits.of_next nofun

end Cmogstored
