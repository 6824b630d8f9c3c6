import Cmogstored.HttpReply
import Cmogstored.ChunkParser

/-! `http_put.c`: an upload goes to a temporary file next to its destination and is renamed there
when the body is complete and its digest, if one was announced, agrees. -/

namespace Cmogstored

open Prog

/-! ### Ends of an upload -/

/-- Removes the temporary file if it still has its name; a failure is only logged. -/
def unlinkTmp (file : MogFile) : Io Unit :=
  match file.tmppath with
  | none => pure ()
  | some tmppath => do
    let _ ← sys (.unlink tmppath)
    pure ()

/-- `file_close_null`: drops the upload. -/
def fileCloseNull (http : Http) : Io Http :=
  match http.forward with
  | none => pure http
  | some file => do
    unlinkTmp file
    mogFileClose file
    pure { http with forward := none }

/-- The answer of `stop0`, which may be none. -/
def stopReply (fuel : Nat) (http : Http) : Option Status → Io Http
  | some status => mogHttpResp fuel http status false
  | none => pure http

/-- `stop0` -/
def stop (fuel : Nat) (http : Http) (status : Option Status) : Io (Http × Next) := do
  let http ← stopReply fuel http status
  let http ← fileCloseNull http
  pure (http, .close)

/-- The status `write_err` chooses. -/
def writeErrStatus (errno : Option Errno) (defaultMsg : Option Status) : Status :=
  match errno with
  | some .ERANGE => .insufficientStorage
  | some .ENOSPC => .insufficientStorage
  | some .EFBIG => .insufficientStorage
  | _ => defaultMsg.getD .internalServerError

def writeErr (fuel : Nat) (http : Http) (errno : Option Errno) (defaultMsg : Option Status) :
    Io (Http × Next) :=
  stop fuel http (some (writeErrStatus errno defaultMsg))

/-- `md5_ok` of the file being written: an upload without a digest context passes. -/
def md5Ok (ctx : Ctx) (http : Http) (file : MogFile) : Bool :=
  match file.digest with
  | none => true
  | some hashed => http.expectMd5 == ctx.md5 hashed

/-- `set_perms_commit`: the file made readable and renamed to its destination. -/
def setPermsCommit (file : MogFile) : Io (Bool × MogFile) := do
  match ← sys (.fchmod file.fd) with
  | .error _ => pure (false, file)
  | .ok _ =>
    match file.tmppath with
    | none => pure (true, file)
    | some tmppath =>
      match file.path with
      | none => abort
      | some path =>
        match ← sys (.rename tmppath path) with
        | .ok _ => pure (true, { file with tmppath := none })
        | .error _ => pure (false, file)

def putCommitResp (ctx : Ctx) (fuel : Nat) (http : Http) : Io Http := do
  note (.commit http)
  match http.forward with
  | none => abort
  | some file =>
    if md5Ok ctx http file then do
      let (ok, file) ← setPermsCommit file
      let http ← fileCloseNull { http with forward := some file }
      if ok then mogHttpResp fuel http .created true
      else mogHttpResp fuel http .internalServerError false
    else do
      let http ← fileCloseNull http
      mogHttpResp fuel http .badRequest true

def httpPutCommit (ctx : Ctx) (fuel : Nat) (http : Http) : Io (Http × Next) := do
  let http ← putCommitResp ctx fuel http
  match http.wbuf with
  | .pending _ _ => pure (http, .waitWr)
  | .error => pure (http, .close)
  | .null =>
    if http.persistent then do
      let http ← mogHttpReset http
      pure (http, .active)
    else pure (http, .close)

/-! ### The body that came with the head -/

/-- `stash_advance_rbuf`: keeps what follows the last complete line of `buf`. -/
def stashAdvanceRbuf (http : Http) (buf : Bytes) : Io Http :=
  let end_ := http.lineEnd + 1
  if http.lineEnd = 0 ∨ buf.length ≤ end_ then pure { http with offset := 0, rbuf := none }
  else do
    require (buf[http.lineEnd]? == some LF)
    require (buf.length ≤ MOG_RBUF_MAX_SIZE && end_ ≤ http.offset)
    let rcapa := match http.rbuf with
      | some rbuf => rbuf.rcapa
      | none => MOG_RBUF_BASE_SIZE
    pure { http with
      rbuf := some { rcapa := rcapa, data := buf.drop end_ }
      offset := http.offset - end_
      tmpTip := if end_ ≤ http.tmpTip then http.tmpTip - end_ else http.tmpTip
      lineEnd := 0 }

def chunkedBodyAfterHeader (ctx : Ctx) (fuel : Nat) (http : Http) (buf : Bytes) : Io Http := do
  let init ← mogChunkInit http
  let parsed ← mogChunkParse fuel { init with offset := http.offset } buf
  let http := parsed.http
  match parsed.state with
  | .error => do
    let (http, _) ← writeErr fuel http parsed.errno (some .badRequest)
    pure http
  | state => do
    require (state != .continue || http.chunkState != .done)
    match http.chunkState with
    | .size => do
      require (http.offset = buf.length)
      pure http
    | .data => do
      require (http.offset = buf.length)
      pure http
    | .trailer => do
      require (0 < http.offset)
      let http ← stashAdvanceRbuf http buf
      pure { http with skipRbufDefer := true }
    | .done => do
      let http ← putCommitResp ctx fuel http
      require (0 < http.offset)
      let http ← stashAdvanceRbuf http buf
      pure { http with skipRbufDefer := true }

def identityBodyAfterHeader (fuel : Nat) (http : Http) (buf : Bytes) : Io Http :=
  let bodyLen := min http.contentLen.toNat (buf.length - http.offset)
  if bodyLen = 0 then pure http
  else
    match http.forward with
    | none => abort
    | some file => do
      let (ok, errno, file) ←
        mogHttpWriteFull fuel file ((buf.drop http.offset).take bodyLen) none
      let http := { http with offset := http.offset + bodyLen, forward := some file }
      if ok then pure http
      else do
        let (http, _) ← writeErr fuel http errno none
        pure http

/-! ### `mog_http_put` -/

def lengthsOk (http : Http) : Bool :=
  if http.contentLen < 0 then false
  else if http.hasContentRange then
    if http.chunked then false
    else if http.rangeEnd < 0 ∨ http.rangeBeg < 0 then false
    else if http.rangeEnd < http.rangeBeg then false
    else http.contentLen == wrap64 (http.rangeEnd - http.rangeBeg + 1)
  else true

/-- The last `digits` hexadecimal digits of a number, as `%08x` prints them. -/
def hexDigits : Nat → Nat → Bytes
  | 0, _ => []
  | digits + 1, n =>
    let digit := n % 16
    hexDigits digits (n / 16) ++ [UInt8.ofNat (if digit < 10 then 48 + digit else 87 + digit)]

/-- `tmppath_for` with the random number drawn. -/
def tmppathFor (ctx : Ctx) (path : Bytes) (result : UInt32) : Bytes :=
  path ++ ascii "." ++ hexDigits 8 result.toNat ++ ascii "." ++ decimalPid ctx.pid ++ ascii ".tmp"
where
  decimalPid (pid : Nat) : Bytes := ascii (Nat.repr pid)

/-- A temporary file for `path`, tried under a second name if the first one is taken. -/
def openTmp (ctx : Ctx) (path : Bytes) : Io (Except Errno MogFile) := do
  let tmp := tmppathFor ctx path (← sys .random)
  match ← mogFileOpenPut tmp .exclTruncCreate with
  | .ok file => pure (.ok { file with tmppath := some tmp })
  | .error .EEXIST => do
    let tmp := tmppathFor ctx path (← sys .random)
    match ← mogFileOpenPut tmp .exclTruncCreate with
    | .ok file => pure (.ok { file with tmppath := some tmp })
    | .error errno => pure (.error errno)
  | .error errno => pure (.error errno)

/-- A partial upload goes to its destination at once, since it cannot be renamed there. -/
def openTarget (ctx : Ctx) (http : Http) (path : Bytes) : Io (Except Errno MogFile) :=
  if http.hasContentRange then mogFileOpenPut path .create else openTmp ctx path

def openPut (ctx : Ctx) (http : Http) (path : Bytes) : Io (Except Errno MogFile) := do
  match ← openTarget ctx http path with
  | .error errno => pure (.error errno)
  | .ok file =>
    pure (.ok { file with
      path := some path
      foff := if http.hasContentRange then http.rangeBeg else file.foff
      digest := if http.hasTrailerMd5 || http.hasExpectMd5 then some [] else none })

/-- The `err` label of `mog_http_put`. -/
def putErr (fuel : Nat) (http : Http) (errno : Option Errno) : Io Http :=
  match errno with
  | some .EINVAL => mogHttpResp fuel http .badRequest false
  | some .ENOENT => mogHttpResp fuel http .notFound false
  | some .EACCES => mogHttpResp fuel http .forbidden false
  | errno => do
    let (http, _) ← writeErr fuel http errno none
    pure http

/-- The part of `mog_http_put` after the file is open. -/
def putBody (ctx : Ctx) (fuel : Nat) (http : Http) (buf : Bytes) : Io Http :=
  if buf.length = http.offset then
    if http.chunked then do
      let http ← mogChunkInit { http with rbuf := none }
      pure { http with offset := buf.length }
    else pure http
  else do
    require (http.offset < buf.length && 0 < http.offset)
    if http.chunked then chunkedBodyAfterHeader ctx fuel http buf
    else identityBodyAfterHeader fuel http buf

def mogHttpPut (ctx : Ctx) (fuel : Nat) (http : Http) (buf : Bytes) : Io Http :=
  if ctx.fdType = .httpget then mogHttpResp fuel http .methodNotAllowed false
  else do
    match ← mogHttpPath http buf with
    | .error errno => putErr fuel http errno
    | .ok path => do
      require (http.forward = none)
      require (path[0]? == some 47)
      if lengthsOk http then do
        match ← openPut ctx http path with
        | .error errno => putErr fuel http (some errno)
        | .ok file => putBody ctx fuel { http with forward := some file } buf
      else do
        let (http, _) ← writeErr fuel http none (some .badRequest)
        pure http

/-! ### The body read from the socket

The two loops end in one of four ways; `putFinish` is what the code does there. -/

/-- The exits of `identity_put_in_progress` and `chunked_put_in_progress`. -/
inductive PutExit where
  | waitRd (http : Http)
  /-- the client is gone: `stop(http, NULL)` -/
  | stop (http : Http)
  | writeErr (http : Http) (errno : Option Errno) (defaultMsg : Option Status)
  | commit (http : Http)

def PutExit.http : PutExit → Http
  | waitRd http => http
  | stop http => http
  | writeErr http _ _ => http
  | commit http => http

def putFinish (ctx : Ctx) (fuel : Nat) : PutExit → Io (Http × Next)
  | .waitRd http => pure (http, .waitRd)
  | .stop http => stop fuel http none
  | .writeErr http errno defaultMsg => writeErr fuel http errno defaultMsg
  | .commit http => httpPutCommit ctx fuel http

/-- The `again` loop of `identity_put_in_progress`; `bufLen` only shrinks. -/
def identityAgain : Nat → Http → MogFile → Int → Nat → Io PutExit
  | 0, _, _, _, _ => stuck
  | fuel + 1, http, file, need, bufLen => do
    require (0 < need)
    let bufLen := min need.toNat bufLen
    match ← sys (.read bufLen) with
    | .ok data =>
      if data.val.length = 0 then pure (.stop http)
      else do
        let (ok, errno, file) ← mogHttpWriteFull fuel file data.val none
        let http := { http with forward := some file }
        if ok then
          let need := need - data.val.length
          if need = 0 then pure (.commit http) else identityAgain fuel http file need bufLen
        else pure (.writeErr http errno none)
    | .error .EAGAIN => pure (.waitRd http)
    | .error .EINTR => identityAgain fuel http file need bufLen
    | .error _ => pure (.stop http)

def identityPutInProgress (fuel : Nat) (http : Http) : Io PutExit := do
  require (http.wbuf = .null)
  match http.forward with
  | none => abort
  | some file =>
    let need := wrap64 (http.contentLen - file.foff)
    let need := if http.hasContentRange then wrap64 (need + http.rangeBeg) else need
    if need = 0 then pure (.commit http) else identityAgain fuel http file need fsbufSize

/-- `do { r = read(...) } while (r < 0 && errno == EINTR)` -/
def readRetry : Nat → (count : Nat) → Io (Except Errno { data : Bytes // data.length ≤ count })
  | 0, _ => stuck
  | fuel + 1, count => do
    match ← sys (.read count) with
    | .error .EINTR => readRetry fuel count
    | answer => pure answer

/-- The `read_err` label: `none` is a read of zero bytes. -/
def readErr (http : Http) : Option Errno → PutExit
  | some .EAGAIN => .waitRd http
  | _ => .stop http

/-- How one round of `chunked_put_in_progress` ends: `goto again`, or an exit. -/
inductive Round where
  | again (http : Http)
  | out (exit : PutExit)

/-- The `MOG_CHUNK_STATE_DATA` case with bytes of the chunk left to read. -/
def chunkedRead (fuel : Nat) (http : Http) (file : MogFile) : Io Round := do
  require (0 < http.contentLen)
  match ← readRetry fuel (min http.contentLen.toNat fsbufSize) with
  | .error errno => pure (.out (readErr http (some errno)))
  | .ok data =>
    if data.val.length = 0 then pure (.out (readErr http none))
    else do
      let (ok, errno, file) ← mogHttpWriteFull fuel file data.val none
      let http := { http with forward := some file }
      if ok then
        let http := { http with contentLen := http.contentLen - data.val.length }
        if http.contentLen = 0 then do
          let http ← mogChunkInit http
          pure (.again http)
        else pure (.again http)
      else pure (.out (.writeErr http errno none))

/-- What follows a successful `mog_chunk_parse` in `chunked_put_in_progress`. -/
def chunkedParsed (inTrailer : Bool) (http : Http) (buf : Bytes) : Io Round :=
  match http.chunkState with
  | .size => do
    require (!inTrailer)
    pure (.again { http with rbuf := none, offset := 0 })
  | .data => do
    require (!inTrailer)
    pure (.again { http with rbuf := none })
  | .trailer => do
    let http ← stashAdvanceRbuf http buf
    pure (.again http)
  | .done => do
    let http ← stashAdvanceRbuf http buf
    -- a request that follows the trailers is at the start of the buffer
    require (http.rbuf.all fun rbuf => 0 < rbuf.data.length && http.offset = 0)
    pure (.out (.commit http))

/-- The `MOG_CHUNK_STATE_TRAILER` and `MOG_CHUNK_STATE_SIZE` cases: more of a chunk header or of the
trailers is read behind what the read buffer already holds. -/
def chunkedLine (fuel : Nat) (inTrailer : Bool) (http : Http) : Io Round := do
  let rbuf := http.rbuf.getD { rcapa := MOG_RBUF_BASE_SIZE, data := [] }
  match ← readRetry fuel (rbuf.rcapa - rbuf.data.length) with
  | .error errno => pure (.out (readErr http (some errno)))
  | .ok data =>
    if data.val.length = 0 then pure (.out (readErr http none))
    else do
      let buf := rbuf.data ++ data.val
      let parsed ← mogChunkParse fuel http buf
      match parsed.state with
      | .error => pure (.out (.writeErr parsed.http parsed.errno (some .badRequest)))
      | state => do
        require (state != .continue || parsed.http.chunkState != .done)
        chunkedParsed inTrailer parsed.http buf

/-- The final chunk was seen: what follows are trailers. -/
def startTrailer (http : Http) : Http := { http with chunkState := .trailer, offset := 0 }

/-- One round of `chunked_put_in_progress`. -/
def chunkedRound (fuel : Nat) (inTrailer : Bool) (http : Http) : Io Round := do
  require (http.wbuf = .null)
  match http.forward with
  | none => abort
  | some file =>
    match http.chunkState with
    | .data => do
      require (http.rbuf = none)
      if http.contentLen = 0 then
        chunkedLine fuel true (startTrailer http)
      else chunkedRead fuel http file
    | .trailer => chunkedLine fuel true http
    | .size => chunkedLine fuel inTrailer http
    | .done => abort

/-- `chunked_put_in_progress`; once a trailer was read, `in_trailer` stays set. -/
def chunkedPutInProgress : Nat → Bool → Http → Io PutExit
  | 0, _, _ => stuck
  | fuel + 1, inTrailer, http => do
    match ← chunkedRound fuel inTrailer http with
    | .out exit => pure exit
    | .again after =>
      chunkedPutInProgress fuel (inTrailer || http.chunkState == .trailer ||
        (http.chunkState == .data && http.contentLen == 0)) after

def putInProgress (fuel : Nat) (http : Http) : Io PutExit :=
  if http.chunked then chunkedPutInProgress fuel false http else identityPutInProgress fuel http

def mogHttpPutInProgress (ctx : Ctx) (fuel : Nat) (http : Http) : Io (Http × Next) := do
  let exit ← putInProgress fuel http
  putFinish ctx fuel exit

end Cmogstored
