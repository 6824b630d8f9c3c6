import Cmogstored.HttpReply
import Cmogstored.File

/-! `http_get.c`: GET and HEAD. The head goes out first; the body follows from `sendfile` as long as
`http->forward` holds the file. -/

namespace Cmogstored

open Prog

/-! ### The response head -/

/-- What `http_get_resp_hdr` decides from the range fields and the size of the file. -/
inductive RangeReply where
  | ok
  | partialContent (offset count rangeEnd : Int)
  | bad
  deriving DecidableEq, Repr

/-- The range checks of `http_get_resp_hdr`; `none` is a failed assertion. -/
def rangeReply (http : Http) (size : Int) : Option RangeReply :=
  if !http.hasRange then some .ok
  else if http.rangeEnd < 0 ∧ http.rangeBeg < 0 then some .bad
  else if http.rangeBeg ≥ size then some .bad
  else if http.rangeBeg ≥ 0 ∧ http.rangeEnd ≥ 0 ∧ http.rangeBeg > http.rangeEnd then some .bad
  else
    let checked (offset count rangeEnd : Int) : Option RangeReply :=
      if count > 0 ∧ offset ≥ 0 then some (.partialContent offset count rangeEnd) else none
    if http.rangeEnd < 0 then
      if http.rangeBeg ≥ 0 then checked http.rangeBeg (size - http.rangeBeg) http.rangeEnd else none
    else if http.rangeBeg < 0 then
      if http.rangeEnd ≥ 0 then
        let offset := size - http.rangeEnd
        if offset < 0 then some .ok else checked offset (size - offset) http.rangeEnd
      else none
    else if http.rangeBeg ≥ 0 ∧ http.rangeEnd ≥ 0 then
      let rangeEnd := if http.rangeEnd ≥ size then size - 1 else http.rangeEnd
      checked http.rangeBeg (rangeEnd + 1 - http.rangeBeg) rangeEnd
    else none

/-- A partial reply stays inside the file. -/
theorem rangeReply_partial {http : Http} {size offset count rangeEnd : Int}
    (h : rangeReply http size = some (.partialContent offset count rangeEnd)) :
    0 ≤ offset ∧ 0 < count ∧ offset + count ≤ size ∧ (rangeEnd = http.rangeEnd ∨ rangeEnd = size - 1) := by
  simp only [rangeReply, ite_eq_iff, Option.some.injEq, RangeReply.partialContent.injEq, reduceCtorEq, and_false,
    or_false, false_or] at h
  omega

/-- The whole file is the answer to a suffix that is longer. -/
theorem rangeReply_ok {http : Http} {size : Int} (hrange : http.hasRange = true)
    (h : rangeReply http size = some .ok) : size < http.rangeEnd := by
  simp only [rangeReply, hrange, Bool.not_true, Bool.false_eq_true, if_false, ite_eq_iff, Option.some.injEq,
    reduceCtorEq, and_false, or_false, false_or, and_true] at h
  omega

/-- `%lld` of a number that is not negative. -/
def decimal (n : Int) : Bytes := ascii (Nat.repr n.toNat)

def connectionText (keepAlive : Bool) : Bytes := ascii (if keepAlive then "keep-alive" else "close")

def getHead (reply : RangeReply) (now modified : HttpDate) (size : Int) (keepAlive : Bool) : Bytes :=
  match reply with
  | .ok =>
    ascii "HTTP/1.1 200 OK\r\nStatus: 200 OK\r\nDate: " ++ now.val ++
      ascii "\r\nLast-Modified: " ++ modified.val ++
      ascii "\r\nContent-Length: " ++ decimal size ++
      ascii "\r\nContent-Type: application/octet-stream\r\nAccept-Ranges: bytes\r\nConnection: " ++
      connectionText keepAlive ++ ascii "\r\n\r\n"
  | .partialContent offset count _ =>
    ascii "HTTP/1.1 206 Partial Content\r\nStatus: 206 Partial Content\r\nDate: " ++ now.val ++
      ascii "\r\nLast-Modified: " ++ modified.val ++
      ascii "\r\nContent-Length: " ++ decimal count ++
      ascii "\r\nContent-Type: application/octet-stream\r\nContent-Range: bytes " ++
      decimal offset ++ ascii "-" ++ decimal (offset + count - 1) ++ ascii "/" ++ decimal size ++
      ascii "\r\nConnection: " ++ connectionText keepAlive ++ ascii "\r\n\r\n"
  | .bad =>
    ascii "HTTP/1.1 416 Requested Range Not Satisfiable\r\n" ++
      ascii "Status: 416 Requested Range Not Satisfiable\r\nDate: " ++ now.val ++
      ascii "\r\nContent-Length: 0\r\nContent-Type: text/plain\r\nContent-Range: bytes */" ++
      decimal size ++ ascii "\r\nConnection: " ++ connectionText keepAlive ++ ascii "\r\n\r\n"

def RangeReply.status : RangeReply → Status
  | ok => .ok
  | partialContent _ _ _ => .partialContent
  | bad => .rangeNotSatisfiable

def RangeReply.offset : RangeReply → Int
  | ok => 0
  | partialContent offset _ _ => offset
  | bad => 0

def RangeReply.count (size : Int) : RangeReply → Int
  | ok => size
  | partialContent _ count _ => count
  | bad => 0

/-- What the reply does to the client before its head is sent: a partial reply narrows the window of
the open file, a refused one closes the file. -/
def applyRange (http : Http) : RangeReply → Io Http
  | .ok => pure http
  | .partialContent offset count rangeEnd =>
    pure { http with
      rangeEnd := rangeEnd
      forward := http.forward.map fun file => { file with foff := offset, fsize := offset + count } }
  | .bad =>
    match http.forward with
    | some file => do
      mogFileClose file
      pure { http with forward := none }
    | none => do
      require (http.httpMethod = .head)
      pure http

def httpGetRespHdr (ctx : Ctx) (fuel : Nat) (http : Http) (size : Int) (mtime : Int) : Io Http := do
  let now ← sys .now
  match rangeReply http size with
  | none => abort
  | some reply => do
    let http ← applyRange http reply
    let head := getHead reply now (ctx.httpDate mtime) size http.persistent
    require (0 < head.length && head.length < fsbufSize)
    require (http.wbuf = .null)
    let count := if http.httpMethod = .head then 0 else reply.count size
    note (.response reply.status http.persistent head reply.offset count.toNat)
    let wbuf ← mogTrysend ctx fuel head count
    pure { http with wbuf := wbuf }

/-! ### `mog_http_get_open` -/

/-- The `err` label: an answer for an `errno`. -/
def getErr (fuel : Nat) (http : Http) : Errno → Io Http
  | .EACCES => mogHttpResp fuel http .forbidden true
  | .ENOENT => mogHttpResp fuel http .notFound true
  | _ => mogHttpResp fuel http .internalServerError true

/-- HEAD of a path other than `/`. -/
def headStat (ctx : Ctx) (fuel : Nat) (http : Http) (path : Bytes) : Io Http := do
  match ← sys (.stat path) with
  | .error errno => getErr fuel http errno
  | .ok sb =>
    if sb.isReg then httpGetRespHdr ctx fuel http sb.size.val sb.mtime
    else mogHttpResp fuel http .forbidden true

/-- GET of a path other than `/`. -/
def getFile (ctx : Ctx) (fuel : Nat) (http : Http) (path : Bytes) : Io Http := do
  match ← mogFileOpenRead path with
  | .error errno => getErr fuel http errno
  | .ok file => do
    match ← sys (.fstat file.fd) with
    | .error errno => do
      mogFileClose file
      getErr fuel http errno
    | .ok sb =>
      if sb.isReg then
        httpGetRespHdr ctx fuel { http with forward := some { file with fsize := sb.size.val } }
          sb.size.val sb.mtime
      else do
        mogFileClose file
        mogHttpResp fuel http .forbidden true

def mogHttpGetOpen (ctx : Ctx) (fuel : Nat) (http : Http) (buf : Bytes) : Io Http := do
  match ← mogHttpPath http buf with
  | .error _ => mogHttpResp fuel http .forbidden true
  | .ok path => do
    require (http.forward = none)
    require (path[0]? == some 47)
    -- the root is an empty document that no file stands for
    if path.length = 1 then httpGetRespHdr ctx fuel http 0 0
    else if http.httpMethod = .head then headStat ctx fuel http path
    else getFile ctx fuel http path

/-! ### `mog_http_get_in_progress` -/

def maxSendfile : Int := 1024 * 1024 * 100

/-- The `done` label. The file is closed but `forward` is only cleared by a reset. -/
def getDone (http : Http) (file : MogFile) : Io (Http × Next) := do
  mogFileClose file
  if http.persistent then do
    let http ← mogHttpReset http
    pure (http, .active)
  else pure (http, .close)

/-- The `retry` loop around `sendfile`. -/
def sendfileRetry : Nat → Http → MogFile → Nat → Io (Http × Next)
  | 0, _, _, _ => stuck
  | fuel + 1, http, file, count => do
    match ← sys (.sendfile file.fd file.foff count) with
    | .ok w =>
      if 0 < w.val then
        let file := { file with foff := wrap64 (file.foff + w.val) }
        let http := { http with forward := some file }
        if file.foff = file.fsize then getDone http file else pure (http, .active)
      -- the head promised more than the file has: the connection cannot be kept
      else getDone (http.setPersistent false) file
    | .error .EAGAIN => pure (http, .waitWr)
    | .error .EINTR => sendfileRetry fuel http file count
    | .error _ => getDone (http.setPersistent false) file

def mogHttpGetInProgress (fuel : Nat) (http : Http) : Io (Http × Next) := do
  require (http.wbuf = .null)
  match http.forward with
  | none => abort
  | some file => do
    require (0 ≤ file.fsize && 0 ≤ file.foff)
    let count := min (file.fsize - file.foff) maxSendfile
    if count = 0 then getDone http file
    else sendfileRetry fuel http file (count % 2 ^ 64).toNat

end Cmogstored
