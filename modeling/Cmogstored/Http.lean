import Cmogstored.HttpGet
import Cmogstored.HttpPut

/-! `http.c`: one connection. `mog_http_queue_step` is called whenever the connection is ready; it
reads and answers one request, or carries on with a blocked response or an unfinished body. `serve`
is the whole life of a connection: these calls, one after another, until one of them closes it. -/

namespace Cmogstored

open Prog

/-! ### Read buffers (`alloc.c`) -/

/-- The thread-local buffer as `mog_rbuf_get(MOG_RBUF_BASE_SIZE)` hands it out. -/
def mogRbufGet : Rbuf := { rcapa := MOG_RBUF_BASE_SIZE, data := [] }

/-- The size of a grown buffer: 500 bytes or so more. -/
def growSize (rsize : Nat) : Nat := min (rsize + 500) MOG_RBUF_MAX_SIZE

/-- `mog_rbuf_grow`; `none` when the buffer has its largest size already. -/
def mogRbufGrow (cur : Rbuf) : Io (Option Rbuf) :=
  if cur.data.length = MOG_RBUF_MAX_SIZE then pure none
  else do
    require (cur.data.length < MOG_RBUF_MAX_SIZE)
    if cur.rcapa < growSize cur.data.length then
      pure (some { cur with rcapa := growSize cur.data.length })
    else pure (some cur)

/-- `http_defer_rbuf`: keeps the bytes after the current request for the next round. -/
def httpDeferRbuf (http : Http) (buf : Bytes) : Io Http :=
  if http.skipRbufDefer then pure { http with skipRbufDefer := false }
  else do
    require (http.offset ≤ buf.length && buf.length - http.offset ≤ MOG_RBUF_MAX_SIZE)
    let defer := buf.drop http.offset
    if defer.length = 0 then pure { http with rbuf := none, offset := 0 }
    else
      let rcapa := match http.rbuf with
        | some old => old.rcapa
        | none => defer.length
      pure { http with rbuf := some { rcapa := rcapa, data := defer }, offset := 0 }

/-! ### One step -/

/-- The switch of `http_process_client`. -/
def processMethod (ctx : Ctx) (fuel : Nat) (http : Http) (buf : Bytes) : Io Http :=
  match http.httpMethod with
  | .none => abort
  | .get => mogHttpGetOpen ctx fuel http buf
  | .head => mogHttpGetOpen ctx fuel http buf
  | .delete => mogHttpDelete ctx fuel http buf
  | .mkcol => mogHttpMkcol ctx fuel http buf
  | .put => mogHttpPut ctx fuel http buf

def httpProcessClient (ctx : Ctx) (fuel : Nat) (http : Http) (buf : Bytes) : Io Http := do
  note (.handed http buf)
  processMethod ctx fuel http buf

/-- After a flush the next request is due, unless the body of this response is. -/
def flushDone (http : Http) : Io (Http × Next) :=
  if http.persistent then
    if http.forward = none then do
      let http ← mogHttpReset http
      pure (http, .active)
    else do
      require (http.offset = 0)
      pure (http, .active)
  else pure (http, .close)

def httpWbufInProgress (fuel : Nat) (http : Http) : Io (Http × Next) := do
  note (.flush http)
  match http.wbuf with
  | .null => abort
  | .error => abort
  | .pending buf off => do
    let (state, wbuf) ← mogTryflush fuel buf off
    let http := { http with wbuf := wbuf }
    match state with
    | .err => pure (http, .close)
    | .busy => pure (http, .waitWr)
    | .done => flushDone http

def httpForwardInProgress (ctx : Ctx) (fuel : Nat) (http : Http) : Io (Http × Next) := do
  note (.forward http)
  if http.httpMethod = .get then mogHttpGetInProgress fuel http
  else do
    require (http.httpMethod = .put)
    mogHttpPutInProgress ctx fuel http

/-- The `MOG_PARSER_DONE` case of `http_queue_step`. -/
def queueDone (ctx : Ctx) (fuel : Nat) (http : Http) (buf : Bytes) : Io (Http × Next) := do
  let http ← httpProcessClient ctx fuel http buf
  match http.wbuf with
  | .error => pure (http, .close)
  | .pending _ _ => do
    let http ← httpDeferRbuf http buf
    pure (http, .waitWr)
  | .null =>
    if http.forward ≠ none then do
      let http ← httpDeferRbuf http buf
      httpForwardInProgress ctx fuel http
    else if http.persistent then do
      let http ← httpDeferRbuf http buf
      let http ← mogHttpReset http
      pure (http, .active)
    else pure (http, .close)

/-- How the `reread` loop is left. -/
inductive Input where
  /-- the parser returned `MOG_PARSER_ERROR` -/
  | bad (http : Http) (errno : Option Errno)
  /-- the buffer cannot grow any further -/
  | tooLong (http : Http)
  | request (http : Http) (buf : Bytes)
  | blocked (http : Http)
  /-- end of file or a read error -/
  | gone (http : Http)

/-- One parse: an exit of the loop, or the buffer to read more into. -/
inductive Parse where
  | out (input : Input)
  | reread (http : Http) (rbuf : Rbuf)

/-- The `parse` label. `rbuf` holds the bytes read so far. -/
def queueParse (http : Http) (rbuf : Rbuf) : Io Parse := do
  note (.headParse http rbuf.data)
  match mogHttpParse http rbuf.data with
  | none => abort
  | some parsed =>
    match parsed.state with
    | .error => pure (.out (.bad parsed.http parsed.errno))
    | .done => pure (.out (.request parsed.http rbuf.data))
    | .continue =>
      if parsed.http.offset ≥ rbuf.rcapa then do
        match ← mogRbufGrow rbuf with
        | none => pure (.out (.tooLong { parsed.http with rbuf := none }))
        | some rbuf => pure (.reread { parsed.http with rbuf := some rbuf } rbuf)
      else pure (.reread parsed.http rbuf)

/-- The `reread` label. -/
def queueReread : Nat → Http → Rbuf → Io Input
  | 0, _, _ => stuck
  | fuel + 1, http, rbuf => do
    match ← sys (.read (rbuf.rcapa - http.offset)) with
    | .ok data =>
      if data.val.length = 0 then pure (.gone http)
      else do
        match ← queueParse http { rbuf with data := rbuf.data.take http.offset ++ data.val } with
        | .out input => pure input
        | .reread http rbuf => queueReread fuel http rbuf
    | .error .EAGAIN =>
      if 0 < rbuf.data.length then pure (.blocked { http with rbuf := some rbuf })
      else pure (.blocked http)
    | .error .EINTR => queueReread fuel http rbuf
    | .error _ => pure (.gone http)

/-- `http_queue_step` up to a complete head, starting with what an earlier step left in the buffer. -/
def queueInput (fuel : Nat) (http : Http) : Io Input := do
  let rbuf := http.rbuf.getD mogRbufGet
  require (http.offset < rbuf.rcapa)
  match http.rbuf with
  | none => queueReread fuel http rbuf
  | some _ => do
    require (http.offset ≤ rbuf.data.length && rbuf.data.length ≤ rbuf.rcapa)
    if http.offset < rbuf.data.length then do
      match ← queueParse http rbuf with
      | .out input => pure input
      | .reread http rbuf => queueReread fuel http rbuf
    else queueReread fuel http rbuf

/-- The labels `err507or400` and `err400`. -/
def queueErr (fuel : Nat) (http : Http) (status : Status) : Io (Http × Next) := do
  let http ← mogHttpResp fuel http status false
  pure (http, .close)

/-- What `http_queue_step` does with the input. -/
def queueFinish (ctx : Ctx) (fuel : Nat) : Input → Io (Http × Next)
  | .bad http errno =>
    queueErr fuel http (if errno = some .ERANGE then .insufficientStorage else .badRequest)
  | .tooLong http => queueErr fuel http .badRequest
  | .request http buf => queueDone ctx fuel http buf
  | .blocked http => pure (http, .waitRd)
  | .gone http => pure (http, .close)

def httpQueueStep (ctx : Ctx) (fuel : Nat) (http : Http) : Io (Http × Next) :=
  if http.wbuf ≠ .null then httpWbufInProgress fuel http
  else if http.forward ≠ none then httpForwardInProgress ctx fuel http
  else do
    let input ← queueInput fuel http
    queueFinish ctx fuel input

def httpClose (http : Http) : Io Unit := do
  require (http.wbuf = .null || http.wbuf = .error)
  note (.closed http)

def mogHttpQueueStep (ctx : Ctx) (fuel : Nat) (http : Http) : Io (Http × Next) := do
  let (http, next) ← httpQueueStep ctx fuel http
  note (.stepped next http)
  if next = .close then do
    httpClose http
    pure (http, next)
  else pure (http, next)

/-! ### A whole connection -/

/-- Steps until the connection is closed. -/
def serve (ctx : Ctx) : Nat → Http → Io Unit
  | 0, _ => stuck
  | fuel + 1, http => do
    let (http, next) ← mogHttpQueueStep ctx fuel http
    if next = .close then pure () else serve ctx fuel http

end Cmogstored
