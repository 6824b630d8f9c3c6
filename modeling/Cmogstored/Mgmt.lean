import Cmogstored.MgmtParser
import Cmogstored.TryWrite

/-! `mgmt.c`, `mgmt_fn.c` and `digest.c`: one management client. `mog_mgmt_queue_step` is called whenever
the client is ready; it reads and executes one command line, or carries on with a blocked reply or an
unfinished digest. What other threads decide, whether a digest may start now, is the answer of a call. -/

namespace Cmogstored

open Prog Scan

/-- `mgmt->forward`: null, `MOG_IOSTAT`, or the file of a digest. -/
inductive Forward where
  | none
  | iostat
  | file (file : MogFile)
  deriving DecidableEq, Repr

/-- `struct mog_mgmt`. A read buffer is its contents, its capacity is `MOG_RBUF_BASE_SIZE`. -/
structure Mgmt extends MgmtFields where
  forward : Forward
  offset : Nat
  rbuf : Option Bytes
  wbuf : Wbuf
  deriving DecidableEq, Repr

/-- `mog_mgmt_init`, called once after accept. -/
def mogMgmtInit : Mgmt where
  cs := .start
  mark0 := 0
  mark1 := 0
  alg := .md5
  prio := .none
  forward := .none
  offset := 0
  rbuf := none
  wbuf := .null

def mogMgmtResetParser (mgmt : Mgmt) : Mgmt := { mgmt with toMgmtFields := mgmt.toMgmtFields.reset }

inductive MgmtNext where
  | close | active | waitRd | waitWr | ignore
  deriving DecidableEq, Repr

/-! ### Calls -/

/-- A command with its arguments. -/
inductive Command where
  | blank
  | size (path : Bytes)
  | digest (alg : Alg) (prio : Prio) (path : Bytes)
  | watch
  | aioThreads (digits : Bytes)
  | shutdown
  | unknown (word : Bytes)
  deriving DecidableEq, Repr

/-- `command`, `reply`, `subscribing`, `stepped` and `closed` are no calls: they mark the points where the
parser has called the function of a command, `mog_mgmt_writev` is entered, the client is handed to
`mog_svc_devstats_subscribe`, `mgmt_queue_step` returns, and `mgmt_close` is past its assertion. -/
inductive MgmtCall where
  | sys (request : Call)
  /-- `read` from the file of a digest -/
  | readFile (fd : Fd)
  /-- `lseek(fd, 0, SEEK_CUR)` -/
  | lseek (fd : Fd)
  | fsckQueueReady (fd : Fd)
  | fsckQueueNext (fd : Fd)
  /-- `mog_ioprio_drop`: the priority before, or -1 if it is not changed -/
  | ioprioDrop
  | ioprioRestore (ioprio : Int)
  /-- `mog_notify(MOG_NOTIFY_DEVICE_REFRESH)` -/
  | notifyRefresh
  | devstatsSubscribe
  /-- `cmogstored_quit` -/
  | quit
  | setNThreads (nr : Nat)
  | command (command : Command)
  | reply (text : Bytes)
  | subscribing (mgmt : Mgmt)
  | stepped (next : MgmtNext) (mgmt : Mgmt)
  | closed (mgmt : Mgmt)
  deriving DecidableEq, Repr

@[reducible] def MgmtRes : MgmtCall → Type
  | .sys request => Res request
  | .readFile _ => Except Errno { data : Bytes // data.length ≤ fsbufSize }
  | .lseek _ => Int
  | .fsckQueueReady _ => Bool
  | .ioprioDrop => Int
  | _ => Unit

abbrev MgmtIo := Prog MgmtCall MgmtRes

abbrev MgmtRun := Prog.Trace MgmtCall MgmtRes

abbrev mgmtSys (request : MgmtCall) : MgmtIo (MgmtRes request) := Prog.ask request

/-- The calls of a part that management clients share with others. -/
abbrev shared {α : Type} (p : Io α) : MgmtIo α := p.embed MgmtCall.sys

/-- The digests of the hash library, by their length. -/
def Alg.hashlen : Alg → Nat
  | .md5 => 16
  | .sha1 => 20

/-- What the listener and the process fix for a management client. -/
structure MgmtCtx where
  /-- `svc->mgmt_fd >= 0` -/
  accepting : Bool
  hash : (alg : Alg) → Bytes → { digest : Bytes // digest.length = alg.hashlen }

/-- A service whose digests are all zero. -/
def zeroHashCtx : MgmtCtx where
  accepting := true
  hash alg _ := ⟨List.replicate alg.hashlen 0, List.length_replicate⟩

/-! ### Replies (`mgmt_fn.c`) -/

/-- `%lld` -/
def lld (n : Int) : Bytes :=
  if n < 0 then ascii "-" ++ ascii (Nat.repr n.natAbs) else ascii (Nat.repr n.natAbs)

/-- `mog_digest_hex` -/
def mogDigestHex (digest : Bytes) : Bytes :=
  digest.flatMap fun (b : Byte) => [hexDigit (b >>> 4), hexDigit (b &&& 0x0f)]
where
  hexDigit (nibble : Byte) : Byte := if nibble < 10 then 48 + nibble else 87 + nibble

def Alg.label : Alg → Bytes
  | .md5 => ascii " MD5="
  | .sha1 => ascii " SHA-1="

def mogMgmtWritev (fuel : Nat) (mgmt : Mgmt) (iov : List Bytes) : MgmtIo Mgmt := do
  require (mgmt.wbuf = .null)
  mgmtSys (.reply iov.flatten)
  let wbuf ← shared (mogTrywritev fuel iov)
  pure { mgmt with wbuf := wbuf }

/-- `get_path`: the path, or the client with an error reply. The byte behind the path that the source
overwrites with a NUL belongs to the line, which is consumed already. -/
def getPath (fuel : Nat) (mgmt : Mgmt) (buf : Bytes) : MgmtIo (Except Mgmt Bytes) :=
  if mogValidPath (mgmt.marked buf) then pure (.ok (mgmt.marked buf))
  else do
    let mgmt ← mogMgmtWritev fuel mgmt [ascii "ERROR: uri invalid (contains ..)\r\n"]
    pure (.error mgmt)

def mogMgmtFnDigest (fuel : Nat) (mgmt : Mgmt) (buf : Bytes) : MgmtIo Mgmt := do
  match ← getPath fuel mgmt buf with
  | .error mgmt => pure mgmt
  | .ok path =>
    match ← shared (mogFileOpenRead path) with
    | .ok file =>
      pure { mgmt with forward := .file { file with path := some path, digest := some [] } }
    | .error _ => mogMgmtWritev fuel mgmt [path, mgmt.alg.label ++ ascii "-1\r\n"]

def mogMgmtFnDigestErr (fuel : Nat) (mgmt : Mgmt) (file : MogFile) : MgmtIo Mgmt := do
  let offset ← mgmtSys (.lseek file.fd)
  mogMgmtWritev fuel mgmt
    [ascii "ERR read ", file.path.getD [], ascii " at " ++ lld offset ++ ascii " failed\r\n"]

def mogMgmtFnDigestEmit (ctx : MgmtCtx) (fuel : Nat) (mgmt : Mgmt) (file : MogFile) : MgmtIo Mgmt :=
  mogMgmtWritev fuel mgmt
    [file.path.getD [],
      mgmt.alg.label ++ mogDigestHex (ctx.hash mgmt.alg (file.digest.getD [])).val ++ ascii "\r\n"]

def mogMgmtFnSize (fuel : Nat) (mgmt : Mgmt) (buf : Bytes) : MgmtIo Mgmt := do
  match ← getPath fuel mgmt buf with
  | .error mgmt => pure mgmt
  | .ok path =>
    match ← mgmtSys (.sys (.stat path)) with
    | .ok sb => mogMgmtWritev fuel mgmt [path, ascii " " ++ lld sb.size.val ++ ascii "\r\n"]
    | .error _ => mogMgmtWritev fuel mgmt [path, ascii " -1\r\n"]

def mogMgmtFnBlank (fuel : Nat) (mgmt : Mgmt) : MgmtIo Mgmt :=
  mogMgmtWritev fuel mgmt [ascii "\r\n"]

def mogMgmtFnUnknown (fuel : Nat) (mgmt : Mgmt) (buf : Bytes) : MgmtIo Mgmt :=
  mogMgmtWritev fuel mgmt [ascii "ERROR: unknown command: ", mgmt.marked buf, ascii "\r\n"]

/-- `strtoull` of decimal digits -/
def strtoull (digits : Bytes) : Nat :=
  min (digits.foldl (fun n c => 10 * n + (c.toNat - 48)) 0) (2 ^ 64 - 1)

def mogMgmtFnAioThreads (fuel : Nat) (mgmt : Mgmt) (buf : Bytes) : MgmtIo Mgmt := do
  require (buf[mgmt.mark1]? = some LF || buf[mgmt.mark1]? = some CR)
  require ((mgmt.marked buf).all isDigit)
  let nr := strtoull (mgmt.marked buf)
  if 0 < nr && nr ≤ 100 then mgmtSys (.setNThreads nr)
  mogMgmtWritev fuel mgmt [ascii "\r\n"]

/-! ### `mog_mgmt_parse` -/

/-- What the function called at the end of a line gets. -/
def commandOf (fields : MgmtFields) (buf : Bytes) : MgmtFn → Command
  | .blank => .blank
  | .size => .size (fields.marked buf)
  | .digest => .digest fields.alg fields.prio (fields.marked buf)
  | .watch => .watch
  | .aioThreads => .aioThreads (fields.marked buf)
  | .shutdown => .shutdown
  | .unknown => .unknown (fields.marked buf)

/-- The action at the end of a line. -/
def mgmtAction (fuel : Nat) (mgmt : Mgmt) (buf : Bytes) : MgmtFn → MgmtIo Mgmt
  | .blank => mogMgmtFnBlank fuel mgmt
  | .size => mogMgmtFnSize fuel mgmt buf
  | .digest => mogMgmtFnDigest fuel mgmt buf
  | .watch => pure { mgmt with forward := .iostat }
  | .aioThreads => mogMgmtFnAioThreads fuel mgmt buf
  | .shutdown => do
    mgmtSys .quit
    pure mgmt
  | .unknown => mogMgmtFnUnknown fuel mgmt buf

def MgmtCs.parserState : MgmtCs → ParserState
  | .error => .error
  | .final => .done
  | _ => .continue

def mogMgmtParse (ctx : MgmtCtx) (fuel : Nat) (mgmt : Mgmt) (buf : Bytes) :
    MgmtIo (ParserState × Mgmt) := do
  require (mgmt.wbuf = .null)
  require (mgmt.offset ≤ buf.length)
  match mgmtExec ctx.accepting mgmt.toMgmtFields buf mgmt.offset with
  | .more fields pos =>
    pure (fields.cs.parserState, { mgmt with toMgmtFields := fields, offset := pos })
  | .halted fields pos .reject =>
    pure (.error, { mgmt with toMgmtFields := fields, offset := pos })
  | .halted fields pos (.call fn) => do
    mgmtSys (.command (commandOf fields buf fn))
    let mgmt ← mgmtAction fuel { mgmt with toMgmtFields := fields } buf fn
    pure (.done, { mgmt with cs := .final, offset := pos })
  | .failed => abort
  | .stuck => stuck

/-! ### Digests -/

inductive DigestNext where
  | continue | eof | error
  deriving DecidableEq, Repr

/-- The loop of `mog_digest_read`, with the rounds that are left. -/
def mogDigestRead : Nat → MogFile → MgmtIo (DigestNext × MogFile)
  | 0, file => pure (.continue, file)
  | rounds + 1, file => do
    match ← mgmtSys (.readFile file.fd) with
    | .ok data =>
      if 0 < data.val.length then
        mogDigestRead rounds { file with digest := file.digest.map (· ++ data.val) }
      else pure (.eof, file)
    | .error .EINTR => mogDigestRead rounds file
    | .error _ => pure (.error, file)

/-- `while (--i > 0)` from 1024 -/
def digestRounds : Nat := 1023

/-- The `do`-loop of `mgmt_digest_step` under `MOG_PRIO_FSCK`. -/
def digestWhole : Nat → MogFile → MgmtIo (DigestNext × MogFile)
  | 0, _ => stuck
  | fuel + 1, file => do
    match ← mogDigestRead digestRounds file with
    | (.continue, file) => digestWhole fuel file
    | done => pure done

def digestReadSome (fuel : Nat) (prio : Prio) (file : MogFile) : MgmtIo (DigestNext × MogFile) :=
  match prio with
  | .fsck => do
    let ioprio ← mgmtSys .ioprioDrop
    let digested ← digestWhole fuel file
    if ioprio ≠ -1 then mgmtSys (.ioprioRestore ioprio)
    pure digested
  | .none => mogDigestRead digestRounds file

/-- The end of `mgmt_digest_step`, after the reply. -/
def digestDone (mgmt : Mgmt) (file : MogFile) : MgmtIo Mgmt := do
  if mgmt.prio = .fsck then mgmtSys (.fsckQueueNext file.fd)
  shared (mogFileClose file)
  pure { mgmt with prio := .none, forward := .none }

def mgmtDigestStep (ctx : MgmtCtx) (fuel : Nat) (mgmt : Mgmt) (file : MogFile) : MgmtIo Mgmt := do
  let (next, file) ← digestReadSome fuel mgmt.prio file
  require (mgmt.wbuf = .null)
  match next with
  | .continue => pure { mgmt with forward := .file file }
  | .eof => do
    let mgmt ← mogMgmtFnDigestEmit ctx fuel mgmt file
    digestDone mgmt file
  | .error => do
    let mgmt ← mogMgmtFnDigestErr fuel mgmt file
    digestDone mgmt file

/-- `wbuf` as a digest step and a finished command return it. -/
def MgmtNext.ofWbuf : Wbuf → MgmtNext
  | .null => .active
  | .error => .close
  | .pending _ _ => .waitWr

def digestStepped (ctx : MgmtCtx) (fuel : Nat) (mgmt : Mgmt) (file : MogFile) :
    MgmtIo (Mgmt × MgmtNext) := do
  let mgmt ← mgmtDigestStep ctx fuel mgmt file
  pure (mgmt, .ofWbuf mgmt.wbuf)

def mgmtDigestInProgress (ctx : MgmtCtx) (fuel : Nat) (mgmt : Mgmt) : MgmtIo (Mgmt × MgmtNext) :=
  match mgmt.forward with
  | .none => abort
  | .iostat => abort
  | .file file =>
    match mgmt.prio with
    | .none => digestStepped ctx fuel mgmt file
    | .fsck => do
      if ← mgmtSys (.fsckQueueReady file.fd) then digestStepped ctx fuel mgmt file
      else pure (mgmt, .ignore)

/-! ### `mgmt_queue_step` -/

def mgmtIostatForever (mgmt : Mgmt) : MgmtIo (Mgmt × MgmtNext) := do
  let mgmt := { mgmt with rbuf := none }
  mgmtSys .notifyRefresh
  mgmtSys (.subscribing mgmt)
  mgmtSys .devstatsSubscribe
  pure (mgmt, .ignore)

def mgmtWbufInProgress (fuel : Nat) (mgmt : Mgmt) : MgmtIo (Mgmt × MgmtNext) :=
  match mgmt.wbuf with
  | .null => abort
  | .error => abort
  | .pending buf off => do
    let (state, wbuf) ← shared (mogTryflush fuel buf off)
    let mgmt := { mgmt with wbuf := wbuf }
    match state with
    | .err => pure (mgmt, .close)
    | .busy => pure (mgmt, .waitWr)
    | .done => if mgmt.forward = .iostat then mgmtIostatForever mgmt else pure (mgmt, .active)

/-- `mgmt_defer_rbuf`: keeps the bytes after the current line for the next round. -/
def mgmtDeferRbuf (mgmt : Mgmt) (buf : Bytes) : MgmtIo Mgmt := do
  require (mgmt.offset ≤ buf.length && buf.length - mgmt.offset ≤ MOG_RBUF_BASE_SIZE)
  let defer := buf.drop mgmt.offset
  if defer.length = 0 then pure { mgmt with rbuf := none, offset := 0 }
  else pure { mgmt with rbuf := some defer, offset := 0 }

/-- The `MOG_PARSER_DONE` case. -/
def mgmtDone (mgmt : Mgmt) (buf : Bytes) : MgmtIo (Mgmt × MgmtNext) :=
  if mgmt.forward = .iostat then mgmtIostatForever mgmt
  else do
    let mgmt ← mgmtDeferRbuf mgmt buf
    let mgmt := mogMgmtResetParser mgmt
    require (mgmt.wbuf ≠ .error)
    pure (mgmt, .ofWbuf mgmt.wbuf)

/-- One parse: the end of the step, or the buffer to read more into. -/
inductive MgmtParse where
  | out (mgmt : Mgmt) (next : MgmtNext)
  | reread (mgmt : Mgmt) (buf : Bytes)

/-- The `parse` label. -/
def mgmtParseBuf (ctx : MgmtCtx) (fuel : Nat) (mgmt : Mgmt) (buf : Bytes) : MgmtIo MgmtParse := do
  let (state, mgmt) ← mogMgmtParse ctx fuel mgmt buf
  if mgmt.wbuf = .error then pure (.out mgmt .close)
  else
    match state with
    | .error => pure (.out mgmt .close)
    | .continue => do
      require (mgmt.wbuf = .null)
      if mgmt.offset = MOG_RBUF_BASE_SIZE then do
        require (buf.length = MOG_RBUF_BASE_SIZE)
        pure (.out mgmt .close)
      else pure (.reread mgmt buf)
    | .done => do
      let (mgmt, next) ← mgmtDone mgmt buf
      pure (.out mgmt next)

/-- The `reread` label; `buf` holds the bytes of the unfinished line. -/
def mgmtReread (ctx : MgmtCtx) : Nat → Mgmt → Bytes → MgmtIo (Mgmt × MgmtNext)
  | 0, _, _ => stuck
  | fuel + 1, mgmt, buf => do
    match ← mgmtSys (.sys (.read (MOG_RBUF_BASE_SIZE - mgmt.offset))) with
    | .ok data =>
      if data.val.length = 0 then pure (mgmt, .close)
      else do
        match ← mgmtParseBuf ctx fuel mgmt (buf.take mgmt.offset ++ data.val) with
        | .out mgmt next => pure (mgmt, next)
        | .reread mgmt buf => mgmtReread ctx fuel mgmt buf
    | .error .EAGAIN =>
      -- the thread's own buffer is handed over to the client
      if 0 < buf.length then pure ({ mgmt with rbuf := some buf }, .waitRd)
      else pure (mgmt, .waitRd)
    | .error .EINTR => mgmtReread ctx fuel mgmt buf
    | .error _ => pure (mgmt, .close)

def mgmtInput (ctx : MgmtCtx) (fuel : Nat) (mgmt : Mgmt) : MgmtIo (Mgmt × MgmtNext) := do
  require (mgmt.offset < MOG_RBUF_BASE_SIZE)
  match mgmt.rbuf with
  | none => mgmtReread ctx fuel mgmt []
  | some data =>
    if mgmt.offset = 0 then do
      match ← mgmtParseBuf ctx fuel mgmt data with
      | .out mgmt next => pure (mgmt, next)
      | .reread mgmt buf => mgmtReread ctx fuel mgmt buf
    else mgmtReread ctx fuel mgmt data

def mgmtQueueStep (ctx : MgmtCtx) (fuel : Nat) (mgmt : Mgmt) : MgmtIo (Mgmt × MgmtNext) :=
  if mgmt.wbuf ≠ .null then mgmtWbufInProgress fuel mgmt
  else if mgmt.forward ≠ .none then mgmtDigestInProgress ctx fuel mgmt
  else mgmtInput ctx fuel mgmt

def mgmtClose (mgmt : Mgmt) : MgmtIo Unit := do
  require (mgmt.wbuf = .null || mgmt.wbuf = .error)
  mgmtSys (.closed mgmt)

def mogMgmtQueueStep (ctx : MgmtCtx) (fuel : Nat) (mgmt : Mgmt) : MgmtIo (Mgmt × MgmtNext) := do
  let (mgmt, next) ← mgmtQueueStep ctx fuel mgmt
  mgmtSys (.stepped next mgmt)
  if next = .close then do
    mgmtClose mgmt
    pure (mgmt, next)
  else pure (mgmt, next)

/-- Steps until the client is closed or has become a watcher. A client that may not start its digest yet
is stepped again when the fsck queue lets it go. -/
def mgmtServe (ctx : MgmtCtx) : Nat → Mgmt → MgmtIo Unit
  | 0, _ => stuck
  | fuel + 1, mgmt => do
    let (mgmt, next) ← mogMgmtQueueStep ctx fuel mgmt
    if next = .close || (next = .ignore && mgmt.forward = .iostat) then pure ()
    else mgmtServe ctx fuel mgmt

end Cmogstored
