import Cmogstored.TryWrite
import Cmogstored.HttpCommon

/-! Paths, short answers, and the methods that need nothing else: `valid_path.rl`,
`valid_put_path.rl`, `mog_http_path` and `mog_http_resp0` of `http.c`, and `http_dav.c`. -/

namespace Cmogstored

open Prog

/-! ### Paths -/

/-- `path_traversal_found`: two dots in a row. -/
def pathTraversalFound : Bytes → Bool
  | a :: b :: rest => (a == 46 && b == 46) || pathTraversalFound (b :: rest)
  | _ => false

/-- `mog_valid_path`; 38 is `sizeof("/dev16777215/0/000/000/0123456789.fid")`. -/
def mogValidPath (path : Bytes) : Bool := path.length < 38 && !pathTraversalFound path

/-- The states of `valid_put_path`: the rest of `/dev`, its digits, the slashes, and anything. -/
inductive PutPathCs where
  | word (rest : Bytes)
  | digitStart
  | digits
  | slashes
  | rest
  | error
  deriving DecidableEq, Repr

def putPathNext : PutPathCs → Byte → PutPathCs
  | .word [], _ => .error
  | .word (expected :: rest), c =>
    if c == expected then (if rest.isEmpty then .digitStart else .word rest) else .error
  | .digitStart, c => if isDigit c then .digits else .error
  | .digits, c => if isDigit c then .digits else if c == 47 then .slashes else .error
  | .slashes, c => if c == 47 then .slashes else .rest
  | .rest, _ => .rest
  | .error, _ => .error

/-- `mog_valid_put_path`: any state but the error state will do. -/
def mogValidPutPath (path : Bytes) : Bool :=
  match path.getLast? with
  | none => false
  | some c => c != 47 && path.foldl putPathNext (.word (ascii "/dev")) != .error

/-- `mog_http_path`: the path or the `errno` it leaves, which only a bad `PUT` path sets. -/
def mogHttpPath (http : Http) (buf : Bytes) : Io (Except (Option Errno) Bytes) := do
  require (http.pathTip < http.pathEnd)
  let path := (buf.take http.pathEnd).drop http.pathTip
  if !mogValidPath path then pure (.error none)
  else if http.httpMethod = .put && !mogValidPutPath path then pure (.error (some .EINVAL))
  else pure (.ok path)

/-! ### `mog_http_resp0` -/

def respHead (status : Status) (date : HttpDate) (keepAlive : Bool) : Bytes :=
  ascii "HTTP/1.1 " ++ ascii status.text ++ ascii "\r\nStatus: " ++ ascii status.text ++
    ascii "\r\nDate: " ++ date.val ++ ascii "\r\nContent-Length: 0\r\nContent-Type: text/plain" ++
    (if keepAlive then ascii "\r\nConnection: keep-alive\r\n\r\n"
      else ascii "\r\nConnection: close\r\n\r\n")

def mogHttpResp (fuel : Nat) (http : Http) (status : Status) (alive : Bool) : Io Http := do
  let date ← sys .now
  let keepAlive := alive && http.persistent
  let http := http.setPersistent keepAlive
  require (http.wbuf = .null)
  note (.response status keepAlive (respHead status date keepAlive) 0 0)
  let wbuf ← mogTrywritev fuel [respHead status date keepAlive]
  pure { http with wbuf := wbuf }

def mogHttpReset (http : Http) : Io Http := do
  note (.reset http)
  pure (mogHttpResetParser http)

/-! ### `http_dav.c` -/

def mogHttpDelete (ctx : Ctx) (fuel : Nat) (http : Http) (buf : Bytes) : Io Http :=
  if ctx.fdType = .httpget then mogHttpResp fuel http .methodNotAllowed true
  else do
    match ← mogHttpPath http buf with
    | .error _ => mogHttpResp fuel http .forbidden true
    | .ok path =>
      require (path[0]? == some 47)
      if path.length = 1 then mogHttpResp fuel http .forbidden true
      else do
        match ← sys (.unlink path) with
        | .ok _ => mogHttpResp fuel http .noContent true
        | .error .EPERM => mogHttpResp fuel http .forbidden true
        | .error .EISDIR => mogHttpResp fuel http .forbidden true
        | .error .EACCES => mogHttpResp fuel http .forbidden true
        | .error .ENOENT => mogHttpResp fuel http .notFound true
        | .error _ => mogHttpResp fuel http .internalServerError true

def mogHttpMkcol (ctx : Ctx) (fuel : Nat) (http : Http) (buf : Bytes) : Io Http :=
  if ctx.fdType = .httpget then mogHttpResp fuel http .methodNotAllowed true
  else do
    match ← mogHttpPath http buf with
    | .ok _ => mogHttpResp fuel http .badRequest true
    | .error _ => mogHttpResp fuel http .forbidden true

end Cmogstored
