import Cmogstored.HttpParser
import Cmogstored.File

/-! `chunk_parser.rl`: chunk headers and trailers. The machine is scanned like the head's, up to the
point where `chunk_data` is entered; that action writes to the file and is a program of its own. -/

namespace Cmogstored

open Prog Scan

/-! ### The machine -/

inductive ChunkAct where
  | keep
  | sizeDigit
  | chunkStateData
  | chunkData
  | chunkStateDone
  | lineEnd
  | tmpTip
  | decode
  | ignoreLine
  | md5Err
  | reject
  deriving DecidableEq, Repr

def trailerNameText : Bytes := ascii "content-md5:"

def trailerNameNext (seen : Bytes) (c : Byte) (onError : ChunkAct) : ChunkAct × ChunkCs :=
  let seen := seen ++ [toLower c]
  if seen == trailerNameText then (.keep, .md5 (.sep .blank))
  else if seen.isPrefixOf trailerNameText then (.keep, .name seen)
  else (onError, .error)

def trailersNext (c : Byte) (onError : ChunkAct) : ChunkAct × ChunkCs :=
  if c == CR then (.keep, .blankLf) else trailerNameNext [] c onError

def md5ChunkNext (at_ : Md5Cs) (c : Byte) : ChunkAct × ChunkCs :=
  let cs := match (md5Next at_ c).2 with
    | .inside at_ => ChunkCs.md5 at_
    | .nextLine => .trailersAfterMd5
  match (md5Next at_ c).1 with
  | .keep => (.keep, cs)
  | .lineEnd => (.lineEnd, cs)
  | .tmpTip => (.tmpTip, cs)
  | .decode => (.decode, cs)
  | .ignoreLine => (.ignoreLine, .error)
  | .md5Err => (.md5Err, .error)

def ignoredChunkNext (at_ : IgnoredCs) (c : Byte) : ChunkAct × ChunkCs :=
  match ignoredNext at_ c with
  | .inside at_ => (.keep, .ignored at_)
  | .folded => (.lineEnd, .ignored .foldStart)
  | .nextLine => (.lineEnd, .trailers)
  | .error => (.reject, .error)

def chunkNext : ChunkCs → Byte → ChunkAct × ChunkCs
  | .main, c =>
    if c == CR then (.keep, .mainLf)
    else if isXdigit c then (.sizeDigit, .sizeDigits)
    else (.reject, .error)
  | .mainLf, c => if c == LF then (.keep, .sizeStart) else (.reject, .error)
  | .sizeStart, c => if isXdigit c then (.sizeDigit, .sizeDigits) else (.reject, .error)
  | .sizeDigits, c =>
    if isXdigit c then (.sizeDigit, .sizeDigits)
    else if c == LF then (.reject, .error)
    else if c == CR then (.keep, .sizeLf)
    else (.keep, .extension)
  | .extension, c =>
    if c == LF then (.reject, .error)
    else if c == CR then (.keep, .sizeLf)
    else (.keep, .extension)
  | .sizeLf, c => if c == LF then (.chunkStateData, .data) else (.reject, .error)
  -- `chunk_data` always leaves this state itself
  | .data, _ => (.chunkData, .data)
  | .trailers, c => trailersNext c .ignoreLine
  | .trailersAfterMd5, c => trailersNext c .md5Err
  | .blankLf, c => if c == LF then (.chunkStateDone, .data) else (.reject, .error)
  | .name seen, c => trailerNameNext seen c .ignoreLine
  | .md5 at_, c => md5ChunkNext at_ c
  | .ignored at_, c => ignoredChunkNext at_ c
  | .error, _ => (.reject, .error)

/-! ### The actions -/

/-- `hexchar2off`, on the digits the machine lets through. -/
def hexchar2off (xdigit : Byte) : Nat :=
  if 48 ≤ xdigit && xdigit ≤ 57 then xdigit.toNat - 48
  else if 97 ≤ xdigit && xdigit ≤ 102 then xdigit.toNat - 97 + 10
  else xdigit.toNat - 65 + 10

inductive ChunkHalt where
  | data
  | done
  | invalid (errno : Errno)
  | reject
  deriving DecidableEq, Repr

/-- One byte of a chunk header or of the trailers. -/
def chunkStep (buf : Bytes) (http : Fields) (p : Nat) (c : Byte) : Move Fields ChunkHalt :=
  let (act, cs) := chunkNext http.chunkCs c
  let go (http : Fields) : Move Fields ChunkHalt := .goto { http with chunkCs := cs } (p + 1)
  let ignored : Fields := { http with chunkCs := .ignored .nameStart }
  let ignoreLine : Move Fields ChunkHalt :=
    if http.lineEnd = 0 then .goto ignored 1
    -- past the end of the buffer either the assertion fails or the machine reads on behind it
    else if buf[http.lineEnd]? = some LF ∧ http.lineEnd + 1 < buf.length then
      .goto ignored (http.lineEnd + 2)
    else .fail
  match act with
  | .keep => go http
  | .sizeDigit =>
    let next := wrap64 (http.contentLen * 16 + hexchar2off c)
    if next < http.contentLen then
      .halt { http with chunkCs := cs, contentLen := -1 } (p + 1) (.invalid .ERANGE)
    else go { http with contentLen := next }
  | .chunkStateData => go { http with chunkState := .data }
  | .chunkData => .halt http p .data
  | .chunkStateDone =>
    match toU16 p with
    | some lineEnd =>
      .halt { http with chunkState := .done, lineEnd := lineEnd, chunkCs := cs } (p + 1) .done
    | none => .fail
  | .lineEnd =>
    match toU16 p with
    | some lineEnd => go { http with lineEnd := lineEnd }
    | none => .fail
  | .tmpTip =>
    match toU16 p with
    | some tip => go { http with tmpTip := tip }
    | none => .fail
  | .decode =>
    match toU16 p, base64Decode ((buf.take p).drop http.tmpTip) with
    | some _, some out =>
      if http.tmpTip ≤ p ∧ 16 ≤ out.length then
        go { http with expectMd5 := out.take 16, hasExpectMd5 := true }
      else .fail
    | _, _ => .fail
  | .ignoreLine => ignoreLine
  | .md5Err =>
    if http.hasExpectMd5 then ignoreLine
    else .halt { http with chunkCs := .error } (p + 1) (.invalid .EINVAL)
  | .reject => .halt { http with chunkCs := .error } p .reject

/-- How `chunk_data` leaves: to another state at a position, or out of the parser, `done` when
`really_done` is set. -/
inductive DataNext where
  | goto (http : Http) (p : Nat)
  | out (http : Http) (p : Nat) (done : Bool)

/-- The entering action of `chunk_data` at position `p`, with the `errno` it leaves. -/
def chunkData (fuel : Nat) (buf : Bytes) (http : Http) (p : Nat) (errno : Option Errno) :
    Io (DataNext × Option Errno) :=
  if http.contentLen = 0 then do
    -- the final chunk: `p` steps back to the `LF` of its size line, if that is in this buffer
    let http := { http with chunkState := .trailer, chunkCs := .trailers }
    if p = 0 then pure (.goto http 0, errno)
    else do
      require (buf[p - 1]? == some LF && p - 1 ≤ 65535)
      pure (.goto { http with lineEnd := p - 1 } p, errno)
  else do
    require (0 < http.contentLen && p < buf.length)
    let wrLen := min http.contentLen.toNat (buf.length - p)
    match http.forward with
    | none => abort
    | some file => do
      let (ok, errno, file) ← mogHttpWriteFull fuel file ((buf.drop p).take wrLen) errno
      let http := { http with forward := some file }
      if ok then
        let http := { http with contentLen := http.contentLen - wrLen }
        if 0 < http.contentLen then pure (.out http (p + wrLen) true, errno)
        else
          pure (.goto { http with chunkState := .size, chunkCs := .main } (p + wrLen), errno)
      else pure (.out http (p + 1) false, errno)

/-! ### `mog_chunk_init` and `mog_chunk_parse` -/

def mogChunkInit (http : Http) : Io Http := do
  require http.chunked
  pure { http with chunkCs := .main, lineEnd := 0, contentLen := 0, offset := 0, chunkState := .size }

/-- The end of `mog_chunk_parse`: `cs` is `first_final` where the machine can stop. -/
def chunkParsed (buf : Bytes) (http : Http) (p : Nat) (errno : Option Errno) : Io Parsed :=
  let http := { http with offset := p }
  if http.chunkCs = .error ∨ errno ≠ none then
    pure { state := .error, errno := errno, http := http }
  else do
    require (p ≤ buf.length)
    pure { state := if http.chunkCs = .data then .done else .continue, errno := errno, http := http }

/-- The machine from position `p` on; each of the `rounds` enters `chunk_data` at most once. -/
def chunkExec (fuel : Nat) (buf : Bytes) : Nat → Http → Nat → Option Errno → Io Parsed
  | 0, _, _, _ => stuck
  | rounds + 1, http, p, errno =>
    match exec chunkStep buf (lineFuel buf.length) http.toFields p with
    | .more fields p => chunkParsed buf { http with toFields := fields } p errno
    | .halted fields p .done => chunkParsed buf { http with toFields := fields } p errno
    | .halted fields p (.invalid errno) =>
      chunkParsed buf { http with toFields := fields } p (some errno)
    | .halted fields p .reject => chunkParsed buf { http with toFields := fields } p errno
    | .halted fields p .data => do
      match ← chunkData fuel buf { http with toFields := fields } p errno with
      | (.goto http p, errno) => chunkExec fuel buf rounds http p errno
      | (.out http p done, errno) =>
        chunkParsed buf (if done then { http with chunkCs := .data } else http) p errno
    | .failed => abort
    | .stuck => stuck

def mogChunkParse (fuel : Nat) (http : Http) (buf : Bytes) : Io Parsed := do
  note (.chunkParse http buf)
  require (http.wbuf = .null && http.offset ≤ buf.length)
  chunkExec fuel buf (buf.length + 1) http http.offset none

end Cmogstored
