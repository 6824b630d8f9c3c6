import Cmogstored.HttpCommon

/-! `http_parser.rl`: the head of a request. -/

namespace Cmogstored

open Scan

/-! ### The machine -/

/-- The actions of `http_parser.rl`. -/
inductive HeadAct where
  | keep
  | method (method : Method)
  | pathTip
  | pathEnd
  | persistent (value : Bool)
  | lineEnd
  | contentLen
  | contentRangeBeg
  | contentRangeEnd
  | hasContentRange
  | rangeInit
  | rangeBeg
  | rangeEnd
  | hasRange
  | chunked
  | hasTrailerMd5
  | tmpTip
  | decode
  | reallyDone
  -- the `$!` actions
  | ignoreLine
  | md5Err
  | invalid
  -- no transition: the machine enters its error state
  | reject
  deriving DecidableEq, Repr

/-- The field names of `header_line`, in lower case and with their colon. -/
def fieldNames : List (Bytes × HttpCs) :=
  [(ascii "connection:", .sep .connection .blank),
   (ascii "content-length:", .sep .contentLength .blank),
   (ascii "content-md5:", .md5 (.sep .blank)),
   (ascii "content-range:", .sep .contentRange .blank),
   (ascii "range:", .sep .range .blank),
   (ascii "trailer:", .sep .trailer .blank),
   (ascii "transfer-encoding:", .sep .transferEncoding .blank)]

/-- One more byte of a field name, compared without regard to case. -/
def nameNext (seen : Bytes) (c : Byte) (onError : HeadAct) : HeadAct × HttpCs :=
  let seen := seen ++ [toLower c]
  match fieldNames.find? fun entry => entry.1 == seen with
  | some entry => (.keep, entry.2)
  | none =>
    if fieldNames.any fun entry => seen.isPrefixOf entry.1 then (.keep, .name seen)
    else (onError, .error)

/-- The first byte of a header line. `onError` is the `$!` action in force there. -/
def headersNext (c : Byte) (onError : HeadAct) : HeadAct × HttpCs :=
  if c == CR then (.keep, .blankLf) else nameNext [] c onError

/-- The first byte of a field's value. -/
def valueNext : Field → Byte → HeadAct × HttpCs
  | .connection, c =>
    if toLower c == 99 then (.keep, .connectionValue false (ascii "lose"))
    else if toLower c == 107 then (.keep, .connectionValue true (ascii "eep-alive"))
    else (.ignoreLine, .error)
  | .contentLength, c => if isDigit c then (.contentLen, .lengthDigits) else (.invalid, .error)
  | .contentRange, c =>
    if c == 98 then (.keep, .contentRangeUnit (ascii "ytes")) else (.ignoreLine, .error)
  | .range, c => if c == 98 then (.rangeInit, .rangeUnit (ascii "ytes=")) else (.invalid, .error)
  | .transferEncoding, c =>
    if toLower c == 99 then (.keep, .chunkedValue (ascii "hunked")) else (.ignoreLine, .error)
  | .trailer, c =>
    if c == 44 then (.keep, .eor)
    else if toLower c == 99 then (.keep, .trailerMd5 (ascii "ontent-md5"))
    else if isNameChar c then (.keep, .trailerName)
    else (.ignoreLine, .error)

def sepNext (field : Field) : SepCs → Byte → HeadAct × HttpCs
  | .blank, c =>
    if isLws c then (.keep, .sep field .blank)
    else if c == CR then (.keep, .sep field .cr)
    else valueNext field c
  | .cr, c => if c == LF then (.lineEnd, .sep field .lf) else (.ignoreLine, .error)
  | .lf, c => if isLws c then (.keep, .sep field .fold) else (.ignoreLine, .error)
  | .fold, c => if isLws c then (.keep, .sep field .fold) else valueNext field c

/-- `eor` after a value, whose first byte may carry the action `act`. -/
def eorNext (c : Byte) (act onError : HeadAct) : HeadAct × HttpCs :=
  if isLws c then (act, .eor)
  else if c == CR then (act, .eorLf)
  else (onError, .error)

/-- A letter of a fixed word: `c` must be the head of `rest`. -/
def wordNext (rest : Bytes) (c : Byte) (more : Bytes → HttpCs) (last : HeadAct × HttpCs)
    (onError : HeadAct) : HeadAct × HttpCs :=
  match rest with
  | [] => (onError, .error)
  | expected :: rest =>
    if c == expected then (if rest.isEmpty then last else (.keep, more rest)) else (onError, .error)

/-- A letter of `Content-MD5` in a `Trailer` value; a name that departs from it is still a name. -/
def trailerMd5Next (rest : Bytes) (c : Byte) : HeadAct × HttpCs :=
  match rest with
  | [] => (.keep, .trailerName)
  | expected :: rest =>
    if toLower c == expected then
      if rest.isEmpty then (.hasTrailerMd5, .trailerName) else (.keep, .trailerMd5 rest)
    else (.keep, .trailerName)

def md5HeadNext (at_ : Md5Cs) (c : Byte) : HeadAct × HttpCs :=
  let cs := match (md5Next at_ c).2 with
    | .inside at_ => HttpCs.md5 at_
    | .nextLine => .headersAfterMd5
  match (md5Next at_ c).1 with
  | .keep => (.keep, cs)
  | .lineEnd => (.lineEnd, cs)
  | .tmpTip => (.tmpTip, cs)
  | .decode => (.decode, cs)
  | .ignoreLine => (.ignoreLine, .error)
  | .md5Err => (.md5Err, .error)

def ignoredHeadNext (at_ : IgnoredCs) (c : Byte) : HeadAct × HttpCs :=
  match ignoredNext at_ c with
  | .inside at_ => (.keep, .ignored at_)
  | .folded => (.lineEnd, .ignored .foldStart)
  | .nextLine => (.lineEnd, .headers)
  | .error => (.reject, .error)

/-- The transition on `c`. -/
def httpNext : HttpCs → Byte → HeadAct × HttpCs
  | .start, c =>
    if c == 68 then (.method .delete, .method (ascii "ELETE "))
    else if c == 71 then (.method .get, .method (ascii "ET "))
    else if c == 72 then (.method .head, .method (ascii "EAD "))
    else if c == 77 then (.method .mkcol, .method (ascii "KCOL "))
    else if c == 80 then (.method .put, .method (ascii "UT "))
    else (.reject, .error)
  | .method rest, c => wordNext rest c .method (.keep, .target) .reject
  | .target, c =>
    if c == 47 then (.pathTip, .path 0)
    else if c == 104 then (.keep, .scheme (ascii "ttp://"))
    else (.reject, .error)
  | .scheme rest, c => wordNext rest c .scheme (.keep, .hostStart) .reject
  | .hostStart, c => if c == 47 then (.reject, .error) else (.keep, .host)
  | .host, c => if c == 47 then (.pathTip, .path 0) else (.keep, .host)
  | .path count, c =>
    if c == SP then (.pathEnd, .version (ascii "HTTP/1."))
    -- leading slashes are not counted: the path starts at the last of them
    else if count = 0 && c == 47 then (.pathTip, .path 0)
    else if count < 36 && isPathChar c then (.keep, .path (count + 1))
    else (.reject, .error)
  | .version rest, c => wordNext rest c .version (.keep, .minor) .reject
  | .minor, c =>
    if c == 48 then (.keep, .requestCr)
    else if c == 49 then (.persistent true, .requestCr)
    else (.reject, .error)
  | .requestCr, c => if c == CR then (.keep, .requestLf) else (.reject, .error)
  | .requestLf, c => if c == LF then (.lineEnd, .headers) else (.reject, .error)
  | .headers, c => headersNext c .ignoreLine
  | .headersAfterMd5, c => headersNext c .md5Err
  | .blankLf, c => if c == LF then (.reallyDone, .final) else (.reject, .error)
  | .name seen, c => nameNext seen c .ignoreLine
  | .sep field at_, c => sepNext field at_ c
  | .md5 at_, c => md5HeadNext at_ c
  | .connectionValue keepAlive rest, c =>
    wordNext rest (toLower c) (.connectionValue keepAlive) (.persistent keepAlive, .eor) .ignoreLine
  | .lengthDigits, c =>
    if isDigit c then (.contentLen, .lengthDigits) else eorNext c .keep .invalid
  | .contentRangeUnit rest, c =>
    wordNext rest c .contentRangeUnit (.keep, .contentRangeBlank) .ignoreLine
  | .contentRangeBlank, c => if isLws c then (.keep, .contentRangeStart) else (.ignoreLine, .error)
  | .contentRangeStart, c =>
    if isLws c then (.keep, .contentRangeStart)
    else if isDigit c then (.contentRangeBeg, .contentRangeBeg)
    else (.invalid, .error)
  | .contentRangeBeg, c =>
    if c == 45 then (.keep, .contentRangeDash)
    else if isDigit c then (.contentRangeBeg, .contentRangeBeg)
    else (.invalid, .error)
  | .contentRangeDash, c =>
    if isDigit c then (.contentRangeEnd, .contentRangeEnd) else (.invalid, .error)
  | .contentRangeEnd, c =>
    if c == 47 then (.keep, .contentRangeSlash)
    else if isDigit c then (.contentRangeEnd, .contentRangeEnd)
    else (.invalid, .error)
  | .contentRangeSlash, c => if c == 42 then (.keep, .contentRangeStar) else (.ignoreLine, .error)
  | .contentRangeStar, c => eorNext c .hasContentRange .ignoreLine
  | .rangeUnit rest, c => wordNext rest c .rangeUnit (.keep, .rangeBeg) .invalid
  | .rangeBeg, c =>
    if c == 45 then (.keep, .rangeEnd)
    else if isDigit c then (.rangeBeg, .rangeBeg)
    else (.invalid, .error)
  | .rangeEnd, c =>
    if isDigit c then (.rangeEnd, .rangeEnd)
    else if isLws c then (.keep, .rangeEor)
    else if c == CR then (.keep, .rangeEorLf)
    else (.invalid, .error)
  | .rangeEor, c =>
    if isLws c then (.keep, .rangeEor)
    else if c == CR then (.keep, .rangeEorLf)
    else (.ignoreLine, .error)
  | .rangeEorLf, c => if c == LF then (.hasRange, .headers) else (.ignoreLine, .error)
  | .chunkedValue rest, c =>
    wordNext rest (toLower c) .chunkedValue (.keep, .chunkedEnd) .ignoreLine
  | .chunkedEnd, c => eorNext c .chunked .ignoreLine
  | .trailerName, c =>
    if isNameChar c then (.keep, .trailerName) else eorNext c .keep .ignoreLine
  | .trailerMd5 rest, c =>
    if isNameChar c then trailerMd5Next rest c else eorNext c .keep .ignoreLine
  | .eor, c => eorNext c .keep .ignoreLine
  | .eorLf, c => if c == LF then (.lineEnd, .headers) else (.ignoreLine, .error)
  | .ignored at_, c => ignoredHeadNext at_ c
  | .final, _ => (.reject, .error)
  | .error, _ => (.reject, .error)

/-! ### The actions -/

/-- `length_incr`; `none` when the product wraps to something smaller. -/
def lengthIncr (len : Int) (c : Byte) : Option Int :=
  let next := wrap64 (len * 10 + (c.toNat - 48 : Nat))
  if next ≥ len then some next else none

/-- Why the scan stopped before the end of the buffer. -/
inductive Halt where
  | done
  | invalid (errno : Errno)
  | reject
  deriving DecidableEq, Repr

/-- One byte of the head: the transition, then its action. -/
def headStep (buf : Bytes) (http : Fields) (p : Nat) (c : Byte) : Move Fields Halt :=
  let (act, cs) := httpNext http.cs c
  let go (http : Fields) : Move Fields Halt := .goto { http with cs := cs } (p + 1)
  -- `p = buf + line_end + 1; fgoto ignored_header;`, and entering a state steps over one byte
  let ignoreLine : Move Fields Halt :=
    if 0 < http.lineEnd ∧ buf[http.lineEnd]? = some LF ∧ http.lineEnd + 1 ≤ buf.length then
      .goto { http with cs := .ignored .nameStart } (http.lineEnd + 2)
    else .fail
  let digit (len : Int) (set : Int → Fields) : Move Fields Halt :=
    match lengthIncr len c with
    | some len => go (set len)
    | none => .halt { set (-1) with cs := cs } (p + 1) (.invalid .ERANGE)
  match act with
  | .keep => go http
  | .method method => go { http with httpMethod := method }
  | .pathTip =>
    match toU8 p with
    | some tip => go { http with pathTip := tip }
    | none => .fail
  | .pathEnd =>
    match toU8 p with
    | some tip => go { http with pathEnd := tip }
    | none => .fail
  | .persistent value => go { http with persistent := value }
  | .lineEnd =>
    match toU16 p with
    | some lineEnd => go { http with lineEnd := lineEnd }
    | none => .fail
  | .contentLen => digit http.contentLen fun len => { http with contentLen := len }
  | .contentRangeBeg => digit http.rangeBeg fun len => { http with rangeBeg := len }
  | .contentRangeEnd => digit http.rangeEnd fun len => { http with rangeEnd := len }
  | .hasContentRange => go { http with hasContentRange := true }
  | .rangeInit => go { http with rangeBeg := -1, rangeEnd := -1 }
  | .rangeBeg =>
    digit (if http.rangeBeg < 0 then 0 else http.rangeBeg) fun len => { http with rangeBeg := len }
  | .rangeEnd =>
    digit (if http.rangeEnd < 0 then 0 else http.rangeEnd) fun len => { http with rangeEnd := len }
  | .hasRange =>
    match toU16 p with
    | some lineEnd => go { http with lineEnd := lineEnd, hasRange := true }
    | none => .fail
  | .chunked => go { http with chunked := true }
  | .hasTrailerMd5 => go { http with hasTrailerMd5 := true }
  | .tmpTip =>
    match toU16 p with
    | some tip => go { http with tmpTip := tip }
    | none => .fail
  | .decode =>
    match toU16 p, base64Decode ((buf.take p).drop http.tmpTip) with
    | some _, some out =>
      if http.tmpTip ≤ p ∧ 16 ≤ out.length then
        go { http with expectMd5 := out.take 16, hasExpectMd5 := true }
      else .fail
    | _, _ => .fail
  | .reallyDone => .halt { http with cs := .final } (p + 1) .done
  | .ignoreLine => ignoreLine
  | .md5Err =>
    if http.hasExpectMd5 then ignoreLine
    else .halt { http with cs := .error } (p + 1) (.invalid .EINVAL)
  | .invalid => .halt { http with cs := .error } (p + 1) (.invalid .EINVAL)
  | .reject => .halt { http with cs := .error } p .reject

/-! ### `mog_http_parse` -/

/-- What a parser call returns: the state, `errno`, and the updated request. `none` is a failed
assertion. -/
structure Parsed where
  state : ParserState
  errno : Option Errno
  http : Http
  deriving DecidableEq, Repr

def mogHttpParse (http : Http) (buf : Bytes) : Option Parsed :=
  let parsed (state : ParserState) (errno : Option Errno) (fields : Fields) (p : Nat) : Parsed :=
    { state := state, errno := errno, http := { http with toFields := fields, offset := p } }
  if http.wbuf = .null ∧ http.offset ≤ buf.length then
    match exec headStep buf (lineFuel buf.length) http.toFields http.offset with
    | .more fields p => if p ≤ buf.length then some (parsed .continue none fields p) else none
    | .halted fields p .done => if p ≤ buf.length then some (parsed .done none fields p) else none
    | .halted fields p (.invalid errno) => some (parsed .error (some errno) fields p)
    | .halted fields p .reject => some (parsed .error none fields p)
    | .failed => none
    | .stuck => none
  else none

end Cmogstored
