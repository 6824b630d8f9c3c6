import Mathlib.Algebra.Ring.Int.Defs
import Mathlib.Algebra.Ring.Nat
import Cmogstored.ProgWp

/-! The data of an HTTP client: `struct mog_http`, `struct mog_file`, the read and write buffers, and
the system calls a client makes. Pointers are values here: a buffer is its contents, and the only
pointer that can dangle, `forward` after `mog_file_close`, keeps the descriptor it had. -/

namespace Cmogstored

abbrev Byte := UInt8

abbrev Bytes := List Byte

/-- The bytes of an ASCII text. -/
def ascii (text : String) : Bytes := text.toList.map fun c => UInt8.ofNat c.toNat

abbrev HT : Byte := 9

abbrev LF : Byte := 10

abbrev CR : Byte := 13

abbrev SP : Byte := 32

/-- Signed 64-bit arithmetic of `off_t`. -/
def wrap64 (n : Int) : Int := Int.bmod n (2 ^ 64)

/-! ### Constants of `cmogstored.h` and `alloc.c` -/

def MOG_RBUF_BASE_SIZE : Nat := 512 - 16

-- irreducible, so that no unification counts up to it
@[irreducible] def MOG_RBUF_MAX_SIZE : Nat := 65535

theorem rbufMaxSize_eq : MOG_RBUF_MAX_SIZE = 65535 := by
  unfold MOG_RBUF_MAX_SIZE
  rfl

/-- `sizeof(tls_fsbuf)` -/
def fsbufSize : Nat := 8192

/-! ### Enumerations -/

inductive Method where
  | none | get | head | put | delete | mkcol
  deriving DecidableEq, Repr

inductive ChunkState where
  | size | data | trailer | done
  deriving DecidableEq, Repr

inductive ParserState where
  | error | done | continue
  deriving DecidableEq, Repr

inductive Next where
  | close | active | waitRd | waitWr
  deriving DecidableEq, Repr

inductive FdType where
  | http | httpget
  deriving DecidableEq, Repr

/-- The values of `errno` the code compares with; every other one is `other`. -/
inductive Errno where
  | EINTR | EAGAIN | ERANGE | ENOSPC | EFBIG | EINVAL | ENOENT | EACCES | EEXIST | EPERM | EISDIR
  | ENFILE | EMFILE | ENOMEM | ECONNRESET | ENOTCONN | other
  deriving DecidableEq, Repr

/-- The status lines, each sent with its own text. -/
inductive Status where
  | ok | created | noContent | partialContent | badRequest | forbidden | notFound
  | methodNotAllowed | rangeNotSatisfiable | internalServerError | insufficientStorage
  deriving DecidableEq, Repr

def Status.text : Status → String
  | ok => "200 OK"
  | created => "201 Created"
  | noContent => "204 No Content"
  | partialContent => "206 Partial Content"
  | badRequest => "400 Bad Request"
  | forbidden => "403 Forbidden"
  | notFound => "404 Not Found"
  | methodNotAllowed => "405 Method Not Allowed"
  | rangeNotSatisfiable => "416 Requested Range Not Satisfiable"
  | internalServerError => "500 Internal Server Error"
  | insufficientStorage => "507 Insufficient Storage"

/-! ### Parser states

`http->cs` is one integer that the two generated machines use in turn. Here it is a state of the head
machine and, after `mog_chunk_init`, a state of the chunk machine, each named by its place in the
grammar of `http_parser.rl`, `chunk_parser.rl` and `http_common.rl`. -/

/-- `sep`: blanks, or one folded line followed by blanks. -/
inductive SepCs where
  | blank | cr | lf | fold
  deriving DecidableEq, Repr

/-- `content_md5` after its colon. -/
inductive Md5Cs where
  | sep (at_ : SepCs)
  | digits (count : Nat)
  | pad
  | padded
  | eor
  | eorLf
  deriving DecidableEq, Repr

/-- `ignored_header` and `ignored_trailer`, which share one grammar. -/
inductive IgnoredCs where
  | nameStart | name | sep | value | eor | eorLf | sepLf | foldStart | fold
  deriving DecidableEq, Repr

/-- The header fields of `header_line`, but for `Content-MD5`. -/
inductive Field where
  | connection | contentLength | contentRange | range | transferEncoding | trailer
  deriving DecidableEq, Repr

inductive HttpCs where
  | start
  | method (rest : Bytes)
  | target
  | scheme (rest : Bytes)
  | hostStart
  | host
  | path (count : Nat)
  | version (rest : Bytes)
  | minor
  | requestCr
  | requestLf
  | headers
  | headersAfterMd5
  | blankLf
  | name (seen : Bytes)
  | sep (field : Field) (at_ : SepCs)
  | md5 (at_ : Md5Cs)
  | connectionValue (keepAlive : Bool) (rest : Bytes)
  | lengthDigits
  | contentRangeUnit (rest : Bytes)
  | contentRangeBlank
  | contentRangeStart
  | contentRangeBeg
  | contentRangeDash
  | contentRangeEnd
  | contentRangeSlash
  | contentRangeStar
  | rangeUnit (rest : Bytes)
  | rangeBeg
  | rangeEnd
  | rangeEor
  | rangeEorLf
  | chunkedValue (rest : Bytes)
  | chunkedEnd
  | trailerName
  | trailerMd5 (rest : Bytes)
  | eor
  | eorLf
  | ignored (at_ : IgnoredCs)
  | final
  | error
  deriving DecidableEq, Repr

inductive ChunkCs where
  | main
  | mainLf
  | sizeStart
  | sizeDigits
  | extension
  | sizeLf
  | data
  | trailers
  | trailersAfterMd5
  | blankLf
  | name (seen : Bytes)
  | md5 (at_ : Md5Cs)
  | ignored (at_ : IgnoredCs)
  | error
  deriving DecidableEq, Repr

/-! ### Records -/

/-- `struct mog_rbuf`; `rsize` is the length of `data`. -/
structure Rbuf where
  rcapa : Nat
  data : Bytes
  deriving DecidableEq, Repr

/-- `http->wbuf`: null, `MOG_WR_ERROR`, or bytes of which `off` are already written. -/
inductive Wbuf where
  | null
  | error
  | pending (buf : Bytes) (off : Nat)
  deriving DecidableEq, Repr

abbrev Fd := Nat

/-- `struct mog_fd` of a file with its `struct mog_file`. `digest` is the hash context: absent, or
the bytes hashed so far. -/
structure MogFile where
  fd : Fd
  fsize : Int
  foff : Int
  path : Option Bytes
  tmppath : Option Bytes
  digest : Option Bytes
  deriving DecidableEq, Repr

/-- The fields of `struct mog_http` that the parsers fill. -/
structure Fields where
  cs : HttpCs
  chunkCs : ChunkCs
  httpMethod : Method
  persistent : Bool
  chunked : Bool
  hasTrailerMd5 : Bool
  hasExpectMd5 : Bool
  hasContentRange : Bool
  hasRange : Bool
  chunkState : ChunkState
  pathTip : Nat
  pathEnd : Nat
  lineEnd : Nat
  tmpTip : Nat
  rangeBeg : Int
  rangeEnd : Int
  contentLen : Int
  expectMd5 : Bytes
  deriving DecidableEq, Repr

/-- All zero but for the start states. -/
def Fields.init : Fields where
  cs := .start
  chunkCs := .main
  httpMethod := .none
  persistent := false
  chunked := false
  hasTrailerMd5 := false
  hasExpectMd5 := false
  hasContentRange := false
  hasRange := false
  chunkState := .size
  pathTip := 0
  pathEnd := 0
  lineEnd := 0
  tmpTip := 0
  rangeBeg := 0
  rangeEnd := 0
  contentLen := 0
  expectMd5 := List.replicate 16 0

/-- `struct mog_http` -/
structure Http extends Fields where
  skipRbufDefer : Bool
  forward : Option MogFile
  offset : Nat
  rbuf : Option Rbuf
  wbuf : Wbuf
  deriving DecidableEq, Repr

def Http.setPersistent (http : Http) (persistent : Bool) : Http :=
  { http with persistent := persistent }

/-- `mog_http_reset_parser`: everything but the read buffer returns to its initial value. -/
def mogHttpResetParser (http : Http) : Http where
  toFields := .init
  skipRbufDefer := false
  forward := none
  offset := 0
  rbuf := http.rbuf
  wbuf := .null

/-- `mog_http_init`, called once after accept. -/
def mogHttpInit : Http where
  toFields := .init
  skipRbufDefer := false
  forward := none
  offset := 0
  rbuf := none
  wbuf := .null

end Cmogstored
