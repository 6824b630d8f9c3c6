import Cmogstored.Types

/-! The calls a client makes. Each system call has the answers its manual page documents: a count
never exceeds what was asked for, a file size is a non-negative `off_t`. Which of these answers comes
back is left open. `note` is no system call: it marks the points of the code that statements speak
about, with the data the code has there. -/

namespace Cmogstored

/-- The text `mog_http_date` writes: `MOG_HTTPDATE_CAPA - 1` bytes. -/
abbrev HttpDate := { text : Bytes // text.length = 29 }

structure Stat where
  size : Fin (2 ^ 63)
  mtime : Int
  isReg : Bool

/-- The flags `open_put` passes: `O_CREAT` alone, or `O_EXCL | O_TRUNC | O_CREAT`. -/
inductive OpenFlags where
  | create
  | exclTruncCreate
  deriving DecidableEq, Repr

/-- An error of a socket that is no reason to wait or to try again. -/
def Errno.hard : Errno → Bool
  | EAGAIN => false
  | EINTR => false
  | _ => true

theorem Errno.eq_of_not_hard {errno : Errno} (h : errno.hard = false) :
    errno = .EAGAIN ∨ errno = .EINTR := by
  cases errno <;> simp [hard] at h ⊢

inductive Event where
  /-- `mog_http_parse` is entered with `buf`. -/
  | headParse (http : Http) (buf : Bytes)
  /-- `http_process_client` is entered. -/
  | handed (http : Http) (buf : Bytes)
  /-- A response head is complete in memory and will be written next; the `count` bytes of the file
  from `offset` on are to follow it. -/
  | response (status : Status) (keepAlive : Bool) (head : Bytes) (offset : Int) (count : Nat)
  /-- `http_forward_in_progress` is entered. -/
  | forward (http : Http)
  /-- `mog_chunk_parse` is entered with `buf`. -/
  | chunkParse (http : Http) (buf : Bytes)
  /-- `put_commit_resp` is entered. -/
  | commit (http : Http)
  /-- `http_wbuf_in_progress` is entered. -/
  | flush (http : Http)
  /-- `mog_http_reset` is called. -/
  | reset (http : Http)
  /-- `http_queue_step` returns. -/
  | stepped (next : Next) (http : Http)
  /-- `http_close` is past its assertion. -/
  | closed (http : Http)
  deriving DecidableEq, Repr

inductive Call where
  | read (count : Nat)
  | write (buf : Bytes)
  | writev (iov : List Bytes)
  | send (buf : Bytes) (more : Bool)
  | sendfile (fd : Fd) (foff : Int) (count : Nat)
  | openRead (path : Bytes)
  | openPut (path : Bytes) (flags : OpenFlags)
  | mkdir (path : Bytes)
  | fdmapExpire
  | fstat (fd : Fd)
  | stat (path : Bytes)
  | pwrite (fd : Fd) (buf : Bytes) (foff : Int)
  | fchmod (fd : Fd)
  | rename (old new : Bytes)
  | unlink (path : Bytes)
  | close (fd : Fd)
  | random
  | now
  | note (event : Event)
  deriving DecidableEq, Repr

@[reducible] def Res : Call → Type
  | .read count => Except Errno { data : Bytes // data.length ≤ count }
  | .write buf => Except Errno (Fin (buf.length + 1))
  | .writev iov => Except Errno (Fin (iov.flatten.length + 1))
  | .send buf _ => Except Errno (Fin (buf.length + 1))
  | .sendfile _ _ count => Except Errno (Fin (count + 1))
  | .openRead _ => Except Errno Fd
  | .openPut _ _ => Except Errno Fd
  | .mkdir _ => Except Errno Unit
  -- the number of connections expired, and the `errno` it leaves behind
  | .fdmapExpire => Nat × Errno
  | .fstat _ => Except Errno Stat
  | .stat _ => Except Errno Stat
  | .pwrite _ buf _ => Except Errno (Fin (buf.length + 1))
  | .fchmod _ => Except Errno Unit
  | .rename _ _ => Except Errno Unit
  | .unlink _ => Except Errno Unit
  | .close _ => Unit
  | .random => UInt32
  | .now => HttpDate
  | .note _ => Unit

abbrev Io := Prog Call Res

abbrev Run := Prog.Trace Call Res

abbrev sys (request : Call) : Io (Res request) := Prog.ask request

abbrev note (event : Event) : Io Unit := sys (.note event)

/-- What the listener and the process fix for a client. -/
structure Ctx where
  fdType : FdType
  pid : Nat
  /-- MD5 of the bytes given to the hash context. -/
  md5 : Bytes → Bytes
  /-- `mog_http_date` of a time stamp. -/
  httpDate : Int → HttpDate
  /-- Whether the platform has `MSG_MORE`. -/
  msgMore : Bool

end Cmogstored
