import Cmogstored.HttpReply
import Cmogstored.File
import Cmogstored.Scan

/-! `mgmt_parser.rl`: the command lines of a management client, with the data of `struct mog_mgmt`. The
states are those of the generated machine, each named by its place in the grammar; the states of a fixed
word carry the part of it that is still to come. -/

namespace Cmogstored

open Scan

/-- `enum Gc_hash`, as far as the commands name it. -/
inductive Alg where
  | md5 | sha1
  deriving DecidableEq, Repr

/-- `enum mog_prio` -/
inductive Prio where
  | none | fsck
  deriving DecidableEq, Repr

/-- What the machine calls at the end of a line. -/
inductive MgmtFn where
  | blank | size | digest | watch | aioThreads | shutdown | unknown
  deriving DecidableEq, Repr

inductive MgmtCs where
  | start
  | blank
  | upperS
  | lowerS
  | md5 (rest : Bytes)
  | sha1 (rest : Bytes)
  | digestBlank
  | digestSlash
  | digestPath
  | reasonStart
  | reason
  | fsck (rest : Bytes)
  | server (rest : Bytes)
  | threadsEquals
  | threadsSign
  | threadsStart
  | threadsBlank
  | threadsDigits
  | shutdown (rest : Bytes)
  | shutdownEnd
  | gracefulBlank
  | graceful (rest : Bytes)
  | gracefulEnd
  | size (rest : Bytes)
  | sizeSlash
  | sizePath
  | watch (rest : Bytes)
  | watchEnd
  -- behind the `\r` of a line that calls `fn`
  | eorLf (fn : MgmtFn)
  | invalidStart
  | invalidWord
  | invalidRest
  | final
  | error
  deriving DecidableEq, Repr

/-- The fields of `struct mog_mgmt` that the parser fills. -/
structure MgmtFields where
  cs : MgmtCs
  mark0 : Nat
  mark1 : Nat
  alg : Alg
  prio : Prio
  deriving DecidableEq, Repr

/-- `mog_mgmt_reset_parser` -/
def MgmtFields.reset (fields : MgmtFields) : MgmtFields :=
  { fields with cs := .start, mark0 := 0, mark1 := 0 }

/-- The bytes between the two marks. -/
def MgmtFields.marked (fields : MgmtFields) (buf : Bytes) : Bytes :=
  (buf.take fields.mark1).drop fields.mark0

/-! ### The machine -/

inductive MgmtAct where
  | keep
  | mark0
  | mark1
  | alg (alg : Alg)
  | setPrioFsck
  | call (fn : MgmtFn)
  | mark1Call (fn : MgmtFn)
  -- `$! { p = buf; fhold; fgoto invalid_line; }`
  | invalidLine
  | reject
  deriving DecidableEq, Repr

/-- `[a-zA-Z0-9_]` -/
def isReasonChar (c : Byte) : Bool := isAlpha c || isDigit c || c == 95

/-- A byte that no command has here. -/
def notCommand : MgmtAct × MgmtCs := (.invalidLine, .invalidStart)

/-- A letter of a fixed word. -/
def mgmtWord (rest : Bytes) (c : Byte) (more : Bytes → MgmtCs) (last : MgmtAct × MgmtCs) :
    MgmtAct × MgmtCs :=
  match rest with
  | [] => notCommand
  | expected :: rest =>
    if c == expected then (if rest.isEmpty then last else (.keep, more rest)) else notCommand

/-- The `eor` of a line, or something else. -/
def mgmtEor (c : Byte) (fn : MgmtFn) (other : MgmtAct × MgmtCs) : MgmtAct × MgmtCs :=
  if c == LF then (.call fn, .final) else if c == CR then (.keep, .eorLf fn) else other

/-- The same where the `eor` is the end of an argument. -/
def mgmtMarkedEor (c : Byte) (fn : MgmtFn) (other : MgmtAct × MgmtCs) : MgmtAct × MgmtCs :=
  if c == LF then (.mark1Call fn, .final) else if c == CR then (.mark1, .eorLf fn) else other

/-- A byte of a reason. -/
def reasonNext (c : Byte) : MgmtAct × MgmtCs :=
  mgmtEor c .digest (if isReasonChar c then (.keep, .reason) else notCommand)

/-- A byte of a reason that has been the start of `fsck` so far. -/
def fsckNext (rest : Bytes) (c : Byte) : MgmtAct × MgmtCs :=
  match rest with
  | [] => reasonNext c
  | expected :: rest =>
    if c == expected then
      if rest.isEmpty then (.setPrioFsck, .reason) else (.keep, .fsck rest)
    else reasonNext c

def mgmtNext : MgmtCs → Byte → MgmtAct × MgmtCs
  | .start, c =>
    if isLws c then (.keep, .blank)
    else if c == 77 then (.keep, .md5 (ascii "D5"))
    else if c == 83 then (.keep, .upperS)
    else if c == 115 then (.keep, .lowerS)
    else if c == 119 then (.keep, .watch (ascii "atch"))
    else mgmtEor c .blank notCommand
  | .blank, c => if isLws c then (.keep, .blank) else mgmtEor c .blank notCommand
  | .upperS, c =>
    if c == 72 then (.keep, .sha1 (ascii "A-1"))
    else if toLower c == 101 then (.keep, .server (ascii "rver aio_threads"))
    else notCommand
  | .lowerS, c =>
    if c == 104 then (.keep, .shutdown (ascii "utdown"))
    else if c == 105 then (.keep, .size (ascii "ze "))
    else if toLower c == 101 then (.keep, .server (ascii "rver aio_threads"))
    else notCommand
  | .md5 rest, c => mgmtWord rest c .md5 (.alg .md5, .digestBlank)
  | .sha1 rest, c => mgmtWord rest c .sha1 (.alg .sha1, .digestBlank)
  | .digestBlank, c => if c == SP then (.keep, .digestSlash) else notCommand
  | .digestSlash, c => if c == 47 then (.mark0, .digestPath) else notCommand
  | .digestPath, c =>
    if c == SP then (.mark1, .reasonStart)
    else if isPathChar c then (.keep, .digestPath)
    else mgmtMarkedEor c .digest notCommand
  | .reasonStart, c =>
    if c == 102 then (.keep, .fsck (ascii "sck"))
    else if isReasonChar c then (.keep, .reason)
    else notCommand
  | .reason, c => reasonNext c
  | .fsck rest, c => fsckNext rest c
  | .server rest, c => mgmtWord rest (toLower c) .server (.keep, .threadsEquals)
  | .threadsEquals, c =>
    if c == SP then (.keep, .threadsSign)
    else if c == 61 then (.keep, .threadsStart)
    else notCommand
  | .threadsSign, c => if c == 61 then (.keep, .threadsStart) else notCommand
  | .threadsStart, c =>
    if c == SP then (.keep, .threadsBlank)
    else if isDigit c then (.mark0, .threadsDigits)
    else notCommand
  | .threadsBlank, c => if isDigit c then (.mark0, .threadsDigits) else notCommand
  | .threadsDigits, c =>
    if isDigit c then (.keep, .threadsDigits) else mgmtMarkedEor c .aioThreads notCommand
  | .shutdown rest, c => mgmtWord rest c .shutdown (.keep, .shutdownEnd)
  | .shutdownEnd, c => if c == SP then (.keep, .gracefulBlank) else mgmtEor c .shutdown notCommand
  | .gracefulBlank, c =>
    if c == SP then (.keep, .gracefulBlank)
    else if c == 103 then (.keep, .graceful (ascii "raceful"))
    else notCommand
  | .graceful rest, c => mgmtWord rest c .graceful (.keep, .gracefulEnd)
  | .gracefulEnd, c => mgmtEor c .shutdown notCommand
  | .size rest, c => mgmtWord rest c .size (.keep, .sizeSlash)
  | .sizeSlash, c => if c == 47 then (.mark0, .sizePath) else notCommand
  | .sizePath, c =>
    if isPathChar c then (.keep, .sizePath) else mgmtMarkedEor c .size notCommand
  | .watch rest, c => mgmtWord rest c .watch (.keep, .watchEnd)
  | .watchEnd, c => mgmtEor c .watch notCommand
  | .eorLf fn, c => if c == LF then (.call fn, .final) else notCommand
  | .invalidStart, c =>
    if isLws c then (.keep, .invalidStart)
    else if c == CR then (.reject, .error)
    else (.mark0, .invalidWord)
  | .invalidWord, c =>
    if c == LF then (.mark1Call .unknown, .final)
    else if isLws c || c == CR then (.mark1, .invalidRest)
    else (.mark1, .invalidWord)
  | .invalidRest, c =>
    if c == LF then (.call .unknown, .final) else (.keep, .invalidRest)
  | .final, _ => notCommand
  | .error, _ => (.reject, .error)

/-- Why the machine stops inside the buffer. -/
inductive MgmtStop where
  | call (fn : MgmtFn)
  | reject
  deriving DecidableEq, Repr

/-- What a transition does at `pos`. `accepting` is `svc->mgmt_fd >= 0`, which `set_prio_fsck` asks
for. -/
def mgmtMove (accepting : Bool) (fields : MgmtFields) (pos : Nat) (next : MgmtAct × MgmtCs) :
    Move MgmtFields MgmtStop :=
  let fields := { fields with cs := next.2 }
  match next.1 with
  | .keep => .goto fields (pos + 1)
  | .mark0 => .goto { fields with mark0 := pos } (pos + 1)
  | .mark1 => .goto { fields with mark1 := pos } (pos + 1)
  | .alg alg => .goto { fields with alg := alg } (pos + 1)
  | .setPrioFsck => .goto (if accepting then { fields with prio := .fsck } else fields) (pos + 1)
  | .call fn => .halt fields (pos + 1) (.call fn)
  | .mark1Call fn => .halt { fields with mark1 := pos } (pos + 1) (.call fn)
  | .invalidLine => .goto fields 0
  | .reject => .halt fields pos .reject

def mgmtStep (accepting : Bool) (_ : Bytes) (fields : MgmtFields) (pos : Nat) (c : Byte) :
    Move MgmtFields MgmtStop := mgmtMove accepting fields pos (mgmtNext fields.cs c)

/-- `%% write exec`: the line is read at most twice. -/
def mgmtExec (accepting : Bool) (fields : MgmtFields) (buf : Bytes) (pos : Nat) :
    Outcome MgmtFields MgmtStop :=
  exec (mgmtStep accepting) buf (2 * buf.length + 2) fields pos

end Cmogstored
