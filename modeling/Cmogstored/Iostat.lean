import Cmogstored.HttpCommon

/-! `iostat_parser.rl` and `iostat.c`: the output of iostat(1), read from a pipe. The states are those of
the generated machine, named by their place in the grammar. -/

namespace Cmogstored

open Prog

/-! ### Calls -/

/-- What is logged. -/
inductive IostatLog where
  | deviceTooLong
  | parserError
  | readFailed
  deriving DecidableEq, Repr

inductive IostatCall where
  | read
  /-- `mog_mnt_update_util` with the two strings of the parser. -/
  | updateUtil (dev util : Bytes)
  | commit
  /-- `mog_idleq_push` -/
  | push
  | close
  | syslog (message : IostatLog)
  deriving DecidableEq, Repr

/-- `sizeof(buf)` of `mog_iostat_queue_step` -/
def iostatBufSize : Nat := 1024

@[reducible] def IostatRes : IostatCall → Type
  | .read => Except Errno { data : Bytes // data.length ≤ iostatBufSize }
  | _ => Unit

inductive IostatCs where
  -- blanks before the device
  | main
  | device
  -- behind the device: in a word that is no utilization
  | middle
  -- behind a blank that no utilization precedes
  | blank
  | utilization
  | utilizationBlank
  | ignored
  -- a stats line has just ended
  | final
  | error
  deriving DecidableEq, Repr

/-- The two arrays are the bytes before `dev_tip` and `util_tip`. -/
structure Iostat where
  cs : IostatCs
  ready : Bool
  util : Bytes
  dev : Bytes
  deriving DecidableEq, Repr

/-- `[a-zA-Z0-9/]` -/
def isDeviceChar (c : Byte) : Bool := isAlpha c || isDigit c || c == 47

/-- `[0-9\.]` -/
def isUtilChar (c : Byte) : Bool := isDigit c || c == 46

end Cmogstored
