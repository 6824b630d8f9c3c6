import Cmogstored.Types
import Cmogstored.LineScan

/-! `http_common.rl`: the character classes and the two line grammars that the head parser and the
trailer parser share, with the decoder of `lib/base64.c` and the bounded counters of `http_util.h`.

A transition of a machine is an action and the state it leads to. The machines below are the
generated ones of `http_parser.c` and `chunk_parser.c` with equivalent states merged. -/

namespace Cmogstored

/-! ### Character classes -/

def isLws (c : Byte) : Bool := c == SP || c == HT

theorem isLws_cases {c : Byte} (h : isLws c = true) : c = SP ∨ c = HT := by
  rwa [isLws, Bool.or_eq_true, beq_iff_eq, beq_iff_eq] at h

def isDigit (c : Byte) : Bool := 48 ≤ c && c ≤ 57

def isAlpha (c : Byte) : Bool := (65 ≤ c && c ≤ 90) || (97 ≤ c && c ≤ 122)

def isXdigit (c : Byte) : Bool := isDigit c || (65 ≤ c && c ≤ 70) || (97 ≤ c && c ≤ 102)

/-- `CTL`: `char` is signed, so bytes above 127 are not control characters. -/
def isCtl (c : Byte) : Bool := c < 32 || c == 127

/-- `header_name` -/
def isNameChar (c : Byte) : Bool := isAlpha c || isDigit c || c == 45

/-- `[a-zA-Z0-9/\.\-]` of `mog_path` -/
def isPathChar (c : Byte) : Bool := isNameChar c || c == 47 || c == 46

/-- `[a-zA-Z0-9/+]` of `b64_val` -/
def isBase64 (c : Byte) : Bool := isAlpha c || isDigit c || c == 47 || c == 43

def toLower (c : Byte) : Byte := if 65 ≤ c && c ≤ 90 then c + 32 else c

/-! ### `http_util.h` -/

def toU8 (len : Nat) : Option Nat := if len ≤ 255 then some len else none

def toU16 (len : Nat) : Option Nat := if len ≤ 65535 then some len else none

/-! ### `base64_decode_ctx` without a context -/

/-- The table `b64` of `lib/base64.c`. -/
def b64 (c : Byte) : Option Nat :=
  if 65 ≤ c && c ≤ 90 then some (c.toNat - 65)
  else if 97 ≤ c && c ≤ 122 then some (c.toNat - 97 + 26)
  else if isDigit c then some (c.toNat - 48 + 52)
  else if c == 43 then some 62
  else if c == 47 then some 63
  else none

/-- `decode_4` on four bytes, `last` when no input follows them. -/
def decode4 (a b c d : Byte) (last : Bool) : Option Bytes :=
  match b64 a, b64 b with
  | some x, some y =>
    let first := UInt8.ofNat (x <<< 2 ||| y >>> 4)
    if c == 61 then
      if last && d == 61 then some [first] else none
    else
      match b64 c with
      | none => none
      | some z =>
        let second := UInt8.ofNat ((y <<< 4) &&& 0xf0 ||| z >>> 2)
        if d == 61 then
          if last then some [first, second] else none
        else
          match b64 d with
          | none => none
          | some w => some [first, second, UInt8.ofNat ((z <<< 6) &&& 0xc0 ||| w)]
  | _, _ => none

/-- Decodes the whole input or nothing. -/
def base64Decode : Bytes → Option Bytes
  | [] => some []
  | a :: b :: c :: d :: rest =>
    match decode4 a b c d rest.isEmpty, base64Decode rest with
    | some out, some more => some (out ++ more)
    | _, _ => none
  | _ => none

/-! ### `content_md5` after its colon -/

/-- `$!` actions: what happens on a byte the grammar does not allow. -/
inductive Md5Act where
  | keep
  | lineEnd
  | tmpTip
  | decode
  -- the line is read again as one to be ignored
  | ignoreLine
  -- the same, but only if a digest is known already
  | md5Err
  deriving DecidableEq, Repr

/-- Where `content_md5` goes: on within the field, or to the next line. -/
inductive Md5Next where
  | inside (at_ : Md5Cs)
  | nextLine
  deriving DecidableEq, Repr

def md5Next : Md5Cs → Byte → Md5Act × Md5Next
  | .sep .blank, c =>
    if isLws c then (.keep, .inside (.sep .blank))
    else if c == CR then (.keep, .inside (.sep .cr))
    else if isBase64 c then (.tmpTip, .inside (.digits 1))
    else (.md5Err, .nextLine)
  | .sep .cr, c =>
    if c == LF then (.lineEnd, .inside (.sep .lf)) else (.ignoreLine, .nextLine)
  | .sep .lf, c =>
    if isLws c then (.keep, .inside (.sep .fold)) else (.ignoreLine, .nextLine)
  | .sep .fold, c =>
    if isLws c then (.keep, .inside (.sep .fold))
    else if isBase64 c then (.tmpTip, .inside (.digits 1))
    else (.md5Err, .nextLine)
  | .digits count, c =>
    if count < 22 then
      if isBase64 c then (.keep, .inside (.digits (count + 1))) else (.md5Err, .nextLine)
    else if c == 61 then (.keep, .inside .pad) else (.md5Err, .nextLine)
  | .pad, c =>
    if c == 61 then (.keep, .inside .padded) else (.md5Err, .nextLine)
  | .padded, c =>
    if isLws c then (.decode, .inside .eor)
    else if c == CR then (.decode, .inside .eorLf)
    else (.md5Err, .nextLine)
  | .eor, c =>
    if isLws c then (.keep, .inside .eor)
    else if c == CR then (.keep, .inside .eorLf)
    else (.md5Err, .nextLine)
  | .eorLf, c =>
    if c == LF then (.lineEnd, .nextLine) else (.md5Err, .nextLine)

/-! ### `ignored_header` and `ignored_trailer` -/

/-- The next state on a byte, with whether the byte is an `LF` that ends a line; `none` is the error
state. -/
inductive IgnoredNext where
  | inside (at_ : IgnoredCs)
  -- a folded line: `line_end` moves, the field goes on
  | folded
  | nextLine
  | error
  deriving DecidableEq, Repr

def ignoredNext : IgnoredCs → Byte → IgnoredNext
  | .nameStart, c => if isNameChar c then .inside .name else .error
  | .name, c =>
    if isNameChar c then .inside .name
    else if c == 58 then .inside .sep
    else .error
  | .sep, c =>
    if isLws c then .inside .sep
    else if c == CR then .inside .sepLf
    else if isCtl c then .error
    else .inside .value
  | .value, c =>
    if c == HT then .inside .eor
    else if c == CR then .inside .eorLf
    else if isCtl c then .error
    else .inside .value
  | .eor, c =>
    if isLws c then .inside .eor
    else if c == CR then .inside .eorLf
    else .error
  | .eorLf, c => if c == LF then .nextLine else .error
  | .sepLf, c => if c == LF then .folded else .error
  | .foldStart, c => if isLws c then .inside .fold else .error
  | .fold, c =>
    if isLws c then .inside .fold
    else if isCtl c then .error
    else .inside .value

end Cmogstored
