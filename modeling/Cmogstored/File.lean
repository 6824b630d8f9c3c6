import Cmogstored.Calls

/-! `file.c`, `mkpath_for.c` and `mog_http_write_full`: opening, filling and closing the file of a
request. -/

namespace Cmogstored

open Prog

/-- `mog_open_expire_retry`: whether to try again, and the `errno` left behind. -/
def mogOpenExpireRetry (errno : Errno) : Io (Bool × Errno) :=
  match errno with
  | .ENFILE | .EMFILE | .ENOMEM => do
    let (expired, left) ← sys .fdmapExpire
    pure (0 < expired, left)
  | _ => pure (false, errno)

/-- Tries an `open` a second time after idle connections were expired. -/
def openExpireRetry (attempt : Io (Except Errno Fd)) : Io (Except Errno Fd) := do
  match ← attempt with
  | .ok fd => pure (.ok fd)
  | .error errno =>
    let (again, errno) ← mogOpenExpireRetry errno
    if again then attempt else pure (.error errno)

def mogFileOpenRead (path : Bytes) : Io (Except Errno MogFile) := do
  match ← openExpireRetry (sys (.openRead path)) with
  | .ok fd =>
    pure (.ok { fd := fd, fsize := -1, foff := 0, path := none, tmppath := none, digest := none })
  | .error errno => pure (.error errno)

/-- The directories of a file's path, outermost first, but for the first level: the prefixes before
each `/` after the leading one. -/
def mkpathDirs (path : Bytes) : List Bytes :=
  ((List.range path.length).filter fun k => 0 < k && path[k]? == some 47).tail.map path.take

def mkdirs : List Bytes → Io (Except Errno Unit)
  | [] => pure (.ok ())
  | dir :: dirs => do
    match ← sys (.mkdir dir) with
    | .ok _ => mkdirs dirs
    | .error .EEXIST => mkdirs dirs
    | .error errno => pure (.error errno)

def mogMkpathFor (path : Bytes) : Io (Except Errno Unit) :=
  if (path.drop 1).contains 47 then mkdirs (mkpathDirs path) else pure (.error .EACCES)

def mkpathOpenPut (path : Bytes) (flags : OpenFlags) : Io (Except Errno Fd) := do
  match ← sys (.openPut path flags) with
  | .error .ENOENT =>
    match ← mogMkpathFor path with
    | .ok _ => sys (.openPut path flags)
    | .error _ => pure (.error .ENOENT)
  | answer => pure answer

def mogFileOpenPut (path : Bytes) (flags : OpenFlags) : Io (Except Errno MogFile) := do
  match ← openExpireRetry (mkpathOpenPut path flags) with
  | .ok fd =>
    pure (.ok { fd := fd, fsize := 0, foff := 0, path := none, tmppath := none, digest := none })
  | .error errno => pure (.error errno)

def mogFileClose (file : MogFile) : Io Unit := sys (.close file.fd)

/-- The `pwrite` loop of `mog_http_write_full`: success, `errno`, and the file with its offset moved
over the bytes written. `errno` keeps an `EINTR` that a later success does not clear. -/
def pwriteLoop : Nat → MogFile → Bytes → Option Errno → Io (Bool × Option Errno × MogFile)
  | 0, _, _, _ => stuck
  | fuel + 1, file, buf, errno => do
    match ← sys (.pwrite file.fd buf file.foff) with
    | .ok w =>
      if 0 < w.val then
        let file := { file with foff := wrap64 (file.foff + w.val) }
        if w.val = buf.length then pure (true, errno, file)
        else pwriteLoop fuel file (buf.drop w.val) errno
      else pure (false, some (errno.getD .ENOSPC), file)
    | .error .EINTR => pwriteLoop fuel file buf (some .EINTR)
    | .error errno => pure (false, some errno, file)

def mogHttpWriteFull (fuel : Nat) (file : MogFile) (buf : Bytes) (errno : Option Errno) :
    Io (Bool × Option Errno × MogFile) :=
  let file := { file with digest := file.digest.map (· ++ buf) }
  if buf.length = 0 then pure (true, errno, file) else pwriteLoop fuel file buf none

/-! ### Fuel -/

theorem openExpireRetry_lasts {n : Nat} {attempt : Io (Except Errno Fd)} (h : Lasts n attempt) :
    Lasts n (openExpireRetry attempt) := by
  refine lasts_bind h fun answer => ?_
  split
  · exact lasts_ret _ _
  · refine lasts_bind ?_ ?_
    · unfold mogOpenExpireRetry
      split
      · exact lasts_ask_bind fun _ => lasts_ret _ _
      · exact lasts_ask_bind fun _ => lasts_ret _ _
      · exact lasts_ask_bind fun _ => lasts_ret _ _
      · exact lasts_ret _ _
    · rintro ⟨again, errno⟩
      dsimp only
      split
      · exact h
      · exact lasts_ret _ _

theorem pwriteLoop_lasts {n fuel : Nat} (hfuel : n ≤ fuel) (file : MogFile) (buf : Bytes) (errno : Option Errno) :
    Lasts n (pwriteLoop fuel file buf errno) := by
  induction fuel generalizing n file buf errno with
  | zero =>
    obtain rfl := Nat.le_zero.mp hfuel
    trivial
  | succ fuel ih =>
    refine lasts_ask_bind fun answer => ?_
    split
    · split
      · dsimp only
        split
        · exact lasts_ret _ _
        · exact ih (by omega) _ _ _
      · exact lasts_ret _ _
    · exact ih (by omega) _ _ _
    · exact lasts_ret _ _

theorem mogHttpWriteFull_lasts {n fuel : Nat} (hfuel : n ≤ fuel) (file : MogFile) (buf : Bytes)
    (errno : Option Errno) : Lasts n (mogHttpWriteFull fuel file buf errno) := by
  unfold mogHttpWriteFull
  dsimp only
  split
  · exact lasts_ret _ _
  · exact pwriteLoop_lasts hfuel _ _ _

end Cmogstored
