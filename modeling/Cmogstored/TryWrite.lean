import Cmogstored.Calls

/-! `trywrite.c`: writing to a socket that may block. What the socket does not take is kept in a
`mog_wbuf` and flushed later. -/

namespace Cmogstored

open Prog

inductive WrState where
  | err | done | busy
  deriving DecidableEq, Repr

/-- `mog_tryflush` on a buffer of which `off` bytes are written. -/
def mogTryflush : Nat → Bytes → Nat → Io (WrState × Wbuf)
  | 0, _, _ => stuck
  | fuel + 1, buf, off => do
    match ← sys (.write (buf.drop off)) with
    | .ok w =>
      if w.val = (buf.drop off).length then pure (.done, .null)
      else mogTryflush fuel buf (off + w.val)
    | .error .EAGAIN => pure (.busy, .pending buf off)
    | .error .EINTR => mogTryflush fuel buf off
    | .error _ => pure (.err, .null)

/-- The iovecs left after `w` bytes: those written completely are skipped, one written in part is
shortened. -/
def iovAdvance : List Bytes → Nat → List Bytes
  | iov, 0 => iov
  | [], _ => []
  | buf :: iov, w =>
    if buf.length > w then buf.drop w :: iov else iovAdvance iov (w - buf.length)

theorem iovAdvance_flatten (iov : List Bytes) (w : Nat) :
    (iovAdvance iov w).flatten = iov.flatten.drop w := by
  induction iov generalizing w with
  | nil => cases w <;> simp [iovAdvance]
  | cons buf iov ih =>
    cases w with
    | zero => simp [iovAdvance]
    | succ w =>
      rw [iovAdvance]
      split
      · rename_i hlong
        rw [List.flatten_cons, List.flatten_cons, List.drop_append_of_le_length (by omega)]
      · rename_i hshort
        have hbuf : buf.drop (w + 1) = [] := List.drop_eq_nil_of_le (by omega)
        rw [ih, List.flatten_cons, List.drop_append, hbuf, List.nil_append]
      · simp

/-- A buffer of `total` bytes, filled from the iovecs. -/
def wbufNewv (total : Int) (iov : List Bytes) : Wbuf := .pending (iov.flatten.take total.toNat) 0

/-- The `retry` loop of `mog_trywritev`. -/
def trywritevRetry : Nat → Int → List Bytes → Io Wbuf
  | 0, _, _ => stuck
  | fuel + 1, total, iov => do
    match ← sys (.writev iov) with
    | .ok w =>
      if w.val = total then pure .null
      else trywritevRetry fuel (total - w.val) (iovAdvance iov w.val)
    | .error .EAGAIN => pure (wbufNewv total iov)
    | .error .EINTR => trywritevRetry fuel total iov
    | .error _ => pure .error

def mogTrywritev (fuel : Nat) (iov : List Bytes) : Io Wbuf :=
  if iov.flatten.length = 0 then pure .null else trywritevRetry fuel iov.flatten.length iov

/-- The running total stays the length of the iovecs that are left. -/
theorem trywritevRetry_succ (fuel : Nat) (iov : List Bytes) :
    trywritevRetry (fuel + 1) iov.flatten.length iov = (do
      match ← sys (.writev iov) with
      | .ok w =>
        if w.val = iov.flatten.length then pure .null
        else trywritevRetry fuel (iovAdvance iov w.val).flatten.length (iovAdvance iov w.val)
      | .error .EAGAIN => pure (.pending iov.flatten 0)
      | .error .EINTR => trywritevRetry fuel iov.flatten.length iov
      | .error _ => pure .error) := by
  have hwhole : wbufNewv iov.flatten.length iov = .pending iov.flatten 0 := by
    rw [wbufNewv, Int.toNat_natCast, List.take_length]
  rw [trywritevRetry, hwhole]
  congr 1
  funext answer
  cases answer with
  | error errno => cases errno <;> rfl
  | ok w =>
    have hleft : ((iovAdvance iov w.val).flatten.length : Int) = iov.flatten.length - w.val := by
      rw [iovAdvance_flatten, List.length_drop, Nat.cast_sub (Nat.lt_succ_iff.mp w.isLt)]
    simp only [Nat.cast_inj, hleft]

/-- The `send` loop of `mog_trysend`. -/
def trysendLoop : Nat → Bytes → Bool → Io Wbuf
  | 0, _, _ => stuck
  | fuel + 1, buf, more =>
    if buf.length = 0 then pure .null
    else do
      match ← sys (.send buf more) with
      | .ok w =>
        if w.val = buf.length then pure .null
        else trysendLoop fuel (buf.drop w.val) more
      | .error .EAGAIN => pure (.pending buf 0)
      | .error .EINTR => trysendLoop fuel buf more
      | .error _ => pure .error

def mogTrysend (ctx : Ctx) (fuel : Nat) (buf : Bytes) (more : Int) : Io Wbuf :=
  if ctx.msgMore then trysendLoop fuel buf (0 < more) else mogTrywritev fuel [buf]

/-! ### Frames -/

section Frames

variable {S : Call → Prop} (hwritev : ∀ iov, S (.writev iov)) (hsend : ∀ buf more, S (.send buf more))

include hwritev in
theorem trywritevRetry_sure (fuel : Nat) (total : Int) (iov : List Bytes) :
    (trywritevRetry fuel total iov).Sure S fun _ => True := by
  induction fuel generalizing total iov with
  | zero => trivial
  | succ fuel ih =>
    refine sure_ask_bind (hwritev iov) fun answer => ?_
    split
    · split
      · trivial
      · exact ih _ _
    · trivial
    · exact ih _ _
    · trivial

include hwritev in
theorem mogTrywritev_sure (fuel : Nat) (iov : List Bytes) :
    (mogTrywritev fuel iov).Sure S fun _ => True := by
  unfold mogTrywritev
  split
  · trivial
  · exact trywritevRetry_sure hwritev fuel _ iov

include hsend in
theorem trysendLoop_sure (fuel : Nat) (buf : Bytes) (more : Bool) :
    (trysendLoop fuel buf more).Sure S fun _ => True := by
  induction fuel generalizing buf with
  | zero => trivial
  | succ fuel ih =>
    rw [trysendLoop]
    split
    · trivial
    · refine sure_ask_bind (hsend buf more) fun answer => ?_
      split
      · split
        · trivial
        · exact ih _
      · trivial
      · exact ih _
      · trivial

include hwritev hsend in
theorem mogTrysend_sure (ctx : Ctx) (fuel : Nat) (buf : Bytes) (more : Int) :
    (mogTrysend ctx fuel buf more).Sure S fun _ => True := by
  unfold mogTrysend
  split
  · exact trysendLoop_sure hsend fuel buf _
  · exact mogTrywritev_sure hwritev fuel _

end Frames

/-! ### Fuel -/

section Fuel

variable {n fuel : Nat}

theorem trywritevRetry_lasts (hfuel : n ≤ fuel) (total : Int) (iov : List Bytes) :
    Lasts n (trywritevRetry fuel total iov) := by
  induction fuel generalizing n total iov with
  | zero =>
    obtain rfl := Nat.le_zero.mp hfuel
    trivial
  | succ fuel ih =>
    refine lasts_ask_bind fun answer => ?_
    split
    · split
      · exact lasts_ret _ _
      · exact ih (by omega) _ _
    · exact lasts_ret _ _
    · exact ih (by omega) _ _
    · exact lasts_ret _ _

theorem mogTryflush_lasts (hfuel : n ≤ fuel) (buf : Bytes) (off : Nat) :
    Lasts n (mogTryflush fuel buf off) := by
  induction fuel generalizing n off with
  | zero =>
    obtain rfl := Nat.le_zero.mp hfuel
    trivial
  | succ fuel ih =>
    refine lasts_ask_bind fun answer => ?_
    split
    · split
      · exact lasts_ret _ _
      · exact ih (by omega) _
    · exact lasts_ret _ _
    · exact ih (by omega) _
    · exact lasts_ret _ _

theorem mogTrywritev_lasts (hfuel : n ≤ fuel) (iov : List Bytes) : Lasts n (mogTrywritev fuel iov) := by
  unfold mogTrywritev
  split
  · exact lasts_ret _ _
  · exact trywritevRetry_lasts hfuel _ iov

end Fuel

end Cmogstored
