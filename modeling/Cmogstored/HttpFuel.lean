import Cmogstored.Http

/-! The fuel of an upload whose body is not chunked: no loop runs out of it before it made as many calls as it
was given. -/

namespace Cmogstored

open Prog

variable {n fuel : Nat} {ctx : Ctx}

/-! ### Answers -/

theorem mogHttpResp_lasts (hfuel : n ≤ fuel) (http : Http) (status : Status) (alive : Bool) :
    Lasts n (mogHttpResp fuel http status alive) := by
  refine lasts_ask_bind fun date => lasts_require_bind (lasts_ask_bind fun _ => ?_)
  exact lasts_bind (mogTrywritev_lasts (by omega) _) fun _ => lasts_ret _ _

theorem mogHttpReset_lasts (n : Nat) (http : Http) : Lasts n (mogHttpReset http) :=
  lasts_ask_bind fun _ => lasts_ret _ _

theorem fileCloseNull_lasts (n : Nat) (http : Http) : Lasts n (fileCloseNull http) := by
  have hclose : ∀ n file, Lasts n (mogFileClose file) := fun n file => lasts_ask_bind fun _ => lasts_ret _ _
  have hunlink : ∀ file, Lasts n (unlinkTmp file) := by
    intro file
    unfold unlinkTmp
    split
    · exact lasts_ret _ _
    · exact lasts_ask_bind fun _ => lasts_ret _ _
  unfold fileCloseNull
  split
  · exact lasts_ret _ _
  · exact lasts_bind (hunlink _) fun _ => lasts_bind (hclose n _) fun _ => lasts_ret _ _

theorem stop_lasts (hfuel : n ≤ fuel) (http : Http) (status : Option Status) : Lasts n (stop fuel http status) := by
  refine lasts_bind ?_ fun http' => lasts_bind (fileCloseNull_lasts n http') fun _ => lasts_ret _ _
  unfold stopReply
  split
  · exact mogHttpResp_lasts hfuel _ _ _
  · exact lasts_ret _ _

theorem writeErr_lasts (hfuel : n ≤ fuel) (http : Http) (errno : Option Errno) (defaultMsg : Option Status) :
    Lasts n (writeErr fuel http errno defaultMsg) :=
  stop_lasts hfuel http _

theorem putErr_lasts (hfuel : n ≤ fuel) (http : Http) (errno : Option Errno) : Lasts n (putErr fuel http errno) := by
  unfold putErr
  split
  · exact mogHttpResp_lasts hfuel _ _ _
  · exact mogHttpResp_lasts hfuel _ _ _
  · exact mogHttpResp_lasts hfuel _ _ _
  · exact lasts_bind (writeErr_lasts hfuel _ _ _) fun _ => lasts_ret _ _

/-! ### The end of an upload -/

theorem setPermsCommit_lasts (n : Nat) (file : MogFile) : Lasts n (setPermsCommit file) := by
  refine lasts_ask_bind fun answer => ?_
  split
  · exact lasts_ret _ _
  · split
    · exact lasts_ret _ _
    · split
      · exact lasts_abort _
      · refine lasts_ask_bind fun answer => ?_
        split
        · exact lasts_ret _ _
        · exact lasts_ret _ _

theorem putCommitResp_lasts (hfuel : n ≤ fuel) (http : Http) : Lasts n (putCommitResp ctx fuel http) := by
  refine lasts_ask_bind fun _ => ?_
  split
  · exact lasts_abort _
  · split
    · refine lasts_bind (setPermsCommit_lasts _ _) fun result => lasts_bind (fileCloseNull_lasts _ _) fun http' => ?_
      split
      · exact mogHttpResp_lasts (by omega) _ _ _
      · exact mogHttpResp_lasts (by omega) _ _ _
    · exact lasts_bind (fileCloseNull_lasts _ _) fun http' => mogHttpResp_lasts (by omega) _ _ _

theorem httpPutCommit_lasts (hfuel : n ≤ fuel) (http : Http) : Lasts n (httpPutCommit ctx fuel http) := by
  refine lasts_bind (putCommitResp_lasts hfuel http) fun http' => ?_
  split
  · exact lasts_ret _ _
  · exact lasts_ret _ _
  · split
    · exact lasts_bind (mogHttpReset_lasts _ _) fun _ => lasts_ret _ _
    · exact lasts_ret _ _

theorem putFinish_lasts (hfuel : n ≤ fuel) (exit : PutExit) : Lasts n (putFinish ctx fuel exit) := by
  cases exit with
  | waitRd http => exact lasts_ret _ _
  | stop http => exact stop_lasts hfuel http none
  | writeErr http errno defaultMsg => exact writeErr_lasts hfuel http errno defaultMsg
  | commit http => exact httpPutCommit_lasts hfuel http

/-! ### The body -/

theorem identityAgain_lasts (hfuel : n ≤ fuel) (http : Http) (file : MogFile) (need : Int) (bufLen : Nat) :
    Lasts n (identityAgain fuel http file need bufLen) := by
  induction fuel generalizing n http file need bufLen with
  | zero =>
    obtain rfl := Nat.le_zero.mp hfuel
    trivial
  | succ fuel ih =>
    refine lasts_require_bind (lasts_ask_bind fun answer => ?_)
    split
    · split
      · exact lasts_ret _ _
      · refine lasts_bind (mogHttpWriteFull_lasts (by omega) _ _ _) fun result => ?_
        dsimp only
        split
        · split
          · exact lasts_ret _ _
          · exact ih (by omega) _ _ _ _
        · exact lasts_ret _ _
    · exact lasts_ret _ _
    · exact ih (by omega) _ _ _ _
    · exact lasts_ret _ _

theorem identityPutInProgress_lasts (hfuel : n ≤ fuel) (http : Http) :
    Lasts n (identityPutInProgress fuel http) := by
  have hneed : ∀ (file : MogFile) (need : Int), Lasts n (if need = 0 then pure (.commit http)
      else identityAgain fuel http file need fsbufSize) := by
    intro file need
    split
    · exact lasts_ret _ _
    · exact identityAgain_lasts hfuel _ _ _ _
  refine lasts_require_bind ?_
  split
  · exact lasts_abort _
  · exact hneed _ _

/-- A step that goes on with the body makes a call before it can run out. -/
theorem httpForwardInProgress_lasts (hfuel : n ≤ fuel) {http : Http} (hput : http.httpMethod = .put)
    (hplain : http.chunked = false) : Lasts n (httpForwardInProgress ctx fuel http) := by
  refine lasts_ask_bind fun _ => ?_
  rw [if_neg (by rw [hput]; exact nofun)]
  refine lasts_require_bind (lasts_bind ?_ fun exit => putFinish_lasts (by omega) exit)
  unfold putInProgress
  rw [hplain, if_neg Bool.false_ne_true]
  exact identityPutInProgress_lasts (by omega) http

/-! ### The head -/

theorem mkdirs_lasts (n : Nat) (dirs : List Bytes) : Lasts n (mkdirs dirs) := by
  induction dirs generalizing n with
  | nil => exact lasts_ret _ _
  | cons dir dirs ih =>
    refine lasts_ask_bind fun answer => ?_
    split
    · exact ih _
    · exact ih _
    · exact lasts_ret _ _

theorem mkpathOpenPut_lasts (n : Nat) (path : Bytes) (flags : OpenFlags) : Lasts n (mkpathOpenPut path flags) := by
  have hopen : ∀ n, Lasts n (sys (.openPut path flags)) := fun n => lasts_ask_bind fun _ => lasts_ret _ _
  have hmkpath : ∀ n, Lasts n (mogMkpathFor path) := by
    intro n
    unfold mogMkpathFor
    split
    · exact mkdirs_lasts n _
    · exact lasts_ret _ _
  refine lasts_bind (hopen n) fun answer => ?_
  split
  · refine lasts_bind (hmkpath n) fun answer => ?_
    split
    · exact hopen n
    · exact lasts_ret _ _
  · exact lasts_ret _ _

theorem mogFileOpenPut_lasts (n : Nat) (path : Bytes) (flags : OpenFlags) :
    Lasts n (mogFileOpenPut path flags) := by
  refine lasts_bind (openExpireRetry_lasts (mkpathOpenPut_lasts n path flags)) fun answer => ?_
  split <;> exact lasts_ret _ _

theorem openTmp_lasts (n : Nat) (path : Bytes) : Lasts n (openTmp ctx path) := by
  refine lasts_ask_bind fun result => lasts_bind (mogFileOpenPut_lasts _ _ _) fun answer => ?_
  split
  · exact lasts_ret _ _
  · refine lasts_ask_bind fun result => lasts_bind (mogFileOpenPut_lasts _ _ _) fun answer => ?_
    split <;> exact lasts_ret _ _
  · exact lasts_ret _ _

theorem openPut_lasts (n : Nat) (http : Http) (path : Bytes) : Lasts n (openPut ctx http path) := by
  refine lasts_bind ?_ fun answer => ?_
  · unfold openTarget
    split
    · exact mogFileOpenPut_lasts n _ _
    · exact openTmp_lasts n path
  · split <;> exact lasts_ret _ _

theorem identityBodyAfterHeader_lasts (hfuel : n ≤ fuel) (http : Http) (buf : Bytes) :
    Lasts n (identityBodyAfterHeader fuel http buf) := by
  unfold identityBodyAfterHeader
  dsimp only
  split
  · exact lasts_ret _ _
  · split
    · exact lasts_abort _
    · refine lasts_bind (mogHttpWriteFull_lasts hfuel _ _ _) fun result => ?_
      split
      · exact lasts_ret _ _
      · exact lasts_bind (writeErr_lasts hfuel _ _ _) fun _ => lasts_ret _ _

theorem putBody_lasts (hfuel : n ≤ fuel) {http : Http} (hplain : http.chunked = false) (buf : Bytes) :
    Lasts n (putBody ctx fuel http buf) := by
  unfold putBody
  rw [hplain]
  split
  · exact lasts_ret _ _
  · exact lasts_require_bind (identityBodyAfterHeader_lasts hfuel http buf)

theorem mogHttpPath_lasts (n : Nat) (http : Http) (buf : Bytes) : Lasts n (mogHttpPath http buf) := by
  refine lasts_require_bind ?_
  dsimp only
  split
  · exact lasts_ret _ _
  · split <;> exact lasts_ret _ _

theorem mogHttpPut_lasts (hfuel : n ≤ fuel) {http : Http} (hplain : http.chunked = false) (buf : Bytes) :
    Lasts n (mogHttpPut ctx fuel http buf) := by
  unfold mogHttpPut
  split
  · exact mogHttpResp_lasts hfuel _ _ _
  · refine lasts_bind (mogHttpPath_lasts n http buf) fun answer => ?_
    split
    · exact putErr_lasts hfuel _ _
    · refine lasts_require_bind (lasts_require_bind ?_)
      split
      · refine lasts_bind (openPut_lasts n http _) fun answer => ?_
        split
        · exact putErr_lasts hfuel _ _
        · apply putBody_lasts hfuel
          exact hplain
      · exact lasts_bind (writeErr_lasts hfuel _ _ _) fun _ => lasts_ret _ _

theorem httpDeferRbuf_lasts (n : Nat) (http : Http) (buf : Bytes) : Lasts n (httpDeferRbuf http buf) := by
  unfold httpDeferRbuf
  split
  · exact lasts_ret _ _
  · refine lasts_require_bind ?_
    dsimp only
    split <;> exact lasts_ret _ _

end Cmogstored
