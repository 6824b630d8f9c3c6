import Cmogstored.Offer
import Cmogstored.TryWrite

/-! `trywrite.c` hands bytes to a descriptor. What a descriptor does with them is said by `Offers`, from
its answers alone; the three loops of the code do just that, the first two on all the bytes and the
third on what an earlier call kept. -/

namespace Cmogstored

open List Offer Prog

variable {errno : Errno} {data buf taken whole : Bytes} {trace : Run} {wbuf : Wbuf} {off fuel : Nat}
  {result : WrState × Wbuf} {fate : End Byte}

/-! ### What a run shows of the descriptor -/

/-- The errors of a descriptor that may block. -/
def Errno.kind : Errno → Kind
  | EINTR => .again
  | EAGAIN => .blocked
  | _ => .broken

/-- The bytes a call put on the wire. -/
def acceptedBy : (Σ request : Call, Res request) → Bytes
  | ⟨.write buf, .ok w⟩ => buf.take w
  | ⟨.writev iov, .ok w⟩ => iov.flatten.take w
  | ⟨.send buf _, .ok w⟩ => buf.take w
  | _ => []

def accepted (trace : Run) : Bytes := trace.flatMap acceptedBy

/-- What a call answered: the count or the error. -/
def outcome : (Σ request : Call, Res request) → Except Errno Nat
  | ⟨.write _, answer⟩ => answer.map Fin.val
  | ⟨.writev _, answer⟩ => answer.map Fin.val
  | ⟨.send _ _, answer⟩ => answer.map Fin.val
  | _ => .ok 0

def outcomes (trace : Run) : List (Except Errno Nat) := trace.map outcome

theorem accepted_append (first second : Run) :
    accepted (first ++ second) = accepted first ++ accepted second := flatMap_append

/-- The last answer was an error that ends the connection. -/
def EndsHard (trace : Run) : Prop :=
  ∃ errno : Errno, (outcomes trace).getLast? = some (.error errno) ∧ errno.hard = true

theorem hard_of_kind (h : errno.kind = .broken) : errno.hard = true := by
  cases errno <;> first | rfl | cases h

/-- The bytes of a write buffer that are still to be sent: `buf[off..len)`. -/
def Wbuf.unsent : Wbuf → Bytes
  | .pending buf off => buf.drop off
  | _ => []

/-! ### The loops -/

/-- What the first two loops return. -/
def endWbuf : End Byte → Wbuf
  | .sent => .null
  | .kept rest => .pending rest 0
  | .broken => .error

theorem kind_of_hard (hblocked : errno ≠ .EAGAIN) (hagain : errno ≠ .EINTR) :
    errno.kind = .broken := by
  cases errno <;> first | rfl | exact absurd rfl hblocked | exact absurd rfl hagain

/-- The last call took all there was. -/
theorem offers_all {entry : Σ request : Call, Res request} {w : Nat}
    (hall : w = data.length) (houtcome : outcome entry = .ok w) (htaken : acceptedBy entry = data.take w) :
    Offers Errno.kind data (outcomes [entry]) .sent (accepted [entry]) := by
  subst hall
  rw [outcomes, map_singleton, houtcome, accepted, flatMap_singleton, htaken, take_length]
  exact .all data

theorem trywritevRetry_offers (fuel : Nat) {iov : List Bytes}
    (hrun : Runs (trywritevRetry fuel iov.flatten.length iov) trace (ret wbuf)) :
    ∃ fate, Offers Errno.kind iov.flatten (outcomes trace) fate (accepted trace) ∧
      wbuf = endWbuf fate ∧ trace.length ≤ fuel := by
  induction fuel generalizing iov trace with
  | zero => cases hrun
  | succ fuel ih =>
    rw [trywritevRetry_succ] at hrun
    obtain ⟨answer, trace, rfl, htail⟩ := Runs.of_ask_bind hrun
    split at htail
    · rename_i w
      split at htail
      · rename_i hall
        cases htail
        exact ⟨.sent, offers_all hall rfl rfl, rfl, Nat.succ_le_succ (Nat.zero_le _)⟩
      · obtain ⟨fate, hoffers, rfl, hlength⟩ := ih htail
        rw [iovAdvance_flatten] at hoffers
        exact ⟨fate, .part (by omega) hoffers, rfl, Nat.succ_le_succ hlength⟩
    · cases htail
      exact ⟨_, .blocked _ rfl, rfl, Nat.succ_le_succ (Nat.zero_le _)⟩
    · obtain ⟨fate, hoffers, rfl, hlength⟩ := ih htail
      exact ⟨fate, .again rfl hoffers, rfl, Nat.succ_le_succ hlength⟩
    · cases htail
      exact ⟨.broken, .broken _ (kind_of_hard ‹_› ‹_›), rfl,
        Nat.succ_le_succ (Nat.zero_le _)⟩

theorem trysendLoop_offers (fuel : Nat) {more : Bool}
    (hne : buf ≠ []) (hrun : Runs (trysendLoop fuel buf more) trace (ret wbuf)) :
    ∃ fate, Offers Errno.kind buf (outcomes trace) fate (accepted trace) ∧
      wbuf = endWbuf fate ∧ trace.length ≤ fuel := by
  induction fuel generalizing buf trace with
  | zero => cases hrun
  | succ fuel ih =>
    rw [trysendLoop, if_neg (by simpa using hne)] at hrun
    obtain ⟨answer, trace, rfl, htail⟩ := Runs.of_ask_bind hrun
    split at htail
    · split at htail
      · rename_i hall
        cases htail
        exact ⟨.sent, offers_all hall rfl rfl, rfl, Nat.succ_le_succ (Nat.zero_le _)⟩
      · rename_i w hpart
        have hlt : w.val < buf.length := by omega
        obtain ⟨fate, hoffers, rfl, hlength⟩ := ih (by simpa using hlt) htail
        exact ⟨fate, .part hlt hoffers, rfl, Nat.succ_le_succ hlength⟩
    · cases htail
      exact ⟨_, .blocked _ rfl, rfl, Nat.succ_le_succ (Nat.zero_le _)⟩
    · obtain ⟨fate, hoffers, rfl, hlength⟩ := ih hne htail
      exact ⟨fate, .again rfl hoffers, rfl, Nat.succ_le_succ hlength⟩
    · cases htail
      exact ⟨.broken, .broken _ (kind_of_hard ‹_› ‹_›), rfl,
        Nat.succ_le_succ (Nat.zero_le _)⟩

/-- What a flush returns. -/
def FlushReturns (buf : Bytes) : End Byte → WrState × Wbuf → Prop
  | .sent, result => result = (.done, .null)
  | .kept rest, result => ∃ off, result = (.busy, .pending buf off) ∧ buf.drop off = rest
  | .broken, result => result = (.err, .null)

theorem mogTryflush_offers (fuel : Nat)
    (hrun : Runs (mogTryflush fuel buf off) trace (ret result)) :
    ∃ fate, Offers Errno.kind (buf.drop off) (outcomes trace) fate (accepted trace) ∧
      FlushReturns buf fate result := by
  induction fuel generalizing off trace with
  | zero => cases hrun
  | succ fuel ih =>
    obtain ⟨answer, trace, rfl, htail⟩ := Runs.of_ask_bind hrun
    split at htail
    · split at htail
      · rename_i hall
        cases htail
        exact ⟨.sent, offers_all hall rfl rfl, rfl⟩
      · obtain ⟨fate, hoffers, hreturns⟩ := ih htail
        rw [← drop_drop] at hoffers
        exact ⟨fate, .part (by omega) hoffers, hreturns⟩
    · cases htail
      exact ⟨_, .blocked _ rfl, off, rfl, rfl⟩
    · obtain ⟨fate, hoffers, hreturns⟩ := ih htail
      exact ⟨fate, .again rfl hoffers, hreturns⟩
    · cases htail
      exact ⟨.broken, .broken _ (kind_of_hard ‹_› ‹_›), rfl⟩

/-! ### Every such behaviour is one of the loops -/

theorem errno_of_kind :
    (errno.kind = .again → errno = .EINTR) ∧ (errno.kind = .blocked → errno = .EAGAIN) := by
  cases errno <;> exact ⟨by decide, by decide⟩

theorem trywritevRetry_of_offers {answers : List (Except Errno Nat)}
    (h : Offers Errno.kind data answers fate taken) (fuel : Nat)
    (hfuel : answers.length ≤ fuel) (iov : List Bytes) (hiov : iov.flatten = data) :
    ∃ trace, Runs (trywritevRetry fuel iov.flatten.length iov) trace (ret (endWbuf fate)) ∧ outcomes trace = answers ∧
      accepted trace = taken := by
  induction h generalizing fuel iov with
  | all data =>
    subst hiov
    obtain ⟨fuel, rfl⟩ := Nat.exists_eq_succ_of_ne_zero (Nat.pos_iff_ne_zero.mp hfuel)
    refine ⟨[⟨.writev iov, .ok (Fin.last _)⟩], ?_, rfl, ?_⟩
    · rw [trywritevRetry_succ]
      apply Runs.cons
      show Runs (if (Fin.last iov.flatten.length).val = _ then _ else _) [] _
      rw [if_pos (Fin.val_last _)]
      exact .nil _
    · exact (append_nil _).trans take_length
  | @part data taken answers fate count hcount rest ih =>
    subst hiov
    obtain ⟨fuel, rfl⟩ := Nat.exists_eq_succ_of_ne_zero (Nat.ne_zero_of_lt hfuel)
    obtain ⟨trace, hrun, hanswers, htaken⟩ :=
      ih fuel (Nat.le_of_succ_le_succ hfuel) (iovAdvance iov count) (iovAdvance_flatten iov count)
    refine ⟨⟨.writev iov, .ok ⟨count, Nat.lt_succ_of_lt hcount⟩⟩ :: trace, ?_, ?_, ?_⟩
    · rw [trywritevRetry_succ]
      apply Runs.cons
      show Runs (if count = iov.flatten.length then _ else _) trace _
      rw [if_neg (Nat.ne_of_lt hcount)]
      exact hrun
    · exact congrArg (Except.ok count :: ·) hanswers
    · exact congrArg (iov.flatten.take count ++ ·) htaken
  | @again data taken answers fate errno hkind rest ih =>
    obtain rfl := errno_of_kind.1 hkind
    obtain ⟨fuel, rfl⟩ := Nat.exists_eq_succ_of_ne_zero (Nat.ne_zero_of_lt hfuel)
    obtain ⟨trace, hrun, hanswers, htaken⟩ := ih fuel (Nat.le_of_succ_le_succ hfuel) iov hiov
    exact ⟨⟨.writev iov, .error .EINTR⟩ :: trace, .cons hrun,
      congrArg (Except.error Errno.EINTR :: ·) hanswers, htaken⟩
  | blocked data hkind =>
    subst hiov
    obtain rfl := errno_of_kind.2 hkind
    obtain ⟨fuel, rfl⟩ := Nat.exists_eq_succ_of_ne_zero (Nat.ne_zero_of_lt hfuel)
    rw [trywritevRetry_succ]
    exact ⟨[⟨.writev iov, .error .EAGAIN⟩], .cons (.nil _), rfl, rfl⟩
  | @broken data errno hkind =>
    obtain ⟨fuel, rfl⟩ := Nat.exists_eq_succ_of_ne_zero (Nat.ne_zero_of_lt hfuel)
    refine ⟨[⟨.writev iov, .error errno⟩], .cons ?_, rfl, rfl⟩
    cases errno <;> first | exact .nil _ | cases hkind

theorem trysendLoop_of_offers {answers : List (Except Errno Nat)}
    (more : Bool) (h : Offers Errno.kind data answers fate taken) (hne : data ≠ [])
    (fuel : Nat) (hfuel : answers.length ≤ fuel) :
    ∃ trace, Runs (trysendLoop fuel data more) trace (ret (endWbuf fate)) ∧ outcomes trace = answers ∧
      accepted trace = taken := by
  have hstep : ∀ (fuel : Nat) {data : Bytes}, data ≠ [] → trysendLoop (fuel + 1) data more = _ :=
    fun fuel data hne => by
      rw [trysendLoop, if_neg (by simpa using hne)]
  induction h generalizing fuel with
  | all data =>
    obtain ⟨fuel, rfl⟩ := Nat.exists_eq_succ_of_ne_zero (Nat.pos_iff_ne_zero.mp hfuel)
    rw [hstep fuel hne]
    refine ⟨[⟨.send data more, .ok (Fin.last _)⟩], .cons ?_, rfl, ?_⟩
    · show Runs (if (Fin.last data.length).val = _ then _ else _) [] _
      rw [if_pos (Fin.val_last _)]
      exact .nil _
    · exact (append_nil _).trans take_length
  | @part data taken answers fate count hcount rest ih =>
    obtain ⟨fuel, rfl⟩ := Nat.exists_eq_succ_of_ne_zero (Nat.ne_zero_of_lt hfuel)
    obtain ⟨trace, hrun, hanswers, htaken⟩ :=
      ih (by simpa using hcount) fuel (Nat.le_of_succ_le_succ hfuel)
    rw [hstep fuel hne]
    refine ⟨⟨.send data more, .ok ⟨count, Nat.lt_succ_of_lt hcount⟩⟩ :: trace, .cons ?_, ?_, ?_⟩
    · show Runs (if count = data.length then _ else _) trace _
      rw [if_neg (Nat.ne_of_lt hcount)]
      exact hrun
    · exact congrArg (Except.ok count :: ·) hanswers
    · exact congrArg (data.take count ++ ·) htaken
  | @again data taken answers fate errno hkind rest ih =>
    obtain rfl := errno_of_kind.1 hkind
    obtain ⟨fuel, rfl⟩ := Nat.exists_eq_succ_of_ne_zero (Nat.ne_zero_of_lt hfuel)
    obtain ⟨trace, hrun, hanswers, htaken⟩ := ih hne fuel (Nat.le_of_succ_le_succ hfuel)
    rw [hstep fuel hne]
    exact ⟨⟨.send data more, .error .EINTR⟩ :: trace, .cons hrun,
      congrArg (Except.error Errno.EINTR :: ·) hanswers, htaken⟩
  | blocked data hkind =>
    obtain rfl := errno_of_kind.2 hkind
    obtain ⟨fuel, rfl⟩ := Nat.exists_eq_succ_of_ne_zero (Nat.ne_zero_of_lt hfuel)
    rw [hstep fuel hne]
    exact ⟨[⟨.send data more, .error .EAGAIN⟩], .cons (.nil _), rfl, rfl⟩
  | @broken data errno hkind =>
    obtain ⟨fuel, rfl⟩ := Nat.exists_eq_succ_of_ne_zero (Nat.ne_zero_of_lt hfuel)
    rw [hstep fuel hne]
    refine ⟨[⟨.send data more, .error errno⟩], .cons ?_, rfl, rfl⟩
    cases errno <;> first | exact .nil _ | cases hkind

/-! ### What is sent and what is kept -/

/-- What a first write returns, against all the bytes it was given. -/
structure Exact (whole : Bytes) (trace : Run) (wbuf : Wbuf) : Prop where
  bytes : wbuf ≠ .error → accepted trace ++ wbuf.unsent = whole
  null : wbuf = .null ↔ accepted trace = whole
  error : wbuf = .error → EndsHard trace

/-- What the last of some flushes returns, against all the bytes of the first write. -/
structure FlushExact (whole : Bytes) (trace : Run) (state : WrState) (wbuf : Wbuf) : Prop where
  bytes : state ≠ .err → accepted trace ++ wbuf.unsent = whole
  done : state = .done ↔ accepted trace = whole
  err : state = .err → EndsHard trace

/-- The two ways to start writing. -/
inductive FirstWrite : Io Wbuf → Bytes → Prop where
  | trywritev (fuel : Nat) (iov : List Bytes) : FirstWrite (mogTrywritev fuel iov) iov.flatten
  | trysend (ctx : Ctx) (fuel : Nat) (buf : Bytes) (more : Int) :
      FirstWrite (mogTrysend ctx fuel buf more) buf

/-- Up to `calls + 1` calls of `mog_tryflush`, one after another as long as they are blocked. -/
def flushes (fuel : Nat) : Nat → Bytes → Nat → Io (WrState × Wbuf)
  | 0, buf, off => mogTryflush fuel buf off
  | calls + 1, buf, off => do
    match ← mogTryflush fuel buf off with
    | (.busy, .pending buf off) => flushes fuel calls buf off
    | result => pure result

theorem EndsHard.after {second : Run} (first : Run) (h : EndsHard second) : EndsHard (first ++ second) := by
  obtain ⟨errno, hlast, hhard⟩ := h
  refine ⟨errno, ?_, hhard⟩
  rw [outcomes, map_append, List.getLast?_append]
  rw [outcomes] at hlast
  rw [hlast, Option.some_or]

theorem endsHard_of_broken
    (h : Offers Errno.kind data (outcomes trace) .broken taken) : EndsHard trace := by
  obtain ⟨errno, hlast, hkind⟩ := h.getLast?_of_broken
  exact ⟨errno, hlast, hard_of_kind hkind⟩

theorem exact_of_offers (hne : whole ≠ [])
    (h : Offers Errno.kind whole (outcomes trace) fate (accepted trace)) :
    Exact whole trace (endWbuf fate) := by
  have hsent := h.sent_iff hne
  cases fate with
  | sent => exact ⟨fun _ => h.taken_append_rest nofun, iff_of_true rfl (hsent.mp rfl), nofun⟩
  | kept rest =>
    exact ⟨fun _ => h.taken_append_rest nofun, iff_of_false nofun (mt hsent.mpr nofun), nofun⟩
  | broken =>
    exact ⟨fun hne => absurd rfl hne, iff_of_false nofun (mt hsent.mpr nofun),
      fun _ => endsHard_of_broken h⟩

theorem exact_nil : Exact [] [] .null := ⟨fun _ => rfl, iff_of_true rfl rfl, nofun⟩

theorem mogTrywritev_exact {iov : List Bytes}
    (hrun : Runs (mogTrywritev fuel iov) trace (ret wbuf)) : Exact iov.flatten trace wbuf := by
  unfold mogTrywritev at hrun
  split at hrun
  · rename_i hzero
    cases hrun
    rw [length_eq_zero_iff.mp hzero]
    exact exact_nil
  · rename_i hne
    obtain ⟨fate, hoffers, rfl, -⟩ := trywritevRetry_offers fuel hrun
    exact exact_of_offers (fun hnil => hne (congrArg List.length hnil)) hoffers

theorem trysendLoop_exact {more : Bool}
    (hrun : Runs (trysendLoop fuel buf more) trace (ret wbuf)) : Exact buf trace wbuf := by
  by_cases hne : buf = []
  · subst hne
    cases fuel with
    | zero => cases hrun
    | succ fuel =>
      cases hrun
      exact exact_nil
  · obtain ⟨fate, hoffers, rfl, -⟩ := trysendLoop_offers fuel hne hrun
    exact exact_of_offers hne hoffers

theorem FirstWrite.exact {start : Io Wbuf}
    (h : FirstWrite start whole) (hrun : Runs start trace (ret wbuf)) : Exact whole trace wbuf := by
  cases h with
  | trywritev fuel iov => exact mogTrywritev_exact hrun
  | trysend ctx fuel buf more =>
    unfold mogTrysend at hrun
    split at hrun
    · exact trysendLoop_exact hrun
    · simpa using mogTrywritev_exact hrun

/-- What happens to the bytes an earlier call kept happens to all of them. -/
theorem FlushExact.after {rest : Bytes} {first second : Run} {state : WrState}
    (h : FlushExact rest second state wbuf) (hfirst : accepted first ++ rest = whole) :
    FlushExact whole (first ++ second) state wbuf := by
  subst hfirst
  refine ⟨fun hne => ?_, ?_, fun herr => (h.err herr).after first⟩
  · rw [accepted_append, append_assoc, h.bytes hne]
  · rw [h.done, accepted_append, append_cancel_left_eq]

theorem mogTryflush_exact
    (hne : buf.drop off ≠ [])
    (hrun : Runs (mogTryflush fuel buf off) trace (ret result)) :
    FlushExact (buf.drop off) trace result.1 result.2 ∧
      (result.1 = .busy → ∃ off', result.2 = .pending buf off' ∧ buf.drop off' ≠ []) := by
  obtain ⟨fate, hoffers, hreturns⟩ := mogTryflush_offers fuel hrun
  have hsent := hoffers.sent_iff hne
  cases fate with
  | sent =>
    obtain rfl := hreturns
    exact ⟨⟨fun _ => hoffers.taken_append_rest nofun, iff_of_true rfl (hsent.mp rfl), nofun⟩, nofun⟩
  | kept rest =>
    obtain ⟨off', rfl, rfl⟩ := hreturns
    exact ⟨⟨fun _ => hoffers.taken_append_rest nofun, iff_of_false nofun (mt hsent.mpr nofun), nofun⟩,
      fun _ => ⟨off', rfl, hoffers.kept_ne_nil hne⟩⟩
  | broken =>
    obtain rfl := hreturns
    exact ⟨⟨fun herr => absurd rfl herr, iff_of_false nofun (mt hsent.mpr nofun),
      fun _ => endsHard_of_broken hoffers⟩, nofun⟩

theorem flushes_exact {calls : Nat}
    (hne : buf.drop off ≠ [])
    (hrun : Runs (flushes fuel calls buf off) trace (ret result)) :
    FlushExact (buf.drop off) trace result.1 result.2 := by
  induction calls generalizing off trace with
  | zero => exact (mogTryflush_exact hne hrun).1
  | succ calls ih =>
    obtain ⟨first, second, ⟨state, wbuf⟩, rfl, hfirst, hsecond⟩ := Runs.of_bind hrun
    obtain ⟨hexact, hbusy⟩ := mogTryflush_exact hne hfirst
    cases state with
    | busy =>
      obtain ⟨off', hwbuf, hne'⟩ := hbusy rfl
      dsimp only at hwbuf
      subst hwbuf
      exact (ih hne' hsecond).after (hexact.bytes nofun)
    | done =>
      cases hsecond
      rw [append_nil]
      exact hexact
    | err =>
      cases hsecond
      rw [append_nil]
      exact hexact

/-- The `send` loop and `mog_trywritev` do the same with the same answers. -/
theorem trysendLoop_iff_trywritev (fuel : Nat) (buf : Bytes) (more : Bool)
    (answers : List (Except Errno Nat)) (bytes : Bytes) (wbuf : Wbuf) :
    (∃ trace, Runs (trysendLoop (fuel + 1) buf more) trace (ret wbuf) ∧ outcomes trace = answers ∧
      accepted trace = bytes) ↔
    ∃ trace, Runs (mogTrywritev (fuel + 1) [buf]) trace (ret wbuf) ∧ outcomes trace = answers ∧
      accepted trace = bytes := by
  by_cases hne : buf = []
  · subst hne
    exact Iff.rfl
  · have hflatten : [buf].flatten = buf := by simp
    have hlength : ¬ [buf].flatten.length = 0 := by simpa using hne
    rw [mogTrywritev, if_neg hlength]
    constructor
    · rintro ⟨trace, hrun, rfl, rfl⟩
      obtain ⟨fate, hoffers, rfl, hfuel⟩ := trysendLoop_offers _ hne hrun
      exact trywritevRetry_of_offers hoffers _ (by rwa [outcomes, length_map]) _ hflatten
    · rintro ⟨trace, hrun, rfl, rfl⟩
      obtain ⟨fate, hoffers, rfl, hfuel⟩ := trywritevRetry_offers _ hrun
      rw [hflatten] at hoffers
      exact trysendLoop_of_offers more hoffers hne _ (by rwa [outcomes, length_map])

theorem mogTrysend_iff_trywritev (ctx : Ctx) (fuel : Nat) (buf : Bytes) (more : Int)
    (answers : List (Except Errno Nat)) (bytes : Bytes) (wbuf : Wbuf) :
    (∃ trace, Runs (mogTrysend ctx (fuel + 1) buf more) trace (ret wbuf) ∧ outcomes trace = answers ∧
      accepted trace = bytes) ↔
    ∃ trace, Runs (mogTrywritev (fuel + 1) [buf]) trace (ret wbuf) ∧ outcomes trace = answers ∧
      accepted trace = bytes := by
  unfold mogTrysend
  split
  · exact trysendLoop_iff_trywritev fuel buf _ answers bytes wbuf
  · exact Iff.rfl

/-- **Buffered output is exact.** -/
theorem output_exact {start : Io Wbuf} {whole : Bytes} (hstart : FirstWrite start whole) :
    (∀ trace wbuf, Runs start trace (ret wbuf) → Exact whole trace wbuf) ∧
    (∀ first buf off, Runs start first (ret (.pending buf off)) →
      ∀ fuel calls second state wbuf, Runs (flushes fuel calls buf off) second (ret (state, wbuf)) →
        FlushExact whole (first ++ second) state wbuf) ∧
    ∀ ctx fuel buf more answers bytes wbuf,
      (∃ trace, Runs (mogTrysend ctx (fuel + 1) buf more) trace (ret wbuf) ∧ outcomes trace = answers ∧
        accepted trace = bytes) ↔
      ∃ trace, Runs (mogTrywritev (fuel + 1) [buf]) trace (ret wbuf) ∧ outcomes trace = answers ∧
        accepted trace = bytes := by
  refine ⟨fun _ _ => hstart.exact, ?_, mogTrysend_iff_trywritev⟩
  intro first buf off hfirst fuel calls second state wbuf hsecond
  have hexact := hstart.exact hfirst
  have hbytes : accepted first ++ buf.drop off = whole := hexact.bytes nofun
  have hne : buf.drop off ≠ [] := by
    intro hnil
    rw [hnil, append_nil] at hbytes
    exact absurd (hexact.null.mpr hbytes) nofun
  exact (flushes_exact hne hsecond).after hbytes

/-- Three bytes in two iovecs: one is taken, the socket blocks, and a flush sends the rest. -/
theorem output_exact_blocked :
    accepted [⟨.writev [[97, 98], [99]], .ok 1⟩, ⟨.writev [[98], [99]], .error .EAGAIN⟩] = [97] ∧
    FlushExact [97, 98, 99] ([⟨.writev [[97, 98], [99]], .ok 1⟩,
      ⟨.writev [[98], [99]], .error .EAGAIN⟩] ++ [⟨.write [98, 99], .ok 2⟩]) .done .null := by
  refine ⟨rfl, ?_⟩
  refine (output_exact (.trywritev 3 [[97, 98], [99]])).2.1 _ [98, 99] 0 ?_ 1 0 _ .done .null ?_
  · exact .cons (.cons (.nil _))
  · exact .cons (.nil _)

end Cmogstored
