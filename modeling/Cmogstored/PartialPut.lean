import Mathlib.Data.List.Infix
import Mathlib.Logic.Function.Basic
import Cmogstored.HttpFuel
import Cmogstored.HttpRule
import Cmogstored.PutPath

/-! An upload with a `Content-Range`: it is written straight into its destination. `lengths_ok` lets a request
through only if its length is the length of its range, and what is still missing is computed from the offset in
the file each time the client is ready. This follows one request from its complete head to the step that does
not wait for more of its body. -/

namespace Cmogstored

open List Prog

/-! ### Files by offset -/

/-- The bytes of a file by their offsets. -/
abbrev Contents := Int → Option Byte

/-- The contents after `data` was written from `start` on. -/
def Contents.write (file : Contents) (start : Int) (data : Bytes) : Contents := fun offset =>
  if start ≤ offset ∧ offset < start + data.length then data[(offset - start).toNat]? else file offset

section Write

variable {file : Contents} {start : Int} {data : Bytes}

theorem Contents.write_outside {offset : Int} (h : offset < start ∨ start + data.length ≤ offset) :
    file.write start data offset = file offset := by
  apply if_neg
  omega

theorem Contents.write_inside {k : Nat} (h : k < data.length) : file.write start data (start + k) = data[k]? := by
  have hk : (start + k - start).toNat = k := by omega
  calc file.write start data (start + k)
      = data[(start + k - start).toNat]? := if_pos (by omega)
    _ = data[k]? := by rw [hk]

theorem Contents.write_nil : file.write start [] = file := by
  funext offset
  apply write_outside
  rw [length_nil]
  omega

/-- Two writes one behind the other are one. -/
theorem Contents.write_write {more : Bytes} :
    (file.write start data).write (start + data.length) more = file.write start (data ++ more) := by
  funext offset
  have hlen : (data ++ more).length = data.length + more.length := length_append
  by_cases hbefore : offset < start + data.length
  · rw [write_outside (Or.inl hbefore)]
    by_cases hstart : start ≤ offset
    · have hoffset : offset = start + (offset - start).toNat := by omega
      rw [hoffset, write_inside (by omega), write_inside (by omega), List.getElem?_append_left (by omega)]
    · rw [write_outside (Or.inl (by omega)), write_outside (Or.inl (by omega))]
  · by_cases hend : offset < start + data.length + more.length
    · have hoffset : offset = start + data.length + (offset - start - data.length).toNat := by omega
      have hoffset' : offset = start + (data.length + (offset - start - data.length).toNat : Nat) := by omega
      calc (file.write start data).write (start + data.length) more offset
          = more[(offset - start - data.length).toNat]? := by
            rw [hoffset, write_inside (by omega)]
            congr 1
            omega
        _ = (data ++ more)[data.length + (offset - start - data.length).toNat]? := by
            rw [List.getElem?_append_right (by omega)]
            congr 1
            omega
        _ = file.write start (data ++ more) offset := by
            rw [hoffset', write_inside (by omega)]
            congr 1
            omega
    · rw [write_outside (Or.inr (by omega)), write_outside (Or.inr (by omega)), write_outside (Or.inr (by omega))]

end Write

/-! ### The request -/

/-- The steps after the first: as long as one waits for input, the next call of `http_queue_step`. -/
def uploadRest (ctx : Ctx) (fuel : Nat) : Nat → Http × Next → Io (Http × Next)
  | 0, _ => stuck
  | rounds + 1, (http, .waitRd) => do
    let result ← httpQueueStep ctx fuel http
    uploadRest ctx fuel rounds result
  | _ + 1, result => pure result

/-- A request from its complete head, `buf` being what was read with it, to the first step that does not wait
for input. -/
def upload (ctx : Ctx) (fuel : Nat) (http : Http) (buf : Bytes) : Io (Http × Next) := do
  let result ← queueDone ctx fuel http buf
  uploadRest ctx fuel fuel result

/-- `need` as `identity_put_in_progress` computes it. -/
def identityNeed (http : Http) (file : MogFile) : Int :=
  let need := wrap64 (http.contentLen - file.foff)
  if http.hasContentRange then wrap64 (need + http.rangeBeg) else need

/-- The fields of a request whose body goes into a range of its file. -/
structure IsPartialPut (fields : Fields) : Prop where
  put : fields.httpMethod = .put
  plain : fields.chunked = false
  ranged : fields.hasContentRange = true

/-- A value of `off_t`. -/
def IsOff (n : Int) : Prop := -2 ^ 63 ≤ n ∧ n < 2 ^ 63

/-- A length that agrees with its range. -/
structure LengthsAgree (fields : Fields) : Prop where
  beg : 0 ≤ fields.rangeBeg
  order : fields.rangeBeg ≤ fields.rangeEnd
  nonneg : 0 ≤ fields.contentLen
  len : fields.contentLen = fields.rangeEnd - fields.rangeBeg + 1

/-- **`lengths_ok` computes with integers**: its sum wraps for the range of all offsets only, and then no
length agrees. -/
theorem lengthsOk_iff {http : Http} (hplain : http.chunked = false) (hranged : http.hasContentRange = true)
    (hbeg : IsOff http.rangeBeg) (hend : IsOff http.rangeEnd) (hlen : IsOff http.contentLen) :
    lengthsOk http = true ↔ LengthsAgree http.toFields := by
  obtain ⟨-, hbeg⟩ := hbeg
  obtain ⟨-, hend⟩ := hend
  obtain ⟨-, hlen⟩ := hlen
  have hvalue : 0 ≤ http.rangeBeg → http.rangeBeg ≤ http.rangeEnd → 0 ≤ http.contentLen →
      (http.contentLen = wrap64 (http.rangeEnd - http.rangeBeg + 1) ↔
        http.contentLen = http.rangeEnd - http.rangeBeg + 1) := by
    intro hbeg0 horder hlen0
    unfold wrap64
    rw [Int.bmod_def]
    split <;> omega
  unfold lengthsOk
  rw [if_pos hranged, hplain]
  constructor
  · intro h
    split at h
    · cases h
    · simp only [Bool.false_eq_true, if_false] at h
      split at h
      · cases h
      · split at h
        · cases h
        · have hbeg0 : 0 ≤ http.rangeBeg := by omega
          have horder : http.rangeBeg ≤ http.rangeEnd := by omega
          have hlen0 : 0 ≤ http.contentLen := by omega
          exact ⟨hbeg0, horder, hlen0, (hvalue hbeg0 horder hlen0).mp (beq_iff_eq.mp h)⟩
  · intro h
    obtain ⟨hbeg0, horder, hlen0, hlen⟩ := h
    rw [if_neg (by omega), if_neg (by simp), if_neg (by omega), if_neg (by omega)]
    exact beq_iff_eq.mpr ((hvalue hbeg0 horder hlen0).mpr hlen)

/-! ### What the calls of a run make of the upload -/

/-- The files by descriptor, the descriptor `open_put` got, the bytes that came behind the head, how many of them
were written, whether `http_put_commit` was entered, and whether the client or the file gave up: a read of zero
bytes, or an error that is not tried again. -/
structure RangeRun where
  disk : Fd → Contents
  file : Option Fd
  received : Bytes
  written : Nat
  committed : Bool
  gaveUp : Bool

def RangeRun.start (disk : Fd → Contents) (body : Bytes) : RangeRun where
  disk := disk
  file := none
  received := body
  written := 0
  committed := false
  gaveUp := false

def RangeRun.next (run : RangeRun) : (request : Call) → Res request → RangeRun
  | .read _, .ok data =>
    { run with received := run.received ++ data.val, gaveUp := run.gaveUp || data.val.isEmpty }
  | .read _, .error errno => { run with gaveUp := run.gaveUp || errno.hard }
  | .openPut _ _, .ok fd => { run with file := some fd }
  | .pwrite fd buf foff, .ok w =>
    { run with
      disk := Function.update run.disk fd ((run.disk fd).write foff (buf.take w.val))
      written := run.written + w.val
      gaveUp := run.gaveUp || w.val == 0 }
  | .pwrite _ _ _, .error errno => { run with gaveUp := run.gaveUp || errno != .EINTR }
  | .note (.commit _), _ => { run with committed := true }
  | _, _ => run

/-- What the code has to respect for a body of `length` bytes that goes into the file from `start` on. -/
def RangeRun.Keeps (start : Int) (length : Nat) (run : RangeRun) : Call → Prop
  | .read count => 0 < count ∧ run.written + count ≤ length
  | .openPut _ _ => run.file = none ∧ run.written = 0
  | .pwrite fd buf foff =>
    run.file = some fd ∧ foff = start + run.written ∧ buf ≠ [] ∧
      buf <+: (run.received.take length).drop run.written
  | .note (.forward http) =>
    ∃ file, http.forward = some file ∧ identityNeed http file = length - run.written ∧ run.written ≤ length
  | .note (.commit _) => run.written = length ∧ run.committed = false
  | _ => True

def rangeContract (start : Int) (length : Nat) : Contract Call Res RangeRun where
  must := RangeRun.Keeps start length
  may _ _ _ := True
  next := RangeRun.next
  excused _ := False

/-- Calls an upload does not notice. -/
def IdleCall : Call → Prop
  | .read _ => False
  | .openPut _ _ => False
  | .pwrite _ _ _ => False
  | .note (.forward _) => False
  | .note (.commit _) => False
  | _ => True

section Rules

variable {start : Int} {length : Nat} {run : RangeRun} {α : Type}

theorem RangeRun.next_idle {request : Call} (answer : Res request) (h : IdleCall request) :
    run.next request answer = run := by
  cases request with
  | note event => cases event <;> first | exact h.elim | rfl
  | _ => first | exact h.elim | rfl

theorem RangeRun.keeps_idle {request : Call} (h : IdleCall request) : run.Keeps start length request := by
  cases request with
  | note event => cases event <;> first | exact h.elim | trivial
  | _ => first | exact h.elim | trivial

theorem wp_idle {program : Io α} {Q : α → Prop} (h : program.Sure IdleCall Q) :
    wp (rangeContract start length) program (fun value run' => Q value ∧ run' = run) run := by
  refine wp_sure (J := fun run' => run' = run) ?_ h rfl
  intro run' request hrun hidle
  subst hrun
  exact ⟨RangeRun.keeps_idle hidle, fun answer _ => RangeRun.next_idle answer hidle⟩

/-! ### Programs an upload does not notice -/

variable {http : Http} {fuel : Nat}

theorem mogHttpResp_idle (hnull : http.wbuf = .null) (status : Status) (alive : Bool) :
    (mogHttpResp fuel http status alive).Sure IdleCall fun http' =>
      ∃ wbuf, http' = { http.setPersistent (alive && http.persistent) with wbuf := wbuf } := by
  refine sure_ask_bind trivial fun date => sure_require_bind (by simp [Http.setPersistent, hnull]) ?_
  exact sure_ask_bind trivial fun _ => (mogTrywritev_sure (fun _ => trivial) fuel _).bind fun wbuf _ => ⟨wbuf, rfl⟩

theorem fileCloseNull_idle (http : Http) :
    (fileCloseNull http).Sure IdleCall fun http' => http' = { http with forward := none } := by
  unfold fileCloseNull
  split
  · rename_i hnone
    cases http
    cases hnone
    exact rfl
  · rename_i file hfile
    unfold unlinkTmp
    split
    · exact sure_ask_bind trivial fun _ => rfl
    · exact sure_ask_bind trivial fun _ => sure_ask_bind trivial fun _ => rfl

/-- An answer that refuses the upload is the last thing a step does. -/
structure Refused (offset : Nat) (http : Http) : Prop where
  forward : http.forward = none
  persistent : http.persistent = false
  offset_eq : http.offset = offset

theorem writeErr_idle (hnull : http.wbuf = .null) (errno : Option Errno) (defaultMsg : Option Status) :
    (writeErr fuel http errno defaultMsg).Sure IdleCall fun result =>
      Refused http.offset result.1 ∧ result.2 = .close := by
  refine Sure.bind (mogHttpResp_idle hnull _ false) fun http' hresp => ?_
  obtain ⟨wbuf, rfl⟩ := hresp
  refine Sure.bind (fileCloseNull_idle _) fun http' hclosed => ?_
  subst hclosed
  exact ⟨⟨rfl, rfl, rfl⟩, rfl⟩

theorem stop_idle (http : Http) : (stop fuel http none).Sure IdleCall fun result => result.2 = .close := by
  refine Sure.bind (Q := fun _ => True) (sure_ret trivial) fun http' _ => ?_
  exact Sure.bind (fileCloseNull_idle http') fun _ _ => rfl

theorem mogHttpResp_refused (hnull : http.wbuf = .null) (hnone : http.forward = none) (status : Status) :
    (mogHttpResp fuel http status false).Sure IdleCall (Refused http.offset) := by
  refine Sure.imp (mogHttpResp_idle hnull status false) fun http' hresp => ?_
  obtain ⟨wbuf, rfl⟩ := hresp
  exact ⟨hnone, rfl, rfl⟩

theorem putErr_idle (hnull : http.wbuf = .null) (hnone : http.forward = none) (errno : Option Errno) :
    (putErr fuel http errno).Sure IdleCall (Refused http.offset) := by
  have hresp : ∀ status, (mogHttpResp fuel http status false).Sure IdleCall (Refused http.offset) :=
    mogHttpResp_refused hnull hnone
  unfold putErr
  split
  · exact hresp _
  · exact hresp _
  · exact hresp _
  · exact Sure.bind (writeErr_idle hnull _ _) fun result hresult => hresult.1

theorem httpDeferRbuf_idle {buf : Bytes} (hoffset : http.offset ≤ buf.length) (hmax : buf.length ≤ MOG_RBUF_MAX_SIZE) :
    (httpDeferRbuf http buf).Sure IdleCall fun http' =>
      http'.toFields = http.toFields ∧ http'.wbuf = http.wbuf ∧ http'.forward = http.forward := by
  unfold httpDeferRbuf
  split
  · exact ⟨rfl, rfl, rfl⟩
  · refine sure_require_bind ?_ ?_
    · rw [Bool.and_eq_true, decide_eq_true_iff, decide_eq_true_iff]
      exact ⟨hoffset, Nat.le_trans (Nat.sub_le _ _) hmax⟩
    · dsimp only
      split <;> exact ⟨rfl, rfl, rfl⟩

theorem setPermsCommit_idle {file : MogFile} (htmp : file.tmppath = none) :
    (setPermsCommit file).Sure IdleCall fun _ => True := by
  refine sure_ask_bind trivial fun answer => ?_
  split
  · trivial
  · rw [htmp]
    trivial

/-- `http_put_commit` once it was entered. -/
theorem httpPutCommit_idle {ctx : Ctx} {file : MogFile} (hnull : http.wbuf = .null)
    (hforward : http.forward = some file) (htmp : file.tmppath = none) :
    ∃ rest : Unit → Io (Http × Next), httpPutCommit ctx fuel http = (note (.commit http) >>= rest) ∧
      (rest ()).Sure IdleCall fun result => result.2 ≠ .waitRd := by
  have hresp : ∀ status alive,
      (mogHttpResp fuel { http with forward := none } status alive).Sure IdleCall fun _ => True := by
    intro status alive
    apply Sure.imp (mogHttpResp_idle _ status alive) fun _ _ => trivial
    exact hnull
  refine ⟨_, bind_assoc .., ?_⟩
  refine Sure.bind (Q := fun _ => True) ?_ fun http' _ => ?_
  · rw [hforward]
    dsimp only
    split
    · refine Sure.bind (setPermsCommit_idle htmp) fun result _ => ?_
      refine Sure.bind (fileCloseNull_idle _) fun http' hclosed => ?_
      subst hclosed
      dsimp only
      split
      · exact hresp _ _
      · exact hresp _ _
    · refine Sure.bind (fileCloseNull_idle _) fun http' hclosed => ?_
      subst hclosed
      exact hresp _ _
  · split
    · exact nofun
    · exact nofun
    · split
      · exact sure_ask_bind trivial fun _ => nofun
      · exact nofun

end Rules

/-! ### Writing -/

section Upload

/-- The calls so far moved the file on, and nothing else. -/
structure RangeRun.Moves (run run' : RangeRun) : Prop where
  file : run'.file = run.file
  received : run'.received = run.received
  committed : run'.committed = run.committed

theorem RangeRun.Moves.trans {a b c : RangeRun} (h : a.Moves b) (h' : b.Moves c) : a.Moves c :=
  ⟨h'.file.trans h.file, h'.received.trans h.received, h'.committed.trans h.committed⟩

/-- What a call of `mog_http_write_full` with `buf` makes of the run. -/
structure WroteAll (start : Int) (run : RangeRun) (file : MogFile) (buf : Bytes) (run' : RangeRun)
    (file' : MogFile) : Prop where
  moves : run.Moves run'
  written : run'.written = run.written + buf.length
  gaveUp : run'.gaveUp = run.gaveUp
  fd : file'.fd = file.fd
  foff : file'.foff = start + run'.written
  tmppath : file'.tmppath = file.tmppath

structure WroteSome (run : RangeRun) (buf : Bytes) (run' : RangeRun) : Prop where
  moves : run.Moves run'
  written : run'.written < run.written + buf.length
  gaveUp : run'.gaveUp = true

variable {start : Int} {length : Nat} {run : RangeRun} {file : MogFile} {buf : Bytes} {fuel : Nat}

/-- `buf` is the next part of the body, and the file is at its place. -/
structure NextPart (start : Int) (length : Nat) (run : RangeRun) (file : MogFile) (buf : Bytes) : Prop where
  fd : run.file = some file.fd
  foff : file.foff = start + run.written
  part : buf <+: (run.received.take length).drop run.written

theorem NextPart.le (h : NextPart start length run file buf) (hne : buf ≠ []) :
    run.written + buf.length ≤ length := by
  have hpos := length_pos_iff.mpr hne
  have hle := h.part.length_le
  rw [length_drop, length_take] at hle
  omega

theorem NextPart.drop (h : NextPart start length run file buf) {run' : RangeRun} {file' : MogFile} {w : Nat}
    (hmoves : run.Moves run') (hfd : file'.fd = file.fd) (hwritten : run'.written = run.written + w)
    (hfoff : file'.foff = file.foff + w) : NextPart start length run' file' (buf.drop w) where
  fd := by rw [hmoves.file, hfd, h.fd]
  foff := by
    rw [hfoff, h.foff, hwritten]
    omega
  part := by
    rw [hmoves.received, hwritten, ← drop_drop]
    exact h.part.drop w

theorem pwriteLoop_range (errno : Option Errno) (h : NextPart start length run file buf) (hne : buf ≠ [])
    (hstart : 0 ≤ start) (htop : start + length < 2 ^ 63) :
    wp (rangeContract start length) (pwriteLoop fuel file buf errno) (fun result run' =>
      (result.1 = true → WroteAll start run file buf run' result.2.2) ∧
        (result.1 = false → WroteSome run buf run')) run := by
  induction fuel generalizing run file buf errno with
  | zero => trivial
  | succ fuel ih =>
    have hpos := length_pos_iff.mpr hne
    have hle := h.le hne
    refine wp_ask_bind ⟨h.fd, h.foff, hne, h.part⟩ fun answer _ => ?_
    have hmoves : run.Moves (run.next (.pwrite file.fd buf file.foff) answer) := by
      cases answer <;> exact ⟨rfl, rfl, rfl⟩
    cases answer with
    | ok w =>
      have hw := w.isLt
      have hfoff : wrap64 (file.foff + w.val) = file.foff + w.val := by
        rw [h.foff]
        exact wrap64_of_lt (by omega) (by omega)
      show wp _ (if _ then _ else _) _ _
      split
      next hsome =>
        have hgaveUp : (run.gaveUp || w.val == 0) = run.gaveUp := by
          rw [beq_false_of_ne (by omega), Bool.or_false]
        dsimp only
        split
        next hall =>
          refine ⟨fun _ => ⟨hmoves, congrArg (run.written + ·) hall, hgaveUp, rfl, ?_, rfl⟩, nofun⟩
          rw [hfoff, h.foff]
          exact Int.add_assoc ..
        next hshort =>
          have hmore : buf.drop w.val ≠ [] := by
            intro hnil
            have := drop_eq_nil_iff.mp hnil
            omega
          have hlen : (buf.drop w.val).length = buf.length - w.val := length_drop
          refine wp_mono (ih errno (h.drop hmoves rfl rfl hfoff) hmore) fun result run' hrest => ?_
          constructor
          · intro hok
            obtain ⟨hmoves', hwritten, hgaveUp', hfd, hfoff', htmppath⟩ := hrest.1 hok
            refine ⟨hmoves.trans hmoves', ?_, hgaveUp'.trans hgaveUp, hfd, hfoff', htmppath⟩
            rw [hwritten, hlen]
            show run.written + w.val + _ = _
            omega
          · intro hfail
            obtain ⟨hmoves', hwritten, hgaveUp'⟩ := hrest.2 hfail
            refine ⟨hmoves.trans hmoves', ?_, hgaveUp'⟩
            have hsum : run'.written < run.written + w.val + (buf.drop w.val).length := hwritten
            omega
      next hnone =>
        have hzero : w.val = 0 := by omega
        refine ⟨nofun, fun _ => ⟨hmoves, ?_, ?_⟩⟩
        · show run.written + w.val < _
          omega
        · show (run.gaveUp || w.val == 0) = true
          rw [hzero]
          exact Bool.or_true _
    | error failure =>
      by_cases hintr : failure = .EINTR
      · subst hintr
        have hgaveUp : (run.gaveUp || Errno.EINTR != .EINTR) = run.gaveUp := Bool.or_false _
        refine wp_mono (ih (some .EINTR) (h.drop hmoves rfl rfl (Int.add_zero _).symm) hne) ?_
        intro result run' hrest
        constructor
        · intro hok
          obtain ⟨hmoves', hwritten, hgaveUp', hfd, hfoff, htmppath⟩ := hrest.1 hok
          exact ⟨hmoves.trans hmoves', hwritten, hgaveUp'.trans hgaveUp, hfd, hfoff, htmppath⟩
        · intro hfail
          obtain ⟨hmoves', hwritten, hgaveUp'⟩ := hrest.2 hfail
          exact ⟨hmoves.trans hmoves', hwritten, hgaveUp'⟩
      · have hfatal : (run.gaveUp || failure != .EINTR) = true := by
          rw [bne_iff_ne.mpr hintr, Bool.or_true]
        have hend : WroteSome run buf (run.next (.pwrite file.fd buf file.foff) (.error failure)) :=
          ⟨hmoves, Nat.lt_add_of_pos_right hpos, hfatal⟩
        cases failure with
        | EINTR => exact absurd rfl hintr
        | _ => exact ⟨nofun, fun _ => hend⟩

theorem mogHttpWriteFull_range (errno : Option Errno) (h : NextPart start length run file buf) (hne : buf ≠ [])
    (hstart : 0 ≤ start) (htop : start + length < 2 ^ 63) :
    wp (rangeContract start length) (mogHttpWriteFull fuel file buf errno) (fun result run' =>
      (result.1 = true → WroteAll start run file buf run' result.2.2) ∧
        (result.1 = false → WroteSome run buf run')) run := by
  unfold mogHttpWriteFull
  dsimp only
  rw [if_neg (by simpa using hne)]
  refine wp_mono (pwriteLoop_range none ⟨h.fd, h.foff, h.part⟩ hne hstart htop) fun result run' hend => ?_
  exact ⟨fun hok => ⟨(hend.1 hok).moves, (hend.1 hok).written, (hend.1 hok).gaveUp, (hend.1 hok).fd,
    (hend.1 hok).foff, (hend.1 hok).tmppath⟩, hend.2⟩

/-! ### Reading the body -/

/-- A request with its range as the contract has it. -/
structure InRange (fields : Fields) (start : Int) (length : Nat) : Prop extends IsPartialPut fields where
  beg : fields.rangeBeg = start
  len : fields.contentLen = length
  low : 0 ≤ start
  top : start + length < 2 ^ 63
  some : 0 < length

/-- The upload waits for the rest of its body: all that came is in the file. -/
structure Receiving (start : Int) (length : Nat) (fields : Fields) (run : RangeRun) (http : Http) (file : MogFile) :
    Prop where
  fields_eq : http.toFields = fields
  wbuf : http.wbuf = .null
  forward : http.forward = some file
  fd : run.file = some file.fd
  foff : file.foff = start + run.written
  tmppath : file.tmppath = none
  written : run.written = min length run.received.length
  committed : run.committed = false

/-- The upload is over: complete and handed to `http_put_commit`, or given up before. -/
def Done (length : Nat) (run : RangeRun) : Prop :=
  (run.committed = true ∧ run.written = length) ∨
    (run.committed = false ∧ run.written < length ∧ (run.file = none ∨ run.gaveUp = true))

variable {fields : Fields} {http : Http} {ctx : Ctx}

theorem Receiving.need (h : Receiving start length fields run http file) (hrange : InRange fields start length) :
    identityNeed http file = length - run.written := by
  have hle : run.written ≤ length := by
    rw [h.written]
    exact Nat.min_le_left ..
  have hranged : http.hasContentRange = true := by rw [h.fields_eq, hrange.ranged]
  have hsum : http.contentLen - file.foff + http.rangeBeg = length - run.written := by
    rw [h.fields_eq, hrange.len, hrange.beg, h.foff]
    omega
  have htop := hrange.top
  have hlow := hrange.low
  unfold identityNeed
  dsimp only
  rw [if_pos hranged, wrap64_add, hsum]
  exact wrap64_of_lt (by omega) (by omega)

/-- The exits of `identity_put_in_progress`. -/
def ExitAt (start : Int) (length : Nat) (fields : Fields) (run : RangeRun) : PutExit → Prop
  | .waitRd http => ∃ file, Receiving start length fields run http file
  | .commit http => run.written = length ∧ ∃ file, Receiving start length fields run http file
  | .stop _ => run.committed = false ∧ run.written < length ∧ run.gaveUp = true
  | .writeErr http _ _ => http.wbuf = .null ∧ run.committed = false ∧ run.written < length ∧ run.gaveUp = true

theorem Receiving.read (h : Receiving start length fields run http file) {count : Nat}
    (hless : run.written < length) (hcount : count ≤ length - run.written)
    (data : { data : Bytes // data.length ≤ count }) :
    NextPart start length (run.next (.read count) (.ok data)) file data.val where
  fd := h.fd
  foff := h.foff
  part := by
    have hall : run.written = run.received.length := by
      have := h.written
      omega
    have hlen : (run.received ++ data.val).length ≤ length := by
      rw [length_append]
      have := data.property
      omega
    show data.val <+: ((run.received ++ data.val).take length).drop run.written
    rw [take_of_length_le hlen, hall, drop_left]

theorem identityAgain_range {need : Int} {bufLen : Nat} (hrange : InRange fields start length)
    (h : Receiving start length fields run http file) (hneed : need = length - run.written)
    (hpos : run.written < length) (hbuf : 0 < bufLen) :
    wp (rangeContract start length) (identityAgain fuel http file need bufLen)
      (fun exit run' => ExitAt start length fields run' exit) run := by
  induction fuel generalizing run http file need bufLen with
  | zero => trivial
  | succ fuel ih =>
    refine wp_require_bind (fun hfalse => ?_) fun _ => ?_
    · exact absurd (by omega) (of_decide_eq_false hfalse)
    · have hcount : min need.toNat bufLen ≤ length - run.written := by omega
      refine wp_ask_bind ⟨by omega, by omega⟩ fun answer _ => ?_
      cases answer with
      | ok data =>
        show wp _ (if _ then _ else _) _ _
        split
        next hempty =>
          have hnil : data.val.isEmpty = true := isEmpty_iff.mpr (length_eq_zero_iff.mp hempty)
          refine ⟨h.committed, hpos, ?_⟩
          show (run.gaveUp || data.val.isEmpty) = true
          rw [hnil, Bool.or_true]
        next hsome =>
          have hne : data.val ≠ [] := fun hnil => hsome (by rw [hnil]; rfl)
          have hpart := h.read hpos hcount data
          refine wp_bind.mpr (wp_mono (mogHttpWriteFull_range none hpart hne hrange.low hrange.top) ?_)
          intro result run' hend
          obtain ⟨ok, errno, file'⟩ := result
          cases ok with
          | true =>
            obtain ⟨hmoves, hwritten, -, hfd, hfoff, htmppath⟩ := hend.1 rfl
            have hsum : run'.written = run.written + data.val.length := hwritten
            have hlen := data.property
            have hall := h.written
            have hafter : Receiving start length fields run' { http with forward := some file' } file' := by
              refine ⟨h.fields_eq, h.wbuf, rfl, ?_, hfoff, htmppath.trans h.tmppath, ?_, ?_⟩
              · rw [hmoves.file, hfd]
                exact h.fd
              · rw [hmoves.received, hsum]
                show _ = min length (run.received ++ data.val).length
                rw [length_append]
                omega
              · rw [hmoves.committed]
                exact h.committed
            show wp _ (if need - data.val.length = 0 then _ else _) _ _
            split
            next hzero =>
              refine ⟨?_, file', hafter⟩
              omega
            next hmore =>
              exact ih hafter (by omega) (by omega) (by omega)
          | false =>
            obtain ⟨hmoves, hwritten, hgaveUp⟩ := hend.2 rfl
            have hsum : run'.written < run.written + data.val.length := hwritten
            have hlen := data.property
            exact ⟨h.wbuf, hmoves.committed.trans h.committed, by omega, hgaveUp⟩
      | error errno =>
        have hstop : errno.hard = true → ExitAt start length fields
            (run.next (.read (min need.toNat bufLen)) (.error errno)) (.stop http) := by
          intro hhard
          refine ⟨h.committed, hpos, ?_⟩
          show (run.gaveUp || errno.hard) = true
          rw [hhard, Bool.or_true]
        have hsame : errno.hard = false →
            (rangeContract start length).next run (.read (min need.toNat bufLen)) (.error errno) = run := by
          intro hsoft
          show { run with gaveUp := run.gaveUp || errno.hard } = run
          rw [hsoft, Bool.or_false]
        cases errno with
        | EAGAIN =>
          rw [hsame rfl]
          exact ⟨file, h⟩
        | EINTR =>
          rw [hsame rfl]
          exact ih h hneed hpos (by omega)
        | _ => exact hstop rfl

theorem identityPutInProgress_range (hrange : InRange fields start length)
    (h : Receiving start length fields run http file) :
    wp (rangeContract start length) (identityPutInProgress fuel http)
      (fun exit run' => ExitAt start length fields run' exit) run := by
  refine wp_require_bind (fun hfalse => absurd h.wbuf (of_decide_eq_false hfalse)) fun _ => ?_
  rw [h.forward]
  show wp _ (if identityNeed http file = 0 then _ else identityAgain fuel http file (identityNeed http file) _) _ _
  have hneed := h.need hrange
  have hle : run.written ≤ length := by
    rw [h.written]
    exact Nat.min_le_left ..
  split
  next hzero =>
    refine ⟨?_, file, h⟩
    omega
  next hmore => exact identityAgain_range hrange h hneed (by omega) (by decide)

/-- How a step ends: waiting for more, or with the upload over. -/
def StepAt (start : Int) (length : Nat) (fields : Fields) (result : Http × Next) (run : RangeRun) : Prop :=
  (result.2 = .waitRd → ∃ file, Receiving start length fields run result.1 file) ∧
    (result.2 ≠ .waitRd → Done length run)

theorem putFinish_range {exit : PutExit} (h : ExitAt start length fields run exit) :
    wp (rangeContract start length) (putFinish ctx fuel exit) (StepAt start length fields) run := by
  cases exit with
  | waitRd http => exact ⟨fun _ => h, fun hnot => absurd rfl hnot⟩
  | stop http =>
    refine wp_mono (wp_idle (stop_idle http)) fun result run' hend => ?_
    obtain ⟨hclose, rfl⟩ := hend
    refine ⟨fun hwait => ?_, fun _ => Or.inr ⟨h.1, h.2.1, Or.inr h.2.2⟩⟩
    rw [hclose] at hwait
    cases hwait
  | writeErr http errno defaultMsg =>
    refine wp_mono (wp_idle (writeErr_idle h.1 errno defaultMsg)) fun result run' hend => ?_
    obtain ⟨⟨-, hclose⟩, rfl⟩ := hend
    refine ⟨fun hwait => ?_, fun _ => Or.inr ⟨h.2.1, h.2.2.1, Or.inr h.2.2.2⟩⟩
    rw [hclose] at hwait
    cases hwait
  | commit http =>
    obtain ⟨hwritten, file, hreceiving⟩ := h
    obtain ⟨rest, hrest, hsure⟩ :=
      @httpPutCommit_idle http fuel ctx file hreceiving.wbuf hreceiving.forward hreceiving.tmppath
    show wp _ (httpPutCommit ctx fuel http) _ _
    rw [hrest]
    refine wp_ask_bind ⟨hwritten, hreceiving.committed⟩ fun _ _ => ?_
    refine wp_mono (wp_idle hsure) fun result run' hend => ?_
    obtain ⟨hnext, rfl⟩ := hend
    exact ⟨fun hwait => absurd hwait hnext, fun _ => Or.inl ⟨rfl, hwritten⟩⟩

theorem httpForwardInProgress_range (hrange : InRange fields start length)
    (h : Receiving start length fields run http file) :
    wp (rangeContract start length) (httpForwardInProgress ctx fuel http) (StepAt start length fields) run := by
  have hput : http.httpMethod = .put := by rw [h.fields_eq, hrange.put]
  have hplain : http.chunked = false := by rw [h.fields_eq, hrange.plain]
  have hle : run.written ≤ length := by
    rw [h.written]
    exact Nat.min_le_left ..
  refine wp_ask_bind ⟨file, h.forward, h.need hrange, hle⟩ fun _ _ => ?_
  rw [if_neg (by rw [hput]; exact nofun)]
  refine wp_require_bind (fun hfalse => absurd hput (of_decide_eq_false hfalse)) fun _ => wp_bind.mpr ?_
  unfold putInProgress
  rw [hplain, if_neg Bool.false_ne_true]
  exact wp_mono (identityPutInProgress_range hrange h) fun exit run' hexit => putFinish_range hexit

theorem uploadRest_range (rounds : Nat) (hrange : InRange fields start length) {result : Http × Next}
    (h : StepAt start length fields result run) :
    wp (rangeContract start length) (uploadRest ctx fuel rounds result) (fun _ run' => Done length run') run := by
  induction rounds generalizing result run with
  | zero => trivial
  | succ rounds ih =>
    obtain ⟨http, next⟩ := result
    cases next with
    | waitRd =>
      obtain ⟨file, hreceiving⟩ := h.1 rfl
      refine wp_bind.mpr (wp_mono (wp_httpQueueStep ?_ ?_ ?_) fun result run' hstep => ih hstep)
      · exact fun hpending => absurd hreceiving.wbuf hpending
      · exact fun _ _ => httpForwardInProgress_range hrange hreceiving
      · intro _ hnone
        rw [hreceiving.forward] at hnone
        cases hnone
    | _ => exact h.2 nofun

/-! ### Opening the file and the body that came with the head -/

theorem mkdirs_idle (dirs : List Bytes) : (mkdirs dirs).Sure IdleCall fun _ => True := by
  induction dirs with
  | nil => trivial
  | cons dir dirs ih =>
    refine sure_ask_bind trivial fun answer => ?_
    split
    · exact ih
    · exact ih
    · trivial

theorem mogMkpathFor_idle (path : Bytes) : (mogMkpathFor path).Sure IdleCall fun _ => True := by
  unfold mogMkpathFor
  split
  · exact mkdirs_idle _
  · trivial

/-- What an attempt to open the file makes of the run. -/
def OpenedAs (run : RangeRun) (answer : Except Errno Fd) (run' : RangeRun) : Prop :=
  match answer with
  | .ok fd => run' = { run with file := some fd }
  | .error _ => run' = run

theorem wp_openPut_range (path : Bytes) (flags : OpenFlags) (hfile : run.file = none) (hwritten : run.written = 0) :
    wp (rangeContract start length) (sys (.openPut path flags)) (OpenedAs run) run := by
  refine ⟨⟨hfile, hwritten⟩, fun answer _ => ?_⟩
  cases answer <;> exact rfl

theorem mkpathOpenPut_range (path : Bytes) (flags : OpenFlags) (hfile : run.file = none)
    (hwritten : run.written = 0) :
    wp (rangeContract start length) (mkpathOpenPut path flags) (OpenedAs run) run := by
  refine wp_bind.mpr (wp_mono (wp_openPut_range path flags hfile hwritten) fun answer run' hopened => ?_)
  cases answer with
  | ok fd => exact hopened
  | error errno =>
    have hsame : run' = run := hopened
    subst hsame
    cases errno with
    | ENOENT =>
      refine wp_bind.mpr (wp_mono (wp_idle (mogMkpathFor_idle path)) fun answer run'' hend => ?_)
      obtain ⟨-, rfl⟩ := hend
      cases answer with
      | ok _ => exact wp_openPut_range path flags hfile hwritten
      | error _ => exact rfl
    | _ => exact rfl

theorem openExpireRetry_range {attempt : Io (Except Errno Fd)}
    (h : wp (rangeContract start length) attempt (OpenedAs run) run) :
    wp (rangeContract start length) (openExpireRetry attempt) (OpenedAs run) run := by
  refine wp_bind.mpr (wp_mono h fun answer run' hopened => ?_)
  cases answer with
  | ok fd => exact hopened
  | error errno =>
    have hsame : run' = run := hopened
    subst hsame
    have hidle : (mogOpenExpireRetry errno).Sure IdleCall fun _ => True := by
      unfold mogOpenExpireRetry
      split
      · exact sure_ask_bind trivial fun _ => trivial
      · exact sure_ask_bind trivial fun _ => trivial
      · exact sure_ask_bind trivial fun _ => trivial
      · trivial
    refine wp_bind.mpr (wp_mono (wp_idle hidle) fun result run'' hend => ?_)
    obtain ⟨-, rfl⟩ := hend
    obtain ⟨again, errno⟩ := result
    cases again with
    | true => exact h
    | false => exact rfl

theorem openPut_range {path : Bytes} (hranged : http.hasContentRange = true) (hfile : run.file = none)
    (hwritten : run.written = 0) :
    wp (rangeContract start length) (openPut ctx http path) (fun answer run' =>
      match answer with
      | .ok file => run' = { run with file := some file.fd } ∧ file.foff = http.rangeBeg ∧ file.tmppath = none
      | .error _ => run' = run) run := by
  unfold openPut openTarget
  rw [if_pos hranged]
  refine wp_bind.mpr (wp_bind.mpr (wp_mono
    (openExpireRetry_range (mkpathOpenPut_range path .create hfile hwritten)) fun answer run' hopened => ?_))
  cases answer with
  | ok fd => exact ⟨hopened, if_pos hranged, rfl⟩
  | error errno => exact hopened

/-- What `mog_http_put` leaves: the upload under way with all of the head's buffer that belongs to it, or an
answer that refuses it. -/
def PutAt (start : Int) (length : Nat) (fields : Fields) (buf : Bytes) (http : Http) (run : RangeRun) : Prop :=
  http.offset ≤ buf.length ∧
    ((∃ file, Receiving start length fields run http file) ∨
      (http.forward = none ∧ http.persistent = false ∧ run.committed = false ∧ run.written < length ∧
        (run.file = none ∨ run.gaveUp = true)))

theorem identityBodyAfterHeader_range (hrange : InRange fields start length) (hfields : http.toFields = fields)
    (hwbuf : http.wbuf = .null) (hforward : http.forward = some file) (hfd : run.file = some file.fd)
    (hfoff : file.foff = start) (htmp : file.tmppath = none) (hwritten : run.written = 0)
    (hcommitted : run.committed = false) (hreceived : run.received = buf.drop http.offset)
    (hless : http.offset < buf.length) :
    wp (rangeContract start length) (identityBodyAfterHeader fuel http buf) (PutAt start length fields buf) run := by
  have hlen : http.contentLen.toNat = length := by
    rw [hfields, hrange.len]
    exact Int.toNat_natCast length
  have hpos := hrange.some
  unfold identityBodyAfterHeader
  rw [hlen]
  dsimp only
  rw [if_neg (by omega), hforward]
  have hbody : ((buf.drop http.offset).take (min length (buf.length - http.offset))) = run.received.take length := by
    rw [hreceived, ← length_drop, ← take_eq_take_min]
  have htaken : (run.received.take length).length = min length (buf.length - http.offset) := by
    rw [length_take, hreceived, length_drop]
  rw [hbody]
  have hpart : NextPart start length run file (run.received.take length) := by
    refine ⟨hfd, ?_, ?_⟩
    · rw [hfoff, hwritten]
      exact (Int.add_zero _).symm
    · rw [hwritten]
      exact prefix_rfl
  have hne : run.received.take length ≠ [] := by
    apply length_pos_iff.mp
    omega
  refine wp_bind.mpr (wp_mono (mogHttpWriteFull_range none hpart hne hrange.low hrange.top) fun result run' hend => ?_)
  obtain ⟨ok, errno, file'⟩ := result
  cases ok with
  | true =>
    obtain ⟨hmoves, hall, -, hfd', hfoff', htmp'⟩ := hend.1 rfl
    refine ⟨?_, Or.inl ⟨file', hfields, hwbuf, rfl, ?_, hfoff', htmp'.trans htmp, ?_, ?_⟩⟩
    · show http.offset + min length (buf.length - http.offset) ≤ buf.length
      omega
    · rw [hmoves.file, hfd]
      exact congrArg some hfd'.symm
    · rw [hall, hwritten, hmoves.received, Nat.zero_add, length_take]
    · rw [hmoves.committed, hcommitted]
  | false =>
    obtain ⟨hmoves, hsome, hgaveUp⟩ := hend.2 rfl
    rw [hwritten, htaken] at hsome
    have hidle := @writeErr_idle
      { http with offset := http.offset + min length (buf.length - http.offset), forward := some file' } fuel
      hwbuf errno none
    refine wp_bind.mpr (wp_mono (wp_idle hidle) fun result run'' hstop => ?_)
    obtain ⟨⟨hrefused, -⟩, rfl⟩ := hstop
    refine ⟨?_, Or.inr ⟨hrefused.forward, hrefused.persistent, ?_, by omega, Or.inr hgaveUp⟩⟩
    · rw [show result.1.offset = _ from hrefused.offset_eq]
      show http.offset + min length (buf.length - http.offset) ≤ buf.length
      omega
    · rw [hmoves.committed, hcommitted]

theorem putBody_range (hrange : InRange fields start length) (hfields : http.toFields = fields)
    (hwbuf : http.wbuf = .null) (hforward : http.forward = some file) (hfd : run.file = some file.fd)
    (hfoff : file.foff = start) (htmp : file.tmppath = none) (hwritten : run.written = 0)
    (hcommitted : run.committed = false) (hreceived : run.received = buf.drop http.offset)
    (hpos : 0 < http.offset) (hle : http.offset ≤ buf.length) :
    wp (rangeContract start length) (putBody ctx fuel http buf) (PutAt start length fields buf) run := by
  have hplain : http.chunked = false := by rw [hfields, hrange.plain]
  unfold putBody
  rw [hplain]
  split
  next hend =>
    refine ⟨hle, Or.inl ⟨file, hfields, hwbuf, hforward, hfd, ?_, htmp, ?_, hcommitted⟩⟩
    · rw [hfoff, hwritten]
      exact (Int.add_zero _).symm
    · rw [hwritten, hreceived, length_drop, hend, Nat.sub_self, Nat.min_zero]
  next hmore =>
    have hless : http.offset < buf.length := Nat.lt_of_le_of_ne hle fun heq => hmore heq.symm
    refine wp_require_bind (fun hfalse => ?_) fun _ => ?_
    · rw [Bool.and_eq_false_iff, decide_eq_false_iff_not, decide_eq_false_iff_not] at hfalse
      exact hfalse.elim (absurd hless) (absurd hpos)
    · rw [if_neg Bool.false_ne_true]
      exact identityBodyAfterHeader_range hrange hfields hwbuf hforward hfd hfoff htmp hwritten hcommitted hreceived
        hless

/-- The client as `http_process_client` finds it: no answer and no file yet, and the head in the buffer. -/
structure HeadComplete (http : Http) (buf : Bytes) : Prop where
  wbuf : http.wbuf = .null
  forward : http.forward = none
  offset_pos : 0 < http.offset
  offset_le : http.offset ≤ buf.length
  small : buf.length ≤ MOG_RBUF_MAX_SIZE
  path : http.pathTip < http.pathEnd

theorem mogHttpPath_idle {buf : Bytes} (hpath : http.pathTip < http.pathEnd) (hput : http.httpMethod = .put) :
    (mogHttpPath http buf).Sure IdleCall fun answer => ∀ path, answer = .ok path → path[0]? = some 47 := by
  refine sure_require_bind (decide_eq_true hpath) ?_
  dsimp only
  split
  · exact nofun
  · split
    · exact nofun
    · rename_i hvalid
      rw [hput] at hvalid
      intro path hok
      cases hok
      exact mogValidPutPath_slash (by simpa using hvalid)

theorem mogHttpPut_range (disk : Fd → Contents) (hrange : InRange http.toFields start length)
    (hok : lengthsOk http = true) (hhead : HeadComplete http buf) :
    wp (rangeContract start length) (mogHttpPut ctx fuel http buf) (PutAt start length http.toFields buf)
      (.start disk (buf.drop http.offset)) := by
  have hrefused : ∀ {program : Io Http}, program.Sure IdleCall (Refused http.offset) →
      wp (rangeContract start length) program (PutAt start length http.toFields buf)
        (.start disk (buf.drop http.offset)) := by
    intro program hsure
    refine wp_mono (wp_idle hsure) fun http' run' hend => ?_
    obtain ⟨hrefused, rfl⟩ := hend
    refine ⟨?_, Or.inr ⟨hrefused.forward, hrefused.persistent, rfl, hrange.some, Or.inl rfl⟩⟩
    rw [hrefused.offset_eq]
    exact hhead.offset_le
  unfold mogHttpPut
  by_cases hget : ctx.fdType = .httpget
  · rw [if_pos hget]
    exact hrefused (mogHttpResp_refused hhead.wbuf hhead.forward _)
  · rw [if_neg hget]
    refine wp_bind.mpr (wp_mono (wp_idle (mogHttpPath_idle hhead.path hrange.put)) fun answer run' hend => ?_)
    obtain ⟨hslash, rfl⟩ := hend
    cases answer with
    | error errno => exact hrefused (putErr_idle hhead.wbuf hhead.forward errno)
    | ok path =>
      refine wp_require_bind (fun hfalse => absurd hhead.forward (of_decide_eq_false hfalse)) fun _ => ?_
      refine wp_require_bind (fun hfalse => ?_) fun _ => ?_
      · rw [hslash path rfl] at hfalse
        cases hfalse
      · rw [if_pos hok]
        refine wp_bind.mpr (wp_mono (openPut_range hrange.ranged rfl rfl) fun answer run' hopened => ?_)
        cases answer with
        | error errno =>
          obtain rfl : run' = _ := hopened
          exact hrefused (putErr_idle hhead.wbuf hhead.forward (some errno))
        | ok file =>
          obtain ⟨rfl, hfoff, htmp⟩ := hopened
          have hfoff' : file.foff = start := hfoff.trans hrange.beg
          exact putBody_range hrange rfl hhead.wbuf rfl rfl hfoff' htmp rfl rfl rfl hhead.offset_pos
            hhead.offset_le

theorem queueDone_range (disk : Fd → Contents) (hrange : InRange http.toFields start length)
    (hok : lengthsOk http = true) (hhead : HeadComplete http buf) :
    wp (rangeContract start length) (queueDone ctx fuel http buf) (StepAt start length http.toFields)
      (.start disk (buf.drop http.offset)) := by
  refine wp_bind.mpr (wp_ask_bind trivial fun _ _ => ?_)
  unfold processMethod
  rw [hrange.put]
  refine wp_mono (mogHttpPut_range disk hrange hok hhead) fun http' run' hput => ?_
  obtain ⟨hoffset, hput⟩ := hput
  have hdefer := @httpDeferRbuf_idle http' buf hoffset hhead.small
  rcases hput with ⟨file, hreceiving⟩ | ⟨hnone, hpersistent, hdone⟩
  · rw [hreceiving.wbuf]
    dsimp only
    rw [if_pos (by rw [hreceiving.forward]; exact nofun)]
    refine wp_bind.mpr (wp_mono (wp_idle hdefer) fun http'' run'' hend => ?_)
    obtain ⟨⟨hfields, hwbuf, hforward⟩, rfl⟩ := hend
    apply httpForwardInProgress_range hrange
    exact { hreceiving with
      fields_eq := hfields.trans hreceiving.fields_eq
      wbuf := hwbuf.trans hreceiving.wbuf
      forward := hforward.trans hreceiving.forward }
  · have hover : Done length run' := Or.inr hdone
    split
    · exact ⟨nofun, fun _ => hover⟩
    · refine wp_bind.mpr (wp_mono (wp_idle hdefer) fun http'' run'' hend => ?_)
      obtain ⟨-, rfl⟩ := hend
      exact ⟨nofun, fun _ => hover⟩
    · rw [if_neg (not_not.mpr hnone), hpersistent, if_neg Bool.false_ne_true]
      exact ⟨nofun, fun _ => hover⟩

theorem upload_range (disk : Fd → Contents) (hrange : InRange http.toFields start length)
    (hok : lengthsOk http = true) (hhead : HeadComplete http buf) :
    wp (rangeContract start length) (upload ctx fuel http buf) (fun _ run => Done length run)
      (.start disk (buf.drop http.offset)) := by
  refine wp_bind.mpr (wp_mono (queueDone_range disk hrange hok hhead) fun result run' hstep => ?_)
  exact uploadRest_range fuel hrange hstep

end Upload

end Cmogstored
