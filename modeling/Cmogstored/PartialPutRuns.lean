import Cmogstored.PartialPut
import Cmogstored.Script

/-! What a run of an upload with a `Content-Range` makes of the files, for every way the body arrives and every
way `pwrite` takes it. -/

namespace Cmogstored

open Prog

/-- The run after the calls of a trace. -/
def RangeRun.after (run : RangeRun) (trace : Run) : RangeRun :=
  trace.foldl (fun run entry => run.next entry.1 entry.2) run

section Disk

variable {start : Int} {length : Nat} {disk : Fd → Contents} {run : RangeRun}

theorem rangeContract_after (trace : Run) : (rangeContract start length).after run trace = run.after trace := by
  induction trace generalizing run with
  | nil => rfl
  | cons entry trace ih => exact ih

/-! ### The files -/

/-- What is in the files: the part of the body written so far, from the start of the range on. -/
structure DiskAt (start : Int) (length : Nat) (disk : Fd → Contents) (run : RangeRun) : Prop where
  written_le : run.written ≤ length
  written_received : run.written ≤ run.received.length
  closed : run.file = none → run.disk = disk ∧ run.written = 0
  opened : ∀ fd, run.file = some fd →
    run.disk = Function.update disk fd ((disk fd).write start (run.received.take run.written))
  committed : run.committed = true → run.written = length

theorem diskAt_start (body : Bytes) : DiskAt start length disk (.start disk body) where
  written_le := Nat.zero_le _
  written_received := Nat.zero_le _
  closed _ := ⟨rfl, rfl⟩
  opened _ hfile := by cases hfile
  committed hcommitted := by cases hcommitted

theorem DiskAt.received (h : DiskAt start length disk run) (data : Bytes) (gaveUp : Bool) :
    DiskAt start length disk { run with received := run.received ++ data, gaveUp := gaveUp } where
  written_le := h.written_le
  written_received := by
    rw [List.length_append]
    exact Nat.le_add_right_of_le h.written_received
  closed := h.closed
  opened fd hfile := by
    rw [List.take_append_of_le_length h.written_received]
    exact h.opened fd hfile
  committed := h.committed

theorem DiskAt.openFile (h : DiskAt start length disk run) (hfile : run.file = none) (fd : Fd) :
    DiskAt start length disk { run with file := some fd } where
  written_le := h.written_le
  written_received := h.written_received
  closed hnone := by cases hnone
  opened fd' hsome := by
    obtain rfl := Option.some.inj hsome
    obtain ⟨hdisk, hzero⟩ := h.closed hfile
    have htake : run.received.take run.written = [] := by
      rw [hzero]
      rfl
    rw [htake, Contents.write_nil, Function.update_eq_self]
    exact hdisk
  committed := h.committed

theorem DiskAt.pwrite (h : DiskAt start length disk run) {fd : Fd} {buf : Bytes} {w : Nat} (hfile : run.file = some fd)
    (hpart : buf <+: (run.received.take length).drop run.written) (hw : w ≤ buf.length) (gaveUp : Bool) :
    DiskAt start length disk
      { run with
        disk := Function.update run.disk fd ((run.disk fd).write (start + run.written) (buf.take w))
        written := run.written + w
        gaveUp := gaveUp } := by
  obtain ⟨rest, hrest⟩ := hpart
  have hlen : buf.length + rest.length = min length run.received.length - run.written := by
    rw [← List.length_append, hrest, List.length_drop, List.length_take]
  have hle := h.written_le
  have hle' := h.written_received
  have hnext : run.received.take (run.written + w) = run.received.take run.written ++ buf.take w := by
    calc run.received.take (run.written + w)
        = (run.received.take length).take (run.written + w) := by
          rw [List.take_take, Nat.min_eq_left (by omega)]
      _ = (run.received.take length).take run.written ++ ((run.received.take length).drop run.written).take w :=
          List.take_add
      _ = run.received.take run.written ++ buf.take w := by
          rw [List.take_take, Nat.min_eq_left hle, ← hrest, List.take_append_of_le_length hw]
  have hlength : (run.received.take run.written).length = run.written := by
    rw [List.length_take, Nat.min_eq_left hle']
  constructor
  case written_le =>
    show run.written + w ≤ length
    omega
  case written_received =>
    show run.written + w ≤ run.received.length
    omega
  case closed =>
    intro hnone
    rw [hfile] at hnone
    cases hnone
  case opened =>
    intro fd' hsome
    rw [hfile] at hsome
    obtain rfl := Option.some.inj hsome
    show Function.update run.disk fd ((run.disk fd).write (start + run.written) (buf.take w)) = _
    rw [h.opened fd hfile, Function.update_idem, Function.update_self, hnext, ← Contents.write_write, hlength]
  case committed =>
    intro hcommitted
    have hwritten : run.written = length := h.committed hcommitted
    show run.written + w = length
    omega

/-- One call. -/
theorem DiskAt.next (h : DiskAt start length disk run) {request : Call} (answer : Res request)
    (hkeeps : run.Keeps start length request) : DiskAt start length disk (run.next request answer) := by
  cases request with
  | read count =>
    cases answer with
    | ok data => exact h.received data.val _
    | error errno => exact ⟨h.written_le, h.written_received, h.closed, h.opened, h.committed⟩
  | openPut path flags =>
    cases answer with
    | ok fd => exact h.openFile hkeeps.1 fd
    | error errno => exact h
  | pwrite fd buf foff =>
    obtain ⟨hfile, hfoff, -, hpart⟩ := hkeeps
    subst hfoff
    cases answer with
    | ok w => exact h.pwrite hfile hpart (Nat.le_of_lt_succ w.isLt) _
    | error errno => exact ⟨h.written_le, h.written_received, h.closed, h.opened, h.committed⟩
  | note event =>
    cases event with
    | commit http => exact ⟨h.written_le, h.written_received, h.closed, h.opened, fun _ => hkeeps.1⟩
    | _ => exact h
  | _ => exact h

end Disk

/-! ### Fuel -/

section Fuel

variable {n fuel : Nat} {ctx : Ctx} {start : Int} {length : Nat} {fields : Fields} {run : RangeRun}

theorem queueDone_lasts (hfuel : n ≤ fuel) {http : Http} (buf : Bytes) (hput : http.httpMethod = .put)
    (hplain : http.chunked = false)
    (hsame : ∀ trace http', Runs (mogHttpPut ctx fuel http buf) trace (.ret http') → http'.wbuf = .null →
      http'.forward ≠ none → http'.httpMethod = .put ∧ http'.chunked = false) :
    Lasts n (queueDone ctx fuel http buf) := by
  have hprocess : Lasts n (httpProcessClient ctx fuel http buf) := by
    refine lasts_ask_bind fun _ => ?_
    unfold processMethod
    rw [hput]
    exact mogHttpPut_lasts (by omega) hplain buf
  refine lasts_bind_runs hprocess fun trace http' hruns => ?_
  split
  · exact lasts_ret _ _
  · exact lasts_bind (httpDeferRbuf_lasts _ _ _) fun _ => lasts_ret _ _
  next hnull =>
    split
    next hforward =>
      obtain ⟨_, tail, -, hrest⟩ := Runs.of_ask_bind hruns
      unfold processMethod at hrest
      rw [hput] at hrest
      obtain ⟨hput', hplain'⟩ := hsame tail http' hrest hnull hforward
      refine lasts_bind_runs (httpDeferRbuf_lasts _ _ _) fun trace' http'' hdefer => ?_
      obtain ⟨hfields, -⟩ := (httpDeferRbuf_within http' buf (S := fun _ => True)).value_of_runs hdefer
      apply httpForwardInProgress_lasts (by omega)
      · rw [hfields, hput']
      · rw [hfields, hplain']
    next =>
      split
      · exact lasts_bind (httpDeferRbuf_lasts _ _ _) fun _ =>
          lasts_bind (mogHttpReset_lasts _ _) fun _ => lasts_ret _ _
      · exact lasts_ret _ _

theorem uploadRest_lasts {rounds : Nat} (hfuel : n ≤ fuel) (hrounds : n ≤ rounds)
    (hrange : InRange fields start length) {result : Http × Next} (h : StepAt start length fields result run) :
    Lasts n (uploadRest ctx fuel rounds result) := by
  induction rounds generalizing n result run with
  | zero =>
    obtain rfl := Nat.le_zero.mp hrounds
    trivial
  | succ rounds ih =>
    obtain ⟨http, next⟩ := result
    cases next with
    | waitRd =>
      obtain ⟨file, hreceiving⟩ := h.1 rfl
      have hput : http.httpMethod = .put := by rw [hreceiving.fields_eq, hrange.put]
      have hplain : http.chunked = false := by rw [hreceiving.fields_eq, hrange.plain]
      have hstep : httpQueueStep ctx fuel http = httpForwardInProgress ctx fuel http := by
        unfold httpQueueStep
        rw [if_neg (not_not.mpr hreceiving.wbuf), if_pos (by rw [hreceiving.forward]; exact nofun)]
      show Lasts n (httpQueueStep ctx fuel http >>= uploadRest ctx fuel rounds)
      rw [hstep]
      refine lasts_bind_runs (httpForwardInProgress_lasts hfuel hput hplain) fun trace result hruns => ?_
      -- the step began with a call, so the rest may be one round shorter
      have hpos : 0 < trace.length := by
        obtain ⟨answer, tail, rfl, -⟩ := Runs.of_ask_bind hruns
        exact Nat.zero_lt_succ _
      have hnext : StepAt start length fields result _ :=
        wp_of_runs (httpForwardInProgress_range hrange hreceiving) hruns (allows_of_may fun _ _ _ => trivial)
      exact ih (by omega) (by omega) hnext
    | _ => exact lasts_ret _ _

end Fuel

/-! ### The result -/

/-- What holds after the calls `trace` of an upload from the head in `buf` on, when `q` is what is left of it and
`disk` was in the files before. -/
structure WritesItsRange (http : Http) (buf : Bytes) (disk : Fd → Contents) (fuel : Nat) (trace : Run)
    (run : RangeRun) (q : Io (Http × Next)) : Prop where
  /-- Only the file opened for the upload changes, and in its range only. -/
  outside : ∀ fd offset, run.file ≠ some fd ∨ offset < http.rangeBeg ∨ http.rangeEnd < offset →
    run.disk fd offset = disk fd offset
  /-- The range holds what was written, the bytes behind the head in their order. -/
  inside : ∀ fd, run.file = some fd → ∀ k < run.written, run.disk fd (http.rangeBeg + k) = run.received[k]?
  written_le : (run.written : Int) ≤ http.contentLen
  written_received : run.written ≤ run.received.length
  /-- `need` is what is missing whenever it is computed, and a read asks for some of that and no more. -/
  need : ∀ before request answer after, trace = before ++ ⟨request, answer⟩ :: after →
    ((RangeRun.start disk (buf.drop http.offset)).after before).Keeps http.rangeBeg http.contentLen.toNat request
  /-- `http_put_commit` is entered only with all of the body written, … -/
  commit : run.committed = true → (run.written : Int) = http.contentLen
  /-- … and the upload does not end without it then, nor at all unless the file could not be opened, or the client
  or the file gave up. -/
  done : ∀ result, q = .ret result → ((run.written : Int) = http.contentLen → run.committed = true) ∧
    (run.file ≠ none → run.gaveUp = false → run.committed = true)
  /-- No assertion fails, that of a positive `need` among them. -/
  sure : q ≠ .abort
  /-- No loop ends early. -/
  fuel_le : q = .stuck → fuel ≤ trace.length

theorem IsPartialPut.inRange {http : Http} (h : IsPartialPut http.toFields) (hagree : LengthsAgree http.toFields)
    (htop : http.rangeEnd < 2 ^ 63 - 1) : InRange http.toFields http.rangeBeg http.contentLen.toNat := by
  obtain ⟨hbeg, horder, hnonneg, hlen⟩ := hagree
  have hnat : (http.contentLen.toNat : Int) = http.contentLen := Int.toNat_of_nonneg hnonneg
  refine ⟨h, rfl, hnat.symm, hbeg, ?_, ?_⟩
  · omega
  · omega

theorem upload_lasts {ctx : Ctx} {fuel : Nat} {http : Http} {buf : Bytes} {start : Int} {length : Nat}
    (hrange : InRange http.toFields start length) (hok : lengthsOk http = true) (hhead : HeadComplete http buf) :
    Lasts fuel (upload ctx fuel http buf) := by
  have hdone : Lasts fuel (queueDone ctx fuel http buf) := by
    refine queueDone_lasts (Nat.le_refl fuel) buf hrange.put hrange.plain fun trace http' hruns _ hforward => ?_
    obtain ⟨-, hput⟩ : PutAt start length http.toFields buf http' _ :=
      wp_of_runs (mogHttpPut_range (fun _ _ => none) hrange hok hhead) hruns (allows_of_may fun _ _ _ => trivial)
    rcases hput with ⟨file, hreceiving⟩ | ⟨hnone, -⟩
    · rw [hreceiving.fields_eq]
      exact ⟨hrange.put, hrange.plain⟩
    · exact absurd hnone hforward
  refine lasts_bind_runs hdone fun trace result hruns => ?_
  have hstep : StepAt start length http.toFields result _ :=
    wp_of_runs (queueDone_range (fun _ _ => none) hrange hok hhead) hruns (allows_of_may fun _ _ _ => trivial)
  exact uploadRest_lasts (Nat.sub_le _ _) (Nat.sub_le _ _) hrange hstep

theorem upload_writesItsRange {ctx : Ctx} {fuel : Nat} {http : Http} {buf : Bytes} {disk : Fd → Contents}
    {trace : Run} {q : Io (Http × Next)} (hput : IsPartialPut http.toFields) (hagree : LengthsAgree http.toFields)
    (htop : http.rangeEnd < 2 ^ 63 - 1) (hok : lengthsOk http = true) (hhead : HeadComplete http buf)
    (hruns : Runs (upload ctx fuel http buf) trace q) :
    WritesItsRange http buf disk fuel trace ((RangeRun.start disk (buf.drop http.offset)).after trace) q := by
  have hrange := hput.inRange hagree htop
  have hwp := @upload_range _ _ _ fuel http ctx disk hrange hok hhead
  have hallows :
      (rangeContract http.rangeBeg http.contentLen.toNat).Allows (.start disk (buf.drop http.offset)) trace :=
    allows_of_may fun _ _ _ => trivial
  have hdisk : DiskAt http.rangeBeg http.contentLen.toNat disk
      ((rangeContract http.rangeBeg http.contentLen.toNat).after (.start disk (buf.drop http.offset)) trace) :=
    inv_of_runs (fun run request answer hdisk hkeeps _ => hdisk.next answer hkeeps) hwp hruns hallows
      (diskAt_start _)
  have hend := wp_of_runs hwp hruns hallows
  rw [rangeContract_after] at hdisk hend
  generalize hrun : (RangeRun.start disk (buf.drop http.offset)).after trace = run at hdisk hend
  have hnat : (http.contentLen.toNat : Int) = http.contentLen := Int.toNat_of_nonneg hagree.nonneg
  have hlen := hagree.len
  have hle := hdisk.written_le
  have hlength : (run.received.take run.written).length = run.written := by
    rw [List.length_take, Nat.min_eq_left hdisk.written_received]
  constructor
  case outside =>
    intro fd offset hout
    cases hfile : run.file with
    | none => rw [(hdisk.closed hfile).1]
    | some fd' =>
      rw [hdisk.opened fd' hfile]
      by_cases hsame : fd = fd'
      · subst hsame
        rw [Function.update_self]
        apply Contents.write_outside
        have hoffset := hout.resolve_left (not_not.mpr hfile)
        omega
      · rw [Function.update_of_ne hsame]
  case inside =>
    intro fd hfile k hk
    rw [hdisk.opened fd hfile, Function.update_self, Contents.write_inside (by omega)]
    exact List.getElem?_take_of_lt hk
  case written_le => omega
  case written_received => exact hdisk.written_received
  case need =>
    intro before request answer after htrace
    rw [← @rangeContract_after http.rangeBeg http.contentLen.toNat]
    exact must_of_runs hwp hruns hallows htrace
  case commit =>
    intro hcommitted
    have hwritten := hdisk.committed hcommitted
    omega
  case done =>
    intro result hret
    subst hret
    rcases (hend : Done _ run) with ⟨hcommitted, -⟩ | ⟨-, hless, hwhy⟩
    · exact ⟨fun _ => hcommitted, fun _ _ => hcommitted⟩
    · refine ⟨fun hwritten => absurd hless (by omega), fun hfile hgaveUp => ?_⟩
      rcases hwhy with hnone | hgone
      · exact absurd hnone hfile
      · rw [hgone] at hgaveUp
        cases hgaveUp
  case sure =>
    intro habort
    subst habort
    exact hend
  case fuel_le =>
    intro hstuck
    subst hstuck
    exact (upload_lasts hrange hok hhead).length_lt hruns

/-- **A partial upload writes exactly its range.** `lengths_ok` accepts a request exactly if its length is that of
its range; and then, however the body is split between the head's buffer and later reads and however much of it each
`pwrite` takes, the file changes in the range only, which receives the body in order, and `http_put_commit` is
entered exactly when all of it is written. -/
theorem partial_put_exact (http : Http) (hput : IsPartialPut http.toFields) (hbeg : IsOff http.rangeBeg)
    (hend : IsOff http.rangeEnd) (hlen : IsOff http.contentLen) :
    (lengthsOk http = true ↔ 0 ≤ http.rangeBeg ∧ http.rangeBeg ≤ http.rangeEnd ∧ 0 ≤ http.contentLen ∧
      http.contentLen = http.rangeEnd - http.rangeBeg + 1) ∧
    (lengthsOk http = true → http.rangeEnd < 2 ^ 63 - 1 →
      ∀ (ctx : Ctx) (fuel : Nat) (buf : Bytes) (disk : Fd → Contents) (trace : Run) (q : Io (Http × Next)),
        HeadComplete http buf → Runs (upload ctx fuel http buf) trace q →
          WritesItsRange http buf disk fuel trace ((RangeRun.start disk (buf.drop http.offset)).after trace) q) := by
  have hiff := lengthsOk_iff hput.plain hput.ranged hbeg hend hlen
  constructor
  · rw [hiff]
    constructor
    · intro h
      exact ⟨h.beg, h.order, h.nonneg, h.len⟩
    · intro h
      obtain ⟨hbeg0, horder, hnonneg, hagree⟩ := h
      exact ⟨hbeg0, horder, hnonneg, hagree⟩
  · intro hok htop ctx fuel buf disk trace q hhead hruns
    exact upload_writesItsRange hput (hiff.mp hok) htop hok hhead hruns

/-- `xyz` for the offsets 2 to 4 of `/dev1/a`; the path stands for the whole head. -/
def midFile : Http :=
  { mogHttpInit with
    httpMethod := .put
    hasContentRange := true
    rangeBeg := 2
    rangeEnd := 4
    contentLen := 3
    pathEnd := 7
    offset := 7 }

/-- One byte came with the head, the others later and apart. -/
def midFileRun : Run × Io (Http × Next) :=
  play Script.answer 40 { Script.sending [] [] with reads := [.ok (ascii "y"), .error .EAGAIN, .ok (ascii "z")] }
    (upload plainCtx 40 midFile (ascii "/dev1/ax"))

theorem partial_put_three :
    let run := (RangeRun.start (fun _ _ => none) (ascii "x")).after midFileRun.1
    lengthsOk midFile = true ∧ run.committed = true ∧ run.received = ascii "xyz" ∧
      WritesItsRange midFile (ascii "/dev1/ax") (fun _ _ => none) 40 midFileRun.1 run midFileRun.2 := by
  have hok : lengthsOk midFile = true := by decide +kernel
  have hhead : HeadComplete midFile (ascii "/dev1/ax") := by
    refine ⟨rfl, rfl, by decide, by decide +kernel, ?_, by decide⟩
    rw [rbufMaxSize_eq]
    decide +kernel
  refine ⟨hok, by decide +kernel, by decide +kernel, ?_⟩
  exact (partial_put_exact midFile ⟨rfl, rfl, rfl⟩ ⟨by decide, by decide⟩ ⟨by decide, by decide⟩
    ⟨by decide, by decide⟩).2 hok (by decide) plainCtx 40 _ _ _ _ hhead (runs_play _ _ _ _)

end Cmogstored
