import Cmogstored.MgmtDialogue

/-! The steps of a management client, one after another: each of them keeps to the reference. -/

namespace Cmogstored

open List Prog Reference Scan

variable {buf : Bytes} {ref : Ref}

section Steps

variable {ctx : MgmtCtx} {talk : Talk} {mgmt : Mgmt}

/-! ### Digests and blocked replies -/

theorem wp_digestStepped (fuel : Nat) {file : MogFile} {job : Job} {data : Bytes} (h : TalkHolds ctx mgmt talk)
    (hnull : mgmt.wbuf = .null) (hfile : mgmt.forward = .file file) (hashing : Hashing mgmt file job data)
    {talk₀ : Talk} (howed : talk₀.owed = []) (href : talk₀.ref = { talk.ref with task := .hash job data }) :
    wp (talkContract ctx) (digestStepped ctx fuel mgmt file) (StepOk ctx) talk₀ := by
  have hforward : mgmt.forward ≠ .none := by rw [hfile]; nofun
  refine wp_bind.mpr (wp_bind.mpr (wp_mono
    (wp_digestReadSome fuel hashing.prio hashing.fd hashing.digest (by rw [href])) ?_))
  rintro ⟨next, file'⟩ talk₁ ⟨hfsck, data', hread⟩
  have href₁ : talk₁.ref = { talk.ref with task := .read ctx job data' next } := by
    rw [hread.ref, href]
  have howed₁ : talk₁.owed = [] := hread.owed.trans howed
  have hfd : file'.fd = job.fd := hread.fd.trans hashing.fd
  have hpath : file'.path.getD [] = job.path := by
    rw [hread.path, hashing.path]
    rfl
  refine wp_require_bind (fun hbusy => ?_) fun _ => ?_
  · rw [hnull] at hbusy
    cases hbusy
  cases next with
  | «continue» =>
    have hnone : job.prio = .none := by
      cases hjob : job.prio with
      | none => rfl
      | fsck => exact absurd rfl (hfsck (hashing.prio.trans hjob))
    refine stepOk_ofWbuf ?_ fun hopen => ⟨?_, ?_, hopen, ?_, nofun, ?_, fun _ => h.fresh hforward⟩
    · show Owes talk₁ mgmt.wbuf
      rw [hnull]
      exact howed₁
    · rw [href₁]
      exact ⟨h.ok.start, h.ok.mark0, h.ok.mark1⟩
    · show Owes talk₁ mgmt.wbuf
      rw [hnull]
      exact howed₁
    · refine ⟨job, data', ⟨hfd, hread.path.trans hashing.path, hread.digest, hashing.alg, hashing.prio, ?_⟩, ?_⟩
      · rw [hnone]
        nofun
      · rw [href₁, Job.at_, hnone]
        rfl
    · rw [href₁]
      exact ⟨h.line.read, h.line.all, h.line.rbuf, h.line.short, h.line.room⟩
  | eof =>
    have htext : digestText ctx job data' = [file'.path.getD [], mgmt.alg.label ++
        mogDigestHex (ctx.hash mgmt.alg (file'.digest.getD [])).val ++ ascii "\r\n"].flatten := by
      rw [hpath, hread.digest, hashing.alg]
      rfl
    refine wp_mono (wp_digestReplied fuel h hnull hforward hfd hashing.prio howed₁ (by rw [href₁])
      (by rw [href₁]) (by rw [href₁, ← htext]; rfl)) fun mgmt' talk' hreplied => ?_
    exact stepOk_ofWbuf hreplied.1 hreplied.2
  | error =>
    have htask : talk₁.ref.task = .seek job := by rw [href₁]; rfl
    refine wp_bind.mpr (wp_action (fun offset => .reply (digestErrText job offset) (some job)) (by rw [htask]; nofun)
      (by rw [htask, hfd]; rfl) rfl trivial fun offset talk₂ hmoved => wp_bind.mp ?_)
    have href₂ := hmoved.ref
    rw [behind_of_ne (by rw [htask]; nofun)] at href₂
    have howed₂ : talk₂.owed = [] := hmoved.owed.trans (by rw [Talk.owes, howed₁]; rfl)
    have htext : digestErrText job offset = [ascii "ERR read ", file'.path.getD [],
        ascii " at " ++ lld offset ++ ascii " failed\r\n"].flatten := by
      rw [hpath]
      rfl
    refine wp_mono (wp_digestReplied fuel h hnull hforward hfd hashing.prio howed₂ (by rw [href₂, href₁])
      (by rw [href₂, href₁]) (by rw [href₂, ← htext])) fun mgmt' talk' hreplied => ?_
    exact stepOk_ofWbuf hreplied.1 hreplied.2

theorem wp_mgmtDigestInProgress (fuel : Nat) (h : TalkHolds ctx mgmt talk) (hnull : mgmt.wbuf = .null)
    (hforward : mgmt.forward ≠ .none) :
    wp (talkContract ctx) (mgmtDigestInProgress ctx fuel mgmt) (StepOk ctx) talk := by
  have howed : talk.owed = [] := by
    have howes := h.owes
    rwa [hnull] at howes
  have hdoing := h.doing
  unfold Doing at hdoing
  unfold mgmtDigestInProgress
  cases hfile : mgmt.forward with
  | none => exact absurd hfile hforward
  | iostat => exact absurd hfile h.served
  | file file =>
    rw [hfile] at hdoing
    obtain ⟨job, data, hashing, htask⟩ := hdoing
    dsimp only
    cases hprio : mgmt.prio with
    | none =>
      rw [Job.at_, ← hashing.prio, hprio] at htask
      refine wp_digestStepped fuel h hnull hfile hashing howed ?_
      exact congrArg (fun task => { talk.ref with task := task }) htask
    | fsck =>
      have hjob : job.prio = .fsck := hashing.prio.symm.trans hprio
      rw [Job.at_, hjob] at htask
      have hdata := hashing.whole hjob
      subst hdata
      refine wp_action (fun now => if now then .hash job [] else .ready job) (by simp [htask])
        (by rw [htask, hashing.fd]; rfl) rfl trivial fun now talk' hmoved => ?_
      have href := hmoved.ref
      rw [behind_of_ne (by simp [htask])] at href
      have howed' : talk'.owed = [] := hmoved.owed.trans (by rw [Talk.owes, howed]; rfl)
      cases now with
      | true => exact wp_digestStepped fuel h hnull hfile hashing howed' href
      | false =>
        have href : talk'.ref = talk.ref := by
          rw [href]
          exact congrArg (fun task => { talk.ref with task := task }) htask.symm
        refine ⟨(fun hclose => by cases hclose), fun _ => Or.inr ⟨href ▸ h.ok, ?_, h.open_, href ▸ h.doing, h.served,
          href ▸ h.line, h.fresh⟩⟩
        show Owes talk' mgmt.wbuf
        rw [hnull]
        exact howed'

theorem wp_mgmtIostatForever (htask : talk.ref.task = .refresh) (hforward : mgmt.forward = .iostat) :
    wp (talkContract ctx) (mgmtIostatForever mgmt) (StepOk ctx) talk := by
  refine wp_action (fun _ => .subscribe) (by rw [htask]; nofun) (by rw [htask]; rfl) rfl trivial
    fun _ talk₁ hmoved => ?_
  refine wp_ask_bind ⟨nofun, trivial⟩ fun answer _ => ?_
  have htask₁ : ((talkContract ctx).next talk₁ (.subscribing { mgmt with rbuf := none }) answer).ref.task
      = .subscribe := by
    show (talk₁.ref.grow []).task = .subscribe
    rw [Ref.grow_nil, hmoved.ref, behind_of_ne (by rw [htask]; nofun)]
  refine wp_action (fun _ => .watching) (by rw [htask₁]; nofun) (by rw [htask₁]; rfl) rfl trivial
    fun _ talk₂ hmoved₁ => ?_
  refine ⟨nofun, fun _ => Or.inl ⟨rfl, hforward, ?_⟩⟩
  rw [hmoved₁.ref, behind_of_ne (by rw [htask₁]; nofun)]

/-- What a flush leaves as it was. -/
theorem TalkHolds.flushed {talk' : Talk} {wbuf : Wbuf} (h : TalkHolds ctx mgmt talk) (href : talk'.ref = talk.ref)
    (howes : Owes talk' wbuf) (hopen : wbuf ≠ .error) : TalkHolds ctx { mgmt with wbuf := wbuf } talk' where
  ok := href ▸ h.ok
  owes := howes
  open_ := hopen
  doing := by
    have hdoing := h.doing
    unfold Doing at hdoing ⊢
    rw [href]
    cases hforward : mgmt.forward with
    | file file =>
      rw [hforward] at hdoing
      obtain ⟨job, data, hashing, htask⟩ := hdoing
      exact ⟨job, data, ⟨hashing.fd, hashing.path, hashing.digest, hashing.alg, hashing.prio, hashing.whole⟩,
        htask⟩
    | _ => rwa [hforward] at hdoing
  served := h.served
  line := by
    rw [href]
    exact ⟨h.line.read, h.line.all, h.line.rbuf, h.line.short, h.line.room⟩
  fresh := h.fresh

theorem wp_mgmtWbufInProgress (fuel : Nat) (h : TalkHolds ctx mgmt talk) (hbusy : mgmt.wbuf ≠ .null) :
    wp (talkContract ctx) (mgmtWbufInProgress fuel mgmt) (StepOk ctx) talk := by
  have howes := h.owes
  unfold mgmtWbufInProgress
  cases hwbuf : mgmt.wbuf with
  | null => exact absurd hwbuf hbusy
  | error => exact absurd hwbuf h.open_
  | pending buf off =>
    rw [hwbuf] at howes
    refine wp_bind.mpr (wp_embed.mpr (wp_mono (wp_tryflush fuel howes.1 howes.2) ?_))
    rintro ⟨state, wbuf⟩ talk' ⟨href, hresult⟩
    cases state with
    | err =>
      obtain ⟨hnull, hgone⟩ := hresult
      exact ⟨fun _ => ⟨Or.inl hgone, Or.inl hnull⟩, fun hne => absurd rfl hne⟩
    | busy =>
      obtain ⟨off', rfl, howes'⟩ := hresult
      exact ⟨nofun, fun _ => Or.inr (h.flushed href howes' nofun)⟩
    | done =>
      obtain ⟨rfl, howed⟩ := hresult
      dsimp only
      rw [if_neg h.served]
      exact ⟨nofun, fun _ => Or.inr (h.flushed href howed nofun)⟩

/-! ### Input -/

/-- The parser may be called with `buf`. -/
structure Parsable (ctx : MgmtCtx) (mgmt : Mgmt) (buf : Bytes) (talk : Talk) : Prop where
  ok : RefOk talk.ref
  idle : talk.ref.task = .idle
  owed : talk.owed = []
  null : mgmt.wbuf = .null
  forward : mgmt.forward = .none
  rest : talk.ref.rest = buf
  short : buf.length ≤ MOG_RBUF_BASE_SIZE
  le : mgmt.offset ≤ buf.length
  read : LineRead ctx.accepting talk.ref.fields (buf.take mgmt.offset) mgmt.toMgmtFields
  rbuf : buf = [] → mgmt.rbuf.getD [] = []

/-- The `reread` label: all of `buf` has been parsed. -/
structure Rereads (ctx : MgmtCtx) (mgmt : Mgmt) (buf : Bytes) (talk : Talk) : Prop
    extends Parsable ctx mgmt buf talk where
  all : mgmt.offset = buf.length
  room : mgmt.offset < MOG_RBUF_BASE_SIZE

def ParseBufOk (ctx : MgmtCtx) (parse : MgmtParse) (talk : Talk) : Prop :=
  match parse with
  | .out mgmt next => StepOk ctx (mgmt, next) talk
  | .reread mgmt buf => Rereads ctx mgmt buf talk

theorem Parsable.exec_eq (h : Parsable ctx mgmt buf talk) :
    mgmtExec ctx.accepting mgmt.toMgmtFields buf mgmt.offset =
      mgmtExec ctx.accepting talk.ref.fields buf 0 := by
  have hexec := h.read.exec_eq (buf.drop mgmt.offset)
  rwa [take_append_drop, length_take, Nat.min_eq_left h.le] at hexec

/-- A command that has been carried out as far as it goes in this step. -/
theorem holds_of_acted {mgmt₁ mgmt₂ : Mgmt} {rbuf : Option Bytes} {cs : MgmtCs}
    (h : Acted mgmt₁ ref mgmt₂ talk) (hfields : ref.fields = mgmt₁.toMgmtFields.reset)
    (hrbuf : rbuf.getD [] = ref.rest) (hshort : ref.rest.length ≤ MOG_RBUF_BASE_SIZE)
    (hserved : mgmt₂.forward ≠ .iostat) (hopen : mgmt₂.wbuf ≠ .error) :
    TalkHolds ctx (mogMgmtResetParser { mgmt₂ with cs := cs, rbuf := rbuf, offset := 0 }) talk := by
  have hreset : (mogMgmtResetParser { mgmt₂ with cs := cs, rbuf := rbuf, offset := 0 }).toMgmtFields =
      talk.ref.fields := by
    rw [h.refFields, hfields, ← h.fields]
    rfl
  have hok : RefOk talk.ref := by
    rw [h.refFields, hfields] at hreset
    refine ⟨?_, ?_, ?_⟩ <;> rw [h.refFields, hfields] <;> rfl
  refine ⟨hok, h.owes, hopen, ?_, hserved, ?_, fun _ => rfl⟩
  · have hdoing := h.doing
    unfold Doing at hdoing ⊢
    cases hforward : mgmt₂.forward with
    | file file =>
      rw [hforward] at hdoing
      obtain ⟨job, data, hashing, htask⟩ := hdoing
      simp only [mogMgmtResetParser]
      exact ⟨job, data, ⟨hashing.fd, hashing.path, hashing.digest, hashing.alg, hashing.prio, hashing.whole⟩,
        htask⟩
    | iostat => exact absurd hforward hserved
    | none =>
      rw [hforward] at hdoing
      simp only [mogMgmtResetParser]
      exact hdoing
  · refine lineHeld_fresh hok hreset rfl ?_ ?_
    · rw [h.rest]
      exact hrbuf
    · rw [h.rest]
      exact hshort

theorem wp_mgmtDone {mgmt₁ mgmt₂ : Mgmt} {pos : Nat} {cs : MgmtCs}
    (h : Acted mgmt₁ ref mgmt₂ talk) (hfields : ref.fields = mgmt₁.toMgmtFields.reset)
    (hrest : ref.rest = buf.drop pos) (hpos : pos ≤ buf.length) (hshort : buf.length ≤ MOG_RBUF_BASE_SIZE)
    (hopen : mgmt₂.wbuf ≠ .error) :
    wp (talkContract ctx) (mgmtDone { mgmt₂ with cs := cs, offset := pos } buf) (StepOk ctx) talk := by
  unfold mgmtDone
  split
  · rename_i hiostat
    have hdoing := h.doing
    unfold Doing at hdoing
    rw [show mgmt₂.forward = .iostat from hiostat] at hdoing
    exact wp_mgmtIostatForever hdoing hiostat
  · rename_i hserved
    have hdrop : ref.rest.length ≤ MOG_RBUF_BASE_SIZE := by
      rw [hrest, length_drop]
      omega
    have hholds : ∀ rbuf : Option Bytes, rbuf.getD [] = ref.rest →
        TalkHolds ctx (mogMgmtResetParser { mgmt₂ with cs := cs, rbuf := rbuf, offset := 0 }) talk :=
      fun rbuf hrbuf => holds_of_acted h hfields hrbuf hdrop hserved hopen
    refine wp_bind.mpr (wp_require_bind (fun hbad => ?_) fun _ => ?_)
    · rw [Bool.and_eq_false_iff, decide_eq_false_iff_not, decide_eq_false_iff_not] at hbad
      rcases hbad with hbad | hbad
      · exact absurd hpos hbad
      · have hless := Nat.sub_le buf.length pos
        exact absurd (Nat.le_trans hless hshort) hbad
    · dsimp only
      split
      · rename_i hempty
        have hnil : ref.rest = [] := hrest.trans (length_eq_zero_iff.mp hempty)
        refine wp_require_bind (fun hbad => absurd ?_ hopen) fun _ => ?_
        · exact not_not.mp (of_decide_eq_false hbad)
        · exact stepOk_ofWbuf h.owes fun _ => hholds none hnil.symm
      · refine wp_require_bind (fun hbad => absurd ?_ hopen) fun _ => ?_
        · exact not_not.mp (of_decide_eq_false hbad)
        · exact stepOk_ofWbuf h.owes fun _ => hholds (some _) hrest.symm

/-- The parser has found the command that the reference takes next. -/
theorem wp_command {β : Type} {command : Command} {f : Unit → MgmtIo β} {Q : β → Talk → Prop}
    (hstep : talk.ref.step ctx = some ⟨.command command, fun _ => ref⟩) (howed : talk.owed = [])
    (h : ∀ talk' : Talk, talk'.ref = ref → talk'.owed = [] → wp (talkContract ctx) (f ()) Q talk') :
    wp (talkContract ctx) (ask (.command command) >>= f) Q talk := by
  refine wp_ask_bind ⟨fun _ => ⟨_, hstep⟩, howed⟩ fun answer _ => ?_
  have hmoved : Moved talk (talk.next ctx (.command command) answer) ref _ := moved_of_step rfl hstep answer
  exact h _ hmoved.ref (hmoved.owed.trans (by rw [Talk.owes, howed]; rfl))

theorem wp_mgmtParseBuf (fuel : Nat) (h : Parsable ctx mgmt buf talk) :
    wp (talkContract ctx) (mgmtParseBuf ctx fuel mgmt buf) (ParseBufOk ctx) talk := by
  refine wp_bind.mpr (wp_require_bind (fun hbad => ?_) fun _ => wp_require_bind (fun hbad => ?_) fun _ => ?_)
  · rw [h.null] at hbad
    cases hbad
  · exact absurd h.le (of_decide_eq_false hbad)
  rw [h.exec_eq]
  have hend := lineEnd_mgmtExec ctx.accepting h.ok.start buf
  have hargument := argumentEnd_mgmtExec ctx.accepting buf h.ok.start
  have hscan := scans_mgmtExec ctx.accepting (lineAt_start buf h.ok.start)
  cases hexec : mgmtExec ctx.accepting talk.ref.fields buf 0 with
  | more fields pos =>
    rw [hexec] at hend hscan
    obtain ⟨hpos, hat⟩ := hend
    have hcontinue : fields.cs.parserState = .continue := by
      have hplace := hat.place
      cases hcs : fields.cs <;> rw [hcs] at hplace <;> first | rfl | exact hplace.elim
    have hread : LineRead ctx.accepting talk.ref.fields buf fields := by
      rw [hpos] at hscan
      exact ⟨h.ok.start, hscan⟩
    refine wp_pure.mpr ?_
    dsimp only
    rw [hcontinue, if_neg (by rw [h.null]; nofun)]
    refine wp_require_bind (fun hbad => ?_) fun _ => ?_
    · rw [h.null] at hbad
      cases hbad
    · split
      · rename_i hfull
        have hlength : buf.length = MOG_RBUF_BASE_SIZE := hpos.symm.trans hfull
        refine wp_require_bind (fun hbad => absurd hlength (of_decide_eq_false hbad)) fun _ => ?_
        refine ⟨fun _ => ⟨Or.inr (Or.inr ⟨?_, ?_⟩), Or.inl h.null⟩, fun hne => absurd rfl hne⟩
        · rw [h.rest]
          exact Nat.le_of_eq hlength.symm
        · rw [h.rest]
          exact hread.noLf
      · rename_i hroom
        refine ⟨⟨h.ok, h.idle, h.owed, h.null, h.forward, h.rest, h.short, Nat.le_of_eq hpos, ?_, h.rbuf⟩,
          hpos, ?_⟩
        · show LineRead ctx.accepting talk.ref.fields (buf.take pos) fields
          rwa [hpos, take_length]
        · exact Nat.lt_of_le_of_ne (hpos ▸ h.short) hroom
  | halted fields pos why =>
    rw [hexec] at hend hargument
    cases why with
    | reject =>
      refine wp_pure.mpr ?_
      dsimp only
      rw [if_neg (by rw [h.null]; nofun)]
      refine ⟨fun _ => ⟨Or.inr (Or.inl ?_), Or.inl h.null⟩, fun hne => absurd rfl hne⟩
      rw [h.rest]
      exact hend
    | call fn =>
      obtain ⟨k, rfl, hlf, -⟩ := hend
      have hpos : k + 1 ≤ buf.length := (List.getElem?_eq_some_iff.mp hlf).1
      let command := commandOf fields buf fn
      let ref : Ref := { rest := buf.drop (k + 1), fields := fields.reset, task := .start command }
      have hstep : talk.ref.step ctx = some ⟨.command command, fun _ => ref⟩ := by
        rw [Ref.step, if_pos h.idle, Ref.take, h.rest, hexec]
      refine wp_command hstep h.owed fun talk₁ href howed => ?_
      have hthreads : fn = .aioThreads → ThreadsOk fields buf := by
        rintro rfl
        exact hargument
      refine wp_bind.mpr (wp_mono (wp_mgmtAction fuel fn h.null h.forward howed hthreads
        (by rw [href])) fun mgmt₂ talk₂ hacted => ?_)
      rw [href] at hacted
      refine wp_pure.mpr ?_
      dsimp only
      split
      · rename_i herror
        have howes := hacted.owes
        rw [show mgmt₂.wbuf = .error from herror] at howes
        exact ⟨fun _ => ⟨Or.inl howes, Or.inr herror⟩, fun hne => absurd rfl hne⟩
      · rename_i hopen
        refine wp_bind.mpr (wp_mono (wp_mgmtDone hacted rfl rfl hpos h.short hopen) ?_)
        rintro ⟨mgmt₃, next⟩ talk₃ hok
        exact hok
  | failed =>
    rw [hexec] at hend
    exact hend.elim
  | stuck => trivial

theorem take_all {n : Nat} (h : n = buf.length) : buf.take n = buf := by
  rw [h, take_length]

theorem wp_mgmtReread (fuel : Nat) (h : Rereads ctx mgmt buf talk) :
    wp (talkContract ctx) (mgmtReread ctx fuel mgmt buf) (StepOk ctx) talk := by
  induction fuel generalizing talk mgmt buf with
  | zero => trivial
  | succ fuel ih =>
    have hread := h.read
    rw [take_all h.all] at hread
    have hsettles : talk.Settles (.sys (.read (MOG_RBUF_BASE_SIZE - mgmt.offset))) :=
      ⟨h.idle, h.owed, by rw [h.rest]; exact hread.noLf⟩
    refine wp_ask_bind ⟨(fun h => by cases h), hsettles⟩ fun answer _ => ?_
    have hquiet : ∀ errno, Moved talk
        (talk.next ctx (.sys (.read (MOG_RBUF_BASE_SIZE - mgmt.offset))) (.error errno)) talk.ref talk.owed :=
      fun errno => moved_of_socket ctx talk (.read (MOG_RBUF_BASE_SIZE - mgmt.offset)) (.error errno) rfl rfl
    split
    · rename_i data _
      split
      · rename_i hempty
        have hgone : goneBy ⟨.sys (.read (MOG_RBUF_BASE_SIZE - mgmt.offset)), .ok data⟩ = true :=
          isEmpty_iff.mpr (length_eq_zero_iff.mp hempty)
        exact ⟨fun _ => ⟨Or.inl (gone_next hgone), Or.inl h.null⟩, fun hne => absurd rfl hne⟩
      · rename_i hsome
        rw [take_all h.all]
        let talk' := talk.next ctx (.sys (.read (MOG_RBUF_BASE_SIZE - mgmt.offset))) (.ok data)
        have href : talk'.ref = talk.ref.grow data.val := rfl
        have hparsable : Parsable ctx mgmt (buf ++ data.val) talk' := by
          refine ⟨h.ok.grow _, h.idle, h.owed, h.null, h.forward, ?_, ?_, ?_, ?_, fun hnil => ?_⟩
          · rw [href, Ref.grow, h.rest]
          · rw [length_append, ← h.all]
            have hfits := data.property
            have hroom := h.room
            omega
          · rw [length_append]
            exact Nat.le_add_right_of_le (Nat.le_of_eq h.all)
          · rw [take_append_of_le_length (Nat.le_of_eq h.all), take_all h.all]
            exact hread
          · exact absurd (append_eq_nil_iff.mp hnil).2 (fun hnil => hsome (by rw [hnil]; rfl))
        refine wp_bind.mpr (wp_mono (wp_mgmtParseBuf fuel hparsable) ?_)
        rintro (⟨mgmt', next⟩ | ⟨mgmt', buf'⟩) talk'' hparsed
        · exact hparsed
        · exact ih hparsed
    · have hmoved := hquiet .EAGAIN
      have hholds : ∀ rbuf : Option Bytes, rbuf.getD [] = buf →
          TalkHolds ctx { mgmt with rbuf := rbuf } (talk.next ctx _ _) := fun rbuf hrbuf => by
        refine ⟨hmoved.ref ▸ h.ok, ?_, ?_, ?_, ?_, ?_, fun hne => absurd h.forward hne⟩
        · show Owes _ mgmt.wbuf
          rw [h.null]
          exact hmoved.owed.trans h.owed
        · simp [h.null]
        · unfold Doing
          rw [h.forward]
          exact hmoved.ref ▸ h.idle
        · simp [h.forward]
        · rw [hmoved.ref]
          refine ⟨?_, Or.inr (by rw [h.rest]; exact h.all), hrbuf.trans h.rest.symm, ?_, h.room⟩
          · rw [h.rest]
            exact h.read
          · rw [h.rest]
            exact h.short
      split
      · exact ⟨(fun hclose => by cases hclose), fun _ => Or.inr (hholds (some buf) rfl)⟩
      · rename_i hempty
        have hnil : buf = [] := length_eq_zero_iff.mp (by omega)
        exact ⟨(fun hclose => by cases hclose), fun _ => Or.inr (hholds mgmt.rbuf (by rw [h.rbuf hnil, hnil]))⟩
    · have hmoved := hquiet .EINTR
      refine ih ⟨⟨hmoved.ref ▸ h.ok, hmoved.ref ▸ h.idle, hmoved.owed.trans h.owed, h.null, h.forward,
        hmoved.ref ▸ h.rest, h.short, h.le, hmoved.ref ▸ h.read, h.rbuf⟩, h.all, h.room⟩
    · refine ⟨fun _ => ⟨Or.inl (gone_next ?_), Or.inl h.null⟩, fun hne => absurd rfl hne⟩
      exact hard_of_ne ‹_› ‹_›

/-- A client that waits for a line. -/
theorem TalkHolds.parsable (h : TalkHolds ctx mgmt talk) (hnull : mgmt.wbuf = .null)
    (hforward : mgmt.forward = .none) : Parsable ctx mgmt talk.ref.rest talk where
  ok := h.ok
  idle := by
    have hdoing := h.doing
    unfold Doing at hdoing
    rwa [hforward] at hdoing
  owed := by
    have howes := h.owes
    rwa [hnull] at howes
  null := hnull
  forward := hforward
  rest := rfl
  short := h.line.short
  le := h.line.all.elim (fun hzero => by rw [hzero]; exact Nat.zero_le _) Nat.le_of_eq
  read := h.line.read
  rbuf hnil := h.line.rbuf.trans hnil

theorem wp_mgmtInput (fuel : Nat) (h : TalkHolds ctx mgmt talk) (hnull : mgmt.wbuf = .null)
    (hforward : mgmt.forward = .none) :
    wp (talkContract ctx) (mgmtInput ctx fuel mgmt) (StepOk ctx) talk := by
  have hparsable := h.parsable hnull hforward
  have hrbuf := h.line.rbuf
  refine wp_require_bind (fun hbad => absurd h.line.room (of_decide_eq_false hbad)) fun _ => ?_
  cases hkept : mgmt.rbuf with
  | none =>
    rw [hkept] at hrbuf
    rw [← hrbuf] at hparsable
    exact wp_mgmtReread fuel ⟨hparsable, Nat.le_zero.mp hparsable.le, h.line.room⟩
  | some data =>
    rw [hkept] at hrbuf
    obtain rfl : data = talk.ref.rest := hrbuf
    dsimp only
    split
    · refine wp_bind.mpr (wp_mono (wp_mgmtParseBuf fuel hparsable) ?_)
      rintro (⟨mgmt', next⟩ | ⟨mgmt', buf'⟩) talk' hparsed
      · exact hparsed
      · exact wp_mgmtReread fuel hparsed
    · rename_i hsome
      exact wp_mgmtReread fuel ⟨hparsable, h.line.all.resolve_left hsome, h.line.room⟩

theorem wp_mgmtQueueStep (fuel : Nat) (h : TalkHolds ctx mgmt talk) :
    wp (talkContract ctx) (mgmtQueueStep ctx fuel mgmt) (StepOk ctx) talk := by
  unfold mgmtQueueStep
  split
  · exact wp_mgmtWbufInProgress fuel h ‹_›
  · rename_i hnull
    have hnull := not_not.mp hnull
    split
    · exact wp_mgmtDigestInProgress fuel h hnull ‹_›
    · rename_i hnone
      exact wp_mgmtInput fuel h hnull (not_not.mp hnone)

/-- The marks at the end of a step move nothing. -/
theorem TalkHolds.marked {request : MgmtCall} {answer : MgmtRes request} (h : TalkHolds ctx mgmt talk)
    (href : talk.ref.hears ctx request answer = talk.ref) (howed : talk.owes request answer = talk.owed) :
    TalkHolds ctx mgmt (talk.next ctx request answer) := by
  have href : (talk.next ctx request answer).ref = talk.ref := href
  refine ⟨href ▸ h.ok, ?_, h.open_, href ▸ h.doing, h.served, href ▸ h.line, h.fresh⟩
  have howes := h.owes
  cases hwbuf : mgmt.wbuf with
  | null =>
    rw [hwbuf] at howes
    exact howed.trans howes
  | error => exact absurd hwbuf h.open_
  | pending buf off =>
    rw [hwbuf] at howes
    exact ⟨howed.trans howes.1, howes.2⟩

theorem Talk.Ends.marked {request : MgmtCall} {answer : MgmtRes request} (h : talk.Ends)
    (href : talk.ref.hears ctx request answer = talk.ref) : (talk.next ctx request answer).Ends := by
  have href : (talk.next ctx request answer).ref = talk.ref := href
  rcases h with hgone | hrest
  · refine Or.inl ?_
    show (talk.gone || _) = true
    rw [hgone]
    rfl
  · exact Or.inr (href ▸ hrest)

/-- Behind a step: the client is closed for a reason, has become a watcher, or goes on. -/
def Stepped (ctx : MgmtCtx) (result : Mgmt × MgmtNext) (talk : Talk) : Prop :=
  (result.2 = .close ∧ talk.Ends) ∨
  (result.2 = .ignore ∧ result.1.forward = .iostat ∧ talk.ref.task = .watching) ∨
  (result.2 ≠ .close ∧ TalkHolds ctx result.1 talk)

/-- **One step** keeps to the reference. -/
theorem wp_mogMgmtQueueStep (fuel : Nat) (h : TalkHolds ctx mgmt talk) :
    wp (talkContract ctx) (mogMgmtQueueStep ctx fuel mgmt) (Stepped ctx) talk := by
  refine wp_bind.mpr (wp_mono (wp_mgmtQueueStep fuel h) ?_)
  rintro ⟨mgmt', next⟩ talk₁ ⟨hclose, hon⟩
  have hsettles : talk₁.Settles (.stepped next mgmt') := by
    cases next with
    | close => exact (hclose rfl).1
    | _ => trivial
  refine wp_ask_bind ⟨nofun, hsettles⟩ fun _ _ => ?_
  have hmark : talk₁.ref.hears ctx (.stepped next mgmt') () = talk₁.ref := Ref.grow_nil _
  split
  · rename_i hnext
    have hends : talk₁.Ends := (hclose hnext).1
    refine wp_bind.mpr (wp_require_bind (fun hbad => ?_) fun _ => ?_)
    · rcases (hclose hnext).2 with hnull | herror
      · rw [show mgmt'.wbuf = .null from hnull] at hbad
        cases hbad
      · rw [show mgmt'.wbuf = .error from herror] at hbad
        cases hbad
    · exact ⟨⟨nofun, trivial⟩, fun _ _ => Or.inl ⟨hnext, (hends.marked hmark).marked (Ref.grow_nil _)⟩⟩
  · rename_i hnext
    rcases hon hnext with ⟨hignore, hforward, htask⟩ | hholds
    · refine Or.inr (Or.inl ⟨hignore, hforward, ?_⟩)
      show (talk₁.ref.hears ctx _ _).task = .watching
      rw [hmark]
      exact htask
    · exact Or.inr (Or.inr ⟨hnext, hholds.marked hmark rfl⟩)

theorem wp_mgmtServe (fuel : Nat) (h : TalkHolds ctx mgmt talk) :
    wp (talkContract ctx) (mgmtServe ctx fuel mgmt)
      (fun _ talk => talk.Ends ∨ talk.ref.task = .watching) talk := by
  induction fuel generalizing mgmt talk with
  | zero => trivial
  | succ fuel ih =>
    refine wp_bind.mpr (wp_mono (wp_mogMgmtQueueStep fuel h) ?_)
    rintro ⟨mgmt', next⟩ talk' hstep
    dsimp only
    rcases hstep with ⟨hclose, hends⟩ | ⟨hignore, hforward, htask⟩ | ⟨hclose, hholds⟩
    · rw [if_pos (by rw [show next = .close from hclose]; rfl)]
      exact Or.inl hends
    · rw [if_pos (by rw [show next = .ignore from hignore, show mgmt'.forward = .iostat from hforward]; rfl)]
      exact Or.inr htask
    · have hserved : (decide (next = .close) || (decide (next = .ignore) && decide (mgmt'.forward = .iostat)))
          ≠ true := by
        rw [decide_eq_false hclose, decide_eq_false hholds.served, Bool.and_false]
        nofun
      rw [if_neg hserved]
      exact ih hholds

theorem holds_init (ctx : MgmtCtx) : TalkHolds ctx mogMgmtInit .start where
  ok := refOk_start
  owes := rfl
  open_ := nofun
  doing := rfl
  served := nofun
  line := lineHeld_fresh refOk_start rfl rfl rfl (Nat.zero_le _)
  fresh hne := absurd rfl hne

end Steps

end Cmogstored
