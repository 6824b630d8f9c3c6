import Cmogstored.Http

/-! The head parser as a scanner of lines: it ends on every buffer, and what it has made of the bytes
so far does not depend on how they arrived. -/

namespace Cmogstored

open Scan

variable {onError : HeadAct} {c : Byte} {p p' : Nat} {fields fields' : Fields} {buf seen : Bytes}

/-! ### Reading a line again -/

/-- The line is being read a second time, as one to be ignored. -/
def HttpCs.isIgnored : HttpCs → Bool
  | .ignored _ => true
  | _ => false

/-- The path of the request line has been read. -/
def HttpCs.afterPath : HttpCs → Bool
  | .start => false
  | .method _ => false
  | .target => false
  | .scheme _ => false
  | .hostStart => false
  | .host => false
  | .path _ => false
  | _ => true

/-- The actions of the request line up to its path. -/
def HeadAct.setsTarget : HeadAct → Bool
  | .method _ => true
  | .pathTip => true
  | .pathEnd => true
  | _ => false

/-- A transition within the headers, read for the first time. -/
structure InHeaders (next : HeadAct × HttpCs) : Prop where
  first : next.2.isIgnored = false
  afterPath : next.2.afterPath = true
  act : next.1.setsTarget = false

theorem fieldNames_inHeaders :
    ∀ entry ∈ fieldNames, entry.2.isIgnored = false ∧ entry.2.afterPath = true := by decide

theorem nameNext_inHeaders (seen : Bytes) (c : Byte)
    (h : onError.setsTarget = false) : InHeaders (nameNext seen c onError) := by
  unfold nameNext
  dsimp only
  split
  · rename_i entry hentry
    obtain ⟨hfirst, hafter⟩ := fieldNames_inHeaders entry (List.mem_of_find?_eq_some hentry)
    exact ⟨hfirst, hafter, rfl⟩
  · split
    · exact ⟨rfl, rfl, rfl⟩
    · exact ⟨rfl, rfl, h⟩

theorem headersNext_inHeaders (c : Byte) (h : onError.setsTarget = false) :
    InHeaders (headersNext c onError) := by
  unfold headersNext
  split
  · exact ⟨rfl, rfl, rfl⟩
  · exact nameNext_inHeaders [] c h

theorem wordNext_inHeaders {rest : Bytes} {more : Bytes → HttpCs}
    {last : HeadAct × HttpCs}
    (hmore : ∀ rest, (more rest).isIgnored = false ∧ (more rest).afterPath = true)
    (hlast : InHeaders last) (h : onError.setsTarget = false) :
    InHeaders (wordNext rest c more last onError) := by
  unfold wordNext
  split
  · exact ⟨rfl, rfl, h⟩
  · split
    · split
      · exact hlast
      · exact ⟨(hmore _).1, (hmore _).2, rfl⟩
    · exact ⟨rfl, rfl, h⟩

theorem valueNext_inHeaders (field : Field) (c : Byte) : InHeaders (valueNext field c) := by
  cases field <;> dsimp only [valueNext] <;> (repeat' split) <;> exact ⟨rfl, rfl, rfl⟩

theorem sepNext_inHeaders (field : Field) (at_ : SepCs) (c : Byte) :
    InHeaders (sepNext field at_ c) := by
  cases at_ <;> dsimp only [sepNext] <;> (repeat' split) <;>
    first | exact ⟨rfl, rfl, rfl⟩ | exact valueNext_inHeaders field c

theorem md5HeadNext_inHeaders (at_ : Md5Cs) (c : Byte) : InHeaders (md5HeadNext at_ c) := by
  unfold md5HeadNext
  dsimp only
  split <;> first | exact ⟨rfl, rfl, rfl⟩ | (split <;> exact ⟨rfl, rfl, rfl⟩)

theorem eorNext_inHeaders (c : Byte) {act : HeadAct} (hact : act.setsTarget = false)
    (h : onError.setsTarget = false) : InHeaders (eorNext c act onError) := by
  unfold eorNext
  split
  · exact ⟨rfl, rfl, hact⟩
  split
  · exact ⟨rfl, rfl, hact⟩
  · exact ⟨rfl, rfl, h⟩

theorem trailerMd5Next_inHeaders (rest : Bytes) (c : Byte) : InHeaders (trailerMd5Next rest c) := by
  unfold trailerMd5Next
  (repeat' split) <;> exact ⟨rfl, rfl, rfl⟩

/-- Behind the path the machine stays behind it, and enters no second reading by itself. -/
theorem httpNext_inHeaders {cs : HttpCs} (c : Byte) (h : cs.isIgnored = false)
    (hafter : cs.afterPath = true) : InHeaders (httpNext cs c) := by
  have hword : ∀ (rest : Bytes) (more : Bytes → HttpCs),
      (∀ rest, (more rest).isIgnored = false ∧ (more rest).afterPath = true) →
      ∀ c last onError, InHeaders last → onError.setsTarget = false →
        InHeaders (wordNext rest c more last onError) :=
    fun _ _ hmore _ _ _ hlast herror => wordNext_inHeaders hmore hlast herror
  have hdone : ∀ {act : HeadAct} {cs : HttpCs}, cs.isIgnored = false → cs.afterPath = true →
      act.setsTarget = false → InHeaders (act, cs) := fun hfirst hafter hact => ⟨hfirst, hafter, hact⟩
  cases cs with
  | ignored at_ => cases h
  | start => cases hafter
  | method rest => cases hafter
  | target => cases hafter
  | scheme rest => cases hafter
  | hostStart => cases hafter
  | host => cases hafter
  | path count => cases hafter
  | name seen => exact nameNext_inHeaders seen c rfl
  | sep field at_ => exact sepNext_inHeaders field at_ c
  | md5 at_ => exact md5HeadNext_inHeaders at_ c
  | version rest => exact hword _ _ (fun _ => ⟨rfl, rfl⟩) _ _ _ (hdone rfl rfl rfl) rfl
  | connectionValue keepAlive rest =>
    exact hword _ _ (fun _ => ⟨rfl, rfl⟩) _ _ _ (hdone rfl rfl rfl) rfl
  | contentRangeUnit rest => exact hword _ _ (fun _ => ⟨rfl, rfl⟩) _ _ _ (hdone rfl rfl rfl) rfl
  | rangeUnit rest => exact hword _ _ (fun _ => ⟨rfl, rfl⟩) _ _ _ (hdone rfl rfl rfl) rfl
  | chunkedValue rest => exact hword _ _ (fun _ => ⟨rfl, rfl⟩) _ _ _ (hdone rfl rfl rfl) rfl
  | headers => exact headersNext_inHeaders c rfl
  | headersAfterMd5 => exact headersNext_inHeaders c rfl
  | trailerMd5 rest =>
    dsimp only [httpNext]
    split
    · exact trailerMd5Next_inHeaders rest c
    · exact eorNext_inHeaders c rfl rfl
  | _ =>
    dsimp only [httpNext]
    (repeat' split) <;> first | exact ⟨rfl, rfl, rfl⟩ | exact eorNext_inHeaders c rfl rfl

/-- The machine does not enter the second reading by itself. -/
theorem httpNext_not_ignored {cs : HttpCs} (c : Byte) (h : cs.isIgnored = false) :
    (httpNext cs c).2.isIgnored = false := by
  by_cases hafter : cs.afterPath = true
  · exact (httpNext_inHeaders c h hafter).first
  · cases cs <;> simp only [HttpCs.afterPath, not_true] at hafter <;>
      dsimp only [httpNext, wordNext] <;> (repeat' split) <;> rfl

/-- In the second reading a byte is passed over, ends a line, or is refused. -/
theorem httpNext_ignored (at_ : IgnoredCs) (c : Byte) :
    (∃ at', httpNext (.ignored at_) c = (.keep, .ignored at')) ∨
    (∃ cs, httpNext (.ignored at_) c = (.lineEnd, cs)) ∨
    httpNext (.ignored at_) c = (.reject, .error) := by
  dsimp only [httpNext, ignoredHeadNext]
  split
  · exact Or.inl ⟨_, rfl⟩
  · exact Or.inr (Or.inl ⟨_, rfl⟩)
  · exact Or.inr (Or.inl ⟨_, rfl⟩)
  · exact Or.inr (Or.inr rfl)

/-! ### The steps -/

theorem eq_of_toU16 {n : Nat} (h : toU16 p = some n) : n = p := by
  unfold toU16 at h
  split at h
  · exact (Option.some.inj h).symm
  · cases h

theorem lineMove_of_eq (hend : fields'.lineEnd = fields.lineEnd)
    (hcs : fields'.cs.isIgnored = fields.cs.isIgnored) :
    LineMove fields.lineEnd fields.cs.isIgnored p fields'.lineEnd fields'.cs.isIgnored (p + 1) := by
  rw [hend, hcs]
  exact .on

/-- How a step goes on. -/
theorem headStep_line
    (h : headStep buf fields p c = .goto fields' p') :
    LineMove fields.lineEnd fields.cs.isIgnored p fields'.lineEnd fields'.cs.isIgnored p' := by
  rcases hnext : httpNext fields.cs c with ⟨act, cs⟩
  -- outside the second reading the machine stays outside it, and so do all actions but one
  by_cases hignored : fields.cs.isIgnored = true
  · obtain ⟨at_, hat⟩ : ∃ at_, fields.cs = .ignored at_ := by
      cases hcs : fields.cs <;> simp_all [HttpCs.isIgnored]
    rw [hat] at hnext
    rcases httpNext_ignored at_ c with ⟨at', hkeep⟩ | ⟨cs', hend⟩ | hreject
    · simp only [headStep, hat, hkeep] at h
      cases h
      exact lineMove_of_eq rfl hignored.symm
    · simp only [headStep, hat, hend] at h
      split at h
      · rename_i lineEnd hp
        cases h
        obtain rfl := eq_of_toU16 hp
        exact .next _
      · cases h
    · simp only [headStep, hat, hreject] at h
      cases h
  · have hfirst : fields.cs.isIgnored = false := by simpa using hignored
    have hcs : cs.isIgnored = fields.cs.isIgnored := by
      have := httpNext_not_ignored c hfirst
      rw [hnext] at this
      rw [this, hfirst]
    simp only [headStep, hnext] at h
    cases act <;> dsimp only at h
    case lineEnd =>
      split at h
      · rename_i lineEnd hp
        cases h
        obtain rfl := eq_of_toU16 hp
        exact .next _
      · cases h
    case hasRange =>
      split at h
      · rename_i lineEnd hp
        cases h
        obtain rfl := eq_of_toU16 hp
        exact .next _
      · cases h
    case ignoreLine =>
      split at h
      · rename_i hend
        cases h
        exact .back_of_pos hend.1 hfirst
      · cases h
    case md5Err =>
      split at h
      · split at h
        · rename_i hend
          cases h
          exact .back_of_pos hend.1 hfirst
        · cases h
      · cases h
    all_goals
      repeat' split at h
      all_goals first | (cases h; exact lineMove_of_eq rfl hcs) | cases h

theorem headStep_halt {why : Halt}
    (h : headStep buf fields p c = .halt fields' p' why) : p' ≤ p + 1 := by
  rcases hnext : httpNext fields.cs c with ⟨act, cs⟩
  simp only [headStep, hnext] at h
  cases act <;> dsimp only at h <;> (repeat' split at h) <;>
    first | (cases h; exact Nat.le_refl _) | (cases h; exact Nat.le_succ _) | cases h

/-- A step looks at nothing behind its position. -/
theorem headStep_append (more : Bytes)
    (hp : p < buf.length) (hend : fields.lineEnd = 0 ∨ fields.lineEnd < p) :
    headStep (buf ++ more) fields p c = headStep buf fields p c := by
  have hlt : fields.lineEnd < buf.length := by omega
  have htake : (buf ++ more).take p = buf.take p := List.take_append_of_le_length (by omega)
  have hbyte : (buf ++ more)[fields.lineEnd]? = buf[fields.lineEnd]? := List.getElem?_append_left hlt
  have hlength : (fields.lineEnd + 1 ≤ (buf ++ more).length) = (fields.lineEnd + 1 ≤ buf.length) := by
    rw [List.length_append]
    exact propext ⟨fun _ => hlt, fun h => by omega⟩
  simp only [headStep, htake, hbyte, hlength]

/-! ### Scans of a head -/

/-- Where the parser can be called: its position is in the buffer, behind the last line end. -/
abbrev HeadAt (buf : Bytes) (fields : Fields) (p : Nat) : Prop := Scan.AtLine buf.length fields.lineEnd p

theorem headScan_step (more : Bytes) (fields : Fields) (p : Nat) (c : Byte)
    (hat : HeadAt buf fields p) (hc : buf[p]? = some c) :
    headStep (buf ++ more) fields p c = headStep buf fields p c ∧
    ∀ fields' p', headStep buf fields p c = .goto fields' p' → HeadAt buf fields' p' := by
  have hp := (List.getElem?_eq_some_iff.mp hc).1
  exact ⟨headStep_append more hp hat.2, fun _ _ hmove => (headStep_line hmove).atLine hat hp⟩

/-- **The head parser always ends.** -/
theorem headScan_ne_stuck (buf : Bytes) (fields : Fields) (p : Nat) :
    exec headStep buf (lineFuel buf.length) fields p ≠ .stuck :=
  exec_lines_ne_stuck (fun _ _ _ _ _ _ hmove => headStep_line hmove) fields p

theorem headScan_more
    (h : Scans headStep buf fields p (.more fields' p')) (hat : HeadAt buf fields p) :
    p' = buf.length ∧ HeadAt buf fields' p' :=
  h.more_pos (fun _ _ _ _ _ _ hmove => headStep_line hmove) hat

theorem headScan_halted {why : Halt}
    (h : Scans headStep buf fields p (.halted fields' p' why)) : p' ≤ buf.length :=
  h.halted_le fun _ _ _ _ _ _ hmove => headStep_halt hmove

/-- What `mog_http_parse` makes of the end of a scan. -/
def parsedOf (http : Http) : Outcome Fields Halt → Option Parsed
  | .more fields p => some ⟨.continue, none, { http with toFields := fields, offset := p }⟩
  | .halted fields p .done => some ⟨.done, none, { http with toFields := fields, offset := p }⟩
  | .halted fields p (.invalid errno) =>
    some ⟨.error, some errno, { http with toFields := fields, offset := p }⟩
  | .halted fields p .reject => some ⟨.error, none, { http with toFields := fields, offset := p }⟩
  | .failed => none
  | .stuck => none

/-- **`mog_http_parse` is a scan of the buffer.** -/
theorem mogHttpParse_eq {http : Http} {outcome : Outcome Fields Halt}
    (hnull : http.wbuf = .null) (hat : HeadAt buf http.toFields http.offset)
    (h : Scans headStep buf http.toFields http.offset outcome) :
    mogHttpParse http buf = parsedOf http outcome := by
  have hexec := h.exec_eq (headScan_ne_stuck buf http.toFields http.offset)
  unfold mogHttpParse
  dsimp only
  rw [if_pos ⟨hnull, hat.1⟩, hexec]
  cases outcome with
  | more fields p =>
    have hp := (headScan_more h hat).1
    simp [hp, parsedOf]
  | halted fields p why =>
    have hp := headScan_halted h
    cases why with
    | done => simp [hp, parsedOf]
    | invalid errno => rfl
    | reject => rfl
  | failed => rfl
  | stuck => rfl

theorem exists_headScan (buf : Bytes) (fields : Fields) (p : Nat) :
    ∃ outcome, Scans headStep buf fields p outcome :=
  ⟨_, scans_exec (headScan_ne_stuck buf fields p)⟩

/-! ### Heads that arrive in pieces -/

/-- The parser, started afresh on `seen`, has read all of it and waits for more. -/
def Reading (seen : Bytes) (fields : Fields) : Prop :=
  Scans headStep seen .init 0 (.more fields seen.length)

theorem headAt_init (buf : Bytes) : HeadAt buf .init 0 := ⟨Nat.zero_le _, Or.inl rfl⟩

theorem reading_nil : Reading [] .init := .more rfl

theorem Reading.headAt (h : Reading seen fields) (more : Bytes) :
    HeadAt (seen ++ more) fields seen.length := by
  obtain ⟨-, hat⟩ := headScan_more h (headAt_init seen)
  exact ⟨by simp, hat.2⟩

/-- **What the parser makes of a buffer does not depend on where it was interrupted.** -/
theorem Reading.resume {more : Bytes} {outcome : Outcome Fields Halt}
    (h : Reading seen fields) :
    Scans headStep (seen ++ more) fields seen.length outcome ↔
      Scans headStep (seen ++ more) .init 0 outcome := by
  have hresume : ∀ outcome, Scans headStep (seen ++ more) fields seen.length outcome →
      Scans headStep (seen ++ more) .init 0 outcome := fun outcome hrest =>
    Scans.resume (I := HeadAt seen) (headScan_step more) h (headAt_init seen) hrest
  refine ⟨hresume outcome, fun hwhole => ?_⟩
  obtain ⟨outcome', hrest⟩ := exists_headScan (seen ++ more) fields seen.length
  rwa [hwhole.det (hresume outcome' hrest)]

/-- A call on more of the head is the scan of all of it. -/
theorem Reading.parse {http : Http} (h : Reading seen http.toFields) (piece : Bytes)
    (hoffset : http.offset = seen.length) (hnull : http.wbuf = .null) :
    ∃ outcome, Scans headStep (seen ++ piece) .init 0 outcome ∧
      mogHttpParse http (seen ++ piece) = parsedOf http outcome := by
  have hat := h.headAt piece
  rw [← hoffset] at hat
  obtain ⟨outcome, hscan⟩ := exists_headScan (seen ++ piece) http.toFields http.offset
  refine ⟨outcome, h.resume.mp ?_, mogHttpParse_eq hnull hat hscan⟩
  rwa [← hoffset]

/-- A head that the parser accepts when it is given alone. -/
def Accepts (head : Bytes) (fields : Fields) : Prop :=
  Scans headStep head .init 0 (.halted fields head.length .done)

/-- The path of the request in `buf`. -/
def requestPath (http : Http) (buf : Bytes) : Bytes := (buf.take http.pathEnd).drop http.pathTip

theorem accepts_of_exec {head : Bytes} {fields : Fields} {fuel : Nat}
    (h : exec headStep head fuel .init 0 = .halted fields head.length .done) : Accepts head fields := by
  have hscan : Scans headStep head .init 0 (exec headStep head fuel .init 0) := by
    apply scans_exec
    rw [h]
    intro hstuck
    cases hstuck
  rwa [h] at hscan

/-- A part of a head is never mistaken for all of it, or refused. -/
theorem Accepts.reading {rest : Bytes} (h : Accepts (seen ++ rest) fields)
    (hrest : rest ≠ []) : ∃ fields', Reading seen fields' := by
  obtain ⟨outcome, hscan⟩ := exists_headScan seen .init 0
  have hlonger : seen.length < (seen ++ rest).length := by
    rw [List.length_append]
    have := List.length_pos_iff.mpr hrest
    omega
  have hstop : (∀ fields' p', outcome ≠ .more fields' p') → False := by
    intro hstop
    have hwhole : Scans headStep (seen ++ rest) .init 0 outcome :=
      Scans.append (I := HeadAt seen) (headScan_step rest) hscan (headAt_init seen) hstop
    obtain rfl := hwhole.det h
    exact absurd (headScan_halted hscan) (by omega)
  cases outcome with
  | more fields' p' =>
    obtain rfl := (headScan_more hscan (headAt_init seen)).1
    exact ⟨fields', hscan⟩
  | halted fields' p' why => exact (hstop (by simp)).elim
  | failed => exact (hstop (by simp)).elim
  | stuck => exact (hstop (by simp)).elim

end Cmogstored
