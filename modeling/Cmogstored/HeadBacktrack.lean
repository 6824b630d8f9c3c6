import Cmogstored.LineCost
import Cmogstored.LineText
import Cmogstored.RequestLine

/-! What the head parser costs. In the headers an `LF` ends the line or makes the parser give up, so the second reading
of a line that is ignored ends where the first one was heading, and the parser is linear. -/

namespace Cmogstored

open Scan

/-! ### Moves -/

/-- What the parser knows of the line where it stands. -/
structure LineCursor (buf : Bytes) (fields : Fields) (p : Nat) : Prop where
  inv : LineInv buf fields p
  at_ : HeadAt buf fields p
  lf : 0 < fields.lineEnd → buf[fields.lineEnd]? = some LF

theorem LineCursor.append {buf : Bytes} {fields : Fields} {p : Nat} (h : LineCursor buf fields p) (more : Bytes) :
    LineCursor (buf ++ more) fields p where
  inv := {
    h.inv with
    line := by
      intro hend q hq hlt hignored
      rw [List.getElem?_append_left (Nat.lt_of_lt_of_le hlt h.at_.1)]
      exact h.inv.line hend q hq hlt hignored }
  at_ := ⟨Nat.le_trans h.at_.1 (by simp), h.at_.2⟩
  lf hpos := by
    have hlt : fields.lineEnd < p := h.at_.2.resolve_left (Nat.ne_of_gt hpos)
    rw [List.getElem?_append_left (Nat.lt_of_lt_of_le hlt h.at_.1)]
    exact h.lf hpos

theorem lineCursor_init (buf : Bytes) : LineCursor buf .init 0 :=
  ⟨lineInv_init buf, headAt_init buf, fun hpos => absurd hpos (Nat.lt_irrefl 0)⟩

section Step

variable {buf : Bytes} {fields fields' : Fields} {p p' : Nat} {c : Byte}

/-- A byte that the parser does not step over sends it back, behind the request line and in the first reading only. -/
theorem headStep_back (h : headStep buf fields p c = .goto fields' p')
    (hstops : (httpNext fields.cs c).1.stops = true) :
    0 < fields.lineEnd ∧ fields.cs.isIgnored = false := by
  constructor
  · rcases hnext : httpNext fields.cs c with ⟨act, cs⟩
    rw [hnext] at hstops
    simp only [headStep, hnext] at h
    cases act <;> dsimp only at h <;> (repeat' split at h) <;> cases h <;> first | exact (‹_ ∧ _›).1 | cases hstops
  · cases hcs : fields.cs with
    | ignored at_ =>
      rw [hcs] at hstops
      rcases httpNext_ignored at_ c with ⟨at', hnext⟩ | ⟨cs', hnext⟩ | hnext <;> rw [hnext] at hstops
      · cases hstops
      · cases hstops
      · exact absurd h (headStep_ne_goto (by rw [hcs, hnext]))
    | _ => rfl

/-- The second reading is not left within a line. -/
theorem httpNext_isIgnored {cs : HttpCs} (hends : (httpNext cs c).1.endsLine = false)
    (hstops : (httpNext cs c).1.stops = false) : (httpNext cs c).2.isIgnored = cs.isIgnored := by
  cases hcs : cs.isIgnored with
  | false => exact httpNext_not_ignored c hcs
  | true =>
    obtain ⟨at_, rfl⟩ : ∃ at_, cs = .ignored at_ := by
      cases cs with
      | ignored at_ => exact ⟨at_, rfl⟩
      | _ => cases hcs
    rcases httpNext_ignored at_ c with ⟨at', hnext⟩ | ⟨cs', hnext⟩ | hnext <;> rw [hnext] at hends hstops ⊢
    · rfl
    · cases hends
    · cases hstops

/-- **A step of the head parser does not pass over a line end.** -/
theorem headStep_strict (h : LineCursor buf fields p) (hc : buf[p]? = some c)
    (hstep : headStep buf fields p c = .goto fields' p') :
    LineCursor buf fields' p' ∧
      StrictMove LF c fields.lineEnd fields.cs.isIgnored p fields'.lineEnd fields'.cs.isIgnored p' := by
  have hp : p < buf.length := (List.getElem?_eq_some_iff.mp hc).1
  have hinv := lineInv_step h.inv hc
  rw [hstep] at hinv
  have hat := (headStep_line hstep).atLine h.at_ hp
  cases hstops : (httpNext fields.cs c).1.stops with
  | true =>
    obtain ⟨hpos, hfirst⟩ := headStep_back hstep hstops
    obtain ⟨rfl, rfl⟩ := headStep_goto_stops hstep hstops
    exact ⟨⟨hinv, hat, h.lf⟩, .back hfirst hpos⟩
  | false =>
    obtain ⟨hcs, rfl, hend⟩ := headStep_direct hstep hstops
    cases hends : (httpNext fields.cs c).1.endsLine with
    | true =>
      rw [hends, if_pos rfl] at hend
      obtain ⟨rfl, -⟩ := httpNext_endsAt fields.cs c hends
      have hpos : 0 < p := by
        rcases Nat.eq_zero_or_pos p with hzero | hpos
        · rw [h.inv.started hzero, httpNext_start_endsLine] at hends
          cases hends
        · exact hpos
      refine ⟨⟨hinv, hat, fun _ => ?_⟩, ?_⟩
      · rw [hend]
        exact hc
      · rw [hend]
        exact .next rfl hpos _
    | false =>
      rw [hends, if_neg Bool.false_ne_true] at hend
      refine ⟨⟨hinv, hat, fun hpos => ?_⟩, ?_⟩
      · rw [hend] at hpos ⊢
        exact h.lf hpos
      · rw [hend, hcs, httpNext_isIgnored hends hstops]
        apply StrictMove.on
        rintro hpos rfl
        have hlf := httpNext_lf (h.inv.headers (Nat.ne_of_gt hpos)) h.inv.wordRest
        rw [hends, hstops] at hlf
        simp at hlf

end Step

/-! ### Calls -/

/-- A call of `mog_http_parse` with the bytes it looks at. -/
structure HeadCall where
  buf : Bytes
  trail : List (Look Fields Halt)
  parsed : Option Parsed

/-- The calls of `parseCalls` with the bytes they look at. -/
def headCalls (http : Http) (seen : Bytes) : List Bytes → List HeadCall
  | [] => []
  | piece :: pieces =>
    let buf := seen ++ piece
    let trail := looks headStep buf (lineFuel buf.length) http.toFields http.offset
    match mogHttpParse http buf with
    | none => [⟨buf, trail, none⟩]
    | some parsed => ⟨buf, trail, some parsed⟩ ::
        (if parsed.state = .continue then headCalls parsed.http buf pieces else [])

theorem headCalls_eq (http : Http) (seen : Bytes) (pieces : List Bytes) :
    (headCalls http seen pieces).map (fun call => (call.buf, call.parsed)) = parseCalls http seen pieces := by
  induction pieces generalizing http seen with
  | nil => rfl
  | cons piece pieces ih =>
    unfold headCalls parseCalls
    dsimp only
    cases mogHttpParse http (seen ++ piece) with
    | none => rfl
    | some parsed =>
      dsimp only
      split
      · rw [List.map_cons, ih]
      · rfl

/-- The looks at a byte, over all calls. -/
def looksOf (calls : List HeadCall) : Nat := (calls.map fun call => call.trail.length).sum

/-- The line ends of the backward moves, over all calls. -/
def backsOf (calls : List HeadCall) : List Nat := calls.flatMap fun call => backs Fields.lineEnd call.trail

/-- What holds of one call. -/
structure CallLinear (call : HeadCall) : Prop where
  /-- where the parser is going to continue, `line_end` is 0 or an `LF` that has been read, and all is read -/
  continues : ∀ parsed, call.parsed = some parsed → parsed.state = .continue →
    parsed.http.offset = call.buf.length ∧ (parsed.http.lineEnd = 0 ∨
      parsed.http.lineEnd < parsed.http.offset ∧ call.buf[parsed.http.lineEnd]? = some LF)
  /-- only bytes of the buffer are looked at, and the pointer does not leave it -/
  inside : ∀ look ∈ call.trail, look.pos < call.buf.length ∧
    ∀ fields pos, look.move = .goto fields pos → pos ≤ call.buf.length
  /-- a backward move sets the pointer to the byte behind the `LF`, and entering a state steps over one byte -/
  backward : ∀ look ∈ call.trail, ∀ fields pos, look.move = .goto fields pos → pos ≤ look.pos →
    look.state.lineEnd < look.pos ∧ call.buf[look.state.lineEnd]? = some LF ∧ pos = look.state.lineEnd + 1 + 1

/-- Backtracking is sound and linear, after `count` looks and the backward moves to `spent`. -/
structure HeadLinear (count : Nat) (spent : List Nat) (calls : List HeadCall) (len : Nat) : Prop where
  each : ∀ call ∈ calls, CallLinear call
  once : (spent ++ backsOf calls).Nodup
  looks : count + looksOf calls ≤ 2 * len + 1

section Calls

variable {http : Http} {seen : Bytes} {count : Nat} {spent : List Nat}

/-- One call: the looks at the bytes are paid for, and if the parser is going to continue so are the next ones. -/
theorem callCost (hline : LineCursor seen http.toFields seen.length)
    (hcost : Cost LF seen http.lineEnd http.cs.isIgnored seen.length count spent) (piece : Bytes) (fuel : Nat) :
    CostOf LF (seen ++ piece) Fields.lineEnd (fun fields => fields.cs.isIgnored) (LineCursor (seen ++ piece)) count
      spent
      (looks headStep (seen ++ piece) fuel http.toFields seen.length)
      (exec headStep (seen ++ piece) fuel http.toFields seen.length) := by
  apply Cost.run
  · exact fun _ _ h => h.at_
  · exact fun _ _ _ h hc _ _ hmove => headStep_strict h hc hmove
  · exact hline.append piece
  · exact hcost.append (Nat.le_refl _) piece

/-- What the looks of a call say of it; where the parser is going to continue is known besides. -/
theorem callLinear_of_cost {buf : Bytes} {trail : List (Look Fields Halt)} {outcome : Outcome Fields Halt}
    (h : CostOf LF buf Fields.lineEnd (fun fields => fields.cs.isIgnored) (LineCursor buf) count spent trail outcome)
    {parsed : Option Parsed} (hcontinues : ∀ result, parsed = some result → result.state = .continue →
      result.http.offset = buf.length ∧ LineCursor buf result.http.toFields result.http.offset) :
    CallLinear ⟨buf, trail, parsed⟩ where
  continues result hresult hstate := by
    obtain ⟨hoffset, hline⟩ := hcontinues result hresult hstate
    refine ⟨hoffset, ?_⟩
    rcases Nat.eq_zero_or_pos result.http.lineEnd with hzero | hpos
    · exact Or.inl hzero
    · exact Or.inr ⟨hline.at_.2.resolve_left (Nat.ne_of_gt hpos), hline.lf hpos⟩
  inside look hlook :=
    ⟨(h.sound look hlook).inside, fun fields pos hmove => ((h.sound look hlook).move fields pos hmove).1⟩
  backward look hlook fields pos hmove hback := by
    obtain ⟨hpos, hto⟩ := ((h.sound look hlook).move fields pos hmove).2 hback
    have hline := (h.sound look hlook).knows
    exact ⟨hline.at_.2.resolve_left (Nat.ne_of_gt hpos), hline.lf hpos, hto⟩

theorem HeadLinear.cons {call : HeadCall} {calls : List HeadCall} {len : Nat} (hcall : CallLinear call)
    (h : HeadLinear (count + call.trail.length) (spent ++ backs Fields.lineEnd call.trail) calls len) :
    HeadLinear count spent (call :: calls) len where
  each := List.forall_mem_cons.mpr ⟨hcall, h.each⟩
  once := by
    have honce := h.once
    rwa [List.append_assoc] at honce
  looks := by
    have hlooks := h.looks
    simp only [looksOf, List.map_cons, List.sum_cons] at hlooks ⊢
    omega

/-- The calls that are still to come keep within what is left. -/
theorem headCalls_linear (pieces : List Bytes) (hline : LineCursor seen http.toFields seen.length)
    (hcost : Cost LF seen http.lineEnd http.cs.isIgnored seen.length count spent) (hoffset : http.offset = seen.length)
    (hnull : http.wbuf = .null) :
    HeadLinear count spent (headCalls http seen pieces) (seen ++ pieces.flatten).length := by
  induction pieces generalizing http seen count spent with
  | nil =>
    have hcount := (hcost.count_le hline.at_).1
    rw [headCalls, List.flatten_nil, List.append_nil]
    exact ⟨by simp, by simpa [backsOf] using hcost.nodup, hcount⟩
  | cons piece pieces ih =>
    have hscan := scans_exec (headScan_ne_stuck (seen ++ piece) http.toFields http.offset)
    have hat : HeadAt (seen ++ piece) http.toFields http.offset := by
      rw [hoffset]
      exact (hline.append piece).at_
    have hparse := mogHttpParse_eq hnull hat hscan
    have hcall := callCost hline hcost piece (lineFuel (seen ++ piece).length)
    rw [← hoffset] at hcall
    unfold headCalls
    dsimp only
    rw [hparse]
    -- from here on only the outcome and the looks matter
    generalize looks headStep (seen ++ piece) (lineFuel (seen ++ piece).length) http.toFields http.offset = trail
      at hcall ⊢
    generalize exec headStep (seen ++ piece) (lineFuel (seen ++ piece).length) http.toFields http.offset = outcome
      at hscan hparse hcall ⊢
    have hend : HeadLinear (count + trail.length) (spent ++ backs Fields.lineEnd trail) []
        (seen ++ (piece :: pieces).flatten).length :=
      ⟨by simp, by simpa [backsOf] using hcall.nodup,
        Nat.le_trans hcall.bound (by simp only [List.flatten_cons, List.length_append]; omega)⟩
    cases outcome with
    | more fields p =>
      obtain ⟨hline', hcost'⟩ := hcall.more fields p rfl
      obtain rfl := (headScan_more hscan hat).1
      dsimp only [parsedOf]
      rw [if_pos rfl, List.flatten_cons, ← List.append_assoc]
      refine .cons (callLinear_of_cost hcall fun result hresult _ => ?_) (ih hline' hcost' rfl hnull)
      cases hresult
      exact ⟨rfl, hline'⟩
    | halted fields p why =>
      have hstate : ∃ result, parsedOf http (.halted fields p why) = some result ∧ result.state ≠ .continue := by
        cases why <;> exact ⟨_, rfl, nofun⟩
      obtain ⟨result, hresult, hstate⟩ := hstate
      rw [hresult]
      dsimp only
      rw [if_neg hstate]
      refine .cons (callLinear_of_cost hcall fun other hother hcontinue => ?_) hend
      cases hother
      exact absurd hcontinue hstate
    | failed =>
      dsimp only [parsedOf]
      exact .cons (callLinear_of_cost hcall fun _ hnone => absurd hnone nofun) hend
    | stuck =>
      dsimp only [parsedOf]
      exact .cons (callLinear_of_cost hcall fun _ hnone => absurd hnone nofun) hend

end Calls

/-- **Backtracking in the head parser is sound and linear**, however the head is cut. -/
theorem head_backtracking_linear (http : Http) (pieces : List Bytes) :
    HeadLinear 0 [] (headCalls (mogHttpResetParser http) [] pieces) pieces.flatten.length := by
  have hcost : Cost LF [] 0 false 0 0 [] := ⟨fun _ => ⟨by omega, nofun⟩, nofun, nofun, .nil⟩
  exact headCalls_linear pieces (lineCursor_init []) hcost rfl rfl

end Cmogstored
