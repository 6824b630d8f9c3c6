import Cmogstored.NumberWrites

/-! The lines of a head: what the parser has read of a line when it is in a given state, and where it can
stand behind the end of a line. -/

namespace Cmogstored

open Scan

variable {buf rest : Bytes} {fields fields' : Fields} {pos pos' : Nat} {c : Byte} {more : Bytes → HttpCs}
  {last : HeadAct × HttpCs} {cs : HttpCs} {onError : HeadAct}

/-! ### The request line -/

def HttpCs.inRequestLine : HttpCs → Bool
  | .start => true
  | .method _ => true
  | .target => true
  | .scheme _ => true
  | .hostStart => true
  | .host => true
  | .path _ => true
  | .version _ => true
  | .minor => true
  | .requestCr => true
  | .requestLf => true
  | _ => false

/-- The action touches a number, or one of the flags that say which numbers count. -/
def HeadAct.marks : HeadAct → Bool
  | .hasContentRange => true
  | .hasRange => true
  | act => act.writes.isSome

/-- What headers with numbers leave behind. -/
structure Marks where
  numbers : Numbers
  hasContentRange : Bool
  hasRange : Bool
  deriving DecidableEq

def Fields.marks (fields : Fields) : Marks := ⟨fields.numbers, fields.hasContentRange, fields.hasRange⟩

theorem headStep_marks
    (h : headStep buf fields pos c = .goto fields' pos') (hact : (httpNext fields.cs c).1.marks = false) :
    fields'.marks = fields.marks := by
  rcases hnext : httpNext fields.cs c with ⟨act, cs⟩
  rw [hnext] at hact
  simp only [headStep, hnext] at h
  cases act <;> dsimp only at h <;> cases hact
  all_goals
    repeat' split at h
    all_goals first | (cases h; rfl) | cases h

/-- A transition of the request line. -/
structure RequestNext (next : HeadAct × HttpCs) : Prop where
  marks : next.1.marks = false
  leaves : next.1.endsLine = false ∧ next.2.inRequestLine = true ∨ next.1 = .reject ∨ next = (.lineEnd, .headers)

theorem wordNext_inRequestLine
    (hmore : ∀ rest, (more rest).inRequestLine = true) (hlast : RequestNext last) :
    RequestNext (wordNext rest c more last .reject) := by
  unfold wordNext
  split
  · exact ⟨rfl, Or.inr (Or.inl rfl)⟩
  · split
    · split
      · exact hlast
      · exact ⟨rfl, Or.inl ⟨rfl, hmore _⟩⟩
    · exact ⟨rfl, Or.inr (Or.inl rfl)⟩

/-- The request line is left at its end only. -/
theorem httpNext_inRequestLine (c : Byte) (h : cs.inRequestLine = true) : RequestNext (httpNext cs c) := by
  cases cs <;> simp only [HttpCs.inRequestLine, Bool.false_eq_true] at h
  case method rest => exact wordNext_inRequestLine (fun _ => rfl) ⟨rfl, Or.inl ⟨rfl, rfl⟩⟩
  case scheme rest => exact wordNext_inRequestLine (fun _ => rfl) ⟨rfl, Or.inl ⟨rfl, rfl⟩⟩
  case version rest => exact wordNext_inRequestLine (fun _ => rfl) ⟨rfl, Or.inl ⟨rfl, rfl⟩⟩
  all_goals
    dsimp only [httpNext]
    (repeat' split) <;>
      first
      | exact ⟨rfl, Or.inl ⟨rfl, rfl⟩⟩
      | exact ⟨rfl, Or.inr (Or.inl rfl)⟩
      | exact ⟨rfl, Or.inr (Or.inr rfl)⟩

/-! ### Line ends -/

/-- The parser does not step over the byte. -/
def HeadAct.stops : HeadAct → Bool
  | .reallyDone => true
  | .ignoreLine => true
  | .md5Err => true
  | .invalid => true
  | .reject => true
  | _ => false

theorem wordNext_lf
    (hrest : LF ∉ rest) (herror : onError.stops = true) : (wordNext rest LF more last onError).1.stops = true := by
  unfold wordNext
  split
  · exact herror
  · rename_i expected rest
    have hne : (LF == expected) = false := by
      rw [beq_eq_false_iff_ne]
      intro heq
      exact hrest (by simp [heq])
    rw [hne]
    exact herror

/-- What is left of a word of a header. -/
def HttpCs.wordRest : HttpCs → Bytes
  | .connectionValue _ rest => rest
  | .contentRangeUnit rest => rest
  | .rangeUnit rest => rest
  | .chunkedValue rest => rest
  | _ => []

theorem wordNext_wordRest
    (hmore : ∀ rest, (more rest).wordRest = rest ∨ (more rest).wordRest = [])
    (hrest : LF ∉ rest) (hlast : last.2.wordRest = []) :
    LF ∉ (wordNext rest c more last onError).2.wordRest := by
  unfold wordNext
  split
  · simp [HttpCs.wordRest]
  · rename_i expected rest
    split
    · split
      · simp [hlast]
      · rcases hmore rest with h | h
        · rw [h]
          exact fun hmem => hrest (List.mem_cons_of_mem _ hmem)
        · simp [h]
    · simp [HttpCs.wordRest]

theorem fieldNames_wordRest : ∀ entry ∈ fieldNames, entry.2.wordRest = [] ∧ LF ∉ entry.1 := by decide +kernel

theorem nameNext_wordRest (seen : Bytes) (c : Byte) (onError : HeadAct) :
    (nameNext seen c onError).2.wordRest = [] := by
  unfold nameNext
  dsimp only
  split
  · rename_i entry hentry
    exact (fieldNames_wordRest entry (List.mem_of_find?_eq_some hentry)).1
  · split <;> rfl

theorem words_lf : LF ∉ ascii "lose" ∧ LF ∉ ascii "eep-alive" ∧ LF ∉ ascii "ytes" ∧ LF ∉ ascii "ytes=" ∧
    LF ∉ ascii "hunked" := by decide +kernel

theorem valueNext_wordRest (field : Field) (c : Byte) : LF ∉ (valueNext field c).2.wordRest := by
  obtain ⟨hclose, hkeep, hbytes, hrange, hchunked⟩ := words_lf
  cases field <;> dsimp only [valueNext] <;> (repeat' split) <;>
    first | assumption | simp [HttpCs.wordRest]

theorem httpNext_wordRest (c : Byte) (h : LF ∉ cs.wordRest) : LF ∉ (httpNext cs c).2.wordRest := by
  cases cs with
  | name seen =>
    rw [httpNext, nameNext_wordRest]
    simp
  | headers =>
    simp only [httpNext, headersNext]
    split
    · simp [HttpCs.wordRest]
    · simp [nameNext_wordRest]
  | headersAfterMd5 =>
    simp only [httpNext, headersNext]
    split
    · simp [HttpCs.wordRest]
    · simp [nameNext_wordRest]
  | sep field at_ =>
    have hvalue := valueNext_wordRest field c
    cases at_ <;> dsimp only [httpNext, sepNext] <;> (repeat' split) <;>
      first | exact hvalue | simp [HttpCs.wordRest]
  | md5 at_ =>
    dsimp only [httpNext, md5HeadNext]
    (repeat' split) <;> simp [HttpCs.wordRest]
  | ignored at_ =>
    dsimp only [httpNext, ignoredHeadNext]
    split <;> simp [HttpCs.wordRest]
  | connectionValue keepAlive rest => exact wordNext_wordRest (fun _ => Or.inl rfl) h rfl
  | contentRangeUnit rest => exact wordNext_wordRest (fun _ => Or.inl rfl) h rfl
  | rangeUnit rest => exact wordNext_wordRest (fun _ => Or.inl rfl) h rfl
  | chunkedValue rest => exact wordNext_wordRest (fun _ => Or.inl rfl) h rfl
  | method rest =>
    dsimp only [httpNext, wordNext]
    (repeat' split) <;> simp [HttpCs.wordRest]
  | scheme rest =>
    dsimp only [httpNext, wordNext]
    (repeat' split) <;> simp [HttpCs.wordRest]
  | version rest =>
    dsimp only [httpNext, wordNext]
    (repeat' split) <;> simp [HttpCs.wordRest]
  | trailerMd5 rest =>
    dsimp only [httpNext, trailerMd5Next, eorNext]
    (repeat' split) <;> simp [HttpCs.wordRest]
  | _ =>
    dsimp only [httpNext, eorNext]
    (repeat' split) <;> simp [HttpCs.wordRest]

theorem nameNext_lf (seen : Bytes) (herror : onError.stops = true) :
    (nameNext seen LF onError).1.stops = true := by
  have hnone : ∀ entry ∈ fieldNames, (seen ++ [LF]).isPrefixOf entry.1 = false := by
    intro entry hentry
    by_contra hpre
    have hpre : (seen ++ [LF]).isPrefixOf entry.1 = true := by simpa using hpre
    have hmem := (List.isPrefixOf_iff_prefix.mp hpre).subset (by simp : LF ∈ seen ++ [LF])
    exact (fieldNames_wordRest entry hentry).2 hmem
  have hfind : fieldNames.find? (fun entry => entry.1 == seen ++ [LF]) = none := by
    rw [List.find?_eq_none]
    intro entry hentry hsame
    have hsame : entry.1 = seen ++ [LF] := by simpa using hsame
    have hself : (seen ++ [LF]).isPrefixOf entry.1 = true := by
      simp only [hsame, List.isPrefixOf_iff_prefix, List.prefix_refl]
    rw [hnone entry hentry] at hself
    cases hself
  have hany : (fieldNames.any fun entry => (seen ++ [LF]).isPrefixOf entry.1) = false :=
    List.any_eq_false.mpr fun entry hentry => by simp [hnone entry hentry]
  unfold nameNext
  have hlower : toLower LF = LF := by decide
  simp only [hlower, hfind, hany, Bool.false_eq_true, if_false]
  exact herror

/-- In the headers an `LF` ends a line, or the parser does not step over it. -/
theorem httpNext_lf (hcs : cs.inRequestLine = false) (hrest : LF ∉ cs.wordRest) :
    (httpNext cs LF).1.endsLine = true ∨ (httpNext cs LF).1.stops = true := by
  cases cs <;> simp only [HttpCs.inRequestLine, Bool.true_eq_false] at hcs
  case name seen => exact Or.inr (nameNext_lf seen rfl)
  case headers => exact Or.inr (nameNext_lf [] rfl)
  case headersAfterMd5 => exact Or.inr (nameNext_lf [] rfl)
  case connectionValue keepAlive rest => exact Or.inr (wordNext_lf hrest rfl)
  case contentRangeUnit rest => exact Or.inr (wordNext_lf hrest rfl)
  case rangeUnit rest => exact Or.inr (wordNext_lf hrest rfl)
  case chunkedValue rest => exact Or.inr (wordNext_lf hrest rfl)
  case sep field at_ => cases field <;> cases at_ <;> first | exact Or.inl rfl | exact Or.inr rfl
  case md5 at_ =>
    cases at_ with
    | sep at' => cases at' <;> first | exact Or.inl rfl | exact Or.inr rfl
    | digits count =>
      right
      have hact : (md5Next (.digits count) LF).1 = .md5Err := by
        rw [md5Next]
        split <;> rfl
      simp only [httpNext, md5HeadNext, hact]
      rfl
    | _ => first | exact Or.inl rfl | exact Or.inr rfl
  case ignored at_ => cases at_ <;> first | exact Or.inl rfl | exact Or.inr rfl
  all_goals first | exact Or.inl rfl | exact Or.inr rfl

/-! ### What is known of the line so far -/

/-- The first line end is that of the request line. Behind the last line end there is no other; a byte right
behind it is one when it sent the parser back to it. -/
structure LineInv (buf : Bytes) (fields : Fields) (pos : Nat) : Prop where
  started : pos = 0 → fields.cs = .start
  small : fields.lineEnd ≤ 65535
  wordRest : LF ∉ fields.cs.wordRest
  request : fields.lineEnd = 0 → fields.cs.inRequestLine = true ∧ fields.marks = Fields.init.marks
  headers : fields.lineEnd ≠ 0 → fields.cs.inRequestLine = false
  lineStart : fields.cs.isLineStart = true → pos = fields.lineEnd + 1
  blankLf : fields.cs = .blankLf → pos = fields.lineEnd + 2
  line : fields.lineEnd ≠ 0 → ∀ p, fields.lineEnd + 1 ≤ p → p < pos →
    fields.cs.isIgnored = false ∨ fields.lineEnd + 2 ≤ p → buf[p]? ≠ some LF

theorem fieldNames_not_inRequestLine : ∀ entry ∈ fieldNames, entry.2.inRequestLine = false := by decide +kernel

theorem nameNext_not_inRequestLine (seen : Bytes) (c : Byte) (onError : HeadAct) :
    (nameNext seen c onError).2.inRequestLine = false := by
  unfold nameNext
  dsimp only
  split
  · rename_i entry hentry
    exact fieldNames_not_inRequestLine entry (List.mem_of_find?_eq_some hentry)
  · split <;> rfl

theorem httpNext_not_inRequestLine (c : Byte) (h : cs.inRequestLine = false) :
    (httpNext cs c).2.inRequestLine = false := by
  cases cs <;> simp only [HttpCs.inRequestLine, Bool.true_eq_false] at h
  case name seen => exact nameNext_not_inRequestLine seen c _
  case headers =>
    simp only [httpNext, headersNext]
    split
    · rfl
    · exact nameNext_not_inRequestLine [] c _
  case headersAfterMd5 =>
    simp only [httpNext, headersNext]
    split
    · rfl
    · exact nameNext_not_inRequestLine [] c _
  case sep field at_ =>
    cases field <;> cases at_ <;> dsimp only [httpNext, sepNext, valueNext] <;> (repeat' split) <;> rfl
  all_goals
    dsimp only [httpNext, wordNext, eorNext, trailerMd5Next, md5HeadNext, ignoredHeadNext]
    (repeat' split) <;> rfl

theorem le_of_toU16 {p n : Nat} (h : toU16 p = some n) : n ≤ 65535 := by
  unfold toU16 at h
  split at h
  · rename_i hsmall
    cases h
    exact hsmall
  · cases h

theorem headStep_lineEnd_le
    (h : headStep buf fields pos c = .goto fields' pos') (hsmall : fields.lineEnd ≤ 65535) :
    fields'.lineEnd ≤ 65535 := by
  rcases hnext : httpNext fields.cs c with ⟨act, cs⟩
  simp only [headStep, hnext] at h
  cases act <;> dsimp only at h <;> (repeat' split at h) <;> cases h <;>
    first | exact hsmall | exact le_of_toU16 ‹_›

theorem headStep_goto_stops
    (h : headStep buf fields pos c = .goto fields' pos') (hstops : (httpNext fields.cs c).1.stops = true) :
    fields' = { fields with cs := .ignored .nameStart } ∧ pos' = fields.lineEnd + 2 := by
  rcases hnext : httpNext fields.cs c with ⟨act, cs⟩
  rw [hnext] at hstops
  simp only [headStep, hnext] at h
  cases act <;> dsimp only at h <;> (repeat' split at h) <;> cases h <;> first | exact ⟨rfl, rfl⟩ | cases hstops

theorem headStep_direct
    (h : headStep buf fields pos c = .goto fields' pos') (hstops : (httpNext fields.cs c).1.stops = false) :
    fields'.cs = (httpNext fields.cs c).2 ∧ pos' = pos + 1 ∧
      fields'.lineEnd = if (httpNext fields.cs c).1.endsLine then pos else fields.lineEnd := by
  rcases hnext : httpNext fields.cs c with ⟨act, cs⟩
  rw [hnext] at hstops
  simp only [headStep, hnext] at h
  cases act <;> dsimp only at h <;> (repeat' split at h) <;> cases h <;>
    first
    | exact ⟨rfl, rfl, rfl⟩
    | exact ⟨rfl, rfl, eq_of_toU16 ‹_›⟩
    | cases hstops

theorem headStep_ne_goto
    (h : (httpNext fields.cs c).1 = .reject) : headStep buf fields pos c ≠ .goto fields' pos' := by
  rcases hnext : httpNext fields.cs c with ⟨act, cs⟩
  rw [hnext] at h
  cases h
  simp [headStep, hnext]

theorem httpNext_start_endsLine (c : Byte) : (httpNext .start c).1.endsLine = false := by
  dsimp only [httpNext]
  (repeat' split) <;> rfl

theorem httpNext_blankLf (h : (httpNext cs c).2 = .blankLf) :
    cs.isLineStart = true ∧ (httpNext cs c).1 = .keep := by
  have hname : ∀ seen onError, (nameNext seen c onError).2 ≠ .blankLf := by
    intro seen onError
    have hnames : ∀ entry ∈ fieldNames, entry.2 ≠ .blankLf := by decide +kernel
    unfold nameNext
    dsimp only
    split
    · rename_i entry hentry
      exact hnames entry (List.mem_of_find?_eq_some hentry)
    · split <;> simp
  cases cs with
  | headers =>
    simp only [httpNext, headersNext] at h ⊢
    split at h
    · rename_i hc
      simp [hc, HttpCs.isLineStart]
    · exact absurd h (hname _ _)
  | headersAfterMd5 =>
    simp only [httpNext, headersNext] at h ⊢
    split at h
    · rename_i hc
      simp [hc, HttpCs.isLineStart]
    · exact absurd h (hname _ _)
  | name seen => exact absurd h (hname _ _)
  | sep field at_ =>
    cases field <;> cases at_ <;> simp only [httpNext, sepNext, valueNext] at h <;> (repeat' split at h) <;> cases h
  | _ =>
    simp only [httpNext, wordNext, eorNext, trailerMd5Next, md5HeadNext, ignoredHeadNext] at h
    (repeat' split at h) <;> cases h

theorem httpNext_reallyDone (h : (httpNext cs c).1 = .reallyDone) : cs = .blankLf := by
  have hname : ∀ seen onError, onError ≠ .reallyDone → (nameNext seen c onError).1 ≠ .reallyDone := by
    intro seen onError herror
    unfold nameNext
    dsimp only
    (repeat' split) <;> first | exact herror | simp
  have hheaders : ∀ onError, onError ≠ .reallyDone → (headersNext c onError).1 ≠ .reallyDone := by
    intro onError herror
    unfold headersNext
    split
    · simp
    · exact hname [] onError herror
  cases cs with
  | blankLf => rfl
  | headers => exact absurd h (hheaders _ (by simp))
  | headersAfterMd5 => exact absurd h (hheaders _ (by simp))
  | name seen => exact absurd h (hname _ _ (by simp))
  | sep field at_ =>
    cases field <;> cases at_ <;> simp only [httpNext, sepNext, valueNext] at h <;> (repeat' split at h) <;> cases h
  | _ =>
    simp only [httpNext, wordNext, eorNext, trailerMd5Next, md5HeadNext, ignoredHeadNext] at h
    (repeat' split at h) <;> cases h

theorem headStep_done
    (h : headStep buf fields pos c = .halt fields' pos' .done) :
    fields.cs = .blankLf ∧ fields' = { fields with cs := .final } ∧ pos' = pos + 1 := by
  have hdone : (httpNext fields.cs c).1 = .reallyDone := by
    rcases hnext : httpNext fields.cs c with ⟨act, cs⟩
    simp only [headStep, hnext] at h
    cases act <;> dsimp only at h <;> (repeat' split at h) <;> first | rfl | cases h
  have hcs := httpNext_reallyDone hdone
  rcases hnext : httpNext fields.cs c with ⟨act, cs⟩
  rw [hnext] at hdone
  cases hdone
  simp only [headStep, hnext] at h
  cases h
  exact ⟨hcs, rfl, rfl⟩

/-- Where a head ends. -/
def HeadDone (fields : Fields) (pos : Nat) (why : Halt) : Prop :=
  why = .done → pos = fields.lineEnd + 3 ∧ fields.lineEnd ≤ 65535

theorem lineInv_step (h : LineInv buf fields pos)
    (hc : buf[pos]? = some c) : (headStep buf fields pos c).Sat (LineInv buf) HeadDone := by
  cases hmove : headStep buf fields pos c with
  | fail => trivial
  | halt fields' pos' why =>
    rintro rfl
    obtain ⟨hcs, rfl, rfl⟩ := headStep_done hmove
    exact ⟨by rw [h.blankLf hcs], h.small⟩
  | goto fields' pos' =>
    have hsmall := headStep_lineEnd_le hmove h.small
    have hword := httpNext_wordRest c h.wordRest
    rcases headStep_goto hmove with ⟨hcs, rfl, hend⟩ | ⟨rfl, rfl, hpos⟩
    · rw [← hcs] at hword
      have hblank : fields'.cs = .blankLf → pos + 1 = fields'.lineEnd + 2 := by
        intro hblank
        rw [hcs] at hblank
        obtain ⟨hstart, hkeep⟩ := httpNext_blankLf hblank
        rw [hend, hkeep, h.lineStart hstart]
        rfl
      by_cases hends : (httpNext fields.cs c).1.endsLine = true
      · rw [if_pos hends] at hend
        have hpos : pos ≠ 0 := by
          intro hzero
          rw [h.started hzero] at hends
          exact absurd hends (by simp [httpNext_start_endsLine])
        have hrequest : fields'.cs.inRequestLine = false := by
          rw [hcs]
          by_cases hrequest : fields.cs.inRequestLine = true
          · rcases (httpNext_inRequestLine c hrequest).leaves with ⟨hnot, -⟩ | hreject | hlast
            · rw [hnot] at hends
              cases hends
            · rw [hreject] at hends
              cases hends
            · rw [hlast]
              rfl
          · exact httpNext_not_inRequestLine c (by simpa using hrequest)
        exact ⟨fun hzero => absurd hzero (by omega), hsmall, hword, fun hzero => absurd hzero (by omega),
          fun _ => hrequest, fun _ => by rw [hend], hblank, fun _ p hp hless => by omega⟩
      · rw [if_neg hends] at hend
        refine ⟨fun hzero => absurd hzero (by omega), hsmall, hword, ?_, ?_, ?_, hblank, ?_⟩
        · intro hzero
          obtain ⟨hrequest, hmarks⟩ := h.request (hend ▸ hzero)
          have hnext := httpNext_inRequestLine c hrequest
          refine ⟨?_, (headStep_marks hmove hnext.marks).trans hmarks⟩
          rcases hnext.leaves with ⟨-, hinside⟩ | hreject | hlast
          · rw [hcs, hinside]
          · exact absurd hmove (headStep_ne_goto hreject)
          · rw [hlast] at hends
            exact absurd rfl hends
        · intro hne
          rw [hcs]
          exact httpNext_not_inRequestLine c (h.headers (hend ▸ hne))
        · intro hstart
          rw [hcs] at hstart
          rcases ((httpNext_lineNext fields.cs c).lineStart hstart).2 with hact | hact
          · exact absurd (by rw [hact]; rfl) hends
          · exact absurd (by rw [hact]; rfl) hends
        · intro hne p hp hless hfresh
          rw [hend] at hne hp hfresh
          by_cases hlast : p = pos
          · subst hlast
            intro hlf
            obtain rfl := Option.some.inj (hc.symm.trans hlf)
            rcases httpNext_lf (h.headers hne) h.wordRest with hyes | hstops
            · exact hends hyes
            · obtain ⟨hback, hpos⟩ := headStep_goto_stops hmove hstops
              rw [hback] at hfresh
              exact absurd hfresh (by simp [HttpCs.isIgnored]; omega)
          · apply h.line hne p hp (by omega)
            refine hfresh.imp_left fun hfresh => ?_
            rw [hcs] at hfresh
            by_contra hignored
            obtain ⟨at_, hat⟩ : ∃ at_, fields.cs = .ignored at_ := by
              cases hcs' : fields.cs <;> simp_all [HttpCs.isIgnored]
            rw [hat] at hfresh hends
            rcases httpNext_ignored at_ c with ⟨at', hnext⟩ | ⟨cs, hnext⟩ | hnext
            · rw [hnext] at hfresh
              cases hfresh
            · rw [hnext] at hends
              exact hends rfl
            · exact headStep_ne_goto (by rw [hat, hnext]) hmove
    · refine ⟨fun hzero => absurd hzero (by omega), hsmall, by simp [HttpCs.wordRest], ?_, fun _ => rfl,
        by simp [HttpCs.isLineStart], by simp, ?_⟩
      rotate_left
      · intro _ p hp hless hfresh
        have hp : fields.lineEnd + 2 ≤ p := hfresh.resolve_left (by simp [HttpCs.isIgnored])
        omega
      intro hzero
      have hzero : fields.lineEnd = 0 := hzero
      omega

theorem lineInv_init (buf : Bytes) : LineInv buf .init 0 :=
  ⟨fun _ => rfl, by decide, by decide, fun _ => ⟨rfl, rfl⟩, fun hne => absurd rfl hne, by decide, by decide,
    fun hne => absurd rfl hne⟩

theorem Reading.lineInv {seen : Bytes} (h : Reading seen fields) :
    LineInv seen fields seen.length := by
  have hsat : (Outcome.more fields seen.length).Sat (LineInv seen) HeadDone :=
    Scans.sat (fun _ _ _ hinv hc => lineInv_step hinv hc) h (lineInv_init seen)
  exact hsat

theorem Accepts.small {head : Bytes} (h : Accepts head fields) : head.length ≤ 65538 := by
  have hsat : (Outcome.halted fields head.length .done).Sat (LineInv head) HeadDone :=
    Scans.sat (fun _ _ _ hinv hc => lineInv_step hinv hc) h (lineInv_init head)
  obtain ⟨hend, hsmall⟩ := hsat rfl
  omega

end Cmogstored
