import Cmogstored.Lengths

/-! Which headers the numbers of an accepted head come from. `Content-Length` and `Content-Range` write their
digits behind those that are there already, from an earlier header of the same name or, for the bounds, from
a `Range` header; a `Range` header starts anew, and so takes the place of the bounds of a `Content-Range`. -/

namespace Cmogstored

open List Scan

/-! ### Which headers occur -/

inductive Kind where
  | contentLength | contentRange | range
  deriving DecidableEq, Repr

def LengthHeader.kind : LengthHeader → Kind
  | contentLength _ _ => .contentLength
  | contentRange _ _ _ _ => .contentRange
  | range _ _ _ => .range

/-- Headers of the kind write the bounds of a range, not the length. -/
def Kind.bounds : Kind → Bool
  | contentLength => false
  | _ => true

/-- The headers with numbers in their order, and whether they are read. -/
def kinds (hidden : Bool) : List HeadLine → List (Bool × Kind)
  | [] => []
  | .number header _ :: lines => (!hidden, header.kind) :: kinds false lines
  | .other text :: lines => kinds (text == [LF] || !hidden && isEmptyHeader text) lines

/-- How many of the headers that are read write the bounds, or the length. -/
def writers (kinds : List (Bool × Kind)) (bounds : Bool) : Nat :=
  kinds.countP fun header => header.1 && header.2.bounds == bounds

/-- **Each number comes from one header**: if a `Content-Length` occurs, one is read, and only one; and if a
`Content-Range` is read, no other header with bounds is. -/
structure Apart (kinds : List (Bool × Kind)) : Prop where
  contentLength : (∃ read, (read, .contentLength) ∈ kinds) → writers kinds false = 1
  contentRange : (true, .contentRange) ∈ kinds → writers kinds true = 1

/-- The numbers in `fields` that count are those of one header each. -/
structure OwnNumbers (lines : List HeadLine) (fields : Fields) : Prop where
  contentLength : (∃ header ∈ statedHeaders lines, header.kind = .contentLength) →
    ∃ header ∈ statedHeaders lines, header.kind = .contentLength ∧ header.Holds fields.numbers
  contentRange : fields.hasContentRange = true →
    ∃ header ∈ statedHeaders lines, header.kind = .contentRange ∧ header.Holds fields.numbers
  range : fields.hasRange = true →
    ∃ header ∈ statedHeaders lines, header.kind = .range ∧ header.Holds fields.numbers

/-- Headers of these kinds and in this order do not interfere in any accepted head, if their numbers fit. -/
def Separate (kinds : List (Bool × Kind)) : Prop :=
  ∀ request start lines http http', IsRequestLine request start → LinesOk lines → Cmogstored.kinds false lines = kinds →
    (∀ header ∈ statedHeaders lines, header.Fits) → ParsesTo http (request ++ headText lines ++ [CR, LF]) http' →
      OwnNumbers lines http'.toFields

/-! ### Heads in which they are apart -/

section Heard

variable {lines : List HeadLine} {hidden : Bool}

theorem mem_kinds_iff {kind : Kind} :
    (∃ read, (read, kind) ∈ kinds hidden lines) ↔ ∃ header ∈ statedHeaders lines, header.kind = kind := by
  induction lines generalizing hidden with
  | nil => simp [kinds, statedHeaders]
  | cons line lines ih =>
    cases line with
    | other text => exact ih
    | number header tail =>
      have hrest := @ih false
      simp only [kinds, statedHeaders, flatMap_cons, HeadLine.stated, mem_cons, Prod.mk.injEq, exists_or,
        singleton_append, exists_eq_or_imp, exists_eq_left] at hrest ⊢
      rw [hrest]
      simp [eq_comm]

end Heard

/-- What `Content-Range` needs behind its bounds to count. -/
def goodTail : Kind → Bytes
  | .contentRange => [47, 42, CR, LF]
  | _ => [CR, LF]

/-- A header that is read, and a line end. -/
theorem Reading.goodLine (header : LengthHeader) {seen : Bytes} {fields : Fields} {numbers : Numbers}
    (h : Reading seen fields) (hcs : fields.cs = .headers) (hrun : header.run fields.numbers = some numbers)
    (hsmall : (seen ++ header.text).length ≤ 65531) :
    ∃ fields', Reading (seen ++ header.text ++ goodTail header.kind) fields' ∧ fields'.cs = .headers ∧
      fields'.numbers = numbers ∧
        fields'.hasContentRange = (fields.hasContentRange || header.kind == .contentRange) := by
  have hstart : (seen ++ header.start).length ≤ 65536 := by
    have hle := header.start_isPrefix.length_le
    rw [length_append] at hsmall ⊢
    omega
  obtain ⟨lineEnd, -, hread⟩ := (h.header header (by rw [hcs]; rfl) hstart).1 numbers hrun
  generalize seen ++ header.text = text at hread hsmall ⊢
  have hcrlf : text ++ [CR, LF] = text ++ [CR] ++ [LF] := by simp
  cases header with
  | contentLength start length =>
    have hlf := (hread.keep (c := CR) rfl).lineEnd (c := LF) rfl (by simp; omega)
    rw [← hcrlf] at hlf
    exact ⟨_, hlf, rfl, rfl, (Bool.or_false _).symm⟩
  | contentRange start blanks first last =>
    have hcr : Reading (text ++ [47] ++ [42] ++ [CR]) { fields.withNumbers numbers with
        cs := .eorLf, lineEnd := lineEnd, hasContentRange := true } :=
      ((hread.keep (c := 47) rfl).keep (c := 42) rfl).of_goto rfl
    have hlf := hcr.lineEnd (c := LF) rfl (by simp; omega)
    have htail : text ++ [47, 42, CR, LF] = text ++ [47] ++ [42] ++ [CR] ++ [LF] := by simp
    rw [← htail] at hlf
    exact ⟨_, hlf, rfl, rfl, (Bool.or_true _).symm⟩
  | range start first last =>
    have hcr := hread.keep (c := CR) rfl
    have hlf : Reading (text ++ [CR] ++ [LF]) { fields.withNumbers numbers with
        cs := .headers, lineEnd := (text ++ [CR]).length, hasRange := true } := by
      apply hcr.of_goto
      have hpos : (text ++ [CR]).length ≤ 65535 := by simp; omega
      simp only [headStep, httpNext, beq_self_eq_true, if_true, toU16, if_pos hpos]
    rw [← hcrlf] at hlf
    exact ⟨_, hlf, rfl, rfl, (Bool.or_false _).symm⟩

theorem range_text : (ascii "Range:").map toLower = Field.range.text := by simp [ascii, Field.text, toLower]

theorem contentRange_text : (ascii "Content-Range:").map toLower = Field.contentRange.text := by
  simp [ascii, Field.text, toLower]

/-- A header whose numbers are all the same. -/
def sampleHeader (digits : Digits) : Kind → LengthHeader
  | .contentLength => .contentLength ⟨ascii "Content-Length:", [SP], contentLength_text, isSep_space⟩ digits
  | .contentRange =>
    .contentRange ⟨ascii "Content-Range:", [SP], contentRange_text, isSep_space⟩
      ⟨[SP], isBlanks_space, by simp⟩ digits digits
  | .range => .range ⟨ascii "Range:", [SP], range_text, isSep_space⟩ (some digits) (some digits)

/-- The number of a header that is read, by how many headers behind it write the same. All of them but two are 0,
and what the last of them leaves behind, 2 or 10, is stated by none but a `Range`. -/
def sampleDigits (kind : Kind) : Nat → Digits
  | 0 => if kind = .range then .single (c := 50) rfl else .single (c := 48) rfl
  | 1 => .single (c := 49) rfl
  | _ => .single (c := 48) rfl

/-- A head with headers of these kinds. -/
def sample : List (Bool × Kind) → List HeadLine
  | [] => []
  | (true, kind) :: kinds =>
    .number (sampleHeader (sampleDigits kind (writers kinds kind.bounds)) kind) (goodTail kind) :: sample kinds
  | (false, kind) :: kinds =>
    .other (ascii "Connection:\r\n") :: .number (sampleHeader (.single (c := 49) rfl) kind) [CR, LF] :: sample kinds

/-- A number of which `total` headers write a part, when `left` of them are left. -/
structure Grown (total left : Nat) (n : Int) : Prop where
  le : left ≤ total
  many : 2 ≤ left → n = 0
  one : left = 1 → n = 1 ∨ total = 1 ∧ n = 0
  none : left = 0 → (total = 0 → n = 0) ∧ (2 ≤ total → n = 2 ∨ n = 10)

theorem grown_zero (total : Nat) : Grown total total 0 where
  le := Nat.le_refl _
  many _ := rfl
  one h := Or.inr ⟨h, rfl⟩
  none h := ⟨fun _ => rfl, by omega⟩

/-- One header more. -/
theorem Grown.next {total left : Nat} {n : Int} (h : Grown total (left + 1) n) (kind : Kind) :
    ∃ m, lengthRun (if kind = .range then 0 else n) (sampleDigits kind left).text = some m ∧ Grown total left m := by
  have hle := h.le
  have hruns : lengthRun 0 [48] = some 0 ∧ lengthRun 0 [49] = some 1 ∧ lengthRun 0 [50] = some 2 ∧
      lengthRun 1 [48] = some 10 := by decide
  match left with
  | 0 =>
    by_cases hkind : kind = .range
    · rw [if_pos hkind, sampleDigits, if_pos hkind]
      exact ⟨2, hruns.2.2.1, by omega, by omega, by omega, by omega⟩
    · rw [if_neg hkind, sampleDigits, if_neg hkind]
      rcases h.one rfl with rfl | ⟨htotal, rfl⟩
      · exact ⟨10, hruns.2.2.2, by omega, by omega, by omega, by omega⟩
      · exact ⟨0, hruns.1, by omega, by omega, by omega, by omega⟩
  | 1 =>
    rw [h.many (by omega), ite_self]
    exact ⟨1, hruns.2.1, by omega, by omega, by omega, by omega⟩
  | left + 2 =>
    rw [h.many (by omega), ite_self]
    exact ⟨0, hruns.1, by omega, by omega, by omega, by omega⟩

/-- What has been written when headers of `kinds` are left. -/
structure Filled (lengths bounds : Nat) (kinds : List (Bool × Kind)) (numbers : Numbers) : Prop where
  contentLen : Grown lengths (writers kinds false) numbers.contentLen
  rangeBeg : Grown bounds (writers kinds true) numbers.rangeBeg
  rangeEnd : Grown bounds (writers kinds true) numbers.rangeEnd

theorem writers_cons (kind : Kind) (kinds : List (Bool × Kind)) (bounds : Bool) :
    writers ((true, kind) :: kinds) bounds = writers kinds bounds + if kind.bounds = bounds then 1 else 0 := by
  simp [writers, countP_cons]

theorem writers_hidden (kind : Kind) (kinds : List (Bool × Kind)) (bounds : Bool) :
    writers ((false, kind) :: kinds) bounds = writers kinds bounds := by
  simp [writers]

theorem writers_pos {kind : Kind} {kinds : List (Bool × Kind)} (h : (true, kind) ∈ kinds) :
    0 < writers kinds kind.bounds :=
  countP_pos_iff.mpr ⟨_, h, by simp⟩

theorem Filled.next {lengths bounds : Nat} {kinds : List (Bool × Kind)} {numbers : Numbers} {kind : Kind}
    (h : Filled lengths bounds ((true, kind) :: kinds) numbers) :
    ∃ numbers', (sampleHeader (sampleDigits kind (writers kinds kind.bounds)) kind).run numbers = some numbers' ∧
      Filled lengths bounds kinds numbers' := by
  obtain ⟨hlen, hbeg, hend⟩ := h
  rw [writers_cons] at hlen hbeg hend
  cases kind with
  | contentLength =>
    obtain ⟨n, hn, hgrown⟩ := hlen.next .contentLength
    refine ⟨{ numbers with contentLen := n }, ?_, hgrown, hbeg, hend⟩
    exact Option.map_eq_some_iff.mpr ⟨n, hn, rfl⟩
  | contentRange =>
    obtain ⟨m, hm, hfirst⟩ := hbeg.next .contentRange
    obtain ⟨n, hn, hlast⟩ := hend.next .contentRange
    refine ⟨{ numbers with rangeBeg := m, rangeEnd := n }, ?_, hlen, hfirst, hlast⟩
    exact Option.bind_eq_some_iff.mpr ⟨m, hm, Option.map_eq_some_iff.mpr ⟨n, hn, rfl⟩⟩
  | range =>
    obtain ⟨m, hm, hfirst⟩ := hbeg.next .range
    obtain ⟨n, hn, hlast⟩ := hend.next .range
    refine ⟨{ numbers with rangeBeg := m, rangeEnd := n }, ?_, hlen, hfirst, hlast⟩
    exact Option.bind_eq_some_iff.mpr ⟨m, hm, Option.map_eq_some_iff.mpr ⟨n, hn, rfl⟩⟩

theorem not_statesNumbers_connection (rest : Bytes) : ¬ StatesNumbers (ascii "Connection:\r\n" ++ rest) := by
  rintro ⟨header, hheader⟩
  have hname : ∀ {field : Field} (start : HeaderStart field), start.text <+: ascii "Connection:\r\n" ++ rest →
      field.text <+: ascii "connection:\r\n" ++ rest.map toLower := by
    intro field start hstart
    have hprefix := ((prefix_append start.name start.sep).trans hstart).map toLower
    rw [start.name_eq, map_append] at hprefix
    exact hprefix
  have hstart := header.start_isPrefix.trans hheader
  cases header with
  | contentLength start length => simpa [Field.text, ascii] using hname start hstart
  | contentRange start blanks first last => simpa [Field.text, ascii] using hname start hstart
  | range start first last => simpa [Field.text, ascii] using hname start hstart

/-- A header without a value hides the line behind it. -/
theorem Reading.connection {seen : Bytes} {fields : Fields} (h : Reading seen fields) (hcs : fields.cs = .headers)
    (hsmall : (seen ++ ascii "Connection:\r\n").length ≤ 65536) : ∃ lineEnd,
      Reading (seen ++ ascii "Connection:\r\n") { fields with cs := .sep .connection .lf, lineEnd := lineEnd } ∧
      Hides (seen ++ ascii "Connection:\r\n") [] { fields with cs := .sep .connection .lf, lineEnd := lineEnd } := by
  have hsplit : ascii "Connection:\r\n" = ascii "Connection:" ++ [CR] ++ [LF] := by simp [ascii, CR, LF]
  have hname : (ascii "Connection:").map toLower = Field.connection.text := by simp [ascii, Field.text, toLower]
  have hcr : Reading (seen ++ (ascii "Connection:" ++ [CR])) { fields with cs := .sep .connection .cr } := by
    rw [← append_assoc]
    exact (h.field (by rw [hcs]; rfl) hname).keep rfl
  have hnone := not_statesNumbers_connection []
  rw [hsplit, ← append_assoc] at hsmall ⊢
  have hlf := hcr.lineEnd (c := LF) rfl (by rw [length_append, length_singleton] at hsmall; omega)
  have hend : (seen ++ (ascii "Connection:" ++ [CR])).length + 1 =
      (seen ++ (ascii "Connection:" ++ [CR]) ++ [LF]).length := by
    rw [@length_append _ _ [LF], length_singleton]
  refine ⟨_, hlf, Or.inr ⟨rfl, hend, seen.length, by simp, ?_, ?_⟩⟩
  · rw [append_assoc, drop_left]
    exact ⟨_, [], hname, by simp [IsBlanks], by simp⟩
  · rw [append_nil, append_assoc, drop_left, ← hsplit]
    simpa using hnone

section Sample

variable {kinds : List (Bool × Kind)}

theorem sampleHeader_kind (digits : Digits) (kind : Kind) : (sampleHeader digits kind).kind = kind := by
  cases kind <;> rfl

theorem kinds_sample (kinds : List (Bool × Kind)) : Cmogstored.kinds false (sample kinds) = kinds := by
  have hempty : isEmptyHeader (ascii "Connection:\r\n") = true := by decide +kernel
  induction kinds with
  | nil => rfl
  | cons header kinds ih =>
    obtain ⟨read, kind⟩ := header
    cases read with
    | true => simp [sample, Cmogstored.kinds, ih, sampleHeader_kind]
    | false => simp [sample, Cmogstored.kinds, ih, sampleHeader_kind, hempty]

theorem linesOk_sample (kinds : List (Bool × Kind)) : LinesOk (sample kinds) := by
  induction kinds with
  | nil => trivial
  | cons header kinds ih =>
    obtain ⟨read, kind⟩ := header
    cases read with
    | true =>
      refine ⟨?_, ih⟩
      cases kind with
      | contentRange => exact ⟨⟨[47, 42, CR], by decide, rfl⟩, by simp [goodTail, isDigit]⟩
      | contentLength => exact numberOk_crlf _ _
      | range => exact numberOk_crlf _ _
    | false =>
      have hline : IsLine (ascii "Connection:\r\n") := ⟨ascii "Connection:\r", by simp [ascii, LF], by simp [ascii, LF]⟩
      exact ⟨⟨hline, not_statesNumbers_connection _⟩, numberOk_crlf _ _, ih⟩

theorem sampleHeader_length (digits : Digits) (kind : Kind) :
    (sampleHeader digits kind).text.length ≤ 22 + 2 * digits.text.length := by
  cases kind <;> simp [sampleHeader, LengthHeader.text, HeaderStart.text, boundText, ascii] <;> omega

theorem sampleDigits_length (kind : Kind) (n : Nat) : (sampleDigits kind n).text.length = 1 := by
  unfold sampleDigits
  split
  · split <;> rfl
  · rfl
  · rfl

theorem headText_sample_length (kinds : List (Bool × Kind)) : (headText (sample kinds)).length ≤ 40 * kinds.length := by
  have hname : (ascii "Connection:\r\n").length = 13 := by simp [ascii]
  induction kinds with
  | nil => exact Nat.zero_le _
  | cons header kinds ih =>
    obtain ⟨read, kind⟩ := header
    cases read with
    | true =>
      have htext := sampleHeader_length (sampleDigits kind (writers kinds kind.bounds)) kind
      have htail : (goodTail kind).length ≤ 4 := by cases kind <;> decide
      rw [sampleDigits_length] at htext
      simp only [headText, sample, flatMap_cons, HeadLine.text, length_append, length_cons] at ih ⊢
      omega
    | false =>
      have htext := sampleHeader_length (.single (c := 49) rfl) kind
      simp only [Digits.single, headText, sample, flatMap_cons, HeadLine.text, length_append, length_cons,
        hname, length_nil] at ih htext ⊢
      omega

theorem sampleDigits_value (kind : Kind) (n : Nat) :
    (sampleDigits kind n).value ≤ 2 ∧ (kind ≠ .range → (sampleDigits kind n).value ≤ 1) := by
  have hzero : (Digits.single (c := 48) rfl).value = 0 := rfl
  have hone : (Digits.single (c := 49) rfl).value = 1 := rfl
  have htwo : (Digits.single (c := 50) rfl).value = 2 := rfl
  unfold sampleDigits
  split
  · split
    · exact ⟨by omega, fun hne => absurd ‹_› hne⟩
    · omega
  · omega
  · omega

/-- The headers of the sample state 0, 1 or, in a `Range`, 2. -/
theorem stated_sample {header : LengthHeader} (h : header ∈ statedHeaders (sample kinds)) :
    ∃ read kind digits, (read, kind) ∈ kinds ∧ header = sampleHeader digits kind ∧ digits.value ≤ 2 ∧
      (kind ≠ .range → digits.value ≤ 1) ∧ (read = false → digits.value = 1) := by
  induction kinds with
  | nil => cases h
  | cons other kinds ih =>
    obtain ⟨read, kind⟩ := other
    have hfirst : header ∈ statedHeaders (sample kinds) ∨ ∃ digits, header = sampleHeader digits kind ∧
        digits.value ≤ 2 ∧ (kind ≠ .range → digits.value ≤ 1) ∧ (read = false → digits.value = 1) := by
      cases read with
      | true =>
        rcases mem_cons.mp h with rfl | hmem
        · obtain ⟨hle, hless⟩ := sampleDigits_value kind (writers kinds kind.bounds)
          exact Or.inr ⟨_, rfl, hle, hless, by simp⟩
        · exact Or.inl hmem
      | false =>
        rcases mem_cons.mp h with rfl | hmem
        · have hone : (Digits.single (c := 49) rfl).value = 1 := rfl
          exact Or.inr ⟨_, rfl, by omega, by omega, fun _ => hone⟩
        · exact Or.inl hmem
    rcases hfirst with hmem | ⟨digits, hall⟩
    · obtain ⟨read', kind', digits, hmem, hall⟩ := ih hmem
      exact ⟨read', kind', digits, mem_cons_of_mem _ hmem, hall⟩
    · exact ⟨read, kind, digits, mem_cons_self, hall⟩

/-- **The sample is read**, and what its headers leave behind is known. -/
theorem Reading.sample {lengths bounds : Nat} {seen : Bytes} {fields : Fields} (h : Reading seen fields)
    (hcs : fields.cs = .headers) (hwritten : Filled lengths bounds kinds fields.numbers)
    (hsmall : (seen ++ headText (Cmogstored.sample kinds)).length ≤ 65529) :
    ∃ fields', Reading (seen ++ headText (Cmogstored.sample kinds)) fields' ∧ fields'.cs = .headers ∧
      Filled lengths bounds [] fields'.numbers ∧
      (fields.hasContentRange = true ∨ (true, .contentRange) ∈ kinds → fields'.hasContentRange = true) := by
  induction kinds generalizing seen fields with
  | nil =>
    refine ⟨fields, ?_, hcs, hwritten, fun hset => hset.resolve_right (by simp)⟩
    simpa [headText, Cmogstored.sample] using h
  | cons header kinds ih =>
    obtain ⟨read, kind⟩ := header
    cases read with
    | true =>
      obtain ⟨numbers, hrun, hnext⟩ := hwritten.next
      obtain ⟨fields₁, hread, hcs₁, rfl, hflag⟩ := h.goodLine _ hcs hrun (by
        simp only [Cmogstored.sample, headText, flatMap_cons, HeadLine.text, length_append] at hsmall ⊢
        omega)
      rw [sampleHeader_kind] at hread hflag
      have hsplit : seen ++ headText (Cmogstored.sample ((true, kind) :: kinds)) =
          seen ++ (sampleHeader (sampleDigits kind (writers kinds kind.bounds)) kind).text ++ goodTail kind ++
            headText (Cmogstored.sample kinds) := by
        simp [Cmogstored.sample, headText, HeadLine.text]
      rw [hsplit] at hsmall ⊢
      obtain ⟨fields', hall, hcs', hwritten', hset⟩ := ih hread hcs₁ hnext hsmall
      refine ⟨fields', hall, hcs', hwritten', fun hsome => hset ?_⟩
      rw [hflag, Bool.or_eq_true, beq_iff_eq]
      rcases hsome with hset | hmem
      · exact Or.inl (Or.inl hset)
      · rcases mem_cons.mp hmem with heq | hmem
        · exact Or.inl (Or.inr (congrArg Prod.snd heq).symm)
        · exact Or.inr hmem
    | false =>
      have hsplit : seen ++ headText (Cmogstored.sample ((false, kind) :: kinds)) =
          seen ++ ascii "Connection:\r\n" ++ (sampleHeader (.single (c := 49) rfl) kind).text ++ [CR, LF] ++
            headText (Cmogstored.sample kinds) := by
        simp [Cmogstored.sample, headText, HeadLine.text]
      rw [hsplit] at hsmall ⊢
      obtain ⟨lineEnd, hread, hhides⟩ := h.connection hcs (by simp only [length_append] at hsmall ⊢; omega)
      have htab : HT ∉ (sampleHeader (.single (c := 49) rfl) kind).blanks := by cases kind <;> decide
      obtain ⟨lineEnd', hpassed⟩ := hread.passedOver _ hhides htab (by
        simp only [length_append, length_cons, length_nil] at hsmall ⊢
        omega)
      have hnext : Filled lengths bounds kinds fields.numbers := by
        obtain ⟨hlen, hbeg, hend⟩ := hwritten
        rw [writers_hidden] at hlen hbeg hend
        exact ⟨hlen, hbeg, hend⟩
      obtain ⟨fields', hall, hcs', hwritten', hset⟩ := ih hpassed rfl hnext hsmall
      refine ⟨fields', hall, hcs', hwritten', fun hflag => hset (hflag.imp_right fun hmem => ?_)⟩
      exact (mem_cons.mp hmem).resolve_left (by simp)

end Sample

/-! ### The result -/

theorem Separate.apart {kinds : List (Bool × Kind)} (h : Separate kinds) (hsmall : kinds.length ≤ 1500) :
    Apart kinds := by
  have hlength := headText_sample_length kinds
  have hline : requestLine.length = 16 := by simp [requestLine, ascii]
  have hstart : Filled (writers kinds false) (writers kinds true) kinds Fields.init.numbers :=
    ⟨grown_zero _, grown_zero _, grown_zero _⟩
  obtain ⟨fields, hread, hcs, hwritten, hset⟩ := reading_requestLine.sample rfl hstart (by
    rw [length_append]
    omega)
  obtain ⟨http', hparse, hfields⟩ := (hread.accepts hcs).parsesTo mogHttpInit
  have hown := h _ _ _ _ _ isRequestLine_requestLine (linesOk_sample kinds) (kinds_sample kinds) (by
    intro header hheader number hnumber
    obtain ⟨read, kind, digits, -, rfl, hle, -⟩ := stated_sample hheader
    obtain rfl : number = digits := by
      cases kind <;> simpa [sampleHeader, LengthHeader.numbers] using hnumber
    omega) hparse
  rw [hfields] at hown
  constructor
  · intro hsome
    rw [← kinds_sample kinds] at hsome
    obtain ⟨header, hheader, hkind, hholds⟩ := hown.contentLength (mem_kinds_iff.mp hsome)
    obtain ⟨read, kind, digits, hmem, rfl, -, hless, hhidden⟩ := stated_sample hheader
    rw [sampleHeader_kind] at hkind
    subst hkind
    have hvalue : fields.contentLen = digits.value := hholds
    have hle := hless (by simp)
    obtain ⟨hnone, hmany⟩ := hwritten.contentLen.none rfl
    have hread : writers kinds false = 0 → digits.value = 1 := by
      intro hzero
      apply hhidden
      by_contra hread
      obtain rfl : read = true := by simpa using hread
      exact absurd (writers_pos hmem) (by rw [Kind.bounds, hzero]; exact Nat.lt_irrefl 0)
    change (writers kinds false = 0 → fields.contentLen = 0) at hnone
    change (2 ≤ writers kinds false → fields.contentLen = 2 ∨ fields.contentLen = 10) at hmany
    omega
  · intro hmem
    obtain ⟨header, hheader, hkind, hholds⟩ := hown.contentRange (hset (Or.inr hmem))
    obtain ⟨read, kind, digits, -, rfl, -, hless, -⟩ := stated_sample hheader
    rw [sampleHeader_kind] at hkind
    subst hkind
    have hvalue : fields.rangeBeg = digits.value := hholds.1
    have hle := hless (by simp)
    have hpos : 0 < writers kinds true := writers_pos hmem
    have hmany : 2 ≤ writers kinds true → fields.rangeBeg = 2 ∨ fields.rangeBeg = 10 := (hwritten.rangeBeg.none rfl).2
    omega

end Cmogstored
