import Cmogstored.ChunkScan
import Cmogstored.Numeral

/-! Chunk sizes: which hexadecimal numbers `mog_chunk_parse` takes exactly, and which it refuses, however
the size line is cut into reads. As in the head, an overflow is noticed only where the product modulo 2^64
is smaller than the number before. -/

namespace Cmogstored

open List Prog Scan

/-! ### Digits -/

def hexDigit (c : Byte) : Nat := if isDigit c then c.toNat - 48 else (toLower c).toNat - 87

/-- The number that a string of hexadecimal digits stands for. -/
def hexValue (digits : Bytes) : Nat := Numeral.value 16 hexDigit digits

/-- Some digit makes the `off_t` smaller, which is what the parser looks for. -/
def HexDrops (digits : Bytes) : Prop := Numeral.Drops 16 hexDigit (2 ^ 64) digits

theorem hexRun_zero {digits : Bytes} (h : ¬ HexDrops digits) :
    Numeral.accumulate 16 hexDigit (2 ^ 64) 0 digits = some (wrap64 (hexValue digits)) :=
  (Numeral.accumulate_zero 16 hexDigit (2 ^ 64) digits).1 h

theorem hexRun_drops {digits : Bytes} (h : HexDrops digits) :
    Numeral.accumulate 16 hexDigit (2 ^ 64) 0 digits = none :=
  (Numeral.accumulate_zero 16 hexDigit (2 ^ 64) digits).2 h

theorem not_hexDrops {digits : Bytes} (h : hexValue digits < 2 ^ 63) : ¬ HexDrops digits :=
  Numeral.not_drops_of_lt 16 hexDigit (2 ^ 64) (by decide) (by unfold hexValue at h; omega)

theorem wrap64_hexValue {digits : Bytes} (h : hexValue digits < 2 ^ 63) :
    wrap64 (hexValue digits) = hexValue digits :=
  Numeral.bmod_value_of_lt 16 hexDigit (2 ^ 64) (by unfold hexValue at h; omega)

theorem hexchar2off_eq {c : Byte} (hc : isXdigit c = true) : hexchar2off c = hexDigit c := by
  simp only [isXdigit, isDigit, Bool.or_eq_true, Bool.and_eq_true, decide_eq_true_eq] at hc
  simp only [hexchar2off, hexDigit, isDigit, toLower, Bool.and_eq_true, decide_eq_true_eq]
  simp only [UInt8.le_iff_toNat_le, UInt8.toNat_ofNat] at hc ⊢
  rcases hc with (hc | hc) | hc
  · rw [if_pos hc, if_pos hc]
  · rw [if_neg (by omega), if_neg (by omega), if_neg (by omega), if_pos (by omega), UInt8.toNat_add]
    simp
    omega
  · rw [if_neg (by omega), if_pos hc, if_neg (by omega), if_neg (by omega)]
    omega

/-- The states in which a digit belongs to the size. -/
def ChunkCs.awaitsDigit : ChunkCs → Bool
  | .main => true
  | .sizeStart => true
  | .sizeDigits => true
  | _ => false

theorem chunkNext_digit {cs : ChunkCs} {c : Byte} (hcs : cs.awaitsDigit = true) (hc : isXdigit c = true) :
    chunkNext cs c = (.sizeDigit, .sizeDigits) := by
  have hcr : (c == CR) = false := by
    rw [beq_eq_false_iff_ne]
    intro heq
    rw [heq] at hc
    exact absurd hc (by decide)
  cases cs <;> simp only [ChunkCs.awaitsDigit, Bool.false_eq_true] at hcs <;> simp [chunkNext, hc, hcr]

variable {fields : Fields}

theorem chunkStep_digit {c : Byte} (hcs : fields.chunkCs.awaitsDigit = true) (hc : isXdigit c = true)
    (buf : Bytes) (pos : Nat) :
    chunkStep buf fields pos c =
      match Numeral.incr 16 hexDigit (2 ^ 64) fields.contentLen c with
      | some len => .goto { fields with chunkCs := .sizeDigits, contentLen := len } (pos + 1)
      | none => .halt { fields with chunkCs := .sizeDigits, contentLen := -1 } (pos + 1) (.invalid .ERANGE) := by
  simp only [chunkStep, chunkNext_digit hcs hc, hexchar2off_eq hc]
  by_cases hle : fields.contentLen ≤ wrap64 (fields.contentLen * 16 + hexDigit c)
  · have hincr : Numeral.incr 16 hexDigit (2 ^ 64) fields.contentLen c =
        some (wrap64 (fields.contentLen * 16 + hexDigit c)) := if_pos hle
    rw [hincr, if_neg (Int.not_lt.mpr hle)]
  · have hincr : Numeral.incr 16 hexDigit (2 ^ 64) fields.contentLen c = none := if_neg hle
    rw [hincr, if_pos (Int.not_le.mp hle)]

/-- The parser comes to a digit that makes the size smaller. -/
def SizeStops (fields : Fields) (text : Bytes) : Prop :=
  ∃ before c behind last stopped, text = before ++ c :: behind ∧ Passes chunkStep fields before last ∧
    ∀ buf pos, chunkStep buf last pos c = .halt stopped (pos + 1) (.invalid .ERANGE)

theorem SizeStops.append {text : Bytes} (h : SizeStops fields text) (more : Bytes) :
    SizeStops fields (text ++ more) := by
  obtain ⟨before, c, behind, last, stopped, rfl, hpasses, hstop⟩ := h
  exact ⟨before, c, behind ++ more, last, stopped, by simp, hpasses, hstop⟩

theorem SizeStops.of_passes {fields' : Fields} {first second : Bytes} (h : Passes chunkStep fields first fields')
    (hstops : SizeStops fields' second) : SizeStops fields (first ++ second) := by
  obtain ⟨before, c, behind, last, stopped, rfl, hpasses, hstop⟩ := hstops
  exact ⟨first ++ before, c, behind, last, stopped, by simp, h.append hpasses, hstop⟩

theorem passes_digits {digits : Bytes} (hcs : fields.chunkCs.awaitsDigit = true)
    (hdigits : ∀ c ∈ digits, isXdigit c = true) (hne : digits ≠ []) {len : Int}
    (hrun : Numeral.accumulate 16 hexDigit (2 ^ 64) fields.contentLen digits = some len) :
    Passes chunkStep fields digits { fields with chunkCs := .sizeDigits, contentLen := len } := by
  induction digits generalizing fields with
  | nil => exact absurd rfl hne
  | cons c digits ih =>
    have hstep := chunkStep_digit hcs (hdigits c mem_cons_self)
    rw [Numeral.accumulate, foldlM_cons] at hrun
    cases hincr : Numeral.incr 16 hexDigit (2 ^ 64) fields.contentLen c with
    | none =>
      rw [hincr] at hrun
      cases hrun
    | some next =>
      rw [hincr] at hrun
      simp only [hincr] at hstep
      by_cases hlast : digits = []
      · subst hlast
        cases hrun
        exact .cons hstep (.nil _)
      · have hrest : Passes chunkStep { fields with chunkCs := .sizeDigits, contentLen := next } digits
            { fields with chunkCs := .sizeDigits, contentLen := len } :=
          ih rfl (fun d hd => hdigits d (mem_cons_of_mem _ hd)) hlast hrun
        exact .cons hstep hrest

theorem stops_digits {digits : Bytes} (hcs : fields.chunkCs.awaitsDigit = true)
    (hdigits : ∀ c ∈ digits, isXdigit c = true)
    (hrun : Numeral.accumulate 16 hexDigit (2 ^ 64) fields.contentLen digits = none) :
    SizeStops fields digits := by
  induction digits generalizing fields with
  | nil => cases hrun
  | cons c digits ih =>
    have hstep := chunkStep_digit hcs (hdigits c mem_cons_self)
    rw [Numeral.accumulate, foldlM_cons] at hrun
    cases hincr : Numeral.incr 16 hexDigit (2 ^ 64) fields.contentLen c with
    | none =>
      simp only [hincr] at hstep
      exact ⟨[], c, digits, fields, _, rfl, .nil _, hstep⟩
    | some next =>
      rw [hincr] at hrun
      simp only [hincr] at hstep
      have hrest : SizeStops { fields with chunkCs := .sizeDigits, contentLen := next } digits :=
        ih rfl (fun d hd => hdigits d (mem_cons_of_mem _ hd)) hrun
      exact .of_passes (.cons hstep (.nil _)) hrest

/-! ### Size lines -/

/-- Before the data of a chunk of this length. -/
structure AtData (fields : Fields) (len : Int) : Prop where
  cs : fields.chunkCs = .data
  state : fields.chunkState = .data
  length : fields.contentLen = len

/-- A size line: the end of the block before it, the digits, an extension. -/
structure ChunkLine where
  lead : Bytes
  digits : Bytes
  extension : Bytes
  lead_eq : lead = [] ∨ lead = [CR, LF]
  isXdigits : ∀ c ∈ digits, isXdigit c = true
  ne_nil : digits ≠ []
  digits_end : ∀ c, extension.head? = some c → isXdigit c = false
  line_end : ∀ c ∈ extension, (c == CR) = false ∧ (c == LF) = false

namespace ChunkLine

variable (line : ChunkLine)

def text : Bytes := line.lead ++ line.digits ++ line.extension ++ [CR, LF]

def size : Nat := hexValue line.digits

theorem passes_lead (hcs : fields.chunkCs = .main) : ∃ cs : ChunkCs, cs.awaitsDigit = true ∧
    Passes chunkStep fields line.lead { fields with chunkCs := cs } := by
  rcases line.lead_eq with hlead | hlead
  · refine ⟨.main, rfl, ?_⟩
    rw [hlead, ← hcs]
    exact .nil fields
  · refine ⟨.sizeStart, rfl, ?_⟩
    rw [hlead]
    have hcr : ∀ buf pos, chunkStep buf fields pos CR = .goto { fields with chunkCs := .mainLf } (pos + 1) := by
      intro buf pos
      simp [chunkStep, hcs, chunkNext]
    have hlf : ∀ buf pos, chunkStep buf { fields with chunkCs := .mainLf } pos LF =
        .goto { fields with chunkCs := .sizeStart } (pos + 1) := fun _ _ => rfl
    exact .cons hcr (.cons hlf (.nil _))

/-- An extension is passed over. -/
theorem passes_extension (hcs : fields.chunkCs = .sizeDigits) : ∃ cs : ChunkCs,
    (cs = .sizeDigits ∨ cs = .extension) ∧ Passes chunkStep fields line.extension { fields with chunkCs := cs } := by
  have hinside : ∀ text : Bytes, (∀ c ∈ text, (c == CR) = false ∧ (c == LF) = false) →
      Passes chunkStep { fields with chunkCs := .extension } text { fields with chunkCs := .extension } := by
    intro text htext
    induction text with
    | nil => exact .nil _
    | cons c text ih =>
      obtain ⟨hcr, hlf⟩ := htext c mem_cons_self
      apply Passes.cons _ (ih fun d hd => htext d (mem_cons_of_mem _ hd))
      intro buf pos
      simp [chunkStep, chunkNext, hcr, hlf]
  have hends := line.digits_end
  have hline := line.line_end
  cases hext : line.extension with
  | nil =>
    refine ⟨.sizeDigits, Or.inl rfl, ?_⟩
    rw [← hcs]
    exact .nil fields
  | cons c text =>
    rw [hext] at hends hline
    obtain ⟨hcr, hlf⟩ := hline c mem_cons_self
    have hfirst : ∀ buf pos, chunkStep buf fields pos c = .goto { fields with chunkCs := .extension } (pos + 1) := by
      intro buf pos
      simp [chunkStep, hcs, chunkNext, hends c rfl, hcr, hlf]
    exact ⟨.extension, Or.inr rfl,
      .cons hfirst (hinside text fun d hd => hline d (mem_cons_of_mem _ hd))⟩

theorem passes_end (fields : Fields) {cs : ChunkCs} (hcs : cs = .sizeDigits ∨ cs = .extension) :
    Passes chunkStep { fields with chunkCs := cs } [CR, LF] { fields with chunkCs := .data, chunkState := .data } := by
  have hcr : ∀ buf pos, chunkStep buf { fields with chunkCs := cs } pos CR =
      .goto { fields with chunkCs := .sizeLf } (pos + 1) := by
    intro buf pos
    rcases hcs with rfl | rfl <;> rfl
  have hlf : ∀ buf pos, chunkStep buf { fields with chunkCs := .sizeLf } pos LF =
      .goto { fields with chunkCs := .data, chunkState := .data } (pos + 1) := fun _ _ => rfl
  exact .cons hcr (.cons hlf (.nil _))

variable (hcs : fields.chunkCs = .main) (hzero : fields.contentLen = 0)
include hcs hzero

/-- **A size line is passed over**, unless a digit makes the size smaller. -/
theorem passes (h : ¬ HexDrops line.digits) :
    ∃ fields', AtData fields' (wrap64 line.size) ∧ Passes chunkStep fields line.text fields' := by
  obtain ⟨start, hstart, hlead⟩ := line.passes_lead hcs
  have hrun := hexRun_zero h
  rw [← hzero] at hrun
  have hdigits : Passes chunkStep { fields with chunkCs := start } line.digits
      { fields with chunkCs := .sizeDigits, contentLen := wrap64 line.size } :=
    passes_digits hstart line.isXdigits line.ne_nil hrun
  generalize wrap64 line.size = len at hdigits ⊢
  obtain ⟨cs, hcs', hextension⟩ := @passes_extension
    { fields with chunkCs := .sizeDigits, contentLen := len } line rfl
  have hend := passes_end { fields with contentLen := len } hcs'
  exact ⟨_, ⟨rfl, rfl, rfl⟩, ((hlead.append hdigits).append hextension).append hend⟩

theorem stops (h : HexDrops line.digits) : SizeStops fields line.text := by
  obtain ⟨start, hstart, hlead⟩ := line.passes_lead hcs
  have hrun := hexRun_drops h
  rw [← hzero] at hrun
  have hdigits : SizeStops { fields with chunkCs := start } line.digits := stops_digits hstart line.isXdigits hrun
  exact (((SizeStops.of_passes hlead hdigits).append _).append _)

end ChunkLine

/-! ### Calls of the parser -/

/-- A buffer with a piece of the body, behind bytes that have been dealt with. -/
structure Arrival where
  seen : Bytes
  piece : Bytes

def Arrival.buf (arrival : Arrival) : Bytes := arrival.seen ++ arrival.piece

/-- The parser called on pieces as they arrive, until it does not ask for more. -/
def chunkCalls (fuel : Nat) : Http → List Arrival → Io Parsed
  | http, [] => pure { state := .continue, errno := none, http := http }
  | http, arrival :: arrivals => do
    let parsed ← mogChunkParse fuel { http with offset := arrival.seen.length } arrival.buf
    if parsed.state = .continue then chunkCalls fuel parsed.http arrivals else pure parsed

/-- The rest of a call that has come to the first piece, and the calls on the others. -/
def chunkRest (fuel rounds : Nat) (http : Http) (errno : Option Errno) : List Arrival → Io Parsed
  | [] => pure { state := .continue, errno := none, http := http }
  | arrival :: arrivals => do
    let parsed ← chunkExec fuel arrival.buf (rounds + 1) http arrival.seen.length errno
    if parsed.state = .continue then chunkCalls fuel parsed.http arrivals else pure parsed

/-- The machine goes on in this state with another byte. -/
def ChunkCs.isAlive (cs : ChunkCs) : Bool := cs != .data && cs != .error

theorem isAlive_of_goto {fields' : Fields} {buf : Bytes} {pos pos' : Nat} {c : Byte}
    (h : chunkStep buf fields pos c = .goto fields' pos') : fields.chunkCs.isAlive = true := by
  cases hcs : fields.chunkCs <;> first | rfl | (simp [chunkStep, hcs, chunkNext] at h)

theorem isAlive_of_stop {stopped : Fields} {buf : Bytes} {pos pos' : Nat} {c : Byte}
    (h : chunkStep buf fields pos c = .halt stopped pos' (.invalid .ERANGE)) : fields.chunkCs.isAlive = true := by
  cases hcs : fields.chunkCs <;> first | rfl | (simp [chunkStep, hcs, chunkNext] at h)

theorem isAlive_of_passes {fields' : Fields} {text : Bytes} (h : Passes chunkStep fields text fields')
    (hend : text ≠ [] ∨ fields'.chunkCs.isAlive = true) : fields.chunkCs.isAlive = true := by
  cases h with
  | nil => exact hend.resolve_left (by simp)
  | cons hstep rest => exact isAlive_of_goto (hstep [] 0)

/-- A stop is in the first of two texts or in the second. -/
theorem SizeStops.split {first second : Bytes} (h : SizeStops fields (first ++ second)) :
    SizeStops fields first ∨
      ∃ next, next.chunkCs.isAlive = true ∧ Passes chunkStep fields first next ∧ SizeStops next second := by
  obtain ⟨before, c, behind, last, stopped, htext, hpasses, hstop⟩ := h
  rcases append_eq_append_iff.mp htext with ⟨rest, hbefore, hsecond⟩ | ⟨rest, hfirst, hbehind⟩
  · right
    rw [hbefore] at hpasses
    obtain ⟨next, hnext, hrest⟩ := hpasses.split
    refine ⟨next, ?_, hnext, rest, c, behind, last, stopped, hsecond, hrest, hstop⟩
    exact isAlive_of_passes hrest (Or.inr (isAlive_of_stop (hstop [] 0)))
  · cases rest with
    | nil =>
      right
      rw [append_nil] at hfirst
      rw [hfirst]
      exact ⟨last, isAlive_of_stop (hstop [] 0), hpasses, [], c, behind, last, stopped, hbehind.symm, .nil _, hstop⟩
    | cons d rest =>
      left
      obtain ⟨rfl, hbehind⟩ := List.cons.inj hbehind
      exact ⟨before, c, rest, last, stopped, hfirst, hpasses, hstop⟩

section Calls

variable {fuel rounds : Nat} {http : Http} {seen piece : Bytes} {errno : Option Errno}

/-- A piece that is passed over. -/
theorem chunkExec_passes {fields' : Fields} (hpasses : Passes chunkStep http.toFields piece fields')
    (hlive : fields'.chunkCs ≠ .error) :
    chunkExec fuel (seen ++ piece) (rounds + 1) http seen.length none =
      ret ⟨if fields'.chunkCs = .data then .done else .continue, none,
        { http with toFields := fields', offset := (seen ++ piece).length }⟩ := by
  have hscan : Scans chunkStep (seen ++ piece ++ []) http.toFields seen.length
      (.more fields' (seen ++ piece).length) := hpasses.scans seen (.more (by simp))
  rw [append_nil] at hscan
  rw [chunkExec, hscan.exec_eq (chunkScan_ne_stuck _ _ _)]
  simp [chunkParsed, hlive]

/-- A piece with a digit that makes the size smaller. -/
theorem chunkExec_stops (hstops : SizeStops http.toFields piece) : ∃ http',
    chunkExec fuel (seen ++ piece) (rounds + 1) http seen.length errno = ret ⟨.error, some .ERANGE, http'⟩ := by
  obtain ⟨before, c, behind, last, stopped, rfl, hpasses, hstop⟩ := hstops
  have hstopped : Scans chunkStep (seen ++ before ++ c :: behind) last (seen ++ before).length
      (.halted stopped ((seen ++ before).length + 1) (.invalid .ERANGE)) := by
    apply Scans.halt _ (hstop _ _)
    simp
  have hscan := hpasses.scans seen hstopped
  rw [append_assoc] at hscan
  refine ⟨{ http with toFields := stopped, offset := (seen ++ before).length + 1 }, ?_⟩
  rw [chunkExec, hscan.exec_eq (chunkScan_ne_stuck _ _ _)]
  exact if_pos (Or.inr (by simp))

/-- Where the machine passes over the beginning of a piece, it goes on behind it. -/
theorem chunkRest_append {fields' : Fields} {more : Bytes} (arrivals : List Arrival)
    (hpasses : Passes chunkStep http.toFields piece fields') :
    chunkRest fuel rounds http errno (⟨seen, piece ++ more⟩ :: arrivals) =
      chunkRest fuel rounds { http with toFields := fields' } errno (⟨seen ++ piece, more⟩ :: arrivals) := by
  have hbehind := scans_exec (chunkScan_ne_stuck (seen ++ piece ++ more) fields' (seen ++ piece).length)
  have hscan := (hpasses.scans seen hbehind).exec_eq (chunkScan_ne_stuck _ _ _)
  rw [append_assoc] at hscan
  simp only [chunkRest, Arrival.buf, chunkExec, append_assoc]
  rw [hscan]

/-- A call is the note of it and the parser from the first new byte on. -/
theorem chunkCalls_eq (hnull : http.wbuf = .null) (arrival : Arrival) (arrivals : List Arrival) :
    chunkCalls fuel http (arrival :: arrivals) =
      (call (.note (.chunkParse { http with offset := arrival.seen.length } arrival.buf)) fun _ =>
        chunkRest fuel arrival.buf.length { http with offset := arrival.seen.length } none (arrival :: arrivals)) := by
  have hready : (decide (http.wbuf = .null) && decide (arrival.seen.length ≤ arrival.buf.length)) = true := by
    simp [hnull, Arrival.buf]
  rw [chunkCalls, mogChunkParse]
  dsimp only
  rw [hready]
  rfl

/-- The first piece is passed over. -/
theorem chunkRest_cons {arrival : Arrival} {fields' : Fields} (arrivals : List Arrival)
    (hpasses : Passes chunkStep http.toFields arrival.piece fields') (hlive : fields'.chunkCs.isAlive = true) :
    chunkRest fuel rounds http none (arrival :: arrivals) =
      chunkCalls fuel { http with toFields := fields', offset := arrival.buf.length } arrivals := by
  have hcs : fields'.chunkCs ≠ .data ∧ fields'.chunkCs ≠ .error := by simpa [ChunkCs.isAlive] using hlive
  rw [chunkRest, Arrival.buf, chunkExec_passes hpasses hcs.2, if_neg hcs.1]
  rfl

end Calls

/-! ### A size line that arrives in pieces -/

/-- The bytes that arrive. -/
def arrived (arrivals : List Arrival) : Bytes := arrivals.flatMap Arrival.piece

/-- Nothing has been asked of the system. -/
def OnlyNotes (trace : Run) : Prop := ∀ entry ∈ trace, ∃ event, entry.1 = .note event

theorem OnlyNotes.cons {trace : Run} {event : Event} (h : OnlyNotes trace) :
    OnlyNotes (⟨.note event, ()⟩ :: trace) := by
  intro entry hentry
  rcases mem_cons.mp hentry with rfl | hentry
  · exact ⟨event, rfl⟩
  · exact h entry hentry

section Arrivals

variable {fuel rounds : Nat} {http : Http}

/-- The calls before the last one ask for more. -/
theorem runs_chunkRest {fields' : Fields} (arrivals : List Arrival) (last : Arrival) (hnull : http.wbuf = .null)
    (hpasses : Passes chunkStep http.toFields (arrived arrivals) fields') (hlive : fields'.chunkCs.isAlive = true) :
    ∃ trace http' rounds', OnlyNotes trace ∧ http'.toFields = fields' ∧
      Runs (chunkRest fuel rounds http none (arrivals ++ [last])) trace (chunkRest fuel rounds' http' none [last]) := by
  induction arrivals generalizing http rounds with
  | nil =>
    cases hpasses
    exact ⟨[], http, rounds, by simp [OnlyNotes], rfl, .nil _⟩
  | cons arrival arrivals ih =>
    rw [arrived, flatMap_cons] at hpasses
    obtain ⟨next, hfirst, hrest⟩ := hpasses.split
    have hnext : next.chunkCs.isAlive = true := isAlive_of_passes hrest (Or.inr hlive)
    obtain ⟨second, others, hmore⟩ :=
      exists_cons_of_ne_nil (append_ne_nil_of_right_ne_nil arrivals (cons_ne_nil last []))
    obtain ⟨trace, http', rounds', hnotes, hfields, hruns⟩ :=
      @ih second.buf.length { http with toFields := next, offset := second.seen.length } hnull hrest
    rw [hmore] at hruns
    have hcall := @chunkCalls_eq fuel { http with toFields := next, offset := arrival.buf.length } hnull second others
    rw [cons_append, chunkRest_cons _ hfirst hnext, hmore, hcall]
    exact ⟨_, http', rounds', hnotes.cons, hfields, .cons hruns⟩

theorem runs_chunkRest_stops {arrivals : List Arrival} (hnull : http.wbuf = .null)
    (hstops : SizeStops http.toFields (arrived arrivals)) :
    ∃ trace http', OnlyNotes trace ∧
      Runs (chunkRest fuel rounds http none arrivals) trace (ret ⟨.error, some .ERANGE, http'⟩) := by
  induction arrivals generalizing http rounds with
  | nil =>
    obtain ⟨before, c, behind, -, -, htext, -, -⟩ := hstops
    simp [arrived] at htext
  | cons arrival arrivals ih =>
    rw [arrived, flatMap_cons] at hstops
    rcases hstops.split with hfirst | ⟨next, hlive, hpasses, hrest⟩
    · obtain ⟨http', hexec⟩ := @chunkExec_stops fuel rounds http arrival.seen _ none hfirst
      refine ⟨[], http', by simp [OnlyNotes], ?_⟩
      rw [chunkRest, Arrival.buf, hexec]
      exact .nil _
    · cases arrivals with
      | nil =>
        obtain ⟨before, c, behind, -, -, htext, -, -⟩ := hrest
        simp at htext
      | cons second arrivals =>
        obtain ⟨trace, http', hnotes, hruns⟩ :=
          @ih second.buf.length { http with toFields := next, offset := second.seen.length } hnull hrest
        have hcall :=
          @chunkCalls_eq fuel { http with toFields := next, offset := arrival.buf.length } hnull second arrivals
        rw [chunkRest_cons _ hpasses hlive, hcall]
        exact ⟨_, http', hnotes.cons, .cons hruns⟩

end Arrivals

/-! ### Where a size line starts -/

/-- A write has been answered `EINTR`. -/
def Interrupted (trace : Run) : Prop := ∃ fd buf foff, ⟨.pwrite fd buf foff, .error .EINTR⟩ ∈ trace

/-- A loop that succeeds keeps an `EINTR` met on the way. -/
theorem pwriteLoop_errno {fuel : Nat} {file file' : MogFile} {buf : Bytes} {errno errno' : Option Errno} {trace : Run}
    (hruns : Runs (pwriteLoop fuel file buf errno) trace (ret (true, errno', file'))) :
    Interrupted trace ∧ errno' = some .EINTR ∨ ¬ Interrupted trace ∧ errno' = errno := by
  induction fuel generalizing file buf errno trace with
  | zero => cases hruns
  | succ fuel ih =>
    obtain ⟨answer, tail, rfl, hrest⟩ := Runs.of_ask_bind hruns
    cases answer with
    | ok w =>
      have htail : Interrupted (⟨.pwrite file.fd buf file.foff, .ok w⟩ :: tail) ↔ Interrupted tail := by
        constructor
        · rintro ⟨fd, data, foff, hentry⟩
          rcases mem_cons.mp hentry with heq | hentry
          · cases heq
          · exact ⟨fd, data, foff, hentry⟩
        · rintro ⟨fd, data, foff, hentry⟩
          exact ⟨fd, data, foff, mem_cons_of_mem _ hentry⟩
      rw [htail]
      dsimp only at hrest
      split at hrest
      · split at hrest
        · cases hrest
          exact Or.inr ⟨by simp [Interrupted], rfl⟩
        · exact ih hrest
      · cases hrest
    | error failure =>
      cases failure with
      | EINTR =>
        have hinterrupted : Interrupted (⟨.pwrite file.fd buf file.foff, .error .EINTR⟩ :: tail) :=
          ⟨_, _, _, mem_cons_self⟩
        rcases ih hrest with ⟨-, herrno⟩ | ⟨-, herrno⟩ <;> exact Or.inl ⟨hinterrupted, herrno⟩
      | _ => cases hrest

/-- Where a size line can start, with the requests and the `errno` that the call has come there with: before the
first chunk, or behind the data of another one. -/
inductive SizeStart : Run → Http → Option Errno → Prop where
  | first {http http' : Http} (hnull : http.wbuf = .null) (hruns : Runs (mogChunkInit http) [] (ret http')) :
      SizeStart [] http' none
  | behind {fuel : Nat} {buf : Bytes} {http : Http} {pos : Nat} {errno : Option Errno} {trace : Run} {http' : Http}
      {pos' : Nat} {errno' : Option Errno} (hnull : http.wbuf = .null)
      (hruns : Runs (chunkData fuel buf http pos errno) trace (ret (.goto http' pos', errno')))
      (hmain : http'.chunkCs = .main) : SizeStart trace http' errno'

structure BetweenChunks (http : Http) : Prop where
  main : http.chunkCs = .main
  zero : http.contentLen = 0
  null : http.wbuf = .null

theorem SizeStart.between {trace : Run} {http : Http} {errno : Option Errno} (h : SizeStart trace http errno) :
    BetweenChunks http ∧
      (Interrupted trace ∧ errno = some .EINTR ∨ ¬ Interrupted trace ∧ errno = none) := by
  cases h with
  | first hnull hruns =>
    obtain ⟨-, hruns⟩ := Runs.of_require_bind hruns
    cases hruns
    exact ⟨⟨rfl, rfl, hnull⟩, Or.inr ⟨by simp [Interrupted], rfl⟩⟩
  | @behind fuel buf http pos _ _ _ _ _ hnull hruns hmain =>
    rw [chunkData] at hruns
    split at hruns
    · -- the final chunk is followed by the trailers
      split at hruns
      · cases hruns
        cases hmain
      · obtain ⟨-, hruns⟩ := Runs.of_require_bind hruns
        cases hruns
        cases hmain
    · obtain ⟨hready, hruns⟩ := Runs.of_require_bind hruns
      rw [Bool.and_eq_true, decide_eq_true_eq, decide_eq_true_eq] at hready
      dsimp only at hruns
      split at hruns
      · cases hruns
      · obtain ⟨first, second, ⟨ok, errno', file'⟩, rfl, hwrite, hrest⟩ := Runs.of_bind hruns
        cases ok with
        | false => cases hrest
        | true =>
          dsimp only at hrest
          rw [if_pos rfl] at hrest
          split at hrest
          next => cases hrest
          next hdone =>
            cases hrest
            rw [mogHttpWriteFull, if_neg (by simp; omega)] at hwrite
            rw [append_nil]
            refine ⟨⟨rfl, ?_, hnull⟩, pwriteLoop_errno hwrite⟩
            dsimp only at hdone ⊢
            omega

/-! ### The result -/

/-- The pieces bring a size line, and these bytes behind it. -/
def Brings (arrivals : List Arrival) (line : ChunkLine) (data : Bytes) : Prop :=
  ∃ before seen last, arrivals = before ++ [⟨seen, last ++ data⟩] ∧ arrived before ++ last = line.text ∧ last ≠ []

/-- The calls come to the data of a chunk of this length, before they ask anything of the system. -/
def EntersData (fuel : Nat) (calls : Io Parsed) (len : Int) (data : Bytes) : Prop :=
  ∃ trace rounds http' seen, OnlyNotes trace ∧ http'.chunkCs = .data ∧ http'.chunkState = .data ∧
    http'.contentLen = len ∧ Runs calls trace (chunkRest fuel rounds http' none [⟨seen, data⟩])

/-- The calls end with `ERANGE`, before they ask anything of the system. -/
def RefusesSize (calls : Io Parsed) : Prop :=
  ∃ trace http', OnlyNotes trace ∧ Runs calls trace (ret ⟨.error, some .ERANGE, http'⟩)

section Result

variable {http : Http} {line : ChunkLine} {arrivals : List Arrival} {data : Bytes}

theorem entersData (fuel rounds : Nat) (h : BetweenChunks http) (hbrings : Brings arrivals line data)
    (hdrops : ¬ HexDrops line.digits) :
    EntersData fuel (chunkRest fuel rounds http none arrivals) (wrap64 line.size) data := by
  obtain ⟨before, seen, last, rfl, htext, hlast⟩ := hbrings
  obtain ⟨fields', hat, hpasses⟩ := line.passes h.main h.zero hdrops
  rw [← htext] at hpasses
  obtain ⟨next, hbefore, hrest⟩ := hpasses.split
  have hlive : next.chunkCs.isAlive = true := isAlive_of_passes hrest (Or.inl hlast)
  obtain ⟨trace, http', rounds', hnotes, rfl, hruns⟩ :=
    runs_chunkRest before ⟨seen, last ++ data⟩ h.null hbefore hlive
  rw [chunkRest_append [] hrest] at hruns
  exact ⟨trace, rounds', { http' with toFields := fields' }, seen ++ last, hnotes, hat.cs, hat.state, hat.length, hruns⟩

theorem refusesSize (fuel rounds : Nat) (h : BetweenChunks http) (hbrings : Brings arrivals line data)
    (hdrops : HexDrops line.digits) : RefusesSize (chunkRest fuel rounds http none arrivals) := by
  obtain ⟨before, seen, last, rfl, htext, -⟩ := hbrings
  have hall : arrived (before ++ [⟨seen, last ++ data⟩]) = line.text ++ data := by
    rw [← htext]
    simp [arrived]
  apply runs_chunkRest_stops h.null
  rw [hall]
  exact (line.stops h.main h.zero hdrops).append data

end Result

/-- What is said of a chunk size read from here on: the calls come to the data with the number the digits stand
for, or refuse it if it does not fit, wherever the reads cut the line. -/
def SizeExact (http : Http) (errno : Option Errno) (digits : Bytes) : Prop :=
  ∀ (fuel rounds : Nat) (line : ChunkLine) (arrivals : List Arrival) (data : Bytes), line.digits = digits →
    Brings arrivals line data →
      hexValue digits < 2 ^ 63 ∧ EntersData fuel (chunkRest fuel rounds http errno arrivals) (hexValue digits) data ∨
      2 ^ 63 ≤ hexValue digits ∧ RefusesSize (chunkRest fuel rounds http errno arrivals)

section Exact

variable {http : Http} {digits : Bytes} (hdigits : ∀ c ∈ digits, isXdigit c = true) (hne : digits ≠ [])

include hdigits hne

/-- An overflow that no digit shows: the line alone comes to the data. -/
theorem SizeExact.drops (hstart : BetweenChunks http) (h : SizeExact http none digits)
    (hlarge : 2 ^ 63 ≤ hexValue digits) : HexDrops digits := by
  by_contra hdrops
  let line : ChunkLine := ⟨[], digits, [], Or.inl rfl, hdigits, hne, by simp, by simp⟩
  obtain ⟨fields', hat, hpasses⟩ := line.passes hstart.main hstart.zero hdrops
  have hbrings : Brings [⟨[], line.text⟩] line [] := ⟨[], [], line.text, by simp, rfl, by simp [ChunkLine.text]⟩
  rcases h 0 0 line _ [] rfl hbrings with ⟨hsmall, -⟩ | ⟨-, trace, http', -, hruns⟩
  · omega
  · rw [chunkRest, Arrival.buf, chunkExec_passes hpasses (by simp [hat.cs]), if_pos hat.cs] at hruns
    cases hruns

/-- A write was interrupted earlier in the call: if the buffer ends before the line, the call fails. -/
theorem not_sizeExact_interrupted : ¬ SizeExact http (some .EINTR) digits := by
  intro h
  let line : ChunkLine := ⟨[], digits, [], Or.inl rfl, hdigits, hne, by simp, by simp⟩
  have hbrings : Brings [⟨[], []⟩, ⟨[], line.text⟩] line [] :=
    ⟨[⟨[], []⟩], [], line.text, by simp, rfl, by simp [ChunkLine.text]⟩
  have hfails : chunkRest 0 0 http (some .EINTR) [⟨[], []⟩, ⟨[], line.text⟩] =
      ret ⟨.error, some .EINTR, { http with offset := 0 }⟩ := by
    have hparsed : chunkParsed [] http 0 (some .EINTR) = ret ⟨.error, some .EINTR, { http with offset := 0 }⟩ :=
      if_pos (Or.inr (by simp))
    change chunkParsed [] http 0 (some .EINTR) >>= _ = _
    rw [hparsed]
    rfl
  rcases h 0 0 line _ [] rfl hbrings with
    ⟨-, trace, rounds, http', seen, -, hcs, -, -, hruns⟩ | ⟨-, trace, http', -, hruns⟩
  · have hdone : chunkRest 0 rounds http' none [⟨seen, []⟩] =
        ret ⟨.done, none, { http' with offset := (seen ++ []).length }⟩ := by
      rw [chunkRest, Arrival.buf, chunkExec_passes (.nil _) (by simp [hcs]), if_pos hcs]
      rfl
    rw [hfails, hdone] at hruns
    cases hruns
  · rw [hfails] at hruns
    cases hruns

end Exact

/-- **A chunk size is taken exactly or refused if its overflow is noticed**, before the first chunk or behind
the data of another one, if no write of that data was interrupted. -/
theorem chunk_size_exact_iff (digits : Bytes) (hdigits : ∀ c ∈ digits, isXdigit c = true) (hne : digits ≠ [])
    {trace : Run} {http : Http} {errno : Option Errno} (hstart : SizeStart trace http errno) :
    SizeExact http errno digits ↔ ¬ Interrupted trace ∧ (2 ^ 63 ≤ hexValue digits → HexDrops digits) := by
  obtain ⟨hbetween, ⟨hinterrupted, rfl⟩ | ⟨hinterrupted, rfl⟩⟩ := hstart.between
  · exact iff_of_false (not_sizeExact_interrupted hdigits hne) fun h => h.1 hinterrupted
  constructor
  · intro h
    exact ⟨hinterrupted, h.drops hdigits hne hbetween⟩
  · rintro ⟨-, h⟩ fuel rounds line arrivals data hline hbrings
    subst hline
    by_cases hsmall : hexValue line.digits < 2 ^ 63
    · have hentered := entersData fuel rounds hbetween hbrings (not_hexDrops hsmall)
      rw [ChunkLine.size, wrap64_hexValue hsmall] at hentered
      exact Or.inl ⟨hsmall, hentered⟩
    · have hlarge := Nat.not_lt.mp hsmall
      exact Or.inr ⟨hlarge, refusesSize fuel rounds hbetween hbrings (h hlarge)⟩

/-- The three bytes of a chunk are to come. -/
def inData : Http :=
  { mogHttpInit with
    chunked := true, chunkCs := .data, chunkState := .data, contentLen := 3
    forward := some ⟨5, 0, 0, none, none, none⟩ }

/-- Behind the three bytes. -/
def behindData : Http :=
  { inData with
    chunkCs := .main, chunkState := .size, contentLen := 0,
    forward := some ⟨5, 0, wrap64 (0 + 3), none, none, none⟩ }

/-- The size of the second chunk of `3\r\nabc\r\n1F\r\n`. -/
theorem chunk_size_exact_small :
    SizeStart [⟨.pwrite 5 [97, 98, 99] 0, .ok 3⟩] behindData none ∧
    SizeExact behindData none (ascii "1F") := by
  have hstart : SizeStart [⟨.pwrite 5 [97, 98, 99] 0, .ok 3⟩] behindData none :=
    @SizeStart.behind 1 [51, CR, LF, 97, 98, 99, CR, LF, 49, 70, CR, LF] inData 3 none _ _ 6 _ rfl (.cons (.nil _)) rfl
  have hdigits : ∀ c ∈ ascii "1F", isXdigit c = true := all_eq_true.mp (by decide +kernel)
  refine ⟨hstart, (chunk_size_exact_iff (ascii "1F") hdigits (by decide +kernel) hstart).mpr ⟨?_, ?_⟩⟩
  · rintro ⟨fd, buf, foff, hentry⟩
    cases mem_singleton.mp hentry
  · intro hlarge
    exact absurd hlarge (by decide +kernel)

/-- `12222222222222220` -/
def wideSize : ChunkLine where
  lead := []
  digits := ascii "12222222222222220"
  extension := []
  lead_eq := Or.inl rfl
  isXdigits := all_eq_true.mp (by decide +kernel)
  ne_nil := by decide +kernel
  digits_end := by simp
  line_end := by simp

/-- The first digit is lost, and the data is entered with what the others stand for. Behind a write that was
interrupted, no size is safe. -/
theorem chunk_size_wrapped :
    (2 ^ 63 ≤ wideSize.size ∧
      EntersData 0 (chunkRest 0 0 { mogHttpInit with chunked := true } none [⟨[], wideSize.text⟩])
        2459565876494606880 []) ∧
    SizeStart [⟨.pwrite 5 [97, 98, 99] 0, .error .EINTR⟩, ⟨.pwrite 5 [97, 98, 99] 0, .ok 3⟩]
      behindData (some .EINTR) ∧ ¬ SizeExact behindData (some .EINTR) (ascii "1F") := by
  have hrun : Numeral.accumulate 16 hexDigit (2 ^ 64) 0 wideSize.digits = some 2459565876494606880 := by
    decide +kernel
  have hdrops : ¬ HexDrops wideSize.digits := by
    intro hdrops
    rw [hexRun_drops hdrops] at hrun
    cases hrun
  have hbrings : Brings [⟨[], wideSize.text⟩] wideSize [] :=
    ⟨[], [], wideSize.text, by simp, rfl, by simp [ChunkLine.text]⟩
  have hsize : wrap64 wideSize.size = 2459565876494606880 := by decide +kernel
  refine ⟨⟨by decide +kernel, ?_⟩, ?_,
    not_sizeExact_interrupted (all_eq_true.mp (by decide +kernel)) (by decide +kernel)⟩
  · rw [← hsize]
    exact entersData 0 0 ⟨rfl, rfl, rfl⟩ hbrings hdrops
  · exact @SizeStart.behind 2 [51, CR, LF, 97, 98, 99, CR, LF, 49, 70, CR, LF] inData 3 none _ _ 6 _ rfl
      (.cons (.cons (.nil _))) rfl

end Cmogstored
