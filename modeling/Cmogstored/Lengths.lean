import Cmogstored.HeadText

/-! Which numbers of a head `length_incr` stores exactly, and which it refuses. It notices an overflow only
where the product modulo 2^64 is smaller than the number before, so some numbers that do not fit are neither
stored nor refused; and a header that the parser passes over is not read at all. -/

namespace Cmogstored

open List Scan

/-! ### The numbers -/

def LengthHeader.Fits (header : LengthHeader) : Prop := ∀ number ∈ header.numbers, number.value < 2 ^ 63

/-- The digits of the header are not written behind others. -/
def LengthHeader.Fresh : LengthHeader → Numbers → Prop
  | contentLength _ _, numbers => numbers.contentLen = 0
  | contentRange _ _ _ _, numbers => numbers.rangeBeg = 0 ∧ numbers.rangeEnd = 0
  | range _ _ _, _ => True

section Run

variable {header : LengthHeader} {numbers : Numbers} (hfresh : header.Fresh numbers)
include hfresh

end Run

/-! ### Headers that write the same numbers -/

/-- The header writes the bounds of a range, not the length. -/
def LengthHeader.bounds : LengthHeader → Bool
  | contentLength _ _ => false
  | _ => true

/-- What such headers write. -/
def Numbers.part (numbers : Numbers) (bounds : Bool) : Int × Int :=
  if bounds then (numbers.rangeBeg, numbers.rangeEnd) else (numbers.contentLen, 0)

section Parts

variable {header : LengthHeader} {numbers numbers' : Numbers} {marks marks' : Marks}

end Parts

/-! ### The lines of the head -/

/-- The headers that state numbers, read or not. -/
def statedHeaders (lines : List HeadLine) : List LengthHeader := lines.flatMap HeadLine.stated

theorem OutOfRange.parse {buf : Bytes} (h : OutOfRange buf) (http : Http) :
    ∃ http', mogHttpParse (mogHttpResetParser http) buf = some ⟨.error, some .ERANGE, http'⟩ := by
  obtain ⟨fields, pos, hscan⟩ := h
  exact ⟨_, parse_eq_parsedOf http hscan⟩

theorem Rejected.parse {buf : Bytes} (h : Rejected buf) (http : Http) :
    ∃ http', mogHttpParse (mogHttpResetParser http) buf = some ⟨.error, none, http'⟩ := by
  obtain ⟨fields, pos, hscan⟩ := h
  exact ⟨_, parse_eq_parsedOf http hscan⟩

section Result

variable {http : Http} {header : LengthHeader} {request : Bytes} {lines : List HeadLine} {start fields : Fields}

section Read

variable (hrequest : IsRequestLine request start) (honly : ∀ other ∈ statedHeaders lines, other.bounds ≠ header.bounds)
include hrequest honly

end Read

end Result

/-! ### Numbers of one head -/

def requestLine : Bytes := ascii "GET / HTTP/1.0\r\n"

theorem reading_requestLine : Reading requestLine
    { Fields.init with cs := .headers, httpMethod := .get, pathTip := 4, pathEnd := 5, lineEnd := 15 } := by
  have hexec : exec headStep requestLine 32 .init 0 =
      .more { Fields.init with cs := .headers, httpMethod := .get, pathTip := 4, pathEnd := 5, lineEnd := 15 } 16 := by
    decide +kernel
  have hscan : Scans headStep requestLine .init 0 (exec headStep requestLine 32 .init 0) := by
    apply scans_exec
    rw [hexec]
    simp
  rw [hexec] at hscan
  exact hscan

/-- The parser waits for more, and has not seen a line end. -/
def inFirstLine : Outcome Fields Halt → Bool
  | .more fields _ => fields.lineEnd == 0
  | _ => false

theorem isRequestLine_requestLine : IsRequestLine requestLine
    { Fields.init with cs := .headers, httpMethod := .get, pathTip := 4, pathEnd := 5, lineEnd := 15 } := by
  refine ⟨reading_requestLine, rfl, ?_⟩
  rintro part hpart hne fields hread
  have hlength : part.length < 16 := by
    have hle := hpart.length_le
    have hless : part.length ≠ requestLine.length := fun heq => hne (hpart.eq_of_length heq)
    have hall : requestLine.length = 16 := by simp [requestLine, ascii]
    omega
  have hall : ∀ k < 16, inFirstLine (exec headStep (requestLine.take k) 32 .init 0) = true := by decide +kernel
  have hfirst := hall part.length hlength
  rw [← prefix_iff_eq_take.mp hpart] at hfirst
  have hstuck : exec headStep part 32 .init 0 ≠ .stuck := by
    intro hstuck
    rw [hstuck] at hfirst
    cases hfirst
  rw [Scans.exec_eq hread hstuck] at hfirst
  simpa [inFirstLine] using hfirst

theorem isBlanks_space : IsBlanks [SP] := by simp [IsBlanks, isLws]

theorem isSep_space : IsSep [SP] := Or.inl isBlanks_space

theorem contentLength_text : (ascii "Content-Length:").map toLower = Field.contentLength.text := by
  simp [ascii, Field.text, toLower]

theorem isLine_crlf : IsLine [CR, LF] := ⟨[CR], by decide, rfl⟩

theorem numberOk_crlf (header : LengthHeader) (rest : Bytes) : (HeadLine.number header [CR, LF]).Ok rest := by
  refine ⟨isLine_crlf, ?_⟩
  intro c hc
  cases hc
  decide

end Cmogstored
