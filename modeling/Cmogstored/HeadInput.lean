import Cmogstored.HeadScan
import Cmogstored.HttpFrame

/-! Between two steps of a connection a head may be half read. What the parser has made of it is then
what it makes of the kept bytes alone, so that the loop around it hands over a head exactly as if all
of it had been read at once. -/

namespace Cmogstored

open Prog Scan

/-- The bytes a connection keeps for later. -/
def rbufData (http : Http) : Bytes :=
  match http.rbuf with
  | none => []
  | some rbuf => rbuf.data

/-- The parser has read the first `offset` of the kept bytes. -/
def Resting (http : Http) : Prop :=
  http.offset ≤ (rbufData http).length ∧ Reading ((rbufData http).take http.offset) http.toFields

theorem resting_reset (http : Http) : Resting (mogHttpResetParser http) :=
  ⟨Nat.zero_le _, reading_nil⟩

theorem resting_init : Resting mogHttpInit := ⟨Nat.zero_le _, reading_nil⟩

/-- What the `reread` loop hands on. -/
def InputOk : Input → Prop
  | .request http buf => Scans headStep buf .init 0 (.halted http.toFields http.offset .done)
  | .blocked http => Resting http
  | _ => True

/-- The client and its buffer at the `reread` label: all of the buffer has been parsed. -/
structure Rereading (http : Http) (rbuf : Rbuf) : Prop where
  null : http.wbuf = .null
  offset : http.offset = rbuf.data.length
  reading : Reading rbuf.data http.toFields

def ParseOk : Parse → Prop
  | .out input => InputOk input
  | .reread http rbuf => Rereading http rbuf

theorem queueParse_reading (http : Http) (rbuf : Rbuf) (hnull : http.wbuf = .null)
    (hoffset : http.offset ≤ rbuf.data.length)
    (h : Reading (rbuf.data.take http.offset) http.toFields) :
    (queueParse http rbuf).Within InputCall ParseOk := by
  refine within_ask_bind trivial fun _ => ?_
  obtain ⟨outcome, hscan, hparse⟩ :=
    h.parse (rbuf.data.drop http.offset) (by rw [List.length_take]; omega) hnull
  rw [List.take_append_drop] at hscan hparse
  rw [hparse]
  cases outcome with
  | more fields p =>
    obtain rfl := (headScan_more hscan (headAt_init _)).1
    have hreread : ∀ http' rbuf', http'.wbuf = .null → http'.offset = rbuf.data.length →
        http'.toFields = fields → rbuf'.data = rbuf.data → Rereading http' rbuf' := by
      intro http' rbuf' hnull hoffset hfields hdata
      refine ⟨hnull, hdata ▸ hoffset, ?_⟩
      rw [hfields, hdata]
      exact hscan
    dsimp only [parsedOf]
    split
    · unfold mogRbufGrow
      split
      · trivial
      · refine Within.bind (Q := fun grown => ∀ rbuf', grown = some rbuf' → rbuf'.data = rbuf.data)
          (within_require_bind fun _ => ?_) fun grown hgrown => ?_
        · split
          · rintro _ ⟨⟩
            rfl
          · rintro _ ⟨⟩
            rfl
        · split
          · trivial
          · exact hreread _ _ hnull rfl rfl (hgrown _ rfl)
    · exact hreread _ _ hnull rfl rfl rfl
  | halted fields p why =>
    cases why with
    | done => exact hscan
    | invalid errno => trivial
    | reject => trivial
  | failed => trivial
  | stuck => trivial

theorem queueReread_reading (fuel : Nat) (http : Http) (rbuf : Rbuf) (h : Rereading http rbuf) :
    (queueReread fuel http rbuf).Within InputCall InputOk := by
  induction fuel generalizing http rbuf with
  | zero => trivial
  | succ fuel ih =>
    refine within_ask_bind trivial fun answer => ?_
    split
    · rename_i data
      split
      · trivial
      · have htake : rbuf.data.take http.offset = rbuf.data := by
          rw [h.offset, List.take_length]
        have hseen : ∀ more, (rbuf.data ++ more).take http.offset = rbuf.data := fun more => by
          rw [h.offset, List.take_left]
        rw [htake]
        refine (queueParse_reading http _ h.null ?_ ?_).bind fun parse hparse => ?_
        · simp only [List.length_append, h.offset, Nat.le_add_right]
        · rw [hseen]
          exact h.reading
        · split
          · exact hparse
          · exact ih _ _ hparse
    · split
      · refine within_ret ⟨?_, ?_⟩
        · exact Nat.le_of_eq h.offset
        · show Reading (rbuf.data.take http.offset) http.toFields
          rw [h.offset, List.take_length]
          exact h.reading
      · rename_i hempty
        obtain hnil : rbuf.data = [] := List.length_eq_zero_iff.mp (by omega)
        have hzero : http.offset = 0 := by rw [h.offset, hnil]; rfl
        refine within_ret ⟨?_, ?_⟩
        · rw [hzero]
          exact Nat.zero_le _
        · rw [hzero, List.take_zero, ← hnil]
          exact h.reading
    · exact ih _ _ h
    · trivial

/-- **A head is handed over as if it had been read at once**, and a blocked read leaves the connection
ready to go on. -/
theorem queueInput_reading (fuel : Nat) (http : Http) (hnull : http.wbuf = .null) (h : Resting http) :
    (queueInput fuel http).Within InputCall InputOk := by
  refine within_require_bind fun _ => ?_
  obtain ⟨hle, hreading⟩ := h
  unfold rbufData at hle hreading
  split
  · rename_i hrbuf
    rw [hrbuf] at hle hreading
    rw [hrbuf]
    refine queueReread_reading fuel http _ ⟨hnull, Nat.le_zero.mp hle, ?_⟩
    rwa [List.take_nil] at hreading
  · rename_i rbuf hrbuf
    rw [hrbuf] at hle hreading
    rw [hrbuf]
    refine within_require_bind fun _ => ?_
    split
    · refine (queueParse_reading http rbuf hnull hle hreading).bind fun parse hparse => ?_
      split
      · exact hparse
      · exact queueReread_reading _ _ _ hparse
    · rename_i hall
      have hoffset : http.offset = rbuf.data.length := by
        have : ¬ http.offset < rbuf.data.length := hall
        dsimp only at hle
        omega
      refine queueReread_reading _ _ _ ⟨hnull, hoffset, ?_⟩
      dsimp only at hreading
      rwa [hoffset, List.take_length] at hreading

end Cmogstored
