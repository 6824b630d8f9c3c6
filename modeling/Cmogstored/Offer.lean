import Mathlib.Data.List.Basic

/-! Handing a sequence to a taker that may take it piece by piece, ask to be tried again, block, or
break. A relation says what a finite list of its answers makes of the sequence. -/

namespace Offer

/-- What an error of the taker means. -/
inductive Kind where
  | again | blocked | broken
  deriving DecidableEq, Repr

/-- How an attempt ends. -/
inductive End (α : Type) where
  | sent
  | kept (rest : List α)
  | broken

def End.rest {α : Type} : End α → List α
  | sent => []
  | kept rest => rest
  | broken => []

variable {α ε : Type} {kind : ε → Kind} {data taken taken' : List α} {answers : List (Except ε Nat)}
  {fate fate' : End α}

/-- `Offers kind data answers fate taken`: offered `data`, a taker that answers so takes `taken`, and the
attempt ends with `fate` at the last answer. -/
inductive Offers (kind : ε → Kind) : List α → List (Except ε Nat) → End α → List α → Prop where
  | all (data : List α) : Offers kind data [.ok data.length] .sent data
  | part {data taken : List α} {answers : List (Except ε Nat)} {fate : End α} {count : Nat}
      (hcount : count < data.length) (rest : Offers kind (data.drop count) answers fate taken) :
      Offers kind data (.ok count :: answers) fate (data.take count ++ taken)
  | again {data taken : List α} {answers : List (Except ε Nat)} {fate : End α} {error : ε}
      (hkind : kind error = .again) (rest : Offers kind data answers fate taken) :
      Offers kind data (.error error :: answers) fate taken
  | blocked (data : List α) {error : ε} (hkind : kind error = .blocked) :
      Offers kind data [.error error] (.kept data) []
  | broken (data : List α) {error : ε} (hkind : kind error = .broken) :
      Offers kind data [.error error] .broken []

/-- What was taken and what is kept make up the data. -/
theorem Offers.taken_append_rest (h : Offers kind data answers fate taken) (hfate : fate ≠ .broken) :
    taken ++ fate.rest = data := by
  induction h with
  | all data => exact List.append_nil data
  | part hcount rest ih => rw [List.append_assoc, ih hfate, List.take_append_drop]
  | again hkind rest ih => exact ih hfate
  | blocked data hkind => rfl
  | broken data hkind => exact absurd rfl hfate

/-- Everything was taken exactly if the attempt says so. -/
theorem Offers.sent_iff (h : Offers kind data answers fate taken) (hne : data ≠ []) :
    fate = .sent ↔ taken = data := by
  induction h with
  | all data => exact iff_of_true rfl rfl
  | @part data taken answers fate count hcount rest ih =>
    have hdrop : data.drop count ≠ [] := by
      rw [Ne, List.drop_eq_nil_iff]
      exact Nat.not_le.mpr hcount
    rw [ih hdrop]
    constructor
    · rintro rfl
      exact List.take_append_drop count data
    · intro hdata
      conv at hdata => rhs; rw [← List.take_append_drop count data]
      exact List.append_cancel_left hdata
  | again hkind rest ih => exact ih hne
  | blocked data hkind => exact iff_of_false nofun (Ne.symm hne)
  | broken data hkind => exact iff_of_false nofun (Ne.symm hne)

theorem Offers.kept_ne_nil {rest : List α} (h : Offers kind data answers (.kept rest) taken)
    (hne : data ≠ []) : rest ≠ [] := by
  rintro rfl
  have hall := h.taken_append_rest nofun
  rw [End.rest, List.append_nil] at hall
  exact absurd ((h.sent_iff hne).mpr hall) nofun

/-- A broken attempt ends with an error. -/
theorem Offers.getLast?_of_broken (h : Offers kind data answers .broken taken) :
    ∃ error, answers.getLast? = some (.error error) ∧ kind error = .broken := by
  generalize hfate : End.broken = fate at h
  induction h with
  | all data => cases hfate
  | part hcount rest ih =>
    obtain ⟨error, hlast, hkind⟩ := ih hfate
    exact ⟨error, by rw [List.getLast?_cons, hlast]; rfl, hkind⟩
  | again hkind rest ih =>
    obtain ⟨error, hlast, hkind⟩ := ih hfate
    exact ⟨error, by rw [List.getLast?_cons, hlast]; rfl, hkind⟩
  | blocked data hkind => cases hfate
  | broken data hkind => exact ⟨_, rfl, hkind⟩

end Offer
