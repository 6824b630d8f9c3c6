import Cmogstored.HttpCommon
import Cmogstored.Numeral

/-! Decimal numbers as the C library reads them: `strtol` and `strtoul` in base ten. -/

namespace Cmogstored

def decimalDigit (c : Byte) : Nat := c.toNat - 48

/-- The number that a string of decimal digits stands for. -/
def decimalValue (digits : Bytes) : Nat := Numeral.value 10 decimalDigit digits

/-- `isspace` in the C locale -/
def isSpace (c : Byte) : Bool := c = 32 || (9 ≤ c && c ≤ 13)

/-- `INT_MAX` -/
def intMax : Nat := 2 ^ 31 - 1

/-- `LONG_MAX` -/
def longMax : Int := 2 ^ 63 - 1

/-- `ULONG_MAX` -/
def ulongMax : Nat := 2 ^ 64 - 1

/-- What stands behind the blanks and the sign, and whether the sign is a minus. -/
def unsigned (text : Bytes) : Bytes × Bool :=
  let body := text.dropWhile isSpace
  (if body.head? = some 45 || body.head? = some 43 then body.drop 1 else body, body.head? = some 45)

/-- `strtol`: the number, and the byte behind it. -/
def strtol (text : Bytes) : Int × Byte :=
  let (body, negative) := unsigned text
  let digits := body.takeWhile isDigit
  if digits = [] then (0, text.headD 0)
  else
    let n : Int := decimalValue digits
    (if negative then max (-n) (-longMax - 1) else min n longMax, (body.drop digits.length).headD 0)

/-- What `strtoul` makes of a text. -/
structure Strtoul where
  value : Nat
  /-- `errno` is `ERANGE` -/
  erange : Bool
  /-- what `*endptr` points to -/
  rest : Bytes
  deriving DecidableEq, Repr

/-- `strtoul`; a number behind a minus is negated as an `unsigned long`. -/
def strtoul (text : Bytes) : Strtoul :=
  let (body, negative) := unsigned text
  let digits := body.takeWhile isDigit
  if digits = [] then ⟨0, false, text⟩
  else
    let n := decimalValue digits
    let rest := body.drop digits.length
    if ulongMax < n then ⟨ulongMax, true, rest⟩
    else ⟨if negative then (2 ^ 64 - n) % 2 ^ 64 else n, false, rest⟩

/-! ### Numbers as `printf` writes them -/

theorem toNat_of_mem_toDigits {n : Nat} {char : Char} (h : char ∈ Nat.toDigits 10 n) :
    48 ≤ char.toNat ∧ char.toNat ≤ 57 := by
  have hdigit := Nat.isDigit_of_mem_toDigits (by decide) (by decide) h
  rw [Char.isDigit, Bool.and_eq_true, decide_eq_true_iff, decide_eq_true_iff] at hdigit
  exact ⟨UInt32.le_iff_toNat_le.mp hdigit.1, UInt32.le_iff_toNat_le.mp hdigit.2⟩

theorem isDigit_repr {n : Nat} : ∀ c ∈ ascii (Nat.repr n), isDigit c = true := by
  intro c hc
  obtain ⟨char, hchar, rfl⟩ := List.mem_map.mp hc
  rw [Nat.toList_repr] at hchar
  obtain ⟨hlow, hhigh⟩ := toNat_of_mem_toDigits hchar
  have hdigits : ∀ k < 10, isDigit (UInt8.ofNat (48 + k)) = true := by decide
  rw [show char.toNat = 48 + (char.toNat - 48) by omega]
  exact hdigits _ (by omega)

theorem repr_ne_nil (n : Nat) : ascii (Nat.repr n) ≠ [] := by
  rw [ascii, Nat.toList_repr, Ne, List.map_eq_nil_iff]
  exact Nat.toDigits_ne_nil

theorem decimalValue_repr (n : Nat) : decimalValue (ascii (Nat.repr n)) = n := by
  have hfold : ∀ chars : List Char, (∀ char ∈ chars, char.toNat ≤ 57) → ∀ k,
      chars.foldl (fun k char => k * 10 + decimalDigit (UInt8.ofNat char.toNat)) k = Nat.ofDigitChars 10 chars k := by
    intro chars
    induction chars with
    | nil => exact fun _ _ => rfl
    | cons char chars ih =>
      intro hchars k
      obtain ⟨hchar, hchars⟩ := List.forall_mem_cons.mp hchars
      have hbyte : (UInt8.ofNat char.toNat).toNat = char.toNat :=
        UInt8.toNat_ofNat_of_lt' (Nat.lt_of_le_of_lt hchar (by decide))
      rw [List.foldl_cons, ih hchars, decimalDigit, hbyte, Nat.mul_comm k 10]
      rfl
  rw [ascii, Nat.toList_repr, decimalValue, Numeral.value, List.foldl_map,
    hfold _ (fun char hchar => (toNat_of_mem_toDigits hchar).2), Nat.ofDigitChars_toDigits (by decide) (by decide)]

/-- `strtoul` reads back what was written. -/
theorem strtoul_repr {n : Nat} {rest : Bytes} (hn : n ≤ ulongMax) (hrest : ∀ c ∈ rest.head?, isDigit c = false) :
    strtoul (ascii (Nat.repr n) ++ rest) = ⟨n, false, rest⟩ := by
  have hvalue := decimalValue_repr n
  have hdigits := @isDigit_repr n
  have hne := repr_ne_nil n
  generalize ascii (Nat.repr n) = digits at hvalue hdigits hne ⊢
  obtain ⟨c, digits, rfl⟩ := List.exists_cons_of_ne_nil hne
  obtain ⟨hspace, hminus, hplus⟩ : isSpace c = false ∧ c ≠ 45 ∧ c ≠ 43 := by
    have hdigit := hdigits c List.mem_cons_self
    grind [isDigit, isSpace]
  have hunsigned : unsigned (c :: digits ++ rest) = (c :: digits ++ rest, false) := by
    simp [unsigned, hspace, hminus, hplus]
  have htake : (c :: digits ++ rest).takeWhile isDigit = c :: digits := by
    rw [List.takeWhile_append_of_pos hdigits]
    cases rest with
    | nil => simp
    | cons c' rest => simp [hrest c' rfl]
  simp only [strtoul, hunsigned, htake, hvalue, List.drop_left, Nat.not_lt.mpr hn, hne, if_false, Bool.false_eq_true]

end Cmogstored
