import Cmogstored.HeadScan

/-! The chunk parser as a scanner of lines: what a transition can do, by the kind of its state, and that the
parser ends on every buffer. -/

namespace Cmogstored

open Prog Scan

variable {c : Byte} {buf : Bytes} {p : Nat}

/-! ### The machine, by the kind of its state -/

def ChunkCs.isIgnored : ChunkCs → Bool
  | .ignored _ => true
  | _ => false

theorem trailerNameNext_cases (seen : Bytes) (c : Byte) (onError : ChunkAct) :
    trailerNameNext seen c onError = (.keep, .md5 (.sep .blank)) ∧ c ≠ LF ∨
    (∃ seen', trailerNameNext seen c onError = (.keep, .name seen')) ∧ c ≠ LF ∨
    trailerNameNext seen c onError = (onError, .error) := by
  have hlf : ∀ text : Bytes, text <+: trailerNameText → seen ++ [toLower c] = text → c ≠ LF := by
    rintro text hstarts rfl rfl
    have hlower : toLower LF = LF := by decide
    have hmem : LF ∈ trailerNameText := hstarts.subset (by simp [hlower])
    exact absurd hmem (by decide)
  unfold trailerNameNext
  dsimp only
  split
  · rename_i heq
    exact Or.inl ⟨rfl, hlf _ (List.prefix_refl _) (by simpa using heq)⟩
  · split
    · rename_i hstarts
      exact Or.inr (Or.inl ⟨⟨_, rfl⟩, hlf _ (by simpa using hstarts) rfl⟩)
    · exact Or.inr (Or.inr rfl)

theorem trailersNext_cases (c : Byte) (onError : ChunkAct) :
    trailersNext c onError = (.keep, .blankLf) ∧ c = CR ∨
    trailersNext c onError = (.keep, .md5 (.sep .blank)) ∧ c ≠ LF ∨
    (∃ seen', trailersNext c onError = (.keep, .name seen')) ∧ c ≠ LF ∨
    trailersNext c onError = (onError, .error) := by
  unfold trailersNext
  split
  · rename_i hcr
    exact Or.inl ⟨rfl, by simpa using hcr⟩
  · exact Or.inr (trailerNameNext_cases [] c onError)

theorem ignoredNext_cases (at_ : IgnoredCs) (c : Byte) :
    (∃ at', ignoredNext at_ c = .inside at' ∧ c ≠ LF) ∨
    ignoredNext at_ c = .folded ∧ at_ = .sepLf ∧ c = LF ∨
    ignoredNext at_ c = .nextLine ∧ at_ = .eorLf ∧ c = LF ∨
    ignoredNext at_ c = .error := by
  by_cases hlf : c = LF
  · subst hlf
    cases at_ <;> simp [ignoredNext] <;> decide
  · cases at_ <;> simp only [ignoredNext] <;> (repeat' split) <;> simp_all

/-- What a state of `content_md5` knows of the bytes from `tmp_tip` on. -/
def Md5Tail : Md5Cs → Bytes → Prop
  | .digits count, seen =>
    seen.length = count ∧ 0 < count ∧ count ≤ 22 ∧ ∀ c ∈ seen, isBase64 c = true
  | .pad, seen => ∃ digits, seen = digits ++ [61] ∧ digits.length = 22 ∧ ∀ c ∈ digits, isBase64 c = true
  | .padded, seen =>
    ∃ digits, seen = digits ++ [61, 61] ∧ digits.length = 22 ∧ ∀ c ∈ digits, isBase64 c = true
  | _, _ => True

/-- Behind `tmp_tip` and before the digest is decoded. -/
def Md5Cs.inDigest : Md5Cs → Bool
  | .digits _ => true
  | .pad => true
  | .padded => true
  | _ => false

theorem ne_lf_of_isBase64 (h : isBase64 c = true) : c ≠ LF := by
  rintro rfl
  exact absurd h (by decide)

theorem ne_lf_of_isLws (h : isLws c = true) : c ≠ LF := by
  rintro rfl
  exact absurd h (by decide)

theorem md5Next_cases (at_ : Md5Cs) (c : Byte) :
    (∃ at', md5Next at_ c = (.keep, .inside at') ∧ c ≠ LF ∧ at' ≠ .sep .lf ∧
      (at'.inDigest = true → at_.inDigest = true) ∧
      ∀ seen, Md5Tail at_ seen → Md5Tail at' (seen ++ [c])) ∨
    (md5Next at_ c = (.tmpTip, .inside (.digits 1)) ∧ isBase64 c = true) ∨
    (∃ at', md5Next at_ c = (.decode, .inside at') ∧ at_ = .padded ∧ c ≠ LF ∧
      at'.inDigest = false ∧ at' ≠ .sep .lf) ∨
    (md5Next at_ c = (.lineEnd, .inside (.sep .lf)) ∧ at_ = .sep .cr ∧ c = LF) ∨
    (md5Next at_ c = (.lineEnd, .nextLine) ∧ at_ = .eorLf ∧ c = LF) ∨
    (md5Next at_ c).1 = .ignoreLine ∨ (md5Next at_ c).1 = .md5Err := by
  have hcr : ∀ {c : Byte}, (c == CR) = true → c ≠ LF := by
    rintro c hcr rfl
    exact absurd hcr (by decide)
  have hpad : ∀ {c : Byte}, (c == 61) = true → c ≠ LF := by
    rintro c hpad rfl
    exact absurd hpad (by decide)
  cases at_ with
  | sep at_ =>
    cases at_ <;> simp only [md5Next] <;> (repeat' split) <;>
      simp_all [Md5Cs.inDigest, Md5Tail, ne_lf_of_isLws]
  | digits count =>
    by_cases hcount : count < 22
    · by_cases hdigit : isBase64 c = true
      · refine Or.inl ⟨.digits (count + 1), by simp [md5Next, hcount, hdigit],
          ne_lf_of_isBase64 hdigit, by simp, fun _ => rfl, ?_⟩
        rintro seen ⟨hlength, -, -, hall⟩
        refine ⟨by simp [hlength], by omega, by omega, fun b hb => ?_⟩
        rcases List.mem_append.mp hb with hb | hb
        · exact hall b hb
        · rw [List.mem_singleton.mp hb]
          exact hdigit
      · simp [md5Next, hcount, hdigit]
    · by_cases heq : (c == 61) = true
      · refine Or.inl ⟨.pad, by simp [md5Next, hcount, heq], hpad heq, by simp, fun _ => rfl, ?_⟩
        rintro seen ⟨hlength, -, hle, hall⟩
        exact ⟨seen, by rw [eq_of_beq heq], by omega, hall⟩
      · simp [md5Next, hcount, heq]
  | pad =>
    by_cases heq : (c == 61) = true
    · refine Or.inl ⟨.padded, by simp [md5Next, heq], hpad heq, by simp, fun _ => rfl, ?_⟩
      rintro seen ⟨digits, rfl, hlength, hall⟩
      exact ⟨digits, by rw [eq_of_beq heq, List.append_assoc]; rfl, hlength, hall⟩
    · simp [md5Next, heq]
  | padded =>
    simp only [md5Next]
    (repeat' split) <;> simp_all [Md5Cs.inDigest, ne_lf_of_isLws]
  | eor =>
    simp only [md5Next]
    (repeat' split) <;> simp_all [Md5Cs.inDigest, Md5Tail, ne_lf_of_isLws]
  | eorLf =>
    simp only [md5Next]
    (repeat' split) <;> simp_all

/-! ### Digests -/

theorem exists_b64 (h : isBase64 c = true) : ∃ n, b64 c = some n := by
  unfold b64
  split
  · exact ⟨_, rfl⟩
  split
  · exact ⟨_, rfl⟩
  split
  · exact ⟨_, rfl⟩
  split
  · exact ⟨_, rfl⟩
  split
  · exact ⟨_, rfl⟩
  · simp_all [isBase64, isAlpha]

theorem ne_pad_of_isBase64 (h : isBase64 c = true) : (c == 61) = false := by
  by_contra hpad
  obtain rfl : c = 61 := by simpa using hpad
  exact absurd h (by decide)

/-- Digits in groups of four, the last one padded, decode to three bytes a group. -/
theorem base64Decode_padded (groups : Nat) (digits : Bytes) (hlength : digits.length = 4 * groups + 2)
    (hall : ∀ c ∈ digits, isBase64 c = true) :
    ∃ out, base64Decode (digits ++ [61, 61]) = some out ∧ out.length = 3 * groups + 1 := by
  induction groups generalizing digits with
  | zero =>
    obtain ⟨a, b, rfl⟩ := List.length_eq_two.mp hlength
    obtain ⟨x, hx⟩ := exists_b64 (hall a (by simp))
    obtain ⟨y, hy⟩ := exists_b64 (hall b (by simp))
    simp [base64Decode, decode4, hx, hy]
  | succ groups ih =>
    match digits, hlength with
    | a :: b :: c :: d :: rest, hlength =>
      obtain ⟨x, hx⟩ := exists_b64 (hall a (by simp))
      obtain ⟨y, hy⟩ := exists_b64 (hall b (by simp))
      obtain ⟨z, hz⟩ := exists_b64 (hall c (by simp))
      obtain ⟨w, hw⟩ := exists_b64 (hall d (by simp))
      have hc := ne_pad_of_isBase64 (hall c (by simp))
      have hd := ne_pad_of_isBase64 (hall d (by simp))
      simp only [List.length_cons] at hlength
      obtain ⟨out, hout, hcount⟩ := ih rest (by omega) (fun e he => hall e (by simp [he]))
      simp [base64Decode, decode4, hx, hy, hz, hw, hc, hd, hout, hcount]
      omega

/-! ### The parser as a scanner of lines -/

theorem chunkNext_not_ignored {cs : ChunkCs} (c : Byte) (h : cs.isIgnored = false) :
    (chunkNext cs c).2.isIgnored = false := by
  cases cs with
  | ignored at_ => cases h
  | name seen =>
    rcases trailerNameNext_cases seen c .ignoreLine with ⟨h, -⟩ | ⟨⟨_, h⟩, -⟩ | h <;>
      rw [chunkNext, h] <;> rfl
  | trailers =>
    rcases trailersNext_cases c .ignoreLine with ⟨h, -⟩ | ⟨h, -⟩ | ⟨⟨_, h⟩, -⟩ | h <;>
      rw [chunkNext, h] <;> rfl
  | trailersAfterMd5 =>
    rcases trailersNext_cases c .md5Err with ⟨h, -⟩ | ⟨h, -⟩ | ⟨⟨_, h⟩, -⟩ | h <;>
      rw [chunkNext, h] <;> rfl
  | md5 at_ =>
    dsimp only [chunkNext, md5ChunkNext]
    split <;> first | rfl | (split <;> rfl)
  | _ =>
    dsimp only [chunkNext]
    (repeat' split) <;> rfl

/-- A step goes on, ends a line, or goes back to the start of a line it reads for the first time. -/
theorem chunkStep_line {fields fields' : Fields} {p' : Nat}
    (h : chunkStep buf fields p c = .goto fields' p') :
    LineMove fields.lineEnd fields.chunkCs.isIgnored p fields'.lineEnd fields'.chunkCs.isIgnored p' := by
  have hon : ∀ fields' : Fields, fields'.lineEnd = fields.lineEnd →
      fields'.chunkCs.isIgnored = fields.chunkCs.isIgnored →
      LineMove fields.lineEnd fields.chunkCs.isIgnored p fields'.lineEnd fields'.chunkCs.isIgnored
        (p + 1) := by
    intro fields' hend hcs
    rw [hend, hcs]
    exact .on
  have hback : fields.chunkCs.isIgnored = false →
      (if fields.lineEnd = 0 then Move.goto { fields with chunkCs := .ignored .nameStart } 1
        else if buf[fields.lineEnd]? = some LF ∧ fields.lineEnd + 1 < buf.length then
          .goto { fields with chunkCs := .ignored .nameStart } (fields.lineEnd + 2)
        else .fail : Move Fields ChunkHalt) = .goto fields' p' →
      LineMove fields.lineEnd fields.chunkCs.isIgnored p fields'.lineEnd fields'.chunkCs.isIgnored
        p' := by
    intro hfirst hmove
    have hmoves : LineMove fields.lineEnd fields.chunkCs.isIgnored p fields.lineEnd true
      (if fields.lineEnd = 0 then 1 else fields.lineEnd + 2) := .back hfirst
    split at hmove
    · rename_i hzero
      rw [if_pos hzero] at hmoves
      cases hmove
      exact hmoves
    · rename_i hzero
      rw [if_neg hzero] at hmoves
      split at hmove
      · cases hmove
        exact hmoves
      · cases hmove
  rcases hnext : chunkNext fields.chunkCs c with ⟨act, cs⟩
  by_cases hignored : fields.chunkCs.isIgnored = true
  · obtain ⟨at_, hat⟩ : ∃ at_, fields.chunkCs = .ignored at_ := by
      cases hcs : fields.chunkCs <;> simp_all [ChunkCs.isIgnored]
    rcases ignoredNext_cases at_ c with ⟨at', hin, -⟩ | ⟨hin, -⟩ | ⟨hin, -⟩ | hin
    · simp only [chunkStep, hat, chunkNext, ignoredChunkNext, hin] at h
      cases h
      exact hon _ rfl hignored.symm
    all_goals
      simp only [chunkStep, hat, chunkNext, ignoredChunkNext, hin] at h
      repeat' split at h
      all_goals cases h
    all_goals
      rename_i lineEnd hp
      obtain rfl := eq_of_toU16 hp
      exact .next _
  · have hfirst : fields.chunkCs.isIgnored = false := by simpa using hignored
    have hcs : cs.isIgnored = fields.chunkCs.isIgnored := by
      have := chunkNext_not_ignored c hfirst
      rw [hnext] at this
      rw [this, hfirst]
    simp only [chunkStep, hnext] at h
    cases act <;> dsimp only at h
    case ignoreLine => exact hback hfirst h
    case md5Err =>
      split at h
      · exact hback hfirst h
      · cases h
    case lineEnd =>
      split at h
      · rename_i lineEnd hp
        cases h
        obtain rfl := eq_of_toU16 hp
        exact .next _
      · cases h
    all_goals
      repeat' split at h
      all_goals first | (cases h; exact hon _ rfl hcs) | cases h

/-- **The chunk parser always ends.** -/
theorem chunkScan_ne_stuck (buf : Bytes) (fields : Fields) (p : Nat) :
    exec chunkStep buf (lineFuel buf.length) fields p ≠ .stuck :=
  exec_lines_ne_stuck (fun _ _ _ _ _ _ hmove => chunkStep_line hmove) fields p

/-! ### The parser's memory of the current line -/

theorem take_succ_drop {from_ : Nat} (hc : buf[p]? = some c)
    (hle : from_ ≤ p) : (buf.take (p + 1)).drop from_ = (buf.take p).drop from_ ++ [c] := by
  have hp := (List.getElem?_eq_some_iff.mp hc).1
  rw [List.take_add_one, hc, Option.toList_some, List.drop_append_of_le_length]
  rw [List.length_take]
  omega

theorem toU16_of_lt (hp : p < buf.length) (hsmall : buf.length ≤ 65535) :
    toU16 p = some p :=
  if_pos (by omega)

end Cmogstored
