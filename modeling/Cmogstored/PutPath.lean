import Mathlib.Data.List.Induction
import Cmogstored.HttpReply

/-! `valid_put_path.rl`: the paths a `PUT` may name. The machine is asked only whether it has met the
error state, not whether it has reached a final one, so what it accepts is every beginning of a word
of its language that does not end in a slash. -/

namespace Cmogstored

open List

variable {path slashes : Bytes}

/-- The directory of a device: `/dev` and one or more digits. -/
def IsDevice (path : Bytes) : Prop :=
  ∃ digits, path = ascii "/dev" ++ digits ∧ digits ≠ [] ∧ ∀ d ∈ digits, isDigit d = true

/-- One or more slashes. -/
def IsSlashes (text : Bytes) : Prop := text ≠ [] ∧ ∀ s ∈ text, s = 47

/-- A file below the directory of a device. -/
def IsPutPath (path : Bytes) : Prop :=
  path.getLast? ≠ some 47 ∧ ∃ device slashes c rest, path = device ++ slashes ++ c :: rest ∧
    IsDevice device ∧ IsSlashes slashes ∧ c ≠ 47

/-- A beginning of such a path that stops before the slash behind the device. -/
def CutShort (path : Bytes) : Prop :=
  path = ascii "/d" ∨ path = ascii "/de" ∨ path = ascii "/dev" ∨ IsDevice path

/-! ### What each state has read -/

def PutPathCs.Seen : PutPathCs → Bytes → Prop
  | .word more, path => path ++ more = ascii "/dev" ∧ more ≠ []
  | .digitStart, path => path = ascii "/dev"
  | .digits, path => IsDevice path
  | .slashes, path => ∃ device slashes, path = device ++ slashes ∧ IsDevice device ∧ IsSlashes slashes
  | .rest, path => ∃ device slashes c more, path = device ++ slashes ++ c :: more ∧
      IsDevice device ∧ IsSlashes slashes ∧ c ≠ 47
  | .error, _ => True

theorem IsDevice.push {c : Byte} (h : IsDevice path) (hc : isDigit c = true) :
    IsDevice (path ++ [c]) := by
  obtain ⟨digits, rfl, -, hdigits⟩ := h
  refine ⟨digits ++ [c], append_assoc .., append_ne_nil_of_right_ne_nil _ (by simp), ?_⟩
  intro d hd
  rcases mem_append.mp hd with hd | hd
  · exact hdigits d hd
  · rwa [mem_singleton.mp hd]

theorem IsSlashes.push (h : IsSlashes slashes) : IsSlashes (slashes ++ [47]) := by
  refine ⟨append_ne_nil_of_left_ne_nil h.1 _, ?_⟩
  intro s hs
  rcases mem_append.mp hs with hs | hs
  · exact h.2 s hs
  · exact mem_singleton.mp hs

theorem isSlashes_single : IsSlashes [47] := ⟨by simp, by simp⟩

theorem putPathNext_seen {cs : PutPathCs} (c : Byte) (h : cs.Seen path) :
    (putPathNext cs c).Seen (path ++ [c]) := by
  cases cs with
  | word rest =>
    obtain ⟨hword, hne⟩ := h
    obtain ⟨expected, rest, rfl⟩ := exists_cons_of_ne_nil hne
    rw [putPathNext]
    split
    next hc =>
      rw [beq_iff_eq] at hc
      subst hc
      cases rest with
      | nil => exact hword
      | cons d rest => exact ⟨by rw [append_assoc]; exact hword, cons_ne_nil d rest⟩
    next => trivial
  | digitStart =>
    rw [putPathNext]
    split
    next hc => exact ⟨[c], by rw [show path = ascii "/dev" from h], by simp, by simpa using hc⟩
    next => trivial
  | digits =>
    rw [putPathNext]
    split
    next hc => exact IsDevice.push h hc
    next =>
      split
      next hc => exact ⟨path, [c], rfl, h, beq_iff_eq.mp hc ▸ isSlashes_single⟩
      next => trivial
  | slashes =>
    obtain ⟨device, slashes, rfl, hdevice, hslashes⟩ := h
    rw [putPathNext]
    split
    next hc =>
      rw [beq_iff_eq] at hc
      subst hc
      exact ⟨device, slashes ++ [47], append_assoc .., hdevice, hslashes.push⟩
    next hc => exact ⟨device, slashes, c, [], rfl, hdevice, hslashes, by simpa using hc⟩
  | rest =>
    obtain ⟨device, slashes, d, rest, rfl, hrest⟩ := h
    exact ⟨device, slashes, d, rest ++ [c], by simp, hrest⟩
  | error => trivial

/-- The state after a whole path, by induction on its end. -/
theorem putPath_seen (path : Bytes) :
    (path.foldl putPathNext (.word (ascii "/dev"))).Seen path := by
  induction path using List.reverseRecOn with
  | nil => exact ⟨rfl, by decide⟩
  | append_singleton path c ih =>
    rw [foldl_concat]
    exact putPathNext_seen c ih

/-! ### The paths that lead somewhere -/

theorem putPath_dev : (ascii "/dev").foldl putPathNext (.word (ascii "/dev")) = .digitStart := by
  decide +kernel

theorem foldl_digits {digits : Bytes} (h : ∀ d ∈ digits, isDigit d = true) :
    digits.foldl putPathNext .digits = .digits := by
  induction digits with
  | nil => rfl
  | cons d digits ih =>
    rw [forall_mem_cons] at h
    rw [foldl_cons, putPathNext, if_pos h.1]
    exact ih h.2

theorem foldl_slashes (h : ∀ s ∈ slashes, s = 47) :
    slashes.foldl putPathNext .slashes = .slashes := by
  induction slashes with
  | nil => rfl
  | cons s slashes ih =>
    rw [forall_mem_cons] at h
    rw [foldl_cons, putPathNext, if_pos (beq_iff_eq.mpr h.1)]
    exact ih h.2

theorem foldl_rest (rest : Bytes) : rest.foldl putPathNext .rest = .rest := by
  induction rest with
  | nil => rfl
  | cons c rest ih => exact ih

theorem IsDevice.putPath {device : Bytes} (h : IsDevice device) :
    device.foldl putPathNext (.word (ascii "/dev")) = .digits := by
  obtain ⟨digits, rfl, hne, hdigits⟩ := h
  obtain ⟨d, digits, rfl⟩ := exists_cons_of_ne_nil hne
  rw [forall_mem_cons] at hdigits
  rw [foldl_append, putPath_dev, foldl_cons, putPathNext, if_pos hdigits.1]
  exact foldl_digits hdigits.2

theorem not_isDigit_slash : isDigit 47 = false := by decide

theorem IsSlashes.putPath (h : IsSlashes slashes) :
    slashes.foldl putPathNext .digits = .slashes := by
  obtain ⟨hne, hall⟩ := h
  obtain ⟨s, slashes, rfl⟩ := exists_cons_of_ne_nil hne
  rw [forall_mem_cons] at hall
  obtain ⟨rfl, hall⟩ := hall
  rw [foldl_cons, putPathNext, not_isDigit_slash]
  exact foldl_slashes hall

theorem IsPutPath.putPath (h : IsPutPath path) :
    path.foldl putPathNext (.word (ascii "/dev")) = .rest := by
  obtain ⟨-, device, slashes, c, rest, rfl, hdevice, hslashes, hc⟩ := h
  rw [foldl_append, foldl_append, hdevice.putPath, hslashes.putPath, foldl_cons,
    putPathNext, if_neg (by simpa using hc)]
  exact foldl_rest rest

/-! ### The language -/

theorem mogValidPutPath_iff_last (path : Bytes) : mogValidPutPath path = true ↔
    path ≠ [] ∧ path.getLast? ≠ some 47 ∧
      path.foldl putPathNext (.word (ascii "/dev")) ≠ .error := by
  unfold mogValidPutPath
  cases hlast : path.getLast? with
  | none => simp [List.getLast?_eq_none_iff.mp hlast]
  | some c =>
    have hne : path ≠ [] := by
      rintro rfl
      cases hlast
    simp [hne]

theorem IsDevice.getLast?_ne (h : IsDevice path) : path.getLast? ≠ some 47 := by
  obtain ⟨digits, rfl, hne, hdigits⟩ := h
  rw [List.getLast?_append_of_ne_nil _ hne]
  intro hlast
  have hslash := hdigits 47 (mem_of_getLast? hlast)
  rw [not_isDigit_slash] at hslash
  cases hslash

theorem IsSlashes.getLast? (h : IsSlashes slashes) :
    slashes.getLast? = some 47 := by
  rw [List.getLast?_eq_some_getLast h.1, h.2 _ (getLast_mem h.1)]

theorem CutShort.valid (h : CutShort path) : mogValidPutPath path = true := by
  rcases h with rfl | rfl | rfl | hdevice
  · decide +kernel
  · decide +kernel
  · decide +kernel
  · rw [mogValidPutPath_iff_last, hdevice.putPath]
    refine ⟨?_, hdevice.getLast?_ne, by decide⟩
    obtain ⟨digits, rfl, hne, -⟩ := hdevice
    exact append_ne_nil_of_right_ne_nil _ hne

theorem IsPutPath.valid (h : IsPutPath path) : mogValidPutPath path = true := by
  rw [mogValidPutPath_iff_last, h.putPath]
  refine ⟨?_, h.1, by decide⟩
  obtain ⟨-, device, slashes, c, rest, rfl, -⟩ := h
  exact append_ne_nil_of_right_ne_nil _ (cons_ne_nil c rest)

/-- The beginnings of `/dev` that the machine is still inside of. -/
theorem cutShort_of_word {rest : Bytes} (hpath : path ≠ []) (hlast : path.getLast? ≠ some 47)
    (hword : path ++ rest = ascii "/dev") (hrest : rest ≠ []) : CutShort path := by
  have hlen : path.length + rest.length = 4 := by
    rw [← length_append, hword]
    rfl
  have htake : path = (ascii "/dev").take path.length := by
    rw [← hword, take_left]
  have hpos := length_pos_iff.mpr hpath
  have hrestPos := length_pos_iff.mpr hrest
  obtain h | h | h : path.length = 1 ∨ path.length = 2 ∨ path.length = 3 := by omega
  · rw [h] at htake
    exact absurd (htake ▸ by simp [ascii]) hlast
  · exact Or.inl (htake.trans (by rw [h]; simp [ascii]))
  · exact Or.inr (Or.inl (htake.trans (by rw [h]; simp [ascii])))

/-- **The language of `mog_valid_put_path`.** -/
theorem mogValidPutPath_iff (path : Bytes) :
    mogValidPutPath path = true ↔ IsPutPath path ∨ CutShort path := by
  constructor
  · intro h
    obtain ⟨hne, hlast, hstate⟩ := (mogValidPutPath_iff_last path).mp h
    have hseen := putPath_seen path
    generalize path.foldl putPathNext (.word (ascii "/dev")) = cs at hstate hseen
    cases cs with
    | word rest => exact Or.inr (cutShort_of_word hne hlast hseen.1 hseen.2)
    | digitStart => exact Or.inr (Or.inr (Or.inr (Or.inl hseen)))
    | digits => exact Or.inr (Or.inr (Or.inr (Or.inr hseen)))
    | slashes =>
      obtain ⟨device, slashes, rfl, -, hslashes⟩ := hseen
      rw [List.getLast?_append_of_ne_nil _ hslashes.1] at hlast
      exact absurd hslashes.getLast? hlast
    | rest => exact Or.inl ⟨hlast, hseen⟩
    | error => exact absurd rfl hstate
  · rintro (h | h)
    · exact h.valid
    · exact h.valid

/-- What stops before the slash is no file below a device. -/
theorem CutShort.not_isPutPath (h : CutShort path) : ¬ IsPutPath path := by
  intro hput
  have hrest := hput.putPath
  rcases h with rfl | rfl | rfl | hdevice
  · exact absurd hrest (by decide +kernel)
  · exact absurd hrest (by decide +kernel)
  · exact absurd hrest (by decide +kernel)
  · rw [hdevice.putPath] at hrest
    cases hrest

/-- A path that may be written to begins with a slash. -/
theorem mogValidPutPath_slash (h : mogValidPutPath path = true) : path[0]? = some 47 := by
  have hdevice : ∀ {device : Bytes} (rest : Bytes), IsDevice device → (device ++ rest)[0]? = some 47 := by
    rintro _ rest ⟨digits, rfl, -, -⟩
    rw [show ascii "/dev" = [47, 100, 101, 118] by simp [ascii]]
    rfl
  rcases (mogValidPutPath_iff path).mp h with ⟨-, device, slashes, c, rest, rfl, hdev, -⟩ | rfl | rfl | rfl | hdev
  · rw [append_assoc]
    exact hdevice _ hdev
  · simp [ascii]
  · simp [ascii]
  · simp [ascii]
  · simpa using hdevice [] hdev

/-- **`mog_valid_put_path` tells the files below a device** from every text but the beginnings of
such a path that stop short of the slash: those it takes for files too. -/
theorem mogValidPutPath_isPutPath_iff (path : Bytes) :
    (mogValidPutPath path = true ↔ IsPutPath path) ↔ ¬ CutShort path := by
  constructor
  · intro h hcut
    exact hcut.not_isPutPath (h.mp hcut.valid)
  · intro hcut
    rw [mogValidPutPath_iff]
    exact or_iff_left hcut

/-- A `PUT` of `/dev1` itself passes. -/
theorem mogValidPutPath_device :
    mogValidPutPath (ascii "/dev1") = true ∧ ¬ IsPutPath (ascii "/dev1") :=
  have hdevice : IsDevice (ascii "/dev1") := ⟨ascii "1", by simp [ascii], by decide, by simp [ascii, isDigit]⟩
  ⟨by decide +kernel, CutShort.not_isPutPath (Or.inr (Or.inr (Or.inr hdevice)))⟩

end Cmogstored
