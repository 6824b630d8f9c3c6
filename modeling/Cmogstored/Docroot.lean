import Cmogstored.Decimal
import Cmogstored.HttpPut

/-! Names below the document root. The `*at` calls get a path without its first byte, relative to the
directory of the document root; it leads out of that directory if it is absolute or if one of its
components is `..`. The code refuses two dots in a row, which is more than it has to. -/

namespace Cmogstored

open List

variable {name path : Bytes} {k : Nat} {ctx : Ctx}

/-! ### Components -/

/-- `name` stands between two slashes of `path`, or between a slash and an end. -/
def IsComponent (name path : Bytes) : Prop :=
  ∃ before after, path = before ++ name ++ after ∧ 47 ∉ name ∧
    (before = [] ∨ before.getLast? = some 47) ∧ (after = [] ∨ after.head? = some 47)

/-- A name that an `*at` call looks up below its directory. -/
structure Below (name : Bytes) : Prop where
  relative : name.head? ≠ some 47
  noParent : ¬ IsComponent (ascii "..") name

theorem IsComponent.isInfix (h : IsComponent name path) : name <:+: path := by
  obtain ⟨before, after, rfl, -⟩ := h
  exact ⟨before, after, rfl⟩

/-- A component of what precedes a slash is a component of the whole. -/
theorem IsComponent.of_take (h : IsComponent name (path.take k))
    (hslash : path[k]? = some 47) : IsComponent name path := by
  obtain ⟨before, after, hpath, hname, hbefore, hafter⟩ := h
  refine ⟨before, after ++ path.drop k, ?_, hname, hbefore, Or.inr ?_⟩
  · rw [← append_assoc, ← hpath, take_append_drop]
  · rcases hafter with rfl | hafter
    · rw [nil_append, List.head?_drop, hslash]
    · rw [List.head?_append, hafter, Option.some_or]

/-- `path_traversal`: `any* ("..") any*` -/
theorem pathTraversalFound_iff (path : Bytes) :
    pathTraversalFound path = true ↔ ascii ".." <:+: path := by
  have hdots : ascii ".." = [46, 46] := rfl
  rw [hdots]
  induction path with
  | nil => simp [pathTraversalFound]
  | cons a path ih =>
    cases path with
    | nil => simp [pathTraversalFound, infix_cons_iff, cons_prefix_cons]
    | cons b rest =>
      rw [pathTraversalFound, Bool.or_eq_true, infix_cons_iff]
      refine or_congr ?_ ih
      rw [Bool.and_eq_true, beq_iff_eq, beq_iff_eq, cons_prefix_cons, cons_prefix_cons]
      exact ⟨fun ⟨ha, hb⟩ => ⟨ha.symm, hb.symm, nil_prefix⟩,
        fun ⟨ha, hb, _⟩ => ⟨ha.symm, hb.symm⟩⟩

/-- Something behind a path without two dots in a row opens no `..`, unless it is one itself. -/
theorem noParent_append {suffix : Bytes} (hpath : ¬ ascii ".." <:+: path) (hslash : 47 ∉ suffix)
    (hne : suffix ≠ []) (hlast : suffix.getLast? ≠ some 46) :
    ¬ IsComponent (ascii "..") (path ++ suffix) := by
  rintro ⟨before, after, hsplit, -, -, rfl | hafter⟩
  · -- the component would be the end of `suffix`
    have hend := congrArg List.getLast? hsplit
    rw [append_nil, List.getLast?_append_of_ne_nil _ hne,
      List.getLast?_append_of_ne_nil _ (by decide)] at hend
    exact hlast hend
  · -- the slash behind the component is one of `path`
    obtain ⟨after, rfl⟩ : ∃ rest, after = 47 :: rest := by
      cases after with
      | nil => cases hafter
      | cons c rest => exact ⟨rest, by rw [Option.some.inj hafter]⟩
    rcases append_eq_append_iff.mp hsplit with ⟨tail, -, hsuffix⟩ | ⟨tail, hstarts, -⟩
    · exact hslash (hsuffix ▸ mem_append_right _ (mem_cons_self ..))
    · refine hpath ⟨before, tail, ?_⟩
      rw [hstarts]

/-! ### Paths of requests -/

/-- A path whose name below the document root is safe. -/
structure Confined (path : Bytes) : Prop where
  slash : path.head? = some 47
  below : Below (path.drop 1)
  chars : ∀ c ∈ path, isPathChar c = true

/-- What `mog_http_path` may return. -/
structure PathOk (path : Bytes) : Prop extends Confined path where
  length : path.length ≤ 37
  noDots : ¬ ascii ".." <:+: path

/-- A temporary name for such a path. -/
structure TmpOk (ctx : Ctx) (name : Bytes) : Prop extends Confined name where
  tmppath : ∃ path result, PathOk path ∧ name = tmppathFor ctx path result

/-- The suffix `tmppath_for` adds. -/
def tmpSuffix (ctx : Ctx) (result : UInt32) : Bytes :=
  ascii "." ++ hexDigits 8 result.toNat ++ ascii "." ++ tmppathFor.decimalPid ctx.pid ++ ascii ".tmp"

theorem tmppathFor_eq (ctx : Ctx) (path : Bytes) (result : UInt32) :
    tmppathFor ctx path result = path ++ tmpSuffix ctx result := by
  simp only [tmppathFor, tmpSuffix, append_assoc]

/-- A character of a name: a letter, a digit, a dot or a dash. -/
def isNamePart (c : Byte) : Bool := isPathChar c && c != 47

theorem hexDigits_isNamePart (digits n : Nat) : ∀ c ∈ hexDigits digits n, isNamePart c = true := by
  induction digits generalizing n with
  | zero => intro c hc; cases hc
  | succ digits ih =>
    intro c hc
    rw [hexDigits, mem_append, mem_singleton] at hc
    rcases hc with hc | rfl
    · exact ih _ c hc
    · have hdigit : n % 16 < 16 := Nat.mod_lt _ (by decide)
      revert hdigit
      generalize n % 16 = digit
      revert digit
      decide

theorem decimalPid_isNamePart (pid : Nat) : ∀ c ∈ tmppathFor.decimalPid pid, isNamePart c = true := by
  intro c hc
  obtain ⟨char, hchar, rfl⟩ := mem_map.mp hc
  rw [Nat.toList_repr] at hchar
  have hdigit := Nat.isDigit_of_mem_toDigits (by decide) (by decide) hchar
  obtain ⟨hlow, hhigh⟩ : 48 ≤ char.toNat ∧ char.toNat ≤ 57 := by
    rw [Char.isDigit, Bool.and_eq_true, decide_eq_true_iff, decide_eq_true_iff] at hdigit
    exact ⟨UInt32.le_iff_toNat_le.mp hdigit.1, UInt32.le_iff_toNat_le.mp hdigit.2⟩
  have hdigits : ∀ k < 10, isNamePart (UInt8.ofNat (48 + k)) = true := by decide
  rw [show char.toNat = 48 + (char.toNat - 48) by omega]
  exact hdigits _ (by omega)

theorem tmpSuffix_isNamePart (ctx : Ctx) (result : UInt32) :
    ∀ c ∈ tmpSuffix ctx result, isNamePart c = true := by
  intro c hc
  simp only [tmpSuffix, mem_append] at hc
  rcases hc with (((hc | hc) | hc) | hc) | hc
  · exact all_eq_true.mp (by decide) c hc
  · exact hexDigits_isNamePart _ _ c hc
  · exact all_eq_true.mp (by decide) c hc
  · exact decimalPid_isNamePart _ c hc
  · exact all_eq_true.mp (by decide) c hc

theorem tmpSuffix_getLast? (ctx : Ctx) (result : UInt32) : (tmpSuffix ctx result).getLast? = some 112 := by
  rw [tmpSuffix, List.getLast?_append_of_ne_nil _ (by decide)]
  rfl

theorem not_mem_tmpSuffix (ctx : Ctx) (result : UInt32) : 47 ∉ tmpSuffix ctx result := fun hmem =>
  absurd (tmpSuffix_isNamePart ctx result 47 hmem) (by decide)

/-- **A temporary name is as safe as the path it is made for.** -/
theorem tmpOk_tmppathFor (ctx : Ctx) (h : PathOk path) (result : UInt32) :
    TmpOk ctx (tmppathFor ctx path result) := by
  have hne : path ≠ [] := by
    rintro rfl
    cases h.slash
  have hlast := tmpSuffix_getLast? ctx result
  have hsuffix : tmpSuffix ctx result ≠ [] := fun hnil => by rw [hnil] at hlast; cases hlast
  have hdrop : (tmppathFor ctx path result).drop 1 = path.drop 1 ++ tmpSuffix ctx result := by
    rw [tmppathFor_eq, drop_append_of_le_length (length_pos_iff.mpr hne)]
  refine ⟨⟨?_, ⟨?_, ?_⟩, ?_⟩, path, result, h, rfl⟩
  · rw [tmppathFor_eq, List.head?_append, h.slash]
    rfl
  · rw [hdrop, List.head?_append]
    cases hhead : (path.drop 1).head? with
    | none => exact fun hdot => by cases hdot
    | some c =>
      intro hslash
      exact h.below.relative (hhead.trans hslash)
  · rw [hdrop]
    refine noParent_append ?_ (not_mem_tmpSuffix ctx result) hsuffix (by rw [hlast]; decide)
    exact fun hdots => h.noDots (hdots.trans (drop_suffix 1 path).isInfix)
  · intro c hc
    rw [tmppathFor_eq, mem_append] at hc
    rcases hc with hc | hc
    · exact h.chars c hc
    · have hpart := tmpSuffix_isNamePart ctx result c hc
      rw [isNamePart, Bool.and_eq_true] at hpart
      exact hpart.1

/-- A name an upload is opened under. -/
def UploadName (ctx : Ctx) (name : Bytes) : Prop := PathOk name ∨ TmpOk ctx name

theorem UploadName.confined (h : UploadName ctx name) : Confined name :=
  h.elim PathOk.toConfined TmpOk.toConfined

/-- What precedes a slash of such a name is a part of the path of the request. -/
theorem UploadName.take_isPrefix (h : UploadName ctx name)
    (hslash : name[k]? = some 47) : ∃ path, PathOk path ∧ name.take k <+: path := by
  rcases h with hpath | htmp
  · exact ⟨name, hpath, take_prefix k name⟩
  · obtain ⟨path, result, hpath, rfl⟩ := htmp.tmppath
    refine ⟨path, hpath, ?_⟩
    rw [tmppathFor_eq] at hslash ⊢
    have hk : k < path.length := by
      by_contra hle
      rw [List.getElem?_append_right (by omega)] at hslash
      exact not_mem_tmpSuffix ctx result (mem_of_getElem? hslash)
    rw [take_append_of_le_length (Nat.le_of_lt hk)]
    exact take_prefix k path

/-- **The directories of an upload are below the document root.** -/
theorem UploadName.pathOk_take (h : UploadName ctx name)
    (hk : 0 < k) (hslash : name[k]? = some 47) : PathOk (name.take k) := by
  obtain ⟨path, hpath, hstarts⟩ := h.take_isPrefix hslash
  have hconfined := h.confined
  have hshift : (name.take k).drop 1 = (name.drop 1).take (k - 1) := drop_take
  refine ⟨⟨?_, ⟨?_, fun hcomponent => ?_⟩, ?_⟩, ?_, fun hdots => ?_⟩
  · rw [List.head?_take, if_neg (by omega)]
    exact hconfined.slash
  · rw [hshift, List.head?_take]
    split
    · exact fun hnone => by cases hnone
    · exact hconfined.below.relative
  · rw [hshift] at hcomponent
    refine hconfined.below.noParent (hcomponent.of_take ?_)
    rw [List.getElem?_drop, Nat.add_sub_cancel' hk]
    exact hslash
  · exact fun c hc => hconfined.chars c (mem_of_mem_take hc)
  · exact Nat.le_trans hstarts.length_le hpath.length
  · exact hpath.noDots (hdots.trans hstarts.isInfix)

/-! ### Names of temporary files -/

theorem hexDigits_length (digits n : Nat) : (hexDigits digits n).length = digits := by
  induction digits generalizing n with
  | zero => rfl
  | succ digits ih => simp [hexDigits, ih]

theorem hexDigits_inj {digits n m : Nat} (hn : n < 16 ^ digits) (hm : m < 16 ^ digits)
    (h : hexDigits digits n = hexDigits digits m) : n = m := by
  induction digits generalizing n m with
  | zero => omega
  | succ digits ih =>
    have hdigit : ∀ a < 16, ∀ b < 16, UInt8.ofNat (if a < 10 then 48 + a else 87 + a) =
        UInt8.ofNat (if b < 10 then 48 + b else 87 + b) → a = b := by decide
    obtain ⟨hrest, hlast⟩ := append_inj h (by simp [hexDigits_length])
    have hmod := hdigit _ (Nat.mod_lt n (by decide)) _ (Nat.mod_lt m (by decide)) (List.cons.inj hlast).1
    have hdiv := ih (by omega) (by omega) hrest
    omega

/-- **A temporary file's name identifies its upload**: it says which destination it is for, which process made it
and which number was drawn. -/
theorem tmppathFor_inj (ctx ctx' : Ctx) (path path' : Bytes) (result result' : UInt32) :
    tmppathFor ctx path result = tmppathFor ctx' path' result' ↔
      path = path' ∧ ctx.pid = ctx'.pid ∧ result = result' := by
  constructor
  · intro h
    -- read from its end: the pid is what stands before the second dot
    have hdots (ctx : Ctx) (path : Bytes) (result : UInt32) : (tmppathFor ctx path result).reverse =
        ascii "pmt." ++ ((ascii (Nat.repr ctx.pid)).reverse ++
          46 :: (path ++ (ascii "." ++ hexDigits 8 result.toNat)).reverse) := by
      simp [tmppathFor, tmppathFor.decimalPid, ascii]
    have hpid (pid : Nat) : ∀ c ∈ (ascii (Nat.repr pid)).reverse, (c != 46) = true := by
      intro c hc
      have hdigit := isDigit_repr c (mem_reverse.mp hc)
      grind [isDigit]
    have hrev := congrArg reverse h
    rw [hdots, hdots] at hrev
    have hrest := append_cancel_left hrev
    have htake := congrArg (takeWhile (· != 46)) hrest
    rw [takeWhile_append_of_pos (hpid _), takeWhile_append_of_pos (hpid _)] at htake
    have hdigits : ascii (Nat.repr ctx.pid) = ascii (Nat.repr ctx'.pid) := by simpa using htake
    have hpids := congrArg decimalValue hdigits
    rw [decimalValue_repr, decimalValue_repr] at hpids
    rw [hdigits, append_right_inj, List.cons.injEq, reverse_inj] at hrest
    obtain ⟨hpath, hhex⟩ := append_inj' hrest.2 (by simp [hexDigits_length])
    have hnumber := hexDigits_inj result.toNat_lt result'.toNat_lt (append_cancel_left hhex)
    exact ⟨hpath, hpids, UInt32.toNat_inj.mp hnumber⟩
  · rintro ⟨rfl, hpid, rfl⟩
    rw [tmppathFor, tmppathFor, hpid]

end Cmogstored
