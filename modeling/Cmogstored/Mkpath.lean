import Cmogstored.File
import Cmogstored.PutPath

/-! `mkpath_for.c` on the memory of the path: each `/` is overwritten by a NUL for the time of the
`mkdir` and put back. The loop counts the slashes it finds, not the components between them. -/

namespace Cmogstored

open List Prog

variable {tip c k : Nat} {path device : Bytes}

/-! ### The loop -/

/-- The string a C function finds in `buf`: it ends before the first NUL. -/
def cString (buf : Bytes) : Bytes := buf.takeWhile (· != 0)

/-- `strchr(buf + tip, '/')`, as an index into `buf`. -/
def strchrSlash (buf : Bytes) (tip : Nat) : Option Nat :=
  ((cString (buf.drop tip)).findIdx? (· == 47)).map (tip + ·)

/-- The `for` loop of `mog_mkpath_for`: the result and the memory it leaves. -/
def mkpathLoop : Nat → Nat → Bytes → Option Nat → Io (Except Errno Unit × Bytes)
  | _, _, buf, none => pure (.ok (), buf)
  | 0, _, _, some _ => stuck
  | fuel + 1, i, buf, some c => do
    let (rc, buf) ←
      if 0 < i then do
        let cut := buf.set c 0
        let rc ← sys (.mkdir (cString cut))
        pure (rc, cut.set c 47)
      else pure (.ok (), buf)
    match rc with
    | .ok _ => mkpathLoop fuel (i + 1) buf (strchrSlash buf (c + 1))
    | .error .EEXIST => mkpathLoop fuel (i + 1) buf (strchrSlash buf (c + 1))
    | .error errno => pure (.error errno, buf)

/-- `mog_mkpath_for` with the memory of its argument. -/
def mogMkpathForIn (buf : Bytes) : Io (Except Errno Unit × Bytes) :=
  match strchrSlash buf 1 with
  | none => pure (.error .EACCES, buf)
  | some c => mkpathLoop buf.length 0 buf (some c)

/-! ### Against the list of directories -/

section InPlace

variable {path : Bytes} (hnul : 0 ∉ path)
include hnul

theorem cString_append_nul (rest : Bytes) : cString (path ++ 0 :: rest) = path := by
  have hall : ∀ c ∈ path, (c != 0) = true := by
    intro c hc
    rw [bne_iff_ne]
    rintro rfl
    exact hnul hc
  rw [cString, takeWhile_append_of_pos hall, takeWhile_cons_of_neg (by decide),
    append_nil]

theorem cString_drop (htip : tip ≤ path.length) :
    cString ((path ++ [0]).drop tip) = path.drop tip := by
  rw [drop_append_of_le_length htip]
  exact cString_append_nul (fun h => hnul (mem_of_mem_drop h)) []

/-- The name that `mkdir` gets while the slash at `c` is a NUL. -/
theorem cString_cut (hc : c < path.length) :
    cString ((path ++ [0]).set c 0) = path.take c := by
  rw [set_append_left _ _ hc, set_eq_take_append_cons_drop, if_pos hc, append_assoc,
    cons_append]
  exact cString_append_nul (fun h => hnul (mem_of_mem_take h)) _

omit hnul in
/-- Putting the slash back restores the memory. -/
theorem restored (hc : path[c]? = some 47) :
    ((path ++ [0]).set c 0).set c 47 = path ++ [0] := by
  have hlt : c < path.length := (List.getElem?_eq_some_iff.mp hc).1
  have hget : (path ++ [0])[c]? = some 47 := by rw [List.getElem?_append_left hlt, hc]
  obtain ⟨hlt', hget⟩ := List.getElem?_eq_some_iff.mp hget
  rw [set_set, ← hget, set_getElem_self]

end InPlace

/-- The slashes of `path` from `tip` on. -/
def slashesFrom (path : Bytes) (tip : Nat) : List Nat :=
  (List.range' tip (path.length - tip)).filter fun k => path[k]? == some 47

theorem mkpathDirs_eq (path : Bytes) : mkpathDirs path = (slashesFrom path 1).tail.map path.take := by
  unfold mkpathDirs slashesFrom
  congr 2
  cases path with
  | nil => rfl
  | cons c rest =>
    rw [length_cons, Nat.add_sub_cancel, range_eq_range', List.range'_succ,
      filter_cons_of_neg (by simp)]
    apply filter_congr
    intro k hk
    have hpos : 0 < k := (mem_range'_1.mp hk).1
    simp [hpos]

theorem slashesFrom_none (hnul : 0 ∉ path) (htip : tip ≤ path.length)
    (h : strchrSlash (path ++ [0]) tip = none) : slashesFrom path tip = [] := by
  rw [strchrSlash, cString_drop hnul htip, Option.map_eq_none_iff, List.findIdx?_eq_none_iff] at h
  refine filter_eq_nil_iff.mpr ?_
  intro k hk hslash
  obtain ⟨hle, -⟩ := mem_range'_1.mp hk
  rw [beq_iff_eq] at hslash
  have hmem : 47 ∈ path.drop tip := by
    apply mem_of_getElem? (i := k - tip)
    rw [List.getElem?_drop, Nat.add_sub_cancel' hle, hslash]
  exact absurd (h 47 hmem) (by decide)

/-- `strchr` finds the first of the slashes that are left. -/
theorem slashesFrom_some (hnul : 0 ∉ path) (htip : tip ≤ path.length)
    (h : strchrSlash (path ++ [0]) tip = some c) :
    tip ≤ c ∧ path[c]? = some 47 ∧ slashesFrom path tip = c :: slashesFrom path (c + 1) := by
  rw [strchrSlash, cString_drop hnul htip, Option.map_eq_some_iff] at h
  obtain ⟨i, hi, rfl⟩ := h
  obtain ⟨hlt, hslash, hbefore⟩ := List.findIdx?_eq_some_iff_getElem.mp hi
  rw [length_drop] at hlt
  rw [getElem_drop, beq_iff_eq] at hslash
  have hget : path[tip + i]? = some 47 := by
    rw [List.getElem?_eq_getElem (by omega), hslash]
  refine ⟨Nat.le_add_right .., hget, ?_⟩
  have hrange : List.range' tip (path.length - tip) =
      List.range' tip i ++ (tip + i) :: List.range' (tip + i + 1) (path.length - (tip + i + 1)) := by
    rw [show path.length - tip = i + (path.length - (tip + i + 1) + 1) by omega,
      ← List.range'_append_1, List.range'_succ]
  have hgap : (List.range' tip i).filter (fun k => path[k]? == some 47) = [] := by
    refine filter_eq_nil_iff.mpr ?_
    intro k hk hk'
    obtain ⟨hle, hlt'⟩ := mem_range'_1.mp hk
    have hnot := hbefore (k - tip) (by omega)
    rw [getElem_drop] at hnot
    rw [beq_iff_eq, List.getElem?_eq_getElem (by omega), Option.some.injEq] at hk'
    simp only [Nat.add_sub_cancel' hle, hk'] at hnot
    exact hnot rfl
  rw [slashesFrom, hrange, filter_append, hgap, nil_append,
    filter_cons_of_pos (by rw [hget]; rfl)]
  rfl

/-- From the second slash on, the loop makes one directory for each slash. -/
theorem mkpathLoop_eq (hnul : 0 ∉ path) (i : Nat) :
    ∀ (fuel tip : Nat), tip ≤ path.length → path.length < tip + fuel →
      mkpathLoop fuel (i + 1) (path ++ [0]) (strchrSlash (path ++ [0]) tip) =
        (mkdirs ((slashesFrom path tip).map path.take) >>= fun rc => pure (rc, path ++ [0])) := by
  intro fuel
  induction fuel generalizing i with
  | zero => intro tip htip hfuel; omega
  | succ fuel ih =>
    intro tip htip hfuel
    cases hfound : strchrSlash (path ++ [0]) tip with
    | none =>
      rw [slashesFrom_none hnul htip hfound]
      rfl
    | some c =>
      obtain ⟨hle, hslash, hslashes⟩ := slashesFrom_some hnul htip hfound
      have hlt : c < path.length := (List.getElem?_eq_some_iff.mp hslash).1
      have hnext := ih (i + 1) (c + 1) hlt (by omega)
      rw [hslashes, map_cons, mkpathLoop, if_pos (Nat.succ_pos i), mkdirs]
      dsimp only
      rw [cString_cut hnul hlt, restored hslash]
      simp only [ask_bind, call_bind, pure_eq, ret_bind]
      congr 1
      funext rc
      split
      next => exact hnext
      next => exact hnext
      next errno hexist =>
        cases errno with
        | EEXIST => exact absurd rfl hexist
        | _ => rfl

theorem strchrSlash_eq_none_iff (hnul : 0 ∉ path) (hne : path ≠ []) :
    strchrSlash (path ++ [0]) 1 = none ↔ (path.drop 1).contains 47 = false := by
  rw [strchrSlash, cString_drop hnul (length_pos_iff.mpr hne), Option.map_eq_none_iff,
    List.findIdx?_eq_none_iff, ← Bool.not_eq_true, contains_iff_mem]
  constructor
  · intro h hmem
    exact absurd (h 47 hmem) (by decide)
  · intro h c hc
    rw [beq_eq_false_iff_ne]
    rintro rfl
    exact h hc

/-- **The path cut and put together in place** makes the directories of its list, and is as it was
whenever the function returns. -/
theorem mogMkpathForIn_eq (hnul : 0 ∉ path) (hne : path ≠ []) :
    mogMkpathForIn (path ++ [0]) = (mogMkpathFor path >>= fun rc => pure (rc, path ++ [0])) := by
  have hpos : 1 ≤ path.length := length_pos_iff.mpr hne
  unfold mogMkpathForIn mogMkpathFor
  cases hfound : strchrSlash (path ++ [0]) 1 with
  | none =>
    rw [(strchrSlash_eq_none_iff hnul hne).mp hfound]
    rfl
  | some c =>
    have hcontains : (path.drop 1).contains 47 = true := by
      rw [← Bool.not_eq_false, ← strchrSlash_eq_none_iff hnul hne, hfound]
      exact Option.some_ne_none c
    obtain ⟨-, hslash, hslashes⟩ := slashesFrom_some hnul hpos hfound
    have hlt : c < path.length := (List.getElem?_eq_some_iff.mp hslash).1
    rw [if_pos hcontains, mkpathDirs_eq, hslashes, tail_cons, length_append]
    exact mkpathLoop_eq hnul 0 path.length (c + 1) hlt (by omega)

/-! ### Components -/

/-- The names between the slashes of a path, repeated slashes taken for one. -/
def components (path : Bytes) : List Bytes := (path.splitOnP (· == 47)).filter (· ≠ [])

theorem components_append (before after : Bytes) :
    components (before ++ 47 :: after) = components before ++ components after := by
  rw [components, splitOnP_append_cons _ _ (by decide), filter_append]
  rfl

theorem components_of_not_mem {name : Bytes} (h : 47 ∉ name) :
    components name = if name = [] then [] else [name] := by
  have hall : ∀ c ∈ name, (c == 47) = false := by
    intro c hc
    rw [beq_eq_false_iff_ne]
    rintro rfl
    exact h hc
  rw [components, splitOnP_eq_singleton hall]
  split
  next hnil => rw [hnil]; rfl
  next hne => exact filter_cons_of_pos (by simpa using hne)

theorem components_length_le {name : Bytes} (h : 47 ∉ name) : (components name).length ≤ 1 := by
  rw [components_of_not_mem h]
  split <;> simp

/-- Induction on the slashes of a path. -/
theorem slash_induction {motive : Bytes → Prop} (last : ∀ name, 47 ∉ name → motive name)
    (step : ∀ name rest, 47 ∉ name → motive rest → motive (name ++ 47 :: rest)) (path : Bytes) :
    motive path := by
  by_cases hslash : 47 ∈ path
  · obtain ⟨name, rest, hpath, hname⟩ := eq_append_cons_of_mem hslash
    have hlt : rest.length < path.length := by
      rw [hpath, length_append, length_cons]
      omega
    rw [hpath]
    exact step name rest hname (slash_induction last step rest)
  · exact last path hslash
termination_by path.length

theorem components_ne_nil {c : Byte} (hmem : c ∈ path) (hc : c ≠ 47) :
    components path ≠ [] := by
  induction path using slash_induction with
  | last name hname =>
    rw [components_of_not_mem hname, if_neg (ne_nil_of_mem hmem)]
    exact cons_ne_nil name []
  | step name rest hname ih =>
    rw [components_append]
    rcases mem_append.mp hmem with hmem | hmem
    · rw [components_of_not_mem hname, if_neg (ne_nil_of_mem hmem)]
      exact cons_ne_nil name _
    · rcases mem_cons.mp hmem with rfl | hmem
      · exact absurd rfl hc
      · exact append_ne_nil_of_right_ne_nil _ (ih hmem)

/-- Each proper ancestor of a path stands before one of its slashes. -/
theorem exists_slash_of_take (path : Bytes) (k : Nat) (hpos : 0 < k)
    (hlt : k < (components path).length) :
    ∃ before after, path = before ++ 47 :: after ∧ components before = (components path).take k := by
  induction path using slash_induction generalizing k with
  | last name hname =>
    have hcount := components_length_le hname
    omega
  | step name rest hname ih =>
    rw [components_append, length_append] at hlt
    rw [components_append]
    have hcount := components_length_le hname
    rcases Nat.lt_or_ge (components name).length k with hk | hk
    · -- the ancestor reaches into `rest`
      obtain ⟨before, after, rfl, hbefore⟩ :=
        ih (k - (components name).length) (by omega) (by omega)
      refine ⟨name ++ 47 :: before, after, by simp, ?_⟩
      rw [components_append, hbefore, take_append, take_of_length_le (Nat.le_of_lt hk)]
    · -- it is `name` itself
      have hone : (components name).length = k := by omega
      exact ⟨name, rest, rfl, by rw [← hone, take_left]⟩

/-! ### What is asked for -/

theorem mem_tail_iff {slots : List Nat} (h : slots.Pairwise (· < ·)) :
    k ∈ slots.tail ↔ k ∈ slots ∧ ∃ j ∈ slots, j < k := by
  cases slots with
  | nil => simp
  | cons first slots =>
    rw [pairwise_cons] at h
    rw [tail_cons]
    constructor
    · intro hk
      exact ⟨mem_cons_of_mem _ hk, first, mem_cons_self, h.1 k hk⟩
    · rintro ⟨hk, j, hj, hlt⟩
      rcases mem_cons.mp hk with rfl | hk
      · rcases mem_cons.mp hj with rfl | hj
        · exact absurd hlt (Nat.lt_irrefl _)
        · exact absurd (h.1 j hj) (Nat.lt_asymm hlt)
      · exact hk

theorem mem_slashesFrom :
    k ∈ slashesFrom path tip ↔ tip ≤ k ∧ path[k]? = some 47 := by
  rw [slashesFrom, mem_filter, mem_range'_1, beq_iff_eq]
  constructor
  · rintro ⟨⟨hle, -⟩, hslash⟩
    exact ⟨hle, hslash⟩
  · rintro ⟨hle, hslash⟩
    have hlt : k < path.length := (List.getElem?_eq_some_iff.mp hslash).1
    exact ⟨⟨hle, by omega⟩, hslash⟩

theorem slashesFrom_sorted (path : Bytes) (tip : Nat) : (slashesFrom path tip).Pairwise (· < ·) :=
  (pairwise_lt_range' ..).filter _

/-- The slash before which a directory of the list stands is not the first behind the head. -/
theorem mem_mkpathDirs_iff {dir : Bytes} : dir ∈ mkpathDirs path ↔
    ∃ k j, path[k]? = some 47 ∧ 0 < j ∧ j < k ∧ path[j]? = some 47 ∧ path.take k = dir := by
  rw [mkpathDirs_eq, mem_map]
  constructor
  · rintro ⟨k, hk, hdir⟩
    obtain ⟨hk, j, hj, hlt⟩ := (mem_tail_iff (slashesFrom_sorted path 1)).mp hk
    exact ⟨k, j, (mem_slashesFrom.mp hk).2, (mem_slashesFrom.mp hj).1, hlt, (mem_slashesFrom.mp hj).2,
      hdir⟩
  · rintro ⟨k, j, hk, hpos, hlt, hj, hdir⟩
    refine ⟨k, (mem_tail_iff (slashesFrom_sorted path 1)).mpr ⟨?_, j, ?_, hlt⟩, hdir⟩
    · exact mem_slashesFrom.mpr ⟨by omega, hk⟩
    · exact mem_slashesFrom.mpr ⟨hpos, hj⟩

theorem split_at_slash (h : path[k]? = some 47) :
    path = path.take k ++ 47 :: path.drop (k + 1) := by
  obtain ⟨hlt, hget⟩ := List.getElem?_eq_some_iff.mp h
  rw [← hget, getElem_cons_drop, take_append_drop]

/-- Outer directories come first. -/
theorem mkpathDirs_inOrder (path : Bytes) :
    (mkpathDirs path).Pairwise fun outer inner => components outer <+: components inner := by
  rw [mkpathDirs_eq, pairwise_map]
  refine List.Pairwise.imp_of_mem ?_ (slashesFrom_sorted path 1).tail
  intro j k hj _ hlt
  have hslash := (mem_slashesFrom.mp (mem_of_mem_tail hj)).2
  have hslash' : (path.take k)[j]? = some 47 := by rw [List.getElem?_take_of_lt hlt, hslash]
  rw [split_at_slash hslash', components_append, take_take, Nat.min_eq_left (Nat.le_of_lt hlt)]
  exact prefix_append ..

/-! ### Runs -/

/-- `mkdir` made the directory, or it was there. -/
def MadeIn (trace : Run) (dir : Bytes) : Prop :=
  ⟨.mkdir dir, .ok ()⟩ ∈ trace ∨ ⟨.mkdir dir, .error .EEXIST⟩ ∈ trace

theorem MadeIn.cons {trace : Run} {dir : Bytes} (entry : Σ request : Call, Res request)
    (h : MadeIn trace dir) : MadeIn (entry :: trace) dir :=
  h.imp (mem_cons_of_mem _) (mem_cons_of_mem _)

/-- A run of `mkdirs` asks for an initial part of its list, and for all of it if it succeeds. -/
theorem mkdirs_runs {dirs : List Bytes} {buf : Bytes} {trace : Run}
    {q : Io (Except Errno Unit × Bytes)}
    (h : Runs (mkdirs dirs >>= fun rc => pure (rc, buf)) trace q) :
    (∃ asked, asked <+: dirs ∧ trace.map Sigma.fst = asked.map Call.mkdir) ∧ q ≠ stuck ∧
      ∀ rc left, q = ret (rc, left) → left = buf ∧ (rc = .ok () → ∀ dir ∈ dirs, MadeIn trace dir) := by
  induction dirs generalizing trace with
  | nil =>
    cases h
    refine ⟨⟨[], prefix_refl [], rfl⟩, by rintro ⟨⟩, ?_⟩
    rintro rc left ⟨⟩
    exact ⟨rfl, fun _ dir hdir => by cases hdir⟩
  | cons dir dirs ih =>
    rw [mkdirs, ask_bind, call_bind] at h
    cases h with
    | nil => exact ⟨⟨[], nil_prefix, rfl⟩, by rintro ⟨⟩, by rintro rc left ⟨⟩⟩
    | @cons _ _ answer tail _ hrun =>
      -- what follows a directory that is there now
      have hgoes (hmade : MadeIn (⟨.mkdir dir, answer⟩ :: tail) dir)
          (hrun : Runs (mkdirs dirs >>= fun rc => pure (rc, buf)) tail q) :
          (∃ asked, asked <+: dir :: dirs ∧
            (⟨.mkdir dir, answer⟩ :: tail : Run).map Sigma.fst = asked.map Call.mkdir) ∧
          q ≠ stuck ∧ ∀ rc left, q = ret (rc, left) →
            left = buf ∧ (rc = .ok () →
              ∀ d ∈ dir :: dirs, MadeIn (⟨.mkdir dir, answer⟩ :: tail) d) := by
        obtain ⟨⟨asked, hasked, htrace⟩, hstuck, hends⟩ := ih hrun
        refine ⟨⟨dir :: asked, cons_prefix_cons.mpr ⟨rfl, hasked⟩, ?_⟩, hstuck, ?_⟩
        · rw [map_cons, map_cons, htrace]
        · intro rc left hq
          obtain ⟨hleft, hall⟩ := hends rc left hq
          refine ⟨hleft, fun hrc => forall_mem_cons.mpr ⟨hmade, ?_⟩⟩
          intro d hd
          exact (hall hrc d hd).cons _
      cases answer with
      | ok value => exact hgoes (Or.inl mem_cons_self) hrun
      | error errno =>
        by_cases hexist : errno = .EEXIST
        · subst hexist
          exact hgoes (Or.inr mem_cons_self) hrun
        · have hstop : Runs (ret (.error errno, buf)) tail q := by
            cases errno with
            | EEXIST => exact absurd rfl hexist
            | _ => exact hrun
          cases hstop
          refine ⟨⟨[dir], cons_prefix_cons.mpr ⟨rfl, nil_prefix⟩, rfl⟩,
            by rintro ⟨⟩, ?_⟩
          rintro rc left ⟨⟩
          exact ⟨rfl, by rintro ⟨⟩⟩

/-! ### The ancestors of a path -/

/-- A proper ancestor of `path` below a first-level directory. -/
structure IsAncestor (dir path : Bytes) : Prop where
  below : 2 ≤ (components dir).length
  isPrefix : components dir <+: components path
  proper : components dir ≠ components path

/-- What `mog_mkpath_for` does for `path`, whatever the answers of `mkdir` are. -/
structure MakesAncestors (path : Bytes) : Prop where
  /-- It asks for nothing but ancestors, outer ones first. -/
  asks : ∀ trace q, Runs (mogMkpathForIn (path ++ [0])) trace q →
    ∃ dirs : List Bytes, trace.map Sigma.fst = dirs.map Call.mkdir ∧ (∀ dir ∈ dirs, IsAncestor dir path) ∧
      dirs.Pairwise fun outer inner => components outer <+: components inner
  /-- It succeeds only once all of them are there. -/
  complete : ∀ trace left, Runs (mogMkpathForIn (path ++ [0])) trace (ret (.ok (), left)) →
    ∀ k, 2 ≤ k → k < (components path).length →
      ∃ dir, components dir = (components path).take k ∧ MadeIn trace dir
  /-- It returns, and then the path is as it was. -/
  returns : ∀ trace, ¬ Runs (mogMkpathForIn (path ++ [0])) trace stuck
  restored : ∀ trace rc left, Runs (mogMkpathForIn (path ++ [0])) trace (ret (rc, left)) →
    left = path ++ [0]

theorem mkdirs_allMade (dirs : List Bytes) (buf : Bytes) :
    Runs (mkdirs dirs >>= fun rc => pure (rc, buf)) (dirs.map fun dir => ⟨.mkdir dir, .ok ()⟩)
      (ret (.ok (), buf)) := by
  induction dirs with
  | nil => exact Runs.nil _
  | cons dir dirs ih => exact Runs.cons ih

theorem mkpathDirs_eq_nil (h : ¬ (path.drop 1).contains 47 = true) :
    mkpathDirs path = [] := by
  rw [eq_nil_iff_forall_not_mem]
  intro dir hdir
  obtain ⟨k, j, -, hpos, -, hj, -⟩ := mem_mkpathDirs_iff.mp hdir
  apply h
  rw [contains_iff_mem]
  apply mem_of_getElem? (i := j - 1)
  rw [List.getElem?_drop, Nat.add_sub_cancel' hpos, hj]

/-- Two components take a slash behind the head. -/
theorem exists_slash_of_two (h : 2 ≤ (components path).length) :
    ∃ j, 0 < j ∧ j < path.length ∧ path[j]? = some 47 := by
  cases path with
  | nil => exact absurd h (by decide)
  | cons c rest =>
    by_cases hslash : 47 ∈ rest
    · obtain ⟨j, hj⟩ := mem_iff_getElem?.mp hslash
      refine ⟨j + 1, Nat.succ_pos j, ?_, hj⟩
      rw [length_cons]
      exact Nat.succ_lt_succ (List.getElem?_eq_some_iff.mp hj).1
    · exfalso
      by_cases hc : c = 47
      · rw [hc, ← nil_append (47 :: rest), components_append, length_append] at h
        have hnil : (components []).length = 0 := rfl
        have hrest := components_length_le hslash
        omega
      · have hnone : 47 ∉ c :: rest := by
          rw [mem_cons, not_or]
          exact ⟨Ne.symm hc, hslash⟩
        have hwhole := components_length_le hnone
        omega

/-- The directories of the list include every proper ancestor below the first level. -/
theorem mkpathDirs_complete (htwo : 2 ≤ k)
    (hlt : k < (components path).length) :
    ∃ dir ∈ mkpathDirs path, components dir = (components path).take k := by
  obtain ⟨before, after, hpath, hbefore⟩ := exists_slash_of_take path k (by omega) hlt
  have hlen : (components before).length = k := by
    rw [hbefore, length_take, Nat.min_eq_left (Nat.le_of_lt hlt)]
  obtain ⟨j, hpos, hj, hslash⟩ := exists_slash_of_two (hlen ▸ htwo)
  refine ⟨before, mem_mkpathDirs_iff.mpr ⟨before.length, j, ?_, hpos, hj, ?_, ?_⟩, hbefore⟩
  · rw [hpath, List.getElem?_append_right (Nat.le_refl _), Nat.sub_self]
    rfl
  · rw [hpath, List.getElem?_append_left hj, hslash]
  · rw [hpath, take_left]

/-- All that matters is which directories are on the list. -/
theorem makesAncestors_iff_dirs (hnul : 0 ∉ path) (hne : path ≠ []) :
    MakesAncestors path ↔ ∀ dir ∈ mkpathDirs path, IsAncestor dir path := by
  by_cases hslash : (path.drop 1).contains 47 = true
  · have hprog : mogMkpathForIn (path ++ [0]) =
        (mkdirs (mkpathDirs path) >>= fun rc => pure (rc, path ++ [0])) := by
      rw [mogMkpathForIn_eq hnul hne, mogMkpathFor, if_pos hslash]
    constructor
    · intro h dir hdir
      obtain ⟨dirs, htrace, hanc, -⟩ := h.asks _ _ (hprog ▸ mkdirs_allMade ..)
      rw [map_map] at htrace
      have hdirs : mkpathDirs path = dirs :=
        map_injective_iff.mpr (fun _ _ hsame => Call.mkdir.inj hsame) htrace
      exact hanc dir (hdirs ▸ hdir)
    · intro h
      refine ⟨?_, ?_, ?_, ?_⟩
      · intro trace q hrun
        obtain ⟨⟨asked, hasked, htrace⟩, -⟩ := mkdirs_runs (hprog ▸ hrun)
        exact ⟨asked, htrace, fun dir hdir => h dir (hasked.subset hdir),
          (mkpathDirs_inOrder path).sublist hasked.sublist⟩
      · intro trace left hrun k htwo hlt
        obtain ⟨dir, hdir, hcomponents⟩ := mkpathDirs_complete htwo hlt
        exact ⟨dir, hcomponents, ((mkdirs_runs (hprog ▸ hrun)).2.2 _ _ rfl).2 rfl dir hdir⟩
      · intro trace hrun
        exact (mkdirs_runs (hprog ▸ hrun)).2.1 rfl
      · intro trace rc left hrun
        exact ((mkdirs_runs (hprog ▸ hrun)).2.2 _ _ rfl).1
  · have hprog : mogMkpathForIn (path ++ [0]) = ret (.error .EACCES, path ++ [0]) := by
      rw [mogMkpathForIn_eq hnul hne, mogMkpathFor, if_neg hslash]
      rfl
    rw [mkpathDirs_eq_nil hslash]
    refine iff_of_true ⟨?_, ?_, ?_, ?_⟩ (fun _ h => by cases h)
    · rw [hprog]
      rintro trace q ⟨⟩
      exact ⟨[], rfl, by simp, List.Pairwise.nil⟩
    · rw [hprog]
      rintro trace left ⟨⟩
    · rw [hprog]
      rintro trace ⟨⟩
    · rw [hprog]
      rintro trace rc left ⟨⟩
      rfl

/-- More than one slash behind the device. -/
def SlashesBehindDevice (path : Bytes) : Prop :=
  ∃ device rest, IsDevice device ∧ path = device ++ 47 :: 47 :: rest

theorem IsDevice.slash_zero (h : IsDevice device) {j : Nat}
    (hj : device[j]? = some 47) : j = 0 := by
  obtain ⟨digits, rfl, -, hdigits⟩ := h
  rcases Nat.lt_or_ge j (ascii "/dev").length with hlt | hge
  · rw [List.getElem?_append_left hlt] at hj
    have hall : ∀ i < 4, (ascii "/dev")[i]? = some 47 → i = 0 := by decide +kernel
    exact hall j hlt hj
  · rw [List.getElem?_append_right hge] at hj
    have hslash := hdigits 47 (mem_of_getElem? hj)
    rw [not_isDigit_slash] at hslash
    cases hslash

theorem IsDevice.components_ne_nil (h : IsDevice device) :
    components device ≠ [] := by
  obtain ⟨digits, rfl, -⟩ := h
  apply Cmogstored.components_ne_nil (c := 100)
  · exact mem_append_left _ (by decide +kernel)
  · decide

theorem IsDevice.components_length_le (h : IsDevice device) :
    (components device).length ≤ 1 := by
  by_contra hcount
  obtain ⟨j, hpos, -, hj⟩ := exists_slash_of_two (by omega : 2 ≤ (components device).length)
  have hzero := h.slash_zero hj
  omega

/-- A prefix before a slash of a path that does not end in one is a proper ancestor. -/
theorem isAncestor_of_slash (hlast : path.getLast? ≠ some 47)
    (hslash : path[k]? = some 47) (hbelow : 2 ≤ (components (path.take k)).length) :
    IsAncestor (path.take k) path := by
  have hsplit := split_at_slash hslash
  have hcomponents : components path = components (path.take k) ++ components (path.drop (k + 1)) := by
    rw [← components_append, ← hsplit]
  refine ⟨hbelow, hcomponents ▸ prefix_append .., ?_⟩
  -- the last byte of the path stands behind the slash
  have hrest : path.drop (k + 1) ≠ [] := by
    intro hnil
    apply hlast
    rw [hsplit, hnil, List.getLast?_concat]
  have hbyte : (path.drop (k + 1)).getLast hrest ≠ 47 := by
    intro hc
    apply hlast
    rw [hsplit, List.getLast?_append_of_ne_nil _ (cons_ne_nil _ _),
      List.getLast?_cons_of_ne_nil hrest, List.getLast?_eq_some_getLast hrest, hc]
  have hne := components_ne_nil (getLast_mem hrest) hbyte
  intro heq
  rw [hcomponents] at heq
  exact hne (append_right_eq_self.mp heq.symm)

/-- One slash behind the device, and the file's name or a directory behind that. -/
theorem IsPutPath.exists_device (h : IsPutPath path)
    (hone : ¬ SlashesBehindDevice path) :
    ∃ device c rest, IsDevice device ∧ c ≠ 47 ∧ path = device ++ 47 :: c :: rest := by
  obtain ⟨-, device, slashes, c, rest, hpath, hdevice, ⟨hne, hall⟩, hc⟩ := h
  obtain ⟨s, slashes, rfl⟩ := exists_cons_of_ne_nil hne
  obtain ⟨rfl, hmore⟩ := forall_mem_cons.mp hall
  cases slashes with
  | nil => exact ⟨device, c, rest, hdevice, hc, by rw [hpath]; simp⟩
  | cons s slashes =>
    obtain ⟨rfl, -⟩ := forall_mem_cons.mp hmore
    exact absurd ⟨device, slashes ++ c :: rest, hdevice, by rw [hpath]; simp⟩ hone

theorem IsPutPath.mkpathDirs (h : IsPutPath path) (hone : ¬ SlashesBehindDevice path) :
    ∀ dir ∈ mkpathDirs path, IsAncestor dir path := by
  intro dir hdir
  obtain ⟨k, j, hk, hpos, hlt, hj, rfl⟩ := mem_mkpathDirs_iff.mp hdir
  obtain ⟨device, c, rest, hdevice, hc, hpath⟩ := h.exists_device hone
  apply isAncestor_of_slash h.1 hk
  -- the slash at `j` is not inside the device's name, and the one at `k` comes after `c`
  have hbehind : device.length ≤ j := by
    by_contra hlow
    rw [hpath, List.getElem?_append_left (by omega)] at hj
    have hzero := hdevice.slash_zero hj
    omega
  have hnext : k ≠ device.length + 1 := by
    rintro rfl
    rw [hpath, List.getElem?_append_right (by omega), Nat.add_sub_cancel_left] at hk
    exact hc (Option.some.inj hk)
  obtain ⟨n, rfl⟩ : ∃ n, k = device.length + (n + 1 + 1) := ⟨k - device.length - 2, by omega⟩
  have htake : path.take (device.length + (n + 1 + 1)) = device ++ 47 :: c :: rest.take n := by
    rw [hpath, take_length_add_append, take_succ_cons, take_succ_cons]
  have hname := components_ne_nil (mem_cons_self (a := c) (l := rest.take n)) hc
  have hdev := length_pos_iff.mpr hdevice.components_ne_nil
  rw [htake, components_append, length_append]
  have hrest := length_pos_iff.mpr hname
  omega

/-- Two slashes behind the device, and the directory of the device is on the list. -/
theorem SlashesBehindDevice.mkpathDirs (h : SlashesBehindDevice path) :
    ∃ dir ∈ mkpathDirs path, ¬ IsAncestor dir path := by
  obtain ⟨device, rest, hdevice, rfl⟩ := h
  have hpos : 0 < device.length := by
    rw [length_pos_iff]
    rintro rfl
    exact hdevice.components_ne_nil rfl
  refine ⟨device ++ [47], mem_mkpathDirs_iff.mpr ⟨device.length + 1, device.length, ?_, hpos,
    Nat.lt_succ_self _, ?_, ?_⟩, ?_⟩
  · rw [List.getElem?_append_right (by omega), Nat.add_sub_cancel_left]
    rfl
  · rw [List.getElem?_append_right (Nat.le_refl _), Nat.sub_self]
    rfl
  · rw [take_length_add_append, take_succ_cons, take_zero]
  · intro hanc
    have hbelow := hanc.below
    have hnil : (components []).length = 0 := rfl
    have hdev := hdevice.components_length_le
    rw [components_append, length_append] at hbelow
    omega

theorem CutShort.mkpathDirs (h : CutShort path) : mkpathDirs path = [] := by
  rcases h with rfl | rfl | rfl | hdevice
  · decide +kernel
  · decide +kernel
  · decide +kernel
  · rw [eq_nil_iff_forall_not_mem]
    intro dir hdir
    obtain ⟨k, j, -, hpos, -, hj, -⟩ := mem_mkpathDirs_iff.mp hdir
    have hzero := hdevice.slash_zero hj
    omega

/-- **`mog_mkpath_for` makes the ancestors of the file, and not the directory of the device**, unless
that directory is followed by two slashes: the second is taken for the end of another level. -/
theorem makesAncestors_iff {path : Bytes} (hvalid : mogValidPutPath path = true) (hnul : 0 ∉ path) :
    MakesAncestors path ↔ ¬ SlashesBehindDevice path := by
  rw [makesAncestors_iff_dirs hnul ((mogValidPutPath_iff_last path).mp hvalid).1]
  constructor
  · intro h hslashes
    obtain ⟨dir, hdir, hnot⟩ := hslashes.mkpathDirs
    exact hnot (h dir hdir)
  · intro hone
    rcases (mogValidPutPath_iff path).mp hvalid with hput | hcut
    · exact hput.mkpathDirs hone
    · rw [hcut.mkpathDirs]
      intro dir hdir
      cases hdir

theorem SlashesBehindDevice.isInfix (h : SlashesBehindDevice path) :
    [47, 47] <:+: path := by
  obtain ⟨device, rest, -, rfl⟩ := h
  exact ⟨device, rest, by simp⟩

/-- A file two levels below its device. -/
theorem makesAncestors_twoLevels : MakesAncestors (ascii "/dev1/0/1.fid") :=
  (makesAncestors_iff (by decide +kernel) (by decide +kernel)).mpr
    fun h => absurd h.isInfix (by decide +kernel)

/-- For `/dev7//a` the first directory asked for is that of the device. -/
theorem mkpathFor_makes_device :
    mogValidPutPath (ascii "/dev7//a") = true ∧ 0 ∉ ascii "/dev7//a" ∧
      (∃ next, mogMkpathForIn (ascii "/dev7//a" ++ [0]) = Prog.call (.mkdir (ascii "/dev7/")) next) ∧
      components (ascii "/dev7/") = [ascii "dev7"] ∧ ¬ MakesAncestors (ascii "/dev7//a") := by
  have hnul : 0 ∉ ascii "/dev7//a" := by decide +kernel
  have hne : ascii "/dev7//a" ≠ [] := by decide +kernel
  have hdirs : mkpathDirs (ascii "/dev7//a") = [ascii "/dev7/"] := by decide +kernel
  refine ⟨by decide +kernel, hnul, ?_, by decide +kernel, ?_⟩
  · rw [mogMkpathForIn_eq hnul hne, mogMkpathFor, if_pos (by decide +kernel), hdirs]
    exact ⟨_, rfl⟩
  · rw [makesAncestors_iff_dirs hnul hne, hdirs]
    intro h
    exact absurd (h _ mem_cons_self).below (by decide +kernel)

end Cmogstored
