import Mathlib.Data.List.Nodup
import Cmogstored.Supervise

/-! `inherit.c`: the listeners that a process takes over from the one it replaces, and the environment variable
of `upgrade.c` that names them. -/

namespace Cmogstored

open List Prog

variable {fds : List Int}

/-! ### The variable -/

/-- `mog_upgrade_spawn` behind `mog_pidfile_upgrade_prepare`, up to the fork: `dst`, the entry that becomes the
first one of the environment of the child. -/
def upgradeEnv (ctx : DaemonCtx) : DaemonIo (Option Bytes) := do
  if !(← daemonSys .openMemstream) then pure none
  else if !(← daemonSys (.fputs fdPfx)) then pure none
  else do
    let text ← svcEachEmit ctx.svcFds
    if !(← daemonSys .memstreamClose) then pure none
    else do
      require ((fdPfx ++ text).getLast? = some 44)
      pure (some (fdPfx ++ text).dropLast)

/-- `mog_upgrade_spawn` from the fork on, in the parent. -/
def forkUpgrade (d : Daemon) : Option Bytes → DaemonIo (Pid × Daemon)
  | none => pure (-1, d)
  | some _ => do
    let pid ← daemonSys (.fork .upgrade)
    if 0 < pid.val then do
      let processes ← mogProcessRegister d.processes pid.val MOG_PROC_UPGRADE
      pure (pid.val, { d with processes := processes })
    else pure (pid.val, d)

theorem upgradeFork_eq (ctx : DaemonCtx) (d : Daemon) : upgradeFork ctx d = upgradeEnv ctx >>= forkUpgrade d := by
  unfold upgradeFork upgradeEnv
  rw [bind_assoc]
  congr 1
  funext memstream
  cases memstream with
  | false => rfl
  | true =>
    show (daemonSys (.fputs fdPfx) >>= _) = (daemonSys (.fputs fdPfx) >>= _) >>= _
    rw [bind_assoc]
    congr 1
    funext put
    cases put with
    | false => rfl
    | true =>
      show (svcEachEmit ctx.svcFds >>= _) = (svcEachEmit ctx.svcFds >>= _) >>= _
      rw [bind_assoc]
      congr 1
      funext text
      rw [bind_assoc]
      congr 1
      funext closed
      cases closed with
      | false => rfl
      | true =>
        show (require _ >>= _) = (require _ >>= _) >>= _
        rw [bind_assoc]
        rfl

/-- `getenv("CMOGSTORED_FD")`, where `dst` is the first entry. -/
def getenvFd (dst : Bytes) : Option Bytes :=
  if fdPfx.isPrefixOf dst then some (dst.drop fdPfx.length) else none

/-! ### `inherit.c` -/

/-- `struct listener`; the length of the address is that of its bytes. -/
structure Inherited where
  addr : Bytes
  fd : Fd
  deriving DecidableEq

/-- What `getsockname` and `getnameinfo` answer; `none` and `false` if they fail. -/
structure Sockets where
  sockname : Fd → Option Bytes
  nameinfo : Bytes → Bool

variable {l : Inherited} {env : Sockets}

/-- `register_listen_fd`; `none` once `die` is called. -/
def registerListenFd (env : Sockets) (listeners : List Inherited) (fd : Fd) : Option (List Inherited) := do
  let addr ← env.sockname fd
  if !env.nameinfo addr then none
  else if listeners.any (·.addr = addr) then none
  else some (⟨addr, fd⟩ :: listeners)

/-- The loop of `mog_inherit_init`. -/
def inheritLoop (env : Sockets) : Nat → List Inherited → Bytes → Option (List Inherited)
  | 0, _, _ => none
  | fuel + 1, listeners, tip =>
    let n := strtoul tip
    if n.erange || intMax < n.value then none
    else do
      let listeners ← registerListenFd env listeners n.value
      match n.rest with
      | [] => some listeners
      | endbyte :: rest => if endbyte = 44 then inheritLoop env fuel listeners rest else none

/-- `listeners` as `mog_inherit_init` leaves it; `none` once `die` is called. -/
def mogInheritInit (env : Sockets) : Option Bytes → Option (Option (List Inherited))
  | none => some none
  | some orig => (inheritLoop env (orig.length + 1) [] orig).map some

/-- The table of the listeners, and the descriptors that have been closed. -/
structure Inherit where
  listeners : Option (List Inherited)
  closed : List Fd

/-- `mog_inherit_get`; `none` is -1. `mog_set_cloexec` does not fail on an open descriptor. -/
def mogInheritGet (s : Inherit) (addr : Bytes) : Option Fd × Inherit :=
  match s.listeners with
  | none => (none, s)
  | some listeners =>
    match listeners.find? (·.addr = addr) with
    | none => (none, s)
    | some l => (some l.fd, { s with listeners := some (listeners.eraseP (·.addr = addr)) })

def mogInheritCleanup (s : Inherit) : Inherit :=
  match s.listeners with
  | none => s
  | some listeners => ⟨none, s.closed ++ listeners.map (·.fd)⟩

/-- A sequence of `mog_inherit_get` calls. -/
def inheritGets : List Bytes → Inherit → List (Option Fd) × Inherit
  | [], s => ([], s)
  | addr :: addrs, s =>
    let first := mogInheritGet s addr
    let rest := inheritGets addrs first.2
    (first.1 :: rest.1, rest.2)

/-! ### What is written -/

/-- The listening descriptors of the services. -/
def listenFds (ctx : DaemonCtx) : List Int := ctx.svcFds.flatten.filter (0 ≤ ·)

/-- `"%d,"` for each descriptor -/
def fdsText (fds : List Int) : Bytes := fds.flatMap fun fd => lld fd ++ ascii ","

/-- `fprintf` has failed. -/
def FprintfFails (trace : Trace DaemonCall DaemonRes) : Prop := ∃ text, ⟨.fprintf text, false⟩ ∈ trace

theorem FprintfFails.append_iff {first second : Trace DaemonCall DaemonRes} :
    FprintfFails (first ++ second) ↔ FprintfFails first ∨ FprintfFails second := by
  simp [FprintfFails, exists_or]

/-- The descriptors are written in turn, up to the first `fprintf` that fails. -/
structure FdsEmitted (fds : List Int) (trace : Trace DaemonCall DaemonRes) (more : Bool) (text : Bytes) : Prop where
  more_iff : more = true ↔ ¬ FprintfFails trace
  all : more = true → text = fdsText fds
  part : more = false → ∃ first fd rest, fds = first ++ fd :: rest ∧ text = fdsText first

section FdsEmitted

variable {fds fds' : List Int} {trace trace' : Trace DaemonCall DaemonRes} {more : Bool} {text text' : Bytes}

theorem FdsEmitted.append (h : FdsEmitted fds trace true text) (h' : FdsEmitted fds' trace' more text') :
    FdsEmitted (fds ++ fds') (trace ++ trace') more (text ++ text') := by
  have hnot : ¬ FprintfFails trace := h.more_iff.mp rfl
  obtain rfl := h.all rfl
  refine ⟨?_, fun hmore => ?_, fun hmore => ?_⟩
  · rw [FprintfFails.append_iff, or_iff_right hnot]
    exact h'.more_iff
  · rw [h'.all hmore, fdsText, fdsText, fdsText, flatMap_append]
  · obtain ⟨first, fd, rest, rfl, rfl⟩ := h'.part hmore
    refine ⟨fds ++ first, fd, rest, ?_, ?_⟩
    · rw [append_assoc]
    · rw [fdsText, fdsText, fdsText, flatMap_append]

theorem FdsEmitted.stop (h : FdsEmitted fds trace false text) (fds' : List Int) :
    FdsEmitted (fds ++ fds') trace false text := by
  refine ⟨h.more_iff, nofun, fun hmore => ?_⟩
  obtain ⟨first, fd, rest, rfl, rfl⟩ := h.part hmore
  exact ⟨first, fd, rest ++ fds', by simp, rfl⟩

theorem fdsEmitted_nil : FdsEmitted [] [] true [] :=
  ⟨iff_of_true rfl (by simp [FprintfFails]), fun _ => rfl, nofun⟩

theorem emitFd_emitted {fd : Int} (h : Runs (emitFd fd) trace (ret (more, text))) :
    FdsEmitted ([fd].filter (0 ≤ ·)) trace more text := by
  unfold emitFd at h
  split at h
  · rename_i hneg
    cases h
    rw [filter_cons_of_neg (by simpa using hneg)]
    exact fdsEmitted_nil
  · rename_i hneg
    rw [filter_cons_of_pos (by simpa using hneg)]
    obtain ⟨written, calls, rfl, hcalls⟩ := h.of_ask_bind
    cases written with
    | false =>
      cases hcalls
      exact ⟨iff_of_false Bool.false_ne_true fun hnot => hnot ⟨_, mem_singleton.mpr rfl⟩, nofun,
        fun _ => ⟨[], fd, [], rfl, rfl⟩⟩
    | true =>
      cases hcalls
      exact ⟨iff_of_true rfl (by simp [FprintfFails]), fun _ => by simp [fdsText], nofun⟩

theorem svcEmitFds_emitted (h : Runs (svcEmitFds fds) trace (ret (more, text))) :
    FdsEmitted (fds.filter (0 ≤ ·)) trace more text := by
  induction fds generalizing trace more text with
  | nil =>
    cases h
    exact fdsEmitted_nil
  | cons fd rest ih =>
    rw [show fd :: rest = [fd] ++ rest from rfl, filter_append]
    obtain ⟨first, second, ⟨more', text'⟩, rfl, hfirst, hsecond⟩ := h.of_bind
    have hfirst := emitFd_emitted hfirst
    cases more' with
    | false =>
      cases hsecond
      rw [append_nil]
      exact hfirst.stop _
    | true =>
      obtain ⟨second, third, ⟨more'', text''⟩, rfl, hrest, hthird⟩ := hsecond.of_bind
      cases hthird
      rw [append_nil]
      exact hfirst.append (ih hrest)

theorem svcEachEmit_emitted {svcs : List (List Int)} (h : Runs (svcEachEmit svcs) trace (ret text)) :
    ∃ more, FdsEmitted (svcs.flatten.filter (0 ≤ ·)) trace more text := by
  induction svcs generalizing trace text with
  | nil =>
    cases h
    exact ⟨true, fdsEmitted_nil⟩
  | cons fds rest ih =>
    rw [flatten_cons, filter_append]
    obtain ⟨first, second, ⟨more', text'⟩, rfl, hfirst, hsecond⟩ := h.of_bind
    have hfirst := svcEmitFds_emitted hfirst
    cases more' with
    | false =>
      cases hsecond
      rw [append_nil]
      exact ⟨false, hfirst.stop _⟩
    | true =>
      obtain ⟨second, third, text'', rfl, hrest, hthird⟩ := hsecond.of_bind
      cases hthird
      rw [append_nil]
      obtain ⟨more, hrest⟩ := ih hrest
      exact ⟨more, hfirst.append hrest⟩

end FdsEmitted

/-! ### What is read -/

/-- Descriptors of type `int` that are bound to addresses of their own. -/
structure Listening (env : Sockets) (fds : List Int) : Prop where
  int : ∀ fd ∈ fds, 0 ≤ fd ∧ fd ≤ intMax
  bound : ∀ fd ∈ fds, ∃ addr, env.sockname fd.toNat = some addr ∧ env.nameinfo addr = true
  apart : fds.Pairwise fun a b => env.sockname a.toNat ≠ env.sockname b.toNat

def inheritedOf (env : Sockets) (fd : Int) : Inherited := ⟨(env.sockname fd.toNat).getD [], fd.toNat⟩

theorem lld_eq {fd : Int} (h : 0 ≤ fd) : lld fd = ascii (Nat.repr fd.toNat) := by
  rw [lld, if_neg (Int.not_lt.mpr h), Int.toNat_of_nonneg h |> congrArg Int.natAbs |>.symm, Int.natAbs_natCast]

theorem fdsText_cons (fd : Int) (rest : List Int) : fdsText (fd :: rest) = lld fd ++ 44 :: fdsText rest := by
  simp [fdsText, ascii]

theorem dropLast_fdsText (fd : Int) (rest : List Int) :
    (fdsText (fd :: rest)).dropLast = lld fd ++ if rest = [] then [] else 44 :: (fdsText rest).dropLast := by
  rw [fdsText_cons, dropLast_append_cons]
  split
  · rename_i hrest
    subst hrest
    rfl
  · rename_i hrest
    obtain ⟨fd', rest, rfl⟩ := exists_cons_of_ne_nil hrest
    rw [dropLast_cons_of_ne_nil]
    simp [fdsText_cons]

theorem length_le_fdsText (fds : List Int) : fds.length ≤ (fdsText fds).length := by
  induction fds with
  | nil => exact Nat.le_refl 0
  | cons fd rest ih =>
    rw [fdsText_cons, length_append, length_cons, length_cons]
    omega

/-- **The loop reads back every descriptor that was written.** -/
theorem inheritLoop_fdsText {env : Sockets} {fds : List Int} (h : Listening env fds) (hne : fds ≠ []) {fuel : Nat}
    (hfuel : fds.length ≤ fuel) {table : List Inherited}
    (htable : ∀ l ∈ table, ∀ fd ∈ fds, env.sockname fd.toNat ≠ some l.addr) :
    inheritLoop env fuel table (fdsText fds).dropLast = some ((fds.map (inheritedOf env)).reverse ++ table) := by
  induction fds generalizing fuel table with
  | nil => exact absurd rfl hne
  | cons fd rest ih =>
    obtain ⟨fuel, rfl⟩ := Nat.exists_eq_add_one_of_ne_zero (Nat.ne_zero_of_lt hfuel)
    obtain ⟨hnonneg, hint⟩ := h.int fd mem_cons_self
    obtain ⟨addr, haddr, hname⟩ := h.bound fd mem_cons_self
    have hmax : fd.toNat ≤ intMax := Int.toNat_le.mpr hint
    have hread : strtoul (fdsText (fd :: rest)).dropLast =
        ⟨fd.toNat, false, if rest = [] then [] else 44 :: (fdsText rest).dropLast⟩ := by
      rw [dropLast_fdsText, lld_eq hnonneg]
      apply strtoul_repr (Nat.le_trans hmax (by decide))
      intro c hc
      split at hc
      · cases hc
      · cases hc
        rfl
    have hregister : registerListenFd env table fd.toNat = some (inheritedOf env fd :: table) := by
      have hfresh : ∀ l ∈ table, ¬ l.addr = addr := by
        rintro l hl rfl
        exact htable l hl fd mem_cons_self haddr
      simpa [registerListenFd, inheritedOf, haddr, hname] using hfresh
    rw [inheritLoop, hread]
    simp only [Bool.false_or, decide_eq_true_eq, Nat.not_lt.mpr hmax, if_false, hregister]
    obtain ⟨hfirst, hapart⟩ := pairwise_cons.mp h.apart
    by_cases hrest : rest = []
    · subst hrest
      rfl
    · rw [if_neg hrest]
      have hlistening : Listening env rest := ⟨fun fd hfd => h.int fd (mem_cons_of_mem _ hfd),
        fun fd hfd => h.bound fd (mem_cons_of_mem _ hfd), hapart⟩
      have hloop := @ih hlistening hrest fuel (Nat.le_of_succ_le_succ hfuel) (inheritedOf env fd :: table) <| by
        apply forall_mem_cons.mpr ⟨_, fun l hl fd hfd => htable l hl fd (mem_cons_of_mem _ hfd)⟩
        intro fd' hfd' heq
        apply hfirst fd' hfd'
        rw [heq, inheritedOf, haddr]
        rfl
      rw [map_cons, reverse_cons, append_assoc]
      exact hloop

/-! ### Who gets a listener -/

/-- No two listeners have one address, or one descriptor. -/
structure Distinct (table : List Inherited) : Prop where
  addrs : (table.map (·.addr)).Nodup
  fds : (table.map (·.fd)).Nodup

section Gets

variable {table : List Inherited} {closed : List Fd}

theorem Distinct.filter (h : Distinct table) (p : Inherited → Bool) : Distinct (table.filter p) :=
  ⟨h.addrs.sublist (filter_sublist.map _), h.fds.sublist (filter_sublist.map _)⟩

theorem Distinct.addr_inj (h : Distinct table) {l' : Inherited} (hl : l ∈ table) (hl' : l' ∈ table)
    (heq : l.addr = l'.addr) : l = l' := inj_on_of_nodup_map h.addrs hl hl' heq

theorem Distinct.fd_inj (h : Distinct table) {l' : Inherited} (hl : l ∈ table) (hl' : l' ∈ table)
    (heq : l.fd = l'.fd) : l = l' := inj_on_of_nodup_map h.fds hl hl' heq

theorem eraseP_addr (h : (table.map (·.addr)).Nodup) (addr : Bytes) :
    table.eraseP (·.addr = addr) = table.filter (·.addr ≠ addr) := by
  induction table with
  | nil => rfl
  | cons l rest ih =>
    obtain ⟨hnot, hrest⟩ := nodup_cons.mp h
    by_cases haddr : l.addr = addr
    · subst haddr
      rw [eraseP_cons_of_pos (by simp), filter_cons_of_neg (by simp), eq_comm, filter_eq_self]
      intro l' hl'
      rw [decide_eq_true_iff]
      intro heq
      exact hnot (mem_map.mpr ⟨l', hl', heq⟩)
    · rw [eraseP_cons_of_neg (by simpa using haddr), filter_cons_of_pos (by simpa using haddr), ih hrest]

/-- The listener of the address is handed out, and is gone from the table. -/
theorem mogInheritGet_eq (h : Distinct table) (addr : Bytes) :
    mogInheritGet ⟨some table, closed⟩ addr =
      ((table.find? (·.addr = addr)).map (·.fd), ⟨some (table.filter (·.addr ≠ addr)), closed⟩) := by
  unfold mogInheritGet
  dsimp only
  rw [← eraseP_addr h.addrs]
  cases hfind : table.find? (·.addr = addr) with
  | none =>
    rw [eraseP_of_forall_not (List.find?_eq_none.mp hfind)]
    rfl
  | some l => rfl

theorem addr_of_find {addr : Bytes} (h : table.find? (·.addr = addr) = some l) :
    l ∈ table ∧ l.addr = addr := ⟨mem_of_find?_eq_some h, by simpa using List.find?_some h⟩

theorem find_addr_iff (h : Distinct table) (hl : l ∈ table) (addr : Bytes) :
    (table.find? (·.addr = addr)).map (·.fd) = some l.fd ↔ addr = l.addr := by
  constructor
  · intro hfd
    obtain ⟨l', hfind, hsame⟩ := Option.map_eq_some_iff.mp hfd
    obtain ⟨hl', haddr⟩ := addr_of_find hfind
    rw [← haddr, h.fd_inj hl' hl hsame]
  · rintro rfl
    cases hfind : table.find? (·.addr = l.addr) with
    | none => exact absurd (decide_eq_true rfl) (List.find?_eq_none.mp hfind l hl)
    | some l' =>
      obtain ⟨hl', haddr⟩ := addr_of_find hfind
      rw [h.addr_inj hl' hl haddr]
      rfl

/-- What is left is what nobody asked for. -/
theorem inheritGets_snd (addrs : List Bytes) (h : Distinct table) :
    (inheritGets addrs ⟨some table, closed⟩).2 = ⟨some (table.filter (·.addr ∉ addrs)), closed⟩ := by
  induction addrs generalizing table with
  | nil => simp [inheritGets]
  | cons addr addrs ih =>
    rw [inheritGets, mogInheritGet_eq h]
    dsimp only
    rw [ih (h.filter _), filter_filter]
    congr 3
    funext l
    rw [← Bool.decide_and, decide_eq_decide, mem_cons, not_or, and_comm]

/-- Only listeners of the table are handed out. -/
theorem mem_of_inheritGets (addrs : List Bytes) (h : Distinct table) {fd : Fd}
    (hfd : some fd ∈ (inheritGets addrs ⟨some table, closed⟩).1) : fd ∈ table.map (·.fd) := by
  induction addrs generalizing table with
  | nil => cases hfd
  | cons addr addrs ih =>
    rw [inheritGets, mogInheritGet_eq h, mem_cons] at hfd
    rcases hfd with hfd | hfd
    · obtain ⟨l, hfind, rfl⟩ := Option.map_eq_some_iff.mp hfd.symm
      exact mem_map_of_mem (mem_of_find?_eq_some hfind)
    · exact (filter_sublist.map _).subset (ih (h.filter _) hfd)

/-- A listener goes to the first who asks for its address. -/
theorem inheritGets_fst_iff (addrs : List Bytes) (h : Distinct table) (hl : l ∈ table) (i : Nat) :
    (inheritGets addrs ⟨some table, closed⟩).1[i]? = some (some l.fd) ↔
      addrs[i]? = some l.addr ∧ l.addr ∉ addrs.take i := by
  induction addrs generalizing table i with
  | nil => simp [inheritGets]
  | cons addr addrs ih =>
    rw [inheritGets, mogInheritGet_eq h]
    dsimp only
    cases i with
    | zero =>
      rw [List.getElem?_cons_zero, List.getElem?_cons_zero, Option.some_inj, Option.some_inj, find_addr_iff h hl]
      simp
    | succ i =>
      rw [List.getElem?_cons_succ, List.getElem?_cons_succ, take_succ_cons, mem_cons, not_or]
      by_cases haddr : l.addr = addr
      · apply iff_of_false _ fun hnot => hnot.2.1 haddr
        intro hagain
        have hleft := mem_of_inheritGets addrs (h.filter _) (mem_of_getElem? hagain)
        obtain ⟨l', hl', hfd⟩ := mem_map.mp hleft
        obtain ⟨hl', hne⟩ := mem_filter.mp hl'
        rw [h.fd_inj hl' hl hfd] at hne
        exact of_decide_eq_true hne haddr
      · rw [ih (h.filter _) (mem_filter.mpr ⟨hl, decide_eq_true haddr⟩)]
        simp only [haddr, not_false_iff, true_and]

/-- A listener that nobody asked for is closed, once. -/
theorem count_closed (addrs : List Bytes) (h : Distinct table) (hl : l ∈ table) :
    (mogInheritCleanup (inheritGets addrs ⟨some table, []⟩).2).closed.count l.fd = if l.addr ∈ addrs then 0 else 1 := by
  rw [inheritGets_snd addrs h]
  show (((table.filter (·.addr ∉ addrs)).map (·.fd))).count l.fd = _
  rw [(h.filter _).fds.count]
  split
  · rename_i hmem
    obtain ⟨l', hl', hfd⟩ := mem_map.mp hmem
    obtain ⟨hl', hnot⟩ := mem_filter.mp hl'
    rw [← h.fd_inj hl' hl hfd, if_neg (of_decide_eq_true hnot)]
  · rename_i hmem
    rw [if_pos]
    by_contra hnot
    exact hmem (mem_map_of_mem (mem_filter.mpr ⟨hl, decide_eq_true hnot⟩))

end Gets

/-! ### An upgrade -/

theorem Listening.sublist {fds' : List Int} (h : Listening env fds) (hsub : fds'.Sublist fds) :
    Listening env fds' where
  int fd hfd := h.int fd (hsub.subset hfd)
  bound fd hfd := h.bound fd (hsub.subset hfd)
  apart := h.apart.sublist hsub

theorem Listening.distinct (h : Listening env fds) :
    Distinct (fds.map (inheritedOf env)).reverse := by
  constructor
  · rw [map_reverse, nodup_reverse, map_map, List.Nodup, pairwise_map]
    apply h.apart.imp_of_mem
    intro a b ha hb hne heq
    obtain ⟨addr, haddr, -⟩ := h.bound a ha
    obtain ⟨addr', haddr', -⟩ := h.bound b hb
    have heq : (env.sockname a.toNat).getD [] = (env.sockname b.toNat).getD [] := heq
    rw [haddr, haddr'] at heq hne
    exact hne (congrArg some heq)
  · rw [map_reverse, nodup_reverse, map_map, List.Nodup, pairwise_map]
    exact h.apart.imp fun hne heq => hne (congrArg env.sockname heq)

/-- The variable names the descriptors up to the first `fprintf` that failed. -/
theorem upgradeEnv_runs {ctx : DaemonCtx} {trace : Trace DaemonCall DaemonRes} {dst : Bytes}
    (h : Runs (upgradeEnv ctx) trace (ret (some dst))) :
    ∃ fds, fds ≠ [] ∧ fds <+: listenFds ctx ∧ (fds = listenFds ctx ↔ ¬ FprintfFails trace) ∧
      getenvFd dst = some (fdsText fds).dropLast := by
  obtain ⟨memstream, calls, rfl, hcalls⟩ := h.of_ask_bind
  cases memstream with
  | false => cases hcalls
  | true =>
    obtain ⟨put, calls, rfl, hput⟩ := Runs.of_ask_bind hcalls
    cases put with
    | false => cases hput
    | true =>
      obtain ⟨first, calls, text, rfl, hemit, hclose⟩ := Runs.of_bind hput
      obtain ⟨closed, calls, rfl, hclosed⟩ := hclose.of_ask_bind
      cases closed with
      | false => cases hclosed
      | true =>
        cases hcomma : decide ((fdPfx ++ text).getLast? = some 44) with
        | false =>
          rw [hcomma] at hclosed
          cases hclosed
        | true =>
          rw [hcomma] at hclosed
          cases hclosed
          obtain ⟨more, hemitted⟩ := svcEachEmit_emitted hemit
          have htext : text ≠ [] := by
            rintro rfl
            exact absurd hcomma (by decide)
          have hgetenv : getenvFd (fdPfx ++ text).dropLast = some text.dropLast := by
            rw [dropLast_append_of_ne_nil htext, getenvFd, if_pos (by simp), drop_left]
          have hfails : FprintfFails (⟨.openMemstream, true⟩ :: ⟨.fputs fdPfx, true⟩ ::
              (first ++ [⟨.memstreamClose, true⟩])) ↔ FprintfFails first := by
            simp [FprintfFails]
          cases more with
          | false =>
            obtain ⟨fds, fd, rest, hfds, rfl⟩ := hemitted.part rfl
            refine ⟨fds, ?_, ⟨fd :: rest, hfds.symm⟩, iff_of_false ?_ ?_, hgetenv⟩
            · rintro rfl
              exact htext rfl
            · intro heq
              have hlength := congrArg List.length (heq.trans hfds)
              simp at hlength
            · rw [hfails]
              exact fun hnot => Bool.false_ne_true (hemitted.more_iff.mpr hnot)
          | true =>
            obtain rfl := hemitted.all rfl
            refine ⟨listenFds ctx, ?_, prefix_rfl, iff_of_true rfl ?_, hgetenv⟩
            · intro hnil
              exact htext (congrArg fdsText hnil)
            · rw [hfails]
              exact hemitted.more_iff.mp rfl

/-- The part of the listeners that is carried over is all of them if no descriptor is missing. -/
theorem Listening.eq_of_part {all : List Int} (h : Listening env all) (hpart : fds <+: all)
    (hmem : ∀ fd : Fd, (fd : Int) ∈ all → (fd : Int) ∈ fds) : fds = all := by
  obtain ⟨rest, rfl⟩ := hpart
  cases rest with
  | nil => rw [append_nil]
  | cons fd rest =>
    have hfd : fd ∈ fds ++ fd :: rest := mem_append_right _ mem_cons_self
    have hcast := Int.toNat_of_nonneg (h.int fd hfd).1
    have hbefore := hmem fd.toNat (hcast ▸ hfd)
    rw [hcast] at hbefore
    exact absurd rfl ((pairwise_append.mp h.apart).2.2 fd hbefore fd mem_cons_self)

/-- **Which listeners an upgrade carries over.** The new process never dies over the variable, and takes over all
listeners just if no `fprintf` failed. Each one it took over goes to the first who asks for its address and is not
closed, or nobody asks for it and it is closed once. -/
theorem listeners_survive_iff (env : Sockets) (ctx : DaemonCtx) (h : Listening env (listenFds ctx))
    {trace : Trace DaemonCall DaemonRes} {dst : Bytes} (hrun : Runs (upgradeEnv ctx) trace (ret (some dst))) :
    ∃ table, mogInheritInit env (getenvFd dst) = some (some table) ∧
      ((∀ fd : Fd, fd ∈ table.map (·.fd) ↔ (fd : Int) ∈ listenFds ctx) ↔ ¬ FprintfFails trace) ∧
      ∀ addrs, ∀ l ∈ table, env.sockname l.fd = some l.addr ∧
        (∀ i, (inheritGets addrs ⟨some table, []⟩).1[i]? = some (some l.fd) ↔
          addrs[i]? = some l.addr ∧ l.addr ∉ addrs.take i) ∧
        (mogInheritCleanup (inheritGets addrs ⟨some table, []⟩).2).closed.count l.fd =
          if l.addr ∈ addrs then 0 else 1 := by
  obtain ⟨fds, hne, hpart, hall, hgetenv⟩ := upgradeEnv_runs hrun
  have hlistening := h.sublist hpart.sublist
  have hdistinct := hlistening.distinct
  have hfuel : fds.length ≤ (fdsText fds).dropLast.length + 1 := by
    have hlength := length_le_fdsText fds
    rw [length_dropLast]
    omega
  have hloop := @inheritLoop_fdsText env fds hlistening hne _ hfuel [] nofun
  have hmem : ∀ fd : Fd, fd ∈ ((fds.map (inheritedOf env)).reverse.map (·.fd)) ↔ (fd : Int) ∈ fds := by
    intro fd
    rw [map_reverse, mem_reverse, map_map, mem_map]
    constructor
    · rintro ⟨fd, hfd, rfl⟩
      have hcast := Int.toNat_of_nonneg (hlistening.int fd hfd).1
      exact hcast.symm ▸ hfd
    · exact fun hfd => ⟨fd, hfd, rfl⟩
  refine ⟨(fds.map (inheritedOf env)).reverse, ?_, ?_, fun addrs l hl => ⟨?_, ?_, ?_⟩⟩
  · rw [hgetenv, mogInheritInit, hloop, append_nil]
    rfl
  · rw [← hall]
    constructor
    · exact fun hsame => h.eq_of_part hpart fun fd hfd => (hmem fd).mp ((hsame fd).mpr hfd)
    · intro heq fd
      rw [hmem, heq]
  · obtain ⟨fd, hfd, rfl⟩ := mem_map.mp (mem_reverse.mp hl)
    obtain ⟨addr, haddr, -⟩ := hlistening.bound fd hfd
    rw [inheritedOf, haddr]
    rfl
  · exact inheritGets_fst_iff addrs hdistinct hl
  · exact count_closed addrs hdistinct hl

/-- A service with a `mgmt` and an `httpget` listener. -/
def twoListeners : DaemonCtx := ⟨1, [[3, -1, 4]]⟩

def twoSockets : Sockets := ⟨fun fd => if fd = 3 then some [1] else if fd = 4 then some [2] else none, fun _ => true⟩

theorem twoListeners_listening : Listening twoSockets (listenFds twoListeners) := by
  refine ⟨by decide, fun fd hfd => ?_, by decide⟩
  have hfd : fd ∈ [(3 : Int), 4] := hfd
  rcases mem_cons.mp hfd with rfl | hfd
  · exact ⟨[1], rfl, rfl⟩
  · obtain rfl := mem_singleton.mp hfd
    exact ⟨[2], rfl, rfl⟩

theorem listeners_survive_two :
    ∃ table, mogInheritInit twoSockets (getenvFd (ascii "CMOGSTORED_FD=3,4")) = some (some table) ∧
      ∀ fd : Fd, fd ∈ table.map (·.fd) ↔ (fd : Int) ∈ listenFds twoListeners := by
  have hrun : Runs (upgradeEnv twoListeners) [⟨.openMemstream, true⟩, ⟨.fputs fdPfx, true⟩,
      ⟨.fprintf (lld 3 ++ ascii ","), true⟩, ⟨.fprintf (lld 4 ++ ascii ","), true⟩, ⟨.memstreamClose, true⟩]
      (ret (some (ascii "CMOGSTORED_FD=3,4"))) := .cons (.cons (.cons (.cons (.cons (.nil _)))))
  obtain ⟨table, hinit, hall, -⟩ := listeners_survive_iff twoSockets twoListeners twoListeners_listening hrun
  exact ⟨table, hinit, hall.mpr (by simp [FprintfFails])⟩

/-- There is no memory for the second number: the upgrade goes on, and one listener is lost. -/
theorem listener_lost :
    Runs (upgradeEnv twoListeners) [⟨.openMemstream, true⟩, ⟨.fputs fdPfx, true⟩, ⟨.fprintf (lld 3 ++ ascii ","), true⟩,
        ⟨.fprintf (lld 4 ++ ascii ","), false⟩, ⟨.memstreamClose, true⟩] (ret (some (ascii "CMOGSTORED_FD=3"))) ∧
      mogInheritInit twoSockets (getenvFd (ascii "CMOGSTORED_FD=3")) = some (some [⟨[1], 3⟩]) ∧
      listenFds twoListeners = [3, 4] :=
  ⟨.cons (.cons (.cons (.cons (.cons (.nil _))))), by decide, by decide⟩

end Cmogstored
