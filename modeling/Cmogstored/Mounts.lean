import Mathlib.Data.List.Nodup
import Cmogstored.IoutilRuns
import Cmogstored.HttpCommon

/-! `mog_mnt_update_util` of `mnt.c`: a line of `iostat` output sets the utilization of each mounted
device whose name starts with the name of the line's disk. -/

namespace Cmogstored

open List MarkSweep Prog

/-! ### The code -/

/-- The fields of `struct mount_entry` that are read. -/
structure MountEntry where
  dev : DevT
  devname : Bytes
  deriving DecidableEq, Repr

structure MntUpdate where
  start : Bytes
  util : Bytes
  deriving DecidableEq, Repr

def meUpdateMatch (me : MountEntry) (update : MntUpdate) : Bool :=
  if me.devname.length < update.start.length then false
  else me.devname.take update.start.length == update.start

/-- The loop of `update_util_each` over the entries of one device number. -/
def updateUtilChain (thisDev : DevT) (update : MntUpdate) :
    List MountEntry → Prog IouOp IouOp.Res Unit
  | [] => pure ()
  | me :: rest => do
    require (thisDev == me.dev)
    if meUpdateMatch me update then ask (IouOp.write thisDev update.util)
    else updateUtilChain thisDev update rest

def updateUtilEach (update : MntUpdate) : List MountEntry → Prog IouOp IouOp.Res Unit
  | [] => pure ()
  | me :: rest => updateUtilChain me.dev update (me :: rest)

/-- `hash_do_for_each` over `by_dev`, whose entries are chained by `me_next`. -/
def updateUtilAll (update : MntUpdate) : List (List MountEntry) → Prog IouOp IouOp.Res Unit
  | [] => pure ()
  | chain :: byDev => do
    updateUtilEach update chain
    updateUtilAll update byDev

/-- The name of a disk and its utilization, as a line of `iostat` gives them. -/
structure DiskUtil where
  disk : Bytes
  util : Bytes
  deriving DecidableEq, Repr

def mogMntUpdateUtil (byDev : List (List MountEntry)) (iostat : DiskUtil) :
    Prog IouOp IouOp.Res Unit :=
  updateUtilAll { start := ascii "/dev/" ++ iostat.disk, util := iostat.util } byDev

/-- One line of output after the other. -/
def updateUtils (byDev : List (List MountEntry)) : List DiskUtil → Prog IouOp IouOp.Res Unit
  | [] => pure ()
  | iostat :: more => do
    mogMntUpdateUtil byDev iostat
    updateUtils byDev more

/-! ### Mounted disks -/

def isLower (c : Byte) : Bool := 97 ≤ c && c ≤ 122

/-- A mount of a disk or of a partition of one: `/dev/`, a disk name of lower-case letters, digits. -/
structure Mount where
  dev : DevT
  disk : Bytes
  digits : Bytes
  disk_lower : ∀ c ∈ disk, isLower c = true
  digits_digit : ∀ c ∈ digits, isDigit c = true

variable {iostat : DiskUtil} {mount : Mount} {lines : List DiskUtil}

def Mount.entry (mount : Mount) : MountEntry :=
  { dev := mount.dev, devname := ascii "/dev/" ++ mount.disk ++ mount.digits }

/-- A mount table without aliases. -/
def byDevOf (mounts : List Mount) : List (List MountEntry) := mounts.map fun mount => [mount.entry]

theorem isLower_not_isDigit {c : Byte} (h : isLower c = true) : isDigit c = false := by
  rw [isLower, Bool.and_eq_true, decide_eq_true_iff, decide_eq_true_iff, UInt8.le_iff_toNat_le,
    UInt8.le_iff_toNat_le] at h
  have hlow : 97 ≤ c.toNat := h.1
  rw [isDigit, Bool.and_eq_false_iff, decide_eq_false_iff_not, decide_eq_false_iff_not,
    UInt8.le_iff_toNat_le, UInt8.le_iff_toNat_le]
  right
  show ¬ c.toNat ≤ 57
  omega

theorem meUpdateMatch_iff (me : MountEntry) (update : MntUpdate) :
    meUpdateMatch me update = true ↔ update.start <+: me.devname := by
  unfold meUpdateMatch
  split
  next hshort =>
    refine iff_of_false Bool.false_ne_true fun hpre => ?_
    have hle := hpre.length_le
    omega
  next => rw [beq_iff_eq, prefix_iff_eq_take, eq_comm]

/-- Letters that start letters and digits start the letters. -/
theorem isPrefix_disk {disk letters digits : Bytes} (hdisk : ∀ c ∈ disk, isLower c = true)
    (hdigits : ∀ c ∈ digits, isDigit c = true) : disk <+: letters ++ digits ↔ disk <+: letters := by
  constructor
  · intro h
    rcases prefix_or_prefix_of_prefix h (prefix_append letters digits) with hpre | hpre
    · exact hpre
    · obtain ⟨more, rfl⟩ := hpre
      have hmore : more <+: digits := (prefix_append_right_inj letters).mp h
      cases more with
      | nil => exact (append_nil letters).symm ▸ prefix_refl letters
      | cons c more =>
        have hlower := hdisk c (by simp)
        have hdigit := hdigits c (hmore.subset mem_cons_self)
        rw [isLower_not_isDigit hlower] at hdigit
        cases hdigit
  · intro h
    exact h.trans (prefix_append ..)

/-- A line of `iostat` is taken for every disk whose name its name starts. -/
theorem Mount.updateMatch_iff (mount : Mount)
    (hlower : ∀ c ∈ iostat.disk, isLower c = true) :
    meUpdateMatch mount.entry { start := ascii "/dev/" ++ iostat.disk, util := iostat.util } = true ↔
      iostat.disk <+: mount.disk := by
  rw [meUpdateMatch_iff, entry, append_assoc, prefix_append_right_inj]
  exact isPrefix_disk hlower mount.digits_digit

/-! ### What is recorded -/

theorem runTable_bind {α β : Type} (p : Prog IouOp IouOp.Res α) (f : α → Prog IouOp IouOp.Res β)
    (table : Table DevT Bytes) :
    runTable (p >>= f) table = (runTable p table).bind fun result => runTable (f result.1) result.2 := by
  induction p generalizing table with
  | ret value => rfl
  | call op next ih => exact ih _ _
  | abort => rfl
  | stuck => rfl

theorem get_put (table : Table DevT Bytes) (dev other : DevT) (util : Bytes) :
    (table.put dev util).get noUtil other = if other = dev then util else table.get noUtil other := by
  unfold Table.get Table.put
  split
  next h => rw [h, Function.update_self]; rfl
  next h => rw [Function.update_of_ne h]

theorem runTable_updateUtilEach (update : MntUpdate) (mount : Mount) (table : Table DevT Bytes) :
    runTable (updateUtilEach update [mount.entry]) table =
      some ((), if meUpdateMatch mount.entry update then table.put mount.dev update.util else table) := by
  rw [updateUtilEach, updateUtilChain, beq_self_eq_true, require_true, ret_bind]
  split <;> rfl

/-- One line sets the disks it is taken for and no other. -/
theorem runTable_updateUtilAll (update : MntUpdate) (mounts : List Mount) (table : Table DevT Bytes) :
    ∃ table', runTable (updateUtilAll update (byDevOf mounts)) table = some ((), table') ∧
      ∀ dev, ((∃ mount ∈ mounts, mount.dev = dev ∧ meUpdateMatch mount.entry update = true) →
          table'.get noUtil dev = update.util) ∧
        ((∀ mount ∈ mounts, mount.dev = dev → meUpdateMatch mount.entry update = false) →
          table'.get noUtil dev = table.get noUtil dev) := by
  induction mounts generalizing table with
  | nil => exact ⟨table, rfl, fun dev => ⟨by simp, fun _ => rfl⟩⟩
  | cons mount mounts ih =>
    obtain ⟨table', hrun, hget⟩ :=
      ih (if meUpdateMatch mount.entry update then table.put mount.dev update.util else table)
    refine ⟨table', ?_, fun dev => ?_⟩
    · rw [byDevOf, map_cons, updateUtilAll, runTable_bind, runTable_updateUtilEach]
      exact hrun
    · obtain ⟨hset, hkeep⟩ := hget dev
      by_cases hrest : ∃ other ∈ mounts, other.dev = dev ∧ meUpdateMatch other.entry update = true
      · refine ⟨fun _ => hset hrest, fun hnone => ?_⟩
        obtain ⟨other, hother, hdev, hmatch⟩ := hrest
        rw [hnone other (mem_cons_of_mem _ hother) hdev] at hmatch
        cases hmatch
      · have hkept := hkeep fun other hother hdev =>
          Bool.eq_false_iff.mpr fun hmatch => hrest ⟨other, hother, hdev, hmatch⟩
        rw [hkept]
        constructor
        · rintro ⟨other, hother, hdev, hmatch⟩
          rcases mem_cons.mp hother with rfl | hother
          · rw [if_pos hmatch, get_put, if_pos hdev.symm]
          · exact absurd ⟨other, hother, hdev, hmatch⟩ hrest
        · intro hnone
          split
          next hmatch =>
            rw [get_put, if_neg]
            rintro rfl
            rw [hnone mount mem_cons_self rfl] at hmatch
            cases hmatch
          next => rfl

/-- The lines taken for a mount's disk. -/
def takenFor (mount : Mount) (lines : List DiskUtil) : List DiskUtil :=
  lines.filter fun iostat => iostat.disk.isPrefixOf mount.disk

/-- The utilization of the last line taken for a mount, or what was recorded before. -/
def lastTaken (mount : Mount) (lines : List DiskUtil) (before : Bytes) : Bytes :=
  ((takenFor mount lines).getLast?.map DiskUtil.util).getD before

theorem lastTaken_cons (mount : Mount) (iostat : DiskUtil) (lines : List DiskUtil) (before : Bytes) :
    lastTaken mount (iostat :: lines) before =
      lastTaken mount lines (if iostat.disk <+: mount.disk then iostat.util else before) := by
  unfold lastTaken takenFor
  split
  next hpre =>
    have htaken : iostat.disk.isPrefixOf mount.disk = true := isPrefixOf_iff_prefix.mpr hpre
    simp only [filter_cons, htaken, if_true, List.getLast?_cons]
    cases (lines.filter fun iostat => iostat.disk.isPrefixOf mount.disk).getLast? <;> rfl
  next hpre =>
    have hnot : iostat.disk.isPrefixOf mount.disk = false := by
      rwa [Bool.eq_false_iff, ne_eq, isPrefixOf_iff_prefix]
    simp only [filter_cons, hnot, Bool.false_eq_true, if_false]

section Lines

variable {mounts : List Mount} (hdevs : (mounts.map Mount.dev).Nodup)
include hdevs

theorem mount_eq_of_dev {other : Mount} (hmount : mount ∈ mounts) (hother : other ∈ mounts)
    (hdev : other.dev = mount.dev) : other = mount :=
  inj_on_of_nodup_map hdevs hother hmount hdev

/-- **After some lines, each mount shows the last line taken for it**, and no other device changes. -/
theorem runTable_updateUtils
    (hlower : ∀ iostat ∈ lines, ∀ c ∈ iostat.disk, isLower c = true) (table : Table DevT Bytes) :
    ∃ table', runTable (updateUtils (byDevOf mounts) lines) table = some ((), table') ∧
      (∀ mount ∈ mounts, table'.get noUtil mount.dev =
        lastTaken mount lines (table.get noUtil mount.dev)) ∧
      ∀ dev, (∀ mount ∈ mounts, mount.dev ≠ dev) → table'.get noUtil dev = table.get noUtil dev := by
  induction lines generalizing table with
  | nil => exact ⟨table, rfl, fun _ _ => rfl, fun _ _ => rfl⟩
  | cons iostat lines ih =>
    obtain ⟨hfirst, hlower⟩ := forall_mem_cons.mp hlower
    obtain ⟨middle, hmiddle, hget⟩ := runTable_updateUtilAll
      { start := ascii "/dev/" ++ iostat.disk, util := iostat.util } mounts table
    obtain ⟨table', hrun, hmounts, hothers⟩ := ih hlower middle
    refine ⟨table', ?_, ?_, ?_⟩
    · rw [updateUtils, mogMntUpdateUtil, runTable_bind, hmiddle]
      exact hrun
    · intro mount hmount
      have hown : middle.get noUtil mount.dev =
          if iostat.disk <+: mount.disk then iostat.util else table.get noUtil mount.dev := by
        obtain ⟨hset, hkeep⟩ := hget mount.dev
        split
        next hpre => exact hset ⟨mount, hmount, rfl, (mount.updateMatch_iff hfirst).mpr hpre⟩
        next hpre =>
          apply hkeep
          intro other hother hdev
          rw [mount_eq_of_dev hdevs hmount hother hdev, Bool.eq_false_iff, ne_eq,
            mount.updateMatch_iff hfirst]
          exact hpre
      rw [hmounts mount hmount, lastTaken_cons, hown]
    · intro dev hdev
      rw [hothers dev hdev]
      exact (hget dev).2 fun mount hmount heq => absurd heq (hdev mount hmount)

end Lines

/-! ### Each mount its own -/

/-- The utilization given for a mount's own disk, or what was recorded before. -/
def ownUtil (mount : Mount) (lines : List DiskUtil) (before : Bytes) : Bytes :=
  ((lines.find? fun iostat => iostat.disk == mount.disk).map DiskUtil.util).getD before

/-- In whatever order the lines come, each mount shows the line of its own disk, a mount without such a
line is as it was, and so is every other device. -/
def ShowsOwn (mounts : List Mount) (lines : List DiskUtil) (table : Table DevT Bytes) : Prop :=
  ∀ order, order.Perm lines →
    ∃ table', runTable (updateUtils (byDevOf mounts) order) table = some ((), table') ∧
      (∀ mount ∈ mounts, table'.get noUtil mount.dev =
        ownUtil mount lines (table.get noUtil mount.dev)) ∧
      ∀ dev, (∀ mount ∈ mounts, mount.dev ≠ dev) → table'.get noUtil dev = table.get noUtil dev

theorem ownUtil_of_mem {before : Bytes}
    (hdisks : (lines.map DiskUtil.disk).Nodup) (hmem : iostat ∈ lines) (hdisk : iostat.disk = mount.disk) :
    ownUtil mount lines before = iostat.util := by
  unfold ownUtil
  cases hfind : lines.find? fun iostat => iostat.disk == mount.disk with
  | none => exact absurd (beq_iff_eq.mpr hdisk) (List.find?_eq_none.mp hfind iostat hmem)
  | some found =>
    have hfound : found.disk = mount.disk := by simpa using List.find?_some hfind
    have hsame : found = iostat := inj_on_of_nodup_map hdisks (mem_of_find?_eq_some hfind)
      hmem (hfound.trans hdisk.symm)
    rw [hsame]
    rfl

theorem lastTaken_eq {before util : Bytes}
    (htaken : ∀ iostat ∈ lines, iostat.disk <+: mount.disk → iostat.util = util)
    (hnone : (∀ iostat ∈ lines, ¬ iostat.disk <+: mount.disk) → before = util) :
    lastTaken mount lines before = util := by
  induction lines generalizing before with
  | nil => exact hnone (by simp)
  | cons iostat lines ih =>
    rw [forall_mem_cons] at htaken
    rw [lastTaken_cons]
    apply ih htaken.2
    intro hrest
    split
    next hpre => exact htaken.1 hpre
    next hpre => exact hnone (forall_mem_cons.mpr ⟨hpre, hrest⟩)

theorem lastTaken_concat (lines : List DiskUtil) (before : Bytes)
    (hpre : iostat.disk <+: mount.disk) : lastTaken mount (lines ++ [iostat]) before = iostat.util := by
  induction lines generalizing before with
  | nil => rw [nil_append, lastTaken_cons, if_pos hpre]; rfl
  | cons first lines ih => rw [cons_append, lastTaken_cons, ih]

/-- **Each mount shows its own disk's utilization**, unless the name of another disk in the list starts
the name of its disk and brings another value. -/
theorem showsOwn_iff {mounts : List Mount} (hdevs : (mounts.map Mount.dev).Nodup)
    {lines : List DiskUtil} (hdisks : (lines.map DiskUtil.disk).Nodup)
    (hlower : ∀ iostat ∈ lines, ∀ c ∈ iostat.disk, isLower c = true) (table : Table DevT Bytes) :
    ShowsOwn mounts lines table ↔
      ∀ mount ∈ mounts, ∀ iostat ∈ lines, iostat.disk <+: mount.disk → iostat.disk ≠ mount.disk →
        iostat.util = ownUtil mount lines (table.get noUtil mount.dev) := by
  constructor
  · -- let the line in question come last
    intro h mount hmount iostat hiostat hpre _
    have horder : (lines.erase iostat ++ [iostat]).Perm lines :=
      (perm_append_singleton ..).trans (perm_cons_erase hiostat).symm
    obtain ⟨table', hrun, hmounts, -⟩ := h _ horder
    obtain ⟨table'', hrun', hmounts', -⟩ := runTable_updateUtils hdevs
      (fun line hline => hlower line (horder.mem_iff.mp hline)) table
    rw [hrun] at hrun'
    cases hrun'
    rw [← hmounts mount hmount, hmounts' mount hmount, lastTaken_concat _ _ hpre]
  · intro h order horder
    obtain ⟨table', hrun, hmounts, hothers⟩ := runTable_updateUtils hdevs
      (fun line hline => hlower line (horder.mem_iff.mp hline)) table
    refine ⟨table', hrun, fun mount hmount => ?_, hothers⟩
    rw [hmounts mount hmount]
    apply lastTaken_eq
    · intro iostat hiostat hpre
      have hmem := horder.mem_iff.mp hiostat
      by_cases hdisk : iostat.disk = mount.disk
      · exact (ownUtil_of_mem hdisks hmem hdisk).symm
      · exact h mount hmount iostat hmem hpre hdisk
    · -- no line is taken for the mount, so none is its own
      intro hnone
      have hfind : lines.find? (fun iostat => iostat.disk == mount.disk) = none := by
        refine List.find?_eq_none.mpr ?_
        intro iostat hiostat hdisk
        rw [beq_iff_eq] at hdisk
        exact hnone iostat (horder.mem_iff.mpr hiostat) (hdisk ▸ prefix_refl _)
      rw [ownUtil, hfind]
      rfl

theorem sda_lower : ∀ c ∈ ascii "sda", isLower c = true := by simp [ascii, isLower]

theorem sdaa_lower : ∀ c ∈ ascii "sdaa", isLower c = true := by simp [ascii, isLower]

theorem one_digit : ∀ c ∈ ascii "1", isDigit c = true := by simp [ascii, isDigit]

/-- The first partitions of two disks. -/
def sdaOne : Mount := ⟨8, ascii "sda", ascii "1", sda_lower, one_digit⟩

def sdaaOne : Mount := ⟨9, ascii "sdaa", ascii "1", sdaa_lower, one_digit⟩

theorem showsOwn_sda : ShowsOwn [sdaOne] [⟨ascii "sda", ascii "10.00"⟩, ⟨ascii "sdaa", ascii "20.00"⟩]
    fun _ => none := by
  refine (showsOwn_iff (by decide +kernel) (by decide +kernel) (by decide +kernel) _).mpr ?_
  decide +kernel

/-- The line of `sda` is taken for `/dev/sdaa1` as well: what that mount shows depends on the order. -/
theorem sda_updates_sdaa :
    (runTable (updateUtils (byDevOf [sdaaOne])
        [⟨ascii "sda", ascii "10.00"⟩, ⟨ascii "sdaa", ascii "20.00"⟩]) fun _ => none).map
      (fun result => result.2.get noUtil sdaaOne.dev) = some (ascii "20.00") ∧
    (runTable (updateUtils (byDevOf [sdaaOne])
        [⟨ascii "sdaa", ascii "20.00"⟩, ⟨ascii "sda", ascii "10.00"⟩]) fun _ => none).map
      (fun result => result.2.get noUtil sdaaOne.dev) = some (ascii "10.00") := by
  decide +kernel

end Cmogstored
