import Cmogstored.MarkSweep
import Cmogstored.Types

/-! `ioutil.c`: the utilization of each device, in a hash table of allocated entries. The memory is
explicit: to read, write or free an entry that is not allocated is a fault, and so is a failed
assertion. What runs under `iou_lock` is one section; the hash table promises no order, so the order
in which a section walks it is an argument, and so is the address `xmalloc` returns. -/

namespace Cmogstored

open List

abbrev Ptr := Nat

/-- `dev_t` -/
abbrev DevT := UInt64

structure Ioutil where
  stDev : DevT
  inUse : Bool
  freeNext : Option Ptr
  util : Bytes
  deriving DecidableEq, Repr

/-- The allocated entries and the pointers in `dev_iou`. -/
structure Store where
  heap : Ptr → Option Ioutil
  table : List Ptr

inductive Fault where
  /-- Memory that is not allocated is read, written or freed. -/
  | badPointer
  /-- `free_next set` -/
  | freeNextSet
  /-- `freelist found does not match` -/
  | mismatch
  /-- `hash_insert_if_absent` did not insert. -/
  | notInserted
  | endless
  deriving DecidableEq, Repr

/-- What a section computes: a value and the store, or a fault. -/
abbrev Mem := StateT Store (Except Fault)

/-! ### Memory -/

def deref (p : Ptr) : Mem Ioutil := fun s =>
  match s.heap p with
  | some iou => .ok (iou, s)
  | none => .error .badPointer

def assign (p : Ptr) (f : Ioutil → Ioutil) : Mem Unit := fun s =>
  match s.heap p with
  | some iou => .ok ((), { s with heap := Function.update s.heap p (some (f iou)) })
  | none => .error .badPointer

def malloc (p : Ptr) (iou : Ioutil) : Mem Unit := fun s =>
  .ok ((), { s with heap := Function.update s.heap p (some iou) })

def free (p : Ptr) : Mem Unit := fun s =>
  match s.heap p with
  | some _ => .ok ((), { s with heap := Function.update s.heap p none })
  | none => .error .badPointer

def check (condition : Bool) (fault : Fault) : Mem Unit := fun s =>
  if condition then .ok ((), s) else .error fault

/-! ### `lib/hash.h` -/

/-- Compares by `iou_cmp`, which reads each entry it passes. -/
def findIn (dev : DevT) : List Ptr → Mem (Option Ptr)
  | [] => pure none
  | p :: rest => do
    if (← deref p).stDev = dev then pure (some p) else findIn dev rest

def hashLookup (dev : DevT) : Mem (Option Ptr) := do findIn dev (← get).table

def hashInsertIfAbsent (p : Ptr) : Mem Bool := do
  match ← hashLookup (← deref p).stDev with
  | some _ => pure false
  | none =>
    modify fun s => { s with table := p :: s.table }
    pure true

def hashDelete (p : Ptr) : Mem (Option Ptr) := do
  let found ← hashLookup (← deref p).stDev
  match found with
  | some q => modify fun s => { s with table := s.table.erase q }
  | none => pure ()
  pure found

/-! ### The sections -/

def noUtil : Bytes := ascii "-"

def iouVivify (alloc : Ptr) (dev : DevT) : Mem Ptr := do
  let p ←
    match ← hashLookup dev with
    | some p => pure p
    | none =>
      malloc alloc { stDev := dev, inUse := false, freeNext := none, util := noUtil }
      check (← hashInsertIfAbsent alloc) .notInserted
      pure alloc
  assign p fun iou => { iou with inUse := true }
  pure p

def iouRead (alloc : Ptr) (dev : DevT) : Mem Bytes := do
  let p ← iouVivify alloc dev
  pure (← deref p).util

def iouWrite (alloc : Ptr) (dev : DevT) (util : Bytes) : Mem Unit := do
  let p ← iouVivify alloc dev
  assign p fun iou => { iou with util := util }

def iouActive (alloc : Ptr) (dev : DevT) : Mem Unit := do
  let _ ← iouVivify alloc dev

/-- `cleanup_begin_i` for each entry. -/
def cleanupBegin : List Ptr → Mem Unit
  | [] => pure ()
  | p :: order => do
    assign p fun iou => { iou with inUse := false }
    cleanupBegin order

def freelistAppend (head : Option Ptr) (p : Ptr) : Mem (Option Ptr) := do
  let iou ← deref p
  if iou.inUse then pure head
  else
    check (iou.freeNext == none) .freeNextSet
    assign p fun iou => { iou with freeNext := head }
    pure (some p)

def freelistBuild : Option Ptr → List Ptr → Mem (Option Ptr)
  | head, [] => pure head
  | head, p :: order => do freelistBuild (← freelistAppend head p) order

/-- Releases the items in the free list. -/
def freelistRelease : Nat → Option Ptr → Mem Unit
  | _, none => pure ()
  | 0, some _ => throw .endless
  | fuel + 1, some p => do
    let next := (← deref p).freeNext
    let found ← hashDelete p
    check (found == some p) .mismatch
    free p
    freelistRelease fuel next

def cleanupFinish (order : List Ptr) : Mem Unit := do
  let fl ← freelistBuild none order
  freelistRelease order.length fl

/-! ### Running the memory operations -/

theorem Mem.bind_ok {α β : Type} {x : Mem α} {f : α → Mem β} {s s' : Store} {value : α}
    (h : x s = .ok (value, s')) : (x >>= f) s = f value s' := by
  show Except.bind (x s) (fun result => f result.1 result.2) = f value s'
  rw [h]
  rfl

theorem deref_ok {p : Ptr} {iou : Ioutil} {s : Store} (h : s.heap p = some iou) :
    deref p s = .ok (iou, s) := by
  rw [deref, h]

theorem assign_ok {p : Ptr} {iou : Ioutil} {s : Store} {f : Ioutil → Ioutil} (h : s.heap p = some iou) :
    assign p f s = .ok ((), { s with heap := Function.update s.heap p (some (f iou)) }) := by
  rw [assign, h]

theorem free_ok {p : Ptr} {iou : Ioutil} {s : Store} (h : s.heap p = some iou) :
    free p s = .ok ((), { s with heap := Function.update s.heap p none }) := by
  rw [free, h]

theorem check_ok {condition : Bool} {fault : Fault} {s : Store} (h : condition = true) :
    check condition fault s = .ok ((), s) := if_pos h

/-- The pointer whose entry has the key `dev`. -/
def Store.isFor (s : Store) (dev : DevT) (p : Ptr) : Bool := (s.heap p).map Ioutil.stDev == some dev

theorem findIn_ok {dev : DevT} {s : Store} {slots : List Ptr} (h : ∀ p ∈ slots, ∃ iou, s.heap p = some iou) :
    findIn dev slots s = .ok (slots.find? (s.isFor dev), s) := by
  induction slots with
  | nil => rfl
  | cons p rest ih =>
    obtain ⟨⟨iou, hiou⟩, hrest⟩ := forall_mem_cons.mp h
    rw [findIn, Mem.bind_ok (deref_ok hiou)]
    by_cases hdev : iou.stDev = dev
    · rw [if_pos hdev, List.find?_cons_of_pos (by simp [Store.isFor, hiou, hdev])]
      rfl
    · rw [if_neg hdev, List.find?_cons_of_neg (by simp [Store.isFor, hiou, hdev])]
      exact ih hrest

/-! ### The table behind the memory -/

/-- The pointers in the table are distinct, allocated, and have distinct keys. -/
structure Store.Wf (s : Store) : Prop where
  nodup : s.table.Nodup
  live : ∀ p ∈ s.table, ∃ iou, s.heap p = some iou
  unique : ∀ p ∈ s.table, ∀ q ∈ s.table, ∀ dev, s.isFor dev p = true → s.isFor dev q = true → p = q

theorem Store.Wf.hashLookup_ok {s : Store} (h : s.Wf) (dev : DevT) :
    hashLookup dev s = .ok (s.table.find? (s.isFor dev), s) := findIn_ok h.live

/-- The entry of `p` is found under its key. -/
theorem Store.Wf.find_eq {s : Store} (h : s.Wf) {p : Ptr} {dev : DevT} (hp : p ∈ s.table)
    (hdev : s.isFor dev p = true) : s.table.find? (s.isFor dev) = some p := by
  cases hfind : s.table.find? (s.isFor dev) with
  | none => exact absurd hdev (List.find?_eq_none.mp hfind p hp)
  | some q =>
    rw [h.unique q (mem_of_find?_eq_some hfind) p hp dev (List.find?_some hfind) hdev]

theorem Store.Wf.not_mem_of_free {s : Store} (h : s.Wf) {p : Ptr} (hfree : s.heap p = none) :
    p ∉ s.table := by
  intro hp
  obtain ⟨iou, hiou⟩ := h.live p hp
  rw [hfree] at hiou
  cases hiou

theorem Store.isFor_update_of_ne {s : Store} {p q : Ptr} (hne : q ≠ p) {entry : Option Ioutil}
    {slots : List Ptr} {dev : DevT} :
    Store.isFor ⟨Function.update s.heap p entry, slots⟩ dev q = s.isFor dev q := by
  simp only [isFor, Function.update_of_ne hne]

/-- Memory that the table does not point to may change. -/
theorem Store.Wf.update_heap {s : Store} (h : s.Wf) {p : Ptr} (hp : p ∉ s.table)
    (entry : Option Ioutil) : Store.Wf ⟨Function.update s.heap p entry, s.table⟩ := by
  have hne : ∀ q ∈ s.table, q ≠ p := fun q hq => ne_of_mem_of_not_mem hq hp
  refine ⟨h.nodup, ?_, ?_⟩
  · intro q hq
    obtain ⟨iou, hiou⟩ := h.live q hq
    exact ⟨iou, (Function.update_of_ne (hne q hq) ..).trans hiou⟩
  · intro q hq r hr dev hqdev hrdev
    rw [isFor_update_of_ne (hne q hq)] at hqdev
    rw [isFor_update_of_ne (hne r hr)] at hrdev
    exact h.unique q hq r hr dev hqdev hrdev

open MarkSweep (Table)

/-- The store holds the entries of `table`, none of them in a free list. -/
structure Store.Holds (s : Store) (table : Table DevT Bytes) : Prop extends s.Wf where
  entry : ∀ p ∈ s.table, ∀ iou, s.heap p = some iou →
    iou.freeNext = none ∧ table iou.stDev = some (iou.inUse, iou.util)
  covers : ∀ dev entry, table dev = some entry → ∃ p ∈ s.table, s.isFor dev p = true

theorem holds_empty : (Store.mk (fun _ => none) []).Holds (fun _ => none) :=
  ⟨⟨nodup_nil, by simp, by simp⟩, by simp, by simp⟩

theorem Store.isFor_iff {s : Store} {dev : DevT} {p : Ptr} :
    s.isFor dev p = true ↔ ∃ iou, s.heap p = some iou ∧ iou.stDev = dev := by
  rw [isFor, beq_iff_eq, Option.map_eq_some_iff]

/-- An assignment that keeps the key changes one entry of the table. -/
theorem Store.Holds.assign {s : Store} {table : Table DevT Bytes} (h : s.Holds table) {p : Ptr}
    {iou iou' : Ioutil} (hp : p ∈ s.table) (hiou : s.heap p = some iou) (hdev : iou'.stDev = iou.stDev)
    (hnext : iou'.freeNext = none) :
    Store.Holds { s with heap := Function.update s.heap p (some iou') }
      (Function.update table iou.stDev (some (iou'.inUse, iou'.util))) := by
  have hfor : ∀ dev q, Store.isFor { s with heap := Function.update s.heap p (some iou') } dev q =
      s.isFor dev q := by
    intro dev q
    by_cases hq : q = p
    · subst hq
      simp [isFor, hiou, hdev]
    · simp [isFor, Function.update_of_ne hq]
  refine ⟨⟨h.nodup, ?_, ?_⟩, ?_, ?_⟩
  · intro q hq
    by_cases hqp : q = p
    · exact ⟨iou', by rw [hqp]; exact Function.update_self ..⟩
    · obtain ⟨entry, hentry⟩ := h.live q hq
      exact ⟨entry, by rw [← hentry]; exact Function.update_of_ne hqp ..⟩
  · intro q hq r hr dev hqdev hrdev
    rw [hfor] at hqdev hrdev
    exact h.unique q hq r hr dev hqdev hrdev
  · intro q hq entry hentry
    by_cases hqp : q = p
    · subst hqp
      have hentry' : iou' = entry := by simpa using hentry
      subst hentry'
      rw [hdev, Function.update_self]
      exact ⟨hnext, rfl⟩
    · have hentry' : s.heap q = some entry := by
        rw [← hentry]
        exact (Function.update_of_ne hqp ..).symm
      have hne : entry.stDev ≠ iou.stDev := by
        intro hsame
        refine hqp (h.unique q hq p hp iou.stDev ?_ ?_)
        · exact isFor_iff.mpr ⟨entry, hentry', hsame⟩
        · exact isFor_iff.mpr ⟨iou, hiou, rfl⟩
      rw [Function.update_of_ne hne]
      exact h.entry q hq entry hentry'
  · intro dev entry hentry
    by_cases hsame : dev = iou.stDev
    · exact ⟨p, hp, by rw [hfor]; exact isFor_iff.mpr ⟨iou, hiou, hsame.symm⟩⟩
    · rw [Function.update_of_ne hsame] at hentry
      obtain ⟨q, hq, hqdev⟩ := h.covers dev entry hentry
      exact ⟨q, hq, by rw [hfor]; exact hqdev⟩

/-- A new entry, at an address that was not in use. -/
theorem Store.Holds.insert {s : Store} {table : Table DevT Bytes} (h : s.Holds table) {p : Ptr}
    {iou : Ioutil} (hfresh : s.heap p = none) (habsent : table iou.stDev = none)
    (hnext : iou.freeNext = none) :
    Store.Holds ⟨Function.update s.heap p (some iou), p :: s.table⟩
      (Function.update table iou.stDev (some (iou.inUse, iou.util))) := by
  have hnew := h.not_mem_of_free hfresh
  have hold : ∀ q ∈ s.table, Function.update s.heap p (some iou) q = s.heap q := by
    intro q hq
    refine Function.update_of_ne ?_ ..
    rintro rfl
    exact hnew hq
  have hother : ∀ q ∈ s.table, ∀ entry, s.heap q = some entry → entry.stDev ≠ iou.stDev := by
    intro q hq entry hentry hsame
    have hheld := (h.entry q hq entry hentry).2
    rw [hsame, habsent] at hheld
    cases hheld
  refine ⟨⟨nodup_cons.mpr ⟨hnew, h.nodup⟩, ?_, ?_⟩, ?_, ?_⟩
  · refine forall_mem_cons.mpr ⟨⟨iou, Function.update_self ..⟩, ?_⟩
    intro q hq
    obtain ⟨entry, hentry⟩ := h.live q hq
    exact ⟨entry, (hold q hq).trans hentry⟩
  · intro q hq r hr dev hqdev hrdev
    obtain ⟨first, hfirst, hfirstDev⟩ := isFor_iff.mp hqdev
    obtain ⟨second, hsecond, hsecondDev⟩ := isFor_iff.mp hrdev
    rcases mem_cons.mp hq with rfl | hq'
    · rcases mem_cons.mp hr with rfl | hr'
      · rfl
      · obtain rfl : iou = first := by simpa using hfirst
        have hne := hother r hr' second ((hold r hr').symm.trans hsecond)
        exact absurd (hsecondDev.trans hfirstDev.symm) hne
    · rcases mem_cons.mp hr with rfl | hr'
      · obtain rfl : iou = second := by simpa using hsecond
        have hne := hother q hq' first ((hold q hq').symm.trans hfirst)
        exact absurd (hfirstDev.trans hsecondDev.symm) hne
      · refine h.unique q hq' r hr' dev ?_ ?_
        · exact isFor_iff.mpr ⟨first, (hold q hq').symm.trans hfirst, hfirstDev⟩
        · exact isFor_iff.mpr ⟨second, (hold r hr').symm.trans hsecond, hsecondDev⟩
  · intro q hq entry hentry
    rcases mem_cons.mp hq with rfl | hq
    · obtain rfl : iou = entry := by simpa using hentry
      exact ⟨hnext, Function.update_self ..⟩
    · have hentry' : s.heap q = some entry := (hold q hq).symm.trans hentry
      rw [Function.update_of_ne (hother q hq entry hentry')]
      exact h.entry q hq entry hentry'
  · intro dev entry hentry
    by_cases hdev : dev = iou.stDev
    · exact ⟨p, mem_cons_self, isFor_iff.mpr ⟨iou, Function.update_self .., hdev.symm⟩⟩
    · rw [Function.update_of_ne hdev] at hentry
      obtain ⟨q, hq, hqdev⟩ := h.covers dev entry hentry
      obtain ⟨found, hfound, hfoundDev⟩ := isFor_iff.mp hqdev
      exact ⟨q, mem_cons_of_mem _ hq, isFor_iff.mpr ⟨found, (hold q hq).trans hfound, hfoundDev⟩⟩

/-- No pointer is found for a key without entry, and the right one otherwise. -/
theorem Store.Holds.find_none {s : Store} {table : Table DevT Bytes} (h : s.Holds table) {dev : DevT}
    (hfind : s.table.find? (s.isFor dev) = none) : table dev = none := by
  cases hdev : table dev with
  | none => rfl
  | some entry =>
    obtain ⟨p, hp, hfor⟩ := h.covers dev entry hdev
    exact absurd hfor (List.find?_eq_none.mp hfind p hp)

/-- **`iou_vivify` puts a device in use**, with its old value or none. -/
theorem iouVivify_ok {s : Store} {table : Table DevT Bytes} (h : s.Holds table) {alloc : Ptr}
    (hfresh : s.heap alloc = none) (dev : DevT) :
    ∃ p s' iou, iouVivify alloc dev s = .ok (p, s') ∧ s'.Holds (table.touch noUtil dev) ∧
      p ∈ s'.table ∧ s'.heap p = some iou ∧ iou.stDev = dev ∧ iou.inUse = true ∧
      iou.freeNext = none ∧ iou.util = table.get noUtil dev := by
  cases hfind : s.table.find? (s.isFor dev) with
  | some p =>
    have hp := mem_of_find?_eq_some hfind
    obtain ⟨iou, hiou, rfl⟩ := Store.isFor_iff.mp (List.find?_some hfind)
    obtain ⟨hnext, hheld⟩ := h.entry p hp iou hiou
    have hget : table.get noUtil iou.stDev = iou.util := by rw [Table.get, hheld]; rfl
    have hrun : iouVivify alloc iou.stDev s =
        .ok (p, ⟨Function.update s.heap p (some { iou with inUse := true }), s.table⟩) := by
      unfold iouVivify
      rw [Mem.bind_ok (h.hashLookup_ok iou.stDev), hfind]
      simp only [pure_bind]
      rw [Mem.bind_ok (assign_ok hiou)]
      rfl
    refine ⟨p, _, _, hrun, ?_, hp, Function.update_self .., rfl, rfl, hnext, hget.symm⟩
    rw [Table.touch, Table.put, hget]
    exact h.assign hp hiou rfl hnext
  | none =>
    have habsent := h.find_none hfind
    have hnew : alloc ∉ s.table := h.not_mem_of_free hfresh
    -- the table is searched once more, with the new entry allocated but not yet inserted
    let made : Ioutil := { stDev := dev, inUse := false, freeNext := none, util := noUtil }
    have hagain := (h.update_heap hnew (some made)).hashLookup_ok dev
    have hfind' : s.table.find? (Store.isFor ⟨Function.update s.heap alloc (some made), s.table⟩ dev) =
        none := by
      refine List.find?_eq_none.mpr ?_
      intro q hq
      rw [Store.isFor_update_of_ne (ne_of_mem_of_not_mem hq hnew)]
      exact List.find?_eq_none.mp hfind q hq
    rw [hfind'] at hagain
    let used : Ioutil := { made with inUse := true }
    have hrun : iouVivify alloc dev s =
        .ok (alloc, ⟨Function.update s.heap alloc (some used), alloc :: s.table⟩) := by
      have hinsert : hashInsertIfAbsent alloc ⟨Function.update s.heap alloc (some made), s.table⟩ =
          .ok (true, ⟨Function.update s.heap alloc (some made), alloc :: s.table⟩) := by
        unfold hashInsertIfAbsent
        rw [Mem.bind_ok (deref_ok (Function.update_self ..)), Mem.bind_ok hagain]
        rfl
      unfold iouVivify
      rw [Mem.bind_ok (h.hashLookup_ok dev), hfind]
      dsimp only
      rw [Mem.bind_ok (show malloc alloc made s = .ok _ from rfl), Mem.bind_ok hinsert,
        Mem.bind_ok (check_ok rfl), pure_bind,
        Mem.bind_ok (assign_ok (Function.update_self ..)), Function.update_idem]
      rfl
    have hget : table.get noUtil dev = noUtil := by rw [Table.get, habsent]; rfl
    refine ⟨alloc, _, used, hrun, ?_, mem_cons_self, Function.update_self .., rfl, rfl, rfl,
      hget.symm⟩
    rw [Table.touch, Table.put, hget]
    exact h.insert hfresh habsent rfl

section Operations

variable {s : Store} {table : Table DevT Bytes} (h : s.Holds table) {alloc : Ptr}
  (hfresh : s.heap alloc = none) (dev : DevT)
include h hfresh

theorem iouRead_ok : ∃ s', iouRead alloc dev s = .ok (table.get noUtil dev, s') ∧
    s'.Holds (table.touch noUtil dev) := by
  obtain ⟨p, s', iou, hrun, hholds, -, hiou, -, -, -, hutil⟩ := iouVivify_ok h hfresh dev
  refine ⟨s', ?_, hholds⟩
  rw [iouRead, Mem.bind_ok hrun, Mem.bind_ok (deref_ok hiou), hutil]
  rfl

theorem iouWrite_ok (util : Bytes) : ∃ s', iouWrite alloc dev util s = .ok ((), s') ∧
    s'.Holds (table.put dev util) := by
  obtain ⟨p, s', iou, hrun, hholds, hp, hiou, rfl, huse, hnext, -⟩ := iouVivify_ok h hfresh dev
  refine ⟨_, (Mem.bind_ok hrun).trans (assign_ok hiou), ?_⟩
  have hassign := @Store.Holds.assign _ _ hholds p iou { iou with util := util } hp hiou rfl hnext
  rw [Table.touch, Table.put, Function.update_idem] at hassign
  rw [Table.put, ← huse]
  exact hassign

theorem iouActive_ok : ∃ s', iouActive alloc dev s = .ok ((), s') ∧
    s'.Holds (table.touch noUtil dev) := by
  obtain ⟨p, s', iou, hrun, hholds, -⟩ := iouVivify_ok h hfresh dev
  exact ⟨s', Mem.bind_ok hrun, hholds⟩

end Operations

/-! ### Marking -/

/-- The entries of `slots` not in use any more, and all else as it was. -/
def unuse (slots : List Ptr) (heap : Ptr → Option Ioutil) : Ptr → Option Ioutil := fun p =>
  if p ∈ slots then (heap p).map fun iou => { iou with inUse := false } else heap p

theorem cleanupBegin_eq {order : List Ptr} {s : Store} (h : ∀ p ∈ order, ∃ iou, s.heap p = some iou) :
    cleanupBegin order s = .ok ((), ⟨unuse order s.heap, s.table⟩) := by
  induction order generalizing s with
  | nil =>
    have hsame : unuse [] s.heap = s.heap := by
      funext p
      exact if_neg not_mem_nil
    rw [hsame]
    rfl
  | cons p order ih =>
    obtain ⟨⟨iou, hiou⟩, hrest⟩ := forall_mem_cons.mp h
    rw [cleanupBegin, Mem.bind_ok (assign_ok hiou), ih]
    · congr 3
      funext q
      by_cases hq : q = p
      · subst hq
        by_cases hmem : q ∈ order <;> simp [unuse, hmem, hiou]
      · simp [unuse, hq]
    · intro q hq
      by_cases hqp : q = p
      · exact ⟨_, by rw [hqp]; exact Function.update_self ..⟩
      · obtain ⟨entry, hentry⟩ := hrest q hq
        exact ⟨entry, (Function.update_of_ne hqp ..).trans hentry⟩

/-- **`mog_iou_cleanup_begin` puts every device out of use.** -/
theorem cleanupBegin_ok {s : Store} {table : Table DevT Bytes} (h : s.Holds table) {order : List Ptr}
    (horder : order.Perm s.table) :
    ∃ s', cleanupBegin order s = .ok ((), s') ∧ s'.Holds table.mark := by
  have hmem : ∀ p, p ∈ order ↔ p ∈ s.table := fun p => horder.mem_iff
  refine ⟨_, cleanupBegin_eq fun p hp => h.live p ((hmem p).mp hp), ?_⟩
  have hheap : ∀ p ∈ s.table, unuse order s.heap p =
      (s.heap p).map fun iou => { iou with inUse := false } :=
    fun p hp => if_pos ((hmem p).mpr hp)
  have hfor : ∀ dev, ∀ p ∈ s.table, Store.isFor ⟨unuse order s.heap, s.table⟩ dev p = s.isFor dev p := by
    intro dev p hp
    simp only [Store.isFor, hheap p hp, Option.map_map]
    rfl
  refine ⟨⟨h.nodup, ?_, ?_⟩, ?_, ?_⟩
  · intro p hp
    obtain ⟨iou, hiou⟩ := h.live p hp
    exact ⟨{ iou with inUse := false }, (hheap p hp).trans (by rw [hiou]; rfl)⟩
  · intro p hp q hq dev hpdev hqdev
    rw [hfor dev p hp] at hpdev
    rw [hfor dev q hq] at hqdev
    exact h.unique p hp q hq dev hpdev hqdev
  · intro p hp entry hentry
    obtain ⟨iou, hiou⟩ := h.live p hp
    obtain rfl : { iou with inUse := false } = entry := by
      simpa [hheap p hp, hiou] using hentry
    obtain ⟨hnext, hheld⟩ := h.entry p hp iou hiou
    exact ⟨hnext, by rw [Table.mark, hheld]; rfl⟩
  · intro dev entry hentry
    obtain ⟨before, hbefore, -⟩ := Option.map_eq_some_iff.mp hentry
    obtain ⟨p, hp, hpdev⟩ := h.covers dev before hbefore
    exact ⟨p, hp, by rw [hfor dev p hp]; exact hpdev⟩

/-! ### Sweeping -/

/-- The list that starts at `head` and goes on by `free_next`. -/
def FreeList (heap : Ptr → Option Ioutil) : Option Ptr → List Ptr → Prop
  | head, [] => head = none
  | head, p :: rest => head = some p ∧ ∃ iou, heap p = some iou ∧ FreeList heap iou.freeNext rest

theorem FreeList.congr {heap heap' : Ptr → Option Ioutil} {head : Option Ptr} {items : List Ptr}
    (h : FreeList heap head items) (hsame : ∀ p ∈ items, heap' p = heap p) : FreeList heap' head items := by
  induction items generalizing head with
  | nil => exact h
  | cons p rest ih =>
    obtain ⟨hhead, iou, hiou, hrest⟩ := h
    rw [forall_mem_cons] at hsame
    exact ⟨hhead, iou, hsame.1.trans hiou, ih hrest hsame.2⟩

/-- An entry apart from its place in a free list. -/
def Ioutil.unlinked (iou : Ioutil) : Ioutil := { iou with freeNext := none }

/-- The two stores differ in free lists only. -/
structure Store.SameEntries (s s' : Store) : Prop where
  table : s'.table = s.table
  entry : ∀ p, (s'.heap p).map Ioutil.unlinked = (s.heap p).map Ioutil.unlinked

theorem Store.SameEntries.exists_entry {s s' : Store} (h : s.SameEntries s') {p : Ptr} {iou : Ioutil}
    (hiou : s.heap p = some iou) :
    ∃ iou', s'.heap p = some iou' ∧ iou'.stDev = iou.stDev ∧ iou'.inUse = iou.inUse := by
  have hentry := h.entry p
  rw [hiou, Option.map_some, Option.map_eq_some_iff] at hentry
  obtain ⟨iou', hiou', hsame⟩ := hentry
  have hdev : iou'.unlinked.stDev = iou.unlinked.stDev := by rw [hsame]
  have huse : iou'.unlinked.inUse = iou.unlinked.inUse := by rw [hsame]
  exact ⟨iou', hiou', hdev, huse⟩

theorem Store.SameEntries.isFor {s s' : Store} (h : s.SameEntries s') (dev : DevT) (p : Ptr) :
    s'.isFor dev p = s.isFor dev p := by
  have hentry := congrArg (Option.map Ioutil.stDev) (h.entry p)
  rw [Option.map_map, Option.map_map] at hentry
  exact congrArg (· == some dev) hentry

theorem Store.SameEntries.wf {s s' : Store} (h : s.SameEntries s') (hwf : s.Wf) : s'.Wf := by
  refine ⟨h.table ▸ hwf.nodup, ?_, ?_⟩
  · intro p hp
    obtain ⟨iou, hiou⟩ := hwf.live p (h.table ▸ hp)
    obtain ⟨iou', hiou', -⟩ := h.exists_entry hiou
    exact ⟨iou', hiou'⟩
  · intro p hp q hq dev hpdev hqdev
    rw [h.isFor] at hpdev hqdev
    exact hwf.unique p (h.table ▸ hp) q (h.table ▸ hq) dev hpdev hqdev

theorem Store.SameEntries.trans {s s' s'' : Store} (h : s.SameEntries s') (h' : s'.SameEntries s'') :
    s.SameEntries s'' :=
  ⟨h'.table.trans h.table, fun p => (h'.entry p).trans (h.entry p)⟩

def Store.isUnused (s : Store) (p : Ptr) : Bool := (s.heap p).any fun iou => !iou.inUse

theorem Store.SameEntries.isUnused {s s' : Store} (h : s.SameEntries s') (p : Ptr) :
    s'.isUnused p = s.isUnused p := by
  have hentry := congrArg (fun entry => entry.any fun iou : Ioutil => !iou.inUse) (h.entry p)
  simpa only [Store.isUnused, Option.any_map, Function.comp_def, Ioutil.unlinked] using hentry

/-- Linking an entry into a list changes nothing else. -/
theorem Store.sameEntries_link {s : Store} {p : Ptr} {iou : Ioutil} (hiou : s.heap p = some iou)
    (next : Option Ptr) :
    s.SameEntries ⟨Function.update s.heap p (some { iou with freeNext := next }), s.table⟩ := by
  refine ⟨rfl, fun q => ?_⟩
  by_cases hq : q = p
  · subst hq
    simp [hiou, Ioutil.unlinked]
  · simp [Function.update_of_ne hq]

/-- Walking the table collects the entries out of use, each before those found earlier. -/
theorem freelistBuild_ok {order items : List Ptr} {head : Option Ptr} {s : Store}
    (hlist : FreeList s.heap head items) (hnodup : order.Nodup) (hapart : ∀ p ∈ order, p ∉ items)
    (horder : ∀ p ∈ order, ∃ iou, s.heap p = some iou ∧ iou.freeNext = none) :
    ∃ head' s', freelistBuild head order s = .ok (head', s') ∧ s.SameEntries s' ∧
      FreeList s'.heap head' ((order.filter s.isUnused).reverse ++ items) ∧
      ∀ p, p ∉ order.filter s.isUnused → s'.heap p = s.heap p := by
  induction order generalizing head items s with
  | nil => exact ⟨head, s, rfl, ⟨rfl, fun _ => rfl⟩, hlist, fun _ _ => rfl⟩
  | cons p order ih =>
    obtain ⟨hp, hnodup⟩ := nodup_cons.mp hnodup
    obtain ⟨hpitems, hapart⟩ := forall_mem_cons.mp hapart
    obtain ⟨⟨iou, hiou, hnext⟩, horder⟩ := forall_mem_cons.mp horder
    cases huse : iou.inUse with
    | true =>
      obtain ⟨head', s', hrun, hsame, hlist', hheap⟩ := ih hlist hnodup hapart horder
      have hstep : freelistAppend head p s = .ok (head, s) := by
        rw [freelistAppend, Mem.bind_ok (deref_ok hiou), huse]
        rfl
      have hfilter : (p :: order).filter s.isUnused = order.filter s.isUnused :=
        filter_cons_of_neg (by simp [Store.isUnused, hiou, huse])
      rw [hfilter, freelistBuild, Mem.bind_ok hstep]
      exact ⟨head', s', hrun, hsame, hlist', hheap⟩
    | false =>
      let linked : Store := ⟨Function.update s.heap p (some { iou with freeNext := head }), s.table⟩
      have hlink : s.SameEntries linked := Store.sameEntries_link hiou head
      have hstep : freelistAppend head p s = .ok (some p, linked) := by
        rw [freelistAppend, Mem.bind_ok (deref_ok hiou), huse, hnext, if_neg Bool.false_ne_true,
          Mem.bind_ok (check_ok (beq_self_eq_true (none : Option Ptr))),
          Mem.bind_ok (assign_ok hiou)]
        rfl
      have hkeep : ∀ q, q ≠ p → linked.heap q = s.heap q := fun q hq => Function.update_of_ne hq ..
      have hlist' : FreeList linked.heap (some p) (p :: items) := by
        refine ⟨rfl, _, Function.update_self .., hlist.congr ?_⟩
        intro q hq
        exact hkeep q (ne_of_mem_of_not_mem hq hpitems)
      have hapart' : ∀ q ∈ order, q ∉ p :: items := by
        intro q hq
        rw [mem_cons, not_or]
        exact ⟨ne_of_mem_of_not_mem hq hp, hapart q hq⟩
      have horder' : ∀ q ∈ order, ∃ iou, linked.heap q = some iou ∧ iou.freeNext = none := by
        intro q hq
        rw [hkeep q (ne_of_mem_of_not_mem hq hp)]
        exact horder q hq
      obtain ⟨head', s', hrun, hsame, hdone, hheap⟩ := ih hlist' hnodup hapart' horder'
      have hfilter : (p :: order).filter s.isUnused = p :: order.filter linked.isUnused := by
        rw [filter_cons_of_pos (by simp [Store.isUnused, hiou, huse])]
        exact congrArg (p :: ·) (filter_congr fun q _ => (hlink.isUnused q).symm)
      refine ⟨head', s', ?_, hlink.trans hsame, ?_, ?_⟩
      · rw [freelistBuild, Mem.bind_ok hstep, hrun]
      · rw [hfilter, reverse_cons, append_assoc]
        exact hdone
      · intro q hq
        rw [hfilter, mem_cons, not_or] at hq
        exact (hheap q hq.2).trans (hkeep q hq.1)

theorem Store.Wf.erase {s : Store} (h : s.Wf) (p : Ptr) : Store.Wf ⟨s.heap, s.table.erase p⟩ := by
  have hsub : ∀ q ∈ s.table.erase p, q ∈ s.table := fun q => mem_of_mem_erase
  refine ⟨h.nodup.erase p, fun q hq => h.live q (hsub q hq), ?_⟩
  intro q hq r hr
  exact h.unique q (hsub q hq) r (hsub r hr)

/-- `hash_delete` finds the item itself. -/
theorem Store.Wf.hashDelete_ok {s : Store} (h : s.Wf) {p : Ptr} (hp : p ∈ s.table) :
    hashDelete p s = .ok (some p, ⟨s.heap, s.table.erase p⟩) := by
  obtain ⟨iou, hiou⟩ := h.live p hp
  have hfind := h.hashLookup_ok iou.stDev
  rw [h.find_eq hp (isFor_iff.mpr ⟨iou, hiou, rfl⟩)] at hfind
  rw [hashDelete, Mem.bind_ok (deref_ok hiou), Mem.bind_ok hfind]
  rfl

/-- Releasing a free list takes its items out of the table and frees each of them once. -/
theorem freelistRelease_ok {fuel : Nat} {items : List Ptr} {head : Option Ptr} {s : Store} (hwf : s.Wf)
    (hlist : FreeList s.heap head items) (hnodup : items.Nodup) (hin : ∀ p ∈ items, p ∈ s.table)
    (hfuel : items.length ≤ fuel) :
    ∃ s', freelistRelease fuel head s = .ok ((), s') ∧ s'.table = s.table.filter (· ∉ items) ∧
      ∀ p, p ∉ items → s'.heap p = s.heap p := by
  induction items generalizing fuel head s with
  | nil =>
    obtain rfl : head = none := hlist
    refine ⟨s, by cases fuel <;> rfl, ?_, fun _ _ => rfl⟩
    exact (filter_eq_self.mpr fun _ _ => by simp).symm
  | cons p items ih =>
    obtain ⟨rfl, iou, hiou, hrest⟩ := hlist
    obtain ⟨hp, hnodup⟩ := nodup_cons.mp hnodup
    obtain ⟨hptable, hin⟩ := forall_mem_cons.mp hin
    cases fuel with
    | zero => cases hfuel
    | succ fuel =>
      have hgone : p ∉ s.table.erase p := hwf.nodup.not_mem_erase
      obtain ⟨s', hrun, htable, hheap⟩ := @ih fuel iou.freeNext
        ⟨Function.update s.heap p none, s.table.erase p⟩
        ((hwf.erase p).update_heap hgone none)
        (hrest.congr fun q hq => Function.update_of_ne (ne_of_mem_of_not_mem hq hp) ..) hnodup
        (fun q hq => (hwf.nodup.mem_erase_iff).mpr ⟨ne_of_mem_of_not_mem hq hp, hin q hq⟩)
        (Nat.le_of_succ_le_succ hfuel)
      refine ⟨s', ?_, ?_, ?_⟩
      · rw [freelistRelease, Mem.bind_ok (deref_ok hiou), Mem.bind_ok (hwf.hashDelete_ok hptable),
          Mem.bind_ok (check_ok (beq_self_eq_true (some p))),
          Mem.bind_ok (free_ok (s := ⟨s.heap, s.table.erase p⟩) hiou)]
        exact hrun
      · rw [htable, hwf.nodup.erase_eq_filter, filter_filter]
        apply filter_congr
        intro q _
        by_cases hq : q = p <;> simp [hq]
      · intro q hq
        rw [mem_cons, not_or] at hq
        exact (hheap q hq.2).trans (Function.update_of_ne hq.1 ..)

/-- **`mog_iou_cleanup_finish` removes the devices out of use.** -/
theorem cleanupFinish_ok {s : Store} {table : Table DevT Bytes} (h : s.Holds table) {order : List Ptr}
    (horder : order.Perm s.table) :
    ∃ s', cleanupFinish order s = .ok ((), s') ∧ s'.Holds table.sweep := by
  have hmem : ∀ p, p ∈ order ↔ p ∈ s.table := fun p => horder.mem_iff
  have hnodup : order.Nodup := horder.nodup_iff.mpr h.nodup
  have hfree : ∀ p ∈ order, ∃ iou, s.heap p = some iou ∧ iou.freeNext = none := by
    intro p hp
    obtain ⟨iou, hiou⟩ := h.live p ((hmem p).mp hp)
    exact ⟨iou, hiou, (h.entry p ((hmem p).mp hp) iou hiou).1⟩
  obtain ⟨head, linked, hbuild, hsame, hlist, hbuilt⟩ :=
    @freelistBuild_ok order [] none s rfl hnodup (fun _ _ => not_mem_nil) hfree
  rw [append_nil] at hlist
  -- the items of the list are the entries out of use
  generalize hitems : (order.filter s.isUnused).reverse = items at hlist
  have hitem : ∀ p, p ∈ items ↔ p ∈ s.table ∧ s.isUnused p = true := by
    intro p
    rw [← hitems, mem_reverse, mem_filter, hmem]
  have hlength : items.length ≤ order.length := by
    rw [← hitems, length_reverse]
    exact length_filter_le ..
  have hitemsNodup : items.Nodup := by
    rw [← hitems, (reverse_perm _).nodup_iff]
    exact hnodup.filter _
  obtain ⟨s', hrelease, htable, hreleased⟩ := freelistRelease_ok (hsame.wf h.toWf) hlist hitemsNodup
    (fun p hp => hsame.table ▸ ((hitem p).mp hp).1) hlength
  rw [hsame.table] at htable
  have hstays : ∀ p, p ∈ s'.table ↔ p ∈ s.table ∧ s.isUnused p = false := by
    intro p
    rw [htable, mem_filter, decide_eq_true_iff, hitem, not_and, Bool.not_eq_true]
    exact and_congr_right fun hp => forall_prop_of_true hp
  have hheap : ∀ p ∈ s'.table, s'.heap p = s.heap p := by
    intro p hp
    have hused : p ∉ items := by
      rw [hitem, ((hstays p).mp hp).2]
      exact fun hitem => Bool.false_ne_true hitem.2
    refine (hreleased p hused).trans (hbuilt p ?_)
    rwa [← mem_reverse, hitems]
  refine ⟨s', (Mem.bind_ok hbuild).trans hrelease, ⟨⟨?_, ?_, ?_⟩, ?_, ?_⟩⟩
  · rw [htable]
    exact h.nodup.filter _
  · intro p hp
    rw [hheap p hp]
    exact h.live p ((hstays p).mp hp).1
  · intro p hp q hq dev hpdev hqdev
    rw [Store.isFor, hheap p hp] at hpdev
    rw [Store.isFor, hheap q hq] at hqdev
    exact h.unique p ((hstays p).mp hp).1 q ((hstays q).mp hq).1 dev hpdev hqdev
  · intro p hp iou hiou
    rw [hheap p hp] at hiou
    obtain ⟨hptable, hused⟩ := (hstays p).mp hp
    obtain ⟨hnext, hheld⟩ := h.entry p hptable iou hiou
    have huse : iou.inUse = true := by simpa [Store.isUnused, hiou] using hused
    exact ⟨hnext, by simp [Table.sweep, hheld, huse, Option.filter]⟩
  · intro dev entry hentry
    obtain ⟨hheld, huse⟩ := Option.filter_eq_some_iff.mp hentry
    obtain ⟨p, hp, hpdev⟩ := h.covers dev entry hheld
    obtain ⟨iou, hiou, rfl⟩ := Store.isFor_iff.mp hpdev
    have hsame := (h.entry p hp iou hiou).2.symm.trans hheld
    have hp' : p ∈ s'.table := by
      refine (hstays p).mpr ⟨hp, ?_⟩
      have huse' : iou.inUse = true := by
        rw [← Option.some.inj hsame] at huse
        exact huse
      simp [Store.isUnused, hiou, huse']
    exact ⟨p, hp', Store.isFor_iff.mpr ⟨iou, (hheap p hp').trans hiou, rfl⟩⟩

end Cmogstored
