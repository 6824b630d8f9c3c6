import Cmogstored.Ends
import Cmogstored.Types

/-! `fdmap.c`: the memory of a descriptor is a slot of a heap that is found by its number. Heaps are added under
`fd_lock`; who finds `max_fd` large enough does not take the lock. -/

namespace Cmogstored

open Prog

variable {base i j left fd base' size slot : Nat} {maxFd : Int}

/-! ### The code -/

def FD_PER_HEAP : Nat := 256

def FD_PAD_SIZE : Nat := 128

/-- A value as an `int` keeps it. -/
def wrap32 (n : Int) : Int := Int.bmod n (2 ^ 32)

/-- The conversion of an `int` to `size_t`. -/
def toSize (n : Int) : Nat := (n % 2 ^ 64).toNat

/-- What is initialised of a `struct mog_fd`. -/
structure FdSlot where
  /-- `fd_type` is `MOG_FD_TYPE_UNUSED` -/
  unused : Bool
  expiring : Bool
  fd : Option Int
  deriving DecidableEq, Repr

variable {f : FdSlot → FdSlot}

inductive FdCall where
  | fetchMaxFd
  | addMaxFd (count : Nat)
  | lock
  | unlock
  /-- `fd_map != NULL` -/
  | fdMap
  | sysconf
  | cachealign (size : Nat)
  /-- `fd_map` is set to memory for so many pointers -/
  | setMap (slots : Nat)
  | setUnused (slot : Nat)
  | spinInit (slot : Nat)
  | setFd (slot : Nat) (fd : Int)
  /-- `fd_heaps++` -/
  | nextHeap
  | setEntry (index base : Nat)
  | entry (index : Nat)
  /-- the caller has its slot -/
  | returned (fd : Int) (slot : Nat)
  | die
  deriving DecidableEq, Repr

@[reducible] def FdRes : FdCall → Type
  | .fetchMaxFd => Int
  | .fdMap => Bool
  | .sysconf => Nat
  | .cachealign _ => Option Nat
  | .spinInit _ => Int
  | .nextHeap => Nat
  | .entry _ => Nat
  | .die => Empty
  | _ => Unit

abbrev FdIo := Prog FdCall FdRes

abbrev fdSys (request : FdCall) : FdIo (FdRes request) := Prog.ask request

/-- `die_errno` and `mog_oom` do not return. -/
def fdDie {α : Type} : FdIo α := .call .die nofun

def aref (fd : Nat) : FdIo Nat := do
  let base ← fdSys (.entry (fd / FD_PER_HEAP))
  pure (base + fd % FD_PER_HEAP * FD_PAD_SIZE)

def fdMapInit : FdIo Unit := do
  let openMax ← fdSys .sysconf
  let slots := openMax / FD_PER_HEAP + 1
  match ← fdSys (.cachealign (slots * 8)) with
  | none => fdDie
  | some _ => fdSys (.setMap slots)

/-- The slots from `i` on, `left` of them. -/
def initSlots (base : Nat) (fdMax : Int) : Nat → Nat → FdIo Unit
  | 0, _ => pure ()
  | left + 1, i => do
    let slot := base + i * FD_PAD_SIZE
    fdSys (.setUnused slot)
    let rc ← fdSys (.spinInit slot)
    if rc ≠ 0 then fdDie
    else do
      fdSys (.setFd slot (wrap32 (fdMax + i)))
      initSlots base fdMax left (i + 1)

/-- The body of the loop of `grow_ref`. -/
def growHeap (fdMax : Int) : FdIo Unit := do
  match ← fdSys (.cachealign (FD_PAD_SIZE * FD_PER_HEAP)) with
  | none => fdDie
  | some base => do
    initSlots base fdMax FD_PER_HEAP 0
    let index ← fdSys .nextHeap
    fdSys (.setEntry index base)
    fdSys (.addMaxFd FD_PER_HEAP)

/-- The loop of `grow_ref`. It counts as a failure when there is no fuel left. -/
def growLoop (fd : Nat) : Nat → FdIo Unit
  | 0 => abort
  | fuel + 1 => do
    let fdMax ← fdSys .fetchMaxFd
    if toSize fdMax ≤ fd then do
      growHeap fdMax
      growLoop fd fuel
    else pure ()

def growRef (fd : Nat) : FdIo Nat := do
  -- INT_MAX
  require (fd < 2 ^ 31 - 1)
  fdSys .lock
  let mapped ← fdSys .fdMap
  if mapped = false then fdMapInit
  growLoop fd (fd / FD_PER_HEAP + 2)
  fdSys .unlock
  aref fd

def mogFdGet (fd : Int) : FdIo Nat := do
  require (0 ≤ fd)
  let maxFd ← fdSys .fetchMaxFd
  if fd < maxFd then aref fd.toNat else growRef fd.toNat

/-- A thread asks for the slots of some descriptors. -/
def fdGets : List Int → FdIo Unit
  | [] => pure ()
  | fd :: rest => do
    let slot ← mogFdGet fd
    fdSys (.returned fd slot)
    fdGets rest

/-! ### The memory -/

structure FdWorld (Tid : Type) where
  maxFd : Int
  heaps : Nat
  /-- `fd_map`: for how many pointers there is memory, if for any -/
  slots : Option Nat
  entries : Nat → Option Nat
  /-- what was allocated, by address and size -/
  blocks : List (Nat × Nat)
  mem : Nat → FdSlot
  lock : Option Tid
  /-- what `mog_fd_get` has returned -/
  returned : List (Int × Nat)

def FdSlot.blank : FdSlot := ⟨false, false, none⟩

/-- `[a.1, a.1 + a.2)` and `[b.1, b.1 + b.2)` do not overlap. -/
def KeptApart (a b : Nat × Nat) : Prop := a.1 + a.2 ≤ b.1 ∨ b.1 + b.2 ≤ a.1

def FdWorld.write {Tid : Type} (w : FdWorld Tid) (slot : Nat) (f : FdSlot → FdSlot) : FdWorld Tid :=
  { w with mem := Function.update w.mem slot (f (w.mem slot)) }

/-- What the calls do. Memory that was not allocated before and a pointer that was not set may hold anything. -/
def fdHandles {Tid : Type} (openMax : Nat) : Handler Tid (FdWorld Tid) FdCall FdRes
  | w, _, .fetchMaxFd, n, w' => n = w.maxFd ∧ w' = w
  | w, _, .addMaxFd count, _, w' => w' = { w with maxFd := wrap32 (w.maxFd + count) }
  | w, thread, .lock, _, w' => w.lock = none ∧ w' = { w with lock := some thread }
  | w, _, .unlock, _, w' => w' = { w with lock := none }
  | w, _, .fdMap, mapped, w' => mapped = w.slots.isSome ∧ w' = w
  | w, _, .sysconf, n, w' => n = openMax ∧ w' = w
  | w, _, .cachealign _, none, w' => w' = w
  | w, _, .cachealign size, some base, w' => (∀ block ∈ w.blocks, KeptApart (base, size) block) ∧
      w' = { w with
        blocks := (base, size) :: w.blocks
        mem := fun a => if base ≤ a ∧ a < base + size then .blank else w.mem a }
  | w, _, .setMap slots, _, w' => w' = { w with slots := some slots }
  | w, _, .setUnused slot, _, w' => w' = w.write slot fun s => { s with unused := true }
  | w, _, .spinInit slot, rc, w' => w' = if rc = 0 then w.write slot fun s => { s with expiring := true } else w
  | w, _, .setFd slot fd, _, w' => w' = w.write slot fun s => { s with fd := some fd }
  | w, _, .nextHeap, n, w' => n = w.heaps ∧ w' = { w with heaps := w.heaps + 1 }
  | w, _, .setEntry index base, _, w' => w' = { w with entries := Function.update w.entries index (some base) }
  | w, _, .entry index, base, w' => (∀ stored, w.entries index = some stored → base = stored) ∧ w' = w
  | w, _, .returned fd slot, _, w' => w' = { w with returned := (fd, slot) :: w.returned }

/-- Before the first call of `mog_fd_get`. -/
def fdStart {Tid : Type} (mem : Nat → FdSlot) (gets : Tid → List Int) : Config Tid (FdWorld Tid) FdCall FdRes Unit where
  world := ⟨0, 0, none, fun _ => none, [], mem, none, []⟩
  threads thread := fdGets (gets thread)

/-! ### What a thread does -/

def heapSize : Nat := FD_PAD_SIZE * FD_PER_HEAP

/-- The number of pointers `fd_map_init` makes room for. -/
def mapSlots (openMax : Nat) : Nat := openMax / FD_PER_HEAP + 1

def slotAt (base i : Nat) : Nat := base + i * FD_PAD_SIZE

def FdSlot.full (fd : Nat) : FdSlot := ⟨true, true, some fd⟩

/-- How far a thread is with the lock. Of the heap it fills it knows all that it has written. -/
inductive FdPhase where
  | out
  | locked
  | unmapped
  | allocated
  | mapped
  | ready (heaps : Nat)
  | filling (heaps base : Nat) (block : Nat → FdSlot)
  | counted (heaps base : Nat)
  | stored (heaps base : Nat)

def FdPhase.write (slot : Nat) (f : FdSlot → FdSlot) : FdPhase → FdPhase
  | filling heaps base block => filling heaps base fun i => if slotAt base i = slot then f (block i) else block i
  | phase => phase

/-- The heaps a thread has seen published, the last entry it has read, and its phase. -/
structure FdGhost where
  known : Nat
  loaded : Option (Nat × Nat)
  phase : FdPhase

def fdContract (openMax : Nat) : Contract FdCall FdRes FdGhost where
  must
    | g, .fetchMaxFd => g.phase = .out ∨ g.phase = .mapped
    | g, .addMaxFd count => count = FD_PER_HEAP ∧ ∃ n base, g.phase = .stored n base ∧ n + 1 < 2 ^ 23
    | g, .lock => g.phase = .out
    | g, .unlock => ∃ n, g.phase = .ready n
    | g, .fdMap => g.phase = .locked
    | _, .sysconf => True
    | g, .cachealign size => g.phase = .unmapped ∨ ∃ n, g.phase = .ready n ∧ size = heapSize
    | g, .setMap slots => g.phase = .allocated ∧ slots = mapSlots openMax
    | g, .setUnused slot | g, .spinInit slot | g, .setFd slot _ =>
      ∃ n base block, g.phase = .filling n base block ∧ ∃ i < FD_PER_HEAP, slot = slotAt base i
    | g, .nextHeap => ∃ n base block, g.phase = .filling n base block ∧
        ∀ i < FD_PER_HEAP, block i = .full (FD_PER_HEAP * n + i)
    | g, .setEntry index base => g.phase = .counted index base ∧ index < mapSlots openMax
    | g, .entry index => index < g.known ∧ index < mapSlots openMax
    | g, .returned fd slot => ∃ (n : Nat) (base : Nat), fd = n ∧ g.loaded = some (n / FD_PER_HEAP, base) ∧
        slot = slotAt base (n % FD_PER_HEAP)
    | _, .die => True
  may
    | g, .fetchMaxFd, n => ∃ heaps : Nat, n = FD_PER_HEAP * heaps ∧ g.known ≤ heaps ∧ heaps < 2 ^ 23
    | _, .sysconf, n => n = openMax
    | g, .nextHeap, n => ∀ m base block, g.phase = .filling m base block → n = m
    | _, _, _ => True
  next
    | g, .fetchMaxFd, n =>
      let heaps := n.toNat / FD_PER_HEAP
      match g.phase with
      | .mapped => { g with known := heaps, phase := .ready heaps }
      | _ => { g with known := heaps }
    | g, .addMaxFd _, _ =>
      match g.phase with
      | .stored n _ => { g with known := n + 1, phase := .mapped }
      | _ => g
    | g, .lock, _ => { g with phase := .locked }
    | g, .unlock, _ => { g with phase := .out }
    | g, .fdMap, mapped => { g with phase := if mapped then .mapped else .unmapped }
    | g, .cachealign _, some base =>
      match g.phase with
      | .unmapped => { g with phase := .allocated }
      | .ready n => { g with phase := .filling n base fun _ => .blank }
      | _ => g
    | g, .setMap _, _ => { g with phase := .mapped }
    | g, .setUnused slot, _ => { g with phase := g.phase.write slot fun s => { s with unused := true } }
    | g, .spinInit slot, rc =>
      if rc = 0 then { g with phase := g.phase.write slot fun s => { s with expiring := true } } else g
    | g, .setFd slot fd, _ => { g with phase := g.phase.write slot fun s => { s with fd := some fd } }
    | g, .nextHeap, _ =>
      match g.phase with
      | .filling n base _ => { g with phase := .counted n base }
      | _ => g
    | g, .setEntry _ _, _ =>
      match g.phase with
      | .counted n base => { g with phase := .stored n base }
      | _ => g
    | g, .entry index, base => { g with loaded := some (index, base) }
    | g, _, _ => g
  excused _ := False

section Threads

variable {openMax : Nat}

theorem wp_fdDie {α : Type} {Q : α → FdGhost → Prop} {g : FdGhost} : wp (fdContract openMax) fdDie Q g :=
  ⟨trivial, nofun⟩

theorem slotAt_inj : slotAt base i = slotAt base j ↔ i = j := by
  unfold slotAt FD_PAD_SIZE
  omega

theorem wrap32_of_lt {n : Nat} (h : n < 2 ^ 31) : wrap32 n = n := by
  apply Int.bmod_eq_of_le_mul_two <;> omega

theorem toSize_natCast {n : Nat} (h : n < 2 ^ 31) : toSize n = n := by
  unfold toSize
  omega

variable {known n base : Nat} {loaded : Option (Nat × Nat)}

theorem wp_initSlots {block : Nat → FdSlot} (hsmall : n < 2 ^ 23) (hleft : i + left = FD_PER_HEAP)
    (hblock : ∀ j < i, block j = .full (FD_PER_HEAP * n + j)) :
    wp (fdContract openMax) (initSlots base ↑(FD_PER_HEAP * n) left i) (fun _ g => ∃ block',
      g = ⟨known, loaded, .filling n base block'⟩ ∧ ∀ j < FD_PER_HEAP, block' j = .full (FD_PER_HEAP * n + j))
      ⟨known, loaded, .filling n base block⟩ := by
  induction left generalizing i block with
  | zero =>
    obtain rfl : i = FD_PER_HEAP := hleft
    exact ⟨block, rfl, hblock⟩
  | succ left ih =>
    have hi : i < FD_PER_HEAP := by omega
    have hvalue : wrap32 (↑(FD_PER_HEAP * n) + ↑i) = ↑(FD_PER_HEAP * n + i) := by
      have hlt : FD_PER_HEAP * n + i < 2 ^ 31 := by
        unfold FD_PER_HEAP at *
        omega
      rw [← wrap32_of_lt hlt]
      rfl
    refine wp_ask_bind ⟨n, base, _, rfl, i, hi, rfl⟩ fun _ _ => ?_
    refine wp_ask_bind ⟨n, base, _, rfl, i, hi, rfl⟩ fun rc _ => ?_
    by_cases hrc : rc = 0
    · rw [if_neg (not_not_intro hrc), hvalue]
      dsimp only [fdContract, FdPhase.write]
      rw [if_pos hrc]
      refine wp_ask_bind ⟨n, base, _, rfl, i, hi, rfl⟩ fun _ _ => ih (by omega) fun j hj => ?_
      -- the slot `i` has got its three fields, those before it are as they were
      by_cases heq : j = i
      · subst heq
        simp [slotAt, FdSlot.full]
      · have hne : slotAt base j ≠ base + i * FD_PAD_SIZE := fun hsame => heq (slotAt_inj.mp hsame)
        dsimp only
        rw [if_neg hne, if_neg hne, if_neg hne]
        exact hblock j (by omega)
    · rw [if_pos hrc]
      exact wp_fdDie

theorem wp_growHeap (hsmall : n + 1 < 2 ^ 23) (hslots : n < mapSlots openMax) :
    wp (fdContract openMax) (growHeap ↑(FD_PER_HEAP * n)) (fun _ g => g = ⟨n + 1, loaded, .mapped⟩)
      ⟨known, loaded, .ready n⟩ := by
  refine wp_ask_bind (Or.inr ⟨n, rfl, rfl⟩) fun answer _ => ?_
  cases answer with
  | none => exact wp_fdDie
  | some base =>
    rw [wp_bind]
    refine wp_mono (wp_initSlots (by omega) (Nat.zero_add _) (by simp)) ?_
    rintro _ _ ⟨block, rfl, hblock⟩
    refine wp_ask_bind ⟨n, base, block, rfl, hblock⟩ fun index hindex => ?_
    obtain rfl := hindex n base block rfl
    refine wp_ask_bind ⟨rfl, hslots⟩ fun _ _ => ?_
    exact ⟨⟨rfl, index, base, rfl, hsmall⟩, fun _ _ => rfl⟩

/-- The loop ends with the lock still held, and `max_fd` above `fd`. -/
theorem wp_growLoop {fuel : Nat} (hsmall : fd < 2 ^ 31 - FD_PER_HEAP) (hopen : fd < openMax) (hpos : 0 < fuel)
    (hfuel : fd / FD_PER_HEAP + 2 ≤ known + fuel) :
    wp (fdContract openMax) (growLoop fd fuel) (fun _ g => ∃ heaps, g = ⟨heaps, loaded, .ready heaps⟩ ∧
      fd / FD_PER_HEAP < heaps) ⟨known, loaded, .mapped⟩ := by
  induction fuel generalizing known with
  | zero => exact absurd hpos (Nat.lt_irrefl 0)
  | succ fuel ih =>
    refine wp_ask_bind (Or.inr rfl) fun fdMax hmay => ?_
    obtain ⟨heaps, rfl, hknown, hheaps⟩ := hmay
    dsimp only at hknown
    have hdiv : FD_PER_HEAP * heaps / FD_PER_HEAP = heaps := by
      unfold FD_PER_HEAP
      omega
    have hcast : ((FD_PER_HEAP : Int) * (heaps : Int)) = ↑(FD_PER_HEAP * heaps) := by push_cast; rfl
    rw [hcast, toSize_natCast (by unfold FD_PER_HEAP; omega)]
    have hnext : (fdContract openMax).next ⟨known, loaded, .mapped⟩ .fetchMaxFd ↑(FD_PER_HEAP * heaps) =
        ⟨heaps, loaded, .ready heaps⟩ := by
      dsimp only [fdContract]
      rw [Int.toNat_natCast, hdiv]
    rw [hnext]
    split
    · rename_i hle
      have hindex : heaps ≤ fd / FD_PER_HEAP := by
        unfold FD_PER_HEAP at *
        omega
      rw [wp_bind]
      refine wp_mono (wp_growHeap ?_ ?_) ?_
      · unfold FD_PER_HEAP at *
        omega
      · unfold mapSlots FD_PER_HEAP at *
        omega
      · rintro _ _ rfl
        exact ih (by omega) (by omega)
    · rename_i hlt
      refine ⟨heaps, rfl, ?_⟩
      unfold FD_PER_HEAP at *
      omega

theorem wp_aref (hknown : fd / FD_PER_HEAP < known) (hopen : fd < openMax) :
    wp (fdContract openMax) (aref fd) (fun slot g => ∃ base, slot = slotAt base (fd % FD_PER_HEAP) ∧
      g = ⟨known, some (fd / FD_PER_HEAP, base), .out⟩) ⟨known, loaded, .out⟩ := by
  refine wp_ask_bind ⟨hknown, ?_⟩ fun base _ => ⟨base, rfl, rfl⟩
  unfold mapSlots FD_PER_HEAP
  omega

theorem wp_fdMapInit : wp (fdContract openMax) fdMapInit (fun _ g => g = ⟨known, loaded, .mapped⟩)
    ⟨known, loaded, .unmapped⟩ := by
  refine wp_ask_bind trivial fun limit hlimit => ?_
  obtain rfl : limit = openMax := hlimit
  refine wp_ask_bind (Or.inl rfl) fun answer _ => ?_
  cases answer with
  | none => exact wp_fdDie
  | some block => exact ⟨⟨rfl, rfl⟩, fun _ _ => rfl⟩

theorem wp_growRef (hsmall : fd < 2 ^ 31 - FD_PER_HEAP) (hopen : fd < openMax) :
    wp (fdContract openMax) (growRef fd) (fun slot g => ∃ base known, slot = slotAt base (fd % FD_PER_HEAP) ∧
      g = ⟨known, some (fd / FD_PER_HEAP, base), .out⟩) ⟨known, loaded, .out⟩ := by
  have hmax : fd < 2 ^ 31 - 1 := by
    unfold FD_PER_HEAP at hsmall
    omega
  apply wp_require_bind
  · intro hfalse
    exact absurd hmax (of_decide_eq_false hfalse)
  intro _
  refine wp_ask_bind rfl fun _ _ => wp_ask_bind rfl fun mapped _ => ?_
  have hrest : wp (fdContract openMax) (do growLoop fd (fd / FD_PER_HEAP + 2); fdSys .unlock; aref fd)
      (fun slot g => ∃ base known, slot = slotAt base (fd % FD_PER_HEAP) ∧
        g = ⟨known, some (fd / FD_PER_HEAP, base), .out⟩) ⟨known, loaded, .mapped⟩ := by
    rw [wp_bind]
    refine wp_mono (wp_growLoop hsmall hopen (Nat.succ_pos _) (Nat.le_add_left ..)) ?_
    rintro _ _ ⟨heaps, rfl, hheaps⟩
    refine wp_ask_bind ⟨heaps, rfl⟩ fun _ _ => wp_mono (wp_aref hheaps hopen) ?_
    rintro slot g ⟨base, hslot, hg⟩
    exact ⟨base, heaps, hslot, hg⟩
  cases mapped with
  | true => exact hrest
  | false =>
    rw [if_pos rfl, wp_bind]
    refine wp_mono wp_fdMapInit ?_
    rintro _ _ rfl
    exact hrest

/-- `mog_fd_get` gives back the lock, and the slot it returns is that of the entry it has read. -/
theorem wp_mogFdGet (hsmall : fd < 2 ^ 31 - FD_PER_HEAP) (hopen : fd < openMax) :
    wp (fdContract openMax) (mogFdGet fd) (fun slot g => ∃ base known, slot = slotAt base (fd % FD_PER_HEAP) ∧
      g = ⟨known, some (fd / FD_PER_HEAP, base), .out⟩) ⟨known, loaded, .out⟩ := by
  apply wp_require_bind
  · intro hfalse
    exact absurd (Int.natCast_nonneg fd) (of_decide_eq_false hfalse)
  intro _
  refine wp_ask_bind (Or.inl rfl) fun maxFd hmay => ?_
  obtain ⟨heaps, rfl, -, -⟩ := hmay
  rw [Int.toNat_natCast]
  split
  · rename_i hlt
    refine wp_mono (wp_aref ?_ hopen) fun slot g ⟨base, hslot, hg⟩ => ⟨base, _, hslot, hg⟩
    unfold FD_PER_HEAP at *
    omega
  · exact wp_growRef hsmall hopen

/-- The descriptors that a thread asks for. -/
def FdAsked (openMax : Nat) (gets : List Int) : Prop :=
  ∀ fd ∈ gets, 0 ≤ fd ∧ fd < openMax ∧ fd < 2 ^ 31 - FD_PER_HEAP

theorem wp_fdGets {gets : List Int} (hgets : FdAsked openMax gets) :
    wp (fdContract openMax) (fdGets gets) (fun _ _ => True) ⟨known, loaded, .out⟩ := by
  induction gets generalizing known loaded with
  | nil => trivial
  | cons fd gets ih =>
    obtain ⟨hpos, hopen, hsmall⟩ := hgets fd (List.mem_cons_self ..)
    obtain ⟨fd, rfl⟩ := Int.eq_ofNat_of_zero_le hpos
    unfold fdGets
    rw [wp_bind]
    refine wp_mono (wp_mogFdGet ?_ ?_) ?_
    · unfold FD_PER_HEAP at *
      omega
    · omega
    · rintro slot _ ⟨base, known, rfl, rfl⟩
      refine wp_ask_bind ⟨fd, base, rfl, rfl, rfl⟩ fun _ _ => ih ?_
      exact fun fd hmem => hgets fd (List.mem_cons_of_mem _ hmem)

end Threads

/-! ### What holds of the memory -/

section Invariant

variable {Tid : Type} {openMax n n' : Nat} {w w' : FdWorld Tid} {ghosts : Tid → FdGhost}

/-- The memory of a heap is allocated and holds the slots from `first` on. -/
structure FilledHeap (w : FdWorld Tid) (base first : Nat) : Prop where
  block : (base, heapSize) ∈ w.blocks
  slots : ∀ i < FD_PER_HEAP, w.mem (slotAt base i) = .full (first + i)

/-- `n` heaps are published. -/
structure FdShape (openMax : Nat) (w : FdWorld Tid) (n : Nat) : Prop where
  maxFd : w.maxFd = FD_PER_HEAP * n
  small : n < 2 ^ 23
  heaps : ∀ k < n, ∃ base, w.entries k = some base ∧ FilledHeap w base (FD_PER_HEAP * k)
  blocks : ∀ a ∈ w.blocks, ∀ b ∈ w.blocks, a ≠ b → KeptApart a b
  mapped : 0 < n → w.slots = some (mapSlots openMax)
  slots : w.slots = none ∨ w.slots = some (mapSlots openMax)
  returned : ∀ fd slot, (fd, slot) ∈ w.returned → ∃ k base : Nat, fd = k ∧ k / FD_PER_HEAP < n ∧
    w.entries (k / FD_PER_HEAP) = some base ∧ slot = slotAt base (k % FD_PER_HEAP)

/-- Memory that no published heap uses. -/
def Unpublished (w : FdWorld Tid) (n base : Nat) : Prop :=
  (base, heapSize) ∈ w.blocks ∧ ∀ k < n, w.entries k ≠ some base

/-- What the phase of the owner says of the memory. -/
def PhaseHolds (openMax : Nat) (w : FdWorld Tid) (n : Nat) : FdPhase → Prop
  | .out => True
  | .locked | .unmapped | .allocated => w.heaps = n
  | .mapped => w.heaps = n ∧ w.slots = some (mapSlots openMax)
  | .ready m => m = n ∧ w.heaps = n ∧ w.slots = some (mapSlots openMax)
  | .filling m base block => m = n ∧ w.heaps = n ∧ w.slots = some (mapSlots openMax) ∧ Unpublished w n base ∧
      ∀ i < FD_PER_HEAP, w.mem (slotAt base i) = block i
  | .counted m base => m = n ∧ w.heaps = n + 1 ∧ w.slots = some (mapSlots openMax) ∧ Unpublished w n base ∧
      FilledHeap w base (FD_PER_HEAP * n)
  | .stored m base => m = n ∧ w.heaps = n + 1 ∧ w.slots = some (mapSlots openMax) ∧
      w.entries n = some base ∧ FilledHeap w base (FD_PER_HEAP * n)

structure FdLocal (openMax : Nat) (w : FdWorld Tid) (n : Nat) (thread : Tid) (g : FdGhost) : Prop where
  known : g.known ≤ n
  loaded : ∀ k base, g.loaded = some (k, base) → k < n ∧ w.entries k = some base
  owner : g.phase ≠ .out → w.lock = some thread
  phase : PhaseHolds openMax w n g.phase

structure FdInvAt (openMax : Nat) (w : FdWorld Tid) (ghosts : Tid → FdGhost) (n : Nat) : Prop where
  shape : FdShape openMax w n
  locals : ∀ thread, FdLocal openMax w n thread (ghosts thread)
  free : w.lock = none → w.heaps = n

def FdInv (openMax : Nat) (w : FdWorld Tid) (ghosts : Tid → FdGhost) : Prop := ∃ n, FdInvAt openMax w ghosts n

theorem slots_apart (h : KeptApart (base, heapSize) (base', heapSize)) (hi : i < FD_PER_HEAP)
    (hj : j < FD_PER_HEAP) : KeptApart (slotAt base i, FD_PAD_SIZE) (slotAt base' j, FD_PAD_SIZE) := by
  unfold KeptApart slotAt heapSize FD_PAD_SIZE FD_PER_HEAP at *
  dsimp only at *
  omega

/-- Two heaps are apart, and so are two slots of one heap. -/
theorem FdShape.apart (h : FdShape openMax w n) (hbase : (base, heapSize) ∈ w.blocks)
    (hbase' : (base', heapSize) ∈ w.blocks) (hi : i < FD_PER_HEAP) (hj : j < FD_PER_HEAP)
    (hne : base ≠ base' ∨ i ≠ j) : KeptApart (slotAt base i, FD_PAD_SIZE) (slotAt base' j, FD_PAD_SIZE) := by
  by_cases hsame : base = base'
  · subst hsame
    have hij := hne.resolve_left (not_not_intro rfl)
    unfold KeptApart slotAt FD_PAD_SIZE
    dsimp only
    omega
  · refine slots_apart (h.blocks _ hbase _ hbase' ?_) hi hj
    intro heq
    exact hsame (congrArg Prod.fst heq)

theorem FilledHeap.write {first : Nat} (h : FilledHeap w base' first)
    (hshape : FdShape openMax w n) (hbase : (base, heapSize) ∈ w.blocks) (hi : i < FD_PER_HEAP) (hne : base' ≠ base) :
    FilledHeap (w.write (slotAt base i) f) base' first where
  block := h.block
  slots j hj := by
    have hapart := hshape.apart h.block hbase hj hi (Or.inl hne)
    have hslot : slotAt base' j ≠ slotAt base i := by
      unfold KeptApart FD_PAD_SIZE at hapart
      dsimp only at hapart
      omega
    dsimp only [FdWorld.write]
    rw [Function.update_of_ne hslot]
    exact h.slots j hj

/-- `mog_cachealign` does not touch what was allocated before. -/
theorem FilledHeap.cachealign {first : Nat} (h : FilledHeap w base' first)
    (hfresh : ∀ block ∈ w.blocks, KeptApart (base, size) block) : FilledHeap { w with
      blocks := (base, size) :: w.blocks
      mem := fun a => if base ≤ a ∧ a < base + size then .blank else w.mem a } base' first where
  block := List.mem_cons_of_mem _ h.block
  slots i hi := by
    have hapart := hfresh _ h.block
    dsimp only
    rw [if_neg]
    · exact h.slots i hi
    · unfold KeptApart slotAt heapSize FD_PAD_SIZE FD_PER_HEAP at *
      dsimp only at hapart
      omega

theorem FdShape.cachealign (h : FdShape openMax w n)
    (hfresh : ∀ block ∈ w.blocks, KeptApart (base, size) block) : FdShape openMax { w with
      blocks := (base, size) :: w.blocks
      mem := fun a => if base ≤ a ∧ a < base + size then .blank else w.mem a } n where
  maxFd := h.maxFd
  small := h.small
  heaps k hk := by
    obtain ⟨base', hentry, hfilled⟩ := h.heaps k hk
    exact ⟨base', hentry, hfilled.cachealign hfresh⟩
  blocks := by
    intro a ha b hb hne
    rcases List.mem_cons.mp ha with rfl | ha
    · rcases List.mem_cons.mp hb with rfl | hb
      · exact absurd rfl hne
      · exact hfresh b hb
    · rcases List.mem_cons.mp hb with rfl | hb
      · exact (hfresh a ha).symm
      · exact h.blocks a ha b hb hne
  mapped := h.mapped
  slots := h.slots
  returned := h.returned

/-- The new heap is no published one, and it is blank. -/
theorem FdShape.cachealign_filling (h : FdShape openMax w n) (hheaps : w.heaps = n)
    (hslots : w.slots = some (mapSlots openMax)) (hfresh : ∀ block ∈ w.blocks, KeptApart (base, heapSize) block) :
    PhaseHolds openMax { w with
      blocks := (base, heapSize) :: w.blocks
      mem := fun a => if base ≤ a ∧ a < base + heapSize then .blank else w.mem a } n
      (.filling n base fun _ => .blank) := by
  refine ⟨rfl, hheaps, hslots, ⟨List.mem_cons_self .., fun k hk hentry => ?_⟩, fun i hi => ?_⟩
  · obtain ⟨base', hentry', hfilled⟩ := h.heaps k hk
    obtain rfl := Option.some.inj (hentry.symm.trans hentry')
    have hself := hfresh _ hfilled.block
    unfold KeptApart heapSize FD_PAD_SIZE FD_PER_HEAP at hself
    dsimp only at hself
    omega
  · dsimp only
    rw [if_pos]
    unfold slotAt heapSize FD_PAD_SIZE FD_PER_HEAP at *
    omega

/-- The lock, the count of heaps and the map itself are of no consequence for the heaps. -/
theorem FdShape.of_eq (h : FdShape openMax w n) (hmax : w'.maxFd = w.maxFd) (hentries : w'.entries = w.entries)
    (hblocks : w'.blocks = w.blocks) (hmem : w'.mem = w.mem) (hreturned : w'.returned = w.returned)
    (hslots : w'.slots = w.slots ∨ w'.slots = some (mapSlots openMax)) : FdShape openMax w' n where
  maxFd := hmax.trans h.maxFd
  small := h.small
  heaps k hk := by
    obtain ⟨base, hentry, hblock, hfull⟩ := h.heaps k hk
    refine ⟨base, ?_, ?_, fun i hi => ?_⟩
    · rw [hentries, hentry]
    · rwa [hblocks]
    · rw [hmem, hfull i hi]
  blocks := by
    rw [hblocks]
    exact h.blocks
  mapped hpos := by
    rcases hslots with hslots | hslots
    · exact hslots.trans (h.mapped hpos)
    · exact hslots
  slots := by
    rcases hslots with hslots | hslots
    · rw [hslots]
      exact h.slots
    · exact Or.inr hslots
  returned := by
    rw [hreturned, hentries]
    exact h.returned

variable [DecidableEq Tid] {thread : Tid} {g : FdGhost}

omit [DecidableEq Tid] in
/-- While a thread has the lock, or nobody has it, the others are out. -/
theorem FdInvAt.others_out (h : FdInvAt openMax w ghosts n) (hlock : w.lock = some thread ∨ w.lock = none) {other : Tid}
    (hother : other ≠ thread) : (ghosts other).phase = .out := by
  by_contra hphase
  have howner := (h.locals other).owner hphase
  rcases hlock with hlock | hlock
  · rw [hlock] at howner
    exact hother (Option.some.inj howner).symm
  · rw [hlock] at howner
    cases howner

/-- A step of the thread that has or takes the lock. -/
theorem FdInvAt.owned (h : FdInvAt openMax w ghosts n) (hlock : w.lock = some thread ∨ w.lock = none)
    (hshape : FdShape openMax w' n') (hle : n ≤ n') (hentries : ∀ k < n, w'.entries k = w.entries k)
    (hfree : w'.lock = none → w'.heaps = n') (hlocal : FdLocal openMax w' n' thread g) :
    FdInv openMax w' (Function.update ghosts thread g) := by
  refine ⟨n', hshape, fun other => ?_, hfree⟩
  by_cases hother : other = thread
  · subst hother
    rwa [Function.update_self]
  · rw [Function.update_of_ne hother]
    have hout := h.others_out hlock hother
    have hbefore := h.locals other
    refine ⟨Nat.le_trans hbefore.known hle, fun k base hloaded => ?_, fun hphase => absurd hout hphase, ?_⟩
    · obtain ⟨hk, hentry⟩ := hbefore.loaded k base hloaded
      exact ⟨Nat.lt_of_lt_of_le hk hle, (hentries k hk).trans hentry⟩
    · rw [hout]
      trivial

/-- A step that leaves the memory as it is. -/
theorem FdInvAt.quiet (h : FdInvAt openMax w ghosts n) (hlocal : FdLocal openMax w n thread g) :
    FdInv openMax w (Function.update ghosts thread g) := by
  refine ⟨n, h.shape, fun other => ?_, h.free⟩
  by_cases hother : other = thread
  · subst hother
    rwa [Function.update_self]
  · rw [Function.update_of_ne hother]
    exact h.locals other

section Calls

variable {known : Nat} {loaded : Option (Nat × Nat)}

/-- The owner changes its phase, and the memory keeps its shape. -/
theorem FdInvAt.phase {phase phase' : FdPhase} (h : FdInvAt openMax w ghosts n)
    (hlocal : FdLocal openMax w n thread ⟨known, loaded, phase⟩) (hphase : phase ≠ .out)
    (hshape : FdShape openMax w' n) (hentries : w'.entries = w.entries) (hlock : w'.lock = w.lock)
    (hholds : PhaseHolds openMax w' n phase') :
    FdInv openMax w' (Function.update ghosts thread ⟨known, loaded, phase'⟩) := by
  have howner := hlocal.owner hphase
  refine h.owned (Or.inl howner) hshape (Nat.le_refl n) (fun k _ => by rw [hentries]) (fun hnone => ?_) ?_
  · rw [hlock, howner] at hnone
    cases hnone
  · refine ⟨hlocal.known, ?_, fun _ => hlock.trans howner, hholds⟩
    rw [hentries]
    exact hlocal.loaded

/-- The owner writes a slot of the heap it fills. -/
theorem FdInvAt.write {block : Nat → FdSlot} (h : FdInvAt openMax w ghosts n)
    (hlocal : FdLocal openMax w n thread ⟨known, loaded, .filling n base block⟩) (hi : i < FD_PER_HEAP) :
    FdInv openMax (w.write (slotAt base i) f) (Function.update ghosts thread
      ⟨known, loaded, FdPhase.write (slotAt base i) f (.filling n base block)⟩) := by
  obtain ⟨-, hheaps, hslots, ⟨hblock, hunpublished⟩, hmem⟩ := hlocal.phase
  refine h.phase hlocal nofun ?_ rfl rfl ⟨rfl, hheaps, hslots, ⟨hblock, hunpublished⟩, fun j hj => ?_⟩
  · refine ⟨h.shape.maxFd, h.shape.small, fun k hk => ?_, h.shape.blocks, h.shape.mapped, h.shape.slots,
      h.shape.returned⟩
    obtain ⟨base', hentry, hfilled⟩ := h.shape.heaps k hk
    refine ⟨base', hentry, hfilled.write h.shape hblock hi ?_⟩
    rintro rfl
    exact hunpublished k hk hentry
  · dsimp only [FdWorld.write]
    by_cases hsame : slotAt base j = slotAt base i
    · rw [if_pos hsame, hsame, Function.update_self, ← hsame, hmem j hj]
    · rw [if_neg hsame, Function.update_of_ne hsame, hmem j hj]

/-- The owner stores the pointer to the heap it has filled. -/
theorem FdInvAt.setEntry (h : FdInvAt openMax w ghosts n)
    (hlocal : FdLocal openMax w n thread ⟨known, loaded, .counted n base⟩) :
    FdInv openMax { w with entries := Function.update w.entries n (some base) }
      (Function.update ghosts thread ⟨known, loaded, .stored n base⟩) := by
  have howner := hlocal.owner nofun
  obtain ⟨-, hheaps, hslots, -, hfilled⟩ := hlocal.phase
  have hsame : ∀ k < n, Function.update w.entries n (some base) k = w.entries k :=
    fun k hk => Function.update_of_ne (Nat.ne_of_lt hk) ..
  refine h.owned (Or.inl howner) ?_ (Nat.le_refl n) hsame (fun hnone => absurd (howner.symm.trans hnone) nofun) ?_
  · refine ⟨h.shape.maxFd, h.shape.small, fun k hk => ?_, h.shape.blocks, h.shape.mapped, h.shape.slots,
      fun fd slot hmem => ?_⟩
    · obtain ⟨base', hentry, hheap⟩ := h.shape.heaps k hk
      exact ⟨base', (hsame k hk).trans hentry, hheap.block, hheap.slots⟩
    · obtain ⟨k, base', hfd, hk, hentry, hslot⟩ := h.shape.returned fd slot hmem
      exact ⟨k, base', hfd, hk, (hsame _ hk).trans hentry, hslot⟩
  · refine ⟨hlocal.known, fun k base' hloaded => ?_, fun _ => howner, rfl, hheaps, hslots, Function.update_self ..,
      hfilled.block, hfilled.slots⟩
    obtain ⟨hk, hentry⟩ := hlocal.loaded k base' hloaded
    exact ⟨hk, (hsame k hk).trans hentry⟩

/-- The owner publishes the heap: only now is `max_fd` raised. -/
theorem FdInvAt.addMaxFd (h : FdInvAt openMax w ghosts n)
    (hlocal : FdLocal openMax w n thread ⟨known, loaded, .stored n base⟩) (hsmall : n + 1 < 2 ^ 23) :
    FdInv openMax { w with maxFd := wrap32 (w.maxFd + FD_PER_HEAP) }
      (Function.update ghosts thread ⟨n + 1, loaded, .mapped⟩) := by
  have howner := hlocal.owner nofun
  obtain ⟨-, hheaps, hslots, hentry, hfilled⟩ := hlocal.phase
  refine h.owned (Or.inl howner) ?_ (Nat.le_succ n) (fun _ _ => rfl)
    (fun hnone => absurd (howner.symm.trans hnone) nofun) ?_
  · refine ⟨?_, hsmall, fun k hk => ?_, h.shape.blocks, fun _ => hslots, h.shape.slots, fun fd slot hmem => ?_⟩
    · have hlt : FD_PER_HEAP * (n + 1) < 2 ^ 31 := by
        unfold FD_PER_HEAP
        omega
      have hwrap := wrap32_of_lt hlt
      dsimp only
      rw [h.shape.maxFd]
      calc wrap32 (↑FD_PER_HEAP * ↑n + ↑FD_PER_HEAP)
          = wrap32 ↑(FD_PER_HEAP * (n + 1)) := by
            rw [Nat.mul_succ]
            push_cast
            rfl
        _ = ↑FD_PER_HEAP * ↑(n + 1) := by
            rw [hwrap]
            push_cast
            rfl
    · rcases Nat.lt_succ_iff_lt_or_eq.mp hk with hk | rfl
      · obtain ⟨base', hentry', hheap⟩ := h.shape.heaps k hk
        exact ⟨base', hentry', hheap.block, hheap.slots⟩
      · exact ⟨base, hentry, hfilled.block, hfilled.slots⟩
    · obtain ⟨k, base', hfd, hk, hreturned⟩ := h.shape.returned fd slot hmem
      exact ⟨k, base', hfd, Nat.lt_succ_of_lt hk, hreturned⟩
  · refine ⟨Nat.le_refl _, fun k base' hloaded => ?_, fun _ => howner, hheaps, hslots⟩
    obtain ⟨hk, hentry'⟩ := hlocal.loaded k base' hloaded
    exact ⟨Nat.lt_succ_of_lt hk, hentry'⟩

/-- What has been returned is of no consequence for the threads. -/
theorem FdInvAt.returned {k : Nat} (h : FdInvAt openMax w ghosts n)
    (hlocal : FdLocal openMax w n thread g) (hloaded : g.loaded = some (k / FD_PER_HEAP, base)) :
    FdInv openMax { w with returned := (↑k, slotAt base (k % FD_PER_HEAP)) :: w.returned }
      (Function.update ghosts thread g) := by
  have hlocals : ∀ thread g, FdLocal openMax w n thread g →
      FdLocal openMax { w with returned := (↑k, slotAt base (k % FD_PER_HEAP)) :: w.returned } n thread g := by
    intro thread g hlocal
    refine ⟨hlocal.known, hlocal.loaded, hlocal.owner, ?_⟩
    have hphase := hlocal.phase
    cases hg : g.phase <;> rw [hg] at hphase
    case counted => exact ⟨hphase.1, hphase.2.1, hphase.2.2.1, hphase.2.2.2.1, ⟨hphase.2.2.2.2.1, hphase.2.2.2.2.2⟩⟩
    case stored => exact ⟨hphase.1, hphase.2.1, hphase.2.2.1, hphase.2.2.2.1, ⟨hphase.2.2.2.2.1, hphase.2.2.2.2.2⟩⟩
    all_goals exact hphase
  refine ⟨n, ⟨h.shape.maxFd, h.shape.small, fun k hk => ?_, h.shape.blocks, h.shape.mapped, h.shape.slots, ?_⟩,
    fun other => ?_, h.free⟩
  · obtain ⟨base', hentry, hheap⟩ := h.shape.heaps k hk
    exact ⟨base', hentry, hheap.block, hheap.slots⟩
  · intro fd slot hmem
    rcases List.mem_cons.mp hmem with heq | hmem
    · obtain ⟨rfl, rfl⟩ := Prod.mk.inj heq
      obtain ⟨hk, hentry⟩ := hlocal.loaded _ _ hloaded
      exact ⟨k, base, rfl, hk, hentry, rfl⟩
    · exact h.shape.returned fd slot hmem
  · by_cases hother : other = thread
    · subst hother
      rw [Function.update_self]
      exact hlocals _ _ hlocal
    · rw [Function.update_of_ne hother]
      exact hlocals _ _ (h.locals other)

/-- `fetchMaxFd`: at the start of `mog_fd_get` or in the loop. -/
theorem FdInvAt.fetchMaxFd (h : FdInvAt openMax w ghosts n) (hlocal : FdLocal openMax w n thread g)
    (hmust : g.phase = .out ∨ g.phase = .mapped) :
    FdInv openMax w (Function.update ghosts thread ((fdContract openMax).next g .fetchMaxFd w.maxFd)) := by
  have hheaps : w.maxFd.toNat / FD_PER_HEAP = n := by
    rw [h.shape.maxFd]
    unfold FD_PER_HEAP
    omega
  obtain ⟨known, loaded, phase⟩ := g
  rcases hmust with rfl | rfl
  · dsimp only [fdContract]
    rw [hheaps]
    exact h.quiet ⟨Nat.le_refl n, hlocal.loaded, hlocal.owner, trivial⟩
  · dsimp only [fdContract]
    rw [hheaps]
    exact h.quiet ⟨Nat.le_refl n, hlocal.loaded, fun _ => hlocal.owner nofun, rfl, hlocal.phase⟩

/-- `cachealign`: for the map or for a heap. -/
theorem FdInvAt.cachealign (h : FdInvAt openMax w ghosts n)
    (hlocal : FdLocal openMax w n thread g) (hmust : (fdContract openMax).must g (.cachealign size))
    (hfresh : ∀ block ∈ w.blocks, KeptApart (base, size) block) :
    FdInv openMax { w with
      blocks := (base, size) :: w.blocks
      mem := fun a => if base ≤ a ∧ a < base + size then .blank else w.mem a }
      (Function.update ghosts thread ((fdContract openMax).next g (.cachealign size) (some base))) := by
  obtain ⟨known, loaded, phase⟩ := g
  rcases hmust with hphase | ⟨m, hphase, rfl⟩
  · obtain rfl : phase = .unmapped := hphase
    exact h.phase hlocal nofun (h.shape.cachealign hfresh) rfl rfl hlocal.phase
  · obtain rfl : phase = .ready m := hphase
    obtain ⟨rfl, hheaps, hslots⟩ := hlocal.phase
    exact h.phase hlocal nofun (h.shape.cachealign hfresh) rfl rfl
      (h.shape.cachealign_filling hheaps hslots hfresh)

/-- **Every call of every thread keeps the invariant.** -/
theorem fdKeeps : Keeps (fdHandles openMax) (fdContract openMax) (@FdInv Tid openMax) := by
  intro w ghosts thread request answer w' ⟨n, h⟩ hmust hhandles
  have hlocal := h.locals thread
  generalize ghosts thread = g at hlocal hmust
  cases request with
  | fetchMaxFd =>
    obtain ⟨rfl, rfl⟩ := hhandles
    exact ⟨⟨n, h.shape.maxFd, hlocal.known, h.shape.small⟩, h.fetchMaxFd hlocal hmust⟩
  | addMaxFd count =>
    obtain ⟨known, loaded, phase⟩ := g
    obtain ⟨rfl, m, base, hphase, hsmall⟩ := hmust
    obtain rfl : phase = .stored m base := hphase
    obtain rfl : m = n := hlocal.phase.1
    obtain rfl : w' = _ := hhandles
    exact ⟨trivial, h.addMaxFd hlocal hsmall⟩
  | lock =>
    obtain ⟨hnone, rfl⟩ := hhandles
    exact ⟨trivial, h.owned (Or.inr hnone) (h.shape.of_eq rfl rfl rfl rfl rfl (Or.inl rfl)) (Nat.le_refl n)
      (fun _ _ => rfl) nofun ⟨hlocal.known, hlocal.loaded, fun _ => rfl, h.free hnone⟩⟩
  | unlock =>
    obtain ⟨known, loaded, phase⟩ := g
    obtain ⟨m, hphase⟩ := hmust
    obtain rfl : phase = .ready m := hphase
    obtain rfl : w' = _ := hhandles
    exact ⟨trivial, h.owned (Or.inl (hlocal.owner nofun)) (h.shape.of_eq rfl rfl rfl rfl rfl (Or.inl rfl))
      (Nat.le_refl n) (fun _ _ => rfl) (fun _ => hlocal.phase.2.1)
      ⟨hlocal.known, hlocal.loaded, fun hout => absurd rfl hout, trivial⟩⟩
  | fdMap =>
    obtain ⟨known, loaded, phase⟩ := g
    obtain rfl : phase = .locked := hmust
    obtain ⟨rfl, rfl⟩ := hhandles
    refine ⟨trivial, h.phase hlocal nofun h.shape rfl rfl ?_⟩
    have hheaps : w'.heaps = n := hlocal.phase
    rcases h.shape.slots with hslots | hslots
    · rw [hslots]
      exact hheaps
    · rw [hslots]
      exact ⟨hheaps, hslots⟩
  | sysconf =>
    obtain ⟨rfl, rfl⟩ := hhandles
    exact ⟨rfl, h.quiet hlocal⟩
  | cachealign size =>
    cases answer with
    | none =>
      obtain rfl : w' = w := hhandles
      exact ⟨trivial, h.quiet hlocal⟩
    | some base =>
      obtain ⟨hfresh, rfl⟩ := hhandles
      exact ⟨trivial, h.cachealign hlocal hmust hfresh⟩
  | setMap slots =>
    obtain ⟨known, loaded, phase⟩ := g
    obtain ⟨hphase, rfl⟩ := hmust
    obtain rfl : phase = .allocated := hphase
    obtain rfl : w' = _ := hhandles
    exact ⟨trivial, h.phase hlocal nofun (h.shape.of_eq rfl rfl rfl rfl rfl (Or.inr rfl)) rfl rfl
      ⟨hlocal.phase, rfl⟩⟩
  | setUnused slot =>
    obtain ⟨known, loaded, phase⟩ := g
    obtain ⟨m, base, block, hphase, i, hi, rfl⟩ := hmust
    obtain rfl : phase = .filling m base block := hphase
    obtain rfl : m = n := hlocal.phase.1
    obtain rfl : w' = _ := hhandles
    exact ⟨trivial, h.write hlocal hi⟩
  | spinInit slot =>
    obtain ⟨known, loaded, phase⟩ := g
    obtain ⟨m, base, block, hphase, i, hi, rfl⟩ := hmust
    obtain rfl : phase = .filling m base block := hphase
    obtain rfl : m = n := hlocal.phase.1
    obtain rfl : w' = _ := hhandles
    refine ⟨trivial, ?_⟩
    dsimp only [fdContract]
    split
    · exact h.write hlocal hi
    · exact h.quiet hlocal
  | setFd slot fd =>
    obtain ⟨known, loaded, phase⟩ := g
    obtain ⟨m, base, block, hphase, i, hi, rfl⟩ := hmust
    obtain rfl : phase = .filling m base block := hphase
    obtain rfl : m = n := hlocal.phase.1
    obtain rfl : w' = _ := hhandles
    exact ⟨trivial, h.write hlocal hi⟩
  | nextHeap =>
    obtain ⟨known, loaded, phase⟩ := g
    obtain ⟨m, base, block, hphase, hfull⟩ := hmust
    obtain rfl : phase = .filling m base block := hphase
    obtain ⟨rfl, rfl⟩ := hhandles
    obtain ⟨rfl, hheaps, hslots, hunpublished, hmem⟩ := hlocal.phase
    refine ⟨fun m' _ _ hsame => ?_, h.phase hlocal nofun (h.shape.of_eq rfl rfl rfl rfl rfl (Or.inl rfl)) rfl rfl
      ⟨rfl, congrArg (· + 1) hheaps, hslots, hunpublished, hunpublished.1, fun i hi => ?_⟩⟩
    · cases hsame
      exact hheaps
    · rw [← hfull i hi]
      exact hmem i hi
  | setEntry index base =>
    obtain ⟨known, loaded, phase⟩ := g
    obtain ⟨hphase, -⟩ := hmust
    obtain rfl : phase = .counted index base := hphase
    obtain rfl : index = n := hlocal.phase.1
    obtain rfl : w' = _ := hhandles
    exact ⟨trivial, h.setEntry hlocal⟩
  | entry index =>
    obtain ⟨hread, rfl⟩ := hhandles
    have hindex : index < n := Nat.lt_of_lt_of_le hmust.1 hlocal.known
    obtain ⟨base, hentry, -⟩ := h.shape.heaps index hindex
    obtain rfl := hread base hentry
    refine ⟨trivial, h.quiet ⟨hlocal.known, fun k base' hloaded => ?_, hlocal.owner, hlocal.phase⟩⟩
    cases hloaded
    exact ⟨hindex, hentry⟩
  | returned fd slot =>
    obtain ⟨k, base, rfl, hloaded, rfl⟩ := hmust
    obtain rfl : w' = _ := hhandles
    exact ⟨trivial, h.returned hlocal hloaded⟩
  | die => exact answer.elim

end Calls

end Invariant

/-! ### The map -/

/-- A thread is about to read or to write `fd_map[index]`. -/
def UsesHeap (index : Nat) : FdIo Unit → Prop
  | .call (.entry used) _ => used = index
  | .call (.setEntry used _) _ => used = index
  | _ => False

/-- A thread is about to initialise a part of a slot. -/
def Initialises (slot : Nat) : FdIo Unit → Prop
  | .call (.setUnused written) _ => written = slot
  | .call (.spinInit written) _ => written = slot
  | .call (.setFd written _) _ => written = slot
  | _ => False

section Stable

variable {Tid : Type}

/-- The map is a stable injection. -/
structure FdStable (config : Config Tid (FdWorld Tid) FdCall FdRes Unit) : Prop where
  bound : config.world.lock = none → config.world.maxFd = FD_PER_HEAP * config.world.heaps
  indexed : ∀ thread index, UsesHeap index (config.threads thread) →
    ∃ slots, config.world.slots = some slots ∧ index < slots
  returns : ∀ thread, config.threads thread ≠ abort
  initialised : ∀ fd slot, (fd, slot) ∈ config.world.returned → config.world.mem slot = ⟨true, true, some fd⟩
  apart : ∀ fd slot fd' slot', (fd, slot) ∈ config.world.returned → (fd', slot') ∈ config.world.returned →
    fd ≠ fd' → KeptApart (slot, FD_PAD_SIZE) (slot', FD_PAD_SIZE)
  unmoved : ∀ fd slot slot', (fd, slot) ∈ config.world.returned → (fd, slot') ∈ config.world.returned → slot = slot'
  untouched : ∀ thread slot fd slot', Initialises slot (config.threads thread) →
    (fd, slot') ∈ config.world.returned → KeptApart (slot, FD_PAD_SIZE) (slot', FD_PAD_SIZE)

variable {openMax n : Nat} {w : FdWorld Tid}

theorem mod_lt_heap (k : Nat) : k % FD_PER_HEAP < FD_PER_HEAP := Nat.mod_lt _ (by decide)

/-- A slot that was returned is one of a published heap. -/
theorem FdShape.of_returned (h : FdShape openMax w n) {fd : Int} (hmem : (fd, slot) ∈ w.returned) :
    ∃ k base : Nat, fd = k ∧ k / FD_PER_HEAP < n ∧ w.entries (k / FD_PER_HEAP) = some base ∧
      slot = slotAt base (k % FD_PER_HEAP) ∧ (base, heapSize) ∈ w.blocks ∧
      w.mem slot = ⟨true, true, some fd⟩ := by
  obtain ⟨k, base, rfl, hk, hentry, rfl⟩ := h.returned fd slot hmem
  obtain ⟨base', hentry', hheap⟩ := h.heaps _ hk
  obtain rfl := Option.some.inj (hentry.symm.trans hentry')
  refine ⟨k, base, rfl, hk, hentry, rfl, hheap.block, ?_⟩
  rw [hheap.slots _ (mod_lt_heap k), FdSlot.full, Nat.div_add_mod]

theorem FdShape.returned_apart (h : FdShape openMax w n) {fd fd' : Int} {slot' : Nat}
    (hmem : (fd, slot) ∈ w.returned) (hmem' : (fd', slot') ∈ w.returned) (hne : fd ≠ fd') :
    KeptApart (slot, FD_PAD_SIZE) (slot', FD_PAD_SIZE) := by
  obtain ⟨k, base, rfl, -, -, rfl, hblock, hslot⟩ := h.of_returned hmem
  obtain ⟨k', base', rfl, -, -, rfl, hblock', hslot'⟩ := h.of_returned hmem'
  refine h.apart hblock hblock' (mod_lt_heap k) (mod_lt_heap k') ?_
  by_contra hsame
  rw [not_or, not_not, not_not] at hsame
  -- the two would be one slot, with one `fd` field
  rw [hsame.1, hsame.2, hslot'] at hslot
  injection hslot with _ _ hfd
  exact hne (Option.some.inj hfd).symm

variable [DecidableEq Tid] {config : Config Tid (FdWorld Tid) FdCall FdRes Unit} {ghosts : Tid → FdGhost}

omit [DecidableEq Tid] in
theorem FdInvAt.stable (h : FdInvAt openMax config.world ghosts n)
    (hkeeps : ∀ thread, wp (fdContract openMax) (config.threads thread) (fun _ _ => True) (ghosts thread)) :
    FdStable config where
  bound hfree := by rw [h.shape.maxFd, h.free hfree]
  indexed thread index huses := by
    have hwp := hkeeps thread
    have hlocal := h.locals thread
    cases hthread : config.threads thread with
    | call request next =>
      rw [hthread] at huses hwp
      cases request with
      | entry used =>
        obtain rfl : used = index := huses
        have hpos : 0 < n := Nat.lt_of_lt_of_le (Nat.zero_lt_of_lt hwp.1.1) hlocal.known
        exact ⟨_, h.shape.mapped hpos, hwp.1.2⟩
      | setEntry used base =>
        obtain rfl : used = index := huses
        have hphase := hlocal.phase
        rw [hwp.1.1] at hphase
        exact ⟨_, hphase.2.2.1, hwp.1.2⟩
      | _ => exact huses.elim
    | _ =>
      rw [hthread] at huses
      exact huses.elim
  returns thread habort := by
    have hwp := hkeeps thread
    rw [habort] at hwp
    exact hwp
  initialised fd slot hmem := by
    obtain ⟨_, _, _, _, _, _, _, hslot⟩ := h.shape.of_returned hmem
    exact hslot
  apart fd slot fd' slot' hmem hmem' hne := h.shape.returned_apart hmem hmem' hne
  unmoved fd slot slot' hmem hmem' := by
    obtain ⟨k, base, rfl, -, hentry, rfl, -⟩ := h.shape.of_returned hmem
    obtain ⟨k', base', hk, -, hentry', rfl, -⟩ := h.shape.of_returned hmem'
    obtain rfl := Int.ofNat.inj hk
    rw [Option.some.inj (hentry.symm.trans hentry')]
  untouched thread slot fd slot' hinit hmem := by
    have hwp := hkeeps thread
    have hfilling : ∃ m base block, (ghosts thread).phase = .filling m base block ∧
        ∃ i < FD_PER_HEAP, slot = slotAt base i := by
      cases hthread : config.threads thread with
      | call request next =>
        rw [hthread] at hinit hwp
        cases request with
        | setUnused written =>
          obtain rfl : written = slot := hinit
          exact hwp.1
        | spinInit written =>
          obtain rfl : written = slot := hinit
          exact hwp.1
        | setFd written value =>
          obtain rfl : written = slot := hinit
          exact hwp.1
        | _ => exact hinit.elim
      | _ =>
        rw [hthread] at hinit
        exact hinit.elim
    obtain ⟨m, base, block, hphase, i, hi, rfl⟩ := hfilling
    have hholds := (h.locals thread).phase
    rw [hphase] at hholds
    obtain ⟨rfl, -, -, ⟨hblock, hunpublished⟩, -⟩ := hholds
    obtain ⟨k, base', rfl, hk, hentry, rfl, hblock', -⟩ := h.shape.of_returned hmem
    refine h.shape.apart hblock hblock' hi (mod_lt_heap k) (Or.inl ?_)
    rintro rfl
    exact hunpublished _ hk hentry

/-- **The descriptor map is a stable injection** in every state that threads can reach which ask for descriptors below
`open_max` that are not among the last 256 of an `int`. -/
theorem fd_map_stable {mem : Nat → FdSlot} {gets : Tid → List Int} (hgets : ∀ thread, FdAsked openMax (gets thread))
    (hreaches : Config.Reaches (fdHandles openMax) (fdStart mem gets) config) : FdStable config := by
  have hstart : (fdStart mem gets).Safe (fdContract openMax) (fun _ _ => True) (FdInv openMax)
      fun _ => ⟨0, none, .out⟩ := by
    constructor
    · exact ⟨0, ⟨rfl, by decide, nofun, nofun, nofun, Or.inl rfl, nofun⟩,
        fun _ => ⟨Nat.le_refl 0, nofun, fun hout => absurd rfl hout, trivial⟩, fun _ => rfl⟩
    · exact fun thread => wp_fdGets (hgets thread)
  obtain ⟨ghosts, ⟨n, hinv⟩, hkeeps⟩ := hstart.reaches fdKeeps hreaches
  exact hinv.stable hkeeps

/-! ### A thread alone -/

section Alone

variable {thread : Tid} {heaps : Nat} {lock : Option Tid} {returned : List (Int × Nat)}

/-- What the growth of the map reads and changes, but for the pointers and the memory. -/
structure FdCounts (w : FdWorld Tid) (heaps : Nat) (lock : Option Tid) (returned : List (Int × Nat)) : Prop where
  maxFd : w.maxFd = wrap32 ↑(FD_PER_HEAP * heaps)
  heaps : w.heaps = heaps
  lock : w.lock = lock
  returned : w.returned = returned

omit [DecidableEq Tid]

/-- There is room behind everything that was allocated. -/
theorem exists_apart (blocks : List (Nat × Nat)) (size : Nat) :
    ∃ base, ∀ block ∈ blocks, KeptApart (base, size) block := by
  have hbound : ∃ bound, ∀ block ∈ blocks, block.1 + block.2 ≤ bound := by
    induction blocks with
    | nil => exact ⟨0, nofun⟩
    | cons first blocks ih =>
      obtain ⟨bound, hbound⟩ := ih
      refine ⟨first.1 + first.2 + bound, fun block hmem => ?_⟩
      rcases List.mem_cons.mp hmem with rfl | hmem
      · omega
      · have := hbound block hmem
        omega
  obtain ⟨bound, hbound⟩ := hbound
  exact ⟨bound, fun block hmem => Or.inr (hbound block hmem)⟩

/-- Memory and pointers do not count. -/
theorem FdCounts.of_eq {w' : FdWorld Tid} (h : FdCounts w heaps lock returned) (hmax : w'.maxFd = w.maxFd)
    (hheaps : w'.heaps = w.heaps) (hlock : w'.lock = w.lock) (hreturned : w'.returned = w.returned) :
    FdCounts w' heaps lock returned :=
  ⟨hmax.trans h.maxFd, hheaps.trans h.heaps, hlock.trans h.lock, hreturned.trans h.returned⟩

theorem may_initSlots {fdMax : Int} (hcounts : FdCounts w heaps lock returned) :
    (initSlots base fdMax left i).May (fdHandles openMax) thread (fun _ w' => FdCounts w' heaps lock returned) w := by
  induction left generalizing w i with
  | zero => exact may_ret hcounts
  | succ left ih =>
    apply may_ask_bind () rfl
    apply may_ask_bind (0 : Int) (if_pos rfl).symm
    exact may_ask_bind () rfl (ih (hcounts.of_eq rfl rfl rfl rfl))

/-- One more heap, whatever `max_fd` becomes. -/
theorem may_growHeap {fdMax : Int} (hsmall : FD_PER_HEAP * heaps < 2 ^ 31)
    (hcounts : FdCounts w heaps lock returned) :
    (growHeap fdMax).May (fdHandles openMax) thread (fun _ w' => FdCounts w' (heaps + 1) lock returned) w := by
  obtain ⟨base, hfresh⟩ := exists_apart w.blocks (FD_PAD_SIZE * FD_PER_HEAP)
  apply may_ask_bind (some base) ⟨hfresh, rfl⟩
  refine May.bind (may_initSlots (hcounts.of_eq rfl rfl rfl rfl)) ?_
  intro _ w' hcounts'
  apply may_ask_bind w'.heaps ⟨rfl, rfl⟩
  apply may_ask_bind () rfl
  refine ⟨_, (), _, .cons (.nil _), .cons rfl (.nil _), ?_, congrArg (· + 1) hcounts'.heaps, hcounts'.lock,
    hcounts'.returned⟩
  show wrap32 (w'.maxFd + ↑FD_PER_HEAP) = _
  rw [hcounts'.maxFd, wrap32_of_lt hsmall, Nat.mul_succ, Nat.cast_add]

/-- The loop ends with the heap of `fd`, be it the last of an `int`. -/
theorem may_growLoop {fuel : Nat} (hmax : fd < 2 ^ 31) (hleft : heaps + left = fd / FD_PER_HEAP + 1)
    (hfuel : left < fuel) (hcounts : FdCounts w heaps lock returned) :
    (growLoop fd fuel).May (fdHandles openMax) thread
      (fun _ w' => FdCounts w' (fd / FD_PER_HEAP + 1) lock returned) w := by
  induction left generalizing w heaps fuel with
  | zero =>
    obtain ⟨fuel, rfl⟩ : ∃ k, fuel = k + 1 := ⟨fuel - 1, by omega⟩
    obtain rfl : heaps = fd / FD_PER_HEAP + 1 := hleft
    apply may_ask_bind _ ⟨hcounts.maxFd.symm, rfl⟩
    have hover : ¬ toSize (wrap32 ↑(FD_PER_HEAP * (fd / FD_PER_HEAP + 1))) ≤ fd := by
      by_cases hlast : fd / FD_PER_HEAP + 1 = 2 ^ 23
      · have hsize : toSize (wrap32 ((FD_PER_HEAP * 2 ^ 23 : Nat) : Int)) = 2 ^ 64 - 2 ^ 31 := by decide
        rw [hlast, hsize]
        omega
      · unfold FD_PER_HEAP at *
        rw [wrap32_of_lt (by omega), toSize_natCast (by omega)]
        omega
    rw [if_neg hover]
    exact may_ret hcounts
  | succ left ih =>
    obtain ⟨fuel, rfl⟩ : ∃ k, fuel = k + 1 := ⟨fuel - 1, by omega⟩
    have hlt : FD_PER_HEAP * heaps < 2 ^ 31 := by
      unfold FD_PER_HEAP at *
      omega
    apply may_ask_bind _ ⟨hcounts.maxFd.symm, rfl⟩
    rw [wrap32_of_lt hlt, toSize_natCast hlt, if_pos (by unfold FD_PER_HEAP at *; omega)]
    apply May.bind (may_growHeap hlt hcounts)
    intro _ w' hcounts'
    exact ih (by omega) (by omega) hcounts'

theorem may_aref (hcounts : FdCounts w heaps lock returned) :
    (aref fd).May (fdHandles openMax) thread (fun _ w' => FdCounts w' heaps lock returned) w := by
  cases hentry : w.entries (fd / FD_PER_HEAP) with
  | none =>
    apply may_ask_bind (0 : Nat) ⟨fun stored hstored => absurd (hentry.symm.trans hstored) nofun, rfl⟩
    exact may_ret hcounts
  | some base =>
    apply may_ask_bind base ⟨fun stored hstored => Option.some.inj (hentry.symm.trans hstored), rfl⟩
    exact may_ret hcounts

theorem may_growRef (hfd : fd < 2 ^ 31 - 1) (hheaps : heaps ≤ fd / FD_PER_HEAP)
    (hcounts : FdCounts w heaps none returned) :
    (growRef fd).May (fdHandles openMax) thread
      (fun _ w' => FdCounts w' (fd / FD_PER_HEAP + 1) none returned) w := by
  unfold growRef
  rw [decide_eq_true hfd, require_true, ret_bind]
  apply may_ask_bind () ⟨hcounts.lock, rfl⟩
  have hlocked : FdCounts { w with lock := some thread } heaps (some thread) returned :=
    ⟨hcounts.maxFd, hcounts.heaps, rfl, hcounts.returned⟩
  have hgrow : ∀ w₁, FdCounts w₁ heaps (some thread) returned →
      (growLoop fd (fd / FD_PER_HEAP + 2) >>= fun _ => fdSys .unlock >>= fun _ => aref fd).May (fdHandles openMax)
        thread (fun _ w' => FdCounts w' (fd / FD_PER_HEAP + 1) none returned) w₁ := by
    intro w₁ hcounts₁
    have hleft : heaps + (fd / FD_PER_HEAP + 1 - heaps) = fd / FD_PER_HEAP + 1 := by omega
    apply May.bind (may_growLoop (by omega) hleft (by omega) hcounts₁)
    intro _ w₂ hcounts₂
    exact may_ask_bind () rfl (may_aref ⟨hcounts₂.maxFd, hcounts₂.heaps, rfl, hcounts₂.returned⟩)
  apply may_ask_bind w.slots.isSome ⟨rfl, rfl⟩
  cases w.slots.isSome with
  | true => exact hgrow _ hlocked
  | false =>
    obtain ⟨base, hfresh⟩ := exists_apart w.blocks ((openMax / FD_PER_HEAP + 1) * 8)
    have hmap : fdMapInit.May (fdHandles openMax) thread (fun _ w' => FdCounts w' heaps (some thread) returned)
        { w with lock := some thread } := by
      apply may_ask_bind openMax ⟨rfl, rfl⟩
      apply may_ask_bind (some base) ⟨hfresh, rfl⟩
      exact ⟨_, (), _, .cons (.nil _), .cons rfl (.nil _), hlocked.of_eq rfl rfl rfl rfl⟩
    exact hmap.bind fun _ => hgrow

theorem may_mogFdGet {fd : Int} (hneg : 0 ≤ fd) (hfd : fd < 2 ^ 31 - 1) (hsmall : FD_PER_HEAP * heaps < 2 ^ 31)
    (hcounts : FdCounts w heaps none returned) :
    (mogFdGet fd).May (fdHandles openMax) thread
      (fun _ w' => FdCounts w' (max heaps (fd.toNat / FD_PER_HEAP + 1)) none returned) w := by
  unfold mogFdGet
  rw [decide_eq_true hneg, require_true, ret_bind]
  apply may_ask_bind _ ⟨hcounts.maxFd.symm, rfl⟩
  rw [wrap32_of_lt hsmall]
  split
  next hlt =>
    rw [Nat.max_eq_left (by unfold FD_PER_HEAP at *; omega)]
    exact may_aref hcounts
  next hge =>
    have hheaps : heaps ≤ fd.toNat / FD_PER_HEAP := by
      unfold FD_PER_HEAP at *
      omega
    rw [Nat.max_eq_right (by omega)]
    exact may_growRef (by omega) hheaps hcounts

/-- A thread that nobody disturbs gets all that it asks for. -/
theorem may_fdGets {gets : List Int} (hgets : FdAsked openMax gets) (hsmall : FD_PER_HEAP * heaps < 2 ^ 31)
    (hcounts : FdCounts w heaps none returned) :
    (fdGets gets).May (fdHandles openMax) thread (fun _ w' => ∃ heaps' returned', FD_PER_HEAP * heaps' < 2 ^ 31 ∧
      FdCounts w' heaps' none returned' ∧ returned'.map Prod.fst = gets.reverse ++ returned.map Prod.fst) w := by
  induction gets generalizing w heaps returned with
  | nil => exact may_ret ⟨heaps, returned, hsmall, hcounts, rfl⟩
  | cons fd rest ih =>
    obtain ⟨⟨hneg, -, hfd⟩, hrest⟩ := List.forall_mem_cons.mp hgets
    apply May.bind (may_mogFdGet hneg (by unfold FD_PER_HEAP at hfd; omega) hsmall hcounts)
    intro slot w' hcounts'
    apply may_ask_bind () rfl
    have hreturned : FdCounts { w' with returned := (fd, slot) :: w'.returned } _ none ((fd, slot) :: returned) :=
      ⟨hcounts'.maxFd, hcounts'.heaps, hcounts'.lock, congrArg _ hcounts'.returned⟩
    have hgot := ih hrest (by unfold FD_PER_HEAP at *; omega) hreturned
    simpa using hgot

end Alone

/-- Two threads, of which one needs a second heap. -/
def twoHeapGets (late : Bool) : List Int := if late then [0, 300] else [3]

theorem fd_map_stable_twoHeaps : ∃ config,
    Config.Reaches (fdHandles 1024) (fdStart (fun _ => .blank) twoHeapGets) config ∧
    config.world.returned.map Prod.fst = [3, 300, 0] ∧ FdStable config := by
  have hgets : ∀ late : Bool, FdAsked 1024 (twoHeapGets late) := by
    unfold FdAsked twoHeapGets
    decide
  have hstart : FdCounts (fdStart (fun _ => .blank) twoHeapGets).world 0 none [] := ⟨rfl, rfl, rfl, rfl⟩
  obtain ⟨_, _, w₁, hruns₁, hhandled₁, heaps, returned, hsmall, hcounts₁, hgot₁⟩ :=
    @may_fdGets _ 1024 _ true _ _ _ (hgets true) (by decide) hstart
  obtain ⟨_, _, w₂, hruns₂, hhandled₂, _, _, _, hcounts₂, hgot₂⟩ :=
    @may_fdGets _ 1024 _ false _ _ _ (hgets false) hsmall hcounts₁
  have hlate : Config.Reaches (fdHandles 1024) (fdStart (fun _ => .blank) twoHeapGets) _ :=
    .of_runs hruns₁ hhandled₁ rfl
  have hreaches := hlate.trans (Config.Reaches.of_runs hruns₂ hhandled₂ rfl)
  refine ⟨_, hreaches, ?_, fd_map_stable hgets hreaches⟩
  rw [hcounts₂.returned, hgot₂, hgot₁]
  rfl

/-- A descriptor of the last heap makes `max_fd` overflow: with the lock free it is -2^31, and there are 2^23 heaps. -/
theorem fd_map_overflows : ∃ config, Config.Reaches (fdHandles (2 ^ 31 - 64))
    (fdStart (fun _ => .blank) fun _ : Unit => [2 ^ 31 - 65]) config ∧ config.world.lock = none ∧
    config.world.maxFd = -2 ^ 31 ∧ config.world.heaps = 2 ^ 23 ∧ ¬ FdStable config := by
  have hget : (fdGets [2 ^ 31 - 65]).May (fdHandles (2 ^ 31 - 64)) ()
      (fun _ w' => w'.maxFd = -2 ^ 31 ∧ w'.heaps = 2 ^ 23 ∧ w'.lock = none)
      ⟨0, 0, none, fun _ => none, [], fun _ => .blank, none, []⟩ := by
    have hstart : FdCounts (⟨0, 0, none, fun _ => none, [], fun _ => .blank, none, []⟩ : FdWorld Unit) 0 none [] :=
      ⟨rfl, rfl, rfl, rfl⟩
    apply May.bind (may_mogFdGet (by decide) (by decide) (by decide) hstart)
    intro slot w' hcounts
    exact may_ask_bind () rfl (may_ret ⟨hcounts.maxFd.trans (by decide), hcounts.heaps, hcounts.lock⟩)
  obtain ⟨trace, _, w, hruns, hhandled, hmax, hheaps, hlock⟩ := hget
  refine ⟨_, .of_runs hruns hhandled rfl, hlock, hmax, hheaps, fun hstable => ?_⟩
  have hbound := hstable.bound hlock
  dsimp only at hbound
  rw [hmax, hheaps] at hbound
  exact absurd hbound (by decide)

end Stable

end Cmogstored
