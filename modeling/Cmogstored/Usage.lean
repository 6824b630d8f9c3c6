import Mathlib.Algebra.Order.Floor.Div
import Cmogstored.Types

/-! `emit_usage` of `dev.c`: the counters of a file system and the percentage that is in use. All
arithmetic before the scaling is that of `unsigned long long`; the division stops the process if the
divisor is zero. -/

namespace Cmogstored

/-! ### The code -/

/-- The fields of `struct statvfs` that are read. -/
structure Statvfs where
  frsize : UInt64
  blocks : UInt64
  bfree : UInt64
  bavail : UInt64
  deriving DecidableEq, Repr

namespace Statvfs

def total (v : Statvfs) : UInt64 := v.blocks - (v.bfree - v.bavail)

def used (v : Statvfs) : UInt64 := v.blocks - v.bfree

/-- The percentage, clipped; `none` where the division traps. -/
def use (v : Statvfs) : Option UInt32 :=
  if v.total = 0 then none
  else
    let roundUp : UInt64 := if v.used * 100 % v.total = 0 then 0 else 1
    let use := (v.used * 100 / v.total + roundUp).toUInt32
    some (if 100 < use then 100 else use)

end Statvfs

/-- What becomes of `emit_usage`. -/
inductive Emitted where
  /-- The division by `total` traps. -/
  | trap
  /-- No mount entry for the device: `ENODEV`. -/
  | noMount
  | text (usage : Bytes)
  deriving DecidableEq, Repr

/-- `usage_fmt` -/
def usageText (available : UInt64) (device disk : Bytes) (now : Int) (total : UInt64) (use : UInt32)
    (used : UInt64) : Bytes :=
  ascii "available: " ++ ascii (toString available.toNat) ++ ascii "\ndevice: " ++ device ++
    ascii "\ndisk: " ++ disk ++ ascii "\ntime: " ++ ascii (toString now) ++ ascii "\ntotal: " ++
    ascii (toString total.toNat) ++ ascii "\nuse: " ++ ascii (toString use.toNat) ++
    ascii "%\nused: " ++ ascii (toString used.toNat) ++ ascii "\n"

/-- `emit_usage`: `scale` is the product with `f_frsize / 1024.0` in `long double`, `device` the name
of the mount entry that is found. -/
def emitUsage (scale : UInt64 → UInt64 → UInt64) (disk : Bytes) (now : Int) (device : Option Bytes)
    (v : Statvfs) : Emitted :=
  match v.use with
  | none => .trap
  | some use =>
    match device with
    | none => .noMount
    | some device =>
      .text (usageText (scale v.frsize v.bavail) device disk now (scale v.frsize v.total) use
        (scale v.frsize v.used))

/-! ### Exactness -/

/-- What `fstatvfs` may return. -/
structure Statvfs.Admissible (v : Statvfs) : Prop where
  bavail_le : v.bavail ≤ v.bfree
  bfree_le : v.bfree ≤ v.blocks
  blocks_lt : v.blocks.toNat < 2 ^ 57

/-- The blocks in use, and those that are in use or may be, as numbers. -/
def Statvfs.usedBlocks (v : Statvfs) : Nat := v.blocks.toNat - v.bfree.toNat

def Statvfs.shared (v : Statvfs) : Nat := v.usedBlocks + v.bavail.toNat

section Arithmetic

variable {v : Statvfs} (h : v.Admissible)
include h

theorem Statvfs.Admissible.used_toNat : v.used.toNat = v.usedBlocks :=
  UInt64.toNat_sub_of_le _ _ h.bfree_le

/-- What the reserve leaves is what is used and what is available. -/
theorem Statvfs.Admissible.total_toNat : v.total.toNat = v.shared := by
  have hreserved := UInt64.toNat_sub_of_le _ _ h.bavail_le
  have havail := UInt64.le_iff_toNat_le.mp h.bavail_le
  have hfree := UInt64.le_iff_toNat_le.mp h.bfree_le
  have hle : v.bfree - v.bavail ≤ v.blocks := UInt64.le_iff_toNat_le.mpr (by omega)
  rw [total, UInt64.toNat_sub_of_le _ _ hle, hreserved, shared, usedBlocks]
  omega

/-- The product does not wrap. -/
theorem Statvfs.Admissible.product_toNat : (v.used * 100).toNat = 100 * v.usedBlocks := by
  have hlt := h.blocks_lt
  have hused : v.usedBlocks ≤ v.blocks.toNat := Nat.sub_le ..
  rw [UInt64.toNat_mul, h.used_toNat, show (100 : UInt64).toNat = 100 from rfl, Nat.mul_comm]
  exact Nat.mod_eq_of_lt (by omega)

omit h in
/-- A quotient and a remainder test make a ceiling. -/
theorem ceilDiv_eq {a b : Nat} (hb : 0 < b) : a ⌈/⌉ b = a / b + if a % b = 0 then 0 else 1 := by
  have hsplit := Nat.div_add_mod a b
  have hmod := Nat.mod_lt a hb
  apply Nat.le_antisymm
  · rw [ceilDiv_le_iff_le_mul hb, Nat.mul_add]
    split <;> omega
  · have hle : a ≤ b * (a ⌈/⌉ b) := le_smul_ceilDiv hb
    split
    next hexact =>
      rw [Nat.add_zero]
      exact Nat.div_le_of_le_mul hle
    next hrest =>
      apply Nat.succ_le_of_lt
      rw [Nat.div_lt_iff_lt_mul hb, Nat.mul_comm]
      refine Nat.lt_of_le_of_ne hle ?_
      rintro heq
      exact hrest (by rw [heq, Nat.mul_mod_right])

omit h in
theorem Statvfs.ceilDiv_le (v : Statvfs) : 100 * v.usedBlocks ⌈/⌉ v.shared ≤ 100 := by
  rcases Nat.eq_zero_or_pos v.shared with hzero | hpos
  · rw [hzero, ceilDiv_zero]
    exact Nat.zero_le 100
  · rw [ceilDiv_le_iff_le_mul hpos, shared]
    omega

/-- The percentage is the ceiling; neither the cast to `unsigned` nor the clipping changes it. -/
theorem Statvfs.Admissible.use_eq (hshared : v.shared ≠ 0) :
    ∃ use, v.use = some use ∧ use.toNat = 100 * v.usedBlocks ⌈/⌉ v.shared := by
  have hpos := Nat.pos_of_ne_zero hshared
  have htotal : v.total ≠ 0 := by
    intro hzero
    rw [← h.total_toNat, hzero] at hshared
    exact hshared rfl
  have hquot : (v.used * 100 / v.total).toNat = 100 * v.usedBlocks / v.shared := by
    rw [UInt64.toNat_div, h.product_toNat, h.total_toNat]
  have hmod : v.used * 100 % v.total = 0 ↔ 100 * v.usedBlocks % v.shared = 0 := by
    rw [← UInt64.toNat_inj, UInt64.toNat_mod, h.product_toNat, h.total_toNat]
    rfl
  have hround : (if v.used * 100 % v.total = 0 then (0 : UInt64) else 1).toNat =
      if 100 * v.usedBlocks % v.shared = 0 then 0 else 1 := by
    simp only [hmod, apply_ite UInt64.toNat, UInt64.toNat_zero, UInt64.toNat_one]
  have hle := v.ceilDiv_le
  rw [ceilDiv_eq hpos, ← hquot, ← hround] at hle
  have hsum : (v.used * 100 / v.total +
      if v.used * 100 % v.total = 0 then 0 else 1).toUInt32.toNat =
      100 * v.usedBlocks ⌈/⌉ v.shared := by
    rw [ceilDiv_eq hpos, ← hquot, ← hround, UInt64.toNat_toUInt32, UInt64.toNat_add]
    omega
  refine ⟨_, if_neg htotal, ?_⟩
  rw [if_neg, hsum]
  rw [UInt32.lt_iff_toNat_lt, hsum]
  exact Nat.not_lt.mpr v.ceilDiv_le

end Arithmetic

theorem Statvfs.ceilDiv_eq_zero {v : Statvfs} (hshared : v.shared ≠ 0)
    (h : 100 * v.usedBlocks ⌈/⌉ v.shared = 0) : v.usedBlocks = 0 := by
  have hle := (ceilDiv_le_iff_le_mul (Nat.pos_of_ne_zero hshared)).mp (Nat.le_of_eq h)
  omega

/-- The arithmetic of `emit_usage` for `v`: no step wraps, nothing traps, and the percentage printed
is the ceiling of what is used of what is used or available. -/
structure Statvfs.Exact (v : Statvfs) : Prop where
  reserved : (v.bfree - v.bavail).toNat = v.bfree.toNat - v.bavail.toNat
  total : v.total.toNat = v.usedBlocks + v.bavail.toNat
  used : v.used.toNat = v.usedBlocks
  product : (v.used * 100).toNat = 100 * v.usedBlocks
  noTrap : ∀ scale disk now device, emitUsage scale disk now device v ≠ .trap
  prints : ∃ use : UInt32,
    (∀ scale disk now device, emitUsage scale disk now (some device) v =
      .text (usageText (scale v.frsize v.bavail) device disk now (scale v.frsize v.total) use
        (scale v.frsize v.used))) ∧
    use.toNat = 100 * v.usedBlocks ⌈/⌉ (v.usedBlocks + v.bavail.toNat) ∧
    use.toNat ≤ 100 ∧ (use.toNat = 0 → v.usedBlocks = 0) ∧
    ∀ w : Statvfs, w.Admissible → w.shared = v.shared → v.usedBlocks ≤ w.usedBlocks →
      ∃ more, w.use = some more ∧ use.toNat ≤ more.toNat

/-- **The usage of a device is computed exactly** for all counters but those of a file system with
no block that is used or available, for which the division traps. -/
theorem usage_exact_iff {v : Statvfs} (h : v.Admissible) :
    v.Exact ↔ v.usedBlocks + v.bavail.toNat ≠ 0 := by
  constructor
  · intro hexact hzero
    have htotal : v.total = 0 := UInt64.toNat_inj.mp (hexact.total.trans hzero)
    apply hexact.noTrap (fun _ blocks => blocks) [] 0 none
    rw [emitUsage, Statvfs.use, if_pos htotal]
  · intro hshared
    obtain ⟨use, huse, hceil⟩ := h.use_eq hshared
    refine ⟨UInt64.toNat_sub_of_le _ _ h.bavail_le, h.total_toNat, h.used_toNat, h.product_toNat,
      ?_, use, ?_, hceil, hceil ▸ v.ceilDiv_le, ?_, ?_⟩
    · intro scale disk now device
      rw [emitUsage, huse]
      cases device <;> simp
    · intro scale disk now device
      rw [emitUsage, huse]
    · intro hzero
      exact Statvfs.ceilDiv_eq_zero hshared (hceil ▸ hzero)
    · intro w hw hsame hmore
      obtain ⟨more, hmoreUse, hmoreCeil⟩ := hw.use_eq (hsame ▸ hshared)
      refine ⟨more, hmoreUse, ?_⟩
      have hpos := Nat.pos_of_ne_zero hshared
      have hle : 100 * w.usedBlocks ≤ v.shared * (100 * w.usedBlocks ⌈/⌉ v.shared) :=
        le_smul_ceilDiv hpos
      rw [hceil, hmoreCeil, hsame]
      apply (ceilDiv_le_iff_le_mul hpos).mpr
      exact (Nat.mul_le_mul_left 100 hmore).trans hle

/-- Seven blocks, three of them free and one of these reserved: 67 % of six. -/
theorem usage_exact_seven : (Statvfs.mk 4096 7 3 2).Exact ∧ (Statvfs.mk 4096 7 3 2).use = some 67 :=
  ⟨(usage_exact_iff ⟨by decide, by decide, by decide⟩).mpr (by decide), by decide⟩

/-- A file system without blocks, or one whose free blocks are all reserved. -/
theorem usage_traps :
    (∃ v : Statvfs, v.Admissible ∧ v.blocks = 0 ∧
      ∀ scale disk now device, emitUsage scale disk now device v = .trap) ∧
    ∃ v : Statvfs, v.Admissible ∧ v.blocks = 8 ∧
      ∀ scale disk now device, emitUsage scale disk now device v = .trap :=
  ⟨⟨⟨4096, 0, 0, 0⟩, ⟨by decide, by decide, by decide⟩, rfl, fun _ _ _ _ => rfl⟩,
    ⟨⟨4096, 8, 8, 0⟩, ⟨by decide, by decide, by decide⟩, rfl, fun _ _ _ _ => rfl⟩⟩

end Cmogstored
