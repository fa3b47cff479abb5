import CertiCore.Hart.Sv39
import CertiCore.Init.Entry
import CertiCore.Mm.Proofs.PhysMemProofs

/-!
# Proofs: the entry of the kernel

The register `satp` names the boot page table, which maps the last gigabyte of the virtual addresses
and nothing else, as far from the physical addresses as `PADDR` computes it.
-/

namespace CertiCore

/-! ## Addresses in instructions -/

theorem toNat_hi (a : BitVec 64) : (hi a).toNat = (a.toNat + 0x800) % 2 ^ 64 / 2 ^ 12 % 2 ^ 20 := by
  rw [hi, BitVec.extractLsb'_toNat, BitVec.toNat_add, Nat.shiftRight_eq_div_pow]
  rfl

theorem toNat_lui (imm : BitVec 20) :
    (lui imm).toNat = imm.toNat * 2 ^ 12 + if 2 ^ 19 ≤ imm.toNat then 2 ^ 64 - 2 ^ 32 else 0 := by
  have himm := imm.isLt
  have hword : (imm ++ (0 : BitVec 12)).toNat = imm.toNat * 2 ^ 12 := by
    rw [BitVec.toNat_append, Nat.shiftLeft_eq]
    exact Nat.or_zero _
  have hmsb : (imm ++ (0 : BitVec 12)).msb = true ↔ 2 ^ 19 ≤ imm.toNat := by
    rw [BitVec.msb_eq_decide, decide_eq_true_iff, hword]
    omega
  rw [lui, BitVec.toNat_signExtend, BitVec.toNat_setWidth, hword]
  refine congrArg₂ (· + ·) (Nat.mod_eq_of_lt (by omega)) (if_congr hmsb rfl rfl)

theorem toNat_addi (rs : BitVec 64) (imm : BitVec 12) :
    (addi rs imm).toNat =
      (rs.toNat + (imm.toNat + if 2 ^ 11 ≤ imm.toNat then 2 ^ 64 - 2 ^ 12 else 0)) % 2 ^ 64 := by
  have himm := imm.isLt
  have hmsb : imm.msb = true ↔ 2 ^ 11 ≤ imm.toNat := by
    rw [BitVec.msb_eq_decide, decide_eq_true_iff]
  have hext : (imm.signExtend 64).toNat =
      imm.toNat + if 2 ^ 11 ≤ imm.toNat then 2 ^ 64 - 2 ^ 12 else 0 := by
    rw [BitVec.toNat_signExtend, BitVec.toNat_setWidth]
    exact congrArg₂ (· + ·) (Nat.mod_eq_of_lt (by omega)) (if_congr hmsb rfl rfl)
  rw [addi, BitVec.toNat_add, hext]

/-- The two parts of an address of the upper two gigabytes make up the address. -/
theorem addi_lui {a : BitVec 64} (h : 2 ^ 64 - 2 ^ 31 ≤ a.toNat) :
    addi (lui (hi a)) (lo a) = a := by
  have ha := a.isLt
  have hlo : (lo a).toNat = a.toNat % 2 ^ 12 := BitVec.toNat_setWidth 12 a
  rw [← BitVec.toNat_inj, toNat_addi, toNat_lui, toNat_hi, hlo]
  by_cases hwrap : a.toNat + 0x800 < 2 ^ 64
  · rw [Nat.mod_eq_of_lt hwrap]
    split_ifs
    all_goals omega
  · split_ifs
    all_goals omega

/-- The upper part is enough for the address of a page. -/
theorem lui_hi {a : BitVec 64} (h : 2 ^ 64 - 2 ^ 31 ≤ a.toNat) (halign : a.toNat % 2 ^ 12 = 0) :
    lui (hi a) = a := by
  have hlo : lo a = 0 := by
    rw [← BitVec.toNat_inj]
    exact (BitVec.toNat_setWidth 12 a).trans halign
  have haddi := addi_lui h
  rw [hlo, addi] at haddi
  exact (BitVec.add_zero _).symm.trans haddi

/-! ## The registers -/

variable {img : Symbols}

/-- The value of `satp` that consists of the mode Sv39 and the page number of a root table. -/
theorem rootTable_satp {pa : BitVec 64} (h : pa.toNat < 2 ^ 56) (halign : pa.toNat % 2 ^ 12 = 0) :
    Sv39.rootTable (pa >>> 12 ||| (8 : BitVec 64) <<< 60) = some pa := by
  have hnum : (pa >>> 12 ||| (8 : BitVec 64) <<< 60).toNat = 8 * 2 ^ 60 + pa.toNat / 2 ^ 12 := by
    have hmode : ((8 : BitVec 64) <<< 60).toNat = 8 <<< 60 := rfl
    have hlt : pa.toNat / 2 ^ 12 < 2 ^ 60 := by omega
    rw [BitVec.or_comm, BitVec.toNat_or, hmode, BitVec.toNat_ushiftRight,
      Nat.shiftRight_eq_div_pow, ← Nat.shiftLeft_add_eq_or_of_lt hlt, Nat.shiftLeft_eq]
  have hmode : (pa >>> 12 ||| (8 : BitVec 64) <<< 60).extractLsb' 60 4 = 8 := by
    rw [← BitVec.toNat_inj, BitVec.extractLsb'_toNat, hnum, Nat.shiftRight_eq_div_pow]
    show _ = 8
    omega
  rw [Sv39.rootTable, if_pos hmode, Option.some.injEq, ← BitVec.toNat_inj, BitVec.toNat_shiftLeft,
    BitVec.toNat_setWidth, BitVec.extractLsb'_toNat, hnum, Nat.shiftRight_eq_div_pow,
    Nat.shiftLeft_eq]
  omega

theorem PHYSICAL_MEMORY_OFFSET_le {va : BitVec 64} (h : 2 ^ 64 - 2 ^ 30 ≤ va.toNat) :
    PHYSICAL_MEMORY_OFFSET ≤ va := by
  rw [BitVec.le_def, PHYSICAL_MEMORY_OFFSET_toNat]
  omega

/-- `kern_entry` names the page table by its physical address. -/
theorem kernEntry_satp (halign : img.boot_page_table_sv39.toNat % 2 ^ 12 = 0)
    (h : KERNBASE ≤ img.boot_page_table_sv39) :
    Sv39.rootTable (kernEntry img).satp =
      some (img.boot_page_table_sv39 - PHYSICAL_MEMORY_OFFSET) := by
  rw [BitVec.le_def, KERNBASE_toNat] at h
  have hlt := img.boot_page_table_sv39.isLt
  have hsub := toNat_sub_PHYSICAL_MEMORY_OFFSET
    (PHYSICAL_MEMORY_OFFSET_le (by omega : _ ≤ img.boot_page_table_sv39.toNat))
  have hsatp : (kernEntry img).satp =
      (img.boot_page_table_sv39 - PHYSICAL_MEMORY_OFFSET) >>> 12 ||| (8 : BitVec 64) <<< 60 := by
    show (lui (hi img.boot_page_table_sv39) - _) >>> 12 ||| _ = _
    rw [lui_hi (by omega) halign]
    rfl
  rw [hsatp]
  exact rootTable_satp (by omega) (by omega)

/-! ## The page table -/

theorem length_bootPageTableSv39 : bootPageTableSv39.length = 512 := by
  rw [bootPageTableSv39, List.length_append, List.length_replicate, List.length_singleton]

section Table

variable {m : Mem} {root va : BitVec 64} {mode : Sv39.Mode} {access : Sv39.Access}

/-- The entry of the last gigabyte admits every access in supervisor mode. -/
theorem maps_bootEntry (hmode : mode.user = false) (access : Sv39.Access) :
    Sv39.Pte.maps 0x200000CF mode access 2 = true := by
  obtain ⟨user, sum, mxr⟩ := mode
  subst hmode
  cases access with
  | read => cases mxr <;> rfl
  | write => rfl
  | execute => rfl

/-- The boot page table maps the last gigabyte, and nothing else. -/
theorem translate_bootPageTableSv39 (h : m.Holds root bootPageTableSv39)
    (hmode : mode.user = false) :
    Sv39.translate m mode access va root =
      if 0xFFFFFFFFC0000000 ≤ va then some (va - PHYSICAL_MEMORY_OFFSET) else none := by
  obtain ⟨hzero, hlast⟩ := h.filled
  have hle : 0xFFFFFFFFC0000000 ≤ va ↔ 2 ^ 64 - 2 ^ 30 ≤ va.toNat := by
    rw [BitVec.le_def]
    rfl
  by_cases hva : 2 ^ 64 - 2 ^ 30 ≤ va.toNat
  · obtain ⟨hcan, hvpn⟩ := Sv39.canonical_and_vpn_eq_last.mpr hva
    have hphys := Sv39.toNat_physical_last 0x200000CF hva
    have hsub := toNat_sub_PHYSICAL_MEMORY_OFFSET (PHYSICAL_MEMORY_OFFSET_le hva)
    have hppn : Sv39.Pte.ppn 0x200000CF = 0x80000 := by decide
    have heq : Sv39.physical 0x200000CF 2 va = va - PHYSICAL_MEMORY_OFFSET := by
      rw [← BitVec.toNat_inj]
      omega
    rw [if_pos (hle.mpr hva), ← heq]
    refine Sv39.translate_of_maps hcan ?_ (by decide) (by decide) (maps_bootEntry hmode access)
    rw [hvpn]
    exact hlast
  · rw [if_neg (mt hle.mp hva)]
    by_cases hcan : Sv39.Canonical va
    · have hvpn : Sv39.vpn va 2 ≠ 511 :=
        fun h511 => hva (Sv39.canonical_and_vpn_eq_last.mp ⟨hcan, h511⟩)
      have hlt := Sv39.vpn_lt va 2
      exact Sv39.translate_of_not_isValid (hzero _ (by omega)) (by decide)
    · exact Sv39.translate_of_not_canonical hcan

end Table

/-- `kern_entry` installs a page table that maps the last gigabyte of the virtual addresses to where
`PADDR` says that it is, for every access, and nothing else. -/
theorem boot_translation (N : PoolSize) (img : Symbols) (m : Mem)
    (halign : img.boot_page_table_sv39 % PGSIZE = 0) (hkern : KERNBASE ≤ img.boot_page_table_sv39)
    (hm : m.Holds (img.boot_page_table_sv39 - PHYSICAL_MEMORY_OFFSET) bootPageTableSv39) :
    ∃ root, PADDR N.physMem img.boot_page_table_sv39 = .ok root ∧
      Sv39.rootTable (kernEntry img).satp = some root ∧
      (∀ mode : Sv39.Mode, mode.user = false → ∀ access va,
        Sv39.translate m mode access va root =
          if 0xFFFFFFFFC0000000 ≤ va then some (va - PHYSICAL_MEMORY_OFFSET) else none) ∧
      ∀ va, KERNBASE ≤ va → PADDR N.physMem va = .ok (va - PHYSICAL_MEMORY_OFFSET) := by
  have halign' : img.boot_page_table_sv39.toNat % 2 ^ 12 = 0 := by
    rw [← BitVec.toNat_inj, BitVec.toNat_umod] at halign
    exact halign
  refine ⟨_, PADDR_of_le N hkern, kernEntry_satp halign' hkern, ?_, fun va => PADDR_of_le N⟩
  intro mode hmode access va
  exact translate_bootPageTableSv39 hm hmode

theorem boot_translation_base :
    ∃ m, Sv39.translate m ⟨false, false, false⟩ .write 0xFFFFFFFFC0200000 0x80204000 =
      some 0x80200000 := by
  have hlen : bootPageTableSv39.length ≤ 2 ^ 61 := by
    rw [length_bootPageTableSv39]
    decide
  have hm := Mem.holds_storeWords (m := fun _ => 0) (a := 0x80204000) hlen
  obtain ⟨root, hroot, -, htranslate, -⟩ := boot_translation .kernel
    ⟨0xFFFFFFFFC0204000, 0xFFFFFFFFC0206000, 0xFFFFFFFFC0200040⟩ _ (by decide) (by decide) hm
  have heq : root = 0x80204000 := by
    rw [PADDR_of_le .kernel (by decide)] at hroot
    exact (Except.ok.inj hroot).symm
  subst heq
  exact ⟨_, htranslate _ rfl .write 0xFFFFFFFFC0200000⟩

end CertiCore
