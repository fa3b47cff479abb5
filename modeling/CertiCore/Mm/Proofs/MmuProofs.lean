import CertiCore.Hart.Sv39
import CertiCore.Mm.Mmu

/-!
# Proofs: the macros for Sv39

The indexes and the offset of a linear address make up the address. `SV39_PTE_ADDR` does not fit to
the layout of the entries: it takes the page number to begin one bit too low.
-/

namespace CertiCore

/-! ## Fields of a word -/

/-- The word whose lowest `w` bits are set. -/
def lowMask (w : ℕ) : BitVec 64 := BitVec.ofNat 64 (2 ^ w - 1)

theorem getLsbD_lowMask {w : ℕ} (hw : w ≤ 64) (i : ℕ) :
    (lowMask w).getLsbD i = decide (i < w) := by
  rw [lowMask, BitVec.getLsbD_ofNat, Nat.testBit_two_pow_sub_one, ← Bool.decide_and]
  exact decide_eq_decide.mpr ⟨And.right, fun h => ⟨by omega, h⟩⟩

theorem toNat_and_lowMask {w : ℕ} (hw : w ≤ 64) (x : BitVec 64) :
    (x &&& lowMask w).toNat = x.toNat % 2 ^ w := by
  have hle : 2 ^ w ≤ 2 ^ 64 := Nat.pow_le_pow_right (by decide) hw
  have hpos : 0 < 2 ^ w := Nat.two_pow_pos w
  have hlt : 2 ^ w - 1 < 2 ^ 64 := by omega
  rw [BitVec.toNat_and, lowMask, BitVec.toNat_ofNat, Nat.mod_eq_of_lt hlt]
  exact Nat.and_two_pow_sub_one_eq_mod x.toNat w

/-- A word that is small enough has no bits above the mask. -/
theorem and_lowMask_of_lt {w : ℕ} (hw : w ≤ 64) {x : BitVec 64} (h : x.toNat < 2 ^ w) :
    x &&& lowMask w = x := by
  rw [← BitVec.toNat_inj, toNat_and_lowMask hw]
  exact Nat.mod_eq_of_lt h

/-- A field of `w` bits, put back to its place above the `k` lowest bits. -/
theorem field_or_low {k w : ℕ} (h : k + w ≤ 64) (x : BitVec 64) :
    ((x >>> k) &&& lowMask w) <<< k ||| x &&& lowMask k = x &&& lowMask (k + w) := by
  apply BitVec.eq_of_getLsbD_eq
  intro i hi
  rw [BitVec.getLsbD_or, BitVec.getLsbD_shiftLeft, BitVec.getLsbD_and, BitVec.getLsbD_and,
    BitVec.getLsbD_and, getLsbD_lowMask (by omega), getLsbD_lowMask (by omega), getLsbD_lowMask h,
    BitVec.getLsbD_ushiftRight]
  by_cases hik : i < k
  · have hikw : i < k + w := by omega
    simp [hik, hikw]
  · have hidx : k + (i - k) = i := by omega
    have hfield : i - k < w ↔ i < k + w := by omega
    simp [hi, hik, hidx, hfield]

/-! ## Linear addresses -/

theorem SV39_VPN_eq (la : BitVec 64) (n : ℕ) :
    SV39_VPN la n = (la >>> (12 + 9 * n)) &&& 0x1FF := by
  rw [SV39_VPN, BitVec.shiftRight_add]

/-- The indexes and the offset of an address give it back. -/
theorem SV39_PGADDR_VPN {la : BitVec 64} (h : la.toNat < 2 ^ 39) :
    SV39_PGADDR (SV39_VPN2 la) (SV39_VPN1 la) (SV39_VPN0 la) (la &&& 0xFFF) = la := by
  have h0 : SV39_VPN0 la <<< SV39_VPN0SHIFT ||| la &&& lowMask 12 = la &&& lowMask 21 :=
    @field_or_low 12 9 (by decide) la
  have h1 : SV39_VPN1 la <<< SV39_VPN1SHIFT ||| la &&& lowMask 21 = la &&& lowMask 30 :=
    @field_or_low 21 9 (by decide) la
  have h2 : SV39_VPN2 la <<< SV39_VPN2SHIFT ||| la &&& lowMask 30 = la &&& lowMask 39 :=
    @field_or_low 30 9 (by decide) la
  have hoff : la &&& 0xFFF = la &&& lowMask 12 := rfl
  rw [SV39_PGADDR, hoff, BitVec.or_assoc, BitVec.or_assoc, h0, h1, h2]
  exact and_lowMask_of_lt (by decide) h

/-! ## Page table entries -/

/-- `SV39_PTE_ADDR` clears the lowest nine bits. -/
theorem toNat_SV39_PTE_ADDR (pte : BitVec 64) :
    (SV39_PTE_ADDR pte).toNat = pte.toNat / 2 ^ 9 * 2 ^ 12 % 2 ^ 64 := by
  have hclear : pte &&& (~~~(0x1FF : BitVec 32)).signExtend 64 = (pte >>> 9) <<< 9 := by
    apply BitVec.eq_of_getLsbD_eq
    intro i hi
    have hmask : (~~~(0x1FF : BitVec 32)).signExtend 64 = ~~~(lowMask 9) := by decide
    rw [hmask, BitVec.getLsbD_and, BitVec.getLsbD_not, getLsbD_lowMask (by decide),
      BitVec.getLsbD_shiftLeft, BitVec.getLsbD_ushiftRight]
    by_cases hi9 : i < 9
    · simp [hi9]
    · have hidx : 9 + (i - 9) = i := by omega
      simp [hi, hi9, hidx]
  rw [SV39_PTE_ADDR, hclear, ← BitVec.shiftLeft_add, BitVec.toNat_shiftLeft,
    BitVec.toNat_ushiftRight, Nat.shiftLeft_eq, Nat.shiftRight_eq_div_pow]

/-- An entry as it is built, from a page number and flags. -/
theorem toNat_entry {ppn f : BitVec 64} (hppn : ppn.toNat < 2 ^ 44) (hf : f.toNat < 2 ^ 10) :
    (ppn <<< SV39_PTE_PPN_SHIFT ||| f).toNat = ppn.toNat * 2 ^ 10 + f.toNat := by
  have hshift : (ppn <<< SV39_PTE_PPN_SHIFT).toNat = ppn.toNat <<< 10 := by
    rw [BitVec.toNat_shiftLeft, Nat.shiftLeft_eq, SV39_PTE_PPN_SHIFT, Nat.shiftLeft_eq]
    omega
  rw [BitVec.toNat_or, hshift, ← Nat.shiftLeft_add_eq_or_of_lt hf, Nat.shiftLeft_eq]

/-- An entry is decoded to twice its page number, and one more if the bit 9 is set. -/
theorem toNat_SV39_PTE_ADDR_entry {ppn f : BitVec 64} (hppn : ppn.toNat < 2 ^ 44)
    (hf : f.toNat < 2 ^ 10) :
    (SV39_PTE_ADDR (ppn <<< SV39_PTE_PPN_SHIFT ||| f)).toNat =
      (2 * ppn.toNat + f.toNat / 2 ^ 9) * 2 ^ 12 := by
  rw [toNat_SV39_PTE_ADDR, toNat_entry hppn hf]
  omega

theorem SV39_PTE_ADDR_entry_iff {ppn f : BitVec 64} (hppn : ppn.toNat < 2 ^ 44)
    (hf : f.toNat < 2 ^ 10) :
    SV39_PTE_ADDR (ppn <<< SV39_PTE_PPN_SHIFT ||| f) = ppn <<< PGSHIFT ↔
      ppn = 0 ∧ f.toNat < 2 ^ 9 := by
  have hshift : (ppn <<< PGSHIFT).toNat = ppn.toNat * 2 ^ 12 := by
    rw [BitVec.toNat_shiftLeft, Nat.shiftLeft_eq, PGSHIFT]
    omega
  rw [← BitVec.toNat_inj, toNat_SV39_PTE_ADDR_entry hppn hf, hshift, ← BitVec.toNat_inj]
  show _ ↔ ppn.toNat = 0 ∧ _
  omega

/-- The macros for linear addresses agree with one another, and `SV39_PTE_ADDR` gives back the page
of an entry exactly if that is the page 0 and the upper bit for software is clear. -/
theorem sv39_macros_iff (la ppn f : BitVec 64) :
    (la.toNat < 2 ^ 39 →
      SV39_PGADDR (SV39_VPN2 la) (SV39_VPN1 la) (SV39_VPN0 la) (la &&& 0xFFF) = la ∧
      SV39_VPN la 0 = SV39_VPN0 la ∧ SV39_VPN la 1 = SV39_VPN1 la ∧
      SV39_VPN la 2 = SV39_VPN2 la) ∧
    (ppn.toNat < 2 ^ 44 → f.toNat < 2 ^ 10 →
      (SV39_PTE_ADDR (ppn <<< SV39_PTE_PPN_SHIFT ||| f) = ppn <<< PGSHIFT ↔
        ppn = 0 ∧ f.toNat < 2 ^ 9)) := by
  refine ⟨fun h => ⟨SV39_PGADDR_VPN h, ?_⟩, SV39_PTE_ADDR_entry_iff⟩
  exact ⟨SV39_VPN_eq la 0, SV39_VPN_eq la 1, SV39_VPN_eq la 2⟩

/-- The entry of the boot page table, for the page at `0x80000000`, is decoded to `0x100000000`. -/
theorem SV39_PTE_ADDR_boot_entry :
    ¬ ∀ ppn f : BitVec 64, ppn.toNat < 2 ^ 44 → f.toNat < 2 ^ 10 →
      SV39_PTE_ADDR (ppn <<< SV39_PTE_PPN_SHIFT ||| f) = ppn <<< PGSHIFT := by
  intro h
  have hboot := h 0x80000 0xCF (by decide) (by decide)
  revert hboot
  decide

end CertiCore
