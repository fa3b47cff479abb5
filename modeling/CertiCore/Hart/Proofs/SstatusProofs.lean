import CertiCore.Hart.Sstatus
import CertiCore.Libs.Proofs.AtomicProofs

/-!
# Proofs: the bits of `sstatus`
-/

namespace CertiCore

variable (sstatus : BitVec 64)

section Csr

variable {reg bits : BitVec 64} {nr : ℕ}

theorem getLsbD_setCsr (hbits : bits = bitMask nr) (hnr : nr < 64) (i : ℕ) :
    (setCsr reg bits).getLsbD i = if i = nr then true else reg.getLsbD i := by
  rw [setCsr, hbits]
  exact getLsbD_setBit hnr reg i

theorem getLsbD_clearCsr (hbits : bits = bitMask nr) (hnr : nr < 64) (i : ℕ) :
    (clearCsr reg bits).getLsbD i = if i = nr then false else reg.getLsbD i := by
  rw [clearCsr, hbits]
  exact getLsbD_clearBit hnr reg i

/-- A bit of a control register that is set or cleared, depending on `b`, is `b`. -/
theorem getLsbD_ite_setCsr (hbits : bits = bitMask nr) (hnr : nr < 64) (b : Bool) (i : ℕ) :
    (if b then setCsr reg bits else clearCsr reg bits).getLsbD i =
      if i = nr then b else reg.getLsbD i := by
  cases b
  · exact getLsbD_clearCsr hbits hnr i
  · exact getLsbD_setCsr hbits hnr i

end Csr

theorem SSTATUS_SIE_eq : SSTATUS_SIE = bitMask 1 := by decide

theorem SSTATUS_SPIE_eq : SSTATUS_SPIE = bitMask 5 := by decide

theorem SSTATUS_SPP_eq : SSTATUS_SPP = bitMask 8 := by decide

@[simp] theorem sie_intrEnable : sie (intrEnable sstatus) = true := by
  rw [sie, intrEnable, getLsbD_setCsr SSTATUS_SIE_eq (by omega), if_pos rfl]

@[simp] theorem sie_intrDisable : sie (intrDisable sstatus) = false := by
  rw [sie, intrDisable, getLsbD_clearCsr SSTATUS_SIE_eq (by omega), if_pos rfl]

/-- The bits of `sstatus` after a trap. -/
theorem getLsbD_trapStatus (i : ℕ) :
    (trapStatus sstatus).getLsbD i =
      if i = 8 then true else if i = 1 then false else if i = 5 then sie sstatus
      else sstatus.getLsbD i := by
  rw [trapStatus, getLsbD_setCsr SSTATUS_SPP_eq (by omega),
    getLsbD_clearCsr SSTATUS_SIE_eq (by omega), getLsbD_ite_setCsr SSTATUS_SPIE_eq (by omega)]

/-- The bits of `sstatus` after `sret`. -/
theorem getLsbD_sretStatus (i : ℕ) :
    (sretStatus sstatus).getLsbD i =
      if i = 8 then false else if i = 5 then true else if i = 1 then spie sstatus
      else sstatus.getLsbD i := by
  rw [sretStatus, getLsbD_clearCsr SSTATUS_SPP_eq (by omega),
    getLsbD_setCsr SSTATUS_SPIE_eq (by omega), getLsbD_ite_setCsr SSTATUS_SIE_eq (by omega)]

@[simp] theorem sie_trapStatus : sie (trapStatus sstatus) = false := by
  rw [sie, getLsbD_trapStatus]
  rfl

@[simp] theorem spie_trapStatus : spie (trapStatus sstatus) = sie sstatus := by
  rw [spie, getLsbD_trapStatus]
  rfl

@[simp] theorem spp_trapStatus : spp (trapStatus sstatus) = true := by
  rw [spp, getLsbD_trapStatus]
  rfl

@[simp] theorem sie_sretStatus : sie (sretStatus sstatus) = spie sstatus := by
  rw [sie, getLsbD_sretStatus]
  rfl

end CertiCore
