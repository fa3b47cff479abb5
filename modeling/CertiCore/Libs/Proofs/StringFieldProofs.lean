import CertiCore.Libs.Proofs.FieldProofs

/-!
# Proofs: string fields

The precision of a string cuts it, and the width pads what is left of it: on the right if the pad
character is `-`, else on the left.
-/

namespace CertiCore

open Loop

/-! ## The length of a string -/

/-- All memory that can be read lies in the 2^30 bytes that the boot page table maps. -/
def Mapped (M : BitVec 64 → Option Byte) : Prop := ∀ a c, M a = some c → 0xffffffffc0000000 ≤ a

section

variable {M : BitVec 64 → Option Byte} {e : Esc} {s : List Byte}

theorem deref_addr_of_some {a : BitVec 64} {c : Byte} (h : M a = some c) :
    (CharPtr.addr a).deref (collector M) [] = .ok c := by
  have hload : (collector M).load [] a = some c := h
  rw [CharPtr.deref, hload]

theorem deref_addr_of_none {a : BitVec 64} (h : M a = none) :
    (CharPtr.addr a).deref (collector M) [] = .error (.unmapped a) := by
  have hload : (collector M).load [] a = none := h
  rw [CharPtr.deref, hload]

theorem deref_addr_iff {a : BitVec 64} {c : Byte} :
    (CharPtr.addr a).deref (collector M) [] = .ok c ↔ M a = some c := by
  refine ⟨fun h => ?_, deref_addr_of_some⟩
  cases hload : M a with
  | none => exact nomatch (deref_addr_of_none hload).symm.trans h
  | some d => exact congrArg some (Except.ok.inj ((deref_addr_of_some hload).symm.trans h))

theorem ReadsString.unique {p : CharPtr} {s' : List Byte} (h : ReadsString M p s)
    (h' : ReadsString M p s') : s = s' := by
  induction s generalizing p s' with
  | nil =>
    cases s' with
    | nil => rfl
    | cons c' s' =>
      have heq := Except.ok.inj (Eq.trans (Eq.symm h) h'.1)
      exact absurd heq.symm h'.2.1
  | cons c s ih =>
    cases s' with
    | nil =>
      have heq := Except.ok.inj (Eq.trans (Eq.symm h.1) h')
      exact absurd heq h.2.1
    | cons c' s' =>
      obtain rfl := Except.ok.inj (Eq.trans (Eq.symm h.1) h'.1)
      rw [ih h.2.2 h'.2.2]

theorem ReadsString.le_of_mapped (hM : Mapped M) {a : BitVec 64} (h : ReadsString M (.addr a) s) :
    0xffffffffc0000000 ≤ a := by
  cases s with
  | nil => exact hM a 0 (deref_addr_iff.mp h)
  | cons c s => exact hM a c (deref_addr_iff.mp h.1)

/-- A string does not reach beyond the end of the address space, behind which nothing is mapped. -/
theorem ReadsString.length_add_lt (hM : Mapped M) {a : BitVec 64} (h : ReadsString M (.addr a) s) :
    a.toNat + s.length < 2 ^ 64 := by
  induction s generalizing a with
  | nil => exact a.isLt
  | cons c s ih =>
    have hle := h.le_of_mapped hM
    have hrest := ih h.2.2
    have hnext := ReadsString.le_of_mapped hM h.2.2
    rw [List.length_cons]
    bv_omega

theorem ReadsString.length_lt (hM : Mapped M) {v : BitVec 64}
    (h : ReadsString M (VaArg.word v).charPtr s) : s.length < 2 ^ 30 := by
  by_cases hv : v = 0
  · subst hv
    have hnull : ReadsString M (VaArg.word 0).charPtr (bytes "(null)") :=
      readsString_const _ (ne_zero_of_mem_bytes (by decide))
    rw [h.unique hnull]
    decide
  · have haddr : ReadsString M (.addr v) s := by
      have hptr : (VaArg.word v).charPtr = .addr v := if_neg hv
      rw [hptr] at h
      exact h
    have hle := haddr.le_of_mapped hM
    have hlt := haddr.length_add_lt hM
    bv_omega

/-- A memory that consists of the bytes `l` at address `p`. -/
def bufferAt (p : BitVec 64) (l : List Byte) (a : BitVec 64) : Option Byte := l[(a - p).toNat]?

theorem bufferAt_add {p : BitVec 64} {l : List Byte} {i : ℕ} (hi : i < 2 ^ 64) :
    bufferAt p l (p + BitVec.ofNat 64 i) = l[i]? := by
  rw [bufferAt, Mem.sub_offset hi]

theorem mapped_bufferAt {l : List Byte} (hl : l.length ≤ 2 ^ 30) :
    Mapped (bufferAt 0xffffffffc0000000 l) := by
  intro a c h
  obtain ⟨hlt, -⟩ := List.getElem?_eq_some_iff.mp h
  bv_omega

/-- From `p` on stand the characters `s` of a string that goes on at `p'`. -/
def ReadsOn (M : BitVec 64 → Option Byte) : CharPtr → List Byte → CharPtr → Prop
  | p, [], p' => p = p'
  | p, c :: s, p' => p.deref (collector M) [] = .ok c ∧ c ≠ 0 ∧ ReadsOn M p.next s p'

theorem ReadsOn.readsString {p p' : CharPtr} (h : ReadsOn M p s p')
    (hend : p'.deref (collector M) [] = .ok 0) : ReadsString M p s := by
  induction s generalizing p with
  | nil =>
    obtain rfl : p = p' := h
    exact hend
  | cons c s ih => exact ⟨h.1, h.2.1, ih h.2.2⟩

theorem readsOn_bufferAt {p : BitVec 64} (pre rest : List Byte) (hs : ∀ c ∈ s, c ≠ 0)
    (hlen : pre.length + s.length ≤ 2 ^ 64) :
    ReadsOn (bufferAt p (pre ++ s ++ rest)) (.addr (p + BitVec.ofNat 64 pre.length)) s
      (.addr (p + BitVec.ofNat 64 (pre.length + s.length))) := by
  induction s generalizing pre with
  | nil => rfl
  | cons c s ih =>
    rw [List.length_cons] at hlen
    have hnext := ih (pre ++ [c]) (fun d hd => hs d (List.mem_cons_of_mem c hd))
      (by rw [List.length_append, List.length_singleton]; omega)
    rw [← List.append_cons, List.length_append, List.length_singleton, BitVec.ofNat_add,
      ← BitVec.add_assoc, Nat.add_assoc, Nat.add_comm 1, ← List.length_cons (a := c)] at hnext
    refine ⟨deref_addr_iff.mpr ?_, hs c List.mem_cons_self, hnext⟩
    rw [bufferAt_add (by omega), List.append_assoc,
      List.getElem?_append_right (Nat.le_refl _), Nat.sub_self]
    rfl

theorem readsString_bufferAt {p : BitVec 64} (hs : ∀ c ∈ s, c ≠ 0) (hlen : s.length < 2 ^ 64) :
    ReadsString (bufferAt p (s ++ [0])) (.addr p) s := by
  have hon := readsOn_bufferAt (p := p) [] [0] hs (by rw [List.length_nil]; omega)
  rw [List.length_nil, Nat.zero_add, List.nil_append, BitVec.ofNat_eq_ofNat, BitVec.add_zero] at hon
  refine hon.readsString (deref_addr_iff.mpr ?_)
  rw [bufferAt_add hlen, List.getElem?_append_right (Nat.le_refl _), Nat.sub_self]
  rfl

/-- Every string of less than `2 ^ 30` characters fits in the mapped memory. -/
theorem readsString_base (hs : ∀ c ∈ s, c ≠ 0) (hlen : s.length < 2 ^ 30) :
    ReadsString (bufferAt 0xffffffffc0000000 (s ++ [0])) (VaArg.word 0xffffffffc0000000).charPtr
      s :=
  readsString_bufferAt hs (by omega)

/-! ## The text of a string field -/

/-- What the precision lets through of a string, as `#` shows it. -/
def Esc.shown (e : Esc) (s : List Byte) : List Byte := (e.cut s).map e.out

theorem Esc.length_shown (e : Esc) (s : List Byte) : (e.shown s).length = (e.cut s).length :=
  List.length_map _

/-- `strnlen` finds the length of what the precision lets through. -/
theorem min_signExtend (hs : s.length < 2 ^ 30) :
    min (e.precision.signExtend 64).toNat s.length = (e.cut s).length := by
  have hlt := e.precision.isLt
  unfold Esc.cut
  by_cases hneg : e.precision.slt 0 = true
  · have hlarge := (slt_zero_iff e.precision).mp hneg
    have hext : 2 ^ 30 ≤ (e.precision.signExtend 64).toNat := by
      have hmsb : e.precision.msb = true := by
        rw [← BitVec.slt_zero_eq_msb]
        exact hneg
      rw [BitVec.toNat_signExtend, hmsb, if_pos rfl]
      exact Nat.le_add_left_of_le (by omega)
    rw [if_pos hneg]
    exact Nat.min_eq_right (by omega)
  · have hext : (e.precision.signExtend 64).toNat = e.precision.toNat := by
      rw [signExtend_of_not_slt hneg, BitVec.toNat_setWidth]
      exact Nat.mod_eq_of_lt (by omega)
    rw [if_neg hneg, hext, List.length_take]

theorem Esc.length_cut_le (e : Esc) (s : List Byte) : (e.cut s).length ≤ s.length := by
  unfold Esc.cut
  split
  · exact Nat.le_refl _
  · rw [List.length_take]
    exact Nat.min_le_right _ _

/-- The padding stands on one side only. -/
theorem stringText_eq (hs : s.length < 2 ^ 30) : e.stringText s =
    if (0 : BitVec 32).slt e.width ∧ e.padc ≠ ch '-' then
      pad (e.width - BitVec.ofNat 32 (e.cut s).length) e.padc ++ e.shown s
    else e.shown s ++ pad (e.width - BitVec.ofNat 32 (e.cut s).length) (ch ' ') := by
  have hle := (e.length_cut_le s).trans_lt hs
  unfold Esc.stringText
  dsimp only
  rw [min_signExtend hs, Esc.padLeft, Esc.afterPad]
  by_cases hleft : (0 : BitVec 32).slt e.width ∧ e.padc ≠ ch '-'
  · rw [if_pos hleft, if_pos hleft, if_pos hleft]
    have hspent : ((if (0 : BitVec 32).slt (e.width - BitVec.ofNat 32 (e.cut s).length) then 0
        else e.width - BitVec.ofNat 32 (e.cut s).length) -
        BitVec.ofNat 32 (e.cut s).length).toInt.toNat = 0 := by
      have hpos := (zero_slt_iff _).mp hleft.1
      by_cases hmore : (0 : BitVec 32).slt (e.width - BitVec.ofNat 32 (e.cut s).length) = true
      · rw [if_pos hmore, toNat_toInt]
        split
        · bv_omega
        · rfl
      · have hless := mt (zero_slt_iff _).mpr hmore
        rw [if_neg hmore, toNat_toInt]
        split
        · bv_omega
        · rfl
    have hbody : ∀ count : BitVec 32, count.toInt.toNat = 0 →
        e.shown s ++ pad count (ch ' ') = e.shown s := by
      intro count hcount
      rw [pad, hcount, List.replicate_zero, List.append_nil]
    exact congrArg _ (hbody _ hspent)
  · rw [if_neg hleft, if_neg hleft, if_neg hleft]
    rfl

/-- A width that is not negative is the least length of the text. -/
theorem length_stringText (hs : s.length < 2 ^ 30) (hwidth : ¬ e.width.slt 0 = true) :
    (e.stringText s).length = max e.width.toNat (e.cut s).length := by
  have hle := (e.length_cut_le s).trans_lt hs
  have hpos := mt (slt_zero_iff e.width).mpr hwidth
  have hcount : (e.width - BitVec.ofNat 32 (e.cut s).length).toInt.toNat =
      e.width.toNat - (e.cut s).length := by
    rw [toNat_toInt]
    split
    · bv_omega
    · bv_omega
  have htext : (e.stringText s).length =
      e.width.toNat - (e.cut s).length + (e.cut s).length := by
    rw [stringText_eq hs]
    split
    · rw [List.length_append, pad, List.length_replicate, e.length_shown, hcount]
    · rw [List.length_append, pad, List.length_replicate, e.length_shown, hcount, Nat.add_comm]
  omega

/-- The text with a width that fits in an `int`. -/
theorem stringText_of_width {w : ℕ} (hs : s.length < 2 ^ 30) (hwidth : IsWidth w e.width)
    (hw : w < 2 ^ 31) : e.stringText s =
      if e.padc = ch '-' then e.shown s ++ List.replicate (w - (e.cut s).length) (ch ' ')
      else List.replicate (w - (e.cut s).length) e.padc ++ e.shown s := by
  have hle := (e.length_cut_le s).trans_lt hs
  have hpos : (0 : BitVec 32).slt e.width = true ↔ 0 < w := by
    rw [zero_slt_iff]
    rcases hwidth with hwidth | ⟨rfl, hwidth⟩
    · rw [hwidth, BitVec.toNat_ofNat]
      omega
    · rw [hwidth]
      decide
  have hcount : padCount w (e.cut s).length = w - (e.cut s).length := by
    rw [padCount_eq w (by omega)]
    split
    · omega
    · omega
  rw [stringText_eq hs, pad, pad, hwidth.padCount_eq (by omega), hcount]
  by_cases hminus : e.padc = ch '-'
  · rw [if_pos hminus, if_neg fun h => h.2 hminus]
  · rw [if_neg hminus]
    by_cases hw0 : 0 < w
    · rw [if_pos ⟨hpos.mpr hw0, hminus⟩]
    · have hnone : w - (e.cut s).length = 0 := by omega
      rw [if_neg fun h => hw0 (hpos.mp h.1), hnone, List.replicate_zero, List.replicate_zero,
        List.append_nil, List.nil_append]

end

end CertiCore
