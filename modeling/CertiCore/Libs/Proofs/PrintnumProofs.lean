import CertiCore.Libs.Printfmt
import CertiCore.Text.Radix

/-!
# Proofs: `printnum`

A number is printed as its padding and its digits. The padding is emitted at the deepest call, whose
width has been reduced once for every digit but the last.
-/

namespace CertiCore

/-! ## The values of `int` -/

theorem slt_zero_iff (x : BitVec 32) : x.slt 0 = true ↔ 2 ^ 31 ≤ x.toNat := by
  rw [BitVec.slt_iff_toInt_lt]
  show x.toInt < 0 ↔ _
  rw [BitVec.toInt_neg_iff]
  omega

theorem signExtend_of_not_slt {x : BitVec 32} (h : ¬ x.slt 0 = true) :
    x.signExtend 64 = x.setWidth 64 := by
  apply BitVec.signExtend_eq_setWidth_of_msb_false
  rw [← BitVec.slt_zero_eq_msb]
  exact Bool.not_eq_true _ ▸ h

theorem zero_sle_iff (x : BitVec 32) : (0 : BitVec 32).sle x = true ↔ x.toNat < 2 ^ 31 := by
  rw [BitVec.sle_iff_toInt_le]
  show 0 ≤ x.toInt ↔ _
  rw [BitVec.toInt_pos_iff]
  omega

theorem zero_slt_iff (x : BitVec 32) :
    (0 : BitVec 32).slt x = true ↔ 0 < x.toNat ∧ x.toNat < 2 ^ 31 := by
  rw [BitVec.slt_iff_toInt_lt]
  show 0 < x.toInt ↔ _
  rw [BitVec.toInt_eq_toNat_cond]
  have hlt := x.isLt
  split
  · omega
  · omega

theorem toNat_toInt (x : BitVec 32) : x.toInt.toNat = if x.toNat < 2 ^ 31 then x.toNat else 0 := by
  by_cases h : x.toNat < 2 ^ 31
  · rw [if_pos h, BitVec.toInt_eq_toNat_of_lt (by omega)]
    exact Int.toNat_natCast _
  · have hneg : x.toInt < 0 := BitVec.toInt_neg_iff.mpr (by omega)
    rw [if_neg h]
    exact Int.toNat_of_nonpos hneg.le

theorem toNat_sub_one {x : BitVec 32} (h : x ≠ 0) : (x - 1).toNat = x.toNat - 1 := by
  bv_omega

theorem sub_ofNat_succ (x : BitVec 32) (k : ℕ) :
    x - BitVec.ofNat 32 (k + 1) = x - 1 - BitVec.ofNat 32 k := by
  rw [BitVec.ofNat_add]
  show x - (BitVec.ofNat 32 k + 1) = x - 1 - BitVec.ofNat 32 k
  rw [BitVec.add_comm]
  exact (sub_sub _ _ _).symm

/-- No padding is left of a width that was not given. -/
theorem toNat_toInt_neg_one_sub {k : ℕ} (hk : k < 2 ^ 31) :
    (-1 - BitVec.ofNat 32 k).toInt.toNat = 0 := by
  rw [toNat_toInt, if_neg]
  bv_omega

/-! ## Digits and padding -/

/-- The character of a digit. -/
def digitChar (d : ℕ) : Byte := (bytes "0123456789abcdef").getD d 0

/-- The digits of `n` in base `b`, as `printnum` writes them. -/
def numeral (b n : ℕ) : List Byte := (Radix.digits b n).map digitChar

/-- Characters as `putch` gets them. -/
def chars (l : List Byte) : List (BitVec 32) := l.map (·.setWidth 32)

/-- `count` characters `c`, as a loop emits them that counts an `int` down to zero. -/
def pad (count : BitVec 32) (c : Byte) : List Byte := List.replicate count.toInt.toNat c

@[simp] theorem chars_nil : chars [] = [] := rfl

@[simp] theorem chars_append (l r : List Byte) : chars (l ++ r) = chars l ++ chars r :=
  List.map_append

@[simp] theorem length_chars (l : List Byte) : (chars l).length = l.length := List.length_map _

theorem pad_neg_one_sub {k : ℕ} (hk : k < 2 ^ 31) (c : Byte) :
    pad (-1 - BitVec.ofNat 32 k) c = [] := by
  rw [pad, toNat_toInt_neg_one_sub hk, List.replicate_zero]

theorem chars_injective : Function.Injective chars := by
  apply List.map_injective_iff.mpr
  intro c d h
  apply BitVec.eq_of_toNat_eq
  have hnat := congrArg BitVec.toNat h
  have hc := c.isLt
  have hd := d.isLt
  simp only [BitVec.toNat_setWidth] at hnat
  omega

theorem length_numeral (b n : ℕ) : (numeral b n).length = (Radix.digits b n).length :=
  List.length_map _

theorem length_numeral_le (base : Base) (num : BitVec 64) :
    (numeral base.val.toNat num.toNat).length ≤ 64 := by
  rw [length_numeral]
  exact Radix.length_digits_le base.two_le (by omega) num.isLt

theorem numeral_of_lt {b n : ℕ} (h : n < b) : numeral b n = [digitChar n] := by
  rw [numeral, Radix.digits_of_lt h]
  rfl

theorem numeral_of_le {b n : ℕ} (hb : 1 < b) (h : b ≤ n) :
    numeral b n = numeral b (n / b) ++ [digitChar (n % b)] := by
  rw [numeral, Radix.digits_of_le hb h, List.map_append]
  rfl

theorem loadByte_digit {d : ℕ} (h : d < 16) :
    loadByte (cstr "0123456789abcdef") d = .ok (digitChar d) := by
  have hlen : (bytes "0123456789abcdef").length = 16 := rfl
  have hlt : d < (cstr "0123456789abcdef").length := by
    rw [cstr, List.length_append, hlen]
    omega
  have hget : (cstr "0123456789abcdef")[d] = digitChar d := by
    have hchars : d < (bytes "0123456789abcdef").length := hlen.symm ▸ h
    rw [digitChar, ← List.getElem_eq_getD (h := hchars) 0]
    exact List.getElem_append_left hchars
  rw [loadByte, dif_pos hlt, hget]

/-! ## Emitting a sequence -/

section Formatter

variable {σ : Type} (D : Device σ)

/-- The data of `putch` after it has got the characters `cs`. -/
def Device.putAll (cs : List (BitVec 32)) (dat : σ) : σ := cs.foldl (fun dat c => D.putch c dat) dat

theorem Device.putAll_append (cs cs' : List (BitVec 32)) (dat : σ) :
    D.putAll (cs ++ cs') dat = D.putAll cs' (D.putAll cs dat) := List.foldl_append

theorem Device.putAll_pad (count : BitVec 32) (c : Byte) (dat : σ) :
    (D.putch (c.setWidth 32))^[count.toInt.toNat] dat = D.putAll (chars (pad count c)) dat := by
  rw [pad, chars, List.map_replicate]
  generalize count.toInt.toNat = n
  induction n generalizing dat with
  | zero => rfl
  | succ n ih =>
    rw [Function.iterate_succ_apply, ih, List.replicate_succ]
    rfl

/-! ## The recursion -/

variable {D} {num : BitVec 64} {base : Base} {width : BitVec 32} {padc : Byte} {dat : σ}

theorem Base.toNat_setWidth (base : Base) : (base.val.setWidth 64).toNat = base.val.toNat := by
  rw [BitVec.toNat_setWidth]
  exact Nat.mod_eq_of_lt (base.val.isLt.trans (by decide))

theorem Base.one_lt (base : Base) : 1 < base.val.toNat := base.two_le

/-- The remainder keeps its value through the `int` of the macro. -/
theorem toNat_doDiv_snd (num : BitVec 64) (base : Base) :
    (doDiv num base.val).2.toNat = num.toNat % base.val.toNat := by
  have htwo := base.two_le
  have hle := base.le_sixteen
  have hlt : num.toNat % base.val.toNat < base.val.toNat := Nat.mod_lt _ (by omega)
  rw [doDiv, BitVec.toNat_setWidth, BitVec.toNat_umod, base.toNat_setWidth]
  exact Nat.mod_eq_of_lt (by omega)

theorem toNat_doDiv_fst (num : BitVec 64) (base : Base) :
    (doDiv num base.val).1.toNat = num.toNat / base.val.toNat := by
  rw [doDiv, BitVec.toNat_udiv, base.toNat_setWidth]

theorem Device.digit_eq {d : ℕ} (h : d < 16) : D.digit d = .ok (digitChar d) := by
  rw [Device.digit, if_pos h, loadByte_digit h]

theorem Device.digit_doDiv (num : BitVec 64) (base : Base) :
    D.digit (doDiv num base.val).2.toNat = .ok (digitChar (num.toNat % base.val.toNat)) := by
  have hlt : num.toNat % base.val.toNat < base.val.toNat :=
    Nat.mod_lt _ (Nat.zero_lt_of_lt base.one_lt)
  rw [toNat_doDiv_snd]
  exact D.digit_eq (hlt.trans_le base.le_sixteen)

theorem not_ge_base (h : num.toNat < base.val.toNat) : ¬ num ≥ base.val.setWidth 64 := by
  rw [ge_iff_le, BitVec.le_def, base.toNat_setWidth]
  exact Nat.not_le.mpr h

theorem ge_base (h : base.val.toNat ≤ num.toNat) : num ≥ base.val.setWidth 64 := by
  rw [ge_iff_le, BitVec.le_def, base.toNat_setWidth]
  exact h

theorem printnum_of_lt (h : num.toNat < base.val.toNat) :
    printnum D num base width padc dat = (D.pred width).map fun width =>
      D.putAll (chars (pad width padc ++ [digitChar num.toNat])) dat := by
  rw [printnum]
  cases D.pred width with
  | error e => rfl
  | ok width =>
    simp only [bind, Except.bind, dif_neg (not_ge_base h), D.digit_doDiv, Nat.mod_eq_of_lt h]
    show Except.ok (D.putch _ ((D.putch _)^[_] dat)) = _
    rw [D.putAll_pad, Except.map, chars_append, D.putAll_append]
    rfl

theorem printnum_of_le (h : base.val.toNat ≤ num.toNat) :
    printnum D num base width padc dat = D.pred width >>= fun width =>
      (printnum D (doDiv num base.val).1 base width padc dat).map
        (D.putAll (chars [digitChar (num.toNat % base.val.toNat)])) := by
  rw [printnum]
  cases D.pred width with
  | error e => rfl
  | ok width =>
    simp only [bind, Except.bind, dif_pos (ge_base h), D.digit_doDiv]
    cases printnum D (doDiv num base.val).1 base width padc dat with
    | error e => rfl
    | ok dat => rfl

/-! ## Widths that are counted down -/

/-- The width can be decremented `k` times. -/
def Device.CountsDown (D : Device σ) : ℕ → BitVec 32 → Prop
  | 0, _ => True
  | k + 1, width => D.pred width = .ok (width - 1) ∧ D.CountsDown k (width - 1)

theorem Device.pred_of_ne (h : width ≠ BitVec.intMin 32) : D.pred width = .ok (width - 1) :=
  if_neg h

theorem Device.pred_of_wrapped (hD : D.underflow = wrapped) (width : BitVec 32) :
    D.pred width = .ok (width - 1) := by
  by_cases h : width = BitVec.intMin 32
  · rw [Device.pred, if_pos h, hD, h, wrapped]
  · exact D.pred_of_ne h

theorem Device.countsDown_of_wrapped (hD : D.underflow = wrapped) (k : ℕ) (width : BitVec 32) :
    D.CountsDown k width := by
  induction k generalizing width with
  | zero => exact trivial
  | succ k ih => exact ⟨D.pred_of_wrapped hD width, ih (width - 1)⟩

theorem toInt_sub_one (h : width ≠ BitVec.intMin 32) : (width - 1).toInt = width.toInt - 1 := by
  have hone : (1 : BitVec 32).toInt = 1 := rfl
  have hmin : width.toInt ≠ (BitVec.intMin 32).toInt := fun heq => h (BitVec.eq_of_toInt_eq heq)
  have hmin : width.toInt ≠ -2 ^ 31 := hmin
  have hle := BitVec.le_toInt width
  have hlt := BitVec.toInt_lt (x := width)
  rw [BitVec.toInt_sub, hone]
  exact Int.bmod_eq_of_le (by omega) (by omega)

/-- A width that stays an `int` is counted down, whatever the least `int` less one is. -/
theorem Device.countsDown_of_le {k : ℕ} (h : -2 ^ 31 ≤ width.toInt - k) : D.CountsDown k width := by
  induction k generalizing width with
  | zero => exact trivial
  | succ k ih =>
    have hne : width ≠ BitVec.intMin 32 := by
      rintro rfl
      have hmin : (BitVec.intMin 32).toInt = -2 ^ 31 := rfl
      omega
    refine ⟨D.pred_of_ne hne, ih ?_⟩
    rw [toInt_sub_one hne]
    omega

/-- `printnum` emits the padding and the digits. -/
theorem printnum_eq (num : BitVec 64) (base : Base) (width : BitVec 32) (padc : Byte) (dat : σ)
    (hcount : D.CountsDown (numeral base.val.toNat num.toNat).length width) :
    printnum D num base width padc dat =
      .ok (D.putAll
        (chars (pad (width - BitVec.ofNat 32 (numeral base.val.toNat num.toNat).length) padc ++
          numeral base.val.toNat num.toNat)) dat) := by
  induction hn : num.toNat using Radix.digit_induction base.one_lt generalizing num width with
  | one n h =>
    subst hn
    rw [numeral_of_lt h] at hcount ⊢
    rw [printnum_of_lt h, hcount.1]
    rfl
  | more n h ih =>
    subst hn
    have hdigits := numeral_of_le base.one_lt h
    rw [hdigits, List.length_append, List.length_singleton] at hcount
    have hrest := ih (doDiv num base.val).1 (width - 1)
      (by rw [toNat_doDiv_fst]; exact hcount.2) (toNat_doDiv_fst num base)
    rw [printnum_of_le h, hcount.1, hdigits, List.length_append, List.length_singleton,
      sub_ofNat_succ, ← List.append_assoc, chars_append _ [_], D.putAll_append]
    show Except.map _ _ = _
    rw [hrest]
    rfl

/-- A width that cannot be counted down, where this is a fault. -/
theorem printnum_underflow {x : Halt} (hD : D.underflow = .error x) (num : BitVec 64) (base : Base)
    (width : BitVec 32) (padc : Byte) (dat : σ)
    (h : width.toInt - (numeral base.val.toNat num.toNat).length < -2 ^ 31) :
    printnum D num base width padc dat = .error x := by
  have hpred : width = BitVec.intMin 32 → D.pred width = .error x := fun hmin =>
    (if_pos hmin).trans hD
  induction hn : num.toNat using Radix.digit_induction base.one_lt generalizing num width with
  | one n hlt =>
    subst hn
    rw [numeral_of_lt hlt, List.length_singleton] at h
    have hmin : width = BitVec.intMin 32 := by
      by_contra hne
      have hsub := toInt_sub_one hne
      have hle := BitVec.le_toInt (width - 1)
      omega
    rw [printnum_of_lt hlt, hpred hmin]
    rfl
  | more n hle ih =>
    subst hn
    rw [printnum_of_le hle]
    by_cases hmin : width = BitVec.intMin 32
    · rw [hpred hmin]
      rfl
    · have hdigits := numeral_of_le base.one_lt hle
      rw [hdigits, List.length_append, List.length_singleton] at h
      have hrest := ih (doDiv num base.val).1 (width - 1)
        (by rw [toNat_doDiv_fst, toInt_sub_one hmin]; push_cast at h; omega)
        (fun hmin => (if_pos hmin).trans hD) (toNat_doDiv_fst num base)
      rw [D.pred_of_ne hmin]
      show Except.map _ _ = _
      rw [hrest]
      rfl

/-! ## Widths that do not underflow -/

theorem toInt_sub_ofNat {k : ℕ} (hk : k ≤ 64) (h : -2 ^ 31 ≤ width.toInt - k) :
    (width - BitVec.ofNat 32 k).toInt = width.toInt - k := by
  have hk' : (BitVec.ofNat 32 k).toInt = k := by
    rw [BitVec.toInt_eq_toNat_of_lt, BitVec.toNat_ofNat]
    · omega
    · rw [BitVec.toNat_ofNat]
      omega
  have hlt := BitVec.toInt_lt (x := width)
  rw [BitVec.toInt_sub, hk']
  exact Int.bmod_eq_of_le (by omega) (by omega)

/-- `printnum` emits the digits of the number, behind as many characters `padc` as they are fewer
than the width. -/
theorem printnum_emits (D : Device σ) (num : BitVec 64) (base : Base) (width : BitVec 32)
    (padc : Byte) (dat : σ)
    (h : -2 ^ 31 ≤ width.toInt - (Radix.digits base.val.toNat num.toNat).length) :
    Radix.IsNumeral base.val.toNat num.toNat (Radix.digits base.val.toNat num.toNat) ∧
    printnum D num base width padc dat = .ok (D.putAll (chars
      (List.replicate (width.toInt - (Radix.digits base.val.toNat num.toNat).length).toNat padc ++
        (Radix.digits base.val.toNat num.toNat).map digitChar)) dat) := by
  have hlen := length_numeral base.val.toNat num.toNat
  have hk := length_numeral_le base num
  refine ⟨Radix.isNumeral_digits base.one_lt _, ?_⟩
  rw [printnum_eq num base width padc dat (D.countsDown_of_le (hlen ▸ h)), pad, hlen,
    toInt_sub_ofNat (hlen ▸ hk) h]
  rfl

end Formatter

theorem printnum_emits_hex :
    printnum { putch := fun c dat => dat ++ [c], load := fun _ _ => none } 255 .hex 4 0x20 [] =
      .ok (chars (bytes "  ff")) := by
  have hdigits : Radix.digits Base.hex.val.toNat (255 : BitVec 64).toNat = [15, 15] := by
    show Radix.digits 16 255 = [15, 15]
    rw [Radix.digits_of_le (by decide) (by decide), Radix.digits_of_lt (by decide)]
    rfl
  have hwidth : -2 ^ 31 ≤ (4 : BitVec 32).toInt -
      (Radix.digits Base.hex.val.toNat (255 : BitVec 64).toNat).length := by
    rw [hdigits]
    decide
  refine (printnum_emits _ 255 .hex 4 0x20 [] hwidth).2.trans ?_
  rw [hdigits]
  rfl

end CertiCore
