import Mathlib.Data.Nat.Digits.Lemmas

/-!
# Positional notation

Numbers as they are written: the digits of a number with the most significant one first, and the
number that a sequence of digits denotes.
-/

namespace Radix

variable {b n : ℕ}

/-- The digits of `n` in base `b`, most significant first. Zero has one digit. -/
def digits (b n : ℕ) : List ℕ := if n = 0 then [0] else (Nat.digits b n).reverse

/-- The number with the digits `ds`. -/
def value (b : ℕ) (ds : List ℕ) : ℕ := ds.foldl (fun acc d => acc * b + d) 0

theorem digits_of_lt (h : n < b) : digits b n = [n] := by
  unfold digits
  by_cases h0 : n = 0
  · rw [if_pos h0, h0]
  · rw [if_neg h0, Nat.digits_of_lt b n h0 h, List.reverse_singleton]

/-- The last digit is the remainder, and the others are the digits of the quotient. -/
theorem digits_of_le (hb : 1 < b) (h : b ≤ n) : digits b n = digits b (n / b) ++ [n % b] := by
  have hn : n ≠ 0 := by omega
  have hq : n / b ≠ 0 := (Nat.div_pos h (by omega)).ne'
  unfold digits
  rw [if_neg hn, if_neg hq, Nat.digits_def' hb (Nat.pos_of_ne_zero hn), List.reverse_cons]

/-- Induction along the digits, from the most significant one on. -/
theorem digit_induction (hb : 1 < b) {P : ℕ → Prop} (one : ∀ n < b, P n)
    (more : ∀ n, b ≤ n → P (n / b) → P n) (n : ℕ) : P n := by
  induction n using Nat.strong_induction_on with
  | h n ih =>
    by_cases h : n < b
    · exact one n h
    · have hle : b ≤ n := Nat.le_of_not_lt h
      exact more n hle (ih _ (Nat.div_lt_self (by omega) hb))

theorem digits_ne_nil (b n : ℕ) : digits b n ≠ [] := by
  unfold digits
  by_cases h0 : n = 0
  · rw [if_pos h0]
    exact List.cons_ne_nil 0 []
  · rw [if_neg h0, Ne, List.reverse_eq_nil_iff]
    exact Nat.digits_ne_nil_iff_ne_zero.mpr h0

theorem length_digits_pos (b n : ℕ) : 0 < (digits b n).length :=
  List.length_pos_of_ne_nil (digits_ne_nil b n)

theorem digits_lt (hb : 1 < b) : ∀ d ∈ digits b n, d < b := by
  intro d hd
  unfold digits at hd
  by_cases h0 : n = 0
  · rw [if_pos h0, List.mem_singleton] at hd
    omega
  · rw [if_neg h0, List.mem_reverse] at hd
    exact Nat.digits_lt_base hb hd

/-- There are no leading zeros. -/
theorem head_digits_ne_zero {d : ℕ} {ds : List ℕ} (h : digits b n = d :: ds) (hn : n ≠ 0) :
    d ≠ 0 := by
  unfold digits at h
  rw [if_neg hn, List.reverse_eq_iff, List.reverse_cons] at h
  have hlast := Nat.getLast_digit_ne_zero b hn
  simp only [h, List.getLast_append_singleton] at hlast
  exact hlast

theorem length_digits_le_of_lt_pow (hb : 1 < b) {k : ℕ} (hk : 0 < k) (h : n < b ^ k) :
    (digits b n).length ≤ k := by
  unfold digits
  by_cases h0 : n = 0
  · rw [if_pos h0]
    exact hk
  · rw [if_neg h0, List.length_reverse]
    exact (Nat.digits_length_le_iff hb n).mpr h

theorem length_digits_le (hb : 1 < b) {k : ℕ} (hk : 0 < k) (h : n < 2 ^ k) :
    (digits b n).length ≤ k :=
  length_digits_le_of_lt_pow hb hk (h.trans_le (Nat.pow_le_pow_left hb k))

theorem value_append_singleton (ds : List ℕ) (d : ℕ) :
    value b (ds ++ [d]) = value b ds * b + d := by
  rw [value, List.foldl_append]
  rfl

theorem value_digits (hb : 1 < b) (n : ℕ) : value b (digits b n) = n := by
  induction n using digit_induction hb with
  | one n h =>
    rw [digits_of_lt h]
    simp [value]
  | more n h ih =>
    rw [digits_of_le hb h, value_append_singleton, ih]
    exact Nat.div_add_mod' n b

/-- `ds` is how the number `n` is written in base `b`. -/
structure IsNumeral (b n : ℕ) (ds : List ℕ) : Prop where
  value_eq : value b ds = n
  lt : ∀ d ∈ ds, d < b
  ne_nil : ds ≠ []
  /-- The number zero only has a zero in front. -/
  head_ne_zero : n ≠ 0 → ∀ d ds', ds = d :: ds' → d ≠ 0
  length_zero : n = 0 → ds.length = 1

theorem isNumeral_digits (hb : 1 < b) (n : ℕ) : IsNumeral b n (digits b n) where
  value_eq := value_digits hb n
  lt := digits_lt hb
  ne_nil := digits_ne_nil b n
  head_ne_zero := fun hn _ _ h => head_digits_ne_zero h hn
  length_zero := by
    rintro rfl
    rw [digits_of_lt (by omega)]
    rfl

/-! ## Leading zeros -/

/-- The digits of `n`, with zeros in front if these are less than `k`. -/
def padded (b k n : ℕ) : List ℕ := List.replicate (k - (digits b n).length) 0 ++ digits b n

theorem length_padded (hb : 1 < b) {k : ℕ} (hk : 0 < k) (h : n < b ^ k) :
    (padded b k n).length = k := by
  have hle := length_digits_le_of_lt_pow hb hk h
  rw [padded, List.length_append, List.length_replicate]
  omega

theorem padded_lt (hb : 1 < b) {k : ℕ} : ∀ d ∈ padded b k n, d < b := by
  intro d hd
  rcases List.mem_append.mp hd with hd | hd
  · rw [(List.mem_replicate.mp hd).2]
    omega
  · exact digits_lt hb d hd

theorem value_padded (hb : 1 < b) (k n : ℕ) : value b (padded b k n) = n := by
  have hzeros : ∀ j, (List.replicate j 0).foldl (fun acc d => acc * b + d) 0 = 0 := by
    intro j
    induction j with
    | zero => rfl
    | succ j ih =>
      rw [List.replicate_succ, List.foldl_cons, Nat.zero_mul]
      exact ih
  rw [value, padded, List.foldl_append, hzeros]
  exact value_digits hb n

theorem padded_injective (hb : 1 < b) {k m n : ℕ} (h : padded b k m = padded b k n) : m = n := by
  rw [← value_padded hb k m, h, value_padded hb]

end Radix
