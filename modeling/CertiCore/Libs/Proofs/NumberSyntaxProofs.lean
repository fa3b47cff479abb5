import CertiCore.Libs.NumberSyntax
import CertiCore.Libs.Proofs.PrintnumProofs

/-!
# Proofs: the syntax that `strtol` takes

`strtol` looks for the parts of a number one after the other and takes each as far as it goes. What
it takes is always a number of the syntax, and it is the longest unless the text begins with
whitespace or with a prefix that the code does not know.
-/

namespace CertiCore

open Text

variable {b base : ℕ} {s r x : List Byte} {c : Byte} {space : Byte → Bool}

/-! ## Digits -/

theorem strtolDigit_eq (c : Byte) : strtolDigit c = (digitValue c).map (BitVec.ofNat 32) := by
  revert c
  decide +kernel

theorem digitValue_lt {d : ℕ} (h : digitValue c = some d) : d < 36 := by
  rcases Option.or_eq_some_iff.mp h with h | ⟨-, h⟩
  · exact (List.findIdx?_eq_some_iff_findIdx_eq.mp h).1
  · exact (List.findIdx?_eq_some_iff_findIdx_eq.mp h).1

theorem signExtend_ofNat {k : ℕ} (hk : k < 2 ^ 31) :
    (BitVec.ofNat 32 k).signExtend 64 = BitVec.ofNat 64 k := by
  have hnat : (BitVec.ofNat 32 k).toNat = k := Nat.mod_eq_of_lt (by omega)
  have hpos : ¬ (BitVec.ofNat 32 k).slt 0 = true := by
    rw [slt_zero_iff, hnat]
    omega
  rw [signExtend_of_not_slt hpos]
  apply BitVec.eq_of_toNat_eq
  rw [BitVec.toNat_setWidth, hnat, BitVec.toNat_ofNat]

theorem sle_ofNat_iff {d : ℕ} (hb : b < 2 ^ 31) (hd : d < 2 ^ 31) :
    (BitVec.ofNat 32 b).sle (BitVec.ofNat 32 d) = true ↔ b ≤ d := by
  have hb' : (BitVec.ofNat 32 b).toNat = b := Nat.mod_eq_of_lt (by omega)
  have hd' : (BitVec.ofNat 32 d).toNat = d := Nat.mod_eq_of_lt (by omega)
  rw [BitVec.sle_iff_toInt_le, BitVec.toInt_eq_toNat_of_lt (by omega),
    BitVec.toInt_eq_toNat_of_lt (by omega), hb', hd']
  omega

theorem isDigitOf_iff : isDigitOf b c = true ↔ ∃ d < b, digitValue c = some d := by
  rw [isDigitOf, Option.any_eq_true]
  constructor
  · rintro ⟨d, hd, hlt⟩
    exact ⟨d, of_decide_eq_true hlt, hd⟩
  · rintro ⟨d, hlt, hd⟩
    exact ⟨d, hd, decide_eq_true hlt⟩

theorem strtolDigits_end (hb : b ≤ 36) (hc : isDigitOf b c = false) (val : BitVec 64) :
    strtolDigits (BitVec.ofNat 32 b) val (c :: s) = .ok (val, c :: s) := by
  rw [strtolDigits, strtolDigit_eq]
  unfold isDigitOf at hc
  cases hd : digitValue c with
  | none => rfl
  | some d =>
    rw [hd] at hc
    have hle : b ≤ d := Nat.le_of_not_lt (of_decide_eq_false hc)
    have hlt := digitValue_lt hd
    exact if_pos ((sle_ofNat_iff (by omega) (by omega)).mpr hle)

theorem strtolDigits_digit {d : ℕ} (hb : b ≤ 36) (hd : digitValue c = some d) (hlt : d < b)
    (k : ℕ) : strtolDigits (BitVec.ofNat 32 b) (BitVec.ofNat 64 k) (c :: s) =
      strtolDigits (BitVec.ofNat 32 b) (BitVec.ofNat 64 (k * b + d)) s := by
  have hgo : ¬ (BitVec.ofNat 32 b).sle (BitVec.ofNat 32 d) = true := by
    rw [sle_ofNat_iff (by omega) (by omega)]
    omega
  rw [strtolDigits, strtolDigit_eq, hd, BitVec.ofNat_add, BitVec.ofNat_mul,
    ← signExtend_ofNat (k := b) (by omega), ← signExtend_ofNat (k := d) (by omega)]
  exact if_neg hgo

/-- The number that digits make of the one before them. -/
def addDigits (b k : ℕ) (ds : List Byte) : ℕ :=
  (ds.filterMap digitValue).foldl (fun acc d => acc * b + d) k

/-- The loop over the digits takes as many as there are. -/
theorem strtolDigits_run (hb : b ≤ 36) (s x : List Byte) (k : ℕ) :
    strtolDigits (BitVec.ofNat 32 b) (BitVec.ofNat 64 k) (s ++ 0 :: x) =
      .ok (BitVec.ofNat 64 (addDigits b k (s.takeWhile (isDigitOf b))),
        s.dropWhile (isDigitOf b) ++ 0 :: x) := by
  induction s generalizing k with
  | nil => exact strtolDigits_end hb rfl _
  | cons c s ih =>
    by_cases hc : isDigitOf b c = true
    · obtain ⟨d, hlt, hd⟩ := isDigitOf_iff.mp hc
      rw [List.takeWhile_cons_of_pos hc, List.dropWhile_cons_of_pos hc, List.cons_append,
        strtolDigits_digit hb hd hlt, ih]
      unfold addDigits
      rw [List.filterMap_cons_some hd]
      rfl
    · rw [List.takeWhile_cons_of_neg hc, List.dropWhile_cons_of_neg hc]
      exact strtolDigits_end hb (Bool.eq_false_of_not_eq_true hc) _

/-! ## The prefix of the base -/

/-- What may follow the sign: a prefix, and digits. -/
def IsBody (base : ℕ) (p : List Byte) : Prop :=
  ∃ mark radix ds, BaseMark base mark radix ds ∧ (∀ c ∈ ds, isDigitOf radix c = true) ∧
    p = mark ++ ds

theorem hexPrefix_eq_false {w : BitVec 32} (hs : w = 0 ∨ w = 16 → ¬ bytes "0x" <+: s)
    (x : List Byte) : hexPrefix (s ++ 0 :: x) w = .ok false := by
  unfold hexPrefix
  split
  case isFalse => rfl
  case isTrue hw =>
    cases s with
    | nil => rfl
    | cons c s =>
      by_cases hc : c = ch '0'
      · subst hc
        cases s with
        | nil => rfl
        | cons d s =>
          have hd : d ≠ ch 'x' := by
            rintro rfl
            exact hs hw ⟨s, rfl⟩
          exact congrArg Except.ok (decide_eq_false hd)
      · exact if_neg hc

theorem strtolBase_hex {w : BitVec 32} (hw : w = 0 ∨ w = 16) (s : List Byte) :
    strtolBase (bytes "0x" ++ s) w = .ok (16, s) := by
  rcases hw with rfl | rfl
  · rfl
  · rfl

theorem strtolBase_of_ne {w : BitVec 32} (hw : w ≠ 0) (hs : w = 16 → ¬ bytes "0x" <+: s)
    (x : List Byte) : strtolBase (s ++ 0 :: x) w = .ok (w, s ++ 0 :: x) := by
  unfold strtolBase
  rw [hexPrefix_eq_false fun h => hs (h.resolve_left hw)]
  exact if_neg hw

theorem strtolBase_octal (hs : ¬ bytes "0x" <+: ch '0' :: s) (x : List Byte) :
    strtolBase (ch '0' :: s ++ 0 :: x) 0 = .ok (8, s ++ 0 :: x) := by
  unfold strtolBase
  rw [hexPrefix_eq_false fun _ => hs]
  rfl

theorem strtolBase_decimal (hs : s.head? ≠ some (ch '0')) (x : List Byte) :
    strtolBase (s ++ 0 :: x) 0 = .ok (10, s ++ 0 :: x) := by
  have hhex : ¬ bytes "0x" <+: s := by
    rintro ⟨r, rfl⟩
    exact hs rfl
  unfold strtolBase
  rw [hexPrefix_eq_false fun _ => hhex]
  cases s with
  | nil => rfl
  | cons c s => exact if_neg fun h => hs (congrArg some h)

/-! ## The longest body -/

/-- Behind the same prefix, no digits reach further than those that are taken. -/
theorem length_body_le {mark ds : List Byte} (hds : ∀ c ∈ ds, isDigitOf b c = true)
    (h : mark ++ ds <+: mark ++ s) :
    (mark ++ ds).length ≤ (mark ++ s.takeWhile (isDigitOf b)).length := by
  have hrest := (longest_takeWhile (isDigitOf b) s).length_le ds
    ((List.prefix_append_right_inj mark).mp h) hds
  rw [List.length_append, List.length_append]
  exact Nat.add_le_add_left hrest _

theorem eq_nil_of_head_ne {ds : List Byte} (hds : ds.head? ≠ some c) (h : ds <+: c :: s) :
    ds = [] := by
  cases ds with
  | nil => rfl
  | cons d ds => exact absurd (congrArg some (List.cons_prefix_cons.mp h).1) hds

/-- A `0x` reaches further than digits alone, as an `x` is none. -/
theorem longest_hex (hbase : base = 0 ∨ base = 16) (r : List Byte) :
    Longest (IsBody base) (bytes "0x" ++ r) (bytes "0x" ++ r.takeWhile (isDigitOf 16)) := by
  have htake : ∀ c ∈ r.takeWhile (isDigitOf 16), isDigitOf 16 c = true :=
    fun c hc => List.mem_takeWhile_imp hc
  refine ⟨(List.prefix_append_right_inj _).mpr (List.takeWhile_prefix _), ?_, ?_⟩
  · rcases hbase with rfl | rfl
    · exact ⟨_, 16, _, .autoHex, htake, rfl⟩
    · exact ⟨_, 16, _, .hex, htake, rfl⟩
  · rintro _ hq ⟨mark, radix, ds, hmark, hds, rfl⟩
    cases hmark with
    | none h0 =>
      obtain rfl := hbase.resolve_left h0
      have hzero : ds.length ≤ 1 := (longest_takeWhile (isDigitOf 16) _).length_le ds hq hds
      exact hzero.trans (Nat.succ_le_succ (Nat.zero_le _))
    | hex => exact length_body_le hds hq
    | hexUpper =>
      have hx := (List.cons_prefix_cons.mp (List.cons_prefix_cons.mp hq).2).1
      exact absurd hx (by decide)
    | autoHex => exact length_body_le hds hq
    | autoOctal =>
      have hzero : (bytes "0" ++ ds).length ≤ 1 := @length_body_le 8 _ (bytes "0") ds hds hq
      exact hzero.trans (Nat.succ_le_succ (Nat.zero_le _))
    | autoDecimal h =>
      rw [eq_nil_of_head_ne h hq]
      exact Nat.zero_le _

/-- Digits alone. -/
theorem longest_plain (h0 : base ≠ 0)
    (h16 : base = 16 → ¬ bytes "0x" <+: s ∧ ¬ bytes "0X" <+: s) :
    Longest (IsBody base) s (s.takeWhile (isDigitOf base)) := by
  refine ⟨List.takeWhile_prefix _, ⟨[], base, _, .none h0, fun c hc => ?_, rfl⟩, ?_⟩
  · exact List.mem_takeWhile_imp hc
  · rintro _ hq ⟨mark, radix, ds, hmark, hds, rfl⟩
    cases hmark with
    | none => exact @length_body_le base s [] ds hds hq
    | hex => exact absurd ((List.prefix_append _ _).trans hq) (h16 rfl).1
    | hexUpper => exact absurd ((List.prefix_append _ _).trans hq) (h16 rfl).2
    | autoHex => exact absurd rfl h0
    | autoOctal => exact absurd rfl h0
    | autoDecimal => exact absurd rfl h0

theorem longest_octal (hs : ¬ bytes "0x" <+: ch '0' :: r) :
    Longest (IsBody 0) (bytes "0" ++ r) (bytes "0" ++ r.takeWhile (isDigitOf 8)) := by
  refine ⟨(List.prefix_append_right_inj _).mpr (List.takeWhile_prefix _),
    ⟨_, 8, _, .autoOctal, fun c hc => List.mem_takeWhile_imp hc, rfl⟩, ?_⟩
  rintro _ hq ⟨mark, radix, ds, hmark, hds, rfl⟩
  cases hmark with
  | none h0 => exact absurd rfl h0
  | autoHex => exact absurd ((List.prefix_append _ _).trans hq) hs
  | autoOctal => exact length_body_le hds hq
  | autoDecimal h =>
    rw [eq_nil_of_head_ne h hq]
    exact Nat.zero_le _

theorem baseMark_decimal (hs : s.head? ≠ some (ch '0')) :
    BaseMark 0 [] 10 (s.takeWhile (isDigitOf 10)) := by
  refine .autoDecimal fun h => hs ?_
  rw [List.head?_takeWhile] at h
  exact Option.eq_some_of_filter_eq_some h

theorem longest_decimal (hs : s.head? ≠ some (ch '0')) :
    Longest (IsBody 0) s (s.takeWhile (isDigitOf 10)) := by
  refine ⟨List.takeWhile_prefix _,
    ⟨[], 10, _, baseMark_decimal hs, fun c hc => List.mem_takeWhile_imp hc, rfl⟩, ?_⟩
  rintro _ hq ⟨mark, radix, ds, hmark, hds, rfl⟩
  have hzero : ∀ t, ¬ ch '0' :: t <+: s := by
    rintro t ⟨u, rfl⟩
    exact hs rfl
  cases hmark with
  | none h0 => exact absurd rfl h0
  | autoHex => exact absurd hq (hzero _)
  | autoOctal => exact absurd hq (hzero _)
  | autoDecimal => exact @length_body_le 10 s [] ds hds hq

/-! ## The body that is taken -/

/-- Of a text that begins behind the sign, the prefix `mark` is taken, and the digits are those of
what follows it. -/
structure TakesBody (base : ℕ) (s mark : List Byte) (radix : ℕ) (r : List Byte) : Prop where
  text_eq : s = mark ++ r
  mark : BaseMark base mark radix (r.takeWhile (isDigitOf radix))
  radix_le : radix ≤ 36
  strtolBase_eq : ∀ x, strtolBase (s ++ 0 :: x) (BitVec.ofNat 32 base) =
    .ok (BitVec.ofNat 32 radix, r ++ 0 :: x)

/-- What is taken is the longest body, but for the prefix `0X`, of which the zero is taken only. -/
theorem exists_takesBody (hbase : base = 0 ∨ 2 ≤ base ∧ base ≤ 36) (s : List Byte) :
    ∃ mark radix r, TakesBody base s mark radix r ∧
      (Longest (IsBody base) s (mark ++ r.takeWhile (isDigitOf radix)) ↔
        ¬ (base = 16 ∧ bytes "0X" <+: s)) := by
  by_cases hhex : (base = 0 ∨ base = 16) ∧ bytes "0x" <+: s
  · obtain ⟨h, r, rfl⟩ := hhex
    refine ⟨_, 16, r, ⟨rfl, ?_, by omega, fun x => ?_⟩, iff_of_true (longest_hex h r) ?_⟩
    · rcases h with rfl | rfl
      · exact .autoHex
      · exact .hex
    · rcases h with rfl | rfl
      · exact strtolBase_hex (Or.inl rfl) _
      · exact strtolBase_hex (Or.inr rfl) _
    · rintro ⟨-, hupper⟩
      have hx := (List.cons_prefix_cons.mp (List.cons_prefix_cons.mp hupper).2).1
      exact absurd hx (by decide)
  · by_cases h0 : base = 0
    · subst h0
      have hs : ¬ bytes "0x" <+: s := fun h => hhex ⟨Or.inl rfl, h⟩
      by_cases hzero : s.head? = some (ch '0')
      · obtain ⟨r, rfl⟩ := List.head?_eq_some_iff.mp hzero
        exact ⟨_, 8, r, ⟨rfl, .autoOctal, by omega, strtolBase_octal hs⟩,
          iff_of_true (longest_octal hs) fun h => absurd h.1 (by decide)⟩
      · exact ⟨[], 10, s, ⟨rfl, baseMark_decimal hzero, by omega, strtolBase_decimal hzero⟩,
          iff_of_true (longest_decimal hzero) fun h => absurd h.1 (by decide)⟩
    · have hword : ∀ k, k ≤ 36 → BitVec.ofNat 32 base = BitVec.ofNat 32 k → base = k := by
        intro k hk h
        have hnat := congrArg BitVec.toNat h
        rw [BitVec.toNat_ofNat, BitVec.toNat_ofNat] at hnat
        omega
      have hlower : base = 16 → ¬ bytes "0x" <+: s := fun h hx => hhex ⟨Or.inr h, hx⟩
      refine ⟨[], base, s, ⟨rfl, .none h0, by omega, ?_⟩, ?_⟩
      · exact strtolBase_of_ne (fun h => h0 (hword 0 (by omega) h))
          fun h => hlower (hword 16 (by omega) h)
      · refine ⟨?_, fun hupper => ?_⟩
        · rintro hlongest ⟨rfl, r, rfl⟩
          have hle := hlongest.length_le (bytes "0X") (List.prefix_append _ _)
            ⟨_, 16, [], .hexUpper, nofun, rfl⟩
          exact absurd hle (by decide : ¬ 2 ≤ 1)
        · exact longest_plain h0 fun h => ⟨hlower h, fun hx => hupper ⟨h, hx⟩⟩

/-! ## Whitespace and the sign -/

/-- The whitespace that `strtol` skips. -/
def isBlank (c : Byte) : Bool := c = ch ' ' ∨ c = ch '\t'

theorem skipBlanks_append {w : List Byte} (hw : ∀ c ∈ w, isBlank c = true)
    (hc : isBlank c = false) (s : List Byte) : skipBlanks (w ++ c :: s) = .ok (c :: s) := by
  induction w with
  | nil => exact if_neg (of_decide_eq_false hc)
  | cons d w ih =>
    obtain ⟨hd, hw⟩ := List.forall_mem_cons.mp hw
    exact (if_pos (of_decide_eq_true hd)).trans (ih hw)

/-- A text that is parsed in one go: blanks, a sign or not, and what the base leaves of the rest. -/
theorem strtol_eq {w s' s'' : List Byte} {base base' : BitVec 32} {val : BitVec 64}
    (hw : ∀ c ∈ w, isBlank c = true) (hc : isBlank c = false)
    (hbase : strtolBase (if c = ch '+' ∨ c = ch '-' then s else c :: s) base = .ok (base', s'))
    (hdigits : strtolDigits base' 0 s' = .ok (val, s'')) :
    strtol (w ++ c :: s) base = .ok (if c = ch '-' then -val else val, s'') := by
  unfold strtol
  rw [skipBlanks_append hw hc]
  simp only [deref, List.tail_cons, bind, Except.bind, pure, Except.pure, hbase, hdigits]

theorem ofInt_value (t : NumberText) : BitVec.ofInt 64 t.value =
    if t.sign = some (ch '-') then -BitVec.ofNat 64 t.magnitude
    else BitVec.ofNat 64 t.magnitude := by
  unfold NumberText.value
  split
  · rw [BitVec.ofInt_neg, BitVec.ofInt_natCast]
  · exact BitVec.ofInt_natCast _ _

/-- The parts that `strtol` finds one after the other. -/
theorem strtol_parts {w q mark : List Byte} {sg : Option Byte} {radix : ℕ}
    (hw : ∀ c ∈ w, isBlank c = true) (hsg : ∀ c ∈ sg, isSign c = true)
    (hnone : sg = none → ∀ c ∈ q.head?, isBlank c = false ∧ isSign c = false)
    (hq : TakesBody base q mark radix r) (x : List Byte) :
    strtol (w ++ (sg.toList ++ q) ++ 0 :: x) (BitVec.ofNat 32 base) =
      .ok (BitVec.ofInt 64 (NumberText.value ⟨w, sg, mark, radix, r.takeWhile (isDigitOf radix)⟩),
        r.dropWhile (isDigitOf radix) ++ 0 :: x) := by
  have hdigits := strtolDigits_run hq.radix_le r x 0
  have hbase := hq.strtolBase_eq x
  rw [List.append_assoc, List.append_assoc]
  cases sg with
  | none =>
    obtain ⟨c, s, hcs, hblank, hsign⟩ :
        ∃ c s, q ++ 0 :: x = c :: s ∧ isBlank c = false ∧ isSign c = false := by
      cases q with
      | nil => exact ⟨0, x, rfl, rfl, rfl⟩
      | cons c q => exact ⟨c, q ++ 0 :: x, rfl, hnone rfl c rfl⟩
    have hsign : ¬ (c = ch '+' ∨ c = ch '-') := of_decide_eq_false hsign
    rw [hcs] at hbase
    have hrun := strtol_eq hw hblank (by rw [if_neg hsign]; exact hbase) hdigits
    rw [if_neg fun h => hsign (Or.inr h)] at hrun
    rw [Option.toList_none, List.nil_append, hcs, hrun, ofInt_value]
    rfl
  | some c =>
    have hc := hsg c rfl
    have hall : ∀ c, isSign c = true → isBlank c = false := by decide
    have hrun := strtol_eq hw (hall c hc) (by rw [if_pos (of_decide_eq_true hc)]; exact hbase)
      hdigits
    refine hrun.trans (congrArg (fun v => Except.ok (v, _)) ?_)
    rw [ofInt_value]
    exact if_congr (Option.some_inj (a := c)).symm rfl rfl

/-! ## The longest number -/

theorem NumberText.Follows.isBody {t : NumberText} (h : t.Follows space base) :
    IsBody base t.body := ⟨_, _, _, h.mark, h.digits, rfl⟩

theorem NumberText.Follows.signed {t : NumberText} (h : t.Follows space base) :
    Optional isSign (IsBody base) (t.sign.toList ++ t.body) := by
  cases hsign : t.sign with
  | none => exact Or.inl h.isBody
  | some c => exact Or.inr ⟨c, _, h.sign c hsign, h.isBody, rfl⟩

theorem isNumber_iff {p : List Byte} :
    IsNumber space base p ↔ Behind space (Optional isSign (IsBody base)) p := by
  constructor
  · rintro ⟨t, ht, rfl⟩
    exact ⟨t.spaces, _, ht.spaces, ht.signed, rfl⟩
  · rintro ⟨w, _, hw, hbody | ⟨c, _, hc, hbody, rfl⟩, rfl⟩
    · obtain ⟨mark, radix, ds, hmark, hds, rfl⟩ := hbody
      exact ⟨⟨w, none, mark, radix, ds⟩, ⟨hw, nofun, hmark, hds⟩, rfl⟩
    · obtain ⟨mark, radix, ds, hmark, hds, rfl⟩ := hbody
      refine ⟨⟨w, some c, mark, radix, ds⟩, ⟨hw, ?_, hmark, hds⟩, rfl⟩
      intro d hd
      rw [← Option.some.inj hd]
      exact hc

/-- A body begins with a digit. -/
theorem digitValue_head {q : List Byte} (h : IsBody base (c :: q)) : digitValue c ≠ none := by
  obtain ⟨mark, radix, ds, hmark, hds, heq⟩ := h
  have hzero : ∀ s, c :: q = ch '0' :: s → digitValue c ≠ none := by
    intro s h
    rw [(List.cons.inj h).1]
    decide
  have hplain : c :: q = ds → digitValue c ≠ none := by
    rintro rfl hnone
    obtain ⟨d, -, hd⟩ := isDigitOf_iff.mp (hds c List.mem_cons_self)
    rw [hnone] at hd
    exact nomatch hd
  cases hmark with
  | none => exact hplain heq
  | hex => exact hzero _ heq
  | hexUpper => exact hzero _ heq
  | autoHex => exact hzero _ heq
  | autoOctal => exact hzero _ heq
  | autoDecimal => exact hplain heq

theorem IsWhitespace.plain (h : IsWhitespace space) (hc : space c = true) :
    isSign c = false ∧ digitValue c = none := by
  have hall : ∀ c : Byte, (c = ch ' ' ∨ 9 ≤ c ∧ c ≤ 13) →
      isSign c = false ∧ digitValue c = none := by decide
  exact hall c (h.le_isspace c hc)

theorem digitValue_sign (hc : isSign c = true) : digitValue c = none := by
  have hall : ∀ c, isSign c = true → digitValue c = none := by decide
  exact hall c hc

/-- What follows the whitespace does not begin with whitespace. -/
theorem IsWhitespace.not_head (h : IsWhitespace space) {q : List Byte}
    (hq : Optional isSign (IsBody base) (c :: q)) : space c = false := by
  by_contra hspace
  obtain ⟨hsign, hdigit⟩ := h.plain (Bool.eq_true_of_not_eq_false hspace)
  rcases hq with hbody | ⟨d, q, hd, -, heq⟩
  · exact digitValue_head hbody hdigit
  · rw [(List.cons.inj heq).1, hd] at hsign
    exact nomatch hsign

section

variable {w q p : List Byte} {sg : Option Byte}

theorem IsBody.isNumber (h : IsBody base p) (hw : ∀ c ∈ w, space c = true)
    (hsg : ∀ c ∈ sg, isSign c = true) : IsNumber space base (w ++ (sg.toList ++ p)) := by
  obtain ⟨mark, radix, ds, hmark, hds, rfl⟩ := h
  exact ⟨⟨w, sg, mark, radix, ds⟩, ⟨hw, hsg, hmark, hds⟩, rfl⟩

theorem isBody_nil (base : ℕ) : IsBody base [] := by
  by_cases h0 : base = 0
  · subst h0
    exact ⟨[], 10, [], .autoDecimal nofun, nofun, rfl⟩
  · exact ⟨[], base, [], .none h0, nofun, rfl⟩

/-- Whitespace that is left makes a longer number, if only of whitespace. -/
theorem not_longest_of_space (hspace : IsWhitespace space) (hw : ∀ c ∈ w, space c = true)
    (hc : space c = true) (hp : IsBody base p) (hq : p <+: c :: q) :
    ¬ Longest (IsNumber space base) (w ++ c :: q) (w ++ p) := by
  intro h
  have hwc : ∀ d ∈ w ++ [c], space d = true := by
    intro d hd
    rcases List.mem_append.mp hd with hd | hd
    · exact hw d hd
    · rw [List.mem_singleton.mp hd]
      exact hc
  have hnumber : IsNumber space base (w ++ [c]) := by
    have hall : IsNumber space base (w ++ [c] ++ ((none : Option Byte).toList ++ [])) :=
      (isBody_nil base).isNumber hwc nofun
    rw [Option.toList_none, List.append_nil, List.append_nil] at hall
    exact hall
  have hle := h.length_le (w ++ [c]) ⟨q, List.append_assoc w [c] q⟩ hnumber
  cases p with
  | nil =>
    rw [List.append_nil, List.length_append] at hle
    exact Nat.not_succ_le_self _ hle
  | cons d p =>
    rw [(List.cons_prefix_cons.mp hq).1] at hp
    exact digitValue_head hp (hspace.plain hc).2

/-- A number is the longest if its body is and there is no more whitespace in front of it. -/
theorem longest_number_iff (hspace : IsWhitespace space) (hw : ∀ c ∈ w, space c = true)
    (hsg : ∀ c ∈ sg, isSign c = true)
    (hnone : sg = none → ∀ c ∈ q.head?, isSign c = false) (hp : IsBody base p)
    (hq : p <+: q) :
    Longest (IsNumber space base) (w ++ (sg.toList ++ q)) (w ++ (sg.toList ++ p)) ↔
      (∀ c ∈ (sg.toList ++ q).head?, space c = false) ∧ Longest (IsBody base) q p := by
  constructor
  · intro h
    refine ⟨fun c hc => ?_, hq, hp, fun p' hp' hbody' => ?_⟩
    · by_contra hnot
      have hc' := Bool.eq_true_of_not_eq_false hnot
      cases sg with
      | some d =>
        have hd : d = c := Option.some.inj hc
        have hsign := hsg d rfl
        rw [hd, (hspace.plain hc').1] at hsign
        exact nomatch hsign
      | none =>
        obtain ⟨q', rfl⟩ := List.head?_eq_some_iff.mp hc
        exact not_longest_of_space hspace hw hc' hp hq h
    · have hle := h.length_le _ ((List.prefix_append_right_inj w).mpr
        ((List.prefix_append_right_inj sg.toList).mpr hp')) (hbody'.isNumber hw hsg)
      simp only [List.length_append] at hle
      omega
  · rintro ⟨hhead, hlongest⟩
    have hopt : Longest (Optional isSign (IsBody base)) (sg.toList ++ q) (sg.toList ++ p) := by
      cases sg with
      | none => exact hlongest.none (hnone rfl)
      | some c =>
        have hdigit := digitValue_sign (hsg c rfl)
        exact hlongest.some (hsg c rfl) fun q' hq' => digitValue_head hq' hdigit
    have hnumber : IsNumber space base = Behind space (Optional isSign (IsBody base)) :=
      funext fun t => propext isNumber_iff
    rw [hnumber]
    exact hopt.behind hw hhead fun c q' => hspace.not_head

end

/-! ## The value of a number -/

/-- The prefix and the radix can be told from what follows the sign. -/
def markOf (base : ℕ) (p : List Byte) : List Byte × ℕ :=
  if (base = 0 ∨ base = 16) ∧ bytes "0x" <+: p then (bytes "0x", 16)
  else if base = 16 ∧ bytes "0X" <+: p then (bytes "0X", 16)
  else if base ≠ 0 then ([], base)
  else if p.head? = some (ch '0') then (bytes "0", 8) else ([], 10)

theorem BaseMark.markOf_eq {mark ds : List Byte} {radix : ℕ} (h : BaseMark base mark radix ds)
    (hds : ∀ c ∈ ds, isDigitOf radix c = true) : markOf base (mark ++ ds) = (mark, radix) := by
  -- the letters of the prefixes are no digits
  have hletter : ∀ c, isDigitOf radix c = false → c ∉ ds := by
    intro c hc hmem
    rw [hds c hmem] at hc
    exact nomatch hc
  cases h with
  | none h0 =>
    have hlower : ¬ ((base = 0 ∨ base = 16) ∧ bytes "0x" <+: ds) := by
      rintro ⟨h16, hx⟩
      obtain rfl := h16.resolve_left h0
      exact hletter (ch 'x') rfl (hx.subset (List.mem_cons_of_mem _ List.mem_cons_self))
    have hupper : ¬ (base = 16 ∧ bytes "0X" <+: ds) := by
      rintro ⟨rfl, hX⟩
      exact hletter (ch 'X') rfl (hX.subset (List.mem_cons_of_mem _ List.mem_cons_self))
    exact (if_neg hlower).trans ((if_neg hupper).trans (if_pos h0))
  | hex => exact if_pos ⟨Or.inr rfl, List.prefix_append _ _⟩
  | hexUpper =>
    have hlower : ¬ ((16 = 0 ∨ 16 = 16) ∧ bytes "0x" <+: bytes "0X" ++ ds) := by
      rintro ⟨-, hx⟩
      have heq := (List.cons_prefix_cons.mp (List.cons_prefix_cons.mp hx).2).1
      exact absurd heq (by decide)
    exact (if_neg hlower).trans (if_pos ⟨rfl, List.prefix_append _ _⟩)
  | autoHex => exact if_pos ⟨Or.inl rfl, List.prefix_append _ _⟩
  | autoOctal =>
    have hlower : ¬ ((0 = 0 ∨ 0 = 16) ∧ bytes "0x" <+: bytes "0" ++ ds) := by
      rintro ⟨-, hx⟩
      exact hletter (ch 'x') rfl ((List.cons_prefix_cons.mp hx).2.subset List.mem_cons_self)
    exact if_neg hlower
  | autoDecimal hzero =>
    have hlower : ¬ ((0 = 0 ∨ 0 = 16) ∧ bytes "0x" <+: ds) := by
      rintro ⟨-, t, rfl⟩
      exact hzero rfl
    exact (if_neg hlower).trans (if_neg hzero)

section

variable {t t' : NumberText}

theorem NumberText.Follows.space_head (h : t.Follows space base) (hspace : IsWhitespace space) :
    ∀ c ∈ (t.sign.toList ++ t.body).head?, space c = false := by
  intro c hc
  obtain ⟨q, hq⟩ := List.head?_eq_some_iff.mp hc
  exact hspace.not_head (hq ▸ h.signed)

theorem NumberText.Follows.sign_head (h : t.Follows space base) :
    ∀ c ∈ t.body.head?, isSign c = false := by
  intro c hc
  obtain ⟨q, hq⟩ := List.head?_eq_some_iff.mp hc
  by_contra hsign
  exact digitValue_head (hq ▸ h.isBody) (digitValue_sign (Bool.eq_true_of_not_eq_false hsign))

/-- A number has one value, in whatever way it is taken apart. -/
theorem NumberText.Follows.value_eq (hspace : IsWhitespace space) (h : t.Follows space base)
    (h' : t'.Follows space base) (htext : t.text = t'.text) : t.value = t'.value := by
  have hlist : ∀ {t : NumberText}, t.Follows space base → ∀ c ∈ t.sign.toList, isSign c = true :=
    fun h c hc => h.sign c (Option.mem_toList.mp hc)
  obtain ⟨-, hsigned⟩ := run_unique h.spaces h'.spaces (h.space_head hspace)
    (h'.space_head hspace) htext
  obtain ⟨hsign, hbody⟩ := run_unique (hlist h) (hlist h') h.sign_head h'.sign_head hsigned
  have hsign : t.sign = t'.sign := by simpa using congrArg List.head? hsign
  have hmark : (t.mark, t.radix) = (t'.mark, t'.radix) := by
    rw [← h.mark.markOf_eq h.digits, ← h'.mark.markOf_eq h'.digits]
    exact congrArg (markOf base) hbody
  obtain ⟨hmark, hradix⟩ := Prod.mk.inj hmark
  have hdigits : t.digits = t'.digits := by
    unfold NumberText.body at hbody
    rw [hmark] at hbody
    exact List.append_cancel_left hbody
  rw [NumberText.value, NumberText.value, NumberText.magnitude, NumberText.magnitude, hsign,
    hradix, hdigits]

end

/-! ## The property -/

/-- The sign in front of a text, if there is one. -/
def signOf (s : List Byte) : Option Byte := s.head?.filter isSign

/-- What is left of a text behind its sign. -/
def afterSign (s : List Byte) : List Byte := s.drop (signOf s).toList.length

/-- There is no other whitespace behind the blanks and tabs, and the prefix `0X` does not follow
if the base is 16. -/
def Readable (space : Byte → Bool) (base : ℕ) (s : List Byte) : Prop :=
  (∀ c ∈ (s.dropWhile isBlank).head?, space c = false) ∧
    ¬ (base = 16 ∧ bytes "0X" <+: afterSign (s.dropWhile isBlank))

/-- `strtol` takes the longest number in front of the string, returns its value and points behind
it. Nothing is assumed of the memory behind the NUL, which may end there. -/
def ParsesLongest (space : Byte → Bool) (base : ℕ) (s : List Byte) : Prop :=
  ∃ p rest, Longest (IsNumber space base) s p ∧ s = p ++ rest ∧
    ∀ t : NumberText, t.Follows space base → t.text = p → ∀ x,
      strtol (s ++ 0 :: x) (BitVec.ofNat 32 base) =
        .ok (BitVec.ofInt 64 t.value, rest ++ 0 :: x)

theorem signOf_append (s : List Byte) : (signOf s).toList ++ afterSign s = s := by
  cases s with
  | nil => rfl
  | cons c s =>
    unfold afterSign signOf
    rw [List.head?_cons]
    by_cases hc : isSign c = true
    · rw [Option.filter_some_pos hc]
      rfl
    · rw [Option.filter_some_neg (Bool.eq_false_of_not_eq_true hc)]
      rfl

theorem isSign_signOf (s : List Byte) : ∀ c ∈ signOf s, isSign c = true := by
  intro c hc
  exact (Option.mem_filter_iff.mp hc).2

theorem head_afterSign (hs : signOf s = none) (hc : c ∈ (afterSign s).head?) :
    isSign c = false := by
  rw [afterSign, hs] at hc
  by_contra hsign
  have hmem : c ∈ signOf s := Option.mem_filter_iff.mpr ⟨hc, Bool.eq_true_of_not_eq_false hsign⟩
  rw [hs] at hmem
  exact nomatch hmem

/-- What `strtol` takes is a number in any case. -/
theorem exists_strtol (hspace : IsWhitespace space) (hbase : base = 0 ∨ 2 ≤ base ∧ base ≤ 36)
    (s : List Byte) : ∃ t : NumberText, ∃ rest, t.Follows space base ∧ s = t.text ++ rest ∧
      (∀ x, strtol (s ++ 0 :: x) (BitVec.ofNat 32 base) =
        .ok (BitVec.ofInt 64 t.value, rest ++ 0 :: x)) ∧
      (Longest (IsNumber space base) s t.text ↔ Readable space base s) := by
  unfold Readable
  have hsplit : s.takeWhile isBlank ++ s.dropWhile isBlank = s := List.takeWhile_append_dropWhile
  have hblank : ∀ c ∈ s.takeWhile isBlank, isBlank c = true := fun c hc =>
    List.mem_takeWhile_imp hc
  have hrest : ∀ c ∈ (s.dropWhile isBlank).head?, isBlank c = false := by
    intro c hc
    have hnot := List.head?_dropWhile_not isBlank s
    rw [hc] at hnot
    exact hnot
  generalize s.takeWhile isBlank = w at hsplit hblank
  generalize s.dropWhile isBlank = d at hsplit hrest ⊢
  subst hsplit
  obtain ⟨mark, radix, r, htakes, hiff⟩ := exists_takesBody hbase (afterSign d)
  have hwhite : ∀ c ∈ w, space c = true := by
    intro c hc
    rcases of_decide_eq_true (hblank c hc) with rfl | rfl
    · exact hspace.blank
    · exact hspace.tab
  have hdigits : ∀ c ∈ r.takeWhile (isDigitOf radix), isDigitOf radix c = true := fun c hc =>
    List.mem_takeWhile_imp hc
  have hbody : afterSign d = mark ++ r.takeWhile (isDigitOf radix) ++
      r.dropWhile (isDigitOf radix) := by
    rw [List.append_assoc, List.takeWhile_append_dropWhile]
    exact htakes.text_eq
  have hsign := signOf_append d
  refine ⟨⟨w, signOf d, mark, radix, r.takeWhile (isDigitOf radix)⟩,
    r.dropWhile (isDigitOf radix), ⟨hwhite, isSign_signOf d, htakes.mark, hdigits⟩, ?_,
    fun x => ?_, ?_⟩
  · have htext : w ++ ((signOf d).toList ++ afterSign d) = w ++ d := congrArg _ hsign
    rw [hbody] at htext
    refine htext.symm.trans ?_
    simp only [NumberText.text, NumberText.body, List.append_assoc]
  · have hrun := strtol_parts hblank (isSign_signOf d) (fun hnone c hc => ⟨?_, ?_⟩) htakes x
    · rw [hsign] at hrun
      exact hrun
    · rw [hnone] at hsign
      exact hrest c (hsign ▸ hc)
    · exact head_afterSign hnone hc
  · have hlongest := longest_number_iff hspace hwhite (isSign_signOf d)
      (fun hnone c hc => head_afterSign hnone hc) ⟨_, _, _, htakes.mark, hdigits, rfl⟩
      (hbody ▸ List.prefix_append _ _)
    rw [hsign, hiff] at hlongest
    exact hlongest

theorem ParsesLongest.readable (h : ParsesLongest space base s) (hspace : IsWhitespace space)
    (hbase : base = 0 ∨ 2 ≤ base ∧ base ≤ 36) : Readable space base s := by
  obtain ⟨t, rest, hfollows, hs, hrun, hiff⟩ := exists_strtol hspace hbase s
  obtain ⟨p, rest', hlongest, hs', hrun'⟩ := h
  obtain ⟨t', hfollows', htext⟩ := hlongest.mem
  have hrest : rest = rest' := by
    have heq := (hrun []).symm.trans (hrun' t' hfollows' htext [])
    exact (List.append_inj' (Prod.mk.inj (Except.ok.inj heq)).2 rfl).1
  subst hrest
  rw [hs] at hs'
  rw [← List.append_cancel_right hs'] at hlongest
  exact hiff.mp hlongest

theorem Readable.parsesLongest (h : Readable space base s) (hspace : IsWhitespace space)
    (hbase : base = 0 ∨ 2 ≤ base ∧ base ≤ 36) : ParsesLongest space base s := by
  obtain ⟨t, rest, hfollows, hs, hrun, hiff⟩ := exists_strtol hspace hbase s
  refine ⟨t.text, rest, hiff.mpr h, hs, fun t' hfollows' htext x => ?_⟩
  rw [hfollows'.value_eq hspace hfollows htext]
  exact hrun x

/-- The longest number is taken exactly if no whitespace but blanks and tabs stands in front of it
and it is not one with the prefix `0X`. -/
theorem strtol_longest_iff (hspace : IsWhitespace space)
    (hbase : base = 0 ∨ 2 ≤ base ∧ base ≤ 36) (s : List Byte) :
    ParsesLongest space base s ↔ Readable space base s :=
  ⟨fun h => h.readable hspace hbase, fun h => h.parsesLongest hspace hbase⟩

theorem strtol_longest_iff_hex : ParsesLongest isspace 16 (bytes " -0x1F g") :=
  (strtol_longest_iff isWhitespace_isspace (Or.inr (by omega)) _).mpr ⟨by decide, by decide⟩

/-- The prefix `0X` is not known. -/
theorem strtol_longest_upper : ¬ ∀ (space : Byte → Bool) (base : ℕ) (s : List Byte),
    IsWhitespace space → (base = 0 ∨ 2 ≤ base ∧ base ≤ 36) → (∀ c ∈ s, c ≠ 0) →
    ParsesLongest space base s := by
  intro h
  have hbase : 16 = 0 ∨ 2 ≤ 16 ∧ 16 ≤ 36 := Or.inr (by omega)
  have hparses := h isspace 16 (bytes "0X1F") isWhitespace_isspace hbase (by decide)
  have hreadable := hparses.readable isWhitespace_isspace hbase
  exact hreadable.2 (by decide)

end CertiCore
