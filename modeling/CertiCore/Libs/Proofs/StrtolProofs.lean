import CertiCore.Libs.Proofs.FieldProofs
import CertiCore.Libs.Proofs.NumberSyntaxProofs
import CertiCore.Libs.Proofs.SprintfProofs

/-!
# Proofs: printing a number and parsing it again

`printnum` puts the most significant digit first, `strtol` multiplies what it has got by the base
with every further digit: both are positional notation.
-/

namespace CertiCore

open Loop

/-! ## `strtol` on a numeral -/

section

variable {b n : ℕ}

theorem digitValue_digitChar {d : ℕ} (hd : d < 16) : digitValue (digitChar d) = some d := by
  revert d
  decide

/-- The digits of a numeral are none of the other characters that `strtol` looks for. -/
theorem numeral_plain (h1 : 1 < b) (hb : b ≤ 16) {c : Byte} (hc : c ∈ numeral b n) :
    isDigitOf b c = true ∧ isBlank c = false ∧ isSign c = false ∧ c ≠ ch 'x' := by
  have hchar : ∀ d < 16, isBlank (digitChar d) = false ∧ isSign (digitChar d) = false ∧
      digitChar d ≠ ch 'x' := by decide
  obtain ⟨d, hd, rfl⟩ := List.mem_map.mp hc
  have hlt := Radix.digits_lt h1 d hd
  exact ⟨isDigitOf_iff.mpr ⟨d, hlt, digitValue_digitChar (hlt.trans_le hb)⟩,
    hchar d (hlt.trans_le hb)⟩

theorem filterMap_numeral (h1 : 1 < b) (hb : b ≤ 16) (n : ℕ) :
    (numeral b n).filterMap digitValue = Radix.digits b n := by
  have hvalue : ∀ d ∈ Radix.digits b n, digitValue (digitChar d) = some d := fun d hd =>
    digitValue_digitChar ((Radix.digits_lt h1 d hd).trans_le hb)
  rw [numeral, List.filterMap_map]
  exact (List.filterMap_congr hvalue).trans List.filterMap_some

/-- The test for a prefix does not take a digit for one. -/
theorem takesBody_numeral (h1 : 1 < b) (hb : b ≤ 16) (n : ℕ) :
    TakesBody b (numeral b n) [] b (numeral b n) := by
  have h0 : BitVec.ofNat 32 b ≠ 0 := by
    intro h
    have hnat : (BitVec.ofNat 32 b).toNat = b := Nat.mod_eq_of_lt (by omega)
    rw [h] at hnat
    have hzero : (0 : BitVec 32).toNat = 0 := rfl
    omega
  refine ⟨rfl, .none (by omega), by omega, strtolBase_of_ne h0 fun _ hx => ?_⟩
  have hmem : ch 'x' ∈ numeral b n := hx.subset (List.mem_cons_of_mem _ List.mem_cons_self)
  exact (numeral_plain h1 hb hmem).2.2.2 rfl

theorem takesBody_hex {base : ℕ} (hbase : base = 0 ∨ base = 16) (s : List Byte) :
    TakesBody base (bytes "0x" ++ s) (bytes "0x") 16 s := by
  rcases hbase with rfl | rfl
  · exact ⟨rfl, .autoHex, by omega, fun x => strtolBase_hex (Or.inl rfl) _⟩
  · exact ⟨rfl, .hex, by omega, fun x => strtolBase_hex (Or.inr rfl) _⟩

/-- A numeral is parsed up to the NUL behind it. -/
theorem strtol_of_takesBody {base : ℕ} {q mark : List Byte} (sg : Option Byte) (h1 : 1 < b)
    (hb : b ≤ 16) (hsg : ∀ c ∈ sg, isSign c = true)
    (hnone : sg = none → ∀ c ∈ q.head?, isBlank c = false ∧ isSign c = false)
    (hq : TakesBody base q mark b (numeral b n)) (rest : List Byte) :
    strtol (sg.toList ++ q ++ 0 :: rest) (BitVec.ofNat 32 base) =
      .ok (if sg = some (ch '-') then -BitVec.ofNat 64 n else BitVec.ofNat 64 n, 0 :: rest) := by
  have hdigits : ∀ c ∈ numeral b n, isDigitOf b c = true := fun c hc => (numeral_plain h1 hb hc).1
  have hvalue : Radix.value b ((numeral b n).filterMap digitValue) = n := by
    rw [filterMap_numeral h1 hb, Radix.value_digits h1]
  have hrun := strtol_parts (w := []) nofun hsg hnone hq rest
  rw [ofInt_value, NumberText.magnitude, List.takeWhile_eq_self_iff.mpr hdigits,
    List.dropWhile_eq_nil_iff.mpr hdigits, hvalue] at hrun
  exact hrun

theorem strtol_numeral (h1 : 1 < b) (hb : b ≤ 16) (n : ℕ) (rest : List Byte) :
    strtol (numeral b n ++ 0 :: rest) (BitVec.ofNat 32 b) = .ok (BitVec.ofNat 64 n, 0 :: rest) := by
  refine strtol_of_takesBody none h1 hb nofun (fun _ c hc => ?_)
    (takesBody_numeral h1 hb n) rest
  obtain ⟨-, hblank, hsign, -⟩ := numeral_plain h1 hb (List.mem_of_head? hc)
  exact ⟨hblank, hsign⟩

theorem strtol_minus (h1 : 1 < b) (hb : b ≤ 16) (n : ℕ) (rest : List Byte) :
    strtol (ch '-' :: (numeral b n ++ 0 :: rest)) (BitVec.ofNat 32 b) =
      .ok (-BitVec.ofNat 64 n, 0 :: rest) := by
  refine strtol_of_takesBody (some (ch '-')) h1 hb ?_ nofun (takesBody_numeral h1 hb n) rest
  decide

theorem strtol_hex {base : ℕ} (hbase : base = 0 ∨ base = 16) (n : ℕ) (rest : List Byte) :
    strtol (bytes "0x" ++ (numeral 16 n ++ 0 :: rest)) (BitVec.ofNat 32 base) =
      .ok (BitVec.ofNat 64 n, 0 :: rest) := by
  refine strtol_of_takesBody none (by omega) (Nat.le_refl 16) nofun (fun _ c hc => ?_)
    (takesBody_hex hbase _) rest
  obtain rfl : ch '0' = c := Option.some.inj hc
  exact ⟨rfl, rfl⟩

end

/-! ## The round trip -/

/-- In every buffer that has room for it, the text that the format makes of the word `v` is parsed
as `v`, up to the NUL behind it. -/
def RoundTrips (fmt : List Byte) (base : BitVec 32) (v : BitVec 64) : Prop :=
  ∃ T, (∀ M, Emits M fmt [.word v] T) ∧
    ∀ (mem : Mem) (str : BitVec 64) (size : SizeT), str ≠ 0 →
      str.toNat + size.toNat - 1 < 2 ^ 64 → T.length < size.toNat →
      ∃ mem' r, (∃ fuel₀, ∀ fuel ≥ fuel₀,
          vsnprintf fuel mem str size fmt [.word v] = some (.ok (mem', r))) ∧
        ∃ rest, (mem'.bytesAt str size.toNat).drop T.length = 0 :: rest ∧
          strtol (mem'.bytesAt str size.toNat) base = .ok (v, 0 :: rest)

section

variable {fmt text : List Byte} {base : BitVec 32} {v : BitVec 64}

theorem roundTrips_of_prints (hprints : ∀ M, Prints M fmt [.word v] [] (chars text))
    (hparse : ∀ rest, strtol (text ++ 0 :: rest) base = .ok (v, 0 :: rest)) :
    RoundTrips (fmt ++ [0]) base v := by
  refine ⟨chars text, fun M => (hprints M).emits, ?_⟩
  intro mem str size hstr hend hlen
  have hemits := (hprints (mem.outside str size.toNat)).emits
  have hrun := vsnprintf_eq hemits hstr (by omega) hend
  have htake : (chars text).take (size.toNat - 1) = chars text := List.take_of_length_le (by omega)
  rw [htake, stored_chars] at hrun
  refine ⟨_, _, hrun, ?_⟩
  rw [length_chars] at hlen ⊢
  have hfits : (text ++ [0]).length ≤ size.toNat := by
    rw [List.length_append]
    exact hlen
  obtain ⟨rest, hrest⟩ :=
    Mem.prefix_bytesAt_storeBytes (m := mem) (a := str) hfits (Nat.le_of_lt size.isLt)
  rw [← hrest, List.append_assoc]
  exact ⟨rest, List.drop_left, hparse rest⟩

theorem fieldText_zero {n : Number} (flags : List Byte) (hpos : 0 < n.digits.length)
    (hle : n.digits.length ≤ 64) : fieldText flags 0 n = n.full := by
  have hcount : padCount 0 n.digits.length = 0 := by
    rw [padCount_eq 0 (by omega), if_neg (by omega)]
  rw [fieldText, hcount]
  rfl

/-- A numeric conversion without a width. -/
theorem prints_full {M : BitVec 64 → Option Byte} {flags : List Byte} {c : Byte} {n : Number}
    (hflags : ∀ c ∈ flags, isFlag c = true)
    (hn : (label c).number (BitVec.ofNat 32 (flags.count (ch 'l'))) v = some n) :
    Prints M (ch '%' :: (flags ++ [c])) [.word v] [] (chars n.full) := by
  obtain ⟨-, hpos, hle⟩ := number_bounds hn
  rw [← List.append_nil flags] at hn
  have hprints := @prints_field M wrapped flags [] [] 0 [] c v n hflags .none nofun hn
    (fun _ _ => collector_countsDown _ _) []
  rw [fieldText_zero flags hpos hle, List.append_nil, List.append_nil] at hprints
  exact hprints

theorem ofNat_natAbs_toInt (v : BitVec 64) :
    BitVec.ofNat 64 v.toInt.natAbs = if v.toInt < 0 then -v else v := by
  by_cases hneg : v.slt 0 = true
  · obtain ⟨hlt, habs⟩ := toNat_neg_of_slt hneg
    rw [if_pos hlt, ← habs, BitVec.ofNat_toNat, BitVec.setWidth_eq]
  · obtain ⟨hge, habs⟩ := toNat_of_not_slt hneg
    rw [if_neg hge, ← habs, BitVec.ofNat_toNat, BitVec.setWidth_eq]

theorem roundTrips_decimal (v : BitVec 64) : RoundTrips (cstr "%ld") 10 v := by
  have hn : (label (ch 'd')).number (BitVec.ofNat 32 ([ch 'l'].count (ch 'l'))) v =
      some ⟨if v.toInt < 0 then [ch '-'] else [], 10, v.toInt.natAbs⟩ := rfl
  have hval := ofNat_natAbs_toInt v
  refine roundTrips_of_prints (fun M => prints_full (by decide) hn) ?_
  intro rest
  unfold Number.full Number.digits
  by_cases hneg : v.toInt < 0
  · rw [if_pos hneg] at hval ⊢
    have hparse := @strtol_minus 10 (by omega) (by omega) v.toInt.natAbs rest
    rw [hval, neg_neg] at hparse
    exact hparse
  · rw [if_neg hneg] at hval ⊢
    have hparse := @strtol_numeral 10 (by omega) (by omega) v.toInt.natAbs rest
    rw [hval] at hparse
    exact hparse

theorem ofNat_toNat_word (v : BitVec 64) : BitVec.ofNat 64 v.toNat = v := by
  rw [BitVec.ofNat_toNat, BitVec.setWidth_eq]

/-- The conversions of words without a sign or a prefix. -/
theorem roundTrips_unsigned {b : ℕ} {c : Byte} (h1 : 1 < b) (hb : b ≤ 16) (v : BitVec 64)
    (hn : (label c).number 1 v = some ⟨[], b, v.toNat⟩) :
    RoundTrips (ch '%' :: ([ch 'l'] ++ [c]) ++ [0]) (BitVec.ofNat 32 b) v := by
  refine roundTrips_of_prints (fun M => prints_full (by decide) hn) ?_
  intro rest
  have hparse := strtol_numeral h1 hb v.toNat rest
  rw [ofNat_toNat_word] at hparse
  exact hparse

theorem roundTrips_pointer {base : ℕ} (h : base = 0 ∨ base = 16) (v : BitVec 64) :
    RoundTrips (cstr "%p") (BitVec.ofNat 32 base) v := by
  have hn : (label (ch 'p')).number (BitVec.ofNat 32 (([] : List Byte).count (ch 'l'))) v =
      some ⟨bytes "0x", 16, v.toNat⟩ := rfl
  refine roundTrips_of_prints (fun M => prints_full (by decide) hn) ?_
  intro rest
  have hparse := strtol_hex h v.toNat rest
  rw [ofNat_toNat_word] at hparse
  unfold Number.full Number.digits
  rw [List.append_assoc]
  exact hparse

/-- Printing a number and parsing it again is the identity. -/
theorem strtol_vsnprintf (v : BitVec 64) :
    RoundTrips (cstr "%ld") 10 v ∧ RoundTrips (cstr "%lu") 10 v ∧ RoundTrips (cstr "%lo") 8 v ∧
      RoundTrips (cstr "%lx") 16 v ∧ RoundTrips (cstr "%p") 0 v ∧ RoundTrips (cstr "%p") 16 v := by
  refine ⟨roundTrips_decimal v, ?_, ?_, ?_, ?_, ?_⟩
  · exact roundTrips_unsigned (b := 10) (c := ch 'u') (by omega) (by omega) v rfl
  · exact roundTrips_unsigned (b := 8) (c := ch 'o') (by omega) (by omega) v rfl
  · exact roundTrips_unsigned (b := 16) (c := ch 'x') (by omega) (by omega) v rfl
  · exact @roundTrips_pointer 0 (Or.inl rfl) v
  · exact @roundTrips_pointer 16 (Or.inr rfl) v

end

end CertiCore
