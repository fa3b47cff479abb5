import CertiCore.Libs.String

/-!
# Proofs: the functions that read strings
-/

namespace CertiCore

/-- The characters of a string constant, looked at before they are bytes. -/
theorem ne_zero_of_mem_bytes {s : String} (h : s.toList.all (fun c => c.toNat % 256 != 0) = true) :
    ∀ c ∈ bytes s, c ≠ 0 := by
  intro c hc h0
  obtain ⟨d, hd, rfl⟩ := List.mem_map.mp hc
  have hnat := congrArg BitVec.toNat h0
  rw [ch, BitVec.toNat_ofNat] at hnat
  exact bne_iff_ne.mp (List.all_eq_true.mp h d hd) hnat

theorem loadByte_append (a : List Byte) (c : Byte) (b : List Byte) :
    loadByte (a ++ c :: b) a.length = .ok c := by
  have hlt : a.length < (a ++ c :: b).length := by simp
  rw [loadByte, dif_pos hlt, List.getElem_append_right (Nat.le_refl _)]
  simp

theorem storeByte_append (a : List Byte) (c v : Byte) (b : List Byte) :
    storeByte (a ++ c :: b) a.length v = .ok (a ++ v :: b) := by
  have hlt : a.length < (a ++ c :: b).length := by simp
  rw [storeByte, if_pos hlt, List.set_append_right _ _ (Nat.le_refl _)]
  simp

/-! ## Comparison -/

/-- The sign of a result. -/
def sign (r : BitVec 32) : Ordering := compare r.toInt 0

theorem sign_eq_eq_iff {r : BitVec 32} : sign r = .eq ↔ r = 0 := by
  rw [sign, Std.LawfulEqOrd.compare_eq_iff_eq]
  exact BitVec.toInt_inj (y := 0)

theorem toInt_sub_bytes (u v : Byte) :
    (u.setWidth 32 - v.setWidth 32).toInt = (u.toNat : ℤ) - v.toNat := by
  have hu := u.isLt
  have hv := v.isLt
  rw [BitVec.toInt_eq_toNat_cond, BitVec.toNat_sub, BitVec.toNat_setWidth, BitVec.toNat_setWidth]
  split
  · omega
  · omega

/-- The difference of two bytes has the sign of their order as unsigned numbers. -/
theorem sign_sub (u v : Byte) : sign (u.setWidth 32 - v.setWidth 32) = compare u v := by
  have heq : (u.toNat : ℤ) - v.toNat = 0 ↔ u = v := by
    rw [← BitVec.toNat_inj]
    omega
  rw [sign, toInt_sub_bytes]
  refine if_congr ?_ rfl (if_congr heq rfl rfl)
  rw [BitVec.lt_def]
  omega

theorem compare_zero_left {v : Byte} (hv : v ≠ 0) : compare 0 v = .lt := by
  refine if_pos ?_
  bv_omega

theorem compare_zero_right {u : Byte} (hu : u ≠ 0) : compare u 0 = .gt := by
  rw [Std.OrientedOrd.eq_swap, compare_zero_left hu]
  rfl

theorem compare_then_of_ne {u v : Byte} (huv : u ≠ v) (o : Ordering) :
    (compare u v).then o = compare u v := by
  have hne : compare u v ≠ .eq := fun h => huv (Std.LawfulEqOrd.eq_of_compare h)
  cases h : compare u v with
  | eq => exact absurd h hne
  | lt => rfl
  | gt => rfl

/-- The result of comparing two strings has the sign of their lexicographic order, whatever follows
them in memory. -/
theorem strcmp_compare {a b : List Byte} (ha : ∀ c ∈ a, c ≠ 0) (hb : ∀ c ∈ b, c ≠ 0)
    (x y : List Byte) :
    ∃ r, strcmp (a ++ 0 :: x) (b ++ 0 :: y) = .ok r ∧ sign r = compare a b := by
  induction a generalizing b with
  | nil =>
    cases b with
    | nil => exact ⟨0, rfl, rfl⟩
    | cons v b =>
      have hv : v ≠ 0 := hb v List.mem_cons_self
      refine ⟨_, if_neg fun h => h.1 rfl, ?_⟩
      rw [sign_sub, List.compare_nil_cons]
      exact compare_zero_left hv
  | cons u a ih =>
    have hu : u ≠ 0 := ha u List.mem_cons_self
    cases b with
    | nil =>
      refine ⟨_, if_neg fun h => hu h.2, ?_⟩
      rw [sign_sub, List.compare_cons_nil]
      exact compare_zero_right hu
    | cons v b =>
      rw [List.compare_cons_cons]
      by_cases huv : u = v
      · subst huv
        obtain ⟨r, hr, hsign⟩ := ih (fun c hc => ha c (List.mem_cons_of_mem u hc))
          (fun c hc => hb c (List.mem_cons_of_mem u hc))
        rw [Std.ReflOrd.compare_self, Ordering.eq_then]
        exact ⟨r, (if_pos ⟨hu, rfl⟩).trans hr, hsign⟩
      · refine ⟨_, if_neg fun h => huv h.2, ?_⟩
        rw [sign_sub, compare_then_of_ne huv]

/-- Two strings compare as equal exactly if they are equal. -/
theorem strcmp_eq_zero_iff {a b : List Byte} (ha : ∀ c ∈ a, c ≠ 0) (hb : ∀ c ∈ b, c ≠ 0)
    (x y : List Byte) : ∃ r, strcmp (a ++ 0 :: x) (b ++ 0 :: y) = .ok r ∧ (r = 0 ↔ a = b) := by
  obtain ⟨r, hr, hsign⟩ := strcmp_compare ha hb x y
  refine ⟨r, hr, ?_⟩
  rw [← sign_eq_eq_iff, hsign]
  exact Std.LawfulEqOrd.compare_eq_iff_eq

/-- `strchr` looks for a character among those before the NUL. -/
theorem strchr_eq_none_iff {a : List Byte} (ha : ∀ u ∈ a, u ≠ 0) (x : List Byte) (c : Byte) :
    ∃ r, strchr (a ++ 0 :: x) c = .ok r ∧ (r = none ↔ c ∉ a) := by
  induction a with
  | nil => exact ⟨none, rfl, iff_of_true rfl (List.not_mem_nil)⟩
  | cons u a ih =>
    have hu : u ≠ 0 := ha u List.mem_cons_self
    by_cases huc : u = c
    · subst huc
      refine ⟨some (u :: (a ++ 0 :: x)), ?_, iff_of_false (Option.some_ne_none _) ?_⟩
      · rw [List.cons_append, strchr, if_pos hu, if_pos rfl]
      · exact fun h => h List.mem_cons_self
    · obtain ⟨r, hr, hiff⟩ := ih fun v hv => ha v (List.mem_cons_of_mem u hv)
      refine ⟨r, ?_, ?_⟩
      · rw [List.cons_append, strchr, if_pos hu, if_neg huc]
        exact hr
      · rw [hiff, List.mem_cons, not_or]
        exact (and_iff_right fun h => huc h.symm).symm

end CertiCore
