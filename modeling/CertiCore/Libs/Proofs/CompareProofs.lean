import CertiCore.Libs.Proofs.StringProofs

/-!
# Proofs: the order of strings
-/

namespace CertiCore

variable {a b c : List Byte} {n : ℕ}

/-- The comparison returns a number of this sign. -/
def Compares (e : Except Halt (BitVec 32)) (o : Ordering) : Prop := ∃ r, e = .ok r ∧ sign r = o

theorem compares_iff {e : Except Halt (BitVec 32)} {o o' : Ordering} (h : Compares e o) :
    Compares e o' ↔ o' = o := by
  obtain ⟨r, rfl, rfl⟩ := h
  constructor
  · rintro ⟨r', heq, rfl⟩
    rw [Except.ok.inj heq]
  · rintro rfl
    exact ⟨r, rfl, rfl⟩

/-! ## `strncmp` and `memcmp` -/

@[simp]
theorem strncmp_zero (s1 s2 : List Byte) : strncmp s1 s2 0 = .ok 0 := by rw [strncmp]

@[simp]
theorem memcmp_zero (s1 s2 : List Byte) : memcmp s1 s2 0 = .ok 0 := by rw [memcmp]

/-- `strncmp` reads the first `n` bytes of its arrays only. -/
theorem strncmp_take (s1 s2 : List Byte) (n : ℕ) :
    strncmp (s1.take n) (s2.take n) n = strncmp s1 s2 n := by
  induction n generalizing s1 s2 with
  | zero => rw [strncmp_zero, strncmp_zero]
  | succ n ih =>
    cases s1 with
    | nil => rfl
    | cons u s1 =>
      cases s2 with
      | nil => rfl
      | cons v s2 => exact if_congr Iff.rfl (ih s1 s2) rfl

/-- What `strncmp` compares are the strings cut to their first `n` bytes. -/
theorem strncmp_eq (hb : ∀ u ∈ b, u ≠ 0) (x y : List Byte) :
    strncmp (a ++ 0 :: x) (b ++ 0 :: y) n = strcmp (a.take n ++ [0]) (b.take n ++ [0]) := by
  induction n generalizing a b with
  | zero =>
    rw [strncmp_zero]
    rfl
  | succ n ih =>
    cases a with
    | nil =>
      cases b with
      | nil => rfl
      | cons v b => rfl
    | cons u a =>
      cases b with
      | nil =>
        have hstop : ¬ (u ≠ 0 ∧ u = 0) := fun h => h.1 h.2
        exact (if_neg hstop).trans (if_neg hstop).symm
      | cons v b =>
        exact if_congr Iff.rfl (ih fun u hu => hb u (List.mem_cons_of_mem v hu)) rfl

theorem memcmp_one (u v : Byte) (s1 s2 : List Byte) :
    memcmp (u :: s1) (v :: s2) 1 = .ok (u.setWidth 32 - v.setWidth 32) := by
  by_cases huv : u = v
  · rw [memcmp, if_neg (not_not.mpr huv), memcmp_zero, huv, sub_self]
  · rw [memcmp, if_pos huv]

/-- The loop of `strncmp` ends at a NUL, and where the characters differ. -/
theorem strncmp_end {u v : Byte} (h : ¬ (u ≠ 0 ∧ u = v)) (s1 s2 : List Byte) (n : ℕ) :
    strncmp (u :: s1) (v :: s2) (n + 1) = .ok (u.setWidth 32 - v.setWidth 32) := by
  rw [strncmp, if_neg h]

/-- `memcmp` does not stop at a NUL, but the count ends before it gets behind one. -/
theorem memcmp_eq_strncmp (ha : ∀ u ∈ a, u ≠ 0) (x y : List Byte)
    (hn : n ≤ min a.length b.length + 1) :
    memcmp (a ++ 0 :: x) (b ++ 0 :: y) n = strncmp (a ++ 0 :: x) (b ++ 0 :: y) n := by
  induction n generalizing a b with
  | zero => rw [memcmp_zero, strncmp_zero]
  | succ n ih =>
    cases a with
    | nil =>
      obtain rfl : n = 0 := by simpa using hn
      have hstop : ∀ v : Byte, ¬ ((0 : Byte) ≠ 0 ∧ 0 = v) := fun v h => h.1 rfl
      cases b with
      | nil => exact (memcmp_one 0 0 x y).trans (strncmp_end (hstop 0) x y 0).symm
      | cons v b => exact (memcmp_one 0 v x _).trans (strncmp_end (hstop v) x _ 0).symm
    | cons u a =>
      have hu : u ≠ 0 := ha u List.mem_cons_self
      cases b with
      | nil =>
        obtain rfl : n = 0 := by simpa using hn
        exact (memcmp_one u 0 _ y).trans (strncmp_end (fun h => h.1 h.2) _ y 0).symm
      | cons v b =>
        have hrest := ih (fun w hw => ha w (List.mem_cons_of_mem u hw)) (by simpa using hn)
        by_cases huv : u = v
        · exact (if_neg (not_not.mpr huv)).trans (hrest.trans (if_pos ⟨hu, huv⟩).symm)
        · exact (if_pos huv).trans (strncmp_end (fun h => huv h.2) _ _ n).symm

/-! ## The property -/

/-- `strcmp` orders strings lexicographically by their unsigned bytes, `strncmp` the strings cut to
their first `n` bytes, reading no others, and `memcmp` agrees with it up to the end of the shorter
string. -/
theorem string_order (ha : ∀ u ∈ a, u ≠ 0) (hb : ∀ u ∈ b, u ≠ 0) (hc : ∀ u ∈ c, u ≠ 0)
    (x y z : List Byte) (n : ℕ) :
    Compares (strcmp (a ++ 0 :: x) (b ++ 0 :: y)) (compare a b) ∧
    (strcmp (a ++ 0 :: x) (b ++ 0 :: y) = .ok 0 ↔ a = b) ∧
    (∀ o, Compares (strcmp (a ++ 0 :: x) (b ++ 0 :: y)) o →
      Compares (strcmp (b ++ 0 :: y) (a ++ 0 :: x)) o.swap) ∧
    (∀ o o', Compares (strcmp (a ++ 0 :: x) (b ++ 0 :: y)) o → o.isLE →
      Compares (strcmp (b ++ 0 :: y) (c ++ 0 :: z)) o' → o'.isLE →
      ∃ o'', Compares (strcmp (a ++ 0 :: x) (c ++ 0 :: z)) o'' ∧ o''.isLE) ∧
    (∃ o, Compares (strncmp (a ++ 0 :: x) (b ++ 0 :: y) n) o ∧
      Compares (strcmp (a.take n ++ [0]) (b.take n ++ [0])) o) ∧
    strncmp ((a ++ 0 :: x).take n) ((b ++ 0 :: y).take n) n =
      strncmp (a ++ 0 :: x) (b ++ 0 :: y) n ∧
    (n ≤ min a.length b.length + 1 →
      memcmp (a ++ 0 :: x) (b ++ 0 :: y) n = strncmp (a ++ 0 :: x) (b ++ 0 :: y) n) := by
  have hab : Compares _ _ := strcmp_compare ha hb x y
  have hba : Compares _ _ := strcmp_compare hb ha y x
  have hbc : Compares _ _ := strcmp_compare hb hc y z
  have hac : Compares _ _ := strcmp_compare ha hc x z
  have hta : ∀ u ∈ a.take n, u ≠ 0 := fun u hu => ha u (List.mem_of_mem_take hu)
  have htb : ∀ u ∈ b.take n, u ≠ 0 := fun u hu => hb u (List.mem_of_mem_take hu)
  refine ⟨hab, ?_, fun o ho => ?_, fun o o' ho hle ho' hle' => ?_, ?_, ?_, ?_⟩
  · obtain ⟨r, hr, heq⟩ := strcmp_eq_zero_iff ha hb x y
    rw [hr, ← heq]
    exact ⟨Except.ok.inj, congrArg _⟩
  · rw [(compares_iff hab).mp ho, ← Std.OrientedOrd.eq_swap]
    exact hba
  · rw [(compares_iff hab).mp ho] at hle
    rw [(compares_iff hbc).mp ho'] at hle'
    exact ⟨_, hac, Std.TransCmp.isLE_trans hle hle'⟩
  · rw [strncmp_eq hb]
    exact ⟨_, strcmp_compare hta htb [] [], strcmp_compare hta htb [] []⟩
  · exact strncmp_take _ _ n
  · exact memcmp_eq_strncmp ha x y

/-- A byte above 127 is greater than one below. -/
theorem string_order_high : Compares (strcmp [200, 0] [100, 0]) .gt :=
  (string_order (a := [200]) (b := [100]) (c := []) (by decide) (by decide) (by decide)
    [] [] [] 2).1

end CertiCore
