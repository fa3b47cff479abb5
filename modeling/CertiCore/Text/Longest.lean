import Mathlib.Data.List.TakeWhile

/-!
# Longest matches

The longest prefix of a text that is in a language, put together from the parts of the language: a
run of characters, a character that may be missing, and what follows them.
-/

namespace Text

variable {α : Type} {P : List α → Prop} {C : α → Bool} {s p q r w : List α} {c : α}

/-- `p` is the longest prefix of `s` in the language `P`. -/
structure Longest (P : List α → Prop) (s p : List α) : Prop where
  isPrefix : p <+: s
  mem : P p
  length_le : ∀ q, q <+: s → P q → q.length ≤ p.length

/-- A run and what follows it can be told from the text. -/
theorem run_unique {w' r' : List α} (hw : ∀ c ∈ w, C c = true) (hw' : ∀ c ∈ w', C c = true)
    (hr : ∀ c ∈ r.head?, C c = false) (hr' : ∀ c ∈ r'.head?, C c = false)
    (h : w ++ r = w' ++ r') : w = w' ∧ r = r' := by
  have htake : ∀ {w r : List α}, (∀ c ∈ w, C c = true) → (∀ c ∈ r.head?, C c = false) →
      (w ++ r).takeWhile C = w := by
    intro w r hw hr
    rw [List.takeWhile_append_of_pos hw]
    cases r with
    | nil => exact List.append_nil w
    | cons c r =>
      rw [List.takeWhile_cons_of_neg (Bool.eq_false_iff.mp (hr c rfl)), List.append_nil]
  have hrun : w = w' := by rw [← htake hw hr, h, htake hw' hr']
  subst hrun
  exact ⟨rfl, List.append_cancel_left h⟩

/-- The texts of one language behind runs of characters. -/
def Behind (C : α → Bool) (P : List α → Prop) (t : List α) : Prop :=
  ∃ w q, (∀ c ∈ w, C c = true) ∧ P q ∧ t = w ++ q

/-- The texts of a language, with a character in front of them or not. -/
def Optional (C : α → Bool) (P : List α → Prop) (t : List α) : Prop :=
  P t ∨ ∃ c q, C c = true ∧ P q ∧ t = c :: q

theorem longest_takeWhile (C : α → Bool) (s : List α) :
    Longest (fun t => ∀ c ∈ t, C c = true) s (s.takeWhile C) := by
  refine ⟨List.takeWhile_prefix C, fun c hc => List.mem_takeWhile_imp hc, ?_⟩
  rintro q ⟨r, rfl⟩ hq
  rw [List.takeWhile_append_of_pos hq, List.length_append]
  exact Nat.le_add_right _ _

/-- A run ends where what follows does not go on with its characters. -/
theorem Longest.behind (h : Longest P r p) (hw : ∀ c ∈ w, C c = true)
    (hr : ∀ c ∈ r.head?, C c = false) (hP : ∀ c q, P (c :: q) → C c = false) :
    Longest (Behind C P) (w ++ r) (w ++ p) := by
  refine ⟨(List.prefix_append_right_inj w).mpr h.isPrefix, ⟨w, p, hw, h.mem, rfl⟩, ?_⟩
  rintro _ hq ⟨w', q, hw', hPq, rfl⟩
  induction w generalizing w' with
  | nil =>
    cases w' with
    | nil => exact h.length_le q hq hPq
    | cons c w' =>
      obtain ⟨u, hu⟩ := hq
      have hc := hr c (congrArg List.head? hu.symm)
      rw [hw' c List.mem_cons_self] at hc
      exact nomatch hc
  | cons c w ih =>
    obtain ⟨hc, hw⟩ := List.forall_mem_cons.mp hw
    cases w' with
    | nil =>
      cases q with
      | nil => exact Nat.zero_le _
      | cons d q =>
        have hd := hP d q hPq
        rw [(List.cons_prefix_cons.mp hq).1, hc] at hd
        exact nomatch hd
    | cons d w' =>
      have hrest := ih hw w' (List.forall_mem_cons.mp hw').2 (List.cons_prefix_cons.mp hq).2
      exact Nat.succ_le_succ hrest

theorem Longest.some (h : Longest P r p) (hc : C c = true) (hP : ∀ q, ¬ P (c :: q)) :
    Longest (Optional C P) (c :: r) (c :: p) := by
  refine ⟨List.cons_prefix_cons.mpr ⟨rfl, h.isPrefix⟩, Or.inr ⟨c, p, hc, h.mem, rfl⟩, ?_⟩
  rintro q hq (hPq | ⟨d, q, -, hPq, rfl⟩)
  · cases q with
    | nil => exact Nat.zero_le _
    | cons d q =>
      rw [(List.cons_prefix_cons.mp hq).1] at hPq
      exact absurd hPq (hP q)
  · exact Nat.succ_le_succ (h.length_le q (List.cons_prefix_cons.mp hq).2 hPq)

theorem Longest.none (h : Longest P s p) (hs : ∀ c ∈ s.head?, C c = false) :
    Longest (Optional C P) s p := by
  refine ⟨h.isPrefix, Or.inl h.mem, ?_⟩
  rintro q hq (hPq | ⟨c, q, hc, -, rfl⟩)
  · exact h.length_le q hq hPq
  · obtain ⟨u, hu⟩ := hq
    rw [hs c (congrArg List.head? hu.symm)] at hc
    exact nomatch hc

end Text
