import Mathlib.Algebra.Group.End
import Mathlib.Data.List.Nodup
import Mathlib.Logic.Equiv.Basic

/-!
# Rings of links

Elements that are linked into rings are given by a permutation: `σ a` is the element behind `a`,
`σ.symm a` the one in front of it, and an element is on its own if it is mapped to itself. Putting
an element into a ring and taking it out multiply the permutation by a transposition. What a ring
holds is said from one of its elements, as the list of those that are visited on the way round.
-/

namespace Ring

section Visits

variable {α : Type} {σ τ : Equiv.Perm α} {h e x : α} {l l₁ l₂ A : List α}

/-- From `h` on, the ring visits the elements `l` and comes back. -/
def Visits (σ : Equiv.Perm α) (h : α) (l : List α) : Prop := (h :: l).map σ = l ++ [h]

theorem visits_nil : Visits σ h [] ↔ σ h = h := by
  rw [Visits, List.map_singleton, List.nil_append]
  exact List.singleton_inj

theorem Visits.congr (hl : Visits σ h l) (hagree : ∀ a ∈ h :: l, τ a = σ a) : Visits τ h l := by
  rw [Visits, ← hl]
  exact List.map_congr_left hagree

/-- On the way back the same elements are visited. -/
theorem Visits.symm (hl : Visits σ h l) : Visits σ.symm h l.reverse := by
  have hback : (l ++ [h]).map σ.symm = h :: l := by
    rw [← hl, List.map_map, Equiv.symm_comp_self, List.map_id]
  have hrev := congrArg List.reverse hback
  rw [← List.map_reverse, List.reverse_append, List.reverse_singleton, List.singleton_append,
    List.reverse_cons] at hrev
  exact hrev

/-- Only one list is visited before the way comes back. -/
theorem Visits.unique (hl : Visits σ h l₁) (hl' : Visits σ h l₂) (h₁ : h ∉ l₁) (h₂ : h ∉ l₂) :
    l₁ = l₂ := by
  have hfrom : ∀ {a : α} {l₁ l₂ : List α}, (a :: l₁).map σ = l₁ ++ [h] →
      (a :: l₂).map σ = l₂ ++ [h] → h ∉ l₁ → h ∉ l₂ → l₁ = l₂ := by
    intro a l₁
    induction l₁ generalizing a with
    | nil =>
      intro l₂ hl hl' _ h₂
      cases l₂ with
      | nil => rfl
      | cons b l₂ =>
        have hb : b = h := (List.cons.inj hl').1.symm.trans (List.cons.inj hl).1
        exact absurd (hb ▸ List.mem_cons_self) h₂
    | cons b l₁ ih =>
      intro l₂ hl hl' h₁ h₂
      obtain ⟨hab, hrest⟩ := List.cons.inj hl
      cases l₂ with
      | nil =>
        have hb : b = h := hab.symm.trans (List.cons.inj hl').1
        exact absurd (hb ▸ List.mem_cons_self) h₁
      | cons c l₂ =>
        obtain ⟨hac, hrest'⟩ := List.cons.inj hl'
        obtain rfl : b = c := hab.symm.trans hac
        rw [ih hrest hrest' (fun hmem => h₁ (List.mem_cons_of_mem b hmem))
          fun hmem => h₂ (List.mem_cons_of_mem b hmem)]
  exact hfrom hl hl' h₁ h₂

/-- The way round, cut behind the element `x` on it. -/
theorem visits_cut (hA : h :: l₁ = A ++ [x]) :
    Visits σ h (l₁ ++ l₂) ↔ A.map σ = l₁ ∧ (x :: l₂).map σ = l₂ ++ [h] := by
  have hlen : (A.map σ).length = l₁.length := by
    have heq := congrArg List.length hA
    rw [List.length_cons, List.length_append, List.length_singleton] at heq
    rw [List.length_map]
    omega
  have hmap : (h :: (l₁ ++ l₂)).map σ = A.map σ ++ (x :: l₂).map σ := by
    rw [← List.cons_append, hA, List.append_assoc, List.map_append]
    rfl
  rw [Visits, hmap, List.append_assoc]
  exact ⟨fun heq => List.append_inj heq hlen, fun ⟨hfront, hrest⟩ => by rw [hfront, hrest]⟩

/-- An element on its own is not visited on the way from another one. -/
theorem Visits.notMem_of_fixed (hl : Visits σ h l) (hnodup : (h :: l).Nodup) (he : σ e = e)
    (hne : e ≠ h) : e ∉ h :: l := by
  refine List.not_mem_cons_of_ne_of_not_mem hne fun hmem => ?_
  obtain ⟨l₁, l₂, rfl⟩ := List.append_of_mem hmem
  have hA : h :: (l₁ ++ [e]) = (h :: l₁) ++ [e] := rfl
  rw [List.append_cons] at hl
  obtain ⟨-, hrest⟩ := (visits_cut hA).mp hl
  rw [List.map_cons, he] at hrest
  cases l₂ with
  | nil => exact hne (List.cons.inj hrest).1
  | cons b l₂ =>
    obtain rfl : e = b := (List.cons.inj hrest).1
    have htail := (List.nodup_append.mp (List.nodup_cons.mp hnodup).2).2.1
    exact (List.nodup_cons.mp htail).1 List.mem_cons_self

end Visits

variable {α : Type} [DecidableEq α] {σ : Equiv.Perm α} {h e x y : α} {l l₁ l₂ A : List α}

/-! ## Putting in and taking out -/

/-- The rings after `e`, which was on its own, has been put behind `x`. -/
def insertAfter (σ : Equiv.Perm α) (x e : α) : Equiv.Perm α := σ * Equiv.swap x e

/-- The rings after `e` has been taken out. -/
def remove (σ : Equiv.Perm α) (e : α) : Equiv.Perm α := σ * Equiv.swap (σ.symm e) e

theorem insertAfter_apply (he : σ e = e) (y : α) :
    insertAfter σ x e y = if y = e then σ x else if y = x then e else σ y := by
  rw [insertAfter, Equiv.Perm.mul_apply, Equiv.swap_apply_def]
  by_cases hx : y = x
  · rw [if_pos hx, if_pos hx, he, hx]
    split
    case isTrue hxe => rw [hxe, he]
    case isFalse => rfl
  · rw [if_neg hx, if_neg hx]
    split
    · rfl
    · rfl

theorem insertAfter_symm_apply (he : σ e = e) (hx : x ≠ e) (y : α) :
    (insertAfter σ x e).symm y = if y = e then x else if y = σ x then e else σ.symm y := by
  rw [Equiv.symm_apply_eq, insertAfter_apply he]
  by_cases hye : y = e
  · rw [if_pos hye, if_neg hx, if_pos rfl, hye]
  · rw [if_neg hye]
    by_cases hyx : y = σ x
    · rw [if_pos hyx, if_pos rfl, hyx]
    · have hne : σ.symm y ≠ e := by
        rw [Ne, Equiv.symm_apply_eq, he]
        exact hye
      have hne' : σ.symm y ≠ x := by
        rw [Ne, Equiv.symm_apply_eq]
        exact hyx
      rw [if_neg hyx, if_neg hne, if_neg hne', Equiv.apply_symm_apply]

theorem remove_apply (σ : Equiv.Perm α) (e y : α) :
    remove σ e y = if y = e then e else if y = σ.symm e then σ e else σ y := by
  rw [remove, Equiv.Perm.mul_apply, Equiv.swap_apply_def]
  by_cases hye : y = e
  · subst hye
    rw [if_pos rfl, if_pos rfl]
    split
    case isTrue heq => rw [heq, Equiv.apply_symm_apply, ← heq]
    case isFalse => exact Equiv.apply_symm_apply σ y
  · rw [if_neg hye, if_neg hye]
    split
    · rfl
    · rfl

theorem remove_symm_apply (σ : Equiv.Perm α) (e y : α) :
    (remove σ e).symm y = if y = e then e else if y = σ e then σ.symm e else σ.symm y := by
  rw [Equiv.symm_apply_eq, remove_apply]
  by_cases hye : y = e
  · rw [if_pos hye, if_pos rfl, hye]
  · rw [if_neg hye]
    by_cases hyx : y = σ e
    · have hne : σ.symm e ≠ e := by
        rw [Ne, Equiv.symm_apply_eq, ← hyx]
        exact fun heq => hye heq.symm
      rw [if_pos hyx, if_neg hne, if_pos rfl, hyx]
    · have hne : σ.symm y ≠ e := by
        rw [Ne, Equiv.symm_apply_eq]
        exact hyx
      have hne' : σ.symm y ≠ σ.symm e := fun heq => hye (σ.symm.injective heq)
      rw [if_neg hyx, if_neg hne, if_neg hne', Equiv.apply_symm_apply]

/-- An element that is put in behind `x` is visited behind `x`. -/
theorem Visits.insertAfter (hl : Visits σ h (l₁ ++ l₂)) (hA : h :: l₁ = A ++ [x])
    (hnodup : (h :: (l₁ ++ l₂)).Nodup) (he : σ e = e) (hout : e ∉ h :: (l₁ ++ l₂)) :
    Visits (insertAfter σ x e) h (l₁ ++ e :: l₂) := by
  obtain ⟨hfront, hrest⟩ := (visits_cut hA).mp hl
  rw [← List.cons_append, hA, List.append_assoc] at hnodup hout
  have hkeep : ∀ B : List α, (∀ b ∈ B, b ∈ A ++ ([x] ++ l₂) ∧ b ≠ x) →
      B.map (Ring.insertAfter σ x e) = B.map σ := by
    intro B hB
    refine List.map_congr_left fun b hb => ?_
    obtain ⟨hmem, hbx⟩ := hB b hb
    rw [insertAfter_apply he, if_neg, if_neg hbx]
    rintro rfl
    exact hout hmem
  obtain ⟨-, hrestNodup, hdisj⟩ := List.nodup_append.mp hnodup
  refine (visits_cut hA).mpr ⟨?_, ?_⟩
  · rw [hkeep A fun b hb => ⟨List.mem_append_left _ hb, ?_⟩, hfront]
    exact hdisj b hb x (List.mem_append_left _ List.mem_cons_self)
  · have hxe : x ≠ e := by
      rintro rfl
      exact hout (List.mem_append_right _ (List.mem_append_left _ List.mem_cons_self))
    have hxl : ∀ b ∈ l₂, b ≠ x := by
      rintro b hb rfl
      exact (List.nodup_cons.mp hrestNodup).1 hb
    rw [List.map_cons, List.map_cons, hkeep l₂ fun b hb =>
      ⟨List.mem_append_right _ (List.mem_append_right _ hb), hxl b hb⟩, insertAfter_apply he,
      if_neg hxe, if_pos rfl, insertAfter_apply he, if_pos rfl, ← List.map_cons, hrest]
    rfl

/-- An element that is taken out is no longer visited. -/
theorem Visits.remove (hl : Visits σ h (l₁ ++ e :: l₂)) (hnodup : (h :: (l₁ ++ e :: l₂)).Nodup) :
    Visits (remove σ e) h (l₁ ++ l₂) := by
  obtain ⟨A, x, hA⟩ : ∃ A x, h :: l₁ = A ++ [x] :=
    ⟨_, _, (List.dropLast_append_getLast (List.cons_ne_nil h l₁)).symm⟩
  obtain ⟨hfront, hrest⟩ := (visits_cut hA).mp hl
  rw [List.map_cons, List.cons_append] at hrest
  obtain ⟨hx, hbehind⟩ := List.cons.inj hrest
  have hxe : σ.symm e = x := by
    rw [Equiv.symm_apply_eq, hx]
  rw [← List.cons_append, hA, List.append_assoc] at hnodup
  obtain ⟨-, hrestNodup, hdisj⟩ := List.nodup_append.mp hnodup
  obtain ⟨hxout, heNodup⟩ := List.nodup_cons.mp hrestNodup
  have hkeep : ∀ B : List α, (∀ b ∈ B, b ≠ e ∧ b ≠ x) → B.map (Ring.remove σ e) = B.map σ := by
    intro B hB
    refine List.map_congr_left fun b hb => ?_
    rw [remove_apply, if_neg (hB b hb).1, hxe, if_neg (hB b hb).2]
  refine (visits_cut hA).mpr ⟨?_, ?_⟩
  · rw [hkeep A fun b hb => ⟨?_, ?_⟩, hfront]
    · exact hdisj b hb e (List.mem_append_right _ List.mem_cons_self)
    · exact hdisj b hb x (List.mem_append_left _ List.mem_cons_self)
  · have hne : x ≠ e := by
      rintro rfl
      exact hxout List.mem_cons_self
    rw [List.map_cons, hkeep l₂ fun b hb => ⟨?_, ?_⟩, remove_apply, if_neg hne, hxe, if_pos rfl,
      ← List.map_cons, hbehind]
    · rintro rfl
      exact (List.nodup_cons.mp heNodup).1 hb
    · rintro rfl
      exact hxout (List.mem_cons_of_mem e hb)

/-! ## Lists that change -/

/-- The list with `e` behind `x`. -/
def behind (x e : α) (l : List α) : List α := l.flatMap fun a => if a = x then [a, e] else [a]

/-- The list with `e` in front of `x`. -/
def inFront (x e : α) (l : List α) : List α := l.flatMap fun a => if a = x then [e, a] else [a]

theorem behind_of_notMem (hx : x ∉ l) : behind x e l = l := by
  induction l with
  | nil => rfl
  | cons a l ih =>
    obtain ⟨ha, hl⟩ := List.ne_and_not_mem_of_not_mem_cons hx
    rw [behind, List.flatMap_cons, if_neg fun heq => ha heq.symm]
    exact congrArg (a :: ·) (ih hl)

theorem inFront_of_notMem (hx : x ∉ l) : inFront x e l = l := by
  induction l with
  | nil => rfl
  | cons a l ih =>
    obtain ⟨ha, hl⟩ := List.ne_and_not_mem_of_not_mem_cons hx
    rw [inFront, List.flatMap_cons, if_neg fun heq => ha heq.symm]
    exact congrArg (a :: ·) (ih hl)

theorem behind_append_cons (h₁ : x ∉ l₁) (h₂ : x ∉ l₂) :
    behind x e (l₁ ++ x :: l₂) = l₁ ++ x :: e :: l₂ := by
  have hparts : behind x e (l₁ ++ x :: l₂) = behind x e l₁ ++ ([x, e] ++ behind x e l₂) := by
    rw [behind, List.flatMap_append, List.flatMap_cons, if_pos rfl]
    rfl
  rw [hparts, behind_of_notMem h₁, behind_of_notMem h₂]
  rfl

theorem inFront_append_cons (h₁ : x ∉ l₁) (h₂ : x ∉ l₂) :
    inFront x e (l₁ ++ x :: l₂) = l₁ ++ e :: x :: l₂ := by
  have hparts : inFront x e (l₁ ++ x :: l₂) = inFront x e l₁ ++ ([e, x] ++ inFront x e l₂) := by
    rw [inFront, List.flatMap_append, List.flatMap_cons, if_pos rfl]
    rfl
  rw [hparts, inFront_of_notMem h₁, inFront_of_notMem h₂]
  rfl

/-- The list is the same, or `e` has come in. -/
def Gains (e : α) (l l' : List α) : Prop := l' = l ∨ l'.Perm (e :: l)

theorem gains_behind (hnodup : l.Nodup) : Gains e l (behind x e l) := by
  by_cases hx : x ∈ l
  · obtain ⟨l₁, l₂, rfl⟩ := List.append_of_mem hx
    have hnodup' := List.nodup_append.mp hnodup
    rw [behind_append_cons (fun hmem => hnodup'.2.2 x hmem x List.mem_cons_self rfl)
      (List.nodup_cons.mp hnodup'.2.1).1]
    have hassoc : ∀ l₃, l₁ ++ x :: l₃ = l₁ ++ [x] ++ l₃ := fun l₃ => by
      rw [List.append_assoc, List.singleton_append]
    rw [hassoc (e :: l₂), hassoc l₂]
    exact Or.inr List.perm_middle
  · exact Or.inl (behind_of_notMem hx)

theorem gains_inFront (hnodup : l.Nodup) : Gains e l (inFront x e l) := by
  by_cases hx : x ∈ l
  · obtain ⟨l₁, l₂, rfl⟩ := List.append_of_mem hx
    have hnodup' := List.nodup_append.mp hnodup
    rw [inFront_append_cons (fun hmem => hnodup'.2.2 x hmem x List.mem_cons_self rfl)
      (List.nodup_cons.mp hnodup'.2.1).1]
    exact Or.inr List.perm_middle
  · exact Or.inl (inFront_of_notMem hx)

omit [DecidableEq α] in
theorem Gains.nodup {l' : List α} (h' : Gains e l l') (hnodup : (h :: l).Nodup)
    (hout : e ∉ h :: l) : (h :: l').Nodup ∧ ∀ a ∈ h :: l', a = e ∨ a ∈ h :: l := by
  rcases h' with rfl | hperm
  · exact ⟨hnodup, fun a ha => Or.inr ha⟩
  · have hswap : (h :: l').Perm (e :: h :: l) := (hperm.cons h).trans (List.Perm.swap e h l)
    exact ⟨hswap.nodup_iff.mpr (List.nodup_cons.mpr ⟨hout, hnodup⟩), fun a ha =>
      List.mem_cons.mp (hswap.mem_iff.mp ha)⟩

/-- Other rings do not change. -/
theorem Visits.insertAfter_of_notMem (hl : Visits σ h l) (he : σ e = e) (hx : x ∉ h :: l)
    (hout : e ∉ h :: l) : Visits (Ring.insertAfter σ x e) h l := by
  refine hl.congr fun a ha => ?_
  rw [insertAfter_apply he, if_neg, if_neg]
  · rintro rfl
    exact hx ha
  · rintro rfl
    exact hout ha

theorem Visits.remove_of_notMem (hl : Visits σ h l) (hout : e ∉ h :: l) :
    Visits (Ring.remove σ e) h l := by
  refine hl.congr fun a ha => ?_
  rw [remove_apply, if_neg, if_neg]
  · rintro rfl
    have hnext : σ (σ.symm e) ∈ (h :: l).map σ := List.mem_map_of_mem ha
    rw [Equiv.apply_symm_apply, hl] at hnext
    refine hout ?_
    rcases List.mem_append.mp hnext with hmem | hmem
    · exact List.mem_cons_of_mem h hmem
    · rw [List.mem_singleton.mp hmem]
      exact List.mem_cons_self
  · rintro rfl
    exact hout ha

/-- What is visited after an element has been put behind `x`: it comes first, if `x` is where the
way begins. -/
theorem Visits.behind (hl : Visits σ h l) (hnodup : (h :: l).Nodup) (he : σ e = e)
    (hout : e ∉ h :: l) :
    Visits (Ring.insertAfter σ x e) h (if x = h then e :: l else behind x e l) := by
  by_cases hxh : x = h
  · rw [if_pos hxh, hxh]
    exact @Visits.insertAfter _ _ _ _ _ _ [] _ [] hl rfl hnodup he hout
  rw [if_neg hxh]
  by_cases hx : x ∈ l
  · obtain ⟨l₁, l₂, rfl⟩ := List.append_of_mem hx
    have hnodup' := List.nodup_append.mp (List.nodup_cons.mp hnodup).2
    have hassoc : ∀ l₃, l₁ ++ x :: l₃ = l₁ ++ [x] ++ l₃ := fun l₃ => by
      rw [List.append_assoc, List.singleton_append]
    rw [behind_append_cons (fun hmem => hnodup'.2.2 x hmem x List.mem_cons_self rfl)
      (List.nodup_cons.mp hnodup'.2.1).1, hassoc]
    rw [hassoc] at hl hnodup hout
    exact Visits.insertAfter (A := h :: l₁) hl rfl hnodup he hout
  · rw [behind_of_notMem hx]
    exact hl.insertAfter_of_notMem he (List.not_mem_cons_of_ne_of_not_mem hxh hx) hout

/-- What is visited after an element has been put in front of `x`: at the end, if `x` is where the
way begins. -/
theorem Visits.inFront (hl : Visits σ h l) (hnodup : (h :: l).Nodup) (he : σ e = e)
    (hout : e ∉ h :: l) : Visits (Ring.insertAfter σ (σ.symm x) e) h
      (if x = h then l ++ [e] else inFront x e l) := by
  -- the cut in front of the rest `l₂ ++ [h]` of the way, which begins with `x`
  have hput : ∀ l₁ l₂, l = l₁ ++ l₂ → (∃ r, l₂ ++ [h] = x :: r) →
      Visits (Ring.insertAfter σ (σ.symm x) e) h (l₁ ++ e :: l₂) := by
    rintro l₁ l₂ rfl ⟨r, hr⟩
    obtain ⟨A, y, hA⟩ : ∃ A y, h :: l₁ = A ++ [y] :=
      ⟨_, _, (List.dropLast_append_getLast (List.cons_ne_nil h l₁)).symm⟩
    obtain ⟨-, hrest⟩ := (visits_cut hA).mp hl
    rw [hr, List.map_cons] at hrest
    have hy : σ.symm x = y := by
      rw [Equiv.symm_apply_eq, (List.cons.inj hrest).1]
    rw [hy]
    exact hl.insertAfter hA hnodup he hout
  by_cases hxh : x = h
  · rw [if_pos hxh]
    exact hput l [] (List.append_nil l).symm ⟨[], by rw [hxh]; rfl⟩
  rw [if_neg hxh]
  by_cases hx : x ∈ l
  · obtain ⟨l₁, l₂, rfl⟩ := List.append_of_mem hx
    have hnodup' := List.nodup_append.mp (List.nodup_cons.mp hnodup).2
    rw [inFront_append_cons (fun hmem => hnodup'.2.2 x hmem x List.mem_cons_self rfl)
      (List.nodup_cons.mp hnodup'.2.1).1]
    exact hput l₁ (x :: l₂) rfl ⟨l₂ ++ [h], rfl⟩
  · rw [inFront_of_notMem hx]
    refine hl.insertAfter_of_notMem he ?_ hout
    -- the element in front of `x` is not on this way, for `x` is not
    intro hmem
    have hnext : σ (σ.symm x) ∈ (h :: l).map σ := List.mem_map_of_mem hmem
    rw [Equiv.apply_symm_apply, hl] at hnext
    rcases List.mem_append.mp hnext with hmem | hmem
    · exact hx hmem
    · exact hxh (List.mem_singleton.mp hmem)

/-- What is visited after an element has been taken out. -/
theorem Visits.erase (hl : Visits σ h l) (hnodup : (h :: l).Nodup) (hne : e ≠ h) :
    Visits (Ring.remove σ e) h (l.erase e) := by
  by_cases he : e ∈ l
  · obtain ⟨l₁, l₂, rfl⟩ := List.append_of_mem he
    have hnodup' := List.nodup_append.mp (List.nodup_cons.mp hnodup).2
    have hout : e ∉ l₁ := fun hmem => hnodup'.2.2 e hmem e List.mem_cons_self rfl
    rw [List.erase_append_right _ hout, List.erase_cons_head]
    exact hl.remove hnodup
  · rw [List.erase_of_not_mem he]
    exact hl.remove_of_notMem (List.not_mem_cons_of_ne_of_not_mem hne he)

end Ring
