import Mathlib.Data.List.Basic

/-!
# Line editing

A line is edited at its end, where there is room for `n` characters: a key puts a character there,
or erases the last one.
-/

namespace LineEdit

variable {α ι : Type} {n : ℕ} {held : List α}

/-- What a key does. -/
inductive Key (α : Type) where
  | put (a : α)
  | erase
  | skip

/-- The line after a key. A character for which there is no room is discarded. -/
def edit (n : ℕ) (held : List α) : Key α → List α
  | .put a => if held.length < n then held ++ [a] else held
  | .erase => held.dropLast
  | .skip => held

/-- The line after the inputs `cs`, which act as the keys `key`. -/
def run (n : ℕ) (key : ι → Key α) (held : List α) (cs : List ι) : List α :=
  cs.foldl (fun held c => edit n held (key c)) held

/-- The inputs that change the line. -/
def effective [DecidableEq α] (n : ℕ) (key : ι → Key α) (held : List α) : List ι → List ι
  | [] => []
  | c :: cs =>
    let rest := effective n key (edit n held (key c)) cs
    if edit n held (key c) = held then rest else c :: rest

theorem edit_put_of_lt (h : held.length < n) (a : α) : edit n held (.put a) = held ++ [a] :=
  if_pos h

theorem edit_put_of_le (h : n ≤ held.length) (a : α) : edit n held (.put a) = held :=
  if_neg (Nat.not_lt.mpr h)

theorem run_append (n : ℕ) (key : ι → Key α) (held : List α) (cs cs' : List ι) :
    run n key held (cs ++ cs') = run n key (run n key held cs) cs' := List.foldl_append

/-- A character that there is room for changes the line. -/
theorem edit_put_ne (h : held.length < n) (a : α) : edit n held (.put a) ≠ held := by
  rw [edit_put_of_lt h]
  intro heq
  exact List.cons_ne_nil a [] (List.append_right_eq_self.mp heq)

/-- So does the erasure of a character. -/
theorem edit_erase_ne (h : held ≠ []) : edit n held .erase ≠ held := by
  intro heq
  have hlen := congrArg List.length heq
  have hpos := List.length_pos_of_ne_nil h
  rw [edit, List.length_dropLast] at hlen
  omega

theorem mem_edit {k : Key α} {a : α} (h : a ∈ edit n held k) : a ∈ held ∨ k = .put a := by
  cases k with
  | put b =>
    by_cases hlt : held.length < n
    · rw [edit_put_of_lt hlt] at h
      rcases List.mem_append.mp h with h | h
      · exact Or.inl h
      · exact Or.inr (congrArg Key.put (List.mem_singleton.mp h).symm)
    · rw [edit_put_of_le (Nat.le_of_not_lt hlt)] at h
      exact Or.inl h
  | erase => exact Or.inl ((List.dropLast_subset held) h)
  | skip => exact Or.inl h

/-- Every character of the line was there before, or has been put. -/
theorem mem_run {key : ι → Key α} {cs : List ι} {a : α} (h : a ∈ run n key held cs) :
    a ∈ held ∨ ∃ c ∈ cs, key c = .put a := by
  induction cs generalizing held with
  | nil => exact Or.inl h
  | cons c cs ih =>
    rcases ih h with hmem | ⟨d, hd, hkey⟩
    · rcases mem_edit hmem with hmem | hkey
      · exact Or.inl hmem
      · exact Or.inr ⟨c, List.mem_cons_self, hkey⟩
    · exact Or.inr ⟨d, List.mem_cons_of_mem c hd, hkey⟩

end LineEdit
