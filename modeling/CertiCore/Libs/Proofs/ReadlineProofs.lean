import CertiCore.Libs.Proofs.StdioProofs
import CertiCore.Libs.Readline
import CertiCore.Text.LineEdit

/-!
# Proofs: reading a line

`readline` edits the line that it holds in its buffer, below the index. What stands behind it there
makes no difference.
-/

namespace CertiCore

open Loop LineEdit

/-! ## The editing rules -/

/-- What a character does to the line. -/
def keyOf (c : BitVec 32) : Key (BitVec 32) :=
  if ((ch ' ').setWidth 32).sle c then .put c
  else if c = (ch '\x08').setWidth 32 then .erase
  else .skip

/-- The characters that end a line. -/
def isEnd (c : BitVec 32) : Prop := c = (ch '\n').setWidth 32 ∨ c = (ch '\r').setWidth 32

instance (c : BitVec 32) : Decidable (isEnd c) := inferInstanceAs (Decidable (_ ∨ _))

/-- The line after a character. -/
def editLine (held : List (BitVec 32)) (c : BitVec 32) : List (BitVec 32) :=
  edit (BUFSIZE - 1) held (keyOf c)

/-- The line that is typed with the characters `cs`. -/
def typedLine (cs : List (BitVec 32)) : List (BitVec 32) := run (BUFSIZE - 1) keyOf [] cs

/-- The calls of `getchar` return the characters `cs`, one after the other. -/
def Delivers : List (BitVec 64) → List (BitVec 32) → List (BitVec 64) → Prop
  | polls, [], polls' => polls = polls'
  | polls, c :: cs, polls' => ∃ mid, getchar polls = some (c, mid) ∧ Delivers mid cs polls'

theorem getchar_cons (r : BitVec 64) (polls : List (BitVec 64)) :
    getchar (r :: polls) =
      if r.setWidth 32 = 0 then getchar polls else some (r.setWidth 32, polls) := by
  rw [getchar]
  rfl

theorem delivers_append {polls polls' : List (BitVec 64)} {cs cs' : List (BitVec 32)} :
    Delivers polls (cs ++ cs') polls' ↔ ∃ mid, Delivers polls cs mid ∧ Delivers mid cs' polls' := by
  induction cs generalizing polls with
  | nil => exact ⟨fun h => ⟨polls, rfl, h⟩, fun ⟨_, h, h'⟩ => Eq.symm h ▸ h'⟩
  | cons c cs ih =>
    constructor
    · rintro ⟨next, hc, hrest⟩
      obtain ⟨mid, h, h'⟩ := ih.mp hrest
      exact ⟨mid, ⟨next, hc, h⟩, h'⟩
    · rintro ⟨mid, ⟨next, hc, h⟩, h'⟩
      exact ⟨next, hc, ih.mpr ⟨mid, h, h'⟩⟩

/-- Characters that the firmware returns without delay. -/
theorem delivers_words {cs : List (BitVec 32)} (hcs : ∀ c ∈ cs, c ≠ 0) (polls : List (BitVec 64)) :
    Delivers (cs.map (·.setWidth 64) ++ polls) cs polls := by
  induction cs with
  | nil => rfl
  | cons c cs ih =>
    obtain ⟨hc, hrest⟩ := List.forall_mem_cons.mp hcs
    have hback : (c.setWidth 64).setWidth 32 = c := by
      rw [BitVec.setWidth_setWidth_of_le _ (by omega), BitVec.setWidth_eq]
    refine ⟨cs.map (·.setWidth 64) ++ polls, ?_, ih hrest⟩
    rw [List.map_cons, List.cons_append, getchar_cons, hback, if_neg hc]

/-! ## The buffer -/

/-- The index stays below the last place of the buffer. -/
structure InBounds (s : ReadState) : Prop where
  i_le : s.i ≤ BUFSIZE - 1
  length_eq : s.buf.length = BUFSIZE

/-- The buffer holds the characters `held`. -/
structure Holds (s : ReadState) (held : List (BitVec 32)) : Prop extends InBounds s where
  i_eq : s.i = held.length
  buf_eq : ∃ tail, s.buf = stored held ++ tail

theorem length_stored (held : List (BitVec 32)) : (stored held).length = held.length :=
  List.length_map _

theorem storeByte_of_inBounds {s : ReadState} (h : InBounds s) (v : Byte) :
    storeByte s.buf s.i v = .ok (s.buf.set s.i v) := by
  have hlt : s.i < s.buf.length := by
    have hle := h.i_le
    have hlen := h.length_eq
    unfold BUFSIZE at hle hlen
    omega
  exact if_pos hlt

section

variable {s s' : ReadState} {held : List (BitVec 32)} {c : BitVec 32} {polls : List (BitVec 64)}

/-- One iteration, in which every store is inside the buffer. -/
theorem readlineStep_eq (h : InBounds s) (hc : getchar s.polls = some (c, polls)) :
    readlineStep s = .ok (
      if c.slt 0 then .inr (none, { s with polls })
      else if ((ch ' ').setWidth 32).sle c ∧ s.i < BUFSIZE - 1 then
        .inl ⟨s.buf.set s.i (c.setWidth 8), s.i + 1, polls, s.out ++ [.cputchar c]⟩
      else if c = (ch '\x08').setWidth 32 ∧ s.i > 0 then
        .inl ⟨s.buf, s.i - 1, polls, s.out ++ [.cputchar c]⟩
      else if c = (ch '\n').setWidth 32 ∨ c = (ch '\r').setWidth 32 then
        .inr (some (s.buf.set s.i 0), ⟨s.buf.set s.i 0, s.i, polls, s.out ++ [.cputchar c]⟩)
      else .inl { s with polls }) := by
  unfold readlineStep
  rw [hc]
  simp only [storeByte_of_inBounds h, Except.mapError, bind, Except.bind, pure, Except.pure]
  split_ifs
  all_goals rfl

theorem readlineStep_of_none (hc : getchar s.polls = none) : readlineStep s = .error .idle := by
  unfold readlineStep
  rw [hc]

/-- The index and the buffer stay as they have to be, whatever the character is. -/
theorem step_inBounds (h : InBounds s) (hstep : Step readlineStep s s') : InBounds s' := by
  have hle := h.i_le
  cases hc : getchar s.polls with
  | none =>
    have heq := (readlineStep_of_none hc).symm.trans hstep
    exact nomatch heq
  | some r =>
    obtain ⟨c, polls⟩ := r
    have heq := Except.ok.inj ((readlineStep_eq h hc).symm.trans hstep)
    split_ifs at heq with hneg hput herase hend
    · obtain rfl := Sum.inl.inj heq
      exact ⟨hput.2, (List.length_set ..).trans h.length_eq⟩
    · obtain rfl := Sum.inl.inj heq
      exact ⟨(Nat.sub_le _ _).trans hle, h.length_eq⟩
    · obtain rfl := Sum.inl.inj heq
      exact ⟨hle, h.length_eq⟩

theorem steps_inBounds (h : InBounds s) (hsteps : Steps readlineStep s s') : InBounds s' := by
  induction hsteps with
  | refl => exact h
  | tail _ hstep ih => exact step_inBounds ih hstep

/-- No store is outside of the buffer. -/
theorem not_halt (h : InBounds s) (x : Halt) : ¬ Exit readlineStep s (.error (.halt x)) := by
  intro hexit
  cases hc : getchar s.polls with
  | none =>
    have heq := (readlineStep_of_none hc).symm.trans hexit
    exact nomatch heq
  | some r =>
    obtain ⟨c, polls⟩ := r
    have heq := (readlineStep_eq h hc).symm.trans hexit
    exact nomatch heq

/-! ## The line -/

theorem stored_append (l r : List (BitVec 32)) : stored (l ++ r) = stored l ++ stored r :=
  List.map_append

/-- A character for which there is room. -/
theorem step_put (h : Holds s held) (hc : getchar s.polls = some (c, polls))
    (hpos : ¬ c.slt 0 = true) (hput : ((ch ' ').setWidth 32).sle c)
    (hroom : held.length < BUFSIZE - 1) :
    ∃ s', Step readlineStep s s' ∧ Holds s' (held ++ [c]) ∧ s'.polls = polls ∧
      s'.out = s.out ++ [.cputchar c] := by
  obtain ⟨tail, htail⟩ := h.buf_eq
  have hi := h.i_eq
  have hlen := h.length_eq
  refine ⟨⟨s.buf.set s.i (c.setWidth 8), s.i + 1, polls, s.out ++ [.cputchar c]⟩, ?_, ?_, rfl, rfl⟩
  · rw [← hi] at hroom
    rw [Step, readlineStep_eq h.toInBounds hc, if_neg hpos, if_pos ⟨hput, hroom⟩]
  · refine ⟨⟨?_, (List.length_set ..).trans hlen⟩, ?_, ?_⟩
    · show s.i + 1 ≤ _
      omega
    · rw [List.length_append, List.length_singleton]
      exact congrArg (· + 1) hi
    · have hne : tail ≠ [] := by
        rintro rfl
        rw [htail, List.append_nil, length_stored] at hlen
        omega
      obtain ⟨x, tail, rfl⟩ := List.exists_cons_of_ne_nil hne
      refine ⟨tail, ?_⟩
      show s.buf.set s.i _ = _
      rw [htail, hi, ← length_stored, List.set_append_right _ _ (Nat.le_refl _), Nat.sub_self,
        stored_append, List.append_assoc]
      rfl

/-- The erasure of a character. -/
theorem step_erase (h : Holds s held) (hc : getchar s.polls = some (c, polls))
    (herase : c = (ch '\x08').setWidth 32) (hne : held ≠ []) :
    ∃ s', Step readlineStep s s' ∧ Holds s' held.dropLast ∧ s'.polls = polls ∧
      s'.out = s.out ++ [.cputchar c] := by
  obtain ⟨tail, htail⟩ := h.buf_eq
  have hi := h.i_eq
  have hle := h.i_le
  have hpos := List.length_pos_of_ne_nil hne
  have hlast := List.dropLast_append_getLast hne
  refine ⟨⟨s.buf, s.i - 1, polls, s.out ++ [.cputchar c]⟩, ?_, ?_, rfl, rfl⟩
  · have hneg : ¬ c.slt 0 = true := by
      rw [herase]
      decide
    have hblank : ¬ (((ch ' ').setWidth 32).sle c = true ∧ s.i < BUFSIZE - 1) := by
      rw [herase]
      exact fun h => absurd h.1 (by decide)
    rw [Step, readlineStep_eq h.toInBounds hc, if_neg hneg, if_neg hblank,
      if_pos ⟨herase, by omega⟩]
  · refine ⟨⟨?_, h.length_eq⟩, ?_, stored [held.getLast hne] ++ tail, ?_⟩
    · show s.i - 1 ≤ _
      omega
    · rw [List.length_dropLast]
      exact congrArg (· - 1) hi
    · rw [← List.append_assoc, ← stored_append, hlast]
      exact htail

/-- A character that is discarded or ignored. -/
theorem step_ignore (h : Holds s held) (hc : getchar s.polls = some (c, polls))
    (hpos : ¬ c.slt 0 = true) (hend : ¬ isEnd c)
    (hput : ((ch ' ').setWidth 32).sle c → ¬ held.length < BUFSIZE - 1)
    (herase : c = (ch '\x08').setWidth 32 → held = []) :
    ∃ s', Step readlineStep s s' ∧ Holds s' held ∧ s'.polls = polls ∧ s'.out = s.out := by
  have hi := h.i_eq
  refine ⟨{ s with polls }, ?_, ⟨⟨h.i_le, h.length_eq⟩, h.i_eq, h.buf_eq⟩, rfl, rfl⟩
  have hblank : ¬ (((ch ' ').setWidth 32).sle c = true ∧ s.i < BUFSIZE - 1) := by
    rintro ⟨hle, hlt⟩
    exact hput hle (by omega)
  have hback : ¬ (c = (ch '\x08').setWidth 32 ∧ s.i > 0) := by
    rintro ⟨heq, hgt⟩
    rw [herase heq, List.length_nil] at hi
    omega
  unfold isEnd at hend
  rw [Step, readlineStep_eq h.toInBounds hc, if_neg hpos, if_neg hblank, if_neg hback, if_neg hend]

/-- An iteration edits the line, and shows the character if the line changes. -/
theorem step_editLine (h : Holds s held) (hc : getchar s.polls = some (c, polls))
    (hpos : ¬ c.slt 0 = true) (hend : ¬ isEnd c) :
    ∃ s', Step readlineStep s s' ∧ Holds s' (editLine held c) ∧ s'.polls = polls ∧
      s'.out = s.out ++ if editLine held c = held then [] else [.cputchar c] := by
  by_cases hput : ((ch ' ').setWidth 32).sle c
  · have hkey : keyOf c = .put c := if_pos hput
    rw [editLine, hkey]
    by_cases hroom : held.length < BUFSIZE - 1
    · rw [if_neg (edit_put_ne hroom c), edit_put_of_lt hroom]
      exact step_put h hc hpos hput hroom
    · have hback : c = (ch '\x08').setWidth 32 → held = [] := by
        rintro rfl
        exact absurd hput (by decide)
      rw [edit_put_of_le (Nat.le_of_not_lt hroom), if_pos rfl, List.append_nil]
      exact step_ignore h hc hpos hend (fun _ => hroom) hback
  · by_cases hback : c = (ch '\x08').setWidth 32
    · have hkey : keyOf c = .erase := (if_neg hput).trans (if_pos hback)
      rw [editLine, hkey]
      by_cases hne : held = []
      · subst hne
        rw [edit, List.dropLast_nil, if_pos rfl, List.append_nil]
        exact step_ignore h hc hpos hend (fun h => absurd h hput) fun _ => rfl
      · rw [if_neg (edit_erase_ne hne), edit]
        exact step_erase h hc hback hne
    · have hkey : keyOf c = .skip := (if_neg hput).trans (if_neg hback)
      rw [editLine, hkey, edit, if_pos rfl, List.append_nil]
      exact step_ignore h hc hpos hend (fun h => absurd h hput) fun h => absurd h hback

/-- The characters of a line, up to its end. -/
theorem steps_typed {cs : List (BitVec 32)} (h : Holds s held) (hpolls : Delivers s.polls cs polls)
    (hcs : ∀ c ∈ cs, ¬ c.slt 0 = true ∧ ¬ isEnd c) :
    ∃ s', Steps readlineStep s s' ∧ Holds s' (run (BUFSIZE - 1) keyOf held cs) ∧ s'.polls = polls ∧
      s'.out = s.out ++ (effective (BUFSIZE - 1) keyOf held cs).map .cputchar := by
  induction cs generalizing s held with
  | nil => exact ⟨s, .refl s, h, hpolls, (List.append_nil _).symm⟩
  | cons c cs ih =>
    obtain ⟨mid, hc, hrest⟩ := hpolls
    obtain ⟨⟨hpos, hend⟩, hcs⟩ := List.forall_mem_cons.mp hcs
    obtain ⟨s₁, hstep, hholds, rfl, hout⟩ := step_editLine h hc hpos hend
    obtain ⟨s', hsteps, hholds', hpolls', hout'⟩ := ih hholds hrest hcs
    refine ⟨s', hstep.steps.trans hsteps, hholds', hpolls', ?_⟩
    rw [hout', hout, List.append_assoc]
    congr 1
    show _ = List.map _ (if editLine held c = held then _ else _)
    split
    · rfl
    · rfl

/-- The end of the line. -/
theorem exit_end (h : Holds s held) (hc : getchar s.polls = some (c, polls)) (hend : isEnd c) :
    ∃ s', Exit readlineStep s (.ok (some s'.buf, s')) ∧ s'.buf.length = BUFSIZE ∧
      (∃ tail, s'.buf = stored held ++ 0 :: tail) ∧ s'.polls = polls ∧
      s'.out = s.out ++ [.cputchar c] := by
  obtain ⟨tail, htail⟩ := h.buf_eq
  have hi := h.i_eq
  have hle := h.i_le
  have hlen := h.length_eq
  have hother : ¬ c.slt 0 = true ∧ ¬ ((ch ' ').setWidth 32).sle c = true ∧
      c ≠ (ch '\x08').setWidth 32 := by
    rcases hend with rfl | rfl
    · decide
    · decide
  refine ⟨⟨s.buf.set s.i 0, s.i, polls, s.out ++ [.cputchar c]⟩, ?_,
    (List.length_set ..).trans hlen, ?_, rfl, rfl⟩
  · unfold isEnd at hend
    rw [Exit, readlineStep_eq h.toInBounds hc, if_neg hother.1, if_neg fun h => hother.2.1 h.1,
      if_neg fun h => hother.2.2 h.1, if_pos hend]
    rfl
  · have hne : tail ≠ [] := by
      rintro rfl
      rw [htail, List.append_nil, length_stored] at hlen
      unfold BUFSIZE at hle hlen
      omega
    obtain ⟨x, tail, rfl⟩ := List.exists_cons_of_ne_nil hne
    refine ⟨tail, ?_⟩
    show s.buf.set s.i 0 = _
    rw [htail, hi, ← length_stored, List.set_append_right _ _ (Nat.le_refl _), Nat.sub_self]
    rfl

/-! ## The property -/

theorem holds_readlineInit {buf : List Byte} (hbuf : buf.length = BUFSIZE) (prompt : VaArg)
    (polls : List (BitVec 64)) (out : List Output) : Holds (readlineInit prompt buf polls out) [] :=
  ⟨⟨Nat.zero_le _, hbuf⟩, rfl, buf, rfl⟩

/-- The characters of the line are such that the first NUL behind them ends it. -/
theorem stored_typedLine_ne_zero {cs : List (BitVec 32)} (hcs : ∀ c ∈ cs, c.toNat < 256) :
    ∀ c ∈ stored (typedLine cs), c ≠ 0 := by
  rintro _ hmem rfl
  obtain ⟨a, ha, hzero⟩ := List.mem_map.mp hmem
  obtain ⟨c, hc, hkey⟩ := (mem_run ha).resolve_left List.not_mem_nil
  have hput : ((ch ' ').setWidth 32).sle c = true ∧ c = a := by
    unfold keyOf at hkey
    split_ifs at hkey with hput
    exact ⟨hput, Key.put.inj hkey⟩
  obtain ⟨hput, rfl⟩ := hput
  have hlt := hcs c hc
  have hnat := congrArg BitVec.toNat hzero
  rw [BitVec.toNat_setWidth] at hnat
  obtain rfl : c = 0 := by
    apply BitVec.eq_of_toNat_eq
    rw [Nat.mod_eq_of_lt hlt] at hnat
    exact hnat
  exact absurd hput (by decide)

/-- `readline` returns the edited line, whatever the buffer held before; it shows what changed the
line, and the end of it; and the buffer is never left. -/
theorem readline_edits {buf : List Byte} {cs : List (BitVec 32)} {e : BitVec 32}
    {polls polls' : List (BitVec 64)} (hbuf : buf.length = BUFSIZE)
    (hpolls : Delivers polls (cs ++ [e]) polls') (hcs : ∀ c ∈ cs, ¬ c.slt 0 = true ∧ ¬ isEnd c)
    (he : isEnd e) (prompt : VaArg) (out : List Output) :
    (∃ s', Ends readlineStep (readlineInit prompt buf polls out) (.ok (some s'.buf, s')) ∧
      (∃ tail, s'.buf = stored (typedLine cs) ++ 0 :: tail) ∧ s'.polls = polls' ∧
      s'.out = out ++ promptOutput prompt ++
        (effective (BUFSIZE - 1) keyOf [] cs ++ [e]).map .cputchar) ∧
    ((∀ c ∈ cs, c.toNat < 256) → ∀ c ∈ stored (typedLine cs), c ≠ 0) ∧
    ∀ s, Steps readlineStep (readlineInit prompt buf polls out) s →
      InBounds s ∧ ∀ x, ¬ Exit readlineStep s (.error (.halt x)) := by
  have hinit := holds_readlineInit hbuf prompt polls out
  refine ⟨?_, stored_typedLine_ne_zero, ?_⟩
  · obtain ⟨mid, hline, last, hlast, rfl⟩ := delivers_append.mp hpolls
    obtain ⟨s, hsteps, hholds, rfl, hout⟩ := steps_typed hinit hline hcs
    obtain ⟨s', hexit, -, htail, hpolls', hout'⟩ := exit_end hholds hlast he
    refine ⟨s', hexit.ends.of_steps hsteps, htail, hpolls', ?_⟩
    rw [hout', hout, List.map_append, ← List.append_assoc]
    rfl
  · intro s hsteps
    have hbounds := steps_inBounds hinit.toInBounds hsteps
    exact ⟨hbounds, not_halt hbounds⟩

end

/-- The line "ac", typed as "ab", a backspace and "c" over an older line. -/
theorem readline_edits_backspace : ∃ s', Ends readlineStep
    (readlineInit (.const (cstr "K> ")) (List.replicate BUFSIZE (ch 'x'))
      [0x61, 0x62, 0x08, 0x63, 0x0a] []) (.ok (some s'.buf, s')) ∧
    (∃ tail, s'.buf = bytes "ac" ++ 0 :: tail) ∧
    s'.out = [.cprintf (cstr "%s") [.const (cstr "K> ")], .cputchar 0x61, .cputchar 0x62,
      .cputchar 0x08, .cputchar 0x63, .cputchar 0x0a] := by
  have hne : ∀ c ∈ ([0x61, 0x62, 0x08, 0x63, 0x0a] : List (BitVec 32)), c ≠ 0 := by simp
  have hpolls := delivers_words hne []
  have hcs : ∀ c ∈ ([0x61, 0x62, 0x08, 0x63] : List (BitVec 32)),
      ¬ c.slt 0 = true ∧ ¬ isEnd c := by
    simp [isEnd, ch]
  have hline : stored (typedLine [0x61, 0x62, 0x08, 0x63]) = bytes "ac" := rfl
  have hshown : effective (BUFSIZE - 1) keyOf [] [0x61, 0x62, 0x08, 0x63] =
      [0x61, 0x62, 0x08, 0x63] := by decide
  have hbuf : (List.replicate BUFSIZE (ch 'x')).length = BUFSIZE := List.length_replicate
  obtain ⟨⟨s', hends, htail, -, hout⟩, -, -⟩ :=
    @readline_edits _ [0x61, 0x62, 0x08, 0x63] 0x0a _ _ hbuf hpolls hcs (Or.inl rfl)
      (.const (cstr "K> ")) []
  rw [hline] at htail
  rw [hshown] at hout
  exact ⟨s', hends, htail, hout⟩

end CertiCore
