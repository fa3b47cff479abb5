import CertiCore.Debug.Kmonitor
import CertiCore.Libs.Proofs.ReadlineProofs

/-!
# Proofs: typing at the monitor

A poll that finds no character returns -1, which `getchar` takes for a character and `readline` for
an error: the monitor drops what has been typed of the line.
-/

namespace CertiCore

open Loop LineEdit

/-! ## One iteration -/

section Step

variable {σ ρ : Type} {part : Monitor → σ} {m : Monitor} {r r' : ReadState} {p p' : ParseState}
  {finish : List Byte → List (BitVec 64) → List Output → CmdResult → σ ⊕ ρ}
  {buf : List Byte} {polls : List (BitVec 64)} {out : List Output}

/-- `readline` goes on. -/
theorem monitorStep_edit (hctl : m.ctl = .readline r) (h : readlineStep r = .ok (.inl r')) :
    monitorStep part finish m = .ok (.inl (part { m with ctl := .readline r' })) := by
  unfold monitorStep
  simp only [hctl, h]
  rfl

/-- `readline` returns `NULL`. -/
theorem monitorStep_null (hctl : m.ctl = .readline r) (h : readlineStep r = .ok (.inr (none, r'))) :
    monitorStep part finish m = .ok (.inl (part (m.prompt r'.buf r'.polls r'.out))) := by
  unfold monitorStep
  simp only [hctl, h]
  rfl

/-- `readline` returns a line. -/
theorem monitorStep_line (hctl : m.ctl = .readline r)
    (h : readlineStep r = .ok (.inr (some buf, r'))) : monitorStep part finish m =
      .ok (.inl (part ⟨.runcmd (parseInit buf) r'.polls r'.out, m.lines ++ [stringOf buf]⟩)) := by
  unfold monitorStep
  simp only [hctl, h]
  rfl

/-- `readline` does not go on. -/
theorem monitorStep_stop {x : Stop} (hctl : m.ctl = .readline r) (h : readlineStep r = .error x) :
    monitorStep part finish m = .error x := by
  unfold monitorStep
  simp only [hctl, h]
  rfl

/-- `parse` goes on. -/
theorem monitorStep_parse (hctl : m.ctl = .runcmd p polls out) (h : Step parseStep p p') :
    monitorStep part finish m = .ok (.inl (part { m with ctl := .runcmd p' polls out })) := by
  have h : parseStep p = .ok (.inl p') := h
  unfold monitorStep
  simp only [hctl, h]
  rfl

/-- `parse` fails. -/
theorem monitorStep_fault {x : Halt} (hctl : m.ctl = .runcmd p polls out)
    (h : Exit parseStep p (.error x)) : monitorStep part finish m = .error (.halt x) := by
  have h : parseStep p = .error x := h
  unfold monitorStep
  simp only [hctl, h]
  rfl

/-- `parse` returns, and `runcmd` dispatches the line. -/
theorem monitorStep_parsed (hctl : m.ctl = .runcmd p polls out) (h : Exit parseStep p (.ok p')) :
    monitorStep part finish m =
      ((dispatch p').mapError .halt).map (finish p'.mem polls out) := by
  have h : parseStep p = .ok (.inr p') := h
  unfold monitorStep
  simp only [hctl, h]
  cases hd : dispatch p' with
  | error x =>
    simp only [Except.mapError, bind, Except.bind, hd]
    rfl
  | ok res =>
    simp only [Except.mapError, bind, Except.bind, hd]
    rfl

theorem monitorStep_dispatch {res : CmdResult} (hctl : m.ctl = .runcmd p polls out)
    (h : Exit parseStep p (.ok p')) (hres : dispatch p' = .ok res) :
    monitorStep part finish m = .ok (finish p'.mem polls out res) := by
  rw [monitorStep_parsed hctl h, hres]
  rfl

/-- What one iteration can do. -/
theorem monitorStep_cases {next : σ ⊕ ρ} (h : monitorStep part finish m = .ok next) :
    (∃ r r', m.ctl = .readline r ∧ readlineStep r = .ok (.inl r') ∧
      next = .inl (part { m with ctl := .readline r' })) ∨
    (∃ r r', m.ctl = .readline r ∧ readlineStep r = .ok (.inr (none, r')) ∧
      next = .inl (part (m.prompt r'.buf r'.polls r'.out))) ∨
    (∃ r r' buf, m.ctl = .readline r ∧ readlineStep r = .ok (.inr (some buf, r')) ∧
      next = .inl (part ⟨.runcmd (parseInit buf) r'.polls r'.out, m.lines ++ [stringOf buf]⟩)) ∨
    (∃ p p' polls out, m.ctl = .runcmd p polls out ∧ Step parseStep p p' ∧
      next = .inl (part { m with ctl := .runcmd p' polls out })) ∨
    ∃ p p' polls out res, m.ctl = .runcmd p polls out ∧ Exit parseStep p (.ok p') ∧
      dispatch p' = .ok res ∧ next = finish p'.mem polls out res := by
  cases hctl : m.ctl with
  | readline r =>
    cases hr : readlineStep r with
    | error x => exact nomatch h.symm.trans (monitorStep_stop hctl hr)
    | ok res =>
      rcases res with r' | ⟨_ | buf, r'⟩
      · have heq := Except.ok.inj (h.symm.trans (monitorStep_edit hctl hr))
        exact Or.inl ⟨r, r', rfl, hr, heq⟩
      · have heq := Except.ok.inj (h.symm.trans (monitorStep_null hctl hr))
        exact Or.inr (Or.inl ⟨r, r', rfl, hr, heq⟩)
      · have heq := Except.ok.inj (h.symm.trans (monitorStep_line hctl hr))
        exact Or.inr (Or.inr (Or.inl ⟨r, r', buf, rfl, hr, heq⟩))
  | runcmd p polls out =>
    refine Or.inr (Or.inr (Or.inr ?_))
    cases hp : parseStep p with
    | error x => exact nomatch h.symm.trans (monitorStep_fault hctl hp)
    | ok res =>
      rcases res with p' | p'
      · have heq := Except.ok.inj (h.symm.trans (monitorStep_parse hctl hp))
        exact Or.inl ⟨p, p', polls, out, rfl, hp, heq⟩
      · cases hd : dispatch p' with
        | error x =>
          rw [monitorStep_parsed hctl hp, hd] at h
          exact nomatch h
        | ok res =>
          have heq := Except.ok.inj (h.symm.trans (monitorStep_dispatch hctl hp hd))
          exact Or.inr ⟨p, p', polls, out, res, rfl, hp, hd, heq⟩

end Step

/-! ## Runs of the monitor -/

/-- Some time, the lines passed to `runcmd` are `lines`. -/
def Passes (m : Monitor) (lines : List (List Byte)) : Prop :=
  ∃ m', Steps kmonitorStep m m' ∧ m'.lines = lines

section

variable {m m' m'' : Monitor} {r : ReadState} {held : List (BitVec 32)} {c : BitVec 32}
  {x : BitVec 64} {u polls : List (BitVec 64)} {L : List (List Byte)}

/-- A step passes one line at most. -/
theorem step_lines (h : Step kmonitorStep m m') :
    m'.lines = m.lines ∨ ∃ line, m'.lines = m.lines ++ [line] := by
  rcases monitorStep_cases h with ⟨r, r', -, -, heq⟩ | ⟨r, r', -, -, heq⟩ |
    ⟨r, r', buf, -, -, heq⟩ | ⟨p, p', polls, out, -, -, heq⟩ |
    ⟨p, p', polls, out, res, -, -, -, heq⟩
  · obtain rfl := Sum.inl.inj heq
    exact Or.inl rfl
  · obtain rfl := Sum.inl.inj heq
    exact Or.inl rfl
  · obtain rfl := Sum.inl.inj heq
    exact Or.inr ⟨_, rfl⟩
  · obtain rfl := Sum.inl.inj heq
    exact Or.inl rfl
  · split at heq
    · exact nomatch heq
    · obtain rfl := Sum.inl.inj heq
      exact Or.inl rfl

theorem steps_lines (h : Steps kmonitorStep m m') : m.lines <+: m'.lines := by
  induction h with
  | refl => exact List.prefix_rfl
  | tail _ hstep ih =>
    rcases step_lines hstep with heq | ⟨line, heq⟩
    · rw [heq]
      exact ih
    · rw [heq]
      exact ih.trans (List.prefix_append _ _)

/-- The lines are passed one after the other. -/
theorem exists_steps_of_prefix (h : Steps kmonitorStep m m') (hm : m.lines <+: L)
    (hL : L <+: m'.lines) : ∃ mid, Steps kmonitorStep m mid ∧ mid.lines = L := by
  induction h with
  | refl => exact ⟨m, .refl m, hm.eq_of_length_le hL.length_le⟩
  | @tail b c hsteps hstep ih =>
    rcases step_lines hstep with heq | ⟨line, heq⟩
    · rw [heq] at hL
      exact ih hL
    · rw [heq] at hL
      rcases List.prefix_concat_iff.mp hL with rfl | hL
      · exact ⟨c, hsteps.tail hstep, heq⟩
      · exact ih hL

theorem Passes.eq_of_length {L' : List (List Byte)} (h : Passes m L) (h' : Passes m L')
    (hlen : L.length = L'.length) : L = L' := by
  obtain ⟨a, ha, rfl⟩ := h
  obtain ⟨b, hb, rfl⟩ := h'
  rcases ha.total hb with hab | hba
  · exact (steps_lines hab).eq_of_length hlen
  · exact ((steps_lines hba).eq_of_length hlen.symm).symm

theorem passes_iff_of_exit {res : Except Stop Unit} (h : Steps kmonitorStep m m')
    (hexit : Exit kmonitorStep m' res) (hm : m.lines = []) : Passes m L ↔ L <+: m'.lines := by
  constructor
  · rintro ⟨a, ha, rfl⟩
    rcases ha.total h with hab | hba
    · exact steps_lines hab
    · rw [hba.of_exit hexit]
  · intro hL
    exact exists_steps_of_prefix h (hm ▸ List.nil_prefix) hL

/-! ## One poll after the other -/

/-- The monitor holds the characters `held` of a line, and the polls `u` are to come. -/
structure Typing (m : Monitor) (held : List (BitVec 32)) (u : List (BitVec 64))
    (L : List (List Byte)) : Prop where
  readline : ∃ r, m.ctl = .readline r ∧ Holds r held ∧ getchar r.polls = getchar u
  lines_eq : m.lines = L

theorem typing_kmonitorInit {buf : List Byte} (hbuf : buf.length = BUFSIZE) (frame : List Output)
    (polls : List (BitVec 64)) : Typing (kmonitorInit frame buf polls) [] polls [] :=
  ⟨⟨_, rfl, holds_readlineInit hbuf _ _ _, rfl⟩, rfl⟩

theorem typing_prompt {buf : List Byte} (hbuf : buf.length = BUFSIZE) (out : List Output)
    (hL : m.lines = L) : Typing (m.prompt buf polls out) [] polls L :=
  ⟨⟨_, rfl, holds_readlineInit hbuf _ _ _, rfl⟩, hL⟩

/-- A poll without a character, as the comment of `cons_getc` has it. -/
theorem Typing.zero (h : Typing m held (x :: u) L) (hx : x.setWidth 32 = 0) :
    Typing m held u L := by
  obtain ⟨⟨r, hctl, hholds, hpolls⟩, hL⟩ := h
  rw [getchar_cons, if_pos hx] at hpolls
  exact ⟨⟨r, hctl, hholds, hpolls⟩, hL⟩

/-- A poll without a character, as the firmware reports it. -/
theorem Typing.idle (h : Typing m held (x :: u) L) (hx : (x.setWidth 32).slt 0 = true) :
    ∃ m', Step kmonitorStep m m' ∧ Typing m' [] u L := by
  obtain ⟨⟨r, hctl, hholds, hpolls⟩, hL⟩ := h
  have hne : x.setWidth 32 ≠ 0 := by
    intro h0
    rw [h0] at hx
    exact absurd hx (by decide)
  rw [getchar_cons, if_neg hne] at hpolls
  have hstep : readlineStep r = .ok (.inr (none, { r with polls := u })) := by
    rw [readlineStep_eq hholds.toInBounds hpolls, if_pos hx]
  exact ⟨m.prompt r.buf u r.out, monitorStep_null hctl hstep,
    typing_prompt hholds.length_eq _ hL⟩

/-- A character of a line. -/
theorem Typing.edit (h : Typing m held (x :: u) L) (hx : x.setWidth 32 ≠ 0)
    (hpos : ¬ (x.setWidth 32).slt 0 = true) (hend : ¬ isEnd (x.setWidth 32)) :
    ∃ m', Step kmonitorStep m m' ∧ Typing m' (editLine held (x.setWidth 32)) u L := by
  obtain ⟨⟨r, hctl, hholds, hpolls⟩, hL⟩ := h
  rw [getchar_cons, if_neg hx] at hpolls
  obtain ⟨r', hstep, hholds', rfl, -⟩ := step_editLine hholds hpolls hpos hend
  exact ⟨{ m with ctl := .readline r' }, monitorStep_edit hctl hstep,
    ⟨⟨r', rfl, hholds', rfl⟩, hL⟩⟩

/-- The end of a line. -/
theorem Typing.line (h : Typing m held (x :: u) L) (hend : isEnd (x.setWidth 32)) :
    ∃ buf out tail, Step kmonitorStep m ⟨.runcmd (parseInit buf) u out, L ++ [stringOf buf]⟩ ∧
      buf.length = BUFSIZE ∧ buf = stored held ++ 0 :: tail := by
  obtain ⟨⟨r, hctl, hholds, hpolls⟩, hL⟩ := h
  have hne : x.setWidth 32 ≠ 0 := by
    intro h0
    rw [h0] at hend
    exact absurd hend (by decide)
  rw [getchar_cons, if_neg hne] at hpolls
  obtain ⟨r', hexit, hlen, ⟨tail, htail⟩, rfl, -⟩ := exit_end hholds hpolls hend
  refine ⟨r'.buf, r'.out, tail, ?_, hlen, htail⟩
  rw [← hL]
  exact monitorStep_line hctl hexit

/-- An empty line, for which `runcmd` does nothing. -/
theorem Typing.line_nil (h : Typing m [] (x :: u) L) (hend : isEnd (x.setWidth 32)) :
    ∃ m', Steps kmonitorStep m m' ∧ Typing m' [] u (L ++ [[]]) := by
  obtain ⟨buf, out, tail, hstep, hlen, hbuf⟩ := h.line hend
  have hbuf : buf = 0 :: tail := hbuf
  have hstring : stringOf buf = [] := by
    rw [hbuf]
    exact List.takeWhile_cons_of_neg (by decide)
  rw [hstring] at hstep
  refine ⟨Monitor.prompt ⟨.runcmd (parseInit buf) u out, L ++ [[]]⟩ buf u out,
    hstep.steps.trans (Step.steps ?_), typing_prompt hlen out rfl⟩
  subst hbuf
  rfl

/-- No character is left. -/
theorem Typing.exit (h : Typing m held [] L) : Exit kmonitorStep m (.error .idle) := by
  obtain ⟨⟨r, hctl, -, hpolls⟩, -⟩ := h
  have hnone : getchar [] = none := by
    rw [getchar]
    rfl
  exact monitorStep_stop hctl (readlineStep_of_none (hpolls.trans hnone))

end

/-! ## Typed characters -/

section

variable {typed typed' pre seg line rest : List Byte} {polls polls' u q : List (BitVec 64)}
  {m : Monitor} {held : List (BitVec 32)} {L : List (List Byte)}

/-- The characters as `getchar` returns them. -/
def ints (l : List Byte) : List (BitVec 32) := l.map (·.setWidth 32)

/-- The characters as the firmware returns them. -/
def words (l : List Byte) : List (BitVec 64) := l.map (·.setWidth 64)

/-- A way of typing `typed`: the polls that find a character return `typed`, the others -1. -/
def Schedules (typed : List Byte) (polls : List (BitVec 64)) : Prop :=
  polls.filter (· ≠ -1) = words typed

/-- The character ends a line. -/
def endsLine (b : Byte) : Bool := isEnd (b.setWidth 32)

/-- From every place of every line that is completed, what is typed of it up to its end leaves an
empty line. -/
def Erased (typed : List Byte) : Prop :=
  ∀ pre line e rest, typed = pre ++ line ++ e :: rest → (∀ b ∈ line, endsLine b = false) →
    endsLine e = true → typedLine (ints line) = []

theorem setWidth_word (b : Byte) : (b.setWidth 64).setWidth 32 = b.setWidth 32 :=
  BitVec.setWidth_setWidth_of_le _ (by omega)

theorem word_ne_idle (b : Byte) : b.setWidth 64 ≠ -1 := by
  have hlt := b.isLt
  intro h
  have hnat := congrArg BitVec.toNat h
  rw [BitVec.toNat_setWidth] at hnat
  have hidle : (-1 : BitVec 64).toNat = 2 ^ 64 - 1 := rfl
  omega

theorem not_slt_int (b : Byte) : ¬ (b.setWidth 32).slt 0 = true := by
  have hlt := b.isLt
  rw [slt_zero_iff, BitVec.toNat_setWidth]
  omega

theorem schedules_words (typed : List Byte) : Schedules typed (words typed) := by
  apply List.filter_eq_self.mpr
  intro x hx
  obtain ⟨b, -, rfl⟩ := List.mem_map.mp hx
  exact decide_eq_true (word_ne_idle b)

theorem Schedules.append (h : Schedules typed polls) (h' : Schedules typed' polls') :
    Schedules (typed ++ typed') (polls ++ polls') := by
  rw [Schedules, List.filter_append, h, h', words, words, words, List.map_append]

theorem schedules_idle : Schedules [] [-1] := rfl

theorem typedLine_concat (cs : List (BitVec 32)) (c : BitVec 32) :
    typedLine (cs ++ [c]) = editLine (typedLine cs) c := run_append ..

/-- A character that is typed in a line. -/
theorem Typing.char {b : Byte} (h : Typing m held (b.setWidth 64 :: u) L)
    (hb : endsLine b = false) : ∃ m', Steps kmonitorStep m m' ∧
      Typing m' (editLine held (b.setWidth 32)) u L := by
  have hint := setWidth_word b
  by_cases hzero : b.setWidth 32 = 0
  · have hsame : editLine held (b.setWidth 32) = held := by
      rw [hzero]
      rfl
    rw [hsame]
    exact ⟨m, .refl m, h.zero (hint.trans hzero)⟩
  · have hend : ¬ isEnd (b.setWidth 32) := of_decide_eq_false hb
    obtain ⟨m', hstep, h'⟩ := h.edit (hint ▸ hzero) (hint ▸ not_slt_int b) (hint ▸ hend)
    rw [hint] at h'
    exact ⟨m', hstep.steps, h'⟩

/-- What is typed without a pause, up to a place in its line. -/
theorem typing_line (h : Typing m held (words line ++ u) L)
    (hline : ∀ b ∈ line, endsLine b = false) : ∃ m', Steps kmonitorStep m m' ∧
      Typing m' (run (BUFSIZE - 1) keyOf held (ints line)) u L := by
  induction line generalizing m held with
  | nil => exact ⟨m, .refl m, h⟩
  | cons b line ih =>
    obtain ⟨hb, hline⟩ := List.forall_mem_cons.mp hline
    obtain ⟨m₁, hsteps, h₁⟩ := Typing.char h hb
    obtain ⟨m', hsteps', h'⟩ := ih h₁ hline
    exact ⟨m', hsteps.trans hsteps', h'⟩

/-- Whatever the schedule is, only empty lines are passed if nothing else is left of any part of a
line. -/
theorem typing_erased (h : Typing m (typedLine (ints seg)) (q ++ u) L)
    (hseg : ∀ b ∈ seg, endsLine b = false) (herased : Erased (pre ++ seg ++ rest))
    (hq : Schedules rest q) : ∃ m' held, Steps kmonitorStep m m' ∧
      Typing m' held u (L ++ List.replicate (rest.countP endsLine) []) := by
  induction q generalizing pre seg rest m L with
  | nil =>
    obtain rfl : rest = [] := List.map_eq_nil_iff.mp (Eq.symm hq)
    refine ⟨m, typedLine (ints seg), .refl m, ?_⟩
    rw [List.countP_nil, List.replicate_zero, List.append_nil]
    exact h
  | cons x q ih =>
    have hnil : ∀ b ∈ ([] : List Byte), endsLine b = false := nofun
    by_cases hx : x = -1
    · subst hx
      have hq : Schedules rest q := hq
      obtain ⟨m₁, hstep, h₁⟩ := h.idle (by decide)
      have herased' : Erased (pre ++ seg ++ [] ++ rest) := by
        rw [List.append_nil]
        exact herased
      obtain ⟨m', held, hsteps, h'⟩ := ih h₁ hnil herased' hq
      exact ⟨m', held, hstep.steps.trans hsteps, h'⟩
    · have hcons : (x :: q).filter (· ≠ -1) = x :: q.filter (· ≠ -1) :=
        List.filter_cons_of_pos (decide_eq_true hx)
      rw [Schedules, hcons] at hq
      obtain ⟨b, rest, rfl, rfl, hrest⟩ := List.map_eq_cons_iff.mp hq.symm
      by_cases hb : endsLine b = true
      · have hline := herased pre seg b rest rfl hseg hb
        rw [hline] at h
        have hend : isEnd ((b.setWidth 64).setWidth 32) := by
          rw [setWidth_word]
          exact of_decide_eq_true hb
        obtain ⟨m₁, hsteps₁, h₁⟩ := Typing.line_nil h hend
        have herased' : Erased (pre ++ seg ++ [b] ++ [] ++ rest) := by
          rw [List.append_nil, List.append_assoc _ [b]]
          exact herased
        obtain ⟨m', held, hsteps, h'⟩ := ih h₁ hnil herased' hrest.symm
        refine ⟨m', held, hsteps₁.trans hsteps, ?_⟩
        rw [List.countP_cons_of_pos hb, List.replicate_succ]
        rw [List.append_assoc] at h'
        exact h'
      · have hb := Bool.eq_false_of_not_eq_true hb
        obtain ⟨m₁, hsteps₁, h₁⟩ := Typing.char h hb
        have hseg' : ∀ c ∈ seg ++ [b], endsLine c = false := by
          intro c hc
          rcases List.mem_append.mp hc with hc | hc
          · exact hseg c hc
          · rw [List.mem_singleton.mp hc]
            exact hb
        have hconcat : typedLine (ints (seg ++ [b])) =
            editLine (typedLine (ints seg)) (b.setWidth 32) := by
          rw [ints, List.map_append]
          exact typedLine_concat _ _
        rw [← hconcat] at h₁
        have herased' : Erased (pre ++ (seg ++ [b]) ++ rest) := by
          rw [← List.append_assoc, List.append_assoc _ [b]]
          exact herased
        obtain ⟨m', held, hsteps, h'⟩ := ih h₁ hseg' herased' hrest.symm
        refine ⟨m', held, hsteps₁.trans hsteps, ?_⟩
        rw [List.countP_cons_of_neg (Bool.not_eq_true _ ▸ hb)]
        exact h'

/-! ## The property -/

/-- The same sequence of lines is passed. -/
def SameLines (frame : List Output) (buf : List Byte) (polls polls' : List (BitVec 64)) : Prop :=
  ∀ L, Passes (kmonitorInit frame buf polls) L ↔ Passes (kmonitorInit frame buf polls') L

theorem erased_nil : Erased [] := by
  intro pre line e rest h
  exact absurd h (by simp)

theorem Erased.left (h : Erased (typed ++ rest)) : Erased typed := by
  intro pre line e rest' heq
  exact h pre line e (rest' ++ rest) (by rw [heq, List.append_assoc, List.cons_append])

theorem passes_erased {frame : List Output} {buf : List Byte} (hbuf : buf.length = BUFSIZE)
    (herased : Erased typed) (hq : Schedules typed polls) :
    Passes (kmonitorInit frame buf polls) L ↔ L <+: List.replicate (typed.countP endsLine) [] := by
  have hinit := typing_kmonitorInit hbuf frame polls
  have hnil : ∀ b ∈ ([] : List Byte), endsLine b = false := nofun
  rw [← List.append_nil polls] at hinit ⊢
  obtain ⟨m, held, hsteps, h⟩ := @typing_erased [] [] _ _ _ _ _ hinit hnil herased hq
  rw [passes_iff_of_exit hsteps h.exit rfl, h.lines_eq, List.nil_append]

/-- The first completed line of which something is left. -/
theorem exists_first (h : ¬ Erased typed) : ∃ pre line e rest, typed = pre ++ line ++ e :: rest ∧
    (∀ b ∈ line, endsLine b = false) ∧ endsLine e = true ∧ typedLine (ints line) ≠ [] ∧
    Erased (pre ++ line) := by
  induction typed using List.reverseRecOn with
  | nil => exact absurd erased_nil h
  | append_singleton t b ih =>
    by_cases ht : Erased t
    · simp only [Erased, not_forall] at h
      obtain ⟨pre, line, e, rest, heq, hline, he, hleft⟩ := h
      refine ⟨pre, line, e, rest, heq, hline, he, hleft, ?_⟩
      rcases List.eq_nil_or_concat rest with rfl | ⟨rest, b', rfl⟩
      · rw [← (List.append_inj' heq rfl).1]
        exact ht
      · rw [List.concat_eq_append, ← List.cons_append, ← List.append_assoc] at heq
        have hpart := (List.append_inj' heq rfl).1
        exact absurd (ht pre line e rest hpart hline he) hleft
    · obtain ⟨pre, line, e, rest, heq, hline, he, hleft, herased⟩ := ih ht
      refine ⟨pre, line, e, rest ++ [b], ?_, hline, he, hleft, herased⟩
      rw [heq, List.append_assoc, List.cons_append]

theorem stringOf_append {s : List Byte} (hs : ∀ c ∈ s, c ≠ 0) (tail : List Byte) :
    stringOf (s ++ 0 :: tail) = s := by
  have hkeep : ∀ c ∈ s, decide (c ≠ 0) = true := fun c hc => decide_eq_true (hs c hc)
  rw [stringOf, List.takeWhile_append_of_pos hkeep,
    List.takeWhile_cons_of_neg (by decide), List.append_nil]

theorem ints_lt (l : List Byte) : ∀ c ∈ ints l, c.toNat < 256 := by
  intro c hc
  obtain ⟨b, -, rfl⟩ := List.mem_map.mp hc
  have hlt := b.isLt
  rw [BitVec.toNat_setWidth]
  omega

/-- An idle poll behind lines that are empty, whatever has been typed of the next line. -/
theorem typing_idle {buf : List Byte} (hbuf : buf.length = BUFSIZE) (herased : Erased typed)
    (frame : List Output) (u : List (BitVec 64)) :
    ∃ m, Steps kmonitorStep (kmonitorInit frame buf (words typed ++ (-1 :: u))) m ∧
      Typing m [] u (List.replicate (typed.countP endsLine) []) := by
  have hnil : ∀ b ∈ ([] : List Byte), endsLine b = false := nofun
  have hinit := typing_kmonitorInit hbuf frame (words typed ++ (-1 :: u))
  obtain ⟨m₁, held, hsteps₁, h₁⟩ :=
    @typing_erased [] [] _ _ _ _ _ hinit hnil herased (schedules_words typed)
  obtain ⟨m₂, hstep₂, h₂⟩ := h₁.idle (by decide)
  exact ⟨m₂, hsteps₁.trans hstep₂.steps, h₂⟩

/-- Two schedules that differ in one idle poll before or behind the first such line. -/
theorem exists_not_sameLines {buf : List Byte} (hbuf : buf.length = BUFSIZE) (h : ¬ Erased typed)
    (frame : List Output) : ∃ polls polls', Schedules typed polls ∧ Schedules typed polls' ∧
      ¬ SameLines frame buf polls polls' := by
  obtain ⟨pre, line, e, rest, rfl, hline, he, hleft, herased⟩ := exists_first h
  have hend : isEnd ((e.setWidth 64).setWidth 32) := by
    rw [setWidth_word]
    exact of_decide_eq_true he
  have hsched : Schedules (pre ++ line ++ e :: rest)
      (words pre ++ (-1 :: (words line ++ words (e :: rest)))) := by
    have hall := (schedules_words pre).append
      (schedules_idle.append ((schedules_words line).append (schedules_words (e :: rest))))
    rw [List.nil_append, ← List.append_assoc] at hall
    exact hall
  have hsched' : Schedules (pre ++ line ++ e :: rest)
      (words (pre ++ line) ++ (-1 :: words (e :: rest))) := by
    have hall := (schedules_words (pre ++ line)).append
      (schedules_idle.append (schedules_words (e :: rest)))
    rw [List.nil_append] at hall
    exact hall
  refine ⟨_, _, hsched, hsched', ?_⟩
  intro hsame
  -- with the idle poll in front of it, the line is passed
  obtain ⟨s, hs, hpassed⟩ : ∃ s, s ≠ [] ∧ Passes (kmonitorInit frame buf
      (words pre ++ (-1 :: (words line ++ words (e :: rest)))))
        (List.replicate (pre.countP endsLine) [] ++ [s]) := by
    obtain ⟨m₁, hsteps₁, h₁⟩ := typing_idle hbuf herased.left frame
      (words line ++ words (e :: rest))
    obtain ⟨m₂, hsteps₂, h₂⟩ := typing_line h₁ hline
    obtain ⟨buf', out, tail, hstep, -, hbuf'⟩ := Typing.line h₂ hend
    refine ⟨stored (typedLine (ints line)), ?_, _, (hsteps₁.trans hsteps₂).trans hstep.steps, ?_⟩
    · exact fun hnil => hleft (List.map_eq_nil_iff.mp hnil)
    · have hstring := stringOf_append (stored_typedLine_ne_zero (ints_lt line)) tail
      rw [hbuf']
      exact congrArg (fun s => List.replicate (pre.countP endsLine) [] ++ [s]) hstring
  -- with the idle poll behind it, an empty line is passed in its place
  have hempty : Passes (kmonitorInit frame buf (words (pre ++ line) ++ (-1 :: words (e :: rest))))
      (List.replicate (pre.countP endsLine) [] ++ [[]]) := by
    have hnone : line.countP endsLine = 0 :=
      List.countP_eq_zero.mpr fun b hb => Bool.not_eq_true _ ▸ hline b hb
    have hcount : (pre ++ line).countP endsLine = pre.countP endsLine := by
      rw [List.countP_append, hnone, Nat.add_zero]
    obtain ⟨m₁, hsteps₁, h₁⟩ := typing_idle hbuf herased frame (words (e :: rest))
    obtain ⟨m₂, hsteps₂, h₂⟩ := Typing.line_nil h₁ hend
    rw [hcount] at h₂
    exact ⟨m₂, hsteps₁.trans hsteps₂, h₂.lines_eq⟩
  have heq := hpassed.eq_of_length ((hsame _).mpr hempty) (by simp)
  exact hs (List.cons.inj (List.append_cancel_left heq)).1

/-- The lines do not depend on the schedule exactly if nothing but empty lines can be passed. -/
theorem same_lines_iff {buf : List Byte} (hbuf : buf.length = BUFSIZE) (typed : List Byte)
    (frame : List Output) : (∀ polls polls', Schedules typed polls → Schedules typed polls' →
      SameLines frame buf polls polls') ↔ Erased typed := by
  constructor
  · intro h
    by_contra hnot
    obtain ⟨polls, polls', hq, hq', hdiffer⟩ := exists_not_sameLines hbuf hnot frame
    exact hdiffer (h polls polls' hq hq')
  · intro herased polls polls' hq hq' L
    rw [passes_erased hbuf herased hq, passes_erased hbuf herased hq']

theorem erased_line {line : List Byte} {e : Byte} (hopen : ∀ b ∈ line, endsLine b = false)
    (hleft : ∀ seg ∈ line.tails, typedLine (ints seg) = []) : Erased (line ++ [e]) := by
  intro pre seg e' rest heq _ he'
  rcases List.eq_nil_or_concat rest with rfl | ⟨rest, b, rfl⟩
  · obtain ⟨rfl, -⟩ := List.append_inj' heq rfl
    exact hleft seg ((List.mem_tails _ _).mpr ⟨pre, rfl⟩)
  · rw [List.concat_eq_append, ← List.cons_append, ← List.append_assoc] at heq
    obtain ⟨rfl, -⟩ := List.append_inj' heq rfl
    rw [hopen e' (List.mem_append_right _ List.mem_cons_self)] at he'
    exact nomatch he'

end

/-- An "a" that is erased again, with an idle poll behind it and without one. -/
theorem same_lines_iff_erased_line : SameLines [] (List.replicate BUFSIZE 0)
    (words [ch 'a'] ++ (-1 :: words [8, ch '\n'])) (words [ch 'a', 8, ch '\n']) := by
  have hbuf : (List.replicate BUFSIZE (0 : Byte)).length = BUFSIZE := List.length_replicate
  have herased : Erased ([ch 'a', 8] ++ [ch '\n']) := erased_line (by decide) (by decide)
  exact (same_lines_iff hbuf _ []).mpr herased _ _
    ((schedules_words [ch 'a']).append (schedules_idle.append (schedules_words [8, ch '\n'])))
    (schedules_words [ch 'a', 8, ch '\n'])

/-- Two schedules of the line "a". -/
theorem same_lines_idle : ¬ ∀ (typed : List Byte) (frame : List Output) (buf : List Byte)
    (polls polls' : List (BitVec 64)), buf.length = BUFSIZE → Schedules typed polls →
    Schedules typed polls' → SameLines frame buf polls polls' := by
  intro h
  have hbuf : (List.replicate BUFSIZE (0 : Byte)).length = BUFSIZE := List.length_replicate
  have hline : ¬ Erased [ch 'a', ch '\n'] := by
    intro herased
    have hnil := herased [] [ch 'a'] (ch '\n') [] rfl (by decide) (by decide)
    exact absurd hnil (by decide)
  obtain ⟨polls, polls', hq, hq', hdiffer⟩ := exists_not_sameLines hbuf hline []
  exact hdiffer (h _ [] _ polls polls' hbuf hq hq')

end CertiCore
