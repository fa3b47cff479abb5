import CertiCore.Debug.Kmonitor
import CertiCore.Libs.Proofs.StringProofs
import CertiCore.Program.Proofs.LoopProofs
import CertiCore.Text.Words

/-!
# Proofs: the command line of the kernel monitor

`parse` splits a line into its words, and writes one pointer for each of them: it is safe exactly
on the lines that have no more words than `argv` has elements.
-/

namespace CertiCore

open Loop Text

/-- The characters of `WHITESPACE`. -/
def isSpace (c : Byte) : Bool := c == ch ' ' || c == ch '\t' || c == ch '\n' || c == ch '\r'

/-- What `parse` makes of a character. -/
def blank (c : Byte) : Byte := if isSpace c then 0 else c

/-- At the index `p` of the array begins the string `w`. -/
def StringAt (mem : List Byte) (p : ℕ) (w : List Byte) : Prop :=
  (∀ c ∈ w, c ≠ 0) ∧ w ++ [0] <+: mem.drop p

theorem strchr_WHITESPACE (c : Byte) :
    ∃ r, strchr WHITESPACE c = .ok r ∧ (r = none ↔ isSpace c = false) := by
  have hnul : ∀ u ∈ [ch ' ', ch '\t', ch '\n', ch '\r'], u ≠ 0 := by decide
  obtain ⟨r, hr, hiff⟩ := strchr_eq_none_iff hnul [] c
  refine ⟨r, hr, hiff.trans ?_⟩
  simp [isSpace, and_assoc]

/-! ## The iterations of `parse` -/

/-- `parse`, after it has loaded the character `c`. -/
theorem parseStep_eq {s : ParseState} {c : Byte} (h : loadByte s.mem s.buf = .ok c) :
    parseStep s =
      if s.scanning then
        if c ≠ 0 ∧ isSpace c = false then .ok (.inl { s with buf := s.buf + 1 })
        else .ok (.inl { s with scanning := false })
      else if c ≠ 0 ∧ isSpace c = true then
        (storeByte s.mem s.buf 0).map fun mem => .inl { s with mem, buf := s.buf + 1 }
      else if c = 0 then .ok (.inr s)
      else
        (storeArg s.argv s.argc s.buf).map fun argv =>
          .inl { s with
            argv
            argc := s.argc + 1
            scanning := true
            log := if s.argc = MAXARGS - 1 then
              s.log ++ [.cprintf "Too many arguments (max %d).\n" [BitVec.ofNat 64 MAXARGS]]
              else s.log } := by
  obtain ⟨r, hr, hiff⟩ := strchr_WHITESPACE c
  have hsome : r ≠ none ↔ isSpace c = true := by
    rw [Ne, hiff, Bool.not_eq_false]
  unfold parseStep
  simp only [h, hr, hiff, hsome, bind, Except.bind, pure, Except.pure]
  cases storeByte s.mem s.buf 0 <;> cases storeArg s.argv s.argc s.buf <;> rfl

section Steps

variable {a b : List Byte} {c : Byte} {argc : ℕ} {argv : Fin MAXARGS → Option ℕ} {log : List Event}

theorem isSpace_zero : isSpace 0 = false := rfl

theorem ne_zero_of_isSpace (hc : isSpace c = true) : c ≠ 0 := by
  rintro rfl
  exact nomatch isSpace_zero.symm.trans hc

/-- The loop that skips whitespace erases one character. -/
theorem parseStep_space (hc : isSpace c = true) :
    Step parseStep ⟨a ++ c :: b, a.length, argc, argv, false, log⟩
      ⟨a ++ [0] ++ b, (a ++ [0]).length, argc, argv, false, log⟩ := by
  unfold Step
  rw [parseStep_eq (loadByte_append a c b), if_neg Bool.false_ne_true,
    if_pos ⟨ne_zero_of_isSpace hc, hc⟩, storeByte_append, List.append_assoc, List.length_append]
  rfl

/-- The loop that scans a word passes one character. -/
theorem parseStep_scan (hnul : c ≠ 0) (hc : isSpace c = false) :
    Step parseStep ⟨a ++ c :: b, a.length, argc, argv, true, log⟩
      ⟨a ++ [c] ++ b, (a ++ [c]).length, argc, argv, true, log⟩ := by
  unfold Step
  rw [parseStep_eq (loadByte_append a c b), if_pos rfl, if_pos ⟨hnul, hc⟩, List.append_assoc,
    List.length_append]
  rfl

/-- It ends at whitespace and at the end of the line. -/
theorem parseStep_scan_end (hc : c = 0 ∨ isSpace c = true) :
    Step parseStep ⟨a ++ c :: b, a.length, argc, argv, true, log⟩
      ⟨a ++ c :: b, a.length, argc, argv, false, log⟩ := by
  have hend : ¬ (c ≠ 0 ∧ isSpace c = false) := by
    rintro ⟨hnul, hword⟩
    rcases hc with h | h
    · exact hnul h
    · exact nomatch hword.symm.trans h
  unfold Step
  rw [parseStep_eq (loadByte_append a c b), if_pos rfl, if_neg hend]

theorem parseExit : Exit parseStep ⟨a ++ 0 :: b, a.length, argc, argv, false, log⟩
    (.ok ⟨a ++ 0 :: b, a.length, argc, argv, false, log⟩) := by
  unfold Exit
  rw [parseStep_eq (loadByte_append a 0 b), if_neg Bool.false_ne_true, if_neg fun h => h.1 rfl,
    if_pos rfl]
  rfl

/-- A word begins while `argv` has a free element. -/
theorem parseStep_word (argv : Fin MAXARGS → Option ℕ) (log : List Event) (hnul : c ≠ 0)
    (hc : isSpace c = false) (hargc : argc < MAXARGS) :
    ∃ log', Step parseStep ⟨a ++ c :: b, a.length, argc, argv, false, log⟩
      ⟨a ++ c :: b, a.length, argc + 1, Function.update argv ⟨argc, hargc⟩ (some a.length), true,
        log'⟩ := by
  have hspace : ¬ (c ≠ 0 ∧ isSpace c = true) := fun h => nomatch hc.symm.trans h.2
  unfold Step
  rw [parseStep_eq (loadByte_append a c b), if_neg Bool.false_ne_true, if_neg hspace, if_neg hnul,
    storeArg, dif_pos hargc]
  exact ⟨_, rfl⟩

/-- A word begins and `argv` is full: the message does not keep the code from storing. -/
theorem parseExit_full (hnul : c ≠ 0) (hc : isSpace c = false) :
    Exit parseStep ⟨a ++ c :: b, a.length, MAXARGS, argv, false, log⟩
      (.error (.outOfBounds MAXARGS)) := by
  have hspace : ¬ (c ≠ 0 ∧ isSpace c = true) := fun h => nomatch hc.symm.trans h.2
  unfold Exit
  rw [parseStep_eq (loadByte_append a c b), if_neg Bool.false_ne_true, if_neg hspace, if_neg hnul,
    storeArg, dif_neg (Nat.lt_irrefl _)]
  rfl

/-- The loop over a whole word. -/
theorem parse_scan (w : List Byte) (hnul : ∀ c ∈ w, c ≠ 0) (hw : ∀ c ∈ w, isSpace c = false)
    (hc : c = 0 ∨ isSpace c = true) :
    Steps parseStep ⟨a ++ (w ++ c :: b), a.length, argc, argv, true, log⟩
      ⟨a ++ w ++ c :: b, (a ++ w).length, argc, argv, false, log⟩ := by
  induction w generalizing a with
  | nil =>
    rw [List.append_nil]
    exact (parseStep_scan_end hc).steps
  | cons u w ih =>
    have happ : a ++ u :: w = a ++ [u] ++ w := (List.append_assoc a [u] w).symm
    have hrest := ih (a := a ++ [u]) (fun v hv => hnul v (List.mem_cons_of_mem u hv))
      fun v hv => hw v (List.mem_cons_of_mem u hv)
    rw [happ]
    exact (parseStep_scan (hnul u List.mem_cons_self) (hw u List.mem_cons_self)).steps.trans hrest

/-- From the beginning of a word to its end: the word gets a pointer. -/
theorem parse_word {w r : List Byte} (a : List Byte) (argv : Fin MAXARGS → Option ℕ)
    (log : List Event) (h : FirstWord isSpace w r) (hnul : ∀ c ∈ w, c ≠ 0)
    (hargc : argc < MAXARGS) :
    ∃ log', Steps parseStep ⟨a ++ (w ++ r ++ [0]), a.length, argc, argv, false, log⟩
      ⟨a ++ w ++ (r ++ [0]), (a ++ w).length, argc + 1,
        Function.update argv ⟨argc, hargc⟩ (some a.length), false, log'⟩ := by
  have hend : ∃ c b, r ++ [0] = c :: b ∧ (c = 0 ∨ isSpace c = true) := by
    cases r with
    | nil => exact ⟨0, [], rfl, Or.inl rfl⟩
    | cons c r => exact ⟨c, r ++ [0], rfl, Or.inr (h.head_sep c r rfl)⟩
  obtain ⟨c, b, hcb, hc⟩ := hend
  rw [List.append_assoc w, hcb]
  rcases w with _ | ⟨u, w⟩
  · exact absurd rfl h.ne_nil
  · obtain ⟨log', hbegin⟩ := parseStep_word (a := a) (b := w ++ c :: b) argv log
      (hnul u List.mem_cons_self) (h.not_sep u List.mem_cons_self) hargc
    exact ⟨log', hbegin.steps.trans (parse_scan (u :: w) hnul h.not_sep hc)⟩

/-- The beginning of a word for which there is no room. -/
theorem parse_word_full {w r : List Byte} (h : FirstWord isSpace w r) (hnul : ∀ c ∈ w, c ≠ 0) :
    Ends parseStep ⟨a ++ (w ++ r ++ [0]), a.length, MAXARGS, argv, false, log⟩
      (.error (.outOfBounds MAXARGS)) := by
  rcases w with _ | ⟨u, w⟩
  · exact absurd rfl h.ne_nil
  · exact (parseExit_full (hnul u List.mem_cons_self) (h.not_sep u List.mem_cons_self)).ends

end Steps

/-! ## The result of `parse` -/

/-- What `parse` adds to `argc`, to `argv` and to the array when it has worked off `rest`. -/
structure Parsed (a rest : List Byte) (argc : ℕ) (argv : Fin MAXARGS → Option ℕ) (s : ParseState) :
    Prop where
  argc_eq : s.argc = argc + (Text.words isSpace rest).length
  mem_eq : s.mem = a ++ (rest.map blank ++ [0])
  /-- The arguments that were stored before are still there. -/
  kept : ∀ i : Fin MAXARGS, i < argc → s.argv i = argv i
  /-- The further ones point to the words. -/
  stored : ∀ j w, (Text.words isSpace rest)[j]? = some w →
    ∃ h p, s.argv ⟨argc + j, h⟩ = some p ∧ StringAt s.mem p w

section Parsed

variable {a r w : List Byte} {c : Byte} {argc : ℕ} {argv : Fin MAXARGS → Option ℕ} {s : ParseState}

theorem Parsed.space (h : Parsed (a ++ [0]) r argc argv s) (hc : isSpace c = true) :
    Parsed a (c :: r) argc argv s := by
  refine ⟨?_, ?_, h.kept, ?_⟩
  · rw [h.argc_eq, words_cons_of_sep hc]
  · rw [h.mem_eq, List.map_cons, blank, if_pos hc, List.append_assoc]
    rfl
  · rw [words_cons_of_sep hc]
    exact h.stored

theorem map_blank_word (hw : ∀ c ∈ w, isSpace c = false) : w.map blank = w := by
  have hblank : ∀ c ∈ w, blank c = c := by
    intro c hc
    rw [blank, hw c hc]
    rfl
  rw [List.map_congr_left hblank, List.map_id']

/-- What follows a word begins, in the array at the end, with a NUL. -/
theorem head_blank (h : FirstWord isSpace w r) : ∃ x, r.map blank ++ [0] = 0 :: x := by
  cases r with
  | nil => exact ⟨[], rfl⟩
  | cons c r =>
    have hc : blank c = 0 := by
      rw [blank, h.head_sep c r rfl]
      rfl
    exact ⟨r.map blank ++ [0], by rw [List.map_cons, hc, List.cons_append]⟩

theorem Parsed.word (hw : FirstWord isSpace w r) (hnul : ∀ c ∈ w, c ≠ 0) (hargc : argc < MAXARGS)
    (h : Parsed (a ++ w) r (argc + 1) (Function.update argv ⟨argc, hargc⟩ (some a.length)) s) :
    Parsed a (w ++ r) argc argv s := by
  have hmem : s.mem = a ++ (w ++ (r.map blank ++ [0])) := by
    rw [h.mem_eq, List.append_assoc]
  refine ⟨?_, ?_, fun i hi => ?_, fun j v hj => ?_⟩
  · rw [h.argc_eq, hw.words_append, List.length_cons]
    omega
  · rw [hmem, List.map_append, map_blank_word hw.not_sep, List.append_assoc]
  · rw [h.kept i (Nat.lt_succ_of_lt hi), Function.update_of_ne]
    rintro rfl
    exact absurd hi (Nat.lt_irrefl _)
  · rw [hw.words_append] at hj
    rcases j with _ | j
    · -- the word itself
      obtain rfl : w = v := Option.some.inj hj
      refine ⟨hargc, a.length, ?_, hnul, ?_⟩
      · have hkept := h.kept ⟨argc, hargc⟩ (Nat.lt_succ_self argc)
        rw [Function.update_self] at hkept
        exact hkept
      · obtain ⟨x, hx⟩ := head_blank hw
        rw [hmem, hx, List.drop_left]
        exact ⟨x, by simp⟩
    · obtain ⟨hlt, p, hp, hstr⟩ := h.stored j v hj
      have hidx : argc + 1 + j = argc + (j + 1) := by omega
      simp only [hidx] at hlt hp
      exact ⟨hlt, p, hp, hstr⟩

end Parsed

/-- From any point at which `parse` looks for the next word, with `rest` before it: either all words
of `rest` find room in `argv`, or `parse` stores behind its end. -/
theorem parse_rest (rest a : List Byte) (hnul : ∀ c ∈ rest, c ≠ 0) {argc : ℕ}
    (hargc : argc ≤ MAXARGS) (argv : Fin MAXARGS → Option ℕ) (log : List Event) :
    (argc + (Text.words isSpace rest).length ≤ MAXARGS → ∃ s', Parsed a rest argc argv s' ∧
      Ends parseStep ⟨a ++ (rest ++ [0]), a.length, argc, argv, false, log⟩ (.ok s')) ∧
    (MAXARGS < argc + (Text.words isSpace rest).length →
      Ends parseStep ⟨a ++ (rest ++ [0]), a.length, argc, argv, false, log⟩
        (.error (.outOfBounds MAXARGS))) := by
  induction hn : rest.length using Nat.strong_induction_on generalizing rest a argc argv log with
  | h n ih =>
    subst hn
    rcases words_cases isSpace rest with rfl | ⟨c, r, hc, rfl⟩ | ⟨w, r, hw, rfl⟩
    · refine ⟨fun _ => ⟨_, ⟨rfl, rfl, fun i _ => rfl, fun j w hj => ?_⟩, parseExit.ends⟩,
        fun h => ?_⟩
      · exact nomatch hj
      · exact absurd h (Nat.not_lt.mpr hargc)
    · have hstep : Step parseStep ⟨a ++ c :: (r ++ [0]), a.length, argc, argv, false, log⟩
          ⟨a ++ [0] ++ (r ++ [0]), (a ++ [0]).length, argc, argv, false, log⟩ :=
        parseStep_space hc
      obtain ⟨hfew, hmany⟩ := ih r.length (Nat.lt_succ_self _) r (a ++ [0])
        (fun v hv => hnul v (List.mem_cons_of_mem c hv)) hargc argv log rfl
      rw [words_cons_of_sep hc]
      refine ⟨fun h => ?_, fun h => (hmany h).of_step hstep⟩
      obtain ⟨s', hs', hends⟩ := hfew h
      exact ⟨s', hs'.space hc, hends.of_step hstep⟩
    · have hnulw : ∀ v ∈ w, v ≠ 0 := fun v hv => hnul v (List.mem_append_left r hv)
      have hlen : r.length < (w ++ r).length := by
        have := List.length_pos_of_ne_nil hw.ne_nil
        rw [List.length_append]
        omega
      rw [hw.words_append, List.length_cons]
      rcases hargc.lt_or_eq with hlt | rfl
      · obtain ⟨log', hsteps⟩ := parse_word a argv log hw hnulw hlt
        obtain ⟨hfew, hmany⟩ := ih r.length hlen r (a ++ w)
          (fun v hv => hnul v (List.mem_append_right w hv)) hlt
          (Function.update argv ⟨argc, hlt⟩ (some a.length)) log' rfl
        refine ⟨fun h => ?_, fun h => (hmany (by omega)).of_steps hsteps⟩
        obtain ⟨s', hs', hends⟩ := hfew (by omega)
        exact ⟨s', hs'.word hw hnulw hlt, hends.of_steps hsteps⟩
      · exact ⟨fun h => by omega, fun _ => parse_word_full hw hnulw⟩

/-! ## `runcmd` -/

theorem lookup_eq {w : List Byte} (hw : ∀ c ∈ w, c ≠ 0) (x : List Byte) (cmds : List Command)
    (hnames : ∀ cmd ∈ cmds, ∃ n, (∀ c ∈ n, c ≠ 0) ∧ cmd.name = n ++ [0]) :
    lookup (w ++ 0 :: x) cmds =
      .ok ((cmds.find? fun cmd => cmd.name = w ++ [0]).map Command.func) := by
  induction cmds with
  | nil => rfl
  | cons cmd cmds ih =>
    obtain ⟨n, hn, hname⟩ := hnames cmd List.mem_cons_self
    obtain ⟨r, hr, hiff⟩ := strcmp_eq_zero_iff hn hw [] x
    have hrest := ih fun cmd' hcmd' => hnames cmd' (List.mem_cons_of_mem cmd hcmd')
    have heq : cmd.name = w ++ [0] ↔ r = 0 := by
      rw [hname, hiff, List.append_left_inj]
    unfold lookup
    rw [hname, hr]
    by_cases h0 : r = 0
    · rw [List.find?_cons_of_pos (by simpa using heq.mpr h0)]
      simp only [h0, if_true, bind, Except.bind, pure, Except.pure, Option.map_some]
    · rw [List.find?_cons_of_neg (by simpa using mt heq.mp h0)]
      simp only [if_neg h0, bind, Except.bind]
      exact hrest

theorem mem_commands {cmd : Command} : cmd ∈ commands ↔
    cmd = ⟨cstr "help", cstr "Display this list of commands.", .mon_help⟩ ∨
    cmd = ⟨cstr "kerninfo", cstr "Display information about the kernel.", .mon_kerninfo⟩ ∨
    cmd = ⟨cstr "backtrace", cstr "Print backtrace of stack frame.", .mon_backtrace⟩ := by
  simp [commands]

theorem commands_names :
    ∀ cmd ∈ commands, ∃ n, (∀ c ∈ n, c ≠ 0) ∧ cmd.name = n ++ [0] := by
  intro cmd hcmd
  rcases mem_commands.mp hcmd with rfl | rfl | rfl
  · exact ⟨bytes "help", ne_zero_of_mem_bytes (by decide), rfl⟩
  · exact ⟨bytes "kerninfo", ne_zero_of_mem_bytes (by decide), rfl⟩
  · exact ⟨bytes "backtrace", ne_zero_of_mem_bytes (by decide), rfl⟩

/-- No two commands have the same name. -/
theorem commands_find {cmd : Command} (hcmd : cmd ∈ commands) :
    commands.find? (fun other => other.name = cmd.name) = some cmd := by
  rcases mem_commands.mp hcmd with rfl | rfl | rfl
  · rfl
  · rfl
  · rfl

/-- What `runcmd` does with the words of a line, of which `parse` has made the array `mem`. -/
def RunsWords (mem : List Byte) : List (List Byte) → CmdResult → Prop
  | [], res => ∃ log, res = .done log
  | w :: ws, res =>
    (∀ cmd ∈ commands, cmd.name = w ++ [0] →
      ∃ argv log, res = .call cmd.func ws.length argv mem log ∧
        ∀ j v, ws[j]? = some v → ∃ p, argv j = some p ∧ StringAt mem p v) ∧
    ((∀ cmd ∈ commands, cmd.name ≠ w ++ [0]) →
      ∃ log p, StringAt mem p w ∧
        res = .done (log ++ [.cprintf "Unknown command '%s'\n" [BitVec.ofNat 64 p]]))

theorem dispatch_parsed {line : List Byte} {s : ParseState}
    (h : Parsed [] line 0 (fun _ => none) s) :
    ∃ res, dispatch s = .ok res ∧ RunsWords s.mem (Text.words isSpace line) res := by
  have hargc := h.argc_eq
  rw [Nat.zero_add] at hargc
  rcases hwords : Text.words isSpace line with _ | ⟨w, ws⟩
  · rw [hwords] at hargc
    have h0 : s.argc = 0 := hargc
    refine ⟨.done s.log, ?_, s.log, rfl⟩
    unfold dispatch
    rw [if_pos h0]
    rfl
  · have hstored : ∀ j v, (w :: ws)[j]? = some v →
        ∃ hj p, s.argv ⟨j, hj⟩ = some p ∧ StringAt s.mem p v := by
      intro j v hj
      have hj' := h.stored j v (by rw [hwords]; exact hj)
      simpa only [Nat.zero_add] using hj'
    obtain ⟨h0, p, hp, hstr⟩ := hstored 0 w rfl
    obtain ⟨x, hx⟩ := hstr.2
    have hload : loadArg s.argv 0 = .ok p := by
      rw [loadArg, dif_pos h0, hp]
    have hlookup := lookup_eq hstr.1 x commands commands_names
    rw [hwords, List.length_cons] at hargc
    have hne : s.argc ≠ 0 := by omega
    have hlen : s.argc - 1 = ws.length := by omega
    unfold dispatch
    rw [if_neg hne]
    simp only [hload, bind, Except.bind, pure, Except.pure, ← hx, List.append_assoc,
      List.singleton_append, hlookup]
    cases hfind : commands.find? fun cmd => cmd.name = w ++ [0] with
    | none =>
      refine ⟨_, rfl, fun cmd hcmd hname => ?_, fun _ => ⟨s.log, p, hstr, rfl⟩⟩
      have hcmd' := commands_find hcmd
      rw [hname, hfind] at hcmd'
      exact nomatch hcmd'
    | some found =>
      refine ⟨_, rfl, fun cmd hcmd hname => ?_, fun hno => ?_⟩
      · have hcmd' := commands_find hcmd
        rw [hname, hfind] at hcmd'
        obtain rfl := Option.some.inj hcmd'
        rw [hlen]
        refine ⟨_, _, rfl, fun j v hj => ?_⟩
        obtain ⟨hlt, q, hq, hqstr⟩ := hstored (j + 1) v hj
        exact ⟨q, by rw [dif_pos hlt, hq], hqstr⟩
      · have hname := List.find?_some hfind
        exact absurd (by simpa using hname) (hno found (List.mem_of_find?_eq_some hfind))

/-! ## The properties -/

/-- `parse` keeps to its arrays and returns at most `MAXARGS` exactly on the lines with at most
`MAXARGS` words. -/
theorem parse_safe_iff {line : List Byte} (hnul : ∀ c ∈ line, c ≠ 0) :
    (∃ s', Ends parseStep (parseInit (line ++ [0])) (.ok s') ∧ s'.argc ≤ MAXARGS) ↔
      (Text.words isSpace line).length ≤ MAXARGS := by
  obtain ⟨hfew, hmany⟩ := parse_rest line [] hnul (Nat.zero_le _) (fun _ => none) []
  rw [Nat.zero_add] at hfew hmany
  constructor
  · rintro ⟨s', hends, -⟩
    by_contra hlt
    exact nomatch hends.unique (hmany (Nat.lt_of_not_le hlt))
  · intro hle
    obtain ⟨s', hs', hends⟩ := hfew hle
    refine ⟨s', hends, ?_⟩
    rw [hs'.argc_eq, Nat.zero_add]
    exact hle

/-- A line with two words. -/
theorem parse_safe_iff_two_words :
    ∃ s', Ends parseStep (parseInit (bytes " help  me " ++ [0])) (.ok s') ∧ s'.argc ≤ MAXARGS :=
  (@parse_safe_iff (bytes " help  me ") (ne_zero_of_mem_bytes (by decide))).mpr (by decide)

/-- Seventeen words: the last pointer is stored behind the end of `argv`. -/
theorem parse_overflows :
    ¬ ∀ line : List Byte, (∀ c ∈ line, c ≠ 0) →
      ∃ s', Ends parseStep (parseInit (line ++ [0])) (.ok s') ∧ s'.argc ≤ MAXARGS := by
  intro h
  have hnul : ∀ c ∈ bytes "a a a a a a a a a a a a a a a a a", c ≠ 0 :=
    ne_zero_of_mem_bytes (by decide)
  obtain ⟨s', hends, -⟩ := h (bytes "a a a a a a a a a a a a a a a a a") hnul
  have hover := (parse_rest (bytes "a a a a a a a a a a a a a a a a a") [] hnul (Nat.zero_le _)
    (fun _ => none) []).2 (by decide)
  exact nomatch hends.unique hover

/-- On a line of at most `MAXARGS` words, `parse` terminates and leaves a pointer to each of the
words, in order; it erases the whitespace and nothing else; and `runcmd` runs the command that the
first word names on the others. -/
theorem parse_words {line : List Byte} (hnul : ∀ c ∈ line, c ≠ 0)
    (hfew : (Text.words isSpace line).length ≤ MAXARGS) :
    (∃ s', Ends parseStep (parseInit (line ++ [0])) (.ok s') ∧
      s'.argc = (Text.words isSpace line).length ∧ s'.mem = line.map blank ++ [0] ∧
      ∀ j w, (Text.words isSpace line)[j]? = some w →
        ∃ h p, s'.argv ⟨j, h⟩ = some p ∧ StringAt s'.mem p w) ∧
    ∃ n, ∀ fuel ≥ n, ∃ res, runcmd fuel (line ++ [0]) = some (.ok res) ∧
      RunsWords (line.map blank ++ [0]) (Text.words isSpace line) res := by
  obtain ⟨hparse, -⟩ := parse_rest line [] hnul (Nat.zero_le _) (fun _ => none) []
  rw [Nat.zero_add] at hparse
  obtain ⟨s', hs', hends⟩ := hparse hfew
  have hmem : s'.mem = line.map blank ++ [0] := hs'.mem_eq
  constructor
  · refine ⟨s', hends, ?_, hmem, fun j w hj => ?_⟩
    · rw [hs'.argc_eq, Nat.zero_add]
    · simpa only [Nat.zero_add] using hs'.stored j w hj
  · obtain ⟨n, hn⟩ := hends.exists_run
    obtain ⟨res, hres, hruns⟩ := dispatch_parsed hs'
    refine ⟨n, fun fuel hfuel => ⟨res, ?_, hmem ▸ hruns⟩⟩
    have hrun : run parseStep fuel (parseInit (line ++ [0])) = some (.ok s') := hn fuel hfuel
    rw [runcmd, hrun]
    exact congrArg some hres

/-- The line of the first command, with whitespace of all kinds around its words. -/
theorem parse_words_help :
    ∃ n, ∀ fuel ≥ n, ∃ res, runcmd fuel (bytes "\t help \r me \n" ++ [0]) = some (.ok res) ∧
      RunsWords ((bytes "\t help \r me \n").map blank ++ [0]) [bytes "help", bytes "me"] res := by
  have hwords : Text.words isSpace (bytes "\t help \r me \n") = [bytes "help", bytes "me"] := by
    decide
  have hnul : ∀ c ∈ bytes "\t help \r me \n", c ≠ 0 := ne_zero_of_mem_bytes (by decide)
  have hrun := (@parse_words (bytes "\t help \r me \n") hnul (by rw [hwords]; decide)).2
  rw [hwords] at hrun
  exact hrun

end CertiCore
