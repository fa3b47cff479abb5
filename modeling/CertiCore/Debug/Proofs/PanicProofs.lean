import CertiCore.Debug.Panic
import CertiCore.Debug.Proofs.KmonitorProofs
import CertiCore.Debug.Proofs.MonitorProofs
import CertiCore.Hart.Proofs.SstatusProofs

/-!
# Proofs: the kernel after a panic

What is seen at the console, and that the monitor is all that runs.
-/

namespace CertiCore

open Loop Text

/-! ## `parse` on a longer array -/

/-- The array goes on behind its end. -/
def ParseState.extend (tail : List Byte) (s : ParseState) : ParseState :=
  { s with mem := s.mem ++ tail }

/-- A NUL ends the rest of the line, and the message about too many arguments has been printed if
there is no room for another one. -/
structure ParseOk (n : ℕ) (s : ParseState) : Prop where
  nul : 0 ∈ s.mem.drop s.buf
  length_eq : s.mem.length = n
  log_eq : s.log = if s.argc < MAXARGS then [] else
    [.cprintf "Too many arguments (max %d).\n" [BitVec.ofNat 64 MAXARGS]]

section Extend

variable {s s' : ParseState} {c : Byte} {n : ℕ} {tail : List Byte}

theorem ParseOk.exists_load (h : ParseOk n s) :
    ∃ c, s.mem.drop s.buf = c :: s.mem.drop (s.buf + 1) ∧ loadByte s.mem s.buf = .ok c ∧
      s.buf < s.mem.length := by
  have hlt : s.buf < s.mem.length := by
    by_contra hle
    have hnul := h.nul
    rw [List.drop_eq_nil_of_le (Nat.le_of_not_lt hle)] at hnul
    exact absurd hnul List.not_mem_nil
  exact ⟨s.mem[s.buf], List.drop_eq_getElem_cons hlt, dif_pos hlt, hlt⟩

theorem parseStep_extend (h : ParseOk n s) (tail : List Byte) :
    parseStep (s.extend tail) =
      (parseStep s).map (Sum.map (ParseState.extend tail) (ParseState.extend tail)) := by
  obtain ⟨c, -, hload, hlt⟩ := h.exists_load
  have hload' : loadByte (s.extend tail).mem (s.extend tail).buf = .ok c := by
    have hlt' : s.buf < (s.mem ++ tail).length := by
      rw [List.length_append]
      omega
    have hc : s.mem[s.buf] = c := Except.ok.inj ((dif_pos hlt).symm.trans hload)
    exact (dif_pos hlt').trans (congrArg Except.ok ((List.getElem_append_left hlt).trans hc))
  have hstore : storeByte s.mem s.buf 0 = .ok (s.mem.set s.buf 0) := if_pos hlt
  have hstore' : storeByte (s.extend tail).mem (s.extend tail).buf 0 =
      .ok (s.mem.set s.buf 0 ++ tail) := by
    have hlt' : s.buf < (s.mem ++ tail).length := by
      rw [List.length_append]
      omega
    exact (if_pos hlt').trans (congrArg Except.ok (List.set_append_left _ _ hlt))
  rw [parseStep_eq hload, parseStep_eq hload', hstore, hstore']
  show (if s.scanning then _ else _) = _
  split_ifs with hscan hword hspace hnul hlast hlast'
  · rfl
  · rfl
  · rfl
  · rfl
  · show (storeArg s.argv s.argc s.buf).map _ = _
    cases storeArg s.argv s.argc s.buf with
    | error x => rfl
    | ok argv => rfl
  · exact absurd hlast hlast'
  · exact absurd ‹s.argc = MAXARGS - 1› hlast
  · show (storeArg s.argv s.argc s.buf).map _ = _
    cases storeArg s.argv s.argc s.buf with
    | error x => rfl
    | ok argv => rfl

/-- A store to `argv` that succeeds. -/
theorem storeArg_map {argv : Fin MAXARGS → Option ℕ} {i p : ℕ}
    {f : (Fin MAXARGS → Option ℕ) → ParseState ⊕ ParseState} {r : ParseState ⊕ ParseState}
    (h : (storeArg argv i p).map f = .ok r) : i < MAXARGS ∧ ∃ argv', f argv' = r := by
  unfold storeArg at h
  split at h
  case isTrue hlt => exact ⟨hlt, _, Except.ok.inj h⟩
  case isFalse => exact nomatch h

theorem ParseOk.step (h : ParseOk n s) (hstep : Step parseStep s s') : ParseOk n s' := by
  obtain ⟨c, hdrop, hload, hlt⟩ := h.exists_load
  have hnext : c ≠ 0 → 0 ∈ s.mem.drop (s.buf + 1) := by
    intro hc
    have hnul := h.nul
    rw [hdrop] at hnul
    exact (List.mem_cons.mp hnul).resolve_left (Ne.symm hc)
  have hstore : storeByte s.mem s.buf 0 = .ok (s.mem.set s.buf 0) := if_pos hlt
  have heq := (parseStep_eq hload).symm.trans hstep
  rw [hstore] at heq
  split_ifs at heq with hscan hword hspace hnul hlast
  · obtain rfl := Sum.inl.inj (Except.ok.inj heq)
    exact ⟨hnext hword.1, h.length_eq, h.log_eq⟩
  · obtain rfl := Sum.inl.inj (Except.ok.inj heq)
    exact ⟨h.nul, h.length_eq, h.log_eq⟩
  · obtain rfl := Sum.inl.inj (Except.ok.inj heq)
    refine ⟨?_, (List.length_set ..).trans h.length_eq, h.log_eq⟩
    show 0 ∈ (s.mem.set s.buf 0).drop (s.buf + 1)
    rw [List.drop_set_of_lt (Nat.lt_succ_self _)]
    exact hnext hspace.1
  · exact nomatch heq
  · obtain ⟨-, argv, hargv⟩ := storeArg_map heq
    obtain rfl := Sum.inl.inj hargv
    refine ⟨h.nul, h.length_eq, ?_⟩
    show s.log ++ _ = if s.argc + 1 < MAXARGS then _ else _
    rw [h.log_eq, hlast, if_pos (by decide), if_neg (by decide), List.nil_append]
  · obtain ⟨hlt', argv, hargv⟩ := storeArg_map heq
    obtain rfl := Sum.inl.inj hargv
    refine ⟨h.nul, h.length_eq, ?_⟩
    show s.log = if s.argc + 1 < MAXARGS then _ else _
    rw [h.log_eq, if_pos hlt', if_pos]
    unfold MAXARGS at hlt' hlast ⊢
    omega

theorem ParseOk.exit (h : ParseOk n s) (hexit : Exit parseStep s (.ok s')) : s' = s := by
  obtain ⟨c, -, hload, hlt⟩ := h.exists_load
  have hstore : storeByte s.mem s.buf 0 = .ok (s.mem.set s.buf 0) := if_pos hlt
  have heq := (parseStep_eq hload).symm.trans hexit
  rw [hstore] at heq
  split_ifs at heq
  · exact nomatch heq
  · exact nomatch heq
  · exact nomatch heq
  · exact (Sum.inr.inj (Except.ok.inj heq)).symm
  · obtain ⟨-, argv, hargv⟩ := storeArg_map heq
    exact nomatch hargv
  · obtain ⟨-, argv, hargv⟩ := storeArg_map heq
    exact nomatch hargv

end Extend

/-- `parse` on an array that holds the line `line` and anything behind its NUL. -/
theorem parse_extend {line : List Byte} (hnul : ∀ c ∈ line, c ≠ 0) (tail : List Byte) :
    ((Text.words isSpace line).length ≤ MAXARGS → ∃ s, Parsed [] line 0 (fun _ => none) s ∧
      ParseOk (line ++ 0 :: tail).length (s.extend tail) ∧
      Steps parseStep (parseInit (line ++ 0 :: tail)) (s.extend tail) ∧
      Exit parseStep (s.extend tail) (.ok (s.extend tail))) ∧
    (MAXARGS < (Text.words isSpace line).length →
      Ends parseStep (parseInit (line ++ 0 :: tail)) (.error (.outOfBounds MAXARGS))) := by
  have hok : ∀ tail, ParseOk (line ++ 0 :: tail).length (parseInit (line ++ 0 :: tail)) :=
    fun tail => ⟨List.mem_append_right line List.mem_cons_self, rfl, rfl⟩
  have hinit : (parseInit (line ++ [0])).extend tail = parseInit (line ++ 0 :: tail) := by
    rw [ParseState.extend, parseInit, List.append_assoc]
    rfl
  have hextend : ∀ {r}, Ends parseStep (parseInit (line ++ [0])) r →
      Ends parseStep (parseInit (line ++ 0 :: tail)) (r.map (ParseState.extend tail)) := by
    intro r h
    rw [← hinit]
    exact h.map (fun s hs => parseStep_extend hs tail) (fun s s' => ParseOk.step) (hok [])
  obtain ⟨hfew, hmany⟩ := parse_rest line [] hnul (Nat.zero_le _) (fun _ => none) []
  rw [Nat.zero_add] at hfew hmany
  refine ⟨fun h => ?_, fun h => hextend (hmany h)⟩
  obtain ⟨s, hs, hends⟩ := hfew h
  obtain ⟨s', hsteps, hexit⟩ := hextend hends
  have hok' := hsteps.invariant (fun s s' => ParseOk.step) (hok tail)
  obtain rfl := hok'.exit hexit
  exact ⟨s, hs, hok', hsteps, hexit⟩

theorem StringAt.extend {mem : List Byte} {i : ℕ} {w : List Byte} (h : StringAt mem i w)
    (tail : List Byte) : i < mem.length ∧ ∃ x, (mem ++ tail).drop i = w ++ 0 :: x := by
  obtain ⟨hnul, x, hx⟩ := h
  have hlt : i < mem.length := by
    by_contra hle
    rw [List.drop_eq_nil_of_le (Nat.le_of_not_lt hle), List.append_assoc] at hx
    exact absurd (List.append_eq_nil_iff.mp hx).2 (List.cons_ne_nil 0 x)
  refine ⟨hlt, x ++ tail, ?_⟩
  rw [List.drop_append_of_le_length (Nat.le_of_lt hlt), ← hx, List.append_assoc, List.append_assoc]
  rfl

/-- `runcmd`, after `parse` has worked off the line. -/
theorem dispatch_extend {line : List Byte} {s : ParseState}
    (h : Parsed [] line 0 (fun _ => none) s) (tail : List Byte) :
    (Text.words isSpace line = [] → dispatch (s.extend tail) = .ok (.done s.log)) ∧
    ∀ w ws, Text.words isSpace line = w :: ws → ∃ i argv, i < s.mem.length ∧
      stringOf ((s.extend tail).mem.drop i) = w ∧ dispatch (s.extend tail) =
        .ok (match commands.find? fun cmd => cmd.name = w ++ [0] with
          | none => .done (s.log ++ [.cprintf "Unknown command '%s'\n" [BitVec.ofNat 64 i]])
          | some cmd => .call cmd.func (s.argc - 1) argv (s.extend tail).mem s.log) := by
  have hargc := h.argc_eq
  rw [Nat.zero_add] at hargc
  refine ⟨fun hws => ?_, fun w ws hws => ?_⟩
  · rw [hws] at hargc
    exact if_pos hargc
  · obtain ⟨h0, i, hi, hstr⟩ := h.stored 0 w (by rw [hws]; rfl)
    obtain ⟨hlt, x, hx⟩ := hstr.extend tail
    have hi : (s.extend tail).argv ⟨0, h0⟩ = some i := hi
    have hload : loadArg (s.extend tail).argv 0 = .ok i := by
      rw [loadArg, dif_pos h0, hi]
    have hne : (s.extend tail).argc ≠ 0 := by
      rw [hws, List.length_cons] at hargc
      exact hargc ▸ Nat.succ_ne_zero _
    refine ⟨i, fun k => if h : k + 1 < MAXARGS then s.argv ⟨k + 1, h⟩ else none, hlt, ?_, ?_⟩
    · rw [show (s.extend tail).mem.drop i = _ from hx, stringOf_append hstr.1]
    · unfold dispatch
      rw [if_neg hne]
      simp only [hload, bind, Except.bind, pure, Except.pure]
      rw [show (s.extend tail).mem.drop i = _ from hx, lookup_eq hstr.1 x commands commands_names]
      cases commands.find? fun cmd => cmd.name = w ++ [0] with
      | none => rfl
      | some cmd => rfl

/-! ## What is seen at the console -/

/-- What the monitor prints for a command of the name `w`. -/
def reply (img : KerninfoSymbols) (w : List Byte) : List Output :=
  match commands.find? fun cmd => cmd.name = w ++ [0] with
  | none => [.cprintf (cstr "Unknown command '%s'\n") [.const (w ++ [0])]]
  | some ⟨_, _, .mon_help⟩ => commands.map fun cmd =>
    .cprintf (cstr "%s - %s\n") [.const cmd.name, .const cmd.desc]
  | some ⟨_, _, .mon_kerninfo⟩ => printKerninfo img
  | some ⟨_, _, .mon_backtrace⟩ => monitorBanner

/-- What it prints for a line with the words `ws`. -/
def answer (img : KerninfoSymbols) (ws : List (List Byte)) : List Output :=
  (if ws.length < MAXARGS then [] else
    [.cprintf (cstr "Too many arguments (max %d).\n") [.word (BitVec.ofNat 64 MAXARGS)]]) ++
  match ws with
  | [] => []
  | w :: _ => reply img w

/-- The prompt. -/
def promptK : Output := .cprintf (cstr "%s") [.const (cstr "K> ")]

/-- Someone sits at the console: the line that is being typed, the number of panics, and what has
been printed. -/
structure Dialog where
  held : List (BitVec 32)
  depth : ℕ
  out : List Output

/-- A panic begins a dialog. Only the first one prints its message. -/
def panicDialog (call : PanicCall) (c : Crash) (out : List Output) : Dialog :=
  ⟨[], c.depth + 1,
    out ++ (if c.is_panic then [] else call.message) ++ monitorBanner ++ [promptK]⟩

/-- A result of the firmware comes; `none` if the line has too many words. -/
def Dialog.input (img : KerninfoSymbols) (d : Dialog) (c : BitVec 32) : Option Dialog :=
  if c = 0 then some d
  else if c.slt 0 then some { d with held := [], out := d.out ++ [promptK] }
  else if isEnd c then
    let ws := Text.words isSpace (stringOf (stored d.held))
    if ws.length ≤ MAXARGS then
      some ⟨[], d.depth + if ws.head? = some (bytes "backtrace") then 1 else 0,
        d.out ++ [.cputchar c] ++ answer img ws ++ [promptK]⟩
    else none
  else
    let held := editLine d.held c
    some { d with held, out := d.out ++ if held = d.held then [] else [.cputchar c] }

/-- The results of the firmware come one after the other. -/
def Dialog.run (img : KerninfoSymbols) (d : Dialog) (polls : List (BitVec 64)) : Option Dialog :=
  polls.foldlM (fun d x => d.input img (x.setWidth 32)) d

/-! ## One line -/

section Line

variable {img : KerninfoSymbols} {s s' : Session} {p p' : ParseState} {d d' : Dialog}
  {u polls : List (BitVec 64)} {x : BitVec 64} {out : List Output} {r r' : ReadState}

/-- A string, followed by a NUL, in an array that may hold a NUL before. -/
theorem exists_stringOf (mem tail : List Byte) : (∀ c ∈ stringOf mem, c ≠ 0) ∧
    ∃ rest, mem ++ 0 :: tail = stringOf mem ++ 0 :: rest := by
  refine ⟨fun c hc => by simpa using List.mem_takeWhile_imp hc, ?_⟩
  have hsplit : stringOf mem ++ mem.dropWhile (· ≠ 0) = mem := List.takeWhile_append_dropWhile
  have hhead := List.head?_dropWhile_not (· ≠ 0) mem
  cases hdrop : mem.dropWhile (· ≠ 0) with
  | nil =>
    rw [hdrop, List.append_nil] at hsplit
    exact ⟨tail, by rw [hsplit]⟩
  | cons c rest =>
    rw [hdrop] at hsplit hhead
    have hc : c = 0 := by simpa using hhead
    refine ⟨rest ++ 0 :: tail, ?_⟩
    rw [hc] at hsplit
    rw [← List.cons_append, ← List.append_assoc, hsplit]

theorem Session.step_readline (hctl : s.ctl = .readline r) (hstep : Step readlineStep r r') :
    Step (panicStep img) s { s with ctl := .readline r' } :=
  monitorStep_edit hctl hstep

theorem Session.step_parse (s : Session) (hstep : Step parseStep p p') :
    Step (panicStep img) { s with ctl := .runcmd p polls out }
      { s with ctl := .runcmd p' polls out } :=
  monitorStep_parse rfl hstep

theorem Session.steps_parse (s : Session) (hsteps : Steps parseStep p p') :
    Steps (panicStep img) { s with ctl := .runcmd p polls out }
      { s with ctl := .runcmd p' polls out } := by
  induction hsteps with
  | refl => exact .refl _
  | tail _ hstep ih => exact ih.trans (s.step_parse hstep).steps

/-- `parse` leaves the array `argv`. -/
theorem Session.ends_parse (s : Session) {e : Halt} (h : Ends parseStep p (.error e)) :
    Ends (panicStep img) { s with ctl := .runcmd p polls out } (.error (.halt e)) := by
  obtain ⟨p', hsteps, hexit⟩ := h
  exact ⟨_, s.steps_parse hsteps, monitorStep_fault rfl hexit⟩

/-- Only the name of `backtrace` calls `mon_backtrace`. -/
theorem commands_backtrace {w : List Byte} :
    (∃ cmd, commands.find? (fun cmd => cmd.name = w ++ [0]) = some cmd ∧
      cmd.func = .mon_backtrace) ↔ w = bytes "backtrace" := by
  constructor
  · rintro ⟨cmd, hfind, hfunc⟩
    have hname : cmd.name = w ++ [0] := by simpa using List.find?_some hfind
    rcases mem_commands.mp (List.mem_of_find?_eq_some hfind) with rfl | rfl | rfl
    · exact nomatch hfunc
    · exact nomatch hfunc
    · exact (List.append_cancel_right hname).symm
  · rintro rfl
    exact ⟨_, rfl, rfl⟩

theorem ParseOk.output {ws : List (List Byte)} {n : ℕ} (h : ParseOk n p)
    (hargc : p.argc = ws.length) (mem : List Byte) :
    p.log.flatMap (Event.output mem) = if ws.length < MAXARGS then [] else
      [.cprintf (cstr "Too many arguments (max %d).\n") [.word (BitVec.ofNat 64 MAXARGS)]] := by
  rw [h.log_eq, hargc]
  split
  · rfl
  · simp [Event.output]

theorem output_unknown {mem : List Byte} {i : ℕ} (hi : i < 2 ^ 64) :
    Event.output mem (.cprintf "Unknown command '%s'\n" [BitVec.ofNat 64 i]) =
      [.cprintf (cstr "Unknown command '%s'\n") [.const (stringOf (mem.drop i) ++ [0])]] := by
  simp only [Event.output, BitVec.toNat_ofNat, Nat.mod_eq_of_lt hi]

/-- After an answer, the monitor waits for the next line. -/
structure Answered (s s' : Session) (buf : List Byte) (polls : List (BitVec 64))
    (out : List Output) (ws : List (List Byte)) : Prop where
  ctl_eq : s'.ctl = .readline (readlineInit (.const (cstr "K> ")) buf polls out)
  is_panic : s'.is_panic = true
  sie : sie s.sstatus = false → CertiCore.sie s'.sstatus = false
  lines_eq : s'.lines = s.lines
  depth_eq : s'.depth = s.depth + if ws.head? = some (bytes "backtrace") then 1 else 0

theorem Answered.prompt {buf : List Byte} {ws : List (List Byte)} (hpanic : s.is_panic = true)
    (hws : ws.head? ≠ some (bytes "backtrace")) :
    Answered s (s.prompt buf polls out) buf polls out ws := by
  refine ⟨rfl, hpanic, id, rfl, ?_⟩
  rw [if_neg hws]
  rfl

theorem Answered.panic {buf : List Byte} {ws : List (List Byte)} (call : PanicCall)
    (hpanic : s.is_panic = true) (hws : ws.head? = some (bytes "backtrace")) :
    Answered s (panic call s.toCrash s.lines buf polls out) buf polls (out ++ monitorBanner)
      ws := by
  rw [CertiCore.panic, if_pos hpanic]
  refine ⟨rfl, rfl, fun _ => sie_intrDisable _, rfl, ?_⟩
  rw [if_pos hws]
  rfl

/-- The line `line` has been worked off by `parse`. -/
theorem Session.step_answer {line tail : List Byte}
    (hctl : s.ctl = .runcmd (p.extend tail) polls out) (hpanic : s.is_panic = true)
    (h : Parsed [] line 0 (fun _ => none) p) (hok : ParseOk BUFSIZE (p.extend tail))
    (hexit : Exit parseStep (p.extend tail) (.ok (p.extend tail))) :
    ∃ s', Step (panicStep img) s s' ∧ Answered s s' (p.extend tail).mem polls
      (out ++ answer img (Text.words isSpace line)) (Text.words isSpace line) := by
  have hargc : p.argc = (Text.words isSpace line).length := h.argc_eq.trans (Nat.zero_add _)
  have hlog : p.log.flatMap (Event.output (p.extend tail).mem) = _ := hok.output hargc _
  have hstep : ∀ {res}, dispatch (p.extend tail) = .ok res →
      Step (panicStep img) s (s.finish img (p.extend tail).mem polls out res) :=
    fun hres => monitorStep_dispatch hctl hexit hres
  obtain ⟨hnone, hsome⟩ := dispatch_extend h tail
  rcases hws : Text.words isSpace line with _ | ⟨w, ws⟩
  · refine ⟨_, hstep (hnone hws), ?_⟩
    rw [hws] at hlog
    rw [Session.finish, hlog, answer, List.append_nil]
    exact Answered.prompt hpanic fun hhead => nomatch hhead
  · obtain ⟨i, argv, hlt, hstr, hdispatch⟩ := hsome w ws hws
    refine ⟨_, hstep hdispatch, ?_⟩
    rw [hws] at hlog
    rw [answer, ← hlog, reply]
    cases hfind : commands.find? fun cmd => cmd.name = w ++ [0] with
    | none =>
      have hi : i < 2 ^ 64 := by
        have hlen := hok.length_eq
        rw [ParseState.extend, List.length_append] at hlen
        unfold BUFSIZE at hlen
        omega
      have hback : (w :: ws).head? ≠ some (bytes "backtrace") := by
        intro hhead
        obtain ⟨cmd, hcmd, -⟩ := commands_backtrace.mpr (Option.some.inj hhead)
        exact nomatch hfind.symm.trans hcmd
      rw [Session.finish, List.flatMap_append, List.flatMap_singleton, output_unknown hi, hstr]
      exact Answered.prompt hpanic hback
    | some cmd =>
      have hback : (w :: ws).head? = some (bytes "backtrace") ↔ cmd.func = .mon_backtrace := by
        rw [List.head?_cons, Option.some.injEq, ← commands_backtrace, hfind]
        simp only [Option.some.injEq, exists_eq_left']
      obtain ⟨name, desc, func⟩ := cmd
      cases func with
      | mon_help =>
        rw [← List.append_assoc]
        exact Answered.prompt hpanic fun hhead => nomatch hback.mp hhead
      | mon_kerninfo =>
        rw [← List.append_assoc]
        exact Answered.prompt hpanic fun hhead => nomatch hback.mp hhead
      | mon_backtrace =>
        rw [← List.append_assoc]
        exact Answered.panic _ hpanic (hback.mpr rfl)

end Line

/-! ## The dialog -/

section Dialog

variable {img : KerninfoSymbols} {s s' : Session} {d d' : Dialog} {u polls : List (BitVec 64)}
  {x : BitVec 64} {buf : List Byte} {out : List Output}

/-- The kernel is in the monitor, and will not leave it. -/
structure Dead (s : Session) : Prop where
  is_panic : s.isKernelPanic = true
  sie : sie s.sstatus = false

/-- At the console it looks as if the kernel is in the dialog `d`; the results `u` are to come. -/
structure Attends (s : Session) (d : Dialog) (u : List (BitVec 64)) : Prop extends Dead s where
  readline : ∃ r, s.ctl = .readline r ∧ Holds r d.held ∧ getchar r.polls = getchar u ∧
    r.out = d.out
  depth_eq : s.depth = d.depth

theorem Dead.attends (h : Dead s) (hbuf : buf.length = BUFSIZE)
    (hctl : s.ctl = .readline (readlineInit (.const (cstr "K> ")) buf u out)) :
    Attends s ⟨[], s.depth, out ++ [promptK]⟩ u :=
  ⟨h, ⟨_, hctl, holds_readlineInit hbuf _ _ _, rfl, rfl⟩, rfl⟩

theorem dead_panic (call : PanicCall) (c : Crash) (lines : List (List Byte)) :
    Dead (panic call c lines buf polls out) := ⟨rfl, sie_intrDisable _⟩

theorem attends_panic (hbuf : buf.length = BUFSIZE) (call : PanicCall) (c : Crash)
    (lines : List (List Byte)) :
    Attends (panic call c lines buf polls out) (panicDialog call c out) polls := by
  have hout : (if c.is_panic then out else out ++ call.message) ++ monitorBanner ++ [promptK] =
      out ++ (if c.is_panic then [] else call.message) ++ monitorBanner ++ [promptK] := by
    split
    · rw [List.append_nil]
    · rfl
  rw [panicDialog, ← hout]
  exact (dead_panic call c lines).attends hbuf rfl

/-- A poll without a character, as the comment of `cons_getc` has it. -/
theorem Attends.zero (h : Attends s d (x :: u)) (hx : x.setWidth 32 = 0) : Attends s d u := by
  obtain ⟨hdead, ⟨r, hctl, hholds, hpolls, hout⟩, hdepth⟩ := h
  rw [getchar_cons, if_pos hx] at hpolls
  exact ⟨hdead, ⟨r, hctl, hholds, hpolls, hout⟩, hdepth⟩

/-- A poll without a character, as the firmware reports it. -/
theorem Attends.idle (h : Attends s d (x :: u)) (hzero : x.setWidth 32 ≠ 0)
    (hx : (x.setWidth 32).slt 0 = true) :
    ∃ s', Step (panicStep img) s s' ∧
      Attends s' { d with held := [], out := d.out ++ [promptK] } u := by
  obtain ⟨hdead, ⟨r, hctl, hholds, hpolls, hout⟩, hdepth⟩ := h
  rw [getchar_cons, if_neg hzero] at hpolls
  have hstep : readlineStep r = .ok (.inr (none, { r with polls := u })) := by
    rw [readlineStep_eq hholds.toInBounds hpolls, if_pos hx]
  refine ⟨s.prompt r.buf u r.out, monitorStep_null hctl hstep, ?_⟩
  rw [← hdepth, ← hout]
  have hprompt : Dead (s.prompt r.buf u r.out) := ⟨hdead.is_panic, hdead.sie⟩
  exact hprompt.attends hholds.length_eq rfl

/-- A character of a line. -/
theorem Attends.edit (h : Attends s d (x :: u)) (hzero : x.setWidth 32 ≠ 0)
    (hneg : ¬ (x.setWidth 32).slt 0 = true) (hend : ¬ isEnd (x.setWidth 32)) :
    ∃ s', Step (panicStep img) s s' ∧
      Attends s' { d with
        held := editLine d.held (x.setWidth 32)
        out := d.out ++ if editLine d.held (x.setWidth 32) = d.held then [] else
          [.cputchar (x.setWidth 32)] } u := by
  obtain ⟨hdead, ⟨r, hctl, hholds, hpolls, hout⟩, hdepth⟩ := h
  rw [getchar_cons, if_neg hzero] at hpolls
  obtain ⟨r', hstep, hholds', rfl, hout'⟩ := step_editLine hholds hpolls hneg hend
  rw [hout] at hout'
  exact ⟨_, s.step_readline hctl hstep, ⟨hdead.is_panic, hdead.sie⟩, ⟨r', rfl, hholds', rfl, hout'⟩,
    hdepth⟩

/-- The end of a line. -/
theorem Attends.line (h : Attends s d (x :: u)) (img : KerninfoSymbols)
    (hend : isEnd (x.setWidth 32)) :
    ((Text.words isSpace (stringOf (stored d.held))).length ≤ MAXARGS →
      ∃ s', Steps (panicStep img) s s' ∧ Attends s' ⟨[],
        d.depth + if (Text.words isSpace (stringOf (stored d.held))).head? =
          some (bytes "backtrace") then 1 else 0,
        d.out ++ [.cputchar (x.setWidth 32)] ++
          answer img (Text.words isSpace (stringOf (stored d.held))) ++ [promptK]⟩ u) ∧
    (MAXARGS < (Text.words isSpace (stringOf (stored d.held))).length →
      Ends (panicStep img) s (.error (.halt (.outOfBounds MAXARGS)))) := by
  obtain ⟨hdead, ⟨r, hctl, hholds, hpolls, hout⟩, hdepth⟩ := h
  have hzero : x.setWidth 32 ≠ 0 := by
    intro h0
    rw [h0] at hend
    exact absurd hend (by decide)
  rw [getchar_cons, if_neg hzero] at hpolls
  obtain ⟨r', hexit, hlen, ⟨tail, htail⟩, rfl, hout'⟩ := exit_end hholds hpolls hend
  -- the string that ends at the first NUL, which may be one of the characters
  obtain ⟨hnul, rest, hrest⟩ := exists_stringOf (stored d.held) tail
  obtain ⟨hfew, hmany⟩ := parse_extend hnul rest
  rw [← hrest, ← htail] at hfew hmany
  let s₁ : Session := { s with
    ctl := .runcmd (parseInit r'.buf) r'.polls r'.out
    lines := s.lines ++ [stringOf r'.buf] }
  have hstep : Step (panicStep img) s s₁ := monitorStep_line hctl hexit
  constructor
  · intro hwords
    obtain ⟨p, hparsed, hok, hsteps, hparse⟩ := hfew hwords
    rw [hlen] at hok
    let s₂ : Session := { s₁ with ctl := .runcmd (p.extend rest) r'.polls r'.out }
    have hparse' : Steps (panicStep img) s₁ s₂ := s₁.steps_parse hsteps
    obtain ⟨s', hanswer, hs'⟩ := s₂.step_answer rfl hdead.is_panic hparsed hok hparse
    refine ⟨s', hstep.steps.trans (hparse'.trans hanswer.steps), ?_⟩
    have hdepth' : s'.depth = s.depth + _ := hs'.depth_eq
    rw [← hdepth, ← hdepth', ← hout, ← hout']
    exact Dead.attends ⟨hs'.is_panic, hs'.sie hdead.sie⟩ (hok.length_eq) hs'.ctl_eq
  · intro hwords
    exact (s₁.ends_parse (hmany hwords)).of_step hstep

/-- A result comes. -/
theorem Attends.input (h : Attends s d (x :: u)) (img : KerninfoSymbols) :
    (∀ d', d.input img (x.setWidth 32) = some d' →
      ∃ s', Steps (panicStep img) s s' ∧ Attends s' d' u) ∧
    (d.input img (x.setWidth 32) = none →
      Ends (panicStep img) s (.error (.halt (.outOfBounds MAXARGS)))) := by
  unfold Dialog.input
  by_cases hzero : x.setWidth 32 = 0
  · rw [if_pos hzero]
    refine ⟨?_, nofun⟩
    rintro _ ⟨⟩
    exact ⟨s, .refl s, h.zero hzero⟩
  rw [if_neg hzero]
  by_cases hneg : (x.setWidth 32).slt 0 = true
  · rw [if_pos hneg]
    refine ⟨?_, nofun⟩
    rintro _ ⟨⟩
    obtain ⟨s', hstep, hs'⟩ := h.idle hzero hneg
    exact ⟨s', hstep.steps, hs'⟩
  rw [if_neg hneg]
  by_cases hend : isEnd (x.setWidth 32)
  · rw [if_pos hend]
    obtain ⟨hfew, hmany⟩ := h.line img hend
    dsimp only
    split
    case isTrue hwords =>
      refine ⟨?_, nofun⟩
      rintro _ ⟨⟩
      exact hfew hwords
    case isFalse hwords => exact ⟨nofun, fun _ => hmany (Nat.lt_of_not_le hwords)⟩
  · rw [if_neg hend]
    refine ⟨?_, nofun⟩
    rintro _ ⟨⟩
    obtain ⟨s', hstep, hs'⟩ := h.edit hzero hneg hend
    exact ⟨s', hstep.steps, hs'⟩

/-- No result is left. -/
theorem Attends.exit (h : Attends s d []) : Exit (panicStep img) s (.error .idle) := by
  obtain ⟨-, ⟨r, hctl, -, hpolls, -⟩, -⟩ := h
  have hnone : getchar [] = none := by
    rw [getchar]
    rfl
  exact monitorStep_stop hctl (readlineStep_of_none (hpolls.trans hnone))

theorem Attends.run (h : Attends s d polls) (img : KerninfoSymbols) :
    (∀ d', d.run img polls = some d' → ∃ s', Steps (panicStep img) s s' ∧ Attends s' d' []) ∧
    (d.run img polls = none → Ends (panicStep img) s (.error (.halt (.outOfBounds MAXARGS)))) := by
  induction polls generalizing s d with
  | nil =>
    refine ⟨?_, nofun⟩
    rintro _ ⟨⟩
    exact ⟨s, .refl s, h⟩
  | cons x u ih =>
    obtain ⟨hsome, hnone⟩ := h.input img
    have hrun : d.run img (x :: u) = (d.input img (x.setWidth 32)).bind fun d => d.run img u :=
      List.foldlM_cons
    rw [hrun]
    cases hinput : d.input img (x.setWidth 32) with
    | none => exact ⟨nofun, fun _ => hnone hinput⟩
    | some d₁ =>
      obtain ⟨s₁, hsteps, hs₁⟩ := hsome d₁ hinput
      obtain ⟨hfew, hmany⟩ := ih hs₁
      refine ⟨fun d' hd' => ?_, fun hd' => (hmany hd').of_steps hsteps⟩
      obtain ⟨s', hsteps', hs'⟩ := hfew d' hd'
      exact ⟨s', hsteps.trans hsteps', hs'⟩

theorem Dead.finish (h : Dead s) (mem : List Byte) (res : CmdResult) :
    Dead (s.finish img mem polls out res) := by
  cases res with
  | done log => exact ⟨h.is_panic, h.sie⟩
  | call func argc argv mem log =>
    cases func with
    | mon_help => exact ⟨h.is_panic, h.sie⟩
    | mon_kerninfo => exact ⟨h.is_panic, h.sie⟩
    | mon_backtrace => exact dead_panic _ _ _

/-- What one step can do. -/
theorem panicStep_cases (h : Step (panicStep img) s s') :
    (∃ r r', s.ctl = .readline r ∧ readlineStep r = .ok (.inl r') ∧
      s' = { s with ctl := .readline r' }) ∨
    (∃ r r', s.ctl = .readline r ∧ readlineStep r = .ok (.inr (none, r')) ∧
      s' = s.prompt r'.buf r'.polls r'.out) ∨
    (∃ r r' buf, s.ctl = .readline r ∧ readlineStep r = .ok (.inr (some buf, r')) ∧
      s' = { s with
        ctl := .runcmd (parseInit buf) r'.polls r'.out
        lines := s.lines ++ [stringOf buf] }) ∨
    (∃ p p' polls out, s.ctl = .runcmd p polls out ∧ Step parseStep p p' ∧
      s' = { s with ctl := .runcmd p' polls out }) ∨
    ∃ p p' polls out res, s.ctl = .runcmd p polls out ∧ Exit parseStep p (.ok p') ∧
      dispatch p' = .ok res ∧ s' = s.finish img p'.mem polls out res := by
  rcases monitorStep_cases h with ⟨r, r', hctl, hr, heq⟩ | ⟨r, r', hctl, hr, heq⟩ |
    ⟨r, r', buf, hctl, hr, heq⟩ | ⟨p, p', polls, out, hctl, hp, heq⟩ |
    ⟨p, p', polls, out, res, hctl, hp, hd, heq⟩
  · exact Or.inl ⟨r, r', hctl, hr, Sum.inl.inj heq⟩
  · exact Or.inr (Or.inl ⟨r, r', hctl, hr, Sum.inl.inj heq⟩)
  · exact Or.inr (Or.inr (Or.inl ⟨r, r', buf, hctl, hr, Sum.inl.inj heq⟩))
  · exact Or.inr (Or.inr (Or.inr (Or.inl ⟨p, p', polls, out, hctl, hp, Sum.inl.inj heq⟩)))
  · refine Or.inr (Or.inr (Or.inr (Or.inr ?_)))
    exact ⟨p, p', polls, out, res, hctl, hp, hd, Sum.inl.inj heq⟩

theorem Dead.step (h : Dead s) (hstep : Step (panicStep img) s s') : Dead s' := by
  rcases panicStep_cases hstep with ⟨r, r', -, -, rfl⟩ | ⟨r, r', -, -, rfl⟩ |
    ⟨r, r', buf, -, -, rfl⟩ | ⟨p, p', polls, out, -, -, rfl⟩ |
    ⟨p, p', polls, out, res, -, -, -, rfl⟩
  · exact ⟨h.is_panic, h.sie⟩
  · exact ⟨h.is_panic, h.sie⟩
  · exact ⟨h.is_panic, h.sie⟩
  · exact ⟨h.is_panic, h.sie⟩
  · exact h.finish p'.mem res

/-! ## What has been printed -/

theorem readlineStep_out {r : ReadState} {res : ReadState ⊕ (Option (List Byte) × ReadState)}
    (h : readlineStep r = .ok res) :
    ∃ cs : List (BitVec 32), (res.elim id Prod.snd).out = r.out ++ cs.map .cputchar := by
  unfold readlineStep at h
  cases hc : getchar r.polls with
  | none =>
    rw [hc] at h
    exact nomatch h
  | some next =>
    obtain ⟨c, u⟩ := next
    rw [hc] at h
    dsimp only at h
    split_ifs at h
    · obtain rfl := Except.ok.inj h
      exact ⟨[], (List.append_nil _).symm⟩
    · cases hbuf : storeByte r.buf r.i (c.setWidth 8) with
      | error e =>
        rw [hbuf] at h
        exact nomatch h
      | ok mem =>
        rw [hbuf] at h
        obtain rfl := Except.ok.inj h
        exact ⟨[c], rfl⟩
    · obtain rfl := Except.ok.inj h
      exact ⟨[c], rfl⟩
    · cases hbuf : storeByte r.buf r.i 0 with
      | error e =>
        rw [hbuf] at h
        exact nomatch h
      | ok mem =>
        rw [hbuf] at h
        obtain rfl := Except.ok.inj h
        exact ⟨[c], rfl⟩
    · obtain rfl := Except.ok.inj h
      exact ⟨[], (List.append_nil _).symm⟩

theorem readlineStep_keeps {r : ReadState} {res : ReadState ⊕ (Option (List Byte) × ReadState)}
    (h : readlineStep r = .ok res) : r.out <+: (res.elim id Prod.snd).out := by
  obtain ⟨cs, hcs⟩ := readlineStep_out h
  exact ⟨_, hcs.symm⟩

theorem Session.out_prompt (s : Session) (buf : List Byte) (polls : List (BitVec 64))
    (out : List Output) : (s.prompt buf polls out).out = out ++ [promptK] := rfl

theorem out_panic (call : PanicCall) (c : Crash) (lines : List (List Byte)) :
    (panic call c lines buf polls out).out =
      (if c.is_panic then out else out ++ call.message) ++ monitorBanner ++ [promptK] := rfl

theorem Session.out_finish (s : Session) (mem : List Byte) (res : CmdResult) :
    out <+: (s.finish img mem polls out res).out := by
  cases res with
  | done log =>
    rw [Session.finish, Session.out_prompt, List.append_assoc]
    exact List.prefix_append _ _
  | call func argc argv mem log =>
    have hprompt : ∀ shown, out <+: (s.prompt mem polls
        (out ++ log.flatMap (Event.output mem) ++ shown)).out := by
      intro shown
      rw [Session.out_prompt, List.append_assoc, List.append_assoc]
      exact List.prefix_append _ _
    cases func with
    | mon_help => exact hprompt _
    | mon_kerninfo => exact hprompt _
    | mon_backtrace =>
      show out <+: (panic _ s.toCrash s.lines mem polls _).out
      rw [out_panic]
      split
      · rw [List.append_assoc, List.append_assoc]
        exact List.prefix_append _ _
      · rw [List.append_assoc, List.append_assoc, List.append_assoc]
        exact List.prefix_append _ _

/-- Nothing that has been printed is taken back. -/
theorem out_step (h : Step (panicStep img) s s') : s.out <+: s'.out := by
  rcases panicStep_cases h with ⟨r, r', hctl, hr, rfl⟩ | ⟨r, r', hctl, hr, rfl⟩ |
    ⟨r, r', buf, hctl, hr, rfl⟩ | ⟨p, p', polls, out, hctl, -, rfl⟩ |
    ⟨p, p', polls, out, res, hctl, -, -, rfl⟩
  · rw [Session.out, hctl]
    exact readlineStep_keeps hr
  · rw [Session.out, hctl, Session.out_prompt]
    exact (readlineStep_keeps hr).trans (List.prefix_append _ _)
  · rw [Session.out, hctl]
    exact readlineStep_keeps hr
  · rw [Session.out, hctl]
    exact List.prefix_rfl
  · rw [Session.out, hctl]
    exact s.out_finish p'.mem res

theorem out_steps (h : Steps (panicStep img) s s') : s.out <+: s'.out := by
  induction h with
  | refl => exact List.prefix_rfl
  | tail _ hstep ih => exact ih.trans (out_step hstep)

/-- The run ends: the kernel waits for input, or a line has had too many words. -/
theorem Attends.ends (h : Attends s d polls) (img : KerninfoSymbols) :
    Ends (panicStep img) s (.error .idle) ∨
      Ends (panicStep img) s (.error (.halt (.outOfBounds MAXARGS))) := by
  obtain ⟨hsome, hnone⟩ := h.run img
  cases hrun : d.run img polls with
  | none => exact Or.inr (hnone hrun)
  | some d' =>
    obtain ⟨s', hsteps, hs'⟩ := hsome d' hrun
    exact Or.inl ⟨s', hsteps, hs'.exit⟩

/-- After a panic, the console shows the dialog that the results `polls` of the firmware make, and
then the kernel waits for another one; only if a line has more than `MAXARGS` words does `parse`
leave its array. As long as that has not happened, the kernel is in the monitor, and interrupts are
off. -/
theorem panic_dialog (img : KerninfoSymbols) (call : PanicCall) (c : Crash)
    (lines : List (List Byte)) (hbuf : buf.length = BUFSIZE) (polls : List (BitVec 64))
    (out : List Output) :
    (∀ d, (panicDialog call c out).run img polls = some d →
      ∃ s r, Steps (panicStep img) (panic call c lines buf polls out) s ∧
        Exit (panicStep img) s (.error .idle) ∧
        s.ctl = .readline r ∧ Holds r d.held ∧ r.out = d.out ∧ s.depth = d.depth) ∧
    ((panicDialog call c out).run img polls = none →
      Ends (panicStep img) (panic call c lines buf polls out)
        (.error (.halt (.outOfBounds MAXARGS)))) ∧
    ∀ s, Steps (panicStep img) (panic call c lines buf polls out) s →
      s.isKernelPanic = true ∧ sie s.sstatus = false := by
  obtain ⟨hsome, hnone⟩ := (attends_panic hbuf call c lines).run img
  refine ⟨fun d hd => ?_, hnone, fun s hs => ?_⟩
  · obtain ⟨s, hsteps, hs⟩ := hsome d hd
    obtain ⟨r, hctl, hholds, -, hout⟩ := hs.readline
    exact ⟨s, r, hsteps, hs.exit, hctl, hholds, hout, hs.depth_eq⟩
  · have hdead := hs.invariant (fun s s' => Dead.step) (dead_panic call c lines)
    exact ⟨hdead.is_panic, hdead.sie⟩

/-- `backtrace` is typed after the first panic: its own panic begins another monitor. -/
theorem panic_dialog_backtrace :
    ∃ s, Steps (panicStep ⟨0, 0, 0, 0⟩) (panic ⟨cstr "kern/mm/pmm.c", 0, cstr "%s", [.const [0]]⟩
      ⟨false, 2, 0⟩ [] (List.replicate BUFSIZE 0) (words (bytes "backtrace\n")) []) s ∧
      s.depth = 2 := by
  have hdepth : ((panicDialog ⟨cstr "kern/mm/pmm.c", 0, cstr "%s", [.const [0]]⟩ ⟨false, 2, 0⟩
      []).run ⟨0, 0, 0, 0⟩ (words (bytes "backtrace\n"))).map Dialog.depth = some 2 := by
    decide +kernel
  obtain ⟨d, hd, hdepth⟩ := Option.map_eq_some_iff.mp hdepth
  obtain ⟨s, -, hsteps, -, -, -, -, hs⟩ := (panic_dialog _ _ _ [] List.length_replicate _ []).1 d hd
  exact ⟨s, hsteps, hs.trans hdepth⟩

end Dialog

/-! ## The lines -/

section Lines

variable {img : KerninfoSymbols} {s s' : Session} {m m' : Monitor} {r r' : ReadState}

/-- Two states of `readline` that differ in what has been printed. -/
def SameInput (r r' : ReadState) : Prop := r.buf = r'.buf ∧ r.i = r'.i ∧ r.polls = r'.polls

/-- The same inner loop, at the same point. -/
def SameCtl : MonitorCtl → MonitorCtl → Prop
  | .readline r, .readline r' => SameInput r r'
  | .runcmd p polls _, .runcmd p' polls' _ => p = p' ∧ polls = polls'
  | _, _ => False

/-- The same monitor, but for what has been printed. -/
structure SameMonitor (m m' : Monitor) : Prop where
  ctl : SameCtl m.ctl m'.ctl
  lines : m.lines = m'.lines

theorem readlineStep_sameInput (h : SameInput r r') :
    (∃ e, readlineStep r = .error e ∧ readlineStep r' = .error e) ∨
    (∃ u u', readlineStep r = .ok (.inl u) ∧ readlineStep r' = .ok (.inl u') ∧ SameInput u u') ∨
    ∃ v u u', readlineStep r = .ok (.inr (v, u)) ∧ readlineStep r' = .ok (.inr (v, u')) ∧
      SameInput u u' := by
  obtain ⟨buf, i, polls, out⟩ := r
  obtain ⟨buf', i', polls', out'⟩ := r'
  obtain ⟨hbuf, hi, hpolls⟩ := h
  dsimp only at hbuf hi hpolls
  subst hbuf hi hpolls
  unfold readlineStep
  cases hc : getchar polls with
  | none => exact Or.inl ⟨.idle, rfl, rfl⟩
  | some res =>
    obtain ⟨c, u⟩ := res
    dsimp only
    split_ifs
    · exact Or.inr (Or.inr ⟨_, _, _, rfl, rfl, rfl, rfl, rfl⟩)
    · cases storeByte buf i (c.setWidth 8) with
      | error e => exact Or.inl ⟨_, rfl, rfl⟩
      | ok mem => exact Or.inr (Or.inl ⟨_, _, rfl, rfl, rfl, rfl, rfl⟩)
    · exact Or.inr (Or.inl ⟨_, _, rfl, rfl, rfl, rfl, rfl⟩)
    · cases storeByte buf i 0 with
      | error e => exact Or.inl ⟨_, rfl, rfl⟩
      | ok mem => exact Or.inr (Or.inr ⟨_, _, _, rfl, rfl, rfl, rfl, rfl⟩)
    · exact Or.inr (Or.inl ⟨_, _, rfl, rfl, rfl, rfl, rfl⟩)

/-- How a line can end. -/
theorem dispatch_cases {p : ParseState} {res : CmdResult} (h : dispatch p = .ok res) :
    res = .done p.log ∨ (∃ i, res = .done (p.log ++ [.cprintf "Unknown command '%s'\n" [i]])) ∨
      ∃ func argc argv, res = .call func argc argv p.mem p.log := by
  unfold dispatch at h
  split at h
  · exact Or.inl (Except.ok.inj h).symm
  cases hload : loadArg p.argv 0 with
  | error e =>
    rw [hload] at h
    exact nomatch h
  | ok argv0 =>
    simp only [hload, bind, Except.bind] at h
    cases hlookup : lookup (p.mem.drop argv0) commands with
    | error e =>
      rw [hlookup] at h
      exact nomatch h
    | ok found =>
      rw [hlookup] at h
      cases found with
      | none => exact Or.inr (Or.inl ⟨_, (Except.ok.inj h).symm⟩)
      | some func => exact Or.inr (Or.inr ⟨func, _, _, (Except.ok.inj h).symm⟩)

theorem CmdResult.result_eq (res : CmdResult) : res.result = 0 := by
  cases res with
  | done log => rfl
  | call func argc argv mem log =>
    cases func with
    | mon_help => rfl
    | mon_kerninfo => rfl
    | mon_backtrace => rfl

/-- Whatever a line does, the next one is read. -/
theorem Session.finish_ctl (s : Session) (img : KerninfoSymbols) {p : ParseState} {res : CmdResult}
    {polls : List (BitVec 64)} {out : List Output} (h : dispatch p = .ok res) :
    ∃ out', (s.finish img p.mem polls out res).toMonitor = s.toMonitor.prompt p.mem polls out' := by
  rcases dispatch_cases h with rfl | ⟨i, rfl⟩ | ⟨func, argc, argv, rfl⟩
  · exact ⟨_, rfl⟩
  · exact ⟨_, rfl⟩
  · cases func with
    | mon_help => exact ⟨_, rfl⟩
    | mon_kerninfo => exact ⟨_, rfl⟩
    | mon_backtrace => exact ⟨_, rfl⟩

/-- A step after a panic is one of the monitor, and the other way round. -/
theorem SameMonitor.step (h : SameMonitor s.toMonitor m) (img : KerninfoSymbols) :
    (∃ e, panicStep img s = .error e ∧ kmonitorStep m = .error e) ∨
    ∃ s' m', Step (panicStep img) s s' ∧ Step kmonitorStep m m' ∧ SameMonitor s'.toMonitor m' := by
  obtain ⟨hctl, hlines⟩ := h
  cases hs : s.ctl with
  | readline r =>
    cases hm : m.ctl with
    | runcmd p' polls' out' =>
      rw [hs, hm] at hctl
      exact hctl.elim
    | readline r' =>
      rw [hs, hm] at hctl
      rcases readlineStep_sameInput hctl with ⟨e, he, he'⟩ | ⟨u, u', hu, hu', hsame⟩ |
        ⟨v, u, u', hu, hu', hsame⟩
      · exact Or.inl ⟨e, monitorStep_stop hs he, monitorStep_stop hm he'⟩
      · exact Or.inr ⟨_, _, monitorStep_edit hs hu, monitorStep_edit hm hu', hsame, hlines⟩
      · obtain ⟨hbuf, -, hpolls⟩ := hsame
        cases v with
        | none =>
          exact Or.inr ⟨_, _, monitorStep_null hs hu, monitorStep_null hm hu',
            ⟨hbuf, rfl, hpolls⟩, hlines⟩
        | some buf =>
          exact Or.inr ⟨_, _, monitorStep_line hs hu, monitorStep_line hm hu', ⟨rfl, hpolls⟩,
            congrArg (· ++ [stringOf buf]) hlines⟩
  | runcmd p polls out =>
    cases hm : m.ctl with
    | readline r' =>
      rw [hs, hm] at hctl
      exact hctl.elim
    | runcmd p' polls' out' =>
      rw [hs, hm] at hctl
      obtain ⟨rfl, rfl⟩ := hctl
      cases hp : parseStep p with
      | error e => exact Or.inl ⟨_, monitorStep_fault hs hp, monitorStep_fault hm hp⟩
      | ok res =>
        cases res with
        | inl p' =>
          exact Or.inr ⟨_, _, monitorStep_parse hs hp, monitorStep_parse hm hp, ⟨rfl, rfl⟩, hlines⟩
        | inr p' =>
          cases hd : dispatch p' with
          | error e =>
            refine Or.inl ⟨.halt e, (monitorStep_parsed hs hp).trans ?_,
              (monitorStep_parsed hm hp).trans ?_⟩
            · rw [hd]
              rfl
            · rw [hd]
              rfl
          | ok res =>
            have hgo : ¬ res.result.slt 0 = true := by
              rw [res.result_eq]
              decide
            obtain ⟨out₁, hout₁⟩ := s.finish_ctl img hd
            refine Or.inr ⟨_, _, monitorStep_dispatch hs hp hd,
              (monitorStep_dispatch hm hp hd).trans (congrArg Except.ok (if_neg hgo)), ?_⟩
            rw [hout₁]
            exact ⟨⟨rfl, rfl, rfl⟩, hlines⟩

theorem sameMonitor_panic (call : PanicCall) (c : Crash) (frame : List Output) (buf : List Byte)
    (polls : List (BitVec 64)) (out : List Output) :
    SameMonitor (panic call c [] buf polls out).toMonitor (kmonitorInit frame buf polls) :=
  ⟨⟨rfl, rfl, rfl⟩, rfl⟩

/-- After a panic, the same lines are passed to `runcmd` as by one call of `kmonitor` whose commands
return, and the same access or poll is the last one, although `backtrace` never returns. -/
theorem panic_lines (img : KerninfoSymbols) (call : PanicCall) (c : Crash) (frame : List Output)
    (buf : List Byte) (polls : List (BitVec 64)) (out : List Output) :
    (∀ L, (∃ s, Steps (panicStep img) (panic call c [] buf polls out) s ∧ s.lines = L) ↔
      Passes (kmonitorInit frame buf polls) L) ∧
    ∀ e, Ends (panicStep img) (panic call c [] buf polls out) (.error e) ↔
      Ends kmonitorStep (kmonitorInit frame buf polls) (.error e) := by
  have hto : ∀ s m s', SameMonitor s.toMonitor m → Step (panicStep img) s s' →
      ∃ m', Step kmonitorStep m m' ∧ SameMonitor s'.toMonitor m' := by
    intro s m s' h hstep
    rcases h.step img with ⟨e, he, -⟩ | ⟨s₁, m', hs, hm, hsame⟩
    · exact nomatch he.symm.trans hstep
    · obtain rfl := hstep.unique hs
      exact ⟨m', hm, hsame⟩
  have hfrom : ∀ m s m', SameMonitor s.toMonitor m → Step kmonitorStep m m' →
      ∃ s', Step (panicStep img) s s' ∧ SameMonitor s'.toMonitor m' := by
    intro m s m' h hstep
    rcases h.step img with ⟨e, -, he⟩ | ⟨s', m₁, hs, hm, hsame⟩
    · exact nomatch he.symm.trans hstep
    · obtain rfl := hstep.unique hm
      exact ⟨s', hs, hsame⟩
  have hinit := sameMonitor_panic call c frame buf polls out
  refine ⟨fun L => ⟨?_, ?_⟩, fun e => ⟨?_, ?_⟩⟩
  · rintro ⟨s, hsteps, rfl⟩
    obtain ⟨m, hsteps', hsame⟩ := hsteps.simulate hto hinit
    exact ⟨m, hsteps', hsame.lines.symm⟩
  · rintro ⟨m, hsteps, rfl⟩
    obtain ⟨s, hsteps', hsame⟩ := hsteps.simulate hfrom hinit
    exact ⟨s, hsteps', hsame.lines⟩
  · rintro ⟨s, hsteps, hexit⟩
    obtain ⟨m, hsteps', hsame⟩ := hsteps.simulate hto hinit
    rcases hsame.step img with ⟨e', he, he'⟩ | ⟨s', m', hs, -, -⟩
    · obtain rfl := Except.error.inj (he.symm.trans hexit)
      exact ⟨m, hsteps', he'⟩
    · exact absurd hexit hs.not_exit
  · rintro ⟨m, hsteps, hexit⟩
    obtain ⟨s, hsteps', hsame⟩ := hsteps.simulate hfrom hinit
    rcases hsame.step img with ⟨e', he, he'⟩ | ⟨s', m', -, hm, -⟩
    · obtain rfl := Except.error.inj (he'.symm.trans hexit)
      exact ⟨s, hsteps', he⟩
    · exact absurd hexit hm.not_exit

end Lines

end CertiCore
