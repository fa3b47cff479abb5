import CertiCore.Debug.Proofs.PanicProofs
import CertiCore.Libs.Proofs.FieldProofs
import CertiCore.Libs.Proofs.StdioProofs

/-!
# Proofs: what the console shows after a panic

Every call of `cprintf` finds its arguments and the ends of its strings, so that it returns,
whatever has been typed.
-/

namespace CertiCore

open Loop

/-! ## Calls that return -/

section Displays

variable {M : BitVec 64 → Option Byte} {outs outs' : List Output} {text text' : List Byte}
  {f : List Byte} {ap ap' : List VaArg}

/-- Whatever the console shows, the calls return, and `text` is shown behind it. -/
def Displays (M : BitVec 64 → Option Byte) (outs : List Output) (text : List Byte) : Prop :=
  ∀ console, Shows M outs console (console ++ text)

theorem Displays.append (h : Displays M outs text) (h' : Displays M outs' text') :
    Displays M (outs ++ outs') (text ++ text') := by
  intro console
  rw [← List.append_assoc]
  exact (h console).append (h' (console ++ text))

theorem displays_cputchar (c : BitVec 32) : Displays M [.cputchar c] [c.setWidth 8] :=
  fun _ => rfl

theorem displays_cprintf (h : Prints M f ap ap' (chars text)) :
    Displays M [.cprintf (f ++ [0]) ap] text := by
  intro console
  have hshows := shows_cprintf h.emits console
  rw [stored_chars] at hshows
  exact hshows

/-- One call after the other. -/
theorem exists_displays_flatMap {α : Type} {f : α → List Output} {l : List α}
    (h : ∀ a ∈ l, ∃ text, Displays M (f a) text) : ∃ text, Displays M (l.flatMap f) text := by
  induction l with
  | nil => exact ⟨[], fun console => (List.append_nil console).symm⟩
  | cons a l ih =>
    obtain ⟨hfirst, hrest⟩ := List.forall_mem_cons.mp h
    obtain ⟨text, htext⟩ := hfirst
    obtain ⟨text', htext'⟩ := ih hrest
    exact ⟨text ++ text', htext.append htext'⟩

theorem exists_displays (h : ∀ o ∈ outs, ∃ text, Displays M [o] text) :
    ∃ text, Displays M outs text := by
  have hall := exists_displays_flatMap h
  rw [List.flatMap_singleton'] at hall
  exact hall

end Displays

/-! ## Pieces of the formats -/

section Pieces

variable {M : BitVec 64 → Option Byte}

/-- A character that stands for itself in a format. -/
def isPlain (c : Byte) : Bool := c != ch '%' && c != 0

theorem prints_plain {l : List Byte} (h : l.all isPlain = true) (ap : List VaArg) :
    Prints M l ap ap (chars l) := by
  refine prints_chars l ap fun c hc => ?_
  obtain ⟨hpct, hnul⟩ := Bool.and_eq_true_iff.mp (List.all_eq_true.mp h c hc)
  exact ⟨bne_iff_ne.mp hpct, bne_iff_ne.mp hnul⟩

/-- `%s` of a constant string. -/
theorem prints_const {w : List Byte} (hw : ∀ c ∈ w, c ≠ 0) (ap : List VaArg) :
    Prints M (bytes "%s") (.const (w ++ [0]) :: ap) ap (chars (Esc.init.stringText w)) :=
  (modifies_nil _).prints rfl (converts_string rfl (readsString_const w hw))

/-- Without a width, there is no padding. -/
theorem text_init_of_number {l : Label} {lflag : BitVec 32} {v : BitVec 64} {n : Number}
    (h : l.number lflag v = some n) : n.text .init = n.full := by
  obtain ⟨-, -, hle⟩ := number_bounds h
  show n.sign ++ (pad (-1 - _) (ch ' ') ++ n.digits) = n.sign ++ n.digits
  rw [pad_neg_one_sub (hle.trans_lt (by omega)), List.nil_append]

/-- An `int` as `%d` prints it. -/
def intText (v : BitVec 64) : List Byte :=
  (if (v.setWidth 32).toInt < 0 then [ch '-'] else []) ++ numeral 10 (v.setWidth 32).toInt.natAbs

theorem prints_int (v : BitVec 64) (ap : List VaArg) :
    Prints M (bytes "%d") (.word v :: ap) ap (chars (intText v)) := by
  have hint : (intValue 0 v).toInt = (v.setWidth 32).toInt := by
    rw [intValue, if_pos rfl, BitVec.toInt_signExtend_of_le (by omega)]
  have hnum : (label (ch 'd')).number Esc.init.lflag v = some
      ⟨if (v.setWidth 32).toInt < 0 then [ch '-'] else [], 10, (v.setWidth 32).toInt.natAbs⟩ := by
    rw [← hint]
    rfl
  have hprints := (modifies_nil (M := M) (.word v :: ap)).prints rfl (converts_number hnum)
  rw [text_init_of_number hnum] at hprints
  exact hprints

/-- `%016lx` prints sixteen digits. -/
theorem exists_prints_address (v : BitVec 64) (ap : List VaArg) :
    ∃ text, Prints M (bytes "%016lx") (.word v :: ap) ap (chars text) := by
  have hflags : ∀ c ∈ [ch '0'], isAnyFlag c = true := by decide
  have hmods : ∀ c ∈ [ch 'l'], isLateFlag c = true := by decide
  have hwidth : numeral 10 16 = bytes "16" := by simp [numeral, Radix.digits, digitChar, bytes]
  have hnum : (label (ch 'x')).number (BitVec.ofNat 32 (([ch '0'] ++ [ch 'l']).count (ch 'l'))) v =
      some ⟨[], 16, (uintValue 1 v).toNat⟩ := rfl
  have hprints := prints_number (M := M) hflags (Width.digits 16 (by omega)) hmods hnum ap
  rw [hwidth] at hprints
  exact ⟨_, hprints⟩

end Pieces

/-! ## The calls of the monitor -/

section Calls

variable {M : BitVec 64 → Option Byte}

/-- A format without escape sequences. -/
theorem displays_plain (s : String) (h : (bytes s).all isPlain = true) :
    Displays M [.cprintf (cstr s) []] (bytes s) :=
  displays_cprintf (prints_plain h [])

theorem displays_promptK : Displays M [promptK] (bytes "K> ") := by
  have hprints := prints_const (M := M) (w := bytes "K> ") (ne_zero_of_mem_bytes rfl) []
  rw [stringText_init (by decide)] at hprints
  exact displays_cprintf hprints

/-- What `kmonitor` shows before its loop. -/
def bannerText : List Byte :=
  bytes "Welcome to the kernel debug monitor!!\n" ++ bytes "Type 'help' for a list of commands.\n"

theorem displays_monitorBanner : Displays M monitorBanner bannerText :=
  (displays_plain _ (by decide +kernel)).append (displays_plain _ (by decide +kernel))

/-- The first line of the message of `__panic`. -/
theorem displays_panic_at {w : List Byte} (hw : ∀ c ∈ w, c ≠ 0) (hlen : w.length < 2 ^ 31)
    (line : BitVec 64) :
    Displays M [.cprintf (cstr "kernel panic at %s:%d:\n    ") [.const (w ++ [0]), .word line]]
      (bytes "kernel panic at " ++ w ++ bytes ":" ++ intText line ++ bytes ":\n    ") := by
  have hpre := prints_plain (M := M) (l := bytes "kernel panic at ") (by decide +kernel)
    [.const (w ++ [0]), .word line]
  have hfile := prints_const (M := M) hw [.word line]
  have hcolon := prints_plain (M := M) (l := bytes ":") (by decide +kernel) [.word line]
  have hend := prints_plain (M := M) (l := bytes ":\n    ") (by decide +kernel) []
  rw [stringText_init hlen] at hfile
  have hprints := (((hpre.append hfile).append hcolon).append (prints_int line [])).append hend
  simp only [← chars_append] at hprints
  exact displays_cprintf hprints

/-- Two strings, as `mon_help` prints them. -/
theorem exists_displays_pair (w w' : List Byte) (hw : ∀ c ∈ w, c ≠ 0) (hw' : ∀ c ∈ w', c ≠ 0) :
    ∃ text, Displays M [.cprintf (cstr "%s - %s\n") [.const (w ++ [0]), .const (w' ++ [0])]]
      text := by
  have hdash := prints_plain (M := M) (l := bytes " - ") (by decide +kernel) [.const (w' ++ [0])]
  have hend := prints_plain (M := M) (l := bytes "\n") (by decide +kernel) []
  have hprints := (((prints_const hw [.const (w' ++ [0])]).append hdash).append
    (prints_const hw' [])).append hend
  simp only [← chars_append] at hprints
  exact ⟨_, displays_cprintf hprints⟩

theorem exists_displays_help : ∃ text, Displays M (commands.map fun cmd =>
    .cprintf (cstr "%s - %s\n") [.const cmd.name, .const cmd.desc]) text := by
  refine exists_displays fun o ho => ?_
  obtain ⟨cmd, hcmd, rfl⟩ := List.mem_map.mp ho
  rcases mem_commands.mp hcmd with rfl | rfl | rfl
  · exact exists_displays_pair (bytes "help") (bytes "Display this list of commands.")
      (ne_zero_of_mem_bytes rfl) (ne_zero_of_mem_bytes rfl)
  · exact exists_displays_pair (bytes "kerninfo") (bytes "Display information about the kernel.")
      (ne_zero_of_mem_bytes rfl) (ne_zero_of_mem_bytes rfl)
  · exact exists_displays_pair (bytes "backtrace") (bytes "Print backtrace of stack frame.")
      (ne_zero_of_mem_bytes rfl) (ne_zero_of_mem_bytes rfl)

/-- A line of `print_kerninfo`. -/
theorem exists_displays_symbol (pre : List Byte) (hpre : pre.all isPlain = true)
    (v : BitVec 64) :
    ∃ text, Displays M [.cprintf (pre ++ bytes "%016lx" ++ bytes " (virtual)\n" ++ [0]) [.word v]]
      text := by
  obtain ⟨address, haddress⟩ := exists_prints_address (M := M) v []
  have hend := prints_plain (M := M) (l := bytes " (virtual)\n") (by decide +kernel) []
  have hprints := ((prints_plain (M := M) hpre [.word v]).append haddress).append hend
  simp only [← chars_append] at hprints
  exact ⟨_, displays_cprintf hprints⟩

/-- A number between two texts. -/
theorem exists_displays_int (pre post : List Byte) (hpre : pre.all isPlain = true)
    (hpost : post.all isPlain = true) (v : BitVec 64) :
    ∃ text, Displays M [.cprintf (pre ++ bytes "%d" ++ post ++ [0]) [.word v]] text := by
  have hprints := ((prints_plain (M := M) hpre [.word v]).append (prints_int v [])).append
    (prints_plain hpost [])
  simp only [← chars_append] at hprints
  exact ⟨_, displays_cprintf hprints⟩

theorem exists_displays_kerninfo (img : KerninfoSymbols) :
    ∃ text, Displays M (printKerninfo img) text := by
  refine exists_displays fun o ho => ?_
  simp only [printKerninfo, List.mem_cons, List.not_mem_nil, or_false] at ho
  rcases ho with rfl | rfl | rfl | rfl | rfl | rfl
  · exact ⟨_, displays_plain "Special kernel symbols:\n" (by decide +kernel)⟩
  · exact exists_displays_symbol (bytes "  entry  0x") (by decide +kernel) _
  · exact exists_displays_symbol (bytes "  etext  0x") (by decide +kernel) _
  · exact exists_displays_symbol (bytes "  edata  0x") (by decide +kernel) _
  · exact exists_displays_symbol (bytes "  end    0x") (by decide +kernel) _
  · exact exists_displays_int (bytes "Kernel executable memory footprint: ") (bytes "KB\n")
      (by decide +kernel) (by decide) _

/-- What `parse` and `runcmd` print themselves. -/
inductive LineEvent : Event → Prop
  | tooMany : LineEvent (.cprintf "Too many arguments (max %d).\n" [BitVec.ofNat 64 MAXARGS])
  | unknown (p : BitVec 64) : LineEvent (.cprintf "Unknown command '%s'\n" [p])

theorem LineEvent.displays {e : Event} (h : LineEvent e) (mem : List Byte) :
    ∃ text, Displays M (e.output mem) text := by
  cases h with
  | tooMany =>
    have hout : Event.output mem (.cprintf "Too many arguments (max %d).\n"
        [BitVec.ofNat 64 MAXARGS]) = [.cprintf (cstr "Too many arguments (max %d).\n")
          [.word (BitVec.ofNat 64 MAXARGS)]] := by
      simp [Event.output]
    rw [hout]
    exact exists_displays_int (bytes "Too many arguments (max ") (bytes ").\n")
      (by decide +kernel) (by decide) _
  | unknown p =>
    have hpre := prints_plain (M := M) (l := bytes "Unknown command '")
      (by decide +kernel) [.const (stringOf (mem.drop p.toNat) ++ [0])]
    have hend := prints_plain (M := M) (l := bytes "'\n") (by decide +kernel) []
    have hname := prints_const (M := M) (exists_stringOf (mem.drop p.toNat) []).1 []
    have hprints := (hpre.append hname).append hend
    simp only [← chars_append] at hprints
    exact ⟨_, displays_cprintf hprints⟩

theorem exists_displays_log {log : List Event} (h : ∀ e ∈ log, LineEvent e) (mem : List Byte) :
    ∃ text, Displays M (log.flatMap (Event.output mem)) text :=
  exists_displays_flatMap fun e he => (h e he).displays mem

theorem exists_displays_echo (cs : List (BitVec 32)) :
    ∃ text, Displays M (cs.map .cputchar) text := by
  refine exists_displays fun o ho => ?_
  obtain ⟨c, -, rfl⟩ := List.mem_map.mp ho
  exact ⟨_, displays_cputchar c⟩

/-- The message of `__panic`, in the file `file`. -/
def messageText (file : List Byte) (line : BitVec 64) (message : List Byte) : List Byte :=
  bytes "kernel panic at " ++ file ++ bytes ":" ++ intText line ++ bytes ":\n    " ++
    (message ++ bytes "\n")

theorem displays_message (file : List Byte) {call : PanicCall} {T : List (BitVec 32)}
    (hnul : ∀ c ∈ file, c ≠ 0) (hlen : file.length < 2 ^ 31) (hfile : call.file = file ++ [0])
    (hmsg : Emits M call.fmt call.ap T) :
    Displays M call.message (messageText file call.line (stored T)) := by
  have hfmt : Displays M [.cprintf call.fmt call.ap] (stored T) := shows_cprintf hmsg
  have hend : Displays M [.cprintf (cstr "\n") []] (bytes "\n") := displays_plain _ (by decide)
  rw [PanicCall.message, hfile]
  exact (displays_panic_at hnul hlen call.line).append (hfmt.append hend)

end Calls

/-! ## What `parse` and `runcmd` leave to print -/

section Log

variable {p p' : ParseState} {res : CmdResult}

theorem log_parseStep (hlog : ∀ e ∈ p.log, LineEvent e) (h : Step parseStep p p') :
    ∀ e ∈ p'.log, LineEvent e := by
  cases hload : loadByte p.mem p.buf with
  | error x =>
    unfold Step parseStep at h
    rw [hload] at h
    exact nomatch h
  | ok c =>
    have h := (parseStep_eq hload).symm.trans h
    split_ifs at h with _ _ _ _ hlast
    · obtain rfl := Sum.inl.inj (Except.ok.inj h)
      exact hlog
    · obtain rfl := Sum.inl.inj (Except.ok.inj h)
      exact hlog
    · cases hstore : storeByte p.mem p.buf 0 with
      | error x =>
        rw [hstore] at h
        exact nomatch h
      | ok mem =>
        rw [hstore] at h
        obtain rfl := Sum.inl.inj (Except.ok.inj h)
        exact hlog
    · exact nomatch h
    · obtain ⟨-, argv, hargv⟩ := storeArg_map h
      obtain rfl := Sum.inl.inj hargv
      intro e he
      rcases List.mem_append.mp he with hold | hnew
      · exact hlog e hold
      · rw [List.mem_singleton.mp hnew]
        exact .tooMany
    · obtain ⟨-, argv, hargv⟩ := storeArg_map h
      obtain rfl := Sum.inl.inj hargv
      exact hlog

theorem exit_parseStep (h : Exit parseStep p (.ok p')) : p' = p := by
  cases hload : loadByte p.mem p.buf with
  | error x =>
    unfold Exit parseStep at h
    rw [hload] at h
    exact nomatch h
  | ok c =>
    have h := (parseStep_eq hload).symm.trans h
    split_ifs at h
    · exact nomatch h
    · exact nomatch h
    · cases hstore : storeByte p.mem p.buf 0 with
      | error x =>
        rw [hstore] at h
        exact nomatch h
      | ok mem =>
        rw [hstore] at h
        exact nomatch h
    · exact (Sum.inr.inj (Except.ok.inj h)).symm
    · obtain ⟨-, argv, hargv⟩ := storeArg_map h
      exact nomatch hargv
    · obtain ⟨-, argv, hargv⟩ := storeArg_map h
      exact nomatch hargv

/-- What a command line has printed before its command is called. -/
def CmdResult.log : CmdResult → List Event
  | done log => log
  | call _ _ _ _ log => log

theorem log_dispatch (hlog : ∀ e ∈ p.log, LineEvent e) (h : dispatch p = .ok res) :
    ∀ e ∈ res.log, LineEvent e := by
  rcases dispatch_cases h with rfl | ⟨i, rfl⟩ | ⟨func, argc, argv, rfl⟩
  · exact hlog
  · intro e he
    rcases List.mem_append.mp he with hold | hnew
    · exact hlog e hold
    · rw [List.mem_singleton.mp hnew]
      exact .unknown i
  · exact hlog

end Log

/-! ## The run -/

section Run

variable {M : BitVec 64 → Option Byte} {img : KerninfoSymbols} {s s' : Session}
  {polls : List (BitVec 64)} {buf mem : List Byte} {out : List Output}

/-- All that has been printed is shown, and so will be what `parse` has left to print. -/
structure Legible (M : BitVec 64 → Option Byte) (s : Session) : Prop where
  out : ∃ text, Displays M s.out text
  log : ∀ p polls out, s.ctl = .runcmd p polls out → ∀ e ∈ p.log, LineEvent e

theorem Legible.prompt (hout : ∃ text, Displays M out text) (s : Session) :
    Legible M (s.prompt buf polls out) := by
  obtain ⟨text, htext⟩ := hout
  exact ⟨⟨_, htext.append displays_promptK⟩, nofun⟩

theorem Legible.kmonitor (hout : ∃ text, Displays M out text) (c : Crash)
    (lines : List (List Byte)) : Legible M (c.kmonitor lines buf polls out) := by
  obtain ⟨text, htext⟩ := hout
  exact ⟨⟨_, (htext.append displays_monitorBanner).append displays_promptK⟩, nofun⟩

theorem Legible.panic (hout : ∃ text, Displays M out text) {call : PanicCall}
    (hmsg : ∃ text, Displays M call.message text) (c : Crash) (lines : List (List Byte)) :
    Legible M (panic call c lines buf polls out) := by
  refine Legible.kmonitor ?_ _ _
  split
  · exact hout
  · obtain ⟨text, htext⟩ := hout
    obtain ⟨text', htext'⟩ := hmsg
    exact ⟨_, htext.append htext'⟩

/-- The panic of `print_stackframe`. -/
theorem exists_displays_stackframe {call : PanicCall} (h : printStackframe = .error call) :
    ∃ text, Displays M call.message text := by
  obtain rfl := Except.error.inj h
  have hmsg := (prints_plain (M := M) (l := bytes "Not Implemented!") rfl []).emits
  exact ⟨_, displays_message (bytes "kern/debug/kdebug.c") (ne_zero_of_mem_bytes rfl)
    (by decide +kernel) rfl hmsg⟩

theorem Legible.finish (hout : ∃ text, Displays M out text) {res : CmdResult}
    (hlog : ∀ e ∈ res.log, LineEvent e) (s : Session) :
    Legible M (s.finish img mem polls out res) := by
  have hline : ∀ mem, ∃ text, Displays M (out ++ res.log.flatMap (Event.output mem)) text := by
    intro mem
    obtain ⟨text, htext⟩ := hout
    obtain ⟨text', htext'⟩ := exists_displays_log (M := M) hlog mem
    exact ⟨_, htext.append htext'⟩
  cases res with
  | done log => exact Legible.prompt (hline mem) s
  | call func argc argv mem log =>
    obtain ⟨text, htext⟩ := hline mem
    cases func with
    | mon_help =>
      obtain ⟨help, hhelp⟩ := exists_displays_help (M := M)
      exact Legible.prompt ⟨_, htext.append hhelp⟩ s
    | mon_kerninfo =>
      obtain ⟨info, hinfo⟩ := exists_displays_kerninfo (M := M) img
      exact Legible.prompt ⟨_, htext.append hinfo⟩ s
    | mon_backtrace => exact Legible.panic ⟨_, htext⟩ (exists_displays_stackframe rfl) _ _

theorem Legible.step (h : Legible M s) (hstep : Step (panicStep img) s s') : Legible M s' := by
  obtain ⟨⟨text, htext⟩, hlog⟩ := h
  have hread : ∀ {r res}, s.ctl = .readline r → readlineStep r = .ok res →
      ∃ text, Displays M (res.elim id Prod.snd).out text := by
    intro r res hctl hr
    obtain ⟨cs, hcs⟩ := readlineStep_out hr
    obtain ⟨echo, hecho⟩ := exists_displays_echo (M := M) cs
    rw [Session.out, hctl] at htext
    rw [hcs]
    exact ⟨_, htext.append hecho⟩
  rcases panicStep_cases hstep with ⟨r, r', hctl, hr, rfl⟩ | ⟨r, r', hctl, hr, rfl⟩ |
    ⟨r, r', buf, hctl, hr, rfl⟩ | ⟨p, p', polls, out, hctl, hp, rfl⟩ |
    ⟨p, p', polls, out, res, hctl, hp, hd, rfl⟩
  · refine ⟨hread hctl hr, ?_⟩
    rintro p polls out ⟨⟩
  · exact Legible.prompt (hread hctl hr) s
  · refine ⟨hread hctl hr, ?_⟩
    rintro p polls out ⟨⟩
    exact fun e he => absurd he List.not_mem_nil
  · rw [Session.out, hctl] at htext
    refine ⟨⟨text, htext⟩, ?_⟩
    rintro q polls' out' ⟨⟩
    exact log_parseStep (hlog p polls out hctl) hp
  · rw [Session.out, hctl] at htext
    obtain rfl := exit_parseStep hp
    exact Legible.finish ⟨text, htext⟩ (log_dispatch (hlog _ _ _ hctl) hd) s

/-- What a panic shows at once. -/
def panicText (file : List Byte) (line : BitVec 64) (message : List Byte) : List Byte :=
  messageText file line message ++ bannerText ++ bytes "K> "

/-- After a panic, whatever is typed, all the calls of `cprintf` return: each finds its arguments
and the ends of its strings. The first panic shows where it has been called, its message, the
banner of the monitor and the prompt. -/
theorem panic_prints (img : KerninfoSymbols) (file : List Byte) {call : PanicCall}
    {T : List (BitVec 32)} (hnul : ∀ c ∈ file, c ≠ 0) (hlen : file.length < 2 ^ 31)
    (hfile : call.file = file ++ [0]) (hmsg : Emits M call.fmt call.ap T) (c : Crash)
    (lines : List (List Byte))
    (reach : Steps (panicStep img) (panic call c lines buf polls []) s) :
    ∃ text, (∀ console, Shows M s.out console (console ++ text)) ∧
      (c.is_panic = false → panicText file call.line (stored T) <+: text) := by
  have hempty : ∃ text, Displays M [] text := ⟨[], fun console => (List.append_nil console).symm⟩
  have hmessage := displays_message (M := M) file hnul hlen hfile hmsg
  have hstart : Legible M (panic call c lines buf polls []) :=
    Legible.panic hempty ⟨_, hmessage⟩ c lines
  obtain ⟨text, htext⟩ := (reach.invariant (fun _ _ => Legible.step) hstart).out
  refine ⟨text, htext, fun hfirst => ?_⟩
  obtain ⟨later, hlater⟩ := out_steps reach
  have hopening : Displays M (panic call c lines buf polls []).out
      (panicText file call.line (stored T)) := by
    rw [out_panic, if_neg (Bool.eq_false_iff.mp hfirst), List.nil_append]
    exact (hmessage.append displays_monitorBanner).append displays_promptK
  have hall := htext []
  rw [← hlater] at hall
  obtain ⟨mid, hfirst, hrest⟩ := hall.of_append
  rw [hfirst.unique (hopening [])] at hrest
  exact hrest.isPrefix

/-- `help` is typed after a panic of `pa2page`. -/
theorem panic_prints_help :
    ∃ s text, Steps (panicStep ⟨0, 0, 0, 0⟩) (panic
        ⟨cstr "kern/mm/pmm.h", 93, cstr "pa2page called with invalid pa", []⟩ ⟨false, 2, 0⟩ []
        (List.replicate BUFSIZE 0) (words (bytes "help\n")) []) s ∧
      Shows (fun _ => none) s.out [] text ∧
      bytes "kernel panic at kern/mm/pmm.h:93:\n    pa2page called with invalid pa\n" <+: text := by
  let call : PanicCall :=
    ⟨cstr "kern/mm/pmm.h", 93, cstr "pa2page called with invalid pa", []⟩
  have hsome : ((panicDialog call ⟨false, 2, 0⟩ []).run ⟨0, 0, 0, 0⟩
      (words (bytes "help\n"))).isSome = true := by
    decide +kernel
  obtain ⟨d, hd⟩ := Option.isSome_iff_exists.mp hsome
  obtain ⟨s, hsteps, -⟩ :=
    ((attends_panic List.length_replicate call ⟨false, 2, 0⟩ []).run _).1 d hd
  have hmsg := (prints_plain (M := fun _ => none) (l := bytes "pa2page called with invalid pa") rfl
    []).emits
  obtain ⟨text, htext, hfirst⟩ := panic_prints ⟨0, 0, 0, 0⟩ (bytes "kern/mm/pmm.h")
    (ne_zero_of_mem_bytes rfl) (by decide +kernel) rfl hmsg _ _ hsteps
  refine ⟨s, text, hsteps, htext [], List.IsPrefix.trans ?_ (hfirst rfl)⟩
  decide +kernel

end Run

end CertiCore
