import CertiCore.Libs.Proofs.FieldProofs
import CertiCore.Libs.Proofs.StdioProofs
import CertiCore.Trap.Trap

/-!
# Proofs: the register dump

Every field of a trapframe is printed with `%08x`, which takes an `unsigned int`: eight digits show
the lower half of the field, and nothing shows the upper half.
-/

namespace CertiCore

open Loop

/-! ## What is printed -/

/-- The calls of `cprintf` of a log. -/
def outputs (log : List Event) : List Output :=
  log.filterMap fun e => match e with
    | .cprintf fmt args => some (.cprintf (cstr fmt) (vaWords args))
    | .sbiSetTimer _ => none

/-- `print_trapframe` puts `T` on the console. -/
def Dumps (M : BitVec 64 → Option Byte) (c : TrapCall) (T : List Byte) : Prop :=
  ∀ k out, ∃ log, (printTrapframe c k).log = k.log ++ log ∧
    Shows M (outputs log) out (out ++ T)

/-- The saved registers, in the order in which they are printed. -/
def PushRegs.regs (gpr : PushRegs) : List (BitVec 64) :=
  [gpr.zero, gpr.ra, gpr.sp, gpr.gp, gpr.tp, gpr.t0, gpr.t1, gpr.t2, gpr.s0, gpr.s1, gpr.a0,
    gpr.a1, gpr.a2, gpr.a3, gpr.a4, gpr.a5, gpr.a6, gpr.a7, gpr.s2, gpr.s3, gpr.s4, gpr.s5,
    gpr.s6, gpr.s7, gpr.s8, gpr.s9, gpr.s10, gpr.s11, gpr.t3, gpr.t4, gpr.t5, gpr.t6]

def Trapframe.fields (tf : Trapframe) : List (BitVec 64) :=
  tf.gpr.regs ++ [tf.status, tf.epc, tf.badvaddr, tf.cause]

def fieldFormats : List String :=
  ["  zero     0x%08x\n", "  ra       0x%08x\n", "  sp       0x%08x\n", "  gp       0x%08x\n",
    "  tp       0x%08x\n", "  t0       0x%08x\n", "  t1       0x%08x\n", "  t2       0x%08x\n",
    "  s0       0x%08x\n", "  s1       0x%08x\n", "  a0       0x%08x\n", "  a1       0x%08x\n",
    "  a2       0x%08x\n", "  a3       0x%08x\n", "  a4       0x%08x\n", "  a5       0x%08x\n",
    "  a6       0x%08x\n", "  a7       0x%08x\n", "  s2       0x%08x\n", "  s3       0x%08x\n",
    "  s4       0x%08x\n", "  s5       0x%08x\n", "  s6       0x%08x\n", "  s7       0x%08x\n",
    "  s8       0x%08x\n", "  s9       0x%08x\n", "  s10      0x%08x\n", "  s11      0x%08x\n",
    "  t3       0x%08x\n", "  t4       0x%08x\n", "  t5       0x%08x\n", "  t6       0x%08x\n",
    "  status   0x%08x\n", "  epc      0x%08x\n", "  badvaddr 0x%08x\n", "  cause    0x%08x\n"]

theorem log_printTrapframe (c : TrapCall) (k : Kernel) :
    (printTrapframe c k).log = k.log ++ .cprintf "trapframe at %p\n" [c.addr] ::
      List.zipWith (fun fmt v => .cprintf fmt [v]) fieldFormats c.tf.fields := by
  simp only [printTrapframe, printRegs, cprintf, List.foldl_cons, List.foldl_nil,
    List.append_assoc]
  rfl

/-! ## The text of a field -/

/-- The lower half of a word as eight hexadecimal digits. -/
def lowText (v : BitVec 64) : List Byte := (Radix.padded 16 8 (v.setWidth 32).toNat).map digitChar

theorem low_lt (v : BitVec 64) : (v.setWidth 32).toNat < 16 ^ 8 := (v.setWidth 32).isLt

theorem length_lowText (v : BitVec 64) : (lowText v).length = 8 := by
  rw [lowText, List.length_map]
  exact Radix.length_padded (by decide) (by decide) (low_lt v)

theorem map_digitChar_inj {ds ds' : List ℕ} (hds : ∀ d ∈ ds, d < 16) (hds' : ∀ d ∈ ds', d < 16)
    (h : ds.map digitChar = ds'.map digitChar) : ds = ds' := by
  have hchar : ∀ d < 16, ∀ d' < 16, digitChar d = digitChar d' → d = d' := by decide
  induction ds generalizing ds' with
  | nil => exact (List.map_eq_nil_iff.mp h.symm).symm
  | cons d ds ih =>
    cases ds' with
    | nil => exact nomatch h
    | cons d' ds' =>
      obtain ⟨hd, hrest⟩ := List.cons.inj h
      rw [List.forall_mem_cons] at hds hds'
      rw [hchar d hds.1 d' hds'.1 hd, ih hds.2 hds'.2 hrest]

theorem lowText_inj {v v' : BitVec 64} :
    lowText v = lowText v' ↔ v.setWidth 32 = v'.setWidth 32 := by
  constructor
  · intro h
    have hdigits := map_digitChar_inj (Radix.padded_lt (by decide)) (Radix.padded_lt (by decide)) h
    exact BitVec.eq_of_toNat_eq (Radix.padded_injective (by decide) hdigits)
  · intro h
    rw [lowText, lowText, h]

section

variable {M : BitVec 64 → Option Byte}

/-- `%08x` prints the lower half of its argument. -/
theorem prints_lowText (v : BitVec 64) :
    Prints M (bytes "%08x") [.word v] [] (chars (lowText v)) := by
  have hflags : ∀ c ∈ [ch '0'], isAnyFlag c = true := by decide
  have hmods : ∀ c ∈ ([] : List Byte), isLateFlag c = true := nofun
  have hwidth : numeral 10 8 = [ch '8'] := numeral_of_lt (by omega)
  have hlow : ((v.setWidth 32).setWidth 64).toNat = (v.setWidth 32).toNat := by
    rw [BitVec.toNat_setWidth]
    have hlt := low_lt v
    omega
  have hnum : (label (ch 'x')).number (BitVec.ofNat 32 (([ch '0'] ++ []).count (ch 'l'))) v =
      some ⟨[], 16, (v.setWidth 32).toNat⟩ := by
    rw [← hlow]
    rfl
  have hprints := prints_number (M := M) hflags (Width.digits 8 (by omega)) hmods hnum []
  have hlen : (numeral 16 (v.setWidth 32).toNat).length ≤ 8 := by
    rw [length_numeral]
    exact Radix.length_digits_le_of_lt_pow (by decide) (by decide) (low_lt v)
  have htext : List.replicate (padCount 8 (numeral 16 (v.setWidth 32).toNat).length) (ch '0') ++
      numeral 16 (v.setWidth 32).toNat = lowText v := by
    have hzero : ch '0' = digitChar 0 := rfl
    have hcount : padCount 8 (numeral 16 (v.setWidth 32).toNat).length =
        8 - (numeral 16 (v.setWidth 32).toNat).length := by
      rw [padCount_eq 8 (by omega)]
      split
      · omega
      · omega
    rw [hcount, length_numeral, numeral, lowText, Radix.padded, List.map_append,
      List.map_replicate, hzero]
  rw [hwidth] at hprints
  rw [← htext]
  exact hprints

/-! ## The text of the dump -/

/-- A format that shows one field at its end. -/
def isFieldFormat (fmt : String) : Bool :=
  (bytes fmt).drop ((bytes fmt).length - 5) == bytes "%08x\n" &&
    ((bytes fmt).take ((bytes fmt).length - 5)).all fun c => c != ch '%' && c != 0

theorem isFieldFormat_of_mem : ∀ fmt ∈ fieldFormats, isFieldFormat fmt = true := by
  decide +kernel

/-- The line of a field. -/
def line (fmt : String) (v : BitVec 64) : List Byte :=
  (bytes fmt).take ((bytes fmt).length - 5) ++ lowText v ++ [ch '\n']

theorem emits_line {fmt : String} (hfmt : isFieldFormat fmt = true) (v : BitVec 64) :
    Emits M (cstr fmt) [.word v] (chars (line fmt v)) := by
  obtain ⟨hdrop, hplain⟩ := Bool.and_eq_true_iff.mp hfmt
  have hsplit : bytes fmt =
      (bytes fmt).take ((bytes fmt).length - 5) ++ (bytes "%08x" ++ [ch '\n']) := by
    have hdrop := eq_of_beq hdrop
    have htail : bytes "%08x" ++ [ch '\n'] = bytes "%08x\n" := rfl
    rw [htail, ← hdrop, List.take_append_drop]
  have hpre : ∀ c ∈ (bytes fmt).take ((bytes fmt).length - 5), c ≠ ch '%' ∧ c ≠ 0 := by
    intro c hc
    obtain ⟨hpct, hnul⟩ := Bool.and_eq_true_iff.mp (List.all_eq_true.mp hplain c hc)
    exact ⟨bne_iff_ne.mp hpct, bne_iff_ne.mp hnul⟩
  have hend : ∀ c ∈ [ch '\n'], c ≠ ch '%' ∧ c ≠ 0 := by decide
  have hprints := (prints_chars (M := M) _ [.word v] hpre).append
    ((prints_lowText v).append (prints_chars [ch '\n'] [] hend))
  rw [← hsplit, ← chars_append, ← chars_append, ← List.append_assoc] at hprints
  exact hprints.emits

/-- The lines of some fields. -/
def lines (fmts : List String) (vs : List (BitVec 64)) : List Byte :=
  (List.zipWith line fmts vs).flatten

theorem shows_lines {fmts : List String} (hfmts : ∀ fmt ∈ fmts, isFieldFormat fmt = true)
    (vs : List (BitVec 64)) (out : List Byte) :
    Shows M (outputs (List.zipWith (fun fmt v => .cprintf fmt [v]) fmts vs)) out
      (out ++ lines fmts vs) := by
  induction fmts generalizing vs out with
  | nil => exact (List.append_nil out).symm
  | cons fmt fmts ih =>
    cases vs with
    | nil => exact (List.append_nil out).symm
    | cons v vs =>
      obtain ⟨hfmt, hrest⟩ := List.forall_mem_cons.mp hfmts
      have hline := shows_cprintf (emits_line (M := M) hfmt v) out
      rw [stored_chars] at hline
      have happend := hline.append (ih hrest vs (out ++ line fmt v))
      rw [List.append_assoc] at happend
      exact happend

/-- The lines tell the lower halves of the fields, and nothing else. -/
theorem lines_inj {fmts : List String} {vs vs' : List (BitVec 64)} (hlen : vs.length = fmts.length)
    (hlen' : vs'.length = fmts.length) :
    lines fmts vs = lines fmts vs' ↔ vs.map (·.setWidth 32) = vs'.map (·.setWidth 32) := by
  induction fmts generalizing vs vs' with
  | nil =>
    rw [List.eq_nil_of_length_eq_zero hlen, List.eq_nil_of_length_eq_zero hlen']
    exact iff_of_true rfl rfl
  | cons fmt fmts ih =>
    obtain ⟨v, vs, rfl⟩ := List.exists_cons_of_length_eq_add_one hlen
    obtain ⟨v', vs', rfl⟩ := List.exists_cons_of_length_eq_add_one hlen'
    have hline : ∀ u, (line fmt u).length =
        ((bytes fmt).take ((bytes fmt).length - 5)).length + 9 := by
      intro u
      rw [line, List.length_append, List.length_append, length_lowText]
      rfl
    have hsplit : ∀ u us, lines (fmt :: fmts) (u :: us) = line fmt u ++ lines fmts us :=
      fun _ _ => rfl
    rw [hsplit, hsplit, List.map_cons, List.map_cons, List.cons.injEq,
      ← ih (Nat.succ.inj hlen) (Nat.succ.inj hlen'), ← lowText_inj]
    constructor
    · intro h
      obtain ⟨hfirst, hrest⟩ := List.append_inj h ((hline v).trans (hline v').symm)
      exact ⟨List.append_cancel_left (List.append_cancel_right hfirst), hrest⟩
    · rintro ⟨hfirst, hrest⟩
      rw [line, line, hfirst, hrest]

/-- The line with the address of the trapframe. -/
theorem exists_emits_address (addr : BitVec 64) :
    ∃ P, Emits M (cstr "trapframe at %p\n") [.word addr] (chars P) := by
  have hpre : ∀ c ∈ bytes "trapframe at ", c ≠ ch '%' ∧ c ≠ 0 := by
    decide +kernel
  have hend : ∀ c ∈ [ch '\n'], c ≠ ch '%' ∧ c ≠ 0 := by decide
  have hnum : (label (ch 'p')).number Esc.init.lflag addr = some ⟨bytes "0x", 16, addr.toNat⟩ := rfl
  have haddr := (modifies_nil (M := M) [.word addr]).prints rfl (converts_number hnum)
  have hprints := (prints_chars (M := M) _ [.word addr] hpre).append
    (haddr.append (prints_chars [ch '\n'] [] hend))
  rw [← chars_append, ← chars_append] at hprints
  exact ⟨_, hprints.emits⟩

theorem length_fields (tf : Trapframe) : tf.fields.length = fieldFormats.length := rfl

/-- The address, and a line for each field. -/
theorem exists_dumps (addr : BitVec 64) : ∃ P, ∀ (tf : Trapframe) (time : BitVec 64),
    Dumps M ⟨tf, addr, time⟩ (P ++ lines fieldFormats tf.fields) := by
  obtain ⟨P, hP⟩ := exists_emits_address (M := M) addr
  refine ⟨P, ?_⟩
  intro tf time k out
  refine ⟨_, log_printTrapframe _ k, ?_⟩
  have haddr := shows_cprintf hP out
  have hlines := shows_lines (M := M) isFieldFormat_of_mem tf.fields (out ++ P)
  rw [stored_chars] at haddr
  rw [List.append_assoc] at hlines
  exact haddr.append hlines

theorem Dumps.unique {c : TrapCall} {T T' : List Byte} (h : Dumps M c T) (h' : Dumps M c T') :
    T = T' := by
  have k : Kernel := ⟨0, 0, []⟩
  obtain ⟨log, hlog, hshows⟩ := h k []
  obtain ⟨log', hlog', hshows'⟩ := h' k []
  obtain rfl := List.append_cancel_left (hlog.symm.trans hlog')
  exact hshows.unique hshows'

/-! ## The property -/

/-- The dumps of two trapframes at the same address are not the same. -/
def DumpsDiffer (M : BitVec 64 → Option Byte) (addr : BitVec 64) (tf tf' : Trapframe) : Prop :=
  ∀ time time', ∃ T T', Dumps M ⟨tf, addr, time⟩ T ∧ Dumps M ⟨tf', addr, time'⟩ T' ∧ T ≠ T'

/-- They tell trapframes apart exactly if the lower halves of some field do. -/
theorem dumps_differ_iff (M : BitVec 64 → Option Byte) (addr : BitVec 64) (tf tf' : Trapframe) :
    DumpsDiffer M addr tf tf' ↔
      tf.fields.map (·.setWidth 32) ≠ tf'.fields.map (·.setWidth 32) := by
  obtain ⟨P, hP⟩ := exists_dumps (M := M) addr
  rw [Ne, ← lines_inj (length_fields tf) (length_fields tf')]
  constructor
  · rintro h heq
    obtain ⟨T, T', hT, hT', hne⟩ := h 0 0
    rw [hT.unique (hP tf 0), hT'.unique (hP tf' 0), heq] at hne
    exact hne rfl
  · intro hne time time'
    exact ⟨_, _, hP tf time, hP tf' time', fun heq => hne (List.append_cancel_left heq)⟩

end

/-- A trapframe with the value `v` in `a0`, and zero in its other fields. -/
def frameWith (v : BitVec 64) : Trapframe :=
  ⟨⟨0, 0, 0, 0, 0, 0, 0, 0, 0, 0, v, 0, 0, 0, 0, 0, 0, 0, 0, 0, 0, 0, 0, 0, 0, 0, 0, 0, 0, 0, 0, 0⟩,
    0, 0, 0, 0⟩

/-- Two values of `a0` that differ in their upper halves only. -/
theorem dumps_differ_upper : ¬ ∀ (M : BitVec 64 → Option Byte) (addr : BitVec 64)
    (tf tf' : Trapframe), tf ≠ tf' → DumpsDiffer M addr tf tf' := by
  intro h
  have hne : frameWith 0 ≠ frameWith 0x100000000 := by
    intro heq
    have ha0 := congrArg (fun tf => tf.gpr.a0) heq
    exact absurd ha0 (by decide)
  have hdiffer := h (fun _ => none) 0 _ _ hne 0 0
  obtain ⟨P, hP⟩ := exists_dumps (M := fun _ => none) 0
  obtain ⟨T, T', hT, hT', hTT'⟩ := hdiffer
  have hlines : lines fieldFormats (frameWith 0).fields =
      lines fieldFormats (frameWith 0x100000000).fields := by
    rw [lines_inj (length_fields _) (length_fields _)]
    decide
  rw [hT.unique (hP _ 0), hT'.unique (hP _ 0), hlines] at hTT'
  exact hTT' rfl

end CertiCore
