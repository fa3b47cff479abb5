import CertiCore.Libs.Proofs.VprintfmtProofs

/-!
# Proofs: numeric fields

The sign or the prefix of a number is emitted before `printnum` pads the digits, and the width that
`printnum` gets is not reduced by them.
-/

namespace CertiCore

open Loop

/-! ## Flags -/

/-- The flags and the modifier that leave the width alone, without `-`. -/
def isFlag (c : Byte) : Bool := c ∈ bytes "0l#"

/-- The flags and the modifier, with `-`. -/
def isAnyFlag (c : Byte) : Bool := c ∈ bytes "-0l#"

/-- The pad character after flags: the last one of `-` and `0`. -/
def padAfter (padc : Byte) (flags : List Byte) : Byte :=
  flags.foldl (fun padc c => if c = ch '-' ∨ c = ch '0' then c else padc) padc

/-- The variables after flags. -/
def Esc.flags (e : Esc) (flags : List Byte) : Esc :=
  { e with
    padc := padAfter e.padc flags
    lflag := e.lflag + BitVec.ofNat 32 (flags.count (ch 'l'))
    altflag := e.altflag || flags.contains (ch '#') }

section

variable {M : BitVec 64 → Option Byte} {u : Except Halt (BitVec 32)} {e : Esc}

theorem isAnyFlag_of_isFlag {c : Byte} (hc : isFlag c = true) : isAnyFlag c = true := by
  have hcases : c = ch '0' ∨ c = ch 'l' ∨ c = ch '#' := by simpa [isFlag, bytes] using hc
  rcases hcases with rfl | rfl | rfl
  · rfl
  · rfl
  · rfl

theorem padAfter_append (padc : Byte) (flags flags' : List Byte) :
    padAfter padc (flags ++ flags') = padAfter (padAfter padc flags) flags' := List.foldl_append

/-- Without `-` there is only one pad character that flags can bring. -/
theorem padAfter_of_not_mem {flags : List Byte} (hminus : ch '-' ∉ flags) (padc : Byte) :
    padAfter padc flags = if ch '0' ∈ flags then ch '0' else padc := by
  induction flags generalizing padc with
  | nil => rfl
  | cons c flags ih =>
    rw [List.mem_cons, not_or] at hminus
    have hrest := ih hminus.2
    rw [padAfter, List.foldl_cons, ← padAfter, hrest]
    by_cases hzero : c = ch '0'
    · subst hzero
      rw [if_pos (Or.inr rfl), ite_self, if_pos List.mem_cons_self]
    · rw [if_neg (not_or.mpr ⟨Ne.symm hminus.1, hzero⟩)]
      simp only [List.mem_cons, Ne.symm hzero, false_or]

theorem Esc.flags_nil (e : Esc) : e.flags [] = e := by
  have hlflag : e.lflag + BitVec.ofNat 32 0 = e.lflag := add_zero e.lflag
  unfold Esc.flags
  rw [List.count_nil, hlflag, List.contains_nil, Bool.or_false]
  rfl

theorem Esc.flags_append (e : Esc) (flags flags' : List Byte) :
    (e.flags flags).flags flags' = e.flags (flags ++ flags') := by
  unfold Esc.flags
  rw [padAfter_append, List.count_append, BitVec.ofNat_add, ← BitVec.add_assoc, Bool.or_assoc,
    List.contains_append]

/-- What one flag does. -/
theorem flag_eq {c : Byte} (hc : isAnyFlag c = true) (e : Esc) :
    e.flag (label c) = some (e.flags [c]) := by
  have hcases : c = ch '-' ∨ c = ch '0' ∨ c = ch 'l' ∨ c = ch '#' := by
    simpa [isAnyFlag, bytes] using hc
  have hlflag : e.lflag + BitVec.ofNat 32 0 = e.lflag := add_zero e.lflag
  have halt : (e.altflag || false) = e.altflag := Bool.or_false _
  have halt' : (e.altflag || true) = true := Bool.or_true _
  rcases hcases with rfl | rfl | rfl | rfl
  · show _ = some (⟨_, _, _, e.lflag + BitVec.ofNat 32 0, e.altflag || false⟩ : Esc)
    rw [hlflag, halt]
    rfl
  · show _ = some (⟨_, _, _, e.lflag + BitVec.ofNat 32 0, e.altflag || false⟩ : Esc)
    rw [hlflag, halt]
    rfl
  · show _ = some (⟨_, _, _, _, e.altflag || false⟩ : Esc)
    rw [halt]
    rfl
  · show _ = some (⟨_, _, _, e.lflag + BitVec.ofNat 32 0, e.altflag || true⟩ : Esc)
    rw [hlflag, halt']
    rfl

theorem escape_flags {flags : List Byte} (hflags : ∀ c ∈ flags, isAnyFlag c = true) (e : Esc)
    (a b : List Byte) (ap : List VaArg) (callers : List FmtFrame) (t : List (BitVec 32)) :
    Steps (vprintfmtStep (collector M u)) (fmtAt a (flags ++ b) ap (.escape e) callers t)
      (fmtAt (a ++ flags) b ap (.escape (e.flags flags)) callers t) := by
  induction flags generalizing e a with
  | nil =>
    rw [List.append_nil, e.flags_nil]
    exact Steps.refl _
  | cons c flags ih =>
    have hflag := flag_eq (hflags c List.mem_cons_self) e
    have hrest := ih (fun d hd => hflags d (List.mem_cons_of_mem c hd)) (e.flags [c]) (a ++ [c])
    rw [List.append_assoc, e.flags_append] at hrest
    exact (escape_flag hflag).steps.trans hrest

/-! ## Widths -/

theorem digitChar_sub {d : ℕ} (hd : d < 10) :
    (digitChar d).setWidth 32 - (ch '0').setWidth 32 = BitVec.ofNat 32 d := by
  revert d
  decide

theorem isDigit_digitChar {d : ℕ} (hd : d < 10) : isDigit (digitChar d) = true := by
  revert d
  decide

theorem label_digitChar {d : ℕ} (hd : d < 10) (h0 : d ≠ 0) : label (digitChar d) = .digit := by
  revert d
  decide

theorem addDigit_digitChar {d p : ℕ} (hd : d < 10) (e : Esc) :
    { e with precision := BitVec.ofNat 32 p }.addDigit (digitChar d) =
      { e with precision := BitVec.ofNat 32 (p * 10 + d) } := by
  have hprecision : BitVec.ofNat 32 p * 10 + (digitChar d).setWidth 32 - (ch '0').setWidth 32 =
      BitVec.ofNat 32 (p * 10 + d) := by
    rw [add_sub_assoc, digitChar_sub hd, BitVec.ofNat_add, BitVec.ofNat_mul]
    rfl
  unfold Esc.addDigit
  dsimp only
  rw [hprecision]

/-- The loop over the digits of a number, of which `p` and `d` have been read. -/
theorem digits_run (ds : List ℕ) (hds : ∀ d ∈ ds, d < 10) {d p : ℕ} (hd : d < 10) (e : Esc)
    {c : Byte} (hc : isDigit c = false) (a b : List Byte) (ap : List VaArg)
    (callers : List FmtFrame) (t : List (BitVec 32)) :
    Steps (vprintfmtStep (collector M u))
      (fmtAt a (ds.map digitChar ++ c :: b) ap
        (.digits { e with precision := BitVec.ofNat 32 p } (digitChar d)) callers t)
      (fmtAt (a ++ ds.map digitChar) (c :: b) ap
        (.escape { e with
          precision := BitVec.ofNat 32 (ds.foldl (fun acc d => acc * 10 + d) (p * 10 + d))
        }.processPrecision) callers t) := by
  induction ds generalizing a d p with
  | nil =>
    rw [List.map_nil, List.append_nil, List.foldl_nil, ← addDigit_digitChar hd]
    exact (digits_end _ hc).steps
  | cons d' ds ih =>
    have hd' : d' < 10 := hds d' List.mem_cons_self
    have hstep : Step (vprintfmtStep (collector M u))
        (fmtAt a (digitChar d' :: (ds.map digitChar ++ c :: b)) ap
          (.digits { e with precision := BitVec.ofNat 32 p } (digitChar d)) callers t)
        (fmtAt (a ++ [digitChar d']) (ds.map digitChar ++ c :: b) ap
          (.digits { e with precision := BitVec.ofNat 32 (p * 10 + d) } (digitChar d')) callers
          t) := by
      rw [← addDigit_digitChar hd]
      exact digits_digit _ (isDigit_digitChar hd')
    have hrest := ih (fun x hx => hds x (List.mem_cons_of_mem d' hx)) (p := p * 10 + d) hd'
      (a ++ [digitChar d'])
    rw [List.append_assoc] at hrest
    exact hstep.steps.trans hrest

/-- A number in an escape sequence. -/
theorem escape_numeral {w : ℕ} (hw : w ≠ 0) (e : Esc) {c : Byte} (hc : isDigit c = false)
    (a b : List Byte) (ap : List VaArg) (callers : List FmtFrame) (t : List (BitVec 32)) :
    Steps (vprintfmtStep (collector M u))
      (fmtAt a (numeral 10 w ++ c :: b) ap (.escape e) callers t)
      (fmtAt (a ++ numeral 10 w) (c :: b) ap
        (.escape { e with precision := BitVec.ofNat 32 w }.processPrecision) callers t) := by
  have hlt : ∀ d ∈ Radix.digits 10 w, d < 10 := Radix.digits_lt (by decide)
  have hvalue := Radix.value_digits (b := 10) (by decide) w
  unfold numeral
  cases hds : Radix.digits 10 w with
  | nil => exact absurd hds (Radix.digits_ne_nil 10 w)
  | cons d ds =>
    rw [hds] at hlt hvalue
    have hd : d < 10 := hlt d List.mem_cons_self
    have hlabel := label_digitChar hd (Radix.head_digits_ne_zero hds hw)
    have hrun := digits_run (M := M) (u := u) ds (fun x hx => hlt x (List.mem_cons_of_mem d hx))
      (p := 0) hd e hc (a ++ [digitChar d]) b ap callers t
    have hfold : ds.foldl (fun acc d => acc * 10 + d) (0 * 10 + d) = w := hvalue
    rw [List.append_assoc, hfold] at hrun
    exact (escape_digit hlabel).steps.trans hrun

/-- A width as it stands in a format: its value, its characters and the argument that it takes. -/
inductive Width : ℕ → List Byte → List (BitVec 64) → Prop where
  | none : Width 0 [] []
  | digits (w : ℕ) (h : w ≠ 0) : Width w (numeral 10 w) []
  | star (v : BitVec 64) (h : 0 ≤ (v.setWidth 32).toInt) :
    Width (v.setWidth 32).toInt.toNat [ch '*'] [v]

/-- The number of padding characters that `printnum` emits before `d` digits. -/
def padCount (w d : ℕ) : ℕ := (BitVec.ofNat 32 w - BitVec.ofNat 32 d).toInt.toNat

theorem padCount_eq {d : ℕ} (w : ℕ) (hd : d < 2 ^ 31) : padCount w d =
    if (w + (2 ^ 32 - d)) % 2 ^ 32 < 2 ^ 31 then (w + (2 ^ 32 - d)) % 2 ^ 32 else 0 := by
  have hnat : (BitVec.ofNat 32 w - BitVec.ofNat 32 d).toNat = (w + (2 ^ 32 - d)) % 2 ^ 32 := by
    rw [BitVec.toNat_sub, BitVec.toNat_ofNat, BitVec.toNat_ofNat]
    omega
  rw [padCount, toNat_toInt, hnat]

/-- The value of `width` that a width of `w` characters leaves: it stays negative if none is
given. -/
def IsWidth (w : ℕ) (width : BitVec 32) : Prop := width = BitVec.ofNat 32 w ∨ w = 0 ∧ width = -1

theorem IsWidth.padCount_eq {w d : ℕ} {width : BitVec 32} (h : IsWidth w width) (hd : d < 2 ^ 31) :
    (width - BitVec.ofNat 32 d).toInt.toNat = padCount w d := by
  rcases h with rfl | ⟨rfl, rfl⟩
  · rfl
  · rw [CertiCore.padCount_eq 0 hd, toNat_toInt_neg_one_sub hd]
    split
    · omega
    · rfl

/-- The variables after a width. -/
theorem escape_width {w : ℕ} {text : List Byte} {args : List (BitVec 64)} (h : Width w text args)
    (e : Esc) (hwidth : e.width = -1) (hprecision : e.precision = -1) :
    ∃ width, IsWidth w width ∧ ∀ a c b ap callers t, isDigit c = false →
      Steps (vprintfmtStep (collector M u))
        (fmtAt a (text ++ c :: b) (vaWords args ++ ap) (.escape e) callers t)
        (fmtAt (a ++ text) (c :: b) ap (.escape { e with width }) callers t) := by
  have hprocess : ∀ p, { e with precision := p }.processPrecision = { e with width := p } := by
    intro p
    have hneg : e.width.slt 0 = true := by
      rw [hwidth]
      rfl
    show _ = (⟨_, p, e.precision, _, _⟩ : Esc)
    rw [hprecision]
    exact if_pos hneg
  cases h with
  | none =>
    refine ⟨-1, Or.inr ⟨rfl, rfl⟩, ?_⟩
    intro a c b ap callers t _
    rw [List.append_nil, ← hwidth]
    exact Steps.refl _
  | digits w hw =>
    refine ⟨BitVec.ofNat 32 w, Or.inl rfl, ?_⟩
    intro a c b ap callers t hc
    rw [← hprocess]
    exact escape_numeral hw e hc a b ap callers t
  | star v hv =>
    have hword : v.setWidth 32 = BitVec.ofNat 32 (v.setWidth 32).toInt.toNat := by
      have hlt := BitVec.toInt_pos_iff.mp hv
      rw [BitVec.toInt_eq_toNat_of_lt hlt, Int.toNat_natCast, BitVec.ofNat_toNat,
        BitVec.setWidth_eq]
    refine ⟨v.setWidth 32, Or.inl hword, ?_⟩
    intro a c b ap callers t _
    rw [← hprocess]
    exact (escape_star v rfl).steps

/-- The flags that can stand behind a width. -/
def isLateFlag (c : Byte) : Bool := c ∈ bytes "-l#"

theorem isDigit_of_isLateFlag {c : Byte} (hc : isLateFlag c = true) : isDigit c = false := by
  have hcases : c = ch '-' ∨ c = ch 'l' ∨ c = ch '#' := by simpa [isLateFlag, bytes] using hc
  rcases hcases with rfl | rfl | rfl
  · rfl
  · rfl
  · rfl

theorem isAnyFlag_of_isLateFlag {c : Byte} (hc : isLateFlag c = true) : isAnyFlag c = true := by
  have hcases : c = ch '-' ∨ c = ch 'l' ∨ c = ch '#' := by simpa [isLateFlag, bytes] using hc
  rcases hcases with rfl | rfl | rfl
  · rfl
  · rfl
  · rfl

/-- The variables behind the flags, the width and a last part, which does `f` to them. -/
theorem exists_modifies_tail {flags text tail : List Byte} {w : ℕ} {args : List (BitVec 64)}
    {ap ap' : List VaArg} {f : Esc → Esc} (hflags : ∀ c ∈ flags, isAnyFlag c = true)
    (hw : Width w text args)
    (hhead : ∀ c b, isDigit c = false → ∃ d r, tail ++ c :: b = d :: r ∧ isDigit d = false)
    (htail : ∀ e a c b callers t, isDigit c = false → Steps (vprintfmtStep (collector M u))
      (fmtAt a (tail ++ c :: b) ap (.escape e) callers t)
      (fmtAt (a ++ tail) (c :: b) ap' (.escape (f e)) callers t)) :
    ∃ width, IsWidth w width ∧ Modifies M (flags ++ text ++ tail) (vaWords args ++ ap)
      (f ({ Esc.init with width }.flags flags)) ap' u := by
  obtain ⟨width, hwidth, hsteps⟩ := escape_width (M := M) (u := u) hw (Esc.init.flags flags) rfl rfl
  refine ⟨width, hwidth, ?_⟩
  intro a c b callers t hc
  obtain ⟨d, r, hdr, hd⟩ := hhead c b hc
  have h₁ := escape_flags (M := M) (u := u) hflags .init (a ++ [ch '%']) (text ++ tail ++ c :: b)
    (vaWords args ++ ap) callers t
  have h₂ := hsteps (a ++ [ch '%'] ++ flags) d r ap callers t hd
  have h₃ := htail ({ Esc.init with width }.flags flags) (a ++ [ch '%'] ++ flags ++ text) c b
    callers t hc
  rw [← hdr] at h₂
  simp only [List.append_assoc, List.cons_append] at h₁ h₂ h₃ ⊢
  exact ((scan_percent.steps.trans h₁).trans h₂).trans h₃

/-- The variables at the conversion of a field. -/
theorem exists_modifies_field {flags text mods : List Byte} {w : ℕ} {args : List (BitVec 64)}
    (hflags : ∀ c ∈ flags, isAnyFlag c = true) (hw : Width w text args)
    (hmods : ∀ c ∈ mods, isLateFlag c = true) (ap : List VaArg) :
    ∃ width, IsWidth w width ∧ Modifies M (flags ++ text ++ mods) (vaWords args ++ ap)
      ({ Esc.init with width }.flags (flags ++ mods)) ap u := by
  have hmods' : ∀ c ∈ mods, isAnyFlag c = true := fun c hc => isAnyFlag_of_isLateFlag (hmods c hc)
  have hhead : ∀ c b, isDigit c = false → ∃ d r, mods ++ c :: b = d :: r ∧ isDigit d = false := by
    intro c b hc
    cases mods with
    | nil => exact ⟨c, b, rfl, hc⟩
    | cons m mods =>
      exact ⟨m, mods ++ c :: b, rfl, isDigit_of_isLateFlag (hmods m List.mem_cons_self)⟩
  obtain ⟨width, hwidth, hmodifies⟩ := exists_modifies_tail (M := M) (u := u) hflags hw hhead
    fun e a c b callers t _ => escape_flags hmods' e a (c :: b) ap callers t
  refine ⟨width, hwidth, ?_⟩
  rw [← Esc.flags_append]
  exact hmodifies

/-! ## Right-justified fields -/

/-- The full text of a number: its sign or prefix, and its digits. -/
def Number.full (n : Number) : List Byte := n.sign ++ n.digits

theorem number_bounds {l : Label} {lflag : BitVec 32} {v : BitVec 64} {n : Number}
    (h : l.number lflag v = some n) :
    n.sign.length ≤ 2 ∧ 0 < n.digits.length ∧ n.digits.length ≤ 64 := by
  have habs : ∀ x : BitVec 64, x.toInt.natAbs < 2 ^ 64 := by
    intro x
    have hlt := x.toInt_lt
    have hle := x.le_toInt
    omega
  have hdigits : ∀ base abs, 1 < base → abs < 2 ^ 64 →
      0 < (numeral base abs).length ∧ (numeral base abs).length ≤ 64 := by
    intro base abs hbase hlt
    rw [length_numeral]
    exact ⟨Radix.length_digits_pos base abs, Radix.length_digits_le hbase (by omega) hlt⟩
  cases l
  case decimal =>
    obtain rfl := Option.some.inj h
    refine ⟨?_, hdigits 10 _ (by omega) (habs _)⟩
    dsimp only
    split
    · exact Nat.le_succ 1
    · exact Nat.zero_le 2
  case unsigned | octal | hex =>
    obtain rfl := Option.some.inj h
    refine ⟨Nat.zero_le 2, hdigits _ _ ?_ (BitVec.isLt _)⟩
    dsimp only
    omega
  case pointer =>
    obtain rfl := Option.some.inj h
    exact ⟨Nat.le_refl 2, hdigits 16 _ (by omega) (BitVec.isLt _)⟩
  all_goals exact nomatch h

/-- A field of the width `w` with the padding in front of the number, where zeros stand behind the
sign or the prefix. -/
structure RightJustified (zero : Bool) (w : ℕ) (n : Number) (field : List Byte) : Prop where
  length_eq : field.length = max w n.full.length
  field_eq : field =
    if zero then n.sign ++ List.replicate (w - n.full.length) (ch '0') ++ n.digits
    else List.replicate (w - n.full.length) (ch ' ') ++ n.full

/-- What is printed is right-justified if the padding has the right length. -/
theorem rightJustified_iff {n : Number} {w : ℕ} (zero : Bool) (hsign : n.sign.length ≤ 2)
    (hpos : 0 < n.digits.length) (hle : n.digits.length ≤ 64) :
    RightJustified zero w n (n.sign ++ (List.replicate (padCount w n.digits.length)
      (if zero then ch '0' else ch ' ') ++ n.digits)) ↔
      (n.sign = [] ∧ w < 2 ^ 31 + n.digits.length) ∨ w ≤ n.digits.length := by
  have hcount := padCount_eq w (by omega : n.digits.length < 2 ^ 31)
  have hfull : n.full.length = n.sign.length + n.digits.length := List.length_append
  generalize hk : padCount w n.digits.length = k at hcount
  constructor
  · rintro ⟨hlength, -⟩
    rw [List.length_append, List.length_append, List.length_replicate, hfull] at hlength
    by_cases hw : w ≤ n.digits.length
    · exact Or.inr hw
    · have hshort : n.sign.length = 0 ∧ w < 2 ^ 31 + n.digits.length := by
        split at hcount
        · omega
        · omega
      exact Or.inl ⟨List.eq_nil_of_length_eq_zero hshort.1, hshort.2⟩
  · intro h
    have hpad : k = w - n.full.length ∧ (n.sign = [] ∨ k = 0) := by
      rcases h with ⟨hnil, hw⟩ | hw
      · rw [hfull, hnil, List.length_nil]
        refine ⟨?_, Or.inl rfl⟩
        split at hcount
        · omega
        · omega
      · have hzero : k = 0 := by
          split at hcount
          · omega
          · omega
        exact ⟨by omega, Or.inr hzero⟩
    obtain ⟨hwidth, hsplit⟩ := hpad
    constructor
    · rw [List.length_append, List.length_append, List.length_replicate]
      omega
    · rw [← hwidth]
      cases zero with
      | true => simp
      | false =>
        rcases hsplit with hnil | hzero
        · simp [Number.full, hnil]
        · simp [Number.full, hzero]

/-- A width that fits in an `int` is counted down without an overflow. -/
theorem IsWidth.countsDown {w d : ℕ} {width : BitVec 32} (h : IsWidth w width) (hw : w < 2 ^ 31)
    (hd : d ≤ 64) : (collector M u).CountsDown d width := by
  apply Device.countsDown_of_le
  rcases h with rfl | ⟨-, rfl⟩
  · have hpos := BitVec.toInt_pos_iff (x := BitVec.ofNat 32 w)
    rw [BitVec.toNat_ofNat] at hpos
    omega
  · have hneg : (-1 : BitVec 32).toInt = -1 := rfl
    omega

theorem isDigit_of_number {c : Byte} {lflag : BitVec 32} {v : BitVec 64} {n : Number}
    (hn : (label c).number lflag v = some n) : isDigit c = false := by
  apply isDigit_eq_false
  · intro hc
    rw [hc] at hn
    exact nomatch hn
  · intro hc
    rw [hc] at hn
    exact nomatch hn

theorem flags_lflag (width : BitVec 32) (flags : List Byte) :
    ({ Esc.init with width }.flags flags).lflag = BitVec.ofNat 32 (flags.count (ch 'l')) :=
  zero_add _

/-- A numeric field, whatever its flags are, if its width can be counted down. -/
theorem prints_counted {flags text mods : List Byte} {w : ℕ} {args : List (BitVec 64)} {c : Byte}
    {v : BitVec 64} {n : Number} (hflags : ∀ c ∈ flags, isAnyFlag c = true) (hw : Width w text args)
    (hmods : ∀ c ∈ mods, isLateFlag c = true)
    (hn : (label c).number (BitVec.ofNat 32 ((flags ++ mods).count (ch 'l'))) v = some n)
    (hcount : ∀ width, IsWidth w width → (collector M u).CountsDown n.digits.length width)
    (ap : List VaArg) : Prints M (ch '%' :: (flags ++ text ++ mods ++ [c]))
      (vaWords args ++ .word v :: ap) ap (chars (n.sign ++
        (List.replicate (padCount w n.digits.length) (padAfter (ch ' ') (flags ++ mods)) ++
          n.digits))) u := by
  obtain ⟨width, hwidth, hmodifies⟩ :=
    exists_modifies_field (M := M) (u := u) hflags hw hmods (.word v :: ap)
  obtain ⟨-, -, hle⟩ := number_bounds hn
  have hdigit := isDigit_of_number hn
  rw [← flags_lflag width] at hn
  rw [← hwidth.padCount_eq (by omega : n.digits.length < 2 ^ 31)]
  exact hmodifies.prints hdigit (converts_counted hn (hcount width hwidth))

theorem prints_number {flags text mods : List Byte} {w : ℕ} {args : List (BitVec 64)} {c : Byte}
    {v : BitVec 64} {n : Number} (hflags : ∀ c ∈ flags, isAnyFlag c = true) (hw : Width w text args)
    (hmods : ∀ c ∈ mods, isLateFlag c = true)
    (hn : (label c).number (BitVec.ofNat 32 ((flags ++ mods).count (ch 'l'))) v = some n)
    (ap : List VaArg) : Prints M (ch '%' :: (flags ++ text ++ mods ++ [c]))
      (vaWords args ++ .word v :: ap) ap (chars (n.sign ++
        (List.replicate (padCount w n.digits.length) (padAfter (ch ' ') (flags ++ mods)) ++
          n.digits))) :=
  prints_counted hflags hw hmods hn (fun width _ => collector_countsDown _ width) ap

/-- A numeric field whose width overflows in `printnum`, where this is a fault. -/
theorem number_underflow {flags text mods : List Byte} {w : ℕ} {args : List (BitVec 64)} {c : Byte}
    {v : BitVec 64} {n : Number} (hflags : ∀ c ∈ flags, isAnyFlag c = true) (hw : Width w text args)
    (hmods : ∀ c ∈ mods, isLateFlag c = true)
    (hn : (label c).number (BitVec.ofNat 32 ((flags ++ mods).count (ch 'l'))) v = some n)
    (hlarge : 2 ^ 31 ≤ w) (hlt : w < 2 ^ 31 + n.digits.length) (x : Halt) (ap : List VaArg) :
    Ends (vprintfmtStep (collector M (.error x)))
      (vprintfmtInit (ch '%' :: (flags ++ text ++ mods ++ [c]) ++ [0])
        (vaWords args ++ .word v :: ap) []) (.error x) := by
  obtain ⟨width, hwidth, hmodifies⟩ :=
    exists_modifies_field (M := M) (u := .error x) hflags hw hmods (.word v :: ap)
  obtain ⟨-, -, hle⟩ := number_bounds hn
  have hsteps := hmodifies [] c [0] [] [] (isDigit_of_number hn)
  rw [← flags_lflag width] at hn
  obtain ⟨base, num, hbase, habs, hswitch⟩ := fmtSwitch_number (M := M) (u := .error x) hn
  have hunder : width.toInt - (numeral base.val.toNat num.toNat).length < -2 ^ 31 := by
    obtain rfl : width = BitVec.ofNat 32 w := hwidth.resolve_right fun h => by omega
    rw [Number.digits, hbase, habs] at hlt hle
    rw [BitVec.toInt_eq_toNat_cond, BitVec.toNat_ofNat]
    split
    · omega
    · push_cast
      omega
  rw [List.append_cons, ← List.cons_append] at hsteps
  refine Ends.of_steps ?_ hsteps
  apply Exit.ends
  apply escape_exit
  rw [hswitch]
  exact congrArg (Except.map _) (printnum_underflow rfl num base width _ _ hunder)

/-- What is printed for a numeric field. -/
def fieldText (flags : List Byte) (w : ℕ) (n : Number) : List Byte :=
  n.sign ++ (List.replicate (padCount w n.digits.length)
    (if ch '0' ∈ flags then ch '0' else ch ' ') ++ n.digits)

theorem isLateFlag_of_mod {c : Byte} (hc : c = ch 'l' ∨ c = ch '#') : isLateFlag c = true := by
  rcases hc with rfl | rfl
  · rfl
  · rfl

theorem prints_field {flags text mods : List Byte} {w : ℕ} {args : List (BitVec 64)} {c : Byte}
    {v : BitVec 64} {n : Number} (hflags : ∀ c ∈ flags, isFlag c = true) (hw : Width w text args)
    (hmods : ∀ c ∈ mods, c = ch 'l' ∨ c = ch '#')
    (hn : (label c).number (BitVec.ofNat 32 ((flags ++ mods).count (ch 'l'))) v = some n)
    (hcount : ∀ width, IsWidth w width → (collector M u).CountsDown n.digits.length width)
    (ap : List VaArg) : Prints M (ch '%' :: (flags ++ text ++ mods ++ [c]))
      (vaWords args ++ .word v :: ap) ap (chars (fieldText flags w n)) u := by
  have hflagsMinus : ch '-' ∉ flags := fun h => nomatch hflags _ h
  have hmodsMinus : ch '-' ∉ mods := fun h => absurd (hmods _ h) (by decide)
  have hmodsZero : ch '0' ∉ mods := fun h => absurd (hmods _ h) (by decide)
  have hprints := prints_counted (M := M) (fun c hc => isAnyFlag_of_isFlag (hflags c hc)) hw
    (fun c hc => isLateFlag_of_mod (hmods c hc)) hn hcount ap
  rw [padAfter_append, padAfter_of_not_mem hflagsMinus, padAfter_of_not_mem hmodsMinus,
    if_neg hmodsZero] at hprints
  exact hprints

/-- What is printed is right-justified if its padding has the right length. -/
theorem rightJustified_fieldText_iff {n : Number} {w : ℕ} (flags : List Byte)
    (hsign : n.sign.length ≤ 2) (hpos : 0 < n.digits.length) (hle : n.digits.length ≤ 64) :
    RightJustified (ch '0' ∈ flags) w n (fieldText flags w n) ↔
      (n.sign = [] ∧ w < 2 ^ 31 + n.digits.length) ∨ w ≤ n.digits.length := by
  have hiff := rightJustified_iff (w := w) (decide (ch '0' ∈ flags)) hsign hpos hle
  simp only [decide_eq_true_eq] at hiff
  exact hiff

/-- A numeric field is right-justified, whatever the least `int` less one is, exactly if the number
has no sign or prefix and the width fits in an `int`, or the digits need no padding. -/
theorem numeric_field_iff {flags text mods : List Byte} {w : ℕ} {args : List (BitVec 64)} {c : Byte}
    {v : BitVec 64} {n : Number} (hflags : ∀ c ∈ flags, isFlag c = true) (hw : Width w text args)
    (hmods : ∀ c ∈ mods, c = ch 'l' ∨ c = ch '#')
    (hn : (label c).number (BitVec.ofNat 32 ((flags ++ mods).count (ch 'l'))) v = some n)
    (ap : List VaArg) :
    (∃ field, RightJustified (ch '0' ∈ flags) w n field ∧
      ∀ u, Prints M (ch '%' :: (flags ++ text ++ mods ++ [c])) (vaWords args ++ .word v :: ap) ap
        (chars field) u) ↔
      (n.sign = [] ∧ w < 2 ^ 31) ∨ w ≤ n.digits.length := by
  obtain ⟨hsign, hpos, hle⟩ := number_bounds hn
  have hiff := rightJustified_fieldText_iff (w := w) flags hsign hpos hle
  constructor
  · rintro ⟨field, hright, hfield⟩
    have hprints := prints_field (M := M) hflags hw hmods hn
      (fun width _ => collector_countsDown _ width) ap
    rw [chars_injective ((hfield wrapped).unique hprints), hiff] at hright
    by_cases hlt : w < 2 ^ 31
    · exact hright.imp_left fun h => ⟨h.1, hlt⟩
    · rcases hright with ⟨-, hshort⟩ | hshort
      · -- the width overflows, and a fault shows it
        have hunder := number_underflow (M := M) (fun c hc => isAnyFlag_of_isFlag (hflags c hc)) hw
          (fun c hc => isLateFlag_of_mod (hmods c hc)) hn (Nat.le_of_not_lt hlt) hshort .noArg ap
        exact absurd (Ends.unique (hfield _).emits hunder) nofun
      · exact Or.inr hshort
  · intro h
    have hlt : w < 2 ^ 31 := by
      rcases h with ⟨-, hlt⟩ | hshort
      · exact hlt
      · omega
    refine ⟨fieldText flags w n, hiff.mpr (h.imp_left fun h => ⟨h.1, by omega⟩), fun u => ?_⟩
    exact prints_field hflags hw hmods hn (fun width hwidth => hwidth.countsDown hlt hle) ap

end

/-- A hexadecimal field with zeros. -/
theorem numeric_field_iff_hex : ∃ field, RightJustified true 8 ⟨[], 16, 0xbeef⟩ field ∧
    ∀ u, Prints (fun _ => none) (bytes "%08lx") [.word 0xbeef] [] (chars field) u := by
  have hwidth : numeral 10 8 = [ch '8'] := numeral_of_lt (by omega)
  have hiff := @numeric_field_iff (fun _ => none) [ch '0'] _ [ch 'l'] 8 [] (ch 'x') 0xbeef
    ⟨[], 16, 0xbeef⟩ (by decide) (Width.digits 8 (by omega)) (by decide) rfl []
  have hfield := hiff.mpr (Or.inl ⟨rfl, by omega⟩)
  rw [hwidth] at hfield
  exact hfield

/-- The padding of a negative number stands behind its sign. -/
theorem numeric_field_minus : ¬ ∀ (M : BitVec 64 → Option Byte) (flags text mods : List Byte)
    (w : ℕ) (args : List (BitVec 64)) (c : Byte) (v : BitVec 64) (n : Number),
    (∀ c ∈ flags, isFlag c = true) → Width w text args → (∀ c ∈ mods, c = ch 'l' ∨ c = ch '#') →
    (label c).number (BitVec.ofNat 32 ((flags ++ mods).count (ch 'l'))) v = some n →
    ∀ ap, ∃ field, RightJustified (ch '0' ∈ flags) w n field ∧
      ∀ u, Prints M (ch '%' :: (flags ++ text ++ mods ++ [c])) (vaWords args ++ .word v :: ap) ap
        (chars field) u := by
  intro h
  have hnum : (label (ch 'd')).number (BitVec.ofNat 32 (([] ++ []).count (ch 'l'))) (-3) =
      some ⟨[ch '-'], 10, 3⟩ := rfl
  have hwidth : Width 5 (numeral 10 5) [] := Width.digits 5 (by omega)
  obtain ⟨hsign, hpos, hle⟩ := number_bounds hnum
  obtain ⟨field, hright, hfield⟩ := h (fun _ => none) [] _ [] 5 [] (ch 'd') (-3) _ nofun hwidth
    nofun hnum []
  have hprints := @prints_field (fun _ => none) wrapped [] _ [] 5 [] (ch 'd') (-3) _ nofun hwidth
    nofun hnum (fun width _ => collector_countsDown _ width) []
  rw [chars_injective ((hfield wrapped).unique hprints),
    rightJustified_fieldText_iff [] hsign hpos hle] at hright
  have hdigits : (Number.digits ⟨[ch '-'], 10, 3⟩).length = 1 := by
    show (numeral 10 3).length = 1
    rw [numeral_of_lt (by omega)]
    rfl
  rcases hright with ⟨hnil, -⟩ | hle
  · exact nomatch hnil
  · rw [hdigits] at hle
    exact absurd hle (by omega)

end CertiCore
