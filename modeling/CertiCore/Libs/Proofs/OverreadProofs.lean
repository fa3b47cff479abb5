import CertiCore.Libs.Proofs.FormatProofs
import CertiCore.Libs.Proofs.PrecisionProofs

/-!
# Proofs: what a string conversion reads

`strnlen` compares with the bound before it reads a character, but the loop that puts the characters
out reads the next one before it looks at the precision.
-/

namespace CertiCore

open Loop

section

variable {M : BitVec 64 → Option Byte} {a b : List Byte} {ap : List VaArg}
  {callers : List FmtFrame} {t : List (BitVec 32)} {e : Esc} {c : Byte} {s : List Byte}
  {p p' : CharPtr} {x : Halt}

/-! ## Strings without an end -/

theorem strnlen_le (h : ReadsOn M p s p') {len : ℕ} (hlen : len ≤ s.length) :
    strnlen (collector M) t len p = .ok len := by
  induction len generalizing p s with
  | zero => rfl
  | succ len ih =>
    cases s with
    | nil => exact absurd hlen (Nat.not_succ_le_zero len)
    | cons c s =>
      obtain ⟨hread, hne, hrest⟩ := h
      rw [strnlen, deref_collector, hread, ih hrest (Nat.le_of_succ_le_succ hlen)]
      simp only [bind, Except.bind, pure, Except.pure, if_pos hne]

theorem strnlen_error (h : ReadsOn M p s p') (hend : p'.deref (collector M) [] = .error x) {len : ℕ}
    (hlen : s.length < len) : strnlen (collector M) t len p = .error x := by
  induction s generalizing p len with
  | nil =>
    obtain rfl : p = p' := h
    obtain ⟨len, rfl⟩ := Nat.exists_eq_succ_of_ne_zero (Nat.ne_zero_of_lt hlen)
    rw [strnlen, deref_collector, hend]
    rfl
  | cons c s ih =>
    obtain ⟨hread, hne, hrest⟩ := h
    obtain ⟨len, rfl⟩ := Nat.exists_eq_succ_of_ne_zero (Nat.ne_zero_of_lt hlen)
    rw [strnlen, deref_collector, hread, ih hrest (Nat.lt_of_succ_lt_succ hlen)]
    simp only [bind, Except.bind, if_pos hne]

/-- The loop stops at the precision, where it reads one more character. -/
theorem string_cut (h : ReadsOn M p s p') (hend : p'.deref (collector M) [] = .ok c)
    (hneg : ¬ e.precision.slt 0 = true) (hlen : e.precision.toNat = s.length) :
    Steps (vprintfmtStep (collector M)) (fmtAt a b ap (.string e p) callers t)
      (fmtAt a b ap .scan callers (t ++ chars (e.body s))) := by
  induction s generalizing p e t with
  | nil =>
    obtain rfl : p = p' := h
    have h0 : e.precision = 0 := BitVec.eq_of_toNat_eq hlen
    have hcut : e.cut [] = [] := by
      rw [Esc.cut, List.take_nil, ite_self]
    rw [body_of_cut_eq_nil hcut]
    exact (string_end hend (Or.inr h0)).steps
  | cons c s ih =>
    obtain ⟨hread, hne, hrest⟩ := h
    have h0 : e.precision ≠ 0 := by
      intro h0
      rw [h0] at hlen
      exact absurd hlen (Nat.succ_ne_zero _).symm
    have hnext : e.next.precision = e.precision - 1 := if_neg hneg
    have hlen' : e.next.precision.toNat = s.length := by
      rw [hnext, toNat_sub_one h0, hlen]
      rfl
    have hneg' : ¬ e.next.precision.slt 0 = true := by
      rw [slt_zero_iff] at hneg ⊢
      rw [List.length_cons] at hlen
      omega
    have hsteps := ih (e := e.next) (t := t ++ chars [e.out c]) hrest hneg' hlen'
    rw [List.append_assoc, ← chars_append, List.singleton_append, ← body_cons h0] at hsteps
    exact (string_char hread hne h0).steps.trans hsteps

/-- The loop fails if nothing can be read behind the characters. -/
theorem string_fails (h : ReadsOn M p s p') (hend : p'.deref (collector M) [] = .error x)
    (hlen : e.precision.slt 0 ∨ s.length ≤ e.precision.toNat) :
    Ends (vprintfmtStep (collector M)) (fmtAt a b ap (.string e p) callers t) (.error x) := by
  induction s generalizing p e t with
  | nil =>
    obtain rfl : p = p' := h
    apply Exit.ends
    unfold Exit
    simp only [vprintfmtStep, fmtAt, deref_collector p t, hend, bind, Except.bind]
    rfl
  | cons c s ih =>
    obtain ⟨hread, hne, hrest⟩ := h
    have h0 : e.precision ≠ 0 := by
      intro h0
      rw [h0] at hlen
      rcases hlen with hneg | hlen
      · exact absurd hneg (by decide)
      · exact absurd hlen (Nat.not_succ_le_zero _)
    refine (ih hrest ?_).of_step (string_char hread hne h0)
    unfold Esc.next
    dsimp only
    by_cases hneg : e.precision.slt 0 = true
    · rw [if_pos hneg]
      exact Or.inl hneg
    · have hle := hlen.resolve_left hneg
      rw [if_neg hneg, toNat_sub_one h0]
      exact Or.inr (Nat.le_sub_one_of_lt hle)

/-! ## The conversion -/

theorem afterPad_precision (e : Esc) (len : ℕ) : (e.afterPad len).precision = e.precision := by
  unfold Esc.afterPad
  split
  · rfl
  · rfl

theorem converts_string_cut {v : VaArg} (h : ReadsOn M v.charPtr s p')
    (hend : p'.deref (collector M) [] = .ok c) (hneg : ¬ e.precision.slt 0 = true)
    (hlen : e.precision.toNat = s.length) : Converts M e (ch 's') (v :: ap) ap
      (chars (e.padLeft s.length ++ (e.afterPad s.length).body s)) := by
  have hext : (e.precision.signExtend 64).toNat = s.length := by
    rw [signExtend_of_not_slt hneg, BitVec.toNat_setWidth, hlen]
    have hlt := e.precision.isLt
    omega
  have hstrnlen : ∀ t, strnlen (collector M) t (e.precision.signExtend 64).toNat v.charPtr =
      .ok s.length := fun _ => (strnlen_le h hext.le).trans (congrArg _ hext)
  rw [← afterPad_precision e s.length] at hneg hlen
  exact converts_of_loop rfl hstrnlen fun _ _ _ _ => string_cut h hend hneg hlen

theorem escape_string_fails {v : VaArg} (h : ReadsOn M v.charPtr s p')
    (hend : p'.deref (collector M) [] = .error x)
    (hlen : e.precision.slt 0 ∨ s.length ≤ e.precision.toNat) :
    Ends (vprintfmtStep (collector M)) (fmtAt a (ch 's' :: b) (v :: ap) (.escape e) callers t)
      (.error x) := by
  have hloop : ∀ len, Step (vprintfmtStep (collector M))
      (fmtAt a (ch 's' :: b) (v :: ap) (.escape e) callers t)
      (fmtAt (a ++ [ch 's']) b ap (.string (e.afterPad len) v.charPtr) callers
        (t ++ chars (e.padLeft len))) →
      Ends (vprintfmtStep (collector M)) (fmtAt a (ch 's' :: b) (v :: ap) (.escape e) callers t)
        (.error x) := by
    intro len hstep
    rw [← afterPad_precision e len] at hlen
    exact (string_fails h hend hlen).of_step hstep
  by_cases hpad : (0 : BitVec 32).slt e.width ∧ e.padc ≠ ch '-'
  · by_cases hle : (e.precision.signExtend 64).toNat ≤ s.length
    · exact hloop _ (escape_string rfl fun _ => strnlen_le h hle)
    · -- `strnlen` comes to the end first
      apply Exit.ends
      apply escape_exit
      simp only [fmtSwitch, fmtAt, vaString_cons, bind, Except.bind, if_pos hpad,
        strnlen_error h hend (Nat.lt_of_not_le hle)]
      rfl
  · exact hloop 0 (escape_string rfl fun h => absurd h hpad)

end

/-! ## Buffers -/

/-- What a string conversion may read of the buffer `l`: nothing behind the first NUL. -/
def upToNul : List Byte → List Byte
  | [] => []
  | c :: l => if c = 0 then [0] else c :: upToNul l

theorem upToNul_of_mem {l : List Byte} (h : 0 ∈ l) :
    ∃ s, upToNul l = s ++ [0] ∧ (∀ c ∈ s, c ≠ 0) ∧ s.length < l.length := by
  induction l with
  | nil => exact absurd h List.not_mem_nil
  | cons c l ih =>
    unfold upToNul
    by_cases hc : c = 0
    · exact ⟨[], if_pos hc, nofun, Nat.succ_pos _⟩
    · obtain ⟨s, hs, hne, hlt⟩ := ih ((List.mem_cons.mp h).resolve_left (Ne.symm hc))
      refine ⟨c :: s, ?_, List.forall_mem_cons.mpr ⟨hc, hne⟩, Nat.succ_lt_succ hlt⟩
      rw [if_neg hc, hs]
      rfl

theorem upToNul_of_not_mem {l : List Byte} (h : 0 ∉ l) : upToNul l = l := by
  induction l with
  | nil => rfl
  | cons c l ih =>
    have hc : c ≠ 0 := Ne.symm (List.ne_of_not_mem_cons h)
    rw [upToNul, if_neg hc, ih (List.not_mem_of_not_mem_cons h)]

section

variable {flags text : List Byte} {w q : ℕ} {args : List (BitVec 64)} {v : BitVec 64}
  {l : List Byte} {M : BitVec 64 → Option Byte} {ap : List VaArg}

/-- `%s` reads nothing else of memory than what it may of the buffer `l` at `v`. -/
def StaysInside (flags text : List Byte) (args : List (BitVec 64)) (p : Precision) (v : BitVec 64)
    (l : List Byte) (ap : List VaArg) : Prop :=
  ∃ T, Prints (bufferAt v (upToNul l)) (ch '%' :: (flags ++ text ++ p.text ++ [ch 's']))
    (vaWords (args ++ p.args) ++ .word v :: ap) ap T

theorem staysInside_of_mem (hflags : ∀ c ∈ flags, isAnyFlag c = true) (hw : Width w text args)
    (p : Precision) (hv : v ≠ 0) (hl : v.toNat + l.length ≤ 2 ^ 64) (h : 0 ∈ l) (ap : List VaArg) :
    StaysInside flags text args p v l ap := by
  obtain ⟨s, hs, hne, hlt⟩ := upToNul_of_mem h
  have hptr : (VaArg.word v).charPtr = .addr v := if_neg hv
  have hread : ReadsString (bufferAt v (s ++ [0])) (VaArg.word v).charPtr s := by
    rw [hptr]
    exact readsString_bufferAt hne (by omega)
  obtain ⟨width, -, hprints⟩ := prints_precision hflags hw p hread ap
  rw [← hs] at hprints
  exact ⟨_, hprints⟩

/-- The `int` that holds a precision other than zero. -/
theorem precisionEsc_precision {p : Precision} (hp : p.value = some q) (hq : q ≠ 0)
    (flags : List Byte) (width : BitVec 32) :
    (precisionEsc flags width p).precision = BitVec.ofNat 32 q := by
  cases p with
  | none => exact absurd hp nofun
  | zero => exact absurd (Option.some.inj hp).symm hq
  | digits k q' hq' =>
    obtain rfl := Option.some.inj hp
    rfl
  | star v hv =>
    obtain rfl := Option.some.inj hp
    rw [BitVec.toInt_eq_toNat_of_lt (BitVec.toInt_pos_iff.mp hv), Int.toNat_natCast,
      BitVec.ofNat_toNat, BitVec.setWidth_eq]
    rfl

theorem Fails.not_prints {f : List Byte} {ap ap' : List VaArg} {x : Halt} {T : List (BitVec 32)}
    (h : Fails M f ap x) : ¬ Prints M f ap ap' T := by
  intro hprints
  have hfails := h [] [0] [] []
  exact absurd (Ends.unique hprints.emits hfails) nofun

/-- A buffer without a NUL, up to some of its characters. -/
theorem readsOn_buffer {r : ℕ} (hv : v ≠ 0) (hl : v.toNat + l.length ≤ 2 ^ 64) (hr : r ≤ l.length)
    (h : 0 ∉ l) : ReadsOn (bufferAt v l) (VaArg.word v).charPtr (l.take r)
      (.addr (v + BitVec.ofNat 64 r)) := by
  have hptr : (VaArg.word v).charPtr = .addr v := if_neg hv
  have hplain : ∀ c ∈ l.take r, c ≠ 0 := by
    rintro c hc rfl
    exact h (List.mem_of_mem_take hc)
  have hlen : (l.take r).length = r := List.length_take_of_le hr
  have hon := readsOn_bufferAt (p := v) [] (l.drop r) hplain
    (by rw [List.length_nil, hlen]; omega)
  rw [List.length_nil, Nat.zero_add, List.nil_append, List.take_append_drop, hlen,
    BitVec.add_zero] at hon
  rw [hptr]
  exact hon

/-- A precision that wraps around to a smaller number. -/
theorem staysInside_of_wraps (hflags : ∀ c ∈ flags, isAnyFlag c = true) (hw : Width w text args)
    {p : Precision} (hp : p.value = some q) (hq : q ≠ 0) (hv : v ≠ 0) (hl : l.length = q)
    (hfit : v.toNat + q ≤ 2 ^ 64) (h : 0 ∉ l) (hlarge : 2 ^ 32 ≤ q) (hsmall : q % 2 ^ 32 < 2 ^ 31)
    (ap : List VaArg) : StaysInside flags text args p v l ap := by
  have hlt : q % 2 ^ 32 < l.length := by omega
  obtain ⟨width, -, hmodifies⟩ := exists_modifies_precision (M := bufferAt v l) hflags hw p
    (.word v :: ap)
  have hnat : (precisionEsc flags width p).precision.toNat = q % 2 ^ 32 := by
    rw [precisionEsc_precision hp hq, BitVec.toNat_ofNat]
  have hneg : ¬ (precisionEsc flags width p).precision.slt 0 = true := by
    rw [slt_zero_iff, hnat]
    omega
  have hon := readsOn_buffer hv (by omega) hlt.le h
  have hend : (CharPtr.addr (v + BitVec.ofNat 64 (q % 2 ^ 32))).deref
      (collector (bufferAt v l)) [] = .ok l[q % 2 ^ 32] := by
    rw [deref_addr_iff, bufferAt_add (by omega), List.getElem?_eq_getElem hlt]
  have hlen : (l.take (q % 2 ^ 32)).length = q % 2 ^ 32 := List.length_take_of_le hlt.le
  have hconv : Converts (bufferAt v l) (precisionEsc flags width p) (ch 's') (.word v :: ap) ap _ :=
    converts_string_cut hon hend hneg (hnat.trans hlen.symm)
  rw [StaysInside, upToNul_of_not_mem h]
  exact ⟨_, hmodifies.prints rfl hconv⟩

/-- Without a NUL, the character behind the buffer is read. -/
theorem not_staysInside (hflags : ∀ c ∈ flags, isAnyFlag c = true) (hw : Width w text args)
    {p : Precision} (hp : p.value = some q) (hq : q ≠ 0) (hv : v ≠ 0) (hl : l.length = q)
    (hfit : v.toNat + q ≤ 2 ^ 64) (h : 0 ∉ l) (hint : 2 ^ 32 ≤ q → 2 ^ 31 ≤ q % 2 ^ 32)
    (ap : List VaArg) : ¬ StaysInside flags text args p v l ap := by
  obtain ⟨width, -, hmodifies⟩ := exists_modifies_precision (M := bufferAt v l) hflags hw p
    (.word v :: ap)
  have hnat : (precisionEsc flags width p).precision.toNat = q % 2 ^ 32 := by
    rw [precisionEsc_precision hp hq, BitVec.toNat_ofNat]
  have hon := readsOn_buffer hv (by omega) (Nat.le_refl l.length) h
  rw [List.take_length] at hon
  have hend : (CharPtr.addr (v + BitVec.ofNat 64 l.length)).deref (collector (bufferAt v l)) [] =
      .error (.unmapped (v + BitVec.ofNat 64 l.length)) := by
    refine deref_addr_of_none ?_
    rw [bufferAt_add (by omega), List.getElem?_eq_none (Nat.le_refl _)]
  have hlen : (precisionEsc flags width p).precision.slt 0 ∨
      l.length ≤ (precisionEsc flags width p).precision.toNat := by
    rw [slt_zero_iff, hnat]
    omega
  have hfails : Fails (bufferAt v l) (ch '%' :: (flags ++ text ++ p.text ++ [ch 's']))
      (vaWords (args ++ p.args) ++ .word v :: ap) (.unmapped (v + BitVec.ofNat 64 l.length)) := by
    intro a b callers t
    have hsteps := hmodifies a (ch 's') b callers t rfl
    rw [List.cons_append, List.append_assoc]
    exact (escape_string_fails hon hend hlen).of_steps hsteps
  rw [StaysInside, upToNul_of_not_mem h]
  rintro ⟨T, hprints⟩
  exact hfails.not_prints hprints

/-- The first `q` bytes of a buffer are all that `%s` with the precision `q` reads, and nothing
behind a NUL, exactly if there is a NUL among them, or `q` wraps around to a smaller `int`. -/
theorem stays_inside_iff (hflags : ∀ c ∈ flags, isAnyFlag c = true) (hw : Width w text args)
    {p : Precision} (hp : p.value = some q) (hq : 1 ≤ q) (hv : v ≠ 0) (hl : l.length = q)
    (hfit : v.toNat + q ≤ 2 ^ 64) (ap : List VaArg) :
    StaysInside flags text args p v l ap ↔ 0 ∈ l ∨ 2 ^ 32 ≤ q ∧ q % 2 ^ 32 < 2 ^ 31 := by
  have hne : q ≠ 0 := Nat.ne_of_gt hq
  by_cases hnul : 0 ∈ l
  · exact iff_of_true (staysInside_of_mem hflags hw p hv (by omega) hnul ap) (Or.inl hnul)
  · by_cases hwraps : 2 ^ 32 ≤ q ∧ q % 2 ^ 32 < 2 ^ 31
    · exact iff_of_true
        (staysInside_of_wraps hflags hw hp hne hv hl hfit hnul hwraps.1 hwraps.2 ap)
        (Or.inr hwraps)
    · have hint : 2 ^ 32 ≤ q → 2 ^ 31 ≤ q % 2 ^ 32 := by omega
      refine iff_of_false (not_staysInside hflags hw hp hne hv hl hfit hnul hint ap) ?_
      rintro (h | h)
      · exact hnul h
      · exact hwraps h

end

/-- A buffer of three bytes with a NUL in the middle. -/
theorem stays_inside_iff_nul : StaysInside [] [ch '*'] [5] (.digits 0 3 (by decide))
    0xffffffffc0200000 [ch 'a', 0, ch 'b'] [] := by
  have hflags : ∀ c ∈ ([] : List Byte), isAnyFlag c = true := nofun
  have hwidth : Width 5 [ch '*'] [5] := Width.star 5 (by decide)
  exact (stays_inside_iff hflags hwidth rfl (by decide) (by decide) rfl (by decide) []).mpr
    (Or.inl (by decide))

/-- `%.1s` reads the byte behind a buffer of one byte. -/
theorem stays_inside_one : ¬ ∀ (flags text : List Byte) (w : ℕ) (args : List (BitVec 64))
    (p : Precision) (q : ℕ) (v : BitVec 64) (l : List Byte) (ap : List VaArg),
    (∀ c ∈ flags, isAnyFlag c = true) → Width w text args → p.value = some q → 1 ≤ q → v ≠ 0 →
    l.length = q → v.toNat + q ≤ 2 ^ 64 → StaysInside flags text args p v l ap := by
  intro h
  have hflags : ∀ c ∈ ([] : List Byte), isAnyFlag c = true := nofun
  have hstays := h [] [] 0 [] (.digits 0 1 (by decide)) 1 0xffffffffc0200000 [ch 'a'] [] hflags
    .none rfl (by decide) (by decide) rfl (by decide)
  exact not_staysInside hflags .none rfl (by decide) (by decide) rfl (by decide) (by decide)
    (by decide) [] hstays

end CertiCore
