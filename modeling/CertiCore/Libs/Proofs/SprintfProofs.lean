import CertiCore.Libs.Proofs.VprintfmtProofs

/-!
# Proofs: printing into a buffer

`vprintfmt` does the same with every device that `putch` keeps in step, so that a buffer holds a
part of what is emitted, whatever the format is.
-/

namespace CertiCore

open Loop

/-! ## Devices that are kept in step -/

section InStep

variable {σ τ : Type} {R : σ → τ → Prop} {D : Device σ} {D' : Device τ}

/-- `putch` keeps the relation `R`, and what the one device reads the other one reads too. -/
structure InStep (R : σ → τ → Prop) (D : Device σ) (D' : Device τ) : Prop where
  putch : ∀ c s t, R s t → R (D.putch c s) (D'.putch c t)
  load : ∀ a c s t, R s t → D.load s a = some c → D'.load t a = some c
  outside : D.outside = D'.outside
  underflow : D.underflow = D'.underflow

/-- The same calls in the same places, with related data. -/
structure SameCalls (R : σ → τ → Prop) (s : FmtState σ) (s' : FmtState τ) : Prop where
  frame : s.frame = s'.frame
  callers : s.callers = s'.callers
  dat : R s.dat s'.dat

variable {s : FmtState σ} {s' : FmtState τ} {d : σ} {d' : τ}

theorem InStep.putAll (h : InStep R D D') (cs : List (BitVec 32)) (hR : R d d') :
    R (D.putAll cs d) (D'.putAll cs d') := by
  induction cs generalizing d d' with
  | nil => exact hR
  | cons c cs ih => exact ih (h.putch c d d' hR)

theorem InStep.printnum (h : InStep R D D') (num : BitVec 64) (base : Base) (width : BitVec 32)
    (padc : Byte) (hR : R d d') :
    Follows R (printnum D num base width padc d) (printnum D' num base width padc d') := by
  have hpred : ∀ width, D.pred width = D'.pred width := by
    intro width
    rw [Device.pred, Device.pred, h.underflow]
  induction hn : num.toNat using Radix.digit_induction base.one_lt generalizing num width with
  | one n hlt =>
    subst hn
    rw [printnum_of_lt hlt, printnum_of_lt hlt, hpred]
    refine (Follows.rfl_eq _).map ?_
    rintro width width' rfl
    exact h.putAll _ hR
  | more n hle ih =>
    subst hn
    rw [printnum_of_le hle, printnum_of_le hle, hpred]
    refine Follows.bind_same _ fun width => ?_
    exact (ih _ width (toNat_doDiv_fst num base)).map fun dat dat' hR' => h.putAll _ hR'

theorem InStep.iterate (h : InStep R D D') (c : BitVec 32) (n : ℕ) (hR : R d d') :
    R ((D.putch c)^[n] d) ((D'.putch c)^[n] d') := by
  induction n generalizing d d' with
  | zero => exact hR
  | succ n ih => exact ih (h.putch c d d' hR)

theorem InStep.deref (h : InStep R D D') (p : CharPtr) (hR : R d d') :
    Follows Eq (p.deref D d) (p.deref D' d') := by
  cases p with
  | const s => exact Follows.rfl_eq _
  | addr a =>
    intro c hc
    cases hload : D.load d a with
    | none =>
      rw [CharPtr.deref, hload] at hc
      exact nomatch hc
    | some c' =>
      rw [CharPtr.deref, hload] at hc
      rw [CharPtr.deref, h.load a c' d d' hR hload]
      exact ⟨c, hc, rfl⟩

theorem InStep.strnlen (h : InStep R D D') (len : ℕ) (p : CharPtr) (hR : R d d') :
    Follows Eq (strnlen D d len p) (strnlen D' d' len p) := by
  induction len generalizing p with
  | zero => exact Follows.ok rfl
  | succ len ih =>
    unfold CertiCore.strnlen
    refine (h.deref p hR).bind ?_
    rintro c c' rfl
    refine Follows.ite _ (fun _ => ?_) fun _ => Follows.ok rfl
    refine (ih p.next).bind ?_
    rintro n n' rfl
    exact Follows.ok rfl

theorem SameCalls.scanOn (hs : SameCalls R s s') (ap : List VaArg) (hR : R d d') :
    SameCalls R (s.scanOn ap d) (s'.scanOn ap d') := by
  refine ⟨?_, hs.callers, hR⟩
  rw [FmtState.scanOn, FmtState.scanOn, hs.frame]

theorem SameCalls.reswitch (hs : SameCalls R s s') (ap : List VaArg) (e : Esc) :
    SameCalls R (s.reswitch ap e) (s'.reswitch ap e) := by
  refine ⟨?_, hs.callers, hs.dat⟩
  rw [FmtState.reswitch, FmtState.reswitch, hs.frame]

theorem SameCalls.printfmt (hs : SameCalls R s s') (ap : List VaArg) (fmt : List Byte)
    (arg : VaArg) : SameCalls R (s.printfmt ap fmt arg) (s'.printfmt ap fmt arg) := by
  refine ⟨rfl, ?_, hs.dat⟩
  rw [FmtState.printfmt, FmtState.printfmt, hs.frame, hs.callers]

/-- The switch, with two devices in step. -/
theorem InStep.fmtSwitch (h : InStep R D D') (e : Esc) (c : Byte) (hs : SameCalls R s s') :
    Follows (SameCalls R) (fmtSwitch D s e c) (fmtSwitch D' s' e c) := by
  unfold CertiCore.fmtSwitch
  rw [hs.frame]
  cases label c
  all_goals dsimp only
  case minus | zero | dot | hash | long => exact Follows.ok (hs.reswitch _ _)
  case digit => exact Follows.ok ⟨rfl, hs.callers, hs.dat⟩
  case star =>
    refine Follows.bind_same _ ?_
    rintro ⟨v, ap⟩
    exact Follows.ok (hs.reswitch _ _)
  case char =>
    refine Follows.bind_same _ ?_
    rintro ⟨v, ap⟩
    exact Follows.ok (hs.scanOn _ (h.putch _ _ _ hs.dat))
  case error =>
    have hlookup : ∀ err, D.errorString err = D'.errorString err := by
      intro err
      rw [Device.errorString, Device.errorString, h.outside]
    refine Follows.bind_same _ ?_
    rintro ⟨v, ap⟩
    dsimp only
    refine Follows.ite _ (fun _ => Follows.ok (hs.printfmt _ _ _)) fun _ => ?_
    rw [hlookup]
    refine Follows.bind_same _ ?_
    rintro (_ | p)
    · exact Follows.ok (hs.printfmt _ _ _)
    · exact Follows.ok (hs.printfmt _ _ _)
  case string =>
    refine Follows.bind_same _ ?_
    rintro ⟨p, ap⟩
    refine Follows.ite _ (fun _ => ?_) fun _ => Follows.ok ⟨rfl, hs.callers, hs.dat⟩
    refine (h.strnlen _ p hs.dat).bind ?_
    rintro len len' rfl
    exact Follows.ok ⟨rfl, hs.callers, h.iterate _ _ hs.dat⟩
  case decimal =>
    refine Follows.bind_same _ ?_
    rintro ⟨num, ap⟩
    dsimp only
    refine Follows.ite _ (fun _ => ?_) fun _ => ?_
    · refine (h.printnum _ _ _ _ (h.putch _ _ _ hs.dat)).bind ?_
      intro d d' hd
      exact Follows.ok (hs.scanOn _ hd)
    · refine (h.printnum _ _ _ _ hs.dat).bind ?_
      intro d d' hd
      exact Follows.ok (hs.scanOn _ hd)
  case unsigned | octal | hex =>
    refine Follows.bind_same _ ?_
    rintro ⟨num, ap⟩
    refine (h.printnum _ _ _ _ hs.dat).bind ?_
    intro d d' hd
    exact Follows.ok (hs.scanOn _ hd)
  case pointer =>
    refine Follows.bind_same _ ?_
    rintro ⟨num, ap⟩
    refine (h.printnum _ _ _ _ (h.putch _ _ _ (h.putch _ _ _ hs.dat))).bind ?_
    intro d d' hd
    exact Follows.ok (hs.scanOn _ hd)
  case percent => exact Follows.ok (hs.scanOn _ (h.putch _ _ _ hs.dat))
  case default =>
    refine Follows.bind_same _ ?_
    intro pos
    have hscan := hs.scanOn s'.frame.ap (h.putch ((ch '%').setWidth 32) _ _ hs.dat)
    exact Follows.ok ⟨by rw [hscan.frame], hs.callers, hscan.dat⟩

/-- Every iteration, with two devices in step. -/
theorem InStep.vprintfmtStep (h : InStep R D D') (hs : SameCalls R s s') :
    Follows (Sum.LiftRel (SameCalls R) R) (vprintfmtStep D s) (vprintfmtStep D' s') := by
  unfold CertiCore.vprintfmtStep
  rw [hs.frame]
  dsimp only
  cases s'.frame.ctl with
  | scan =>
    dsimp only
    refine Follows.bind_same _ ?_
    intro c
    refine Follows.ite _ (fun _ => ?_) fun _ => ?_
    · refine Follows.ite _ (fun _ => ?_) fun _ => ?_
      · rw [hs.callers]
        cases s'.callers with
        | nil => exact Follows.ok (.inr hs.dat)
        | cons caller callers => exact Follows.ok (.inl ⟨rfl, rfl, hs.dat⟩)
      · exact Follows.ok (.inl ⟨rfl, hs.callers, h.putch _ _ _ hs.dat⟩)
    · exact Follows.ok (.inl ⟨rfl, hs.callers, hs.dat⟩)
  | escape e =>
    dsimp only
    refine Follows.bind_same _ ?_
    intro c
    have hs' : SameCalls R { s with frame := { s'.frame with pos := s'.frame.pos + 1 } }
        { s' with frame := { s'.frame with pos := s'.frame.pos + 1 } } :=
      ⟨rfl, hs.callers, hs.dat⟩
    refine (h.fmtSwitch e c hs').bind ?_
    intro u u' hu
    exact Follows.ok (.inl hu)
  | digits e c =>
    dsimp only
    refine Follows.bind_same _ ?_
    intro c'
    refine Follows.ite _ (fun _ => ?_) fun _ => ?_
    · exact Follows.ok (.inl ⟨rfl, hs.callers, hs.dat⟩)
    · exact Follows.ok (.inl (hs.reswitch _ _))
  | string e p =>
    dsimp only
    refine (h.deref p hs.dat).bind ?_
    rintro c c' rfl
    refine Follows.ite _ (fun _ => ?_) fun _ => ?_
    · exact Follows.ok (.inl ⟨rfl, hs.callers, h.putch _ _ _ hs.dat⟩)
    · exact Follows.ok (.inl (hs.scanOn _ (h.iterate _ _ hs.dat)))

/-- A whole run, with two devices in step. -/
theorem InStep.vprintfmt (h : InStep R D D') {fmt : List Byte} {ap : List VaArg} {r : σ}
    (hends : Ends (CertiCore.vprintfmtStep D) (vprintfmtInit fmt ap d) (.ok r)) (hR : R d d') :
    ∃ r', Ends (CertiCore.vprintfmtStep D') (vprintfmtInit fmt ap d') (.ok r') ∧ R r r' :=
  hends.follow (fun _ _ hs => h.vprintfmtStep hs) ⟨rfl, rfl, hR⟩

end InStep

/-! ## The buffer -/

/-- The characters as they are stored. -/
def stored (cs : List (BitVec 32)) : List Byte := cs.map (·.setWidth 8)

theorem stored_chars (l : List Byte) : stored (chars l) = l := by
  have hback : ∀ c ∈ l, (c.setWidth 32).setWidth 8 = c := by
    intro c _
    apply BitVec.eq_of_toNat_eq
    have hlt := c.isLt
    rw [BitVec.toNat_setWidth, BitVec.toNat_setWidth]
    omega
  rw [stored, chars, List.map_map]
  exact (List.map_congr_left hback).trans (List.map_id' l)

/-- The buffer with room for `n` characters and the NUL, after the characters `t`. -/
def sprintBuf (mem : Mem) (str : BitVec 64) (n : ℕ) (t : List (BitVec 32)) : SprintBuf where
  buf := str + BitVec.ofNat 64 (t.take n).length
  ebuf := str + BitVec.ofNat 64 n
  cnt := BitVec.ofNat 32 t.length
  mem := mem.storeBytes str (stored (t.take n))

section

variable {mem : Mem} {str : BitVec 64} {size : SizeT} {n : ℕ}

theorem sprintputch_sprintBuf (hend : str.toNat + n < 2 ^ 64) (c : BitVec 32)
    (t : List (BitVec 32)) :
    sprintputch c (sprintBuf mem str n t) = sprintBuf mem str n (t ++ [c]) := by
  have hlen : (t.take n).length = min n t.length := List.length_take
  have hcnt : BitVec.ofNat 32 t.length + 1 = BitVec.ofNat 32 (t ++ [c]).length := by
    rw [List.length_append, BitVec.ofNat_add]
    rfl
  have hroom : (sprintBuf mem str n t).buf < (sprintBuf mem str n t).ebuf ↔ t.length < n := by
    show str + BitVec.ofNat 64 (t.take n).length < str + BitVec.ofNat 64 n ↔ _
    rw [BitVec.lt_def, BitVec.toNat_add_of_lt (by rw [BitVec.toNat_ofNat]; omega),
      BitVec.toNat_add_of_lt (by rw [BitVec.toNat_ofNat]; omega), BitVec.toNat_ofNat,
      BitVec.toNat_ofNat]
    omega
  unfold sprintputch
  dsimp only
  by_cases hlt : t.length < n
  · have htake : t.take n = t := List.take_of_length_le hlt.le
    have htake' : (t ++ [c]).take n = t ++ [c] := by
      apply List.take_of_length_le
      rw [List.length_append]
      exact hlt
    have hbuf : str + BitVec.ofNat 64 t.length + 1 = str + BitVec.ofNat 64 (t ++ [c]).length := by
      rw [List.length_append, BitVec.ofNat_add, ← BitVec.add_assoc]
      rfl
    have hmem : mem.storeBytes str (stored (t ++ [c])) =
        Function.update (mem.storeBytes str (stored t)) (str + BitVec.ofNat 64 t.length)
          (c.setWidth 8) := by
      have hstored : stored (t ++ [c]) = stored t ++ [c.setWidth 8] := List.map_append
      have hlength : (stored t).length = t.length := List.length_map _
      rw [hstored, Mem.storeBytes_append_singleton (by omega), hlength]
    rw [if_pos (hroom.mpr hlt)]
    unfold sprintBuf
    rw [htake, htake', ← hcnt, ← hbuf, hmem]
  · have htake : (t ++ [c]).take n = t.take n :=
      List.take_append_of_le_length (Nat.le_of_not_lt hlt)
    rw [if_neg (mt hroom.mp hlt)]
    unfold sprintBuf
    rw [htake, ← hcnt]

theorem inStep_sprint (hend : str.toNat + n < 2 ^ 64) {size : ℕ} (hsize : n < size) :
    InStep (fun t b => b = sprintBuf mem str n t) (collector (mem.outside str size))
      sprintDevice where
  putch := by
    rintro c t b rfl
    exact sprintputch_sprintBuf hend c t
  load := by
    rintro a c t b rfl hload
    have hload : mem.outside str size a = some c := hload
    unfold Mem.outside at hload
    by_cases hin : (a - str).toNat < size
    · rw [if_pos hin] at hload
      exact nomatch hload
    · rw [if_neg hin] at hload
      have hlen : (stored (t.take n)).length ≤ n := by
        rw [stored, List.length_map, List.length_take]
        exact Nat.min_le_left _ _
      show some (mem.storeBytes str (stored (t.take n)) a) = some c
      rw [Mem.storeBytes_of_le (by omega), ← hload]
  outside := rfl
  underflow := rfl

/-- `vsnprintf` with a buffer that has room for at least the NUL. -/
theorem vsnprintf_eq {fmt : List Byte} {ap : List VaArg} {T : List (BitVec 32)}
    (hT : Emits (mem.outside str size.toNat) fmt ap T) (hstr : str ≠ 0) (hsize : 1 ≤ size.toNat)
    (hend : str.toNat + size.toNat - 1 < 2 ^ 64) :
    ∃ fuel₀, ∀ fuel ≥ fuel₀, vsnprintf fuel mem str size fmt ap =
      some (.ok (mem.storeBytes str (stored (T.take (size.toNat - 1)) ++ [0]),
        BitVec.ofNat 32 T.length)) := by
  have hinit : sprintBuf mem str (size.toNat - 1) [] = ⟨str, str + size - 1, 0, mem⟩ := by
    have hbuf : str + BitVec.ofNat 64 0 = str := BitVec.add_zero str
    have hebuf : str + BitVec.ofNat 64 (size.toNat - 1) = str + size - 1 := by bv_omega
    unfold sprintBuf
    rw [List.take_nil, List.length_nil, hbuf, hebuf]
    rfl
  have hstep : InStep (fun t b => b = sprintBuf mem str (size.toNat - 1) t)
      (collector (mem.outside str size.toNat)) sprintDevice :=
    inStep_sprint (by omega) (by omega)
  obtain ⟨b, hends, rfl⟩ := hstep.vprintfmt hT rfl
  obtain ⟨fuel₀, hrun⟩ := hends.exists_run
  refine ⟨fuel₀, ?_⟩
  intro fuel hfuel
  have hok : ¬ (str = 0 ∨ str > str + size - 1) := by
    rintro (h | h)
    · exact hstr h
    · bv_omega
  have hlen : (stored (T.take (size.toNat - 1))).length = (T.take (size.toNat - 1)).length :=
    List.length_map _
  have hlt : (T.take (size.toNat - 1)).length < 2 ^ 64 := by
    rw [List.length_take]
    omega
  unfold vsnprintf
  dsimp only
  rw [if_neg hok, ← hinit, hrun fuel hfuel, Mem.storeBytes_append_singleton (hlen ▸ hlt), hlen]
  rfl

/-- The buffer is not touched if there is none. -/
theorem vsnprintf_invalid (mem : Mem) (fuel : ℕ) (fmt : List Byte) (ap : List VaArg)
    (h : str = 0 ∨ size = 0 ∨ 2 ^ 64 ≤ str.toNat + size.toNat - 1) :
    vsnprintf fuel mem str size fmt ap = some (.ok (mem, -E_INVAL)) := by
  have hbad : str = 0 ∨ str > str + size - 1 := by
    rcases h with h | h | h
    · exact Or.inl h
    · by_cases hstr : str = 0
      · exact Or.inl hstr
      · right
        subst h
        bv_omega
    · right
      bv_omega
  unfold vsnprintf
  dsimp only
  rw [if_pos hbad]

/-- `vsnprintf` returns the number of characters that `vprintfmt` emits, stores as many of them as
the buffer has room for and a NUL, and no other byte; without a buffer it reports an error. -/
theorem vsnprintf_truncates (mem : Mem) (str : BitVec 64) (size : SizeT) (fmt : List Byte)
    (ap : List VaArg) :
    (∀ T, Emits (mem.outside str size.toNat) fmt ap T → T.length < 2 ^ 31 →
      str ≠ 0 → 1 ≤ size.toNat → str.toNat + size.toNat - 1 < 2 ^ 64 →
      ∃ mem' r, (∃ fuel₀, ∀ fuel ≥ fuel₀,
          vsnprintf fuel mem str size fmt ap = some (.ok (mem', r))) ∧
        r.toInt = T.length ∧
        (∀ i c, (T.take (size.toNat - 1))[i]? = some c →
          mem' (str + BitVec.ofNat 64 i) = c.setWidth 8) ∧
        mem' (str + BitVec.ofNat 64 (min T.length (size.toNat - 1))) = 0 ∧
        ∀ a, min T.length (size.toNat - 1) < (a - str).toNat → mem' a = mem a) ∧
    (str = 0 ∨ size = 0 ∨ 2 ^ 64 ≤ str.toNat + size.toNat - 1 →
      ∀ fuel, vsnprintf fuel mem str size fmt ap = some (.ok (mem, -E_INVAL))) := by
  constructor
  · intro T hT hlen hstr hsize hend
    have hlength : (stored (T.take (size.toNat - 1))).length = min T.length (size.toNat - 1) := by
      rw [stored, List.length_map, List.length_take, Nat.min_comm]
    have hlt := size.isLt
    refine ⟨_, _, vsnprintf_eq hT hstr hsize hend, ?_, ?_, ?_, ?_⟩
    · have hnat : (BitVec.ofNat 32 T.length).toNat = T.length := by
        rw [BitVec.toNat_ofNat]
        exact Nat.mod_eq_of_lt (by omega)
      rw [BitVec.toInt_eq_toNat_of_lt (by omega), hnat]
    · intro i c hc
      have hget : (stored (T.take (size.toNat - 1)))[i]? = some (c.setWidth 8) := by
        rw [stored, List.getElem?_map, hc]
        rfl
      obtain ⟨hi, -⟩ := List.getElem?_eq_some_iff.mp hget
      rw [Mem.storeBytes, Mem.sub_offset (by omega), List.getElem?_append_left hi, hget]
      rfl
    · rw [Mem.storeBytes, Mem.sub_offset (by omega), ← hlength, List.getElem?_concat_length]
      rfl
    · intro a ha
      apply Mem.storeBytes_of_le
      rw [List.length_append, hlength]
      exact ha
  · intro h fuel
    exact vsnprintf_invalid mem fuel fmt ap h

end

/-- A memory that holds the string `hi`. -/
def memHi : Mem := Mem.storeBytes (fun _ => 0) 0x1000 (cstr "hi")

/-- Two characters of `hi!` in a buffer of three bytes. -/
theorem vsnprintf_truncates_hi :
    ∃ mem' r, (∃ fuel₀, ∀ fuel ≥ fuel₀,
        vsnprintf fuel memHi 0x2000 3 (cstr "%s!") [.word 0x1000] = some (.ok (mem', r))) ∧
      r.toInt = 3 ∧ mem' 0x2000 = ch 'h' ∧ mem' 0x2001 = ch 'i' ∧ mem' 0x2002 = 0 := by
  have hread : ReadsString (memHi.outside 0x2000 3) (VaArg.word 0x1000).charPtr (bytes "hi") :=
    ⟨rfl, by decide, rfl, by decide, rfl⟩
  have hstring := (modifies_nil [.word 0x1000]).prints rfl
    (converts_string (c := ch 's') rfl hread)
  rw [stringText_init (by decide)] at hstring
  have hchar := prints_chars (M := memHi.outside 0x2000 3) (bytes "!") [] (by decide)
  obtain ⟨hvalid, -⟩ := vsnprintf_truncates memHi 0x2000 3 (cstr "%s!") [.word 0x1000]
  obtain ⟨mem', r, hrun, hr, hchars, hnul, -⟩ := hvalid _ (hstring.append hchar).emits (by decide)
    (by decide) (by decide) (by decide)
  exact ⟨mem', r, hrun, hr, hchars 0 _ rfl, hchars 1 _ rfl, hnul⟩

end CertiCore
