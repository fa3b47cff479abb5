import CertiCore.Libs.Proofs.SprintfProofs
import CertiCore.Libs.Stdio

/-!
# Proofs: characters on the console

`vcprintf` puts on the console what `vprintfmt` emits, and a sequence of calls what each of them
does.
-/

namespace CertiCore

open Loop

section

variable {load : BitVec 64 → Option Byte} {fmt : List Byte} {ap : List VaArg}
  {T : List (BitVec 32)} {out out' out'' : List Byte} {calls calls' : List Output}

/-! ## `vcprintf` -/

/-- The console after the characters `t`. -/
def stdoutAfter (out : List Byte) (t : List (BitVec 32)) : Stdout :=
  ⟨BitVec.ofNat 32 t.length, out ++ stored t⟩

theorem cputch_stdoutAfter (c : BitVec 32) (t : List (BitVec 32)) :
    cputch c (stdoutAfter out t) = stdoutAfter out (t ++ [c]) := by
  have hcnt : BitVec.ofNat 32 t.length + 1 = BitVec.ofNat 32 (t ++ [c]).length := by
    rw [List.length_append, BitVec.ofNat_add]
    rfl
  have hout : out ++ stored t ++ [c.setWidth 8] = out ++ stored (t ++ [c]) := by
    have hstored : stored (t ++ [c]) = stored t ++ [c.setWidth 8] := List.map_append
    rw [hstored, List.append_assoc]
  exact congrArg₂ Stdout.mk hcnt hout

theorem inStep_stdout (load : BitVec 64 → Option Byte) (out : List Byte) :
    InStep (fun t s => s = stdoutAfter out t) (collector load) (stdoutDevice load) where
  putch := by
    rintro c t s rfl
    exact cputch_stdoutAfter c t
  load := by
    rintro a c t s rfl hload
    exact hload
  outside := rfl
  underflow := rfl

theorem vcprintf_of_emits (h : Emits load fmt ap T) (out : List Byte) :
    ∃ fuel, vcprintf fuel load fmt ap out =
      some (.ok (BitVec.ofNat 32 T.length, out ++ stored T)) := by
  have hnil : (⟨0, out⟩ : Stdout) = stdoutAfter out [] :=
    congrArg (Stdout.mk 0) (List.append_nil out).symm
  obtain ⟨s, hends, rfl⟩ := (inStep_stdout load out).vprintfmt h hnil
  obtain ⟨fuel, hfuel⟩ := ends_iff_run.mp hends
  refine ⟨fuel, ?_⟩
  rw [vcprintf, hfuel]
  rfl

/-- What `vcprintf` has put on the console when it returns is what `vprintfmt` emits. -/
theorem emits_of_vcprintf {fuel : ℕ} {cnt : BitVec 32}
    (h : vcprintf fuel load fmt ap out = some (.ok (cnt, out'))) :
    ∃ T, Emits load fmt ap T ∧ cnt = BitVec.ofNat 32 T.length ∧ out' = out ++ stored T := by
  obtain ⟨r, hr, hmap⟩ := Option.map_eq_some_iff.mp h
  cases r with
  | error e => exact nomatch hmap
  | ok s =>
    obtain ⟨rfl, rfl⟩ := Prod.mk.inj (Except.ok.inj hmap)
    have hback : InStep (fun s t => s = stdoutAfter out t) (stdoutDevice load) (collector load) :=
      ⟨fun c s t hs => hs ▸ cputch_stdoutAfter c t, fun a c s t _ hload => hload, rfl, rfl⟩
    have hnil : (⟨0, out⟩ : Stdout) = stdoutAfter out [] :=
      congrArg (Stdout.mk 0) (List.append_nil out).symm
    obtain ⟨T, hends, rfl⟩ := hback.vprintfmt (ends_of_run hr) hnil
    exact ⟨T, hends, rfl, rfl⟩

/-- Whatever `vcprintf` prints, `vsnprintf` stores: a call that returns on the console returns the
same number in a buffer, and the buffer holds as many of the characters as there is room for. -/
theorem vcprintf_vsnprintf {mem : Mem} {str : BitVec 64} {size : SizeT} {fuel : ℕ}
    {cnt : BitVec 32} (hstr : str ≠ 0) (hsize : 1 ≤ size.toNat)
    (hend : str.toNat + size.toNat - 1 < 2 ^ 64)
    (h : vcprintf fuel (mem.outside str size.toNat) fmt ap out = some (.ok (cnt, out'))) :
    ∃ text, out' = out ++ text ∧ cnt = BitVec.ofNat 32 text.length ∧
      ∃ fuel₀, ∀ fuel ≥ fuel₀, vsnprintf fuel mem str size fmt ap =
        some (.ok (mem.storeBytes str (text.take (size.toNat - 1) ++ [0]), cnt)) := by
  obtain ⟨T, hT, hcnt, hout⟩ := emits_of_vcprintf h
  have hlen : (stored T).length = T.length := List.length_map _
  have htake : stored (T.take (size.toNat - 1)) = (stored T).take (size.toNat - 1) := List.map_take
  refine ⟨stored T, hout, by rw [hlen, hcnt], ?_⟩
  rw [← htake, hcnt]
  exact vsnprintf_eq hT hstr hsize hend

/-- Two characters, and a buffer with room for one. -/
theorem vcprintf_vsnprintf_hi :
    ∃ fuel₀, ∀ fuel ≥ fuel₀, vsnprintf fuel (fun _ => 0) 0x2000 2 (cstr "hi") [] =
      some (.ok (Mem.storeBytes (fun _ => 0) 0x2000 [ch 'h', 0], 2)) := by
  have hshown : vcprintf 3 (Mem.outside (fun _ => 0) 0x2000 (2 : SizeT).toNat) (cstr "hi") [] [] =
      some (.ok (2, bytes "hi")) := rfl
  obtain ⟨text, htext, -, hstored⟩ := vcprintf_vsnprintf (by decide) (by decide) (by decide) hshown
  obtain rfl : bytes "hi" = text := htext
  exact hstored

theorem vcprintf_unique {fuel fuel' : ℕ} {r r' : Except Halt (BitVec 32 × List Byte)}
    (h : vcprintf fuel load fmt ap out = some r) (h' : vcprintf fuel' load fmt ap out = some r') :
    r = r' := by
  obtain ⟨x, hx, rfl⟩ := Option.map_eq_some_iff.mp h
  obtain ⟨x', hx', rfl⟩ := Option.map_eq_some_iff.mp h'
  rw [Ends.unique (ends_of_run hx) (ends_of_run hx')]

/-! ## Sequences of calls -/

theorem Shows.append (h : Shows load calls out out') (h' : Shows load calls' out' out'') :
    Shows load (calls ++ calls') out out'' := by
  induction calls generalizing out with
  | nil =>
    obtain rfl : out = out' := h
    exact h'
  | cons call calls ih =>
    cases call with
    | cprintf fmt ap =>
      obtain ⟨fuel, cnt, mid, hrun, hrest⟩ := h
      exact ⟨fuel, cnt, mid, hrun, ih hrest⟩
    | cputchar c =>
      have hrest : Shows load calls (cputchar c out) out' := h
      exact ih hrest

theorem Shows.of_append (h : Shows load (calls ++ calls') out out'') :
    ∃ out', Shows load calls out out' ∧ Shows load calls' out' out'' := by
  induction calls generalizing out with
  | nil => exact ⟨out, rfl, h⟩
  | cons call calls ih =>
    cases call with
    | cprintf fmt ap =>
      obtain ⟨fuel, cnt, mid, hrun, hrest⟩ := h
      obtain ⟨out', hfirst, hsecond⟩ := ih hrest
      exact ⟨out', ⟨fuel, cnt, mid, hrun, hfirst⟩, hsecond⟩
    | cputchar c => exact ih h

/-- The console keeps what it shows. -/
theorem Shows.isPrefix (h : Shows load calls out out') : out <+: out' := by
  induction calls generalizing out with
  | nil =>
    obtain rfl : out = out' := h
    exact List.prefix_rfl
  | cons call calls ih =>
    cases call with
    | cprintf fmt ap =>
      obtain ⟨fuel, cnt, mid, hrun, hrest⟩ := h
      obtain ⟨T, -, -, rfl⟩ := emits_of_vcprintf hrun
      exact (List.prefix_append _ _).trans (ih hrest)
    | cputchar c => exact (List.prefix_append _ _).trans (ih h)

theorem Shows.unique (h : Shows load calls out out') (h' : Shows load calls out out'') :
    out' = out'' := by
  induction calls generalizing out with
  | nil => exact Eq.trans (Eq.symm h) h'
  | cons call calls ih =>
    cases call with
    | cprintf fmt ap =>
      obtain ⟨fuel, cnt, mid, hrun, hrest⟩ := h
      obtain ⟨fuel', cnt', mid', hrun', hrest'⟩ := h'
      obtain ⟨-, rfl⟩ := Prod.mk.inj (Except.ok.inj (vcprintf_unique hrun hrun'))
      exact ih hrest hrest'
    | cputchar c =>
      have hrest : Shows load calls (cputchar c out) out' := h
      exact ih hrest h'

theorem shows_cprintf (h : Emits load fmt ap T) (out : List Byte) :
    Shows load [.cprintf fmt ap] out (out ++ stored T) := by
  obtain ⟨fuel, hrun⟩ := vcprintf_of_emits h out
  exact ⟨fuel, _, _, hrun, rfl⟩

end

end CertiCore
