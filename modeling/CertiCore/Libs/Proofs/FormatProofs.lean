import CertiCore.Libs.Format
import CertiCore.Libs.Proofs.VprintfmtProofs

/-!
# Proofs: `vprintfmt` works off a format item by item

After an escape sequence that it does not know, `vprintfmt` sets the pointer into the format back to
the place behind the `%`. The characters that it then passes again are literal ones, so that it
never goes back twice over the same sequence.
-/

namespace CertiCore

open Loop

/-! ## The labels of the characters -/

/-- The labels that go on with the escape sequence. -/
def Label.isModifier : Label → Bool
  | .minus | .zero | .digit | .star | .dot | .hash | .long => true
  | _ => false

theorem isModifier_eq (c : Byte) : isModifier c = (label c).isModifier := by
  revert c
  decide +kernel

theorem label_eq_default_iff (c : Byte) :
    label c = .default ↔ isModifier c = false ∧ isConversion c = false := by
  revert c
  decide +kernel

theorem label_eq_star_iff (c : Byte) : label c = .star ↔ c = ch '*' := by
  revert c
  decide +kernel

theorem label_eq_string_iff (c : Byte) : label c = .string ↔ c = ch 's' := by
  revert c
  decide +kernel

theorem label_eq_error_iff (c : Byte) : label c = .error ↔ c = ch 'e' := by
  revert c
  decide +kernel

theorem label_eq_percent_iff (c : Byte) : label c = .percent ↔ c = ch '%' := by
  revert c
  decide +kernel

theorem isDigit_of_not_modifier {c : Byte} (h : isModifier c = false) : isDigit c = false := by
  rw [isModifier_eq] at h
  apply isDigit_eq_false
  · intro hc
    rw [hc] at h
    exact nomatch h
  · intro hc
    rw [hc] at h
    exact nomatch h

theorem ne_of_isModifier {c : Byte} (h : isModifier c = true) : c ≠ ch '%' ∧ c ≠ 0 := by
  constructor
  · rintro rfl
    exact nomatch h
  · rintro rfl
    exact nomatch h

section

variable {M : BitVec 64 → Option Byte} {a b mods : List Byte} {c : Byte} {ap : List VaArg}
  {callers : List FmtFrame} {t : List (BitVec 32)} {e : Esc}

/-! ## Modifiers -/

/-- From the control `ctl` on, the modifiers `mods` lead to the variables `e'`. -/
def RunsOver (M : BitVec 64 → Option Byte) (ctl : Ctl) (mods : List Byte) (args : List (BitVec 64))
    (e' : Esc) : Prop :=
  ∀ a c b callers t, isDigit c = false →
    Steps (vprintfmtStep (collector M)) (fmtAt a (mods ++ c :: b) (vaWords args) ctl callers t)
      (fmtAt (a ++ mods) (c :: b) (vaWords (args.drop (mods.count (ch '*')))) (.escape e') callers
        t)

theorem runsOver_nil (e : Esc) (args : List (BitVec 64)) : RunsOver M (.escape e) [] args e := by
  intro a c b callers t _
  rw [List.append_nil]
  exact Steps.refl _

/-- One step over the modifier `c`, and the steps over the others. -/
theorem RunsOver.cons {ctl ctl' : Ctl} {args args' : List (BitVec 64)} {e' : Esc}
    (h : RunsOver M ctl' mods args' e') (hargs : args.drop ((c :: mods).count (ch '*')) =
      args'.drop (mods.count (ch '*')))
    (hstep : ∀ a b callers t, Step (vprintfmtStep (collector M))
      (fmtAt a (c :: b) (vaWords args) ctl callers t)
      (fmtAt (a ++ [c]) b (vaWords args') ctl' callers t)) :
    RunsOver M ctl (c :: mods) args e' := by
  intro a d b callers t hd
  have hrest := h (a ++ [c]) d b callers t hd
  rw [List.append_assoc, ← hargs] at hrest
  exact (hstep a (mods ++ d :: b) callers t).steps.trans hrest

/-- Flags, digits, stars and so on in any order: from the label `reswitch`, and from the loop over
the digits of a number. -/
theorem runsOver_mods (hmods : ∀ c ∈ mods, isModifier c = true) :
    (∀ args e, mods.count (ch '*') ≤ args.length → ∃ e', RunsOver M (.escape e) mods args e') ∧
    (∀ args e d, mods.count (ch '*') ≤ args.length →
      ∃ e', RunsOver M (.digits e d) mods args e') := by
  induction mods with
  | nil =>
    constructor
    · intro args e _
      exact ⟨e, runsOver_nil e args⟩
    · intro args e d _
      refine ⟨(e.addDigit d).processPrecision, ?_⟩
      intro a c b callers t hc
      rw [List.append_nil]
      exact (digits_end d hc).steps
  | cons m mods ih =>
    obtain ⟨hescape, hdigits⟩ := ih fun c hc => hmods c (List.mem_cons_of_mem m hc)
    have hm : (label m).isModifier = true := by
      rw [← isModifier_eq]
      exact hmods m List.mem_cons_self
    have hfirst : ∀ args e, (m :: mods).count (ch '*') ≤ args.length →
        ∃ e', RunsOver M (.escape e) (m :: mods) args e' := by
      intro args e hle
      by_cases hstar : m = ch '*'
      · subst hstar
        rw [List.count_cons_self] at hle
        obtain ⟨v, args', rfl⟩ : ∃ v args', args = v :: args' := by
          cases args with
          | nil => exact absurd hle (Nat.not_succ_le_zero _)
          | cons v args' => exact ⟨v, args', rfl⟩
        obtain ⟨e', he'⟩ := hescape args' { e with precision := v.setWidth 32 }.processPrecision
          (Nat.le_of_succ_le_succ hle)
        refine ⟨e', he'.cons ?_ fun a b callers t => escape_star v rfl⟩
        rw [List.count_cons_self, List.drop_succ_cons]
      · have hcount : (m :: mods).count (ch '*') = mods.count (ch '*') :=
          List.count_cons_of_ne hstar
        rw [hcount] at hle
        cases hlabel : label m
        case star => exact absurd ((label_eq_star_iff m).mp hlabel) hstar
        case digit =>
          obtain ⟨e', he'⟩ := hdigits args { e with precision := 0 } m hle
          exact ⟨e', he'.cons (by rw [hcount]) fun a b callers t => escape_digit hlabel⟩
        case minus | zero | dot | hash | long =>
          obtain ⟨e₁, hflag⟩ : ∃ e₁, e.flag (label m) = some e₁ := by
            rw [hlabel]
            exact ⟨_, rfl⟩
          obtain ⟨e', he'⟩ := hescape args e₁ hle
          exact ⟨e', he'.cons (by rw [hcount]) fun a b callers t => escape_flag hflag⟩
        all_goals
          rw [hlabel] at hm
          exact nomatch hm
    refine ⟨hfirst, ?_⟩
    intro args e d hle
    by_cases hdig : isDigit m = true
    · have hcount : (m :: mods).count (ch '*') = mods.count (ch '*') := by
        apply List.count_cons_of_ne
        rintro rfl
        exact nomatch hdig
      rw [hcount] at hle
      obtain ⟨e', he'⟩ := hdigits args (e.addDigit d) m hle
      exact ⟨e', he'.cons (by rw [hcount]) fun a b callers t => digits_digit d hdig⟩
    · obtain ⟨e', he'⟩ := hfirst args (e.addDigit d).processPrecision hle
      refine ⟨e', ?_⟩
      intro a c b callers t hc
      exact (digits_end d (Bool.not_eq_true _ ▸ hdig)).steps.trans (he' a c b callers t hc)

theorem exists_modifies (hmods : ∀ c ∈ mods, isModifier c = true) {args : List (BitVec 64)}
    (hle : mods.count (ch '*') ≤ args.length) :
    ∃ e, Modifies M mods (vaWords args) e (vaWords (args.drop (mods.count (ch '*')))) := by
  obtain ⟨e, he⟩ := (runsOver_mods (M := M) hmods).1 args .init hle
  refine ⟨e, ?_⟩
  intro a c b callers t hc
  have hrest := he (a ++ [ch '%']) c b callers t hc
  rw [List.append_assoc] at hrest
  exact scan_percent.steps.trans hrest

/-! ## Escape sequences that are printed as they are -/

theorem rewind_eq (a mods b : List Byte) (hmods : ∀ c ∈ mods, c ≠ ch '%') :
    rewind (a ++ ch '%' :: (mods ++ b)) (a.length + 1 + mods.length) = .ok (a.length + 1) := by
  induction mods using List.reverseRecOn generalizing b with
  | nil =>
    show rewind _ (a.length + 1) = _
    rw [rewind, loadByte_append]
    simp only [bind, Except.bind, pure, Except.pure, ne_eq, not_true, if_false]
  | append_singleton mods m ih =>
    have hm : m ≠ ch '%' := hmods m (List.mem_append_right mods (List.mem_singleton_self m))
    have hload := loadByte_append (a ++ ch '%' :: mods) m b
    have hlen : (a ++ ch '%' :: mods).length = a.length + 1 + mods.length := by
      rw [List.length_append, List.length_cons]
      omega
    rw [List.append_assoc, hlen] at hload
    rw [List.append_assoc, List.length_append]
    show rewind (a ++ (ch '%' :: mods ++ m :: b)) (a.length + 1 + mods.length + 1) = _
    rw [rewind, hload]
    simp only [bind, Except.bind, pure, Except.pure, if_pos hm]
    exact ih (m :: b) fun c hc => hmods c (List.mem_append_left [m] hc)

/-- The default case: the pointer goes back to the place behind the `%`. -/
theorem escape_default (hc : label c = .default) (hmods : ∀ c ∈ mods, c ≠ ch '%') (e : Esc)
    (a b : List Byte) (ap : List VaArg) (callers : List FmtFrame) (t : List (BitVec 32)) :
    Step (vprintfmtStep (collector M))
      (fmtAt (a ++ ch '%' :: mods) (c :: b) ap (.escape e) callers t)
      (fmtAt (a ++ [ch '%']) (mods ++ c :: b) ap .scan callers (t ++ chars [ch '%'])) := by
  have hrewind := rewind_eq a mods (c :: b) hmods
  have hpos : (a ++ ch '%' :: mods ++ [c]).length - 1 = a.length + 1 + mods.length := by
    simp only [List.length_append, List.length_cons, List.length_nil]
    omega
  have hfmt : a ++ ch '%' :: mods ++ [c] ++ b = a ++ ch '%' :: (mods ++ c :: b) := by simp
  apply escape_step
  simp only [fmtSwitch, hc, fmtAt, bind, Except.bind, pure, Except.pure, hpos, hfmt, hrewind]
  have hright : a ++ [ch '%'] ++ (mods ++ c :: b) = a ++ ch '%' :: (mods ++ c :: b) := by simp
  have hlen : (a ++ [ch '%']).length = a.length + 1 := List.length_append
  rw [hright, hlen]
  rfl

/-- An escape sequence before a character that ends it without being a conversion. -/
theorem literal_escape {args : List (BitVec 64)} (hmods : ∀ c ∈ mods, isModifier c = true)
    (hle : mods.count (ch '*') ≤ args.length) (hc : label c = .default) (a b : List Byte)
    (callers : List FmtFrame) (t : List (BitVec 32)) :
    Steps (vprintfmtStep (collector M))
      (fmtAt a (ch '%' :: (mods ++ c :: b)) (vaWords args) .scan callers t)
      (fmtAt (a ++ ch '%' :: mods) (c :: b) (vaWords (args.drop (mods.count (ch '*')))) .scan
        callers (t ++ chars (ch '%' :: mods))) := by
  obtain ⟨e, he⟩ := exists_modifies (M := M) hmods hle
  generalize vaWords (args.drop (mods.count (ch '*'))) = ap' at he ⊢
  have hdigit := isDigit_of_not_modifier ((label_eq_default_iff c).mp hc).1
  have hplain := fun m hm => ne_of_isModifier (hmods m hm)
  have hback := escape_default (M := M) hc (fun m hm => (hplain m hm).1) e a b ap' callers t
  have hchars := prints_chars (M := M) mods ap' hplain (a ++ [ch '%']) (c :: b) callers
    (t ++ chars [ch '%'])
  rw [List.append_assoc, List.append_assoc, ← chars_append] at hchars
  exact ((he a c b callers t hdigit).trans hback.steps).trans hchars

theorem prints_literal {args : List (BitVec 64)} (hmods : ∀ c ∈ mods, isModifier c = true)
    (hle : mods.count (ch '*') ≤ args.length) (hc : label c = .default) (hnul : c ≠ 0) :
    Prints M (ch '%' :: (mods ++ [c])) (vaWords args) (vaWords (args.drop (mods.count (ch '*'))))
      (chars (ch '%' :: (mods ++ [c]))) := by
  intro a b callers t
  have hplain : ∀ d ∈ [c], d ≠ ch '%' ∧ d ≠ 0 := by
    intro d hd
    obtain rfl := List.mem_singleton.mp hd
    refine ⟨?_, hnul⟩
    rintro rfl
    exact nomatch hc
  have hesc := literal_escape (M := M) hmods hle hc a b callers t
  have hchar := prints_chars (M := M) [c] (vaWords (args.drop (mods.count (ch '*')))) hplain
    (a ++ ch '%' :: mods) b callers (t ++ chars (ch '%' :: mods))
  rw [List.append_assoc, List.append_assoc, ← chars_append] at hchar
  rw [List.cons_append, List.append_assoc]
  exact hesc.trans hchar

/-! ## The items of a format -/

/-- Wherever the last piece `f` of a format stands, `vprintfmt` comes to the NUL behind it. -/
def PrintsLast (M : BitVec 64 → Option Byte) (f : List Byte) (ap ap' : List VaArg)
    (text : List (BitVec 32)) : Prop :=
  ∀ a b callers t, Steps (vprintfmtStep (collector M)) (fmtAt a (f ++ 0 :: b) ap .scan callers t)
    (fmtAt (a ++ f) (0 :: b) ap' .scan callers (t ++ text))

/-- Wherever the piece `f` of a format stands, `vprintfmt` comes to a state with `P` in it. -/
def ComesTo (M : BitVec 64 → Option Byte) (f : List Byte) (ap : List VaArg)
    (P : FmtState (List (BitVec 32)) → Prop) : Prop :=
  ∀ a b callers t, ∃ s,
    Steps (vprintfmtStep (collector M)) (fmtAt a (f ++ b) ap .scan callers t) s ∧ P s

/-- Wherever the piece `f` of a format stands, `vprintfmt` fails in it. -/
def Fails (M : BitVec 64 → Option Byte) (f : List Byte) (ap : List VaArg) (x : Halt) : Prop :=
  ∀ a b callers t,
    Ends (vprintfmtStep (collector M)) (fmtAt a (f ++ b) ap .scan callers t) (.error x)

section

variable {f g : List Byte} {ap' ap'' : List VaArg} {text text' : List (BitVec 32)} {x : Halt}
  {P : FmtState (List (BitVec 32)) → Prop}

theorem Prints.last (h : Prints M f ap ap' text) : PrintsLast M f ap ap' text := by
  intro a b callers t
  exact h a (0 :: b) callers t

theorem Prints.append_last (h : Prints M f ap ap' text) (h' : PrintsLast M g ap' ap'' text') :
    PrintsLast M (f ++ g) ap ap'' (text ++ text') := by
  intro a b callers t
  have hf := h a (g ++ 0 :: b) callers t
  have hg := h' (a ++ f) b callers (t ++ text)
  rw [← List.append_assoc] at hf
  rw [List.append_assoc, List.append_assoc] at hg
  exact hf.trans hg

theorem Prints.append_comesTo (h : Prints M f ap ap' text) (h' : ComesTo M g ap' P) :
    ComesTo M (f ++ g) ap P := by
  intro a b callers t
  have hf := h a (g ++ b) callers t
  rw [← List.append_assoc] at hf
  obtain ⟨s, hsteps, hs⟩ := h' (a ++ f) b callers (t ++ text)
  exact ⟨s, hf.trans hsteps, hs⟩

theorem ComesTo.append (h : ComesTo M f ap P) (g : List Byte) : ComesTo M (f ++ g) ap P := by
  intro a b callers t
  rw [List.append_assoc]
  exact h a (g ++ b) callers t

theorem ComesTo.fails (h : ComesTo M f ap P)
    (hP : ∀ s, P s → Exit (vprintfmtStep (collector M)) s (.error x)) : Fails M f ap x := by
  intro a b callers t
  obtain ⟨s, hsteps, hs⟩ := h a b callers t
  exact ⟨s, hsteps, hP s hs⟩

theorem PrintsLast.emits (h : PrintsLast M f ap ap' text) : Emits M (f ++ [0]) ap text :=
  scan_exit.ends.of_steps (h [] [] [] [])

end

/-- The characters of an item are such that it is read as this item. -/
def Item.WellFormed : Item → Prop
  | char c => c ≠ ch '%' ∧ c ≠ 0
  | escape mods c => (∀ m ∈ mods, isModifier m = true) ∧ isModifier c = false ∧ c ≠ 0
  | unfinished mods => ∀ m ∈ mods, isModifier m = true

/-- An argument list is long enough for an item, and has a string where it takes one. -/
structure Item.Served (M : BitVec 64 → Option Byte) (it : Item) (args : List (BitVec 64)) :
    Prop where
  enough : it.takes ≤ args.length
  string : ∀ mods v, it = .escape mods (ch 's') → it.arg? args = some v →
    ∃ s, ReadsString M (VaArg.word v).charPtr s

/-- The argument of `%e` is not the least `int`. -/
def Item.InTable (it : Item) (args : List (BitVec 64)) : Prop :=
  ∀ mods v, it = .escape mods (ch 'e') → it.arg? args = some v → v.setWidth 32 ≠ BitVec.intMin 32

theorem exists_converts {v : BitVec 64} (hc : isModifier c = false) (hconv : isConversion c = true)
    (hpct : c ≠ ch '%') (hstring : c = ch 's' → ∃ s, ReadsString M (VaArg.word v).charPtr s)
    (htable : c = ch 'e' → v.setWidth 32 ≠ BitVec.intMin 32) (e : Esc) (ap : List VaArg) :
    ∃ text, Converts M e c (.word v :: ap) ap text := by
  rw [isModifier_eq] at hc
  cases hlabel : label c
  case char => exact ⟨_, converts_char v hlabel⟩
  case error => exact ⟨_, converts_error hlabel (htable ((label_eq_error_iff c).mp hlabel))⟩
  case string =>
    obtain ⟨s, hs⟩ := hstring ((label_eq_string_iff c).mp hlabel)
    exact ⟨_, converts_string hlabel hs⟩
  case decimal | unsigned | octal | pointer | hex =>
    obtain ⟨n, hn⟩ : ∃ n, (label c).number e.lflag v = some n := by
      rw [hlabel]
      exact ⟨_, rfl⟩
    exact ⟨_, converts_number hn⟩
  case percent => exact absurd ((label_eq_percent_iff c).mp hlabel) hpct
  case default =>
    rw [((label_eq_default_iff c).mp hlabel).2] at hconv
    exact nomatch hconv
  all_goals
    rw [hlabel] at hc
    exact nomatch hc

/-- An item that is not at the end of a format. -/
theorem exists_prints {it : Item} {args : List (BitVec 64)} (hwf : it.WellFormed)
    (hserved : it.Served M args) (htable : it.InTable args)
    (hfinished : ∀ mods, it ≠ .unfinished mods) :
    ∃ text, Prints M it.text (vaWords args) (vaWords (args.drop it.takes)) text ∧
      (it.literal = true → text = chars it.text) := by
  cases it with
  | unfinished mods => exact absurd rfl (hfinished mods)
  | char c =>
    refine ⟨chars [c], prints_chars [c] (vaWords args) ?_, fun _ => rfl⟩
    intro d hd
    obtain rfl := List.mem_singleton.mp hd
    exact hwf
  | escape mods c =>
    obtain ⟨hmods, hc, hnul⟩ := hwf
    have hdigit := isDigit_of_not_modifier hc
    have hle : mods.count (ch '*') ≤ args.length := (Nat.le_add_right _ _).trans hserved.enough
    obtain ⟨e, he⟩ := exists_modifies (M := M) hmods hle
    cases hconv : isConversion c with
    | false =>
      have hdefault := (label_eq_default_iff c).mpr ⟨hc, hconv⟩
      have htakes : (Item.escape mods c).takes = mods.count (ch '*') := by
        rw [Item.takes, hconv]
        rfl
      rw [htakes]
      exact ⟨_, prints_literal hmods hle hdefault hnul, fun _ => rfl⟩
    | true =>
      have hliteral : ∀ text, (Item.escape mods c).literal = true →
          text = chars (Item.escape mods c).text := by
        intro text h
        rw [Item.literal, hconv] at h
        exact nomatch h
      by_cases hpct : c = ch '%'
      · have hlabel := (label_eq_percent_iff c).mpr hpct
        have htakes : (Item.escape mods c).takes = mods.count (ch '*') := by
          rw [Item.takes, if_neg fun h => h.2 hpct]
          rfl
        rw [htakes]
        exact ⟨_, he.prints hdigit (converts_percent hlabel), hliteral _⟩
      · have htakes : (Item.escape mods c).takes = mods.count (ch '*') + 1 := by
          rw [Item.takes, if_pos ⟨hconv, hpct⟩]
        have hlt := hserved.enough
        rw [htakes] at hlt
        have harg : (Item.escape mods c).arg? args = some args[mods.count (ch '*')] :=
          List.getElem?_eq_getElem hlt
        obtain ⟨text, htext⟩ := exists_converts hc hconv hpct
          (fun h => hserved.string mods _ (by rw [h]) harg)
          (fun h => htable mods _ (by rw [h]) harg) e
          (vaWords (args.drop (mods.count (ch '*') + 1)))
        rw [List.drop_eq_getElem_cons hlt] at he
        rw [htakes]
        exact ⟨text, he.prints hdigit htext, hliteral _⟩

/-- The last item of a format, if it is not finished. -/
theorem printsLast_unfinished {args : List (BitVec 64)}
    (hmods : ∀ m ∈ mods, isModifier m = true) (hle : mods.count (ch '*') ≤ args.length) :
    PrintsLast M (Item.unfinished mods).text (vaWords args)
      (vaWords (args.drop (mods.count (ch '*')))) (chars (Item.unfinished mods).text) := by
  intro a b callers t
  have hc : label 0 = .default := (label_eq_default_iff 0).mpr ⟨rfl, rfl⟩
  exact literal_escape hmods hle hc a b callers t

theorem served_of_not_string {it : Item} {args : List (BitVec 64)}
    (henough : it.takes ≤ args.length) (hne : ∀ mods, it ≠ .escape mods (ch 's')) :
    it.Served M args :=
  ⟨henough, fun mods _ h => absurd h (hne mods)⟩

/-- An item that makes `%e` take the least `int`. -/
theorem comesTo_of_not_inTable {it : Item} {args : List (BitVec 64)} (hwf : it.WellFormed)
    (hserved : it.Served M args) (htable : ¬ it.InTable args) :
    ComesTo M it.text (vaWords args) FmtState.TakesIntMin := by
  simp only [Item.InTable, not_forall, ne_eq, not_not] at htable
  obtain ⟨mods, v, rfl, harg, hmin⟩ := htable
  obtain ⟨hmods, hc, hnul⟩ := hwf
  obtain ⟨hlt, hget⟩ := List.getElem?_eq_some_iff.mp harg
  obtain ⟨e, he⟩ := exists_modifies (M := M) hmods hlt.le
  rw [List.drop_eq_getElem_cons hlt, hget] at he
  intro a b callers t
  have hsteps := he a (ch 'e') b callers t rfl
  rw [Item.text, List.cons_append, List.append_assoc]
  exact ⟨_, hsteps, takesIntMin_fmtAt hmin⟩

end

/-! ## Sequences of items -/

/-- The number of arguments that a part of a format takes. -/
def takesOf (its : List Item) : ℕ := (its.map Item.takes).sum

/-- The items of a format: only the last one can be unfinished. -/
def ItemsWellFormed : List Item → Prop
  | [] => True
  | it :: its => it.WellFormed ∧ ((∃ mods, it = .unfinished mods) → its = []) ∧ ItemsWellFormed its

theorem itemsFrom_wellFormed {fmt : List Byte} (hnul : ∀ c ∈ fmt, c ≠ 0) (p : Option (List Byte))
    (hp : ∀ mods, p = some mods → ∀ m ∈ mods, isModifier m = true) :
    ItemsWellFormed (itemsFrom p fmt) := by
  induction fmt generalizing p with
  | nil =>
    cases p with
    | none => trivial
    | some mods => exact ⟨hp mods rfl, fun _ => rfl, trivial⟩
  | cons c fmt ih =>
    have hc : c ≠ 0 := hnul c List.mem_cons_self
    have hrest := ih fun d hd => hnul d (List.mem_cons_of_mem c hd)
    cases p with
    | none =>
      rw [itemsFrom]
      split
      case isTrue =>
        apply hrest
        intro mods hmods m hm
        obtain rfl := Option.some.inj hmods
        exact nomatch hm
      case isFalse hpct =>
        exact ⟨⟨hpct, hc⟩, nofun, hrest none nofun⟩
    | some mods =>
      rw [itemsFrom]
      split
      case isTrue hmod =>
        apply hrest
        intro mods' hmods m hm
        obtain rfl := Option.some.inj hmods
        rcases List.mem_append.mp hm with hm | hm
        · exact hp mods rfl m hm
        · obtain rfl := List.mem_singleton.mp hm
          exact hmod
      case isFalse hmod =>
        exact ⟨⟨hp mods rfl, Bool.not_eq_true _ ▸ hmod, hc⟩, nofun, hrest none nofun⟩

theorem textOf_itemsFrom (fmt : List Byte) (p : Option (List Byte)) :
    textOf (itemsFrom p fmt) = (match p with
      | none => []
      | some mods => ch '%' :: mods) ++ fmt := by
  induction fmt generalizing p with
  | nil =>
    cases p with
    | none => rfl
    | some mods => rfl
  | cons c fmt ih =>
    cases p with
    | none =>
      rw [itemsFrom]
      split
      case isTrue hpct =>
        rw [ih, hpct]
        rfl
      case isFalse hpct =>
        rw [textOf, List.flatMap_cons, ← textOf, ih]
        rfl
    | some mods =>
      rw [itemsFrom]
      split
      case isTrue hmod =>
        rw [ih]
        simp
      case isFalse hmod =>
        rw [textOf, List.flatMap_cons, ← textOf, ih]
        simp [Item.text]

/-- The items are the format, cut into pieces. -/
theorem textOf_items (fmt : List Byte) : textOf (items fmt) = fmt := textOf_itemsFrom fmt none

theorem textOf_append (its₁ its₂ : List Item) :
    textOf (its₁ ++ its₂) = textOf its₁ ++ textOf its₂ := List.flatMap_append

theorem textOf_cons (it : Item) (its : List Item) : textOf (it :: its) = it.text ++ textOf its :=
  List.flatMap_cons

theorem textOf_singleton (it : Item) : textOf [it] = it.text := List.append_nil it.text

section

variable {M : BitVec 64 → Option Byte} {its its₁ its₂ : List Item} {it : Item}
  {args : List (BitVec 64)} {P : Item → List (BitVec 64) → Prop}

theorem forItems_append : ForItems P (its₁ ++ its₂) args ↔
    ForItems P its₁ args ∧ ForItems P its₂ (args.drop (takesOf its₁)) := by
  induction its₁ generalizing args with
  | nil => exact (iff_of_eq (true_and _)).symm
  | cons it its₁ ih =>
    have htakes : takesOf (it :: its₁) = it.takes + takesOf its₁ := rfl
    rw [htakes, ← List.drop_drop]
    show P it args ∧ ForItems P (its₁ ++ its₂) (args.drop it.takes) ↔ _
    rw [ih, ← and_assoc]
    exact Iff.rfl

theorem ItemsWellFormed.right (h : ItemsWellFormed (its₁ ++ its₂)) : ItemsWellFormed its₂ := by
  induction its₁ with
  | nil => exact h
  | cons it its₁ ih => exact ih h.2.2

/-- Items that others follow are finished. -/
theorem exists_prints_items (hwf : ItemsWellFormed (its₁ ++ it :: its₂))
    (hserved : ForItems (Item.Served M) its₁ args) (htable : ForItems Item.InTable its₁ args) :
    ∃ T, Prints M (textOf its₁) (vaWords args) (vaWords (args.drop (takesOf its₁))) T := by
  induction its₁ generalizing args with
  | nil => exact ⟨[], prints_chars [] (vaWords args) nofun⟩
  | cons it' its₁ ih =>
    obtain ⟨hfirst, hlast, hrest⟩ := hwf
    have hfinished : ∀ mods, it' ≠ .unfinished mods := by
      intro mods h
      exact absurd (hlast ⟨mods, h⟩) (by simp)
    obtain ⟨text, htext, -⟩ := exists_prints hfirst hserved.1 htable.1 hfinished
    obtain ⟨T, hT⟩ := ih hrest hserved.2 htable.2
    rw [List.drop_drop] at hT
    exact ⟨text ++ T, htext.append hT⟩

/-- One item, which may be the last one. -/
theorem exists_printsLast (hwf : it.WellFormed) (hserved : it.Served M args)
    (htable : it.InTable args) :
    ∃ text, PrintsLast M it.text (vaWords args) (vaWords (args.drop it.takes)) text ∧
      (it.literal = true → text = chars it.text) := by
  by_cases hunfinished : ∃ mods, it = .unfinished mods
  · obtain ⟨mods, rfl⟩ := hunfinished
    exact ⟨_, printsLast_unfinished hwf hserved.enough, fun _ => rfl⟩
  · obtain ⟨text, htext, hliteral⟩ := exists_prints hwf hserved htable
      fun mods h => hunfinished ⟨mods, h⟩
    exact ⟨text, htext.last, hliteral⟩

theorem exists_printsLast_items (hwf : ItemsWellFormed its)
    (hserved : ForItems (Item.Served M) its args) (htable : ForItems Item.InTable its args) :
    ∃ ap' T, PrintsLast M (textOf its) (vaWords args) ap' T := by
  rcases List.eq_nil_or_concat its with rfl | ⟨its₁, it, rfl⟩
  · exact ⟨vaWords args, [], (prints_chars [] (vaWords args) nofun).last⟩
  · rw [List.concat_eq_append] at hwf hserved htable ⊢
    obtain ⟨hserved₁, hservedIt, -⟩ := forItems_append.mp hserved
    obtain ⟨htable₁, htableIt, -⟩ := forItems_append.mp htable
    obtain ⟨T, hT⟩ := exists_prints_items hwf hserved₁ htable₁
    obtain ⟨text, htext, -⟩ := exists_printsLast hwf.right.1 hservedIt htableIt
    rw [textOf_append, textOf_singleton]
    exact ⟨_, _, hT.append_last htext⟩

/-- The first bad error code is taken. -/
theorem comesTo_items (hwf : ItemsWellFormed its) (hserved : ForItems (Item.Served M) its args)
    (htable : ¬ ForItems Item.InTable its args) :
    ComesTo M (textOf its) (vaWords args) FmtState.TakesIntMin := by
  induction its generalizing args with
  | nil => exact absurd trivial htable
  | cons it its ih =>
    obtain ⟨hfirst, hlast, hrest⟩ := hwf
    rw [textOf_cons]
    by_cases hgood : it.InTable args
    · have hbad : ¬ ForItems Item.InTable its (args.drop it.takes) := fun h => htable ⟨hgood, h⟩
      have hfinished : ∀ mods, it ≠ .unfinished mods := by
        intro mods h
        obtain rfl := hlast ⟨mods, h⟩
        exact hbad trivial
      obtain ⟨text, htext, -⟩ := exists_prints hfirst hserved.1 hgood hfinished
      exact htext.append_comesTo (ih hrest hserved.2 hbad)
    · exact (comesTo_of_not_inTable hfirst hserved.1 hgood).append (textOf its)

/-- And ends everything. -/
theorem fails_items (hwf : ItemsWellFormed its) (hserved : ForItems (Item.Served M) its args)
    (htable : ¬ ForItems Item.InTable its args) :
    Fails M (textOf its) (vaWords args) (.outOfBounds (2 ^ 31)) :=
  (comesTo_items hwf hserved htable).fails fun _ h => h.exit rfl

/-- What is emitted before a literal item, the item, and what is emitted behind it. -/
theorem emits_literal {T : List (BitVec 32)} (hwf : ItemsWellFormed (its₁ ++ it :: its₂))
    (hserved : ForItems (Item.Served M) (its₁ ++ it :: its₂) args)
    (htable : ForItems Item.InTable (its₁ ++ it :: its₂) args) (hliteral : it.literal = true)
    (hT : Emits M (textOf (its₁ ++ it :: its₂) ++ [0]) (vaWords args) T) :
    ∃ T₁ T₂, Emits M (textOf its₁ ++ [0]) (vaWords args) T₁ ∧
      Emits M (textOf its₂ ++ [0]) (vaWords (args.drop (takesOf its₁ + it.takes))) T₂ ∧
      T = T₁ ++ chars it.text ++ T₂ := by
  obtain ⟨hserved₁, hservedIt, hserved₂⟩ := forItems_append.mp hserved
  obtain ⟨htable₁, htableIt, htable₂⟩ := forItems_append.mp htable
  obtain ⟨hwfIt, hlast, hwf₂⟩ := hwf.right
  obtain ⟨T₁, hT₁⟩ := exists_prints_items hwf hserved₁ htable₁
  rw [textOf_append, textOf_cons] at hT
  by_cases hunfinished : ∃ mods, it = .unfinished mods
  · obtain rfl := hlast hunfinished
    obtain ⟨mods, rfl⟩ := hunfinished
    have htext : textOf [] = [] := rfl
    rw [htext, List.append_nil] at hT
    have hall := (hT₁.append_last (printsLast_unfinished hwfIt hservedIt.enough)).emits
    have hnil := prints_chars (M := M) []
      (vaWords (args.drop (takesOf its₁ + (Item.unfinished mods).takes))) nofun
    refine ⟨T₁, [], hT₁.emits, hnil.emits, ?_⟩
    have heq := Except.ok.inj (hT.unique hall)
    rw [heq, List.append_nil]
  · obtain ⟨text, htext, heq⟩ := exists_prints hwfIt hservedIt htableIt
      fun mods h => hunfinished ⟨mods, h⟩
    rw [heq hliteral, List.drop_drop] at htext
    obtain ⟨ap', T₂, hT₂⟩ := exists_printsLast_items hwf₂ hserved₂ htable₂
    rw [List.drop_drop] at hT₂
    have hall := ((hT₁.append htext).append_last hT₂).emits
    rw [List.append_assoc (textOf its₁)] at hall
    exact ⟨T₁, T₂, hT₁.emits, hT₂.emits, Except.ok.inj (hT.unique hall)⟩

/-! ## The property -/

/-- `vprintfmt` returns, and has emitted every escape sequence that it does not know or that is not
finished as it is, between what the parts of the format before and behind it emit. -/
def PrintsFormat (M : BitVec 64 → Option Byte) (fmt : List Byte) (args : List (BitVec 64)) : Prop :=
  ∃ T, Emits M (fmt ++ [0]) (vaWords args) T ∧
    ∀ its₁ it its₂, items fmt = its₁ ++ it :: its₂ → it.literal = true →
      ∃ T₁ T₂, Emits M (textOf its₁ ++ [0]) (vaWords args) T₁ ∧
        Emits M (textOf its₂ ++ [0]) (vaWords (args.drop (takesOf its₁ + it.takes))) T₂ ∧
        T = T₁ ++ chars it.text ++ T₂

/-- It does so exactly if no `%e` gets the least `int`. -/
theorem vprintfmt_iff {fmt : List Byte} (hnul : ∀ c ∈ fmt, c ≠ 0)
    (hserved : ForItems (Item.Served M) (items fmt) args) :
    PrintsFormat M fmt args ↔ ForItems Item.InTable (items fmt) args := by
  have hwf : ItemsWellFormed (items fmt) := itemsFrom_wellFormed hnul none nofun
  have htext := textOf_items fmt
  constructor
  · rintro ⟨T, hT, -⟩
    by_contra hbad
    have hfails := fails_items hwf hserved hbad [] [0] [] []
    rw [htext] at hfails
    exact nomatch hT.unique hfails
  · intro htable
    obtain ⟨ap', T, hT⟩ := exists_printsLast_items hwf hserved htable
    have hemits := hT.emits
    refine ⟨T, htext ▸ hemits, ?_⟩
    intro its₁ it its₂ hsplit hliteral
    rw [hsplit] at hwf hserved htable hemits
    exact emits_literal hwf hserved htable hliteral hemits

end

/-- An unknown escape sequence, an error code, and a sequence that takes an argument and is not
finished. -/
theorem vprintfmt_iff_error : PrintsFormat (fun _ => none) (bytes "%-5q%le%l*") [-4, 7] := by
  have hitems : items (bytes "%-5q%le%l*") =
      [.escape (bytes "-5") (ch 'q'), .escape (bytes "l") (ch 'e'), .unfinished (bytes "l*")] := rfl
  apply (vprintfmt_iff (ne_zero_of_mem_bytes (by decide)) ?_).mpr
  · rw [hitems]
    refine ⟨?_, ?_, ?_, trivial⟩
    · intro mods v h
      exact absurd (Item.escape.inj h).2 (by decide)
    · intro mods v h harg
      obtain rfl : -4 = v := Option.some.inj harg
      decide
    · intro mods v h
      exact nomatch h
  · rw [hitems]
    refine ⟨served_of_not_string (by decide) ?_, served_of_not_string (by decide) ?_,
      served_of_not_string (by decide) ?_, trivial⟩
    · intro mods h
      exact absurd (Item.escape.inj h).2 (by decide)
    · intro mods h
      exact absurd (Item.escape.inj h).2 (by decide)
    · intro mods h
      exact nomatch h

/-- The least `int` as an error code. -/
theorem vprintfmt_intMin : ¬ ∀ (M : BitVec 64 → Option Byte) (fmt : List Byte)
    (args : List (BitVec 64)), (∀ c ∈ fmt, c ≠ 0) → ForItems (Item.Served M) (items fmt) args →
      PrintsFormat M fmt args := by
  intro h
  have hitems : items (bytes "%e") = [.escape [] (ch 'e')] := rfl
  have hserved : ForItems (Item.Served fun _ => none) (items (bytes "%e")) [0x80000000] := by
    rw [hitems]
    refine ⟨served_of_not_string (by decide) ?_, trivial⟩
    intro mods h
    exact absurd (Item.escape.inj h).2 (by decide)
  have hbad : ¬ ForItems Item.InTable (items (bytes "%e")) [0x80000000] := by
    rw [hitems]
    rintro ⟨htable, -⟩
    exact htable [] 0x80000000 rfl rfl rfl
  have hnul : ∀ c ∈ bytes "%e", c ≠ 0 := ne_zero_of_mem_bytes (by decide)
  obtain ⟨T, hT, -⟩ := h _ _ _ hnul hserved
  have hwf : ItemsWellFormed (items (bytes "%e")) := itemsFrom_wellFormed hnul none nofun
  exact nomatch hT.unique (fails_items hwf hserved hbad [] [0] [] [])

end CertiCore
