import CertiCore.Hart.Proofs.SstatusProofs
import CertiCore.Program.Proofs.ProgProofs
import CertiCore.Sync.Sync

/-!
# Proofs: the bodies run with interrupts off, one after the other

The invariant has two parts. Each frame fixes the bit `SIE` with which it runs, and only the running
frame can be in a body. The data are those of a sequential execution of the bodies that have
started, if one lets the body in progress run to its end.
-/

namespace CertiCore

variable {σ ρ Op : Type} {bodyOf : Op → Prog σ ρ} {g g' : Shared σ ρ Op} {pt pt' : Point σ ρ Op}
  {f : Frame σ ρ Op} {fs : List (Frame σ ρ Op)} {m m' : Hart σ ρ Op}

/-! ## The steps of a wrapper -/

/-- The place of the body of the call in progress, once it has started. -/
def Point.idx? : Point σ ρ Op → Option ℕ
  | body _ _ idx _ => some idx
  | restore _ _ idx _ => some idx
  | enable _ idx _ => some idx
  | exit _ idx _ => some idx
  | _ => none

/-- A value that is still to be returned is the one of the sequential execution. -/
def Point.Holds (results : List ρ) : Point σ ρ Op → Prop
  | restore _ _ idx ret => results[idx]? = some ret
  | enable _ idx ret => results[idx]? = some ret
  | exit _ idx ret => results[idx]? = some ret
  | _ => True

/-- A step starts a body, goes on in it, ends it, or returns from the wrapper; any other step leaves
the data and the record of the bodies alone. -/
theorem Point.step_cases (h : pt.step bodyOf g = some (g', pt')) :
    (pt.inBody = false ∧ pt'.inBody = false ∧ g'.mem = g.mem ∧ g'.started = g.started ∧
      g'.returned = g.returned ∧ g'.calls = g.calls ∧ g'.traps = g.traps ∧ pt'.idx? = pt.idx? ∧
      ∀ results, pt.Holds results → pt'.Holds results) ∨
    (∃ op before flag, pt = start op before flag ∧ g' = { g with started := g.started ++ [op] } ∧
      pt' = body before flag g.started.length (bodyOf op)) ∨
    (∃ before flag idx upd next, pt = body before flag idx (.access upd next) ∧
      g' = { g with mem := upd g.mem } ∧ pt' = body before flag idx (next g.mem)) ∨
    (∃ before flag idx v, pt = body before flag idx (.ret v) ∧ g' = g ∧
      pt' = restore before flag idx v) ∨
    (∃ before idx ret, pt = exit before idx ret ∧
      g' = { g with
        returned := Function.update g.returned idx (some ret)
        calls := g.calls ++ [(before, sie g.sstatus)] } ∧ pt' = idle) := by
  cases pt with
  | idle => cases h
  | save op before =>
    cases h
    exact Or.inl ⟨rfl, rfl, rfl, rfl, rfl, rfl, rfl, rfl, fun _ hv => hv⟩
  | test op before sstatus =>
    cases h
    refine Or.inl ?_
    cases intrSaveTest sstatus
    · exact ⟨rfl, rfl, rfl, rfl, rfl, rfl, rfl, rfl, fun _ hv => hv⟩
    · exact ⟨rfl, rfl, rfl, rfl, rfl, rfl, rfl, rfl, fun _ hv => hv⟩
  | disable op before =>
    cases h
    exact Or.inl ⟨rfl, rfl, rfl, rfl, rfl, rfl, rfl, rfl, fun _ hv => hv⟩
  | start op before flag =>
    cases h
    exact Or.inr (Or.inl ⟨op, before, flag, rfl, rfl, rfl⟩)
  | body before flag idx rest =>
    cases rest with
    | access upd next =>
      cases h
      exact Or.inr (Or.inr (Or.inl ⟨before, flag, idx, upd, next, rfl, rfl, rfl⟩))
    | ret v =>
      cases h
      exact Or.inr (Or.inr (Or.inr (Or.inl ⟨before, flag, idx, v, rfl, rfl, rfl⟩)))
  | restore before flag idx ret =>
    cases h
    refine Or.inl ?_
    cases flag
    · exact ⟨rfl, rfl, rfl, rfl, rfl, rfl, rfl, rfl, fun _ hv => hv⟩
    · exact ⟨rfl, rfl, rfl, rfl, rfl, rfl, rfl, rfl, fun _ hv => hv⟩
  | enable before idx ret =>
    cases h
    exact Or.inl ⟨rfl, rfl, rfl, rfl, rfl, rfl, rfl, rfl, fun _ hv => hv⟩
  | exit before idx ret =>
    cases h
    exact Or.inr (Or.inr (Or.inr (Or.inr ⟨before, idx, ret, rfl, rfl, rfl⟩)))

/-! ## The bit `SIE` -/

/-- What a point of a wrapper says about the current bit `SIE` and the bit before the call. -/
def Point.SieOk (now : Bool) : Point σ ρ Op → Prop
  | idle => True
  | save _ before => now = before
  | test _ before sstatus => now = before ∧ sie sstatus = before
  | disable _ before => now = true ∧ before = true
  | start _ before flag => now = false ∧ flag = before
  | body before flag _ _ => now = false ∧ flag = before
  | restore before flag _ _ => now = false ∧ flag = before
  | enable before _ _ => now = false ∧ before = true
  | exit before _ _ => now = before

/-- The bit before the call in progress, if there is one. -/
def Point.before? : Point σ ρ Op → Option Bool
  | idle => none
  | save _ before => some before
  | test _ before _ => some before
  | disable _ before => some before
  | start _ before _ => some before
  | body before _ _ _ => some before
  | restore before _ _ _ => some before
  | enable before _ _ => some before
  | exit before _ _ => some before

theorem intrSaveTest_eq (sstatus : BitVec 64) : intrSaveTest sstatus = sie sstatus := by
  rw [intrSaveTest, SSTATUS_SIE_eq, and_bitMask_eq_zero (by decide), Bool.not_not]
  rfl

theorem Point.sieOk_step (h : pt.step bodyOf g = some (g', pt')) (hok : pt.SieOk (sie g.sstatus)) :
    pt'.SieOk (sie g'.sstatus) := by
  cases pt with
  | idle => cases h
  | save op before =>
    cases h
    exact ⟨hok, hok⟩
  | test op before sstatus =>
    obtain ⟨hnow, hread⟩ := hok
    simp only [step, intrSaveTest_eq, Option.some.injEq, Prod.mk.injEq] at h
    obtain ⟨rfl, rfl⟩ := h
    cases before
    · rw [hread]
      exact ⟨hnow, rfl⟩
    · rw [hread]
      exact ⟨hnow, rfl⟩
  | disable op before =>
    cases h
    exact ⟨sie_intrDisable _, hok.2.symm⟩
  | start op before flag =>
    cases h
    exact hok
  | body before flag idx rest =>
    cases rest with
    | ret v =>
      cases h
      exact hok
    | access upd next =>
      cases h
      exact hok
  | restore before flag idx ret =>
    obtain ⟨hnow, rfl⟩ := hok
    cases h
    cases flag
    · exact hnow
    · exact ⟨hnow, rfl⟩
  | enable before idx ret =>
    cases h
    exact (sie_intrEnable _).trans hok.2.symm
  | exit before idx ret =>
    cases h
    trivial

/-- A call that began with `SIE` clear leaves it clear at every step. -/
theorem Point.off_step (h : pt.step bodyOf g = some (g', pt')) (hok : pt.SieOk false)
    (hoff : pt.before? ≠ some true) (hsie : sie g.sstatus = false) :
    sie g'.sstatus = false ∧ pt'.before? ≠ some true := by
  cases pt with
  | idle => cases h
  | save op before =>
    cases h
    exact ⟨hsie, hoff⟩
  | test op before sstatus =>
    simp only [step, Option.some.injEq, Prod.mk.injEq] at h
    obtain ⟨rfl, rfl⟩ := h
    refine ⟨hsie, ?_⟩
    cases intrSaveTest sstatus
    · exact hoff
    · exact hoff
  | disable op before => exact absurd hok.1 Bool.false_ne_true
  | start op before flag =>
    cases h
    exact ⟨hsie, hoff⟩
  | body before flag idx rest =>
    cases rest with
    | ret v =>
      cases h
      exact ⟨hsie, hoff⟩
    | access upd next =>
      cases h
      exact ⟨hsie, hoff⟩
  | restore before flag idx ret =>
    cases h
    refine ⟨hsie, ?_⟩
    cases flag
    · exact hoff
    · exact hoff
  | enable before idx ret => exact absurd (congrArg some hok.2) hoff
  | exit before idx ret =>
    cases h
    exact ⟨hsie, nofun⟩

/-- With `now` and `prev` for the bits `SIE` and `SPIE`: a handler runs with interrupts off and has
saved an `sstatus` that leads back to the bit before the trap. -/
def Frame.SieOk (now prev : Bool) : Frame σ ρ Op → Prop
  | code .main pt => pt.SieOk now
  | code (.handler before saved) pt =>
    now = false ∧ pt.SieOk false ∧ pt.before? ≠ some true ∧ sie saved = false ∧ spie saved = before
  | saveAll before => now = false ∧ prev = before
  | sret before => now = false ∧ prev = before

/-- The bit `SIE` of the code that the frame has interrupted, if it has interrupted any. -/
def Frame.before? : Frame σ ρ Op → Option Bool
  | code .main _ => none
  | code (.handler before _) _ => some before
  | saveAll before => some before
  | sret before => some before

/-- The frame is interrupted C code, not in a body, that goes on with the bit `now`. -/
def Frame.Resumes (now : Bool) : Frame σ ρ Op → Prop
  | code ctx pt => pt.inBody = false ∧ ∀ prev, (code ctx pt).SieOk now prev
  | saveAll _ => False
  | sret _ => False

/-- Below a frame that resumes with the bit `before?` lie the frames it has interrupted. -/
def StackOk : Option Bool → List (Frame σ ρ Op) → Prop
  | none, fs => fs = []
  | some _, [] => False
  | some before, f :: fs => f.Resumes before ∧ StackOk f.before? fs

/-- The first part of the invariant. -/
structure Hart.SieOk (m : Hart σ ρ Op) : Prop where
  running : m.running.SieOk (sie m.shared.sstatus) (spie m.shared.sstatus)
  interrupted : StackOk m.running.before? m.interrupted
  calls : ∀ p ∈ m.shared.calls, p.1 = p.2
  traps : ∀ p ∈ m.shared.traps, p.1 = p.2

theorem Frame.Resumes.not_inBody {now : Bool} (h : f.Resumes now) : f.point.inBody = false := by
  cases f with
  | code ctx pt => exact h.1
  | saveAll before => rfl
  | sret before => rfl

theorem StackOk.not_inBody {before : Option Bool} (h : StackOk before fs) :
    ∀ f ∈ fs, f.point.inBody = false := by
  induction fs generalizing before with
  | nil => exact fun f hf => absurd hf List.not_mem_nil
  | cons f fs ih =>
    cases before with
    | none => cases h
    | some before =>
      obtain ⟨hf, hfs⟩ := h
      intro f' hf'
      rcases List.mem_cons.mp hf' with rfl | hmem
      · exact hf.not_inBody
      · exact ih hfs f' hmem

/-- A trap is taken from code that is not in a body. -/
theorem Hart.SieOk.trap (h : Hart.SieOk ⟨g, f, fs⟩) (hf : f.Resumes (sie g.sstatus)) :
    Hart.SieOk ⟨{ g with sstatus := trapStatus g.sstatus }, .saveAll (sie g.sstatus), f :: fs⟩ :=
  ⟨⟨sie_trapStatus _, spie_trapStatus _⟩, ⟨hf, h.interrupted⟩, h.calls, h.traps⟩

/-- A body runs with `SIE` clear, so where interrupts are taken there is none. -/
theorem Point.SieOk.not_inBody {now : Bool} (h : pt.SieOk now) (hnow : now = true) :
    pt.inBody = false := by
  cases pt with
  | body before flag idx rest => exact nomatch hnow.symm.trans h.1
  | _ => rfl

theorem Point.step_calls (h : pt.step bodyOf g = some (g', pt')) (hok : pt.SieOk (sie g.sstatus))
    (hcalls : ∀ p ∈ g.calls, p.1 = p.2) : ∀ p ∈ g'.calls, p.1 = p.2 := by
  rcases Point.step_cases h with ⟨-, -, -, -, -, heq, -⟩ | ⟨op, before, flag, -, rfl, -⟩ |
    ⟨before, flag, idx, upd, next, -, rfl, -⟩ | ⟨before, flag, idx, v, -, rfl, -⟩ |
    ⟨before, idx, ret, rfl, rfl, -⟩
  · rw [heq]
    exact hcalls
  · exact hcalls
  · exact hcalls
  · exact hcalls
  · intro p hp
    rcases List.mem_append.mp hp with hold | hnew
    · exact hcalls p hold
    · obtain rfl := List.mem_singleton.mp hnew
      exact hok.symm

theorem Point.step_traps (h : pt.step bodyOf g = some (g', pt')) : g'.traps = g.traps := by
  rcases Point.step_cases h with ⟨-, -, -, -, -, -, heq, -⟩ | ⟨op, before, flag, -, rfl, -⟩ |
    ⟨before, flag, idx, upd, next, -, rfl, -⟩ | ⟨before, flag, idx, v, -, rfl, -⟩ |
    ⟨before, idx, ret, -, rfl, -⟩
  · exact heq
  all_goals rfl

theorem Hart.SieOk.step (h : m.SieOk) (hstep : Step bodyOf m m') : m'.SieOk := by
  cases hstep with
  | @call op g ctx fs =>
    cases ctx with
    | main => exact ⟨rfl, h.interrupted, h.calls, h.traps⟩
    | handler before saved =>
      obtain ⟨hsie, -, -, hsaved⟩ := h.running
      refine ⟨⟨hsie, hsie.symm, fun hon => ?_, hsaved⟩, h.interrupted, h.calls, h.traps⟩
      exact nomatch hsie.symm.trans (Option.some.inj hon)
  | @exec g g' ctx pt pt' fs hexec =>
    have htraps : ∀ p ∈ g'.traps, p.1 = p.2 := by
      rw [Point.step_traps hexec]
      exact h.traps
    cases ctx with
    | main =>
      exact ⟨Point.sieOk_step hexec h.running, h.interrupted,
        Point.step_calls hexec h.running h.calls, htraps⟩
    | handler before saved =>
      obtain ⟨hsie, hok, hoff, hsaved⟩ := h.running
      obtain ⟨hsie', hoff'⟩ := Point.off_step hexec hok hoff hsie
      have hok' := Point.sieOk_step hexec (hsie.symm ▸ hok)
      refine ⟨⟨hsie', hsie' ▸ hok', hoff', hsaved⟩, h.interrupted, ?_, htraps⟩
      exact Point.step_calls hexec (hsie.symm ▸ hok) h.calls
  | @interrupt g f fs hsie =>
    refine h.trap ?_
    cases f with
    | code ctx pt =>
      cases ctx with
      | main => exact ⟨Point.SieOk.not_inBody h.running hsie, fun _ => h.running⟩
      | handler before saved => exact nomatch hsie.symm.trans h.running.1
    | saveAll before => exact nomatch hsie.symm.trans h.running.1
    | sret before => exact nomatch hsie.symm.trans h.running.1
  | @exception g ctx pt fs hpt =>
    refine h.trap ⟨hpt, fun prev => ?_⟩
    cases ctx with
    | main => exact h.running
    | handler before saved => exact h.running
  | @saveAll g before fs =>
    obtain ⟨hsie, hspie⟩ := h.running
    exact ⟨⟨hsie, trivial, nofun, hsie, hspie⟩, h.interrupted, h.calls, h.traps⟩
  | @restoreAll g before saved fs =>
    obtain ⟨-, -, -, hsie, hspie⟩ := h.running
    exact ⟨⟨hsie, hspie⟩, h.interrupted, h.calls, h.traps⟩
  | @sret g before f fs =>
    obtain ⟨-, hspie⟩ := h.running
    obtain ⟨hf, hfs⟩ := h.interrupted
    have hback : sie (sretStatus g.sstatus) = before := (sie_sretStatus _).trans hspie
    refine ⟨?_, hfs, h.calls, fun p hp => ?_⟩
    · cases f with
      | code ctx pt =>
        show Frame.SieOk (sie (sretStatus g.sstatus)) _ _
        rw [hback]
        exact hf.2 _
      | saveAll before => exact hf.elim
      | sret before => exact hf.elim
    · rcases List.mem_append.mp hp with hold | hnew
      · exact h.traps p hold
      · obtain rfl := List.mem_singleton.mp hnew
        exact hback.symm
  | enable => exact ⟨trivial, h.interrupted, h.calls, h.traps⟩
  | disable => exact ⟨trivial, h.interrupted, h.calls, h.traps⟩

theorem Hart.sieOk_init (sstatus : BitVec 64) (mem : σ) :
    (Hart.init sstatus mem : Hart σ ρ Op).SieOk :=
  ⟨trivial, rfl, fun _ hp => absurd hp List.not_mem_nil, fun _ hp => absurd hp List.not_mem_nil⟩

theorem Hart.Reaches.sieOk {sstatus : BitVec 64} {mem : σ} (h : Hart.Reaches bodyOf sstatus mem m) :
    m.SieOk := by
  induction h with
  | refl => exact Hart.sieOk_init sstatus mem
  | tail _ hstep ih => exact ih.step hstep

/-- Where a body is in progress, `SIE` is clear, and only the running frame is in a body. -/
theorem Hart.SieOk.inBody (h : m.SieOk) :
    (∀ pt ∈ m.points, pt.inBody = true → sie m.shared.sstatus = false) ∧
      (m.points.filter Point.inBody).length ≤ 1 := by
  have hbelow : ∀ pt ∈ m.interrupted.map Frame.point, pt.inBody = false := by
    intro pt hpt
    obtain ⟨f, hf, rfl⟩ := List.mem_map.mp hpt
    exact h.interrupted.not_inBody f hf
  constructor
  · intro pt hpt hbody
    rcases List.mem_cons.mp hpt with rfl | hmem
    · have hrun := h.running
      cases hf : m.running with
      | code ctx pt =>
        rw [hf] at hbody hrun
        cases ctx with
        | main =>
          by_contra hon
          have hout := Point.SieOk.not_inBody hrun (by simpa using hon)
          exact nomatch hout.symm.trans hbody
        | handler before saved => exact hrun.1
      | saveAll before =>
        rw [hf] at hbody
        exact nomatch hbody
      | sret before =>
        rw [hf] at hbody
        exact nomatch hbody
    · exact nomatch (hbelow pt hmem).symm.trans hbody
  · have hnil : (m.interrupted.map Frame.point).filter Point.inBody = [] := by
      rw [List.filter_eq_nil_iff]
      intro pt hpt
      rw [hbelow pt hpt]
      exact Bool.false_ne_true
    rw [points, List.filter_cons, hnil]
    cases m.running.point.inBody
    · exact Nat.zero_le 1
    · exact le_refl 1

/-! ## The sequential execution -/

/-- The data at a point of the running code: a body in progress, if run to its end, has the result
and leaves the data of the sequential execution. -/
def Point.Runs (seq : List ρ × σ) (mem : σ) : Point σ ρ Op → Prop
  | body _ _ idx rest => seq.1[idx]? = some (rest.run mem).1 ∧ seq.2 = (rest.run mem).2
  | _ => mem = seq.2

theorem Point.runs_iff (hpt : pt.inBody = false) {seq : List ρ × σ} {mem : σ} :
    pt.Runs seq mem ↔ mem = seq.2 := by
  cases pt with
  | body before flag idx rest => cases hpt
  | _ => exact Iff.rfl

/-- The bodies that have started, run one after the other: their results and the last data. -/
def Shared.sequential (bodyOf : Op → Prog σ ρ) (mem₀ : σ) (g : Shared σ ρ Op) : List ρ × σ :=
  Prog.runAll (g.started.map bodyOf) mem₀

/-- The second part of the invariant. -/
structure Hart.Serial (bodyOf : Op → Prog σ ρ) (mem₀ : σ) (m : Hart σ ρ Op) : Prop where
  running : m.running.point.Runs (m.shared.sequential bodyOf mem₀) m.shared.mem
  holds : ∀ pt ∈ m.points, pt.Holds (m.shared.sequential bodyOf mem₀).1
  returned : ∀ i v, m.shared.returned i = some v →
    (m.shared.sequential bodyOf mem₀).1[i]? = some v
  pending : ∀ i < m.shared.started.length, m.shared.returned i = none →
    ∃ pt ∈ m.points, pt.idx? = some i

variable {mem₀ : σ}

theorem Shared.sequential_start (op : Op) (g : Shared σ ρ Op) :
    ({ g with started := g.started ++ [op] } : Shared σ ρ Op).sequential bodyOf mem₀ =
      ((g.sequential bodyOf mem₀).1 ++ [((bodyOf op).run (g.sequential bodyOf mem₀).2).1],
        ((bodyOf op).run (g.sequential bodyOf mem₀).2).2) := by
  simp only [sequential, List.map_append, List.map_cons, List.map_nil,
    Prog.runAll_append_singleton]

theorem Shared.length_sequential (g : Shared σ ρ Op) :
    (g.sequential bodyOf mem₀).1.length = g.started.length := by
  rw [sequential, Prog.runAll_length, List.length_map]

theorem getElem?_append_of_some {l : List ρ} {i : ℕ} {v w : ρ} (h : l[i]? = some v) :
    (l ++ [w])[i]? = some v := by
  obtain ⟨hlt, -⟩ := List.getElem?_eq_some_iff.mp h
  rw [List.getElem?_append_left hlt, h]

theorem Point.Holds.append {results : List ρ} (h : pt.Holds results) (w : ρ) :
    pt.Holds (results ++ [w]) := by
  cases pt with
  | restore before flag idx ret => exact getElem?_append_of_some h
  | enable before idx ret => exact getElem?_append_of_some h
  | exit before idx ret => exact getElem?_append_of_some h
  | _ => trivial

/-- What is pending stays pending while the running code keeps the place of its body. -/
theorem Point.pending_cons {pts : List (Point σ ρ Op)} {i : ℕ}
    (h : ∃ p ∈ pt :: pts, p.idx? = some i) (hidx : pt.idx? = some i → pt'.idx? = some i) :
    ∃ p ∈ pt' :: pts, p.idx? = some i := by
  obtain ⟨p, hp, hi⟩ := h
  rcases List.mem_cons.mp hp with rfl | hmem
  · exact ⟨pt', List.mem_cons_self, hidx hi⟩
  · exact ⟨p, List.mem_cons_of_mem _ hmem, hi⟩

theorem Hart.Serial.exec {ctx : Ctx} (h : Hart.Serial bodyOf mem₀ ⟨g, .code ctx pt, fs⟩)
    (hexec : pt.step bodyOf g = some (g', pt')) :
    Hart.Serial bodyOf mem₀ ⟨g', .code ctx pt', fs⟩ := by
  obtain ⟨hrun, hholds, hret, hpend⟩ := h
  have hpt := hholds pt List.mem_cons_self
  have hbelow : ∀ pt' ∈ fs.map Frame.point, pt'.Holds (g.sequential bodyOf mem₀).1 :=
    fun pt' hmem => hholds pt' (List.mem_cons_of_mem _ hmem)
  have hpending : ∀ i < g.started.length, g.returned i = none →
      ∃ p ∈ pt :: fs.map Frame.point, p.idx? = some i := hpend
  rcases Point.step_cases hexec with
    ⟨hin, hin', hmem, hstarted, hreturned, -, -, hidx, hholds'⟩ |
    ⟨op, before, flag, rfl, rfl, rfl⟩ | ⟨before, flag, idx, upd, next, rfl, rfl, rfl⟩ |
    ⟨before, flag, idx, v, rfl, rfl, rfl⟩ | ⟨before, idx, ret, rfl, rfl, rfl⟩
  · have hseq : g'.sequential bodyOf mem₀ = g.sequential bodyOf mem₀ := by
      rw [Shared.sequential, hstarted]
      rfl
    refine ⟨?_, ?_, ?_, ?_⟩
    · rw [hseq, hmem]
      exact (Point.runs_iff hin').mpr ((Point.runs_iff hin).mp hrun)
    · rw [hseq]
      exact List.forall_mem_cons.mpr ⟨hholds' _ hpt, hbelow⟩
    · rw [hseq, hreturned]
      exact hret
    · rw [hstarted, hreturned]
      exact fun i hi hnone => Point.pending_cons (hpending i hi hnone) hidx.trans
  · -- the body starts on the data that the bodies before it have left
    have hmem : g.mem = (g.sequential bodyOf mem₀).2 := hrun
    refine ⟨?_, ?_, ?_, ?_⟩
    · rw [Shared.sequential_start, ← hmem]
      refine ⟨?_, rfl⟩
      have hlen : (g.sequential bodyOf mem₀).1.length = g.started.length := g.length_sequential
      rw [← hlen, List.getElem?_concat_length]
    · rw [Shared.sequential_start]
      exact List.forall_mem_cons.mpr ⟨trivial, fun pt' hmem => (hbelow pt' hmem).append _⟩
    · rw [Shared.sequential_start]
      exact fun i v hi => getElem?_append_of_some (hret i v hi)
    · intro i hi hnone
      rw [List.length_append, List.length_singleton] at hi
      by_cases hlast : i = g.started.length
      · exact ⟨_, List.mem_cons_self, congrArg some hlast.symm⟩
      · exact Point.pending_cons (hpending i (by omega) hnone) nofun
  · refine ⟨hrun, List.forall_mem_cons.mpr ⟨trivial, hbelow⟩, hret, fun i hi hnone => ?_⟩
    exact Point.pending_cons (hpending i hi hnone) id
  · obtain ⟨hv, hmem⟩ := hrun
    refine ⟨hmem.symm, List.forall_mem_cons.mpr ⟨hv, hbelow⟩, hret, fun i hi hnone => ?_⟩
    exact Point.pending_cons (hpending i hi hnone) id
  · refine ⟨hrun, List.forall_mem_cons.mpr ⟨trivial, hbelow⟩, fun i v hi => ?_,
      fun i hi hnone => ?_⟩
    · change Function.update g.returned idx (some ret) i = some v at hi
      by_cases heq : i = idx
      · subst heq
        rw [Function.update_self] at hi
        obtain rfl := Option.some.inj hi
        exact hpt
      · rw [Function.update_of_ne heq] at hi
        exact hret i v hi
    · change Function.update g.returned idx (some ret) i = none at hnone
      have hne : i ≠ idx := by
        rintro rfl
        rw [Function.update_self] at hnone
        cases hnone
      rw [Function.update_of_ne hne] at hnone
      refine Point.pending_cons (hpending i hi hnone) fun hidx => ?_
      exact absurd (Option.some.inj hidx).symm hne

theorem Point.idx?_eq_none_or_mem {pts : List (Point σ ρ Op)} (hpt : pt.idx? = none) :
    ∀ p ∈ pt :: pts, p.idx? = none ∨ p ∈ pts := by
  intro p hp
  rcases List.mem_cons.mp hp with rfl | hmem
  · exact Or.inl hpt
  · exact Or.inr hmem

/-- A step that touches neither the data nor the record of the bodies, from a point that is not in
a body to one that is not, keeps the second part of the invariant. -/
theorem Hart.Serial.frame (h : m.Serial bodyOf mem₀) (hmem : m'.shared.mem = m.shared.mem)
    (hstarted : m'.shared.started = m.shared.started)
    (hreturned : m'.shared.returned = m.shared.returned)
    (hin : m.running.point.inBody = false) (hin' : m'.running.point.inBody = false)
    (hholds : ∀ pt ∈ m'.points, pt.idx? = none ∨ pt ∈ m.points)
    (hpend : ∀ pt ∈ m.points, pt.idx? = none ∨ pt ∈ m'.points) : m'.Serial bodyOf mem₀ := by
  have hseq : m'.shared.sequential bodyOf mem₀ = m.shared.sequential bodyOf mem₀ := by
    rw [Shared.sequential, hstarted]
    rfl
  refine ⟨?_, fun pt hpt => ?_, ?_, fun i hi hnone => ?_⟩
  · rw [hseq, hmem]
    exact (Point.runs_iff hin').mpr ((Point.runs_iff hin).mp h.running)
  · rw [hseq]
    rcases hholds pt hpt with hnone | hold
    · cases pt with
      | restore before flag idx ret => cases hnone
      | enable before idx ret => cases hnone
      | exit before idx ret => cases hnone
      | _ => trivial
    · exact h.holds pt hold
  · rw [hseq, hreturned]
    exact h.returned
  · rw [hstarted] at hi
    rw [hreturned] at hnone
    obtain ⟨pt, hpt, hidx⟩ := h.pending i hi hnone
    rcases hpend pt hpt with hnil | hmem'
    · rw [hnil] at hidx
      cases hidx
    · exact ⟨pt, hmem', hidx⟩

theorem Hart.Serial.step (hsie : m.SieOk) (h : m.Serial bodyOf mem₀) (hstep : Step bodyOf m m') :
    m'.Serial bodyOf mem₀ := by
  cases hstep with
  | call op =>
    refine h.frame rfl rfl rfl rfl rfl (fun pt hpt => ?_) fun pt hpt => ?_
    · exact (Point.idx?_eq_none_or_mem rfl pt hpt).imp_right (List.mem_cons_of_mem _)
    · exact (Point.idx?_eq_none_or_mem rfl pt hpt).imp_right (List.mem_cons_of_mem _)
  | exec hexec => exact h.exec hexec
  | @interrupt g f fs hon =>
    have hout : f.point.inBody = false := by
      by_contra hin
      have hoff := hsie.inBody.1 f.point List.mem_cons_self (by simpa using hin)
      exact nomatch hon.symm.trans hoff
    exact h.frame rfl rfl rfl hout rfl (Point.idx?_eq_none_or_mem rfl) fun pt hpt =>
      Or.inr (List.mem_cons_of_mem _ hpt)
  | exception hout =>
    exact h.frame rfl rfl rfl hout rfl (Point.idx?_eq_none_or_mem rfl) fun pt hpt =>
      Or.inr (List.mem_cons_of_mem _ hpt)
  | saveAll => exact h.frame rfl rfl rfl rfl rfl (fun pt hpt => Or.inr hpt) fun pt hpt => Or.inr hpt
  | restoreAll =>
    exact h.frame rfl rfl rfl rfl rfl (fun pt hpt => Or.inr hpt) fun pt hpt => Or.inr hpt
  | @sret g before f fs =>
    have hout := hsie.interrupted.not_inBody f List.mem_cons_self
    exact h.frame rfl rfl rfl rfl hout (fun pt hpt => Or.inr (List.mem_cons_of_mem _ hpt))
      (Point.idx?_eq_none_or_mem rfl)
  | enable => exact h.frame rfl rfl rfl rfl rfl (fun pt hpt => Or.inr hpt) fun pt hpt => Or.inr hpt
  | disable => exact h.frame rfl rfl rfl rfl rfl (fun pt hpt => Or.inr hpt) fun pt hpt => Or.inr hpt

theorem Hart.serial_init (sstatus : BitVec 64) (mem₀ : σ) :
    (Hart.init sstatus mem₀ : Hart σ ρ Op).Serial bodyOf mem₀ := by
  refine ⟨rfl, fun pt hpt => ?_, nofun, fun i hi => absurd hi (Nat.not_lt_zero i)⟩
  obtain rfl := List.mem_singleton.mp hpt
  trivial

theorem Hart.Reaches.serial {sstatus : BitVec 64} (h : Hart.Reaches bodyOf sstatus mem₀ m) :
    m.Serial bodyOf mem₀ := by
  induction h with
  | refl => exact Hart.serial_init sstatus mem₀
  | tail hreach hstep ih => exact ih.step (Hart.Reaches.sieOk hreach) hstep

/-- When the hart is quiescent, every body that has started has returned. -/
theorem Hart.Serial.returned_eq (h : m.Serial bodyOf mem₀) (hquiet : m.Quiescent) :
    m.shared.mem = (m.shared.sequential bodyOf mem₀).2 ∧
      ∀ i < m.shared.started.length,
        m.shared.returned i = (m.shared.sequential bodyOf mem₀).1[i]? := by
  obtain ⟨hrunning, hinterrupted⟩ := hquiet
  have hpoints : m.points = [.idle] := by
    rw [points, hrunning, hinterrupted]
    rfl
  constructor
  · have hrun := h.running
    rw [hrunning] at hrun
    exact hrun
  · intro i hi
    cases hret : m.shared.returned i with
    | some v => exact (h.returned i v hret).symm
    | none =>
      obtain ⟨pt, hpt, hidx⟩ := h.pending i hi hret
      rw [hpoints] at hpt
      obtain rfl := List.mem_singleton.mp hpt
      cases hidx

theorem Hart.Serial.mem_eq (h : m.Serial bodyOf mem₀)
    (hout : ∀ pt ∈ m.points, pt.inBody = false) :
    m.shared.mem = (m.shared.sequential bodyOf mem₀).2 :=
  (Point.runs_iff (hout _ List.mem_cons_self)).mp h.running

/-! ## Calls that are not interrupted -/

/-- A body that is not interrupted runs to its end. -/
theorem Hart.steps_body (p : Prog σ ρ) (g : Shared σ ρ Op) (ctx : Ctx) (fs : List (Frame σ ρ Op))
    (before flag : Bool) (idx : ℕ) :
    Relation.ReflTransGen (Step bodyOf) ⟨g, .code ctx (.body before flag idx p), fs⟩
      ⟨{ g with mem := (p.run g.mem).2 }, .code ctx (.restore before flag idx (p.run g.mem).1),
        fs⟩ := by
  induction p generalizing g with
  | ret v => exact Relation.ReflTransGen.single (Step.exec rfl)
  | access upd next ih => exact (ih g.mem { g with mem := upd g.mem }).head (Step.exec rfl)

/-- A call that is not interrupted returns, and leaves `SIE` as it was. -/
theorem Hart.exists_call (op : Op) (g : Shared σ ρ Op) (ctx : Ctx) (fs : List (Frame σ ρ Op)) :
    ∃ g', Relation.ReflTransGen (Step bodyOf) ⟨g, .code ctx .idle, fs⟩ ⟨g', .code ctx .idle, fs⟩ ∧
      g'.started = g.started ++ [op] ∧ g'.mem = ((bodyOf op).run g.mem).2 ∧
      sie g'.sstatus = sie g.sstatus := by
  have hread : Relation.ReflTransGen (Step bodyOf) ⟨g, .code ctx .idle, fs⟩
      ⟨g, .code ctx (if intrSaveTest g.sstatus then .disable op (sie g.sstatus)
        else .start op (sie g.sstatus) false), fs⟩ :=
    Relation.ReflTransGen.refl |>.tail (.call op) |>.tail (.exec rfl) |>.tail (.exec rfl)
  rw [intrSaveTest_eq] at hread
  cases hsie : sie g.sstatus with
  | true =>
    rw [hsie] at hread
    refine ⟨_, ((hread.tail (.exec rfl)).tail (.exec rfl)).trans (steps_body (bodyOf op) _ ctx fs _
      true _) |>.tail (.exec rfl) |>.tail (.exec rfl) |>.tail (.exec rfl), rfl, rfl, ?_⟩
    exact sie_intrEnable _
  | false =>
    rw [hsie] at hread
    exact ⟨_, (hread.tail (.exec rfl)).trans (steps_body (bodyOf op) _ ctx fs _ false _)
      |>.tail (.exec rfl) |>.tail (.exec rfl), rfl, rfl, hsie⟩

end CertiCore
