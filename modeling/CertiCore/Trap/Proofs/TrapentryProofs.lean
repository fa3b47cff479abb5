import Mathlib.Data.List.FinRange
import CertiCore.Hart.Proofs.SstatusProofs
import CertiCore.Trap.Trapentry

/-!
# Proofs: the trap frame is faithful at every nesting level

`SAVE_ALL` writes the expected frame, `RESTORE_ALL` and `sret` lead back to the state that a frame
describes, and between the two nothing changes the frame: a trap that interrupts the handler stores
below it.
-/

namespace CertiCore

variable {c e : Cpu} {cause tval : BitVec 64}

/-! ## Registers -/

theorem Cpu.get_of_ne {r : Reg} (hr : r ≠ 0) : c.get r = c.x r := if_neg hr

/-! ## Stores and loads in a row -/

/-- Stores of registers into slots of the frame. -/
theorem execAll_STORE (l : List (Reg × ℕ)) (c : Cpu) :
    ∃ pc, execAll (l.map fun rk => STORE rk.1 rk.2) c =
      { c with
        mem := c.mem.storeWords (c.get sp) (l.map fun rk => (rk.2, c.get rk.1))
        pc := pc } := by
  induction l generalizing c with
  | nil => exact ⟨c.pc, rfl⟩
  | cons rk l ih =>
    obtain ⟨pc, hpc⟩ := ih ((STORE rk.1 rk.2).exec c)
    refine ⟨pc, ?_⟩
    rw [List.map_cons, execAll, List.foldl_cons]
    refine hpc.trans ?_
    rfl

/-- Loads of registers from the slots with their numbers. -/
theorem execAll_LOAD (regs : List Reg) (hsp : sp ∉ regs) (c : Cpu) :
    ∃ pc, execAll (regs.map fun r => LOAD r r) c =
      { c with
        x := fun q => if q ∈ regs then c.mem.word (c.get sp) q else c.x q
        pc := pc } := by
  induction regs generalizing c with
  | nil => exact ⟨c.pc, rfl⟩
  | cons r regs ih =>
    have hr : sp ≠ r := fun h => hsp (h ▸ List.mem_cons_self)
    obtain ⟨pc, hpc⟩ := ih (fun hmem => hsp (List.mem_cons_of_mem r hmem)) ((LOAD r r).exec c)
    refine ⟨pc, ?_⟩
    rw [List.map_cons, execAll, List.foldl_cons]
    refine hpc.trans ?_
    have hget : ((LOAD r r).exec c).get sp = c.get sp := by
      rw [Cpu.get_of_ne (by decide), Cpu.get_of_ne (by decide)]
      exact if_neg hr
    rw [hget]
    refine Cpu.ext (funext fun q => ?_) rfl rfl rfl rfl rfl rfl rfl rfl
    show (if q ∈ regs then c.mem.word (c.get sp) q
      else if q = r then c.mem.word (c.get sp) r else c.x q) =
      if q ∈ r :: regs then c.mem.word (c.get sp) q else c.x q
    by_cases hmem : q ∈ regs
    · rw [if_pos hmem, if_pos (List.mem_cons_of_mem r hmem)]
    · rw [if_neg hmem]
      by_cases hq : q = r
      · subst hq
        rw [if_pos rfl, if_pos List.mem_cons_self]
      · rw [if_neg hq, if_neg fun h => (List.mem_cons.mp h).elim hq hmem]

/-! ## `SAVE_ALL` -/

/-- The registers that `SAVE_ALL` stores first, and that `RESTORE_ALL` loads: all but `sp`. -/
def gprs : List Reg := (List.finRange 32).filter fun r => r ≠ sp

theorem SAVE_ALL_eq :
    SAVE_ALL =
      [.csrw .sscratch sp, .addi sp sp (-BitVec.ofNat 64 (36 * REGBYTES))] ++
        ((gprs.map fun r => (r, r.val)).map fun rk => STORE rk.1 rk.2) ++
        [.csrrw s0 .sscratch 0, .csrr s1 .sstatus, .csrr s2 .sepc, .csrr s3 .sbadaddr,
          .csrr s4 .scause] ++
        ([(s0, 2), (s1, 32), (s2, 33), (s3, 34), (s4, 35)].map fun rk => STORE rk.1 rk.2) :=
  rfl

theorem RESTORE_ALL_eq :
    RESTORE_ALL =
      [LOAD s1 32, LOAD s2 33, .csrw .sstatus s1, .csrw .sepc s2] ++
        ((gprs.filter fun r => r ≠ 0).map fun r => LOAD r r) ++ [LOAD sp 2] :=
  rfl

theorem execAll_append (is js : List Instr) (c : Cpu) :
    execAll (is ++ js) c = execAll js (execAll is c) := List.foldl_append

/-- What the slots of the frame hold of the hart at the first instruction of `__alltraps`. -/
def frameWord (c : Cpu) (k : ℕ) : BitVec 64 :=
  if k < 32 then c.get (Fin.ofNat 32 k)
  else if k = 32 then c.sstatus
  else if k = 33 then c.sepc
  else if k = 34 then c.stval
  else c.scause

theorem frameWord_reg (c : Cpu) (r : Reg) : frameWord c r = c.get r := by
  rw [frameWord, if_pos r.isLt]
  congr 1
  exact Fin.ext (Nat.mod_eq_of_lt r.isLt)

/-- The first two instructions of `SAVE_ALL` make room for the frame. -/
theorem execAll_makeRoom (c : Cpu) :
    ∃ c₁, execAll [.csrw .sscratch sp, .addi sp sp (-BitVec.ofNat 64 (36 * REGBYTES))] c = c₁ ∧
      c₁.get sp = c.get sp - 36 * 8 ∧ (∀ r, r ≠ sp → c₁.get r = c.get r) ∧
      c₁.sscratch = c.get sp ∧ c₁.sstatus = c.sstatus ∧ c₁.sepc = c.sepc ∧ c₁.stval = c.stval ∧
      c₁.scause = c.scause ∧ c₁.priv = c.priv ∧ c₁.mem = c.mem := by
  refine ⟨_, rfl, ?_, fun r hr => ?_, rfl, rfl, rfl, rfl, rfl, rfl, rfl⟩
  · exact (BitVec.sub_eq_add_neg _ _).symm
  · by_cases h0 : r = 0
    · subst h0
      rfl
    · rw [Cpu.get_of_ne h0, Cpu.get_of_ne h0]
      exact if_neg hr

/-- The effect of `SAVE_ALL`: two groups of stores below the `sp` at its start, which together write
every slot of the frame. -/
theorem execAll_SAVE_ALL (c : Cpu) :
    ∃ l₁ l₂ : List (ℕ × BitVec 64),
      (execAll SAVE_ALL c).mem =
        (c.mem.storeWords (c.get sp - 36 * 8) l₁).storeWords (c.get sp - 36 * 8) l₂ ∧
      (execAll SAVE_ALL c).get sp = c.get sp - 36 * 8 ∧ (execAll SAVE_ALL c).priv = c.priv ∧
      (∀ kv ∈ l₁, kv.1 < 36 ∧ kv.2 = frameWord c kv.1) ∧
      (∀ kv ∈ l₂, kv.1 < 36 ∧ kv.2 = frameWord c kv.1) ∧
      ∀ k < 36, k ∈ l₁.map Prod.fst ∨ k ∈ l₂.map Prod.fst := by
  rw [SAVE_ALL_eq, execAll_append, execAll_append, execAll_append]
  obtain ⟨c₁, h, hsp, hregs, hscratch, hstatus, hepc, htval, hcause, hpriv, hmem⟩ :=
    execAll_makeRoom c
  rw [h, ← hsp, ← hmem, ← hpriv]
  obtain ⟨pc₁, h₁⟩ := execAll_STORE (gprs.map fun r => (r, r.val)) c₁
  rw [h₁]
  obtain ⟨pc₂, h₂⟩ := execAll_STORE [(s0, 2), (s1, 32), (s2, 33), (s3, 34), (s4, 35)] _
  rw [h₂]
  refine ⟨_, _, rfl, rfl, rfl, ?_, ?_, ?_⟩
  · intro kv hkv
    simp only [List.map_map, List.mem_map] at hkv
    obtain ⟨r, hr, rfl⟩ := hkv
    have hne : r ≠ sp := by simpa [gprs] using hr
    exact ⟨by have := r.isLt; simp only [Function.comp]; omega,
      (hregs r hne).trans (frameWord_reg c r).symm⟩
  · have hsp' : frameWord c 2 = c.get sp := frameWord_reg c sp
    simp only [List.map_cons, List.map_nil, List.forall_mem_cons]
    refine ⟨⟨by omega, hscratch.trans hsp'.symm⟩, ⟨by omega, hstatus⟩, ⟨by omega, hepc⟩,
      ⟨by omega, htval⟩, ⟨by omega, hcause⟩, ?_⟩
    exact fun kv hkv => absurd hkv List.not_mem_nil
  · have hslots : ∀ k < 36, k ∈ (gprs.map fun r => r.val) ∨ k ∈ [2, 32, 33, 34, 35] := by decide
    intro k hk
    rcases hslots k hk with hgpr | hcsr
    · refine Or.inl ?_
      simpa using hgpr
    · refine Or.inr ?_
      simpa using hcsr

/-- After `SAVE_ALL` the slots hold what the trap found, `sp` points to them, and memory outside of
the frame is unchanged. -/
theorem saved_spec (img : Image) (cause tval : BitVec 64) (c : Cpu) :
    (∀ k < 36, (img.saved cause tval c).mem.word (c.get sp - 36 * 8) k =
      frameWord (c.takeTrap img.alltraps cause tval) k) ∧
    (∀ a, 36 * 8 ≤ (a - (c.get sp - 36 * 8)).toNat → (img.saved cause tval c).mem a = c.mem a) ∧
    (img.saved cause tval c).get sp = c.get sp - 36 * 8 ∧
    (img.saved cause tval c).priv = .supervisor := by
  obtain ⟨l₁, l₂, hmem, hsp, hpriv, hl₁, hl₂, hall⟩ :=
    execAll_SAVE_ALL (c.takeTrap img.alltraps cause tval)
  refine ⟨fun k hk => ?_, fun a ha => ?_, hsp, hpriv⟩
  · rw [Image.saved, hmem]
    refine (Mem.word_storeWords _ (by omega) hk hl₂).trans ?_
    by_cases h₂ : k ∈ l₂.map Prod.fst
    · rw [if_pos h₂]
    · rw [if_neg h₂]
      refine (Mem.word_storeWords _ (by omega) hk hl₁).trans ?_
      rw [if_pos ((hall k hk).resolve_right h₂)]
  · rw [Image.saved, hmem]
    refine (Mem.storeWords_of_le (by omega) (fun kv hkv => (hl₂ kv hkv).1) ha).trans ?_
    exact Mem.storeWords_of_le (by omega) (fun kv hkv => (hl₁ kv hkv).1) ha

/-! ## `RESTORE_ALL` -/

/-- After `RESTORE_ALL` and `sret` the hart is in the state that the slots describe. -/
theorem restored_spec (e : Cpu) :
    (∀ r : Reg, r ≠ 0 → (restored e).get r = e.mem.word (e.get sp) r) ∧
    (restored e).pc = e.mem.word (e.get sp) 33 ∧
    (restored e).sstatus = sretStatus (e.mem.word (e.get sp) 32) ∧
    (restored e).priv = (if spp (e.mem.word (e.get sp) 32) then .supervisor else .user) ∧
    (restored e).mem = e.mem := by
  rw [restored, RESTORE_ALL_eq, execAll_append, execAll_append, execAll_append]
  obtain ⟨c₁, h, hsp, hstatus, hepc, hmem⟩ : ∃ c₁,
      execAll [LOAD s1 32, LOAD s2 33, .csrw .sstatus s1, .csrw .sepc s2] e = c₁ ∧
      c₁.get sp = e.get sp ∧ c₁.sstatus = e.mem.word (e.get sp) 32 ∧
      c₁.sepc = e.mem.word (e.get sp) 33 ∧ c₁.mem = e.mem :=
    ⟨_, rfl, rfl, rfl, rfl, rfl⟩
  rw [h, ← hstatus, ← hepc, ← hsp, ← hmem]
  obtain ⟨pc, hload⟩ := execAll_LOAD (gprs.filter fun r => r ≠ 0) (by decide) c₁
  rw [hload]
  refine ⟨fun r hr => ?_, rfl, rfl, rfl, rfl⟩
  rw [Cpu.get_of_ne hr]
  by_cases hrsp : r = sp
  · subst hrsp
    rfl
  · have hmem : r ∈ gprs.filter fun r => r ≠ 0 := by simp [gprs, hr, hrsp]
    refine (if_neg hrsp).trans ?_
    exact if_pos hmem

/-! ## Faithful visits -/

theorem PushRegs.ofRegs_congr {x y : ℕ → BitVec 64} (h : ∀ k < 32, x k = y k) :
    PushRegs.ofRegs x = PushRegs.ofRegs y := by
  have hxy : (fun k => if k < 32 then x k else 0) = fun k => if k < 32 then y k else 0 := by
    funext k
    by_cases hk : k < 32
    · rw [if_pos hk, if_pos hk, h k hk]
    · rw [if_neg hk, if_neg hk]
  have hofRegs : ∀ z : ℕ → BitVec 64,
      PushRegs.ofRegs z = PushRegs.ofRegs fun k => if k < 32 then z k else 0 := fun z => rfl
  rw [hofRegs x, hxy, ← hofRegs y]

/-- The frame that `trap()` receives, if the slots hold what the trap found. -/
theorem trapframeAt_eq {m : Mem} {base : BitVec 64} (alltraps : BitVec 64)
    (h : ∀ k < 36, m.word base k = frameWord (c.takeTrap alltraps cause tval) k) :
    trapframeAt m base = expectedFrame c cause tval := by
  have hgpr : PushRegs.ofRegs (m.word base) = PushRegs.ofRegs fun r => c.get (Fin.ofNat 32 r) := by
    refine PushRegs.ofRegs_congr fun k hk => ?_
    rw [h k (by omega), frameWord, if_pos hk]
    rfl
  rw [trapframeAt, hgpr, h 32 (by omega), h 33 (by omega), h 34 (by omega), h 35 (by omega)]
  rfl

/-- A trap whose slots hold what it found when `trap()` is called and when it has returned. -/
theorem faithful_of_words (alltraps : BitVec 64) {m : Mem} (hpriv : c.priv = .supervisor)
    (hcall : ∀ k < 36, m.word (e.get sp) k = frameWord (c.takeTrap alltraps cause tval) k)
    (hret : ∀ k < 36, e.mem.word (e.get sp) k = frameWord (c.takeTrap alltraps cause tval) k) :
    Visit.Faithful ⟨c, cause, tval, trapframeAt m (e.get sp), restored e⟩ := by
  obtain ⟨hregs, hpc, hstatus, hpriv', -⟩ := restored_spec e
  have h32 : e.mem.word (e.get sp) 32 = trapStatus c.sstatus := hret 32 (by omega)
  refine ⟨trapframeAt_eq alltraps hcall, fun r => ?_, ?_, ?_, ?_⟩
  · by_cases h0 : r = 0
    · subst h0
      rfl
    · refine (hregs r h0).trans ?_
      rw [hret r (by have := r.isLt; omega), frameWord_reg]
      rfl
  · exact hpc.trans (hret 33 (by omega))
  · show sie (restored e).sstatus = sie c.sstatus
    rw [hstatus, h32, sie_sretStatus, spie_trapStatus]
  · show (restored e).priv = c.priv
    rw [hpriv', h32, spp_trapStatus, hpriv]
    rfl

/-! ## The stack -/

variable {top base sp' a : BitVec 64}

/-- The frame of a trap taken below `base` lies below `base`, and so belongs to the part of the
stack that the handler of this trap leaves alone. -/
theorem OnStack.below (ha : OnStack top base a) (hbelow : (top - base).toNat ≤ (top - sp').toNat)
    (hroom : (top - sp').toNat + 36 * 8 < 2 ^ 64) :
    OnStack top (sp' - 36 * 8) a ∧ 36 * 8 ≤ (a - (sp' - 36 * 8)).toNat := by
  unfold OnStack at ha ⊢
  bv_omega

theorem onStack_frame (hroom : (top - sp').toNat + 36 * 8 < 2 ^ 64)
    (ha : (a - (sp' - 36 * 8)).toNat < 36 * 8) : OnStack top (sp' - 36 * 8) a := by
  unfold OnStack
  bv_omega

/-! ## Executions -/

theorem trapframeAt_congr {m m' : Mem} (h : ∀ k < 36, m.word base k = m'.word base k) :
    trapframeAt m base = trapframeAt m' base := by
  rw [trapframeAt, PushRegs.ofRegs_congr fun k hk => h k (by omega), h 32 (by omega),
    h 33 (by omega), h 34 (by omega), h 35 (by omega)]
  rfl

/-- What the registers and the frame are at a stage of the code between `SAVE_ALL` and
`RESTORE_ALL`, which began in the state `c`. -/
def StageOk (base : BitVec 64) (c c' : Cpu) : Stage → Prop
  | .arg => c'.get sp = base
  | .call => c'.get sp = base ∧ c'.get a0 = base
  | .inTrap tf _ => tf = trapframeAt c.mem base

/-- The invariant of an execution that began in the state `c`: the stack from the frame on upwards
is unchanged, and every trap that has returned was faithful. -/
structure ExecOk (top base : BitVec 64) (c : Cpu) (visits : List Visit) (stage : Stage) (c' : Cpu) :
    Prop where
  mem : ∀ a, OnStack top base a → c'.mem a = c.mem a
  priv : c'.priv = .supervisor
  stage : StageOk base c c' stage
  visits : ∀ v ∈ visits, v.Faithful

/-- The slots of the frame are unchanged. -/
theorem ExecOk.word {visits : List Visit} {stage : Stage} {c' : Cpu}
    (h : ExecOk top base c visits stage c')
    (hframe : ∀ a, (a - base).toNat < 36 * 8 → OnStack top base a) :
    ∀ k < 36, c'.mem.word base k = c.mem.word base k :=
  fun _ hk => Mem.word_congr (by omega) hk fun a ha => h.mem a (hframe a ha)

/-- A trap in the middle of an execution: its frame lies below, and after `sret` the registers are
what they were, so the execution is where it was. -/
theorem ExecOk.trap {img : Image} {visits inner : List Visit} {stage : Stage} {c' e : Cpu}
    {tf : Trapframe} {ra : BitVec 64} (h : ExecOk top base c visits stage c')
    (below : (top - base).toNat ≤ (top - c'.get sp).toNat)
    (room : (top - c'.get sp).toNat + 36 * 8 < 2 ^ 64)
    (hin : ExecOk top (c'.get sp - 36 * 8) (img.saved cause tval c') inner (.inTrap tf ra) e)
    (sp_eq : e.get sp = c'.get sp - 36 * 8) :
    ExecOk top base c (visits ++ inner ++ [⟨c', cause, tval, tf, restored e⟩]) stage
      (restored e) := by
  obtain ⟨hwords, hout, hsp, hpriv⟩ := saved_spec img cause tval c'
  have hframe : ∀ a, (a - (c'.get sp - 36 * 8)).toNat < 36 * 8 →
      OnStack top (c'.get sp - 36 * 8) a := fun a ha => onStack_frame room ha
  have htf : tf = trapframeAt (img.saved cause tval c').mem (c'.get sp - 36 * 8) := hin.stage
  have hfaithful : Visit.Faithful ⟨c', cause, tval, tf, restored e⟩ := by
    rw [htf, ← sp_eq]
    refine faithful_of_words img.alltraps h.priv ?_ ?_
    · rw [sp_eq]
      exact hwords
    · rw [sp_eq]
      exact fun k hk => (hin.word hframe k hk).trans (hwords k hk)
  refine ⟨fun a ha => ?_, ?_, ?_, fun v hv => ?_⟩
  · obtain ⟨hstack, hle⟩ := ha.below below room
    rw [(restored_spec e).2.2.2.2, hin.mem a hstack, hout a hle]
    exact h.mem a ha
  · exact hfaithful.priv.trans h.priv
  · cases stage with
    | arg => exact (hfaithful.regs sp).trans h.stage
    | call => exact ⟨(hfaithful.regs sp).trans h.stage.1, (hfaithful.regs a0).trans h.stage.2⟩
    | inTrap tf' ra' => exact h.stage
  · rcases List.mem_append.mp hv with hold | hnew
    · rcases List.mem_append.mp hold with hv | hv
      · exact h.visits v hv
      · exact hin.visits v hv
    · obtain rfl := List.mem_singleton.mp hnew
      exact hfaithful

theorem Exec.ok {img : Image} {visits : List Visit} {stage : Stage} {c' : Cpu}
    (h : Exec img top base c visits stage c') :
    c.get sp = base → c.priv = .supervisor →
      (∀ a, (a - base).toNat < 36 * 8 → OnStack top base a) →
      ExecOk top base c visits stage c' := by
  induction h with
  | start =>
    intro hsp hpriv _
    exact ⟨fun _ _ => rfl, hpriv, hsp, fun v hv => absurd hv List.not_mem_nil⟩
  | move _ ih =>
    intro hsp hpriv hframe
    have hok := ih hsp hpriv hframe
    exact ⟨hok.mem, hok.priv, ⟨hok.stage, hok.stage⟩, hok.visits⟩
  | jal _ ih =>
    intro hsp hpriv hframe
    have hok := ih hsp hpriv hframe
    refine ⟨hok.mem, hok.priv, ?_, hok.visits⟩
    show trapframeAt _ _ = trapframeAt _ _
    rw [hok.stage.2]
    exact trapframeAt_congr (hok.word hframe)
  | code _ priv keep ih =>
    intro hsp hpriv hframe
    have hok := ih hsp hpriv hframe
    exact ⟨fun a ha => (keep a ha).trans (hok.mem a ha), priv, hok.stage, hok.visits⟩
  | trap _ cause tval below room _ _ sp_eq ih ihin =>
    intro hsp hpriv hframe
    have hok := ih hsp hpriv hframe
    obtain ⟨-, -, hsaved, hsuper⟩ := saved_spec img cause tval _
    have hin := ihin hsaved hsuper fun a ha => onStack_frame room ha
    exact hok.trap below room hin sp_eq

/-- In every run of a trap of a supervisor, the trap itself and every trap that interrupts it, at
any depth, is faithful: `trap()` receives a frame that shows all registers, and after `sret` the
registers, the pc, `SIE` and the mode are those of the interrupted instruction. -/
theorem trapframe_faithful {img : Image} {c : Cpu} {visits : List Visit}
    (h : TrapRun img c visits) : ∀ v ∈ visits, v.Faithful := by
  obtain ⟨priv, cause, tval, handler, -, sp_eq⟩ := h
  -- the run is that of a trap in an execution that has not begun
  have hok : ExecOk (c.get sp) (c.get sp) c [] .arg c :=
    ⟨fun _ _ => rfl, priv, rfl, fun v hv => absurd hv List.not_mem_nil⟩
  obtain ⟨-, -, hsaved, hsuper⟩ := saved_spec img cause tval c
  have hroom : (c.get sp - c.get sp).toNat + 36 * 8 < 2 ^ 64 := by
    rw [BitVec.sub_self]
    decide
  have hin := handler.ok hsaved hsuper fun a ha => onStack_frame hroom ha
  exact (hok.trap (le_refl _) hroom hin sp_eq).visits

theorem Exec.exists_call (img : Image) (top base : BitVec 64) (c : Cpu) :
    ∃ tf ra c', Exec img top base c [] (.inTrap tf ra) c' :=
  ⟨_, _, _, Exec.jal (Exec.move Exec.start)⟩

/-- `trap()` may go on to any `sp`, and to the point where it returns. -/
theorem Exec.exists_return {img : Image} {visits : List Visit} {tf : Trapframe} {ra : BitVec 64}
    {c' : Cpu} (h : Exec img top base c visits (.inTrap tf ra) c') (v : BitVec 64) :
    ∃ e, Exec img top base c visits (.inTrap tf ra) e ∧ e.pc = ra ∧ e.get sp = v :=
  ⟨{ c'.set sp v with pc := ra, priv := .supervisor }, h.code rfl fun _ _ => rfl, rfl, rfl⟩

/-- The handler of a timer interrupt lowers `sp` by 64 bytes and hits a breakpoint. -/
theorem trapframe_faithful_nested :
    ∃ visits, TrapRun ⟨0xffffffffc0200200, 0xffffffffc0200400⟩
      ⟨fun r => r.val * 0x1000, 0xffffffffc0200040, 2, 0, 0, 0, 0, .supervisor, fun _ => 0⟩ visits ∧
      visits.length = 2 ∧ ∀ v ∈ visits, v.Faithful := by
  generalize hc : (⟨fun r => r.val * 0x1000, 0xffffffffc0200040, 2, 0, 0, 0, 0, .supervisor,
    fun _ => 0⟩ : Cpu) = c
  have htop : c.get sp = 0x2000 := by
    rw [← hc]
    rfl
  have hpriv : c.priv = .supervisor := by rw [← hc]
  obtain ⟨tf, ra, _, hcall⟩ := Exec.exists_call ⟨0xffffffffc0200200, 0xffffffffc0200400⟩
    (c.get sp) (c.get sp - 36 * 8) (Image.saved _ 0x8000000000000005 0 c)
  obtain ⟨u, hlow, -, hu⟩ := hcall.exists_return 0x1ea0
  -- the breakpoint, whose handler returns at once
  obtain ⟨tf', ra', _, hcall'⟩ := Exec.exists_call ⟨0xffffffffc0200200, 0xffffffffc0200400⟩
    (c.get sp) (u.get sp - 36 * 8) (Image.saved _ 3 0 u)
  obtain ⟨e, hin, hret, hsp⟩ := hcall'.exists_return (u.get sp - 36 * 8)
  have hnested := Exec.trap hlow 3 0 (by rw [hu, htop]; decide) (by rw [hu, htop]; decide) hin hret
    hsp
  obtain ⟨v, hend, hret', hsp'⟩ := hnested.exists_return (c.get sp - 36 * 8)
  have hrun := TrapRun.mk hpriv 0x8000000000000005 0 hend hret' hsp'
  exact ⟨_, hrun, rfl, trapframe_faithful hrun⟩

end CertiCore
