import CertiCore.Libs.List

/-!
# Proofs: doubly linked lists

The fields of the entries in use follow the links of the rings, whatever sequence of calls is made,
and the list at a head is edited as one would edit a list.
-/

namespace CertiCore

variable {m m' : Mem} {a b v e x elm listelm : BitVec 64} {S : Set (BitVec 64)} {s : RingState}

/-! ## The fields -/

section Fields

variable (hS : S.Pairwise Apart) (ha : a ∈ S) (hb : b ∈ S)

include hS ha hb

/-- The fields `prev` and `next` are at the offsets 0 and 8. -/
theorem load64_store64_field {i j : BitVec 64} (hi : i = 0 ∨ i = 8) (hj : j = 0 ∨ j = 8) :
    (m.store64 (a + i) v).load64 (b + j) = if b = a ∧ j = i then v else m.load64 (b + j) := by
  split
  case isTrue h =>
    rw [h.1, h.2]
    exact Mem.load64_store64
  case isFalse h =>
    have hdist : 8 ≤ (b + j - (a + i)).toNat ∧ 8 ≤ (a + i - (b + j)).toNat := by
      by_cases heq : b = a
      · rw [heq]
        rcases hi with rfl | rfl <;> rcases hj with rfl | rfl
        · exact absurd ⟨heq, rfl⟩ h
        · constructor <;> bv_omega
        · constructor <;> bv_omega
        · exact absurd ⟨heq, rfl⟩ h
      · obtain ⟨hab, hba⟩ := hS ha hb (Ne.symm heq)
        rcases hi with rfl | rfl <;> rcases hj with rfl | rfl <;> constructor <;> bv_omega
    exact Mem.load64_store64_of_ne hdist.1 hdist.2

theorem listNext_setNext :
    listNext (setNext m a v) b = if b = a then v else listNext m b := by
  have h := load64_store64_field (m := m) (v := v) hS ha hb (Or.inr rfl) (Or.inr rfl)
  simpa [listNext, setNext] using h

theorem listPrev_setPrev :
    listPrev (setPrev m a v) b = if b = a then v else listPrev m b := by
  have h := load64_store64_field (m := m) (v := v) hS ha hb (Or.inl rfl) (Or.inl rfl)
  simpa [listPrev, setPrev] using h

theorem listNext_setPrev : listNext (setPrev m a v) b = listNext m b := by
  have h := load64_store64_field (m := m) (v := v) hS ha hb (Or.inl rfl) (Or.inr rfl)
  simpa [listNext, setPrev] using h

theorem listPrev_setNext : listPrev (setNext m a v) b = listPrev m b := by
  have h := load64_store64_field (m := m) (v := v) hS ha hb (Or.inr rfl) (Or.inl rfl)
  simpa [listPrev, setNext] using h

end Fields

/-! ## One call -/

/-- The fields of the entries in use follow the links. -/
structure Linked (m : Mem) (s : RingState) : Prop where
  apart : s.nodes.Pairwise Apart
  next : ∀ e ∈ s.nodes, listNext m e = s.links e
  prev : ∀ e ∈ s.nodes, listPrev m e = s.links.symm e
  /-- An entry that is not in use is on its own. -/
  outside : ∀ e, e ∉ s.nodes → s.links e = e

theorem Linked.mem_next (h : Linked m s) (he : e ∈ s.nodes) : s.links e ∈ s.nodes := by
  by_contra hout
  have hself := s.links.injective (h.outside _ hout)
  rw [hself] at hout
  exact hout he

theorem Linked.mem_prev (h : Linked m s) (he : e ∈ s.nodes) : s.links.symm e ∈ s.nodes := by
  by_contra hout
  have hself := h.outside _ hout
  rw [Equiv.apply_symm_apply] at hself
  rw [← hself] at hout
  exact hout he

theorem Linked.listInit (h : Linked m s) (hfree : s.Free elm) :
    Linked (listInit m elm) ⟨insert elm s.nodes, s.links⟩ := by
  obtain ⟨hself, hS⟩ := hfree
  have hmem := Set.mem_insert elm s.nodes
  refine ⟨hS, fun e he => ?_, fun e he => ?_, fun e he => ?_⟩
  · rw [CertiCore.listInit, listNext_setPrev hS hmem he, listNext_setNext hS hmem he]
    split
    case isTrue heq => rw [heq, hself]
    case isFalse hne => exact h.next e (Set.mem_of_mem_insert_of_ne he hne)
  · rw [CertiCore.listInit, listPrev_setPrev hS hmem he, listPrev_setNext hS hmem he]
    split
    case isTrue heq => rw [heq, Equiv.eq_symm_apply, hself]
    case isFalse hne => exact h.prev e (Set.mem_of_mem_insert_of_ne he hne)
  · exact h.outside e fun hin => he (Set.mem_insert_of_mem elm hin)

/-- `__list_add` between an entry and the one behind it. -/
theorem Linked.add (h : Linked m s) (hx : x ∈ s.nodes) (hne : x ≠ elm) (hfree : s.Free elm) :
    Linked (listAddBetween m elm x (s.links x))
      ⟨insert elm s.nodes, Ring.insertAfter s.links x elm⟩ := by
  obtain ⟨hself, hS⟩ := hfree
  have hmem := Set.mem_insert elm s.nodes
  have hx' := Set.mem_insert_of_mem elm hx
  have hnext := Set.mem_insert_of_mem elm (h.mem_next hx)
  refine ⟨hS, fun e he => ?_, fun e he => ?_, fun e he => ?_⟩
  · rw [listAddBetween, listNext_setPrev hS hmem he, listNext_setNext hS hmem he,
      listNext_setNext hS hx' he, listNext_setPrev hS hnext he, Ring.insertAfter_apply hself]
    split
    · rfl
    case isFalse hout => rw [h.next e (Set.mem_of_mem_insert_of_ne he hout)]
  · rw [listAddBetween, listPrev_setPrev hS hmem he, listPrev_setNext hS hmem he,
      listPrev_setNext hS hx' he, listPrev_setPrev hS hnext he,
      Ring.insertAfter_symm_apply hself hne]
    split
    · rfl
    case isFalse hout => rw [h.prev e (Set.mem_of_mem_insert_of_ne he hout)]
  · rw [Ring.insertAfter_apply hself]
    have hout : e ≠ elm := fun heq => he (heq ▸ hmem)
    have hout' : e ≠ x := fun heq => he (heq ▸ hx')
    rw [if_neg hout, if_neg hout']
    exact h.outside e fun hin => he (Set.mem_insert_of_mem elm hin)

theorem Linked.listAddAfter (h : Linked m s) (hx : listelm ∈ s.nodes) (hne : listelm ≠ elm)
    (hfree : s.Free elm) : Linked (listAddAfter m listelm elm)
      ⟨insert elm s.nodes, Ring.insertAfter s.links listelm elm⟩ := by
  rw [CertiCore.listAddAfter, h.next _ hx]
  exact h.add hx hne hfree

theorem Linked.listAddBefore (h : Linked m s) (hx : listelm ∈ s.nodes) (hne : listelm ≠ elm)
    (hfree : s.Free elm) : Linked (listAddBefore m listelm elm)
      ⟨insert elm s.nodes, Ring.insertAfter s.links (s.links.symm listelm) elm⟩ := by
  have hprev : s.links.symm listelm ≠ elm := by
    rw [Ne, Equiv.symm_apply_eq, hfree.1]
    exact hne
  have hadd := h.add (h.mem_prev hx) hprev hfree
  rw [Equiv.apply_symm_apply] at hadd
  rw [CertiCore.listAddBefore, h.prev _ hx]
  exact hadd

theorem Linked.listDel (h : Linked m s) (hx : listelm ∈ s.nodes) :
    Linked (listDel m listelm) ⟨s.nodes \ {listelm}, Ring.remove s.links listelm⟩ := by
  have hnext := h.mem_next hx
  have hprev := h.mem_prev hx
  rw [CertiCore.listDel, h.next _ hx, h.prev _ hx, listDelBetween]
  refine ⟨h.apart.mono Set.sdiff_subset, fun e he => ?_, fun e he => ?_, fun e he => ?_⟩
  · obtain ⟨hin, hne⟩ := he
    rw [listNext_setPrev h.apart hnext hin, listNext_setNext h.apart hprev hin, h.next e hin,
      Ring.remove_apply, if_neg (Set.notMem_singleton_iff.mp hne)]
  · obtain ⟨hin, hne⟩ := he
    rw [listPrev_setPrev h.apart hnext hin, listPrev_setNext h.apart hprev hin, h.prev e hin,
      Ring.remove_symm_apply, if_neg (Set.notMem_singleton_iff.mp hne)]
  · rw [Ring.remove_apply]
    split
    case isTrue heq => exact heq.symm
    case isFalse hne =>
      have hin : e ∉ s.nodes := fun hin => he ⟨hin, hne⟩
      have hne' : e ≠ s.links.symm listelm := by
        rintro rfl
        exact hin hprev
      rw [if_neg hne']
      exact h.outside e hin

theorem Linked.listDelInit (h : Linked m s) (hx : listelm ∈ s.nodes) :
    Linked (listDelInit m listelm) ⟨s.nodes, Ring.remove s.links listelm⟩ := by
  have hback : insert listelm (s.nodes \ {listelm}) = s.nodes := Set.insert_sdiff_self_of_mem hx
  have hself : Ring.remove s.links listelm listelm = listelm := by
    rw [Ring.remove_apply, if_pos rfl]
  have hS : (insert listelm (s.nodes \ {listelm})).Pairwise Apart := by
    rw [hback]
    exact h.apart
  have hinit := (h.listDel hx).listInit ⟨hself, hS⟩
  rwa [hback] at hinit

theorem Linked.exec (h : Linked m s) {op : ListOp} (legal : op.Legal s) :
    Linked (op.exec m) (op.relink s) := by
  cases op with
  | init elm => exact h.listInit legal
  | add listelm elm => exact h.listAddAfter legal.1 legal.2.1 legal.2.2
  | addBefore listelm elm => exact h.listAddBefore legal.1 legal.2.1 legal.2.2
  | addAfter listelm elm => exact h.listAddAfter legal.1 legal.2.1 legal.2.2
  | del listelm => exact h.listDel legal
  | delInit listelm => exact h.listDelInit legal

/-! ## The rest of the memory -/

/-- The memory is the same outside of the entries of `S`. -/
def SameOutside (S : Set (BitVec 64)) (m m' : Mem) : Prop :=
  ∀ a, (∀ e ∈ S, 16 ≤ (a - e).toNat) → m' a = m a

theorem sameOutside_setPrev (m : Mem) (v : BitVec 64) (ha : a ∈ S) :
    SameOutside S m (setPrev m a v) := by
  intro x hx
  exact Mem.store64_of_le (by have := hx a ha; omega)

theorem sameOutside_setNext (m : Mem) (v : BitVec 64) (ha : a ∈ S) :
    SameOutside S m (setNext m a v) := by
  intro x hx
  refine Mem.store64_of_le ?_
  have hfar := hx a ha
  bv_omega

theorem SameOutside.trans {m'' : Mem} (h : SameOutside S m m') (h' : SameOutside S m' m'') :
    SameOutside S m m'' := fun a ha => (h' a ha).trans (h a ha)

theorem sameOutside_add (m : Mem) (hb : b ∈ S) (ha : a ∈ S) (he : elm ∈ S) :
    SameOutside S m (listAddBetween m elm a b) :=
  ((sameOutside_setPrev m elm hb).trans (sameOutside_setNext _ elm ha)).trans
    ((sameOutside_setNext _ b he).trans (sameOutside_setPrev _ a he))

theorem sameOutside_del (m : Mem) (ha : a ∈ S) (hb : b ∈ S) :
    SameOutside S m (listDelBetween m a b) :=
  (sameOutside_setNext m b ha).trans (sameOutside_setPrev _ a hb)

theorem sameOutside_init (m : Mem) (he : elm ∈ S) : SameOutside S m (listInit m elm) :=
  (sameOutside_setNext m elm he).trans (sameOutside_setPrev _ elm he)

/-- A call changes entries that are in use before or after it only. -/
theorem Linked.sameOutside (h : Linked m s) {op : ListOp} (legal : op.Legal s) :
    SameOutside (s.nodes ∪ (op.relink s).nodes) m (op.exec m) := by
  cases op with
  | init elm => exact sameOutside_init m (Or.inr (Set.mem_insert elm _))
  | add listelm elm =>
    rw [ListOp.exec, listAdd, CertiCore.listAddAfter, h.next _ legal.1]
    exact sameOutside_add m (Or.inl (h.mem_next legal.1)) (Or.inl legal.1)
      (Or.inr (Set.mem_insert elm _))
  | addBefore listelm elm =>
    rw [ListOp.exec, CertiCore.listAddBefore, h.prev _ legal.1]
    exact sameOutside_add m (Or.inl legal.1) (Or.inl (h.mem_prev legal.1))
      (Or.inr (Set.mem_insert elm _))
  | addAfter listelm elm =>
    rw [ListOp.exec, CertiCore.listAddAfter, h.next _ legal.1]
    exact sameOutside_add m (Or.inl (h.mem_next legal.1)) (Or.inl legal.1)
      (Or.inr (Set.mem_insert elm _))
  | del listelm =>
    rw [ListOp.exec, CertiCore.listDel, h.next _ legal, h.prev _ legal]
    exact sameOutside_del m (Or.inl (h.mem_prev legal)) (Or.inl (h.mem_next legal))
  | delInit listelm =>
    rw [ListOp.exec, CertiCore.listDelInit, CertiCore.listDel, h.next _ legal, h.prev _ legal]
    exact (sameOutside_del m (Or.inl (h.mem_prev legal)) (Or.inl (h.mem_next legal))).trans
      (sameOutside_init _ (Or.inl legal))

/-! ## The list at a head -/

section Contents

variable {h : BitVec 64} {l : List (BitVec 64)}

/-- The list at the head `h` holds the entries `l`: they are found by following the fields `next`,
and in the other order by following the fields `prev`. -/
structure Contents (m : Mem) (s : RingState) (h : BitVec 64) (l : List (BitVec 64)) : Prop where
  nodup : (h :: l).Nodup
  mem : ∀ a ∈ h :: l, a ∈ s.nodes
  next : (h :: l).map (listNext m) = l ++ [h]
  prev : (h :: l.reverse).map (listPrev m) = l.reverse ++ [h]

theorem Linked.contents_iff (hm : Linked m s) : Contents m s h l ↔
    (h :: l).Nodup ∧ (∀ a ∈ h :: l, a ∈ s.nodes) ∧ Ring.Visits s.links h l := by
  have hnext : (∀ a ∈ h :: l, a ∈ s.nodes) →
      (h :: l).map (listNext m) = (h :: l).map s.links := fun hmem =>
    List.map_congr_left fun a ha => hm.next a (hmem a ha)
  constructor
  · intro hl
    exact ⟨hl.nodup, hl.mem, (hnext hl.mem).symm.trans hl.next⟩
  · rintro ⟨hnodup, hmem, hvisits⟩
    refine ⟨hnodup, hmem, (hnext hmem).trans hvisits, ?_⟩
    rw [← hvisits.symm]
    refine List.map_congr_left fun a ha => hm.prev a (hmem a ?_)
    rcases List.mem_cons.mp ha with rfl | hrev
    · exact List.mem_cons_self
    · exact List.mem_cons_of_mem h (List.mem_reverse.mp hrev)

theorem Contents.unique {l' : List (BitVec 64)} (hm : Linked m s) (hl : Contents m s h l)
    (hl' : Contents m s h l') : l' = l := by
  obtain ⟨hnodup, -, hvisits⟩ := hm.contents_iff.mp hl
  obtain ⟨hnodup', -, hvisits'⟩ := hm.contents_iff.mp hl'
  exact hvisits'.unique hvisits (List.nodup_cons.mp hnodup').1 (List.nodup_cons.mp hnodup).1

/-- A call that puts `e` into a list. -/
theorem Contents.gain {m' : Mem} {σ : Equiv.Perm (BitVec 64)} {l' : List (BitVec 64)}
    (hm' : Linked m' ⟨insert e s.nodes, σ⟩) (hl : Contents m s h l) (hgains : Ring.Gains e l l')
    (hout : e ∉ h :: l) (hvisits : Ring.Visits σ h l') :
    Contents m' ⟨insert e s.nodes, σ⟩ h l' := by
  obtain ⟨hnodup, hmem⟩ := hgains.nodup hl.nodup hout
  refine hm'.contents_iff.mpr ⟨hnodup, fun a ha => ?_, hvisits⟩
  rcases hmem a ha with rfl | hin
  · exact Set.mem_insert a _
  · exact Set.mem_insert_of_mem e (hl.mem a hin)

theorem Contents.exec (hm : Linked m s) {op : ListOp} (legal : op.Legal s) (hmoves : ¬ op.Moves h)
    (hl : Contents m s h l) : Contents (op.exec m) (op.relink s) h (op.edit h l) := by
  have hm' := hm.exec legal
  obtain ⟨hnodup, hmem, hvisits⟩ := hm.contents_iff.mp hl
  obtain ⟨-, hnodup'⟩ := List.nodup_cons.mp hnodup
  have hbehind : ∀ x e, s.links e = e → e ≠ h → e ∉ h :: l ∧
      Ring.Gains e l (if x = h then e :: l else Ring.behind x e l) ∧
      Ring.Visits (Ring.insertAfter s.links x e) h
        (if x = h then e :: l else Ring.behind x e l) := by
    intro x e hself hne
    have hout := hvisits.notMem_of_fixed hnodup hself hne
    refine ⟨hout, ?_, hvisits.behind hnodup hself hout⟩
    split
    · exact Or.inr (List.Perm.refl _)
    · exact Ring.gains_behind hnodup'
  have herase : ∀ e, e ≠ h → (h :: l.erase e).Nodup ∧ (∀ a ∈ h :: l.erase e, a ∈ h :: l ∧ a ≠ e) ∧
      Ring.Visits (Ring.remove s.links e) h (l.erase e) := by
    intro e hne
    refine ⟨?_, fun a ha => ?_, hvisits.erase hnodup hne⟩
    · refine List.nodup_cons.mpr ⟨fun hin => ?_, hnodup'.erase e⟩
      exact (List.nodup_cons.mp hnodup).1 (List.mem_of_mem_erase hin)
    · rcases List.mem_cons.mp ha with rfl | hin
      · exact ⟨List.mem_cons_self, Ne.symm hne⟩
      · obtain ⟨hne', hin'⟩ := hnodup'.mem_erase_iff.mp hin
        exact ⟨List.mem_cons_of_mem h hin', hne'⟩
  cases op with
  | init elm => exact hm'.contents_iff.mpr ⟨hnodup, fun a ha =>
      Set.mem_insert_of_mem elm (hmem a ha), hvisits⟩
  | add x e =>
    obtain ⟨hout, hgains, hnew⟩ := hbehind x e legal.2.2.1 hmoves
    exact hl.gain hm' hgains hout hnew
  | addAfter x e =>
    obtain ⟨hout, hgains, hnew⟩ := hbehind x e legal.2.2.1 hmoves
    exact hl.gain hm' hgains hout hnew
  | addBefore x e =>
    have hout := hvisits.notMem_of_fixed hnodup legal.2.2.1 hmoves
    refine hl.gain hm' ?_ hout (hvisits.inFront hnodup legal.2.2.1 hout)
    rw [ListOp.edit]
    split
    · exact Or.inr (List.perm_append_singleton e l)
    · exact Ring.gains_inFront hnodup'
  | del e =>
    obtain ⟨hnew, hin, hvisits'⟩ := herase e hmoves
    exact hm'.contents_iff.mpr ⟨hnew, fun a ha => ⟨hmem a (hin a ha).1, (hin a ha).2⟩, hvisits'⟩
  | delInit e =>
    obtain ⟨hnew, hin, hvisits'⟩ := herase e hmoves
    exact hm'.contents_iff.mpr ⟨hnew, fun a ha => hmem a (hin a ha).1, hvisits'⟩

end Contents

/-! ## Sequences of calls -/

theorem execList_append_singleton (ops : List ListOp) (op : ListOp) (m : Mem) :
    execList (ops ++ [op]) m = op.exec (execList ops m) := by
  rw [execList, List.foldl_append]
  rfl

theorem relinkAll_append_singleton (ops : List ListOp) (op : ListOp) (s : RingState) :
    relinkAll (ops ++ [op]) s = op.relink (relinkAll ops s) := by
  rw [relinkAll, List.foldl_append]
  rfl

theorem AllLegal.left {ops : List ListOp} {op : ListOp} (h : AllLegal (ops ++ [op]) s) :
    AllLegal ops s := fun pre op' hpre => h pre op' (hpre.trans (List.prefix_append ops [op]))

theorem AllLegal.last {ops : List ListOp} {op : ListOp} (h : AllLegal (ops ++ [op]) s) :
    op.Legal (relinkAll ops s) := h ops op (List.prefix_refl _)

theorem AllLegal.append_singleton {ops : List ListOp} {op : ListOp} (h : AllLegal ops s)
    (hop : op.Legal (relinkAll ops s)) : AllLegal (ops ++ [op]) s := by
  intro pre op' hpre
  rcases List.prefix_concat_iff.mp hpre with heq | hpre'
  · obtain ⟨rfl, hlast⟩ := List.append_inj' heq rfl
    obtain rfl := List.singleton_inj.mp hlast
    exact hop
  · exact h pre op' hpre'

theorem Linked.execList (hm : Linked m s) {ops : List ListOp} (legal : AllLegal ops s) :
    Linked (execList ops m) (relinkAll ops s) := by
  induction ops using List.reverseRecOn with
  | nil => exact hm
  | append_singleton ops op ih =>
    rw [execList_append_singleton, relinkAll_append_singleton]
    exact (ih legal.left).exec legal.last

/-- After any sequence of calls that are allowed, `list_next` and `list_prev` follow the links of
the rings, `list_empty` tells the entries that are on their own, and the memory outside of the
entries that have been in use is unchanged. -/
theorem list_calls_relink (hm : Linked m s) {ops : List ListOp} (legal : AllLegal ops s) :
    Linked (execList ops m) (relinkAll ops s) ∧
    (∀ e ∈ (relinkAll ops s).nodes,
      listEmpty (execList ops m) e = true ↔ (relinkAll ops s).links e = e) ∧
    ∀ a, (∀ pre, pre <+: ops → ∀ e ∈ (relinkAll pre s).nodes, 16 ≤ (a - e).toNat) →
      execList ops m a = m a := by
  have hlinked := hm.execList legal
  refine ⟨hlinked, fun e he => ?_, fun a ha => ?_⟩
  · rw [listEmpty, decide_eq_true_iff, hlinked.next e he]
  · induction ops using List.reverseRecOn with
    | nil => rfl
    | append_singleton ops op ih =>
      have hbefore := hm.execList legal.left
      rw [execList_append_singleton, (hbefore.sameOutside legal.last) a ?_]
      · refine ih legal.left hbefore fun pre hpre => ?_
        exact ha pre (hpre.trans (List.prefix_append ops [op]))
      · rintro e (he | he)
        · exact ha ops (List.prefix_append ops [op]) e he
        · refine ha _ (List.prefix_refl _) e ?_
          rw [relinkAll_append_singleton]
          exact he

theorem Contents.execList (hm : Linked m s) {ops : List ListOp} (legal : AllLegal ops s)
    {h : BitVec 64} (hmoves : ∀ op ∈ ops, ¬ op.Moves h) {l : List (BitVec 64)}
    (hl : Contents m s h l) :
    Contents (execList ops m) (relinkAll ops s) h (ops.foldl (ListOp.edit h) l) := by
  induction ops using List.reverseRecOn with
  | nil => exact hl
  | append_singleton ops op ih =>
    rw [execList_append_singleton, relinkAll_append_singleton, List.foldl_append]
    refine Contents.exec (hm.execList legal.left) legal.last
      (hmoves op (List.mem_append_right ops List.mem_cons_self)) ?_
    exact ih legal.left fun op' hop => hmoves op' (List.mem_append_left _ hop)

/-- A sequence of calls that are allowed, and that do not move the head `h` itself, edits the list
at `h`: `list_add` puts an entry in front of the others, `list_add_before` behind them, and so
on. -/
theorem list_calls_edit (hm : Linked m s) {ops : List ListOp} (legal : AllLegal ops s)
    {h : BitVec 64} (hmoves : ∀ op ∈ ops, ¬ op.Moves h) {l : List (BitVec 64)}
    (hl : Contents m s h l) (l' : List (BitVec 64)) :
    Contents (execList ops m) (relinkAll ops s) h l' ↔ l' = ops.foldl (ListOp.edit h) l := by
  have hafter := hl.execList hm legal hmoves
  constructor
  · exact hafter.unique (hm.execList legal)
  · rintro rfl
    exact hafter

section Example

/-- A memory in which no entry is in use. -/
theorem linked_empty (m : Mem) : Linked m ⟨∅, 1⟩ :=
  ⟨Set.pairwise_empty _, fun e he => absurd he (Set.notMem_empty e),
    fun e he => absurd he (Set.notMem_empty e), fun _ _ => rfl⟩

theorem allLegal_nil (s : RingState) : AllLegal [] s := fun pre op h => absurd h (by simp)

/-- A head is initialized. -/
theorem allLegal_init : AllLegal [.init 0x1000] ⟨∅, 1⟩ := by
  refine (allLegal_nil _).append_singleton ⟨rfl, ?_⟩
  exact (Set.pairwise_insert_of_notMem (Set.notMem_empty _)).mpr
    ⟨Set.pairwise_empty _, fun b hb => absurd hb (Set.notMem_empty b)⟩

/-- An entry is added to the list at the head. -/
theorem legal_addBefore : (ListOp.addBefore 0x1000 0x2000).Legal ⟨insert 0x1000 ∅, 1⟩ := by
  refine ⟨Set.mem_insert _ _, by decide, rfl, ?_⟩
  rintro a (rfl | rfl | ha) b (rfl | rfl | hb) hne
  · exact absurd rfl hne
  · exact ⟨by decide, by decide⟩
  · exact absurd hb (Set.notMem_empty b)
  · exact ⟨by decide, by decide⟩
  · exact absurd rfl hne
  · exact absurd hb (Set.notMem_empty b)
  · exact absurd ha (Set.notMem_empty a)
  · exact absurd ha (Set.notMem_empty a)
  · exact absurd ha (Set.notMem_empty a)

/-- The list at the head is not empty then. -/
theorem list_calls_relink_addBefore :
    listEmpty (execList [.init 0x1000, .addBefore 0x1000 0x2000] fun _ => 0) 0x1000 = false := by
  have h := (list_calls_relink (linked_empty fun _ => 0)
    (allLegal_init.append_singleton legal_addBefore)).2.1 0x1000
    (Set.mem_insert_of_mem _ (Set.mem_insert _ _))
  have hlinks : Ring.insertAfter 1 (0x1000 : BitVec 64) 0x2000 0x1000 = 0x2000 := by
    rw [Ring.insertAfter_apply rfl, if_neg (by decide), if_pos rfl]
  have hne : ¬ Ring.insertAfter 1 (0x1000 : BitVec 64) 0x2000 0x1000 = 0x1000 := by
    rw [hlinks]
    decide
  exact Bool.eq_false_iff.mpr fun hempty => hne (h.mp hempty)

/-- It holds the entry. -/
theorem list_calls_edit_addBefore :
    Contents (execList [.addBefore 0x1000 0x2000] (execList [.init 0x1000] fun _ => 0))
      (relinkAll [.addBefore 0x1000 0x2000] ⟨insert 0x1000 ∅, 1⟩) 0x1000 [0x2000] := by
  have hm := (linked_empty fun _ => 0).execList allLegal_init
  have hl : Contents (execList [.init 0x1000] fun _ => 0) ⟨insert 0x1000 ∅, 1⟩ 0x1000 [] := by
    refine hm.contents_iff.mpr ⟨List.nodup_singleton _, fun a ha => ?_, Ring.visits_nil.mpr rfl⟩
    rw [List.mem_singleton.mp ha]
    exact Set.mem_insert _ _
  refine (@list_calls_edit _ _ hm [.addBefore 0x1000 0x2000]
    ((allLegal_nil _).append_singleton legal_addBefore) 0x1000 (fun op hop => ?_) _ hl _).mpr rfl
  rw [List.mem_singleton.mp hop]
  show ¬ (0x2000 : BitVec 64) = 0x1000
  decide

end Example

end CertiCore
