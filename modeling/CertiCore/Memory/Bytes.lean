import Mathlib.Data.BitVec
import Mathlib.Logic.Function.Basic

/-!
# Byte-addressed memory

A memory of 2^64 bytes, with little-endian loads and stores of 64-bit words. Addresses wrap. What a
store leaves alone is said by offsets: `a - base`, which wraps too, is the place of the address `a`
counted from `base` on.
-/

/-- A memory. -/
def Mem : Type := BitVec 64 → BitVec 8

namespace Mem

/-- The 64-bit word at address `a`. -/
def load64 (m : Mem) (a : BitVec 64) : BitVec 64 :=
  m (a + 7) ++ m (a + 6) ++ m (a + 5) ++ m (a + 4) ++ m (a + 3) ++ m (a + 2) ++ m (a + 1) ++ m a

/-- The memory after the word `v` is stored at address `a`. -/
def store64 (m : Mem) (a v : BitVec 64) : Mem := fun x =>
  if (x - a).toNat < 8 then v.extractLsb' (8 * (x - a).toNat) 8 else m x

/-- The memory after the byte `c` is stored at address `a`. -/
def store8 (m : Mem) (a : BitVec 64) (c : BitVec 8) : Mem := fun x => if x = a then c else m x

/-- The element `k` of an array of 64-bit words at address `a`. -/
def word (m : Mem) (a : BitVec 64) (k : ℕ) : BitVec 64 := m.load64 (a + BitVec.ofNat 64 (k * 8))

/-- The array of 64-bit words at address `a` begins with the words `ws`. -/
def Holds (m : Mem) (a : BitVec 64) (ws : List (BitVec 64)) : Prop :=
  ∀ (k : ℕ) (h : k < ws.length), m.word a k = ws[k]

/-- The memory after words are stored into the array at address `a`, in the order of the list. -/
def storeWords (m : Mem) (a : BitVec 64) (l : List (ℕ × BitVec 64)) : Mem :=
  l.foldl (fun m kv => m.store64 (a + BitVec.ofNat 64 (kv.1 * 8)) kv.2) m

/-- The memory after bytes are stored at address `a` and the addresses behind it. -/
def storeBytes (m : Mem) (a : BitVec 64) (l : List (BitVec 8)) : Mem := fun x =>
  (l[(x - a).toNat]?).getD (m x)

/-- The memory but for `n` bytes from address `a` on. -/
def outside (m : Mem) (a : BitVec 64) (n : ℕ) (x : BitVec 64) : Option (BitVec 8) :=
  if (x - a).toNat < n then none else some (m x)

/-- The `n` bytes from address `a` on. -/
def bytesAt (m : Mem) (a : BitVec 64) (n : ℕ) : List (BitVec 8) :=
  (List.range n).map fun i => m (a + BitVec.ofNat 64 i)

/-- The memory after the bytes from offset `lo` to `hi` of the block at `src` have been moved to the
same offsets of the block at `dst`. -/
def move (m : Mem) (dst src : BitVec 64) (lo hi : ℕ) : Mem := fun x =>
  if lo ≤ (x - dst).toNat ∧ (x - dst).toNat < hi then m (src + (x - dst)) else m x

/-- The memory after the `n` bytes from `dst` on have been filled, over and over, with the `d` bytes
at `src`; with `n` bytes at `src` if `d` is zero. -/
def tile (m : Mem) (dst src : BitVec 64) (d n : ℕ) : Mem := fun x =>
  if (x - dst).toNat < n then m (src + BitVec.ofNat 64 ((x - dst).toNat % d)) else m x

/-- The memory after the `n` bytes from `a` on have been set to `c`. -/
def fill (m : Mem) (a : BitVec 64) (c : BitVec 8) (n : ℕ) : Mem := fun x =>
  if (x - a).toNat < n then c else m x

/-- A string of `n` characters begins at address `a`. -/
structure CString (m : Mem) (a : BitVec 64) (n : ℕ) : Prop where
  lt : n < 2 ^ 64
  nonzero : ∀ i < n, m (a + BitVec.ofNat 64 i) ≠ 0
  nul : m (a + BitVec.ofNat 64 n) = 0

variable {m m' : Mem} {a b v : BitVec 64}

theorem sub_offset {i : ℕ} (hi : i < 2 ^ 64) : (a + BitVec.ofNat 64 i - a).toNat = i := by
  rw [BitVec.add_comm, BitVec.add_sub_cancel, BitVec.toNat_ofNat]
  exact Nat.mod_eq_of_lt hi

theorem store64_of_lt {x : BitVec 64} (h : (x - a).toNat < 8) :
    m.store64 a v x = v.extractLsb' (8 * (x - a).toNat) 8 := if_pos h

/-- A store changes the eight bytes of its word only. -/
theorem store64_of_le {x : BitVec 64} (h : 8 ≤ (x - a).toNat) : m.store64 a v x = m x :=
  if_neg (Nat.not_lt.mpr h)

theorem store8_self {c : BitVec 8} : m.store8 a c a = c := if_pos rfl

theorem store8_of_ne {x : BitVec 64} {c : BitVec 8} (h : x ≠ a) : m.store8 a c x = m x := if_neg h

/-- A word, put together from the bytes at its eight addresses. -/
theorem load64_of_bytes {f : ℕ → BitVec 8} (h : ∀ k < 8, m (a + BitVec.ofNat 64 k) = f k) :
    m.load64 a = f 7 ++ f 6 ++ f 5 ++ f 4 ++ f 3 ++ f 2 ++ f 1 ++ f 0 := by
  have h0 := h 0 (by omega)
  rw [show a + BitVec.ofNat 64 0 = a from BitVec.add_zero a] at h0
  have h1 : m (a + 1) = f 1 := h 1 (by omega)
  have h2 : m (a + 2) = f 2 := h 2 (by omega)
  have h3 : m (a + 3) = f 3 := h 3 (by omega)
  have h4 : m (a + 4) = f 4 := h 4 (by omega)
  have h5 : m (a + 5) = f 5 := h 5 (by omega)
  have h6 : m (a + 6) = f 6 := h 6 (by omega)
  have h7 : m (a + 7) = f 7 := h 7 (by omega)
  rw [load64, h0, h1, h2, h3, h4, h5, h6, h7]

theorem load64_congr (h : ∀ k < 8, m (a + BitVec.ofNat 64 k) = m' (a + BitVec.ofNat 64 k)) :
    m.load64 a = m'.load64 a := by
  rw [load64_of_bytes h]
  exact (load64_of_bytes fun _ _ => rfl).symm

/-- The bytes of a word, put together. -/
theorem extractLsb'_bytes (v : BitVec 64) :
    v.extractLsb' 56 8 ++ v.extractLsb' 48 8 ++ v.extractLsb' 40 8 ++ v.extractLsb' 32 8 ++
      v.extractLsb' 24 8 ++ v.extractLsb' 16 8 ++ v.extractLsb' 8 8 ++ v.extractLsb' 0 8 = v := by
  have hjoin : ∀ start len, v.extractLsb' (start + 8) len ++ v.extractLsb' start 8 =
      v.extractLsb' start (len + 8) :=
    fun start len => BitVec.extractLsb'_append_extractLsb'_eq_extractLsb' rfl
  rw [hjoin 48, hjoin 40, hjoin 32, hjoin 24, hjoin 16, hjoin 8, hjoin 0]
  exact BitVec.extractLsb'_eq_self

/-- A load returns the word that was stored at its address. -/
theorem load64_store64 : (m.store64 a v).load64 a = v := by
  have hbyte : ∀ k < 8, m.store64 a v (a + BitVec.ofNat 64 k) = v.extractLsb' (8 * k) 8 := by
    intro k hk
    have hoff : (a + BitVec.ofNat 64 k - a).toNat = k := sub_offset (by omega)
    rw [store64_of_lt (by omega), hoff]
  rw [load64_of_bytes hbyte]
  exact extractLsb'_bytes v

/-- A store at another word, at least eight bytes away both ways. -/
theorem load64_store64_of_ne (h : 8 ≤ (b - a).toNat) (h' : 8 ≤ (a - b).toNat) :
    (m.store64 a v).load64 b = m.load64 b := by
  refine load64_congr fun k hk => store64_of_le ?_
  bv_omega

/-! ## Arrays of words -/

variable {j k n : ℕ} {l : List (ℕ × BitVec 64)}

theorem word_congr (hn : n ≤ 2 ^ 61) (hk : k < n)
    (h : ∀ x, (x - a).toNat < n * 8 → m x = m' x) : m.word a k = m'.word a k := by
  refine load64_congr fun i hi => h _ ?_
  have hoff : a + BitVec.ofNat 64 (k * 8) + BitVec.ofNat 64 i - a =
      BitVec.ofNat 64 (k * 8 + i) := by
    rw [BitVec.ofNat_add, BitVec.add_assoc, BitVec.add_comm a, BitVec.add_sub_cancel]
  rw [hoff, BitVec.toNat_ofNat]
  omega

theorem word_store64 : (m.store64 (a + BitVec.ofNat 64 (k * 8)) v).word a k = v := load64_store64

theorem word_store64_of_ne (hj : j < 2 ^ 61) (hk : k < 2 ^ 61) (hne : k ≠ j) :
    (m.store64 (a + BitVec.ofNat 64 (j * 8)) v).word a k = m.word a k := by
  refine load64_store64_of_ne ?_ ?_
  · bv_omega
  · bv_omega

/-- If every word that is stored is the value of `f` at its place, then so is, at those places, the
array afterwards, and it is unchanged at the others. -/
theorem word_storeWords (f : ℕ → BitVec 64) (hn : n ≤ 2 ^ 61) (hk : k < n)
    (hl : ∀ kv ∈ l, kv.1 < n ∧ kv.2 = f kv.1) :
    (m.storeWords a l).word a k = if k ∈ l.map Prod.fst then f k else m.word a k := by
  induction l generalizing m with
  | nil => rfl
  | cons kv l ih =>
    obtain ⟨hkv, hf⟩ := hl kv List.mem_cons_self
    have hrest := ih (m := m.store64 (a + BitVec.ofNat 64 (kv.1 * 8)) kv.2)
      fun kv' hmem => hl kv' (List.mem_cons_of_mem kv hmem)
    rw [storeWords, List.foldl_cons]
    refine hrest.trans ?_
    rw [List.map_cons]
    by_cases hlater : k ∈ l.map Prod.fst
    · rw [if_pos hlater, if_pos (List.mem_cons_of_mem _ hlater)]
    · rw [if_neg hlater]
      by_cases hnow : k = kv.1
      · subst hnow
        rw [word_store64, if_pos List.mem_cons_self, hf]
      · rw [word_store64_of_ne (by omega) (by omega) hnow,
          if_neg fun hmem => (List.mem_cons.mp hmem).elim hnow hlater]

/-- Words that are stored one after the other are held. -/
theorem holds_storeWords {ws : List (BitVec 64)} (hn : ws.length ≤ 2 ^ 61) :
    (m.storeWords a ((List.range ws.length).map fun k => (k, ws.getD k 0))).Holds a ws := by
  intro k hk
  have hword := word_storeWords (m := m) (a := a) (fun k => ws.getD k 0) hn hk
    (l := (List.range ws.length).map fun k => (k, ws.getD k 0)) fun kv hkv => by
      obtain ⟨j, hj, rfl⟩ := List.mem_map.mp hkv
      exact ⟨List.mem_range.mp hj, rfl⟩
  have hmem : k ∈ ((List.range ws.length).map fun k => (k, ws.getD k 0)).map Prod.fst := by
    rw [List.map_map, List.mem_map]
    exact ⟨k, List.mem_range.mpr hk, rfl⟩
  rw [hword, if_pos hmem]
  exact (List.getElem_eq_getD 0).symm

/-- An array that is filled but for its last word. -/
theorem Holds.filled {w : BitVec 64} (h : m.Holds a (List.replicate n w ++ [v])) :
    (∀ k < n, m.word a k = w) ∧ m.word a n = v := by
  have hlen : (List.replicate n w ++ [v]).length = n + 1 := by
    rw [List.length_append, List.length_replicate, List.length_singleton]
  constructor
  · intro k hk
    have hrep : k < (List.replicate n w).length := by rwa [List.length_replicate]
    rw [h k (by omega), List.getElem_append_left hrep, List.getElem_replicate]
  · rw [h n (by omega)]
    exact List.getElem_concat_length (List.length_replicate).symm _

/-- Bytes outside of the array are unchanged. -/
theorem storeWords_of_le {x : BitVec 64} (hn : n ≤ 2 ^ 61) (hl : ∀ kv ∈ l, kv.1 < n)
    (hx : n * 8 ≤ (x - a).toNat) : m.storeWords a l x = m x := by
  induction l generalizing m with
  | nil => rfl
  | cons kv l ih =>
    have hkv := hl kv List.mem_cons_self
    rw [storeWords, List.foldl_cons]
    refine (ih fun kv' hmem => hl kv' (List.mem_cons_of_mem kv hmem)).trans ?_
    refine store64_of_le ?_
    bv_omega

/-! ## Arrays of bytes -/

/-- The bytes that are stored can be read again. -/
theorem prefix_bytesAt_storeBytes {l : List (BitVec 8)} {n : ℕ} (hl : l.length ≤ n)
    (hn : n ≤ 2 ^ 64) : l <+: (m.storeBytes a l).bytesAt a n := by
  rw [List.prefix_iff_getElem?]
  intro i hi
  have hlt : i < n := Nat.lt_of_lt_of_le hi hl
  rw [bytesAt, List.getElem?_map, List.getElem?_range hlt]
  show some (m.storeBytes a l (a + BitVec.ofNat 64 i)) = some l[i]
  rw [storeBytes, sub_offset (Nat.lt_of_lt_of_le hlt hn), List.getElem?_eq_getElem hi]
  rfl

theorem storeBytes_of_le {x : BitVec 64} {l : List (BitVec 8)} (h : l.length ≤ (x - a).toNat) :
    m.storeBytes a l x = m x := by
  rw [storeBytes, List.getElem?_eq_none h]
  rfl

/-- One more byte behind those that are stored. -/
theorem storeBytes_append_singleton {l : List (BitVec 8)} (hl : l.length < 2 ^ 64) (c : BitVec 8) :
    m.storeBytes a (l ++ [c]) =
      Function.update (m.storeBytes a l) (a + BitVec.ofNat 64 l.length) c := by
  funext x
  have hx : x = a + BitVec.ofNat 64 l.length ↔ (x - a).toNat = l.length := by
    constructor
    · rintro rfl
      exact sub_offset hl
    · intro h
      rw [← h]
      bv_omega
  unfold storeBytes
  by_cases heq : x = a + BitVec.ofNat 64 l.length
  · rw [heq, Function.update_self, ← heq, hx.mp heq, List.getElem?_concat_length]
    rfl
  · rw [Function.update_of_ne heq]
    have hne : (x - a).toNat ≠ l.length := fun h => heq (hx.mpr h)
    rcases Nat.lt_or_gt_of_ne hne with hlt | hgt
    · rw [List.getElem?_append_left hlt]
    · rw [List.getElem?_eq_none (by rw [List.length_append]; exact hgt),
        List.getElem?_eq_none (Nat.le_of_lt hgt)]

/-! ## Moving bytes -/

section Move

variable {dst src x : BitVec 64} {lo hi i : ℕ}

theorem move_of_mem (hlo : lo ≤ i) (hhi : i < hi) (hi64 : i < 2 ^ 64) :
    m.move dst src lo hi (dst + BitVec.ofNat 64 i) = m (src + BitVec.ofNat 64 i) := by
  have hoff := sub_offset (a := dst) hi64
  have hsub : dst + BitVec.ofNat 64 i - dst = BitVec.ofNat 64 i := by
    rw [BitVec.add_comm, BitVec.add_sub_cancel]
  rw [move, hoff, if_pos ⟨hlo, hhi⟩, hsub]

theorem move_of_not_mem (h : ¬ (lo ≤ (x - dst).toNat ∧ (x - dst).toNat < hi)) :
    m.move dst src lo hi x = m x := if_neg h

theorem move_empty (m : Mem) (dst src : BitVec 64) (k : ℕ) : m.move dst src k k = m := by
  funext x
  exact move_of_not_mem fun h => absurd h.1 (Nat.not_le.mpr h.2)

/-- One more byte next to those that have been moved, read where nothing has been overwritten. -/
theorem move_insert {lo' hi' : ℕ} (hi64 : i < 2 ^ 64) (hmem : lo' ≤ i ∧ i < hi')
    (hiff : ∀ k, k ≠ i → ((lo ≤ k ∧ k < hi) ↔ lo' ≤ k ∧ k < hi'))
    (hsrc : ¬ (lo ≤ (src + BitVec.ofNat 64 i - dst).toNat ∧
      (src + BitVec.ofNat 64 i - dst).toNat < hi)) :
    (m.move dst src lo hi).store8 (dst + BitVec.ofNat 64 i)
      (m.move dst src lo hi (src + BitVec.ofNat 64 i)) = m.move dst src lo' hi' := by
  funext x
  rw [move_of_not_mem hsrc]
  by_cases hx : x = dst + BitVec.ofNat 64 i
  · subst hx
    rw [store8_self, move_of_mem hmem.1 hmem.2 hi64]
  · have hne : (x - dst).toNat ≠ i := by
      intro h
      apply hx
      rw [← h]
      bv_omega
    rw [store8_of_ne hx]
    exact if_congr (hiff _ hne) rfl rfl

/-- One more byte behind those that have been moved. -/
theorem move_succ_right (hle : lo ≤ hi) (hhi : hi < 2 ^ 64)
    (hsrc : ¬ (lo ≤ (src + BitVec.ofNat 64 hi - dst).toNat ∧
      (src + BitVec.ofNat 64 hi - dst).toNat < hi)) :
    (m.move dst src lo hi).store8 (dst + BitVec.ofNat 64 hi)
      (m.move dst src lo hi (src + BitVec.ofNat 64 hi)) = m.move dst src lo (hi + 1) :=
  move_insert hhi ⟨hle, Nat.lt_succ_self hi⟩ (fun k hk => by omega) hsrc

/-- One more byte in front of those that have been moved. -/
theorem move_succ_left (hlt : lo < hi) (hlo : lo < 2 ^ 64)
    (hsrc : ¬ (lo + 1 ≤ (src + BitVec.ofNat 64 lo - dst).toNat ∧
      (src + BitVec.ofNat 64 lo - dst).toNat < hi)) :
    (m.move dst src (lo + 1) hi).store8 (dst + BitVec.ofNat 64 lo)
      (m.move dst src (lo + 1) hi (src + BitVec.ofNat 64 lo)) = m.move dst src lo hi :=
  move_insert hlo ⟨Nat.le_refl lo, hlt⟩ (fun k hk => by omega) hsrc

end Move

/-! ## Filling -/

section Fill

variable {dst src x : BitVec 64} {c : BitVec 8} {d i n : ℕ}

theorem add_ofNat_succ (p : BitVec 64) (k : ℕ) :
    p + BitVec.ofNat 64 k + 1 = p + BitVec.ofNat 64 (k + 1) := by
  rw [BitVec.add_assoc, BitVec.ofNat_add]
  rfl

theorem fill_zero (m : Mem) (a : BitVec 64) (c : BitVec 8) : m.fill a c 0 = m := by
  funext x
  exact if_neg (Nat.not_lt_zero _)

/-- One more byte in front of those that are set afterwards. -/
theorem fill_succ (hn : n < 2 ^ 64) : (m.store8 a c).fill (a + 1) c n = m.fill a c (n + 1) := by
  funext x
  unfold fill
  by_cases hx : x = a
  · rw [hx, store8_self, BitVec.sub_self]
    split
    · rfl
    · rfl
  · rw [store8_of_ne hx]
    have hoff : (x - (a + 1)).toNat < n ↔ (x - a).toNat < n + 1 := by
      bv_omega
    exact if_congr hoff rfl rfl

theorem tile_zero (m : Mem) (dst src : BitVec 64) (d : ℕ) : m.tile dst src d 0 = m := by
  funext x
  exact if_neg (Nat.not_lt_zero _)

/-- One more byte behind those that have been filled from a block that begins `d` bytes before: it
is read in the block itself, or where it has been copied to. -/
theorem tile_read (hdst : dst = src + BitVec.ofNat 64 d) (hd : d < 2 ^ 64) (hn : n < 2 ^ 64) :
    m.tile dst src d n (src + BitVec.ofNat 64 n) = m (src + BitVec.ofNat 64 (n % d)) := by
  subst hdst
  unfold tile
  rcases Nat.eq_zero_or_pos d with rfl | hpos
  · have hoff : ¬ (src + BitVec.ofNat 64 n - (src + BitVec.ofNat 64 0)).toNat < n := by
      bv_omega
    rw [if_neg hoff, Nat.mod_zero]
  · rcases Nat.lt_or_ge n d with hlt | hge
    · have hoff : ¬ (src + BitVec.ofNat 64 n - (src + BitVec.ofNat 64 d)).toNat < n := by
        bv_omega
      rw [if_neg hoff, Nat.mod_eq_of_lt hlt]
    · have hoff : (src + BitVec.ofNat 64 n - (src + BitVec.ofNat 64 d)).toNat = n - d := by
        bv_omega
      rw [hoff, if_pos (by omega), Nat.mod_eq_sub_mod hge]

theorem tile_succ (hdst : dst = src + BitVec.ofNat 64 d) (hd : d < 2 ^ 64) (hn : n < 2 ^ 64) :
    (m.tile dst src d n).store8 (dst + BitVec.ofNat 64 n)
      (m.tile dst src d n (src + BitVec.ofNat 64 n)) = m.tile dst src d (n + 1) := by
  rw [tile_read hdst hd hn]
  funext x
  by_cases hx : x = dst + BitVec.ofNat 64 n
  · subst hx
    rw [store8_self, tile, sub_offset hn, if_pos (Nat.lt_succ_self n)]
  · have hne : (x - dst).toNat ≠ n := by
      intro h
      apply hx
      rw [← h]
      bv_omega
    rw [store8_of_ne hx]
    exact if_congr (by omega) rfl rfl

end Fill

/-! ## Strings -/

/-- The string at an address, unless no byte of the memory is zero. -/
theorem exists_cstring (m : Mem) (a : BitVec 64) : (∃ n, m.CString a n) ∨ ∀ x, m x ≠ 0 := by
  by_cases hzero : ∃ n, n < 2 ^ 64 ∧ m (a + BitVec.ofNat 64 n) = 0
  · classical
    refine Or.inl ⟨Nat.find hzero, (Nat.find_spec hzero).1, fun i hi hnul => ?_,
      (Nat.find_spec hzero).2⟩
    exact Nat.find_min hzero hi ⟨hi.trans (Nat.find_spec hzero).1, hnul⟩
  · refine Or.inr fun x hx => hzero ⟨(x - a).toNat, BitVec.isLt _, ?_⟩
    rw [BitVec.ofNat_toNat, BitVec.setWidth_eq, BitVec.add_comm, BitVec.sub_add_cancel]
    exact hx

end Mem
