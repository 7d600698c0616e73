/-
`iwalk`: a data block of an inode, allocated with its indirect block where the file has none. Every
allocation is one place taking one free block; no byte of any file changes.
-/
import TinyOS.Fs.Owner

namespace TinyOS.Fs

open TinyOS.Lib

variable {fs fs' : Fs} {m m' : Store} {i n k a b : Nat}

/-! ## One place takes one free block -/

/-- Place `s`, which named no block, names the free block `b`. -/
structure Fresh (m : Store) (s : Slot) (b : Nat) (m' : Store) : Prop where
  lt : b < 32768
  free : bit m b = false
  bits : ∀ c < 32768, bit m' c = (bit m c || decide (c = b))
  place : (∃ n < 1920, s = .indirect n) ∨ ∃ n < 1920, ∃ k, s = .data n k
  empty : ∀ c, ¬ holds m s c
  blk : ∀ j < 1920, ∀ k, blk m' j k = if Slot.data j k = s then b else blk m j k
  ind : ∀ j < 1920, (node m' j).addrs 12 = if Slot.indirect j = s then b else (node m j).addrs 12
  bytes : ∀ j < 1920, ∀ o, byteAt m' j o = byteAt m j o

theorem Fresh.dataBlk {s : Slot} (h : Fresh m s b m') (ho : Owned m) : DataBlk b := ho.free_dataBlk h.lt h.free

theorem Fresh.holds_iff {s : Slot} (h : Fresh m s b m') (ho : Owned m) (t : Slot) (q : Nat) :
    holds m' t q ↔ holds m t q ∨ (t = s ∧ q = b) := by
  have hb : b ≠ 0 := by have := (h.dataBlk ho).1; omega
  cases t with
  | data j k =>
    simp only [holds]
    constructor
    · rintro ⟨hj, hq, h1⟩
      rw [h.blk j hj k] at h1
      split at h1
      · next hs => exact Or.inr ⟨hs, h1.symm⟩
      · exact Or.inl ⟨hj, hq, h1⟩
    · rintro (⟨hj, hq, h1⟩ | ⟨rfl, rfl⟩)
      · refine ⟨hj, hq, ?_⟩
        rw [h.blk j hj k, if_neg]
        · exact h1
        · rintro rfl; exact h.empty q ⟨hj, hq, h1⟩
      · rcases h.place with ⟨n, -, hs⟩ | ⟨n, hn, k', hs⟩
        · cases hs
        · cases hs
          exact ⟨hn, hb, by rw [h.blk j hn k, if_pos rfl]⟩
  | indirect j =>
    simp only [holds]
    constructor
    · rintro ⟨hj, hq, h1⟩
      rw [h.ind j hj] at h1
      split at h1
      · next hs => exact Or.inr ⟨hs, h1.symm⟩
      · exact Or.inl ⟨hj, hq, h1⟩
    · rintro (⟨hj, hq, h1⟩ | ⟨rfl, rfl⟩)
      · refine ⟨hj, hq, ?_⟩
        rw [h.ind j hj, if_neg]
        · exact h1
        · rintro rfl; exact h.empty q ⟨hj, hq, h1⟩
      · rcases h.place with ⟨n, hn, hs⟩ | ⟨n, -, k', hs⟩
        · cases hs
          exact ⟨hn, hb, by rw [h.ind j hn, if_pos rfl]⟩
        · cases hs

/-- Ownership after a place took a free block. -/
theorem Fresh.owned {s : Slot} (h : Fresh m s b m') (ho : Owned m)
    (hnone : ∀ n < 1920, (node m' n).type = typeNone → ∀ k, (node m' n).addrs k = 0) : Owned m' where
  own := by
    refine ho.own.take (h.dataBlk ho) h.free (h.holds_iff ho) fun q hq => ?_
    show bit m' q = false ↔ bit m q = false ∧ q ≠ b
    rw [h.bits q hq.2, Bool.or_eq_false_iff, decide_eq_false_iff_not]
  used c hc := by rw [h.bits c (by omega), ho.used c hc, Bool.true_or]
  none := hnone

/-- The number of free blocks. -/
def freeBlks (m : Store) : Nat := ((Finset.range 32768).filter fun c => bit m c = false).card

theorem Fresh.freeBlks {s : Slot} (h : Fresh m s b m') : freeBlks m' + 1 = freeBlks m := by
  have hb : b ∈ (Finset.range 32768).filter fun c => bit m c = false :=
    Finset.mem_filter.2 ⟨Finset.mem_range.2 h.lt, h.free⟩
  refine (congrArg (fun t => Finset.card t + 1) ?_).trans (Finset.card_erase_add_one hb)
  ext c
  simp only [Finset.mem_filter, Finset.mem_range, Finset.mem_erase]
  constructor
  · rintro ⟨hc, h1⟩
    rw [h.bits c hc, Bool.or_eq_false_iff, decide_eq_false_iff_not] at h1
    exact ⟨h1.2, hc, h1.1⟩
  · rintro ⟨hne, hc, h1⟩
    exact ⟨hc, by rw [h.bits c hc, h1, decide_eq_false hne]; rfl⟩

theorem exists_free (h : 0 < freeBlks m) : ∃ b < 32768, bit m b = false := by
  obtain ⟨b, hb⟩ := Finset.card_pos.1 h
  exact ⟨b, Finset.mem_range.1 (Finset.mem_filter.1 hb).1, (Finset.mem_filter.1 hb).2⟩

/-! ## The three ways to take one -/

/-- What a write outside the metadata and the free block `b` does not touch. -/
theorem Owned.keep (ho : Owned m) (hb : b < 32768) (hfree : bit m b = false)
    (hframe : ∀ x, 64 ≤ x / 4096 → x / 4096 ≠ b → m' x = m x) {s : Slot} {c : Nat} (hs : holds m s c) :
    ∀ r < 4096, m' (c * 4096 + r) = m (c * 4096 + r) := by
  intro r hr
  have hc := (ho.dataBlk hs).1
  refine hframe _ (by omega) fun he => ?_
  exact ho.own.not_hold (ho.free_dataBlk hb hfree) hfree s ((show c = b by omega) ▸ hs)

/-- A direct address of the inode takes a cleared block. -/
theorem fresh_direct (ho : Owned m) (hn : n < 1920) (ha : a < 12) (hz : (node m n).addrs a = 0) (hb : b < 32768)
    (hfree : bit m b = false) (hbits : ∀ c < 32768, bit m' c = (bit m c || decide (c = b)))
    (hself : node m' n = (node m n).setAddr a b) (hother : ∀ j, j ≠ n → j < 1920 → node m' j = node m j)
    (hzero : ∀ r < 4096, m' (b * 4096 + r) = 0) (hframe : ∀ x, 64 ≤ x / 4096 → x / 4096 ≠ b → m' x = m x) :
    Fresh m (.data n a) b m' := by
  have hent : ∀ j < 1920, (node m j).addrs 12 ≠ 0 → ∀ k < 1024,
      ent m' ((node m j).addrs 12) k = ent m ((node m j).addrs 12) k := fun j hj h0 k hk =>
    ent_congr hk (ho.keep (s := .indirect j) hb hfree hframe ⟨hj, h0, rfl⟩)
  have hadd : ∀ k, (node m' n).addrs k = if k = a then b else (node m n).addrs k := by
    intro k; rw [hself]; exact Function.update_apply ..
  have h0 : blk m n a = 0 := by rw [blk_direct ha, hz]
  have hblk : ∀ j < 1920, ∀ k, blk m' j k = if Slot.data j k = .data n a then b else blk m j k := by
    intro j hj k
    by_cases hjn : j = n
    · subst hjn
      by_cases hk : k = a
      · subst hk
        rw [if_pos rfl, blk_direct ha, hadd, if_pos rfl]
      · rw [if_neg (by simp [hk])]
        refine blk_congr ?_ (hent j hj)
        rintro l (rfl | rfl)
        · rw [hadd, if_neg hk]
        · rw [hadd, if_neg (by omega)]
    · rw [if_neg (by simp [hjn])]
      exact blk_congr (fun l _ => by rw [hother j hjn hj]) (hent j hj)
  refine ⟨hb, hfree, hbits, Or.inr ⟨n, hn, a, rfl⟩, fun c hc => hc.2.1 (by rw [← hc.2.2, h0]), hblk, fun j hj => ?_,
    fun j hj o => ?_⟩
  · rw [if_neg (by simp)]
    by_cases hjn : j = n
    · rw [hjn, hadd, if_neg (by omega)]
    · rw [hother j hjn hj]
  · by_cases hs : Slot.data j (o / 4096) = .data n a
    · have h1 : blk m' j (o / 4096) = b := by rw [hblk j hj, if_pos hs]
      rw [byteAt_zero (by rw [h1]; exact hzero)]
      cases hs
      rw [byteAt, if_pos h0]
    · exact byteAt_congr (by rw [hblk j hj, if_neg hs]) fun h0 =>
        ho.keep (s := .data j (o / 4096)) hb hfree hframe ⟨hj, h0, rfl⟩

/-- The entries of a cleared block. -/
theorem ent_zero (hzero : ∀ r < 4096, m (b * 4096 + r) = 0) (hk : k < 1024) : ent m b k = 0 := by
  have hz : ∀ i < 4, m (b * 4096 + k * 4 + i) = 0 := fun i hi => by rw [Nat.add_assoc]; exact hzero _ (by omega)
  have h0 := hz 0 (by omega)
  rw [Nat.add_zero] at h0
  simp only [ent, Store.word, h0, hz 1 (by omega), hz 2 (by omega), hz 3 (by omega)]
  rfl

/-- The indirect pointer of the inode takes a cleared block. -/
theorem fresh_pointer (ho : Owned m) (hn : n < 1920) (hz : (node m n).addrs 12 = 0) (hb : b < 32768)
    (hfree : bit m b = false) (hbits : ∀ c < 32768, bit m' c = (bit m c || decide (c = b)))
    (hself : node m' n = (node m n).setAddr 12 b) (hother : ∀ j, j ≠ n → j < 1920 → node m' j = node m j)
    (hzero : ∀ r < 4096, m' (b * 4096 + r) = 0) (hframe : ∀ x, 64 ≤ x / 4096 → x / 4096 ≠ b → m' x = m x) :
    Fresh m (.indirect n) b m' := by
  have hadd : ∀ k, (node m' n).addrs k = if k = 12 then b else (node m n).addrs k := by
    intro k; rw [hself]; exact Function.update_apply ..
  have hblk : ∀ j < 1920, ∀ k, blk m' j k = blk m j k := by
    intro j hj k
    by_cases hjn : j = n
    · subst hjn
      by_cases hk : k < 12
      · rw [blk_direct hk, blk_direct hk, hadd, if_neg (by omega)]
      · rw [blk_none (m := m) (by omega) hz]
        by_cases hk' : k < 1036
        · have h12 : (node m' j).addrs 12 = b := by rw [hadd, if_pos rfl]
          have hb0 := (ho.free_dataBlk hb hfree).1
          rw [blk_indirect (by omega) hk' (by omega), h12, ent_zero hzero (by omega)]
        · exact blk_big (by omega)
    · exact blk_congr (fun l _ => by rw [hother j hjn hj]) fun h0 l hl =>
        ent_congr hl (ho.keep (s := .indirect j) hb hfree hframe ⟨hj, h0, rfl⟩)
  refine ⟨hb, hfree, hbits, Or.inl ⟨n, hn, rfl⟩, fun c hc => hc.2.1 (by rw [← hc.2.2, hz]), fun j hj k => ?_,
    fun j hj => ?_, fun j hj o => ?_⟩
  · rw [if_neg (by simp), hblk j hj]
  · by_cases hjn : j = n
    · rw [hjn, hadd, if_pos rfl, if_pos rfl]
    · rw [hother j hjn hj, if_neg (by simp [hjn])]
  · exact byteAt_congr (hblk j hj _) fun h0 => ho.keep (s := .data j (o / 4096)) hb hfree hframe ⟨hj, h0, rfl⟩

/-- An entry of the indirect block takes a cleared block. -/
theorem fresh_entry (ho : Owned m) (hn : n < 1920) (hk : k < 1024) (h12 : (node m n).addrs 12 ≠ 0)
    (hz : ent m ((node m n).addrs 12) k = 0) (hb : b < 32768) (hfree : bit m b = false)
    (hbits : ∀ c < 32768, bit m' c = (bit m c || decide (c = b))) (hnode : ∀ j < 1920, node m' j = node m j)
    (hself : ent m' ((node m n).addrs 12) k = b)
    (hother : ∀ l < 1024, l ≠ k → ent m' ((node m n).addrs 12) l = ent m ((node m n).addrs 12) l)
    (hzero : ∀ r < 4096, m' (b * 4096 + r) = 0)
    (hframe : ∀ x, 64 ≤ x / 4096 → x / 4096 ≠ b → x / 4096 ≠ (node m n).addrs 12 → m' x = m x) :
    Fresh m (.data n (12 + k)) b m' := by
  have hd := ho.free_dataBlk hb hfree
  have hnh : ∀ s, ¬ holds m s b := ho.own.not_hold hd hfree
  have hp : holds m (.indirect n) ((node m n).addrs 12) := ⟨hn, h12, rfl⟩
  -- no block that is in use is touched, the indirect block apart
  have hkeep : ∀ s c, holds m s c → s ≠ .indirect n → ∀ r < 4096, m' (c * 4096 + r) = m (c * 4096 + r) := by
    intro s c hs hne r hr
    have hc := (ho.dataBlk hs).1
    refine hframe _ (by omega) (fun he => hnh s ((show c = b by omega) ▸ hs)) fun he => hne ?_
    exact ho.own.inj _ _ _ hs ((show c = (node m n).addrs 12 by omega) ▸ hp)
  have hblk0 : blk m n (12 + k) = 0 := by
    rw [blk_indirect (by omega) (by omega) h12, Nat.add_sub_cancel_left, hz]
  have hblk : ∀ j < 1920, ∀ l, blk m' j l = if Slot.data j l = .data n (12 + k) then b else blk m j l := by
    intro j hj l
    by_cases hjn : j = n
    · subst hjn
      by_cases hl : l < 12
      · rw [blk_direct hl, blk_direct hl, hnode j hj, if_neg (by simp; omega)]
      · by_cases hl' : l < 1036
        · rw [blk_indirect (by omega) hl' (by rw [hnode j hj]; exact h12), blk_indirect (by omega) hl' h12, hnode j hj]
          by_cases he : l - 12 = k
          · rw [he, hself, if_pos (by rw [show l = 12 + k by omega])]
          · rw [hother _ (by omega) he, if_neg (by simp; omega)]
        · rw [blk_big (by omega), blk_big (by omega), if_neg (by simp; omega)]
    · rw [if_neg (by simp [hjn])]
      refine blk_congr (fun _ _ => by rw [hnode j hj]) fun h0 r hr => ent_congr hr ?_
      exact hkeep (.indirect j) _ ⟨hj, h0, rfl⟩ (by simp [hjn])
  refine ⟨hb, hfree, hbits, Or.inr ⟨n, hn, _, rfl⟩, fun c hc => hc.2.1 (by rw [← hc.2.2, hblk0]), hblk, fun j hj => ?_,
    fun j hj o => ?_⟩
  · rw [if_neg (by simp), hnode j hj]
  · by_cases hs : Slot.data j (o / 4096) = .data n (12 + k)
    · have h1 : blk m' j (o / 4096) = b := by rw [hblk j hj, if_pos hs]
      obtain ⟨rfl, ho⟩ := Slot.data.inj hs
      rw [byteAt_zero (by rw [h1]; exact hzero), byteAt, if_pos (by rw [ho, hblk0])]
    · exact byteAt_congr (by rw [hblk j hj, if_neg hs]) fun h0 => hkeep (.data j (o / 4096)) _ ⟨hj, h0, rfl⟩ (by simp)

/-! ## Growing a file -/

/-- Inode `n`, active in slot `i`, got blocks where it had none, and the bytes that `f` gives were
written to it; nothing else changed. -/
structure Grow (i n : Nat) (f : Nat → Option UInt8) (fs fs' : Fs) : Prop where
  inv : FsInv fs'
  inodes : fs'.inodes = Function.update fs.inodes i { fs.inodes i with dinode := node fs'.disk n }
  self : node fs'.disk n = { node fs.disk n with addrs := (node fs'.disk n).addrs }
  other : ∀ j < 1920, j ≠ n → node fs'.disk j = node fs.disk j
  blks : ∀ j < 1920, ∀ k, blk fs.disk j k ≠ 0 → blk fs'.disk j k = blk fs.disk j k
  only : ∀ j < 1920, j ≠ n → ∀ k, blk fs'.disk j k = blk fs.disk j k
  bytes : ∀ j < 1920, ∀ o, byteAt fs'.disk j o = if j = n then (f o).getD (byteAt fs.disk j o) else byteAt fs.disk j o

theorem Grow.active {f : Nat → Option UInt8} (h : Grow i n f fs fs') (ha : Active fs i n) : Active fs' i n where
  ref := by rw [h.inodes, Function.update_self]; exact ha.ref
  no := by rw [h.inodes, Function.update_self]; exact ha.no
  type := by rw [h.self]; exact ha.type

/-- A file that grew without a new size has no more holes than before. -/
theorem Grow.mapped {f : Nat → Option UInt8} (h : Grow i n f fs fs')
    (hm : ∀ j < 1920, ∀ k, k * 4096 < (node fs.disk j).size → blk fs.disk j k ≠ 0) :
    ∀ j < 1920, ∀ k, k * 4096 < (node fs'.disk j).size → blk fs'.disk j k ≠ 0 := by
  intro j hj k hk
  have hsize : (node fs'.disk j).size = (node fs.disk j).size := by
    by_cases hjn : j = n
    · rw [hjn, h.self]
    · rw [h.other j hj hjn]
  have h0 := hm j hj k (hsize ▸ hk)
  rw [h.blks j hj k h0]
  exact h0

theorem Grow.refl (h : FsInv fs) (ha : Active fs i n) : Grow i n (fun _ => none) fs fs where
  inv := h
  inodes := by rw [← h.dinode ha, Function.update_eq_self]
  self := rfl
  other _ _ _ := rfl
  blks _ _ _ _ := rfl
  only _ _ _ _ := rfl
  bytes _ _ _ := by simp

theorem Grow.trans {f g : Nat → Option UInt8} {fs'' : Fs} (h1 : Grow i n f fs fs') (h2 : Grow i n g fs' fs'') :
    Grow i n (fun o => g o <|> f o) fs fs'' where
  inv := h2.inv
  inodes := by rw [h2.inodes, h1.inodes, Function.update_self, Function.update_idem]
  self := by rw [h2.self, h1.self]
  other j hj hne := (h2.other j hj hne).trans (h1.other j hj hne)
  blks j hj k h0 := by
    have h' := h1.blks j hj k h0
    rw [← h', h2.blks j hj k (by rw [h']; exact h0)]
  only j hj hne k := (h2.only j hj hne k).trans (h1.only j hj hne k)
  bytes j hj o := by
    rw [h2.bytes j hj, h1.bytes j hj]
    by_cases hjn : j = n
    · rw [if_pos hjn, if_pos hjn, if_pos hjn]
      cases g o <;> rfl
    · rw [if_neg hjn, if_neg hjn, if_neg hjn]

/-- The number of blocks that the blocks `K` of inode `n` still need. -/
def need (m : Store) (n : Nat) (K : Finset Nat) : Nat :=
  (K.filter fun k => blk m n k = 0).card + if (node m n).addrs 12 = 0 ∧ ∃ k ∈ K, 12 ≤ k then 1 else 0

theorem need_mono {K L : Finset Nat} (h : K ⊆ L) : need m n K ≤ need m n L := by
  have h1 : (K.filter fun k => blk m n k = 0).card ≤ (L.filter fun k => blk m n k = 0).card :=
    Finset.card_le_card (Finset.filter_subset_filter _ h)
  unfold need
  split
  · next hK =>
    obtain ⟨ha, k, hk, hk12⟩ := hK
    rw [if_pos ⟨ha, k, h hk, hk12⟩]
    omega
  · omega

theorem need_congr {K : Finset Nat} (hblk : ∀ k, blk m' n k = blk m n k)
    (haddr : (node m' n).addrs 12 = (node m n).addrs 12) : need m' n K = need m n K := by
  unfold need
  simp only [hblk, haddr]

/-- Slot `i` after its inode `n` took block `b` at place `s`. -/
structure Took (i n : Nat) (s : Slot) (b : Nat) (fs fs' : Fs) : Prop where
  sb : fs'.sb = fs.sb
  fresh : Fresh fs.disk s b fs'.disk
  inodes : fs'.inodes = Function.update fs.inodes i { fs.inodes i with dinode := node fs'.disk n }
  self : node fs'.disk n = { node fs.disk n with addrs := (node fs'.disk n).addrs }
  other : ∀ j < 1920, j ≠ n → node fs'.disk j = node fs.disk j
  mine : s = .indirect n ∨ ∃ k, s = .data n k

theorem Took.blk_of_ne {s : Slot} (h : Took i n s b fs fs') {j k : Nat} (hj : j < 1920) (hs : Slot.data j k ≠ s) :
    blk fs'.disk j k = blk fs.disk j k := by rw [h.fresh.blk j hj, if_neg hs]

theorem Took.grow {s : Slot} (h : Took i n s b fs fs') (hi : FsInv fs) (ha : Active fs i n) :
    Grow i n (fun _ => none) fs fs' where
  inv := by
    refine ⟨h.sb.trans hi.sb, h.fresh.owned hi.owned fun j hj ht => ?_, hi.table.step ha.ref ha.no h.inodes h.other⟩
    have hjn : j ≠ n := by rintro rfl; rw [h.self] at ht; exact ha.type ht
    rw [h.other j hj hjn] at ht ⊢
    exact hi.owned.none j hj ht
  inodes := h.inodes
  self := h.self
  other := h.other
  blks j hj k h0 := by
    refine h.blk_of_ne hj ?_
    rintro rfl
    exact h.fresh.empty _ ⟨hj, h0, rfl⟩
  only j hj hne k := by
    refine h.blk_of_ne hj ?_
    rcases h.mine with hs | ⟨l, hs⟩ <;> rw [hs] <;> simp [hne]
  bytes j hj o := by rw [h.fresh.bytes j hj]; simp

/-! ## What the allocations of `iwalk` do -/

theorem Balloc.sb (h : Balloc fs b fs') : fs'.sb = fs.sb := by rw [h.rest]

theorem Balloc.inodes (h : Balloc fs b fs') : fs'.inodes = fs.inodes := by rw [h.rest]

theorem Balloc.node (h : Balloc fs b fs') (hd : DataBlk b) {j : Nat} (hj : j < 1920) :
    node fs'.disk j = node fs.disk j :=
  node_congr fun r hr => h.frame _ (by have := hd.1; omega) (by omega)

/-- `balloc`, then an address of the inode set to the block and written back. -/
theorem took_addr (hi : FsInv fs) (ha : Active fs i n) (ha12 : a ≤ 12) (hz : (node fs.disk n).addrs a = 0)
    (hb : Balloc fs b fs') :
    ∃ fs'', (fs'.setDinode i ((fs.inodes i).dinode.setAddr a b)).iupdate i = some fs'' ∧
      Took i n (if a = 12 then .indirect n else .data n a) b fs fs'' ∧ (node fs''.disk n).addrs a = b := by
  have hn := hi.lt ha
  have hd := hi.owned.free_dataBlk hb.lt hb.free
  have hlt := hb.lt
  obtain ⟨m', h1, h2⟩ := iupdate_eq (hb.sb.trans hi.sb)
    (show (fs'.inodes i).no = n by rw [hb.inodes]; exact ha.no) hn
    (show ((node fs.disk n).setAddr a b).Fits from node_fits.setAddr (by omega) (by omega))
  have hself : node m' n = (node fs.disk n).setAddr a b := h2.self
  have hother : ∀ j, j ≠ n → j < 1920 → node m' j = node fs.disk j := fun j hj hj' =>
    (h2.other j hj hj').trans (hb.node hd hj')
  have hbits : ∀ c < 32768, bit m' c = (bit fs.disk c || decide (c = b)) := fun c hc => by
    rw [← hb.bits c hc]; exact bit_congr (h2.frame _ (by omega))
  have hzero : ∀ r < 4096, m' (b * 4096 + r) = 0 := fun r hr => by
    rw [h2.frame _ (by have := hd.1; omega)]; exact hb.zero r hr
  have hframe : ∀ x, 64 ≤ x / 4096 → x / 4096 ≠ b → m' x = fs.disk x := fun x hx hxb => by
    rw [h2.frame x (Or.inr hx)]; exact hb.frame x hxb (by omega)
  rw [hi.dinode ha]
  refine ⟨_, h1, ?_, ?_⟩
  · refine ⟨hb.sb, ?_, ?_, ?_, fun j hj hj' => hother j hj' hj, ?_⟩
    · split
      · next h => subst h; exact fresh_pointer hi.owned hn hz hb.lt hb.free hbits hself hother hzero hframe
      · next h => exact fresh_direct hi.owned hn (by omega) hz hb.lt hb.free hbits hself hother hzero hframe
    · show Function.update fs'.inodes i { fs'.inodes i with dinode := (node fs.disk n).setAddr a b } = _
      rw [hb.inodes, ← hself]
    · show node m' n = { node fs.disk n with addrs := (node m' n).addrs }
      rw [hself]; rfl
    · split
      · exact Or.inl rfl
      · exact Or.inr ⟨a, rfl⟩
  · show (node m' n).addrs a = b
    rw [hself]; exact Function.update_self ..

/-- `balloc`, then an entry of the indirect block set to the block. -/
theorem took_entry (hi : FsInv fs) (ha : Active fs i n) (hk : k < 1024) (h12 : (node fs.disk n).addrs 12 ≠ 0)
    (hz : ent fs.disk ((node fs.disk n).addrs 12) k = 0) (hb : Balloc fs b fs') :
    ∃ fs'', fs'.bwrite (le32 b) ((node fs.disk n).addrs 12) (k * 4) = some fs'' ∧
      Took i n (.data n (12 + k)) b fs fs'' := by
  have hn := hi.lt ha
  have hd := hi.owned.free_dataBlk hb.lt hb.free
  have hp : holds fs.disk (.indirect n) ((node fs.disk n).addrs 12) := ⟨hn, h12, rfl⟩
  have hpd := hi.owned.dataBlk hp
  have hpb : (node fs.disk n).addrs 12 ≠ b := fun he => hi.owned.own.not_hold hd hb.free _ (he ▸ hp)
  have hlt := hb.lt
  generalize hpe : (node fs.disk n).addrs 12 = p at h12 hz hp hpd hpb
  have h64 := hpd.1
  have h64' := hd.1
  have hlen : (le32 b).length = 4 := Store.le32_length b
  have hnode : ∀ j < 1920, node (fs'.disk.write (p * 4096 + k * 4) (le32 b)) j = node fs.disk j := fun j hj => by
    rw [← hb.node hd hj]; exact node_congr fun r hr => Store.write_out (by omega)
  refine ⟨_, bwrite_eq (by omega), hb.sb, ?_, ?_, ?_, fun j hj _ => hnode j hj, Or.inr ⟨_, rfl⟩⟩
  · refine fresh_entry hi.owned hn hk (hpe ▸ h12) (hpe ▸ hz) hb.lt hb.free (fun c hc => ?_) hnode ?_
      (fun l hl hlk => ?_) (fun r hr => ?_) fun x hx hxb hxp => ?_
    · rw [← hb.bits c hc]; exact bit_congr (Store.write_out (by omega))
    · rw [hpe]; exact Store.word_setWord_self (by omega)
    · rw [hpe]
      show (fs'.disk.setWord _ _).word _ = _
      rw [Store.word_setWord_of_disjoint (by omega)]
      exact Store.word_congr fun r hr => hb.frame _ (by omega) (by omega)
    · show fs'.disk.write _ _ _ = 0
      rw [Store.write_out (by omega)]; exact hb.zero r hr
    · rw [hpe] at hxp
      show fs'.disk.write _ _ _ = _
      rw [Store.write_out (by omega)]; exact hb.frame x hxb (by omega)
  · show fs'.inodes = _
    rw [hb.inodes]
    show fs.inodes = Function.update fs.inodes i
      { fs.inodes i with dinode := node (fs'.disk.write (p * 4096 + k * 4) (le32 b)) n }
    rw [hnode n hn, ← hi.dinode ha, Function.update_eq_self]
  · show node (fs'.disk.write (p * 4096 + k * 4) (le32 b)) n = { node fs.disk n with
      addrs := (node (fs'.disk.write (p * 4096 + k * 4) (le32 b)) n).addrs }
    rw [hnode n hn]

/-! ## What a place taken means for the blocks still needed -/

theorem Took.need_data {K : Finset Nat} (h : Took i n (.data n k) b fs fs') (hn : n < 1920) (hk : k ∈ K) :
    need fs'.disk n (K.erase k) + freeBlks fs.disk ≤ need fs.disk n K + freeBlks fs'.disk := by
  have hfree := h.fresh.freeBlks
  have h0 : blk fs.disk n k = 0 := by
    by_contra h0
    exact h.fresh.empty _ ⟨hn, h0, rfl⟩
  have hset : (K.erase k).filter (fun l => blk fs'.disk n l = 0) = (K.filter fun l => blk fs.disk n l = 0).erase k := by
    rw [← Finset.filter_erase]
    exact Finset.filter_congr fun l hl => by rw [h.blk_of_ne hn (by simp [Finset.ne_of_mem_erase hl])]
  have hcard : ((K.erase k).filter fun l => blk fs'.disk n l = 0).card + 1 =
      (K.filter fun l => blk fs.disk n l = 0).card := by
    rw [hset]
    exact Finset.card_erase_add_one (Finset.mem_filter.2 ⟨hk, h0⟩)
  have h12 : (node fs'.disk n).addrs 12 = (node fs.disk n).addrs 12 := by rw [h.fresh.ind n hn, if_neg (by simp)]
  unfold need
  rw [h12]
  split
  · next hK =>
    obtain ⟨ha, l, hl, hl12⟩ := hK
    rw [if_pos ⟨ha, l, Finset.mem_of_mem_erase hl, hl12⟩]
    omega
  · omega

theorem Took.need_indirect {K : Finset Nat} (h : Took i n (.indirect n) b fs fs') (hi : FsInv fs) (hn : n < 1920)
    (hk : k ∈ K) (h12 : 12 ≤ k) :
    need fs'.disk n K + freeBlks fs.disk ≤ need fs.disk n K + freeBlks fs'.disk := by
  have hfree := h.fresh.freeBlks
  have hb := (h.fresh.dataBlk hi.owned).1
  have h0 : (node fs.disk n).addrs 12 = 0 := by
    by_contra h0
    exact h.fresh.empty _ ⟨hn, h0, rfl⟩
  have h1 : (node fs'.disk n).addrs 12 = b := by rw [h.fresh.ind n hn, if_pos rfl]
  have hcard : (K.filter fun l => blk fs'.disk n l = 0) = K.filter fun l => blk fs.disk n l = 0 :=
    Finset.filter_congr fun l _ => by rw [h.blk_of_ne hn (by simp)]
  unfold need
  rw [hcard, if_neg (by omega), if_pos ⟨h0, k, hk, h12⟩]
  omega

/-! ## `iwalk` -/

/-- `iwalk` found or allocated data block `k` of inode `n`. -/
structure Walked (i n k b : Nat) (fs fs' : Fs) : Prop where
  grow : Grow i n (fun _ => none) fs fs'
  blk : blk fs'.disk n k = b
  pos : b ≠ 0
  lt : k < 1036
  same : Fs.blk fs.disk n k ≠ 0 → fs' = fs
  need : ∀ K : Finset Nat, k ∈ K →
    need fs'.disk n (K.erase k) + freeBlks fs.disk ≤ Fs.need fs.disk n K + freeBlks fs'.disk

theorem balloc_run (hi : FsInv fs) :
    (fs.balloc = none ∧ freeBlks fs.disk = 0) ∨ ∃ b fs', fs.balloc = some (b, fs') ∧ Balloc fs b fs' := by
  cases h : fs.balloc with
  | none =>
    refine Or.inl ⟨rfl, Nat.eq_zero_of_not_pos fun hp => ?_⟩
    obtain ⟨b, hb, hf⟩ := exists_free hp
    have := balloc_isSome hi.sb hi.bit33 hb hf
    rw [h] at this
    cases this
  | some r => exact Or.inr ⟨r.1, r.2, rfl, balloc_some hi.sb hi.bit33 h⟩

theorem need_pos (h : blk fs.disk n k = 0) : 0 < need fs.disk n {k} := by
  unfold need
  rw [Finset.filter_singleton, if_pos h, Finset.card_singleton]
  omega

theorem walked_self (hi : FsInv fs) (ha : Active fs i n) (h : blk fs.disk n k ≠ 0) :
    Walked i n k (blk fs.disk n k) fs fs where
  grow := Grow.refl hi ha
  blk := rfl
  pos := h
  lt := lt_of_blk h
  same _ := rfl
  need K _ := Nat.add_le_add_right (need_mono (Finset.erase_subset k K)) _

theorem Took.walked (h : Took i n (.data n k) b fs fs') (hi : FsInv fs) (ha : Active fs i n) (hk : k < 1036) :
    Walked i n k b fs fs' := by
  have hn := hi.lt ha
  have hb := (h.fresh.dataBlk hi.owned).1
  refine ⟨h.grow hi ha, by rw [h.fresh.blk n hn, if_pos rfl], by omega, hk, fun h0 => ?_, fun K hK =>
    h.need_data hn hK⟩
  exact absurd ⟨hn, h0, rfl⟩ (h.fresh.empty (Fs.blk fs.disk n k))

/-- The part of `iwalk` behind the indirect block `p`. -/
def walkEntry (fs : Fs) (p no : Nat) : Option (Nat × Fs) := do
  let blk := Store.wordOf (← fs.bread 4 p (no * 4))
  if blk = 0 then
    let (blk, fs) ← fs.balloc
    let fs ← fs.bwrite (le32 blk) p (no * 4)
    return (blk, fs)
  else return (blk, fs)

theorem walkEntry_run (hi : FsInv fs) (ha : Active fs i n) (hk : k < 1024) (h12 : (node fs.disk n).addrs 12 ≠ 0) :
    (walkEntry fs ((node fs.disk n).addrs 12) k = none ∧ freeBlks fs.disk < need fs.disk n {12 + k}) ∨
    ∃ b fs', walkEntry fs ((node fs.disk n).addrs 12) k = some (b, fs') ∧ Walked i n (12 + k) b fs fs' := by
  have hblk : blk fs.disk n (12 + k) = fs.disk.word ((node fs.disk n).addrs 12 * 4096 + k * 4) := by
    rw [blk_indirect (by omega) (by omega) h12, Nat.add_sub_cancel_left, ent]
  have hread : fs.bread 4 ((node fs.disk n).addrs 12) (k * 4) =
      some (fs.disk.read ((node fs.disk n).addrs 12 * 4096 + k * 4) 4) := bread_eq (by omega)
  unfold walkEntry
  simp only [Option.bind_eq_bind, hread, Option.bind_some, Store.wordOf_read (Nat.le_refl 4)]
  by_cases h0 : fs.disk.word ((node fs.disk n).addrs 12 * 4096 + k * 4) = 0
  · rw [if_pos h0]
    rcases balloc_run hi with ⟨hnone, hf⟩ | ⟨b, fs₁, hsome, hb⟩
    · refine Or.inl ⟨by rw [hnone]; rfl, ?_⟩
      rw [hf]
      exact need_pos (hblk.trans h0)
    · obtain ⟨fs₂, hw, ht⟩ := took_entry hi ha hk h12 h0 hb
      exact Or.inr ⟨b, fs₂, by rw [hsome, Option.bind_some, hw]; rfl, ht.walked hi ha (by omega)⟩
  · rw [if_neg h0]
    exact Or.inr ⟨_, fs, rfl, hblk ▸ walked_self hi ha (hblk ▸ h0)⟩

/-- For a block of a file that is active, `iwalk` fails only when there are not blocks enough. -/
theorem iwalk_run (hi : FsInv fs) (ha : Active fs i n) (hk : k < 1036) :
    (fs.iwalk i k = none ∧ freeBlks fs.disk < need fs.disk n {k}) ∨
    ∃ b fs', fs.iwalk i k = some (b, fs') ∧ Walked i n k b fs fs' := by
  have hn := hi.lt ha
  unfold iwalk
  simp only [hi.dinode ha]
  by_cases hkd : k < 12
  · rw [if_pos hkd]
    simp only [Option.bind_eq_bind]
    have hblk : blk fs.disk n k = (node fs.disk n).addrs k := blk_direct hkd
    by_cases h0 : (node fs.disk n).addrs k = 0
    · rw [if_pos h0]
      rcases balloc_run hi with ⟨hnone, hf⟩ | ⟨b, fs₁, hsome, hb⟩
      · refine Or.inl ⟨by rw [hnone]; rfl, ?_⟩
        rw [hf]
        exact need_pos (hblk.trans h0)
      · obtain ⟨fs₂, hw, ht, -⟩ := took_addr hi ha (by omega) h0 hb
        rw [if_neg (by omega)] at ht
        rw [hi.dinode ha] at hw
        exact Or.inr ⟨b, fs₂, by rw [hsome, Option.bind_some, hw]; rfl, ht.walked hi ha hk⟩
    · rw [if_neg h0]
      exact Or.inr ⟨_, fs, rfl, hblk ▸ walked_self hi ha (hblk ▸ h0)⟩
  · rw [if_neg hkd, if_pos (show k - nDirect < nIndirect by simp only [nDirect, nIndirect]; omega)]
    have hk12 : 12 + (k - 12) = k := by omega
    by_cases h0 : (node fs.disk n).addrs 12 = 0
    · simp only [Option.bind_eq_bind, nDirect, h0, if_true]
      have hz : blk fs.disk n k = 0 := blk_none (by omega) h0
      rcases balloc_run hi with ⟨hnone, hf⟩ | ⟨b, fs₁, hsome, hb⟩
      · refine Or.inl ⟨by rw [hnone]; rfl, ?_⟩
        rw [hf]
        exact need_pos hz
      · obtain ⟨fs₂, hw, ht, haddr⟩ := took_addr hi ha (Nat.le_refl 12) h0 hb
        rw [if_pos rfl] at ht
        rw [hi.dinode ha] at hw
        have hg := ht.grow hi ha
        have hneed := fun (K : Finset Nat) (hK : k ∈ K) => ht.need_indirect hi hn hK (by omega)
        have hb0 := (ht.fresh.dataBlk hi.owned).1
        have hrun := walkEntry_run (k := k - 12) hg.inv (hg.active ha) (by omega) (by omega)
        rw [hk12, haddr] at hrun
        simp only [hsome, Option.bind_some, hw, pure]
        rcases hrun with ⟨hnone, hf⟩ | ⟨c, fs₃, hsome', hwk⟩
        · refine Or.inl ⟨hnone, ?_⟩
          have := hneed {k} (Finset.mem_singleton_self k)
          omega
        · refine Or.inr ⟨c, fs₃, hsome', ?_, hwk.blk, hwk.pos, hwk.lt, fun h => absurd hz h, fun K hK => ?_⟩
          · simpa using hg.trans hwk.grow
          · have := hneed K hK
            have := hwk.need K hK
            omega
    · simp only [Option.bind_eq_bind, nDirect, h0, if_false]
      have hrun := walkEntry_run (k := k - 12) hi ha (by omega) h0
      rw [hk12] at hrun
      exact hrun

theorem iwalk_big (hk : 1036 ≤ k) : fs.iwalk i k = none := by
  unfold iwalk
  simp only [nDirect, nIndirect]
  rw [if_neg (by omega), if_neg (by omega)]

theorem iwalk_some (hi : FsInv fs) (ha : Active fs i n) (h : fs.iwalk i k = some (b, fs')) : Walked i n k b fs fs' := by
  have hk : k < 1036 := by
    by_contra hk
    rw [iwalk_big (by omega)] at h
    cases h
  rcases iwalk_run hi ha hk with ⟨hnone, -⟩ | ⟨c, fs₁, hsome, hw⟩
  · rw [hnone] at h; cases h
  · rw [hsome] at h; cases h; exact hw

-- comparing two counts by unfolding them never ends
attribute [irreducible] need freeBlks

end TinyOS.Fs
