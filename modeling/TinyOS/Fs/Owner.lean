/-
Who owns a block: the invariant that ties the bitmap, the addresses of all inodes and the entries
of their indirect blocks, and how one newly allocated block enters it.
-/
import TinyOS.Fs.Block

namespace TinyOS.Fs

open TinyOS.Lib

/-! ## Ownership -/

/-- A place that names a block: data block `k` of inode `n`, or the indirect pointer of inode `n`. -/
inductive Slot where
  | data (n k : Nat)
  | indirect (n : Nat)
  deriving DecidableEq

/-- The block that a place names; the address 0 names none. -/
def holds (m : Store) : Slot → Nat → Prop
  | .data n k, b => n < 1920 ∧ b ≠ 0 ∧ blk m n k = b
  | .indirect n, b => n < 1920 ∧ b ≠ 0 ∧ (node m n).addrs 12 = b

def DataBlk (b : Nat) : Prop := 64 ≤ b ∧ b < 32768

/-- Every block in use is named once, all others are free; the blocks of the metadata stay in use; an
unused inode names no block. -/
structure Owned (m : Store) : Prop where
  own : Exact DataBlk (holds m) (fun b => bit m b = false)
  used : ∀ b < 64, bit m b = true
  none : ∀ n < 1920, (node m n).type = typeNone → ∀ k, (node m n).addrs k = 0

/-- The active inode table agrees with the disk, and no inode is active twice. -/
structure Table (fs : Fs) : Prop where
  ref : ∀ i, 0 ≤ (fs.inodes i).ref
  small : ∀ i, 0 < (fs.inodes i).ref → i < inodeNum
  no : ∀ i, 0 < (fs.inodes i).ref → 0 < (fs.inodes i).no ∧ (fs.inodes i).no < 1920
  same : ∀ i, 0 < (fs.inodes i).ref → (fs.inodes i).dinode = node fs.disk (fs.inodes i).no
  uniq : ∀ i j, 0 < (fs.inodes i).ref → 0 < (fs.inodes j).ref → (fs.inodes i).no = (fs.inodes j).no → i = j

structure FsInv (fs : Fs) : Prop where
  sb : fs.sb = Super.std
  owned : Owned fs.disk
  table : Table fs

/-- Slot `i` of the active inode table holds inode `n`, which is in use. -/
structure Active (fs : Fs) (i n : Nat) : Prop where
  ref : 0 < (fs.inodes i).ref
  no : (fs.inodes i).no = n
  type : (node fs.disk n).type ≠ typeNone

variable {fs fs' : Fs} {m m' : Store} {i n k a b : Nat}

theorem FsInv.bit33 (h : FsInv fs) : bit fs.disk 33 = true := h.owned.used 33 (by decide)

theorem FsInv.lt (h : FsInv fs) (ha : Active fs i n) : n < 1920 := ha.no ▸ (h.table.no i ha.ref).2

theorem FsInv.dinode (h : FsInv fs) (ha : Active fs i n) : (fs.inodes i).dinode = node fs.disk n :=
  ha.no ▸ h.table.same i ha.ref

theorem Owned.dataBlk (h : Owned m) {s : Slot} (hs : holds m s b) : DataBlk b := h.own.range s b hs

theorem Owned.free_dataBlk (h : Owned m) (hb : b < 32768) (hf : bit m b = false) : DataBlk b := by
  refine ⟨?_, hb⟩
  by_contra hlt
  rw [h.used b (by omega)] at hf
  cases hf

/-- The table after the inode in slot `i` changed in memory and on disk. -/
theorem Table.step (ht : Table fs) (href : 0 < (fs.inodes i).ref) (hno : (fs.inodes i).no = n)
    (hin : fs'.inodes = Function.update fs.inodes i { fs.inodes i with dinode := node fs'.disk n })
    (hother : ∀ j < 1920, j ≠ n → node fs'.disk j = node fs.disk j) : Table fs' := by
  have hself : fs'.inodes i = { fs.inodes i with dinode := node fs'.disk n } := by rw [hin, Function.update_self]
  have hne : ∀ j, j ≠ i → fs'.inodes j = fs.inodes j := fun j hj => by rw [hin, Function.update_of_ne hj]
  have hr : ∀ j, (fs'.inodes j).ref = (fs.inodes j).ref := fun j => by
    by_cases hj : j = i
    · rw [hj, hself]
    · rw [hne j hj]
  have hn : ∀ j, (fs'.inodes j).no = (fs.inodes j).no := fun j => by
    by_cases hj : j = i
    · rw [hj, hself]
    · rw [hne j hj]
  refine ⟨fun j => ?_, fun j hj => ?_, fun j hj => ?_, fun j hj => ?_, fun j l hj hl => ?_⟩
  · rw [hr]; exact ht.ref j
  · rw [hr] at hj; exact ht.small j hj
  · rw [hr] at hj; rw [hn]; exact ht.no j hj
  · rw [hr] at hj
    rw [hn]
    by_cases hji : j = i
    · rw [hji, hself, hno]
    · have hno' : (fs.inodes j).no ≠ n := fun he => hji (ht.uniq j i hj href (he.trans hno.symm))
      rw [hne j hji, hother _ (ht.no j hj).2 hno']
      exact ht.same j hj
  · rw [hr] at hj hl; rw [hn, hn]; exact ht.uniq j l hj hl

/-! ## Data blocks and bytes -/

theorem blk_direct (hk : k < 12) : blk m n k = (node m n).addrs k := by simp only [blk, Dinode.blk, if_pos hk]

theorem blk_indirect (h12 : 12 ≤ k) (hk : k < 1036) (ha : (node m n).addrs 12 ≠ 0) :
    blk m n k = ent m ((node m n).addrs 12) (k - 12) := by
  simp only [blk, Dinode.blk, if_neg (Nat.not_lt.2 h12), if_pos hk, if_neg ha]

theorem blk_none (h12 : 12 ≤ k) (ha : (node m n).addrs 12 = 0) : blk m n k = 0 := by
  simp only [blk, Dinode.blk, if_neg (Nat.not_lt.2 h12), if_pos ha, ite_self]

theorem blk_big (hk : 1036 ≤ k) : blk m n k = 0 := by
  simp only [blk, Dinode.blk, if_neg (show ¬ k < 12 by omega), if_neg (Nat.not_lt.2 hk)]

theorem lt_of_blk (h : blk m n k ≠ 0) : k < 1036 := by
  by_contra hk
  exact h (blk_big (by omega))

/-- The blocks of an inode whose addresses and indirect block are as before. -/
theorem blk_congr (hn : ∀ j, j = k ∨ j = 12 → (node m' n).addrs j = (node m n).addrs j)
    (he : (node m n).addrs 12 ≠ 0 → ∀ j < 1024, ent m' ((node m n).addrs 12) j = ent m ((node m n).addrs 12) j) :
    blk m' n k = blk m n k := by
  unfold blk Dinode.blk
  rw [hn k (Or.inl rfl), hn 12 (Or.inr rfl)]
  split
  · rfl
  · split
    · split
      · rfl
      · next h0 => exact he h0 _ (by omega)
    · rfl

/-- Ownership only depends on the bits and on the blocks that the inodes name. -/
theorem Owned.congr (h : Owned m) (hbits : ∀ c < 32768, bit m' c = bit m c)
    (hblk : ∀ j < 1920, ∀ k, blk m' j k = blk m j k)
    (hind : ∀ j < 1920, (node m' j).addrs 12 = (node m j).addrs 12)
    (hnone : ∀ j < 1920, (node m' j).type = typeNone → ∀ k, (node m' j).addrs k = 0) : Owned m' where
  own := by
    refine h.own.congr (fun s c => ?_) fun c hc => by rw [hbits c hc.2]
    cases s with
    | data j k => exact and_congr_right fun hj => by rw [hblk j hj k]
    | indirect j => exact and_congr_right fun hj => by rw [hind j hj]
  used c hc := by rw [hbits c (by omega), h.used c hc]
  none := hnone

theorem Owned.blk_dataBlk (h : Owned m) (hn : n < 1920) (hb : blk m n k ≠ 0) : DataBlk (blk m n k) :=
  h.dataBlk (s := .data n k) ⟨hn, hb, rfl⟩

theorem Owned.indirect_dataBlk (h : Owned m) (hn : n < 1920) (hb : (node m n).addrs 12 ≠ 0) :
    DataBlk ((node m n).addrs 12) :=
  h.dataBlk (s := .indirect n) ⟨hn, hb, rfl⟩

/-- Byte `o` of inode `n`, 0 where it has no block. -/
def byteAt (m : Store) (n o : Nat) : UInt8 :=
  if blk m n (o / 4096) = 0 then 0 else m (blk m n (o / 4096) * 4096 + o % 4096)

/-- Byte `o` of an inode one of whose blocks is `b`. -/
theorem byteAt_congr {o : Nat} (hb : blk m' n (o / 4096) = blk m n (o / 4096))
    (h : blk m n (o / 4096) ≠ 0 → ∀ r < 4096, m' (blk m n (o / 4096) * 4096 + r) = m (blk m n (o / 4096) * 4096 + r)) :
    byteAt m' n o = byteAt m n o := by
  unfold byteAt
  rw [hb]
  split
  · rfl
  · next h0 => exact h h0 _ (Nat.mod_lt _ (by decide))

theorem byteAt_zero {o : Nat} (h : ∀ r < 4096, m (blk m n (o / 4096) * 4096 + r) = 0) : byteAt m n o = 0 := by
  unfold byteAt
  split
  · rfl
  · exact h _ (Nat.mod_lt _ (by decide))

/-! ## Writing an inode -/

/-- Inode `n` became `d`; nothing outside the inode blocks changed. -/
structure NodeSet (m : Store) (n : Nat) (d : Dinode) (m' : Store) : Prop where
  self : node m' n = d
  other : ∀ j, j ≠ n → j < 1920 → node m' j = node m j
  frame : ∀ x, x / 4096 < 34 ∨ 64 ≤ x / 4096 → m' x = m x

theorem inode_addr (n : Nat) : (Super.std.istart + n / iPerBlk) * 4096 + n % iPerBlk * 64 = 34 * 4096 + n * 64 := by
  simp only [Super.std, iPerBlk]; omega

theorem diread_eq (hsb : fs.sb = Super.std) : fs.diread n = some (node fs.disk n) := by
  unfold diread i2blkno i2blkoff node
  rw [bread_eq (by simp only [iPerBlk]; omega), hsb, inode_addr]
  rfl

theorem diwrite_eq {d : Dinode} (hsb : fs.sb = Super.std) (hn : n < 1920) (hd : d.Fits) :
    ∃ m', fs.diwrite d n = some { fs with disk := m' } ∧ NodeSet fs.disk n d m' := by
  unfold diwrite i2blkno i2blkoff
  rw [bwrite_eq (by rw [Dinode.bytes_length]; simp only [iPerBlk]; omega), hsb, inode_addr]
  refine ⟨_, rfl, node_write hd, fun j hj hj' => node_congr fun r hr => Store.write_out ?_, fun x hx =>
    Store.write_out ?_⟩ <;> rw [Dinode.bytes_length] <;> omega

/-- Changing the inode of a slot and writing it back. -/
theorem iupdate_eq {d : Dinode} (hsb : fs.sb = Super.std) (hno : (fs.inodes i).no = n) (hn : n < 1920) (hd : d.Fits) :
    ∃ m', (fs.setDinode i d).iupdate i =
        some ⟨fs.sb, m', Function.update fs.inodes i { fs.inodes i with dinode := d }⟩ ∧ NodeSet fs.disk n d m' := by
  have hi : (fs.setDinode i d).inodes i = { fs.inodes i with dinode := d } := Function.update_self ..
  obtain ⟨m', h1, h2⟩ := diwrite_eq (show (fs.setDinode i d).sb = Super.std from hsb) hn hd
  exact ⟨m', by unfold iupdate; rw [hi, hno, h1]; rfl, h2⟩

theorem Dinode.Fits.setAddr {d : Dinode} (hd : d.Fits) (ha : a < 13) (hb : b < 2 ^ 32) : (d.setAddr a b).Fits := by
  refine ⟨hd.type, hd.device, hd.size, fun j => ?_, fun j hj => ?_⟩
  · show Function.update d.addrs a b j < 2 ^ 32
    by_cases hja : j = a
    · rw [hja, Function.update_self]; exact hb
    · rw [Function.update_of_ne hja]; exact hd.addrs j
  · show Function.update d.addrs a b j = 0
    rw [Function.update_of_ne (by omega)]; exact hd.outside j hj

/-! ## An inode written with the addresses it had -/

section NodeSet

variable {d : Dinode} (h : NodeSet m n d m') (hd : d.addrs = (node m n).addrs)

include h in
theorem NodeSet.bit {c : Nat} (hc : c < 32768) : bit m' c = bit m c := bit_congr (h.frame _ (by omega))

include h hd

theorem NodeSet.addrs {j : Nat} (hj : j < 1920) : (node m' j).addrs = (node m j).addrs := by
  by_cases hjn : j = n
  · rw [hjn, h.self, hd]
  · rw [h.other j hjn hj]

theorem NodeSet.blk (ho : Owned m) {j : Nat} (hj : j < 1920) (k : Nat) : blk m' j k = blk m j k :=
  blk_congr (fun r _ => by rw [h.addrs hd hj]) fun h0 r hr =>
    ent_congr hr fun x hx => h.frame _ (by have := (ho.indirect_dataBlk hj h0).1; omega)

theorem NodeSet.byteAt (ho : Owned m) {j : Nat} (hj : j < 1920) (o : Nat) : byteAt m' j o = byteAt m j o :=
  byteAt_congr (h.blk hd ho hj _) fun h0 r hr => h.frame _ (by have := (ho.blk_dataBlk hj h0).1; omega)

theorem NodeSet.owned (ho : Owned m) (ht : d.type = typeNone → ∀ k, d.addrs k = 0) : Owned m' := by
  refine ho.congr (fun c hc => h.bit hc) (fun j hj k => h.blk hd ho hj k) (fun j hj => by rw [h.addrs hd hj])
    fun j hj hz => ?_
  by_cases hjn : j = n
  · rw [hjn, h.self] at hz ⊢
    exact ht hz
  · rw [h.other j hjn hj] at hz ⊢
    exact ho.none j hj hz

end NodeSet

end TinyOS.Fs
