/-
The inode layer as a map from inode numbers to byte strings: what `iwrite`, `itrunc` and `iread` do
to the contents of all files, on a disk where block ownership holds and no file has a hole.
-/
import TinyOS.Fs.Image

namespace TinyOS.Fs

open TinyOS.Lib

variable {fs fs' : Fs} {i n : Nat}

/-- The state that the inode layer keeps, with inode `n` active in slot `i`. -/
structure Layer (fs : Fs) (i n : Nat) : Prop where
  inv : FsInv fs
  mapped : Mapped fs.disk
  active : Active fs i n

/-- All inodes but `n` have the metadata and the content they had, and the slots of the table but
`i` hold what they held. -/
structure Others (i n : Nat) (fs fs' : Fs) : Prop where
  node : ∀ j < 1920, j ≠ n → Fs.node fs'.disk j = Fs.node fs.disk j
  content : ∀ j < 1920, j ≠ n → Fs.content fs'.disk j = Fs.content fs.disk j
  slots : ∀ j, j ≠ i → fs'.inodes j = fs.inodes j

theorem content_congr {m m' : Store} {j : Nat} (hn : node m' j = node m j) (hb : ∀ o, byteAt m' j o = byteAt m j o) :
    content m' j = content m j := by
  unfold content
  rw [hn]
  exact bytesAt_congr fun o _ => hb _

theorem Wrote.others {off : Nat} {buf : List UInt8} (h : Wrote i n off buf fs fs') : Others i n fs fs' where
  node := h.other
  content j hj hne := content_congr (h.other j hj hne) fun o => by rw [h.bytes j hj, if_neg hne]
  slots j hj := by rw [h.inodes, Function.update_of_ne hj]

theorem Wrote.layer {off : Nat} {buf : List UInt8} (h : Wrote i n off buf fs fs') (hl : Layer fs i n)
    (hoff : off ≤ (node fs.disk n).size) : Layer fs' i n :=
  ⟨h.inv, h.mapped_all hl.mapped hoff, h.active hl.active⟩

theorem Truncated.others (h : Truncated i n fs fs') : Others i n fs fs' where
  node := h.other
  content j hj hne := content_congr (h.other j hj hne) (h.bytes j hj hne)
  slots j hj := by rw [h.inodes, Function.update_of_ne hj]

/-- Inode `n` is as it was: its metadata, the blocks it owns and its bytes. -/
structure Keeps (n : Nat) (m m' : Store) : Prop where
  node : Fs.node m' n = Fs.node m n
  blks : ∀ k, blk m n k ≠ 0 → blk m' n k = blk m n k
  bytes : ∀ o, byteAt m' n o = byteAt m n o

theorem Keeps.refl (n : Nat) (m : Store) : Keeps n m m := ⟨rfl, fun _ _ => rfl, fun _ => rfl⟩

theorem Keeps.of_eq {m m' : Store} (h : m' = m) : Keeps n m m' := h ▸ Keeps.refl n m

theorem Keeps.trans {a b c : Store} (h : Keeps n a b) (h' : Keeps n b c) : Keeps n a c where
  node := h'.node.trans h.node
  blks k hk := by
    have hb := h.blks k hk
    rw [h'.blks k (hb.symm ▸ hk), hb]
  bytes o := (h'.bytes o).trans (h.bytes o)

theorem Keeps.content {m m' : Store} (h : Keeps n m m') : Fs.content m' n = Fs.content m n :=
  content_congr h.node h.bytes

theorem Wrote.keeps {off j : Nat} {buf : List UInt8} (h : Wrote i n off buf fs fs') (hj : j < 1920) (hne : j ≠ n) :
    Keeps j fs.disk fs'.disk :=
  ⟨h.other j hj hne, h.blks j hj, fun o => by rw [h.bytes j hj, if_neg hne]⟩

theorem Truncated.keeps {j : Nat} (h : Truncated i n fs fs') (hj : j < 1920) (hne : j ≠ n) : Keeps j fs.disk fs'.disk :=
  ⟨h.other j hj hne, fun k _ => h.blks j hj hne k, h.bytes j hj hne⟩

theorem Truncated.mapped_all (h : Truncated i n fs fs') (hm : Mapped fs.disk) : Mapped fs'.disk := by
  intro j hj k hk
  by_cases hjn : j = n
  · rw [hjn, h.self] at hk
    exact absurd hk (Nat.not_lt_zero _)
  · rw [h.other j hj hjn] at hk
    rw [h.blks j hj hjn]
    exact hm j hj k hk

theorem Truncated.active (h : Truncated i n fs fs') (ha : Active fs i n) : Active fs' i n where
  ref := by rw [h.inodes, Function.update_self]; exact ha.ref
  no := by rw [h.inodes, Function.update_self]; exact ha.no
  type := by rw [h.self]; exact ha.type

/-- The inode layer refines a map from inodes to byte strings. A write within the largest file, with
blocks enough, replaces a range of one content and extends it when it ends behind it; a write that
starts behind the content fails and changes nothing; truncation empties one content; a read delivers
a range of one content and changes nothing at all. No other file shows a difference, and what the
layer assumes holds afterwards. -/
theorem inode_layer (h : Layer fs i n) :
    (∀ off buf, off + buf.length ≤ (12 + 1024) * 4096 →
      need fs.disk n (touched off buf.length) ≤ freeBlks fs.disk →
      (off ≤ (node fs.disk n).size → ∃ fs', fs.iwrite i off buf = some (some buf.length, fs') ∧
        content fs'.disk n = (content fs.disk n).take off ++ buf ++ (content fs.disk n).drop (off + buf.length) ∧
        node fs'.disk n = { node fs.disk n with
          size := max (node fs.disk n).size (off + buf.length), addrs := (node fs'.disk n).addrs } ∧
        Others i n fs fs' ∧ Layer fs' i n) ∧
      ((node fs.disk n).size < off → fs.iwrite i off buf = some (none, fs))) ∧
    (∃ fs', fs.itrunc i = some fs' ∧ content fs'.disk n = [] ∧ Others i n fs fs' ∧ Layer fs' i n) ∧
    ∀ o l, o ≤ (node fs.disk n).size → o + l < 2 ^ 32 →
      fs.iread i o l = some (some (((content fs.disk n).drop o).take l), fs) := by
  have hn := h.inv.lt h.active
  refine ⟨fun off buf hmax hneed => ⟨fun hoff => ?_, fun hoff => ?_⟩, ?_, fun o l ho hl => ?_⟩
  · obtain ⟨⟨r, fs'⟩, hw⟩ := Option.isSome_iff_exists.1 (iwrite_isSome h.inv h.active hoff hmax hneed)
    rcases iwrite_some h.inv h.mapped h.active hw with ⟨hlt, -, -⟩ | ⟨-, rfl, hwr⟩
    · omega
    · exact ⟨fs', hw, hwr.content hn hoff, hwr.self, hwr.others, hwr.layer h hoff⟩
  · unfold iwrite
    rw [h.inv.dinode h.active, if_pos hoff]
  · obtain ⟨fs', ht, htr⟩ := itrunc_eq h.inv h.active
    refine ⟨fs', ht, ?_, htr.others, htr.inv, htr.mapped_all h.mapped, htr.active h.active⟩
    unfold content
    rw [htr.self]
    exact bytesAt_zero
  · rw [iread_eq h.inv h.mapped h.active ho hl, bytesAt_content (by omega)]
    congr 3
    rw [List.take_eq_take_iff, List.length_drop, content_length]
    omega

/-- The disk that mkfs makes, the root directory active. -/
theorem layer_only {boot m : Store} {files : List (List UInt8 × List UInt8)} (hm : Mkfs.mkfs boot files = some m) :
    Layer (Mkfs.only m 1) 0 1 := by
  obtain ⟨s, hb, rfl⟩ := Mkfs.mkfs_built hm
  have ht : (node s.img 1).type ≠ typeNone := by rw [hb.rootType]; decide
  exact ⟨Mkfs.only_inv hb.inv.owned (by decide) (by decide), hb.inv.mapped, Mkfs.only_active ht⟩

/-- Writing a byte of the root directory and reading it. -/
theorem inode_layer_root : ∃ fs fs', Layer fs 0 1 ∧ fs.iwrite 0 0 [7] = some (some 1, fs') ∧
    content fs'.disk 1 = 7 :: (content fs.disk 1).drop 1 ∧ fs'.iread 0 0 1 = some (some [7], fs') := by
  obtain ⟨m, hm⟩ := Option.isSome_iff_exists.1 (show (Mkfs.mkfs (fun _ => 0) Mkfs.shell).isSome from by decide +kernel)
  have hl := layer_only hm
  obtain ⟨s, hb, rfl⟩ := Mkfs.mkfs_built hm
  have hsize : 0 < (node s.img 1).size := by
    rw [← content_length, hb.root]
    decide
  have hblk := hb.inv.mapped 1 (by decide) 0 (by omega)
  -- the block of byte 0 is there already, so the write needs none
  have hneed : need s.img 1 (touched 0 1) ≤ freeBlks s.img := by
    have h0 : touched 0 1 = {0} := by decide
    rw [h0]
    unfold need
    rw [Finset.filter_singleton, if_neg hblk,
      if_neg (by rintro ⟨-, k, hk, hk12⟩; rw [Finset.mem_singleton] at hk; omega)]
    exact Nat.zero_le _
  obtain ⟨fs', hw, hc, -, -, hl'⟩ := ((inode_layer hl).1 0 [7] (by decide) hneed).1 (Nat.zero_le _)
  refine ⟨_, fs', hl, hw, hc, ?_⟩
  have hr := (inode_layer hl').2.2 0 1 (Nat.zero_le _) (by decide)
  rw [hr, hc]
  rfl

end TinyOS.Fs
