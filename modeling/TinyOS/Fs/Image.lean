/-
What mkfs builds: block ownership holds, no file has a hole, and the contents of the files are the
ones given. An inode under construction is viewed as the only active inode of a file system on the
image, so that the lemmas about the kernel's allocations apply to those of mkfs.
-/
import TinyOS.Fs.Mkfs

namespace TinyOS.Mkfs

open TinyOS.Lib TinyOS.Fs

variable {s s' : Img} {m m' : Store} {n k b : Nat} {buf : List UInt8}

/-- A file system on `m` with only inode `n` active, in slot 0. -/
def only (m : Store) (n : Nat) : Fs :=
  ⟨Super.std, m, fun i => if i = 0 then ⟨n, 1, false, node m n⟩ else ⟨0, 0, false, Dinode.zero⟩⟩

/-- The super block of an image. -/
def superAt (m : Store) : Super :=
  ⟨m.word (32 * 4096), m.word (32 * 4096 + 4), m.word (32 * 4096 + 8), m.word (32 * 4096 + 12)⟩

/-- An image: ownership, no holes, and nothing in what the counters have not reached. -/
structure ImgInv (s : Img) : Prop where
  owned : Owned s.img
  mapped : Mapped s.img
  blks : 64 ≤ s.nextBlk
  free : ∀ c, s.nextBlk ≤ c → c < 32768 → bit s.img c = false
  zero : ∀ c, s.nextBlk ≤ c → c < 32768 → ∀ r < 4096, s.img (c * 4096 + r) = 0
  inodes : 1 ≤ s.nextInode ∧ s.nextInode ≤ 1920
  unused : ∀ n < 1920, n = 0 ∨ s.nextInode ≤ n → node s.img n = Dinode.zero

theorem iaddr_eq (n : Nat) : Img.iaddr n = 34 * 4096 + n * 64 := by
  simp only [Img.iaddr, iPerBlk, inodeStart, blkOff, blkSize]; omega

theorem iget_eq (s : Img) (n : Nat) : s.iget n = node s.img n := by rw [Img.iget, iaddr_eq, node]

theorem iset_nodeSet {d : Dinode} (hn : n < 1920) (hd : d.Fits) : NodeSet s.img n d (s.iset n d).img := by
  unfold Img.iset
  rw [iaddr_eq]
  refine ⟨node_write hd, fun j hj hj' => node_congr fun r hr => Store.write_out ?_, fun x hx => Store.write_out ?_⟩ <;>
    rw [Dinode.bytes_length] <;> omega

theorem superAt_congr (h : ∀ x, x / 4096 = 32 → m' x = m x) : superAt m' = superAt m := by
  unfold superAt
  rw [Store.word_congr fun i hi => h _ (by omega), Store.word_congr fun i hi => h _ (by omega),
    Store.word_congr fun i hi => h _ (by omega), Store.word_congr fun i hi => h _ (by omega)]

theorem only_inv (ho : Owned m) (h0 : 0 < n) (hn : n < 1920) : FsInv (only m n) := by
  have hr : ∀ i, 0 < ((only m n).inodes i).ref → i = 0 := fun i hi => by
    by_contra hne
    simp only [only, if_neg hne] at hi
    exact absurd hi (by decide)
  refine ⟨rfl, ho, fun i => ?_, fun i hi => ?_, fun i hi => ?_, fun i hi => ?_, fun i j hi hj _ => ?_⟩
  · by_cases hi : i = 0
    · rw [hi]; exact Int.one_nonneg
    · simp only [only, if_neg hi]; exact le_refl _
  · rw [hr i hi]; decide
  · rw [hr i hi]; exact ⟨h0, hn⟩
  · rw [hr i hi]; rfl
  · rw [hr i hi, hr j hj]

theorem only_active (ht : (node m n).type ≠ typeNone) : Active (only m n) 0 n :=
  ⟨Int.one_pos, rfl, ht⟩

theorem only_eq {fs : Fs} (hsb : fs.sb = Super.std) (hin : fs.inodes = Function.update (only m n).inodes 0
    { (only m n).inodes 0 with dinode := node fs.disk n }) : fs = only fs.disk n := by
  obtain ⟨sb, d, ino⟩ := fs
  subst hsb
  unfold only
  congr 1
  funext i
  rw [show ino = _ from hin]
  by_cases hi : i = 0
  · rw [hi, Function.update_self]; rfl
  · rw [Function.update_of_ne hi]
    simp only [only, if_neg hi]

theorem only_update : (only m' n).inodes = Function.update (only m n).inodes 0
    { (only m n).inodes 0 with dinode := node m' n } := by
  funext i
  by_cases hi : i = 0
  · rw [hi, Function.update_self]; rfl
  · rw [Function.update_of_ne hi]
    simp only [only, if_neg hi]

/-! ## Allocation -/

theorem balloc_eq (hb : s.nextBlk < 32768) :
    ∃ m', s.balloc = some (s.nextBlk, ⟨m', s.nextBlk + 1, s.nextInode⟩) ∧
      (∀ c < 32768, bit m' c = (bit s.img c || decide (c = s.nextBlk))) ∧
      ∀ x, x / 4096 ≠ 33 → m' x = s.img x := by
  unfold Img.balloc
  rw [if_neg (by simp only [blkNum]; omega)]
  refine ⟨_, rfl, fun c hc => ?_, fun x hx => Store.write_out ?_⟩
  · simp only [bitmapBlk, blkOff, blkSize]
    by_cases hcb : c / 8 = s.nextBlk / 8
    · unfold bit
      rw [hcb, Store.write_in (by omega) (by simp), show (32 + 1) * 4096 = 33 * 4096 by decide, Nat.sub_self,
        List.getD_cons_zero, UInt8.toNat_ofNat', Nat.mod_eq_of_lt, Nat.testBit_or, Nat.one_shiftLeft,
        Nat.testBit_two_pow]
      · congr 1
        exact decide_eq_decide.2 (by omega)
      · rw [Nat.one_shiftLeft]
        exact Nat.or_lt_two_pow (UInt8.toNat_lt _) (Nat.pow_lt_pow_right (by decide) (Nat.mod_lt _ (by decide)))
    · rw [decide_eq_false (show c ≠ s.nextBlk by rintro rfl; exact hcb rfl), Bool.or_false]
      exact bit_congr (Store.write_out (by simp only [List.length_singleton]; omega))
  · simp only [bitmapBlk, blkOff, blkSize, List.length_singleton]
    omega

theorem balloc_big (hb : ¬ s.nextBlk < 32768) : s.balloc = none := by
  unfold Img.balloc
  rw [if_pos (by simp only [blkNum]; omega)]

/-- What an inode under construction is: a used one that the counter has passed. -/
structure Building (s : Img) (n : Nat) : Prop where
  pos : 0 < n
  lt : n < s.nextInode
  type : (node s.img n).type ≠ typeNone

theorem ImgInv.lt (h : ImgInv s) (hn : Building s n) : n < 1920 := Nat.lt_of_lt_of_le hn.lt h.inodes.2

theorem ImgInv.only (h : ImgInv s) (hn : Building s n) : FsInv (only s.img n) := only_inv h.owned hn.pos (h.lt hn)

/-- An image after the inode `n` took the next block at place `t`. -/
theorem ImgInv.took {t : Slot} (h : ImgInv s) (hn : Building s n)
    (ht : Took 0 n t s.nextBlk (Mkfs.only s.img n) (Mkfs.only m' n))
    (hz : ∀ c, s.nextBlk < c → c < 32768 → ∀ r < 4096, m' (c * 4096 + r) = s.img (c * 4096 + r)) :
    ImgInv ⟨m', s.nextBlk + 1, s.nextInode⟩ where
  owned := (ht.grow (h.only hn) (only_active hn.type)).inv.owned
  mapped := (ht.grow (h.only hn) (only_active hn.type)).mapped h.mapped
  blks := Nat.le_succ_of_le h.blks
  free c h1 h2 := by
    show bit (Mkfs.only m' n).disk c = false
    rw [ht.fresh.bits c h2, decide_eq_false (by simp only at h1; omega), Bool.or_false]
    exact h.free c (Nat.le_of_succ_le h1) h2
  zero c h1 h2 r hr := by
    show m' (c * 4096 + r) = 0
    rw [hz c h1 h2 r hr]
    exact h.zero c (Nat.le_of_succ_le h1) h2 r hr
  inodes := h.inodes
  unused j hj hu := by
    have hu' : j = 0 ∨ s.nextInode ≤ j := hu
    show node (Mkfs.only m' n).disk j = _
    rw [ht.other j hj (by have := hn.lt; have := hn.pos; omega)]
    exact h.unused j hj hu

/-- `balloc`, then an address of the inode set to the block. -/
theorem took_iset {a : Nat} (h : ImgInv s) (hn : Building s n) (ha : a ≤ 12) (hz : (node s.img n).addrs a = 0)
    {r : Nat × Img} (hb : s.balloc = some r) :
    r.1 = s.nextBlk ∧ ∃ s', r.2.iset n ((r.2.iget n).setAddr a r.1) = s' ∧ ImgInv s' ∧ s'.nextInode = s.nextInode ∧
      superAt s'.img = superAt s.img ∧ Took 0 n (if a = 12 then .indirect n else .data n a) s.nextBlk
        (only s.img n) (only s'.img n) ∧
      (node s'.img n).addrs a = s.nextBlk := by
  have hlt := h.lt hn
  by_cases hbl : s.nextBlk < 32768
  · obtain ⟨m₁, hb', hbits, hframe⟩ := balloc_eq hbl
    rw [hb'] at hb
    cases hb
    have hnode : ∀ j < 1920, node m₁ j = node s.img j := fun j hj => node_congr fun r hr => hframe _ (by omega)
    rw [iget_eq, hnode n hlt]
    have h2 := iset_nodeSet (s := ⟨m₁, s.nextBlk + 1, s.nextInode⟩) (d := (node s.img n).setAddr a s.nextBlk) hlt
      (node_fits.setAddr (by omega) (by omega))
    refine ⟨rfl, _, rfl, ?_⟩
    unfold Img.iset at h2 ⊢
    generalize m₁.write (Img.iaddr n) ((node s.img n).setAddr a s.nextBlk).bytes = m₂ at h2 ⊢
    replace h2 : NodeSet m₁ n ((node s.img n).setAddr a s.nextBlk) m₂ := h2
    have h64 := h.blks
    have hfree := h.free _ (Nat.le_refl _) hbl
    -- all that changes is inode `n`, a bit of the bitmap, and nothing in the data blocks
    have hother : ∀ j, j ≠ n → j < 1920 → node m₂ j = node s.img j := fun j hj hj' =>
      (h2.other j hj hj').trans (hnode j hj')
    have hbits' : ∀ c < 32768, bit m₂ c = (bit s.img c || decide (c = s.nextBlk)) := fun c hc => by
      rw [h2.bit hc, hbits c hc]
    have hdata : ∀ x, x / 4096 = 32 ∨ 64 ≤ x / 4096 → m₂ x = s.img x := fun x hx => by
      rw [h2.frame x (by omega)]; exact hframe x (by omega)
    have hzero : ∀ r < 4096, m₂ (s.nextBlk * 4096 + r) = 0 := fun r hr => by
      rw [hdata _ (by omega)]; exact h.zero _ (Nat.le_refl _) hbl r hr
    -- block 12 of `addrs` is the indirect block, the others are data
    have htook : Took 0 n (if a = 12 then .indirect n else .data n a) s.nextBlk (only s.img n) (only m₂ n) := by
      refine ⟨rfl, ?_, only_update, ?_, fun j hj hj' => hother j hj' hj, ?_⟩
      · split
        · next ha12 =>
          subst ha12
          exact fresh_pointer h.owned hlt hz hbl hfree hbits' h2.self hother hzero fun x hx _ => hdata x (Or.inr hx)
        · exact fresh_direct h.owned hlt (by omega) hz hbl hfree hbits' h2.self hother hzero fun x hx _ =>
            hdata x (Or.inr hx)
      · show node m₂ n = { node s.img n with addrs := (node m₂ n).addrs }
        rw [h2.self]; rfl
      · split
        · exact Or.inl rfl
        · exact Or.inr ⟨a, rfl⟩
    refine ⟨h.took hn htook fun c hc _ r hr => hdata _ (by omega), rfl, superAt_congr fun x hx => hdata x (Or.inl hx),
      htook, ?_⟩
    show (node m₂ n).addrs a = s.nextBlk
    rw [h2.self]
    exact Function.update_self ..
  · rw [balloc_big hbl] at hb
    cases hb

/-- `balloc`, then an entry of the indirect block set to the block. -/
theorem took_setWord (h : ImgInv s) (hn : Building s n) (hk : k < 1024) (h12 : (node s.img n).addrs 12 ≠ 0)
    (hz : ent s.img ((node s.img n).addrs 12) k = 0) {r : Nat × Img} (hb : s.balloc = some r) :
    r.1 = s.nextBlk ∧ ∃ s', { r.2 with img := r.2.img.setWord ((node s.img n).addrs 12 * 4096 + k * 4) r.1 } = s' ∧
      ImgInv s' ∧ s'.nextInode = s.nextInode ∧ superAt s'.img = superAt s.img ∧
      Took 0 n (.data n (12 + k)) s.nextBlk (only s.img n) (only s'.img n) := by
  have hlt := h.lt hn
  by_cases hbl : s.nextBlk < 32768
  · obtain ⟨m₁, hb', hbits, hframe⟩ := balloc_eq hbl
    rw [hb'] at hb
    cases hb
    refine ⟨rfl, _, rfl, ?_⟩
    have h64 := h.blks
    have hfree := h.free _ (Nat.le_refl _) hbl
    have hp : holds s.img (.indirect n) ((node s.img n).addrs 12) := ⟨hlt, h12, rfl⟩
    have hpd := h.owned.dataBlk hp
    have hpb : (node s.img n).addrs 12 ≠ s.nextBlk := fun he =>
      h.owned.own.not_hold (h.owned.free_dataBlk hbl hfree) hfree _ (he ▸ hp)
    -- the indirect block is in use, so it lies before the blocks that are still free
    have hpn : ¬ s.nextBlk < (node s.img n).addrs 12 := fun hlt' => by
      have hused := h.owned.own.not_free hp
      exact hused (h.free _ (Nat.le_of_lt hlt') hpd.2)
    generalize hpe : (node s.img n).addrs 12 = p at h12 hz hp hpd hpb hpn
    have hp64 := hpd.1
    have hout : ∀ x, x / 4096 ≠ p → x / 4096 ≠ 33 → m₁.setWord (p * 4096 + k * 4) s.nextBlk x =
        s.img x := fun x h1 h2 => by
      rw [Store.setWord, Store.write_out (by simp only [Store.le32_length]; omega)]
      exact hframe x h2
    have hnode : ∀ j < 1920, node (m₁.setWord (p * 4096 + k * 4) s.nextBlk) j = node s.img j := fun j hj =>
      node_congr fun r hr => hout _ (by omega) (by omega)
    -- only the entry in the indirect block and the bitmap have changed
    have hfresh : Fresh s.img (.data n (12 + k)) s.nextBlk (m₁.setWord (p * 4096 + k * 4) s.nextBlk) := by
      refine fresh_entry h.owned hlt hk (hpe ▸ h12) (hpe ▸ hz) hbl hfree (fun c hc => ?_) hnode ?_ (fun l hl hlk => ?_)
        (fun r hr => ?_) fun x hx hxb hxp => ?_
      · rw [← hbits c hc]
        exact bit_congr (Store.write_out (by simp only [Store.le32_length]; omega))
      · rw [hpe]; exact Store.word_setWord_self (by omega)
      · rw [hpe]
        show (m₁.setWord _ _).word _ = s.img.word _
        rw [Store.word_setWord_of_disjoint (by omega)]
        exact Store.word_congr fun r hr => hframe _ (by omega)
      · rw [hout _ (by omega) (by omega)]; exact h.zero _ (Nat.le_refl _) hbl r hr
      · rw [hpe] at hxp; exact hout x hxp (by omega)
    have htook : Took 0 n (.data n (12 + k)) s.nextBlk (only s.img n)
        (only (m₁.setWord (p * 4096 + k * 4) s.nextBlk) n) := by
      refine ⟨rfl, hfresh, only_update, ?_, fun j hj _ => hnode j hj, Or.inr ⟨_, rfl⟩⟩
      show node (m₁.setWord (p * 4096 + k * 4) s.nextBlk) n = { node s.img n with
        addrs := (node (m₁.setWord (p * 4096 + k * 4) s.nextBlk) n).addrs }
      rw [hnode n hlt]
    exact ⟨h.took hn htook fun c hc _ r hr => hout _ (by omega) (by omega), rfl,
      superAt_congr fun x hx => hout x (by omega) (by omega), htook⟩
  · rw [balloc_big hbl] at hb
    cases hb

/-! ## `iwalk` and `iappend` -/

/-- `iwalk` found or allocated data block `k` of the inode, at address `a`. -/
structure Walked (s : Img) (n k a : Nat) (s' : Img) : Prop where
  inv : ImgInv s'
  next : s'.nextInode = s.nextInode
  sb : superAt s'.img = superAt s.img
  grow : Grow 0 n (fun _ => none) (only s.img n) (only s'.img n)
  lt : k < 1036
  pos : blk s'.img n k ≠ 0
  addr : a = blk s'.img n k * 4096

theorem Building.grow {f : Nat → Option UInt8} (hn : Building s n) (hg : Grow 0 n f (only s.img n) (only s'.img n))
    (hx : s'.nextInode = s.nextInode) : Building s' n where
  pos := hn.pos
  lt := hx ▸ hn.lt
  type := by
    have := hg.self
    rw [show node s'.img n = _ from this]
    exact hn.type

theorem bget_eq (hb : 32 ≤ b) : Img.bget b = some (b * 4096) := if_pos hb

theorem walked_same (h : ImgInv s) (hn : Building s n) (hb : blk s.img n k ≠ 0) :
    Walked s n k (blk s.img n k * 4096) s :=
  ⟨h, rfl, rfl, Grow.refl (h.only hn) (only_active hn.type), lt_of_blk hb, hb, rfl⟩

theorem walked_took (h : ImgInv s) (hn : Building s n) (hk : k < 1036) (hi : ImgInv s')
    (hx : s'.nextInode = s.nextInode) (hsb : superAt s'.img = superAt s.img)
    (ht : Took 0 n (.data n k) s.nextBlk (only s.img n) (only s'.img n)) :
    Walked s n k (s.nextBlk * 4096) s' := by
  have hw := ht.walked (h.only hn) (only_active hn.type) hk
  have hb : blk s'.img n k = s.nextBlk := hw.blk
  exact ⟨hi, hx, hsb, hw.grow, hk, by rw [hb]; exact hw.pos, by rw [hb]⟩

/-- The part of `iwalk` behind the indirect block `p`. -/
def walkEntry (s : Img) (p no : Nat) : Option (Nat × Img) := do
  let indirect ← Img.bget p
  let (blk, s) ←
    if s.img.word (indirect + no * 4) = 0 then do
      let (blk, s) ← s.balloc
      pure (blk, { s with img := s.img.setWord (indirect + no * 4) blk })
    else pure (s.img.word (indirect + no * 4), s)
  return (← Img.bget blk, s)

theorem walkEntry_some {a : Nat} (h : ImgInv s) (hn : Building s n) (hk : k < 1024)
    (h12 : (node s.img n).addrs 12 ≠ 0) (hw : walkEntry s ((node s.img n).addrs 12) k = some (a, s')) :
    Walked s n (12 + k) a s' := by
  have hlt := h.lt hn
  have hp := h.owned.indirect_dataBlk hlt h12
  have hblk : blk s.img n (12 + k) = s.img.word ((node s.img n).addrs 12 * 4096 + k * 4) := by
    rw [blk_indirect (by omega) (by omega) h12, Nat.add_sub_cancel_left, ent]
  unfold walkEntry at hw
  simp only [Option.bind_eq_bind, bget_eq (show 32 ≤ (node s.img n).addrs 12 from by have := hp.1; omega),
    Option.bind_some] at hw
  by_cases h0 : s.img.word ((node s.img n).addrs 12 * 4096 + k * 4) = 0
  · rw [if_pos h0] at hw
    obtain ⟨⟨b, s₁⟩, hb, hw⟩ := Option.bind_eq_some_iff.1 hw
    obtain ⟨rfl, s₂, he, hi, hx, hsb, ht⟩ := took_setWord h hn hk h12 h0 hb
    simp only [he, Option.pure_def, Option.bind_some] at hw
    rw [bget_eq (by have := h.blks; omega)] at hw
    cases hw
    exact walked_took h hn (by omega) hi hx hsb ht
  · rw [if_neg h0] at hw
    have hb := h.owned.blk_dataBlk (n := n) (k := 12 + k) hlt (hblk ▸ h0)
    simp only [Option.pure_def, Option.bind_some, ← hblk] at hw
    rw [bget_eq (by have := hb.1; omega)] at hw
    cases hw
    exact walked_same h hn (hblk ▸ h0)

theorem iwalk_some {a : Nat} (h : ImgInv s) (hn : Building s n) (hw : s.iwalk n k = some (a, s')) :
    Walked s n k a s' := by
  have hlt := h.lt hn
  unfold Img.iwalk at hw
  simp only [iget_eq, nDirect, nIndirect, Option.bind_eq_bind] at hw
  by_cases hk : k < 12
  · rw [if_pos hk] at hw
    have hblk : blk s.img n k = (node s.img n).addrs k := blk_direct hk
    by_cases h0 : (node s.img n).addrs k = 0
    · rw [if_pos h0] at hw
      obtain ⟨⟨b, s₁⟩, hb, hw⟩ := Option.bind_eq_some_iff.1 hw
      obtain ⟨rfl, s₂, he, hi, hx, hsb, ht, -⟩ := took_iset h hn (by omega) h0 hb
      rw [if_neg (by omega)] at ht
      simp only [iget_eq] at he
      simp only [he, Option.pure_def, Option.bind_some] at hw
      rw [bget_eq (by have := h.blks; omega)] at hw
      cases hw
      exact walked_took h hn (by omega) hi hx hsb ht
    · rw [if_neg h0] at hw
      have hb := h.owned.blk_dataBlk (n := n) (k := k) hlt (hblk ▸ h0)
      simp only [Option.pure_def, Option.bind_some, ← hblk] at hw
      rw [bget_eq (by have := hb.1; omega)] at hw
      cases hw
      exact walked_same h hn (hblk ▸ h0)
  · rw [if_neg hk] at hw
    by_cases hk' : k - 12 < 1024
    · rw [if_pos hk'] at hw
      have hk12 : 12 + (k - 12) = k := by omega
      -- the indirect block may be new, too; then the walk takes two blocks
      by_cases h0 : (node s.img n).addrs 12 = 0
      · rw [if_pos h0] at hw
        obtain ⟨⟨b, s₁⟩, hb, hw⟩ := Option.bind_eq_some_iff.1 hw
        obtain ⟨rfl, s₂, he, hi, hx, hsb, ht, hadd⟩ := took_iset h hn (Nat.le_refl 12) h0 hb
        rw [if_pos rfl] at ht
        simp only [iget_eq] at he
        simp only [he, Option.pure_def, Option.bind_some] at hw
        have hg := ht.grow (h.only hn) (only_active hn.type)
        have hn₂ := hn.grow hg hx
        have h64 := h.blks
        have hwe := walkEntry_some hi hn₂ hk' (by omega) (show walkEntry _ _ _ = some (a, s') by rw [hadd]; exact hw)
        rw [hk12] at hwe
        refine ⟨hwe.inv, hwe.next.trans hx, hwe.sb.trans hsb, ?_, hwe.lt, hwe.pos, hwe.addr⟩
        simpa using hg.trans hwe.grow
      · rw [if_neg h0] at hw
        simp only [Option.pure_def, Option.bind_some] at hw
        have hwe := walkEntry_some h hn hk' h0 hw
        rw [hk12] at hwe
        exact hwe
    · rw [if_neg hk'] at hw
      cases hw

/-- What appending did to the inode `n`. -/
structure Appended (s : Img) (n pos : Nat) (buf : List UInt8) (s' : Img) : Prop where
  inv : ImgInv s'
  next : s'.nextInode = s.nextInode
  sb : superAt s'.img = superAt s.img
  wrote : Wrote 0 n pos buf (only s.img n) (only s'.img n)

theorem Appended.building {pos : Nat} (h : Appended s n pos buf s') (hn : Building s n) : Building s' n where
  pos := hn.pos
  lt := h.next ▸ hn.lt
  type := by
    have := h.wrote.self
    rw [show node s'.img n = _ from this]
    exact hn.type

/-- A round of the loop: the bytes for one block are there and counted in the size. -/
theorem iappend_round (buf : List UInt8) {pos a : Nat} {s₁ : Img} (h : ImgInv s) (hn : Building s n)
    (hpos : pos % 4096 + buf.length ≤ 4096) (hbuf : 0 < buf.length) (hsize : (node s.img n).size = pos)
    (hw : Walked s n (pos / 4096) a s₁) :
    Appended s n pos buf (Img.iset { s₁ with img := s₁.img.write (a + pos % 4096) buf } n
      { node (s₁.img.write (a + pos % 4096) buf) n with
        size := uint32 ((node (s₁.img.write (a + pos % 4096) buf) n).size + buf.length) }) := by
  have hn₁ := hn.grow hw.grow hw.next
  have hlt := hw.inv.lt hn₁
  have hk := hw.lt
  -- the bytes go to a block of the inode, as in a write of the kernel
  obtain ⟨fs₂, hwr, hg, hblk, hnode, -⟩ := bwrite_data buf (hw.inv.only hn₁)
    (only_active hn₁.type) hw.pos (show pos % 4096 + _ ≤ _ by omega)
  rw [bwrite_eq (by omega)] at hwr
  have hd := hw.inv.owned.blk_dataBlk hlt hw.pos
  have hpos' : pos / 4096 * 4096 + pos % 4096 = pos := by omega
  rw [hpos'] at hg
  rw [hw.addr]
  generalize hm : s₁.img.write (blk s₁.img n (pos / 4096) * 4096 + pos % 4096) buf = m₂
  have hout : ∀ x, x / 4096 ≠ blk s₁.img n (pos / 4096) → m₂ x = s₁.img x := fun x hx => by
    rw [← hm]; exact Store.write_out (by omega)
  obtain rfl : fs₂ = only m₂ n := by
    have hdisk : fs₂.disk = m₂ := by
      rw [← hm]
      exact congrArg Fs.disk (Option.some.inj hwr).symm
    rw [← hdisk]
    exact only_eq hg.inv.sb hg.inodes
  have hnode' : node m₂ n = node s₁.img n := hnode
  have hself : node s₁.img n = { node s.img n with addrs := (node s₁.img n).addrs } := hw.grow.self
  have hsz : (node m₂ n).size = pos := by rw [hnode', hself]; exact hsize
  have hadd : uint32 ((node m₂ n).size + buf.length) = pos + buf.length := by rw [hsz]; exact uint32_of_lt (by omega)
  rw [hadd]
  -- then the inode is written back with its new size
  have hset := iset_nodeSet (s := { s₁ with img := m₂ }) (d := { node m₂ n with size := pos + buf.length }) hlt
    ⟨node_fits.type, node_fits.device, show pos + buf.length < 2 ^ 32 by omega, node_fits.addrs, node_fits.outside⟩
  unfold Img.iset at hset ⊢
  generalize (Store.write _ _ _) = m₃ at hset ⊢
  replace hset : NodeSet m₂ n { node m₂ n with size := pos + buf.length } m₃ := hset
  have howned : Owned m₃ := hset.owned rfl hg.inv.owned fun hz => absurd (hnode' ▸ hz) hn₁.type
  have hgrow := hw.grow.trans hg
  have hb₃ : ∀ j < 1920, ∀ k, blk m₃ j k = blk m₂ j k := fun j hj k => hset.blk rfl hg.inv.owned hj k
  have hwrote : Wrote 0 n pos buf (only s.img n) (only m₃ n) := by
    refine ⟨only_inv howned hn.pos hlt, only_update, ?_, fun j hj hne => ?_, fun j hj k h0 => ?_, fun k hk => ?_,
      fun j hj o => ?_⟩
    · have hmax : max (node s.img n).size (pos + buf.length) = pos + buf.length := by omega
      show node m₃ n = ⟨(node s.img n).type, (node s.img n).device, max (node s.img n).size (pos + buf.length),
        (node m₃ n).addrs⟩
      rw [hmax, hset.self, hnode', hself]
    · exact (hset.other j hne hj).trans (hgrow.other j hj hne)
    · exact (hb₃ j hj k).trans (hgrow.blks j hj k h0)
    · obtain ⟨o, h1, h2, rfl⟩ := mem_touched.1 hk
      show blk m₃ n (o / 4096) ≠ 0
      rw [hb₃ n hlt, show o / 4096 = pos / 4096 by omega, show blk m₂ n (pos / 4096) = _ from hblk n hlt _]
      exact hw.pos
    · show byteAt m₃ j o = _
      rw [hset.byteAt rfl hg.inv.owned hj, show byteAt m₂ j o = _ from hgrow.bytes j hj o]
      cases patch pos buf o <;> rfl
  have hsb : superAt m₃ = superAt s₁.img :=
    superAt_congr fun x hx => (hset.frame x (by omega)).trans (hout x (by have := hd.1; omega))
  refine ⟨⟨howned, hwrote.mapped_all h.mapped (Nat.le_of_eq hsize.symm), hw.inv.blks, fun c h1 h2 => ?_,
    fun c h1 h2 r hr => ?_, hw.inv.inodes, fun j hj hu => ?_⟩, hw.next, hsb.trans hw.sb, hwrote⟩
  · show bit m₃ c = false
    rw [hset.bit h2, bit_congr (hout _ (by have := hd.1; omega))]
    exact hw.inv.free c h1 h2
  · -- blocks that mkfs has not handed out are free, and this one is in use
    have hne : c ≠ blk s₁.img n (pos / 4096) := fun he => by
      have hfree := hw.inv.free c h1 h2
      exact hw.inv.owned.own.not_free (s := .data n (pos / 4096)) ⟨hlt, hw.pos, rfl⟩ (he ▸ hfree)
    show m₃ (c * 4096 + r) = 0
    rw [hset.frame _ (by have := hw.inv.blks; simp only at h1; omega), hout _ (by omega)]
    exact hw.inv.zero c h1 h2 r hr
  · have hne : j ≠ n := by have := hn₁.lt; have := hn.pos; simp only at hu; omega
    show node m₃ j = _
    rw [hset.other j hne hj, show node m₂ j = _ from hg.other j hj hne]
    exact hw.inv.unused j hj hu

theorem Appended.append {pos w : Nat} {s₁ : Img} (hlt : n < 1920) (hw : w ≤ buf.length)
    (h1 : Appended s n pos (buf.take w) s₁) (h2 : Appended s₁ n (pos + w) (buf.drop w) s') : Appended s n pos buf s' :=
  ⟨h2.inv, h2.next.trans h1.next, h2.sb.trans h1.sb, h1.wrote.append hw h2.wrote hlt⟩

theorem appended_nil (h : ImgInv s) (hn : Building s n) {pos : Nat} (hsize : (node s.img n).size = pos) :
    Appended s n pos [] s :=
  ⟨h, rfl, rfl, (copied_nil (h.only hn) (only_active hn.type)).wrote (Nat.le_of_eq hsize.symm)⟩

theorem Appended.size {pos : Nat} (h : Appended s n pos buf s') (hsize : (node s.img n).size = pos) :
    (node s'.img n).size = pos + buf.length := by
  have hmax : max (node s.img n).size (pos + buf.length) = pos + buf.length := by omega
  rw [show node s'.img n = _ from h.wrote.self]
  exact hmax

theorem iappendLoop_some : ∀ {fuel k offset pos : Nat} {buf : List UInt8} {s s' : Img}, ImgInv s → Building s n →
    (node s.img n).size = pos → pos / 4096 = k → pos % 4096 = offset →
    Img.iappendLoop n fuel s k offset buf = some s' → Appended s n pos buf s'
  | 0, _, _, _, _, _, _, _, _, _, _, _, h => by cases h
  | fuel + 1, k, offset, pos, buf, s, s', hi, hn, hsize, hk, hoff, h => by
    unfold Img.iappendLoop at h
    by_cases hbuf : buf.length = 0
    · obtain rfl := List.eq_nil_of_length_eq_zero hbuf
      rw [if_pos hbuf] at h
      cases h
      exact appended_nil hi hn hsize
    · rw [if_neg hbuf] at h
      simp only [Option.bind_eq_bind, iget_eq, blkSize] at h
      obtain ⟨⟨a, s₁⟩, hw, h⟩ := Option.bind_eq_some_iff.1 h
      generalize hwe : min buf.length (4096 - offset) = w at h
      have hlen : (buf.take w).length = w := by rw [List.length_take]; omega
      have hround := iappend_round (buf.take w) hi hn (by omega) (by omega) hsize
        (hk ▸ iwalk_some hi hn hw)
      rw [hlen, hoff] at hround
      have hn₂ := hround.building hn
      have hs₂ := hround.size hsize
      rw [hlen] at hs₂
      refine Appended.append (hi.lt hn) (by omega) hround ?_
      -- the rest may be empty, then the loop ends
      by_cases hlast : w = buf.length
      · have hnil : buf.drop w = [] := by rw [hlast, List.drop_length]
        cases fuel with
        | zero => cases h
        | succ fuel =>
          rw [hnil, Img.iappendLoop, if_pos List.length_nil] at h
          cases h
          rw [hnil]
          exact appended_nil hround.inv hn₂ hs₂
      · exact iappendLoop_some hround.inv hn₂ hs₂ (by omega) (by omega) h

/-- `iappend` puts the bytes behind those the file has. -/
theorem iappend_some (hi : ImgInv s) (hn : Building s n) (h : s.iappend n buf = some s') :
    Appended s n (node s.img n).size buf s' := by
  unfold Img.iappend at h
  rw [iget_eq] at h
  exact iappendLoop_some hi hn rfl rfl rfl h

theorem Appended.content (h : Appended s n (node s.img n).size buf s') (hlt : n < 1920) :
    content s'.img n = content s.img n ++ buf := by
  have hc : Fs.content s'.img n = (Fs.content s.img n).take (node s.img n).size ++ buf ++
      (Fs.content s.img n).drop ((node s.img n).size + buf.length) := h.wrote.content hlt (Nat.le_refl _)
  rw [hc, List.take_of_length_le (by simp), List.drop_of_length_le (by simp), List.append_nil]

theorem Appended.other {pos j : Nat} (h : Appended s n pos buf s') (hj : j < 1920) (hne : j ≠ n) :
    node s'.img j = node s.img j ∧ Fs.content s'.img j = Fs.content s.img j := by
  have hnode : node s'.img j = node s.img j := h.wrote.other j hj hne
  refine ⟨hnode, ?_⟩
  unfold Fs.content
  rw [hnode]
  refine bytesAt_congr fun o _ => ?_
  have hb : byteAt s'.img j (0 + o) = _ := h.wrote.bytes j hj (0 + o)
  rw [hb, if_neg hne]
  rfl

theorem appendFile_some : ∀ {fuel : Nat} {data : List UInt8} {s s' : Img}, ImgInv s → Building s n →
    Img.appendFile n fuel s data = some s' → Appended s n (node s.img n).size data s'
  | 0, _, _, _, _, _, h => by cases h
  | fuel + 1, data, s, s', hi, hn, h => by
    unfold Img.appendFile at h
    by_cases hdata : data.length = 0
    · obtain rfl := List.eq_nil_of_length_eq_zero hdata
      rw [if_pos hdata] at h
      cases h
      exact appended_nil hi hn rfl
    · rw [if_neg hdata] at h
      obtain ⟨s₁, h1, h2⟩ := Option.bind_eq_some_iff.1 h
      simp only [blkSize] at h1 h2
      have hround := iappend_some hi hn h1
      have hs := hround.size rfl
      have hrest := appendFile_some hround.inv (hround.building hn) h2
      have hw : min 4096 data.length ≤ data.length := Nat.min_le_right ..
      have htake : data.take (min 4096 data.length) = data.take 4096 := by rw [List.take_eq_take_iff]; omega
      have hdrop : data.drop (min 4096 data.length) = data.drop 4096 := by
        by_cases hle : 4096 ≤ data.length
        · rw [Nat.min_eq_left hle]
        · rw [Nat.min_eq_right (by omega), List.drop_length, List.drop_of_length_le (by omega)]
      refine Appended.append (w := min 4096 data.length) (hi.lt hn) hw (htake ▸ hround) ?_
      rw [hs, List.length_take] at hrest
      exact hdrop ▸ hrest

/-! ## New inodes -/

theorem ialloc_some {type : Nat} (hi : ImgInv s) (ht : type ≠ typeNone) (ht' : type < 2 ^ 32)
    (h : s.ialloc type = some (n, s')) :
    n = s.nextInode ∧ s'.nextInode = s.nextInode + 1 ∧ ImgInv s' ∧ Building s' n ∧
      superAt s'.img = superAt s.img ∧ node s'.img n = { Dinode.zero with type := type } ∧ content s'.img n = [] ∧
      ∀ j < 1920, j ≠ n → node s'.img j = node s.img j ∧ content s'.img j = content s.img j := by
  unfold Img.ialloc at h
  by_cases hmax : s.nextInode ≥ inodeCount
  · rw [if_pos hmax] at h; cases h
  · rw [if_neg hmax] at h
    cases h
    have hlt : s.nextInode < 1920 := by
      simp only [inodeCount, dataStart, inodeStart, blkOff, iPerBlk] at hmax; omega
    have hz := hi.unused s.nextInode hlt (Or.inr (Nat.le_refl _))
    have hpos := hi.inodes.1
    rw [iget_eq, hz]
    have hfit : ({ Dinode.zero with type := type } : Dinode).Fits :=
      ⟨ht', Nat.two_pow_pos 32, Nat.two_pow_pos 32, fun _ => Nat.two_pow_pos 32, fun _ _ => rfl⟩
    have hset := iset_nodeSet (s := s) hlt hfit
    unfold Img.iset at hset ⊢
    generalize (Store.write _ _ _) = m₁ at hset ⊢
    replace hset : NodeSet s.img s.nextInode { Dinode.zero with type := type } m₁ := hset
    have hadd : ({ Dinode.zero with type := type } : Dinode).addrs = (node s.img s.nextInode).addrs := by rw [hz]
    have hblk : ∀ j < 1920, ∀ k, blk m₁ j k = blk s.img j k := fun j hj k => hset.blk hadd hi.owned hj k
    have hdata : ∀ x, x / 4096 < 34 ∨ 64 ≤ x / 4096 → m₁ x = s.img x := hset.frame
    -- the new inode has no blocks, so all blocks have the owner they had
    refine ⟨rfl, rfl, ⟨hset.owned hadd hi.owned fun h0 => absurd h0 ht, fun j hj k hk => ?_, hi.blks,
      fun c h1 h2 => ?_, fun c h1 h2 r hr => ?_, ⟨by simp, by simp only; omega⟩, fun j hj hu => ?_⟩,
      ⟨hpos, Nat.lt_succ_self _, ?_⟩, superAt_congr fun x hx => hdata x (by omega), hset.self, ?_, fun j hj hne =>
        ⟨hset.other j hne hj, ?_⟩⟩
    · show blk m₁ j k ≠ 0
      replace hk : k * 4096 < (node m₁ j).size := hk
      rw [hblk j hj]
      by_cases hjn : j = s.nextInode
      · rw [hjn, hset.self] at hk
        exact absurd hk (Nat.not_lt_zero _)
      · rw [hset.other j hjn hj] at hk
        exact hi.mapped j hj k hk
    · show bit m₁ c = false
      rw [hset.bit h2]
      exact hi.free c h1 h2
    · show m₁ (c * 4096 + r) = 0
      rw [hdata _ (by have := hi.blks; simp only at h1; omega)]
      exact hi.zero c h1 h2 r hr
    · have hu' : j = 0 ∨ s.nextInode + 1 ≤ j := hu
      show node m₁ j = _
      rw [hset.other j (by omega) hj]
      exact hi.unused j hj (by omega)
    · show (node m₁ s.nextInode).type ≠ typeNone
      rw [hset.self]; exact ht
    · show content m₁ s.nextInode = []
      unfold content
      rw [hset.self]; rfl
    · show content m₁ j = content s.img j
      unfold content
      rw [hset.other j hne hj]
      exact bytesAt_congr fun o _ => hset.byteAt hadd hi.owned hj _

/-! ## The whole image -/

/-- The image of an empty disk up to the root inode. -/
def blank (boot : Store) : Store := Img.initSuper (truncated boot)

theorem blank_eq (boot : Store) : blank boot =
    ((((Store.setWord (truncated boot) (32 * 4096) 33).setWord (32 * 4096 + 4) 34).setWord (32 * 4096 + 8) 1920).setWord
      (33 * 4096 + 4) 0xffffffff).setWord (33 * 4096) 0xffffffff := rfl

theorem blank_zero (boot : Store) {x : Nat} (hx : 33 * 4096 + 8 ≤ x) : blank boot x = 0 := by
  rw [blank_eq]
  unfold Store.setWord
  rw [Store.write_out, Store.write_out, Store.write_out, Store.write_out, Store.write_out, truncated,
    if_neg (by simp only [blkOff, blkSize]; omega)] <;> rw [Store.le32_length] <;> omega

theorem blank_bits (boot : Store) {i : Nat} (hi : i < 2) : (blank boot).word (33 * 4096 + i * 4) = 0xffffffff := by
  rw [blank_eq]
  generalize
    ((Store.setWord (truncated boot) (32 * 4096) 33).setWord (32 * 4096 + 4) 34).setWord (32 * 4096 + 8) 1920 = m
  rcases (show i = 0 ∨ i = 1 by omega) with rfl | rfl
  · exact Store.word_setWord_self (v := 0xffffffff) (by decide)
  · rw [Store.word_setWord_of_disjoint (b := 33 * 4096) (by omega)]
    exact Store.word_setWord_self (v := 0xffffffff) (by decide)

theorem blank_super (boot : Store) : (blank boot).word (32 * 4096) = 33 ∧ (blank boot).word (32 * 4096 + 4) = 34 ∧
    (blank boot).word (32 * 4096 + 8) = 1920 := by
  rw [blank_eq]
  have hout : ∀ (m : Store) (a : Nat), a + 4 ≤ 33 * 4096 →
      ((m.setWord (33 * 4096 + 4) 0xffffffff).setWord (33 * 4096) 0xffffffff).word a = m.word a := fun m a ha => by
    rw [Store.word_setWord_of_disjoint (b := 33 * 4096) (by omega),
      Store.word_setWord_of_disjoint (b := 33 * 4096 + 4) (by omega)]
  rw [hout _ _ (by omega), hout _ _ (by omega), hout _ _ (by omega)]
  refine ⟨?_, ?_, Store.word_setWord_self (v := 1920) (by decide)⟩
  · rw [Store.word_setWord_of_disjoint (b := 32 * 4096 + 8) (by omega),
      Store.word_setWord_of_disjoint (b := 32 * 4096 + 4) (by omega)]
    exact Store.word_setWord_self (v := 33) (by decide)
  · rw [Store.word_setWord_of_disjoint (b := 32 * 4096 + 8) (by omega)]
    exact Store.word_setWord_self (v := 34) (by decide)

theorem node_of_zero (h : ∀ x, 34 * 4096 ≤ x → x < 64 * 4096 → m x = 0) (hn : n < 1920) : node m n = Dinode.zero := by
  have hw : ∀ j < 16, m.word (34 * 4096 + n * 64 + 4 * j) = 0 := fun j hj => by
    have hz : ∀ i < 4, m (34 * 4096 + n * 64 + 4 * j + i) = 0 := fun i hi => h _ (by omega) (by omega)
    have h0 := hz 0 (by omega)
    rw [Nat.add_zero] at h0
    simp only [Store.word, h0, hz 1 (by omega), hz 2 (by omega), hz 3 (by omega)]
    rfl
  rw [node_eq]
  ext i
  · exact hw 0 (by omega)
  · exact hw 1 (by omega)
  · exact hw 2 (by omega)
  · show (if i < 13 then m.word (34 * 4096 + n * 64 + 4 * (3 + i)) else 0) = 0
    split
    · exact hw _ (by omega)
    · rfl

theorem blank_inv (boot : Store) : ImgInv ⟨blank boot, 64, 1⟩ := by
  have hnode : ∀ n < 1920, node (blank boot) n = Dinode.zero := fun n hn =>
    node_of_zero (fun x h1 _ => blank_zero boot (by omega)) hn
  have hbit : ∀ c < 32768, bit (blank boot) c = decide (c < 64) := fun c hc => by
    by_cases h : c < 64
    · rw [show c = 32 * (c / 32) + c % 32 by omega, bit_word (Nat.mod_lt _ (by decide)), blank_bits boot (by omega),
        show 0xffffffff = 2 ^ 32 - 1 by decide, Nat.testBit_two_pow_sub_one]
      exact decide_eq_decide.2 (by omega)
    · unfold bit
      rw [blank_zero boot (by omega), decide_eq_false h]
      exact Nat.zero_testBit _
  -- no inode is in use, so no block has an owner
  have hnone : ∀ s c, ¬ holds (blank boot) s c := by
    intro s c hs
    cases s with
    | data j k =>
      obtain ⟨hj, hc, he⟩ := hs
      refine hc (he.symm.trans ?_)
      unfold blk Dinode.blk
      rw [hnode j hj]
      simp [Dinode.zero]
    | indirect j =>
      obtain ⟨hj, hc, he⟩ := hs
      refine hc (he.symm.trans ?_)
      rw [hnode j hj]; rfl
  refine ⟨⟨⟨fun s c h => absurd h (hnone s c), fun s _ c h => absurd h (hnone s c), fun c hc => ?_⟩, fun c hc => ?_,
    fun n hn _ k => ?_⟩, fun n hn k hk => ?_, le_rfl, fun c h1 h2 => ?_, fun c h1 h2 r hr => ?_,
    ⟨le_rfl, show 1 ≤ 1920 by decide⟩, fun n hn _ => hnode n hn⟩
  · show bit (blank boot) c = false ↔ _
    rw [hbit c hc.2]
    exact ⟨fun _ s => hnone s c, fun _ => decide_eq_false (by have := hc.1; omega)⟩
  · show bit (blank boot) c = true
    rw [hbit c (by omega)]
    exact decide_eq_true hc
  · show (node (blank boot) n).addrs k = 0
    rw [hnode n hn]; rfl
  · replace hk : k * 4096 < (node (blank boot) n).size := hk
    rw [hnode n hn] at hk
    exact absurd hk (Nat.not_lt_zero _)
  · have h1' : 64 ≤ c := h1
    show bit (blank boot) c = false
    rw [hbit c h2]
    exact decide_eq_false (by omega)
  · have h1' : 64 ≤ c := h1
    exact blank_zero boot (by omega)

/-- The entries of the root directory: its own two, then the files. -/
def rootEnts (names : List (List UInt8)) : List Dirent :=
  ⟨1, strcpy Dirent.zero.name dot⟩ :: ⟨1, strcpy Dirent.zero.name dotdot⟩ ::
    (names.zipIdx 2).map fun p => ⟨p.2, strcpy Dirent.zero.name p.1⟩

/-- An image with the given files. -/
structure Built (files : List (List UInt8 × List UInt8)) (s : Img) : Prop where
  inv : ImgInv s
  sb : superAt s.img = Super.std
  next : s.nextInode = 2 + files.length
  short : ∀ f ∈ files, f.1.length < 28
  rootType : (node s.img 1).type = typeDir
  root : content s.img 1 = (rootEnts (files.map Prod.fst)).flatMap Dirent.bytes
  fileType : ∀ i < files.length, (node s.img (2 + i)).type = typeFile
  file : ∀ i (hi : i < files.length), content s.img (2 + i) = files[i].2

theorem rootNo_eq (h : superAt s.img = Super.std) : s.rootNo = 1 := congrArg Super.root h

/-- A write to the super block does not show in anything else. -/
theorem ImgInv.super (h : ImgInv s) (hm : ∀ x, x / 4096 ≠ 32 → m' x = s.img x) :
    ImgInv ⟨m', s.nextBlk, s.nextInode⟩ ∧
      ∀ j < 1920, node m' j = node s.img j ∧ content m' j = content s.img j := by
  have hnode : ∀ j < 1920, node m' j = node s.img j := fun j hj => node_congr fun r hr => hm _ (by omega)
  have hblk : ∀ j < 1920, ∀ k, blk m' j k = blk s.img j k := fun j hj k =>
    blk_congr (fun r _ => by rw [hnode j hj]) fun h0 r hr => ent_congr hr fun x hx =>
      hm _ (by have := (h.owned.indirect_dataBlk hj h0).1; omega)
  have hbit : ∀ c < 32768, bit m' c = bit s.img c := fun c hc => bit_congr (hm _ (by omega))
  have howned : Owned m' := h.owned.congr hbit hblk (fun j hj => by rw [hnode j hj]) fun j hj => by
    rw [hnode j hj]; exact h.owned.none j hj
  have hblks := h.blks
  refine ⟨⟨howned, fun j hj k hk => ?_, h.blks, fun c h1 h2 => ?_, fun c h1 h2 r hr => ?_, h.inodes,
    fun j hj hu => (hnode j hj).trans (h.unused j hj hu)⟩, fun j hj => ⟨hnode j hj, ?_⟩⟩
  · show blk m' j k ≠ 0
    rw [hblk j hj]
    exact h.mapped j hj k (hnode j hj ▸ hk)
  · exact (hbit c h2).trans (h.free c h1 h2)
  · have h1' : s.nextBlk ≤ c := h1
    exact (hm _ (by omega)).trans (h.zero c h1 h2 r hr)
  · unfold content
    rw [hnode j hj]
    exact bytesAt_congr fun o _ => byteAt_congr (hblk j hj _) fun h0 r hr =>
      hm _ (by have := (h.owned.blk_dataBlk hj h0).1; omega)

theorem direntFor_short {name bs : List UInt8} (h : Img.direntFor n name = some bs) :
    name.length < 28 ∧ bs = Dirent.bytes ⟨n, strcpy Dirent.zero.name name⟩ := by
  unfold Img.direntFor at h
  split at h
  · next hl => cases h; exact ⟨hl, rfl⟩
  · cases h

theorem initDisk_some {boot : Store} (h : Img.initDisk (truncated boot) = some s) : Built [] s := by
  unfold Img.initDisk at h
  simp only [Option.bind_eq_bind, blkOff, blkSize] at h
  obtain ⟨⟨n, s₁⟩, h1, h⟩ := Option.bind_eq_some_iff.1 h
  obtain ⟨rfl, hnext, hinv, hb, hsb, hnode, hcont, -⟩ := ialloc_some (s := ⟨blank boot, 64, 1⟩) (blank_inv boot)
    (show typeDir ≠ typeNone by decide) (by decide) h1
  obtain ⟨w0, w1, w2⟩ := blank_super boot
  have hkeep : ∀ x, x / 4096 ≠ 32 → s₁.img.setWord (32 * 4096 + 12) 1 x = s₁.img x := fun x hx =>
    Store.write_out (by rw [Store.le32_length]; omega)
  obtain ⟨hinv₂, hsame⟩ := hinv.super hkeep
  obtain ⟨hnode₂, hcont₂⟩ := hsame 1 (by decide)
  -- the super block keeps what the boot image gave it, and gets the root
  have hsb₂ : superAt (s₁.img.setWord (32 * 4096 + 12) 1) = Super.std := by
    unfold superAt at hsb ⊢
    have e0 : s₁.img.word (32 * 4096) = 33 := (congrArg Super.bitmap hsb).trans w0
    have e1 : s₁.img.word (32 * 4096 + 4) = 34 := (congrArg Super.istart hsb).trans w1
    have e2 : s₁.img.word (32 * 4096 + 8) = 1920 := (congrArg Super.inum hsb).trans w2
    rw [Store.word_setWord_of_disjoint (a := 32 * 4096) (by omega), Store.word_setWord_of_disjoint (a := 32 * 4096 + 4)
      (by omega), Store.word_setWord_of_disjoint (a := 32 * 4096 + 8) (by omega), e0, e1, e2,
      Store.word_setWord_self (by decide)]
    rfl
  generalize hs₂ : ({ s₁ with img := s₁.img.setWord (32 * 4096 + 12) 1 } : Img) = s₂ at h
  have himg : s₂.img = s₁.img.setWord (32 * 4096 + 12) 1 := by rw [← hs₂]
  rw [← himg] at hsb₂ hnode₂ hcont₂
  have hinv₃ : ImgInv s₂ := hs₂ ▸ hinv₂
  have hnext₂ : s₂.nextInode = 2 := by rw [← hs₂]; exact hnext
  have hb₂ : Building s₂ 1 := ⟨by decide, by omega, by rw [hnode₂]; exact hb.type⟩
  rw [rootNo_eq hsb₂] at h
  obtain ⟨bs, hd, h⟩ := Option.bind_eq_some_iff.1 h
  obtain ⟨s₃, h3, h⟩ := Option.bind_eq_some_iff.1 h
  obtain ⟨bs', hd', h4⟩ := Option.bind_eq_some_iff.1 h
  have ha₃ := iappend_some hinv₃ hb₂ h3
  rw [rootNo_eq (ha₃.sb.trans hsb₂)] at hd' h4
  have ha₄ := iappend_some ha₃.inv (ha₃.building hb₂) h4
  obtain ⟨-, rfl⟩ := direntFor_short hd
  obtain ⟨-, rfl⟩ := direntFor_short hd'
  refine ⟨ha₄.inv, ha₄.sb.trans (ha₃.sb.trans hsb₂), ha₄.next.trans (ha₃.next.trans hnext₂), by simp, ?_, ?_, by
    simp, by simp⟩
  · rw [show node s.img 1 = _ from ha₄.wrote.self]
    show (node s₃.img 1).type = typeDir
    rw [show node s₃.img 1 = _ from ha₃.wrote.self]
    show (node s₂.img 1).type = typeDir
    rw [hnode₂, hnode]
  · rw [ha₄.content (by decide), ha₃.content (by decide), hcont₂, hcont]
    simp [rootEnts]

theorem rootEnts_append (names : List (List UInt8)) (name : List UInt8) :
    rootEnts (names ++ [name]) = rootEnts names ++ [⟨2 + names.length, strcpy Dirent.zero.name name⟩] := by
  simp [rootEnts, List.zipIdx_append]

theorem Built.addFile {files : List (List UInt8 × List UInt8)} {name data : List UInt8} (h : Built files s)
    (ha : s.addFile name data = some s') : Built (files ++ [(name, data)]) s' := by
  unfold Img.addFile at ha
  simp only [Option.bind_eq_bind] at ha
  obtain ⟨⟨n, s₁⟩, h1, ha⟩ := Option.bind_eq_some_iff.1 ha
  obtain ⟨bs, hd, ha⟩ := Option.bind_eq_some_iff.1 ha
  obtain ⟨s₂, h2, h3⟩ := Option.bind_eq_some_iff.1 ha
  obtain ⟨hshort, rfl⟩ := direntFor_short hd
  obtain ⟨rfl, hnext, hinv, hb, hsb, hnode, hcont, hother⟩ := ialloc_some h.inv (show typeFile ≠ typeNone by decide)
    (by decide) h1
  have hlen := h.next
  have hlt := hinv.lt hb
  have hne : s.nextInode ≠ 1 := by omega
  obtain ⟨hroot, hrootc⟩ := hother 1 (by decide) (fun he => hne he.symm)
  have hb1 : Building s₁ 1 := ⟨by decide, by omega, by rw [hroot, h.rootType]; decide⟩
  rw [rootNo_eq (hsb.trans h.sb)] at h2
  have ha₂ := iappend_some hinv hb1 h2
  obtain ⟨hn₂, hc₂⟩ := ha₂.other hlt hne
  have hb₂ : Building s₂ s.nextInode := ⟨hb.pos, by rw [ha₂.next]; exact hb.lt, by rw [hn₂]; exact hb.type⟩
  have ha₃ := appendFile_some ha₂.inv hb₂ h3
  -- the files that are there already are not touched
  have hold : ∀ i < files.length, node s'.img (2 + i) = node s.img (2 + i) ∧
      content s'.img (2 + i) = content s.img (2 + i) := by
    intro i hi
    have hi' : 2 + i < 1920 := by omega
    obtain ⟨p1, q1⟩ := ha₃.other (j := 2 + i) hi' (by omega)
    obtain ⟨p2, q2⟩ := ha₂.other (j := 2 + i) hi' (by omega)
    obtain ⟨p3, q3⟩ := hother (2 + i) hi' (by omega)
    exact ⟨p1.trans (p2.trans p3), q1.trans (q2.trans q3)⟩
  obtain ⟨hr₃, hrc₃⟩ := ha₃.other (j := 1) (by decide) (fun he => hne he.symm)
  have hnew : (node s'.img s.nextInode).type = typeFile := by
    rw [show node s'.img s.nextInode = _ from ha₃.wrote.self]
    show (node s₂.img s.nextInode).type = typeFile
    rw [hn₂, hnode]
  have hnewc : content s'.img s.nextInode = data := by
    rw [ha₃.content hlt, hc₂, hcont, List.nil_append]
  refine ⟨ha₃.inv, ha₃.sb.trans (ha₂.sb.trans (hsb.trans h.sb)), ?_, fun f hf => ?_, ?_, ?_,
    fun i hi => ?_, fun i hi => ?_⟩
  · rw [ha₃.next, ha₂.next, hnext, hlen, List.length_append]; rfl
  · rcases List.mem_append.1 hf with hf | hf
    · exact h.short f hf
    · rw [List.mem_singleton.1 hf]; exact hshort
  · rw [hr₃, show node s₂.img 1 = _ from ha₂.wrote.self]
    show (node s₁.img 1).type = typeDir
    rw [hroot]; exact h.rootType
  · rw [hrc₃, ha₂.content (by decide), hrootc, h.root, List.map_append, List.map_singleton, rootEnts_append,
      List.flatMap_append, List.length_map, hlen]
    simp
  · rw [List.length_append, List.length_singleton] at hi
    by_cases hlast : i < files.length
    · rw [(hold i hlast).1]; exact h.fileType i hlast
    · rw [show 2 + i = s.nextInode by omega]; exact hnew
  · rw [List.length_append, List.length_singleton] at hi
    by_cases hlast : i < files.length
    · rw [(hold i hlast).2, h.file i hlast, List.getElem_append_left hlast]
    · have hi' : i = files.length := by omega
      subst hi'
      rw [← hlen, hnewc, List.getElem_concat_length rfl]

theorem Built.addFiles : ∀ {more files : List (List UInt8 × List UInt8)} {s s' : Img}, Built files s →
    more.foldlM (fun s f => s.addFile f.1 f.2) s = some s' → Built (files ++ more) s'
  | [], files, s, s', h, ha => by cases ha; rw [List.append_nil]; exact h
  | f :: more, files, s, s', h, ha => by
    rw [List.foldlM_cons] at ha
    obtain ⟨s₁, h1, h2⟩ := Option.bind_eq_some_iff.1 ha
    have := (h.addFile h1).addFiles h2
    rwa [List.append_assoc] at this

/-- What `mkfs` leaves on the disk. -/
theorem mkfs_built {boot : Store} {files : List (List UInt8 × List UInt8)} (h : mkfs boot files = some m) :
    ∃ s, Built files s ∧ s.img = m := by
  unfold mkfs at h
  simp only [Option.bind_eq_bind] at h
  obtain ⟨-, -, h⟩ := Option.bind_eq_some_iff.1 h
  obtain ⟨s, h1, h⟩ := Option.bind_eq_some_iff.1 h
  obtain ⟨s', h2, h⟩ := Option.bind_eq_some_iff.1 h
  cases h
  exact ⟨s', (initDisk_some h1).addFiles h2, rfl⟩

end TinyOS.Mkfs
