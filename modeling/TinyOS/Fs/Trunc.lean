/-
`itrunc`: the blocks of an inode go back to the bitmap one by one while the disk still names them;
ownership holds again when the inode is written back without addresses.
-/
import TinyOS.Fs.Data
import TinyOS.Lib.Run

namespace TinyOS.Fs

open TinyOS.Lib

variable {fs fs' : Fs} {m m' : Store} {i n k b : Nat} {F : Nat → Prop}

/-- The bits of the blocks in `F` were cleared, nothing else changed. -/
structure Freed (F : Nat → Prop) (m m' : Store) : Prop where
  bits : ∀ c < 32768, (bit m' c = true ↔ bit m c = true ∧ ¬ F c)
  frame : ∀ x, x / 4096 ≠ 33 → m' x = m x

theorem Freed.congr {G : Nat → Prop} (h : Freed F m m') (hFG : ∀ c, G c ↔ F c) : Freed G m m' :=
  ⟨fun c hc => by rw [h.bits c hc, hFG], h.frame⟩

theorem Freed.bfree (hsb : fs.sb = Super.std) (h : Freed F m fs.disk) (hb : DataBlk b) :
    ∃ fs', fs.bfree b = some fs' ∧ fs'.sb = fs.sb ∧ fs'.inodes = fs.inodes ∧
    Freed (fun c => F c ∨ c = b) m fs'.disk := by
  obtain ⟨fs', h1, h2⟩ := bfree_eq hsb hb.1 hb.2
  refine ⟨fs', h1, by rw [h2.rest], by rw [h2.rest], fun c hc => ?_, fun x hx => by rw [h2.frame x hx, h.frame x hx]⟩
  rw [h2.bits c hc, Bool.and_eq_true, h.bits c hc, Bool.not_eq_true', decide_eq_false_iff_not, not_or, and_assoc]

/-- An inode without its first `t` addresses. -/
def Dinode.dropAddrs (d : Dinode) (t : Nat) : Dinode := { d with addrs := fun k => if k < t then 0 else d.addrs k }

theorem Dinode.dropAddrs_zero (d : Dinode) : d.dropAddrs 0 = d := by simp [dropAddrs]

theorem Dinode.dropAddrs_addrs (d : Dinode) (t : Nat) : (d.dropAddrs t).addrs t = d.addrs t := if_neg (Nat.lt_irrefl t)

theorem Dinode.dropAddrs_setAddr (d : Dinode) (t : Nat) : (d.dropAddrs t).setAddr t 0 = d.dropAddrs (t + 1) := by
  ext k
  · rfl
  · rfl
  · rfl
  · show Function.update (d.dropAddrs t).addrs t 0 k = if k < t + 1 then 0 else d.addrs k
    by_cases hk : k = t
    · rw [hk, Function.update_self, if_pos (Nat.lt_succ_self t)]
    · rw [Function.update_of_ne hk]
      exact if_congr (by omega) rfl rfl

theorem Dinode.dropAddrs_skip {d : Dinode} {t : Nat} (h : d.addrs t = 0) : d.dropAddrs t = d.dropAddrs (t + 1) := by
  rw [← dropAddrs_setAddr]
  have h0 : (d.dropAddrs t).addrs t = 0 := (d.dropAddrs_addrs t).trans h
  unfold setAddr
  rw [← h0, Function.update_eq_self]

theorem Dinode.dropAddrs_all {d : Dinode} (h : ∀ k, 13 ≤ k → d.addrs k = 0) :
    d.dropAddrs 13 = { d with addrs := fun _ => 0 } := by
  ext k
  · rfl
  · rfl
  · rfl
  · show (if k < 13 then 0 else d.addrs k) = 0
    split
    · rfl
    · exact h k (by omega)

/-- Slot `i` with the first `t` direct addresses given back. -/
structure Direct (fs : Fs) (i n t : Nat) (fs' : Fs) : Prop where
  sb : fs'.sb = Super.std
  inodes : fs'.inodes = Function.update fs.inodes i { fs.inodes i with dinode := (node fs.disk n).dropAddrs t }
  freed : Freed (fun c => c ≠ 0 ∧ ∃ k < t, (node fs.disk n).addrs k = c) fs.disk fs'.disk

theorem itruncDirect_step {t : Nat} (hi : FsInv fs) (ha : Active fs i n) (ht : t < 12) (h : Direct fs i n t fs') :
    ∃ fs'', itruncDirect i fs' t = some fs'' ∧ Direct fs i n (t + 1) fs'' := by
  have hd : (fs'.inodes i).dinode = (node fs.disk n).dropAddrs t := by rw [h.inodes, Function.update_self]
  unfold itruncDirect
  rw [hd]
  simp only [Dinode.dropAddrs_addrs, Dinode.dropAddrs_setAddr]
  by_cases h0 : (node fs.disk n).addrs t = 0
  · rw [if_neg (by rw [not_not]; exact h0)]
    refine ⟨fs', rfl, h.sb, by rw [h.inodes, Dinode.dropAddrs_skip h0], h.freed.congr fun c => ?_⟩
    refine and_congr_right fun hc => ⟨fun ⟨k, hk, he⟩ => ⟨k, ?_, he⟩, fun ⟨k, hk, he⟩ => ⟨k, by omega, he⟩⟩
    have hkt : k ≠ t := by rintro rfl; exact hc (he.symm.trans h0)
    omega
  · rw [if_pos h0]
    have hb : DataBlk ((node fs.disk n).addrs t) := by
      have := hi.owned.blk_dataBlk (n := n) (k := t) (hi.lt ha)
      rw [blk_direct ht] at this
      exact this h0
    obtain ⟨fs₁, h1, hsb, hino, hf⟩ := h.freed.bfree h.sb hb
    simp only [h1, Option.bind_eq_bind, Option.bind_some]
    refine ⟨_, rfl, hsb.trans h.sb, ?_, hf.congr fun c => ?_⟩
    · show Function.update fs₁.inodes i { fs₁.inodes i with dinode := (node fs.disk n).dropAddrs (t + 1) } = _
      rw [hino, h.inodes, Function.update_self, Function.update_idem]
    · constructor
      · rintro ⟨hc, k, hk, rfl⟩
        by_cases hkt : k = t
        · exact Or.inr (by rw [hkt])
        · exact Or.inl ⟨hc, k, by omega, rfl⟩
      · rintro (⟨hc, k, hk, he⟩ | rfl)
        · exact ⟨hc, k, by omega, he⟩
        · exact ⟨h0, t, Nat.lt_succ_self t, rfl⟩

/-- After the first loop, with the first `t` entries of the indirect block given back. -/
structure Indirect (fs : Fs) (i n t : Nat) (fs' : Fs) : Prop where
  sb : fs'.sb = Super.std
  inodes : fs'.inodes = Function.update fs.inodes i { fs.inodes i with dinode := (node fs.disk n).dropAddrs 12 }
  freed : Freed (fun c => c ≠ 0 ∧ ((∃ k < 12, (node fs.disk n).addrs k = c) ∨
    ∃ k < t, ent fs.disk ((node fs.disk n).addrs 12) k = c)) fs.disk fs'.disk

theorem itruncIndirect_step {t : Nat} (hi : FsInv fs) (ha : Active fs i n) (h12 : (node fs.disk n).addrs 12 ≠ 0)
    (ht : t < 1024) (h : Indirect fs i n t fs') :
    ∃ fs'', itruncIndirect ((node fs.disk n).addrs 12) fs' t = some fs'' ∧ Indirect fs i n (t + 1) fs'' := by
  have hn := hi.lt ha
  have hp := hi.owned.indirect_dataBlk hn h12
  have hblk : blk fs.disk n (12 + t) = ent fs.disk ((node fs.disk n).addrs 12) t := by
    rw [blk_indirect (by omega) (by omega) h12, Nat.add_sub_cancel_left]
  have hent : ent fs'.disk ((node fs.disk n).addrs 12) t = ent fs.disk ((node fs.disk n).addrs 12) t :=
    ent_congr ht fun r hr => h.freed.frame _ (by have := hp.1; omega)
  generalize hpe : (node fs.disk n).addrs 12 = p at hp hent hblk
  unfold itruncIndirect
  rw [bread_eq (by omega)]
  simp only [Option.bind_eq_bind, Option.bind_some, Store.wordOf_read (Nat.le_refl 4)]
  rw [show fs'.disk.word (p * 4096 + t * 4) = ent fs.disk p t from hent]
  -- an entry that is zero has no block to free
  by_cases h0 : ent fs.disk p t = 0
  · rw [if_neg (by rw [not_not]; exact h0)]
    refine ⟨fs', rfl, h.sb, h.inodes, h.freed.congr fun c => ?_⟩
    rw [hpe]
    refine and_congr_right fun hc => or_congr_right
      ⟨fun ⟨k, hk, he⟩ => ⟨k, ?_, he⟩, fun ⟨k, hk, he⟩ => ⟨k, by omega, he⟩⟩
    have hkt : k ≠ t := by rintro rfl; exact hc (he.symm.trans h0)
    omega
  · rw [if_pos h0]
    have hb : DataBlk (ent fs.disk p t) := by
      have := hi.owned.blk_dataBlk (n := n) (k := 12 + t) hn
      rw [hblk] at this
      exact this h0
    obtain ⟨fs₁, h1, hsb, hino, hf⟩ := h.freed.bfree h.sb hb
    refine ⟨fs₁, h1, hsb.trans h.sb, hino.trans h.inodes, hf.congr fun c => ?_⟩
    rw [hpe]
    constructor
    · rintro ⟨hc, hk | ⟨k, hk, rfl⟩⟩
      · exact Or.inl ⟨hc, Or.inl hk⟩
      · by_cases hkt : k = t
        · exact Or.inr (by rw [hkt])
        · exact Or.inl ⟨hc, Or.inr ⟨k, by omega, rfl⟩⟩
    · rintro (⟨hc, hk | ⟨k, hk, he⟩⟩ | rfl)
      · exact ⟨hc, Or.inl hk⟩
      · exact ⟨hc, Or.inr ⟨k, by omega, he⟩⟩
      · exact ⟨h0, Or.inr ⟨t, Nat.lt_succ_self t, rfl⟩⟩

/-- The places of inode `n`. -/
def Slot.of (n : Nat) : Slot → Prop
  | .data j _ => j = n
  | .indirect j => j = n

/-- All blocks of inode `n` are back, the disk still names them. -/
structure Emptied (fs : Fs) (i n : Nat) (fs' : Fs) : Prop where
  sb : fs'.sb = Super.std
  inodes : fs'.inodes = Function.update fs.inodes i { fs.inodes i with dinode := (node fs.disk n).dropAddrs 13 }
  freed : Freed (fun c => ∃ s, s.of n ∧ holds fs.disk s c) fs.disk fs'.disk

theorem freed_iff (hn : n < 1920) {c : Nat} :
    (∃ s, Slot.of n s ∧ holds m s c) ↔ c ≠ 0 ∧ ((∃ k < 12, (node m n).addrs k = c) ∨
      ((node m n).addrs 12 ≠ 0 ∧ ((∃ k < 1024, ent m ((node m n).addrs 12) k = c) ∨ c = (node m n).addrs 12))) := by
  constructor
  · rintro ⟨s, hs, hh⟩
    cases s with
    | data j k =>
      obtain rfl : j = n := hs
      obtain ⟨-, hc, he⟩ := hh
      refine ⟨hc, ?_⟩
      by_cases hk : k < 12
      · rw [blk_direct hk] at he
        exact Or.inl ⟨k, hk, he⟩
      · have hk' := lt_of_blk (he ▸ hc : blk m j k ≠ 0)
        have h12 : (node m j).addrs 12 ≠ 0 := fun h0 => hc (by rw [← he, blk_none (by omega) h0])
        rw [blk_indirect (by omega) hk' h12] at he
        exact Or.inr ⟨h12, Or.inl ⟨k - 12, by omega, he⟩⟩
    | indirect j =>
      obtain rfl : j = n := hs
      obtain ⟨-, hc, he⟩ := hh
      exact ⟨hc, Or.inr ⟨he ▸ hc, Or.inr he.symm⟩⟩
  · rintro ⟨hc, ⟨k, hk, he⟩ | ⟨h12, ⟨k, hk, he⟩ | he⟩⟩
    · exact ⟨.data n k, rfl, hn, hc, by rw [blk_direct hk, he]⟩
    · exact ⟨.data n (12 + k), rfl, hn, hc, by
        rw [blk_indirect (by omega) (by omega) h12, Nat.add_sub_cancel_left, he]⟩
    · exact ⟨.indirect n, rfl, hn, hc, he.symm⟩

/-- What `itrunc` did to inode `n` in slot `i`. -/
structure Truncated (i n : Nat) (fs fs' : Fs) : Prop where
  inv : FsInv fs'
  inodes : fs'.inodes = Function.update fs.inodes i { fs.inodes i with dinode := node fs'.disk n }
  self : node fs'.disk n = { node fs.disk n with size := 0, addrs := fun _ => 0 }
  other : ∀ j < 1920, j ≠ n → node fs'.disk j = node fs.disk j
  blks : ∀ j < 1920, j ≠ n → ∀ k, blk fs'.disk j k = blk fs.disk j k
  bytes : ∀ j < 1920, j ≠ n → ∀ o, byteAt fs'.disk j o = byteAt fs.disk j o

/-- Writing the emptied inode back. -/
theorem Emptied.truncated (hi : FsInv fs) (ha : Active fs i n) (h : Emptied fs i n fs') :
    ∃ fs'', (fs'.setDinode i { (fs'.inodes i).dinode with size := 0 }).iupdate i = some fs'' ∧
      Truncated i n fs fs'' := by
  have hn := hi.lt ha
  have hd : ({ (fs'.inodes i).dinode with size := 0 } : Dinode) =
      { node fs.disk n with size := 0, addrs := fun _ => 0 } := by
    rw [h.inodes, Function.update_self, Dinode.dropAddrs_all node_fits.outside]
  have hfit : ({ node fs.disk n with size := 0, addrs := fun _ => 0 } : Dinode).Fits :=
    ⟨node_fits.type, node_fits.device, Nat.two_pow_pos 32, fun _ => Nat.two_pow_pos 32, fun _ _ => rfl⟩
  obtain ⟨m', h1, h2⟩ := iupdate_eq (i := i) h.sb (by rw [h.inodes, Function.update_self]; exact ha.no) hn hfit
  have hother : ∀ j < 1920, j ≠ n → node m' j = node fs.disk j := fun j hj hne => by
    rw [h2.other j hne hj]
    exact node_congr fun r hr => h.freed.frame _ (by omega)
  -- the data blocks are as they were, only the inode and the bitmap have changed
  have hdata : ∀ x, 64 ≤ x / 4096 → m' x = fs.disk x := fun x hx => by
    rw [h2.frame x (Or.inr hx), h.freed.frame x (by omega)]
  have hent : ∀ j < 1920, (node fs.disk j).addrs 12 ≠ 0 → ∀ k < 1024,
      ent m' ((node fs.disk j).addrs 12) k = ent fs.disk ((node fs.disk j).addrs 12) k := fun j hj h0 k hk =>
    ent_congr hk fun r hr => hdata _ (by have := (hi.owned.indirect_dataBlk hj h0).1; omega)
  have hblk : ∀ j < 1920, j ≠ n → ∀ k, blk m' j k = blk fs.disk j k := fun j hj hne k =>
    blk_congr (fun r _ => by rw [hother j hj hne]) (hent j hj)
  have hblk0 : ∀ k, blk m' n k = 0 := fun k => by
    unfold blk Dinode.blk
    rw [h2.self]
    simp
  have hbits : ∀ c < 32768, (bit m' c = true ↔ bit fs.disk c = true ∧ ¬ ∃ s, Slot.of n s ∧ holds fs.disk s c) :=
    fun c hc => by rw [← h.freed.bits c hc, h2.bit hc]
  rw [hd]
  have hin : Function.update fs'.inodes i { fs'.inodes i with
      dinode := { node fs.disk n with size := 0, addrs := fun _ => 0 } } =
      Function.update fs.inodes i { fs.inodes i with dinode := node m' n } := by
    rw [h.inodes, Function.update_self, Function.update_idem, h2.self]
  refine ⟨_, h1, ⟨h.sb, ⟨?_, fun c hc => ?_, fun j hj ht k => ?_⟩, ?_⟩, hin, h2.self, hother, hblk,
    fun j hj hne o => byteAt_congr (hblk j hj hne _) fun h0 r hr => hdata _ ?_⟩
  · refine hi.owned.own.drop (D := Slot.of n) (fun s c => ?_) fun c hc => ?_
    · cases s with
      | data j k =>
        show j < 1920 ∧ c ≠ 0 ∧ blk m' j k = c ↔ (j < 1920 ∧ c ≠ 0 ∧ blk fs.disk j k = c) ∧ ¬ j = n
        by_cases hjn : j = n
        · rw [hjn, hblk0 k]
          exact ⟨fun ⟨_, hc, he⟩ => absurd he.symm hc, fun ⟨_, he⟩ => absurd rfl he⟩
        · constructor
          · rintro ⟨hj, hc, he⟩; exact ⟨⟨hj, hc, by rw [← hblk j hj hjn]; exact he⟩, hjn⟩
          · rintro ⟨⟨hj, hc, he⟩, -⟩; exact ⟨hj, hc, by rw [hblk j hj hjn]; exact he⟩
      | indirect j =>
        show j < 1920 ∧ c ≠ 0 ∧ (node m' j).addrs 12 = c ↔
          (j < 1920 ∧ c ≠ 0 ∧ (node fs.disk j).addrs 12 = c) ∧ ¬ j = n
        by_cases hjn : j = n
        · rw [hjn, h2.self]
          exact ⟨fun ⟨_, hc, he⟩ => absurd he.symm hc, fun ⟨_, he⟩ => absurd rfl he⟩
        · constructor
          · rintro ⟨hj, hc, he⟩; exact ⟨⟨hj, hc, by rw [← hother j hj hjn]; exact he⟩, hjn⟩
          · rintro ⟨⟨hj, hc, he⟩, -⟩; exact ⟨hj, hc, by rw [hother j hj hjn]; exact he⟩
    · rw [← Bool.not_eq_true, hbits c hc.2, ← Bool.not_eq_true, not_and_or, not_not]
  · rw [hbits c (by omega)]
    refine ⟨hi.owned.used c hc, ?_⟩
    rintro ⟨s, -, hs⟩
    have := (hi.owned.dataBlk hs).1
    omega
  · by_cases hjn : j = n
    · rw [hjn, h2.self]
    · rw [hother j hj hjn] at ht ⊢
      exact hi.owned.none j hj ht k
  · exact hi.table.step ha.ref ha.no hin hother
  · have := (hi.owned.blk_dataBlk hj h0).1
    omega

/-- `itrunc` always succeeds on an active inode. -/
theorem itrunc_eq (hi : FsInv fs) (ha : Active fs i n) : ∃ fs', fs.itrunc i = some fs' ∧ Truncated i n fs fs' := by
  have hn := hi.lt ha
  have h0 : Direct fs i n 0 fs := by
    refine ⟨hi.sb, ?_, fun c hc => by simp, fun _ _ => rfl⟩
    rw [Dinode.dropAddrs_zero, ← hi.dinode ha, Function.update_eq_self]
  obtain ⟨fs₁, h1, hd⟩ := foldlM_range (P := Direct fs i n) (fun t ht s hs => itruncDirect_step hi ha ht hs) h0
  have hdin : (fs₁.inodes i).dinode = (node fs.disk n).dropAddrs 12 := by rw [hd.inodes, Function.update_self]
  unfold itrunc
  simp only [Option.bind_eq_bind, nDirect, nIndirect, h1, Option.bind_some, hdin, Dinode.dropAddrs_addrs,
    Dinode.dropAddrs_setAddr]
  by_cases h12 : (node fs.disk n).addrs 12 = 0
  · rw [if_neg (by rw [not_not]; exact h12), Option.pure_def, Option.bind_some]
    refine Emptied.truncated hi ha ⟨hd.sb, by rw [hd.inodes, Dinode.dropAddrs_skip h12], hd.freed.congr fun c => ?_⟩
    rw [freed_iff hn]
    exact and_congr_right fun _ => or_iff_left fun h => h.1 h12
  · rw [if_pos h12]
    have hs : Indirect fs i n 0 fs₁ := ⟨hd.sb, hd.inodes, hd.freed.congr fun c => by simp⟩
    obtain ⟨fs₂, h2, hs'⟩ := foldlM_range (P := Indirect fs i n)
      (fun t ht s hs => itruncIndirect_step hi ha h12 ht hs) hs
    obtain ⟨fs₃, h3, hsb, hino, hf⟩ := hs'.freed.bfree hs'.sb (hi.owned.indirect_dataBlk hn h12)
    simp only [h2, h3, Option.bind_some, Option.pure_def]
    refine Emptied.truncated hi ha ⟨hsb.trans hs'.sb, ?_, hf.congr fun c => ?_⟩
    · show Function.update fs₃.inodes i { fs₃.inodes i with dinode := (node fs.disk n).dropAddrs (12 + 1) } = _
      rw [hino, hs'.inodes, Function.update_self, Function.update_idem]
    · rw [freed_iff hn]
      constructor
      · rintro ⟨hc, h | ⟨-, h | h⟩⟩
        · exact Or.inl ⟨hc, Or.inl h⟩
        · exact Or.inl ⟨hc, Or.inr h⟩
        · exact Or.inr h
      · rintro (⟨hc, h | h⟩ | h)
        · exact ⟨hc, Or.inl h⟩
        · exact ⟨hc, Or.inr ⟨h12, Or.inl h⟩⟩
        · exact ⟨h ▸ h12, Or.inr ⟨h12, Or.inr h⟩⟩

end TinyOS.Fs
