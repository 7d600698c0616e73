/-
Which requests `iread` serves: those whose end does not wrap around, and no others.
-/
import TinyOS.Fs.Content

namespace TinyOS.Fs

open TinyOS.Lib

variable {fs fs' : Fs} {i n k no blkoff len off size fuel : Nat}

/-- The blocks of the file that the copy loop of `iread` asks `iwalk` for, in turn. -/
def loopBlks : (fuel : Nat) → (no blkoff len : Nat) → List Nat
  | 0, _, _, _ => []
  | fuel + 1, no, blkoff, len =>
    if len = 0 then [] else no :: loopBlks fuel (no + 1) 0 (len - min (blkSize - blkoff) len)

@[inherit_doc loopBlks] def ireadBlks (size off len : Nat) : List Nat :=
  if off > size then []
  else
    let len := if uint32 (off + len) > size then size - off else len
    loopBlks (len + 1) (off / blkSize) (off % blkSize) len

theorem loopBlks_zero : loopBlks fuel no blkoff 0 = [] := by
  cases fuel with
  | zero => rfl
  | succ fuel => exact if_pos rfl

theorem loopBlks_lt (hb : blkoff < 4096) (hk : k ∈ loopBlks fuel no blkoff len) :
    k * 4096 < no * 4096 + blkoff + len := by
  induction fuel generalizing no blkoff len with
  | zero => cases hk
  | succ fuel ih =>
    unfold loopBlks at hk
    simp only [blkSize] at hk
    split at hk
    · cases hk
    · next h0 =>
      rcases List.mem_cons.1 hk with rfl | hk
      · omega
      · -- the last block that is asked for is the one that holds the last byte
        by_cases hw : len ≤ 4096 - blkoff
        · rw [Nat.min_eq_right hw, Nat.sub_self, loopBlks_zero] at hk
          cases hk
        · rw [Nat.min_eq_left (Nat.le_of_not_le hw)] at hk
          have hlt := ih (Nat.zero_lt_succ _) hk
          have h1 : 4096 - blkoff + (len - (4096 - blkoff)) = len := Nat.add_sub_cancel' (Nat.le_of_not_le hw)
          have h2 : blkoff + (4096 - blkoff) = 4096 := Nat.add_sub_cancel' hb.le
          rw [Nat.add_mul, Nat.one_mul] at hlt
          linarith only [hlt, h1, h2]

/-- The copy loop, with the blocks that it gives to `iwalk` next to what it returns. -/
def ireadLoopAsks (i : Nat) : (fuel : Nat) → (fs : Fs) → (no blkoff len : Nat) → Option (List Nat × List UInt8 × Fs)
  | 0, _, _, _, _ => none
  | fuel + 1, fs, no, blkoff, len => do
    if len = 0 then return ([], [], fs)
    let (blkno, fs) ← fs.iwalk i no
    let readSize := min (blkSize - blkoff) len
    let bs ← fs.bread readSize blkno blkoff
    let (asks, rest, fs) ← ireadLoopAsks i fuel fs (no + 1) 0 (len - readSize)
    return (no :: asks, bs ++ rest, fs)

/-- A loop that ends has asked for the blocks of `loopBlks`. -/
theorem ireadLoopAsks_eq : ireadLoopAsks i fuel fs no blkoff len =
    (ireadLoop i fuel fs no blkoff len).map fun r => (loopBlks fuel no blkoff len, r) := by
  induction fuel generalizing fs no blkoff len with
  | zero => rfl
  | succ fuel ih =>
    unfold ireadLoopAsks ireadLoop loopBlks
    by_cases h0 : len = 0
    · simp only [if_pos h0]
      rfl
    · simp only [if_neg h0, Option.bind_eq_bind]
      cases fs.iwalk i no with
      | none => rfl
      | some x =>
        obtain ⟨blkno, fs₁⟩ := x
        simp only [Option.bind_some]
        cases fs₁.bread (min (blkSize - blkoff) len) blkno blkoff with
        | none => rfl
        | some bs =>
          simp only [Option.bind_some, ih]
          cases ireadLoop i fuel fs₁ (no + 1) 0 (len - min (blkSize - blkoff) len) with
          | none => rfl
          | some r => rfl

/-- What a call of `iread` for inode `n` in slot `i` has to do. -/
structure ReadExact (fs : Fs) (i n off len : Nat) : Prop where
  fails : (node fs.disk n).size < off → fs.iread i off len = some (none, fs)
  reads : off ≤ (node fs.disk n).size →
    fs.iread i off len = some (some (((content fs.disk n).drop off).take (min len ((node fs.disk n).size - off))), fs)
  inside : ∀ k ∈ ireadBlks (node fs.disk n).size off len, k * 4096 < (node fs.disk n).size

/-- The bytes that are left before the loop gives up are too few for a request that wraps around. -/
theorem iread_wraps (hi : FsInv fs) (ha : Active fs i n) (hs : (node fs.disk n).size ≤ 1036 * 4096)
    (hoff : off ≤ (node fs.disk n).size) (hlen : len < 2 ^ 32) (hw : 2 ^ 32 ≤ off + len) :
    fs.iread i off len = none := by
  have hu : uint32 (off + len) = off + len - 2 ^ 32 := by
    unfold uint32
    omega
  unfold iread
  simp only [hi.dinode ha]
  rw [if_neg (by omega), hu, if_neg (by omega)]
  cases hl : ireadLoop i (len + 1) fs (off / blkSize) (off % blkSize) len with
  | none => rfl
  | some q =>
    have hb := ireadLoop_bound (Nat.mod_lt _ (by decide)) hl
    simp only [blkSize] at hb
    omega

/-- Of an inode whose blocks are all there, `iread` serves the requests that start behind the end, and
those whose end is below `2 ^ 32`. -/
theorem iread_exact (hi : FsInv fs) (ha : Active fs i n)
    (hm : ∀ k, k * 4096 < (node fs.disk n).size → blk fs.disk n k ≠ 0) (hlen : len < 2 ^ 32) :
    ReadExact fs i n off len ↔ (off ≤ (node fs.disk n).size → off + len < 2 ^ 32) := by
  have hsize : (node fs.disk n).size ≤ 1036 * 4096 := by
    by_contra hs
    exact hm 1036 (by omega) (blk_big (Nat.le_refl _))
  constructor
  · intro h hoff
    by_contra hw
    -- the sum wraps and the length is not cut, so the loop runs past the last block
    have hr := h.reads hoff
    rw [iread_wraps hi ha hsize hoff hlen (by omega)] at hr
    cases hr
  intro hfit
  refine ⟨fun hlt => ?_, fun hoff => ?_, fun k hk => ?_⟩
  · unfold iread
    rw [hi.dinode ha, if_pos hlt]
  · -- without wrapping the length is cut at the end of the file
    have hclamp : (if uint32 (off + len) > (node fs.disk n).size then (node fs.disk n).size - off else len) =
        min len ((node fs.disk n).size - off) := by
      rw [uint32_of_lt (hfit hoff)]
      split <;> omega
    have hmod : off % 4096 < 4096 := Nat.mod_lt _ (by decide)
    have hpos : off / 4096 * 4096 + off % 4096 = off := by omega
    unfold iread
    simp only [hi.dinode ha]
    rw [if_neg (by omega), hclamp]
    simp only [blkSize]
    rw [ireadLoop_eq hi ha (by omega) hmod fun k h1 h2 => hm k (by omega), hpos, bytesAt_content (by omega)]
    rfl
  · unfold ireadBlks at hk
    split at hk
    · cases hk
    · next hoff =>
      have hlt := loopBlks_lt (Nat.mod_lt _ (by decide)) hk
      rw [uint32_of_lt (hfit (by omega))] at hlt
      simp only [blkSize] at hlt
      split at hlt <;> omega

/-- The root directory of a disk with one file. -/
theorem reads_root : ∃ fs, FsInv fs ∧ Active fs 0 1 ∧ (∀ k, k * 4096 < (node fs.disk 1).size → blk fs.disk 1 k ≠ 0) ∧
    1 ≤ (node fs.disk 1).size := by
  obtain ⟨m, hm⟩ := Option.isSome_iff_exists.1 (show (Mkfs.mkfs (fun _ => 0) Mkfs.shell).isSome from by decide +kernel)
  have hl := layer_only hm
  obtain ⟨s, hb, rfl⟩ := Mkfs.mkfs_built hm
  refine ⟨_, hl.inv, hl.active, hl.mapped 1 (by decide), ?_⟩
  show 1 ≤ (node s.img 1).size
  rw [← content_length, hb.root]
  decide

theorem iread_exact_demo : ∃ fs, FsInv fs ∧ Active fs 0 1 ∧ ReadExact fs 0 1 1 (2 ^ 32 - 2) := by
  obtain ⟨fs, hi, ha, hm, -⟩ := reads_root
  exact ⟨fs, hi, ha, (iread_exact hi ha hm (by decide)).2 fun _ => by decide⟩

/-- A request for all that there is from the second byte on, with a length that wraps around. -/
theorem iread_stops : ¬ ∀ (fs : Fs) (i n off len : Nat), FsInv fs → Active fs i n →
    (∀ k, k * 4096 < (node fs.disk n).size → blk fs.disk n k ≠ 0) → off < 2 ^ 32 → len < 2 ^ 32 →
    ReadExact fs i n off len := by
  intro hall
  obtain ⟨fs, hi, ha, hm, h1⟩ := reads_root
  have hs : (node fs.disk 1).size ≤ 1036 * 4096 := by
    by_contra hs
    exact hm 1036 (by omega) (blk_big (Nat.le_refl _))
  have hnone : fs.iread 0 1 (2 ^ 32 - 1) = none := iread_wraps hi ha hs h1 (by decide) (by decide)
  have hr := (hall fs 0 1 1 (2 ^ 32 - 1) hi ha hm (by decide) (by decide)).reads h1
  rw [hnone] at hr
  cases hr

end TinyOS.Fs
