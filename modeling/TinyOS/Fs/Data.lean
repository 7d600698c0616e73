/-
`iread` and `iwrite`: the bytes of a file, which both copy loops reach block by block. On a disk
without holes reading changes nothing; writing replaces a range of bytes of one file.
-/
import TinyOS.Fs.Walk

namespace TinyOS.Fs

open TinyOS.Lib

variable {fs fs' : Fs} {m m' : Store} {i n k pos len : Nat} {buf : List UInt8}

/-! ## Contents -/

/-- `len` bytes of inode `n` from offset `o` on. -/
def bytesAt (m : Store) (n o len : Nat) : List UInt8 := (List.range len).map fun j => byteAt m n (o + j)

/-- The bytes of inode `n` up to its size. -/
def content (m : Store) (n : Nat) : List UInt8 := bytesAt m n 0 (node m n).size

/-- No file has a hole: every block below its size is there. -/
def Mapped (m : Store) : Prop := ∀ n < 1920, ∀ k, k * 4096 < (node m n).size → blk m n k ≠ 0

@[simp] theorem bytesAt_zero {o : Nat} : bytesAt m n o 0 = [] := rfl

@[simp] theorem bytesAt_length {o : Nat} : (bytesAt m n o len).length = len := by simp [bytesAt]

theorem bytesAt_getElem {o j : Nat} (h : j < (bytesAt m n o len).length) :
    (bytesAt m n o len)[j] = byteAt m n (o + j) := by simp [bytesAt]

@[simp] theorem content_length : (content m n).length = (node m n).size := by simp [content]

theorem content_getElem {o : Nat} (h : o < (content m n).length) : (content m n)[o] = byteAt m n o := by
  simp only [content, bytesAt_getElem, Nat.zero_add]

theorem bytesAt_add {o a b : Nat} : bytesAt m n o (a + b) = bytesAt m n o a ++ bytesAt m n (o + a) b := by
  simp [bytesAt, List.range_add, Function.comp_def, Nat.add_assoc]

theorem bytesAt_congr {o : Nat} (h : ∀ j < len, byteAt m' n (o + j) = byteAt m n (o + j)) :
    bytesAt m' n o len = bytesAt m n o len :=
  List.map_congr_left fun j hj => h j (List.mem_range.1 hj)

/-- Bytes inside one block. -/
theorem bytesAt_read {o w : Nat} (hb : blk m n k ≠ 0) (how : o + w ≤ 4096) :
    bytesAt m n (k * 4096 + o) w = m.read (blk m n k * 4096 + o) w := by
  refine List.ext_getElem (by simp) fun j h1 h2 => ?_
  rw [bytesAt_length] at h1
  have hdiv : (k * 4096 + o + j) / 4096 = k := by omega
  have hmod : (k * 4096 + o + j) % 4096 = o + j := by omega
  rw [bytesAt_getElem, Store.read_getElem, byteAt, hdiv, hmod, if_neg hb, Nat.add_assoc]

/-- Some bytes of the content. -/
theorem bytesAt_content {o l : Nat} (h : o + l ≤ (node m n).size) :
    bytesAt m n o l = ((content m n).drop o).take l := by
  refine List.ext_getElem (by simp; omega) fun j h1 h2 => ?_
  simp only [List.getElem_take, List.getElem_drop, content_getElem, bytesAt_getElem]

/-! ## Reading -/

theorem iwalk_mapped (hi : FsInv fs) (ha : Active fs i n) (h : blk fs.disk n k ≠ 0) :
    fs.iwalk i k = some (blk fs.disk n k, fs) := by
  have hk := lt_of_blk h
  rcases iwalk_run hi ha hk with ⟨-, hf⟩ | ⟨b, fs₁, hsome, hw⟩
  · have h12 : ¬ ((node fs.disk n).addrs 12 = 0 ∧ ∃ l ∈ ({k} : Finset Nat), 12 ≤ l) := by
      rintro ⟨h0, l, hl, hl12⟩
      rw [Finset.mem_singleton] at hl
      exact h (blk_none (hl ▸ hl12) h0)
    unfold need at hf
    rw [if_neg h12, Finset.filter_singleton, if_neg h] at hf
    simp at hf
  · obtain rfl := hw.same h
    rw [hsome, hw.blk]

/-- On mapped blocks the copy loop of `iread` delivers the bytes and changes nothing. -/
theorem ireadLoop_eq (hi : FsInv fs) (ha : Active fs i n) :
    ∀ {fuel no blkoff len : Nat}, len < fuel → blkoff < 4096 →
      (∀ k, no ≤ k → k * 4096 < no * 4096 + blkoff + len → blk fs.disk n k ≠ 0) →
      ireadLoop i fuel fs no blkoff len = some (bytesAt fs.disk n (no * 4096 + blkoff) len, fs)
  | 0, _, _, _, hf, _, _ => absurd hf (Nat.not_lt_zero _)
  | fuel + 1, no, blkoff, len, hf, hoff, hm => by
    unfold ireadLoop
    by_cases h0 : len = 0
    · rw [if_pos h0, h0]; rfl
    · have hb := hm no (Nat.le_refl _) (by omega)
      rw [if_neg h0, iwalk_mapped hi ha hb]
      simp only [Option.bind_eq_bind, Option.bind_some, blkSize]
      generalize hw : min (4096 - blkoff) len = w
      have hw1 : blkoff + w ≤ 4096 := by omega
      have hsplit : len = w + (len - w) := by omega
      have hrest : ireadLoop i fuel fs (no + 1) 0 (len - w) =
          some (bytesAt fs.disk n (no * 4096 + blkoff + w) (len - w), fs) := by
        by_cases hz : len - w = 0
        · rw [hz, ireadLoop_eq hi ha (by omega) (by omega) fun k h1 h2 => absurd h2 (by omega)]
          simp only [bytesAt_zero]
        · have hpos : no * 4096 + blkoff + w = (no + 1) * 4096 + 0 := by omega
          rw [hpos]
          refine ireadLoop_eq hi ha (by omega) (by decide) fun k h1 h2 => hm k (by omega) ?_
          rw [Nat.add_zero] at h2
          omega
      rw [bread_eq (by omega), Option.bind_some, hrest]
      conv_rhs => rw [hsplit, bytesAt_add, bytesAt_read hb hw1]
      rfl

/-- The copy loop of `iread` only succeeds within the largest file. -/
theorem ireadLoop_bound : ∀ {fuel no blkoff len : Nat} {fs fs' : Fs} {bs : List UInt8}, blkoff < 4096 →
    ireadLoop i fuel fs no blkoff len = some (bs, fs') → len = 0 ∨ no * 4096 + blkoff + len ≤ 1036 * 4096
  | 0, _, _, _, _, _, _, _, h => by cases h
  | fuel + 1, no, blkoff, len, fs, fs', bs, hoff, h => by
    unfold ireadLoop at h
    by_cases h0 : len = 0
    · exact Or.inl h0
    · rw [if_neg h0] at h
      have hno : no < 1036 := by
        by_contra hno
        rw [iwalk_big (by omega)] at h
        cases h
      obtain ⟨⟨b, fs₁⟩, -, h⟩ := Option.bind_eq_some_iff.1 h
      obtain ⟨bs₁, -, h⟩ := Option.bind_eq_some_iff.1 h
      obtain ⟨⟨bs₂, fs₂⟩, h, -⟩ := Option.bind_eq_some_iff.1 h
      rcases ireadLoop_bound (by decide) h with hl | hl <;> simp only [blkSize] at hl <;> omega

theorem Mapped.size_le (h : Mapped m) (hn : n < 1920) : (node m n).size ≤ 1036 * 4096 := by
  by_contra hs
  exact h n hn 1036 (by omega) (blk_big (Nat.le_refl _))

/-- What `iread` delivers, when it is defined: nothing changes. -/
theorem iread_some {off : Nat} {r : Option (List UInt8)} (hi : FsInv fs) (hm : Mapped fs.disk) (ha : Active fs i n)
    (h : fs.iread i off len = some (r, fs')) :
    fs' = fs ∧ r = if off > (node fs.disk n).size then none
      else some (bytesAt fs.disk n off (min len ((node fs.disk n).size - off))) := by
  unfold iread at h
  rw [hi.dinode ha] at h
  by_cases hoff : off > (node fs.disk n).size
  · simp only [if_pos hoff] at h ⊢
    cases h; exact ⟨rfl, rfl⟩
  · simp only [if_neg hoff, Option.bind_eq_bind] at h ⊢
    have hsize := hm.size_le (hi.lt ha)
    obtain ⟨⟨bs, fs₁⟩, h1, he⟩ := Option.bind_eq_some_iff.1 h
    cases he
    have hmod : off % 4096 < 4096 := Nat.mod_lt _ (by decide)
    simp only [blkSize] at h1
    have hpos : off / 4096 * 4096 + off % 4096 = off := by omega
    have hbound := ireadLoop_bound hmod h1
    have hlen : (if uint32 (off + len) > (node fs.disk n).size then (node fs.disk n).size - off else len) =
        min len ((node fs.disk n).size - off) := by
      unfold uint32 at hbound ⊢
      split
      · omega
      · next hs =>
        rw [if_neg hs] at hbound
        omega
    rw [hlen] at h1
    rw [ireadLoop_eq hi ha (by omega) hmod, hpos] at h1
    · cases h1; exact ⟨rfl, rfl⟩
    · intro k h1 h2
      exact hm n (hi.lt ha) k (by omega)

/-- `iread` succeeds on every request that does not wrap around. -/
theorem iread_eq {off : Nat} (hi : FsInv fs) (hm : Mapped fs.disk) (ha : Active fs i n)
    (hoff : off ≤ (node fs.disk n).size) (hw : off + len < 2 ^ 32) :
    fs.iread i off len = some (some (bytesAt fs.disk n off (min len ((node fs.disk n).size - off))), fs) := by
  have hmod : off % 4096 < 4096 := Nat.mod_lt _ (by decide)
  unfold iread
  simp only [hi.dinode ha]
  rw [if_neg (by omega), uint32_of_lt hw]
  have hlen : (if off + len > (node fs.disk n).size then (node fs.disk n).size - off else len) =
      min len ((node fs.disk n).size - off) := by split <;> omega
  simp only [hlen, blkSize]
  rw [ireadLoop_eq hi ha (by omega) hmod fun k h1 h2 => hm n (hi.lt ha) k (by omega)]
  simp only [Option.bind_eq_bind, Option.bind_some]
  rw [show off / 4096 * 4096 + off % 4096 = off by omega]
  rfl

/-! ## Writing -/

/-- The bytes that writing `buf` at `pos` puts. -/
def patch (pos : Nat) (buf : List UInt8) (o : Nat) : Option UInt8 := if pos ≤ o then buf[o - pos]? else none

theorem patch_nil (o : Nat) : patch pos [] o = none := by simp [patch]

theorem patch_in {o : Nat} (h1 : pos ≤ o) (h2 : o < pos + buf.length) :
    patch pos buf o = some (buf.getD (o - pos) 0) := by
  rw [patch, if_pos h1, List.getD_eq_getElem _ _ (by omega), List.getElem?_eq_getElem]

theorem patch_out {o : Nat} (h : o < pos ∨ pos + buf.length ≤ o) : patch pos buf o = none := by
  unfold patch
  split
  · exact List.getElem?_eq_none (by omega)
  · rfl

/-- Writing in two pieces. -/
theorem patch_append (w : Nat) (o : Nat) :
    (patch (pos + w) (buf.drop w) o <|> patch pos (buf.take w) o) = patch pos buf o := by
  by_cases h1 : pos ≤ o
  · by_cases h2 : o < pos + w
    · rw [patch_out (Or.inl h2), patch, patch, if_pos h1, if_pos h1, List.getElem?_take, if_pos (by omega)]
      rfl
    · rw [patch_out (Or.inr (show pos + (buf.take w).length ≤ o by simp; omega)), patch, patch, if_pos h1,
        if_pos (by omega), List.getElem?_drop, show w + (o - (pos + w)) = o - pos by omega]
      cases buf[o - pos]? <;> rfl
  · rw [patch_out (Or.inl (by omega)), patch_out (Or.inl (by omega)), patch_out (Or.inl (by omega))]
    rfl

/-- Writing inside a data block of the file. -/
theorem bwrite_data (buf : List UInt8) {o : Nat} (hi : FsInv fs) (ha : Active fs i n) (hb : blk fs.disk n k ≠ 0)
    (ho : o + buf.length ≤ 4096) :
    ∃ fs', fs.bwrite buf (blk fs.disk n k) o = some fs' ∧ Grow i n (patch (k * 4096 + o) buf) fs fs' ∧
      (∀ j < 1920, ∀ l, blk fs'.disk j l = blk fs.disk j l) ∧ node fs'.disk n = node fs.disk n ∧
      freeBlks fs'.disk = freeBlks fs.disk := by
  have hn := hi.lt ha
  have hold : holds fs.disk (.data n k) (blk fs.disk n k) := ⟨hn, hb, rfl⟩
  have hd := hi.owned.dataBlk hold
  generalize hbe : blk fs.disk n k = b at hb hold hd
  have h64 := hd.1
  generalize hm : fs.disk.write (b * 4096 + o) buf = m'
  have hout : ∀ x, x < b * 4096 + o ∨ b * 4096 + o + buf.length ≤ x → m' x = fs.disk x := fun x hx => by
    rw [← hm]; exact Store.write_out hx
  have hnode : ∀ j < 1920, node m' j = node fs.disk j := fun j hj => node_congr fun r hr => hout _ (by omega)
  have hbits : ∀ c < 32768, bit m' c = bit fs.disk c := fun c hc => bit_congr (hout _ (by omega))
  -- a block that another place names is not touched
  have hkeep : ∀ s c, holds fs.disk s c → s ≠ .data n k → ∀ r < 4096, m' (c * 4096 + r) = fs.disk (c * 4096 + r) := by
    intro s c hs hne r hr
    have hcb : c ≠ b := fun he => hne (hi.owned.own.inj _ _ _ (he ▸ hs) hold)
    exact hout _ (by omega)
  have hblk : ∀ j < 1920, ∀ l, blk m' j l = blk fs.disk j l := fun j hj l =>
    blk_congr (fun r _ => by rw [hnode j hj]) fun h0 r hr =>
      ent_congr hr (hkeep (.indirect j) _ ⟨hj, h0, rfl⟩ (by simp))
  have howned : Owned m' := hi.owned.congr hbits hblk (fun j hj => by rw [hnode j hj]) fun j hj => by
    rw [hnode j hj]; exact hi.owned.none j hj
  refine ⟨{ fs with disk := m' }, by rw [bwrite_eq (by omega), hm], ⟨⟨hi.sb, howned, ?_⟩, ?_, ?_,
    fun j hj _ => hnode j hj,
    fun j hj l _ => hblk j hj l, fun j hj _ l => hblk j hj l, fun j hj x => ?_⟩, hblk, hnode n hn, ?_⟩
  · refine ⟨hi.table.ref, hi.table.small, hi.table.no, fun j hj => ?_, hi.table.uniq⟩
    rw [hnode _ (hi.table.no j hj).2]; exact hi.table.same j hj
  · show fs.inodes = Function.update fs.inodes i { fs.inodes i with dinode := node m' n }
    rw [hnode n hn, ← hi.dinode ha, Function.update_eq_self]
  · show node m' n = { node fs.disk n with addrs := (node m' n).addrs }
    rw [hnode n hn]
  · show byteAt m' j x = if j = n then (patch (k * 4096 + o) buf x).getD (byteAt fs.disk j x) else byteAt fs.disk j x
    by_cases hs : Slot.data j (x / 4096) = .data n k
    · obtain ⟨rfl, hk⟩ := Slot.data.inj hs
      rw [if_pos rfl, byteAt, byteAt, hblk j hj, hk, hbe, if_neg hb, if_neg hb]
      by_cases hx : k * 4096 + o ≤ x ∧ x < k * 4096 + o + buf.length
      · rw [patch_in hx.1 hx.2, ← hm, Store.write_in (by omega) (by omega)]
        show buf.getD (b * 4096 + x % 4096 - (b * 4096 + o)) 0 = buf.getD (x - (k * 4096 + o)) 0
        congr 1
        omega
      · rw [patch_out (by omega), hout _ (by omega)]; rfl
    · have hsame : byteAt m' j x = byteAt fs.disk j x :=
        byteAt_congr (hblk j hj _) fun h0 => hkeep (.data j (x / 4096)) _ ⟨hj, h0, rfl⟩ hs
      rw [hsame]
      split
      · next hjn =>
        subst hjn
        have hk : x / 4096 ≠ k := fun he => hs (by rw [he])
        rw [patch_out (by omega)]; rfl
      · rfl
  · have hset : ((Finset.range 32768).filter fun c => bit m' c = false) =
        (Finset.range 32768).filter fun c => bit fs.disk c = false :=
      Finset.filter_congr fun c hc => by rw [hbits c (Finset.mem_range.1 hc)]
    unfold freeBlks
    exact congrArg Finset.card hset

/-- The blocks of a file in which the bytes `[pos, pos + len)` lie. -/
def touched (pos len : Nat) : Finset Nat := (Finset.Ico pos (pos + len)).image (· / 4096)

theorem mem_touched : k ∈ touched pos len ↔ ∃ o, pos ≤ o ∧ o < pos + len ∧ o / 4096 = k := by
  simp [touched, and_assoc]

/-- What the copy loop of `iwrite` did: the bytes are in the file and their blocks are there. -/
structure Copied (i n pos : Nat) (buf : List UInt8) (fs fs' : Fs) : Prop where
  grow : Grow i n (patch pos buf) fs fs'
  mapped : ∀ k ∈ touched pos buf.length, blk fs'.disk n k ≠ 0

theorem copied_nil (hi : FsInv fs) (ha : Active fs i n) : Copied i n pos [] fs fs where
  grow := by
    have h := Grow.refl hi ha
    refine ⟨h.inv, h.inodes, h.self, h.other, h.blks, h.only, fun j hj o => ?_⟩
    rw [patch_nil]; simp
  mapped k hk := by simp [touched] at hk

/-- A round of the copy loop: it fails for want of blocks, or the bytes for this block are copied. -/
theorem iwriteLoop_succ (fuel : Nat) {blkoff : Nat} (hi : FsInv fs) (ha : Active fs i n) (hk : pos / 4096 = k)
    (hoff : pos % 4096 = blkoff) (hbuf : buf.length ≠ 0) :
    (iwriteLoop i (fuel + 1) fs k blkoff buf = none ∧
      (1036 ≤ k ∨ freeBlks fs.disk < need fs.disk n (touched pos buf.length))) ∨
    ∃ fs₁ w, w = min (4096 - blkoff) buf.length ∧ k < 1036 ∧
      iwriteLoop i (fuel + 1) fs k blkoff buf = iwriteLoop i fuel fs₁ (k + 1) 0 (buf.drop w) ∧
      Copied i n pos (buf.take w) fs fs₁ ∧
      need fs₁.disk n (touched (pos + w) (buf.drop w).length) + freeBlks fs.disk ≤
        need fs.disk n (touched pos buf.length) + freeBlks fs₁.disk := by
  have hpos : k * 4096 + blkoff = pos := by omega
  rw [iwriteLoop, if_neg hbuf]
  have hmem : k ∈ touched pos buf.length := mem_touched.2 ⟨pos, le_rfl, by omega, hk⟩
  by_cases hbig : 1036 ≤ k
  · rw [iwalk_big hbig]
    exact Or.inl ⟨rfl, Or.inl hbig⟩
  rcases iwalk_run hi ha (Nat.lt_of_not_le hbig) with ⟨hnone, hf⟩ | ⟨b, fs₁, hsome, hw⟩
  · rw [hnone]
    exact Or.inl ⟨rfl, Or.inr (Nat.lt_of_lt_of_le hf (need_mono (Finset.singleton_subset_iff.2 hmem)))⟩
  · generalize hwe : min (4096 - blkoff) buf.length = w
    have hlen : (buf.take w).length = w := by rw [List.length_take]; omega
    have hlen' : w + (buf.drop w).length = buf.length := by rw [List.length_drop]; omega
    have hbk : blk fs₁.disk n k ≠ 0 := by rw [hw.blk]; exact hw.pos
    obtain ⟨fs₂, hwr, hg, hblk, hnode, hfree⟩ := bwrite_data (buf.take w) hw.grow.inv (hw.grow.active ha) hbk
      (show blkoff + _ ≤ _ by omega)
    rw [hw.blk] at hwr
    rw [hpos] at hg
    refine Or.inr ⟨fs₂, w, rfl, hw.lt, ?_, ⟨?_, fun l hl => ?_⟩, ?_⟩
    · simp only [hsome, Option.bind_eq_bind, Option.bind_some, hwr]
    · have h := hw.grow.trans hg
      refine ⟨h.inv, h.inodes, h.self, h.other, h.blks, h.only, fun j hj o => ?_⟩
      rw [h.bytes j hj]
      cases patch pos (buf.take w) o <;> rfl
    · obtain ⟨o, h1, h2, rfl⟩ := mem_touched.1 hl
      have hok : o / 4096 = k := by clear hpos; omega
      rw [hblk n (hi.lt ha), hok]
      exact hbk
    · have h1 := hw.need _ hmem
      have hsub : touched (pos + w) (buf.drop w).length ⊆ (touched pos buf.length).erase k := by
        intro l hl
        obtain ⟨o, h2, h3, rfl⟩ := mem_touched.1 hl
        clear hpos
        exact Finset.mem_erase.2 ⟨by omega, mem_touched.2 ⟨o, by omega, by omega, rfl⟩⟩
      have h2 : need fs₂.disk n (touched (pos + w) (buf.drop w).length) =
          need fs₁.disk n (touched (pos + w) (buf.drop w).length) :=
        need_congr (hblk n (hi.lt ha)) (by rw [hnode])
      have h3 := need_mono (m := fs₁.disk) (n := n) hsub
      omega

theorem Copied.append {w : Nat} {fs'' : Fs} (hn : n < 1920) (hw : w ≤ buf.length)
    (h1 : Copied i n pos (buf.take w) fs fs') (h2 : Copied i n (pos + w) (buf.drop w) fs' fs'') :
    Copied i n pos buf fs fs'' where
  grow := by
    have h := h1.grow.trans h2.grow
    simp only [patch_append] at h
    exact h
  mapped k hk := by
    obtain ⟨o, ho1, ho2, rfl⟩ := mem_touched.1 hk
    by_cases ho : o < pos + w
    · have hm := h1.mapped (o / 4096) (mem_touched.2 ⟨o, ho1, by rw [List.length_take]; omega, rfl⟩)
      rw [h2.grow.blks n hn _ hm]
      exact hm
    · exact h2.mapped _ (mem_touched.2 ⟨o, by omega, by rw [List.length_drop]; omega, rfl⟩)

/-- The copy loop of `iwrite`, when it succeeds. -/
theorem iwriteLoop_some : ∀ {fuel k blkoff pos : Nat} {buf : List UInt8} {fs fs' : Fs}, FsInv fs → Active fs i n →
    pos / 4096 = k → (pos % 4096 = blkoff) → iwriteLoop i fuel fs k blkoff buf = some fs' →
    Copied i n pos buf fs fs' ∧ (buf = [] ∨ pos + buf.length ≤ 1036 * 4096)
  | 0, _, _, _, _, _, _, _, _, _, _, h => by cases h
  | fuel + 1, k, blkoff, pos, buf, fs, fs', hi, ha, hk, hoff, h => by
    by_cases hbuf : buf.length = 0
    · obtain rfl := List.eq_nil_of_length_eq_zero hbuf
      unfold iwriteLoop at h
      rw [if_pos hbuf] at h
      cases h
      exact ⟨copied_nil hi ha, Or.inl rfl⟩
    · rcases iwriteLoop_succ fuel hi ha hk hoff hbuf with ⟨hnone, -⟩ | ⟨fs₁, w, hw, hlt, heq, hc, -⟩
      · rw [hnone] at h; cases h
      · rw [heq] at h
        have hwle : w ≤ buf.length := by omega
        by_cases hlast : w = buf.length
        · have hnil : buf.drop w = [] := by rw [hlast, List.drop_length]
          cases fuel with
          | zero => cases h
          | succ fuel =>
            rw [hnil, iwriteLoop, if_pos List.length_nil] at h
            cases h
            refine ⟨hc.append (hi.lt ha) hwle ?_, Or.inr (by omega)⟩
            rw [hnil]
            exact copied_nil hc.grow.inv (hc.grow.active ha)
        · obtain ⟨h1, h2⟩ := iwriteLoop_some hc.grow.inv (hc.grow.active ha)
            (show (pos + w) / 4096 = _ by omega) (by omega) h
          refine ⟨hc.append (hi.lt ha) hwle h1, Or.inr ?_⟩
          have hlen : w + (buf.drop w).length = buf.length := by rw [List.length_drop]; omega
          rcases h2 with h2 | h2
          · rw [h2] at hlen
            exact absurd hlen hlast
          · omega

/-- The copy loop of `iwrite` succeeds when there are blocks enough. -/
theorem iwriteLoop_isSome : ∀ {fuel k blkoff pos : Nat} {buf : List UInt8} {fs : Fs}, FsInv fs → Active fs i n →
    pos / 4096 = k → (pos % 4096 = blkoff) → buf.length < fuel → pos + buf.length ≤ 1036 * 4096 →
    need fs.disk n (touched pos buf.length) ≤ freeBlks fs.disk → (iwriteLoop i fuel fs k blkoff buf).isSome
  | 0, _, _, _, _, _, _, _, _, _, hf, _, _ => absurd hf (Nat.not_lt_zero _)
  | fuel + 1, k, blkoff, pos, buf, fs, hi, ha, hk, hoff, hf, hmax, hneed => by
    by_cases hbuf : buf.length = 0
    · unfold iwriteLoop
      rw [if_pos hbuf]; rfl
    · rcases iwriteLoop_succ fuel hi ha hk hoff hbuf with ⟨-, hbad⟩ | ⟨fs₁, w, hw, hlt, heq, hc, hn⟩
      · omega
      · rw [heq]
        by_cases hlast : w = buf.length
        · have hnil : buf.drop w = [] := by rw [hlast, List.drop_length]
          rw [hnil]
          cases fuel with
          | zero => omega
          | succ fuel => rw [iwriteLoop]; rfl
        · have hlen : w + (buf.drop w).length = buf.length := by rw [List.length_drop]; omega
          exact iwriteLoop_isSome hc.grow.inv (hc.grow.active ha) (by omega) (by omega) (by omega) (by omega)
            (show need fs₁.disk n (touched (pos + w) (buf.drop w).length) ≤ _ by omega)

/-- The copy loop of `iwrite` takes no more blocks than were missing. -/
theorem iwriteLoop_free : ∀ {fuel k blkoff pos : Nat} {buf : List UInt8} {fs fs' : Fs}, FsInv fs → Active fs i n →
    pos / 4096 = k → (pos % 4096 = blkoff) → iwriteLoop i fuel fs k blkoff buf = some fs' →
    freeBlks fs.disk ≤ need fs.disk n (touched pos buf.length) + freeBlks fs'.disk
  | 0, _, _, _, _, _, _, _, _, _, _, h => by cases h
  | fuel + 1, k, blkoff, pos, buf, fs, fs', hi, ha, hk, hoff, h => by
    by_cases hbuf : buf.length = 0
    · unfold iwriteLoop at h
      rw [if_pos hbuf] at h
      cases h
      exact Nat.le_add_left _ _
    · rcases iwriteLoop_succ fuel hi ha hk hoff hbuf with ⟨hnone, -⟩ | ⟨fs₁, w, hw, hlt, heq, hc, hn⟩
      · rw [hnone] at h; cases h
      · rw [heq] at h
        by_cases hlast : w = buf.length
        · have hnil : buf.drop w = [] := by rw [hlast, List.drop_length]
          rw [hnil] at h
          cases fuel with
          | zero => cases h
          | succ fuel =>
            rw [iwriteLoop, if_pos List.length_nil] at h
            cases h
            omega
        · have := iwriteLoop_free hc.grow.inv (hc.grow.active ha) (show (pos + w) / 4096 = _ by omega) (by omega) h
          omega

/-- What `iwrite` did to inode `n` in slot `i`. -/
structure Wrote (i n off : Nat) (buf : List UInt8) (fs fs' : Fs) : Prop where
  inv : FsInv fs'
  inodes : fs'.inodes = Function.update fs.inodes i { fs.inodes i with dinode := node fs'.disk n }
  self : node fs'.disk n = { node fs.disk n with
    size := max (node fs.disk n).size (off + buf.length), addrs := (node fs'.disk n).addrs }
  other : ∀ j < 1920, j ≠ n → node fs'.disk j = node fs.disk j
  blks : ∀ j < 1920, ∀ k, blk fs.disk j k ≠ 0 → blk fs'.disk j k = blk fs.disk j k
  mapped : ∀ k ∈ touched off buf.length, blk fs'.disk n k ≠ 0
  bytes : ∀ j < 1920, ∀ o, byteAt fs'.disk j o =
    if j = n then (patch off buf o).getD (byteAt fs.disk j o) else byteAt fs.disk j o

/-- The size that `iwrite` sets before it copies. -/
theorem grow_size (hi : FsInv fs) (ha : Active fs i n) {s : Nat} (hs : s < 2 ^ 32) :
    ∃ fs₁, (fs.setDinode i { node fs.disk n with size := s }).iupdate i = some fs₁ ∧ FsInv fs₁ ∧ Active fs₁ i n ∧
      fs₁.inodes = Function.update fs.inodes i { fs.inodes i with dinode := node fs₁.disk n } ∧
      NodeSet fs.disk n { node fs.disk n with size := s } fs₁.disk := by
  have hn := hi.lt ha
  have hfit : ({ node fs.disk n with size := s } : Dinode).Fits := ⟨node_fits.type, node_fits.device, hs,
    node_fits.addrs, node_fits.outside⟩
  obtain ⟨m', h1, h2⟩ := iupdate_eq hi.sb ha.no hn hfit
  have hin : Function.update fs.inodes i { fs.inodes i with dinode := { node fs.disk n with size := s } } =
      Function.update fs.inodes i { fs.inodes i with dinode := node m' n } := by rw [h2.self]
  refine ⟨_, h1, ⟨hi.sb, ?_, hi.table.step ha.ref ha.no hin fun j hj hne => h2.other j hne hj⟩, ⟨?_, ?_, ?_⟩, hin, h2⟩
  · exact h2.owned rfl hi.owned fun hz => absurd hz ha.type
  · show 0 < (Function.update fs.inodes i _ i).ref
    rw [Function.update_self]; exact ha.ref
  · show (Function.update fs.inodes i _ i).no = n
    rw [Function.update_self]; exact ha.no
  · show (node m' n).type ≠ typeNone
    rw [h2.self]; exact ha.type

theorem Copied.wrote {off : Nat} (h : Copied i n off buf fs fs')
    (hs : off + buf.length ≤ (node fs.disk n).size) : Wrote i n off buf fs fs' where
  inv := h.grow.inv
  inodes := h.grow.inodes
  self := by rw [Nat.max_eq_left hs]; exact h.grow.self
  other := h.grow.other
  blks := h.grow.blks
  mapped := h.mapped
  bytes := h.grow.bytes

theorem Wrote.append {off w : Nat} {fs'' : Fs} (hw : w ≤ buf.length)
    (h1 : Wrote i n off (buf.take w) fs fs') (h2 : Wrote i n (off + w) (buf.drop w) fs' fs'') (hn : n < 1920) :
    Wrote i n off buf fs fs'' where
  inv := h2.inv
  inodes := by rw [h2.inodes, h1.inodes, Function.update_self, Function.update_idem]
  self := by
    have hmax : max (max (node fs.disk n).size (off + (buf.take w).length)) (off + w + (buf.drop w).length) =
        max (node fs.disk n).size (off + buf.length) := by rw [List.length_take, List.length_drop]; omega
    rw [h2.self, h1.self, ← hmax]
  other j hj hne := (h2.other j hj hne).trans (h1.other j hj hne)
  blks j hj k h0 := by
    have h' := h1.blks j hj k h0
    rw [← h', h2.blks j hj k (by rw [h']; exact h0)]
  mapped k hk := by
    obtain ⟨o, ho1, ho2, rfl⟩ := mem_touched.1 hk
    by_cases ho : o < off + w
    · have hm := h1.mapped (o / 4096) (mem_touched.2 ⟨o, ho1, by rw [List.length_take]; omega, rfl⟩)
      rw [h2.blks n hn _ hm]
      exact hm
    · exact h2.mapped _ (mem_touched.2 ⟨o, by omega, by rw [List.length_drop]; omega, rfl⟩)
  bytes j hj o := by
    have hsplit : (patch (off + w) (buf.drop w) o <|> patch off (buf.take w) o) = patch off buf o := patch_append w o
    rw [h2.bytes j hj, h1.bytes j hj, ← hsplit]
    by_cases hjn : j = n
    · rw [if_pos hjn, if_pos hjn, if_pos hjn]
      cases patch (off + w) (buf.drop w) o <;> rfl
    · rw [if_neg hjn, if_neg hjn, if_neg hjn]

/-- What `iwrite` does, when it is defined. -/
theorem iwrite_some {off : Nat} {r : Option Nat} (hi : FsInv fs) (hm : Mapped fs.disk) (ha : Active fs i n)
    (h : fs.iwrite i off buf = some (r, fs')) :
    ((node fs.disk n).size < off ∧ r = none ∧ fs' = fs) ∨
    (off ≤ (node fs.disk n).size ∧ r = some buf.length ∧ Wrote i n off buf fs fs') := by
  have hn := hi.lt ha
  have hsize := hm.size_le hn
  unfold iwrite at h
  simp only [hi.dinode ha, Option.bind_eq_bind, blkSize] at h
  by_cases hoff : off > (node fs.disk n).size
  · rw [if_pos hoff] at h
    cases h; exact Or.inl ⟨hoff, rfl, rfl⟩
  rw [if_neg hoff] at h
  have hoff' := Nat.le_of_not_lt hoff
  by_cases hs : uint32 (off + buf.length) > (node fs.disk n).size
  · obtain ⟨fs₁, h1, hi1, ha1, hin, hset⟩ := grow_size hi ha (uint32_lt (off + buf.length))
    rw [if_pos hs, h1, Option.bind_some] at h
    obtain ⟨fs₂, h2, he⟩ := Option.bind_eq_some_iff.1 h
    cases he
    obtain ⟨hc, hlen⟩ := iwriteLoop_some hi1 ha1 rfl rfl h2
    have hmod : uint32 (off + buf.length) = off + buf.length := by
      rcases hlen with rfl | hlen
      · exact absurd hs (by unfold uint32; simp only [List.length_nil]; omega)
      · exact uint32_of_lt (by omega)
    rw [hmod] at hset hs
    refine Or.inr ⟨hoff', rfl, hc.grow.inv, ?_, ?_, fun j hj hne => ?_, fun j hj k h0 => ?_,
      hc.mapped, fun j hj o => ?_⟩
    · rw [hc.grow.inodes, hin, Function.update_self, Function.update_idem]
    · rw [hc.grow.self, hset.self, Nat.max_eq_right (by omega)]
    · rw [hc.grow.other j hj hne, hset.other j hne hj]
    · have hb := hset.blk rfl hi.owned hj k
      rw [← hb]
      exact hc.grow.blks j hj k (by rw [hb]; exact h0)
    · rw [hc.grow.bytes j hj, hset.byteAt rfl hi.owned hj]
  · rw [if_neg hs, Option.pure_def, Option.bind_some] at h
    obtain ⟨fs₂, h2, he⟩ := Option.bind_eq_some_iff.1 h
    cases he
    obtain ⟨hc, hlen⟩ := iwriteLoop_some hi ha rfl rfl h2
    refine Or.inr ⟨hoff', rfl, hc.wrote ?_⟩
    rcases hlen with rfl | hlen
    · exact hoff'
    · rw [uint32_of_lt (by omega)] at hs
      omega

theorem NodeSet.freeBlks {d : Dinode} (h : NodeSet m n d m') : freeBlks m' = freeBlks m := by
  unfold Fs.freeBlks
  exact congrArg Finset.card (Finset.filter_congr fun c hc => by rw [h.bit (Finset.mem_range.1 hc)])

/-- `iwrite` succeeds when there are blocks enough. -/
theorem iwrite_isSome {off : Nat} (hi : FsInv fs) (ha : Active fs i n) (hoff : off ≤ (node fs.disk n).size)
    (hmax : off + buf.length ≤ 1036 * 4096) (hneed : need fs.disk n (touched off buf.length) ≤ freeBlks fs.disk) :
    (fs.iwrite i off buf).isSome := by
  unfold iwrite
  simp only [hi.dinode ha, Option.bind_eq_bind, blkSize]
  rw [if_neg (by omega), uint32_of_lt (by omega)]
  by_cases hs : off + buf.length > (node fs.disk n).size
  · obtain ⟨fs₃, h3, hi3, ha3, -, hset⟩ := grow_size hi ha (show off + buf.length < 2 ^ 32 by omega)
    rw [if_pos hs, h3]
    have hneed' : need fs₃.disk n (touched off buf.length) = need fs.disk n (touched off buf.length) :=
      need_congr (hset.blk rfl hi.owned (hi.lt ha)) (by rw [hset.addrs rfl (hi.lt ha)])
    obtain ⟨fs₄, h4⟩ := Option.isSome_iff_exists.1
      (iwriteLoop_isSome hi3 ha3 rfl rfl (Nat.lt_succ_self _) hmax (by rw [hneed', hset.freeBlks]; exact hneed))
    simp only [Option.bind_some, h4]
    rfl
  · rw [if_neg hs]
    obtain ⟨fs₄, h4⟩ := Option.isSome_iff_exists.1
      (iwriteLoop_isSome hi ha rfl rfl (Nat.lt_succ_self _) hmax hneed)
    show ((some fs).bind fun fs => _).isSome
    simp only [Option.bind_some, h4]
    rfl

/-- `iwrite` takes no more blocks than were missing. -/
theorem iwrite_free {off : Nat} {r : Option Nat} (hi : FsInv fs) (ha : Active fs i n)
    (h : fs.iwrite i off buf = some (r, fs')) :
    freeBlks fs.disk ≤ need fs.disk n (touched off buf.length) + freeBlks fs'.disk := by
  unfold iwrite at h
  simp only [hi.dinode ha, Option.bind_eq_bind, blkSize] at h
  by_cases hoff : off > (node fs.disk n).size
  · rw [if_pos hoff] at h
    cases h
    exact Nat.le_add_left _ _
  rw [if_neg hoff] at h
  by_cases hs : uint32 (off + buf.length) > (node fs.disk n).size
  · obtain ⟨fs₁, h1, hi1, ha1, hin, hset⟩ := grow_size hi ha (uint32_lt (off + buf.length))
    rw [if_pos hs, h1, Option.bind_some] at h
    obtain ⟨fs₂, h2, he⟩ := Option.bind_eq_some_iff.1 h
    cases he
    have := iwriteLoop_free hi1 ha1 rfl rfl h2
    rw [hset.freeBlks, need_congr (hset.blk rfl hi.owned (hi.lt ha)) (by rw [hset.self])] at this
    exact this
  · rw [if_neg hs, Option.pure_def, Option.bind_some] at h
    obtain ⟨fs₂, h2, he⟩ := Option.bind_eq_some_iff.1 h
    cases he
    exact iwriteLoop_free hi ha rfl rfl h2

/-- Writing keeps files free of holes. -/
theorem Wrote.mapped_all {off : Nat} (h : Wrote i n off buf fs fs') (hm : Mapped fs.disk)
    (hoff : off ≤ (node fs.disk n).size) : Mapped fs'.disk := by
  intro j hj k hk
  by_cases hjn : j = n
  · subst hjn
    rw [h.self] at hk
    by_cases hold : k * 4096 < (node fs.disk j).size
    · have h0 := hm j hj k hold
      rw [h.blks j hj k h0]; exact h0
    · refine h.mapped k (mem_touched.2 ⟨k * 4096, by omega, ?_, by omega⟩)
      rcases Nat.le_total (node fs.disk j).size (off + buf.length) with hle | hle
      · rw [Nat.max_eq_right hle] at hk; exact hk
      · rw [Nat.max_eq_left hle] at hk; exact absurd hk hold
  · rw [h.other j hj hjn] at hk
    have h0 := hm j hj k hk
    rw [h.blks j hj k h0]; exact h0

theorem Wrote.active {off : Nat} (h : Wrote i n off buf fs fs') (ha : Active fs i n) : Active fs' i n where
  ref := by rw [h.inodes, Function.update_self]; exact ha.ref
  no := by rw [h.inodes, Function.update_self]; exact ha.no
  type := by rw [h.self]; exact ha.type

/-- The content of the file that was written: a range of it replaced. -/
theorem Wrote.content {off : Nat} (h : Wrote i n off buf fs fs') (hn : n < 1920) (hoff : off ≤ (node fs.disk n).size) :
    content fs'.disk n =
      (content fs.disk n).take off ++ buf ++ (content fs.disk n).drop (off + buf.length) := by
  have hsize : (node fs'.disk n).size = max (node fs.disk n).size (off + buf.length) := by rw [h.self]
  have htake : ((Fs.content fs.disk n).take off).length = off := by rw [List.length_take, content_length]; omega
  refine List.ext_getElem ?_ fun o h1 h2 => ?_
  · simp only [content_length, List.length_append, htake, List.length_drop]
    omega
  · rw [content_length, hsize] at h1
    rw [content_getElem, h.bytes n hn, if_pos rfl]
    by_cases hlo : o < off
    · rw [patch_out (Or.inl hlo), List.getElem_append_left (by rw [List.length_append, htake]; omega),
        List.getElem_append_left (by rw [htake]; exact hlo)]
      simp only [List.getElem_take, content_getElem, Option.getD_none]
    · by_cases hhi : o < off + buf.length
      · rw [patch_in (by omega) hhi, List.getElem_append_left (by rw [List.length_append, htake]; exact hhi),
          List.getElem_append_right (by rw [htake]; omega)]
        simp only [htake, Option.getD_some]
        exact List.getD_eq_getElem _ _ (by omega)
      · rw [patch_out (Or.inr (by omega)), List.getElem_append_right (by rw [List.length_append, htake]; omega)]
        simp only [List.length_append, htake, List.getElem_drop, content_getElem, Option.getD_none]
        rw [show off + buf.length + (o - (off + buf.length)) = o by omega]

end TinyOS.Fs
