/-
When mkfs succeeds: the blocks that files of given sizes take, and that files which fit into the
inodes and the blocks of the disk make an image.
-/
import TinyOS.Fs.Image

namespace TinyOS.Mkfs

open TinyOS.Lib TinyOS.Fs

variable {s s' : Img} {m : Store} {n k b pos : Nat} {buf : List UInt8}

/-- The blocks that a file of `size` bytes takes, an indirect block counted. -/
def blocks (size : Nat) : Nat := (size + 4095) / 4096 + if 12 * 4096 < size then 1 else 0

theorem blocks_mono {a b : Nat} (h : a ≤ b) : blocks a ≤ blocks b := by
  unfold blocks
  split <;> split <;> omega

/-- The bytes that are added within a block do not need more than the first of them. -/
theorem blocks_round {w : Nat} (h0 : 0 < w) (hw : pos % 4096 + w ≤ 4096) : blocks (pos + w) = blocks (pos + 1) := by
  unfold blocks
  have h1 : (pos + w + 4095) / 4096 = (pos + 1 + 4095) / 4096 := by omega
  have h2 : 12 * 4096 < pos + w ↔ 12 * 4096 < pos + 1 := by omega
  rw [h1]
  simp only [h2]

/-- A byte behind a block boundary needs a block, and the first one behind the direct blocks two. -/
theorem blocks_succ : blocks (pos + 1) =
    blocks pos + (if pos % 4096 = 0 then 1 else 0) + if pos = 12 * 4096 then 1 else 0 := by
  unfold blocks
  split <;> split <;> split <;> split <;> omega

/-! ## One block more -/

theorem balloc_fits (h : s.nextBlk < 32768) : ∃ m', s.balloc = some (s.nextBlk, ⟨m', s.nextBlk + 1, s.nextInode⟩) := by
  obtain ⟨m', h1, -⟩ := balloc_eq h
  exact ⟨m', h1⟩

/-- The part of `iwalk` behind the indirect block takes a block where there is none. -/
theorem walkEntry_fits {p : Nat} (hp : 64 ≤ p) (h64 : 64 ≤ s.nextBlk)
    (hw : s.img.word (p * 4096 + k * 4) ≠ 0 → 64 ≤ s.img.word (p * 4096 + k * 4))
    (hfit : s.nextBlk + (if s.img.word (p * 4096 + k * 4) = 0 then 1 else 0) ≤ 32768) :
    ∃ a s', walkEntry s p k = some (a, s') ∧
      s'.nextBlk = s.nextBlk + if s.img.word (p * 4096 + k * 4) = 0 then 1 else 0 := by
  unfold walkEntry
  simp only [Option.bind_eq_bind, bget_eq (show 32 ≤ p by omega), Option.bind_some]
  by_cases h0 : s.img.word (p * 4096 + k * 4) = 0
  · rw [if_pos h0] at hfit ⊢
    obtain ⟨m', hb⟩ := balloc_fits (s := s) (by omega)
    simp only [hb, Option.pure_def, Option.bind_some, bget_eq (show 32 ≤ s.nextBlk by omega)]
    exact ⟨_, _, rfl, if_pos h0 ▸ rfl⟩
  · have hge := hw h0
    simp only [if_neg h0, Option.pure_def, Option.bind_some, bget_eq (show 32 ≤ s.img.word (p * 4096 + k * 4) by omega)]
    exact ⟨_, _, rfl, rfl⟩

/-- `iwalk` at the end of a file finds the block, or there is a block left for it. -/
theorem iwalk_fits (h : ImgInv s) (hn : Building s n) (hsize : (node s.img n).size = pos) (hk : pos / 4096 < 1036)
    (hfit : s.nextBlk + (blocks (pos + 1) - blocks pos) ≤ 32768) :
    ∃ a s', s.iwalk n (pos / 4096) = some (a, s') ∧ s'.nextBlk ≤ s.nextBlk + (blocks (pos + 1) - blocks pos) := by
  have hlt := h.lt hn
  have h64 := h.blks
  rw [blocks_succ] at hfit ⊢
  -- a file has no hole, so a block is missing only behind its end
  have hmapped : ∀ l, l * 4096 < pos → blk s.img n l ≠ 0 := fun l hl => h.mapped n hlt l (by rw [hsize]; exact hl)
  generalize hke : pos / 4096 = k at hk
  unfold Img.iwalk
  simp only [iget_eq, nDirect, nIndirect, Option.bind_eq_bind]
  by_cases h12 : k < 12
  · rw [if_pos h12]
    have hblk : blk s.img n k = (node s.img n).addrs k := blk_direct h12
    by_cases h0 : (node s.img n).addrs k = 0
    · have hmod : pos % 4096 = 0 := by
        by_contra hne
        exact hmapped k (by omega) (hblk.trans h0)
      rw [if_pos h0]
      rw [if_pos hmod] at hfit ⊢
      obtain ⟨m', hb⟩ := balloc_fits (s := s) (by omega)
      simp only [hb, Option.pure_def, Option.bind_some, bget_eq (show 32 ≤ s.nextBlk by omega)]
      exact ⟨_, _, rfl, by show s.nextBlk + 1 ≤ _; omega⟩
    · have hge := (h.owned.blk_dataBlk hlt (hblk ▸ h0)).1
      rw [hblk] at hge
      rw [if_neg h0]
      simp only [Option.pure_def, Option.bind_some, bget_eq (show 32 ≤ (node s.img n).addrs k by omega)]
      exact ⟨_, _, rfl, by omega⟩
  · rw [if_neg h12, if_pos (show k - 12 < 1024 by omega)]
    have hk12 : 12 + (k - 12) = k := by omega
    by_cases h0 : (node s.img n).addrs 12 = 0
    · -- no indirect block yet: the file ends at the last direct block
      have hpos : pos = 12 * 4096 := by
        by_contra hne
        exact hmapped 12 (by omega) (blk_none (by omega) h0)
      rw [if_pos h0]
      rw [if_pos (by omega), if_pos hpos] at hfit ⊢
      obtain ⟨m', hb⟩ := balloc_fits (s := s) (by omega)
      obtain ⟨-, s₂, he, hi, hx, -, ht, hadd⟩ := took_iset h hn (Nat.le_refl 12) h0 hb
      simp only [iget_eq] at he
      simp only [hb, he, Option.pure_def, Option.bind_some]
      have hnext : s₂.nextBlk = s.nextBlk + 1 := by rw [← he]; rfl
      rw [if_pos rfl] at ht
      have hn₂ := hn.grow (ht.grow (h.only hn) (only_active hn.type)) hx
      have hword : s₂.img.word (s.nextBlk * 4096 + (k - 12) * 4) ≠ 0 →
          64 ≤ s₂.img.word (s.nextBlk * 4096 + (k - 12) * 4) := fun hw => by
        have hblk : blk s₂.img n k = s₂.img.word (s.nextBlk * 4096 + (k - 12) * 4) := by
          rw [blk_indirect (by omega) hk (by rw [hadd]; omega), hadd, ent]
        rw [← hblk] at hw ⊢
        exact (hi.owned.blk_dataBlk (hi.lt hn₂) hw).1
      obtain ⟨a, s₃, h1, h2⟩ := walkEntry_fits h64 (by rw [hnext]; omega) hword (by split <;> omega)
      exact ⟨a, s₃, h1, by rw [h2, hnext]; split <;> omega⟩
    · have hp := h.owned.indirect_dataBlk hlt h0
      have hblk : blk s.img n k = s.img.word ((node s.img n).addrs 12 * 4096 + (k - 12) * 4) := by
        rw [blk_indirect (by omega) hk h0, ent]
      rw [if_neg h0]
      simp only [Option.pure_def, Option.bind_some]
      have hcost : (if s.img.word ((node s.img n).addrs 12 * 4096 + (k - 12) * 4) = 0 then 1 else 0) ≤
          if pos % 4096 = 0 then 1 else 0 := by
        rw [← hblk]
        by_cases hz : blk s.img n k = 0
        · have hmod : pos % 4096 = 0 := by
            by_contra hne
            exact hmapped k (by omega) hz
          rw [if_pos hz, if_pos hmod]
        · rw [if_neg hz]
          exact Nat.zero_le _
      obtain ⟨a, s₃, h1, h2⟩ := walkEntry_fits hp.1 h64 (fun hw => by
        rw [← hblk] at hw ⊢
        exact (h.owned.blk_dataBlk hlt hw).1) (by omega)
      exact ⟨a, s₃, h1, by rw [h2]; omega⟩

/-! ## Appending -/

theorem iappendLoop_fits : ∀ {fuel k offset pos : Nat} {buf : List UInt8} {s : Img}, ImgInv s → Building s n →
    (node s.img n).size = pos → pos / 4096 = k → pos % 4096 = offset → buf.length < fuel →
    pos + buf.length ≤ 1036 * 4096 → s.nextBlk + (blocks (pos + buf.length) - blocks pos) ≤ 32768 →
    ∃ s', Img.iappendLoop n fuel s k offset buf = some s' ∧
      s'.nextBlk ≤ s.nextBlk + (blocks (pos + buf.length) - blocks pos)
  | 0, _, _, _, _, _, _, _, _, _, _, hf, _, _ => absurd hf (Nat.not_lt_zero _)
  | fuel + 1, k, offset, pos, buf, s, hi, hn, hsize, hk, hoff, hf, hmax, hfit => by
    unfold Img.iappendLoop
    by_cases hbuf : buf.length = 0
    · rw [if_pos hbuf]
      exact ⟨s, rfl, by omega⟩
    rw [if_neg hbuf]
    simp only [Option.bind_eq_bind, iget_eq, blkSize]
    generalize hwe : min buf.length (4096 - offset) = w
    have hlen : (buf.take w).length = w := by rw [List.length_take]; omega
    have hlen' : (buf.drop w).length = buf.length - w := List.length_drop
    have hround : blocks (pos + w) = blocks (pos + 1) := blocks_round (by omega) (by omega)
    have hmono := blocks_mono (show pos ≤ pos + 1 by omega)
    have hmono' := blocks_mono (show pos + w ≤ pos + buf.length by omega)
    obtain ⟨a, s₁, hw, hnext⟩ := iwalk_fits hi hn hsize (by omega) (by omega)
    rw [hk] at hw
    simp only [hw, Option.bind_some]
    have happ := iappend_round (buf.take w) hi hn (by omega) (by omega) hsize (hk ▸ iwalk_some hi hn hw)
    rw [hlen, hoff] at happ
    have hn₂ := happ.building hn
    have hs₂ := happ.size hsize
    rw [hlen] at hs₂
    have hsum : pos + w + (buf.drop w).length = pos + buf.length := by omega
    have hnext' : ∀ d : Dinode, (Img.iset { s₁ with img := s₁.img.write (a + offset) (buf.take w) } n d).nextBlk ≤
        s.nextBlk + (blocks (pos + w) - blocks pos) := fun _ => by rw [hround]; exact hnext
    have hle := hnext' { node (s₁.img.write (a + offset) (buf.take w)) n with
      size := uint32 ((node (s₁.img.write (a + offset) (buf.take w)) n).size + w) }
    by_cases hlast : w = buf.length
    · have hnil : buf.drop w = [] := by rw [hlast, List.drop_length]
      cases fuel with
      | zero => omega
      | succ fuel =>
        rw [hnil, Img.iappendLoop, if_pos List.length_nil]
        exact ⟨_, rfl, by rw [← hlast]; exact hle⟩
    · obtain ⟨s', h1, h2⟩ := iappendLoop_fits happ.inv hn₂ hs₂ (show (pos + w) / 4096 = k + 1 by omega)
        (show (pos + w) % 4096 = 0 by omega) (show (buf.drop w).length < fuel by omega) (by omega) (by rw [hsum]; omega)
      rw [hsum] at h2
      exact ⟨s', h1, by omega⟩

theorem iappend_fits (hi : ImgInv s) (hn : Building s n) (hmax : (node s.img n).size + buf.length ≤ 1036 * 4096)
    (hfit : s.nextBlk + (blocks ((node s.img n).size + buf.length) - blocks (node s.img n).size) ≤ 32768) :
    ∃ s', s.iappend n buf = some s' ∧
      s'.nextBlk ≤ s.nextBlk + (blocks ((node s.img n).size + buf.length) - blocks (node s.img n).size) := by
  unfold Img.iappend
  rw [iget_eq]
  exact iappendLoop_fits hi hn rfl rfl rfl (Nat.lt_succ_self _) hmax hfit

/-- A round of `appendFile`. -/
theorem appendFile_round {data : List UInt8} (hi : ImgInv s) (hn : Building s n)
    (hmax : (node s.img n).size + data.length ≤ 1036 * 4096)
    (hfit : s.nextBlk + (blocks ((node s.img n).size + data.length) - blocks (node s.img n).size) ≤ 32768) (w : Nat) :
    ∃ s₁, s.iappend n (data.take w) = some s₁ ∧ ImgInv s₁ ∧ Building s₁ n ∧
      (node s₁.img n).size + (data.drop w).length = (node s.img n).size + data.length ∧
      s₁.nextBlk + (blocks ((node s.img n).size + data.length) - blocks (node s₁.img n).size) ≤
        s.nextBlk + (blocks ((node s.img n).size + data.length) - blocks (node s.img n).size) := by
  have hlen : (data.take w).length = min w data.length := List.length_take
  have hlen' : (data.drop w).length = data.length - w := List.length_drop
  have hmono := blocks_mono (show (node s.img n).size ≤ (node s.img n).size + (data.take w).length by omega)
  have hmono' := blocks_mono (show (node s.img n).size + (data.take w).length ≤ (node s.img n).size +
    data.length by omega)
  obtain ⟨s₁, h1, h2⟩ := iappend_fits hi hn (show _ + (data.take w).length ≤ _ by omega) (by omega)
  have happ := iappend_some hi hn h1
  have hs := happ.size rfl
  exact ⟨s₁, h1, happ.inv, happ.building hn, by omega, by rw [hs]; omega⟩

theorem appendFile_fits {fuel : Nat} : ∀ {data : List UInt8} {s : Img}, ImgInv s → Building s n → data.length < fuel →
    (node s.img n).size + data.length ≤ 1036 * 4096 →
    s.nextBlk + (blocks ((node s.img n).size + data.length) - blocks (node s.img n).size) ≤ 32768 →
    ∃ s', Img.appendFile n fuel s data = some s' ∧
      s'.nextBlk ≤ s.nextBlk + (blocks ((node s.img n).size + data.length) - blocks (node s.img n).size) := by
  induction fuel with
  | zero => exact fun _ _ hf _ _ => absurd hf (Nat.not_lt_zero _)
  | succ fuel ih =>
    intro data s hi hn hf hmax hfit
    unfold Img.appendFile
    by_cases hdata : data.length = 0
    · rw [if_pos hdata]
      exact ⟨s, rfl, Nat.le_add_right _ _⟩
    rw [if_neg hdata]
    obtain ⟨s₁, h1, hi₁, hn₁, hsum, hle⟩ := appendFile_round hi hn hmax hfit blkSize
    have hlen : (data.drop blkSize).length = data.length - blkSize := List.length_drop
    have hblk : 0 < blkSize := by decide
    have hf' : (data.drop blkSize).length < fuel := by omega
    obtain ⟨s', h2, h3⟩ := ih hi₁ hn₁ hf' (by rw [hsum]; exact hmax) (by rw [hsum]; omega)
    rw [hsum] at h3
    exact ⟨s', by simp only [Option.bind_eq_bind, h1, Option.bind_some, h2], h3.trans hle⟩

/-! ## Files that fit -/

/-- The blocks of the root directory and of all files, with the 64 before them. -/
def need (files : List (List UInt8 × List UInt8)) : Nat :=
  64 + blocks (32 * (2 + files.length)) + (files.map fun f => blocks f.2.length).sum

/-- Files that mkfs takes: base names of at most 27 bytes, sizes a file can have, and inodes and
blocks enough. -/
structure Fits (files : List (List UInt8 × List UInt8)) : Prop where
  name : ∀ f ∈ files, f.1.length < 28
  size : ∀ f ∈ files, f.2.length ≤ (12 + 1024) * 4096
  inodes : 2 + files.length ≤ 1920
  blks : need files ≤ 32768

theorem direntFor_fits {name : List UInt8} (h : name.length < 28) :
    Img.direntFor n name = some (Dirent.bytes ⟨n, strcpy Dirent.zero.name name⟩) := if_pos h

theorem dirent_length {name : List UInt8} (h : name.length < 28) :
    (Dirent.bytes ⟨n, strcpy Dirent.zero.name name⟩).length = 32 := by
  have hzero : Dirent.zero.name.length = 28 := List.length_replicate
  have hcstr : (cstr name).length ≤ name.length := (List.takeWhile_sublist _).length_le
  have hcpy : (strcpy Dirent.zero.name name).length = 28 := by
    unfold strcpy
    rw [List.length_append, List.length_cons, List.length_drop, hzero]
    omega
  rw [Dirent.bytes, List.length_append, Store.le32_length, hcpy]

theorem ialloc_fits (t : Nat) (h : s.nextInode < 1920) : ∃ s', s.ialloc t = some (s.nextInode, s') ∧
    s'.nextBlk = s.nextBlk := by
  unfold Img.ialloc
  rw [if_neg (by simp only [inodeCount, dataStart, inodeStart, blkOff, iPerBlk]; omega)]
  exact ⟨_, rfl, rfl⟩

theorem blocks_zero : blocks 0 = 0 := rfl

/-- A file that fits is added. -/
theorem addFile_fits {files : List (List UInt8 × List UInt8)} {name data : List UInt8} (h : Built files s)
    (hname : name.length < 28) (hsize : data.length ≤ 1036 * 4096) (hinodes : 2 + (files.length + 1) ≤ 1920)
    (hfit : s.nextBlk + (blocks (32 * (2 + (files.length + 1))) - blocks (32 * (2 + files.length))) +
    blocks data.length ≤
      32768) :
    ∃ s', s.addFile name data = some s' ∧ s'.nextBlk ≤ s.nextBlk +
      (blocks (32 * (2 + (files.length + 1))) - blocks (32 * (2 + files.length))) + blocks data.length := by
  have hnext := h.next
  have hroot : (node s.img 1).size = 32 * (2 + files.length) := by
    rw [← content_length, h.root]
    have hlen : ∀ es : List Dirent, (∀ e ∈ es, e.bytes.length = 32) →
        (es.flatMap Dirent.bytes).length = 32 * es.length :=
      fun es => by
        induction es with
        | nil => intro _; rfl
        | cons e es ih =>
          intro he
          rw [List.flatMap_cons, List.length_append, he e List.mem_cons_self,
            ih fun e' he' => he e' (List.mem_cons_of_mem _ he'), List.length_cons]
          omega
    rw [hlen]
    · unfold rootEnts
      simp only [List.length_cons, List.length_map, List.length_zipIdx]
      omega
    · intro e he
      unfold rootEnts at he
      rcases List.mem_cons.1 he with rfl | he
      · exact dirent_length (by decide)
      rcases List.mem_cons.1 he with rfl | he
      · exact dirent_length (by decide)
      obtain ⟨⟨nm, k⟩, hp, rfl⟩ := List.mem_map.1 he
      have hmem : nm ∈ files.map Prod.fst := (List.mem_zipIdx hp).2.2 ▸ List.getElem_mem _
      obtain ⟨f, hf, rfl⟩ := List.mem_map.1 hmem
      exact dirent_length (h.short f hf)
  obtain ⟨s₁, h1, hb₁⟩ := ialloc_fits (s := s) typeFile (by omega)
  obtain ⟨-, hnext₁, hinv, hb, hsb, hnode, hcont, hother⟩ := ialloc_some h.inv (show typeFile ≠ typeNone by decide)
    (by decide) h1
  have hne : s.nextInode ≠ 1 := by omega
  obtain ⟨hroot₁, -⟩ := hother 1 (by decide) fun he => hne he.symm
  have hbroot : Building s₁ 1 := ⟨by decide, by omega, by rw [hroot₁, h.rootType]; decide⟩
  have hsize₁ : (node s₁.img 1).size = 32 * (2 + files.length) := by rw [hroot₁, hroot]
  have hbs := dirent_length (n := s.nextInode) hname
  obtain ⟨s₂, h2, hb₂⟩ := iappend_fits (s := s₁) (n := 1)
    hinv hbroot (by rw [hsize₁, hbs]; omega)
    (by rw [hsize₁, hbs, hb₁, show 32 * (2 + files.length) + 32 = 32 * (2 + (files.length + 1)) by omega]; omega)
  rw [hsize₁, hbs, hb₁, show 32 * (2 + files.length) + 32 = 32 * (2 + (files.length + 1)) by omega] at hb₂
  have ha₂ := iappend_some hinv hbroot h2
  have hlt := hinv.lt hb
  obtain ⟨hn₂, -⟩ := ha₂.other hlt hne
  have hnew : Building s₂ s.nextInode := ⟨hb.pos, by rw [ha₂.next]; exact hb.lt, by rw [hn₂]; exact hb.type⟩
  have hz : (node s₂.img s.nextInode).size = 0 := by rw [hn₂, hnode]; rfl
  obtain ⟨s₃, h3, hb₃⟩ := @appendFile_fits _ (data.length + 1) data _ ha₂.inv hnew (Nat.lt_succ_self _)
    (by rw [hz]; omega) (by rw [hz, blocks_zero, Nat.zero_add]; omega)
  rw [hz, blocks_zero, Nat.zero_add] at hb₃
  refine ⟨s₃, ?_, by omega⟩
  unfold Img.addFile
  simp only [h1, Option.bind_eq_bind, Option.bind_some, direntFor_fits hname, rootNo_eq (hsb.trans h.sb), h2, h3]

theorem addFiles_fits : ∀ {more files : List (List UInt8 × List UInt8)} {s : Img}, Built files s →
    (∀ f ∈ more, f.1.length < 28 ∧ f.2.length ≤ 1036 * 4096) → 2 + (files.length + more.length) ≤ 1920 →
    s.nextBlk + (blocks (32 * (2 + (files.length + more.length))) - blocks (32 * (2 + files.length))) +
      (more.map fun f => blocks f.2.length).sum ≤ 32768 →
    ∃ s', more.foldlM (fun s f => s.addFile f.1 f.2) s = some s'
  | [], _, s, _, _, _, _ => ⟨s, rfl⟩
  | f :: more, files, s, h, hf, hinodes, hfit => by
    obtain ⟨h1, h2⟩ := hf f List.mem_cons_self
    rw [List.length_cons] at hinodes hfit
    rw [List.map_cons, List.sum_cons] at hfit
    have hm₁ := blocks_mono (show 32 * (2 + files.length) ≤ 32 * (2 + (files.length + 1)) by omega)
    have hm₂ := blocks_mono (show 32 * (2 + (files.length + 1)) ≤
      32 * (2 + (files.length + (more.length + 1))) by omega)
    obtain ⟨s₁, h3, h4⟩ := addFile_fits h h1 h2 (by omega) (by omega)
    have hlen : (files ++ [f]).length = files.length + 1 := by rw [List.length_append]; rfl
    have hsum : files.length + 1 + more.length = files.length + (more.length + 1) := by omega
    obtain ⟨s', h5⟩ := addFiles_fits (h.addFile h3) (fun g hg => hf g (List.mem_cons_of_mem _ hg))
      (by rw [hlen]; omega) (by rw [hlen, hsum]; omega)
    exact ⟨s', by rw [List.foldlM_cons, h3]; exact h5⟩

theorem initDisk_fits (boot : Store) : ∃ s, Img.initDisk (truncated boot) = some s ∧ s.nextBlk ≤ 64 + blocks 64 := by
  obtain ⟨s₁, h1, hb₁⟩ := ialloc_fits (s := ⟨blank boot, 64, 1⟩) typeDir (show 1 < 1920 by decide)
  obtain ⟨-, hnext, hinv, hb, hsb, hnode, -, -⟩ := ialloc_some (blank_inv boot)
    (show typeDir ≠ typeNone by decide) (by decide) h1
  have hkeep : ∀ x, x / 4096 ≠ 32 → s₁.img.setWord (32 * 4096 + 12) 1 x = s₁.img x := fun x hx =>
    Store.write_out (by rw [Store.le32_length]; omega)
  obtain ⟨hinv₂, hsame⟩ := hinv.super hkeep
  obtain ⟨hnode₂, -⟩ := hsame 1 (by decide)
  have hroot : ∀ m', m' = s₁.img.setWord (32 * 4096 + 12) 1 → Img.rootNo ⟨m', s₁.nextBlk, s₁.nextInode⟩ = 1 :=
    fun m' hm => by
      subst hm
      exact Store.word_setWord_self (by decide)
  generalize hm₂ : s₁.img.setWord (32 * 4096 + 12) 1 = m₂ at hinv₂ hnode₂
  have hroot₂ := hroot m₂ hm₂.symm
  have hnext₁ : s₁.nextInode = 2 := hnext
  have hbuild : Building ⟨m₂, s₁.nextBlk, s₁.nextInode⟩ 1 :=
    ⟨by decide, by show 1 < s₁.nextInode; omega, by rw [hnode₂]; exact hb.type⟩
  have hz : (node m₂ 1).size = 0 := by rw [hnode₂, hnode]; rfl
  have hsb₁ : s₁.nextBlk = 64 := hb₁
  have hdot : (Dirent.bytes ⟨1, strcpy Dirent.zero.name dot⟩).length = 32 := dirent_length (by decide)
  have hdotdot : (Dirent.bytes ⟨1, strcpy Dirent.zero.name dotdot⟩).length = 32 := dirent_length (by decide)
  have e32 : blocks 32 = 1 := by decide
  have e64 : blocks 64 = 1 := by decide
  obtain ⟨s₃, h3, hb₃⟩ := iappend_fits (s := ⟨m₂, s₁.nextBlk, s₁.nextInode⟩) (n := 1)
    hinv₂ hbuild (by rw [hdot]; show (node m₂ 1).size + 32 ≤ _; omega)
    (by rw [hdot]; show s₁.nextBlk + (blocks ((node m₂ 1).size + 32) - blocks (node m₂ 1).size) ≤ _
        rw [hz, Nat.zero_add, e32, blocks_zero]; omega)
  have ha₃ := iappend_some hinv₂ hbuild h3
  have hs₃ : (node s₃.img 1).size = 32 := by
    rw [ha₃.size rfl, hdot]
    show (node m₂ 1).size + 32 = 32
    omega
  replace hb₃ : s₃.nextBlk ≤ s₁.nextBlk + (blocks ((node m₂ 1).size + _) - blocks (node m₂ 1).size) := hb₃
  rw [hdot, hz, Nat.zero_add, e32, blocks_zero] at hb₃
  have hroot₃ : s₃.rootNo = 1 := (congrArg Super.root ha₃.sb).trans hroot₂
  obtain ⟨s₄, h4, hb₄⟩ := iappend_fits ha₃.inv
    (ha₃.building hbuild) (by rw [hdotdot]; omega)
      (by rw [hdotdot, hs₃, e32]; show _ + (blocks 64 - 1) ≤ _; rw [e64]; omega)
  rw [hdotdot, hs₃, e32, show 32 + 32 = 64 from rfl, e64] at hb₄
  refine ⟨s₄, ?_, by rw [e64]; omega⟩
  unfold Img.initDisk
  have h1' : Img.ialloc ⟨Img.initSuper (truncated boot), 64, 1⟩ typeDir = some (1, s₁) := h1
  have hm₂' : s₁.img.setWord (blkOff * blkSize + 12) 1 = m₂ := hm₂
  simp only [h1', Option.bind_eq_bind, Option.bind_some, hm₂', hroot₂,
    direntFor_fits (show dot.length < 28 by decide), h3, hroot₃, direntFor_fits (show dotdot.length < 28 by decide), h4]

/-- Files that fit make an image. -/
theorem mkfs_fits (boot : Store) {files : List (List UInt8 × List UInt8)} (hne : files ≠ []) (h : Fits files) :
    ∃ m, mkfs boot files = some m := by
  obtain ⟨s, h1, hb⟩ := initDisk_fits boot
  have hneed := h.blks
  unfold need at hneed
  have hm := blocks_mono (show 64 ≤ 32 * (2 + files.length) by omega)
  obtain ⟨s', h2⟩ := addFiles_fits (initDisk_some h1) (fun f hf => ⟨h.name f hf, h.size f hf⟩)
    (by rw [List.length_nil, Nat.zero_add]; exact h.inodes)
    (by
      rw [List.length_nil, Nat.zero_add, Nat.add_zero, show 32 * 2 = 64 from rfl]
      omega)
  exact ⟨s'.img, by unfold mkfs; simp only [guard, if_pos hne, h1, h2, Option.bind_eq_bind, Option.bind_some,
    Option.pure_def]⟩

end TinyOS.Mkfs
