/-
Kernel images under the boot loader. The loop zeroes the part of the buffer behind the data of a segment, not
the part of the target behind it: exactly when each target range holds its data and zeros nevertheless.
-/
import TinyOS.Boot.Basic

namespace TinyOS.Boot

open TinyOS.Lib Ehdr Phdr

variable {disk img m m' m₀ : Store} {s t : Phdr} {l r : List Phdr} {low a b k n ph : Nat}

/-! ## Images -/

/-- The kernel follows the boot sector on the disk. -/
def image (disk : Store) : Store := deref disk sectsize

/-- Program header number `k`. -/
def phdrOf (img : Store) (k : Nat) : Phdr := deref img (ePhoff img + k * phdrSize)

/-- The headers of the segments to load from number `k` on, of `n` headers. -/
def segsFrom (img : Store) (k n : Nat) : List Phdr :=
  ((List.range' k n).map (phdrOf img)).filter fun s => pType s = ptLoad

def segs (img : Store) : List Phdr := segsFrom img 0 (ePhnum img)

/-- The addresses that a segment is loaded to. -/
def Target (s : Phdr) (a : Nat) : Prop := pVaddr s ≤ a ∧ a < pVaddr s + pMemsz s

/-- Those that `load_kernel` copies data to. -/
def Data (s : Phdr) (a : Nat) : Prop := pVaddr s ≤ a ∧ a < pVaddr s + pFilesz s

/-- Those that it zeroes: behind the data in the buffer. -/
def Zeroed (s : Phdr) (a : Nat) : Prop := elfBuf + pOffset s + pFilesz s ≤ a ∧ a < elfBuf + pOffset s + pMemsz s

instance : Decidable (Data s a) := inferInstanceAs (Decidable (_ ∧ _))

instance : Decidable (Zeroed s a) := inferInstanceAs (Decidable (_ ∧ _))

/-- An image of at most 255 sectors, with segments that are apart from each other, from the buffer, and from the
boot sector and the stack. -/
structure KernelImage (low : Nat) (img : Store) : Prop where
  table : ePhoff img + ePhnum img * phdrSize ≤ bufSize
  file : ∀ s ∈ segs img, pOffset s + pFilesz s ≤ bufSize
  sizes : ∀ s ∈ segs img, pFilesz s ≤ pMemsz s
  top : ∀ s ∈ segs img, pVaddr s + pMemsz s < 2 ^ 32
  apart : (segs img).Pairwise fun s t => ∀ a, Target s a → ¬ Target t a
  buffer : ∀ s ∈ segs img, ∀ a, Target s a → ¬ (elfBuf ≤ a ∧ a < elfBuf + bufSize)
  boot : ∀ s ∈ segs img, ∀ a, Target s a → ¬ Reserved low a

/-- The bytes of a program header that the loop reads. -/
def Used (i : Nat) : Prop := i < 12 ∨ (16 ≤ i ∧ i < 24)

/-- No segment zeroes what the loop has yet to read of the program headers. -/
def KeepsHeaders (img : Store) : Prop := ∀ j k, j < k → k < ePhnum img → pType (phdrOf img j) = ptLoad →
  ∀ i, Used i → phdrOf img k i = 0 ∨ ¬ Zeroed (phdrOf img j) (elfBuf + ePhoff img + k * phdrSize + i)

/-- At the jump to the entry point each segment is in its place. -/
def Loaded (low : Nat) (disk m : Store) : Prop := ∃ m', loadKernel low disk m = some (eEntry (image disk), m') ∧
  ∀ s ∈ segs (image disk), (∀ o < pFilesz s, m' (pVaddr s + o) = image disk (pOffset s + o)) ∧
    ∀ a, pVaddr s + pFilesz s ≤ a → a < pVaddr s + pMemsz s → m' a = 0

/-- Nothing that is zeroed is needed, and what is needed to be zero is zeroed or was zero before. -/
structure Harmless (low : Nat) (img m : Store) : Prop where
  boot : ∀ s ∈ segs img, ∀ a, Zeroed s a → ¬ Reserved low a
  entry : ∀ s ∈ segs img, ∀ i < 4, img (24 + i) = 0 ∨ ¬ Zeroed s (elfBuf + (24 + i))
  zeros : ∀ s ∈ segs img, ∀ a, pVaddr s + pFilesz s ≤ a → a < pVaddr s + pMemsz s → m a = 0 ∨ ∃ t ∈ segs img, Zeroed t a
  data : ∀ l s r, segs img = l ++ s :: r → ∀ o < pFilesz s, img (pOffset s + o) = 0 ∨
    ((∀ t ∈ l, ¬ Zeroed t (elfBuf + pOffset s + o)) ∧ ∀ t ∈ s :: r, ¬ Zeroed t (pVaddr s + o))

/-! ## A segment -/

/-- Memory after a segment is copied. -/
def place (m : Store) (s : Phdr) : Store := fun a =>
  if Zeroed s a then 0 else if Data s a then m (elfBuf + pOffset s + (a - pVaddr s)) else m a

/-- A segment that `load_kernel` can be given. -/
structure Fits (low : Nat) (s : Phdr) : Prop where
  file : pOffset s + pFilesz s ≤ bufSize
  sizes : pFilesz s ≤ pMemsz s
  top : pVaddr s + pMemsz s < 2 ^ 32
  buffer : ∀ a, Target s a → ¬ (elfBuf ≤ a ∧ a < elfBuf + bufSize)
  boot : ∀ a, Target s a → ¬ Reserved low a

theorem KernelImage.fits (h : KernelImage low img) (hs : s ∈ segs img) : Fits low s :=
  ⟨h.file s hs, h.sizes s hs, h.top s hs, h.buffer s hs, h.boot s hs⟩

theorem Data.target (hf : Fits low s) (h : Data s a) : Target s a :=
  ⟨h.1, lt_of_lt_of_le h.2 (Nat.add_le_add_left hf.sizes _)⟩

/-- The target lies below the buffer or behind it. -/
theorem Fits.side (hf : Fits low s) (hpos : 0 < pMemsz s) :
    pVaddr s + pMemsz s ≤ elfBuf ∨ elfBuf + bufSize ≤ pVaddr s := by
  by_contra hc
  rw [not_or] at hc
  by_cases hlow : pVaddr s < elfBuf
  · exact hf.buffer elfBuf ⟨by omega, by omega⟩ ⟨le_refl _, by decide⟩
  · exact hf.buffer (pVaddr s) ⟨le_refl _, by omega⟩ ⟨by omega, by omega⟩

/-- The end of what is zeroed is a 32-bit address. -/
theorem Fits.zeroed_lt (hf : Fits low s) : elfBuf + pOffset s + pMemsz s < 2 ^ 32 := by
  have h1 := hf.file
  have h2 := hf.top
  have hb : elfBuf + bufSize < 2 ^ 31 := by decide
  rcases Nat.eq_zero_or_pos (pMemsz s) with h0 | hpos
  · omega
  · rcases hf.side hpos with h | h
    · have he : elfBuf < 2 ^ 16 := by decide
      omega
    · omega

/-- Memory holds the header at a pointer. -/
def SameHeader (m : Store) (ph : Nat) (s : Phdr) : Prop := ∀ i, Used i → deref m ph i = s i

theorem Used.lt {i : Nat} (h : Used i) : i < phdrSize := by
  unfold Used at h
  have : phdrSize = 32 := rfl
  omega

theorem SameHeader.word (h : SameHeader m ph s) {o : Nat} (ho : ∀ i < 4, Used (o + i)) :
    (deref m ph).word o = s.word o :=
  Store.word_congr fun i hi => h (o + i) (ho i hi)

theorem SameHeader.fields (h : SameHeader m ph s) : pType (deref m ph) = pType s ∧ pOffset (deref m ph) = pOffset s ∧
    pVaddr (deref m ph) = pVaddr s ∧ pFilesz (deref m ph) = pFilesz s ∧ pMemsz (deref m ph) = pMemsz s := by
  refine ⟨h.word ?_, h.word ?_, h.word ?_, h.word ?_, h.word ?_⟩ <;> intro i hi <;> unfold Used <;> omega

theorem loadSegment_load {m₁ : Store} (ht : pType (deref m ph) = ptLoad)
    (hc : memcpy low m (pVaddr (deref m ph)) (uint32 (elfBuf + pOffset (deref m ph))) (pFilesz (deref m ph)) =
      some m₁) :
    loadSegment low m ph = memset low m₁ (uint32 (elfBuf + pOffset (deref m₁ ph) + pFilesz (deref m₁ ph))) 0
      (usub32 (pMemsz (deref m₁ ph)) (pFilesz (deref m₁ ph))) := by
  unfold loadSegment
  rw [if_pos ht, hc, Option.bind_eq_bind, Option.bind_some]

/-- The data goes to the target, and what is zeroed begins behind the data in the buffer. -/
theorem loadSegment_eq (h : SameHeader m ph s) (ht : pType s = ptLoad) (hf : Fits low s)
    (hin : elfBuf ≤ ph ∧ ph + phdrSize ≤ elfBuf + bufSize) :
    ∃ m₁, (∀ a, m₁ a = if Data s a then m (elfBuf + pOffset s + (a - pVaddr s)) else m a) ∧
      loadSegment low m ph = memset low m₁ (elfBuf + pOffset s + pFilesz s) 0 (pMemsz s - pFilesz s) := by
  obtain ⟨h1, h2, h3, h4, h5⟩ := h.fields
  have hfile := hf.file
  have hsizes := hf.sizes
  have htop := hf.top
  have hb : elfBuf + bufSize < 2 ^ 32 := by decide
  have hsrc : uint32 (elfBuf + pOffset s) = elfBuf + pOffset s := uint32_of_lt (by omega)
  have hdisj : elfBuf + pOffset s + pFilesz s ≤ pVaddr s ∨ pVaddr s + pFilesz s ≤ elfBuf + pOffset s ∨
      pFilesz s = 0 := by
    rcases Nat.eq_zero_or_pos (pFilesz s) with h0 | hpos
    · exact Or.inr (Or.inr h0)
    · rcases hf.side (lt_of_lt_of_le hpos hsizes) with hs | hs
      · exact Or.inr (Or.inl (by omega))
      · exact Or.inl (by omega)
  obtain ⟨m₁, hcpy, hm₁⟩ : ∃ m₁, memcpy low m (pVaddr s) (elfBuf + pOffset s) (pFilesz s) = some m₁ ∧
      ∀ a, m₁ a = if Data s a then m (elfBuf + pOffset s + (a - pVaddr s)) else m a :=
    memcpy_eq (by omega) (by omega) hdisj fun i hi => hf.boot _ ⟨by omega, by omega⟩
  -- the header is in the buffer, where no data goes
  have hsame : SameHeader m₁ ph s := fun i hi => by
    rw [← h i hi]
    have hlt := hi.lt
    show m₁ (ph + i) = m (ph + i)
    rw [hm₁, if_neg fun hc => hf.buffer (ph + i) (Data.target hf hc) ⟨by omega, by omega⟩]
  obtain ⟨-, h2', -, h4', h5'⟩ := hsame.fields
  refine ⟨m₁, hm₁, ?_⟩
  have hdst : uint32 (elfBuf + pOffset s + pFilesz s) = elfBuf + pOffset s + pFilesz s := uint32_of_lt (by omega)
  have hsize : usub32 (pMemsz s) (pFilesz s) = pMemsz s - pFilesz s := usub32_of_le hsizes (by omega)
  have hcpy' : memcpy low m (pVaddr (deref m ph)) (uint32 (elfBuf + pOffset (deref m ph))) (pFilesz (deref m ph)) =
      some m₁ := by
    rw [h2, h3, h4, hsrc]
    exact hcpy
  have he := loadSegment_load (h1.trans ht) hcpy'
  rw [h2', h4', h5', hdst, hsize] at he
  exact he

theorem loadSegment_place (h : SameHeader m ph s) (ht : pType s = ptLoad) (hf : Fits low s)
    (hin : elfBuf ≤ ph ∧ ph + phdrSize ≤ elfBuf + bufSize) (hz : ∀ a, Zeroed s a → ¬ Reserved low a) :
    loadSegment low m ph = some (place m s) := by
  obtain ⟨m₁, hm₁, he⟩ := loadSegment_eq h ht hf hin
  have hsizes := hf.sizes
  have hlt := hf.zeroed_lt
  rw [he, memset_eq (by omega) fun i hi => hz _ ⟨by omega, by omega⟩]
  congr 1
  funext a
  unfold place
  by_cases hza : Zeroed s a
  · rw [if_pos hza]
    exact Store.fill_in hza.1 (by have := hza.2; omega)
  · rw [if_neg hza, ← hm₁]
    refine Store.fill_out ?_
    unfold Zeroed at hza
    omega

theorem loadSegment_none (h : SameHeader m ph s) (ht : pType s = ptLoad) (hf : Fits low s)
    (hin : elfBuf ≤ ph ∧ ph + phdrSize ≤ elfBuf + bufSize) (hz : Zeroed s a) (hr : Reserved low a) :
    loadSegment low m ph = none := by
  obtain ⟨m₁, -, he⟩ := loadSegment_eq h ht hf hin
  have hlt := hf.zeroed_lt
  obtain ⟨h1, h2⟩ := hz
  rw [he]
  refine memset_none (i := a - (elfBuf + pOffset s + pFilesz s)) (by omega) (by omega) ?_
  rwa [show elfBuf + pOffset s + pFilesz s + (a - (elfBuf + pOffset s + pFilesz s)) = a by omega]

/-! ## The loop -/

theorem segsFrom_cons (h : pType (phdrOf img k) = ptLoad) :
    segsFrom img k (n + 1) = phdrOf img k :: segsFrom img (k + 1) n := by
  unfold segsFrom
  rw [List.range'_succ, List.map_cons, List.filter_cons_of_pos (by simpa using h)]

theorem segsFrom_skip (h : pType (phdrOf img k) ≠ ptLoad) : segsFrom img k (n + 1) = segsFrom img (k + 1) n := by
  unfold segsFrom
  rw [List.range'_succ, List.map_cons, List.filter_cons_of_neg (by simpa using h)]

/-- The buffer still holds the program headers from number `k` on. -/
def Table (img : Store) (k : Nat) (m : Store) : Prop :=
  ∀ j, k ≤ j → j < ePhnum img → SameHeader m (elfBuf + ePhoff img + j * phdrSize) (phdrOf img j)

theorem KernelImage.header_end (hk : KernelImage low img) (h : k < ePhnum img) :
    ePhoff img + k * phdrSize + phdrSize ≤ bufSize := by
  have htable := hk.table
  have hmul : k * phdrSize + phdrSize ≤ ePhnum img * phdrSize := by
    rw [← Nat.succ_mul]
    exact Nat.mul_le_mul_right _ h
  omega

theorem Table.place (h : Table img k m) (hk : KernelImage low img) (hkeep : KeepsHeaders img)
    (hload : pType (phdrOf img k) = ptLoad) (hs : phdrOf img k ∈ segs img) :
    Table img (k + 1) (place m (phdrOf img k)) := by
  intro j hj hlt i hi
  have hend := hk.header_end hlt
  have hi32 := hi.lt
  rw [← h j (by omega) hlt i hi]
  show Boot.place m (phdrOf img k) (elfBuf + ePhoff img + j * phdrSize + i) = m (elfBuf + ePhoff img + j * phdrSize + i)
  have hbyte : m (elfBuf + ePhoff img + j * phdrSize + i) = phdrOf img j i := h j (by omega) hlt i hi
  unfold Boot.place
  by_cases hz : Zeroed (phdrOf img k) (elfBuf + ePhoff img + j * phdrSize + i)
  · rw [if_pos hz, hbyte]
    exact ((hkeep k j (by omega) hlt hload i hi).resolve_right fun hc => hc hz).symm
  · rw [if_neg hz, if_neg fun hc => hk.buffer _ hs _ (Data.target (hk.fits hs) hc) ⟨by omega, by omega⟩]

theorem Table.next (h : Table img k m) : Table img (k + 1) m := fun j hj => h j (by omega)

/-- The loop places one segment after the other, unless it overwrites itself. -/
theorem loadSegments_eq (hk : KernelImage low img) (hkeep : KeepsHeaders img) :
    ∀ {n k : Nat} {m : Store}, k + n = ePhnum img → Table img k m → (∀ s ∈ segsFrom img k n, s ∈ segs img) →
      ((∀ s ∈ segsFrom img k n, ∀ a, Zeroed s a → ¬ Reserved low a) →
        loadSegments low n m (elfBuf + ePhoff img + k * phdrSize) = some ((segsFrom img k n).foldl place m)) ∧
      (∀ s ∈ segsFrom img k n, ∀ a, Zeroed s a → Reserved low a →
        loadSegments low n m (elfBuf + ePhoff img + k * phdrSize) = none)
  | 0, _, _, _, _, _ => ⟨fun _ => rfl, fun s hs => by cases hs⟩
  | n + 1, k, m, hn, ht, hsub => by
    have hend := hk.header_end (k := k) (by omega)
    have hsame := ht k (le_refl _) (by omega)
    have hnext : elfBuf + ePhoff img + k * phdrSize + phdrSize = elfBuf + ePhoff img + (k + 1) * phdrSize := by
      rw [Nat.succ_mul, Nat.add_assoc]
    unfold loadSegments
    rw [hnext]
    by_cases hload : pType (phdrOf img k) = ptLoad
    · rw [segsFrom_cons hload] at hsub ⊢
      have hmem := hsub _ List.mem_cons_self
      have hin : elfBuf ≤ elfBuf + ePhoff img + k * phdrSize ∧ elfBuf + ePhoff img + k * phdrSize +
          phdrSize ≤ elfBuf + bufSize :=
        ⟨by omega, by omega⟩
      have ih := fun m ht => loadSegments_eq hk hkeep (m := m) (show k + 1 + n = _ by omega) ht fun s hs =>
        hsub s (List.mem_cons_of_mem _ hs)
      by_cases hz : ∀ a, Zeroed (phdrOf img k) a → ¬ Reserved low a
      · rw [loadSegment_place hsame hload (hk.fits hmem) hin hz]
        obtain ⟨ih1, ih2⟩ := ih _ (ht.place hk hkeep hload hmem)
        refine ⟨fun hall => ih1 fun s hs => hall s (List.mem_cons_of_mem _ hs), fun s hs a hza hr => ?_⟩
        rcases List.mem_cons.1 hs with rfl | hs
        · exact absurd hr (hz a hza)
        · exact ih2 s hs a hza hr
      · push Not at hz
        obtain ⟨a, hza, hr⟩ := hz
        rw [loadSegment_none hsame hload (hk.fits hmem) hin hza hr]
        exact ⟨fun hall => absurd hr (hall _ List.mem_cons_self a hza), fun _ _ _ _ _ => rfl⟩
    · rw [segsFrom_skip hload] at hsub ⊢
      have hskip : loadSegment low m (elfBuf + ePhoff img + k * phdrSize) = some m := by
        unfold loadSegment
        rw [if_neg (by rw [hsame.fields.1]; exact hload)]
      rw [hskip]
      exact loadSegments_eq hk hkeep (show k + 1 + n = _ by omega) ht.next hsub

/-! ## Memory after the loop -/

theorem foldl_place_out (h : ∀ s ∈ l, ¬ Data s a) : l.foldl place m a = if ∃ t ∈ l, Zeroed t a then 0 else m a := by
  induction l generalizing m with
  | nil => rw [if_neg (by simp)]; rfl
  | cons s l ih =>
    rw [List.foldl_cons, ih fun t ht => h t (List.mem_cons_of_mem _ ht)]
    have hs := h s List.mem_cons_self
    by_cases hl : ∃ t ∈ l, Zeroed t a
    · obtain ⟨t, ht, hz⟩ := hl
      rw [if_pos ⟨t, ht, hz⟩, if_pos ⟨t, List.mem_cons_of_mem _ ht, hz⟩]
    · rw [if_neg hl]
      unfold place
      rw [if_neg hs]
      by_cases hz : Zeroed s a
      · rw [if_pos hz, if_pos ⟨s, List.mem_cons_self, hz⟩]
      · rw [if_neg hz, if_neg]
        rintro ⟨t, ht, hzt⟩
        rcases List.mem_cons.1 ht with rfl | ht
        · exact hz hzt
        · exact hl ⟨t, ht, hzt⟩

/-- An address that one segment has data for: its byte of the buffer, zeroed there before the copy, or zeroed
here after it. -/
theorem foldl_place_in (hd : Data s a) (hr : ∀ t ∈ r, ¬ Data t a)
    (hl : ∀ t ∈ l, ¬ Data t (elfBuf + pOffset s + (a - pVaddr s))) :
    (l ++ s :: r).foldl place m a = if (∃ t ∈ s :: r, Zeroed t a) ∨ ∃ t ∈ l, Zeroed t
    (elfBuf + pOffset s + (a - pVaddr s)) then 0
      else m (elfBuf + pOffset s + (a - pVaddr s)) := by
  rw [List.foldl_append, List.foldl_cons, foldl_place_out hr]
  by_cases hzr : ∃ t ∈ r, Zeroed t a
  · obtain ⟨t, ht, hz⟩ := hzr
    rw [if_pos ⟨t, ht, hz⟩, if_pos (Or.inl ⟨t, List.mem_cons_of_mem _ ht, hz⟩)]
  · rw [if_neg hzr]
    unfold place
    by_cases hzs : Zeroed s a
    · rw [if_pos hzs, if_pos (Or.inl ⟨s, List.mem_cons_self, hzs⟩)]
    · rw [if_neg hzs, if_pos hd]
      have hno : ¬ ∃ t ∈ s :: r, Zeroed t a := by
        rintro ⟨t, ht, hz⟩
        rcases List.mem_cons.1 ht with rfl | ht
        · exact hzs hz
        · exact hzr ⟨t, ht, hz⟩
      show l.foldl place m (elfBuf + pOffset s + (a - pVaddr s)) = _
      rw [foldl_place_out hl]
      by_cases hzl : ∃ t ∈ l, Zeroed t (elfBuf + pOffset s + (a - pVaddr s))
      · rw [if_pos hzl, if_pos (Or.inr hzl)]
      · rw [if_neg hzl, if_neg (not_or.2 ⟨hno, hzl⟩)]

/-! ## The boot -/

/-- Memory when the kernel image is in the buffer. -/
def buffered (disk m : Store) : Store := copyFromDisk disk m elfBuf bufSize sectsize

theorem buffered_in (h : a < bufSize) : buffered disk m (elfBuf + a) = image disk a := by
  unfold buffered
  rw [copyFromDisk_kernel, if_pos ⟨by omega, by omega⟩, Nat.add_sub_cancel_left]
  rfl

theorem buffered_out (h : ¬ (elfBuf ≤ a ∧ a < elfBuf + bufSize)) : buffered disk m a = m a := by
  unfold buffered
  rw [copyFromDisk_kernel, if_neg h]

/-- A word of the image in the buffer. -/
theorem buffered_word (h : a + 4 ≤ bufSize) : (deref (buffered disk m) elfBuf).word a = (image disk).word a :=
  Store.word_congr fun i hi => buffered_in (by omega)

theorem KernelImage.isTable (hk : KernelImage low (image disk)) : Table (image disk) 0 (buffered disk m) := by
  intro k _ hlt i hi
  have hend := hk.header_end hlt
  have hi32 := hi.lt
  show buffered disk m (elfBuf + ePhoff (image disk) + k * phdrSize + i) =
    image disk (ePhoff (image disk) + k * phdrSize + i)
  have hin : buffered disk m (elfBuf + (ePhoff (image disk) + k * phdrSize + i)) =
      image disk (ePhoff (image disk) + k * phdrSize + i) := buffered_in (by omega)
  rw [← hin, Nat.add_assoc elfBuf, Nat.add_assoc elfBuf]

/-- No data goes to the buffer. -/
theorem KernelImage.no_data (hk : KernelImage low img) (hs : s ∈ segs img) (hb : b < bufSize) : ¬ Data s (elfBuf + b) :=
  fun hc => hk.buffer s hs _ (Data.target (hk.fits hs) hc) ⟨by omega, by omega⟩

theorem loadKernel_loop (hk : KernelImage low (image disk)) : loadKernel low disk m =
    (loadSegments low (ePhnum (image disk)) (buffered disk m) (elfBuf + ePhoff (image disk))).map fun m' =>
      (eEntry (deref m' elfBuf), m') := by
  have htable := hk.table
  have hb : elfBuf + bufSize < 2 ^ 32 := by decide
  have hoff : ePhoff (deref (buffered disk m) elfBuf) = ePhoff (image disk) := buffered_word (by decide)
  have hnum : ePhnum (deref (buffered disk m) elfBuf) = ePhnum (image disk) := by
    have h0 : buffered disk m (elfBuf + 44) = image disk 44 := buffered_in (by decide)
    have h1 : buffered disk m (elfBuf + 45) = image disk 45 := buffered_in (by decide)
    unfold ePhnum deref
    rw [h0, h1]
  have hph : uint32 (elfBuf + ePhoff (image disk)) = elfBuf + ePhoff (image disk) := uint32_of_lt (by omega)
  have heph : uint32 (elfBuf + ePhoff (image disk) + ePhnum (image disk) * phdrSize) =
      elfBuf + ePhoff (image disk) + ePhnum (image disk) * phdrSize := uint32_of_lt (by omega)
  have hdef : loadKernel low disk m =
      (loadSegments low ((uint32 (uint32 (elfBuf + ePhoff (deref (buffered disk m) elfBuf)) +
        ePhnum (deref (buffered disk m) elfBuf) * phdrSize) -
          uint32 (elfBuf + ePhoff (deref (buffered disk m) elfBuf))) / phdrSize)
        (buffered disk m) (uint32 (elfBuf + ePhoff (deref (buffered disk m) elfBuf)))).bind fun m' =>
      some (eEntry (deref m' elfBuf), m') := rfl
  rw [hdef, hoff, hnum, hph, heph, Nat.add_sub_cancel_left, Nat.mul_div_cancel _ (by decide)]
  cases loadSegments low (ePhnum (image disk)) (buffered disk m) (elfBuf + ePhoff (image disk)) <;> rfl

theorem segs_sub : ∀ s ∈ segsFrom img 0 (ePhnum img), s ∈ segs img := fun _ hs => hs

/-- The segments are placed, unless the loader overwrites itself. -/
theorem loadKernel_some (hk : KernelImage low (image disk)) (hkeep : KeepsHeaders (image disk))
    (hb : ∀ s ∈ segs (image disk), ∀ a, Zeroed s a → ¬ Reserved low a) :
    loadKernel low disk m = some (eEntry (deref ((segs (image disk)).foldl place (buffered disk m)) elfBuf),
      (segs (image disk)).foldl place (buffered disk m)) := by
  have hrun := (loadSegments_eq hk hkeep (Nat.zero_add _) (hk.isTable (m := m)) segs_sub).1 hb
  rw [Nat.zero_mul, Nat.add_zero] at hrun
  rw [loadKernel_loop hk, hrun]
  rfl

theorem loadKernel_none (hk : KernelImage low (image disk)) (hkeep : KeepsHeaders (image disk))
    (hs : s ∈ segs (image disk)) (hz : Zeroed s a) (hr : Reserved low a) : loadKernel low disk m = none := by
  have hrun := (loadSegments_eq hk hkeep (Nat.zero_add _) (hk.isTable (m := m)) segs_sub).2 s hs a hz hr
  rw [Nat.zero_mul, Nat.add_zero] at hrun
  rw [loadKernel_loop hk, hrun]
  rfl

/-- The targets of the segments before and behind one of them. -/
theorem KernelImage.others (hk : KernelImage low img) (hsplit : segs img = l ++ s :: r) (ha : Target s a) :
    (∀ t ∈ l, ¬ Target t a) ∧ ∀ t ∈ r, ¬ Target t a := by
  have hp := hk.apart
  rw [hsplit, List.pairwise_append] at hp
  obtain ⟨-, hr, hl⟩ := hp
  exact ⟨fun t ht hc => hl t ht s List.mem_cons_self a hc ha, fun t ht => (List.pairwise_cons.1 hr).1 t ht a ha⟩

/-- What a segment's data becomes. -/
theorem placed_data (hk : KernelImage low (image disk)) (hsplit : segs (image disk) = l ++ s :: r)
    (hb : b < pFilesz s) :
    (segs (image disk)).foldl place (buffered disk m) (pVaddr s + b) =
      if (∃ t ∈ s :: r, Zeroed t (pVaddr s + b)) ∨ ∃ t ∈ l, Zeroed t (elfBuf + pOffset s + b) then 0
      else image disk (pOffset s + b) := by
  have hs : s ∈ segs (image disk) := hsplit ▸ List.mem_append_right _ List.mem_cons_self
  have hl : ∀ t ∈ l, t ∈ segs (image disk) := fun t ht => hsplit ▸ List.mem_append_left _ ht
  have hr : ∀ t ∈ r, t ∈ segs (image disk) := fun t ht => hsplit ▸ List.mem_append_right _ (List.mem_cons_of_mem _ ht)
  have hfile := hk.file s hs
  have hd : Data s (pVaddr s + b) := ⟨by omega, by omega⟩
  have ht := Data.target (hk.fits hs) hd
  rw [hsplit, foldl_place_in hd (fun t htr hc => (hk.others hsplit ht).2 t htr (Data.target (hk.fits (hr t htr)) hc))
    fun t htl => ?_, Nat.add_sub_cancel_left, Nat.add_assoc elfBuf, buffered_in (by omega)]
  rw [Nat.add_assoc]
  exact hk.no_data (hl t htl) (by omega)

/-- What comes behind the data of a segment. -/
theorem placed_zeros (hk : KernelImage low (image disk)) (hs : s ∈ segs (image disk)) (h1 : pVaddr s + pFilesz s ≤ a)
    (h2 : a < pVaddr s + pMemsz s) : (segs (image disk)).foldl place (buffered disk m) a =
      if ∃ t ∈ segs (image disk), Zeroed t a then 0 else m a := by
  have ht : Target s a := ⟨by omega, h2⟩
  obtain ⟨l, r, hsplit⟩ := List.append_of_mem hs
  rw [foldl_place_out fun t htm hc => ?_, buffered_out (hk.buffer s hs a ht)]
  have hct := Data.target (hk.fits htm) hc
  rw [hsplit] at htm
  rcases List.mem_append.1 htm with h | h
  · exact (hk.others hsplit ht).1 t h hct
  · rcases List.mem_cons.1 h with rfl | h
    · exact absurd hc.2 (by omega)
    · exact (hk.others hsplit ht).2 t h hct

/-- The entry point is as in the image, unless a byte of it is zeroed. -/
theorem placed_entry (hk : KernelImage low (image disk)) {i : Nat} (hi : i < 4) :
    deref ((segs (image disk)).foldl place (buffered disk m)) elfBuf (24 + i) =
      if ∃ t ∈ segs (image disk), Zeroed t (elfBuf + (24 + i)) then 0 else image disk (24 + i) := by
  have hsmall : (28 : Nat) ≤ bufSize := by decide
  show (segs (image disk)).foldl place (buffered disk m) (elfBuf + (24 + i)) = _
  rw [foldl_place_out fun s hs => hk.no_data hs (by omega), buffered_in (by omega)]

theorem Harmless.loaded (hk : KernelImage low (image disk)) (hkeep : KeepsHeaders (image disk))
    (h : Harmless low (image disk) m) : Loaded low disk m := by
  have hentry : eEntry (deref ((segs (image disk)).foldl place (buffered disk m)) elfBuf) = eEntry (image disk) := by
    refine Store.word_congr fun i hi => ?_
    rw [placed_entry hk hi]
    split
    · next hex =>
      obtain ⟨t, ht, hz⟩ := hex
      exact ((h.entry t ht i hi).resolve_right fun hc => hc hz).symm
    · rfl
  have hload := loadKernel_some hk hkeep h.boot (m := m)
  rw [hentry] at hload
  refine ⟨_, hload, fun s hs => ⟨fun o ho => ?_, fun a h1 h2 => ?_⟩⟩
  · obtain ⟨l, r, hsplit⟩ := List.append_of_mem hs
    rw [placed_data hk hsplit ho]
    rcases h.data l s r hsplit o ho with h0 | ⟨hl, hr⟩
    · rw [h0, ite_self]
    · rw [if_neg]
      rintro (⟨t, ht, hz⟩ | ⟨t, ht, hz⟩)
      · exact hr t ht hz
      · exact hl t ht hz
  · rw [placed_zeros hk hs h1 h2]
    split
    · rfl
    · next hno => exact (h.zeros s hs a h1 h2).resolve_right hno

theorem Loaded.harmless (hk : KernelImage low (image disk)) (hkeep : KeepsHeaders (image disk))
    (h : Loaded low disk m) :
    Harmless low (image disk) m := by
  obtain ⟨m', hload, hall⟩ := h
  have hboot : ∀ s ∈ segs (image disk), ∀ a, Zeroed s a → ¬ Reserved low a := fun s hs a hz hr => by
    rw [loadKernel_none hk hkeep hs hz hr] at hload
    cases hload
  rw [loadKernel_some hk hkeep hboot, Option.some_inj, Prod.mk.injEq] at hload
  obtain ⟨hentry, rfl⟩ := hload
  refine ⟨hboot, fun s hs i hi => ?_, fun s hs a h1 h2 => ?_, fun l s r hsplit o ho => ?_⟩
  · have hbyte := byte_of_word hentry i hi
    rw [placed_entry hk hi] at hbyte
    split at hbyte
    · exact Or.inl hbyte.symm
    · next hno => exact Or.inr fun hz => hno ⟨s, hs, hz⟩
  · have hz := (hall s hs).2 a h1 h2
    rw [placed_zeros hk hs h1 h2] at hz
    split at hz
    · next hex => exact Or.inr hex
    · exact Or.inl hz
  · have hs : s ∈ segs (image disk) := hsplit ▸ List.mem_append_right _ List.mem_cons_self
    have hd := (hall s hs).1 o ho
    rw [placed_data hk hsplit ho] at hd
    split at hd
    · exact Or.inl hd.symm
    · next hno =>
      rw [not_or] at hno
      exact Or.inr ⟨fun t ht hz => hno.2 ⟨t, ht, hz⟩, fun t ht hz => hno.1 ⟨t, ht, hz⟩⟩

/-- An image whose headers are left alone is loaded exactly when what the loop zeroes is not needed, and what
should be zero is zero otherwise. -/
theorem kernel_loaded (hk : KernelImage low (image disk)) (hkeep : KeepsHeaders (image disk)) :
    Loaded low disk m ↔ Harmless low (image disk) m :=
  ⟨Loaded.harmless hk hkeep, Harmless.loaded hk hkeep⟩

/-- One segment at 1 MiB: a byte of data, and a byte behind it. -/
def oneByte : Store := fun a =>
  if a = 28 then 52 else if a = 44 then 1 else if a = 52 then 1 else if a = 56 then 84 else if a = 62 then 16
  else if a = 68 then 1 else if a = 72 then 2 else if a = 84 then 7 else 0

def oneByteDisk : Store := fun a => oneByte (a - sectsize)

theorem image_oneByte : image oneByteDisk = oneByte := by
  funext a
  show oneByte (sectsize + a - sectsize) = oneByte a
  rw [Nat.add_sub_cancel_left]

theorem segs_oneByte : segs oneByte = [phdrOf oneByte 0] := segsFrom_cons rfl

theorem oneByte_fields : pOffset (phdrOf oneByte 0) = 84 ∧ pVaddr (phdrOf oneByte 0) = 0x100000 ∧
    pFilesz (phdrOf oneByte 0) = 1 ∧ pMemsz (phdrOf oneByte 0) = 2 := ⟨rfl, rfl, rfl, rfl⟩

theorem oneByte_zeroed : Zeroed (phdrOf oneByte 0) a ↔ a = elfBuf + 85 := by
  obtain ⟨h1, -, h3, h4⟩ := oneByte_fields
  unfold Zeroed
  rw [h1, h3, h4]
  omega

theorem oneByte_kernelImage : KernelImage 0x1ff000 oneByte := by
  obtain ⟨h1, h2, h3, h4⟩ := oneByte_fields
  have htarget : ∀ s ∈ segs oneByte, ∀ a, Target s a → a = 0x100000 ∨ a = 0x100001 := by
    rw [segs_oneByte]
    rintro s hs a ⟨ha, hb⟩
    obtain rfl := List.mem_singleton.1 hs
    rw [h2] at ha hb
    rw [h4] at hb
    omega
  have hone : ∀ {P : Phdr → Prop}, P (phdrOf oneByte 0) → ∀ s ∈ segs oneByte, P s := by
    rw [segs_oneByte]
    intro P hP s hs
    obtain rfl := List.mem_singleton.1 hs
    exact hP
  refine ⟨by decide, hone (by decide), hone (by decide), hone (by decide), ?_, fun s hs a ha => ?_, fun s hs a ha => ?_⟩
  · rw [segs_oneByte]
    exact List.pairwise_singleton _ _
  · rcases htarget s hs a ha with rfl | rfl <;> decide
  · rcases htarget s hs a ha with rfl | rfl <;> decide

theorem oneByte_keepsHeaders : KeepsHeaders oneByte := fun j k hjk hk => by
  have : ePhnum oneByte = 1 := rfl
  omega

/-- Memory that was zero before. -/
theorem kernel_loaded_demo : Loaded 0x1ff000 oneByteDisk (fun _ => 0) := by
  refine (kernel_loaded (image_oneByte ▸ oneByte_kernelImage) (image_oneByte ▸ oneByte_keepsHeaders)).2 ?_
  rw [image_oneByte]
  have hs : ∀ s ∈ segs oneByte, s = phdrOf oneByte 0 := by
    rw [segs_oneByte]
    exact fun s hs => List.mem_singleton.1 hs
  refine ⟨fun s h a hz => ?_, fun s h i hi => Or.inr fun hz => ?_, fun _ _ _ _ _ => Or.inl rfl,
    fun l s r hsplit o ho => Or.inr ⟨fun t ht hz => ?_, fun t ht hz => ?_⟩⟩
  · obtain rfl := hs s h
    obtain rfl := oneByte_zeroed.1 hz
    decide
  · obtain rfl := hs s h
    have := oneByte_zeroed.1 hz
    omega
  · have hlen := congrArg List.length hsplit
    rw [segs_oneByte, List.length_append, List.length_cons, List.length_cons, List.length_nil] at hlen
    obtain rfl : l = [] := List.length_eq_zero_iff.1 (by omega)
    cases ht
  · have hmem : s ∈ segs oneByte := hsplit ▸ List.mem_append_right _ List.mem_cons_self
    obtain rfl := hs s hmem
    obtain rfl := hs t (hsplit ▸ List.mem_append_right _ ht)
    have ha := oneByte_zeroed.1 hz
    rw [oneByte_fields.2.1] at ha
    have : elfBuf + 85 < 0x100000 := by decide
    omega

/-- The byte behind the data keeps what memory held before. -/
theorem kernel_not_zeroed : KernelImage 0x1ff000 (image oneByteDisk) ∧ ¬ Loaded 0x1ff000 oneByteDisk (fun _ => 1) := by
  have hk := image_oneByte.symm ▸ oneByte_kernelImage
  refine ⟨hk, fun h => ?_⟩
  have hz := (h.harmless hk (image_oneByte.symm ▸ oneByte_keepsHeaders)).zeros
  rw [image_oneByte, segs_oneByte] at hz
  obtain ⟨-, h2, h3, h4⟩ := oneByte_fields
  rcases hz _ List.mem_cons_self 0x100001 (by rw [h2, h3]) (by rw [h2, h4]; omega) with h0 | ⟨t, ht, hza⟩
  · exact absurd h0 (by decide)
  · obtain rfl := List.mem_singleton.1 ht
    exact absurd (oneByte_zeroed.1 hza) (by decide)

end TinyOS.Boot
