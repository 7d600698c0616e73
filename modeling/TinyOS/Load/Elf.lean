/-
What an executable file asks for: its segments, the pages that they touch and the rights for these, from the
bytes of the file alone.
-/
import TinyOS.Load.Malformed
import TinyOS.Vm.Start

namespace TinyOS

open TinyOS.Lib TinyOS.Vm Phdr Ehdr

variable {m : Store} {elf : Ehdr} {ph : Phdr} {f : List UInt8} {l : List Phdr} {w off len o n k phoff size : Nat}

/-! ## The file -/

def wordAt (f : List UInt8) (o : Nat) : Nat := Store.wordOf (f.drop o)

def halfAt (f : List UInt8) (o : Nat) : Nat := (f.getD o 0).toNat + 256 * (f.getD (o + 1) 0).toNat

/-- A range of addresses, and the bytes of the file for its first part; the rest is zeros. -/
structure Segment where
  offset : Nat
  vaddr : Nat
  filesz : Nat
  memsz : Nat
  writable : Bool

namespace Segment

/-- The pages with a byte of the segment. -/
def pages (g : Segment) : Finset Nat := (Finset.range g.memsz).image fun i => (g.vaddr + i) / pgsize

def prot (g : Segment) : Nat := if g.writable then 7 else 5

/-- The addresses are user addresses below the stack, and the data is in a file of `size` bytes. -/
structure Ok (size : Nat) (g : Segment) : Prop where
  nonempty : 0 < g.memsz
  low : phyMem ≤ g.vaddr
  high : g.vaddr + g.memsz ≤ usrMem - pgsize
  shorter : g.filesz ≤ g.memsz
  inside : g.offset + g.filesz ≤ size

def Disjoint (g g' : Segment) : Prop := g.vaddr + g.memsz ≤ g'.vaddr ∨ g'.vaddr + g'.memsz ≤ g.vaddr

instance (size : Nat) (g : Segment) : Decidable (Ok size g) :=
  decidable_of_iff (0 < g.memsz ∧ phyMem ≤ g.vaddr ∧ g.vaddr + g.memsz ≤ usrMem - pgsize ∧ g.filesz ≤ g.memsz ∧
    g.offset + g.filesz ≤ size)
    ⟨fun h => ⟨h.1, h.2.1, h.2.2.1, h.2.2.2.1, h.2.2.2.2⟩, fun h => ⟨h.nonempty, h.low, h.high, h.shorter, h.inside⟩⟩

instance (g g' : Segment) : Decidable (Disjoint g g') := inferInstanceAs (Decidable (_ ∨ _))

theorem mem_pages {g : Segment} : w ∈ g.pages ↔ ∃ i < g.memsz, (g.vaddr + i) / pgsize = w := by
  simp [pages]

end Segment

/-- The segment of the program header at offset `o`. -/
def segmentAt (f : List UInt8) (o : Nat) : Segment where
  offset := wordAt f (o + 4)
  vaddr := wordAt f (o + 8)
  filesz := wordAt f (o + 16)
  memsz := wordAt f (o + 20)
  writable := wordAt f (o + 24) &&& pfW ≠ 0

def entry (f : List UInt8) : Nat := wordAt f 24

/-- Where the program headers are. -/
def headerOffsets (f : List UInt8) : List Nat := (List.range (halfAt f 44)).map fun k => wordAt f 28 + k * phdrSize

/-- The segments to load. -/
def segments (f : List UInt8) : List Segment :=
  ((headerOffsets f).filter fun o => wordAt f o = ptLoad).map (segmentAt f)

/-- An executable that `load_elf` is meant for. -/
structure ElfFile (f : List UInt8) : Prop where
  size : ehdrSize ≤ f.length
  magic : wordAt f 0 = elfMagic
  headers : ∀ o ∈ headerOffsets f, o + phdrSize ≤ f.length
  ok : ∀ g ∈ segments f, g.Ok f.length
  disjoint : (segments f).Pairwise Segment.Disjoint

/-- The pages of the segments and of the stack. -/
def imagePages (l : List Segment) : Finset Nat := l.foldr (fun g P => g.pages ∪ P) {stackPage}

/-- The rights to a page that the segments ask for. -/
def rightsOf (l : List Segment) (w : Nat) : Nat :=
  if ∃ g ∈ l, w ∈ g.pages ∧ g.writable = true then 7 else if ∃ g ∈ l, w ∈ g.pages then 5 else 0

theorem mem_imagePages {l : List Segment} : w ∈ imagePages l ↔ (∃ g ∈ l, w ∈ g.pages) ∨ w = stackPage := by
  unfold imagePages
  induction l with
  | nil => simp
  | cons g l ih => rw [List.foldr_cons, Finset.mem_union, ih, List.exists_mem_cons_iff, or_assoc]

/-- Rights only accumulate. -/
theorem rightsOf_snoc {l : List Segment} {g : Segment} :
    rightsOf (l ++ [g]) w = if w ∈ g.pages then rightsOf l w ||| g.prot else rightsOf l w := by
  have hany (p : Segment → Prop) : (∃ g' ∈ l ++ [g], p g') ↔ (∃ g' ∈ l, p g') ∨ p g := by
    simp only [List.mem_append, List.mem_singleton, or_and_right, exists_or, exists_eq_left]
  unfold rightsOf Segment.prot
  simp only [hany]
  by_cases hw : w ∈ g.pages
  · by_cases h7 : ∃ g' ∈ l, w ∈ g'.pages ∧ g'.writable = true
    · cases g.writable <;> simp [hw, h7]
    · by_cases h5 : ∃ g' ∈ l, w ∈ g'.pages
      · cases g.writable <;> simp [hw, h7, h5]
      · cases g.writable <;> simp [hw, h7, h5]
  · simp [hw]

/-! ## What the loader reads of it -/

theorem wordAt_bytes : wordAt f o = (f.getD o 0).toNat +
    256 * ((f.getD (o + 1) 0).toNat + 256 * ((f.getD (o + 2) 0).toNat + 256 * (f.getD (o + 3) 0).toNat)) := by
  unfold wordAt Store.wordOf
  simp only [List.getD_eq_getElem?_getD, List.getElem?_drop, Nat.add_zero]

/-- A local variable after `iread` from inside the file. -/
theorem local_byte (h : off + len ≤ f.length) (ho : o < len) :
    Store.write m 0 (filePart f off len) o = f.getD (off + o) 0 := by
  have hlen : o < 0 + (filePart f off len).length := by
    rw [filePart_length]
    omega
  rw [Store.write_in (Nat.zero_le o) hlen, Nat.sub_zero, List.getD_eq_getElem?_getD, filePart_get ho,
    List.getD_eq_getElem?_getD]

theorem local_word (h : off + len ≤ f.length) (ho : o + 4 ≤ len) :
    (Store.write m 0 (filePart f off len)).word o = wordAt f (off + o) := by
  unfold Store.word
  rw [wordAt_bytes, local_byte h (by omega), local_byte h (by omega), local_byte h (by omega), local_byte h (by omega)]
  rfl

/-- The segment of a program header in memory. -/
def Phdr.segment (ph : Phdr) : Segment where
  offset := pOffset ph
  vaddr := pVaddr ph
  filesz := pFilesz ph
  memsz := pMemsz ph
  writable := pFlags ph &&& pfW ≠ 0

theorem header_segment (ph : Phdr) (h : phoff + k * phdrSize + phdrSize ≤ f.length) (hf : f.length < 2 ^ 32) :
    pType (header f phoff k ph) = wordAt f (phoff + k * phdrSize) ∧
      (header f phoff k ph).segment = segmentAt f (phoff + k * phdrSize) := by
  -- a header inside the file leaves nothing of what the variable held
  have hword : ∀ o, o + 4 ≤ phdrSize → (header f phoff k ph).word o = wordAt f (phoff + k * phdrSize + o) := by
    intro o ho
    unfold header
    rw [uint32_of_lt (by omega)]
    exact local_word h ho
  refine ⟨hword 0 (by decide), ?_⟩
  unfold Phdr.segment segmentAt pOffset pVaddr pFilesz pMemsz pFlags
  rw [hword 4 (by decide), hword 8 (by decide), hword 16 (by decide), hword 20 (by decide), hword 24 (by decide)]

/-- With its headers inside the file, the loop finds the segments of the file, whatever the variable held. -/
theorem loadable_segments (ph : Phdr) (h : ∀ j ∈ List.range' k n, phoff + j * phdrSize + phdrSize ≤ f.length)
    (hf : f.length < 2 ^ 32) :
    (loadable (headers f phoff n k ph)).map Phdr.segment =
      (((List.range' k n).map fun j => phoff + j * phdrSize).filter fun o => wordAt f o = ptLoad).map
      (segmentAt f) := by
  induction n generalizing k ph with
  | zero => rfl
  | succ n ih =>
    rw [List.range'_succ] at h ⊢
    obtain ⟨hk, hrest⟩ := List.forall_mem_cons.1 h
    obtain ⟨htype, hseg⟩ := header_segment ph hk hf
    have hnext := ih (header f phoff k ph) hrest
    rw [headers, List.map_cons]
    by_cases hl : wordAt f (phoff + k * phdrSize) = ptLoad
    · rw [loadable_pos (htype.trans hl), List.filter_cons_of_pos (by rw [decide_eq_true_iff]; exact hl), List.map_cons,
        List.map_cons, hseg, hnext]
    · rw [loadable_neg (htype ▸ hl), List.filter_cons_of_neg (by rw [decide_eq_true_iff]; exact hl), hnext]

namespace ElfFile

theorem ehdr (h : ElfFile f) (elf : Ehdr) : Ehdr.magic (ehdrOf f elf) = elfMagic ∧ eEntry (ehdrOf f elf) = entry f ∧
    ePhoff (ehdrOf f elf) = wordAt f 28 ∧ ePhnum (ehdrOf f elf) = halfAt f 44 := by
  have hsize : 0 + ehdrSize ≤ f.length := (Nat.zero_add _).le.trans h.size
  unfold Ehdr.magic eEntry ePhoff ePhnum ehdrOf
  rw [local_word hsize (by decide), local_word hsize (by decide), local_word hsize (by decide),
    local_byte hsize (by decide), local_byte hsize (by decide), Nat.zero_add]
  exact ⟨h.magic, rfl, rfl, rfl⟩

theorem segsOf (h : ElfFile f) (elf : Ehdr) (ph : Phdr) (hf : f.length < 2 ^ 32) :
    (segsOf f elf ph).map Phdr.segment = segments f := by
  obtain ⟨-, -, hphoff, hphnum⟩ := h.ehdr elf
  unfold TinyOS.segsOf segments headerOffsets
  rw [hphoff, hphnum, List.range_eq_range']
  refine loadable_segments ph (fun j hj => h.headers _ ?_) hf
  unfold headerOffsets
  rw [List.range_eq_range']
  exact List.mem_map.2 ⟨j, hj, rfl⟩

end ElfFile

theorem Phdr.segment_prot : ph.segment.prot = prot ph := by
  unfold Segment.prot Phdr.segment prot
  simp only [decide_eq_true_eq]

theorem Phdr.segment_pages (h : ph.segment.Ok size) : InRange (pVaddr ph) (pMemsz ph) w ↔ w ∈ ph.segment.pages := by
  have hpos : 0 < pMemsz ph := h.nonempty
  have hhigh : pVaddr ph + pMemsz ph ≤ 0xc0000000 - 4096 := h.high
  have hpages : w ∈ ph.segment.pages ↔ ∃ i < pMemsz ph, (pVaddr ph + i) / 4096 = w := Segment.mem_pages
  rw [hpages]
  unfold InRange pageUp uint32 pgsize
  constructor
  · rintro ⟨h1, h2⟩
    exact ⟨max (pVaddr ph) (w * 4096) - pVaddr ph, by omega, by omega⟩
  · rintro ⟨i, hi, rfl⟩
    omega

theorem Phdr.segment_ok (h : ph.segment.Ok size) (hsize : size < 2 ^ 32) : SegOk size ph := by
  have hlow : 0x8000000 ≤ pVaddr ph := h.low
  have hhigh : pVaddr ph + pMemsz ph ≤ 0xc0000000 - 4096 := h.high
  have hshorter : pFilesz ph ≤ pMemsz ph := h.shorter
  have hinside : pOffset ph + pFilesz ph ≤ size := h.inside
  have hzeros : usub32 (pMemsz ph) (pFilesz ph) = pMemsz ph - pFilesz ph := usub32_of_le hshorter (by omega)
  have hend : uint32 (pVaddr ph + pMemsz ph) = pVaddr ph + pMemsz ph := uint32_of_lt (by omega)
  have hup : pageUp (pVaddr ph + pMemsz ph) = (pVaddr ph + pMemsz ph + 4095) / 4096 * 4096 := by
    unfold pageUp
    rw [uint32_of_lt (by omega)]
  have hdown : pageDown (pVaddr ph) = pVaddr ph / 4096 * 4096 := rfl
  refine ⟨?_, range_noWrap (by omega), fun _ => by omega, ?_, ?_⟩
  · show 0x8000000 ≤ pVaddr ph / 4096 * 4096
    omega
  · rw [hend, hup]
    omega
  · rw [hzeros, hdown, hend]
    omega

end TinyOS
