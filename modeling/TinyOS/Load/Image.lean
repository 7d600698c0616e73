/-
`load_elf` builds the image of an executable: the bytes of the segments, their pages and the rights for them.
-/
import TinyOS.Load.Elf

namespace TinyOS

open TinyOS.Lib TinyOS.Vm Phdr

variable {vm : Vm} {fs : Fs} {D K : Nat → Prop} {L : List Nat} {P Q : Finset Nat} {x y : Loader}
  {elf : Ehdr} {ph p : Phdr}
  {f name : List UInt8} {l : List Phdr} {s t : Loader × Finset Nat} {bs : List UInt8} {b : UInt8}
  {d a i w n cwd total : Nat}

/-! ## The bytes of a segment -/

theorem bytesFrom_add : bytesFrom a bs (a + i) = bs[i]? := by
  unfold bytesFrom
  rw [if_pos (Nat.le_add_right _ _), Nat.add_sub_cancel_left]

theorem bytesFrom_some (h : bytesFrom a bs w = some b) : a ≤ w ∧ w < a + bs.length := by
  unfold bytesFrom at h
  split at h
  · next ha =>
    obtain ⟨hlt, -⟩ := List.getElem?_eq_some_iff.1 h
    omega
  · cases h

/-- The zeros follow the data. -/
theorem segBytes_eq (h : ph.segment.Ok f.length) :
    segBytes f ph a = (bytesFrom (pVaddr ph + pFilesz ph) (List.replicate (pMemsz ph - pFilesz ph) 0) a).or
      (bytesFrom (pVaddr ph) (filePart f (pOffset ph) (pFilesz ph)) a) := by
  have hhigh : pVaddr ph + pMemsz ph ≤ 0xc0000000 - 4096 := h.high
  have hshorter : pFilesz ph ≤ pMemsz ph := h.shorter
  unfold segBytes
  rw [uint32_of_lt (show pVaddr ph + pFilesz ph < 2 ^ 32 by omega), usub32_of_le hshorter pMemsz_lt]

theorem segBytes_data (h : ph.segment.Ok f.length) (hi : i < pFilesz ph) :
    segBytes f ph (pVaddr ph + i) = f[pOffset ph + i]? := by
  have hnone :
      bytesFrom (pVaddr ph + pFilesz ph) (List.replicate (pMemsz ph - pFilesz ph) 0) (pVaddr ph + i) = none := by
    unfold bytesFrom
    rw [if_neg (by omega)]
  rw [segBytes_eq h, hnone, Option.none_or, bytesFrom_add, filePart_get hi]

theorem segBytes_zeros (h : ph.segment.Ok f.length) (h1 : pFilesz ph ≤ i) (h2 : i < pMemsz ph) :
    segBytes f ph (pVaddr ph + i) = some 0 := by
  have hadd : pVaddr ph + i = pVaddr ph + pFilesz ph + (i - pFilesz ph) := by omega
  rw [segBytes_eq h, hadd, bytesFrom_add, List.getElem?_replicate, if_pos (by omega)]
  rfl

/-- Nothing is put outside of the segment. -/
theorem segBytes_some (h : ph.segment.Ok f.length) (hs : segBytes f ph a = some b) :
    pVaddr ph ≤ a ∧ a < pVaddr ph + pMemsz ph := by
  have hshorter : pFilesz ph ≤ pMemsz ph := h.shorter
  rw [segBytes_eq h] at hs
  rcases Option.or_eq_some_iff.1 hs with hzero | ⟨-, hdata⟩
  · have hin := bytesFrom_some hzero
    rw [List.length_replicate] at hin
    omega
  · have hin := bytesFrom_some hdata
    rw [filePart_length] at hin
    omega

/-- Its bytes are on its pages. -/
theorem segBytes_page (h : ph.segment.Ok f.length) (hf : f.length < 2 ^ 32) (hs : segBytes f ph a = some b) :
    UserPage (a / pgsize) ∧ InRange (pVaddr ph) (pMemsz ph) (a / pgsize) := by
  obtain ⟨h1, h2⟩ := segBytes_some h hs
  have hin : InRange (pVaddr ph) (pMemsz ph) (a / pgsize) := by
    refine (segment_pages h).2 (Segment.mem_pages.2 ⟨a - pVaddr ph, ?_, ?_⟩)
    · show a - pVaddr ph < pMemsz ph
      omega
    · show (pVaddr ph + (a - pVaddr ph)) / pgsize = a / pgsize
      rw [Nat.add_sub_cancel' h1]
  exact ⟨hin.userPage (segment_ok h hf).low, hin⟩

theorem segBytes_disjoint (h : p.segment.Ok f.length) (hph : ph.segment.Ok f.length)
    (hdisj : p.segment.Disjoint ph.segment) (hs : segBytes f p a = some b) : segBytes f ph a = none := by
  cases hnone : segBytes f ph a with
  | none => rfl
  | some c =>
    have h1 := segBytes_some h hs
    have h2 := segBytes_some hph hnone
    have h3 : pVaddr p + pMemsz p ≤ pVaddr ph ∨ pVaddr ph + pMemsz ph ≤ pVaddr p := hdisj
    omega

/-! ## The loop -/

/-- What is in the address space after the segments `l`. -/
structure Placed (s : Loader × Finset Nat) (f : List UInt8) (d : Nat) (l : List Phdr) : Prop where
  pages : s.2 = pagesFrom ∅ l
  rights : ∀ w, UserPage w → s.1.vm.rights d w = rightsOf (l.map Phdr.segment) w
  bytes : ∀ p ∈ l, ∀ a b, segBytes f p a = some b → s.1.vm.peek d a = some b

/-- The segments are on mapped pages. -/
theorem Placed.view (h : Placed s f d l) (hF : Fills s.1.vm d L s.2 total) (hp : p ∈ l) (hw : UserPage w)
    (hin : InRange (pVaddr p) (pMemsz p) w) : s.1.vm.view d w ≠ none := by
  rw [hF.view hw, h.pages]
  exact mem_pagesFrom.2 (Or.inr ⟨p, hp, hin⟩)

/-- A segment leaves the bytes of those before it, also on the pages that it shares with them. -/
theorem LoadStep.placed (h : LoadStep fs D K f d total s ph t) (hp : Placed s f d l) (hf : f.length < 2 ^ 32)
    (hok : ∀ p ∈ l, p.segment.Ok f.length) (hph : ph.segment.Ok f.length)
    (hdisj : ∀ p ∈ l, p.segment.Disjoint ph.segment) :
    Placed t f d (l ++ [ph]) := by
  refine ⟨?_, ?_, ?_⟩
  · rw [h.pages, hp.pages, pagesFrom_snoc]
  · intro w hw
    rw [h.loaded.rights w hw, hp.rights w hw, List.map_append, List.map_singleton, rightsOf_snoc, segment_prot]
    simp only [segment_pages hph]
  · intro p hmem a b hs
    rcases List.mem_append.1 hmem with hold | hnew
    · -- its page was mapped before, and the new segment puts nothing at its address
      obtain ⟨huser, hin⟩ := segBytes_page (hok p hold) hf hs
      obtain ⟨L, -, hF⟩ := h.before.vm
      have hnone := segBytes_disjoint (hok p hold) hph (hdisj p hold) hs
      rw [h.loaded.old a huser hnone (hp.view hF hold huser hin)]
      exact hp.bytes p hold a b hs
    · obtain rfl := List.mem_singleton.1 hnew
      exact h.loaded.new a b (segBytes_page hph hf hs).1 hs

theorem Vm.Empty.placed (h : Empty vm d) : Placed (⟨vm, fs, []⟩, ∅) f d [] := by
  refine ⟨rfl, ?_, fun p hp => absurd hp List.not_mem_nil⟩
  intro w hw
  show vm.rights d w = rightsOf [] w
  unfold Vm.rights rightsOf
  simp [h.pte hw.index.1]

theorem placed_run (hr : Run (LoadStep fs D K f d total) s l t) (hs : Placed s f d []) (hf : f.length < 2 ^ 32)
    (hok : ∀ p ∈ l, p.segment.Ok f.length) (hdisj : (l.map Phdr.segment).Pairwise Segment.Disjoint) :
    Placed t f d l := by
  refine hr.invariant_log (I := fun l t => (∀ p ∈ l, p.segment.Ok f.length) →
    (l.map Phdr.segment).Pairwise Segment.Disjoint → Placed t f d l)
    ?_ (fun _ _ => hs) hok hdisj
  intro l t ph u ih h hok hdisj
  rw [List.map_append, List.pairwise_append] at hdisj
  obtain ⟨hinit, -, hlast⟩ := hdisj
  have hok' : ∀ p ∈ l, p.segment.Ok f.length := fun p hp => hok p (List.mem_append_left _ hp)
  refine h.placed (ih hok' hinit) hf hok' (hok ph (List.mem_append_right _ List.mem_cons_self)) ?_
  intro p hp
  exact hlast _ (List.mem_map_of_mem hp) _ List.mem_cons_self

/-! ## The image -/

/-- The executable `f` is in the address space of `d`: its data and its zeros, and exactly its pages, which the
program may use, and write to where a segment on them asks for it. -/
structure Image (s : Vm) (d : Nat) (f : List UInt8) : Prop where
  data : ∀ g ∈ segments f, ∀ i < g.filesz, s.peek d (g.vaddr + i) = f[g.offset + i]?
  zeros : ∀ g ∈ segments f, ∀ i, g.filesz ≤ i → i < g.memsz → s.peek d (g.vaddr + i) = some 0
  mapped : ∀ w, UserPage w → (s.view d w ≠ none ↔ w ∈ imagePages (segments f))
  rights : ∀ w ∈ imagePages (segments f), s.rights d w = if w = stackPage then 7 else rightsOf (segments f) w

theorem stack_range : InRange (usrMem - pgsize) pgsize w ↔ w = stackPage := by
  unfold InRange
  show 0xbffff ≤ w ∧ w < 0xc0000 ↔ w = 0xbffff
  omega

theorem rightsOf_or {l : List Segment} : rightsOf l w ||| 7 = 7 := by
  unfold rightsOf
  split
  · rfl
  · split <;> rfl

/-- The pages that the loop and the stack take are those of the image. -/
theorem pagesOf_eq (hok : ∀ p ∈ l, p.segment.Ok n) : pagesOf l = imagePages (l.map Phdr.segment) := by
  ext w
  unfold pagesOf
  rw [Finset.mem_union, mem_rangePages, stack_range, mem_imagePages, mem_pagesFrom]
  simp only [Finset.notMem_empty, false_or, List.mem_map, exists_exists_and_eq_and]
  exact or_congr_left (exists_congr fun p => and_congr_right fun hp => segment_pages (hok p hp))

/-- The stack is mapped last. -/
theorem Placed.image {vm' : Vm} (h : Placed s f d l) (hs : Sound s.1.vm D K L) (hd : D d)
    (hF : Fills s.1.vm d L s.2 total) (hok : ∀ p ∈ l, p.segment.Ok f.length) (hf : f.length < 2 ^ 32)
    (hl : l.map Phdr.segment = segments f) (he : s.1.vm.vmMap d (usrMem - pgsize) pgsize 7 = some vm') :
    Image vm' d f := by
  obtain ⟨L', hadd, hF'⟩ := hs.fills_vmMap hd hF he
  obtain ⟨-, -, -, hrights⟩ := hs.rights_vmMap hd he
  have hpages : s.2 ∪ rangePages (usrMem - pgsize) pgsize = imagePages (segments f) := by
    rw [h.pages, ← hl, ← pagesOf_eq hok]
    rfl
  -- mapping the stack moves no frame that a segment has
  have hbytes : ∀ p ∈ l, ∀ a b, segBytes f p a = some b → vm'.peek d a = some b := by
    intro p hp a b hb
    obtain ⟨huser, hin⟩ := segBytes_page (hok p hp) hf hb
    rw [hadd.peek hd huser (h.view hF hp huser hin)]
    exact h.bytes p hp a b hb
  have hseg : ∀ g ∈ segments f, ∃ p ∈ l, p.segment = g := by
    intro g hg
    rw [← hl] at hg
    exact List.mem_map.1 hg
  refine ⟨?_, ?_, ?_, ?_⟩
  · intro g hg i hi
    obtain ⟨p, hp, rfl⟩ := hseg g hg
    have hdata := segBytes_data (hok p hp) hi
    have hinside : pOffset p + pFilesz p ≤ f.length := (hok p hp).inside
    have hi' : i < pFilesz p := hi
    have hget : f[pOffset p + i]? = some f[pOffset p + i] := List.getElem?_eq_getElem (by omega)
    show vm'.peek d (pVaddr p + i) = f[pOffset p + i]?
    rw [hget] at hdata ⊢
    exact hbytes p hp _ _ hdata
  · intro g hg i h1 h2
    obtain ⟨p, hp, rfl⟩ := hseg g hg
    exact hbytes p hp _ _ (segBytes_zeros (hok p hp) h1 h2)
  · intro w hw
    rw [hF'.view hw, hpages]
  · intro w hw
    have huser : UserPage w := by
      rw [← hl, ← pagesOf_eq hok] at hw
      rcases Finset.mem_union.1 hw with hw | hw
      · obtain hw | ⟨p, hp, hin⟩ := mem_pagesFrom.1 hw
        · exact absurd hw (Finset.notMem_empty _)
        · exact hin.userPage (segment_ok (hok p hp) hf).low
      · rw [stack_range.1 (mem_rangePages.1 hw)]
        exact stackPage_user
    rw [hrights d w hd huser, h.rights w huser, hl]
    simp only [true_and, stack_range, rightsOf_or]

/-- `load_elf` builds the specified image. -/
theorem image_loaded (h : Sound vm D K L) (hd : D d) (hempty : Empty vm d) (hf : HasFile fs cwd name f)
    (he : ElfFile f) (hneed : need (imagePages (segments f)) ≤ L.length) :
    ∃ x, Loader.loadElf vm fs d cwd name elf ph = some (entry f, x) ∧ Image x.vm d f ∧ x.vm.cr3 = vm.cr3 ∧
    Fs.Untouched fs x.fs := by
  obtain ⟨i, fs₁, fs₂, hopen, ho, hclose, hfs⟩ := hf.opened
  have hlen : f.length < 2 ^ 32 := lt_of_le_of_lt ho.small (by decide)
  obtain ⟨hmagic, hentry, -, -⟩ := he.ehdr elf
  have hsegs : (segsOf f elf ph).map Phdr.segment = segments f := he.segsOf elf ph hlen
  have hok : ∀ p ∈ segsOf f elf ph, p.segment.Ok f.length := by
    intro p hp
    refine he.ok _ ?_
    rw [← hsegs]
    exact List.mem_map_of_mem hp
  rw [← hsegs, ← pagesOf_eq hok] at hneed
  obtain ⟨y, s', hload, hloading, hrun, hs'⟩ :=
    loadElf_loads h hd hempty hopen ho hclose hmagic (fun p hp => segment_ok (hok p hp) hlen) hneed
  have hplaced := placed_run hrun hempty.placed hlen hok (hsegs ▸ he.disjoint)
  obtain ⟨L', hs, hF⟩ := hloading.vm
  -- CR3 plays no role in what a directory maps
  have hback : Placed (⟨{ y.vm with cr3 := vm.cr3 }, y.fs, y.log⟩, pagesFrom ∅ (segsOf f elf ph)) f d
      (segsOf f elf ph) :=
    ⟨rfl, hplaced.rights, hplaced.bytes⟩
  obtain ⟨-, hcr3, -, -⟩ := (hs.setCr3 (a := vm.cr3)).rights_vmMap hd hs'
  rw [hentry] at hload
  exact ⟨_, hload, hback.image hs.setCr3 hd hF.setCr3 hok hlen hsegs hs', hcr3, hfs⟩

/-- An executable with two segments that share a page; the first goes on to the next page, with zeros. -/
def twoSegments : List UInt8 :=
  [elfMagic, 0, 0, 0, 2 + 3 * 2 ^ 16, 1, 0x8048000, 52, 0, 0, 52 + 32 * 2 ^ 16, 2, 0,
    1, 0, 0x8048ffe, 0x8048ffe, 1, 4, 6, 4096,
    1, 4, 0x8048000, 0x8048000, 8, 8, 5, 4096].flatMap le32

theorem image_loaded_demo : ∃ vm fs x, HasFile fs 0 [Fs.slash, 97] twoSegments ∧
    Loader.loadElf vm fs 512 0 [Fs.slash, 97] (fun _ => 0) (fun _ => 0) = some (0x8048000, x) ∧
    Image x.vm 512 twoSegments := by
  obtain ⟨vm, -, hempty, hs⟩ := fresh_dir
  obtain ⟨fs, hf⟩ := hasFile_image twoSegments (by decide)
  have he : ElfFile twoSegments :=
    ⟨by decide, by decide +kernel, by decide +kernel, by decide +kernel, by decide +kernel⟩
  obtain ⟨x, hx, himage, -, -⟩ := image_loaded hs (Or.inr rfl) hempty hf he (by
    rw [List.length_range']
    decide +kernel)
  exact ⟨vm, fs, x, hf, hx, himage⟩

end TinyOS
