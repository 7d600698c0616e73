/-
Files of any content under `load_elf`: exactly which are rejected or loaded with all stores on the pages
mapped for their segments.
-/
import TinyOS.Load.Headers

namespace TinyOS

open TinyOS.Lib TinyOS.Vm Phdr Ehdr

variable {vm : Vm} {fs fs₁ fs₂ : Fs} {D K : Nat → Prop} {L : List Nat} {P Q : Finset Nat} {x y : Loader}
  {elf : Ehdr} {ph : Phdr} {f name : List UInt8} {l : List Phdr} {d i n cwd total : Nat}

/-- The header that `load_elf` sees, over what the variable held before. -/
def ehdrOf (f : List UInt8) (elf : Ehdr) : Ehdr := Store.write elf 0 (filePart f 0 ehdrSize)

/-- The segments that `load_elf` sees. -/
def segsOf (f : List UInt8) (elf : Ehdr) (ph : Phdr) : List Phdr :=
  loadable (headers f (ePhoff (ehdrOf f elf)) (ePhnum (ehdrOf f elf)) 0 ph)

/-- The pages of the segments and of the stack. -/
def pagesOf (l : List Phdr) : Finset Nat := pagesFrom ∅ l ∪ rangePages (usrMem - pgsize) pgsize

theorem run_log {s t : Loader × Finset Nat} (hr : Run (LoadStep fs D K f d total) s l t) :
    t.1.log = s.1.log ++ l.map (written f) := by
  refine hr.invariant_log (I := fun l t => t.1.log = s.1.log ++ l.map (written f)) (fun l t p u hl h => ?_)
    (List.append_nil _).symm
  rw [h.loaded.log, hl, List.map_append, List.append_assoc]
  rfl

theorem SegOk.inside (h : SegOk f.length ph) : (written f ph).Inside :=
  (written_inside h.low h.order).2 ⟨h.file, h.zeros⟩

/-- The start of the loop. -/
theorem loading_start (fs : Fs) (h : Sound vm D K L) (hempty : Empty vm d) :
    Loading ⟨vm, fs, []⟩ fs D K d ∅ L.length where
  vm := ⟨L, h, hempty.fills⟩
  fs := rfl

theorem loadElf_eq (hopen : fs.iopen cwd name Fs.typeNone = some (some i, fs₁)) (ho : Opened fs₁ i f) :
    Loader.loadElf vm fs d cwd name elf ph =
      if magic (ehdrOf f elf) ≠ elfMagic then (fs₁.iclose i).map fun fs => (minusOne, ⟨vm, fs, []⟩)
      else (Loader.loadSegments d i (ePhoff (ehdrOf f elf)) (ePhnum (ehdrOf f elf)) 0 ph ⟨vm, fs₁, []⟩).bind fun y =>
        (Vm.vmMap { y.vm with cr3 := vm.cr3 } d (usrMem - pgsize) pgsize 7).bind fun s =>
          (y.fs.iclose i).map fun fs => (eEntry (ehdrOf f elf), ⟨s, fs, y.log⟩) := by
  have hehdr : readLocal fs₁ i 0 ehdrSize elf = some (ehdrOf f elf, fs₁) := ho.readLocal (by decide)
  unfold Loader.loadElf
  rw [hopen]
  simp only [Option.bind_eq_bind, Option.bind_some, hehdr, Option.map_eq_bind]
  rfl

theorem loadElf_loads (h : Sound vm D K L) (hd : D d) (hempty : Empty vm d)
    (hopen : fs.iopen cwd name Fs.typeNone = some (some i, fs₁)) (ho : Opened fs₁ i f)
    (hclose : fs₁.iclose i = some fs₂) (hm : magic (ehdrOf f elf) = elfMagic)
    (hok : ∀ p ∈ segsOf f elf ph, SegOk f.length p) (hneed : need (pagesOf (segsOf f elf ph)) ≤ L.length) :
    ∃ y s', Loader.loadElf vm fs d cwd name elf ph = some (eEntry (ehdrOf f elf), ⟨s', fs₂, y.log⟩) ∧
      Loading y fs₁ D K d (pagesFrom ∅ (segsOf f elf ph)) L.length ∧
      Run (LoadStep fs₁ D K f d L.length) (⟨vm, fs₁, []⟩, ∅) (segsOf f elf ph) (y, pagesFrom ∅ (segsOf f elf ph)) ∧
      Vm.vmMap { y.vm with cr3 := vm.cr3 } d (usrMem - pgsize) pgsize 7 = some s' := by
  have hneed' := le_trans (need_mono Finset.subset_union_left) hneed
  obtain ⟨y, hy, hload, hrun⟩ := (loading_start fs₁ h hempty).loadSegments hd ho hok hneed'
  obtain ⟨L', hs, hF⟩ := hload.vm
  -- the page of the stack may be one that a segment has mapped already
  obtain ⟨s', hs'⟩ : ∃ s', Vm.vmMap { y.vm with cr3 := vm.cr3 } d (usrMem - pgsize) pgsize 7 = some s' :=
    hs.setCr3.vmMap_fills hd hF.setCr3 (by decide) (by decide) (by decide) (by decide) hneed
  refine ⟨y, s', ?_, hload, hrun, hs'⟩
  rw [loadElf_eq hopen ho, if_neg (not_not.2 hm), hy, Option.bind_some, hs', Option.bind_some, hload.fs, hclose]
  rfl

/-- What was loaded with all stores inside had to be in order. -/
theorem loadElf_ok {r : Nat} (h : Sound vm D K L) (hd : D d) (hempty : Empty vm d)
    (hopen : fs.iopen cwd name Fs.typeNone = some (some i, fs₁)) (ho : Opened fs₁ i f)
    (he : Loader.loadElf vm fs d cwd name elf ph = some (r, x)) (hin : ∀ t ∈ x.log, t.Inside)
    (hm : magic (ehdrOf f elf) = elfMagic) :
    (∀ p ∈ segsOf f elf ph, SegOk f.length p) ∧ need (pagesOf (segsOf f elf ph)) ≤ L.length := by
  rw [loadElf_eq hopen ho, if_neg (not_not.2 hm)] at he
  obtain ⟨y, hy, he⟩ := Option.bind_eq_some_iff.1 he
  obtain ⟨s', hs', he⟩ := Option.bind_eq_some_iff.1 he
  obtain ⟨fs', -, he⟩ := Option.map_eq_some_iff.1 he
  have hlog : x.log = y.log := (congrArg Loader.log (Prod.mk.inj he).2).symm
  rw [hlog] at hin
  obtain ⟨hok, hload⟩ := (loading_start fs₁ h hempty).segsOk hd ho hy hin
  refine ⟨hok, ?_⟩
  obtain ⟨L', hs, hF⟩ := hload.vm
  obtain ⟨L₂, -, hF'⟩ := (hs.setCr3 (a := vm.cr3)).fills_vmMap hd hF.setCr3 hs'
  rw [← hF'.count]
  exact Nat.le_add_left _ _

/-! ## Main results -/

instance (size : Nat) (ph : Phdr) : Decidable (SegOk size ph) :=
  decidable_of_iff (phyMem ≤ pageDown (pVaddr ph) ∧ pageDown (pVaddr ph) ≤ pageUp (uint32 (pVaddr ph + pMemsz ph)) ∧
    (pOffset ph ≤ size → pOffset ph + pFilesz ph < 2 ^ 32) ∧
    (min (pFilesz ph) (size - pOffset ph) = 0 ∨
      pVaddr ph + min (pFilesz ph) (size - pOffset ph) ≤ pageUp (uint32 (pVaddr ph + pMemsz ph))) ∧
    (usub32 (pMemsz ph) (pFilesz ph) = 0 ∨
      pageDown (pVaddr ph) + usub32 (pMemsz ph) (pFilesz ph) ≤ uint32 (pVaddr ph + pMemsz ph)))
    ⟨fun h => ⟨h.1, h.2.1, h.2.2.1, h.2.2.2.1, h.2.2.2.2⟩, fun h => ⟨h.low, h.order, h.request, h.file, h.zeros⟩⟩

/-- `load_elf` returns, with every store on a page mapped for its segment, exactly for the files without the
magic number and those all of whose segments are in order, given the free pages that these take. -/
theorem malformed_safe (h : Sound vm D K L) (hd : D d) (hempty : Empty vm d) (hf : HasFile fs cwd name f) :
    (∃ r x, Loader.loadElf vm fs d cwd name elf ph = some (r, x) ∧ ∀ t ∈ x.log, t.Inside) ↔
      magic (ehdrOf f elf) ≠ elfMagic ∨
        (∀ p ∈ segsOf f elf ph, SegOk f.length p) ∧ need (pagesOf (segsOf f elf ph)) ≤ L.length := by
  obtain ⟨i, fs₁, fs₂, hopen, ho, hclose, -⟩ := hf.opened
  constructor
  · rintro ⟨r, x, he, hin⟩
    by_cases hm : magic (ehdrOf f elf) = elfMagic
    · exact Or.inr (loadElf_ok h hd hempty hopen ho he hin hm)
    · exact Or.inl hm
  · intro hc
    by_cases hm : magic (ehdrOf f elf) = elfMagic
    · obtain ⟨hok, hneed⟩ := hc.resolve_left (not_not.2 hm)
      obtain ⟨y, s', he, -, hrun, -⟩ := loadElf_loads h hd hempty hopen ho hclose hm hok hneed
      refine ⟨_, _, he, ?_⟩
      intro t ht
      have hlog : y.log = (segsOf f elf ph).map (written f) := run_log hrun
      simp only [hlog] at ht
      obtain ⟨p, hp, rfl⟩ := List.mem_map.1 ht
      exact (hok p hp).inside
    · -- rejected before anything is written
      refine ⟨minusOne, ⟨vm, fs₂, []⟩, ?_, fun t ht => absurd ht List.not_mem_nil⟩
      rw [loadElf_eq hopen ho, if_pos hm, hclose]
      rfl

/-- An executable with one segment of a byte, at the address `va`. -/
def oneByte (va : Nat) : List UInt8 :=
  [elfMagic, 0, 0, 0, 2 + 3 * 2 ^ 16, 1, va, 52, 0, 0, 52 + 32 * 2 ^ 16, 1, 0, 1, 0, va, va, 1, 1, 5, 4096].flatMap le32

theorem malformed_safe_demo : ∃ vm fs r x, HasFile fs 0 [Fs.slash, 97] (oneByte 0x8048000) ∧
    Loader.loadElf vm fs 512 0 [Fs.slash, 97] (fun _ => 0) (fun _ => 0) = some (r, x) ∧ ∀ t ∈ x.log, t.Inside := by
  obtain ⟨vm, -, hempty, hs⟩ := fresh_dir
  obtain ⟨fs, hf⟩ := hasFile_image (oneByte 0x8048000) (by decide)
  have hok : ∀ p ∈ segsOf (oneByte 0x8048000) (fun _ => 0) (fun _ => 0), SegOk (oneByte 0x8048000).length p := by
    decide +kernel
  obtain ⟨r, x, h⟩ := (malformed_safe hs (Or.inr rfl) hempty hf).2 (Or.inr ⟨hok, by
    rw [List.length_range']
    decide +kernel⟩)
  exact ⟨vm, fs, r, x, hf, h⟩

/-- With its segment below `PHY_MEM` it stops the kernel. -/
theorem malformed_fatal :
    ¬ ∀ (vm : Vm) (fs : Fs) (D K : Nat → Prop) (d cwd : Nat) (name f : List UInt8) (elf : Ehdr) (ph : Phdr),
    Built vm D K → D d → Empty vm d → HasFile fs cwd name f →
    ∃ r x, Loader.loadElf vm fs d cwd name elf ph = some (r, x) ∧ ∀ t ∈ x.log, t.Inside := by
  intro hall
  obtain ⟨vm, hb, hempty, hs⟩ := fresh_dir
  obtain ⟨fs, hf⟩ := hasFile_image (oneByte 0x1000) (by decide)
  obtain ⟨r, x, he, hin⟩ := hall vm fs _ _ 512 0 _ _ (fun _ => 0) (fun _ => 0) hb (Or.inr rfl) hempty hf
  obtain ⟨i, fs₁, fs₂, hopen, ho, -, -⟩ := hf.opened
  obtain ⟨hok, -⟩ := loadElf_ok hs (Or.inr rfl) hempty hopen ho he hin (by decide +kernel)
  exact absurd hok (by decide +kernel)

end TinyOS
