/-
How many free pages a new page directory takes for the pages that are mapped in it.
-/
import TinyOS.Vm.View

namespace TinyOS.Vm

open TinyOS.Lib

variable {s s' : Vm} {D K : Nat → Prop} {L L' : List Nat} {P Q : Finset Nat} {d i j n v w va len prot total : Nat}

/-- A frame for each page, and a page table for each 1024 of them. -/
def need (P : Finset Nat) : Nat := P.card + (P.image (· / 1024)).card

theorem need_mono (h : P ⊆ Q) : need P ≤ need Q :=
  Nat.add_le_add (Finset.card_le_card h) (Finset.card_le_card (Finset.image_subset_image h))

theorem card_insert_toNat {S : Finset Nat} {a : Nat} : (insert a S).card = S.card + (!decide (a ∈ S)).toNat := by
  by_cases ha : a ∈ S
  · rw [Finset.insert_eq_of_mem ha, decide_eq_true ha]
    rfl
  · rw [Finset.card_insert_of_notMem ha, decide_eq_false ha]
    rfl

theorem need_insert : need (insert v P) =
    need P + (!decide (v / 1024 ∈ P.image (· / 1024))).toNat + (!decide (v ∈ P)).toNat := by
  unfold need
  rw [Finset.image_insert, card_insert_toNat, card_insert_toNat]
  omega

/-- Of the directory the pages `P` are mapped and no others, with as many page tables as that takes, and
`total` pages were free before the first. -/
structure Fills (s : Vm) (d : Nat) (L : List Nat) (P : Finset Nat) (total : Nat) : Prop where
  pte : ∀ w, UserPage w → (present (s.pte d (w / 1024) (w % 1024)) = true ↔ w ∈ P)
  pde : ∀ c, 32 ≤ c ∧ c < 1024 → (present (s.word d c) = true ↔ c ∈ P.image (· / 1024))
  count : L.length + need P = total

theorem Empty.fills (h : Empty s d) : Fills s d L ∅ L.length where
  pte w hw := by simp [h.pte hw.index.1]
  pde c hc := by simp [h c hc.1 hc.2]
  count := rfl

theorem Fills.view (h : Fills s d L P total) (hw : UserPage w) : s.view d w ≠ none ↔ w ∈ P := by
  rw [← h.pte w hw, ne_eq, view_none, Bool.not_eq_false]

theorem Mapped.fills (hM : Mapped s s' D K L L' d (v / 1024) (v % 1024) prot) (h : Fills s d L P total) (hd : D d)
    (hv : UserPage v) : Fills s' d L' (insert v P) total := by
  refine ⟨fun w hw => ?_, fun c hc => ?_, ?_⟩
  · by_cases hwv : w = v
    · subst hwv
      refine iff_of_true ?_ (Finset.mem_insert_self _ _)
      cases hp : present (s.pte d (w / 1024) (w % 1024)) with
      | true => rw [hM.old hp, present_or, hp, Bool.true_or]
      | false =>
        obtain ⟨q, -, hpte, -⟩ := hM.new hp
        rw [hpte, makeEntry_present]
    · rw [hM.pte d _ _ hd hw.index.1 hw.index.2 fun hx => page_ne hwv hx.2, h.pte w hw, Finset.mem_insert,
        or_iff_right hwv]
  · rw [Finset.image_insert, Finset.mem_insert]
    by_cases hcv : c = v / 1024
    · exact iff_of_true (hcv ▸ hM.dir) (Or.inl hcv)
    · rw [hM.pde d c hd hc fun hx => hcv hx.2, h.pde c hc, or_iff_right hcv]
  · -- a page table and a frame are taken exactly when `P` had nothing for them
    have hdir : present (s.word d (v / 1024)) = decide (v / 1024 ∈ P.image (· / 1024)) :=
      Bool.eq_iff_iff.2 ((h.pde _ hv.index.1).trans decide_eq_true_iff.symm)
    have hpage : present (s.pte d (v / 1024) (v % 1024)) = decide (v ∈ P) :=
      Bool.eq_iff_iff.2 ((h.pte v hv).trans decide_eq_true_iff.symm)
    have hused := hM.used
    rw [hdir, hpage] at hused
    rw [need_insert, ← h.count, hused]
    omega

theorem Fills.room (h : Fills s d L P total) (hv : UserPage v) (hn : need (insert v P) ≤ total) :
    (!present (s.word d (v / 1024))).toNat + (!present (s.pte d (v / 1024) (v % 1024))).toNat ≤ L.length := by
  have hdir : present (s.word d (v / 1024)) = decide (v / 1024 ∈ P.image (· / 1024)) :=
    Bool.eq_iff_iff.2 ((h.pde _ hv.index.1).trans decide_eq_true_iff.symm)
  have hpage : present (s.pte d (v / 1024) (v % 1024)) = decide (v ∈ P) :=
    Bool.eq_iff_iff.2 ((h.pte v hv).trans decide_eq_true_iff.symm)
  rw [hdir, hpage]
  rw [need_insert, ← h.count] at hn
  omega

theorem Sound.free_unique (h : Sound s D K L) (h' : Sound s D K L') : L = L' := h.chain.unique h'.chain

theorem Ico_first : P ∪ Finset.Ico v (v + (n + 1)) = insert v P ∪ Finset.Ico (v + 1) (v + 1 + n) := by
  rw [Ico_succ, Finset.union_insert, Finset.insert_union]

theorem Sound.fills_mapPages (h : Sound s D K L) (hd : D d) (hF : Fills s d L P total) (ho : prot.testBit 0 = true)
    (hv : phyPage ≤ v) (hn : v + n ≤ 1024 * 1024) (he : mapPages d prot (v * pgsize) n s = some s') :
    ∃ L', Sound s' D K L' ∧ Fills s' d L' (P ∪ Finset.Ico v (v + n)) total := by
  induction n generalizing v s L P with
  | zero =>
    cases he
    refine ⟨L, h, ?_⟩
    rw [Nat.add_zero, Finset.Ico_self, Finset.union_empty]
    exact hF
  | succ n ih =>
    have huser : UserPage v := ⟨hv, by omega⟩
    obtain ⟨s₁, h1, he⟩ := mapPages_succ.1 he
    obtain ⟨-, L₁, hM⟩ := h.mapPage hd (page_dir hv (by omega)) ho h1
    rw [addr2dir_page, addr2tbl_page] at hM
    rw [Ico_first]
    exact ih hM.sound (hM.fills hF hd huser) (Nat.le_succ_of_le hv) (by omega) he

/-- The pages that are needed are enough. -/
theorem Sound.mapPages_fills (h : Sound s D K L) (hd : D d) (hF : Fills s d L P total) (ho : prot.testBit 0 = true)
    (hprot : prot < 8) (hv : phyPage ≤ v) (hn : v + n ≤ 1024 * 1024) (hneed : need (P ∪ Finset.Ico v (v + n)) ≤ total) :
    ∃ s', mapPages d prot (v * pgsize) n s = some s' := by
  induction n generalizing v s L P with
  | zero => exact ⟨s, rfl⟩
  | succ n ih =>
    have huser : UserPage v := ⟨hv, by omega⟩
    rw [Ico_first] at hneed
    have hroom := hF.room huser (le_trans (need_mono Finset.subset_union_left) hneed)
    obtain ⟨s₁, h1⟩ := h.mapPage_some hd (page_dir hv (by omega)) ho hprot (by
      rw [addr2dir_page, addr2tbl_page]
      exact hroom)
    obtain ⟨-, L₁, hM⟩ := h.mapPage hd (page_dir hv (by omega)) ho h1
    rw [addr2dir_page, addr2tbl_page] at hM
    obtain ⟨s', h2⟩ := ih hM.sound (hM.fills hF hd huser) (Nat.le_succ_of_le hv) (by omega) hneed
    exact ⟨s', mapPages_succ.2 ⟨s₁, h1, h2⟩⟩

/-- The pages of a range of addresses. -/
def rangePages (va len : Nat) : Finset Nat := Finset.Ico (va / pgsize) (pageUp (uint32 (va + len)) / pgsize)

theorem mem_rangePages : w ∈ rangePages va len ↔ InRange va len w := Finset.mem_Ico

theorem rangePages_eq (hle : pageDown va ≤ pageUp (uint32 (va + len))) :
    Finset.Ico (va / pgsize) (va / pgsize + (pageUp (uint32 (va + len)) - pageDown va) / pgsize) =
      rangePages va len := by
  ext w
  rw [Finset.mem_Ico, mem_rangePages]
  exact inRange_iff hle

theorem Sound.fills_vmMap (h : Sound s D K L) (hd : D d) (hF : Fills s d L P total)
    (he : s.vmMap d va len prot = some s') :
    ∃ L', Added s s' D K L L' d prot (InRange va len) ∧ Fills s' d L' (P ∪ rangePages va len) total := by
  obtain ⟨L', ha⟩ := h.vmMap_added hd he
  unfold Vm.vmMap at he
  simp only at he
  split at he
  · next hc =>
    obtain ⟨ho, -, hphy, hle⟩ := hc
    obtain ⟨h1, h2⟩ := range_le hphy hle
    obtain ⟨L₂, hs', hF'⟩ := h.fills_mapPages hd hF ho h1 h2 he
    rw [rangePages_eq hle, hs'.free_unique ha.sound] at hF'
    exact ⟨L', ha, hF'⟩
  · cases he

theorem Sound.vmMap_fills (h : Sound s D K L) (hd : D d) (hF : Fills s d L P total) (ho : prot.testBit 0 = true)
    (hprot : prot < 8) (hphy : phyMem ≤ pageDown va) (hle : pageDown va ≤ pageUp (uint32 (va + len)))
    (hneed : need (P ∪ rangePages va len) ≤ total) : ∃ s', s.vmMap d va len prot = some s' := by
  obtain ⟨h1, h2⟩ := range_le hphy hle
  rw [← rangePages_eq hle] at hneed
  unfold Vm.vmMap
  simp only
  rw [if_pos ⟨ho, hprot, hphy, hle⟩]
  exact h.mapPages_fills hd hF ho hprot h1 h2 hneed

end TinyOS.Vm
