/-
What user code may do with its pages: the rights that an address space grants, and how mapping,
unmapping and copying ranges of pages change them.
-/
import TinyOS.Vm.Copy
import TinyOS.Vm.Release

namespace TinyOS.Vm

open TinyOS.Lib

variable {s s' : Vm} {D K : Nat → Prop} {L L' : List Nat} {d e i j k p q t v w n va len prot : Nat}

/-- The rights for page `w` in the address space of `d`, with the bit `PTE_P`; 0 when it is not mapped.
They are those that both levels grant. -/
def rights (s : Vm) (d w : Nat) : Nat :=
  if present (s.pte d (w / 1024) (w % 1024)) then (s.pte d (w / 1024) (w % 1024) &&& s.word d (w / 1024)) % 8 else 0

/-- A page of user addresses, up to the end of the address space. -/
def UserPage (w : Nat) : Prop := phyPage ≤ w ∧ w < 1024 * 1024

instance : Decidable (UserPage w) := inferInstanceAs (Decidable (_ ∧ _))

theorem UserPage.index (h : UserPage w) : (32 ≤ w / 1024 ∧ w / 1024 < 1024) ∧ w % 1024 < 1024 := by
  have h1 : 32768 ≤ w := h.1
  have h2 : w < 1048576 := h.2
  omega

theorem Sound.rights_eq (h : Sound s D K L) (hd : D d) (hw : UserPage w) :
    s.rights d w = if present (s.pte d (w / 1024) (w % 1024)) then s.pte d (w / 1024) (w % 1024) % 8 else 0 := by
  unfold rights
  split
  · next hp =>
    have h1 : (s.pte d (w / 1024) (w % 1024) &&& s.word d (w / 1024)) % 2 ^ 3 =
        s.pte d (w / 1024) (w % 1024) % 2 ^ 3 &&& s.word d (w / 1024) % 2 ^ 3 := Nat.and_mod_two_pow
    exact h1.trans (h.prot d _ _ hd hw.index.1 hw.index.2 hp)
  · rfl

theorem page_ne (h : w ≠ v) : ¬ (w / 1024 = v / 1024 ∧ w % 1024 = v % 1024) := by omega

/-! ## One page -/

theorem Sound.rights_mapPage (h : Sound s D K L) (hd : D d) (hv : UserPage v) (ho : prot.testBit 0 = true)
    (he : s.mapPage d (v * pgsize) prot = some s') :
    (∃ L', Sound s' D K L') ∧ s'.cr3 = s.cr3 ∧ s'.kpt = s.kpt ∧ ∀ e w, D e → UserPage w →
      s'.rights e w = if e = d ∧ w = v then s.rights e w ||| prot else s.rights e w := by
  obtain ⟨hprot, L', hM⟩ := h.mapPage hd (by rw [addr2dir_page]; exact hv.index.1) ho he
  rw [addr2dir_page, addr2tbl_page] at hM
  refine ⟨⟨L', hM.sound⟩, hM.stays.cr3, hM.stays.kpt, fun e w hDe hw => ?_⟩
  rw [hM.sound.rights_eq hDe hw, h.rights_eq hDe hw]
  by_cases hew : e = d ∧ w = v
  · obtain ⟨rfl, rfl⟩ := hew
    rw [if_pos (show e = e ∧ w = w from ⟨rfl, rfl⟩)]
    cases hp : present (s.pte e (w / 1024) (w % 1024)) with
    | true =>
      rw [hM.old hp, present_or, hp, Bool.true_or, if_pos rfl, if_pos rfl, flags_or hprot]
    | false =>
      obtain ⟨q, -, hq, -⟩ := hM.new hp
      rw [hq, makeEntry_present, if_pos rfl, if_neg Bool.false_ne_true, makeEntry_odd hprot ho, Nat.zero_or]
  · rw [if_neg hew, hM.pte e _ _ hDe hw.index.1 hw.index.2]
    rintro ⟨rfl, h1, h2⟩
    exact page_ne (fun hc => hew ⟨rfl, hc⟩) ⟨h1, h2⟩

theorem Sound.rights_unmapPage (h : Sound s D K L) (hd : D d) (hv : UserPage v)
    (he : s.unmapPage d (v * pgsize) = some s') :
    (∃ L', Sound s' D K L') ∧ s'.cr3 = s.cr3 ∧ s'.kpt = s.kpt ∧ ∀ e w, D e → UserPage w →
      s'.rights e w = if e = d ∧ w = v then 0 else s.rights e w := by
  obtain ⟨L', hU⟩ := h.unmapPage hd (by rw [addr2dir_page]; exact hv.index.1) he
  rw [addr2dir_page, addr2tbl_page] at hU
  refine ⟨⟨L', hU.sound⟩, hU.cr3, hU.kpt, fun e w hDe hw => ?_⟩
  rw [hU.sound.rights_eq hDe hw, h.rights_eq hDe hw]
  by_cases hew : e = d ∧ w = v
  · obtain ⟨rfl, rfl⟩ := hew
    rw [if_pos (show e = e ∧ w = w from ⟨rfl, rfl⟩), hU.gone, if_neg Bool.false_ne_true]
  · rw [if_neg hew, hU.pte e _ _ hDe hw.index.1 hw.index.2]
    rintro ⟨rfl, h1, h2⟩
    exact page_ne (fun hc => hew ⟨rfl, hc⟩) ⟨h1, h2⟩

/-! ## Ranges -/

theorem Sound.rights_mapPages (h : Sound s D K L) (hd : D d) (ho : prot.testBit 0 = true) (hv : phyPage ≤ v)
    (hn : v + n ≤ 1024 * 1024) (he : mapPages d prot (v * pgsize) n s = some s') :
    (∃ L', Sound s' D K L') ∧ s'.cr3 = s.cr3 ∧ s'.kpt = s.kpt ∧ ∀ e w, D e → UserPage w →
      s'.rights e w = if e = d ∧ v ≤ w ∧ w < v + n then s.rights e w ||| prot else s.rights e w := by
  induction n generalizing v s L with
  | zero =>
    cases he
    exact ⟨⟨L, h⟩, rfl, rfl, fun e w _ _ => by rw [if_neg (by omega)]⟩
  | succ n ih =>
    obtain ⟨s₁, h1, he⟩ := mapPages_succ.1 he
    obtain ⟨⟨L₁, h₁⟩, hc₁, hk₁, hr₁⟩ := h.rights_mapPage hd ⟨hv, by omega⟩ ho h1
    obtain ⟨h₂, hc₂, hk₂, hr₂⟩ := ih h₁ (by omega) (by omega) he
    refine ⟨h₂, hc₂.trans hc₁, hk₂.trans hk₁, fun e w hDe hw => ?_⟩
    rw [hr₂ e w hDe hw, hr₁ e w hDe hw]
    -- the first page, or one of the others
    by_cases hev : e = d ∧ w = v
    · obtain ⟨rfl, rfl⟩ := hev
      rw [if_neg (by omega), if_pos ⟨rfl, rfl⟩, if_pos ⟨rfl, by omega⟩]
    · rw [if_neg hev]
      by_cases hin : e = d ∧ v + 1 ≤ w ∧ w < v + 1 + n
      · rw [if_pos hin, if_pos ⟨hin.1, by omega⟩]
      · rw [if_neg hin, if_neg]
        rintro ⟨rfl, h3⟩
        exact hin ⟨rfl, by
          have : w ≠ v := fun hc => hev ⟨rfl, hc⟩
          omega⟩

theorem Sound.rights_unmapPages (h : Sound s D K L) (hd : D d) (hv : phyPage ≤ v)
    (hn : v + n ≤ 1024 * 1024) (he : unmapPages d (v * pgsize) n s = some s') :
    (∃ L', Sound s' D K L') ∧ s'.cr3 = s.cr3 ∧ s'.kpt = s.kpt ∧ ∀ e w, D e → UserPage w →
      s'.rights e w = if e = d ∧ v ≤ w ∧ w < v + n then 0 else s.rights e w := by
  induction n generalizing v s L with
  | zero =>
    cases he
    exact ⟨⟨L, h⟩, rfl, rfl, fun e w _ _ => by rw [if_neg (by omega)]⟩
  | succ n ih =>
    obtain ⟨s₁, h1, he⟩ := unmapPages_succ.1 he
    obtain ⟨⟨L₁, h₁⟩, hc₁, hk₁, hr₁⟩ := h.rights_unmapPage hd ⟨hv, by omega⟩ h1
    obtain ⟨h₂, hc₂, hk₂, hr₂⟩ := ih h₁ (by omega) (by omega) he
    refine ⟨h₂, hc₂.trans hc₁, hk₂.trans hk₁, fun e w hDe hw => ?_⟩
    rw [hr₂ e w hDe hw, hr₁ e w hDe hw]
    by_cases hev : e = d ∧ w = v
    · obtain ⟨rfl, rfl⟩ := hev
      rw [if_neg (by omega), if_pos ⟨rfl, rfl⟩, if_pos ⟨rfl, by omega⟩]
    · rw [if_neg hev]
      by_cases hin : e = d ∧ v + 1 ≤ w ∧ w < v + 1 + n
      · rw [if_pos hin, if_pos ⟨hin.1, by omega⟩]
      · rw [if_neg hin, if_neg]
        rintro ⟨rfl, h3⟩
        exact hin ⟨rfl, by
          have : w ≠ v := fun hc => hev ⟨rfl, hc⟩
          omega⟩

theorem pageUp_le : pageUp va ≤ (1024 * 1024 - 1) * pgsize := by
  unfold pageUp uint32
  show (va + 4095) % 2 ^ 32 / 4096 * 4096 ≤ (1024 * 1024 - 1) * 4096
  omega

/-- The pages of `vm_map` and `vm_unmap`: from the one of `va` up to the end of the range. -/
def InRange (va len w : Nat) : Prop := va / pgsize ≤ w ∧ w < pageUp (uint32 (va + len)) / pgsize

instance : Decidable (InRange va len w) := inferInstanceAs (Decidable (_ ∧ _))

theorem inRange_iff (h : pageDown va ≤ pageUp (uint32 (va + len))) :
    (va / pgsize ≤ w ∧ w < va / pgsize + (pageUp (uint32 (va + len)) - pageDown va) / pgsize) ↔ InRange va len w := by
  unfold InRange
  have hup : ∃ m, pageUp (uint32 (va + len)) = m * pgsize := ⟨_, rfl⟩
  obtain ⟨m, hm⟩ := hup
  have h1 : pageDown va = va / pgsize * pgsize := rfl
  rw [hm, h1] at h ⊢
  rw [← Nat.sub_mul, Nat.mul_div_cancel _ (by decide), Nat.mul_div_cancel _ (by decide)]
  have h2 : va / pgsize ≤ m := Nat.le_of_mul_le_mul_right h (by decide)
  omega

theorem range_le (h : phyMem ≤ pageDown va) (hle : pageDown va ≤ pageUp (uint32 (va + len))) :
    phyPage ≤ va / pgsize ∧ va / pgsize + (pageUp (uint32 (va + len)) - pageDown va) / pgsize ≤ 1024 * 1024 := by
  have hup : pageUp (uint32 (va + len)) ≤ (1024 * 1024 - 1) * pgsize := pageUp_le
  have h1 : pageDown va = va / 4096 * 4096 := rfl
  have h2 : 0x8000000 ≤ pageDown va := h
  constructor
  · show 32768 ≤ va / 4096
    omega
  · show va / 4096 + (pageUp (uint32 (va + len)) - pageDown va) / 4096 ≤ 1024 * 1024
    have hup' : pageUp (uint32 (va + len)) ≤ (1024 * 1024 - 1) * 4096 := hup
    omega

theorem Sound.rights_vmMap (h : Sound s D K L) (hd : D d) (he : s.vmMap d va len prot = some s') :
    (∃ L', Sound s' D K L') ∧ s'.cr3 = s.cr3 ∧ s'.kpt = s.kpt ∧ ∀ e w, D e → UserPage w →
      s'.rights e w = if e = d ∧ InRange va len w then s.rights e w ||| prot else s.rights e w := by
  unfold Vm.vmMap at he
  simp only at he
  split at he
  · next hc =>
    obtain ⟨ho, hprot, hphy, hle⟩ := hc
    obtain ⟨h1, h2⟩ := range_le hphy hle
    obtain ⟨h3, h4, h5, h6⟩ := h.rights_mapPages hd ho h1 h2 he
    refine ⟨h3, h4, h5, fun e w hDe hw => ?_⟩
    rw [h6 e w hDe hw]
    simp only [inRange_iff hle]
  · cases he

theorem Sound.rights_vmUnmap (h : Sound s D K L) (hd : D d) (hphy : phyMem ≤ va)
    (he : s.vmUnmap d va len = some s') :
    (∃ L', Sound s' D K L') ∧ s'.cr3 = s.cr3 ∧ s'.kpt = s.kpt ∧ ∀ e w, D e → UserPage w →
      s'.rights e w = if e = d ∧ InRange va len w then 0 else s.rights e w := by
  unfold Vm.vmUnmap at he
  split at he
  · next hc =>
    have hphy' : phyMem ≤ pageDown va := by
      have h1 : pageDown va = va / 4096 * 4096 := rfl
      have h2 : 0x8000000 ≤ va := hphy
      show 0x8000000 ≤ pageDown va
      omega
    rcases Nat.lt_or_ge (pageUp (uint32 (va + len))) (pageDown va) with hlt | hle
    · -- an end before the start is an empty range
      rw [Nat.sub_eq_zero_of_le hlt.le, Nat.zero_div] at he
      cases he
      refine ⟨⟨L, h⟩, rfl, rfl, fun e w _ _ => ?_⟩
      rw [if_neg]
      rintro ⟨-, h1, h2⟩
      have h3 : pageUp (uint32 (va + len)) / pgsize ≤ pageDown va / pgsize := Nat.div_le_div_right hlt.le
      have h4 : pageDown va / pgsize = va / pgsize := Nat.mul_div_cancel _ (by decide)
      omega
    · obtain ⟨h1, h2⟩ := range_le hphy' hle
      obtain ⟨h3, h4, h5, h6⟩ := h.rights_unmapPages hd h1 h2 he
      refine ⟨h3, h4, h5, fun e w hDe hw => ?_⟩
      rw [h6 e w hDe hw]
      simp only [inRange_iff hle]
  · cases he

end TinyOS.Vm
