/-
Ranges of pages that are mapped and unmapped: which pages stay exactly as they were, and when there
is enough memory.
-/
import TinyOS.Vm.Confined

namespace TinyOS.Vm

open TinyOS.Lib

variable {s s' s₁ : Vm} {D K : Nat → Prop} {L L' : List Nat} {R R' : Nat → Prop}
  {d e i j k p q t n v w c va len prot : Nat}

/-- Page `w` of the address space of `e` is what it was: its entry, the content of the page, and that it
is not free. -/
structure SamePage (s s' : Vm) (e w : Nat) : Prop where
  pte : s'.pte e (w / 1024) (w % 1024) = s.pte e (w / 1024) (w % 1024)
  mem : present (s.pte e (w / 1024) (w % 1024)) = true →
    s'.mem (pageFrame (s.pte e (w / 1024) (w % 1024))) = s.mem (pageFrame (s.pte e (w / 1024) (w % 1024)))
  used : present (s.pte e (w / 1024) (w % 1024)) = true → pageFrame (s.pte e (w / 1024) (w % 1024)) ∉ s'.freeList

theorem SamePage.trans (h : SamePage s s₁ e w) (h' : SamePage s₁ s' e w) : SamePage s s' e w where
  pte := h'.pte.trans h.pte
  mem hp := by rw [← h.pte, h'.mem (h.pte.symm ▸ hp), h.pte, h.mem hp]
  used hp := by
    have hu := h'.used (h.pte.symm ▸ hp)
    rwa [h.pte] at hu

/-- Only pages in `R` of the address space of `d` changed, and no page outside of the heap. -/
structure Within (s s' : Vm) (D K : Nat → Prop) (d : Nat) (R : Nat → Prop) : Prop where
  sound : ∃ L', Sound s' D K L'
  page : ∀ e w, D e → UserPage w → ¬ (e = d ∧ R w) → SamePage s s' e w
  kernel : ∀ q, ¬ HeapPage q → s'.mem q = s.mem q
  low : ∀ e c, D e → c < 32 → s'.word e c = s.word e c

theorem Within.refl (h : Sound s D K L) : Within s s D K d R := by
  refine ⟨⟨L, h⟩, fun e w he hw _ => ⟨rfl, fun _ => rfl, fun hp => ?_⟩, fun _ _ => rfl, fun _ _ _ _ => rfl⟩
  rw [h.freeList]
  exact h.own.not_free (s := .frame e (w / 1024) (w % 1024)) ⟨he, hw.index.1, hw.index.2, hp, rfl⟩

theorem Within.trans (h : Within s s₁ D K d R) (h' : Within s₁ s' D K d R) : Within s s' D K d R where
  sound := h'.sound
  page e w he hw hn := (h.page e w he hw hn).trans (h'.page e w he hw hn)
  kernel q hq := (h'.kernel q hq).trans (h.kernel q hq)
  low e c he hc := (h'.low e c he hc).trans (h.low e c he hc)

theorem Within.mono (h : Within s s' D K d R) (hR : ∀ w, R w → R' w) : Within s s' D K d R' :=
  ⟨h.sound, fun e w he hw hn => h.page e w he hw fun hc => hn ⟨hc.1, hR w hc.2⟩, h.kernel, h.low⟩

/-- A page whose entry and content are the same is in use as before. -/
theorem samePage_of (hs' : Sound s' D K L') (he : D e) (hw : UserPage w)
    (hpte : s'.pte e (w / 1024) (w % 1024) = s.pte e (w / 1024) (w % 1024))
    (hmem : ∀ q, Holds s D K (.frame e (w / 1024) (w % 1024)) q → s'.mem q = s.mem q) : SamePage s s' e w where
  pte := hpte
  mem hp := hmem _ ⟨he, hw.index.1, hw.index.2, hp, rfl⟩
  used hp := by
    rw [hs'.freeList]
    exact hs'.own.not_free (s := .frame e (w / 1024) (w % 1024)) ⟨he, hw.index.1, hw.index.2, hpte ▸ hp, by rw [hpte]⟩

/-! ## One page -/

theorem Sound.within_mapPage (h : Sound s D K L) (hd : D d) (hv : UserPage v) (ho : prot.testBit 0 = true)
    (hm : s.mapPage d (v * pgsize) prot = some s') : Within s s' D K d (· = v) := by
  have hi : 32 ≤ addr2dir (v * pgsize) ∧ addr2dir (v * pgsize) < 1024 := by
    rw [addr2dir_page]
    exact hv.index.1
  obtain ⟨-, L', hM⟩ := h.mapPage hd hi ho hm
  rw [addr2dir_page, addr2tbl_page] at hM
  refine ⟨⟨L', hM.sound⟩, fun e w he hw hn => ?_, fun q hq => ?_, fun e c he hc => h.mapPage_word hd he hi ho hc hm⟩
  · refine samePage_of hM.sound he hw (hM.pte e _ _ he hw.index.1 hw.index.2 fun hc => ?_) fun q hq =>
      hM.stays.frame h hd hq
    exact page_ne (fun hwv => hn ⟨hc.1, hwv⟩) ⟨hc.2.1, hc.2.2⟩
  · refine hM.stays.mem q (fun hc => hq (h.heap q hc)) (fun hc => hq (hc ▸ h.dir_heap hd)) fun c hc => ?_
    exact hq (h.own.range _ _ hc)

theorem Sound.within_unmapPage (h : Sound s D K L) (hd : D d) (hv : UserPage v)
    (hm : s.unmapPage d (v * pgsize) = some s') :
    Within s s' D K d (· = v) := by
  have hi : 32 ≤ addr2dir (v * pgsize) ∧ addr2dir (v * pgsize) < 1024 := by
    rw [addr2dir_page]
    exact hv.index.1
  obtain ⟨L', hU⟩ := h.unmapPage hd hi hm
  refine ⟨⟨L', hU.sound⟩, fun e w he hw hn => ?_, fun q hq => ?_, fun e c he _ => h.unmapPage_word hd he hi hm⟩
  · have hne : ¬ (e = d ∧ w / 1024 = addr2dir (v * pgsize) ∧ w % 1024 = addr2tbl (v * pgsize)) := by
      rw [addr2dir_page, addr2tbl_page]
      exact fun hc => page_ne (fun hwv => hn ⟨hc.1, hwv⟩) ⟨hc.2.1, hc.2.2⟩
    refine samePage_of hU.sound he hw (hU.pte e _ _ he hw.index.1 hw.index.2 hne) fun q hq => ?_
    refine unmapPage_mem (K := K) hd hi hm (fun hc => ?_) fun hc => hne ?_
    · cases h.own.inj _ _ q hq hc
    · have heq := h.own.inj _ _ q hq hc
      simp only [Place.frame.injEq] at heq
      exact heq
  · exact unmapPage_mem (K := K) hd hi hm (fun hc => hq (h.own.range _ _ hc)) fun hc => hq (h.own.range _ _ hc)

/-! ## Enough memory -/

/-- The pages among the `n` from `v` on that are not mapped in the address space of `d`. -/
def absent (s : Vm) (d v n : Nat) : Finset Nat :=
  (Finset.Ico v (v + n)).filter fun w => present (s.pte d (w / 1024) (w % 1024)) = false

/-- The free pages that mapping the `n` pages from `v` on takes: for those that are not mapped, and for
the page tables that are missing. -/
def pagesFor (s : Vm) (d v n : Nat) : Nat :=
  (absent s d v n).card + (missing s d ((Finset.Ico v (v + n)).image (· / 1024))).card

theorem Ico_succ : Finset.Ico v (v + (n + 1)) = insert v (Finset.Ico (v + 1) (v + 1 + n)) := by
  rw [← Finset.insert_Ico_add_one_left_eq_Ico (by omega : v < v + (n + 1)), Nat.add_right_comm v 1 n]
  rfl

/-- What is left to do is less by what the page at `v` took. -/
theorem pagesFor_succ (hp : present (s₁.word d (v / 1024)) = true)
    (hpde : ∀ c, 32 ≤ c ∧ c < 1024 → c ≠ v / 1024 → s₁.word d c = s.word d c)
    (hpte : ∀ w, UserPage w → w ≠ v → s₁.pte d (w / 1024) (w % 1024) = s.pte d (w / 1024) (w % 1024))
    (hv : phyPage ≤ v) (hn : v + (n + 1) ≤ 1024 * 1024) :
    pagesFor s₁ d (v + 1) n + (!present (s.word d (v / 1024))).toNat +
      (!present (s.pte d (v / 1024) (v % 1024))).toNat ≤ pagesFor s d v (n + 1) := by
  have huser : ∀ w ∈ Finset.Ico (v + 1) (v + 1 + n), UserPage w := fun w hw => by
    have hw' := Finset.mem_Ico.1 hw
    exact ⟨by omega, by omega⟩
  have htables : (missing s₁ d ((Finset.Ico (v + 1) (v + 1 + n)).image (· / 1024))).card +
    (!present (s.word d (v / 1024))).toNat ≤
      (missing s d ((Finset.Ico v (v + (n + 1))).image (· / 1024))).card := by
    rw [Ico_succ, Finset.image_insert]
    refine missing_insert hp fun c hc hne => hpde c ?_ hne
    obtain ⟨w, hw, rfl⟩ := Finset.mem_image.1 hc
    exact (huser w hw).index.1
  have hsame : absent s₁ d (v + 1) n = absent s d (v + 1) n := by
    refine Finset.filter_congr fun w hw => ?_
    rw [hpte w (huser w hw) (by have := (Finset.mem_Ico.1 hw).1; omega)]
  have hpages : (absent s₁ d (v + 1) n).card + (!present (s.pte d (v / 1024) (v % 1024))).toNat ≤
      (absent s d v (n + 1)).card := by
    have hnot : v ∉ absent s d (v + 1) n := fun hx => by
      have := (Finset.mem_Ico.1 (Finset.mem_filter.1 hx).1).1
      omega
    rw [hsame]
    unfold absent at hnot ⊢
    rw [Ico_succ, Finset.filter_insert]
    cases hpv : present (s.pte d (v / 1024) (v % 1024)) with
    | true =>
      rw [if_neg fun hc => by cases hc]
      exact le_refl _
    | false =>
      rw [if_pos rfl, Finset.card_insert_of_notMem hnot]
      exact le_refl _
  unfold pagesFor
  omega

theorem Sound.mapPages_some (h : Sound s D K L) (hd : D d) (ho : prot.testBit 0 = true) (hprot : prot < 8)
    (hv : phyPage ≤ v) (hn : v + n ≤ 1024 * 1024) (hroom : pagesFor s d v n ≤ L.length) :
    ∃ s', mapPages d prot (v * pgsize) n s = some s' := by
  induction n generalizing v s L with
  | zero => exact ⟨s, rfl⟩
  | succ n ih =>
    have huser : UserPage v := ⟨hv, by omega⟩
    have hi : 32 ≤ addr2dir (v * pgsize) ∧ addr2dir (v * pgsize) < 1024 := page_dir hv (by omega)
    have hfirst : (!present (s.word d (v / 1024))).toNat + (!present (s.pte d (v / 1024) (v % 1024))).toNat ≤
        L.length := by
      refine le_trans ?_ hroom
      unfold pagesFor absent missing
      refine le_trans (le_of_eq (Nat.add_comm _ _)) (Nat.add_le_add ?_ ?_)
      · cases hp : present (s.pte d (v / 1024) (v % 1024)) with
        | true => exact Nat.zero_le _
        | false => exact Finset.card_pos.2 ⟨v, Finset.mem_filter.2 ⟨Finset.mem_Ico.2 ⟨le_refl v, by omega⟩, hp⟩⟩
      · cases hp : present (s.word d (v / 1024)) with
        | true => exact Nat.zero_le _
        | false =>
          exact Finset.card_pos.2 ⟨v / 1024, Finset.mem_filter.2
            ⟨Finset.mem_image.2 ⟨v, Finset.mem_Ico.2 ⟨le_refl v, by omega⟩, rfl⟩, hp⟩⟩
    obtain ⟨s₁, h1⟩ := h.mapPage_some hd hi ho hprot (by rw [addr2dir_page, addr2tbl_page]; exact hfirst)
    obtain ⟨-, L₁, hM⟩ := h.mapPage hd hi ho h1
    rw [addr2dir_page, addr2tbl_page] at hM
    have hless := pagesFor_succ (s := s) (n := n) hM.dir (fun c hc hne => hM.pde d c hd hc fun hx => hne hx.2)
      (fun w hw hne => hM.pte d _ _ hd hw.index.1 hw.index.2 fun hx => page_ne hne hx.2) hv hn
    have hused := hM.used
    have hroom₁ : pagesFor s₁ d (v + 1) n ≤ L₁.length := by omega
    obtain ⟨s', h2⟩ := ih hM.sound (Nat.le_succ_of_le hv) (by omega) hroom₁
    exact ⟨s', mapPages_succ.2 ⟨s₁, h1, h2⟩⟩

theorem Sound.unmapPage_some (h : Sound s D K L) (hd : D d) (hi : 32 ≤ addr2dir va ∧ addr2dir va < 1024)
    (hfree : s.free ≠ 0 ∨ present (s.pte d (addr2dir va) (addr2tbl va)) = false) :
    ∃ s', s.unmapPage d va = some s' ∧ (s.free ≠ 0 → s'.free ≠ 0) := by
  unfold Vm.unmapPage
  simp only [walkpte_zero, Option.bind_eq_bind, Option.bind_some]
  cases hpd : present (s.word d (addr2dir va)) with
  | false =>
    simp only [Bool.false_eq_true, if_false]
    exact ⟨s, rfl, id⟩
  | true =>
    have hpte : s.word (pageFrame (s.word d (addr2dir va))) (addr2tbl va) = s.pte d (addr2dir va) (addr2tbl va) := by
      unfold Vm.pte
      rw [if_pos hpd]
    simp only [if_true, hpte]
    cases hp : present (s.pte d (addr2dir va) (addr2tbl va)) with
    | false =>
      simp only [Bool.false_eq_true, if_false]
      exact ⟨s, rfl, id⟩
    | true =>
      have hheap := h.own.range (.frame d (addr2dir va) (addr2tbl va)) _ ⟨hd, hi, addr2tbl_lt, hp, rfl⟩
      have hL : L ≠ [] := by
        rintro rfl
        exact absurd hp (by rw [hfree.resolve_left fun hc => hc h.chain]; decide)
      obtain ⟨s₁, hk⟩ := h.kfree_heap hheap hL
      simp only [if_true, hk, Option.bind_some]
      refine ⟨_, rfl, fun _ hc => ?_⟩
      -- the free list starts with the page that was freed
      have hfirst : s₁.free = pageFrame (s.pte d (addr2dir va) (addr2tbl va)) := by
        unfold Vm.kfree at hk
        split at hk
        · cases hk
        · split at hk
          · cases hk
          · cases hk
            rfl
      have hzero : s₁.free = 0 := hc
      rw [← hfirst, hzero] at hheap
      exact absurd hheap.1 (by decide)

theorem Sound.unmapPages_some (h : Sound s D K L) (hd : D d) (hv : phyPage ≤ v) (hn : v + n ≤ 1024 * 1024)
    (hfree : s.free ≠ 0 ∨ ∀ w, v ≤ w → w < v + n → present (s.pte d (w / 1024) (w % 1024)) = false) :
    ∃ s', unmapPages d (v * pgsize) n s = some s' := by
  induction n generalizing v s L with
  | zero => exact ⟨s, rfl⟩
  | succ n ih =>
    have hi : 32 ≤ addr2dir (v * pgsize) ∧ addr2dir (v * pgsize) < 1024 := page_dir hv (by omega)
    have hone : s.free ≠ 0 ∨ present (s.pte d (addr2dir (v * pgsize)) (addr2tbl (v * pgsize))) = false := by
      rw [addr2dir_page, addr2tbl_page]
      exact hfree.imp_right fun hall => hall v (le_refl v) (by omega)
    obtain ⟨s₁, h1, hf₁⟩ := h.unmapPage_some hd hi hone
    have hw := h.within_unmapPage hd ⟨hv, by omega⟩ h1
    obtain ⟨L₁, h₁⟩ := hw.sound
    have hfree₁ : s₁.free ≠ 0 ∨ ∀ w, v + 1 ≤ w → w < v + 1 + n → present (s₁.pte d (w / 1024) (w % 1024)) = false := by
      refine hfree.imp hf₁ fun hall w h3 h4 => ?_
      have hne : w ≠ v := by omega
      rw [(hw.page d w hd ⟨by omega, by omega⟩ fun hc => hne hc.2).pte]
      exact hall w (by omega) (by omega)
    obtain ⟨s', h2⟩ := ih h₁ (Nat.le_succ_of_le hv) (by omega) hfree₁
    exact ⟨s', unmapPages_succ.2 ⟨s₁, h1, h2⟩⟩

/-! ## Ranges -/

end TinyOS.Vm
