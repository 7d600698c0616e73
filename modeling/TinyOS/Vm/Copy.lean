/-
`vm_copycurr`: page after page the new address space becomes a copy of the current one, in pages that
were free.
-/
import TinyOS.Vm.Map

namespace TinyOS.Vm

open TinyOS.Lib

variable {s s' s₀ : Vm} {D K : Nat → Prop} {L L₀ : List Nat} {d e i j k p q t v n va prot : Nat}

/-! ## One page -/

theorem addr2dir_page : addr2dir (v * pgsize) = v / 1024 := by
  show v * 4096 / 2 ^ 22 = v / 1024
  omega

theorem addr2tbl_page : addr2tbl (v * pgsize) = v % 1024 := by
  show v * 4096 / 2 ^ 12 % 1024 = v % 1024
  omega

theorem vmMap_one (hv : phyPage ≤ v) (hlt : v < usrMem / pgsize) (ho : prot.testBit 0 = true) (hprot : prot < 8) :
    s.vmMap d (v * pgsize) pgsize prot = s.mapPage d (v * pgsize) prot := by
  have hv' : 32768 ≤ v := hv
  have hlt' : v < 786432 := hlt
  have h1 : pageDown (v * pgsize) = v * pgsize := by
    unfold pageDown
    rw [Nat.mul_div_cancel v (by decide)]
  have h2 : pageUp (uint32 (v * pgsize + pgsize)) = v * pgsize + pgsize := by
    unfold pageUp uint32
    show ((v * 4096 + 4096) % 2 ^ 32 + 4095) % 2 ^ 32 / 4096 * 4096 = v * 4096 + 4096
    omega
  unfold vmMap
  simp only [h1, h2]
  rw [if_pos, Nat.add_sub_cancel_left, Nat.div_self (by decide)]
  · unfold mapPages
    cases s.mapPage d (v * pgsize) prot <;> rfl
  · refine ⟨ho, hprot, ?_, Nat.le_add_right _ _⟩
    show 0x8000000 ≤ v * 4096
    omega

theorem walk_page (hv : phyPage ≤ v) (hp : present (s.word d (v / 1024)) = true)
    (hf : pageFrame (s.pte d (v / 1024) (v % 1024)) ≠ 0) :
    s.walk d (v * pgsize) 0 = some (pageFrame (s.pte d (v / 1024) (v % 1024)) * pgsize, s) := by
  have hva : ¬ v * pgsize < phyMem := by
    have hv' : 32768 ≤ v := hv
    show ¬ v * 4096 < 0x8000000
    omega
  have hpte : s.word (pageFrame (s.word d (v / 1024))) (v % 1024) = s.pte d (v / 1024) (v % 1024) := by
    unfold Vm.pte
    rw [if_pos hp]
  have hoff : v * pgsize % pgsize = 0 := Nat.mul_mod_left v pgsize
  unfold walk
  simp only [walkpte_zero, addr2dir_page, addr2tbl_page, hp, if_true, Option.bind_eq_bind, Option.bind_some, hpte,
    Nat.zero_testBit, Bool.false_eq_true, false_and, if_false, if_neg hva, hf, hoff, Nat.or_zero]

/-- The page of `d` is a copy, in a page that was free, of the one of `c`; nothing else changed. -/
structure Copied (s s' : Vm) (D K : Nat → Prop) (L L' : List Nat) (c d i j : Nat) : Prop where
  sound : Sound s' D K L'
  pde : ∀ e b, D e → 32 ≤ b ∧ b < 1024 → ¬ (e = d ∧ b = i) → s'.word e b = s.word e b
  pte : ∀ e b k, D e → 32 ≤ b ∧ b < 1024 → k < 1024 → ¬ (e = d ∧ b = i ∧ k = j) → s'.pte e b k = s.pte e b k
  dir : present (s'.word d i) = true
  new : ∃ q ∈ L, s'.pte d i j = makeEntry q (s.pte c i j % 8) ∧
    ∀ o < pgsize, s'.mem q o = s.mem (pageFrame (s.pte c i j)) o
  stays : Stays s s' D K L d
  fresh : ∀ x p, Holds s' D K x p → Holds s D K x p ∨ p ∈ L
  sub : ∀ p ∈ L', p ∈ L
  used : L.length = L'.length + (!present (s.word d i)).toNat + 1

theorem page_index (hv : phyPage ≤ v) (hlt : v < usrMem / pgsize) : (32 ≤ v / 1024 ∧ v / 1024 < 1024) ∧
    v % 1024 < 1024 := by
  have hv' : 32768 ≤ v := hv
  have hlt' : v < 786432 := hlt
  omega

theorem copyPage_absent (hp : present (s.pte s.cr3 (v / 1024) (v % 1024)) = false) :
    s.copyPage d (v * pgsize) = some s := by
  unfold Vm.copyPage
  simp only [walkpte_zero, addr2dir_page, addr2tbl_page, Option.bind_eq_bind, Option.bind_some]
  unfold Vm.pte at hp
  cases hpd : present (s.word s.cr3 (v / 1024)) with
  | false => simp only [Bool.false_eq_true, if_false]
  | true =>
    rw [hpd, if_pos rfl] at hp
    simp only [if_true, hp, Bool.false_eq_true, if_false]

theorem pte_present (hp : present (s.pte d i j) = true) : present (s.word d i) = true := by
  unfold Vm.pte at hp
  split at hp
  · assumption
  · exact absurd hp (by decide)

theorem copyPage_present (hv : phyPage ≤ v) (hlt : v < usrMem / pgsize)
    (hp : present (s.pte s.cr3 (v / 1024) (v % 1024)) = true) :
    s.copyPage d (v * pgsize) = (s.mapPage d (v * pgsize) (s.pte s.cr3 (v / 1024) (v % 1024) % 8)).bind fun s =>
      (s.walk s.cr3 (v * pgsize) 0).bind fun r => (r.2.walk d (v * pgsize) 0).bind fun r' => some
      (r'.2.copyTo r'.1 r.1) := by
  have hpd := pte_present hp
  have hpte : s.word (pageFrame (s.word s.cr3 (v / 1024))) (v % 1024) = s.pte s.cr3 (v / 1024) (v % 1024) := by
    unfold Vm.pte
    rw [if_pos hpd]
  have hand : s.pte s.cr3 (v / 1024) (v % 1024) &&& 7 = s.pte s.cr3 (v / 1024) (v % 1024) % 8 :=
    Nat.and_two_pow_sub_one_eq_mod _ 3
  have ho : (s.pte s.cr3 (v / 1024) (v % 1024) % 8).testBit 0 = true := by
    rw [present_iff] at hp
    rw [Nat.testBit_zero, decide_eq_true_iff]
    omega
  unfold Vm.copyPage
  simp only [walkpte_zero, addr2dir_page, addr2tbl_page, Option.bind_eq_bind, Option.bind_some, hpd,
    if_true, hpte, hp, hand, vmMap_one hv hlt ho (Nat.mod_lt _ (by decide : 8 > 0)), Option.pure_def]

/-- The page is mapped in the new address space, and the content goes to the new page. -/
theorem Sound.copyPage (h : Sound s D K L) (hc : D s.cr3) (hd : D d) (hne : d ≠ s.cr3) (hv : phyPage ≤ v)
    (hlt : v < usrMem / pgsize) (hnew : present (s.pte d (v / 1024) (v % 1024)) = false)
    (hp : present (s.pte s.cr3 (v / 1024) (v % 1024)) = true) {s₁ : Vm}
    (hm : s.mapPage d (v * pgsize) (s.pte s.cr3 (v / 1024) (v % 1024) % 8) = some s₁) :
    ∃ s' L', s.copyPage d (v * pgsize) = some s' ∧ Copied s s' D K L L' s.cr3 d (v / 1024) (v % 1024) := by
  obtain ⟨hi, hj⟩ := page_index hv hlt
  have hpd := pte_present hp
  have hprot : s.pte s.cr3 (v / 1024) (v % 1024) % 8 < 8 := Nat.mod_lt _ (by decide)
  have ho : (s.pte s.cr3 (v / 1024) (v % 1024) % 8).testBit 0 = true := by
    have := present_iff.1 hp
    rw [Nat.testBit_zero, decide_eq_true_iff]
    omega
  obtain ⟨-, L', hM⟩ := h.mapPage hd (by rw [addr2dir_page]; exact hi) ho hm
  rw [addr2dir_page, addr2tbl_page] at hM
  obtain ⟨q, hq, hq', -⟩ := hM.new hnew
  -- the page of the current directory is where it was
  have hcr : s₁.cr3 = s.cr3 := hM.stays.cr3
  have hold : s₁.pte s.cr3 (v / 1024) (v % 1024) = s.pte s.cr3 (v / 1024) (v % 1024) :=
    hM.pte _ _ _ hc hi hj fun hx => hne hx.1.symm
  have hpd₁ : present (s₁.word s.cr3 (v / 1024)) = true := by
    rw [hM.pde _ _ hc hi fun hx => hne hx.1.symm]
    exact hpd
  have hframe : Holds s D K (.frame s.cr3 (v / 1024) (v % 1024)) (pageFrame (s.pte s.cr3 (v / 1024) (v % 1024))) :=
    ⟨hc, hi, hj, hp, rfl⟩
  have hpos : ∀ {p}, HeapPage p → p ≠ 0 := by
    rintro p hp rfl
    exact absurd hp.1 (by decide)
  have hqf : pageFrame (s₁.pte d (v / 1024) (v % 1024)) = q := by rw [hq', makeEntry_frame hprot]
  have hnewFrame : Holds s₁ D K (.frame d (v / 1024) (v % 1024)) q := ⟨hd, hi, hj, by rw [hq', makeEntry_present], hqf⟩
  have heq : s.copyPage d (v * pgsize) =
      some (s₁.copyTo (q * pgsize) (pageFrame (s.pte s.cr3 (v / 1024) (v % 1024)) * pgsize)) := by
    rw [copyPage_present hv hlt hp, hm, Option.bind_some, hcr,
      walk_page hv hpd₁ (by rw [hold]; exact hpos (h.own.range _ _ hframe)), Option.bind_some,
      walk_page hv hM.dir (by rw [hqf]; exact hpos (h.heap q hq)), Option.bind_some, hqf, hold]
  have hmem : ∀ r, r ≠ q →
      (s₁.copyTo (q * pgsize) (pageFrame (s.pte s.cr3 (v / 1024) (v % 1024)) * pgsize)).mem r =
          s₁.mem r := fun r hr => by
    unfold copyTo
    rw [Nat.mul_div_cancel q (by decide)]
    exact setPage_ne hr
  have hsame : SameEntries s₁ (s₁.copyTo (q * pgsize) (pageFrame (s.pte s.cr3 (v / 1024) (v % 1024)) * pgsize)) D := by
    refine sameEntries_of_mem (K := K) (fun r hr => hmem r fun hc => ?_) fun e b t ht => hmem t ?_
    · subst hc
      cases hM.sound.own.inj _ (.dir r) r hnewFrame ⟨hr, rfl⟩
    · rintro rfl
      cases hM.sound.own.inj _ _ t hnewFrame ht
  have hnot : q ∉ L' := hM.sound.own.not_free hnewFrame
  refine ⟨_, L', heq, hsame.sound hM.sound (hM.sound.chain.congr fun r hr => word_congr (hmem r ?_)),
    fun e b he hb heb => ?_, fun e b k he hb hk heb => ?_, ?_, ⟨q, hq, ?_, fun o hof => ?_⟩,
    ⟨fun r hr hrd hrt => ?_, hM.stays.cr3, hM.stays.kpt⟩, fun x p hx => hM.fresh x p ((hsame.holds x).1 hx), hM.sub, ?_⟩
  · rintro rfl
    exact hnot hr
  · rw [hsame.pde e b he hb, hM.pde e b he hb heb]
  · rw [hsame.pte e b k he hb hk, hM.pte e b k he hb hk heb]
  · rw [hsame.pde d _ hd hi]
    exact hM.dir
  · rw [hsame.pte d _ _ hd hi hj, hq']
  · unfold copyTo
    rw [Nat.mul_div_cancel q (by decide), setPage_self, Nat.mul_mod_left, Nat.mul_div_cancel _ (by decide),
      Nat.mul_mod_left]
    rw [Store.write_in (Nat.zero_le o) (by rw [Store.read_length]; omega), Nat.sub_zero, List.getD_eq_getElem _ _ (by
      rw [Store.read_length]; exact hof), Store.read_getElem, Nat.zero_add]
    rw [hM.stays.frame h hd hframe]
  · rw [hmem r (fun hc => hr (hc ▸ hq)), hM.stays.mem r hr hrd hrt]
  · rw [hM.used, hnew]
    rfl

/-! ## The loop -/

/-- The pages below `v` are copied, those from `v` on are not there yet. -/
structure Copying (s₀ s : Vm) (D K : Nat → Prop) (L₀ L : List Nat) (d v : Nat) : Prop where
  sound : Sound s D K L
  sub : ∀ p ∈ L, p ∈ L₀
  pde : ∀ e b, D e → 32 ≤ b ∧ b < 1024 → e ≠ d → s.word e b = s₀.word e b
  pte : ∀ e b k, D e → 32 ≤ b ∧ b < 1024 → k < 1024 → e ≠ d → s.pte e b k = s₀.pte e b k
  stays : Stays s₀ s D K L₀ d
  fresh : ∀ x p, Holds s D K x p → Holds s₀ D K x p ∨ p ∈ L₀
  done : ∀ w, phyPage ≤ w → w < v →
    present (s.pte d (w / 1024) (w % 1024)) = present (s₀.pte s₀.cr3 (w / 1024) (w % 1024)) ∧
      (present (s₀.pte s₀.cr3 (w / 1024) (w % 1024)) = true → ∃ q ∈ L₀,
        s.pte d (w / 1024) (w % 1024) = makeEntry q (s₀.pte s₀.cr3 (w / 1024) (w % 1024) % 8) ∧
          ∀ o < pgsize, s.mem q o = s₀.mem (pageFrame (s₀.pte s₀.cr3 (w / 1024) (w % 1024))) o)
  todo : ∀ w, v ≤ w → w < 1024 * 1024 → present (s.pte d (w / 1024) (w % 1024)) = false

theorem Copying.step (hi : Copying s₀ s D K L₀ L d v) (h₀ : Sound s₀ D K L₀) (hc : D s₀.cr3) (hd : D d)
    (hne : d ≠ s₀.cr3) (hv : phyPage ≤ v) (hlt : v < usrMem / pgsize) (he : s.copyPage d (v * pgsize) = some s') :
    ∃ L', Copying s₀ s' D K L₀ L' d (v + 1) ∧
      (present (s₀.pte s₀.cr3 (v / 1024) (v % 1024)) = false ∧ s' = s ∧ L' = L ∨
        present (s₀.pte s₀.cr3 (v / 1024) (v % 1024)) = true ∧
        Copied s s' D K L L' s₀.cr3 d (v / 1024) (v % 1024)) := by
  obtain ⟨hix, hjx⟩ := page_index hv hlt
  have hcr : s.cr3 = s₀.cr3 := hi.stays.cr3
  have hold : s.pte s.cr3 (v / 1024) (v % 1024) = s₀.pte s₀.cr3 (v / 1024) (v % 1024) := by
    rw [hcr]
    exact hi.pte _ _ _ hc hix hjx hne.symm
  have hlt' : v < 786432 := hlt
  have hnew := hi.todo v (Nat.le_refl v) (by omega)
  cases hp : present (s₀.pte s₀.cr3 (v / 1024) (v % 1024)) with
  | false =>
    rw [copyPage_absent (by rw [hold]; exact hp)] at he
    cases he
    refine ⟨L, ⟨hi.sound, hi.sub, hi.pde, hi.pte, hi.stays, hi.fresh, fun w h1 h2 => ?_,
      fun w h1 => hi.todo w (by omega)⟩, Or.inl ⟨rfl, rfl, rfl⟩⟩
    rcases Nat.lt_or_eq_of_le (Nat.le_of_lt_succ h2) with h2 | rfl
    · exact hi.done w h1 h2
    · rw [hnew, hp]
      exact ⟨rfl, fun hc => by cases hc⟩
  | true =>
    have hp' : present (s.pte s.cr3 (v / 1024) (v % 1024)) = true := by rw [hold]; exact hp
    have hm : ∃ s₁, s.mapPage d (v * pgsize) (s.pte s.cr3 (v / 1024) (v % 1024) % 8) = some s₁ := by
      rw [copyPage_present hv hlt hp'] at he
      obtain ⟨s₁, hm, -⟩ := Option.bind_eq_some_iff.1 he
      exact ⟨s₁, hm⟩
    obtain ⟨s₁, hm⟩ := hm
    obtain ⟨s₂, L', he₂, hC⟩ := hi.sound.copyPage (hcr ▸ hc) hd (hcr ▸ hne) hv hlt hnew hp' hm
    obtain rfl := Option.some.inj (he.symm.trans he₂)
    rw [hcr] at hC
    refine ⟨L', ⟨hC.sound, fun p hp => hi.sub p (hC.sub p hp), fun e b he hb hed => ?_, fun e b k he hb hk hed => ?_,
      ⟨fun q hq hqd hqt => ?_, hC.stays.cr3.trans hcr, hC.stays.kpt.trans hi.stays.kpt⟩, fun x p hx =>
        ?_, fun w h1 h2 => ?_,
      fun w h1 h2 => ?_⟩, Or.inr ⟨rfl, hC⟩⟩
    · rw [hC.pde e b he hb (fun hx => hed hx.1), hi.pde e b he hb hed]
    · rw [hC.pte e b k he hb hk (fun hx => hed hx.1), hi.pte e b k he hb hk hed]
    · rw [hC.stays.mem q (fun hx => hq (hi.sub q hx)) hqd fun c hx => ?_, hi.stays.mem q hq hqd hqt]
      rcases hi.fresh _ _ hx with hx | hx
      · exact hqt c hx
      · exact hq hx
    · rcases hC.fresh x p hx with hx | hx
      · exact hi.fresh x p hx
      · exact Or.inr (hi.sub p hx)
    · rcases Nat.lt_or_eq_of_le (Nat.le_of_lt_succ h2) with h2 | rfl
      · obtain ⟨hwi, hwj⟩ := page_index h1 (h2.trans hlt)
        have hw : ¬ (d = d ∧ w / 1024 = v / 1024 ∧ w % 1024 = v % 1024) := by omega
        obtain ⟨h3, h4⟩ := hi.done w h1 h2
        rw [hC.pte d _ _ hd hwi hwj hw]
        refine ⟨h3, fun h5 => ?_⟩
        obtain ⟨q, hq, h6, h7⟩ := h4 h5
        refine ⟨q, hq, h6, fun o hof => ?_⟩
        rw [← h7 o hof, hC.stays.frame hi.sound hd (e := d) (i := w / 1024) (j := w % 1024)
          ⟨hd, hwi, hwj, h3.trans h5, ?_⟩]
        rw [h6, makeEntry_frame (Nat.mod_lt _ (by decide))]
      · obtain ⟨q, hq, h6, h7⟩ := hC.new
        have hpt : s.pte s₀.cr3 (w / 1024) (w % 1024) = s₀.pte s₀.cr3 (w / 1024) (w % 1024) := by rw [← hold, hcr]
        rw [hpt] at h6 h7
        refine ⟨by rw [h6, makeEntry_present, hp], fun _ => ⟨q, hi.sub q hq, h6, fun o hof => ?_⟩⟩
        rw [h7 o hof, hi.stays.frame h₀ hd (e := s₀.cr3) (i := w / 1024) (j := w % 1024) ⟨hc, hix, hjx, hp, rfl⟩]
    · have hw : ¬ (d = d ∧ w / 1024 = v / 1024 ∧ w % 1024 = v % 1024) := by omega
      by_cases hr : 32 ≤ w / 1024
      · rw [hC.pte d _ _ hd ⟨hr, by omega⟩ (Nat.mod_lt _ (by decide)) hw]
        exact hi.todo w (by omega) h2
      · have hv' : 32768 ≤ v := hv
        omega

theorem Copying.run (h₀ : Sound s₀ D K L₀) (hc : D s₀.cr3) (hd : D d) (hne : d ≠ s₀.cr3)
    (hi : Copying s₀ s D K L₀ L d v) (hv : phyPage ≤ v) (hn : v + n ≤ usrMem / pgsize)
    (he : copyPages d (v * pgsize) n s = some s') :
    ∃ L', Copying s₀ s' D K L₀ L' d (v + n) := by
  induction n generalizing v s L with
  | zero =>
    cases he
    exact ⟨L, hi⟩
  | succ n ih =>
    have hnext : v * pgsize + pgsize = (v + 1) * pgsize := (Nat.succ_mul v pgsize).symm
    unfold copyPages at he
    obtain ⟨s₁, h1, he⟩ := Option.bind_eq_some_iff.1 he
    rw [hnext] at he
    obtain ⟨L₁, hi₁, -⟩ := hi.step h₀ hc hd hne hv (by omega) h1
    obtain ⟨L', hi'⟩ := ih hi₁ (by omega) (by omega) he
    exact ⟨L', by rw [show v + (n + 1) = v + 1 + n by omega]; exact hi'⟩

/-! ## Enough pages -/

/-- The pages of the current address space among the `n` from `v` on. -/
def toCopy (s : Vm) (v n : Nat) : Finset Nat :=
  (Finset.Ico v (v + n)).filter fun w => present (s.pte s.cr3 (w / 1024) (w % 1024)) = true

/-- The parts of the address space that they are in. -/
def toTable (s : Vm) (v n : Nat) : Finset Nat := (toCopy s v n).image (· / 1024)

/-- The parts for which `d` has no page table. -/
def missing (s : Vm) (d : Nat) (A : Finset Nat) : Finset Nat := A.filter fun i => present (s.word d i) = false

/-- A page table that is there now is not missing any more. -/
theorem missing_insert {s₁ : Vm} {A : Finset Nat} (hp : present (s₁.word d i) = true)
    (hsame : ∀ c ∈ A, c ≠ i → s₁.word d c = s.word d c) :
    (missing s₁ d A).card + (!present (s.word d i)).toNat ≤ (missing s d (insert i A)).card := by
  have hsub : missing s₁ d A ⊆ missing s d A := fun c hc => by
    obtain ⟨h1, h2⟩ := Finset.mem_filter.1 hc
    refine Finset.mem_filter.2 ⟨h1, ?_⟩
    have hne : c ≠ i := by
      rintro rfl
      rw [hp] at h2
      cases h2
    rwa [hsame c h1 hne] at h2
  cases hpd : present (s.word d i) with
  | true => exact Finset.card_le_card (hsub.trans (Finset.filter_subset_filter _ (Finset.subset_insert _ _)))
  | false =>
    have hins : insert i (missing s₁ d A) ⊆ missing s d (insert i A) :=
      Finset.insert_subset (Finset.mem_filter.2 ⟨Finset.mem_insert_self _ _, hpd⟩)
        (hsub.trans (Finset.filter_subset_filter _ (Finset.subset_insert _ _)))
    have hnot : i ∉ missing s₁ d A := fun hx => by
      have h2 := (Finset.mem_filter.1 hx).2
      rw [hp] at h2
      cases h2
    have hcard := Finset.card_le_card hins
    rwa [Finset.card_insert_of_notMem hnot] at hcard

theorem toCopy_succ : toCopy s v (n + 1) =
    if present (s.pte s.cr3 (v / 1024) (v % 1024)) = true then insert v (toCopy s (v + 1) n) else toCopy s
      (v + 1) n := by
  unfold toCopy
  rw [← Finset.insert_Ico_add_one_left_eq_Ico (by omega : v < v + (n + 1)), Finset.filter_insert,
    Nat.add_right_comm v 1 n]
  rfl

theorem Copying.copyPage_some (hi : Copying s₀ s D K L₀ L d v) (hc : D s₀.cr3) (hd : D d) (hne : d ≠ s₀.cr3)
    (hv : phyPage ≤ v) (hlt : v < usrMem / pgsize)
    (hroom : present (s₀.pte s₀.cr3 (v / 1024) (v % 1024)) = true →
    (!present (s.word d (v / 1024))).toNat + 1 ≤ L.length) :
    ∃ s', s.copyPage d (v * pgsize) = some s' := by
  obtain ⟨hix, hjx⟩ := page_index hv hlt
  have hcr : s.cr3 = s₀.cr3 := hi.stays.cr3
  have hold : s.pte s.cr3 (v / 1024) (v % 1024) = s₀.pte s₀.cr3 (v / 1024) (v % 1024) := by
    rw [hcr]
    exact hi.pte _ _ _ hc hix hjx hne.symm
  have hlt' : v < 786432 := hlt
  have hnew := hi.todo v (Nat.le_refl v) (by omega)
  cases hp : present (s.pte s.cr3 (v / 1024) (v % 1024)) with
  | false => exact ⟨s, copyPage_absent hp⟩
  | true =>
    have ho : (s.pte s.cr3 (v / 1024) (v % 1024) % 8).testBit 0 = true := by
      have := present_iff.1 hp
      rw [Nat.testBit_zero, decide_eq_true_iff]
      omega
    obtain ⟨s₁, hm⟩ := hi.sound.mapPage_some hd (by rw [addr2dir_page]; exact hix) ho
      (Nat.mod_lt _ (by decide)) (by
        rw [addr2dir_page, addr2tbl_page, hnew]
        exact hroom (hold ▸ hp))
    obtain ⟨s', -, he, -⟩ := hi.sound.copyPage (hcr ▸ hc) hd (hcr ▸ hne) hv hlt hnew hp hm
    exact ⟨s', he⟩

theorem copyPages_some (h₀ : Sound s₀ D K L₀) (hc : D s₀.cr3) (hd : D d) (hne : d ≠ s₀.cr3) :
    ∀ {n v : Nat} {s : Vm} {L : List Nat}, Copying s₀ s D K L₀ L d v → phyPage ≤ v → v + n ≤ usrMem / pgsize →
      (toCopy s₀ v n).card + (missing s d (toTable s₀ v n)).card ≤ L.length →
      ∃ s' L', copyPages d (v * pgsize) n s = some s' ∧ Copying s₀ s' D K L₀ L' d (v + n)
  | 0, v, s, L, hi, _, _, _ => ⟨s, L, rfl, hi⟩
  | n + 1, v, s, L, hi, hv, hlt, hroom => by
    have hnext : v * pgsize + pgsize = (v + 1) * pgsize := (Nat.succ_mul v pgsize).symm
    have hmem : v ∉ toCopy s₀ (v + 1) n := fun hx => by
      have := (Finset.mem_Ico.1 (Finset.mem_filter.1 hx).1).1
      omega
    have hneed : present (s₀.pte s₀.cr3 (v / 1024) (v % 1024)) = true →
        toCopy s₀ v (n + 1) = insert v (toCopy s₀ (v + 1) n) ∧
            toTable s₀ v (n + 1) = insert (v / 1024) (toTable s₀ (v + 1) n) :=
      fun hp => by
        have hcopy : toCopy s₀ v (n + 1) = insert v (toCopy s₀ (v + 1) n) := by rw [toCopy_succ, if_pos hp]
        exact ⟨hcopy, by rw [toTable, hcopy, Finset.image_insert]; rfl⟩
    obtain ⟨s₁, he⟩ := hi.copyPage_some hc hd hne hv (by omega) fun hp => by
      obtain ⟨h1, h2⟩ := hneed hp
      rw [h1, h2, Finset.card_insert_of_notMem hmem] at hroom
      cases hpd : present (s.word d (v / 1024)) with
      | true =>
        show 0 + 1 ≤ L.length
        omega
      | false =>
        have : 1 ≤ (missing s d (insert (v / 1024) (toTable s₀ (v + 1) n))).card :=
          Finset.card_pos.2 ⟨v / 1024, Finset.mem_filter.2 ⟨Finset.mem_insert_self _ _, hpd⟩⟩
        show 1 + 1 ≤ L.length
        omega
    obtain ⟨L₁, hi₁, hcase⟩ := hi.step h₀ hc hd hne hv (by omega) he
    have hroom₁ : (toCopy s₀ (v + 1) n).card + (missing s₁ d (toTable s₀ (v + 1) n)).card ≤ L₁.length := by
      rcases hcase with ⟨hp, rfl, rfl⟩ | ⟨hp, hC⟩
      · have hcopy : toCopy s₀ v (n + 1) = toCopy s₀ (v + 1) n := by rw [toCopy_succ, hp, if_neg Bool.false_ne_true]
        have htable : toTable s₀ v (n + 1) = toTable s₀ (v + 1) n := by rw [toTable, hcopy]; rfl
        rw [hcopy, htable] at hroom
        exact hroom
      · obtain ⟨h1, h2⟩ := hneed hp
        rw [h1, h2, Finset.card_insert_of_notMem hmem] at hroom
        have hused := hC.used
        have hrange : ∀ i ∈ toTable s₀ (v + 1) n, 32 ≤ i ∧ i < 1024 := fun i hit => by
          obtain ⟨w, hw, rfl⟩ := Finset.mem_image.1 hit
          have hw' := Finset.mem_Ico.1 (Finset.mem_filter.1 hw).1
          exact (page_index (by omega) (by omega)).1
        have hless : (missing s₁ d (toTable s₀ (v + 1) n)).card + (!present (s.word d (v / 1024))).toNat ≤
            (missing s d (insert (v / 1024) (toTable s₀ (v + 1) n))).card :=
          missing_insert hC.dir fun c hc hne => hC.pde d c hd (hrange c hc) fun hx => hne hx.2
        omega
    obtain ⟨s', L', hrest, hi'⟩ := copyPages_some h₀ hc hd hne hi₁ (Nat.le_succ_of_le hv) (by omega) hroom₁
    refine ⟨s', L', ?_, by rw [show v + (n + 1) = v + 1 + n by omega]; exact hi'⟩
    unfold copyPages
    simp only [he, Option.bind_eq_bind, Option.bind_some, hnext]
    exact hrest

/-- The free pages that copying the current address space takes: one for each of its pages, and one
for each page table. -/
def pagesNeeded (s : Vm) : Nat :=
  (toCopy s phyPage ((usrMem - phyMem) / pgsize)).card + (toTable s phyPage ((usrMem - phyMem) / pgsize)).card

/-- Nothing of the user's part is mapped, as `vm_alloc` leaves it. -/
def Empty (s : Vm) (d : Nat) : Prop := ∀ i, 32 ≤ i → i < 1024 → present (s.word d i) = false

theorem Empty.pte (h : Empty s d) (hi : 32 ≤ i ∧ i < 1024) : present (s.pte d i j) = false := by
  unfold Vm.pte
  rw [h i hi.1 hi.2, if_neg Bool.false_ne_true]
  decide

theorem Sound.copying (h : Sound s D K L) (hempty : Empty s d) : Copying s s D K L L d phyPage := by
  refine ⟨h, fun _ hp => hp, fun _ _ _ _ _ => rfl, fun _ _ _ _ _ _ _ => rfl, .refl, fun _ _ hx => Or.inl hx,
    fun w h1 h2 => absurd h2 (Nat.not_lt.2 h1), fun w h1 h2 => hempty.pte ?_⟩
  have h1' : 32768 ≤ w := h1
  omega

theorem phyPage_addr : phyPage * pgsize = phyMem := by decide

theorem phyPage_end : phyPage + (usrMem - phyMem) / pgsize = usrMem / pgsize := by decide

theorem Sound.vmCopycurr_run (h : Sound s D K L) (hc : D s.cr3) (hd : D d) (hne : d ≠ s.cr3) (hempty : Empty s d)
    (he : s.vmCopycurr d = some s') : ∃ L', Copying s s' D K L L' d (usrMem / pgsize) := by
  unfold Vm.vmCopycurr at he
  rw [← phyPage_addr] at he
  have hrun := Copying.run h hc hd hne (h.copying hempty) (Nat.le_refl _) (le_of_eq phyPage_end) he
  rw [phyPage_end] at hrun
  exact hrun

theorem Sound.vmCopycurr (h : Sound s D K L) (hc : D s.cr3) (hd : D d) (hne : d ≠ s.cr3) (hempty : Empty s d)
    (hroom : pagesNeeded s ≤ L.length) :
    ∃ s' L', s.vmCopycurr d = some s' ∧ Copying s s' D K L L' d (usrMem / pgsize) := by
  have hmiss : missing s d (toTable s phyPage ((usrMem - phyMem) / pgsize)) ⊆ toTable s phyPage
      ((usrMem - phyMem) / pgsize) :=
    Finset.filter_subset _ _
  have hrun := copyPages_some (n := (usrMem - phyMem) / pgsize) h hc hd hne (h.copying hempty) (Nat.le_refl _)
    (le_of_eq phyPage_end) (le_trans (Nat.add_le_add_left (Finset.card_le_card hmiss) _) hroom)
  rw [phyPage_addr, phyPage_end] at hrun
  exact hrun

end TinyOS.Vm
