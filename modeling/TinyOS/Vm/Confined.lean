/-
What the functions of vme.c leave alone: an operation on one page directory does not touch the entries
of another, nor the part of any of them that maps the kernel's memory.
-/
import TinyOS.Vm.Built

namespace TinyOS.Vm

open TinyOS.Lib

variable {s s' s₁ : Vm} {D K : Nat → Prop} {L : List Nat} {d e i j k p q t n v c va len prot : Nat}
  {r : Option (Nat × Nat)}

/-- An operation on the directory `d`. -/
structure Confined (s s' : Vm) (D K : Nat → Prop) (d : Nat) : Prop where
  sound : ∃ L', Sound s' D K L'
  pde : ∀ e c, D e → e ≠ d → 32 ≤ c ∧ c < 1024 → s'.word e c = s.word e c
  pte : ∀ e c k, D e → e ≠ d → 32 ≤ c ∧ c < 1024 → k < 1024 → s'.pte e c k = s.pte e c k
  low : ∀ e c, D e → c < 32 → present (s.word e c) = true → present (s'.word e c) = true
  kpt : s'.kpt = s.kpt

theorem Confined.refl (h : Sound s D K L) : Confined s s D K d :=
  ⟨⟨L, h⟩, fun _ _ _ _ _ => rfl, fun _ _ _ _ _ _ _ => rfl, fun _ _ _ _ hp => hp, rfl⟩

theorem Confined.trans (h : Confined s s₁ D K d) (h' : Confined s₁ s' D K d) : Confined s s' D K d where
  sound := h'.sound
  pde e c he hne hc := by rw [h'.pde e c he hne hc, h.pde e c he hne hc]
  pte e c k he hne hc hk := by rw [h'.pte e c k he hne hc hk, h.pte e c k he hne hc hk]
  low e c he hc hp := h'.low e c he hc (h.low e c he hc hp)
  kpt := h'.kpt.trans h.kpt

/-- The pages of another directory. -/
theorem Confined.holds {x : Place} (h : Confined s s' D K d) (hx : x.Of e) (hne : e ≠ d) :
    Holds s' D K x p ↔ Holds s D K x p := by
  cases x with
  | dir e' => exact Iff.rfl
  | own k => exact Iff.rfl
  | table e' i =>
    obtain rfl : e' = e := hx
    refine and_congr_right fun he => and_congr_right fun hi => ?_
    rw [h.pde e' i he hne hi]
  | frame e' i j =>
    obtain rfl : e' = e := hx
    refine and_congr_right fun he => and_congr_right fun hi => and_congr_right fun hj => ?_
    rw [h.pte e' i j he hne hi hj]

theorem SameEntries.confined (hs : SameEntries s s' D) (h : ∃ L', Sound s' D K L')
    (hlow : ∀ e c, D e → c < 32 → present (s.word e c) = true → present (s'.word e c) = true) (hk : s'.kpt = s.kpt) :
    Confined s s' D K d :=
  ⟨h, fun e c he _ hc => hs.pde e c he hc, fun e c k he _ hc hk => hs.pte e c k he hc hk, hlow, hk⟩

/-! ## Lookups -/

theorem Sound.kalloc_word (h : Sound s D K L) (he : D e) (hk : s.kalloc = some (p, s')) : s'.word e c = s.word e c := by
  obtain ⟨L', rfl, -, -, -, -, hmem, -⟩ := h.kalloc hk
  refine word_congr (hmem e ?_)
  rintro rfl
  exact h.dir_not_free he List.mem_cons_self

theorem Sound.walkpte_word (h : Sound s D K L) (he : D e) (hc : c ≠ addr2dir va)
    (hw : s.walkpte d va prot = some (r, s')) :
    s'.word e c = s.word e c := by
  unfold Vm.walkpte at hw
  simp only at hw
  split at hw
  · obtain ⟨⟨t, s₁⟩, hk, hw⟩ := Option.bind_eq_some_iff.1 hw
    simp only at hw
    split at hw
    · cases hw
      rw [word_setWord_ne (Or.inr hc)]
      exact h.kalloc_word he hk
    · cases hw
  · split at hw
    · cases hw
      rfl
    · split at hw
      · cases hw
        split
        · exact word_setWord_ne (Or.inr hc)
        · rfl
      · cases hw

/-- More rights in an entry for the kernel's memory. -/
theorem Sound.orLow (h : Sound s D K L) (hd : D d) (hi : i < 32) (hprot : prot < 8) :
    Confined s (s.setWord d i (s.word d i ||| prot)) D K d := by
  have hword : ∀ e c, c ≠ i → (s.setWord d i (s.word d i ||| prot)).word e c = s.word e c := fun e c hc =>
    word_setWord_ne (Or.inr hc)
  have hsame : SameEntries s (s.setWord d i (s.word d i ||| prot)) D := by
    refine ⟨fun e c _ hc => hword e c (by omega), fun e c k he hc _ => ?_⟩
    unfold Vm.pte
    rw [hword e c (by omega)]
    split
    · next hp => exact word_setWord_ne (Or.inl (h.table_ne_dir hd ⟨he, hc, hp, rfl⟩))
    · rfl
  refine hsame.confined ⟨L, hsame.sound h (h.free_chain ⟨.dir d, hd, rfl⟩)⟩ (fun e c he hc hp => ?_) rfl
  by_cases hec : e = d ∧ c = i
  · obtain ⟨rfl, rfl⟩ := hec
    rw [word_setWord_self (or_lt word_lt hprot), present_or, hp, Bool.true_or]
  · rw [word_setWord_ne (by tauto)]
    exact hp

theorem Sound.confined_walkpte (h : Sound s D K L) (hd : D d) (hva : va < 2 ^ 32)
    (hlow : ∀ c < 32, present (s.word d c) = true) (hw : s.walkpte d va prot = some (r, s')) : Confined s s' D K d := by
  have hi : addr2dir va < 1024 := by
    unfold addr2dir
    omega
  cases hp : present (s.word d (addr2dir va)) with
  | false =>
    -- the tables of the kernel are there, so a missing one is a table of the process
    have h32 : 32 ≤ addr2dir va := by
      by_contra hlt
      rw [hlow _ (by omega)] at hp
      cases hp
    cases ho : prot.testBit 0 with
    | true =>
      obtain ⟨-, -, L', ht⟩ := h.walkpte hd ⟨h32, hi⟩ ho hw
      refine ⟨⟨L', ht.sound⟩, fun e c he hne hc => ht.set.pde e c he hc fun hx => hne hx.1,
        fun e c k he _ hc hk => ht.set.pte e c k he hc hk, fun e c he hc hpc => ?_, ht.stays.kpt⟩
      rw [h.walkpte_word he (by omega) hw]
      exact hpc
    | false =>
      unfold Vm.walkpte at hw
      simp only [hp, ho, Bool.not_false, Bool.and_false, Bool.false_eq_true, if_false, if_true] at hw
      cases hw
      exact Confined.refl h
  | true =>
    unfold Vm.walkpte at hw
    simp only [hp, Bool.not_true, Bool.false_and, Bool.false_eq_true, if_false] at hw
    split at hw
    · next hprot =>
      cases hw
      split
      · by_cases h32 : addr2dir va < 32
        · exact h.orLow hd h32 hprot
        · obtain ⟨h₂, hset⟩ := h.orPde hd ⟨by omega, hi⟩ hp hprot
          refine ⟨⟨L, h₂⟩, fun e c he hne hc => hset.pde e c he hc fun hx => hne hx.1,
            fun e c k he _ hc hk => hset.pte e c k he hc hk, fun e c he hc hpc => ?_, rfl⟩
          rw [word_setWord_ne (Or.inr (by omega))]
          exact hpc
      · exact Confined.refl h
    · cases hw

/-- A lookup of an address ends where that of its page table entry ends. -/
theorem walk_walkpte {a : Nat} (hw : s.walk d va prot = some (a, s')) : ∃ r, s.walkpte d va prot = some (r, s') := by
  unfold Vm.walk at hw
  obtain ⟨⟨r, s₁⟩, h1, hw⟩ := Option.bind_eq_some_iff.1 hw
  obtain ⟨⟨t, j⟩, h2, hw⟩ := Option.bind_eq_some_iff.1 hw
  refine ⟨r, ?_⟩
  simp only at hw
  split at hw
  · cases hw
  · split at hw
    · cases hw
    · split at hw
      · cases hw
        exact h1
      · cases hw
        exact h1

theorem walk_zero {a : Nat} (hw : s.walk d va 0 = some (a, s')) : s' = s := by
  obtain ⟨r, h1⟩ := walk_walkpte hw
  rw [walkpte_zero] at h1
  cases h1
  rfl

/-! ## Pages that are mapped, unmapped and copied -/

theorem Sound.mapPage_word (h : Sound s D K L) (hd : D d) (he : D e) (hi : 32 ≤ addr2dir va ∧ addr2dir va < 1024)
    (ho : prot.testBit 0 = true) (hc : c < 32) (hm : s.mapPage d va prot = some s') : s'.word e c = s.word e c := by
  unfold Vm.mapPage at hm
  obtain ⟨⟨r, s₁⟩, hw, hm⟩ := Option.bind_eq_some_iff.1 hm
  obtain ⟨-, rfl, L₁, ht⟩ := h.walkpte hd hi ho hw
  have hword := h.walkpte_word he (by omega : c ≠ addr2dir va) hw
  have hne := ht.sound.table_ne_dir he (t := pageFrame (s₁.word d (addr2dir va))) ⟨hd, hi, ht.present, rfl⟩
  simp only [Option.bind_eq_bind, Option.bind_some] at hm
  split at hm
  · obtain ⟨⟨q, s₂⟩, hk, hm⟩ := Option.bind_eq_some_iff.1 hm
    cases hm
    rw [word_setWord_ne (Or.inl hne.symm), ht.sound.kalloc_word he hk, hword]
  · cases hm
    rw [word_setWord_ne (Or.inl hne.symm), hword]

theorem Sound.confined_mapPage (h : Sound s D K L) (hd : D d) (hi : 32 ≤ addr2dir va ∧ addr2dir va < 1024)
    (ho : prot.testBit 0 = true) (hm : s.mapPage d va prot = some s') : Confined s s' D K d := by
  obtain ⟨-, L', hM⟩ := h.mapPage hd hi ho hm
  refine ⟨⟨L', hM.sound⟩, fun e c he hne hc => hM.pde e c he hc fun hx => hne hx.1,
    fun e c k he hne hc hk => hM.pte e c k he hc hk fun hx => hne hx.1, fun e c he hc hp => ?_, hM.stays.kpt⟩
  rw [h.mapPage_word hd he hi ho hc hm]
  exact hp

/-- Unmapping a page touches its page table and the page itself. -/
theorem unmapPage_mem (hd : D d) (hi : 32 ≤ addr2dir va ∧ addr2dir va < 1024)
    (hm : s.unmapPage d va = some s') (ht : ¬ Holds s D K (.table d (addr2dir va)) q)
    (hf : ¬ Holds s D K (.frame d (addr2dir va) (addr2tbl va)) q) : s'.mem q = s.mem q := by
  unfold Vm.unmapPage at hm
  simp only [walkpte_zero, Option.bind_eq_bind, Option.bind_some] at hm
  cases hpd : present (s.word d (addr2dir va)) with
  | false =>
    simp only [hpd, Bool.false_eq_true, if_false] at hm
    cases hm
    rfl
  | true =>
    simp only [hpd, if_true] at hm
    split at hm
    · next hp =>
      obtain ⟨s₁, hk, hm⟩ := Option.bind_eq_some_iff.1 hm
      cases hm
      have hpte : s.word (pageFrame (s.word d (addr2dir va))) (addr2tbl va) = s.pte d (addr2dir va) (addr2tbl va) := by
        unfold Vm.pte
        rw [if_pos hpd]
      rw [hpte] at hp hk
      rw [setWord_mem fun hc => ht ⟨hd, hi, hpd, hc.symm⟩]
      exact kfree_mem (fun hc => hf ⟨hd, hi, addr2tbl_lt, hp, hc.symm⟩) hk
    · cases hm
      rfl

theorem Sound.unmapPage_word (h : Sound s D K L) (hd : D d) (he : D e) (hi : 32 ≤ addr2dir va ∧ addr2dir va < 1024)
    (hm : s.unmapPage d va = some s') : s'.word e c = s.word e c :=
  word_congr (unmapPage_mem hd hi hm (fun hc => h.table_ne_dir he hc rfl) fun hc => by
    cases h.own.inj _ (.dir e) e hc ⟨he, rfl⟩)

theorem Sound.confined_unmapPage (h : Sound s D K L) (hd : D d) (hi : 32 ≤ addr2dir va ∧ addr2dir va < 1024)
    (hm : s.unmapPage d va = some s') : Confined s s' D K d := by
  obtain ⟨L', hU⟩ := h.unmapPage hd hi hm
  refine ⟨⟨L', hU.sound⟩, fun e c he _ hc => hU.pde e c he hc,
    fun e c k he hne hc hk => hU.pte e c k he hc hk fun hx => hne hx.1, fun e c he _ hp => ?_, hU.kpt⟩
  rw [h.unmapPage_word hd he hi hm]
  exact hp

/-- A page is copied, from whatever directory is in use, into a page of `d`. -/
theorem Sound.confined_copyPage (h : Sound s D K L) (hd : D d) (hv : phyPage ≤ v) (hlt : v < usrMem / pgsize)
    (hm : s.copyPage d (v * pgsize) = some s') : Confined s s' D K d := by
  obtain ⟨hi, hj⟩ := page_index hv hlt
  cases hp : present (s.pte s.cr3 (v / 1024) (v % 1024)) with
  | false =>
    rw [copyPage_absent hp] at hm
    cases hm
    exact Confined.refl h
  | true =>
    rw [copyPage_present hv hlt hp] at hm
    obtain ⟨s₁, h1, hm₁⟩ := Option.bind_eq_some_iff.1 hm
    obtain ⟨⟨pa, s₂⟩, h2, hm₂⟩ := Option.bind_eq_some_iff.1 hm₁
    obtain ⟨⟨na, s₃⟩, h3, hm₃⟩ := Option.bind_eq_some_iff.1 hm₂
    have h₂₁ : s₂ = s₁ := walk_zero h2
    have h₃₂ : s₃ = s₂ := walk_zero h3
    clear hm hm₁ hm₂
    subst h₂₁ h₃₂
    cases hm₃
    have ho : (s.pte s.cr3 (v / 1024) (v % 1024) % 8).testBit 0 = true := by
      have := present_iff.1 hp
      rw [Nat.testBit_zero, decide_eq_true_iff]
      omega
    have hi' : 32 ≤ addr2dir (v * pgsize) ∧ addr2dir (v * pgsize) < 1024 := by
      rw [addr2dir_page]
      exact hi
    obtain ⟨-, L', hM⟩ := h.mapPage hd hi' ho h1
    rw [addr2dir_page, addr2tbl_page] at hM
    have hnew : present (s₃.pte d (v / 1024) (v % 1024)) = true := by
      cases hold : present (s.pte d (v / 1024) (v % 1024)) with
      | true => rw [hM.old hold, present_or, hold, Bool.true_or]
      | false =>
        obtain ⟨q, -, hq, -⟩ := hM.new hold
        rw [hq, makeEntry_present]
    generalize hq : pageFrame (s₃.pte d (v / 1024) (v % 1024)) = q at *
    have hframe : Holds s₃ D K (.frame d (v / 1024) (v % 1024)) q := ⟨hd, hi, hj, hnew, hq⟩
    have hq0 : q ≠ 0 := by
      rintro rfl
      exact absurd (hM.sound.own.range _ _ hframe).1 (by decide)
    rw [walk_page hv hM.dir (by rw [hq]; exact hq0), hq] at h3
    obtain rfl : na = q * pgsize := (congrArg Prod.fst (Option.some.inj h3)).symm
    -- the bytes go to a frame of `d`, which is neither a directory nor a table
    have hmem : ∀ x, x ≠ q → (s₃.copyTo (q * pgsize) pa).mem x = s₃.mem x := fun x hx => by
      unfold copyTo
      rw [Nat.mul_div_cancel q (by decide)]
      exact setPage_ne hx
    have hdir : ∀ x, D x → (s₃.copyTo (q * pgsize) pa).mem x = s₃.mem x := fun x hx => hmem x fun hc => by
      subst hc
      cases hM.sound.own.inj _ (.dir x) x hframe ⟨hx, rfl⟩
    have hsame : SameEntries s₃ (s₃.copyTo (q * pgsize) pa) D := by
      refine sameEntries_of_mem (K := K) hdir fun x b t ht => hmem t ?_
      rintro rfl
      cases hM.sound.own.inj _ _ t hframe ht
    have hnot : q ∉ L' := hM.sound.own.not_free hframe
    have hchain : Chain (s₃.copyTo (q * pgsize) pa) (s₃.copyTo (q * pgsize) pa).free L' :=
      hM.sound.chain.congr fun x hx => word_congr (hmem x fun hc => hnot (hc ▸ hx))
    refine (h.confined_mapPage hd hi' ho h1).trans
      (hsame.confined ⟨L', hsame.sound hM.sound hchain⟩ (fun x c hx _ hpx => ?_) rfl)
    rw [word_congr (hdir x hx)]
    exact hpx

/-! ## Ranges -/

theorem page_dir (hv : phyPage ≤ v) (hn : v < 1024 * 1024) :
    32 ≤ addr2dir (v * pgsize) ∧ addr2dir (v * pgsize) < 1024 := by
  have hv' : 32768 ≤ v := hv
  rw [addr2dir_page]
  omega

theorem Sound.confined_mapPages (h : Sound s D K L) (hd : D d) (ho : prot.testBit 0 = true) (hv : phyPage ≤ v)
    (hn : v + n ≤ 1024 * 1024) (he : mapPages d prot (v * pgsize) n s = some s') : Confined s s' D K d := by
  induction n generalizing v s L with
  | zero =>
    cases he
    exact Confined.refl h
  | succ n ih =>
    obtain ⟨s₁, h1, he⟩ := mapPages_succ.1 he
    have hone := h.confined_mapPage hd (page_dir hv (by omega)) ho h1
    obtain ⟨L₁, h₁⟩ := hone.sound
    exact hone.trans (ih h₁ (by omega) (by omega) he)

theorem Sound.confined_unmapPages (h : Sound s D K L) (hd : D d) (hv : phyPage ≤ v) (hn : v + n ≤ 1024 * 1024)
    (he : unmapPages d (v * pgsize) n s = some s') : Confined s s' D K d := by
  induction n generalizing v s L with
  | zero =>
    cases he
    exact Confined.refl h
  | succ n ih =>
    obtain ⟨s₁, h1, he⟩ := unmapPages_succ.1 he
    have hone := h.confined_unmapPage hd (page_dir hv (by omega)) h1
    obtain ⟨L₁, h₁⟩ := hone.sound
    exact hone.trans (ih h₁ (by omega) (by omega) he)

theorem Sound.confined_vmMap (h : Sound s D K L) (hd : D d) (he : s.vmMap d va len prot = some s') :
    Confined s s' D K d := by
  unfold Vm.vmMap at he
  simp only at he
  split at he
  · next hc =>
    obtain ⟨ho, -, hphy, hle⟩ := hc
    obtain ⟨h1, h2⟩ := range_le hphy hle
    exact h.confined_mapPages hd ho h1 h2 he
  · cases he

theorem Sound.confined_vmUnmap (h : Sound s D K L) (hd : D d) (hphy : phyMem ≤ va) (he : s.vmUnmap d va len = some s') :
    Confined s s' D K d := by
  unfold Vm.vmUnmap at he
  split at he
  · rcases Nat.lt_or_ge (pageUp (uint32 (va + len))) (pageDown va) with hlt | hle
    · rw [Nat.sub_eq_zero_of_le hlt.le, Nat.zero_div] at he
      cases he
      exact Confined.refl h
    · have hphy' : phyMem ≤ pageDown va := by
        have h1 : pageDown va = va / 4096 * 4096 := rfl
        have h2 : 0x8000000 ≤ va := hphy
        show 0x8000000 ≤ pageDown va
        omega
      obtain ⟨h1, h2⟩ := range_le hphy' hle
      exact h.confined_unmapPages hd h1 h2 he
  · cases he

theorem Sound.confined_copyPages (h : Sound s D K L) (hd : D d) (hv : phyPage ≤ v) (hn : v + n ≤ usrMem / pgsize)
    (he : copyPages d (v * pgsize) n s = some s') : Confined s s' D K d := by
  induction n generalizing v s L with
  | zero =>
    cases he
    exact Confined.refl h
  | succ n ih =>
    have hnext : v * pgsize + pgsize = (v + 1) * pgsize := (Nat.succ_mul v pgsize).symm
    unfold copyPages at he
    obtain ⟨s₁, h1, he⟩ := Option.bind_eq_some_iff.1 he
    rw [hnext] at he
    have hone := h.confined_copyPage hd hv (by omega) h1
    obtain ⟨L₁, h₁⟩ := hone.sound
    exact hone.trans (ih h₁ (by omega) (by omega) he)

theorem Sound.confined_vmCopycurr (h : Sound s D K L) (hd : D d) (he : s.vmCopycurr d = some s') :
    Confined s s' D K d := by
  unfold Vm.vmCopycurr at he
  rw [← phyPage_addr] at he
  exact h.confined_copyPages hd (le_refl phyPage) phyPage_end.le he

/-! ## Page directories that come and go -/

/-- The kernel's part of a new directory is that of the kernel's own. -/
theorem Sound.vmAlloc_kernel (h : Sound s D K L) (hk : s.kpt + 32 ≤ kerPage) (he : s.vmAlloc = some (d, s'))
    (hc : c < 32) :
    s'.word d c = makeEntry (s.kpt + c) 3 := by
  unfold Vm.vmAlloc at he
  obtain ⟨⟨pg, s₁⟩, hka, he⟩ := Option.bind_eq_some_iff.1 he
  cases he
  obtain ⟨-, -, -, -, -, -, -, -, hkpt⟩ := h.kalloc hka
  have hk' : s.kpt + 32 ≤ 512 := hk
  have hlt : s₁.kpt + c < 2 ^ 20 := by omega
  have hent : makeEntry (s₁.kpt + c) 3 < 2 ^ 32 := makeEntry_lt hlt (by decide)
  rw [word_setWords (by omega) (by simp only [if_pos hc]; exact hent)]
  simp only [if_pos hc, hkpt]

theorem Sound.vmAlloc_low (h : Sound s D K L) (hk : s.kpt + 32 ≤ kerPage) (he : s.vmAlloc = some (d, s'))
    (hc : c < 32) :
    present (s'.word d c) = true := by
  rw [h.vmAlloc_kernel hk he hc, makeEntry_present]

/-- Another directory is given up. -/
theorem Sound.vmTeardown_word (h : Sound s D K L) (hd : D d) (he : D e) (hne : e ≠ d) (ht : s.vmTeardown d = some s') :
    s'.word e c = s.word e c := by
  obtain ⟨-, -, hmem, -⟩ := h.vmTeardown hd ht
  refine word_congr (hmem e ?_)
  rintro ⟨x, hx, -, hxe⟩
  have hdir := h.own.inj x (.dir e) e hxe ⟨he, rfl⟩
  subst hdir
  exact hne hx

end TinyOS.Vm
