/-
What `vm_copycurr` is for: the new address space is the current one, and from then on neither sees
what is written through the other.
-/
import TinyOS.Vm.Built

namespace TinyOS.Vm

open TinyOS.Lib

variable {s s' s₁ s₂ : Vm} {D K : Nat → Prop} {L L₁ L₂ : List Nat} {d e c i j k p q t v w n va o : Nat} {b : UInt8}

/-! ## Bytes at user addresses -/

/-- The page and the offset that an address leads to. -/
def translate (s : Vm) (d va : Nat) : Option (Nat × Nat) :=
  let e := s.pte d (addr2dir va) (addr2tbl va)
  if present e then some (pageFrame e, va % pgsize) else none

def peek (s : Vm) (d va : Nat) : Option UInt8 := (s.translate d va).map fun q => s.mem q.1 q.2

def poke (s : Vm) (d va : Nat) (b : UInt8) : Vm := (s.translate d va).elim s fun q => s.store q.1 q.2 b

/-- Writes through address spaces: the directory, the address and the byte of each. -/
def pokes (s : Vm) : List (Nat × Nat × UInt8) → Vm
  | [] => s
  | (d, va, b) :: ws => (s.poke d va b).pokes ws

/-- An address of the user's part. -/
def UserAddr (va : Nat) : Prop := phyMem ≤ va ∧ va < usrMem

theorem UserAddr.index (h : UserAddr va) : 32 ≤ addr2dir va ∧ addr2dir va < 1024 := by
  have h1 : 0x8000000 ≤ va := h.1
  have h2 : va < 0xc0000000 := h.2
  unfold addr2dir
  omega

theorem translate_holds (hd : D d) (hva : UserAddr va) {x : Nat × Nat} (h : s.translate d va = some x) :
    Holds s D K (.frame d (addr2dir va) (addr2tbl va)) x.1 := by
  unfold translate at h
  simp only at h
  split at h
  · next hp =>
    cases h
    exact ⟨hd, hva.index, addr2tbl_lt, hp, rfl⟩
  · cases h

theorem SameEntries.translate (h : SameEntries s s' D) (hd : D d) (hva : UserAddr va) :
    s'.translate d va = s.translate d va := by
  unfold Vm.translate
  rw [h.pte d _ _ hd hva.index addr2tbl_lt]

theorem Sound.poke (h : Sound s D K L) (hd : D d) (hva : UserAddr va) :
    Sound (s.poke d va b) D K L ∧ SameEntries s (s.poke d va b) D := by
  unfold Vm.poke
  cases ht : s.translate d va with
  | none => exact ⟨h, ⟨fun _ _ _ _ => rfl, fun _ _ _ _ _ _ => rfl⟩⟩
  | some x => exact h.store (Or.inr ⟨_, _, _, translate_holds hd hva ht⟩)

/-- What is seen after a write through another address space, and after one through this one. -/
theorem Sound.peek_other (h : Sound s D K L) (hd : D d) (he : D e) (hne : e ≠ d) (hva : UserAddr va) (hw : UserAddr w) :
    (s.poke e w b).peek d va = s.peek d va := by
  unfold peek
  rw [(h.poke he hw).2.translate hd hva]
  cases ht : s.translate d va with
  | none => rfl
  | some x =>
    refine congrArg some ?_
    unfold Vm.poke
    cases hy : s.translate e w with
    | none => rfl
    | some y =>
      have hxy : x.1 ≠ y.1 := fun hc => by
        have := h.own.inj _ _ x.1 (translate_holds hd hva ht) (hc ▸ translate_holds he hw hy)
        simp only [Place.frame.injEq] at this
        exact hne this.1.symm
      show (s.store y.1 y.2 b).mem x.1 x.2 = s.mem x.1 x.2
      rw [Vm.store, setPage_ne hxy]

theorem Sound.peek_self (h : Sound s D K L) (hd : D d) (hva : UserAddr va) (hw : UserAddr w) :
    (s.poke d w b).peek d va =
      (s.translate d va).map fun x => if s.translate d w = some x then b else s.mem x.1 x.2 := by
  unfold peek
  rw [(h.poke hd hw).2.translate hd hva]
  cases ht : s.translate d va with
  | none => rfl
  | some x =>
    refine congrArg some ?_
    unfold Vm.poke
    cases hy : s.translate d w with
    | none =>
      show s.mem x.1 x.2 = if (none : Option (Nat × Nat)) = some x then b else s.mem x.1 x.2
      rw [if_neg fun hc => by cases hc]
    | some y =>
      show (s.store y.1 y.2 b).mem x.1 x.2 = if some y = some x then b else s.mem x.1 x.2
      unfold Vm.store
      by_cases hp : x.1 = y.1
      · rw [hp, setPage_self]
        by_cases ho : x.2 = y.2
        · rw [ho, Function.update_self, if_pos (congrArg some (Prod.ext hp.symm ho.symm))]
        · rw [Function.update_of_ne ho, if_neg fun hc => ho (congrArg Prod.snd (Option.some.inj hc)).symm]
      · rw [setPage_ne hp, if_neg fun hc => hp (congrArg Prod.fst (Option.some.inj hc)).symm]

/-- Only the writes through its own directory count for what an address space shows. -/
theorem peek_pokes {ws : List (Nat × Nat × UInt8)} (hd : D d) (h₁ : Sound s₁ D K L₁) (h₂ : Sound s₂ D K L₂)
    (hsame : SameEntries s₁ s₂ D) (hsee : ∀ va, UserAddr va → s₁.peek d va = s₂.peek d va)
    (hws : ∀ x ∈ ws, D x.1 ∧ UserAddr x.2.1) (hva : UserAddr va) :
    (s₁.pokes ws).peek d va = (s₂.pokes (ws.filter fun x => x.1 = d)).peek d va := by
  induction ws generalizing s₁ s₂ with
  | nil => exact hsee va hva
  | cons x ws ih =>
    obtain ⟨e, w, b⟩ := x
    obtain ⟨he, hw⟩ := hws _ List.mem_cons_self
    have hrest := fun x hx => hws x (List.mem_cons_of_mem _ hx)
    obtain ⟨hp₁, hs₁⟩ := h₁.poke (b := b) he hw
    by_cases hed : e = d
    · subst hed
      obtain ⟨hp₂, hs₂⟩ := h₂.poke (b := b) he hw
      rw [List.filter_cons_of_pos (by simp)]
      refine ih hp₁ hp₂ ⟨fun d i hd hi => ?_, fun d i j hd hi hj => ?_⟩ (fun a ha => ?_) hrest
      · rw [hs₂.pde d i hd hi, hsame.pde d i hd hi, hs₁.pde d i hd hi]
      · rw [hs₂.pte d i j hd hi hj, hsame.pte d i j hd hi hj, hs₁.pte d i j hd hi hj]
      · rw [h₁.peek_self he ha hw, h₂.peek_self he ha hw, hsame.translate he ha, hsame.translate he hw]
        have hold := hsee a ha
        unfold peek at hold
        rw [hsame.translate he ha] at hold
        cases ht : s₁.translate e a with
        | none => rfl
        | some x =>
          rw [ht] at hold
          have hmem : s₁.mem x.1 x.2 = s₂.mem x.1 x.2 := Option.some.inj hold
          simp only [Option.map_some, hmem]
    · rw [List.filter_cons_of_neg (by simpa using hed)]
      refine ih hp₁ h₂ ⟨fun d i hd hi => ?_, fun d i j hd hi hj => ?_⟩ (fun a ha => ?_) hrest
      · rw [hsame.pde d i hd hi, hs₁.pde d i hd hi]
      · rw [hsame.pte d i j hd hi hj, hs₁.pte d i j hd hi hj]
      · rw [h₁.peek_other hd he hed ha hw, hsee a ha]

/-! ## The copy -/

/-- The address space of `d` in `s'` is a copy of the current one in `s`, in pages that were free. -/
structure Copy (s s' : Vm) (D K : Nat → Prop) (L : List Nat) (d : Nat) : Prop where
  mapped : ∀ va, UserAddr va → (s'.translate d va).isSome = (s.translate s.cr3 va).isSome
  rights : ∀ va, UserAddr va → s'.rights d (va / pgsize) = s.rights s.cr3 (va / pgsize)
  bytes : ∀ va, UserAddr va → s'.peek d va = s.peek s.cr3 va
  kept : ∀ q, q ∉ L → q ≠ d → s'.mem q = s.mem q
  curr : s'.cr3 = s.cr3
  same : ∀ va, UserAddr va → s'.translate s.cr3 va = s.translate s.cr3 va
  fresh : ∀ x p, x.Of d → x ≠ .dir d → Holds s' D K x p → p ∈ L
  distinct : ∀ x y p, Holds s' D K x p → Holds s' D K y p → x = y
  apart : ∀ ws va, (∀ x ∈ ws, (x.1 = s.cr3 ∨ x.1 = d) ∧ UserAddr x.2.1) → UserAddr va → ∀ e, e = s.cr3 ∨ e = d →
    (s'.pokes ws).peek e va = (s'.pokes (ws.filter fun x => x.1 = e)).peek e va

theorem UserAddr.page (h : UserAddr va) : phyPage ≤ va / pgsize ∧ va / pgsize < usrMem / pgsize := by
  have h1 : 0x8000000 ≤ va := h.1
  have h2 : va < 0xc0000000 := h.2
  constructor
  · show 32768 ≤ va / 4096
    omega
  · show va / 4096 < 786432
    omega

theorem addr2dir_eq : addr2dir va = va / pgsize / 1024 := by
  unfold addr2dir
  show va / 2 ^ 22 = va / 4096 / 1024
  omega

theorem addr2tbl_eq : addr2tbl va = va / pgsize % 1024 := rfl

theorem Copying.copy (hi : Copying s s' D K L L₁ d (usrMem / pgsize)) (h : Sound s D K L) (hc : D s.cr3) (hd : D d)
    (hne : d ≠ s.cr3) (hempty : Empty s d) : Copy s s' D K L d := by
  have htable : ∀ c q, ¬ Holds s D K (.table d c) q := fun c q hq => by
    have hp := hq.2.2.1
    rw [hempty c hq.2.1.1 hq.2.1.2] at hp
    cases hp
  have hkept : ∀ q, q ∉ L → q ≠ d → s'.mem q = s.mem q := fun q hq hqd => hi.stays.mem q hq hqd fun c => htable c q
  have hpte : ∀ {va}, UserAddr va → s'.pte s.cr3 (addr2dir va) (addr2tbl va) =
      s.pte s.cr3 (addr2dir va) (addr2tbl va) :=
    fun hva => hi.pte _ _ _ hc hva.index addr2tbl_lt hne.symm
  have hmap : ∀ va, UserAddr va → (s'.translate d va).isSome = (s.translate s.cr3 va).isSome := fun va hva => by
    have hp := (hi.done (va / pgsize) hva.page.1 hva.page.2).1
    unfold translate
    simp only [addr2dir_eq, addr2tbl_eq]
    rw [hp]
    split <;> rfl
  refine ⟨hmap, fun va hva => ?_, fun va hva => ?_, hkept, hi.stays.cr3, fun va hva => ?_, fun x p hx hxd hp => ?_,
    hi.sound.own.inj, fun ws va hws hva e he => ?_⟩
  · obtain ⟨h1, h2⟩ := hi.done (va / pgsize) hva.page.1 hva.page.2
    have hlt := hva.page.2
    have huser : UserPage (va / pgsize) := ⟨hva.page.1, hlt.trans (by decide)⟩
    rw [hi.sound.rights_eq hd huser, h.rights_eq hc huser, h1]
    cases hp : present (s.pte s.cr3 (va / pgsize / 1024) (va / pgsize % 1024)) with
    | false => rfl
    | true =>
      obtain ⟨q, -, hq, -⟩ := h2 hp
      have hm : s.pte s.cr3 (va / pgsize / 1024) (va / pgsize % 1024) % 8 < 8 := Nat.mod_lt _ (by decide)
      have ho : (s.pte s.cr3 (va / pgsize / 1024) (va / pgsize % 1024) % 8).testBit 0 = true := by
        have := present_iff.1 hp
        rw [Nat.testBit_zero, decide_eq_true_iff]
        omega
      rw [if_pos rfl, if_pos rfl, hq, makeEntry_odd hm ho]
  · obtain ⟨h1, h2⟩ := hi.done (va / pgsize) hva.page.1 hva.page.2
    unfold peek translate
    simp only [addr2dir_eq, addr2tbl_eq]
    rw [h1]
    cases hp : present (s.pte s.cr3 (va / pgsize / 1024) (va / pgsize % 1024)) with
    | false => rfl
    | true =>
      obtain ⟨q, -, hq, hbytes⟩ := h2 hp
      rw [if_pos rfl, if_pos rfl, hq, makeEntry_frame (Nat.mod_lt _ (by decide))]
      exact congrArg some (hbytes _ (Nat.mod_lt _ (by decide)))
  · unfold translate
    rw [hpte hva]
  · rcases hi.fresh x p hp with hold | hnew
    · cases x with
      | dir e =>
        obtain rfl : e = d := hx
        exact absurd rfl hxd
      | own k => cases hx
      | table e c =>
        obtain rfl : e = d := hx
        exact absurd hold (htable c p)
      | frame e c k =>
        obtain rfl : e = d := hx
        have hpr := hold.2.2.2.1
        rw [hempty.pte hold.2.1] at hpr
        cases hpr
    · exact hnew
  · have hDe : D e := by
      rcases he with rfl | rfl
      · exact hc
      · exact hd
    refine peek_pokes hDe hi.sound hi.sound ⟨fun _ _ _ _ => rfl, fun _ _ _ _ _ _ => rfl⟩ (fun _ _ => rfl)
      (fun x hx => ?_) hva
    obtain ⟨h1, h2⟩ := hws x hx
    refine ⟨?_, h2⟩
    rcases h1 with h1 | h1
    · exact h1 ▸ hc
    · exact h1 ▸ hd

/-- In every state that the kernel's operations reach, with enough free pages, `vm_copycurr` makes a copy
of the current address space in another one of which nothing is mapped yet. -/
theorem copycurr_copy (hb : Built s D K) (hc : D s.cr3) (hd : D d) (hne : d ≠ s.cr3) (hempty : Empty s d)
    (hL : Chain s s.free L) (hroom : pagesNeeded s ≤ L.length) :
    ∃ s', s.vmCopycurr d = some s' ∧ Copy s s' D K L d := by
  obtain ⟨L₁, h⟩ := hb.sound
  obtain rfl := hL.unique h.chain
  obtain ⟨s', L₂, he, hi⟩ := h.vmCopycurr hc hd hne hempty hroom
  exact ⟨s', he, hi.copy h hc hd hne hempty⟩

/-- An address space with one page that is read-only, and a second one of which nothing is mapped. -/
theorem copycurr_copy_demo : ∃ (s s' : Vm) (D K : Nat → Prop) (L : List Nat) (d : Nat), Built s D K ∧ D s.cr3 ∧
    s.rights s.cr3 0x8048 = pteP ||| pteU ∧ s.vmCopycurr d = some s' ∧ Copy s s' D K L d := by
  have h₀ : Sound (initPage (fun _ _ => 0) 100 101) (fun _ => False) (fun _ => False) (List.range' 512 32256) :=
    initPage_sound
  rw [List.range'_succ] at h₀
  obtain ⟨s₁, h1⟩ := h₀.vmAlloc_some
  obtain ⟨L₁, hL₁, -, -, hs₁, hempty₁, -⟩ := h₀.vmAlloc h1
  have hb₁ := ((Built.init (fun _ _ => 0) 100 101).vmAlloc h1).setCr3 (d := 512) (Or.inr rfl)
  have hs₂ : Sound { s₁ with cr3 := 512 } (And (fun _ => False) 512) (fun _ => False) L₁ :=
    ⟨hs₁.chain.congr fun _ _ => rfl, hs₁.nodup, hs₁.heap, hs₁.own, hs₁.prot⟩
  have hlen₁ : L₁.length = 32255 := by
    rw [← (List.cons.inj hL₁).2, List.length_range']
  have hd : And (fun _ => False) 512 512 := Or.inr rfl
  have hix : addr2dir (0x8048 * pgsize) = 32 := by decide
  have hjx : addr2tbl (0x8048 * pgsize) = 72 := by decide
  -- one page of the program
  have hmap : ∃ s₃, ({ s₁ with cr3 := 512 } : Vm).mapPage 512 (0x8048 * pgsize) 5 = some s₃ := by
    refine hs₂.mapPage_some hd (by rw [hix]; decide) (by decide) (by decide) ?_
    rw [hlen₁]
    exact le_trans (Nat.add_le_add (Bool.toNat_le _) (Bool.toNat_le _)) (by decide)
  obtain ⟨s₃, h3⟩ := hmap
  obtain ⟨-, L₃, hM⟩ := hs₂.mapPage hd (by rw [hix]; decide) (by decide) h3
  rw [hix, hjx] at hM
  have hb₃ := hb₁.vmMap (d := 512) hd
    ((vmMap_one (by decide) (by decide) (by decide) (by decide)).trans h3)
  have hlen₃ : 32253 ≤ L₃.length := by
    have h4 := hM.used
    have h5 := Bool.toNat_le (!present (({ s₁ with cr3 := 512 } : Vm).word 512 32))
    have h6 := Bool.toNat_le (!present (({ s₁ with cr3 := 512 } : Vm).pte 512 32 72))
    rw [hlen₁] at h4
    omega
  cases L₃ with
  | nil => exact absurd hlen₃ (by decide)
  | cons d L₄ =>
    obtain ⟨s₄, h4⟩ := hM.sound.vmAlloc_some
    obtain ⟨L₅, hL₅, hnd, -, hs₄, hempty₄, hsame₄, -, hcr₄, -⟩ := hM.sound.vmAlloc h4
    have hcr : s₄.cr3 = 512 := hcr₄.trans hM.stays.cr3
    have hnew := hM.new (hempty₁.pte (by decide))
    obtain ⟨q, -, hq, -⟩ := hnew
    have honly : ∀ w, UserPage w → present (s₄.pte 512 (w / 1024) (w % 1024)) = true → w = 0x8048 := fun w hw hp => by
      by_contra hne
      rw [hsame₄.pte 512 _ _ hd hw.index.1 hw.index.2, hM.pte 512 _ _ hd hw.index.1 hw.index.2 (by omega)] at hp
      have hnone := hempty₁.pte (j := w % 1024) hw.index.1
      exact Bool.false_ne_true (hnone.symm.trans hp)
    have hsub : toCopy s₄ phyPage ((usrMem - phyMem) / pgsize) ⊆ {0x8048} := fun w hw => by
      obtain ⟨h5, h6⟩ := Finset.mem_filter.1 hw
      obtain ⟨h7, h8⟩ := Finset.mem_Ico.1 h5
      rw [phyPage_end] at h8
      rw [hcr] at h6
      exact Finset.mem_singleton.2 (honly w ⟨h7, lt_trans h8 (by decide)⟩ h6)
    have hneed : pagesNeeded s₄ ≤ 2 := by
      have h5 := Finset.card_le_card hsub
      have h6 := Finset.card_image_le (s := toCopy s₄ phyPage ((usrMem - phyMem) / pgsize)) (f := (· / 1024))
      rw [Finset.card_singleton] at h5
      exact Nat.add_le_add h5 (le_trans h6 h5)
    have hlen : L₅.length = L₄.length := by rw [(List.cons.inj hL₅).2]
    have hlen₄ : 32253 ≤ L₄.length + 1 := hlen₃
    have hDc : And (And (fun _ => False) 512) d s₄.cr3 := by
      rw [hcr]
      exact Or.inl hd
    have hne : d ≠ s₄.cr3 := by
      rintro rfl
      exact hnd (hcr ▸ hd)
    obtain ⟨s', he, hcopy⟩ := copycurr_copy (hb₃.vmAlloc h4) hDc (Or.inr rfl) hne hempty₄ hs₄.chain (by omega)
    refine ⟨s₄, s', _, _, L₅, d, hb₃.vmAlloc h4, hDc, ?_, he, hcopy⟩
    have huser : UserPage 0x8048 := by decide
    rw [hs₄.rights_eq hDc huser, hcr, hsame₄.pte 512 _ _ hd huser.index.1 huser.index.2]
    show (if present (s₃.pte 512 32 72) = true then s₃.pte 512 32 72 % 8 else 0) = 5
    rw [hq, makeEntry_present, if_pos rfl, makeEntry_odd (by decide) (by decide)]

end TinyOS.Vm
