/-
An address space as a map from pages to frames and rights: what `vm_map` and `vm_unmap` change in it, and
what `vm_walk` says about it.
-/
import TinyOS.Vm.Fork
import TinyOS.Vm.Ranges

namespace TinyOS.Vm

open TinyOS.Lib

variable {s s' s₁ : Vm} {D K : Nat → Prop} {L L' L₁ : List Nat} {R R' : Nat → Prop}
  {d e i j k p q r t n v w c va len prot : Nat}

/-- The frame of page `w` in the address space of `d`, and the rights for it. -/
def view (s : Vm) (d w : Nat) : Option (Nat × Nat) :=
  if present (s.pte d (w / 1024) (w % 1024)) then some (pageFrame (s.pte d (w / 1024) (w % 1024)),
    s.rights d w) else none

theorem view_some : s.view d w = some (q, r) ↔
    present (s.pte d (w / 1024) (w % 1024)) = true ∧ pageFrame (s.pte d (w / 1024) (w % 1024)) = q ∧
    s.rights d w = r := by
  unfold view
  split
  · next hp => simp [hp]
  · next hp => simp [hp]

theorem view_none : s.view d w = none ↔ present (s.pte d (w / 1024) (w % 1024)) = false := by
  unfold view
  split
  · next hp => simp [hp]
  · next hp => simp [hp]

theorem view_holds (hd : D d) (hw : UserPage w) (h : s.view d w = some (q, r)) :
    Holds s D K (.frame d (w / 1024) (w % 1024)) q := by
  obtain ⟨hp, hf, -⟩ := view_some.1 h
  exact ⟨hd, hw.index.1, hw.index.2, hp, hf⟩

/-- Page `w` of the address space of `e` leads to the same frame with the same rights and the same bytes. -/
structure SameView (s s' : Vm) (e w : Nat) : Prop where
  view : s'.view e w = s.view e w
  mem : ∀ q r, s.view e w = some (q, r) → s'.mem q = s.mem q

theorem SameView.trans (h : SameView s s₁ e w) (h' : SameView s₁ s' e w) : SameView s s' e w where
  view := h'.view.trans h.view
  mem q r hq := (h'.mem q r (h.view.trans hq)).trans (h.mem q r hq)

theorem SamePage.sameView (h : SamePage s s' e w) (hr : s'.rights e w = s.rights e w) : SameView s s' e w where
  view := by
    unfold Vm.view
    rw [h.pte, hr]
  mem q r hq := by
    obtain ⟨hp, rfl, -⟩ := view_some.1 hq
    exact h.mem hp

/-! ## Pages added -/

/-- The pages in `R` are in the map, with the rights `prot` and those that they had; the frames of the new
ones were free and have zeros. Other pages, of any address space, are as they were. -/
structure Added (s s' : Vm) (D K : Nat → Prop) (L L' : List Nat) (d prot : Nat) (R : Nat → Prop) : Prop where
  sound : Sound s' D K L'
  old : ∀ w q r, UserPage w → R w → s.view d w = some (q, r) → s'.view d w = some (q, r ||| prot) ∧ s'.mem q = s.mem q
  new : ∀ w, UserPage w → R w → s.view d w = none →
    ∃ q ∈ L, q ∉ L' ∧ s'.view d w = some (q, prot) ∧ ∀ o < pgsize, s'.mem q o = 0
  rest : ∀ e w, D e → UserPage w → ¬ (e = d ∧ R w) → SameView s s' e w
  mem : ∀ q, q ∉ L → q ≠ d → (∀ c, ¬ Holds s D K (.table d c) q) → s'.mem q = s.mem q
  fresh : ∀ x p, Holds s' D K x p → Holds s D K x p ∨ p ∈ L
  sub : ∀ p ∈ L', p ∈ L

theorem Added.refl (h : Sound s D K L) : Added s s D K L L d prot fun _ => False where
  sound := h
  old _ _ _ _ hR := hR.elim
  new _ _ hR := hR.elim
  rest _ _ _ _ _ := ⟨rfl, fun _ _ _ => rfl⟩
  mem _ _ _ _ := rfl
  fresh _ _ hx := Or.inl hx
  sub _ hp := hp

theorem Added.trans (h : Added s s₁ D K L L₁ d prot R) (h' : Added s₁ s' D K L₁ L' d prot R') (hd : D d)
    (hdisj : ∀ w, R w → ¬ R' w) : Added s s' D K L L' d prot fun w => R w ∨ R' w where
  sound := h'.sound
  old w q r hw hR hq := by
    by_cases hR₁ : R w
    · obtain ⟨h1, h2⟩ := h.old w q r hw hR₁ hq
      have hlater : SameView s₁ s' d w := h'.rest d w hd hw fun hc => hdisj w hR₁ hc.2
      exact ⟨hlater.view.trans h1, (hlater.mem q _ h1).trans h2⟩
    · have hbefore : SameView s s₁ d w := h.rest d w hd hw fun hc => hR₁ hc.2
      obtain ⟨h1, h2⟩ := h'.old w q r hw (hR.resolve_left hR₁) (hbefore.view.trans hq)
      exact ⟨h1, h2.trans (hbefore.mem q r hq)⟩
  new w hw hR hq := by
    by_cases hR₁ : R w
    · obtain ⟨q, h1, h2, h3, h4⟩ := h.new w hw hR₁ hq
      have hlater : SameView s₁ s' d w := h'.rest d w hd hw fun hc => hdisj w hR₁ hc.2
      refine ⟨q, h1, fun hc => h2 (h'.sub q hc), hlater.view.trans h3, fun o ho => ?_⟩
      rw [hlater.mem q _ h3, h4 o ho]
    · have hbefore : SameView s s₁ d w := h.rest d w hd hw fun hc => hR₁ hc.2
      obtain ⟨q, h1, h2⟩ := h'.new w hw (hR.resolve_left hR₁) (hbefore.view.trans hq)
      exact ⟨q, h.sub q h1, h2⟩
  rest e w he hw hn :=
    (h.rest e w he hw fun hc => hn ⟨hc.1, Or.inl hc.2⟩).trans (h'.rest e w he hw fun hc => hn ⟨hc.1, Or.inr hc.2⟩)
  mem q hq hqd ht := by
    refine (h'.mem q (fun hc => hq (h.sub q hc)) hqd fun c hc => ?_).trans (h.mem q hq hqd ht)
    rcases h.fresh _ q hc with hold | hfree
    · exact ht c hold
    · exact hq hfree
  fresh x p hx := by
    rcases h'.fresh x p hx with h1 | h1
    · exact h.fresh x p h1
    · exact Or.inr (h.sub p h1)
  sub p hp := h.sub p (h'.sub p hp)

theorem Added.congr (h : Added s s' D K L L' d prot R) (hR : ∀ w, R w ↔ R' w) : Added s s' D K L L' d prot R' := by
  have hRR : R = R' := funext fun w => propext (hR w)
  exact hRR ▸ h

theorem Sound.added_mapPage (h : Sound s D K L) (hd : D d) (hv : UserPage v) (ho : prot.testBit 0 = true)
    (he : s.mapPage d (v * pgsize) prot = some s') : ∃ L', Added s s' D K L L' d prot (· = v) := by
  have hi : 32 ≤ addr2dir (v * pgsize) ∧ addr2dir (v * pgsize) < 1024 := by
    rw [addr2dir_page]
    exact hv.index.1
  obtain ⟨hprot, L', hM⟩ := h.mapPage hd hi ho he
  obtain ⟨-, -, -, hr⟩ := h.rights_mapPage hd hv ho he
  have hself : s'.rights d v = s.rights d v ||| prot := by rw [hr d v hd hv, if_pos ⟨rfl, rfl⟩]
  rw [addr2dir_page, addr2tbl_page] at hM
  refine ⟨L', hM.sound, ?_, ?_, ?_, hM.stays.mem, hM.fresh, hM.sub⟩
  · rintro w q r hw rfl hq
    obtain ⟨hp, hf, hrt⟩ := view_some.1 hq
    refine ⟨view_some.2 ⟨?_, ?_, ?_⟩, hM.stays.frame h hd (view_holds hd hw hq)⟩
    · rw [hM.old hp, present_or, hp, Bool.true_or]
    · rw [hM.old hp, pageFrame_or hprot, hf]
    · rw [hself, hrt]
  · rintro w hw rfl hq
    have hp : present (s.pte d (w / 1024) (w % 1024)) = false := view_none.1 hq
    obtain ⟨q, hqL, hpte, hz⟩ := hM.new hp
    have hview : s'.view d w = some (q, prot) := by
      refine view_some.2 ⟨?_, ?_, ?_⟩
      · rw [hpte, makeEntry_present]
      · rw [hpte, makeEntry_frame hprot]
      · rw [hself, Vm.rights, hp, if_neg Bool.false_ne_true, Nat.zero_or]
    exact ⟨q, hqL, hM.sound.own.not_free (view_holds hd hw hview), hview, hz⟩
  · intro e w he' hw hn
    have hpage : SamePage s s' e w := (h.within_mapPage hd hv ho he).page e w he' hw hn
    exact hpage.sameView (by rw [hr e w he' hw, if_neg hn])

theorem Sound.added_mapPages (h : Sound s D K L) (hd : D d) (ho : prot.testBit 0 = true) (hv : phyPage ≤ v)
    (hn : v + n ≤ 1024 * 1024) (he : mapPages d prot (v * pgsize) n s = some s') :
    ∃ L', Added s s' D K L L' d prot fun w => v ≤ w ∧ w < v + n := by
  induction n generalizing v s L with
  | zero =>
    cases he
    exact ⟨L, (Added.refl h).congr fun w => iff_of_false id fun hc => by omega⟩
  | succ n ih =>
    obtain ⟨s₁, h1, he⟩ := mapPages_succ.1 he
    obtain ⟨L₁, hone⟩ := h.added_mapPage hd ⟨hv, by omega⟩ ho h1
    obtain ⟨L', hmore⟩ := ih hone.sound (by omega) (by omega) he
    exact ⟨L', (hone.trans hmore hd fun w h1 h2 => by omega).congr fun w => by omega⟩

/-! ## Pages removed -/

/-- The pages in `R` are not in the map and their frames are free; nothing else changed. -/
structure Removed (s s' : Vm) (D K : Nat → Prop) (L L' : List Nat) (d : Nat) (R : Nat → Prop) : Prop where
  sound : Sound s' D K L'
  gone : ∀ w, UserPage w → R w → s'.view d w = none
  free : ∀ q, q ∈ L' ↔ q ∈ L ∨ ∃ w r, UserPage w ∧ R w ∧ s.view d w = some (q, r)
  rest : ∀ e w, D e → UserPage w → ¬ (e = d ∧ R w) → SameView s s' e w
  pde : ∀ e c, D e → 32 ≤ c ∧ c < 1024 → s'.word e c = s.word e c
  mem : ∀ q, (∀ c, ¬ Holds s D K (.table d c) q) → (∀ w r, UserPage w → R w → s.view d w ≠ some (q, r)) →
    s'.mem q = s.mem q

theorem Removed.refl (h : Sound s D K L) : Removed s s D K L L d fun _ => False where
  sound := h
  gone _ _ hR := hR.elim
  free q := by simp
  rest _ _ _ _ _ := ⟨rfl, fun _ _ _ => rfl⟩
  pde _ _ _ _ := rfl
  mem _ _ _ := rfl

theorem Removed.trans (h : Removed s s₁ D K L L₁ d R) (h' : Removed s₁ s' D K L₁ L' d R') (hd : D d)
    (hdisj : ∀ w, R w → ¬ R' w) : Removed s s' D K L L' d fun w => R w ∨ R' w := by
  have hlater : ∀ w, UserPage w → R w → SameView s₁ s' d w := fun w hw hR => h'.rest d w hd hw fun hc => hdisj w hR hc.2
  have hbefore : ∀ w, UserPage w → R' w → SameView s s₁ d w := fun w hw hR => h.rest d w hd hw fun hc => hdisj w hc.2 hR
  refine ⟨h'.sound, ?_, ?_, ?_, ?_, ?_⟩
  · intro w hw hR
    by_cases hR' : R' w
    · exact h'.gone w hw hR'
    · exact (hlater w hw (hR.resolve_right hR')).view.trans (h.gone w hw (hR.resolve_right hR'))
  · intro q
    rw [h'.free, h.free, or_assoc]
    refine or_congr_right ⟨?_, ?_⟩
    · rintro (⟨w, r, hw, hR, hq⟩ | ⟨w, r, hw, hR, hq⟩)
      · exact ⟨w, r, hw, Or.inl hR, hq⟩
      · exact ⟨w, r, hw, Or.inr hR, (hbefore w hw hR).view.symm.trans hq⟩
    · rintro ⟨w, r, hw, hR | hR, hq⟩
      · exact Or.inl ⟨w, r, hw, hR, hq⟩
      · exact Or.inr ⟨w, r, hw, hR, (hbefore w hw hR).view.trans hq⟩
  · intro e w he hw hn
    exact (h.rest e w he hw fun hc => hn ⟨hc.1, Or.inl hc.2⟩).trans (h'.rest e w he hw fun hc => hn ⟨hc.1, Or.inr hc.2⟩)
  · intro e c he hc
    rw [h'.pde e c he hc, h.pde e c he hc]
  · intro q ht hq
    refine (h'.mem q (fun c hc => ht c ?_) fun w r hw hR hc => ?_).trans (h.mem q ht fun w r hw hR =>
      hq w r hw (Or.inl hR))
    · obtain ⟨-, hi, hp, hf⟩ := hc
      rw [h.pde d c hd hi] at hp hf
      exact ⟨hd, hi, hp, hf⟩
    · exact hq w r hw (Or.inr hR) ((hbefore w hw hR).view.symm.trans hc)

theorem Removed.congr (h : Removed s s' D K L L' d R) (hR : ∀ w, R w ↔ R' w) : Removed s s' D K L L' d R' := by
  have hRR : R = R' := funext fun w => propext (hR w)
  exact hRR ▸ h

theorem Unmapped.holds (h : Unmapped s s' D K L L' d i j) (x : Place) (p : Nat) :
    Holds s' D K x p ↔ Holds s D K x p ∧ x ≠ .frame d i j := by
  cases x with
  | dir e => simp [Holds]
  | own k => simp [Holds]
  | table e c =>
    simp only [Holds, ne_eq, reduceCtorEq, not_false_eq_true, and_true]
    refine and_congr_right fun he => and_congr_right fun hc => ?_
    rw [h.pde e c he hc]
  | frame e c k =>
    by_cases hx : e = d ∧ c = i ∧ k = j
    · obtain ⟨rfl, rfl, rfl⟩ := hx
      simp [Holds, h.gone]
    · simp only [Holds, ne_eq, Place.frame.injEq, hx, not_false_eq_true, and_true]
      refine and_congr_right fun he => and_congr_right fun hc => and_congr_right fun hk => ?_
      rw [h.pte e c k he hc hk hx]

/-- The free pages after a page was unmapped. -/
theorem Unmapped.free (h : Unmapped s s' D K L L' d i j) (hs : Sound s D K L) :
    q ∈ L' ↔ q ∈ L ∨ Holds s D K (.frame d i j) q := by
  constructor
  · intro hq
    by_cases hL : q ∈ L
    · exact Or.inl hL
    · obtain ⟨x, hx⟩ := hs.own.held (h.sound.heap q hq) hL
      by_cases hxf : x = .frame d i j
      · exact Or.inr (hxf ▸ hx)
      · exact absurd hq (h.sound.own.not_free ((h.holds x q).2 ⟨hx, hxf⟩))
  · rintro (hq | hq)
    · refine (h.sound.own.part q (hs.heap q hq)).2 fun x hx => ?_
      exact hs.own.not_free ((h.holds x q).1 hx).1 hq
    · refine (h.sound.own.part q (hs.own.range _ q hq)).2 fun x hx => ?_
      obtain ⟨h1, h2⟩ := (h.holds x q).1 hx
      exact h2 (hs.own.inj x _ q h1 hq)

theorem Sound.removed_unmapPage (h : Sound s D K L) (hd : D d) (hv : UserPage v)
    (he : s.unmapPage d (v * pgsize) = some s') : ∃ L', Removed s s' D K L L' d (· = v) := by
  have hi : 32 ≤ addr2dir (v * pgsize) ∧ addr2dir (v * pgsize) < 1024 := by
    rw [addr2dir_page]
    exact hv.index.1
  obtain ⟨L', hU⟩ := h.unmapPage hd hi he
  obtain ⟨-, -, -, hr⟩ := h.rights_unmapPage hd hv he
  have hmem := fun q => unmapPage_mem (K := K) (q := q) hd hi he
  rw [addr2dir_page, addr2tbl_page] at hU
  simp only [addr2dir_page, addr2tbl_page] at hmem
  have hview : ∀ q, Holds s D K (.frame d (v / 1024) (v % 1024)) q ↔ ∃ r, s.view d v = some (q, r) := by
    intro q
    constructor
    · rintro ⟨-, -, -, hp, hf⟩
      exact ⟨_, view_some.2 ⟨hp, hf, rfl⟩⟩
    · rintro ⟨r, hq⟩
      exact view_holds hd hv hq
  refine ⟨L', hU.sound, ?_, ?_, ?_, hU.pde, ?_⟩
  · rintro w hw rfl
    exact view_none.2 hU.gone
  · intro q
    rw [hU.free h, hview]
    refine or_congr_right ⟨fun ⟨r, hq⟩ => ⟨v, r, hv, rfl, hq⟩, ?_⟩
    rintro ⟨w, r, -, rfl, hq⟩
    exact ⟨r, hq⟩
  · intro e w he' hw hn
    have hpage : SamePage s s' e w := (h.within_unmapPage hd hv he).page e w he' hw hn
    exact hpage.sameView (by rw [hr e w he' hw, if_neg hn])
  · intro q ht hq
    refine hmem q (ht _) fun hc => ?_
    obtain ⟨r, hr⟩ := (hview q).1 hc
    exact hq v r hv rfl hr

theorem Sound.removed_unmapPages (h : Sound s D K L) (hd : D d) (hv : phyPage ≤ v) (hn : v + n ≤ 1024 * 1024)
    (he : unmapPages d (v * pgsize) n s = some s') : ∃ L', Removed s s' D K L L' d fun w => v ≤ w ∧ w < v + n := by
  induction n generalizing v s L with
  | zero =>
    cases he
    exact ⟨L, (Removed.refl h).congr fun w => iff_of_false id fun hc => by omega⟩
  | succ n ih =>
    obtain ⟨s₁, h1, he⟩ := unmapPages_succ.1 he
    obtain ⟨L₁, hone⟩ := h.removed_unmapPage hd ⟨hv, by omega⟩ h1
    obtain ⟨L', hmore⟩ := ih hone.sound (by omega) (by omega) he
    exact ⟨L', (hone.trans hmore hd fun w h1 h2 => by omega).congr fun w => by omega⟩

/-! ## Ranges of addresses -/

/-- Without a wrap the end of the range is not below its start. -/
theorem range_noWrap (h : va + len + 4095 < 2 ^ 32) : pageDown va ≤ pageUp (uint32 (va + len)) := by
  unfold pageDown pageUp uint32
  show va / 4096 * 4096 ≤ ((va + len) % 2 ^ 32 + 4095) % 2 ^ 32 / 4096 * 4096
  omega

theorem InRange.userPage (h : InRange va len w) (hphy : phyMem ≤ pageDown va) : UserPage w := by
  have h1 : va / 4096 ≤ w := h.1
  have h2 : w < pageUp (uint32 (va + len)) / 4096 := h.2
  have hup : pageUp (uint32 (va + len)) ≤ (1024 * 1024 - 1) * 4096 := pageUp_le
  have hlow : 0x8000000 ≤ va / 4096 * 4096 := hphy
  constructor
  · show 32768 ≤ w
    omega
  · omega

theorem Sound.vmMap_added (h : Sound s D K L) (hd : D d) (he : s.vmMap d va len prot = some s') :
    ∃ L', Added s s' D K L L' d prot (InRange va len) := by
  unfold Vm.vmMap at he
  simp only at he
  split at he
  · next hc =>
    obtain ⟨ho, -, hphy, hle⟩ := hc
    obtain ⟨h1, h2⟩ := range_le hphy hle
    obtain ⟨L', ha⟩ := h.added_mapPages hd ho h1 h2 he
    exact ⟨L', ha.congr fun w => inRange_iff hle⟩
  · cases he

theorem Sound.vmMap_some (h : Sound s D K L) (hd : D d) (ho : prot.testBit 0 = true) (hprot : prot < 8)
    (hphy : phyMem ≤ pageDown va) (hle : pageDown va ≤ pageUp (uint32 (va + len)))
    (hroom : s.pagesFor d (va / pgsize) ((pageUp (uint32 (va + len)) - pageDown va) / pgsize) ≤ L.length) :
    ∃ s', s.vmMap d va len prot = some s' := by
  obtain ⟨h1, h2⟩ := range_le hphy hle
  unfold Vm.vmMap
  simp only
  rw [if_pos ⟨ho, hprot, hphy, hle⟩]
  exact h.mapPages_some hd ho hprot h1 h2 hroom

theorem Sound.vmUnmap_removed (h : Sound s D K L) (hd : D d) (hphy : phyMem ≤ pageDown va)
    (hle : pageDown va ≤ pageUp (uint32 (va + len))) (he : s.vmUnmap d va len = some s') :
    ∃ L', Removed s s' D K L L' d (InRange va len) := by
  obtain ⟨h1, h2⟩ := range_le hphy hle
  unfold Vm.vmUnmap at he
  split at he
  · obtain ⟨L', hr⟩ := h.removed_unmapPages hd h1 h2 he
    exact ⟨L', hr.congr fun w => inRange_iff hle⟩
  · cases he

theorem Sound.vmUnmap_some (h : Sound s D K L) (hd : D d) (hva : va % pgsize = 0) (hlen : len % pgsize = 0)
    (hphy : phyMem ≤ pageDown va) (hle : pageDown va ≤ pageUp (uint32 (va + len)))
    (hfree : L ≠ [] ∨ ∀ w, InRange va len w → s.view d w = none) : ∃ s', s.vmUnmap d va len = some s' := by
  obtain ⟨h1, h2⟩ := range_le hphy hle
  unfold Vm.vmUnmap
  rw [if_pos ⟨hva, hlen⟩]
  refine h.unmapPages_some hd h1 h2 (hfree.imp (fun hL hc => ?_) fun hall w hw1 hw2 => ?_)
  · have hchain := h.chain
    rw [hc] at hchain
    cases L with
    | nil => exact hL rfl
    | cons q L => exact hchain.1.2 hchain.1.1.symm
  · exact view_none.1 (hall w ((inRange_iff hle).1 ⟨hw1, hw2⟩))

/-! ## Main results -/

/-- `vm_map` adds its range of pages to the map of an address space, given the free pages that takes, and
`vm_unmap` removes its range; `kfree` needs a free page for that. -/
theorem maps_exactly (h : Sound s D K L) (hd : D d) :
    (∀ va len prot, prot.testBit 0 = true → prot < 8 → phyMem ≤ pageDown va → va + len + 4095 < 2 ^ 32 →
      s.pagesFor d (va / pgsize) ((pageUp (uint32 (va + len)) - pageDown va) / pgsize) ≤ L.length →
      ∃ s' L', s.vmMap d va len prot = some s' ∧ Added s s' D K L L' d prot (InRange va len)) ∧
    ∀ va len, va % pgsize = 0 → len % pgsize = 0 → phyMem ≤ va → va + len < 2 ^ 32 →
      (L ≠ [] ∨ ∀ w, InRange va len w → s.view d w = none) →
      ∃ s' L', s.vmUnmap d va len = some s' ∧ Removed s s' D K L L' d (InRange va len) := by
  constructor
  · intro va len prot ho hprot hphy hwrap hroom
    obtain ⟨s', he⟩ := h.vmMap_some hd ho hprot hphy (range_noWrap hwrap) hroom
    obtain ⟨L', ha⟩ := h.vmMap_added hd he
    exact ⟨s', L', he, ha⟩
  · intro va len hva hlen hphy hwrap hfree
    have hv : va % 4096 = 0 := hva
    have hl : len % 4096 = 0 := hlen
    have hdown : phyMem ≤ pageDown va := by
      have h1 : 0x8000000 ≤ va := hphy
      show 0x8000000 ≤ va / 4096 * 4096
      omega
    have hle : pageDown va ≤ pageUp (uint32 (va + len)) := range_noWrap (by omega)
    obtain ⟨s', he⟩ := h.vmUnmap_some hd hva hlen hdown hle hfree
    obtain ⟨L', hr⟩ := h.vmUnmap_removed hd hdown hle he
    exact ⟨s', L', he, hr⟩

/-- A directory as `vm_alloc` gives it, with the rest of the heap free. -/
theorem fresh_dir : ∃ s, Built s (And (fun _ => False) 512) (fun _ => False) ∧ Empty s 512 ∧
    Sound s (And (fun _ => False) 512) (fun _ => False) (List.range' 513 32255) := by
  have hs : Sound (initPage (fun _ _ => 0) 100 101) (fun _ => False) (fun _ => False) (512 :: List.range' 513 32255) :=
    initPage_sound
  obtain ⟨s, he⟩ := hs.vmAlloc_some
  obtain ⟨L', hL, -, -, h', hempty, -⟩ := hs.vmAlloc he
  obtain rfl := (List.cons.inj hL).2
  exact ⟨s, (Built.init _ _ _).vmAlloc he, hempty, h'⟩

/-- At most a frame and a page table for each page. -/
theorem pagesFor_le : s.pagesFor d v n ≤ n + n := by
  have hcard : (Finset.Ico v (v + n)).card = n := by rw [Nat.card_Ico, Nat.add_sub_cancel_left]
  refine Nat.add_le_add (le_trans (Finset.card_filter_le _ _) (le_of_eq hcard)) ?_
  exact le_trans (Finset.card_filter_le _ _) (le_trans Finset.card_image_le (le_of_eq hcard))

/-- One page more, of which the heap has enough. -/
theorem Sound.vmMap_page (h : Sound s D K L) (hd : D d) (hv : UserPage v) (hlt : v < usrMem / pgsize)
    (hroom : 2 < L.length) :
    ∃ s' L', s.vmMap d (v * pgsize) pgsize 7 = some s' ∧ Sound s' D K L' ∧ L.length ≤ L'.length + 2 := by
  have hi : 32 ≤ addr2dir (v * pgsize) ∧ addr2dir (v * pgsize) < 1024 := by
    rw [addr2dir_page]
    exact hv.index.1
  have h1 := Bool.toNat_le (!present (s.word d (addr2dir (v * pgsize))))
  have h2 := Bool.toNat_le (!present (s.pte d (addr2dir (v * pgsize)) (addr2tbl (v * pgsize))))
  obtain ⟨s', he⟩ : ∃ s', s.mapPage d (v * pgsize) 7 = some s' :=
    h.mapPage_some hd hi rfl (by decide) (by omega)
  obtain ⟨-, L', hM⟩ := h.mapPage hd hi rfl he
  have h3 := hM.used
  exact ⟨s', L', (vmMap_one hv.1 hlt rfl (by decide)).trans he, hM.sound, by omega⟩

/-- A page is mapped behind another one, which is then unmapped. -/
theorem maps_exactly_demo : ∃ s₁ s₂ s₃ L₁ L₂ L₃ q, s₁.vmMap 512 0x8001000 4096 7 = some s₂ ∧
    Added s₁ s₂ (And (fun _ => False) 512) (fun _ => False) L₁ L₂ 512 7 (InRange 0x8001000 4096) ∧
    s₂.vmUnmap 512 0x8000000 4096 = some s₃ ∧
    Removed s₂ s₃ (And (fun _ => False) 512) (fun _ => False) L₂ L₃ 512 (InRange 0x8000000 4096) ∧
    s₂.view 512 0x8000 ≠ none ∧ s₃.view 512 0x8000 = none ∧ s₃.view 512 0x8001 = some (q, 7) := by
  obtain ⟨s₀, -, hempty, h₀⟩ := fresh_dir
  have hd : And (fun _ => False) 512 512 := Or.inr rfl
  have hlen : (List.range' 513 32255).length = 32255 := List.length_range'
  obtain ⟨s₁, L₁, he₁, h₁, hl₁⟩ := h₀.vmMap_page hd (v := 0x8000) (by decide) (by decide) (by omega)
  obtain ⟨L₁', ha₁⟩ := h₀.vmMap_added hd he₁
  obtain ⟨s₂, L₂, he₂, h₂, hl₂⟩ := h₁.vmMap_page hd (v := 0x8001) (by decide) (by decide) (by omega)
  have hL₂ : L₂ ≠ [] := by
    rintro rfl
    rw [List.length_nil] at hl₂
    omega
  obtain ⟨s₂', L₂', he₂', ha₂⟩ := (maps_exactly h₁ hd).1 0x8001000 4096 7 rfl (by decide) (by decide) (by decide)
    (le_trans pagesFor_le (le_trans (by decide : _ ≤ 2) (by omega)))
  obtain rfl := Option.some.inj (he₂.symm.trans he₂')
  obtain rfl := h₂.chain.unique ha₂.sound.chain
  obtain ⟨s₃, L₃, he₃, hr⟩ := (maps_exactly h₂ hd).2 0x8000000 4096 (by decide) (by decide) (by decide)
    (by decide) (Or.inl hL₂)
  have hone : InRange 0x8000000 4096 0x8000 := by decide
  have htwo : InRange 0x8001000 4096 0x8001 := by decide
  have hnew : ∀ w, UserPage w → s₀.view 512 w = none := fun w hw => view_none.2 (hempty.pte hw.index.1)
  obtain ⟨p, -, -, hp, -⟩ := ha₁.new 0x8000 (by decide) hone (hnew _ (by decide))
  have hfree : s₁.view 512 0x8001 = none :=
    (ha₁.rest 512 0x8001 hd (by decide) (fun hc => absurd hc.2 (by decide))).view.trans (hnew _ (by decide))
  obtain ⟨q, -, -, hq, -⟩ := ha₂.new 0x8001 (by decide) htwo hfree
  refine ⟨s₁, s₂, s₃, L₁, L₂, L₃, q, he₂, ha₂, he₃, hr, ?_, hr.gone 0x8000 (by decide) hone, ?_⟩
  · rw [(ha₂.rest 512 0x8000 hd (by decide) fun hc => absurd hc.2 (by decide)).view, hp]
    exact Option.some_ne_none _
  · rw [(hr.rest 512 0x8001 hd (by decide) fun hc => absurd hc.2 (by decide)).view]
    exact hq

/-- What `vm_walk` without rights has to return: the physical address, `NULL` for an address that is not
mapped. -/
def physical (s : Vm) (d va : Nat) : Nat := (s.translate d va).elim 0 fun q => q.1 * pgsize ||| q.2

/-- `vm_walk` finds out whether an address is mapped exactly when there is a page table for it, and its
entry is in use or never was. -/
theorem walk_physical (hb : Built s D K) (hd : D d) (hva : phyMem ≤ va) (hlt : va < 2 ^ 32) :
    s.walk d va 0 = some (s.physical d va, s) ↔ present (s.word d (addr2dir va)) = true ∧
      (present (s.pte d (addr2dir va) (addr2tbl va)) = true ∨ pageFrame (s.pte d (addr2dir va) (addr2tbl va)) = 0) := by
  have hnot : ¬ va < phyMem := Nat.not_lt.2 hva
  have hi : 32 ≤ addr2dir va ∧ addr2dir va < 1024 := by
    have h1 : 0x8000000 ≤ va := hva
    unfold addr2dir
    omega
  unfold walk physical translate
  cases hp : present (s.word d (addr2dir va)) with
  | false => simp [walkpte_zero, hp]
  | true =>
    -- `vm_walk` looks at the frame of the entry, and not at its present bit
    have hpte : s.word (pageFrame (s.word d (addr2dir va))) (addr2tbl va) = s.pte d (addr2dir va) (addr2tbl va) := by
      unfold Vm.pte
      rw [if_pos hp]
    simp only [walkpte_zero, hp, if_true, Option.bind_eq_bind, Option.bind_some, hpte, Nat.zero_testBit,
      Bool.false_eq_true, false_and, if_false, if_neg hnot, Bool.not_false, and_true, true_and]
    cases hpr : present (s.pte d (addr2dir va) (addr2tbl va)) with
    | true =>
      obtain ⟨L, hs⟩ := hb.sound
      have hheap : HeapPage (pageFrame (s.pte d (addr2dir va) (addr2tbl va))) :=
        hs.own.range (.frame d (addr2dir va) (addr2tbl va)) _ ⟨hd, hi, addr2tbl_lt, hpr, rfl⟩
      have hne : pageFrame (s.pte d (addr2dir va) (addr2tbl va)) ≠ 0 := fun hc => by
        rw [hc] at hheap
        exact absurd hheap.1 (by decide)
      simp [hne]
    | false =>
      by_cases hz : pageFrame (s.pte d (addr2dir va) (addr2tbl va)) = 0
      · simp [hz]
      · -- the entry still has the frame that was given back
        have hle : pageFrame (s.pte d (addr2dir va) (addr2tbl va)) * pgsize ≤
            pageFrame (s.pte d (addr2dir va) (addr2tbl va)) * pgsize ||| va % pgsize := Nat.left_le_or
        have hpos : 0 < pageFrame (s.pte d (addr2dir va) (addr2tbl va)) * pgsize :=
          Nat.mul_pos (Nat.pos_of_ne_zero hz) (by decide)
        have hne : pageFrame (s.pte d (addr2dir va) (addr2tbl va)) * pgsize ||| va % pgsize ≠ 0 := by omega
        simp only [Bool.false_eq_true, if_false, Option.elim_none, false_or, hz, iff_false]
        intro hc
        exact hne (congrArg Prod.fst (Option.some.inj hc))

theorem walk_physical_demo : ∃ (s : Vm) (q : Nat), s.view 512 32768 = some (q, 7) ∧
    s.walk 512 0x8000000 0 = some (s.physical 512 0x8000000, s) := by
  obtain ⟨s, hb, hempty, hs⟩ := fresh_dir
  obtain ⟨s', he⟩ : ∃ s', s.vmMap 512 0x8000000 4096 7 = some s' :=
    hs.vmMap_some (Or.inr rfl) rfl (by decide) (by decide)
    (by decide) (by
      rw [List.length_range']
      exact le_trans pagesFor_le (by decide))
  obtain ⟨L', ha⟩ := hs.vmMap_added (Or.inr rfl) he
  obtain ⟨q, -, -, hview, -⟩ := ha.new 32768 (by decide) (by decide) (view_none.2 (hempty.pte (by decide)))
  have hp : present (s'.pte 512 (addr2dir 0x8000000) (addr2tbl 0x8000000)) = true := (view_some.1 hview).1
  refine ⟨s', q, hview, (walk_physical (hb.vmMap (Or.inr rfl) he) (Or.inr rfl) (le_refl _) (by decide)).2
    ⟨?_, Or.inl hp⟩⟩
  unfold pte at hp
  split at hp
  · assumption
  · cases hp

/-- A directory without the page table: `vm_walk` reads the entry through `NULL`. -/
theorem walk_faults : ¬ ∀ (s : Vm) (D K : Nat → Prop) (d va : Nat), Built s D K → D d → phyMem ≤ va → va < 2 ^ 32 →
    s.walk d va 0 = some (s.physical d va, s) := by
  intro hall
  obtain ⟨s, hb, hempty, -⟩ := fresh_dir
  have hp : present (s.word 512 (addr2dir 0x8000000)) = false := hempty 32 (by decide) (by decide)
  have hw := hall s _ _ 512 0x8000000 hb (Or.inr rfl) (le_refl _) (by decide)
  unfold walk at hw
  simp [walkpte_zero, hp] at hw

end TinyOS.Vm
