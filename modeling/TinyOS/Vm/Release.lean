/-
The list of the free pages, and pages given back: `kfree`, `vm_unmap`, and what a page directory that is given up
leaves behind.
-/
import TinyOS.Vm.Map

namespace TinyOS.Vm

open TinyOS.Lib

variable {s s' s₀ : Vm} {D K : Nat → Prop} {L L₀ : List Nat} {d e i j k p q t v n va : Nat}

/-! ## The free list -/

def walkFree (s : Vm) : Nat → Nat → List Nat
  | 0, _ => []
  | n + 1, p => if p = 0 then [] else p :: walkFree s n (pageFrame (s.word p 0))

/-- The pages on the free list; there are not more than the heap has. -/
def freeList (s : Vm) : List Nat := s.walkFree phyPage s.free

theorem walkFree_eq : ∀ {L : List Nat} {n p : Nat}, Chain s p L → L.length ≤ n → s.walkFree n p = L
  | [], 0, _, _, _ => rfl
  | [], n + 1, p, h, _ => if_pos h
  | q :: L, 0, _, _, hn => absurd hn (by simp)
  | q :: L, n + 1, p, ⟨⟨hp, hq⟩, h⟩, hn => by
    subst hp
    unfold walkFree
    rw [if_neg hq, walkFree_eq h (Nat.le_of_succ_le_succ hn)]

theorem Sound.freeList (h : Sound s D K L) : s.freeList = L := by
  refine walkFree_eq h.chain ?_
  have hsub : L ⊆ List.range phyPage := fun p hp => List.mem_range.2 (h.heap p hp).2
  have hle := (h.nodup.subperm hsub).length_le
  rwa [List.length_range] at hle

/-! ## `kfree` -/

/-- A use of its own ends. -/
def Without (K : Nat → Prop) (p : Nat) : Nat → Prop := fun k => K k ∧ k ≠ p

theorem Sound.kfree (h : Sound s D K L) (hK : K p) (he : s.kfree p = some s') :
    Sound s' D (Without K p) (p :: L) ∧ SameEntries s s' D ∧ (∀ q, q ≠ p → s'.mem q = s.mem q) ∧ s'.cr3 = s.cr3 ∧
      s'.kpt = s.kpt := by
  have hp : Holds s D K (.own p) p := ⟨hK, rfl⟩
  unfold Vm.kfree at he
  split at he
  · cases he
  next hheap =>
  split at he
  · cases he
  next hfree =>
  cases he
  have hmem : ∀ q, q ≠ p → ({ (s.zeroPage p).setWord p 0 (s.free * pgsize) with free := p } : Vm).mem q = s.mem q :=
    fun q hq => (setWord_mem hq).trans (zeroPage_mem hq)
  have hsame : SameEntries s { (s.zeroPage p).setWord p 0 (s.free * pgsize) with free := p } D := by
    refine sameEntries_of_mem (K := K) (fun d hd => hmem d ?_) fun d i t ht => hmem t ?_
    · rintro rfl
      cases h.own.inj _ (.dir d) d hp ⟨hd, rfl⟩
    · rintro rfl
      cases h.own.inj _ _ t hp ht
  have hnot : p ∉ L := h.own.not_free hp
  have hheap' : HeapPage p := h.own.range _ _ hp
  refine ⟨⟨⟨⟨rfl, fun hc => absurd (hc ▸ hheap'.1) (by decide)⟩, ?_⟩, List.nodup_cons.2 ⟨hnot, h.nodup⟩, fun q hq => ?_,
    ?_, fun d i j hd hi hj hpt => ?_⟩, hsame, hmem, rfl, rfl⟩
  · have hnext : pageFrame (({ (s.zeroPage p).setWord p 0 (s.free * pgsize) with free := p } : Vm).word p 0) =
        s.free := by
      have hlt : s.free * 4096 < 2 ^ 32 := by
        have h1 : ¬ 32768 ≤ s.free := fun hc => hfree (Or.inr hc)
        omega
      have hw : ((s.zeroPage p).setWord p 0 (s.free * pgsize)).word p 0 = s.free * pgsize := word_setWord_self hlt
      show pageFrame (((s.zeroPage p).setWord p 0 (s.free * pgsize)).word p 0) = s.free
      rw [hw]
      exact Nat.mul_div_cancel _ (by decide)
    rw [hnext]
    exact h.chain.congr fun q hq => word_congr (hmem q fun hc => hnot (hc ▸ hq))
  · rcases List.mem_cons.1 hq with rfl | hq
    · exact hheap'
    · exact h.heap q hq
  · refine h.own.drop (D := (· = Place.own p)) (fun x q => ?_) fun q _ => ?_
    · rw [← hsame.holds (K := K) x]
      cases x with
      | own k =>
        simp only [Holds, Without, Place.own.injEq]
        tauto
      | _ => simp [Holds]
    · rw [List.mem_cons, or_comm]
      refine or_congr_right ⟨?_, ?_⟩
      · rintro rfl
        exact ⟨_, rfl, hp⟩
      · rintro ⟨x, rfl, hx⟩
        exact hx.2
  · rw [hsame.pte d i j hd hi hj] at hpt ⊢
    rw [hsame.pde d i hd hi]
    exact h.prot d i j hd hi hj hpt

/-- `kfree` succeeds when the free list is not empty. -/
theorem Sound.kfree_heap (h : Sound s D K L) (hheap : HeapPage p) (hL : L ≠ []) : ∃ s', s.kfree p = some s' := by
  cases L with
  | nil => exact absurd rfl hL
  | cons q L =>
    have hq := h.heap q List.mem_cons_self
    have hfree : s.free = q := h.chain.1.1
    refine ⟨{ (s.zeroPage p).setWord p 0 (s.free * pgsize) with free := p }, ?_⟩
    unfold Vm.kfree
    rw [if_neg (by rintro (hc | hc); exacts [Nat.not_lt.2 hheap.1 hc, Nat.not_le.2 hheap.2 hc]),
      if_neg (by rw [hfree]; rintro (hc | hc); exacts [Nat.not_lt.2 hq.1 hc, Nat.not_le.2 hq.2 hc])]

theorem Sound.kfree_some (h : Sound s D K L) (hK : K p) (hL : L ≠ []) : ∃ s', s.kfree p = some s' :=
  h.kfree_heap (h.own.range (.own p) p ⟨hK, rfl⟩) hL

/-! ## A page that is unmapped -/

theorem clearPresent_present : present (clearPresent e) = false := by
  unfold clearPresent present
  rw [Nat.testBit_zero, decide_eq_false_iff_not]
  omega

/-- The frame of an entry that is cleared has a use of its own. -/
theorem Sound.clearPte (h : Sound s D K L) (hf : Holds s D K (.frame d i j) p) :
    Sound (s.setWord (pageFrame (s.word d i)) j (clearPresent (s.pte d i j))) D (And K p) L ∧
      SetPte s (s.setWord (pageFrame (s.word d i)) j (clearPresent (s.pte d i j))) D d i j
        (clearPresent (s.pte d i j)) := by
  obtain ⟨hd, hi, hj, hpt, hpf⟩ := hf
  have hp : present (s.word d i) = true := by
    unfold Vm.pte at hpt
    split at hpt
    · assumption
    · exact absurd hpt (by decide)
  have ht : Holds s D K (.table d i) (pageFrame (s.word d i)) := ⟨hd, hi, hp, rfl⟩
  have hlt : clearPresent (s.pte d i j) < 2 ^ 32 := by
    have : s.pte d i j < 2 ^ 32 := by
      unfold Vm.pte
      rw [if_pos hp]
      exact word_lt
    unfold clearPresent
    omega
  have hset : SetPte s (s.setWord (pageFrame (s.word d i)) j (clearPresent (s.pte d i j))) D d i j
      (clearPresent (s.pte d i j)) :=
    h.setWord_table hd hi hp hlt
  refine ⟨⟨h.free_chain ⟨_, ht⟩, h.nodup, h.heap, ?_, fun e c k he hc hk hpe => ?_⟩, hset⟩
  · refine h.own.move (s := .frame d i j) (u := .own p) (r := p)
      (fun r => ⟨fun hr => hr.2.2.2.2.symm.trans hpf, fun hr => ⟨hd, hi, hj, hpt, hpf.trans hr.symm⟩⟩) fun x r => ?_
    cases x with
    | dir e => simp [Holds]
    | own k =>
      simp only [Holds, And, Place.own.injEq, ne_eq, reduceCtorEq, not_false_eq_true, and_true]
      constructor
      · rintro ⟨h1 | h1, h2⟩
        · exact Or.inl ⟨h1, h2⟩
        · exact Or.inr ⟨h1, h2.trans h1⟩
      · rintro (⟨h1, h2⟩ | ⟨h1, h2⟩)
        · exact ⟨Or.inl h1, h2⟩
        · exact ⟨Or.inr h1, h2.trans h1.symm⟩
    | table e c =>
      simp only [Holds, ne_eq, reduceCtorEq, not_false_eq_true, and_true, false_and, or_false]
      refine and_congr_right fun he => and_congr_right fun hc => ?_
      rw [hset.pde e c he hc]
    | frame e c k =>
      by_cases hec : e = d ∧ c = i ∧ k = j
      · obtain ⟨rfl, rfl, rfl⟩ := hec
        simp only [Holds, hset.self, clearPresent_present, Bool.false_eq_true, false_and, and_false,
          ne_eq, not_true_eq_false, reduceCtorEq, or_false]
      · have hne : ¬ (Place.frame e c k = Place.frame d i j) := by simp only [Place.frame.injEq, hec, not_false_eq_true]
        simp only [Holds, hne, reduceCtorEq, false_and, or_false, ne_eq, not_false_eq_true, and_true]
        refine and_congr_right fun he => and_congr_right fun hc => and_congr_right fun hk => ?_
        rw [hset.pte e c k he hc hk hec]
  · rw [hset.pde e c he hc]
    by_cases hec : e = d ∧ c = i ∧ k = j
    · obtain ⟨rfl, rfl, rfl⟩ := hec
      rw [hset.self, clearPresent_present] at hpe
      cases hpe
    · rw [hset.pte e c k he hc hk hec] at hpe ⊢
      exact h.prot e c k he hc hk hpe

theorem kfree_mem (hq : q ≠ p) (he : s.kfree p = some s') : s'.mem q = s.mem q := by
  unfold Vm.kfree at he
  split at he
  · cases he
  · split at he
    · cases he
    · cases he
      exact (setWord_mem hq).trans (zeroPage_mem hq)

/-- What is written to another page may be written before. -/
theorem kfree_setWord (hq : q ≠ p) (he : s.kfree p = some s') :
    (s.setWord q j v).kfree p = some (s'.setWord q j v) := by
  unfold Vm.kfree at he ⊢
  split at he
  · cases he
  next hheap =>
  split at he
  · cases he
  next hfree =>
  cases he
  have hfree' : ¬ ((s.setWord q j v).free < kerPage ∨ phyPage ≤ (s.setWord q j v).free) := hfree
  rw [if_neg hheap, if_neg hfree']
  unfold setWord zeroPage setPage
  simp only [Function.update_self, Function.update_idem, Function.update_of_ne hq, Function.update_of_ne hq.symm]
  rw [Function.update_comm hq]

/-- One page is unmapped, nothing else. -/
structure Unmapped (s s' : Vm) (D K : Nat → Prop) (L L' : List Nat) (d i j : Nat) : Prop where
  sound : Sound s' D K L'
  pde : ∀ e c, D e → 32 ≤ c ∧ c < 1024 → s'.word e c = s.word e c
  pte : ∀ e c k, D e → 32 ≤ c ∧ c < 1024 → k < 1024 → ¬ (e = d ∧ c = i ∧ k = j) → s'.pte e c k = s.pte e c k
  gone : present (s'.pte d i j) = false
  cr3 : s'.cr3 = s.cr3
  kpt : s'.kpt = s.kpt

theorem Sound.unmapPage (h : Sound s D K L) (hd : D d) (hi : 32 ≤ addr2dir va ∧ addr2dir va < 1024)
    (he : s.unmapPage d va = some s') : ∃ L', Unmapped s s' D K L L' d (addr2dir va) (addr2tbl va) := by
  have hj : addr2tbl va < 1024 := addr2tbl_lt
  unfold Vm.unmapPage at he
  simp only [walkpte_zero, Option.bind_eq_bind, Option.bind_some] at he
  have hsame : present (s.pte d (addr2dir va) (addr2tbl va)) = false → s' = s →
      ∃ L', Unmapped s s' D K L L' d (addr2dir va) (addr2tbl va) := by
    rintro hp rfl
    exact ⟨L, h, fun _ _ _ _ => rfl, fun _ _ _ _ _ _ _ => rfl, hp, rfl, rfl⟩
  cases hpd : present (s.word d (addr2dir va)) with
  | false =>
    simp only [hpd, Bool.false_eq_true, if_false] at he
    cases he
    refine hsame ?_ rfl
    unfold Vm.pte
    rw [hpd, if_neg Bool.false_ne_true]
    decide
  | true =>
    have hpte : s.word (pageFrame (s.word d (addr2dir va))) (addr2tbl va) = s.pte d (addr2dir va) (addr2tbl va) := by
      unfold Vm.pte
      rw [if_pos hpd]
    simp only [hpd, if_true, hpte] at he
    cases hp : present (s.pte d (addr2dir va) (addr2tbl va)) with
    | false =>
      simp only [hp, Bool.false_eq_true, if_false] at he
      cases he
      exact hsame hp rfl
    | true =>
      simp only [hp, if_true] at he
      obtain ⟨s₁, hk, he⟩ := Option.bind_eq_some_iff.1 he
      cases he
      have hf : Holds s D K (.frame d (addr2dir va) (addr2tbl va)) (pageFrame (s.pte d (addr2dir va) (addr2tbl va))) :=
        ⟨hd, hi, hj, hp, rfl⟩
      have ht : Holds s D K (.table d (addr2dir va)) (pageFrame (s.word d (addr2dir va))) := ⟨hd, hi, hpd, rfl⟩
      have hne : pageFrame (s.word d (addr2dir va)) ≠ pageFrame (s.pte d (addr2dir va) (addr2tbl va)) := fun hc => by
        cases h.own.inj _ _ _ ht (hc ▸ hf)
      have hKf : ¬ K (pageFrame (s.pte d (addr2dir va) (addr2tbl va))) := fun hc => by
        cases h.own.inj _ (.own _) _ hf ⟨hc, rfl⟩
      -- clearing the entry and freeing its page touch different pages, so the order does not matter
      obtain ⟨h₁, hset⟩ := h.clearPte hf
      have hcomm : (s.setWord (pageFrame (s.word d (addr2dir va))) (addr2tbl va)
          (clearPresent (s.pte d (addr2dir va) (addr2tbl va)))).kfree
            (pageFrame (s.pte d (addr2dir va) (addr2tbl va))) =
          some (s₁.setWord (pageFrame (s.word d (addr2dir va))) (addr2tbl va)
            (clearPresent (s₁.word (pageFrame (s.word d (addr2dir va))) (addr2tbl va)))) := by
        rw [kfree_setWord hne hk, word_congr (kfree_mem hne hk), hpte]
      obtain ⟨h₂, hsame₂, -, hcr, hkpt⟩ := h₁.kfree (Or.inr rfl) hcomm
      refine ⟨_, h₂.congr_own fun k => ?_, fun e c he hc => ?_, fun e c k he hc hk' hek => ?_, ?_, hcr, hkpt⟩
      · simp only [Without, And]
        constructor
        · rintro ⟨h1 | h1, h2⟩
          · exact h1
          · exact absurd h1 h2
        · intro h1
          refine ⟨Or.inl h1, ?_⟩
          rintro rfl
          exact hKf h1
      · rw [hsame₂.pde e c he hc, hset.pde e c he hc]
      · rw [hsame₂.pte e c k he hc hk', hset.pte e c k he hc hk' hek]
      · rw [hsame₂.pte d _ _ hd hi hj, hset.self]
        exact clearPresent_present

/-! ## A page directory that is given up -/

/-- The owners that belong to the address space of `d`. -/
def Place.Of (d : Nat) : Place → Prop
  | .dir e => e = d
  | .own _ => False
  | .table e _ => e = d
  | .frame e _ _ => e = d

/-- The pages of the address space of `d` that the owners in `R` have. -/
def PagesOf (s : Vm) (D K : Nat → Prop) (d : Nat) (R : Place → Prop) (p : Nat) :
    Prop := ∃ x, x.Of d ∧ R x ∧ Holds s D K x p

theorem Holds.of {x : Place} (h : Holds s D K x p) : (∃ k, x = .own k ∧ K k ∧ p = k) ∨ ∃ e, D e ∧ x.Of e := by
  cases x with
  | dir e => exact Or.inr ⟨e, h.1, rfl⟩
  | own k => exact Or.inl ⟨k, rfl, h⟩
  | table e i => exact Or.inr ⟨e, h.1, rfl⟩
  | frame e i j => exact Or.inr ⟨e, h.1, rfl⟩

theorem Place.Of.inj {x : Place} (h : x.Of d) (h' : x.Of e) : d = e := by
  cases x with
  | own k => cases h
  | _ => exact h.symm.trans h'

theorem holds_without {K' : Nat → Prop} {x : Place} (hx : x.Of e) :
    Holds s (Without D d) K' x p ↔ Holds s D K x p ∧ e ≠ d := by
  cases x with
  | own k => cases hx
  | dir e' =>
    obtain rfl : e' = e := hx
    simp only [Holds, Without]
    tauto
  | table e' i =>
    obtain rfl : e' = e := hx
    simp only [Holds, Without]
    tauto
  | frame e' i j =>
    obtain rfl : e' = e := hx
    simp only [Holds, Without]
    tauto

/-- Without the directory `d` the pages of its address space are nobody's, each with a use of its own. -/
theorem Sound.detach (h : Sound s D K L) (d : Nat) :
    Sound s (Without D d) (fun k => K k ∨ PagesOf s D K d (fun _ => True) k) L := by
  -- an owner that is left had the page before, or belonged to `d`
  have hback : ∀ {x p}, Holds s (Without D d) (fun k => K k ∨ PagesOf s D K d (fun _ => True) k) x p →
      (Holds s D K x p ∧ ∀ e, x.Of e → e ≠ d) ∨ (∃ y, x = .own p ∧ y.Of d ∧ Holds s D K y p) := fun {x p} hx => by
    rcases hx.of with ⟨k, rfl, hk, rfl⟩ | ⟨e, he, hof⟩
    · rcases hk with hk | ⟨y, hy, -, hyp⟩
      · exact Or.inl ⟨⟨hk, rfl⟩, fun e he => he.elim⟩
      · exact Or.inr ⟨y, rfl, hy, hyp⟩
    · obtain ⟨h1, h2⟩ := (holds_without (K := K) hof).1 hx
      exact Or.inl ⟨h1, fun e' he' => he'.inj hof ▸ h2⟩
  refine ⟨h.chain, h.nodup, h.heap, ⟨fun x p hx => ?_, fun x y p hx hy => ?_, fun p hp => ?_⟩,
    fun e i j he => h.prot e i j he.1⟩
  · rcases hback hx with ⟨hx, -⟩ | ⟨y, -, -, hy⟩
    · exact h.own.range x p hx
    · exact h.own.range y p hy
  · rcases hback hx with ⟨hx, hxd⟩ | ⟨z, rfl, hz, hzp⟩ <;> rcases hback hy with ⟨hy, hyd⟩ | ⟨w, rfl, hw, hwp⟩
    · exact h.own.inj x y p hx hy
    · exact absurd rfl (hxd d (h.own.inj w x p hwp hx ▸ hw))
    · exact absurd rfl (hyd d (h.own.inj z y p hzp hy ▸ hz))
    · rfl
  · rw [h.own.part p hp]
    constructor
    · intro hn x hx
      rcases hback hx with ⟨hx, -⟩ | ⟨y, -, -, hy⟩
      · exact hn x hx
      · exact hn y hy
    · intro hn x hx
      rcases hx.of with ⟨k, rfl, hk, rfl⟩ | ⟨e, he, hof⟩
      · exact hn (.own p) ⟨Or.inl hk, rfl⟩
      · by_cases hed : e = d
        · exact hn (.own p) ⟨Or.inr ⟨x, hed ▸ hof, trivial, hx⟩, rfl⟩
        · exact hn x ((holds_without (K := K) hof).2 ⟨hx, hed⟩)

/-- What `vm_teardown` has still to free: the page tables from `i` on, their pages, those of table `i`
from `j` on, and the directory. -/
def Later (i j : Nat) : Place → Prop
  | .dir _ => True
  | .own _ => False
  | .table _ c => i ≤ c
  | .frame _ c k => i < c ∨ (c = i ∧ j ≤ k)

/-- In the middle of `vm_teardown`. The tables still to be freed are as they were. -/
structure Tearing (s₀ s : Vm) (D K : Nat → Prop) (L : List Nat) (d : Nat) (R : Place → Prop) : Prop where
  sound : Sound s (Without D d) (fun k => K k ∨ PagesOf s₀ D K d R k) L
  same : SameEntries s₀ s (Without D d)
  mem : ∀ x p, x.Of d → R x → Holds s₀ D K x p → s.mem p = s₀.mem p
  other : ∀ q, ¬ PagesOf s₀ D K d (fun _ => True) q → s.mem q = s₀.mem q
  cr3 : s.cr3 = s₀.cr3
  kpt : s.kpt = s₀.kpt

theorem Holds.det {x : Place} (h : Holds s D K x p) (h' : Holds s D K x q) : p = q := by
  cases x with
  | dir e => exact h.2.trans h'.2.symm
  | own k => exact h.2.trans h'.2.symm
  | table e i => exact h.2.2.2.symm.trans h'.2.2.2
  | frame e i j => exact h.2.2.2.2.symm.trans h'.2.2.2.2

theorem Tearing.congr {R R' : Place → Prop} (ht : Tearing s₀ s D K L d R)
    (hR : ∀ y p, y.Of d → Holds s₀ D K y p → (R' y ↔ R y)) : Tearing s₀ s D K L d R' := by
  refine ⟨ht.sound.congr_own fun k => or_congr_right ?_, ht.same, fun y p hy hyR hp =>
    ht.mem y p hy ((hR y p hy hp).1 hyR) hp, ht.other, ht.cr3, ht.kpt⟩
  constructor
  · rintro ⟨y, hy, hyR, hp⟩
    exact ⟨y, hy, (hR y k hy hp).2 hyR, hp⟩
  · rintro ⟨y, hy, hyR, hp⟩
    exact ⟨y, hy, (hR y k hy hp).1 hyR, hp⟩

/-- One page of the address space is freed. -/
theorem Tearing.kfree {R T : Place → Prop} {x : Place} (ht : Tearing s₀ s D K L d R) (h : Sound s₀ D K L₀)
    (hof : x.Of d) (hx : R x) (hp : Holds s₀ D K x p) (hR : ∀ y q, y.Of d → Holds s₀ D K y q → (T y ↔ R y ∧ y ≠ x))
    (he : s.kfree p = some s') : Tearing s₀ s' D K (p :: L) d T := by
  obtain ⟨h₁, hsame, hmem, hcr, hkpt⟩ := ht.sound.kfree (Or.inr ⟨x, hof, hx, hp⟩) he
  refine ⟨h₁.congr_own fun k => ?_, ⟨fun e i hd hi => by rw [hsame.pde e i hd hi, ht.same.pde e i hd hi],
    fun e i j hd hi hj => by rw [hsame.pte e i j hd hi hj, ht.same.pte e i j hd hi hj]⟩, fun y q hy hyR hq => ?_,
    fun q hq => (hmem q fun hc => hq ⟨x, hof, trivial, hc ▸ hp⟩).trans (ht.other q hq), hcr.trans ht.cr3,
    hkpt.trans ht.kpt⟩
  · constructor
    · rintro ⟨hk | ⟨y, hy, hyR, hyk⟩, hne⟩
      · exact Or.inl hk
      · refine Or.inr ⟨y, hy, (hR y k hy hyk).2 ⟨hyR, ?_⟩, hyk⟩
        rintro rfl
        exact hne (hyk.det hp)
    · rintro (hk | ⟨y, hy, hyR, hyk⟩)
      · refine ⟨Or.inl hk, ?_⟩
        rintro rfl
        have hown := h.own.inj (.own k) x k ⟨hk, rfl⟩ hp
        subst hown
        exact hof
      · obtain ⟨h1, h2⟩ := (hR y k hy hyk).1 hyR
        refine ⟨Or.inr ⟨y, hy, h1, hyk⟩, ?_⟩
        rintro rfl
        exact h2 (h.own.inj y x k hyk hp)
  · rw [hmem q, ht.mem y q hy ((hR y q hy hq).1 hyR).1 hq]
    rintro rfl
    exact ((hR y q hy hq).1 hyR).2 (h.own.inj y x q hq hp)

/-- One entry of a page table. -/
theorem Tearing.freeFrame (ht : Tearing s₀ s D K L d (Later i j)) (h : Sound s₀ D K L₀) (hd : D d)
    (hi : 32 ≤ i ∧ i < 1024) (hj : j < 1024) (hp : present (s₀.word d i) = true) :
    (∀ s', s.freeFrame (pageFrame (s₀.word d i)) j = some s' →
      ∃ L', Tearing s₀ s' D K L' d (Later i (j + 1)) ∧ (L ≠ [] → L' ≠ [])) ∧
    (L ≠ [] → ∃ s', s.freeFrame (pageFrame (s₀.word d i)) j = some s') := by
  have htable : Holds s₀ D K (.table d i) (pageFrame (s₀.word d i)) := ⟨hd, hi, hp, rfl⟩
  have hword : s.word (pageFrame (s₀.word d i)) j = s₀.pte d i j := by
    rw [word_congr (ht.mem (.table d i) _ rfl (le_refl i) htable)]
    unfold Vm.pte
    rw [if_pos hp]
  unfold Vm.freeFrame
  rw [hword]
  cases hpt : present (s₀.pte d i j) with
  | true =>
    rw [if_pos rfl]
    have hframe : Holds s₀ D K (.frame d i j) (pageFrame (s₀.pte d i j)) := ⟨hd, hi, hj, hpt, rfl⟩
    have hof : Place.Of d (.frame d i j) := rfl
    have hlater : Later i j (.frame d i j) := Or.inr ⟨rfl, le_refl j⟩
    refine ⟨fun s' h1 => ⟨_, ht.kfree h hof hlater hframe (fun y q hy hq => ?_) h1, fun _ => List.cons_ne_nil _ _⟩,
      fun hL => ht.sound.kfree_some (Or.inr ⟨_, hof, hlater, hframe⟩) hL⟩
    cases y with
    | own k => cases hy
    | dir e => simp [Later]
    | table e c => simp [Later]
    | frame e c k =>
      obtain rfl : e = d := hy
      simp only [Later, ne_eq, Place.frame.injEq, true_and]
      omega
  | false =>
    rw [if_neg Bool.false_ne_true]
    refine ⟨fun s' h1 => ?_, fun _ => ⟨s, rfl⟩⟩
    cases h1
    refine ⟨L, ht.congr fun y q hy hq => ?_, id⟩
    cases y with
    | own k => cases hy
    | dir e => simp [Later]
    | table e c => simp [Later]
    | frame e c k =>
      obtain rfl : e = d := hy
      have hne : ¬ (c = i ∧ k = j) := by
        rintro ⟨rfl, rfl⟩
        rw [hq.2.2.2.1] at hpt
        cases hpt
      simp only [Later]
      omega

theorem freeFrames_tearing (h : Sound s₀ D K L₀) (hd : D d) (hi : 32 ≤ i ∧ i < 1024)
    (hp : present (s₀.word d i) = true) :
    ∀ {n j : Nat} {s : Vm} {L : List Nat}, j + n = 1024 → Tearing s₀ s D K L d (Later i j) →
      (∀ s', freeFrames (pageFrame (s₀.word d i)) j n s = some s' →
        ∃ L', Tearing s₀ s' D K L' d (Later i 1024) ∧ (L ≠ [] → L' ≠ [])) ∧
      (L ≠ [] → ∃ s', freeFrames (pageFrame (s₀.word d i)) j n s = some s')
  | 0, j, s, L, hn, ht => by
    obtain rfl : j = 1024 := by omega
    refine ⟨fun s' he => ?_, fun _ => ⟨s, rfl⟩⟩
    cases he
    exact ⟨L, ht, id⟩
  | n + 1, j, s, L, hn, ht => by
    obtain ⟨hstep, hsome⟩ := ht.freeFrame h hd hi (by omega) hp
    refine ⟨fun s' he => ?_, fun hL => ?_⟩
    · obtain ⟨s₁, h1, he⟩ := Option.bind_eq_some_iff.1 he
      obtain ⟨L₁, ht₁, hL₁⟩ := hstep s₁ h1
      obtain ⟨L', ht', hL'⟩ := (freeFrames_tearing h hd hi hp (by omega) ht₁).1 s' he
      exact ⟨L', ht', fun hL => hL' (hL₁ hL)⟩
    · obtain ⟨s₁, h1⟩ := hsome hL
      obtain ⟨L₁, ht₁, hL₁⟩ := hstep s₁ h1
      obtain ⟨s', he⟩ := (freeFrames_tearing (n := n) h hd hi hp (by omega) ht₁).2 (hL₁ hL)
      exact ⟨s', Option.bind_eq_some_iff.2 ⟨s₁, h1, he⟩⟩

/-- One entry of the page directory. -/
theorem Tearing.freeTable (ht : Tearing s₀ s D K L d (Later i 0)) (h : Sound s₀ D K L₀) (hd : D d)
    (hi : 32 ≤ i ∧ i < 1024) :
    (∀ s', s.freeTable d i = some s' → ∃ L', Tearing s₀ s' D K L' d (Later (i + 1) 0) ∧ (L ≠ [] → L' ≠ [])) ∧
    (L ≠ [] → ∃ s', s.freeTable d i = some s') := by
  have hword : s.word d i = s₀.word d i := word_congr (ht.mem (.dir d) d rfl trivial ⟨hd, rfl⟩)
  unfold Vm.freeTable
  simp only [hword]
  cases hp : present (s₀.word d i) with
  | true =>
    rw [if_pos rfl]
    have htable : Holds s₀ D K (.table d i) (pageFrame (s₀.word d i)) := ⟨hd, hi, hp, rfl⟩
    have hof : Place.Of d (.table d i) := rfl
    have hlater : Later i 1024 (.table d i) := le_refl i
    obtain ⟨hframes, hsome⟩ := freeFrames_tearing (n := 1024) (j := 0) h hd hi hp (by decide) ht
    refine ⟨fun s' h1 => ?_, fun hL => ?_⟩
    · obtain ⟨s₂, h2, h3⟩ := Option.bind_eq_some_iff.1 h1
      obtain ⟨L₂, ht₂, -⟩ := hframes s₂ h2
      refine ⟨_, ht₂.kfree h hof hlater htable (fun y q hy hq => ?_) h3, fun _ => List.cons_ne_nil _ _⟩
      cases y with
      | own k => cases hy
      | dir e => simp [Later]
      | table e c =>
        obtain rfl : e = d := hy
        simp only [Later, ne_eq, Place.table.injEq, true_and]
        omega
      | frame e c k =>
        have hk := hq.2.2.1
        simp only [Later, ne_eq, reduceCtorEq, not_false_eq_true, and_true]
        omega
    · obtain ⟨s₂, h2⟩ := hsome hL
      obtain ⟨L₂, ht₂, hL₂⟩ := hframes s₂ h2
      obtain ⟨s', h3⟩ := ht₂.sound.kfree_some (Or.inr ⟨_, hof, hlater, htable⟩) (hL₂ hL)
      exact ⟨s', Option.bind_eq_some_iff.2 ⟨s₂, h2, h3⟩⟩
  | false =>
    rw [if_neg Bool.false_ne_true]
    refine ⟨fun s' h1 => ?_, fun _ => ⟨s, rfl⟩⟩
    cases h1
    refine ⟨L, ht.congr fun y q hy hq => ?_, id⟩
    cases y with
    | own k => cases hy
    | dir e => simp [Later]
    | table e c =>
      obtain rfl : e = d := hy
      have hne : c ≠ i := by
        rintro rfl
        rw [hq.2.2.1] at hp
        cases hp
      simp only [Later]
      omega
    | frame e c k =>
      obtain rfl : e = d := hy
      have hne : c ≠ i := by
        rintro rfl
        have hpt := hq.2.2.2.1
        unfold Vm.pte at hpt
        rw [hp, if_neg Bool.false_ne_true] at hpt
        exact absurd hpt (by decide)
      simp only [Later]
      omega

theorem freeTables_tearing (h : Sound s₀ D K L₀) (hd : D d) :
    ∀ {n i : Nat} {s : Vm} {L : List Nat}, 32 ≤ i → i + n = 1024 → Tearing s₀ s D K L d (Later i 0) →
      (∀ s', freeTables d i n s = some s' → ∃ L', Tearing s₀ s' D K L' d (Later 1024 0) ∧ (L ≠ [] → L' ≠ [])) ∧
      (L ≠ [] → ∃ s', freeTables d i n s = some s')
  | 0, i, s, L, _, hn, ht => by
    obtain rfl : i = 1024 := by omega
    refine ⟨fun s' he => ?_, fun _ => ⟨s, rfl⟩⟩
    cases he
    exact ⟨L, ht, id⟩
  | n + 1, i, s, L, h32, hn, ht => by
    obtain ⟨hstep, hsome⟩ := ht.freeTable h hd ⟨h32, by omega⟩
    refine ⟨fun s' he => ?_, fun hL => ?_⟩
    · obtain ⟨s₁, h1, he⟩ := Option.bind_eq_some_iff.1 he
      obtain ⟨L₁, ht₁, hL₁⟩ := hstep s₁ h1
      obtain ⟨L', ht', hL'⟩ := (freeTables_tearing h hd (by omega) (by omega) ht₁).1 s' he
      exact ⟨L', ht', fun hL => hL' (hL₁ hL)⟩
    · obtain ⟨s₁, h1⟩ := hsome hL
      obtain ⟨L₁, ht₁, hL₁⟩ := hstep s₁ h1
      obtain ⟨s', he⟩ := (freeTables_tearing (n := n) h hd (by omega) (by omega) ht₁).2 (hL₁ hL)
      exact ⟨s', Option.bind_eq_some_iff.2 ⟨s₁, h1, he⟩⟩

theorem Sound.tearing (h : Sound s D K L) : Tearing s s D K L d (Later 32 0) := by
  have hall : Tearing s s D K L d fun _ => True :=
    ⟨h.detach d, ⟨fun _ _ _ _ => rfl, fun _ _ _ _ _ _ => rfl⟩, fun _ _ _ _ _ => rfl, fun _ _ => rfl, rfl, rfl⟩
  refine hall.congr fun y p hy hp => iff_true_intro ?_
  cases y with
  | own k => cases hy
  | dir e => trivial
  | table e c => exact hp.2.1.1
  | frame e c k =>
    have := hp.2.1.1
    simp only [Later]
    omega

/-- `vm_teardown` returns when the free list is not empty. -/
theorem Sound.vmTeardown_some (h : Sound s D K L) (hd : D d) (hL : L ≠ []) : ∃ s', s.vmTeardown d = some s' := by
  obtain ⟨htables, hsome⟩ := freeTables_tearing (n := 1024 - 32) h hd (le_refl 32) (by decide) h.tearing
  obtain ⟨s₁, h1⟩ := hsome hL
  obtain ⟨L₁, ht₁, hL₁⟩ := htables s₁ h1
  obtain ⟨s', h2⟩ := ht₁.sound.kfree_some (Or.inr ⟨.dir d, rfl, trivial, hd, rfl⟩) (hL₁ hL)
  exact ⟨s', Option.bind_eq_some_iff.2 ⟨s₁, h1, h2⟩⟩

/-- `vm_teardown` frees the pages of the address space, and no other page. -/
theorem Sound.vmTeardown (h : Sound s D K L) (hd : D d) (he : s.vmTeardown d = some s') :
    (∃ L', Sound s' (Without D d) K L') ∧ SameEntries s s' (Without D d) ∧
      (∀ q, ¬ PagesOf s D K d (fun _ => True) q → s'.mem q = s.mem q) ∧ s'.cr3 = s.cr3 ∧ s'.kpt = s.kpt := by
  unfold Vm.vmTeardown at he
  obtain ⟨s₁, h1, h2⟩ := Option.bind_eq_some_iff.1 he
  obtain ⟨L₁, ht₁, -⟩ := (freeTables_tearing h hd (le_refl 32) (by decide) h.tearing).1 s₁ h1
  have ht₂ := ht₁.kfree h (T := fun _ => False) (x := .dir d) rfl trivial ⟨hd, rfl⟩ (fun y p hy hp => ?_) h2
  · refine ⟨⟨_, ht₂.sound.congr_own fun k => ⟨?_, Or.inl⟩⟩, ht₂.same, ht₂.other, ht₂.cr3, ht₂.kpt⟩
    rintro (hk | ⟨_, _, hf, _⟩)
    · exact hk
    · exact hf.elim
  · cases y with
    | own k => cases hy
    | dir e =>
      obtain rfl : e = d := hy
      simp
    | table e c =>
      have hc := hp.2.1.2
      refine ⟨fun hf => hf.elim, fun hl => absurd hl.1 ?_⟩
      simp only [Later]
      omega
    | frame e c k =>
      have hc := hp.2.1.2
      refine ⟨fun hf => hf.elim, fun hl => absurd hl.1 ?_⟩
      simp only [Later]
      omega

end TinyOS.Vm
