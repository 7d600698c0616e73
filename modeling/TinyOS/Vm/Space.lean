/-
Who owns a page of the kernel's heap: the free list, one page directory, one entry of a page directory
or of a page table, or a use of its own such as a kernel stack.
-/
import TinyOS.Lib.Exact
import TinyOS.Vm.Basic

namespace TinyOS.Vm

open TinyOS.Lib

variable {s s' : Vm} {D K : Nat → Prop} {L : List Nat} {d e i j k p q t v prot : Nat}

/-! ## Words of pages -/

theorem word_congr (h : s'.mem p = s.mem p) : s'.word p i = s.word p i := by
  unfold word
  rw [h]

theorem setPage_ne {m : Store} (h : q ≠ p) : (s.setPage p m).mem q = s.mem q := Function.update_of_ne h ..

theorem setPage_self {m : Store} : (s.setPage p m).mem p = m := Function.update_self ..

theorem setWord_mem (h : q ≠ p) : (s.setWord p i v).mem q = s.mem q := setPage_ne h

theorem word_setWord_self (h : v < 2 ^ 32) : (s.setWord p i v).word p i = v := by
  unfold word setWord
  rw [setPage_self, Store.word_setWord_self h]

theorem word_setWord_ne (h : q ≠ p ∨ k ≠ i) : (s.setWord p i v).word q k = s.word q k := by
  by_cases hq : q = p
  · subst hq
    have hk : k ≠ i := h.resolve_left fun hc => hc rfl
    unfold word setWord
    rw [setPage_self, Store.word_setWord_of_disjoint (by omega)]
  · exact word_congr (setWord_mem hq)

theorem zeroPage_mem (h : q ≠ p) : (s.zeroPage p).mem q = s.mem q := setPage_ne h

theorem zeroPage_self {o : Nat} (h : o < 4096) : (s.zeroPage p).mem p o = 0 := by
  unfold zeroPage
  rw [setPage_self]
  exact Store.fill_in (Nat.zero_le o) (by omega)

theorem word_zero (h : ∀ o < 4096, s.mem p o = 0) (hk : k < 1024) : s.word p k = 0 := by
  unfold word Store.word
  rw [h _ (by omega), h _ (by omega), h _ (by omega), h _ (by omega)]
  rfl

theorem word_lt : s.word p i < 2 ^ 32 := Store.word_lt

/-! ## Entries -/

theorem pageFrame_or (h : prot < 8) : pageFrame (e ||| prot) = pageFrame e := by
  have h1 : (e ||| prot) / 2 ^ 12 = e / 2 ^ 12 ||| prot / 2 ^ 12 := Nat.or_div_two_pow
  have h2 : prot / 2 ^ 12 = 0 := by omega
  rw [h2, Nat.or_zero] at h1
  exact h1

theorem flags_or (h : prot < 8) : (e ||| prot) % 8 = e % 8 ||| prot := by
  have h1 : (e ||| prot) % 2 ^ 3 = e % 2 ^ 3 ||| prot % 2 ^ 3 := Nat.or_mod_two_pow
  have h2 : prot % 2 ^ 3 = prot := by omega
  rw [h2] at h1
  exact h1

theorem present_or : present (e ||| prot) = (present e || prot.testBit 0) := Nat.testBit_or e prot 0

theorem or_lt (he : e < 2 ^ 32) (h : prot < 8) : e ||| prot < 2 ^ 32 := Nat.or_lt_two_pow he (by omega)

theorem makeEntry_eq : makeEntry p prot = p * pgsize ||| (prot ||| pteP) := Nat.or_assoc ..

theorem prot_or_lt (h : prot < 8) : prot ||| pteP < 8 := Nat.or_lt_two_pow (n := 3) h (by decide)

theorem makeEntry_frame (h : prot < 8) : pageFrame (makeEntry p prot) = p := by
  rw [makeEntry_eq, pageFrame_or (prot_or_lt h)]
  exact Nat.mul_div_cancel p (by decide)

theorem makeEntry_flags (h : prot < 8) : makeEntry p prot % 8 = prot ||| pteP := by
  rw [makeEntry_eq, flags_or (prot_or_lt h), show p * pgsize % 8 = 0 from (by omega : p * 4096 % 8 = 0), Nat.zero_or]

theorem makeEntry_present : present (makeEntry p prot) = true := by
  unfold makeEntry present
  rw [Nat.testBit_or]
  simp

theorem makeEntry_lt (hp : p < 2 ^ 20) (h : prot < 8) : makeEntry p prot < 2 ^ 32 := by
  rw [makeEntry_eq]
  exact or_lt (by omega : p * 4096 < 2 ^ 32) (prot_or_lt h)

/-- Rights that are granted stay granted. -/
theorem sub_or {a b c : Nat} (h : a &&& b = a) : a &&& (b ||| c) = a := by
  refine Nat.eq_of_testBit_eq fun n => ?_
  have hn : (a.testBit n && b.testBit n) = a.testBit n := by rw [← Nat.testBit_and, h]
  rw [Nat.testBit_and, Nat.testBit_or, Bool.and_or_distrib_left, hn]
  cases a.testBit n <;> simp

theorem or_sub {a b c : Nat} (h1 : a &&& c = a) (h2 : b &&& c = b) : (a ||| b) &&& c = a ||| b := by
  rw [Nat.and_or_distrib_right, h1, h2]

theorem present_iff : present e = true ↔ e % 2 = 1 := by
  unfold present
  rw [Nat.testBit_zero, decide_eq_true_iff]

/-! ## Owners -/

/-- The entry of directory `d` for page `j` of the part `i` of the address space; 0 without a page table. -/
def pte (s : Vm) (d i j : Nat) : Nat := if present (s.word d i) then s.word (pageFrame (s.word d i)) j else 0

/-- A page of `[KER_MEM, PHY_MEM)`. -/
def HeapPage (p : Nat) : Prop := kerPage ≤ p ∧ p < phyPage

/-- What owns a page: it is a page directory, or has a use of its own, or is what an entry refers to. -/
inductive Place where
  | dir (d : Nat)
  | own (k : Nat)
  | table (d i : Nat)
  | frame (d i j : Nat)

/-- The entries for user addresses are those from 32 on. -/
def Holds (s : Vm) (D K : Nat → Prop) : Place → Nat → Prop
  | .dir d, p => D d ∧ p = d
  | .own k, p => K k ∧ p = k
  | .table d i, p => D d ∧ (32 ≤ i ∧ i < 1024) ∧ present (s.word d i) = true ∧ pageFrame (s.word d i) = p
  | .frame d i j, p => D d ∧ (32 ≤ i ∧ i < 1024) ∧ j < 1024 ∧ present (s.pte d i j) = true ∧ pageFrame (s.pte d i j) = p

/-- The free list. -/
def Chain (s : Vm) : Nat → List Nat → Prop
  | p, [] => p = 0
  | p, q :: l => (p = q ∧ q ≠ 0) ∧ Chain s (pageFrame (s.word q 0)) l

/-- Every page of the heap is free or has one owner, and a page table entry grants no more than the
directory entry above it. -/
structure Sound (s : Vm) (D K : Nat → Prop) (L : List Nat) : Prop where
  chain : Chain s s.free L
  nodup : L.Nodup
  heap : ∀ p ∈ L, HeapPage p
  own : Exact HeapPage (Holds s D K) (· ∈ L)
  prot : ∀ d i j, D d → 32 ≤ i ∧ i < 1024 → j < 1024 → present (s.pte d i j) = true →
    s.pte d i j % 8 &&& s.word d i % 8 = s.pte d i j % 8

theorem Chain.congr : ∀ {L : List Nat} {p : Nat}, Chain s p L → (∀ q ∈ L, s'.word q 0 = s.word q 0) → Chain s' p L
  | [], _, h, _ => h
  | q :: L, _, ⟨h1, h2⟩, hw => ⟨h1, by
      rw [hw q List.mem_cons_self]
      exact h2.congr fun r hr => hw r (List.mem_cons_of_mem _ hr)⟩

namespace Sound

theorem dir_heap (h : Sound s D K L) (hd : D d) : HeapPage d := h.own.range (.dir d) d ⟨hd, rfl⟩

theorem dir_not_free (h : Sound s D K L) (hd : D d) : d ∉ L := h.own.not_free (s := .dir d) ⟨hd, rfl⟩

theorem table_ne_dir (h : Sound s D K L) (hd : D d) (ht : Holds s D K (.table e i) t) : t ≠ d := by
  rintro rfl
  cases h.own.inj _ (.dir t) t ht ⟨hd, rfl⟩

theorem own_ne_dir (h : Sound s D K L) (hd : D d) (hk : K k) : k ≠ d := by
  rintro rfl
  cases h.own.inj (.own k) (.dir k) k ⟨hk, rfl⟩ ⟨hd, rfl⟩

theorem own_ne_table (h : Sound s D K L) (hk : K k) (ht : Holds s D K (.table e i) t) : k ≠ t := by
  rintro rfl
  cases h.own.inj (.own k) _ k ⟨hk, rfl⟩ ht

end Sound

/-- The entries of both levels are the same. -/
structure SameEntries (s s' : Vm) (D : Nat → Prop) : Prop where
  pde : ∀ d i, D d → 32 ≤ i ∧ i < 1024 → s'.word d i = s.word d i
  pte : ∀ d i j, D d → 32 ≤ i ∧ i < 1024 → j < 1024 → s'.pte d i j = s.pte d i j

/-- Only pages that are neither directories nor tables changed. -/
theorem sameEntries_of_mem (hd : ∀ d, D d → s'.mem d = s.mem d)
    (ht : ∀ d i t, Holds s D K (.table d i) t → s'.mem t = s.mem t) : SameEntries s s' D := by
  have hpde : ∀ d i, D d → s'.word d i = s.word d i := fun d i h => word_congr (hd d h)
  refine ⟨fun d i h _ => hpde d i h, fun d i j h hi _ => ?_⟩
  unfold Vm.pte
  rw [hpde d i h]
  split
  · next hp => exact word_congr (ht d i _ ⟨h, hi, hp, rfl⟩)
  · rfl

theorem SameEntries.holds (h : SameEntries s s' D) (x : Place) : Holds s' D K x p ↔ Holds s D K x p := by
  cases x with
  | dir d => exact Iff.rfl
  | own k => exact Iff.rfl
  | table d i =>
    refine and_congr_right fun hd => and_congr_right fun hi => ?_
    rw [h.pde d i hd hi]
  | frame d i j =>
    refine and_congr_right fun hd => and_congr_right fun hi => and_congr_right fun hj => ?_
    rw [h.pte d i j hd hi hj]

theorem SameEntries.sound (he : SameEntries s s' D) (h : Sound s D K L) (hc : Chain s' s'.free L) : Sound s' D K L where
  chain := hc
  nodup := h.nodup
  heap := h.heap
  own := h.own.congr (fun x _ => he.holds x) fun _ _ => Iff.rfl
  prot d i j hd hi hj hp := by
    rw [he.pte d i j hd hi hj] at hp ⊢
    rw [he.pde d i hd hi]
    exact h.prot d i j hd hi hj hp

theorem Sound.congr_own {K' : Nat → Prop} (h : Sound s D K L) (hK : ∀ k, K k ↔ K' k) : Sound s D K' L := by
  have : K = K' := funext fun k => propext (hK k)
  exact this ▸ h

/-! ## Pages taken from the free list -/

/-- A page with a use of its own is added. -/
def And (K : Nat → Prop) (p : Nat) : Nat → Prop := fun k => K k ∨ k = p

theorem own_and (hK : ¬ K t) : (K k ∧ q = k) ↔ (And K t k ∧ q = k) ∧ Place.own k ≠ Place.own t := by
  constructor
  · rintro ⟨h1, h2⟩
    refine ⟨⟨Or.inl h1, h2⟩, fun hc => ?_⟩
    cases hc
    exact hK h1
  · rintro ⟨⟨h1, h2⟩, h3⟩
    exact ⟨h1.resolve_right fun hc => h3 (congrArg Place.own hc), h2⟩

theorem Sound.kalloc (h : Sound s D K L) (he : s.kalloc = some (p, s')) :
    ∃ L', L = p :: L' ∧ ¬ K p ∧ Sound s' D (And K p) L' ∧ SameEntries s s' D ∧ (∀ o < 4096, s'.mem p o = 0) ∧
      (∀ q, q ≠ p → s'.mem q = s.mem q) ∧ s'.cr3 = s.cr3 ∧ s'.kpt = s.kpt := by
  unfold Vm.kalloc at he
  split at he
  · cases he
  next h0 =>
  cases he
  cases L with
  | nil => exact absurd h.chain h0
  | cons q L' =>
    obtain ⟨⟨hq, -⟩, hch⟩ := h.chain
    subst hq
    have hheap := h.heap _ List.mem_cons_self
    -- a free page is nobody's, so zeroing it changes no entry
    have hnot : ∀ x, ¬ Holds s D K x s.free := h.own.not_hold hheap List.mem_cons_self
    have hmem : ∀ q, q ≠ s.free →
        ({ s with free := pageFrame (s.word s.free 0) }.zeroPage s.free).mem q = s.mem q := fun q hq => zeroPage_mem hq
    have hsame : SameEntries s ({ s with free := pageFrame (s.word s.free 0) }.zeroPage s.free) D :=
      sameEntries_of_mem (K := K) (fun d hd => hmem d fun hc => hnot (.dir d) ⟨hd, hc.symm⟩)
        fun d i t ht => hmem t fun hc => hnot _ (hc ▸ ht)
    have hnd := List.nodup_cons.1 h.nodup
    refine ⟨L', rfl, fun hK => hnot (.own s.free) ⟨hK, rfl⟩,
      ⟨?_, hnd.2, fun p hp => h.heap p (List.mem_cons_of_mem _ hp),
      ?_, ?_⟩, hsame, fun o ho => zeroPage_self ho, hmem, rfl, rfl⟩
    · exact hch.congr fun q hq => word_congr (hmem q fun hc => hnd.1 (hc ▸ hq))
    · refine h.own.take (s := .own s.free) hheap List.mem_cons_self (fun x q => ?_) fun q _ => ?_
      · rw [← hsame.holds (K := K) x]
        cases x with
        | own k =>
          simp only [Holds, And, Place.own.injEq]
          constructor
          · rintro ⟨h1 | h1, h2⟩
            · exact Or.inl ⟨h1, h2⟩
            · exact Or.inr ⟨h1, h2.trans h1⟩
          · rintro (⟨h1, h2⟩ | ⟨h1, h2⟩)
            · exact ⟨Or.inl h1, h2⟩
            · exact ⟨Or.inr h1, h2.trans h1.symm⟩
        | _ => simp [Holds]
      · rw [List.mem_cons]
        refine ⟨fun hq => ⟨Or.inr hq, ?_⟩, fun hq => hq.1.resolve_left hq.2⟩
        rintro rfl
        exact hnd.1 hq
    · intro d i j hd hi hj hp
      rw [hsame.pte d i j hd hi hj] at hp ⊢
      rw [hsame.pde d i hd hi]
      exact h.prot d i j hd hi hj hp

theorem Sound.kalloc_some (h : Sound s D K (p :: L)) : ∃ s', s.kalloc = some (p, s') := by
  have hp := (h.heap p List.mem_cons_self).1
  have h0 : s.free ≠ 0 := by
    rw [h.chain.1.1]
    rintro rfl
    exact absurd hp (by decide)
  unfold Vm.kalloc
  rw [if_neg h0, h.chain.1.1]
  exact ⟨_, rfl⟩

/-! ## Entries that are set -/

/-- One entry of a page directory is `v`, all others are the same, as are the page tables. -/
structure SetPde (s s' : Vm) (D : Nat → Prop) (d i v : Nat) : Prop where
  self : s'.word d i = v
  pde : ∀ e c, D e → 32 ≤ c ∧ c < 1024 → ¬ (e = d ∧ c = i) → s'.word e c = s.word e c
  pte : ∀ e c k, D e → 32 ≤ c ∧ c < 1024 → k < 1024 → s'.pte e c k = s.pte e c k

/-- One entry of a page table is `v`, all others are the same, as are the page directories. -/
structure SetPte (s s' : Vm) (D : Nat → Prop) (d i j v : Nat) : Prop where
  self : s'.pte d i j = v
  pde : ∀ e c, D e → 32 ≤ c ∧ c < 1024 → s'.word e c = s.word e c
  pte : ∀ e c k, D e → 32 ≤ c ∧ c < 1024 → k < 1024 → ¬ (e = d ∧ c = i ∧ k = j) → s'.pte e c k = s.pte e c k

theorem Sound.setWord_dir (h : Sound s D K L) (hd : D d) (hv : v < 2 ^ 32)
    (ht : ∀ j < 1024, s.pte d i j = if present v then s.word (pageFrame v) j else 0)
    (hvd : present v = true → pageFrame v ≠ d) :
    SetPde s (s.setWord d i v) D d i v := by
  have hpde : ∀ e c, ¬ (e = d ∧ c = i) → (s.setWord d i v).word e c = s.word e c := fun e c hec =>
    word_setWord_ne (by tauto)
  refine ⟨word_setWord_self hv, fun e c _ _ hec => hpde e c hec, fun e c k he hc hk => ?_⟩
  unfold Vm.pte
  by_cases hec : e = d ∧ c = i
  · obtain ⟨rfl, rfl⟩ := hec
    rw [word_setWord_self hv]
    have hold := ht k hk
    unfold Vm.pte at hold
    rw [hold]
    split
    · next hp => exact word_setWord_ne (Or.inl (hvd hp))
    · rfl
  · rw [hpde e c hec]
    split
    · next hp =>
      exact word_setWord_ne (Or.inl (h.table_ne_dir hd ⟨he, hc, hp, rfl⟩))
    · rfl

theorem Sound.setWord_table (h : Sound s D K L) (hd : D d) (hi : 32 ≤ i ∧ i < 1024) (hp : present (s.word d i) = true)
    (hv : v < 2 ^ 32) : SetPte s (s.setWord (pageFrame (s.word d i)) j v) D d i j v := by
  have ht : Holds s D K (.table d i) (pageFrame (s.word d i)) := ⟨hd, hi, hp, rfl⟩
  have hpde : ∀ e c, D e → (s.setWord (pageFrame (s.word d i)) j v).word e c = s.word e c := fun e c he =>
    word_setWord_ne (Or.inl (h.table_ne_dir he ht).symm)
  refine ⟨?_, fun e c he _ => hpde e c he, fun e c k he hc _ hne => ?_⟩
  · unfold Vm.pte
    rw [hpde d i hd, if_pos hp, word_setWord_self hv]
  · unfold Vm.pte
    rw [hpde e c he]
    split
    · next hpe =>
      refine word_setWord_ne ?_
      by_cases hec : e = d ∧ c = i
      · obtain ⟨rfl, rfl⟩ := hec
        exact Or.inr fun hk => hne ⟨rfl, rfl, hk⟩
      · refine Or.inl fun hc' => hec ?_
        have := h.own.inj (.table e c) (.table d i) _ ⟨he, hc, hpe, rfl⟩ (hc' ▸ ht)
        simp only [Place.table.injEq] at this
        exact this
    · rfl

theorem Chain.unique : ∀ {L L' : List Nat} {p : Nat}, Chain s p L → Chain s p L' → L = L'
  | [], [], _, _, _ => rfl
  | [], q :: L', p, h, h' => absurd (h'.1.1.symm.trans h) h'.1.2
  | q :: L, [], p, h, h' => absurd (h.1.1.symm.trans h') h.1.2
  | q :: L, q' :: L', p, h, h' => by
    obtain rfl : q = q' := h.1.1.symm.trans h'.1.1
    rw [h.2.unique h'.2]

theorem Sound.free_chain (h : Sound s D K L) (hx : ∃ x, Holds s D K x p) : Chain (s.setWord p j v) s.free L :=
  h.chain.congr fun q hq => word_setWord_ne (Or.inl (by
    rintro rfl
    obtain ⟨x, hx⟩ := hx
    exact h.own.not_free hx hq))

/-- More rights in an entry of a page directory. -/
theorem Sound.orPde (h : Sound s D K L) (hd : D d) (hi : 32 ≤ i ∧ i < 1024) (hp : present (s.word d i) = true)
    (hprot : prot < 8) :
    Sound (s.setWord d i (s.word d i ||| prot)) D K L ∧
      SetPde s (s.setWord d i (s.word d i ||| prot)) D d i (s.word d i ||| prot) := by
  have ht : Holds s D K (.table d i) (pageFrame (s.word d i)) := ⟨hd, hi, hp, rfl⟩
  have hset : SetPde s (s.setWord d i (s.word d i ||| prot)) D d i (s.word d i ||| prot) := by
    refine h.setWord_dir hd (or_lt word_lt hprot) (fun j _ => ?_) fun _ => ?_
    · unfold Vm.pte
      rw [present_or, hp, pageFrame_or hprot]
      rfl
    · rw [pageFrame_or hprot]
      exact h.table_ne_dir hd ht
  refine ⟨⟨h.free_chain ⟨.dir d, hd, rfl⟩, h.nodup, h.heap, ?_, fun e c k he hc hk hpe => ?_⟩, hset⟩
  · refine h.own.congr (fun x q => ?_) fun _ _ => Iff.rfl
    cases x with
    | dir e => exact Iff.rfl
    | own k => exact Iff.rfl
    | table e c =>
      refine and_congr_right fun he => and_congr_right fun hc => ?_
      by_cases hec : e = d ∧ c = i
      · obtain ⟨rfl, rfl⟩ := hec
        rw [hset.self, present_or, hp, pageFrame_or hprot]
        rfl
      · rw [hset.pde e c he hc hec]
    | frame e c k =>
      refine and_congr_right fun he => and_congr_right fun hc => and_congr_right fun hk => ?_
      rw [hset.pte e c k he hc hk]
  · rw [hset.pte e c k he hc hk] at hpe ⊢
    have hold := h.prot e c k he hc hk hpe
    by_cases hec : e = d ∧ c = i
    · obtain ⟨rfl, rfl⟩ := hec
      rw [hset.self, flags_or hprot]
      exact sub_or hold
    · rw [hset.pde e c he hc hec]
      exact hold

/-- A new page table. -/
theorem Sound.newTable (h : Sound s D (And K t) L) (hK : ¬ K t) (hz : ∀ j < 1024, s.word t j = 0) (hd : D d)
    (hi : 32 ≤ i ∧ i < 1024) (hp : present (s.word d i) = false) (hprot : prot < 8) :
    Sound (s.setWord d i (makeEntry t prot)) D K L ∧
    SetPde s (s.setWord d i (makeEntry t prot)) D d i (makeEntry t prot) := by
  have htd : t ≠ d := h.own_ne_dir hd (Or.inr rfl)
  have hheap : HeapPage t := h.own.range (.own t) t ⟨Or.inr rfl, rfl⟩
  have hlt : t < 2 ^ 20 := lt_of_lt_of_le hheap.2 (by decide)
  have hzero : ∀ j < 1024, s.pte d i j = 0 := fun j _ => by
    unfold Vm.pte
    rw [hp]
    rfl
  have hset : SetPde s (s.setWord d i (makeEntry t prot)) D d i (makeEntry t prot) := by
    refine h.setWord_dir hd (makeEntry_lt hlt hprot) (fun j hj => ?_) fun _ => ?_
    · rw [hzero j hj, makeEntry_present, makeEntry_frame hprot, if_pos rfl, hz j hj]
    · rw [makeEntry_frame hprot]
      exact htd
  refine ⟨⟨h.free_chain ⟨.dir d, hd, rfl⟩, h.nodup, h.heap, ?_, fun e c k he hc hk hpe => ?_⟩, hset⟩
  · refine h.own.move (s := .own t) (u := .table d i) (r := t) (fun q => ⟨fun hq => hq.2, fun hq => ⟨Or.inr rfl, hq⟩⟩)
      fun x q => ?_
    cases x with
    | dir e => simp [Holds]
    | own k =>
      simp only [Holds, reduceCtorEq, false_and, or_false]
      exact own_and hK
    | table e c =>
      by_cases hec : e = d ∧ c = i
      · obtain ⟨rfl, rfl⟩ := hec
        simp only [Holds, hset.self, makeEntry_present, makeEntry_frame hprot, hp]
        simp only [Bool.false_eq_true, false_and, and_false, false_or, true_and]
        exact ⟨fun hq => hq.2.2.symm, fun hq => ⟨hd, hi, hq.symm⟩⟩
      · have hne : (Place.table e c = Place.table d i) = False := by simp only [Place.table.injEq, hec]
        simp only [Holds, hne, false_and, or_false, ne_eq, reduceCtorEq, not_false_eq_true, and_true]
        refine and_congr_right fun he => and_congr_right fun hc => ?_
        rw [hset.pde e c he hc hec]
    | frame e c k =>
      simp only [Holds, ne_eq, reduceCtorEq, not_false_eq_true, and_true, false_and, or_false]
      refine and_congr_right fun he => and_congr_right fun hc => and_congr_right fun hk => ?_
      rw [hset.pte e c k he hc hk]
  · rw [hset.pte e c k he hc hk] at hpe ⊢
    by_cases hec : e = d ∧ c = i
    · obtain ⟨rfl, rfl⟩ := hec
      rw [hzero k hk] at hpe
      cases hpe
    · rw [hset.pde e c he hc hec]
      exact h.prot e c k he hc hk hpe

/-- A new frame, with no more rights than the directory entry grants. -/
theorem Sound.newFrame (h : Sound s D (And K q) L) (hK : ¬ K q) (hd : D d) (hi : 32 ≤ i ∧ i < 1024) (hj : j < 1024)
    (hp : present (s.word d i) = true) (hpt : present (s.pte d i j) = false) (hprot : prot < 8)
    (hsub : (prot ||| pteP) &&& s.word d i % 8 = prot ||| pteP) :
    Sound (s.setWord (pageFrame (s.word d i)) j (makeEntry q prot)) D K L ∧
      SetPte s (s.setWord (pageFrame (s.word d i)) j (makeEntry q prot)) D d i j (makeEntry q prot) := by
  have hheap : HeapPage q := h.own.range (.own q) q ⟨Or.inr rfl, rfl⟩
  have hlt : q < 2 ^ 20 := lt_of_lt_of_le hheap.2 (by decide)
  have ht : Holds s D (And K q) (.table d i) (pageFrame (s.word d i)) := ⟨hd, hi, hp, rfl⟩
  have hset : SetPte s (s.setWord (pageFrame (s.word d i)) j (makeEntry q prot)) D d i j (makeEntry q prot) :=
    h.setWord_table hd hi hp (makeEntry_lt hlt hprot)
  refine ⟨⟨h.free_chain ⟨_, ht⟩, h.nodup, h.heap, ?_, fun e c k he hc hk hpe => ?_⟩, hset⟩
  · refine h.own.move (s := .own q) (u := .frame d i j) (r := q) (fun r => ⟨fun hr => hr.2, fun hr => ⟨Or.inr rfl, hr⟩⟩)
      fun x r => ?_
    cases x with
    | dir e => simp [Holds]
    | own k =>
      simp only [Holds, reduceCtorEq, false_and, or_false]
      exact own_and hK
    | table e c =>
      simp only [Holds, ne_eq, reduceCtorEq, not_false_eq_true, and_true, false_and, or_false]
      refine and_congr_right fun he => and_congr_right fun hc => ?_
      rw [hset.pde e c he hc]
    | frame e c k =>
      by_cases hec : e = d ∧ c = i ∧ k = j
      · obtain ⟨rfl, rfl, rfl⟩ := hec
        simp only [Holds, hset.self, makeEntry_present, makeEntry_frame hprot, hpt]
        simp only [Bool.false_eq_true, false_and, and_false, false_or, true_and]
        exact ⟨fun hr => hr.2.2.2.symm, fun hr => ⟨hd, hi, hj, hr.symm⟩⟩
      · have hne : (Place.frame e c k = Place.frame d i j) = False := by simp only [Place.frame.injEq, hec]
        simp only [Holds, hne, false_and, or_false, ne_eq, reduceCtorEq, not_false_eq_true, and_true]
        refine and_congr_right fun he => and_congr_right fun hc => and_congr_right fun hk => ?_
        rw [hset.pte e c k he hc hk hec]
  · rw [hset.pde e c he hc]
    by_cases hec : e = d ∧ c = i ∧ k = j
    · obtain ⟨rfl, rfl, rfl⟩ := hec
      rw [hset.self, makeEntry_flags hprot]
      exact hsub
    · rw [hset.pte e c k he hc hk hec] at hpe ⊢
      exact h.prot e c k he hc hk hpe

/-- More rights in an entry of a page table. -/
theorem Sound.orPte (h : Sound s D K L) (hd : D d) (hi : 32 ≤ i ∧ i < 1024) (hj : j < 1024)
    (hp : present (s.word d i) = true) (hpt : present (s.pte d i j) = true) (hprot : prot < 8)
    (hsub : prot &&& s.word d i % 8 = prot) :
    Sound (s.setWord (pageFrame (s.word d i)) j (s.pte d i j ||| prot)) D K L ∧
      SetPte s (s.setWord (pageFrame (s.word d i)) j (s.pte d i j ||| prot)) D d i j (s.pte d i j ||| prot) := by
  have ht : Holds s D K (.table d i) (pageFrame (s.word d i)) := ⟨hd, hi, hp, rfl⟩
  have hlt : s.pte d i j < 2 ^ 32 := by
    unfold Vm.pte
    rw [if_pos hp]
    exact word_lt
  have hset : SetPte s (s.setWord (pageFrame (s.word d i)) j (s.pte d i j ||| prot)) D d i j (s.pte d i j ||| prot) :=
    h.setWord_table hd hi hp (or_lt hlt hprot)
  refine ⟨⟨h.free_chain ⟨_, ht⟩, h.nodup, h.heap, ?_, fun e c k he hc hk hpe => ?_⟩, hset⟩
  · refine h.own.congr (fun x r => ?_) fun _ _ => Iff.rfl
    cases x with
    | dir e => exact Iff.rfl
    | own k => exact Iff.rfl
    | table e c =>
      refine and_congr_right fun he => and_congr_right fun hc => ?_
      rw [hset.pde e c he hc]
    | frame e c k =>
      refine and_congr_right fun he => and_congr_right fun hc => and_congr_right fun hk => ?_
      by_cases hec : e = d ∧ c = i ∧ k = j
      · obtain ⟨rfl, rfl, rfl⟩ := hec
        -- the rights change, the frame does not
        rw [hset.self, present_or, hpt, pageFrame_or hprot]
        rfl
      · rw [hset.pte e c k he hc hk hec]
  · rw [hset.pde e c he hc]
    by_cases hec : e = d ∧ c = i ∧ k = j
    · obtain ⟨rfl, rfl, rfl⟩ := hec
      rw [hset.self, flags_or hprot]
      exact or_sub (h.prot e c k hd hi hj hpt) hsub
    · rw [hset.pte e c k he hc hk hec] at hpe ⊢
      exact h.prot e c k he hc hk hpe

end TinyOS.Vm
