/-
One page mapped: the entries of both levels after `vm_walkpte` and one turn of the loop of `vm_map`,
and which pages of memory stay as they are.
-/
import TinyOS.Vm.Space

namespace TinyOS.Vm

open TinyOS.Lib

variable {s s' : Vm} {D K : Nat → Prop} {L : List Nat} {d e i j k p q t v va prot : Nat}

/-! ## What stays -/

/-- Pages that were not free, and are neither the directory `d` nor its page tables, are as they were. -/
structure Stays (s s' : Vm) (D K : Nat → Prop) (L : List Nat) (d : Nat) : Prop where
  mem : ∀ q, q ∉ L → q ≠ d → (∀ c, ¬ Holds s D K (.table d c) q) → s'.mem q = s.mem q
  cr3 : s'.cr3 = s.cr3
  kpt : s'.kpt = s.kpt

theorem Stays.refl : Stays s s D K L d := ⟨fun _ _ _ _ => rfl, rfl, rfl⟩

/-- The content of a page that an entry refers to. -/
theorem Stays.frame (h : Stays s s' D K L d) (hs : Sound s D K L) (hd : D d) (hx : Holds s D K (.frame e i j) q) :
    s'.mem q = s.mem q := by
  refine h.mem q (hs.own.not_free hx) (fun hq => ?_) fun c ht => ?_
  · subst hq
    cases hs.own.inj _ (.dir q) q hx ⟨hd, rfl⟩
  · cases hs.own.inj _ _ q hx ht

theorem or_one (h : prot.testBit 0 = true) : prot ||| pteP = prot := by
  refine Nat.eq_of_testBit_eq fun n => ?_
  rw [Nat.testBit_or]
  cases n with
  | zero => rw [h]; rfl
  | succ n => rw [Nat.testBit_succ (x := 1)]; simp

theorem makeEntry_odd (h : prot < 8) (ho : prot.testBit 0 = true) : makeEntry p prot % 8 = prot := by
  rw [makeEntry_flags h, or_one ho]

/-! ## The page table of an address -/

theorem walkpte_zero : s.walkpte d va 0 = some (if present (s.word d (addr2dir va))
    then some (pageFrame (s.word d (addr2dir va)), addr2tbl va) else none, s) := by
  unfold walkpte
  cases hp : present (s.word d (addr2dir va)) <;> simp [hp]

/-- There is a page table for the address, whose directory entry grants what is asked for. -/
structure Tabled (s s' : Vm) (D K : Nat → Prop) (L L' : List Nat) (d i prot : Nat) : Prop where
  sound : Sound s' D K L'
  present : present (s'.word d i) = true
  grants : prot &&& s'.word d i % 8 = prot
  set : SetPde s s' D d i (s'.word d i)
  stays : Stays s s' D K L d
  fresh : ∀ p, Holds s' D K (.table d i) p → Holds s D K (.table d i) p ∨ p ∈ L
  sub : ∀ p ∈ L', p ∈ L
  used : L.length = L'.length + (!Vm.present (s.word d i)).toNat

theorem Sound.walkpte (h : Sound s D K L) (hd : D d) (hi : 32 ≤ addr2dir va ∧ addr2dir va < 1024)
    (ho : prot.testBit 0 = true) {r : Option (Nat × Nat)} (he : s.walkpte d va prot = some (r, s')) :
    prot < 8 ∧ r = some (pageFrame (s'.word d (addr2dir va)), addr2tbl va) ∧ ∃ L',
    Tabled s s' D K L L' d (addr2dir va) prot := by
  have h0 : prot ≠ 0 := by
    rintro rfl
    cases ho
  unfold Vm.walkpte at he
  cases hp : present (s.word d (addr2dir va)) with
  | false =>
    simp only [hp, ho, Bool.not_false, Bool.and_self, if_true] at he
    obtain ⟨⟨t, s₁⟩, hk, he⟩ := Option.bind_eq_some_iff.1 he
    simp only at he
    split at he
    · next hprot =>
      cases he
      obtain ⟨L', rfl, hK, h₁, hsame, hz, hmem, hcr, hkpt⟩ := h.kalloc hk
      have hp₁ : present (s₁.word d (addr2dir va)) = false := by rw [hsame.pde d _ hd hi]; exact hp
      obtain ⟨h₂, hset⟩ := h₁.newTable hK (fun j hj => word_zero hz hj) hd hi hp₁ hprot
      refine ⟨hprot, by rw [hset.self, makeEntry_frame hprot], L', h₂, ?_, ?_, ?_, ⟨fun q hq hqd _ => ?_, hcr, hkpt⟩,
        fun p hp' => Or.inr ?_, fun p hp' => List.mem_cons_of_mem _ hp', by rw [hp, List.length_cons]; rfl⟩
      · rw [hset.self, makeEntry_present]
      · rw [hset.self, makeEntry_odd hprot ho, Nat.and_self]
      · rw [hset.self]
        exact ⟨hset.self, fun e c he hc hec => by rw [hset.pde e c he hc hec, hsame.pde e c he hc],
          fun e c k he hc hk => by rw [hset.pte e c k he hc hk, hsame.pte e c k he hc hk]⟩
      · rw [setWord_mem hqd, hmem q fun hc => hq (hc ▸ List.mem_cons_self)]
      · obtain ⟨-, -, -, hf⟩ := hp'
        rw [hset.self, makeEntry_frame hprot] at hf
        exact hf ▸ List.mem_cons_self
    · cases he
  | true =>
    simp only [hp, Bool.not_true, Bool.false_and, Bool.false_eq_true, if_false, if_pos h0, ne_eq] at he
    split at he
    · next hprot =>
      cases he
      obtain ⟨h₂, hset⟩ := h.orPde hd hi hp hprot
      refine ⟨hprot, rfl, L, h₂, ?_, ?_, ?_, ⟨fun q _ hqd _ => setWord_mem hqd, rfl, rfl⟩,
        fun p hp' => Or.inl ?_, fun p hp' => hp', by rw [hp]; rfl⟩
      · rw [hset.self, present_or, hp, Bool.true_or]
      · rw [hset.self, flags_or hprot, Nat.or_comm]
        exact sub_or (Nat.and_self prot)
      · rw [hset.self]
        exact hset
      · obtain ⟨-, -, -, hf⟩ := hp'
        rw [hset.self, pageFrame_or hprot] at hf
        exact ⟨hd, hi, hp, hf⟩
    · cases he

/-! ## One page -/

/-- Page `j` of part `i` of the address space of `d` is mapped with the rights `prot`, nothing else. -/
structure Mapped (s s' : Vm) (D K : Nat → Prop) (L L' : List Nat) (d i j prot : Nat) : Prop where
  sound : Sound s' D K L'
  dir : present (s'.word d i) = true
  pde : ∀ e c, D e → 32 ≤ c ∧ c < 1024 → ¬ (e = d ∧ c = i) → s'.word e c = s.word e c
  pte : ∀ e c k, D e → 32 ≤ c ∧ c < 1024 → k < 1024 → ¬ (e = d ∧ c = i ∧ k = j) → s'.pte e c k = s.pte e c k
  old : present (s.pte d i j) = true → s'.pte d i j = s.pte d i j ||| prot
  new : present (s.pte d i j) = false → ∃ q ∈ L, s'.pte d i j = makeEntry q prot ∧ ∀ o < pgsize, s'.mem q o = 0
  stays : Stays s s' D K L d
  fresh : ∀ x p, Holds s' D K x p → Holds s D K x p ∨ p ∈ L
  sub : ∀ p ∈ L', p ∈ L
  used : L.length = L'.length + (!present (s.word d i)).toNat + (!present (s.pte d i j)).toNat

theorem addr2tbl_lt : addr2tbl va < 1024 := Nat.mod_lt _ (by decide)

theorem fresh_of {L : List Nat} (hpde : ∀ e c, D e → 32 ≤ c ∧ c < 1024 → ¬ (e = d ∧ c = i) → s'.word e c = s.word e c)
    (hpte : ∀ e c k, D e → 32 ≤ c ∧ c < 1024 → k < 1024 → ¬ (e = d ∧ c = i ∧ k = j) → s'.pte e c k = s.pte e c k)
    (ht : ∀ p, Holds s' D K (.table d i) p → Holds s D K (.table d i) p ∨ p ∈ L)
    (hf : ∀ p, Holds s' D K (.frame d i j) p → Holds s D K (.frame d i j) p ∨ p ∈ L) (x : Place) (p : Nat)
    (hx : Holds s' D K x p) : Holds s D K x p ∨ p ∈ L := by
  cases x with
  | dir e => exact Or.inl hx
  | own k => exact Or.inl hx
  | table e c =>
    by_cases hec : e = d ∧ c = i
    · obtain ⟨rfl, rfl⟩ := hec
      exact ht p hx
    · obtain ⟨he, hc, h1, h2⟩ := hx
      rw [hpde e c he hc hec] at h1 h2
      exact Or.inl ⟨he, hc, h1, h2⟩
  | frame e c k =>
    by_cases hec : e = d ∧ c = i ∧ k = j
    · obtain ⟨rfl, rfl, rfl⟩ := hec
      exact hf p hx
    · obtain ⟨he, hc, hk, h1, h2⟩ := hx
      rw [hpte e c k he hc hk hec] at h1 h2
      exact Or.inl ⟨he, hc, hk, h1, h2⟩

theorem Sound.mapPage (h : Sound s D K L) (hd : D d) (hi : 32 ≤ addr2dir va ∧ addr2dir va < 1024)
    (ho : prot.testBit 0 = true) (he : s.mapPage d va prot = some s') :
    prot < 8 ∧ ∃ L', Mapped s s' D K L L' d (addr2dir va) (addr2tbl va) prot := by
  unfold Vm.mapPage at he
  obtain ⟨⟨r, s₁⟩, hw, he⟩ := Option.bind_eq_some_iff.1 he
  obtain ⟨hprot, rfl, L₁, ht⟩ := h.walkpte hd hi ho hw
  have hj : addr2tbl va < 1024 := addr2tbl_lt
  refine ⟨hprot, ?_⟩
  have hpte : s₁.word (pageFrame (s₁.word d (addr2dir va))) (addr2tbl va) = s₁.pte d (addr2dir va) (addr2tbl va) := by
    unfold Vm.pte
    rw [if_pos ht.present]
  have hsame := ht.set.pte d (addr2dir va) (addr2tbl va) hd hi hj
  simp only [Option.bind_eq_bind, Option.bind_some, hpte] at he
  -- a page that was neither free nor a table is not the table now
  have htable : ∀ q, q ∉ L → (∀ c, ¬ Holds s D K (.table d c) q) → q ≠ pageFrame (s₁.word d (addr2dir va)) := by
    rintro q hq hqt rfl
    rcases ht.fresh _ ⟨hd, hi, ht.present, rfl⟩ with hc | hc
    · exact hqt _ hc
    · exact hq hc
  cases hp : present (s₁.pte d (addr2dir va) (addr2tbl va)) with
  | false =>
    simp only [hp, Bool.not_false, if_true] at he
    obtain ⟨⟨q, s₂⟩, hk, he⟩ := Option.bind_eq_some_iff.1 he
    cases he
    obtain ⟨L₂, hL, hK, h₂, hent, hz, hmem, hcr, hkpt⟩ := ht.sound.kalloc hk
    have hpde₂ := hent.pde d _ hd hi
    have hpte₂ := hent.pte d _ _ hd hi hj
    have hp₂ : present (s₂.word d (addr2dir va)) = true := by rw [hpde₂]; exact ht.present
    obtain ⟨h₃, hset⟩ := h₂.newFrame hK hd hi hj hp₂ (by rw [hpte₂]; exact hp) hprot
      (by rw [hpde₂, or_one ho]; exact ht.grants)
    rw [hpde₂] at h₃ hset
    have hqL : q ∈ L := ht.sub q (hL ▸ List.mem_cons_self)
    have hqt : q ≠ pageFrame (s₁.word d (addr2dir va)) := by
      rw [← hpde₂]
      exact h₂.own_ne_table (Or.inr rfl) ⟨hd, hi, hp₂, rfl⟩
    have hpde : ∀ e c, D e → 32 ≤ c ∧ c < 1024 →
        (s₂.setWord (pageFrame (s₁.word d (addr2dir va))) (addr2tbl va) (makeEntry q prot)).word e c = s₁.word e c :=
      fun e c he hc => by rw [hset.pde e c he hc, hent.pde e c he hc]
    refine ⟨L₂, h₃, by rw [hpde d _ hd hi]; exact ht.present, fun e c he hc hec => ?_, fun e c k he hc hk hec => ?_,
      fun hc => ?_, fun _ => ⟨q, hqL, hset.self, fun o ho => ?_⟩, ⟨fun r hr hrd hrt => ?_, ?_, ?_⟩, ?_,
      fun p hp => ht.sub p (hL ▸ List.mem_cons_of_mem _ hp), ?_⟩
    · rw [hpde e c he hc, ht.set.pde e c he hc hec]
    · rw [hset.pte e c k he hc hk hec, hent.pte e c k he hc hk, ht.set.pte e c k he hc hk]
    · rw [← hsame, hp] at hc
      cases hc
    · rw [setWord_mem hqt]
      exact hz o ho
    · rw [setWord_mem (htable r hr hrt), hmem r (fun hc => hr (hc ▸ hqL)), ht.stays.mem r hr hrd hrt]
    · exact hcr.trans ht.stays.cr3
    · exact hkpt.trans ht.stays.kpt
    · refine fresh_of (fun e c he hc hec => by rw [hpde e c he hc, ht.set.pde e c he hc hec])
        (fun e c k he hc hk hec => by rw [hset.pte e c k he hc hk hec, hent.pte e c k he hc hk,
          ht.set.pte e c k he hc hk])
        (fun p hx => ?_) fun p hx => Or.inr ?_
      · obtain ⟨h1, h2, h3, h4⟩ := hx
        rw [hpde d _ hd hi] at h3 h4
        exact ht.fresh p ⟨h1, h2, h3, h4⟩
      · obtain ⟨-, -, -, -, hf⟩ := hx
        rw [hset.self, makeEntry_frame hprot] at hf
        exact hf ▸ hqL
    · rw [← hsame, hp, ht.used, hL, List.length_cons]
      show L₂.length + 1 + _ = L₂.length + _ + 1
      omega
  | true =>
    simp only [hp, Bool.not_true, Bool.false_eq_true, if_false] at he
    cases he
    obtain ⟨h₃, hset⟩ := ht.sound.orPte hd hi hj ht.present hp hprot ht.grants
    refine ⟨L₁, h₃, by rw [hset.pde d _ hd hi]; exact ht.present, fun e c he hc hec => ?_, fun e c k he hc hk hec => ?_,
      fun _ => ?_, fun hc => ?_, ⟨fun r hr hrd hrt => ?_, ht.stays.cr3, ht.stays.kpt⟩, ?_, ht.sub, ?_⟩
    · rw [hset.pde e c he hc, ht.set.pde e c he hc hec]
    · rw [hset.pte e c k he hc hk hec, ht.set.pte e c k he hc hk]
    · rw [hset.self, hsame]
    · rw [← hsame, hp] at hc
      cases hc
    · rw [setWord_mem (htable r hr hrt), ht.stays.mem r hr hrd hrt]
    · refine fresh_of (fun e c he hc hec => by rw [hset.pde e c he hc, ht.set.pde e c he hc hec])
        (fun e c k he hc hk hec => by rw [hset.pte e c k he hc hk hec, ht.set.pte e c k he hc hk])
        (fun p hx => ?_) fun p hx => Or.inl ?_
      · obtain ⟨h1, h2, h3, h4⟩ := hx
        rw [hset.pde d _ hd hi] at h3 h4
        exact ht.fresh p ⟨h1, h2, h3, h4⟩
      · obtain ⟨h1, h2, h3, -, hf⟩ := hx
        rw [hset.self, pageFrame_or hprot, hsame] at hf
        exact ⟨h1, h2, h3, hsame ▸ hp, hf⟩
    · rw [← hsame, hp, ht.used]
      rfl

/-! ## Enough pages -/

theorem Sound.walkpte_some (h : Sound s D K L) (ho : prot.testBit 0 = true) (hprot : prot < 8)
    (hroom : (!present (s.word d (addr2dir va))).toNat ≤ L.length) : ∃ r s', s.walkpte d va prot = some (r, s') := by
  unfold Vm.walkpte
  cases hp : present (s.word d (addr2dir va)) with
  | false =>
    rw [hp] at hroom
    cases L with
    | nil => exact absurd hroom (by decide)
    | cons p L =>
      obtain ⟨s', hk⟩ := h.kalloc_some
      simp only [hp, ho, Bool.not_false, Bool.and_self, if_true, hk, Option.bind_eq_bind, Option.bind_some,
        if_pos hprot]
      exact ⟨_, _, rfl⟩
  | true =>
    simp only [hp, Bool.not_true, Bool.false_and, Bool.false_eq_true, if_false, if_pos hprot]
    exact ⟨_, _, rfl⟩

theorem Sound.mapPage_some (h : Sound s D K L) (hd : D d) (hi : 32 ≤ addr2dir va ∧ addr2dir va < 1024)
    (ho : prot.testBit 0 = true) (hprot : prot < 8)
    (hroom : (!present (s.word d (addr2dir va))).toNat + (!present (s.pte d (addr2dir va) (addr2tbl va))).toNat ≤
    L.length) :
    ∃ s', s.mapPage d va prot = some s' := by
  have hwalk : ∃ r s₁, s.walkpte d va prot = some (r, s₁) := h.walkpte_some ho hprot (by omega)
  obtain ⟨r, s₁, hw⟩ := hwalk
  obtain ⟨-, rfl, L₁, ht⟩ := h.walkpte hd hi ho hw
  have hpte : s₁.word (pageFrame (s₁.word d (addr2dir va))) (addr2tbl va) = s₁.pte d (addr2dir va) (addr2tbl va) := by
    unfold Vm.pte
    rw [if_pos ht.present]
  have hsame := ht.set.pte d (addr2dir va) (addr2tbl va) hd hi addr2tbl_lt
  unfold Vm.mapPage
  simp only [hw, Option.bind_eq_bind, Option.bind_some, hpte]
  cases hp : present (s₁.pte d (addr2dir va) (addr2tbl va)) with
  | false =>
    rw [← hsame, hp, ht.used] at hroom
    cases L₁ with
    | nil =>
      simp only [List.length_nil, Bool.not_false, Bool.toNat_true] at hroom
      omega
    | cons q L₁ =>
      obtain ⟨s₂, hk⟩ := ht.sound.kalloc_some
      simp only [Bool.not_false, if_true, hk, Option.bind_some]
      exact ⟨_, rfl⟩
  | true =>
    simp only [Bool.not_true, Bool.false_eq_true, if_false]
    exact ⟨_, rfl⟩

/-! ## Pages one by one -/

theorem mapPages_succ {n : Nat} : mapPages d prot (v * pgsize) (n + 1) s = some s' ↔
    ∃ s₁, s.mapPage d (v * pgsize) prot = some s₁ ∧ mapPages d prot ((v + 1) * pgsize) n s₁ = some s' := by
  rw [Nat.succ_mul]
  exact Option.bind_eq_some_iff

theorem unmapPages_succ {n : Nat} : unmapPages d (v * pgsize) (n + 1) s = some s' ↔
    ∃ s₁, s.unmapPage d (v * pgsize) = some s₁ ∧ unmapPages d ((v + 1) * pgsize) n s₁ = some s' := by
  rw [Nat.succ_mul]
  exact Option.bind_eq_some_iff

end TinyOS.Vm
