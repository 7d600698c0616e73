/-
A ledger of the pages that each page directory gets and gives back, over every run of operations on
any number of directories: what a directory has is what it got and has not given back.
-/
import TinyOS.Lib.Run
import TinyOS.Vm.View

namespace TinyOS.Vm

open TinyOS.Lib

variable {s s' : Vm} {D D' K : Nat → Prop} {L L' : List Nat} {d e p q n va prot kpd kpt : Nat} {mem : Nat → Store}

/-! ## The free list -/

/-- The pages that are on the free list of `s` and not on that of `s'`. -/
def taken (s s' : Vm) : List Nat := s.freeList.filter fun p => p ∉ s'.freeList

theorem count_taken (h : Sound s D K L) (h' : Sound s' D' K L') :
    (taken s s').count p = if p ∈ L ∧ p ∉ L' then 1 else 0 := by
  unfold taken
  rw [h.freeList, h'.freeList]
  by_cases hp : p ∈ L'
  · rw [if_neg (fun hc => hc.2 hp), List.count_eq_zero]
    intro hc
    exact (of_decide_eq_true (List.mem_filter.1 hc).2) hp
  · have hcount : (L.filter fun p => p ∉ L').count p = L.count p := List.count_filter (decide_eq_true hp)
    rw [hcount, h.nodup.count]
    simp only [hp, not_false_eq_true, and_true]

/-! ## What a directory has -/

/-- The directory page, its page tables, and the pages that are mapped in it. -/
def Has (s : Vm) (d p : Nat) : Prop :=
  p = d ∨ (∃ i, (32 ≤ i ∧ i < 1024) ∧ present (s.word d i) = true ∧ pageFrame (s.word d i) = p) ∨
    ∃ i j, (32 ≤ i ∧ i < 1024) ∧ j < 1024 ∧ present (s.pte d i j) = true ∧ pageFrame (s.pte d i j) = p

theorem pagesOf_iff (hd : D d) : PagesOf s D K d (fun _ => True) p ↔ Has s d p := by
  constructor
  · rintro ⟨x, hx, -, h⟩
    cases x with
    | own k => cases hx
    | dir e => exact hx ▸ Or.inl h.2
    | table e i =>
      obtain rfl : e = d := hx
      exact Or.inr (Or.inl ⟨i, h.2.1, h.2.2⟩)
    | frame e i j =>
      obtain rfl : e = d := hx
      exact Or.inr (Or.inr ⟨i, j, h.2.1, h.2.2⟩)
  · rintro (h | ⟨i, hi, h⟩ | ⟨i, j, hi, hj, h⟩)
    · exact ⟨.dir d, rfl, trivial, hd, h⟩
    · exact ⟨.table d i, rfl, trivial, hd, hi, h⟩
    · exact ⟨.frame d i j, rfl, trivial, hd, hi, hj, h⟩

/-- Where all other owners keep what they have, the pages of `d` come from the free list and go to it. -/
theorem pagesOf_exchange (h : Sound s D K L) (h' : Sound s' D' K L')
    (hx : ∀ x p, ¬ Place.Of d x → (Holds s' D' K x p ↔ Holds s D K x p)) :
    (PagesOf s' D' K d (fun _ => True) p ↔ (PagesOf s D K d (fun _ => True) p ∨ p ∈ L) ∧ p ∉ L') ∧
      (p ∉ L → p ∈ L' → PagesOf s D K d (fun _ => True) p) ∧ (p ∈ L → ¬ PagesOf s D K d (fun _ => True) p) := by
  have hfree : ∀ {s : Vm} {D : Nat → Prop} {L : List Nat}, Sound s D K L → PagesOf s D K d (fun _ => True) p → p ∉ L :=
    fun h ⟨_, _, _, hp⟩ => h.own.not_free hp
  -- a page that is not free belongs to `d` or to someone whose pages stay
  have hheld : ∀ {s : Vm} {D : Nat → Prop} {L : List Nat}, Sound s D K L → HeapPage p → p ∉ L →
      PagesOf s D K d (fun _ => True) p ∨ ∃ x, ¬ Place.Of d x ∧ Holds s D K x p := fun h hp hn => by
    obtain ⟨x, hxp⟩ := h.own.held hp hn
    by_cases hof : x.Of d
    · exact Or.inl ⟨x, hof, trivial, hxp⟩
    · exact Or.inr ⟨x, hof, hxp⟩
  refine ⟨⟨fun hp => ⟨?_, hfree h' hp⟩, ?_⟩, fun hn hp => ?_, fun hp hc => hfree h hc hp⟩
  · by_contra hc
    obtain ⟨y, hy, -, hyp⟩ := hp
    rcases hheld h (h'.own.range _ _ hyp) (fun hL => hc (Or.inr hL)) with hold | ⟨x, hof, hxp⟩
    · exact hc (Or.inl hold)
    · exact hof (h'.own.inj y x p hyp ((hx x p hof).2 hxp) ▸ hy)
  · rintro ⟨hp, hn⟩
    have hheap : HeapPage p := by
      rcases hp with ⟨y, -, -, hyp⟩ | hL
      · exact h.own.range _ _ hyp
      · exact h.heap p hL
    rcases hheld h' hheap hn with hnew | ⟨x, hof, hxp⟩
    · exact hnew
    · have hxs := (hx x p hof).1 hxp
      rcases hp with ⟨y, hy, -, hyp⟩ | hL
      · exact absurd (h.own.inj y x p hyp hxs ▸ hy) hof
      · exact absurd hL (h.own.not_free hxs)
  · rcases hheld h (h'.heap p hp) hn with hold | ⟨x, hof, hxp⟩
    · exact hold
    · exact absurd hp (h'.own.not_free ((hx x p hof).2 hxp))

/-! ## The ledger -/

/-- The memory and the page directories in use, with the pages that left the free list in operations on
each directory since it was allocated, and those that came back. -/
structure Ledger where
  vm : Vm
  dirs : Nat → Prop
  got : Nat → List Nat
  gave : Nat → List Nat

/-- The operations; `alloc` names the page of the new directory. -/
inductive Op where
  | alloc (d : Nat)
  | map (d va len prot : Nat)
  | unmap (d va len : Nat)
  | walkpte (d va prot : Nat)
  | walk (d va prot : Nat)
  | copycurr (d : Nat)
  | teardown (d : Nat)
  | setCr3 (d : Nat)

/-- The operations on a directory that stays in use, which they name. -/
def Op.use (s : Vm) : Op → Option (Nat × Vm)
  | .map d va len prot => (s.vmMap d va len prot).map fun s' => (d, s')
  | .unmap d va len => (s.vmUnmap d va len).map fun s' => (d, s')
  | .walkpte d va prot => (s.walkpte d va prot).map fun r => (d, r.2)
  | .walk d va prot => (s.walk d va prot).map fun r => (d, r.2)
  | .copycurr d => (s.vmCopycurr d).map fun s' => (d, s')
  | .setCr3 d => some (d, { s with cr3 := d })
  | _ => none

/-- Addresses have 32 bits, and what is unmapped is not the kernel's. -/
def Op.Fits : Op → Prop
  | .unmap _ va _ => phyMem ≤ va
  | .walkpte _ va _ => va < 2 ^ 32
  | .walk _ va _ => va < 2 ^ 32
  | _ => True

namespace Ledger

/-- What an operation on `d` enters in the ledger. -/
def enter (l : Ledger) (d : Nat) (s' : Vm) (dirs : Nat → Prop) : Ledger where
  vm := s'
  dirs := dirs
  got := Function.update l.got d (l.got d ++ taken l.vm s')
  gave := Function.update l.gave d (l.gave d ++ taken s' l.vm)

/-- The page of a new directory. -/
def clear (l : Ledger) (d : Nat) : Ledger :=
  { l with got := Function.update l.got d [], gave := Function.update l.gave d [] }

inductive Step (l : Ledger) : Op → Ledger → Prop
  | alloc {d : Nat} {s' : Vm} : l.vm.vmAlloc = some (d, s') → Step l (.alloc d) ((l.clear d).enter d s' (And l.dirs d))
  | use {op : Op} {d : Nat} {s' : Vm} : op.Fits → op.use l.vm = some (d, s') → l.dirs d →
      Step l op (l.enter d s' l.dirs)
  | teardown {d : Nat} {s' : Vm} : l.dirs d → l.vm.vmTeardown d = some s' →
      Step l (.teardown d) (l.enter d s' (Without l.dirs d))

/-- Memory after `init_page`. -/
def start (mem : Nat → Store) (kpd kpt : Nat) : Ledger :=
  ⟨initPage mem kpd kpt, fun _ => False, fun _ => [], fun _ => []⟩

/-- A page that `d` has was got once more than it was given back, any other page as often. -/
def Even (l : Ledger) (d p : Nat) : Prop :=
  (PagesOf l.vm l.dirs (fun _ => False) d (fun _ => True) p → (l.got d).count p = (l.gave d).count p + 1) ∧
    (¬ PagesOf l.vm l.dirs (fun _ => False) d (fun _ => True) p → (l.got d).count p = (l.gave d).count p)

structure Inv (l : Ledger) : Prop where
  sound : ∃ L, Sound l.vm l.dirs (fun _ => False) L
  low : ∀ d c, l.dirs d → c < 32 → present (l.vm.word d c) = true
  kpt : l.vm.kpt + 32 ≤ kerPage
  even : ∀ d p, l.dirs d → l.Even d p

theorem Even.enter {l : Ledger} (h : l.Even d p) (hs : Sound l.vm l.dirs (fun _ => False) L)
    (hs' : Sound s' D' (fun _ => False) L')
    (hx : ∀ x p, ¬ Place.Of d x → (Holds s' D' (fun _ => False) x p ↔ Holds l.vm l.dirs (fun _ => False) x p)) :
    (l.enter d s' D').Even d p := by
  obtain ⟨h1, h2, h3⟩ := pagesOf_exchange (p := p) hs hs' hx
  obtain ⟨hin, hout⟩ := h
  have hgot : ((l.enter d s' D').got d).count p = (l.got d).count p + if p ∈ L ∧ p ∉ L' then 1 else 0 := by
    show (Function.update l.got d _ d).count p = _
    rw [Function.update_self, List.count_append, count_taken hs hs']
  have hgave : ((l.enter d s' D').gave d).count p = (l.gave d).count p + if p ∈ L' ∧ p ∉ L then 1 else 0 := by
    show (Function.update l.gave d _ d).count p = _
    rw [Function.update_self, List.count_append, count_taken hs' hs]
  unfold Even
  rw [hgot, hgave]
  show (PagesOf s' D' _ d _ p → _) ∧ (¬ PagesOf s' D' _ d _ p → _)
  rw [h1]
  -- a page leaves the free list, comes back to it, or does neither
  by_cases hL : p ∈ L <;> by_cases hL' : p ∈ L'
  · simp only [hL, hL', not_true_eq_false, and_false, if_false, false_implies, not_false_eq_true,
      true_implies, true_and]
    exact hout (h3 hL)
  · simp only [hL, hL', not_false_eq_true, and_true, if_true, false_and, if_false, or_true,
      true_implies, not_true_eq_false, false_implies, add_zero]
    rw [hout (h3 hL)]
  · simp only [hL, hL', not_true_eq_false, and_false, if_false, false_implies, not_false_eq_true,
      true_implies, true_and, and_true, if_true, add_zero]
    exact hin (h2 hL hL')
  · simp only [hL, hL', or_false, not_false_eq_true, and_true, if_false, add_zero]
    exact ⟨hin, hout⟩

theorem Even.other {l : Ledger} (h : l.Even e p) (hne : e ≠ d)
    (hx : ∀ x p, Place.Of e x → (Holds s' D' (fun _ => False) x p ↔ Holds l.vm l.dirs (fun _ => False) x p)) :
    (l.enter d s' D').Even e p := by
  have hpages : PagesOf s' D' (fun _ => False) e (fun _ => True) p ↔ PagesOf l.vm l.dirs (fun _ =>
    False) e (fun _ => True) p :=
    exists_congr fun x => and_congr_right fun hof => and_congr_right fun _ => hx x p hof
  unfold Even Ledger.enter
  simp only [hpages, Function.update_of_ne hne]
  exact h

/-! ## Steps -/

theorem Inv.use {l : Ledger} {op : Op} (h : l.Inv) (hf : op.Fits) (he : op.use l.vm = some (d, s')) (hd : l.dirs d) :
    Confined l.vm s' l.dirs (fun _ => False) d := by
  obtain ⟨L, hs⟩ := h.sound
  cases op with
  | alloc d => cases he
  | teardown d => cases he
  | map d va len prot =>
    obtain ⟨s₁, h1, h2⟩ := Option.map_eq_some_iff.1 he
    cases h2
    exact hs.confined_vmMap hd h1
  | unmap d va len =>
    obtain ⟨s₁, h1, h2⟩ := Option.map_eq_some_iff.1 he
    cases h2
    exact hs.confined_vmUnmap hd hf h1
  | walkpte d va prot =>
    obtain ⟨⟨r, s₁⟩, h1, h2⟩ := Option.map_eq_some_iff.1 he
    cases h2
    exact hs.confined_walkpte hd hf (fun c hc => h.low _ c hd hc) h1
  | walk d va prot =>
    obtain ⟨⟨a, s₁⟩, h1, h2⟩ := Option.map_eq_some_iff.1 he
    cases h2
    obtain ⟨r, h3⟩ := walk_walkpte h1
    exact hs.confined_walkpte hd hf (fun c hc => h.low _ c hd hc) h3
  | copycurr d =>
    obtain ⟨s₁, h1, h2⟩ := Option.map_eq_some_iff.1 he
    cases h2
    exact hs.confined_vmCopycurr hd h1
  | setCr3 d =>
    cases he
    exact ⟨⟨L, hs.chain.congr fun _ _ => rfl, hs.nodup, hs.heap, hs.own, hs.prot⟩, fun _ _ _ _ _ => rfl,
      fun _ _ _ _ _ _ _ => rfl, fun _ _ _ _ hp => hp, rfl⟩

/-- The pages of all but `d` are the same when `d` comes into use. -/
theorem holds_alloc {x : Place} (hsame : SameEntries s s' D) (hx : ¬ x.Of d) :
    Holds s' (And D d) K x p ↔ Holds s D K x p := by
  rw [← hsame.holds x]
  have hdir : ∀ {e}, x.Of e → (And D d e ↔ D e) := fun {e} he => by
    refine ⟨fun h => h.resolve_right ?_, Or.inl⟩
    rintro rfl
    exact hx he
  cases x with
  | own k => exact Iff.rfl
  | dir e => exact and_congr_left fun _ => hdir rfl
  | table e i => exact and_congr_left fun _ => hdir rfl
  | frame e i j => exact and_congr_left fun _ => hdir rfl

theorem holds_teardown {x : Place} (hsame : SameEntries s s' (Without D d)) (hx : ¬ x.Of d) :
    Holds s' (Without D d) K x p ↔ Holds s D K x p := by
  rw [hsame.holds x]
  have hof : ∀ {e}, x.Of e → (Holds s (Without D d) K x p ↔ Holds s D K x p) := fun {e} he => by
    rw [holds_without (K := K) he]
    refine and_iff_left ?_
    rintro rfl
    exact hx he
  cases x with
  | own k => exact Iff.rfl
  | dir e => exact hof rfl
  | table e i => exact hof rfl
  | frame e i j => exact hof rfl

theorem Inv.alloc {l : Ledger} (h : l.Inv) (he : l.vm.vmAlloc = some (d, s')) :
    ((l.clear d).enter d s' (And l.dirs d)).Inv := by
  obtain ⟨L, hs⟩ := h.sound
  obtain ⟨L', -, hD, -, hs', -, hsame, hmem, -, hk⟩ := hs.vmAlloc he
  refine ⟨⟨L', hs'⟩, fun e c hDe hc => ?_, ?_, fun e p hDe => ?_⟩
  · show present (s'.word e c) = true
    by_cases hed : e = d
    · subst hed
      exact hs.vmAlloc_low h.kpt he hc
    · rw [word_congr (hmem e hed)]
      exact h.low e c (hDe.resolve_right hed) hc
  · show s'.kpt + 32 ≤ kerPage
    rw [hk]
    exact h.kpt
  · by_cases hed : e = d
    · subst hed
      -- nothing belongs to a directory before it is allocated
      have hnew : (l.clear e).Even e p := by
        refine ⟨?_, fun _ => ?_⟩
        · rintro ⟨x, hx, -, hxp⟩
          rcases hxp.of with ⟨k, rfl, -⟩ | ⟨e', hDe', hof⟩
          · cases hx
          · exact absurd (hof.inj hx ▸ hDe') hD
        · unfold Ledger.clear
          simp only [Function.update_self]
      exact hnew.enter hs hs' fun x q hx => holds_alloc hsame hx
    · have hold : (l.clear d).Even e p := by
        unfold Ledger.Even Ledger.clear
        simp only [Function.update_of_ne hed]
        exact h.even e p (hDe.resolve_right hed)
      exact hold.other hed fun x q hx => holds_alloc hsame fun hc => hed (hx.inj hc)

theorem Inv.teardown {l : Ledger} (h : l.Inv) (hd : l.dirs d) (he : l.vm.vmTeardown d = some s') :
    (l.enter d s' (Without l.dirs d)).Inv := by
  obtain ⟨L, hs⟩ := h.sound
  obtain ⟨⟨L', hs'⟩, hsame, -, -, hk⟩ := hs.vmTeardown hd he
  refine ⟨⟨L', hs'⟩, fun e c hDe hc => ?_, ?_, fun e p hDe => ?_⟩
  · show present (s'.word e c) = true
    rw [hs.vmTeardown_word hd hDe.1 hDe.2 he]
    exact h.low e c hDe.1 hc
  · show s'.kpt + 32 ≤ kerPage
    rw [hk]
    exact h.kpt
  · exact (h.even e p hDe.1).other hDe.2 fun x q hx => holds_teardown hsame fun hc => hDe.2 (hx.inj hc)

theorem Inv.step {l l' : Ledger} {op : Op} (h : l.Inv) (hst : Step l op l') : l'.Inv := by
  cases hst with
  | alloc he => exact h.alloc he
  | teardown hd he => exact h.teardown hd he
  | @use _ d s' hf he hd =>
    have hc := h.use hf he hd
    obtain ⟨L, hs⟩ := h.sound
    obtain ⟨L', hs'⟩ := hc.sound
    refine ⟨⟨L', hs'⟩, fun e c hDe hlt => hc.low e c hDe hlt (h.low e c hDe hlt), ?_, fun e p hDe => ?_⟩
    · show s'.kpt + 32 ≤ kerPage
      rw [hc.kpt]
      exact h.kpt
    · by_cases hed : e = d
      · subst hed
        refine (h.even e p hDe).enter hs hs' fun x q hx => ?_
        rcases Classical.em (∃ e', x.Of e') with ⟨e', hof⟩ | hno
        · exact hc.holds hof fun hee => hx (hee ▸ hof)
        · cases x with
          | own k => exact Iff.rfl
          | dir e' => exact absurd ⟨e', rfl⟩ hno
          | table e' i => exact absurd ⟨e', rfl⟩ hno
          | frame e' i j => exact absurd ⟨e', rfl⟩ hno
      · exact (h.even e p hDe).other hed fun x q hx => hc.holds hx hed

theorem start_inv (hk : kpt + 32 ≤ kerPage) : (start mem kpd kpt).Inv :=
  ⟨⟨_, initPage_sound⟩, fun _ _ hd => hd.elim, hk, fun _ _ hd => hd.elim⟩

/-! ## Runs -/

/-- What the `vm_teardown` of `d` puts on the free list, after any run: the pages that `d` has, each once.
Then every page has come back as often as it was taken for `d`, and none of them belonged to another
directory or to the kernel's page tables. -/
theorem nothing_leaks {l : Ledger} {ops : List Op} (hk : kpt + 32 ≤ kerPage) (hr : Run Step (start mem kpd kpt) ops l)
    (hd : l.dirs d) (he : l.vm.vmTeardown d = some s') :
    (taken s' l.vm).Nodup ∧ (∀ p, p ∈ taken s' l.vm ↔ Has l.vm d p) ∧
      s'.freeList.Perm (taken s' l.vm ++ l.vm.freeList) ∧
      (∀ p, (l.got d).count p = (l.gave d ++ taken s' l.vm).count p) ∧
      (∀ e p, l.dirs e → e ≠ d → Has l.vm e p → p ∉ taken s' l.vm) ∧
      ∀ p ∈ taken s' l.vm, ¬ (l.vm.kpt ≤ p ∧ p < l.vm.kpt + 32) := by
  have hi : l.Inv := hr.invariant (fun _ _ _ h hst => h.step hst) (start_inv hk)
  obtain ⟨L, hs⟩ := hi.sound
  obtain ⟨⟨L', hs'⟩, hsame, -⟩ := hs.vmTeardown hd he
  have hex := fun p => pagesOf_exchange (p := p) hs hs' fun x q hx => holds_teardown hsame hx
  -- after the teardown nothing belongs to `d`, so its pages are free
  have hgone : ∀ p, ¬ PagesOf s' (Without l.dirs d) (fun _ => False) d (fun _ => True) p := by
    rintro p ⟨x, hx, -, hxp⟩
    rcases hxp.of with ⟨k, rfl, -⟩ | ⟨e, hDe, hof⟩
    · cases hx
    · exact hDe.2 (hof.inj hx)
  have hback : ∀ p, PagesOf l.vm l.dirs (fun _ => False) d (fun _ => True) p ∨ p ∈ L → p ∈ L' := fun p hp => by
    by_contra hn
    exact hgone p ((hex p).1.2 ⟨hp, hn⟩)
  have htaken : taken s' l.vm = L'.filter fun p => p ∉ L := by
    unfold taken
    rw [hs.freeList, hs'.freeList]
  have hmem : ∀ p, p ∈ taken s' l.vm ↔ Has l.vm d p := fun p => by
    rw [htaken, List.mem_filter, decide_eq_true_iff, ← pagesOf_iff hd]
    exact ⟨fun hp => (hex p).2.1 hp.2 hp.1, fun hp => ⟨hback p (Or.inl hp), fun hL => (hex p).2.2 hL hp⟩⟩
  have hnodup : (taken s' l.vm).Nodup := htaken ▸ hs'.nodup.filter _
  refine ⟨hnodup, hmem, ?_, fun p => ?_, fun e p hDe hne hp hc => ?_, fun p hp hkpt => ?_⟩
  · rw [hs.freeList, hs'.freeList]
    refine (List.perm_ext_iff_of_nodup hs'.nodup ?_).2 fun p => ?_
    · refine hnodup.append hs.nodup fun p hp hL => ?_
      rw [htaken] at hp
      exact of_decide_eq_true (List.mem_filter.1 hp).2 hL
    · rw [List.mem_append, htaken, List.mem_filter, decide_eq_true_iff]
      constructor
      · intro hp
        by_cases hL : p ∈ L
        · exact Or.inr hL
        · exact Or.inl ⟨hp, hL⟩
      · rintro (hp | hp)
        · exact hp.1
        · exact hback p (Or.inr hp)
  · obtain ⟨hin, hout⟩ := hi.even d p hd
    rw [List.count_append, hnodup.count]
    by_cases hp : PagesOf l.vm l.dirs (fun _ => False) d (fun _ => True) p
    · rw [if_pos ((hmem p).2 ((pagesOf_iff hd).1 hp)), hin hp]
    · rw [if_neg fun hc => hp ((pagesOf_iff hd).2 ((hmem p).1 hc)), hout hp, add_zero]
  · obtain ⟨x, hx, -, hxp⟩ := (pagesOf_iff (K := fun _ => False) hd).2 ((hmem p).1 hc)
    obtain ⟨y, hy, -, hyp⟩ := (pagesOf_iff (K := fun _ => False) hDe).2 hp
    exact hne (hy.inj (hs.own.inj x y p hxp hyp ▸ hx))
  · obtain ⟨x, -, -, hxp⟩ := (pagesOf_iff (K := fun _ => False) hd).2 ((hmem p).1 hp)
    have hheap : kerPage ≤ p := (hs.own.range x p hxp).1
    have hlow := hi.kpt
    omega

theorem step_map {l : Ledger} {len : Nat} (hd : l.dirs d) (he : l.vm.vmMap d va len prot = some s') :
    Step l (.map d va len prot) (l.enter d s' l.dirs) :=
  .use trivial (congrArg (Option.map (Prod.mk d)) he) hd

theorem step_unmap {l : Ledger} {len : Nat} (hva : phyMem ≤ va) (hd : l.dirs d)
    (he : l.vm.vmUnmap d va len = some s') : Step l (.unmap d va len) (l.enter d s' l.dirs) :=
  .use hva (congrArg (Option.map (Prod.mk d)) he) hd

/-- Two pages are mapped in a directory, and the first is unmapped. Its page table, its other frame and the
directory itself come back when it is given up. -/
theorem nothing_leaks_demo : ∃ l s' t p, Run Step (start (fun _ _ => 0) 100 101)
    [.alloc 512, .map 512 0x8000000 4096 7, .map 512 0x8001000 4096 7, .unmap 512 0x8000000 4096] l ∧ l.dirs 512 ∧
    l.vm.vmTeardown 512 = some s' ∧ (taken s' l.vm).Nodup ∧ 512 ∈ taken s' l.vm ∧ t ∈ taken s' l.vm ∧
    p ∈ taken s' l.vm ∧
    Holds l.vm l.dirs (fun _ => False) (.table 512 32) t ∧ Holds l.vm l.dirs (fun _ => False) (.frame 512 32 1) p ∧
    ∀ p, (l.got 512).count p = (l.gave 512 ++ taken s' l.vm).count p := by
  have h₀ : Sound (initPage (fun _ _ => 0) 100 101) (fun _ => False) (fun _ => False) (List.range' 512 32256) :=
    initPage_sound
  rw [List.range'_succ] at h₀
  obtain ⟨s₁, he₁⟩ := h₀.vmAlloc_some
  obtain ⟨L₁, hL₁, -, -, h₁, hempty, -⟩ := h₀.vmAlloc he₁
  have hlen : L₁.length = 32255 := by rw [← (List.cons.inj hL₁).2, List.length_range']
  have hd : And (fun _ => False) 512 512 := Or.inr rfl
  obtain ⟨s₂, L₂, he₂, h₂, hl₂⟩ := h₁.vmMap_page hd (v := 0x8000) (by decide) (by decide) (by omega)
  obtain ⟨L₂', ha₂⟩ := h₁.vmMap_added hd he₂
  obtain ⟨s₃, L₃, he₃, h₃, hl₃⟩ := h₂.vmMap_page hd (v := 0x8001) (by decide) (by decide) (by omega)
  obtain ⟨L₃', ha₃⟩ := h₂.vmMap_added hd he₃
  have hne : ∀ {L : List Nat}, 0 < L.length → L ≠ [] := fun h => List.length_pos_iff.1 h
  obtain ⟨s₄, he₄⟩ : ∃ s₄, s₃.vmUnmap 512 0x8000000 4096 = some s₄ :=
    h₃.vmUnmap_some hd (by decide) (by decide) (by decide) (by decide) (Or.inl (hne (by omega)))
  obtain ⟨L₄, hr⟩ := h₃.vmUnmap_removed hd (by decide) (by decide) he₄
  obtain ⟨q, hq⟩ := List.exists_mem_of_ne_nil L₃ (hne (by omega))
  obtain ⟨s', he⟩ := hr.sound.vmTeardown_some hd (List.ne_nil_of_mem ((hr.free q).2 (Or.inl hq)))
  -- the second page is still there
  have hnone : s₁.view 512 0x8001 = none := view_none.2 (hempty.pte (by decide))
  have hout : ∀ {va w : Nat}, ¬ InRange va 4096 w → ¬ (512 = 512 ∧ InRange va 4096 w) := fun h hc => h hc.2
  obtain ⟨p, -, -, hview, -⟩ := ha₃.new 0x8001 (by decide) (by decide)
    ((ha₂.rest 512 0x8001 hd (by decide) (hout (by decide))).view.trans hnone)
  have hp : Holds s₄ (And (fun _ => False) 512) (fun _ => False) (.frame 512 32 1) p := view_holds hd (by decide)
    ((hr.rest 512 0x8001 hd (by decide) (hout (by decide))).view.trans hview)
  obtain ⟨-, -, hj, hpt, hpf⟩ := hp
  have hdir : present (s₄.word 512 32) = true := by
    unfold pte at hpt
    split at hpt
    · assumption
    · cases hpt
  obtain ⟨l, hrun, rfl, hdirs⟩ : ∃ l, Run Step (start (fun _ _ => 0) 100 101)
      [.alloc 512, .map 512 0x8000000 4096 7, .map 512 0x8001000 4096 7, .unmap 512 0x8000000 4096] l ∧ l.vm = s₄ ∧
      l.dirs = And (fun _ => False) 512 := by
    have hr₁ := Run.single (Step.alloc (l := start (fun _ _ => 0) 100 101) he₁)
    have hr₂ := hr₁.snoc (step_map hd he₂)
    have hr₃ := hr₂.snoc (step_map hd he₃)
    have hr₄ := hr₃.snoc (step_unmap (le_refl phyMem) hd he₄)
    exact ⟨_, hr₄, rfl, rfl⟩
  have hd' : l.dirs 512 := hdirs ▸ hd
  obtain ⟨hnodup, hmem, -, hcount, -⟩ := nothing_leaks (by decide) hrun hd' he
  exact ⟨l, s', pageFrame (l.vm.word 512 32), p, hrun, hd', he, hnodup, (hmem 512).2 (Or.inl rfl),
    (hmem _).2 (Or.inr (Or.inl ⟨32, by decide, hdir, rfl⟩)),
    (hmem p).2 (Or.inr (Or.inr ⟨32, 1, by decide, hj, hpt, hpf⟩)),
    ⟨hd', by decide, hdir, rfl⟩, ⟨hd', by decide, hj, hpt, hpf⟩, hcount⟩

end Ledger

end TinyOS.Vm
