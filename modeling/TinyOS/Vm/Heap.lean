/-
The page allocator on its own: the loops of `init_page`, and every run of `kalloc` and `kfree` from the
heap that they set up, with stores to the pages in use.
-/
import TinyOS.Lib.Run
import TinyOS.Vm.Built

namespace TinyOS

open TinyOS.Lib

namespace Vm

variable {s s' : Vm} {D K : Nat → Prop} {L : List Nat} {p q c k n kpd kpt a o : Nat} {m : Nat → Store} {b : UInt8}

/-! ## `init_page` -/

/-- The kernel's own page directory and page tables: `[0, PHY_MEM)` is mapped to itself, but for page 0. -/
def initKpt (s : Vm) (kpd : Nat) : Vm :=
  let s := (List.range 32).foldl (fun s i => setWords (s.kpt + i) (fun j => makeEntry (i * 1024 + j) 3) 1024
    (s.setWord kpd i (makeEntry (s.kpt + i) 3))) s
  s.setWord s.kpt 0 0

/-- One round of the loop that links the pages of the heap. -/
def link (s : Vm) : Vm :=
  let s := s.setWord s.free 0 (pageDown (s.free * pgsize + pgsize))
  { s with free := pageFrame (s.word s.free 0) }

/-- The loop, `n` rounds at most. -/
def carve : Nat → Vm → Vm
  | 0, s => s
  | n + 1, s => if s.free * pgsize < phyMem - pgsize then carve n s.link else s

/-- `init_page` on any memory; there are not more rounds than pages. -/
def initPageLoop (m : Nat → Store) (kpd kpt : Nat) : Vm :=
  let s := { initKpt ⟨m, 0, 0, kpt⟩ kpd with cr3 := kpd, kpt := kpt }
  let s := carve phyPage { s with free := kerPage }
  { s.setWord s.free 0 0 with free := kerPage }

/-- The pages below `p` are linked. -/
def carved (m : Nat → Store) (p : Nat) : Nat → Store :=
  fun q => if kerPage ≤ q ∧ q < p then (m q).setWord 0 ((q + 1) * pgsize) else m q

theorem link_carved (h1 : 512 ≤ p) (h2 : p < 32767) : link ⟨carved m p, p, c, k⟩ = ⟨carved m (p + 1), p + 1, c, k⟩ := by
  have hdown : pageDown (p * pgsize + pgsize) = (p + 1) * 4096 := by
    show (p * 4096 + 4096) / 4096 * 4096 = (p + 1) * 4096
    omega
  have hword : (setWord ⟨carved m p, p, c, k⟩ p 0 ((p + 1) * 4096)).word p 0 = (p + 1) * 4096 :=
    word_setWord_self (by omega)
  have hold : carved m p p = m p := if_neg fun hc => Nat.lt_irrefl p hc.2
  have hmem : (setWord ⟨carved m p, p, c, k⟩ p 0 ((p + 1) * 4096)).mem = carved m (p + 1) := by
    funext q
    show Function.update (carved m p) p ((carved m p p).setWord (4 * 0) ((p + 1) * 4096)) q = carved m (p + 1) q
    by_cases hq : q = p
    · subst hq
      rw [Function.update_self, hold]
      exact (if_pos ⟨h1, Nat.lt_succ_self q⟩).symm
    · rw [Function.update_of_ne hq]
      unfold carved
      simp only [show q < p + 1 ↔ q < p by omega]
  have hframe : pageFrame ((p + 1) * 4096) = p + 1 := Nat.mul_div_cancel _ (by decide)
  unfold link
  simp only [hdown]
  show (⟨(setWord ⟨carved m p, p, c, k⟩ p 0 ((p + 1) * 4096)).mem,
    pageFrame ((setWord ⟨carved m p, p, c, k⟩ p 0 ((p + 1) * 4096)).word p 0), c, k⟩ : Vm) = _
  rw [hmem, hword, hframe]

theorem carve_carved (h1 : 512 ≤ p) (h2 : p ≤ 32767) (hn : 32767 ≤ p + n) :
    carve n ⟨carved m p, p, c, k⟩ = ⟨carved m 32767, 32767, c, k⟩ := by
  induction n generalizing p with
  | zero =>
    obtain rfl : p = 32767 := by omega
    rfl
  | succ n ih =>
    unfold carve
    by_cases hp : p = 32767
    · subst hp
      exact if_neg (Nat.lt_irrefl (32767 * 4096))
    · have hlt : p * 4096 < 0x8000000 - 4096 := by omega
      rw [if_pos hlt, link_carved h1 (by omega)]
      exact ih (by omega) (by omega) (by omega)

theorem carve_all :
    { (carve phyPage ⟨m, kerPage, kpd, kpt⟩).setWord (carve phyPage ⟨m, kerPage, kpd, kpt⟩).free 0 0 with
    free := kerPage } = initPage m kpd kpt := by
  have hstart : carved m kerPage = m := funext fun q => if_neg fun hc => Nat.not_lt.2 hc.1 hc.2
  have hloop := carve_carved (m := m) (c := kpd) (k := kpt) (n := phyPage) (le_refl 512) (by decide) (by decide)
  rw [hstart] at hloop
  rw [hloop]
  refine congrArg (fun m' => (⟨m', kerPage, kpd, kpt⟩ : Vm)) (funext fun q => ?_)
  show Function.update (carved m 32767) 32767 ((carved m 32767 32767).setWord (4 * 0) 0) q =
    if kerPage ≤ q ∧ q < phyPage then (m q).setWord 0 (if q + 1 < phyPage then (q + 1) * pgsize else 0) else m q
  by_cases hq : q = 32767
  · subst hq
    rw [Function.update_self, if_pos (by decide), if_neg (by decide)]
    rfl
  · rw [Function.update_of_ne hq]
    unfold carved
    by_cases hin : 512 ≤ q ∧ q < 32767
    · rw [if_pos hin, if_pos ⟨hin.1, Nat.lt_succ_of_lt hin.2⟩, if_pos (Nat.succ_lt_succ hin.2)]
    · rw [if_neg hin, if_neg fun hc : 512 ≤ q ∧ q < 32768 => hin ⟨hc.1, by omega⟩]

/-- The loops of `init_page` leave the heap that `initPage` describes. -/
theorem initPageLoop_eq : initPageLoop m kpd kpt = initPage (initKpt ⟨m, 0, 0, kpt⟩ kpd).mem kpd kpt := by
  unfold initPageLoop
  exact carve_all

/-! ## Links -/

/-- From address `a` on the pages of the list are linked, each by the address of the next. -/
def Linked (s : Vm) : Nat → List Nat → Prop
  | a, [] => a = 0
  | a, p :: l => a = p * pgsize ∧ Linked s (s.word p 0) l

theorem Linked.congr : ∀ {L : List Nat} {a : Nat}, Linked s a L → (∀ q ∈ L, s'.word q 0 = s.word q 0) → Linked s' a L
  | [], _, h, _ => h
  | q :: L, _, ⟨h1, h2⟩, hw => ⟨h1, by
      rw [hw q List.mem_cons_self]
      exact h2.congr fun r hr => hw r (List.mem_cons_of_mem _ hr)⟩

/-- The pointer that heads a list has no offset. -/
theorem Linked.frame (h : Linked s a L) : pageFrame a * pgsize = a := by
  cases L with
  | nil =>
    have ha : a = 0 := h
    rw [ha]
    rfl
  | cons q L =>
    have ha : a = q * 4096 := h.1
    show a / 4096 * 4096 = a
    omega

theorem initPage_linked : ∀ (n p : Nat), 512 ≤ p → p + n = 32768 →
    Linked (initPage m kpd kpt) (if n = 0 then 0 else p * 4096) (List.range' p n)
  | 0, p, _, _ => rfl
  | n + 1, p, h1, h2 => by
    have hw : (initPage m kpd kpt).word p 0 = if n = 0 then 0 else (p + 1) * 4096 := by
      have hmem : (initPage m kpd kpt).mem p = (m p).setWord 0 (if p + 1 < 32768 then (p + 1) * 4096 else 0) :=
        if_pos ⟨h1, (by omega : p < 32768)⟩
      unfold word
      rw [hmem, Nat.mul_zero, Store.word_setWord_self (by split <;> omega)]
      by_cases hn : n = 0
      · rw [if_pos hn, if_neg (by omega)]
      · rw [if_neg hn, if_pos (by omega)]
    refine ⟨if_neg (Nat.succ_ne_zero n), ?_⟩
    rw [hw]
    exact initPage_linked n (p + 1) (by omega) (by omega)

/-- A page taken leaves the others linked. -/
theorem Linked.kalloc (h : Linked s (s.free * pgsize) (p :: L)) (hnd : (p :: L).Nodup) (he : s.kalloc = some (p, s'))
    (hmem : ∀ q, q ≠ p → s'.mem q = s.mem q) : Linked s' (s'.free * pgsize) L := by
  obtain ⟨h1, h2⟩ := h
  have hp : s.free = p := Nat.eq_of_mul_eq_mul_right (by decide) h1
  have hfree : s'.free = pageFrame (s.word s.free 0) := by
    unfold Vm.kalloc at he
    split at he
    · cases he
    · cases he
      rfl
  rw [hfree, hp, h2.frame]
  refine h2.congr fun q hq => word_congr (hmem q ?_)
  rintro rfl
  exact (List.nodup_cons.1 hnd).1 hq

/-- A page given back leads to those that were free. -/
theorem Linked.kfree (h : Linked s (s.free * pgsize) L) (hp : p ∉ L) (he : s.kfree p = some s')
    (hmem : ∀ q, q ≠ p → s'.mem q = s.mem q) : Linked s' (s'.free * pgsize) (p :: L) := by
  have hlink : s'.free = p ∧ s'.word p 0 = s.free * pgsize := by
    unfold Vm.kfree at he
    split at he
    · cases he
    split at he
    · cases he
    next hfree =>
    cases he
    refine ⟨rfl, word_setWord_self ?_⟩
    show s.free * 4096 < 2 ^ 32
    have hlt : ¬ 32768 ≤ s.free := fun hc => hfree (Or.inr hc)
    omega
  constructor
  · rw [hlink.1]
  · rw [hlink.2]
    refine h.congr fun q hq => word_congr (hmem q ?_)
    rintro rfl
    exact hp hq

end Vm

/-! ## Runs -/

open Vm

/-- The heap, and the pages that `kalloc` returned and `kfree` has not got since. -/
structure Heap where
  vm : Vm
  out : List Nat

namespace Heap

variable {h h' : Heap} {L : List Nat} {p o kpd kpt : Nat} {s' : Vm} {m : Nat → Store} {b : UInt8}

/-- Calls, and what the owner of a page does with it. -/
inductive Call where
  | kalloc
  | kfree (p : Nat)
  | store (p o : Nat) (b : UInt8)

/-- Calls that do not abort; only pages that are in use are given back or written. -/
inductive Step (h : Heap) : Call → Heap → Prop
  | kalloc {p : Nat} {s' : Vm} : h.vm.kalloc = some (p, s') → Step h .kalloc ⟨s', p :: h.out⟩
  | kfree {p : Nat} {s' : Vm} : p ∈ h.out → h.vm.kfree p = some s' → Step h (.kfree p) ⟨s', h.out.erase p⟩
  | store {p o : Nat} {b : UInt8} : p ∈ h.out → Step h (.store p o b) ⟨h.vm.store p o b, h.out⟩

/-- After `init_page`. -/
def start (m : Nat → Store) (kpd kpt : Nat) : Heap := ⟨initPageLoop m kpd kpt, []⟩

/-- `L` is the free list, and every page of the heap is on it or in use. -/
structure Inv (h : Heap) (L : List Nat) : Prop where
  sound : Sound h.vm (fun _ => False) (· ∈ h.out) L
  nodup : h.out.Nodup
  linked : Linked h.vm (h.vm.free * pgsize) L

theorem start_inv : (start m kpd kpt).Inv (List.range' 512 32256) := by
  have hnone : ∀ k, False ↔ k ∈ ([] : List Nat) := fun k => (iff_false_right List.not_mem_nil).2 id
  refine ⟨?_, List.nodup_nil, ?_⟩
  · show Sound (initPageLoop m kpd kpt) _ _ _
    rw [initPageLoop_eq]
    exact initPage_sound.congr_own hnone
  · show Linked (initPageLoop m kpd kpt) ((initPageLoop m kpd kpt).free * pgsize) _
    rw [initPageLoop_eq]
    exact initPage_linked 32256 512 (le_refl _) (by decide)

theorem Inv.kalloc (hi : h.Inv L) (he : h.vm.kalloc = some (p, s')) :
    ∃ L', L = p :: L' ∧ p ∉ h.out ∧ (∀ o < 4096, s'.mem p o = 0) ∧ Inv ⟨s', p :: h.out⟩ L' := by
  obtain ⟨L', rfl, hK, hs, -, hz, hmem, -⟩ := hi.sound.kalloc he
  refine ⟨L', rfl, hK, hz, ?_, List.nodup_cons.2 ⟨hK, hi.nodup⟩, hi.linked.kalloc hi.sound.nodup he hmem⟩
  refine hs.congr_own fun k => ?_
  rw [List.mem_cons, or_comm]
  rfl

theorem Inv.kfree (hi : h.Inv L) (hp : p ∈ h.out) (he : h.vm.kfree p = some s') : Inv ⟨s', h.out.erase p⟩ (p :: L) := by
  obtain ⟨hs, -, hmem, -⟩ := hi.sound.kfree hp he
  have hnot : p ∉ L := hi.sound.own.not_free (s := .own p) ⟨hp, rfl⟩
  refine ⟨hs.congr_own fun k => ?_, hi.nodup.erase p, hi.linked.kfree hnot he hmem⟩
  rw [hi.nodup.mem_erase_iff, and_comm]
  rfl

theorem Inv.store (hi : h.Inv L) (hp : p ∈ h.out) : Inv ⟨h.vm.store p o b, h.out⟩ L := by
  refine ⟨(hi.sound.store (Or.inl hp)).1, hi.nodup, hi.linked.congr fun q hq => word_congr (setPage_ne ?_)⟩
  rintro rfl
  exact hi.sound.own.not_free (s := .own q) ⟨hp, rfl⟩ hq

theorem Inv.step {c : Call} (hi : h.Inv L) (hs : Step h c h') : ∃ L', h'.Inv L' := by
  cases hs with
  | kalloc he =>
    obtain ⟨L', -, -, -, hi'⟩ := hi.kalloc he
    exact ⟨L', hi'⟩
  | kfree hp he => exact ⟨_, hi.kfree hp he⟩
  | store hp => exact ⟨L, hi.store hp⟩

theorem run_inv {cs : List Call} (hr : Run Step (start m kpd kpt) cs h) : ∃ L, h.Inv L :=
  Run.invariant (I := fun h => ∃ L, h.Inv L) (fun _ _ _ ⟨_, hi⟩ hs => hi.step hs) hr ⟨_, start_inv⟩

/-- The free pages and those in use make up the heap. -/
theorem Inv.total (hi : h.Inv L) : L.length + h.out.length = phyPage - kerPage := by
  have hdisj : ∀ p ∈ L, p ∉ h.out := fun p hp hc => hi.sound.own.not_free (s := .own p) ⟨hc, rfl⟩ hp
  have hnd : (L ++ h.out).Nodup := List.nodup_append.2 ⟨hi.sound.nodup, hi.nodup, fun p hp q hq hpq =>
    hdisj p hp (hpq ▸ hq)⟩
  -- no page of the heap is lost: what is not free is held, and here only by its user
  have hperm : (L ++ h.out).Perm (List.range' kerPage (phyPage - kerPage)) := by
    refine (List.perm_ext_iff_of_nodup hnd List.nodup_range').2 fun p => ?_
    rw [List.mem_append, List.mem_range'_1]
    constructor
    · rintro (hp | hp)
      · exact hi.sound.heap p hp
      · exact hi.sound.own.range (.own p) p ⟨hp, rfl⟩
    · intro hp
      by_cases hL : p ∈ L
      · exact Or.inl hL
      · obtain ⟨x, hx⟩ := hi.sound.own.held hp hL
        cases x with
        | own k => exact Or.inr (hx.2 ▸ hx.1)
        | dir d => exact hx.1.elim
        | table d i => exact hx.1.elim
        | frame d i j => exact hx.1.elim
  have hlen := hperm.length_eq
  rwa [List.length_append, List.length_range'] at hlen

/-! ## Main results -/

/-- The number of pages of `[KER_MEM, PHY_MEM)`. -/
def size : Nat := (phyMem - kerPage * pgsize) / pgsize

/-- After every run from `init_page` the free list ends, has no page twice and no page in use, only pages
of the heap, and with the pages in use it makes up the heap. What `kalloc` returns next is a page
of zeros that was not in use. -/
theorem heap_exact {cs : List Call} (hr : Run Step (start m kpd kpt) cs h) :
    ∃ L, Linked h.vm (h.vm.free * pgsize) L ∧ L.Nodup ∧ (∀ p ∈ L, HeapPage p ∧ p ∉ h.out) ∧ h.out.Nodup ∧
      (∀ p ∈ h.out, HeapPage p) ∧ L.length + h.out.length = size ∧
      ∀ p s', h.vm.kalloc = some (p, s') → p ∉ h.out ∧ HeapPage p ∧ ∀ o < pgsize, s'.mem p o = 0 := by
  obtain ⟨L, hi⟩ := run_inv hr
  refine ⟨L, hi.linked, hi.sound.nodup, ?_, hi.nodup, ?_, hi.total, ?_⟩
  · intro p hp
    exact ⟨hi.sound.heap p hp, fun hc => hi.sound.own.not_free (s := .own p) ⟨hc, rfl⟩ hp⟩
  · intro p hp
    exact hi.sound.own.range (.own p) p ⟨hp, rfl⟩
  · intro p s' he
    obtain ⟨L', rfl, hp, hz, -⟩ := hi.kalloc he
    exact ⟨hp, hi.sound.heap p List.mem_cons_self, hz⟩

/-- The first page of the heap is taken, used and given back. -/
theorem first_page (m : Nat → Store) (kpd kpt : Nat) : ∃ s', (start m kpd kpt).vm.kalloc = some (512, s') ∧
    Run Step (start m kpd kpt) [.kalloc] ⟨s', [512]⟩ ∧ Inv ⟨s', [512]⟩ (List.range' 513 32255) := by
  have hi : (start m kpd kpt).Inv (List.range' 512 32256) := start_inv
  rw [List.range'_succ] at hi
  obtain ⟨s', he⟩ := hi.sound.kalloc_some
  obtain ⟨L', hL, -, -, hi'⟩ := hi.kalloc he
  obtain rfl := (List.cons.inj hL).2
  exact ⟨s', he, Run.single (.kalloc he), hi'⟩

/-- Taken again it is a page of zeros. -/
theorem heap_exact_demo : ∃ h, Run Step (start (fun _ _ => 0) 100 101) [.kalloc, .store 512 100 65, .kfree 512,
    .kalloc] h ∧ h.out = [512] ∧
    h.vm.mem 512 100 = 0 ∧ ∃ L, Linked h.vm (h.vm.free * pgsize) L ∧ 512 ∉ L ∧ L.length + h.out.length = size := by
  obtain ⟨s₁, -, r₁, i₁⟩ := first_page (fun _ _ => 0) 100 101
  have hout : (512 : Nat) ∈ [512] := List.mem_cons_self
  have r₂ := r₁.snoc (Step.store (o := 100) (b := 65) hout)
  have i₂ := i₁.store (o := 100) (b := 65) hout
  obtain ⟨s₃, e₃⟩ := i₂.sound.kfree_some hout (by simp)
  have r₃ := r₂.snoc (Step.kfree hout e₃)
  obtain ⟨s₄, e₄⟩ := (i₂.kfree hout e₃).sound.kalloc_some
  have r₄ := r₃.snoc (Step.kalloc e₄)
  obtain ⟨-, -, -, -, -, -, -, hzero⟩ := heap_exact r₃
  obtain ⟨L, h1, -, h2, -, -, h3, -⟩ := heap_exact r₄
  exact ⟨_, r₄, rfl, (hzero _ _ e₄).2.2 100 (by decide), L, h1, fun hL => (h2 512 hL).2 hout, h3⟩

/-- A call of `kfree` for a page in use returns, and `kalloc` returns that page again, exactly when some
page of the heap is not in use. -/
theorem kfree_accepts {cs : List Call} (hr : Run Step (start m kpd kpt) cs h) (hp : p ∈ h.out) :
    (∃ s', h.vm.kfree p = some s' ∧ ∃ s'', s'.kalloc = some (p, s'')) ↔ h.out.length < size := by
  obtain ⟨L, hi⟩ := run_inv hr
  have htotal : L.length + h.out.length = size := hi.total
  constructor
  · rintro ⟨s', he, -⟩
    cases L with
    | nil =>
      -- `kfree` asserts that the list begins with a page of the heap
      have hfree : h.vm.free = 0 := hi.sound.chain
      unfold Vm.kfree at he
      split at he
      · cases he
      · rw [hfree, if_pos (Or.inl (by decide))] at he
        cases he
    | cons q L =>
      rw [List.length_cons] at htotal
      omega
  · intro hlt
    have hL : L ≠ [] := by
      rintro rfl
      rw [List.length_nil] at htotal
      omega
    obtain ⟨s', he⟩ := hi.sound.kfree_some hp hL
    exact ⟨s', he, (hi.kfree hp he).sound.kalloc_some⟩

theorem kfree_accepts_demo : ∃ h s' s'', Run Step (start (fun _ _ => 0) 100 101) [.kalloc] h ∧
    h.vm.kfree 512 = some s' ∧ s'.kalloc = some (512, s'') := by
  obtain ⟨s₁, -, hr, -⟩ := first_page (fun _ _ => 0) 100 101
  obtain ⟨s', h1, s'', h2⟩ := (kfree_accepts hr List.mem_cons_self).2 (show [512].length < size by decide)
  exact ⟨_, s', s'', hr, h1, h2⟩

/-- All free pages can be taken. -/
theorem Inv.drain (hi : h.Inv L) : ∃ h', Run Step h (List.replicate L.length .kalloc) h' ∧ h'.Inv [] ∧
    ∀ p ∈ h.out, p ∈ h'.out := by
  induction L generalizing h with
  | nil => exact ⟨h, .nil, hi, fun _ hp => hp⟩
  | cons q L ih =>
    obtain ⟨s', he⟩ := hi.sound.kalloc_some
    obtain ⟨L', hL, -, -, hi'⟩ := hi.kalloc he
    obtain rfl := (List.cons.inj hL).2
    obtain ⟨h', hr, hend, hout⟩ := ih hi'
    refine ⟨h', ?_, hend, fun p hp => hout p (List.mem_cons_of_mem _ hp)⟩
    rw [List.length_cons, List.replicate_succ]
    exact (Run.single (.kalloc he)).append hr

/-- With all pages of the heap in use, the first of them is not accepted. -/
theorem kfree_exhausted : ¬ ∀ (m : Nat → Store) (kpd kpt : Nat) (cs : List Call) (h : Heap) (p : Nat),
    Run Step (start m kpd kpt) cs h → p ∈ h.out → ∃ s', h.vm.kfree p = some s' ∧ ∃ s'', s'.kalloc = some (p, s'') := by
  intro hall
  obtain ⟨s₁, -, hr₁, hi₁⟩ := first_page (fun _ _ => 0) 100 101
  obtain ⟨h, hr, hi, hout⟩ := hi₁.drain
  obtain ⟨s', he, -⟩ := hall _ _ _ _ h 512 (hr₁.append hr) (hout 512 List.mem_cons_self)
  have hfree : h.vm.free = 0 := hi.sound.chain
  unfold Vm.kfree at he
  rw [if_neg (by decide), hfree, if_pos (Or.inl (by decide))] at he
  cases he

end Heap

end TinyOS
