/-
The states that the kernel's own operations on memory reach, from the heap that `init_page` sets up:
in all of them every page of the heap is free or has one owner.
-/
import TinyOS.Vm.Rights

namespace TinyOS.Vm

open TinyOS.Lib

variable {s s' : Vm} {D K : Nat → Prop} {L : List Nat} {d e i j k p q t n kpd kpt o : Nat}
  {m : Nat → Store} {b : UInt8} {f : Nat → Nat}

/-! ## A new page directory -/

theorem setWords_mem (h : q ≠ p) : (setWords p f n s).mem q = s.mem q := by
  induction n with
  | zero => rfl
  | succ n ih => exact (setWord_mem h).trans ih

theorem setWords_regs : (setWords p f n s).free = s.free ∧ (setWords p f n s).cr3 = s.cr3 ∧
    (setWords p f n s).kpt = s.kpt := by
  induction n with
  | zero => exact ⟨rfl, rfl, rfl⟩
  | succ n ih => exact ih

theorem word_setWords (hi : i < n) (hf : f i < 2 ^ 32) : (setWords p f n s).word p i = f i := by
  induction n with
  | zero => omega
  | succ n ih =>
    show ((setWords p f n s).setWord p n (f n)).word p i = f i
    by_cases hin : i = n
    · subst hin
      exact word_setWord_self hf
    · rw [word_setWord_ne (Or.inr hin)]
      exact ih (by omega)

theorem Sound.vmAlloc (h : Sound s D K L) (he : s.vmAlloc = some (d, s')) :
    ∃ L', L = d :: L' ∧ ¬ D d ∧ ¬ K d ∧ Sound s' (And D d) K L' ∧ Empty s' d ∧ SameEntries s s' D ∧
      (∀ q, q ≠ d → s'.mem q = s.mem q) ∧ s'.cr3 = s.cr3 ∧ s'.kpt = s.kpt := by
  unfold Vm.vmAlloc at he
  obtain ⟨⟨pg, s₁⟩, hk, he⟩ := Option.bind_eq_some_iff.1 he
  cases he
  obtain ⟨L', rfl, hK, h₁, hsame₁, hz, hmem₁, hcr, hkpt⟩ := h.kalloc hk
  have hd : ¬ D d := fun hd => h.dir_not_free hd List.mem_cons_self
  have hmem : ∀ q, q ≠ d →
      (setWords d (fun i => if i < 32 then makeEntry (s₁.kpt + i) 3 else 0) 1024 s₁).mem q = s₁.mem q :=
    fun q hq => setWords_mem hq
  obtain ⟨hfree, hcr', hkpt'⟩ := setWords_regs (p := d) (n := 1024) (s := s₁)
    (f := fun i => if i < 32 then makeEntry (s₁.kpt + i) 3 else 0)
  generalize hs : setWords d (fun i => if i < 32 then makeEntry (s₁.kpt + i) 3 else 0) 1024 s₁ =
    s₂ at hmem hfree hcr' hkpt'
  -- the page that `kalloc` gave belongs to the caller, and then to the directory
  have hown : Holds s₁ D (And K d) (.own d) d := ⟨Or.inr rfl, rfl⟩
  have hsame₂ : SameEntries s₁ s₂ D := by
    refine sameEntries_of_mem (K := And K d) (fun e hDe => hmem e fun hc => hd (hc ▸ hDe)) fun e i t ht => hmem t ?_
    · rintro rfl
      cases h₁.own.inj _ _ t hown ht
  have hempty : Empty s₂ d := fun i h1 h2 => by
    rw [← hs, word_setWords h2 (by rw [if_neg (by omega)]; decide), if_neg (by omega)]
    decide
  refine ⟨L', rfl, hd, hK, ⟨?_, h₁.nodup, h₁.heap, ?_, fun e i j he hi hj hp => ?_⟩, hempty,
    ⟨fun e i he hi => by rw [hsame₂.pde e i he hi, hsame₁.pde e i he hi],
      fun e i j he hi hj => by rw [hsame₂.pte e i j he hi hj, hsame₁.pte e i j he hi hj]⟩,
    fun q hq => (hmem q hq).trans (hmem₁ q hq), hcr'.trans hcr, hkpt'.trans hkpt⟩
  · rw [hfree]
    refine h₁.chain.congr fun q hq => word_congr (hmem q ?_)
    rintro rfl
    exact h₁.own.not_free hown hq
  · refine h₁.own.move (s := .own d) (u := .dir d) (r := d) (fun q => ⟨fun hq => hq.2, fun hq => ⟨Or.inr rfl, hq⟩⟩)
      fun x q => ?_
    cases x with
    | dir e =>
      simp only [Holds, And, Place.dir.injEq, ne_eq, reduceCtorEq, not_false_eq_true, and_true]
      constructor
      · rintro ⟨h1 | h1, h2⟩
        · exact Or.inl ⟨h1, h2⟩
        · exact Or.inr ⟨h1, h2.trans h1⟩
      · rintro (⟨h1, h2⟩ | ⟨h1, h2⟩)
        · exact ⟨Or.inl h1, h2⟩
        · exact ⟨Or.inr h1, h2.trans h1.symm⟩
    | own k =>
      simp only [Holds, reduceCtorEq, false_and, or_false]
      exact own_and hK
    | table e i =>
      simp only [Holds, And, ne_eq, reduceCtorEq, not_false_eq_true, and_true, false_and, or_false]
      constructor
      · rintro ⟨he | rfl, hi, hp, hf⟩
        · rw [hsame₂.pde e i he hi] at hp hf
          exact ⟨he, hi, hp, hf⟩
        · rw [hempty i hi.1 hi.2] at hp
          cases hp
      · rintro ⟨he, hi, hp, hf⟩
        rw [← hsame₂.pde e i he hi] at hp hf
        exact ⟨Or.inl he, hi, hp, hf⟩
    | frame e i j =>
      simp only [Holds, And, ne_eq, reduceCtorEq, not_false_eq_true, and_true, false_and, or_false]
      constructor
      · rintro ⟨he | rfl, hi, hj, hp, hf⟩
        · rw [hsame₂.pte e i j he hi hj] at hp hf
          exact ⟨he, hi, hj, hp, hf⟩
        · rw [hempty.pte hi] at hp
          cases hp
      · rintro ⟨he, hi, hj, hp, hf⟩
        rw [← hsame₂.pte e i j he hi hj] at hp hf
        exact ⟨Or.inl he, hi, hj, hp, hf⟩
  · rcases he with he | rfl
    · rw [hsame₂.pte e i j he hi hj] at hp ⊢
      rw [hsame₂.pde e i he hi]
      exact h₁.prot e i j he hi hj hp
    · rw [hempty.pte hi] at hp
      cases hp

theorem Sound.vmAlloc_some (h : Sound s D K (d :: L)) : ∃ s', s.vmAlloc = some (d, s') := by
  obtain ⟨s₁, hk⟩ := h.kalloc_some
  unfold Vm.vmAlloc
  rw [hk]
  exact ⟨_, rfl⟩

/-! ## The start -/

/-- The heap after `init_page`: each page leads to the next. The kernel's own page directory and page
tables are not in the heap. -/
def initPage (m : Nat → Store) (kpd kpt : Nat) : Vm where
  mem p := if kerPage ≤ p ∧ p < phyPage then (m p).setWord 0 (if p + 1 < phyPage then (p + 1) * pgsize else 0) else m p
  free := kerPage
  cr3 := kpd
  kpt := kpt

theorem initPage_next (h1 : 512 ≤ p) (h2 : p < 32768) :
    pageFrame ((initPage m kpd kpt).word p 0) = if p + 1 < 32768 then p + 1 else 0 := by
  have hw : (initPage m kpd kpt).word p 0 = if p + 1 < 32768 then (p + 1) * 4096 else 0 := by
    have hmem : (initPage m kpd kpt).mem p = (m p).setWord 0 (if p + 1 < phyPage then (p + 1) * pgsize else 0) :=
      if_pos ⟨h1, h2⟩
    unfold word
    rw [hmem]
    refine Store.word_setWord_self ?_
    show (if p + 1 < 32768 then (p + 1) * 4096 else 0) < 2 ^ 32
    split <;> omega
  rw [hw]
  unfold pageFrame
  split
  · exact Nat.mul_div_cancel _ (by decide)
  · rfl

theorem initPage_chain : ∀ (n p : Nat), 512 ≤ p → p + n = 32768 →
    Chain (initPage m kpd kpt) (if n = 0 then 0 else p) (List.range' p n)
  | 0, p, _, _ => rfl
  | n + 1, p, h1, h2 => by
    refine ⟨⟨if_neg (Nat.succ_ne_zero n), by omega⟩, ?_⟩
    rw [initPage_next h1 (by omega)]
    have ih := initPage_chain n (p + 1) (by omega) (by omega)
    by_cases hn : n = 0
    · rw [if_pos hn] at ih
      rw [if_neg (by omega)]
      exact ih
    · rw [if_neg hn] at ih
      rw [if_pos (by omega)]
      exact ih

theorem initPage_sound : Sound (initPage m kpd kpt) (fun _ => False) (fun _ => False) (List.range' 512 32256) where
  chain := initPage_chain 32256 512 (le_refl _) (by decide)
  nodup := List.nodup_range'
  heap p hp := by
    obtain ⟨h1, h2⟩ := List.mem_range'_1.1 hp
    exact ⟨h1, h2⟩
  own := by
    have hno : ∀ x p, ¬ Holds (initPage m kpd kpt) (fun _ => False) (fun _ => False) x p := fun x p hx => by
      cases x <;> exact hx.1
    refine ⟨fun x p hx => absurd hx (hno x p), fun x y p hx => absurd hx (hno x p), fun p hp => ?_⟩
    refine iff_of_true (List.mem_range'_1.2 ⟨hp.1, hp.2⟩) fun x => hno x p
  prot _ _ _ hd := hd.elim

/-! ## Stores -/

/-- A byte is written to a page. -/
def store (s : Vm) (p o : Nat) (b : UInt8) : Vm := s.setPage p (Function.update (s.mem p) o b)

theorem Sound.setPage {m : Store} (h : Sound s D K L) (hp : K p ∨ ∃ d i j, Holds s D K (.frame d i j) p) :
    Sound (s.setPage p m) D K L ∧ SameEntries s (s.setPage p m) D := by
  obtain ⟨x, hx, hxd, hxt⟩ : ∃ x, Holds s D K x p ∧ (∀ e, x ≠ .dir e) ∧ ∀ e i, x ≠ .table e i := by
    rcases hp with hp | ⟨d, i, j, hp⟩
    · exact ⟨.own p, ⟨hp, rfl⟩, (fun e hc => by cases hc), fun e i hc => by cases hc⟩
    · exact ⟨_, hp, (fun e hc => by cases hc), fun e i hc => by cases hc⟩
  have hsame : SameEntries s (s.setPage p m) D := by
    refine sameEntries_of_mem (K := K) (fun e he => setPage_ne ?_) fun e i t ht => setPage_ne ?_
    · rintro rfl
      exact hxd e (h.own.inj x (.dir e) e hx ⟨he, rfl⟩)
    · rintro rfl
      exact hxt e i (h.own.inj x _ t hx ht)
  refine ⟨hsame.sound h (h.chain.congr fun q hq => word_congr (setPage_ne ?_)), hsame⟩
  rintro rfl
  exact h.own.not_free hx hq

theorem Sound.store (h : Sound s D K L) (hp : K p ∨ ∃ d i j, Holds s D K (.frame d i j) p) :
    Sound (s.store p o b) D K L ∧ SameEntries s (s.store p o b) D := h.setPage hp

/-! ## Runs of operations -/

/-- The states that the kernel's operations reach, with the page directories that are in use and the
pages with a use of their own: kernel stacks, and what `sys_exec` leaves behind when it gives the
directory alone back. -/
inductive Built : Vm → (Nat → Prop) → (Nat → Prop) → Prop
  | init (m : Nat → Store) (kpd kpt : Nat) : Built (initPage m kpd kpt) (fun _ => False) fun _ => False
  | vmAlloc {s s' : Vm} {D K : Nat → Prop} {d : Nat} : Built s D K → s.vmAlloc = some (d, s') → Built s' (And D d) K
  | kalloc {s s' : Vm} {D K : Nat → Prop} {p : Nat} : Built s D K → s.kalloc = some (p, s') → Built s' D (And K p)
  | kfree {s s' : Vm} {D K : Nat → Prop} {p : Nat} : Built s D K → K p → s.kfree p = some s' → Built s' D (Without K p)
  | vmMap {s s' : Vm} {D K : Nat → Prop} {d va len prot : Nat} : Built s D K → D d → s.vmMap d va len prot = some s' →
      Built s' D K
  | vmUnmap {s s' : Vm} {D K : Nat → Prop} {d va len : Nat} : Built s D K → D d → phyMem ≤ va →
      s.vmUnmap d va len = some s' → Built s' D K
  | vmCopycurr {s s' : Vm} {D K : Nat → Prop} {d : Nat} : Built s D K → D s.cr3 → D d → d ≠ s.cr3 → Empty s d →
      s.vmCopycurr d = some s' → Built s' D K
  | vmTeardown {s s' : Vm} {D K : Nat → Prop} {d : Nat} : Built s D K → D d → s.vmTeardown d = some s' →
      Built s' (Without D d) K
  | drop {s s' : Vm} {D K : Nat → Prop} {d : Nat} : Built s D K → D d → s.kfree d = some s' →
      Built s' (Without D d) (Without (fun k => K k ∨ PagesOf s D K d (fun _ => True) k) d)
  | setCr3 {s : Vm} {D K : Nat → Prop} {d : Nat} : Built s D K → D d → Built { s with cr3 := d } D K
  | store {s : Vm} {D K : Nat → Prop} {p : Nat} (o : Nat) (b : UInt8) : Built s D K →
      (K p ∨ ∃ d i j, Holds s D K (.frame d i j) p) → Built (s.store p o b) D K

theorem Sound.drop (h : Sound s D K L) (hd : D d) (he : s.kfree d = some s') :
    Sound s' (Without D d) (Without (fun k => K k ∨ PagesOf s D K d (fun _ => True) k) d) (d :: L) :=
  ((h.detach d).kfree (Or.inr ⟨.dir d, rfl, trivial, hd, rfl⟩) he).1

theorem Built.sound (h : Built s D K) : ∃ L, Sound s D K L := by
  induction h with
  | init => exact ⟨_, initPage_sound⟩
  | vmAlloc _ he ih =>
    obtain ⟨L, h⟩ := ih
    obtain ⟨L', -, -, -, h', -⟩ := h.vmAlloc he
    exact ⟨L', h'⟩
  | kalloc _ he ih =>
    obtain ⟨L, h⟩ := ih
    obtain ⟨L', -, -, h', -⟩ := h.kalloc he
    exact ⟨L', h'⟩
  | kfree _ hK he ih =>
    obtain ⟨L, h⟩ := ih
    exact ⟨_, (h.kfree hK he).1⟩
  | vmMap _ hd he ih =>
    obtain ⟨L, h⟩ := ih
    exact (h.rights_vmMap hd he).1
  | vmUnmap _ hd hva he ih =>
    obtain ⟨L, h⟩ := ih
    exact (h.rights_vmUnmap hd hva he).1
  | vmCopycurr _ hc hd hne hempty he ih =>
    obtain ⟨L, h⟩ := ih
    obtain ⟨L', hi⟩ := h.vmCopycurr_run hc hd hne hempty he
    exact ⟨L', hi.sound⟩
  | vmTeardown _ hd he ih =>
    obtain ⟨L, h⟩ := ih
    exact (h.vmTeardown hd he).1
  | drop _ hd he ih =>
    obtain ⟨L, h⟩ := ih
    exact ⟨_, h.drop hd he⟩
  | setCr3 _ _ ih =>
    obtain ⟨L, h⟩ := ih
    exact ⟨L, h.chain.congr fun _ _ => rfl, h.nodup, h.heap, h.own, h.prot⟩
  | store o b _ hp ih =>
    obtain ⟨L, h⟩ := ih
    exact ⟨L, (h.store hp).1⟩

end TinyOS.Vm
