/-
Stores of the kernel by address: the kernel's part of every address space is the physical memory, the rest
is what CR3 says.
-/
import TinyOS.Vm.View

namespace TinyOS.Vm

open TinyOS.Lib

variable {s s' s₁ : Vm} {D K : Nat → Prop} {L : List Nat} {d q a o r w va : Nat} {b : UInt8} {bs : List UInt8}

/-- A byte is written; `none` is a page fault. Page 0 is not mapped, and the kernel does not ask for the
right to write. -/
def put (s : Vm) (a : Nat) (b : UInt8) : Option Vm :=
  if a < pgsize then none
  else if a < phyMem then some (s.store (a / pgsize) (a % pgsize) b)
  else (s.translate s.cr3 a).map fun x => s.store x.1 x.2 b

/-- Bytes at addresses that follow each other. -/
def puts (s : Vm) (a : Nat) : List UInt8 → Option Vm
  | [] => some s
  | b :: bs => do (← s.put a b).puts (uint32 (a + 1)) bs

/-! ## By physical addresses -/

theorem write_cons {m : Store} : m.write o (b :: bs) = Store.write (Function.update m o b) (o + 1) bs := by
  have hone : m.write o [b] = Function.update m o b := by
    funext x
    by_cases hx : x = o
    · subst hx
      rw [Function.update_self]
      exact Store.write_add (i := 0) (show 0 < [b].length from Nat.zero_lt_one)
    · rw [Function.update_of_ne hx]
      exact Store.write_out (show x < o ∨ o + 1 ≤ x by omega)
  rw [← hone]
  exact (Store.write_append : m.write o ([b] ++ bs) = _)

theorem setPage_setPage {m m' : Store} : (s.setPage q m).setPage q m' = s.setPage q m' := by
  unfold setPage
  simp

/-- Inside one page of physical memory. -/
theorem puts_page (h1 : 1 ≤ q) (h2 : q < phyPage) (ho : o + bs.length ≤ pgsize) :
    s.puts (q * pgsize + o) bs = some (s.setPage q ((s.mem q).write o bs)) := by
  induction bs generalizing s o with
  | nil =>
    rw [Store.write_nil]
    unfold puts setPage
    simp
  | cons b bs ih =>
    have hq : q < 32768 := h2
    have ho' : o + (bs.length + 1) ≤ 4096 := ho
    have hput : s.put (q * 4096 + o) b = some (s.store q o b) := by
      have hdiv : (q * 4096 + o) / 4096 = q := by omega
      have hmod : (q * 4096 + o) % 4096 = o := by omega
      unfold put
      simp only [hdiv, hmod]
      rw [if_neg (show ¬ q * 4096 + o < 4096 by omega), if_pos (show q * 4096 + o < 0x8000000 by omega)]
    have hlt : q * 4096 + o + 1 < 2 ^ 32 := by omega
    have hself : (s.store q o b).mem q = Function.update (s.mem q) o b := setPage_self
    unfold puts
    rw [hput, Option.bind_eq_bind, Option.bind_some, uint32_of_lt hlt, Nat.add_assoc,
      ih (show o + 1 + bs.length ≤ 4096 by omega), hself, ← write_cons]
    exact congrArg some setPage_setPage

/-! ## By user addresses -/

theorem translate_view : s.translate d a = (s.view d (a / pgsize)).map fun x => (x.1, a % pgsize) := by
  have hdir : addr2dir a = a / pgsize / 1024 := (Nat.div_div_eq_div_mul a 4096 1024).symm
  unfold translate view
  simp only [hdir, show addr2tbl a = a / pgsize % 1024 from rfl]
  split <;> rfl

theorem peek_view : s.peek d a = (s.view d (a / pgsize)).map fun x => s.mem x.1 (a % pgsize) := by
  unfold peek
  rw [translate_view, Option.map_map]
  rfl

theorem SameEntries.view (h : SameEntries s s' D) (hd : D d) (hw : UserPage w) : s'.view d w = s.view d w := by
  unfold Vm.view rights
  rw [h.pte d _ _ hd hw.index.1 hw.index.2, h.pde d _ hd hw.index.1]

/-- The frames of two pages are different. -/
theorem Sound.frame_ne (h : Sound s D K L) (hd : D d) (hw : UserPage w) (hv : UserPage va) (hne : w ≠ va)
    {x y : Nat × Nat} (hx : s.view d w = some x) (hy : s.view d va = some y) : x.1 ≠ y.1 := by
  intro hc
  have heq := h.own.inj _ _ x.1 (view_holds hd hw hx) (hc ▸ view_holds hd hv hy)
  simp only [Place.frame.injEq] at heq
  exact page_ne hne heq.2

/-- Bytes were stored through CR3: `new` has those that were written. -/
structure Stored (s s' : Vm) (D K : Nat → Prop) (L : List Nat) (new : Nat → Option UInt8) : Prop where
  sound : Sound s' D K L
  same : SameEntries s s' D
  cr3 : s'.cr3 = s.cr3
  peek : ∀ va, UserPage (va / pgsize) → s'.peek s.cr3 va = (new va).or (s.peek s.cr3 va)

theorem Stored.refl (h : Sound s D K L) : Stored s s D K L fun _ => none where
  sound := h
  same := ⟨fun _ _ _ _ => rfl, fun _ _ _ _ _ _ => rfl⟩
  cr3 := rfl
  peek _ _ := rfl

theorem Stored.trans {new new' : Nat → Option UInt8} (h : Stored s s₁ D K L new) (h' : Stored s₁ s' D K L new') :
    Stored s s' D K L fun va => (new' va).or (new va) where
  sound := h'.sound
  same := ⟨fun e c he hc => (h'.same.pde e c he hc).trans (h.same.pde e c he hc),
    fun e c k he hc hk => (h'.same.pte e c k he hc hk).trans (h.same.pte e c k he hc hk)⟩
  cr3 := h'.cr3.trans h.cr3
  peek va hva := by
    rw [← h.cr3, h'.peek va hva, h.cr3, h.peek va hva, Option.or_assoc]

theorem Stored.congr {new new' : Nat → Option UInt8} (h : Stored s s' D K L new) (hn : ∀ va, new va = new' va) :
    Stored s s' D K L new' := by
  have hnn : new = new' := funext hn
  exact hnn ▸ h

theorem Sound.put_mapped (h : Sound s D K L) (hd : D s.cr3) (ha : UserPage (a / pgsize))
    (hv : s.view s.cr3 (a / pgsize) ≠ none) :
    ∃ s', s.put a b = some s' ∧ Stored s s' D K L fun va => if va = a then some b else none := by
  obtain ⟨⟨q, r⟩, hv⟩ := Option.ne_none_iff_exists'.1 hv
  obtain ⟨hs, hsame⟩ := h.store (o := a % pgsize) (b := b) (Or.inr ⟨_, _, _, view_holds hd ha hv⟩)
  have hlow : 32768 ≤ a / 4096 := ha.1
  refine ⟨s.store q (a % pgsize) b, ?_, hs, hsame, rfl, fun va hva => ?_⟩
  · unfold put
    rw [if_neg (show ¬ a < 4096 by omega), if_neg (show ¬ a < 0x8000000 by omega), translate_view, hv]
    rfl
  rw [peek_view, peek_view, hsame.view hd hva]
  cases hw : s.view s.cr3 (va / pgsize) with
  | none =>
    have hne : va ≠ a := by
      rintro rfl
      rw [hv] at hw
      cases hw
    rw [if_neg hne]
    rfl
  | some x =>
    show some ((s.setPage q (Function.update (s.mem q) (a % pgsize) b)).mem x.1 (va % pgsize)) = _
    by_cases hp : va / pgsize = a / pgsize
    · rw [hp, hv] at hw
      cases hw
      rw [setPage_self]
      by_cases hva : va = a
      · rw [hva, Function.update_self, if_pos rfl]
        rfl
      · have hoff : va % pgsize ≠ a % pgsize := by
          intro hc
          apply hva
          rw [← Nat.div_add_mod va pgsize, hp, hc, Nat.div_add_mod]
        rw [Function.update_of_ne hoff, if_neg hva]
        rfl
    · have hne : va ≠ a := fun hc => hp (congrArg (· / pgsize) hc)
      rw [setPage_ne (h.frame_ne hd hva ha hp hw hv), if_neg hne]
      rfl

/-- The bytes by address. -/
def bytesFrom (a : Nat) (bs : List UInt8) (va : Nat) : Option UInt8 := if a ≤ va then bs[va - a]? else none

theorem bytesFrom_nil : bytesFrom a [] va = none := by
  unfold bytesFrom
  simp

theorem bytesFrom_cons : (bytesFrom (a + 1) bs va).or (if va = a then some b else none) = bytesFrom a (b :: bs) va := by
  unfold bytesFrom
  by_cases hva : va = a
  · rw [if_neg (by omega), if_pos hva, if_pos (by omega), hva, Nat.sub_self]
    rfl
  · rw [if_neg hva, Option.or_none]
    by_cases hin : a + 1 ≤ va
    · rw [if_pos hin, if_pos (by omega), show va - a = va - (a + 1) + 1 by omega, List.getElem?_cons_succ]
    · rw [if_neg hin, if_neg (by omega)]

/-- Bytes are written to mapped pages. -/
theorem Sound.puts_mapped (h : Sound s D K L) (hd : D s.cr3) (hlast : a + bs.length ≤ 2 ^ 32)
    (hm : ∀ i < bs.length, UserPage ((a + i) / pgsize) ∧ s.view s.cr3 ((a + i) / pgsize) ≠ none) :
    ∃ s', s.puts a bs = some s' ∧ Stored s s' D K L (bytesFrom a bs) := by
  induction bs generalizing s a with
  | nil => exact ⟨s, rfl, (Stored.refl h).congr fun _ => bytesFrom_nil.symm⟩
  | cons b bs ih =>
    rw [List.length_cons] at hlast hm
    obtain ⟨hu, hv⟩ := hm 0 (Nat.zero_lt_succ _)
    rw [Nat.add_zero] at hu hv
    obtain ⟨s₁, h1, hs₁⟩ := h.put_mapped (b := b) hd hu hv
    have hm₁ : ∀ i < bs.length, UserPage ((a + 1 + i) / pgsize) ∧ s₁.view s₁.cr3 ((a + 1 + i) / pgsize) ≠ none := by
      intro i hi
      obtain ⟨hu', hv'⟩ := hm (i + 1) (Nat.succ_lt_succ hi)
      rw [show a + (i + 1) = a + 1 + i by omega] at hu' hv'
      rw [hs₁.cr3, hs₁.same.view hd hu']
      exact ⟨hu', hv'⟩
    -- the address is counted modulo `2 ^ 32`
    have hrest : ∃ s', s₁.puts (uint32 (a + 1)) bs = some s' ∧ Stored s₁ s' D K L (bytesFrom (a + 1) bs) := by
      by_cases hw : a + 1 < 2 ^ 32
      · rw [uint32_of_lt hw]
        exact ih hs₁.sound (hs₁.cr3 ▸ hd) (by omega) hm₁
      · -- the last address of all: nothing is left to write
        obtain rfl : bs = [] := List.eq_nil_of_length_eq_zero (by omega)
        exact ⟨s₁, rfl, (Stored.refl hs₁.sound).congr fun _ => bytesFrom_nil.symm⟩
    obtain ⟨s', h2, hs'⟩ := hrest
    refine ⟨s', ?_, (hs₁.trans hs').congr fun _ => bytesFrom_cons⟩
    unfold puts
    rw [h1]
    exact h2

end TinyOS.Vm
