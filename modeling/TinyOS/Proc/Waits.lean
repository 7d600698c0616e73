/-
The invariant behind every run of processes: the wait lists hold exactly the blocked processes, a
process waits only on a semaphore that it owns or holds, and a user semaphore counts the live
processes that hold it. So no semaphore that is handed out again has a waiter.
-/
import TinyOS.Proc.Basic
import TinyOS.Lib.Count
import TinyOS.Lib.Run

namespace TinyOS.Kernel

open TinyOS.Lib TinyOS.Klib

variable {k k' : Kernel} {dom : Sema → Prop} {wait : Sema → List Nat} {p q u c : Nat} {x : Sema}

/-! ## Holding a semaphore -/

/-- Neither a free PCB nor a zombie. -/
def Live (s : Sys Sema) (p : Nat) : Prop := s.status p ≠ .unused ∧ s.status p ≠ .zombie

instance {s : Sys Sema} : Decidable (Live s p) := inferInstanceAs (Decidable (_ ∧ _))

def held (k : Kernel) (p u : Nat) : Int := if Live k.sys p then slots maxUsem (k.pcb p).usems u else 0

def holders (k : Kernel) (u : Nat) : Int := ∑ p ∈ Finset.range procNum, k.held p u

/-- A process may wait for input, on its own `zombie_sem` and on a user semaphore that it holds. -/
def MayWait (k : Kernel) (q : Nat) : Sema → Prop
  | .serial => True
  | .zombie p => q = p
  | .user u => ∃ j < maxUsem, (k.pcb q).usems j = some u

theorem eachUsem_dup (usems : Nat → Option Nat) (ref : Nat → Int) :
    eachUsem usemDup usems ref u = ref u + slots maxUsem usems u := by
  have h : eachUsem usemDup usems ref u = ref u + 1 * slots maxUsem usems u := foldl_count (fun _ _ => rfl) ref
  rw [one_mul] at h
  exact h

theorem eachUsem_close (usems : Nat → Option Nat) (ref : Nat → Int) :
    eachUsem usemClose usems ref u = ref u - slots maxUsem usems u := by
  have h : eachUsem usemClose usems ref u = ref u + -1 * slots maxUsem usems u := foldl_count (fun _ _ => rfl) ref
  rw [neg_one_mul] at h
  exact h

theorem held_nonneg : 0 ≤ k.held p u := by
  unfold held
  split
  · exact Int.natCast_nonneg _
  · exact le_refl 0

/-- One live process that holds a semaphore is enough. -/
theorem holders_pos (hp : p < procNum) (hl : Live k.sys p) (h : ∃ j < maxUsem, (k.pcb p).usems j = some u) :
    0 < k.holders u := by
  have hle : k.held p u ≤ k.holders u :=
    Finset.single_le_sum (fun q _ => held_nonneg) (Finset.mem_range.2 hp)
  have hpos : 0 < k.held p u := by
    unfold held
    rw [if_pos hl]
    exact Int.natCast_pos.2 (slots_pos.2 h)
  omega

/-! ## The invariant -/

/-- The semaphores in `dom` are set up, with the processes `wait` on their lists; those in `G` have as
many waiters as their values say. -/
structure Waits (G dom : Sema → Prop) (wait : Sema → List Nat) (k : Kernel) : Prop where
  ok : Sys.WaitOK dom k.sys wait
  serial : dom .serial
  zombie : ∀ p < procNum, k.sys.status p ≠ .unused → dom (.zombie p)
  user : ∀ u, 0 < k.ref u → dom (.user u)
  parent : ∀ p q, (k.pcb p).parent = some q → dom (.zombie q)
  may : ∀ x, dom x → ∀ q ∈ wait x, k.MayWait q x
  refs : ∀ u, k.ref u = k.holders u
  tight : ∀ x, dom x → G x → k.sys.Tight wait x ∧ k.sys.value x < 2 ^ 31

/-- Who waits on a list waited on it before. -/
def Fewer (wait' wait : Sema → List Nat) : Prop := ∀ x, ∀ q ∈ wait' x, q ∈ wait x

theorem Fewer.refl (wait : Sema → List Nat) : Fewer wait wait := fun _ _ hq => hq

theorem Fewer.update {l : List Nat} (h : ∀ q ∈ l, q ∈ wait x) : Fewer (Function.update wait x l) wait := by
  intro y q hq
  by_cases hyx : y = x
  · subst hyx
    rw [Function.update_self] at hq
    exact h q hq
  · rw [Function.update_of_ne hyx] at hq
    exact hq

variable {G : Sema → Prop} {s : Sys Sema} {st : Status}

theorem Waits.congr (h : Waits G dom wait k) (h1 : k'.sys = k.sys) (h2 : k'.pcb = k.pcb) (h3 : k'.ref = k.ref) :
    Waits G dom wait k' := by
  have hold : ∀ u, k'.holders u = k.holders u := fun u => by
    unfold holders held
    rw [h1, h2]
  have hmay : ∀ q x, k'.MayWait q x ↔ k.MayWait q x := fun q x => by
    unfold MayWait
    rw [h2]
  refine ⟨h1 ▸ h.ok, h.serial, ?_, ?_, ?_, fun x hx q hq => (hmay q x).2 (h.may x hx q hq), fun u => ?_, ?_⟩
  · rw [h1]; exact h.zombie
  · rw [h3]; exact h.user
  · rw [h2]; exact h.parent
  · rw [h3, hold]; exact h.refs u
  · rw [h1]; exact h.tight

/-- Other wait lists, with the same processes alive. -/
theorem Waits.sys {wait' : Sema → List Nat} (h : Waits G dom wait k) (hok : Sys.WaitOK dom s wait')
    (hu : ∀ p < procNum, s.status p ≠ .unused → dom (.zombie p))
    (hl : ∀ p, (Live s p ↔ Live k.sys p) ∨ ∀ j, (k.pcb p).usems j = none)
    (hmay : ∀ x, dom x → ∀ q ∈ wait' x, k.MayWait q x)
    (ht : ∀ x, dom x → G x → s.Tight wait' x ∧ s.value x < 2 ^ 31) : Waits G dom wait' { k with sys := s } := by
  refine ⟨hok, h.serial, hu, h.user, h.parent, hmay, fun u => (h.refs u).trans (Finset.sum_congr rfl fun p _ => ?_), ht⟩
  unfold held
  rcases hl p with hl | hl
  · simp only [hl]
  · simp only [slots_none hl, Nat.cast_zero, ite_self]

theorem Waits.blocked (h : Waits G dom wait k) (hx : dom x) (hq : q ∈ wait x) : k.sys.status q = .blocked :=
  (h.ok.blocked q).2 ⟨x, hx, hq⟩

/-- A change of status that blocks and wakes nobody. -/
theorem Waits.status (h : Waits G dom wait k) (h1 : s.lists = k.sys.lists) (h2 : s.value = k.sys.value)
    (h3 : s.status = Function.update k.sys.status p st) (hp : k.sys.status p ≠ .blocked) (hst : st ≠ .blocked)
    (hl : (Live s p ↔ Live k.sys p) ∨ ∀ j, (k.pcb p).usems j = none) (hu : st ≠ .unused → dom (.zombie p)) :
    Waits G dom wait { k with sys := s } := by
  have hother : ∀ q, q ≠ p → s.status q = k.sys.status q := fun q hq => by rw [h3, Function.update_of_ne hq]
  have hself : s.status p = st := by rw [h3, Function.update_self]
  refine h.sys (h.ok.congr h1 (fun q => ?_) fun _ _ => rfl) (fun q hlt => ?_) (fun q => ?_) h.may fun x hx hg => ?_
  · by_cases hq : q = p
    · rw [hq, hself]
      exact ⟨fun hc => absurd hc hst, fun hc => absurd hc hp⟩
    · rw [hother q hq]
  · by_cases hq : q = p
    · rw [hq, hself]
      exact hu
    · rw [hother q hq]
      exact h.zombie q hlt
  · by_cases hq : q = p
    · rw [hq]
      exact hl
    · unfold Live
      rw [hother q hq]
      exact Or.inl Iff.rfl
  · unfold Sys.Tight
    rw [h2]
    exact h.tight x hx hg

/-! ## `sem_p` and `sem_v` -/

theorem Waits.semP (h : Waits G dom wait k) (hx : dom x) (hc : 1 ≤ k.sys.curr ∧ k.sys.curr < procNum)
    (hr : k.sys.status k.sys.curr = .running) (hm : k.MayWait k.sys.curr x) (hs : k.sys.semP x = some s) :
    s.curr = k.sys.curr ∧
      ((s.status = k.sys.status ∧ Waits G dom wait { k with sys := s }) ∨
        (s.status = Function.update k.sys.status k.sys.curr .blocked ∧
          Waits G dom (Function.update wait x (wait x ++ [k.sys.curr])) { k with sys := s })) := by
  have hlen := h.ok.length_le hx
  -- where value and list agree the counter is far from its lower end
  have hval : G x → int32 (k.sys.value x - 1) = k.sys.value x - 1 := fun hg => by
    obtain ⟨ht, hlt⟩ := h.tight x hx hg
    unfold Sys.Tight at ht
    exact int32_of_range (by omega) (by omega)
  rcases h.ok.semP hx hc (by rw [hr]; decide) hs with ⟨hv, rfl, hok⟩ | ⟨hv, hcurr, hst, hvalue, hok⟩
  · refine ⟨rfl, Or.inl ⟨rfl, h.sys hok h.zombie (fun _ => Or.inl Iff.rfl) h.may fun y hy hg => ?_⟩⟩
    obtain ⟨ht, hlt⟩ := h.tight y hy hg
    unfold Sys.Tight at ht ⊢
    by_cases hxy : y = x
    · subst hxy
      rw [hval hg] at hv
      simp only [Sys.setValue, Function.update_self, hval hg]
      omega
    · simp only [Sys.setValue, Function.update_of_ne hxy]
      exact ⟨ht, hlt⟩
  · refine ⟨hcurr, Or.inr ⟨hst, h.sys hok (fun q hlt => ?_) (fun q => Or.inl ?_) (fun y hy q hq => ?_) fun y hy hg =>
      ?_⟩⟩
    · by_cases hq : q = k.sys.curr
      · refine fun _ => h.zombie q hlt ?_
        rw [hq, hr]
        decide
      · rw [hst, Function.update_of_ne hq]
        exact h.zombie q hlt
    · unfold Live
      by_cases hq : q = k.sys.curr
      · rw [hq, hst, hr, Function.update_self]
        decide
      · rw [hst, Function.update_of_ne hq]
    · by_cases hxy : y = x
      · subst hxy
        rw [Function.update_self, List.mem_append, List.mem_singleton] at hq
        rcases hq with hq | rfl
        · exact h.may y hy q hq
        · exact hm
      · rw [Function.update_of_ne hxy] at hq
        exact h.may y hy q hq
    · obtain ⟨ht, hlt⟩ := h.tight y hy hg
      unfold Sys.Tight at ht ⊢
      rw [hvalue]
      by_cases hxy : y = x
      · subst hxy
        rw [hval hg] at hv
        rw [Function.update_self, Function.update_self, hval hg, List.length_append, List.length_singleton]
        push_cast
        omega
      · rw [Function.update_of_ne hxy, Function.update_of_ne hxy]
        exact ⟨ht, hlt⟩

theorem Waits.semV (h : Waits G dom wait k) (hx : dom x) (hb : G x → k.sys.value x + 1 < 2 ^ 31)
    (hs : k.sys.semV x = some s) :
    s.curr = k.sys.curr ∧ ∃ wait', Waits G dom wait' { k with sys := s } ∧ Fewer wait' wait ∧
      (s.status = k.sys.status ∨
        ∃ p, k.sys.status p = .blocked ∧ s.status = Function.update k.sys.status p .ready) := by
  have hlen := h.ok.length_le hx
  have hval : G x → int32 (k.sys.value x + 1) = k.sys.value x + 1 := fun hg => by
    obtain ⟨ht, -⟩ := h.tight x hx hg
    unfold Sys.Tight at ht
    exact int32_of_range (by omega) (hb hg)
  rcases h.ok.semV hx hs with ⟨hv, rfl, hok⟩ | ⟨hv, p, rest, hw, hcurr, hst, hvalue, hok⟩
  · refine ⟨rfl, wait, h.sys hok h.zombie (fun _ => Or.inl Iff.rfl) h.may fun y hy hg => ?_, .refl wait, Or.inl rfl⟩
    obtain ⟨ht, hlt⟩ := h.tight y hy hg
    unfold Sys.Tight at ht ⊢
    by_cases hxy : y = x
    · subst hxy
      have := hb hg
      rw [hval hg] at hv
      simp only [Sys.setValue, Function.update_self, hval hg]
      omega
    · simp only [Sys.setValue, Function.update_of_ne hxy]
      exact ⟨ht, hlt⟩
  · have hp : k.sys.status p = .blocked := h.blocked hx (by rw [hw]; exact List.mem_cons_self)
    refine ⟨hcurr, _, h.sys hok (fun q hlt => ?_) (fun q => Or.inl ?_) (fun y hy q hq => ?_) fun y hy hg => ?_,
      .update fun q hq => by rw [hw]; exact List.mem_cons_of_mem _ hq, Or.inr ⟨p, hp, hst⟩⟩
    · by_cases hq : q = p
      · refine fun _ => h.zombie q hlt ?_
        rw [hq, hp]
        decide
      · rw [hst, Function.update_of_ne hq]
        exact h.zombie q hlt
    · unfold Live
      by_cases hq : q = p
      · rw [hq, hst, hp, Function.update_self]
        decide
      · rw [hst, Function.update_of_ne hq]
    · by_cases hxy : y = x
      · subst hxy
        rw [Function.update_self] at hq
        exact h.may y hy q (by rw [hw]; exact List.mem_cons_of_mem _ hq)
      · rw [Function.update_of_ne hxy] at hq
        exact h.may y hy q hq
    · obtain ⟨ht, hlt⟩ := h.tight y hy hg
      unfold Sys.Tight at ht ⊢
      rw [hvalue]
      by_cases hxy : y = x
      · subst hxy
        rw [hw, List.length_cons] at ht
        rw [hval hg] at hv
        push_cast at ht
        rw [Function.update_self, Function.update_self, hval hg]
        omega
      · rw [Function.update_of_ne hxy, Function.update_of_ne hxy]
        exact ⟨ht, hlt⟩

/-! ## `sem_init` -/

/-- A semaphore without waiters is set up again. -/
theorem Waits.semInit (h : Waits G dom wait k) {v : Int} (hw : dom x → wait x = []) (hv : G x → 0 ≤ v ∧ v < 2 ^ 31) :
    Waits G (fun y => dom y ∨ y = x) (Function.update wait x []) { k with sys := k.sys.semInit x v } := by
  have hold : ∀ y q, q ∈ Function.update wait x [] y → (dom y ∨ y = x) → dom y ∧ q ∈ wait y := fun y q hq hy => by
    by_cases hxy : y = x
    · rw [hxy, Function.update_self] at hq
      cases hq
    · rw [Function.update_of_ne hxy] at hq
      exact ⟨hy.resolve_right hxy, hq⟩
  refine ⟨h.ok.semInit hw v, Or.inl h.serial, fun p hp hs => Or.inl (h.zombie p hp hs), fun u hu =>
    Or.inl (h.user u hu), fun p q hpq => Or.inl (h.parent p q hpq), fun y hy q hq => ?_, h.refs, fun y hy hg => ?_⟩
  · obtain ⟨hd, hq'⟩ := hold y q hq hy
    exact h.may y hd q hq'
  · unfold Sys.Tight
    simp only [Sys.semInit, Sys.setValue]
    by_cases hxy : y = x
    · subst hxy
      have := hv hg
      rw [Function.update_self, Function.update_self, List.length_nil]
      push_cast
      omega
    · rw [Function.update_of_ne hxy, Function.update_of_ne hxy]
      exact h.tight y (hy.resolve_right hxy) hg

end TinyOS.Kernel
