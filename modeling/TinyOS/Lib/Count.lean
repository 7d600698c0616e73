/-
Reference counts: how often a value stands in a table of slots, sums in which one term changes, and
loops over a table that count its entries up or down.
-/
import Mathlib.Tactic

namespace TinyOS.Lib

variable {n p u v j : Nat} {tab : Nat → Option Nat}

/-- In how many of the first `n` slots `u` stands. -/
def slots (n : Nat) (tab : Nat → Option Nat) (u : Nat) : Nat := (List.range n).countP fun j => decide (tab j = some u)

theorem slots_pos : 0 < slots n tab u ↔ ∃ j < n, tab j = some u := by
  unfold slots
  rw [List.countP_pos_iff]
  simp only [List.mem_range, decide_eq_true_eq]

theorem slots_none (h : ∀ j, tab j = none) : slots n tab u = 0 := by
  unfold slots
  rw [List.countP_eq_zero]
  intro j _
  simp [h j]

/-- One slot is set. -/
theorem slots_set (hj : j < n) (o : Option Nat) : (slots n (Function.update tab j o) u : Int) =
    slots n tab u - (if tab j = some u then 1 else 0) + if o = some u then 1 else 0 := by
  have hperm := List.perm_cons_erase (List.mem_range.2 hj)
  have hrest : ((List.range n).erase j).countP (fun i => decide (Function.update tab j o i = some u)) =
      ((List.range n).erase j).countP (fun i => decide (tab i = some u)) := by
    refine List.countP_congr fun i hi => ?_
    have : i ≠ j := fun h => List.Nodup.not_mem_erase List.nodup_range (h ▸ hi)
    rw [Function.update_of_ne this]
  unfold slots
  rw [hperm.countP_eq, hperm.countP_eq, List.countP_cons, List.countP_cons, hrest]
  simp only [Function.update_self, decide_eq_true_eq]
  push_cast
  split <;> split <;> omega

/-- A loop over the slots that skips the free ones and adds `d` to the count of each entry. -/
theorem foldl_count {f : (Nat → Int) → Nat → Nat → Int} {d : Int}
    (hf : ∀ ref v, f ref v = Function.update ref v (ref v + d)) (ref : Nat → Int) :
    (List.range n).foldl (fun ref j => (tab j).elim ref (f ref)) ref u = ref u + d * slots n tab u := by
  -- over any list of slots, whatever the count was before
  have hfold : ∀ (l : List Nat) (ref : Nat → Int), l.foldl (fun ref j => (tab j).elim ref (f ref)) ref u =
      ref u + d * (l.countP fun j => decide (tab j = some u) : Nat) := by
    intro l
    induction l with
    | nil => simp
    | cons j l ih =>
      intro ref
      rw [List.foldl_cons, ih, List.countP_cons]
      cases hj : tab j with
      | none => simp
      | some v =>
        simp only [Option.elim_some, Option.some.injEq, decide_eq_true_eq, hf]
        by_cases hv : v = u
        · subst hv
          rw [Function.update_self, if_pos rfl]
          push_cast
          ring
        · rw [Function.update_of_ne (Ne.symm hv), if_neg hv, Nat.add_zero]
  exact hfold _ ref

/-- A sum in which one term changes. -/
theorem sum_one {f g : Nat → Int} (hp : p < n) (h : ∀ q, q ≠ p → g q = f q) :
    ∑ q ∈ Finset.range n, g q = (∑ q ∈ Finset.range n, f q) - f p + g p := by
  have hrest : ∑ q ∈ (Finset.range n).erase p, g q = ∑ q ∈ (Finset.range n).erase p, f q :=
    Finset.sum_congr rfl fun q hq => h q (Finset.ne_of_mem_erase hq)
  rw [← Finset.add_sum_erase _ g (Finset.mem_range.2 hp), ← Finset.add_sum_erase _ f (Finset.mem_range.2 hp), hrest]
  ring

end TinyOS.Lib
