/-
Counting the threads at given places, when one of them moves.
-/
import Mathlib.Tactic

namespace TinyOS.Lib

variable {τ α : Type} [Fintype τ] [DecidableEq τ]

/-- How many threads have a property. -/
def tally (f : τ → α) (p : α → Bool) : Nat := (Finset.univ.filter fun t => p (f t) = true).card

variable {f : τ → α} {p : α → Bool} {t u : τ} {a : α}

/-- Thread `t` goes from `f t` to `a`. -/
theorem tally_update (f : τ → α) (p : α → Bool) (t : τ) (a : α) :
    tally (Function.update f t a) p + (p (f t)).toNat = tally f p + (p a).toNat := by
  have hrest : ∑ u ∈ Finset.univ.erase t, (if p (Function.update f t a u) = true then 1 else 0) =
      ∑ u ∈ Finset.univ.erase t, if p (f u) = true then 1 else 0 :=
    Finset.sum_congr rfl fun u hu => by rw [Function.update_of_ne (Finset.ne_of_mem_erase hu)]
  have hone : ∀ b : Bool, (if b = true then 1 else 0) = b.toNat := by decide
  unfold tally
  rw [Finset.card_filter, Finset.card_filter, ← Finset.add_sum_erase _ _ (Finset.mem_univ t),
    ← Finset.add_sum_erase _ (fun u => if p (f u) = true then 1 else 0) (Finset.mem_univ t), hrest,
    Function.update_self, hone, hone]
  omega

omit [DecidableEq τ] in
theorem tally_pos : 0 < tally f p ↔ ∃ t, p (f t) = true := by
  unfold tally
  rw [Finset.card_pos]
  exact ⟨fun ⟨t, ht⟩ => ⟨t, (Finset.mem_filter.1 ht).2⟩, fun ⟨t, ht⟩ =>
    ⟨t, Finset.mem_filter.2 ⟨Finset.mem_univ t, ht⟩⟩⟩

omit [DecidableEq τ] in
theorem tally_pos_of (h : p (f t) = true) : 0 < tally f p := tally_pos.2 ⟨t, h⟩

omit [DecidableEq τ] in
theorem tally_none (h : tally f p = 0) (t : τ) : p (f t) = false := by
  by_contra hc
  have := tally_pos_of (f := f) (p := p) (t := t) (by simpa using hc)
  omega

omit [DecidableEq τ] in
/-- Where at most one thread has a property, two that have it are the same. -/
theorem tally_unique (h : tally f p ≤ 1) (ht : p (f t) = true) (hu : p (f u) = true) : t = u :=
  Finset.card_le_one.1 h t (Finset.mem_filter.2 ⟨Finset.mem_univ t, ht⟩) u (Finset.mem_filter.2 ⟨Finset.mem_univ u, hu⟩)

end TinyOS.Lib
