/-
The semaphores of the kernel are the queues of `Lib.Semaphore`: `sem_p` and `sem_v` on the node pool and the
process states do what P and V do on values and lists of waiters.
-/
import TinyOS.Lib.Semaphore
import TinyOS.Sem.Basic

namespace TinyOS

open TinyOS.Lib

namespace Sys

variable {ι : Type} [DecidableEq ι] {dom : ι → Prop} {s s' : Sys ι} {q : Sems ι} {x : ι}

/-- The semaphores `dom` of the kernel have these values and waiters. -/
structure Shows (dom : ι → Prop) (s : Sys ι) (q : Sems ι) : Prop where
  waits : WaitOK dom s q.wait
  value : s.value = q.value

/-- `sem_p` is P of the queue, and its caller is blocked when P blocks. -/
theorem Shows.semP (h : Shows dom s q) (hx : dom x) (hc : 1 ≤ s.curr ∧ s.curr < procNum)
    (hr : s.status s.curr ≠ .blocked) (hv : -2 ^ 31 ≤ s.value x - 1 ∧ s.value x - 1 < 2 ^ 31)
    (hs : s.semP x = some s') :
    Shows dom s' (q.p x s.curr).1 ∧ (s'.status s.curr = .blocked ↔ (q.p x s.curr).2 = true) := by
  have hint : int32 (s.value x - 1) = s.value x - 1 := int32_of_range hv.1 hv.2
  have hq : q.value x = s.value x := congrFun h.value.symm x
  rcases h.waits.semP hx hc hr hs with ⟨hpos, rfl, hw⟩ | ⟨hneg, -, hst, hval, hw⟩
  · rw [hint] at hpos hw ⊢
    have hp : q.p x s.curr = (⟨Function.update q.value x (s.value x - 1), q.wait⟩, false) := by
      unfold Sems.p
      rw [hq, if_neg (by omega)]
    rw [hp]
    exact ⟨⟨hw, by rw [← h.value]; rfl⟩, iff_of_false hr (by simp)⟩
  · rw [hint] at hneg hval
    have hp : q.p x s.curr = (⟨Function.update q.value x (s.value x - 1),
      Function.update q.wait x (q.wait x ++ [s.curr])⟩, true) := by
      unfold Sems.p
      rw [hq, if_pos hneg]
    rw [hp]
    exact ⟨⟨hw, by rw [hval, h.value]⟩, iff_of_true (by rw [hst, Function.update_self]) rfl⟩

/-- `sem_v` is V of the queue, and makes READY whom V wakes. -/
theorem Shows.semV (h : Shows dom s q) (hx : dom x) (hv : -2 ^ 31 ≤ s.value x + 1 ∧ s.value x + 1 < 2 ^ 31)
    (hs : s.semV x = some s') : ∃ r, q.v x = some r ∧ Shows dom s' r.1 ∧
      s'.status = r.2.elim s.status (Function.update s.status · .ready) := by
  have hint : int32 (s.value x + 1) = s.value x + 1 := int32_of_range hv.1 hv.2
  have hq : q.value x = s.value x := congrFun h.value.symm x
  rcases h.waits.semV hx hs with ⟨hpos, rfl, hw⟩ | ⟨hneg, p, rest, hwait, -, hst, hval, hw⟩
  · rw [hint] at hpos hw ⊢
    refine ⟨(⟨Function.update q.value x (s.value x + 1), q.wait⟩, none), ?_, ⟨hw, by rw [← h.value]; rfl⟩, rfl⟩
    unfold Sems.v
    rw [hq, if_neg (by omega)]
  · rw [hint] at hneg hval
    refine ⟨(⟨Function.update q.value x (s.value x + 1), Function.update q.wait x rest⟩, some p), ?_,
      ⟨hw, by rw [hval, h.value]⟩, hst⟩
    unfold Sems.v
    rw [hq, if_pos hneg, hwait]

end Sys

end TinyOS
