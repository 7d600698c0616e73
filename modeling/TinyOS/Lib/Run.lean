/-
Runs of a labelled transition system: a run is a sequence of events, an invariant kept by every
step holds after every run, and a step may assume whatever an earlier invariant established.
-/
import Mathlib.Tactic

namespace TinyOS.Lib

variable {σ ε : Type}

/-- `Run step s es s'`: from `s` the events `es`, oldest first, lead to `s'`. -/
inductive Run (step : σ → ε → σ → Prop) (s : σ) : List ε → σ → Prop
  | nil : Run step s [] s
  | snoc {es : List ε} {e : ε} {t u : σ} : Run step s es t → step t e u → Run step s (es ++ [e]) u

namespace Run

variable {step : σ → ε → σ → Prop}

/-- An invariant of the start state that every step keeps holds at the end of the run. -/
theorem invariant {I : σ → Prop} (hstep : ∀ s e t, I s → step s e t → I t) {s t : σ} {es : List ε}
    (hr : Run step s es t) (hs : I s) : I t := by
  induction hr with
  | nil => exact hs
  | snoc _ h ih => exact hstep _ _ _ ih h

/-- An invariant indexed by the events so far. -/
theorem invariant_log {I : List ε → σ → Prop} (hstep : ∀ es s e t, I es s → step s e t → I (es ++ [e]) t)
    {s t : σ} {es : List ε} (hr : Run step s es t) (hs : I [] s) : I es t := by
  induction hr with
  | nil => exact hs
  | snoc _ h ih => exact hstep _ _ _ _ ih h

/-- A run of a system is a run of any system with more steps. -/
theorem mono {step' : σ → ε → σ → Prop} (h : ∀ s e t, step s e t → step' s e t) {s t : σ} {es : List ε}
    (hr : Run step s es t) : Run step' s es t := by
  induction hr with
  | nil => exact .nil
  | snoc _ hs ih => exact .snoc ih (h _ _ _ hs)

theorem append {s t u : σ} {es fs : List ε} (h1 : Run step s es t) (h2 : Run step t fs u) :
    Run step s (es ++ fs) u := by
  induction h2 with
  | nil => simpa using h1
  | snoc _ hs ih => rw [← List.append_assoc]; exact .snoc ih hs

theorem single {s t : σ} {e : ε} (h : step s e t) : Run step s [e] t := by
  simpa using Run.snoc .nil h

/-- A run of a system given by a partial step function. -/
theorem of_foldlM {f : σ → ε → Option σ} {s t : σ} {es : List ε} (h : es.foldlM f s = some t) :
    Run (fun s e t => f s e = some t) s es t := by
  induction es using List.reverseRecOn generalizing t with
  | nil => cases h; exact .nil
  | append_singleton es e ih =>
    rw [List.foldlM_append] at h
    obtain ⟨u, hu, h⟩ := Option.bind_eq_some_iff.1 h
    exact .snoc (ih hu) (by simpa using h)

end Run

/-- A loop over `0 … n - 1` that never fails while its invariant holds. -/
theorem foldlM_range {f : σ → Nat → Option σ} {P : Nat → σ → Prop} {s : σ} :
    ∀ {n : Nat}, (∀ t < n, ∀ s, P t s → ∃ s', f s t = some s' ∧ P (t + 1) s') → P 0 s →
      ∃ s', (List.range n).foldlM f s = some s' ∧ P n s'
  | 0, _, h0 => ⟨s, rfl, h0⟩
  | n + 1, h, h0 => by
    have ih : ∃ s', (List.range n).foldlM f s = some s' ∧ P n s' := foldlM_range (fun t ht => h t (by omega)) h0
    obtain ⟨s', h1, h2⟩ := ih
    obtain ⟨s'', h3, h4⟩ := h n (Nat.lt_succ_self n) s' h2
    refine ⟨s'', ?_, h4⟩
    rw [List.range_succ, List.foldlM_append, h1]
    show [n].foldlM f s' = some s''
    rw [List.foldlM_cons, h3]; rfl

end TinyOS.Lib
