/-
Exact ownership of a finite supply: every resource of a universe is either free or held by exactly
one slot. `hold s r` says that slot `s` holds `r`; the rules say what taking a free resource and
dropping the resources of some slots do.
-/
import Mathlib.Tactic

namespace TinyOS.Lib

variable {ρ σ : Type} {univ free free' : ρ → Prop} {hold hold' : σ → ρ → Prop}

/-- Only resources of the universe are held, none by two slots, and the free ones are exactly those
that no slot holds. -/
structure Exact (univ : ρ → Prop) (hold : σ → ρ → Prop) (free : ρ → Prop) : Prop where
  range : ∀ s r, hold s r → univ r
  inj : ∀ s t r, hold s r → hold t r → s = t
  part : ∀ r, univ r → (free r ↔ ∀ s, ¬ hold s r)

namespace Exact

theorem not_free (h : Exact univ hold free) {s : σ} {r : ρ} (hs : hold s r) : ¬ free r :=
  fun hf => (h.part r (h.range s r hs)).1 hf s hs

theorem not_hold (h : Exact univ hold free) {r : ρ} (hu : univ r) (hf : free r) (s : σ) : ¬ hold s r :=
  (h.part r hu).1 hf s

theorem held (h : Exact univ hold free) {r : ρ} (hu : univ r) (hf : ¬ free r) : ∃ s, hold s r := by
  by_contra hn
  exact hf ((h.part r hu).2 fun s hs => hn ⟨s, hs⟩)

theorem congr (h : Exact univ hold free) (hh : ∀ s r, hold' s r ↔ hold s r)
    (hf : ∀ r, univ r → (free' r ↔ free r)) : Exact univ hold' free' where
  range s r hs := h.range s r ((hh s r).1 hs)
  inj s t r hs ht := h.inj s t r ((hh s r).1 hs) ((hh t r).1 ht)
  part r hu := by simp only [hf r hu, h.part r hu, hh]

/-- Slot `s` takes the free resource `r`. -/
theorem take (h : Exact univ hold free) {s : σ} {r : ρ} (hu : univ r) (hr : free r)
    (hh : ∀ t q, hold' t q ↔ hold t q ∨ (t = s ∧ q = r)) (hf : ∀ q, univ q → (free' q ↔ free q ∧ q ≠ r)) :
    Exact univ hold' free' where
  range t q ht := by
    rcases (hh t q).1 ht with ht | ⟨-, rfl⟩
    · exact h.range t q ht
    · exact hu
  inj t u q ht hu' := by
    rcases (hh t q).1 ht with ht | ⟨rfl, rfl⟩ <;> rcases (hh u q).1 hu' with hq | ⟨rfl, hq⟩
    · exact h.inj t u q ht hq
    · subst hq; exact absurd ht (h.not_hold hu hr t)
    · exact absurd hq (h.not_hold hu hr u)
    · rfl
  part q hq := by
    simp only [hf q hq, h.part q hq, hh]
    constructor
    · rintro ⟨h1, h2⟩ t (ht | ⟨-, rfl⟩)
      · exact h1 t ht
      · exact h2 rfl
    · intro h1
      exact ⟨fun t ht => h1 t (Or.inl ht), fun he => h1 s (Or.inr ⟨rfl, he⟩)⟩

/-- The slots of `D` drop what they hold. -/
theorem drop (h : Exact univ hold free) {D : σ → Prop} (hh : ∀ t q, hold' t q ↔ hold t q ∧ ¬ D t)
    (hf : ∀ q, univ q → (free' q ↔ free q ∨ ∃ t, D t ∧ hold t q)) : Exact univ hold' free' where
  range t q ht := h.range t q ((hh t q).1 ht).1
  inj t u q ht hu := h.inj t u q ((hh t q).1 ht).1 ((hh u q).1 hu).1
  part q hq := by
    simp only [hf q hq, hh]
    constructor
    · rintro (hfree | ⟨t, hD, ht⟩) u ⟨hu, hDu⟩
      · exact h.not_hold hq hfree u hu
      · exact hDu (h.inj u t q hu ht ▸ hD)
    · intro hn
      by_cases hfree : free q
      · exact Or.inl hfree
      · obtain ⟨t, ht⟩ := h.held hq hfree
        exact Or.inr ⟨t, by_contra fun hD => hn t ⟨ht, hD⟩, ht⟩

/-- Slot `u` takes over what slot `s` holds. -/
theorem move (h : Exact univ hold free) {s u : σ} {r : ρ} (hs : ∀ q, hold s q ↔ q = r)
    (hh : ∀ t q, hold' t q ↔ (hold t q ∧ t ≠ s) ∨ (t = u ∧ q = r)) : Exact univ hold' free := by
  have hr : hold s r := (hs r).2 rfl
  refine ⟨fun t q ht => ?_, fun t v q ht hv => ?_, fun q hq => ?_⟩
  · rcases (hh t q).1 ht with ⟨ht, -⟩ | ⟨-, rfl⟩
    · exact h.range t q ht
    · exact h.range s q hr
  · -- nobody but `s` held `r` before
    rcases (hh t q).1 ht with ⟨ht, hts⟩ | ⟨rfl, hq⟩ <;> rcases (hh v q).1 hv with ⟨hv, hvs⟩ | ⟨rfl, hq'⟩
    · exact h.inj t v q ht hv
    · exact absurd (h.inj t s q ht (hq' ▸ hr)) hts
    · exact absurd (h.inj v s q hv (hq ▸ hr)) hvs
    · rfl
  · -- what is free stays free: `r` is held before and after
    rw [h.part q hq]
    constructor
    · intro hn t ht
      rcases (hh t q).1 ht with ⟨ht, -⟩ | ⟨-, rfl⟩
      · exact hn t ht
      · exact hn s hr
    · intro hn t ht
      by_cases hts : t = s
      · rw [hts, hs] at ht
        exact hn u ((hh u q).2 (Or.inr ⟨rfl, ht⟩))
      · exact hn t ((hh t q).2 (Or.inl ⟨ht, hts⟩))

end Exact

end TinyOS.Lib
