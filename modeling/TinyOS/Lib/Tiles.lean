/-
Half-open intervals that tile a set: any order of the tiles, cutting a tile in two or joining two
that touch, a further tile, and an interval covered by tiles that do not touch each other.
-/
import Mathlib

namespace TinyOS.Lib

variable {α : Type} [LinearOrder α] {bs cs : List (α × α)} {R : Set α} {b : α × α} {x lo mid hi : α}

/-- The points from `b.1` up to `b.2`. -/
def span (b : α × α) : Set α := Set.Ico b.1 b.2

@[simp] theorem mem_span : x ∈ span b ↔ b.1 ≤ x ∧ x < b.2 := Iff.rfl

/-- The tiles are disjoint, and their union is `R`. -/
structure Tiles (bs : List (α × α)) (R : Set α) : Prop where
  apart : bs.Pairwise fun a b => Disjoint (span a) (span b)
  cover : ∀ x, x ∈ R ↔ ∃ b ∈ bs, x ∈ span b

namespace Tiles

theorem perm (h : Tiles bs R) (hp : bs.Perm cs) : Tiles cs R :=
  ⟨(hp.pairwise_iff fun h => h.symm).1 h.apart, fun x => by rw [h.cover]; simp only [hp.mem_iff]⟩

/-- Two tiles that touch are as good as one. -/
theorem split_iff (h1 : lo ≤ mid) (h2 : mid ≤ hi) :
    Tiles ((lo, hi) :: bs) R ↔ Tiles ((lo, mid) :: (mid, hi) :: bs) R := by
  have hu : span (lo, hi) = span (lo, mid) ∪ span (mid, hi) := (Set.Ico_union_Ico_eq_Ico h1 h2).symm
  have hd : Disjoint (span (lo, mid)) (span (mid, hi)) := Set.Ico_disjoint_Ico_same
  constructor
  · rintro ⟨ha, hc⟩
    obtain ⟨ha1, ha2⟩ := List.pairwise_cons.1 ha
    simp only [hu, Set.disjoint_union_left] at ha1
    refine ⟨List.pairwise_cons.2 ⟨?_, List.pairwise_cons.2 ⟨fun b hb => (ha1 b hb).2, ha2⟩⟩, fun x => ?_⟩
    · rintro b (- | ⟨_, hb⟩)
      · exact hd
      · exact (ha1 b hb).1
    · rw [hc]
      simp only [List.exists_mem_cons_iff, hu, Set.mem_union, or_assoc]
  · rintro ⟨ha, hc⟩
    obtain ⟨ha1, ha2⟩ := List.pairwise_cons.1 ha
    obtain ⟨ha2, ha3⟩ := List.pairwise_cons.1 ha2
    refine ⟨List.pairwise_cons.2 ⟨fun b hb => ?_, ha3⟩, fun x => ?_⟩
    · rw [hu, Set.disjoint_union_left]
      exact ⟨ha1 b (List.mem_cons_of_mem _ hb), ha2 b hb⟩
    · rw [hc]
      simp only [List.exists_mem_cons_iff, hu, Set.mem_union, or_assoc]

/-- A further tile outside of the set. -/
theorem cons (h : Tiles bs R) (hb : Disjoint (span b) R) : Tiles (b :: bs) (span b ∪ R) := by
  refine ⟨List.pairwise_cons.2 ⟨fun c hc => ?_, h.apart⟩, fun x => ?_⟩
  · exact hb.mono_right fun x hx => (h.cover x).2 ⟨c, hc, hx⟩
  · rw [Set.mem_union, h.cover, List.exists_mem_cons_iff]

theorem subset (h : Tiles bs R) (hb : b ∈ bs) : span b ⊆ R := fun x hx => (h.cover x).2 ⟨b, hb, hx⟩

end Tiles

/-- An interval covered by tiles with gaps between them is within one of them. -/
theorem within_one (hgap : bs.Pairwise fun b c => b.2 < c.1) (hlt : lo < hi)
    (hcov : ∀ x, lo ≤ x → x < hi → ∃ b ∈ bs, x ∈ span b) : ∃ b ∈ bs, b.1 ≤ lo ∧ hi ≤ b.2 := by
  obtain ⟨b, hb, hlo, hlo'⟩ := hcov lo le_rfl hlt
  refine ⟨b, hb, hlo, le_of_not_gt fun hc => ?_⟩
  -- the end of this tile is within the next one, which would touch it
  obtain ⟨c, hc', h1, h2⟩ := hcov b.2 hlo'.le hc
  have hbc : b ≠ c := by
    rintro rfl
    exact lt_irrefl _ h2
  have : Std.Symm fun b c : α × α => b.2 < c.1 ∨ c.2 < b.1 := ⟨fun _ _ h => h.symm⟩
  have hor : bs.Pairwise fun b c => b.2 < c.1 ∨ c.2 < b.1 := hgap.imp fun h => Or.inl h
  rcases hor.forall hb hc' hbc with h | h
  · exact absurd h1 (not_le.2 h)
  · exact absurd (h2.trans h) (not_lt.2 (hlo.trans hlo'.le))

end TinyOS.Lib
