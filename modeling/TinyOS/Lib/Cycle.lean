/-
Singly linked segments and cycles: a `next` function that leads through the nodes of a list, a
cycle entered at any of its nodes, and the loop that follows `next` until a test holds.
-/
import Mathlib.Tactic

namespace TinyOS.Lib

variable {α : Type} {next next' : α → α} {stop : α → Bool} {l r : List α} {a b t : α}

/-- `next` leads from each node of the list to the one behind it, and from the last one to `t`. -/
def Path (next : α → α) : List α → α → Prop
  | [], _ => True
  | a :: l, t => next a = l.headD t ∧ Path next l t

/-- `while (!stop(a)) a = next(a);` -/
def follow (next : α → α) (stop : α → Bool) : Nat → α → Option α
  | 0, _ => none
  | n + 1, a => if stop a then some a else follow next stop n (next a)

/-- More turns change nothing. -/
theorem follow_mono {n : Nat} (h : follow next stop n a = some b) : follow next stop (n + 1) a = some b := by
  induction n generalizing a with
  | zero => cases h
  | succ n ih =>
    rw [follow] at h ⊢
    split
    · next hs => rwa [if_pos hs] at h
    · next hs =>
      rw [if_neg hs] at h
      exact ih h

theorem path_append : Path next (l ++ r) t ↔ Path next l (r.headD t) ∧ Path next r t := by
  induction l with
  | nil => simp [Path]
  | cons a l ih =>
    have hd : (l ++ r).headD t = l.headD (r.headD t) := by cases l <;> rfl
    simp only [List.cons_append, Path, ih, hd, and_assoc]

theorem path_congr (h : ∀ a ∈ l, next' a = next a) : Path next' l t ↔ Path next l t := by
  induction l with
  | nil => rfl
  | cons a l ih =>
    simp only [Path, h a List.mem_cons_self, ih fun b hb => h b (List.mem_cons_of_mem a hb)]

/-- The node behind one in the middle. -/
theorem Path.next_eq (h : Path next (l ++ a :: r) t) : next a = r.headD t := (path_append.1 h).2.1

/-- Each node but the first is behind one that is not the last. -/
theorem Path.behind (h : Path next (a :: l) t) (hb : b ∈ l) : ∃ e ∈ (a :: l).dropLast, next e = b := by
  induction l generalizing a with
  | nil => cases hb
  | cons d l ih =>
    rcases List.mem_cons.1 hb with rfl | hb
    · exact ⟨a, by simp, h.1⟩
    · obtain ⟨e, he, hne⟩ := ih h.2 hb
      exact ⟨e, by simp [he], hne⟩

/-- A cycle can be entered at each of its nodes. -/
theorem Path.rotate (h : Path next l (l.headD t)) (ha : a ∈ l) : ∃ l', (a :: l').Perm l ∧ Path next (a :: l') a := by
  obtain ⟨l₁, l₂, rfl⟩ := List.append_of_mem ha
  have hd : (l₁ ++ a :: l₂).headD t = l₁.headD a := by cases l₁ <;> rfl
  rw [hd] at h
  obtain ⟨hl, hr⟩ := path_append.1 h
  exact ⟨l₂ ++ l₁, (List.perm_append_comm : (a :: l₂ ++ l₁).Perm _), path_append.2 ⟨hr, hl⟩⟩

/-- On a path with a node where the test holds, the loop ends at the first such node. -/
theorem Path.follow (h : Path next l t) (hb : ∃ b ∈ l, stop b = true) :
    ∃ l₁ c l₂, l = l₁ ++ c :: l₂ ∧ stop c = true ∧ (∀ a ∈ l₁, stop a = false) ∧
      ∀ n, l.length ≤ n → follow next stop n (l.headD t) = some c := by
  induction l with
  | nil => simp at hb
  | cons a l ih =>
    by_cases ha : stop a = true
    · refine ⟨[], a, l, rfl, ha, by simp, ?_⟩
      rintro (- | n) hn
      · simp at hn
      · simp [Lib.follow, ha]
    · have hbl : ∃ b ∈ l, stop b = true := by
        obtain ⟨b, hb, hs⟩ := hb
        rcases List.mem_cons.1 hb with rfl | hb
        · exact absurd hs ha
        · exact ⟨b, hb, hs⟩
      obtain ⟨l₁, c, l₂, rfl, hc, hl₁, hf⟩ := ih h.2 hbl
      refine ⟨a :: l₁, c, l₂, rfl, hc, ?_, ?_⟩
      · simpa using ⟨Bool.eq_false_iff.2 ha, hl₁⟩
      · rintro (- | n) hn
        · simp at hn
        · simp only [List.headD_cons, Lib.follow, if_neg ha, h.1]
          exact hf n (Nat.le_of_succ_le_succ hn)

/-- In a cycle the loop ends from each node, when there is a node to end at. -/
theorem Path.follow_cycle (h : Path next l (l.headD t)) (ha : a ∈ l) (hb : ∃ b ∈ l, stop b = true) :
    ∃ c ∈ l, stop c = true ∧ ∀ n, l.length ≤ n → Lib.follow next stop n a = some c := by
  obtain ⟨l', hp, hl'⟩ := h.rotate ha
  obtain ⟨l₁, c, l₂, heq, hc, -, hf⟩ := hl'.follow (show ∃ b ∈ a :: l',
    stop b = true by simpa only [hp.mem_iff] using hb)
  refine ⟨c, hp.mem_iff.1 (by simp [heq]), hc, fun n hn => ?_⟩
  rw [← hp.length_eq] at hn
  exact hf n hn

/-- One turn of a cycle looks at each node: the loop that ends in front of a good node, or in front
of the one that it started from, finds a good node when there is one. -/
theorem Path.turn [DecidableEq α] (h : Path next l (l.headD t)) (hnd : l.Nodup) (ha : a ∈ l) (good : α → Bool) :
    ∃ c ∈ l, (good (next c) = true ∨ (next c = a ∧ ∀ b ∈ l, good b = false)) ∧
      ∀ n, l.length ≤ n → Lib.follow next (fun q => good (next q) || decide (next q = a)) n a = some c := by
  obtain ⟨l', hp, hl'⟩ := h.rotate ha
  -- the last node of the turn is in front of the start
  have hlast : ∃ b ∈ a :: l', (good (next b) || decide (next b = a)) = true := by
    obtain ⟨l₀, b, hl₀⟩ := (List.eq_nil_or_concat (a :: l')).resolve_left (List.cons_ne_nil _ _)
    rw [hl₀, List.concat_eq_append] at hl'
    refine ⟨b, by simp [hl₀], ?_⟩
    simp [hl'.next_eq]
  obtain ⟨l₁, c, l₂, heq, hc, hl₁, hf⟩ := hl'.follow hlast
  have hcl : c ∈ l := hp.mem_iff.1 (by simp [heq])
  refine ⟨c, hcl, ?_, fun n hn => hf n (by rwa [hp.length_eq])⟩
  by_cases hg : good (next c) = true
  · exact Or.inl hg
  · have hca : next c = a := by simpa [hg] using hc
    -- no node is behind the last one, as that would be the start a second time
    have hl₂ : l₂ = [] := by
      rcases l₂ with - | ⟨d, l₂⟩
      · rfl
      · have hnd' := hp.nodup_iff.2 hnd
        rw [heq] at hl' hnd'
        have hd : d = a := by simpa [hca] using hl'.next_eq.symm
        rcases l₁ with - | ⟨e, l₁⟩ <;> obtain ⟨rfl, -⟩ := List.cons.inj heq <;> simp [hd] at hnd'
    refine Or.inr ⟨hca, fun b hb => ?_⟩
    rcases List.mem_cons.1 (hp.mem_iff.2 hb) with rfl | hb
    · simpa [hca] using hg
    · obtain ⟨e, he, rfl⟩ := hl'.behind hb
      have he₁ : e ∈ l₁ := by simpa [heq, hl₂] using he
      simpa using (Bool.or_eq_false_iff.1 (hl₁ e he₁)).1

end TinyOS.Lib
