/-
The runs of a list between separators: what a tokeniser returns, call by call.
-/
import Mathlib.Data.List.TakeWhile
import Mathlib.Tactic

namespace TinyOS.Lib

variable {α : Type} {p : α → Bool} {s pre w post : List α}

/-- The maximal runs of elements that are no separators. -/
def runs (p : α → Bool) (s : List α) : List (List α) := (s.splitOnP p).filter fun w => !w.isEmpty

/-- The first run `w` of a list, with the separators before it and the rest behind it. -/
structure Cut (p : α → Bool) (s pre w post : List α) : Prop where
  eq : s = pre ++ (w ++ post)
  pre : ∀ c ∈ pre, p c = true
  ne : w ≠ []
  run : ∀ c ∈ w, p c = false
  post : ∀ c ∈ post.head?, p c = true

@[simp] theorem runs_nil : runs p ([] : List α) = [] := rfl

theorem runs_cons_sep {c : α} (h : p c = true) : runs p (c :: s) = runs p s := by
  unfold runs
  rw [List.splitOnP_cons_eq_if_modifyHead, if_pos h, List.filter_cons_of_neg (by simp)]

theorem runs_append_sep : ∀ {pre : List α}, (∀ c ∈ pre, p c = true) → runs p (pre ++ s) = runs p s
  | [], _ => rfl
  | c :: pre, h => by
    rw [List.cons_append, runs_cons_sep (h c List.mem_cons_self), runs_append_sep fun d hd =>
      h d (List.mem_cons_of_mem _ hd)]

/-- A list of separators only. -/
theorem runs_sep (h : ∀ c ∈ s, p c = true) : runs p s = [] := by
  have := runs_append_sep (s := []) h
  rwa [List.append_nil] at this

/-- Behind a run that is all there is, or that a separator ends. -/
theorem Cut.runs (h : Cut p s pre w post) : runs p s = w :: runs p post.tail := by
  obtain ⟨rfl, hpre, hne, hrun, hpost⟩ := h
  rw [runs_append_sep hpre]
  have hkeep : (!w.isEmpty) = true := by
    cases w with
    | nil => exact absurd rfl hne
    | cons c w => rfl
  cases post with
  | nil =>
    unfold Lib.runs
    rw [List.append_nil, List.splitOnP_eq_singleton hrun, List.filter_cons, if_pos hkeep]
    rfl
  | cons c post =>
    unfold Lib.runs
    rw [List.splitOnP_append_cons_of_forall_mem hrun c (hpost c rfl), List.filter_cons, if_pos hkeep]
    rfl

/-- A list has a first run or no run. -/
theorem cut_or (p : α → Bool) : ∀ s : List α, (∀ c ∈ s, p c = true) ∨ ∃ pre w post, Cut p s pre w post
  | [] => Or.inl fun _ hc => absurd hc List.not_mem_nil
  | c :: s => by
    by_cases hc : p c = true
    · rcases cut_or p s with h | ⟨pre, w, post, h⟩
      · exact Or.inl (List.forall_mem_cons.2 ⟨hc, h⟩)
      · refine Or.inr ⟨c :: pre, w, post, ?_, List.forall_mem_cons.2 ⟨hc, h.pre⟩, h.ne, h.run, h.post⟩
        rw [h.eq]
        rfl
    · have hc : p c = false := by simpa using hc
      -- the run starts here and goes as far as it can
      refine Or.inr ⟨[], c :: s.takeWhile fun d => !p d, s.dropWhile fun d => !p d, ?_, fun _ h =>
        absurd h List.not_mem_nil, List.cons_ne_nil _ _, List.forall_mem_cons.2 ⟨hc, fun d hd => ?_⟩, fun d hd => ?_⟩
      · rw [List.nil_append, List.cons_append, List.takeWhile_append_dropWhile]
      · simpa using List.mem_takeWhile_imp hd
      · have hnot := List.head?_dropWhile_not (fun d => !p d) s
        rw [Option.mem_def] at hd
        rw [hd] at hnot
        simpa using hnot

theorem length_le_of_mem_runs {s v : List α} (h : v ∈ runs p s) : v.length ≤ s.length := by
  rcases cut_or p s with hs | ⟨pre, w, post, hc⟩
  · rw [runs_sep hs] at h
    cases h
  · have hlen := congrArg List.length hc.eq
    have hw := List.length_pos_iff.2 hc.ne
    rw [List.length_append, List.length_append] at hlen
    have hshort : post.length - 1 < s.length := by omega
    rw [hc.runs] at h
    rcases List.mem_cons.1 h with rfl | h
    · omega
    · exact (length_le_of_mem_runs h).trans (by rw [List.length_tail]; exact hshort.le)
termination_by s.length

theorem length_runs_le (p : α → Bool) (s : List α) : (runs p s).length ≤ s.length := by
  rcases cut_or p s with hs | ⟨pre, w, post, hc⟩
  · rw [runs_sep hs]
    exact Nat.zero_le _
  · have hlen := congrArg List.length hc.eq
    have hw := List.length_pos_iff.2 hc.ne
    rw [List.length_append, List.length_append] at hlen
    have hshort : post.length - 1 < s.length := by omega
    have ih := length_runs_le p post.tail
    rw [List.length_tail] at ih
    rw [hc.runs, List.length_cons]
    omega
termination_by s.length

/-- Only a list of separators has no run. -/
theorem runs_eq_nil : runs p s = [] ↔ ∀ c ∈ s, p c = true := by
  refine ⟨fun h => ?_, runs_sep⟩
  rcases cut_or p s with hs | ⟨pre, w, post, hc⟩
  · exact hs
  · rw [hc.runs] at h
    cases h

end TinyOS.Lib
