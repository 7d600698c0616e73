/-
Words in a memory of words, four addresses each: what a stack that grows downwards holds from some address on.
-/
import Mathlib.Tactic

namespace TinyOS.Lib

/-- The words from `a` on. -/
def Words (mem : Nat → Nat) : (a : Nat) → (vs : List Nat) → Prop
  | _, [] => True
  | a, v :: vs => mem a = v ∧ Words mem (a + 4) vs

/-- `n` words copied from `src` to `dst`, the first one last. -/
def copyWords (mem : Nat → Nat) (src dst : Nat) : (n : Nat) → (Nat → Nat)
  | 0 => mem
  | n + 1 => Function.update (copyWords mem (src + 4) (dst + 4) n) dst (mem src)

variable {mem mem' : Nat → Nat} {a x v src dst n : Nat} {vs ws : List Nat}

theorem Words.congr (h : Words mem a vs) (hm : ∀ x, a ≤ x → x < a + 4 * vs.length → mem' x = mem x) :
    Words mem' a vs := by
  induction vs generalizing a with
  | nil => trivial
  | cons v vs ih =>
    obtain ⟨h1, h2⟩ := h
    rw [List.length_cons] at hm
    exact ⟨(hm a (le_refl a) (by omega)).trans h1, ih h2 fun x hx hx' => hm x (by omega) (by omega)⟩

theorem Words.update (h : Words mem a vs) (hx : x < a ∨ a + 4 * vs.length ≤ x) :
    Words (Function.update mem x v) a vs := by
  refine h.congr fun y h1 h2 => Function.update_of_ne ?_ ..
  rintro rfl
  omega

theorem Words.push (h : Words mem (a + 4) vs) : Words (Function.update mem a v) a (v :: vs) :=
  ⟨Function.update_self .., h.update (.inl (by omega))⟩

theorem words_append (vs : List Nat) : Words mem a (vs ++ ws) ↔ Words mem a vs ∧ Words mem (a + 4 * vs.length) ws := by
  induction vs generalizing a with
  | nil => exact (iff_of_eq (true_and _)).symm
  | cons v vs ih =>
    have ha : a + 4 + 4 * vs.length = a + 4 * (v :: vs).length := by
      rw [List.length_cons]
      omega
    rw [List.cons_append, Words, Words, ih, and_assoc, ha]

/-- A word in the middle is replaced. -/
theorem Words.set (vs : List Nat) (h : Words mem a (vs ++ x :: ws)) :
    Words (Function.update mem (a + 4 * vs.length) v) a (vs ++ v :: ws) := by
  obtain ⟨h1, -, h2⟩ := (words_append vs).1 h
  exact (words_append vs).2 ⟨h1.update (.inr (le_refl _)), h2.push⟩

theorem copyWords_other (h : x < dst ∨ dst + 4 * n ≤ x) : copyWords mem src dst n x = mem x := by
  induction n generalizing src dst with
  | zero => rfl
  | succ n ih =>
    rw [copyWords, Function.update_of_ne (by omega)]
    exact ih (by omega)

theorem Words.copy (h : Words mem src vs) : Words (copyWords mem src dst vs.length) dst vs := by
  induction vs generalizing src dst with
  | nil => trivial
  | cons v vs ih =>
    obtain ⟨rfl, h⟩ := h
    exact (ih h).push

end TinyOS.Lib
