/-
The matcher of grep (user/src/phase6/grep.c): `match`, `matchhere` and `matchstar` over the bytes of a pattern and
of a line up to their NULs, and the language of patterns with `^`, `.`, `*` and `$` that they decide.
-/
import Mathlib.Computability.Language
import Mathlib.Tactic

namespace TinyOS.Grep

abbrev hat : UInt8 := 94
abbrev dot : UInt8 := 46
abbrev star : UInt8 := 42
abbrev dollar : UInt8 := 36

/-! ## grep.c -/

/-- `do` … `while (*text != '\0' && (*text++ == c || c == '.'))`. -/
def matchstar (here : List UInt8 → Bool) (c : UInt8) : (text : List UInt8) → Bool
  | [] => here []
  | x :: text => here (x :: text) || (x == c || c == dot) && matchstar here c text

/-- `*text != '\0' && (c == '.' || c == *text)`, and then the rest of the pattern. -/
def matchone (here : List UInt8 → Bool) (c : UInt8) : (text : List UInt8) → Bool
  | [] => false
  | x :: text => (c == dot || c == x) && here text

def matchhere : (re text : List UInt8) → Bool
  | [], _ => true
  | [c], text => if c = dollar then text.isEmpty else matchone (matchhere []) c text
  | c :: d :: re, text => if d = star then matchstar (matchhere re) c text else matchone (matchhere (d :: re)) c text

/-- The loop of `match` over the text, which looks at the empty string too. -/
def search (re : List UInt8) : (text : List UInt8) → Bool
  | [] => matchhere re []
  | x :: text => matchhere re (x :: text) || search re text

def matches' (re text : List UInt8) : Bool :=
  match re with
  | [] => search [] text
  | c :: re => if c = hat then matchhere re text else search (c :: re) text

/-! ## The language of a pattern -/

/-- A character, or any number of it; `.` is every character. -/
inductive Item where
  | one (c : UInt8)
  | many (c : UInt8)
deriving DecidableEq

structure Pattern where
  atStart : Bool
  items : List Item
  atEnd : Bool
deriving DecidableEq

/-- The items, and whether there is a `$` behind them. -/
def items : List UInt8 → List Item × Bool
  | [] => ([], false)
  | [c] => if c = dollar then ([], true) else ([.one c], false)
  | c :: d :: re =>
    if d = star then (.many c :: (items re).1, (items re).2) else (.one c :: (items (d :: re)).1, (items (d :: re)).2)

/-- `^` is special in front, `$` at the end, and `*` behind a character. -/
def pattern (re : List UInt8) : Pattern :=
  if re.head? = some hat then ⟨true, (items re.tail).1, (items re.tail).2⟩ else ⟨false, (items re).1, (items re).2⟩

/-- The texts of one character. -/
def char (c : UInt8) : Language UInt8 := {t | ∃ x, t = [x] ∧ (c = dot ∨ x = c)}

open Computability in
def Item.language : Item → Language UInt8
  | .one c => char c
  | .many c => (char c)∗

/-- Some part of the text is in the language of the items, at its start or its end where the pattern says so. -/
def Pattern.Matches (p : Pattern) (text : List UInt8) : Prop :=
  ∃ s t u, text = s ++ (t ++ u) ∧ t ∈ (p.items.map Item.language).prod ∧ (p.atStart = true → s = []) ∧
    (p.atEnd = true → u = [])

variable {re text t u : List UInt8} {here : List UInt8 → Bool} {c x : UInt8}

/-! ## The matcher decides it -/

theorem mem_char : t ∈ char c ↔ ∃ x, t = [x] ∧ (c = dot ∨ x = c) := Iff.rfl

open Computability in
/-- Any number of a character: every byte is one. -/
theorem mem_many : t ∈ (char c)∗ ↔ ∀ x ∈ t, c = dot ∨ x = c := by
  rw [Language.mem_kstar]
  constructor
  · rintro ⟨L, rfl, h⟩ x hx
    obtain ⟨y, hy, hxy⟩ := List.mem_flatten.1 hx
    obtain ⟨z, rfl, hz⟩ := mem_char.1 (h y hy)
    rw [List.mem_singleton.1 hxy]
    exact hz
  · intro h
    refine ⟨t.map fun x => [x], ?_, ?_⟩
    · induction t with
      | nil => rfl
      | cons x t ih =>
        rw [List.map_cons, List.flatten_cons, ← ih fun y hy => h y (List.mem_cons_of_mem _ hy)]
        rfl
    · intro y hy
      obtain ⟨x, hx, rfl⟩ := List.mem_map.1 hy
      exact ⟨x, rfl, h x hx⟩

theorem matchone_iff : matchone here c text = true ↔ ∃ x t, text = x :: t ∧ (c = dot ∨ x = c) ∧ here t = true := by
  cases text with
  | nil =>
    constructor
    · intro h
      cases h
    · rintro ⟨x, t, h, -⟩
      cases h
  | cons y text =>
    simp only [matchone, Bool.and_eq_true, Bool.or_eq_true, beq_iff_eq]
    constructor
    · rintro ⟨h, ht⟩
      exact ⟨y, text, rfl, h.imp_right Eq.symm, ht⟩
    · rintro ⟨x, t, h, hx, ht⟩
      cases h
      exact ⟨hx.imp_right Eq.symm, ht⟩

theorem matchstar_iff : matchstar here c text = true ↔ ∃ t u, text = t ++ u ∧ (∀ x ∈ t, c = dot ∨ x = c) ∧
    here u = true := by
  induction text with
  | nil =>
    constructor
    · intro h
      exact ⟨[], [], rfl, by simp, h⟩
    · rintro ⟨t, u, h, -, hu⟩
      obtain ⟨rfl, rfl⟩ := List.append_eq_nil_iff.1 h.symm
      exact hu
  | cons y text ih =>
    simp only [matchstar, Bool.or_eq_true, Bool.and_eq_true, beq_iff_eq, ih]
    constructor
    · rintro (h | ⟨hy, t, u, rfl, ht, hu⟩)
      · exact ⟨[], y :: text, rfl, by simp, h⟩
      · refine ⟨y :: t, u, rfl, ?_, hu⟩
        intro x hx
        obtain rfl | hx := List.mem_cons.1 hx
        · exact hy.symm
        · exact ht x hx
    · rintro ⟨t, u, h, ht, hu⟩
      -- either none of the characters is taken, or the first one is
      cases t with
      | nil =>
        rw [List.nil_append] at h
        exact .inl (h ▸ hu)
      | cons x t =>
        obtain ⟨rfl, rfl⟩ := List.cons_eq_cons.1 h
        exact .inr ⟨(ht y (List.mem_cons_self ..)).symm, t, u, rfl, fun x hx => ht x (List.mem_cons_of_mem _ hx), hu⟩

/-- What the items and the `$` of a pattern say about the text from here on. -/
def Here (re text : List UInt8) : Prop :=
  ∃ t u, text = t ++ u ∧ t ∈ ((items re).1.map Item.language).prod ∧ ((items re).2 = true → u = [])

/-- A pattern that begins with an item. -/
theorem here_cons {re' : List UInt8} {i : Item} (h1 : (items re').1 = i :: (items re).1)
    (h2 : (items re').2 = (items re).2) :
    Here re' text ↔ ∃ t u, text = t ++ u ∧ t ∈ i.language ∧ Here re u := by
  simp only [Here, h1, h2, List.map_cons, List.prod_cons, Language.mem_mul]
  constructor
  · rintro ⟨t, u, rfl, ⟨a, ha, b, hb, rfl⟩, hu⟩
    exact ⟨a, b ++ u, List.append_assoc .., ha, b, u, rfl, hb, hu⟩
  · rintro ⟨a, -, rfl, ha, b, u, rfl, hb, hu⟩
    exact ⟨a ++ b, u, (List.append_assoc ..).symm, ⟨a, ha, b, hb, rfl⟩, hu⟩

theorem here_nil (text : List UInt8) : Here [] text := ⟨[], text, rfl, rfl, fun h => by cases h⟩

theorem here_one {re' : List UInt8} (h1 : (items re').1 = .one c :: (items re).1) (h2 : (items re').2 = (items re).2)
    (ih : ∀ text, matchhere re text = true ↔ Here re text) : matchone (matchhere re) c text = true ↔ Here re' text := by
  rw [matchone_iff, here_cons h1 h2]
  constructor
  · rintro ⟨x, t, rfl, hx, ht⟩
    exact ⟨[x], t, rfl, ⟨x, rfl, hx⟩, (ih t).1 ht⟩
  · rintro ⟨-, u, rfl, ⟨x, rfl, hx⟩, hu⟩
    exact ⟨x, u, rfl, hx, (ih u).2 hu⟩

theorem matchhere_iff : ∀ re text : List UInt8, matchhere re text = true ↔ Here re text
  | [], text => iff_of_true rfl (here_nil text)
  | [c], text => by
    by_cases hc : c = dollar
    · -- a `$` that ends the pattern
      subst hc
      simp only [matchhere, if_true, List.isEmpty_iff, Here, items, List.map_nil, List.prod_nil, Language.mem_one,
        forall_const]
      constructor
      · rintro rfl
        exact ⟨[], [], rfl, rfl, rfl⟩
      · rintro ⟨t, u, rfl, rfl, rfl⟩
        rfl
    · rw [matchhere, if_neg hc]
      exact here_one (by simp [items, hc]) (by simp [items, hc]) fun text => iff_of_true rfl (here_nil text)
  | c :: d :: re, text => by
    by_cases hd : d = star
    · subst hd
      have hi : (items (c :: star :: re)).1 = .many c :: (items re).1 := by simp [items]
      rw [matchhere, if_pos rfl, matchstar_iff, here_cons hi (by simp [items])]
      refine exists_congr fun t => exists_congr fun u => and_congr_right fun _ => ?_
      rw [Item.language, mem_many]
      exact and_congr_right fun _ => matchhere_iff re u
    · rw [matchhere, if_neg hd]
      exact here_one (by simp [items, hd]) (by simp [items, hd]) (matchhere_iff (d :: re))

theorem search_iff : search re text = true ↔ ∃ s t, text = s ++ t ∧ matchhere re t = true := by
  induction text with
  | nil =>
    constructor
    · intro h
      exact ⟨[], [], rfl, h⟩
    · rintro ⟨s, t, h, ht⟩
      obtain ⟨rfl, rfl⟩ := List.append_eq_nil_iff.1 h.symm
      exact ht
  | cons x text ih =>
    simp only [search, Bool.or_eq_true, ih]
    constructor
    · rintro (h | ⟨s, t, rfl, h⟩)
      · exact ⟨[], x :: text, rfl, h⟩
      · exact ⟨x :: s, t, rfl, h⟩
    · rintro ⟨s, t, h, ht⟩
      cases s with
      | nil =>
        rw [List.nil_append] at h
        exact .inl (h ▸ ht)
      | cons y s =>
        obtain ⟨rfl, rfl⟩ := List.cons_eq_cons.1 h
        exact .inr ⟨s, t, rfl, ht⟩

theorem matches_pattern (re text : List UInt8) : matches' re text = true ↔ (pattern re).Matches text := by
  have hsearch : ∀ re, search re text = true ↔ Pattern.Matches ⟨false, (items re).1, (items re).2⟩ text := by
    intro re
    rw [search_iff]
    constructor
    · rintro ⟨s, t, rfl, h⟩
      obtain ⟨t, u, rfl, ht, hu⟩ := (matchhere_iff re t).1 h
      exact ⟨s, t, u, rfl, ht, fun h => (by cases h), hu⟩
    · rintro ⟨s, t, u, rfl, ht, -, hu⟩
      exact ⟨s, t ++ u, rfl, (matchhere_iff re _).2 ⟨t, u, rfl, ht, hu⟩⟩
  cases re with
  | nil => exact hsearch []
  | cons c re =>
    by_cases hc : c = hat
    · -- the text is matched where it begins
      subst hc
      have hp : pattern (hat :: re) = ⟨true, (items re).1, (items re).2⟩ := rfl
      rw [matches', if_pos rfl, matchhere_iff, hp]
      constructor
      · rintro ⟨t, u, rfl, ht, hu⟩
        exact ⟨[], t, u, rfl, ht, fun _ => rfl, hu⟩
      · rintro ⟨s, t, u, rfl, ht, hs, hu⟩
        obtain rfl := hs rfl
        exact ⟨t, u, rfl, ht, hu⟩
    · have hp : pattern (c :: re) = ⟨false, (items (c :: re)).1, (items (c :: re)).2⟩ := by
        rw [pattern, if_neg]
        simpa using hc
      rw [matches', if_neg hc, hp]
      exact hsearch (c :: re)

end TinyOS.Grep
