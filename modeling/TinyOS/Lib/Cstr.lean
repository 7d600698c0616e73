/-
Strings in memory: NUL-terminated bytes at an address, the loops that scan them, and the stores that
they do not see.
-/
import TinyOS.Lib.Bytes

namespace TinyOS.Lib

/-- `while (q(*a)) a++`; `none` when it takes more than `fuel` tests. -/
def scan (m : Store) (q : UInt8 → Bool) : (fuel a : Nat) → Option Nat
  | 0, _ => none
  | fuel + 1, a => if q (m a) then scan m q fuel (a + 1) else some a

/-- Where such a loop stops: at the first byte that it does not go on for. -/
theorem scan_iff {m : Store} {q : UInt8 → Bool} {e : Nat} : ∀ {fuel a : Nat}, scan m q fuel a = some e ↔
    a ≤ e ∧ e < a + fuel ∧ q (m e) = false ∧ ∀ i, a ≤ i → i < e → q (m i) = true
  | 0, a => by
    unfold scan
    exact ⟨fun h => (by cases h), fun h => by omega⟩
  | fuel + 1, a => by
    unfold scan
    -- the first byte: it passes and the scan goes on, or the scan ends here
    by_cases hq : q (m a) = true
    · rw [if_pos hq, scan_iff]
      constructor
      · rintro ⟨h1, h2, h3, h4⟩
        refine ⟨by omega, by omega, h3, fun i hi hie => ?_⟩
        rcases Nat.lt_or_eq_of_le hi with hi | rfl
        · exact h4 i hi hie
        · exact hq
      · rintro ⟨h1, h2, h3, h4⟩
        have hne : a ≠ e := by
          rintro rfl
          rw [hq] at h3
          cases h3
        exact ⟨by omega, by omega, h3, fun i hi => h4 i (by omega)⟩
    · rw [if_neg hq]
      constructor
      · rintro he
        obtain rfl := Option.some.inj he
        exact ⟨le_refl _, by omega, by simpa using hq, fun i h1 h2 => by omega⟩
      · rintro ⟨h1, h2, h3, h4⟩
        rcases Nat.lt_or_eq_of_le h1 with h1 | rfl
        · exact absurd (h4 a (le_refl _) h1) hq
        · rfl

/-- The string `s` at address `a`, with the NUL behind it. -/
structure Str (m : Store) (a : Nat) (s : List UInt8) : Prop where
  read : m.read a s.length = s
  nul : m (a + s.length) = 0
  mem : (0 : UInt8) ∉ s

namespace Str

variable {m m' : Store} {a b k fuel : Nat} {s t bs : List UInt8} {q : UInt8 → Bool}

theorem get (h : Str m a s) {i : Nat} (hi : i < s.length) : m (a + i) = s[i] := by
  have hr := h.read
  have hi' : i < (m.read a s.length).length := by rw [Store.read_length]; exact hi
  rw [← Store.read_getElem hi']
  exact List.getElem_of_eq hr hi'

theorem nil (h : m a = 0) : Str m a [] := ⟨rfl, h, List.not_mem_nil⟩

/-- The byte at an address of the string, its NUL included. -/
theorem byte (h : Str m a s) (hk : k ≤ s.length) : m (a + k) = (s.drop k).headD 0 := by
  rcases Nat.lt_or_eq_of_le hk with hk | rfl
  · rw [h.get hk, List.drop_eq_getElem_cons hk, List.headD_cons]
  · rw [h.nul, List.drop_length]
    rfl

theorem head (h : Str m a s) : m a = s.headD 0 := h.byte (k := 0) (Nat.zero_le _)

/-- A string that is not empty does not start with its NUL. -/
theorem head_ne (h : Str m a s) (hs : s ≠ []) : m a ≠ 0 := by
  obtain ⟨c, l, rfl⟩ := List.exists_cons_of_ne_nil hs
  rw [h.head]
  exact fun hc => h.mem (hc ▸ List.mem_cons_self)

theorem drop (h : Str m a s) (hk : k ≤ s.length) : Str m (a + k) (s.drop k) where
  read := by
    have := Store.read_drop_take (m := m) (a := a) (o := k) (k := s.length - k) (n := s.length) (by omega)
    rw [h.read] at this
    rw [List.length_drop, ← this]
    exact List.take_of_length_le (by rw [List.length_drop])
  nul := by
    have hn := h.nul
    rw [List.length_drop, show a + k + (s.length - k) = a + s.length by omega]
    exact hn
  mem hc := h.mem (List.mem_of_mem_drop hc)

theorem tail {c : UInt8} (h : Str m a (c :: s)) : Str m (a + 1) s := h.drop (k := 1) (by simp)

theorem congr (h : Str m a s) (he : ∀ i ≤ s.length, m' (a + i) = m (a + i)) : Str m' a s where
  read := by
    rw [Store.read_congr fun i hi => he i (le_of_lt hi)]
    exact h.read
  nul := (he _ (le_refl _)).trans h.nul
  mem := h.mem

/-- A store elsewhere. -/
theorem write (h : Str m a s) (hd : a + s.length < b ∨ b + bs.length ≤ a) : Str (m.write b bs) a s :=
  h.congr fun _ _ => Store.write_out (by omega)

/-- Memory holds one string at an address. -/
theorem unique (h : Str m a s) (h' : Str m a t) : s = t := by
  induction s generalizing a t with
  | nil =>
    cases t with
    | nil => rfl
    | cons c t =>
      have h0 : m a = 0 := h.head
      have hc : m a = c := h'.head
      exact absurd (List.mem_cons_self (a := c)) (hc ▸ h0 ▸ h'.mem)
  | cons c s ih =>
    have hc : m a = c := h.head
    cases t with
    | nil =>
      have h0 : m a = 0 := h'.head
      exact absurd (List.mem_cons_self (a := c)) (hc ▸ h0 ▸ h.mem)
    | cons c' t =>
      have hc' : m a = c' := h'.head
      rw [ih h.tail h'.tail, ← hc, ← hc']

/-- Copying a string with its NUL. -/
theorem of_write (h : (0 : UInt8) ∉ s) : Str (m.write a (s ++ [0])) a s where
  read := by
    refine List.ext_getElem (by simp) fun i h1 h2 => ?_
    rw [Store.read_getElem, Store.write_add (by simp; omega), List.getElem_append_left h2]
  nul := by
    rw [Store.write_add (by simp), List.getElem_append_right (le_refl _)]
    simp
  mem := h

/-- Where such a loop stops, the rest of the string begins. -/
theorem rest (h : Str m a s) (q : UInt8 → Bool) : Str m (a + (s.takeWhile q).length) (s.dropWhile q) := by
  have hd := h.drop (List.takeWhile_sublist q).length_le
  have he : s.drop (s.takeWhile q).length = s.dropWhile q := by
    have : (s.takeWhile q ++ s.dropWhile q).drop (s.takeWhile q).length = s.dropWhile q := List.drop_left
    rwa [List.takeWhile_append_dropWhile] at this
  rwa [he] at hd

/-- A loop that stops at the NUL passes over the longest prefix of bytes that it goes on for. -/
theorem scan (h : Str m a s) (h0 : q 0 = false) (hf : s.length < fuel) :
    Lib.scan m q fuel a = some (a + (s.takeWhile q).length) := by
  induction s generalizing a fuel with
  | nil =>
    obtain ⟨n, rfl⟩ := Nat.exists_eq_succ_of_ne_zero (by omega : fuel ≠ 0)
    have hn : m a = 0 := h.head
    unfold Lib.scan
    rw [hn, h0, if_neg (by decide)]
    rfl
  | cons c s ih =>
    obtain ⟨n, rfl⟩ := Nat.exists_eq_succ_of_ne_zero (by omega : fuel ≠ 0)
    have hc : m a = c := h.head
    unfold Lib.scan
    rw [hc]
    by_cases hq : q c = true
    · rw [if_pos hq, ih h.tail (by simpa using hf), List.takeWhile_cons_of_pos hq, List.length_cons]
      congr 1
      omega
    · rw [if_neg hq, List.takeWhile_cons_of_neg hq]
      rfl

end Str

end TinyOS.Lib
