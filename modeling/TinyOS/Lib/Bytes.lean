/-
Byte-addressed stores and little-endian 32-bit words: reading and writing ranges, which writes a
read does not see, and the bits of a stored word.
-/
import Mathlib.Data.List.GetD
import Mathlib.Tactic

namespace TinyOS.Lib

/-- A store: one byte for every address. -/
abbrev Store := Nat → UInt8

namespace Store

def read (m : Store) (a n : Nat) : List UInt8 := (List.range n).map fun i => m (a + i)

def write (m : Store) (a : Nat) (bs : List UInt8) : Store :=
  fun x => if a ≤ x ∧ x < a + bs.length then bs.getD (x - a) 0 else m x

/-- `memset`. -/
def fill (m : Store) (a n : Nat) (v : UInt8) : Store := fun x => if a ≤ x ∧ x < a + n then v else m x

/-- The 32-bit word at `a`, least significant byte first. -/
def word (m : Store) (a : Nat) : Nat :=
  (m a).toNat + 256 * ((m (a + 1)).toNat + 256 * ((m (a + 2)).toNat + 256 * (m (a + 3)).toNat))

end Store

/-- The bytes of a 32-bit word, least significant first. -/
def le32 (v : Nat) : List UInt8 :=
  [UInt8.ofNat v, UInt8.ofNat (v / 2 ^ 8), UInt8.ofNat (v / 2 ^ 16), UInt8.ofNat (v / 2 ^ 24)]

namespace Store

def setWord (m : Store) (a v : Nat) : Store := m.write a (le32 v)

variable {m m' : Store} {a b n : Nat} {bs : List UInt8}

/-! ## Reading what was written -/

@[simp] theorem read_length : (m.read a n).length = n := by simp [read]

@[simp] theorem read_zero : m.read a 0 = [] := rfl

@[simp] theorem write_nil : m.write a [] = m := by
  funext x; simp only [write, List.length_nil, ite_eq_right_iff]; omega

theorem read_getElem {i : Nat} (h : i < (m.read a n).length) : (m.read a n)[i] = m (a + i) := by simp [read]

theorem read_congr (h : ∀ i < n, m' (a + i) = m (a + i)) : m'.read a n = m.read a n :=
  List.map_congr_left fun i hi => h i (List.mem_range.1 hi)

theorem write_in {x : Nat} (h1 : a ≤ x) (h2 : x < a + bs.length) : m.write a bs x = bs.getD (x - a) 0 := by
  simp [write, h1, h2]

theorem write_out {x : Nat} (h : x < a ∨ a + bs.length ≤ x) : m.write a bs x = m x := by
  simp only [write, ite_eq_right_iff]; omega

theorem write_add {i : Nat} (h : i < bs.length) : m.write a bs (a + i) = bs[i] := by
  rw [write_in (by omega) (by omega), Nat.add_sub_cancel_left, List.getD_eq_getElem _ _ h]

theorem read_write_self : (m.write a bs).read a bs.length = bs := by
  refine List.ext_getElem (by simp) fun i h1 h2 => ?_
  rw [read_getElem, write_add h2]

/-- A read does not see a write to other addresses. -/
theorem read_write_of_disjoint (h : a + n ≤ b ∨ b + bs.length ≤ a) : (m.write b bs).read a n = m.read a n :=
  read_congr fun i hi => write_out (by omega)

theorem read_append (k : Nat) : m.read a (n + k) = m.read a n ++ m.read (a + n) k := by
  simp [read, List.range_add, List.map_append, Function.comp_def, Nat.add_assoc]

theorem read_drop_take {o k : Nat} (h : o + k ≤ n) : ((m.read a n).drop o).take k = m.read (a + o) k := by
  refine List.ext_getElem (by simp; omega) fun i h1 h2 => ?_
  rw [List.getElem_take, List.getElem_drop, read_getElem, read_getElem, Nat.add_assoc]

/-- A read around a write. -/
theorem read_write_within {o : Nat} (h : o + bs.length ≤ n) :
    (m.write (a + o) bs).read a n = (m.read a n).take o ++ bs ++ (m.read a n).drop (o + bs.length) := by
  obtain ⟨k, rfl⟩ := Nat.exists_eq_add_of_le h
  have htake : (m.read a (o + bs.length + k)).take o = m.read a o := by
    rw [Nat.add_assoc, read_append, List.take_left' read_length]
  have hdrop : (m.read a (o + bs.length + k)).drop (o + bs.length) = m.read (a + (o + bs.length)) k := by
    rw [read_append, List.drop_left' read_length]
  rw [htake, hdrop, read_append, read_append, read_write_of_disjoint (Or.inl le_rfl), read_write_self,
    read_write_of_disjoint (Or.inr (by omega))]

/-- Writing in two pieces. -/
theorem write_append {cs : List UInt8} : m.write a (bs ++ cs) = (m.write a bs).write (a + bs.length) cs := by
  funext x
  by_cases h1 : a ≤ x
  · by_cases h2 : x < a + bs.length
    · rw [write_in h1 (by rw [List.length_append]; omega), write_out (Or.inl h2), write_in h1 h2,
        List.getD_append _ _ _ _ (by omega)]
    · by_cases h3 : x < a + bs.length + cs.length
      · rw [write_in h1 (by rw [List.length_append]; omega), write_in (by omega) h3,
          List.getD_append_right _ _ _ _ (by omega), Nat.sub_add_eq]
      · rw [write_out (by rw [List.length_append]; omega), write_out (Or.inr (by omega)), write_out (by omega)]
  · rw [write_out (by omega), write_out (by omega), write_out (by omega)]

theorem fill_in {x : Nat} {v : UInt8} (h1 : a ≤ x) (h2 : x < a + n) : m.fill a n v x = v := by simp [fill, h1, h2]

theorem fill_out {x : Nat} {v : UInt8} (h : x < a ∨ a + n ≤ x) : m.fill a n v x = m x := by
  simp only [fill, ite_eq_right_iff]; omega

/-! ## Words -/

@[simp] theorem le32_length (v : Nat) : (le32 v).length = 4 := rfl

theorem word_lt : m.word a < 2 ^ 32 := by
  have h0 := (m a).toNat_lt
  have h1 := (m (a + 1)).toNat_lt
  have h2 := (m (a + 2)).toNat_lt
  have h3 := (m (a + 3)).toNat_lt
  unfold word; omega

theorem word_congr (h : ∀ i < 4, m' (a + i) = m (a + i)) : m'.word a = m.word a := by
  have h0 := h 0 (by omega)
  have h1 := h 1 (by omega)
  have h2 := h 2 (by omega)
  have h3 := h 3 (by omega)
  simp only [Nat.add_zero] at h0
  unfold word; rw [h0, h1, h2, h3]

theorem word_write_of_disjoint (h : a + 4 ≤ b ∨ b + bs.length ≤ a) : (m.write b bs).word a = m.word a :=
  word_congr fun i hi => write_out (by omega)

/-- The word made of the first four bytes of a list. -/
def wordOf (bs : List UInt8) : Nat :=
  (bs.getD 0 0).toNat + 256 * ((bs.getD 1 0).toNat + 256 * ((bs.getD 2 0).toNat + 256 * (bs.getD 3 0).toNat))

theorem wordOf_le32 {v : Nat} (h : v < 2 ^ 32) : wordOf (le32 v) = v := by
  simp only [wordOf, le32, List.getD_cons_zero, List.getD_cons_succ, UInt8.toNat_ofNat']
  omega

/-- The word at an address inside what was written. -/
theorem word_write_in {o : Nat} (h : o + 4 ≤ bs.length) : (m.write a bs).word (a + o) = wordOf (bs.drop o) := by
  have hb : ∀ i < 4, m.write a bs (a + o + i) = (bs.drop o).getD i 0 := by
    intro i hi
    rw [Nat.add_assoc, write_add (by omega), List.getD_eq_getElem _ _ (by simp; omega), List.getElem_drop]
  have h0 := hb 0 (by omega)
  simp only [Nat.add_zero] at h0
  simp only [word, wordOf, h0, hb 1 (by omega), hb 2 (by omega), hb 3 (by omega)]

theorem word_setWord_self {v : Nat} (h : v < 2 ^ 32) : (m.setWord a v).word a = v := by
  have : (m.write a (le32 v)).word (a + 0) = _ := word_write_in (by simp)
  simpa [setWord, wordOf_le32 h] using this

theorem word_setWord_of_disjoint {v : Nat} (h : a + 4 ≤ b ∨ b + 4 ≤ a) : (m.setWord b v).word a = m.word a :=
  word_write_of_disjoint (by simpa using h)

theorem wordOf_read (h : 4 ≤ n) : wordOf (m.read a n) = m.word a := by
  have hb : ∀ i < 4, (m.read a n).getD i 0 = m (a + i) := fun i hi => by
    rw [List.getD_eq_getElem _ _ (by simp; omega), read_getElem]
  simp only [wordOf, word, hb 0 (by omega), hb 1 (by omega), hb 2 (by omega), hb 3 (by omega), Nat.add_zero]

/-- Word `j` of the bytes of a list of words. -/
theorem wordOf_words : ∀ {ws : List Nat} {j : Nat} (h : j < ws.length), ws[j] < 2 ^ 32 →
    wordOf ((ws.flatMap le32).drop (4 * j)) = ws[j]
  | w :: ws, 0, _, hw => by
    rw [List.flatMap_cons, Nat.mul_zero, List.drop_zero]
    exact (by rfl : wordOf (le32 w ++ ws.flatMap le32) = wordOf (le32 w)).trans (wordOf_le32 hw)
  | w :: ws, j + 1, h, hw => by
    rw [List.flatMap_cons, show 4 * (j + 1) = (le32 w).length + 4 * j by simp; ring, List.drop_length_add_append]
    exact wordOf_words (Nat.lt_of_succ_lt_succ h) hw

theorem words_length : ∀ ws : List Nat, (ws.flatMap le32).length = 4 * ws.length
  | [] => rfl
  | w :: ws => by simp only [List.flatMap_cons, List.length_append, words_length ws, le32_length,
    List.length_cons]; ring

/-- Word `j` of what a list of words was written to. -/
theorem word_write_words {ws : List Nat} {j : Nat} (h : j < ws.length) (hw : ws[j] < 2 ^ 32) :
    (m.write a (ws.flatMap le32)).word (a + 4 * j) = ws[j] := by
  rw [word_write_in (by rw [words_length]; omega), wordOf_words h hw]

/-- Bit `8 k + j` of a word is bit `j` of its byte `k`. -/
theorem testBit_word {k j : Nat} (hk : k < 4) (hj : j < 8) :
    (m.word a).testBit (8 * k + j) = (m (a + k)).toNat.testBit j := by
  have hb : ∀ i, (m i).toNat < 2 ^ 8 := fun i => (m i).toNat_lt
  have hstep : ∀ i w t : Nat, (m i).toNat + 256 * w = 2 ^ 8 * w + (m i).toNat := by intros; ring
  unfold word
  rw [hstep _ _ 0, hstep _ _ 0, hstep _ _ 0]
  interval_cases k
  · rw [Nat.testBit_two_pow_mul_add _ (hb _), if_pos (by omega)]; simp
  · rw [Nat.testBit_two_pow_mul_add _ (hb _), if_neg (by omega), Nat.testBit_two_pow_mul_add _ (hb _),
      if_pos (by omega)]
    congr 1; omega
  · rw [Nat.testBit_two_pow_mul_add _ (hb _), if_neg (by omega), Nat.testBit_two_pow_mul_add _ (hb _),
      if_neg (by omega), Nat.testBit_two_pow_mul_add _ (hb _), if_pos (by omega)]
    congr 1; omega
  · rw [Nat.testBit_two_pow_mul_add _ (hb _), if_neg (by omega), Nat.testBit_two_pow_mul_add _ (hb _),
      if_neg (by omega), Nat.testBit_two_pow_mul_add _ (hb _), if_neg (by omega)]
    congr 1; omega

end Store

end TinyOS.Lib
