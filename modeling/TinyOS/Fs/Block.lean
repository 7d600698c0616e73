/-
The block bitmap: which bit `balloc` sets and which block it hands out, which bit `bfree` clears,
and that neither touches anything else.
-/
import TinyOS.Fs.Layout
import Mathlib.Data.Nat.Bitwise

namespace TinyOS.Fs

open TinyOS.Lib

variable {fs fs' : Fs} {b c : Nat}

theorem bread_eq {size no off : Nat} (h : size + off ≤ 4096) :
    fs.bread size no off = some (fs.disk.read (no * 4096 + off) size) := by
  unfold bread
  rw [uint32_of_lt (by omega), if_pos h]

theorem bwrite_eq {src : List UInt8} {no off : Nat} (h : src.length + off ≤ 4096) :
    fs.bwrite src no off = some { fs with disk := fs.disk.write (no * 4096 + off) src } := by
  unfold bwrite
  rw [uint32_of_lt (by omega), if_pos h]

/-! ## Allocation -/

/-- `balloc` handed out the free block `b`, cleared it and set its bit. -/
structure Balloc (fs : Fs) (b : Nat) (fs' : Fs) : Prop where
  lt : b < 32768
  free : bit fs.disk b = false
  rest : fs' = { fs with disk := fs'.disk }
  bits : ∀ c < 32768, bit fs'.disk c = (bit fs.disk c || decide (c = b))
  zero : ∀ r < 4096, fs'.disk (b * 4096 + r) = 0
  frame : ∀ x, x / 4096 ≠ b → x / 4096 ≠ 33 → fs'.disk x = fs.disk x

/-- The bits of 32 blocks make one word of the bitmap. -/
theorem bit_word {m : Store} {i j : Nat} (hj : j < 32) :
    bit m (32 * i + j) = (m.word (33 * 4096 + i * 4)).testBit j := by
  have hmod : 8 * (j / 8) + j % 8 = j := by omega
  have haddr : 33 * 4096 + (32 * i + j) / 8 = 33 * 4096 + i * 4 + j / 8 := by omega
  have hpos : (32 * i + j) % 8 = j % 8 := by omega
  conv_rhs => rw [← hmod]
  rw [Store.testBit_word (by omega) (by omega), bit, haddr, hpos]

theorem and_shiftLeft_eq_zero {w j : Nat} : w &&& (1 <<< j) = 0 ↔ w.testBit j = false := by
  rw [Nat.one_shiftLeft, Nat.and_two_pow]
  cases w.testBit j <;> simp

/-- Taking bit `j` of word `i`. -/
theorem balloc_take {i j w : Nat} (hsb : fs.sb = Super.std) (h33 : bit fs.disk 33 = true) (hi : i < 1024)
    (hj : j < 32) (hw : w = fs.disk.word (33 * 4096 + i * 4)) (hfree : w.testBit j = false) :
    ∃ fs', (fs.bzero (32 * i + j)).bwrite (le32 (w ||| (1 <<< j))) (fs.bzero (32 * i + j)).sb.bitmap
      (i * 4) = some fs' ∧ Balloc fs (32 * i + j) fs' := by
  have hbit : bit fs.disk (32 * i + j) = false := by rw [bit_word hj, ← hw]; exact hfree
  -- the bitmap is itself marked as used, so it is not the block that is zeroed
  have hne : 32 * i + j ≠ 33 := by rintro he; rw [he, h33] at hbit; cases hbit
  have hlt : w ||| (1 <<< j) < 2 ^ 32 := by
    rw [Nat.one_shiftLeft]
    exact Nat.or_lt_two_pow (hw ▸ Store.word_lt) (Nat.pow_lt_pow_right (by decide) hj)
  have hbm : (fs.bzero (32 * i + j)).sb.bitmap = 33 := by
    rw [show (fs.bzero (32 * i + j)).sb = fs.sb from rfl, hsb]; rfl
  rw [hbm]
  have hlen : (le32 (w ||| (1 <<< j))).length = 4 := Store.le32_length _
  refine ⟨_, bwrite_eq (by omega), by omega, hbit, rfl, fun c hc => ?_, fun r hr => ?_, fun x h1 h2 => ?_⟩
  · show bit ((fs.disk.fill ((32 * i + j) * 4096) 4096 0).setWord (33 * 4096 + i * 4) (w ||| (1 <<< j))) c = _
    have hout : ∀ x, x / 4096 = 33 → fs.disk.fill ((32 * i + j) * 4096) 4096 0 x = fs.disk x := fun x hx =>
      Store.fill_out (by omega)
    -- a bit of the same word or of another
    by_cases hci : c / 32 = i
    · have hcj : c % 32 < 32 := Nat.mod_lt _ (by decide)
      rw [show c = 32 * i + c % 32 by omega, bit_word hcj, bit_word hcj, Store.word_setWord_self hlt, Nat.testBit_or,
        Nat.one_shiftLeft, Nat.testBit_two_pow, hw]
      congr 1
      exact decide_eq_decide.2 (by omega)
    · rw [show decide (c = 32 * i + j) = false from decide_eq_false (by omega), Bool.or_false]
      refine bit_congr ?_
      rw [Store.setWord, Store.write_out (by omega), hout _ (by omega)]
  · show (fs.disk.fill ((32 * i + j) * 4096) 4096 0).write (33 * 4096 + i * 4) _ _ = _
    rw [Store.write_out (by omega), Store.fill_in (by omega) (by omega)]
  · show (fs.disk.fill ((32 * i + j) * 4096) 4096 0).write (33 * 4096 + i * 4) _ _ = _
    rw [Store.write_out (by omega), Store.fill_out (by omega)]

/-- A round of the scan: it finds a clear bit in word `i`, or there is none and the scan goes on. -/
theorem ballocLoop_succ {n i : Nat} (hsb : fs.sb = Super.std) (h33 : bit fs.disk 33 = true) (hi : i < 1024) :
    (∃ j < 32, ∃ fs', fs.ballocLoop (n + 1) i = some (32 * i + j, fs') ∧ Balloc fs (32 * i + j) fs') ∨
    ((∀ j < 32, bit fs.disk (32 * i + j) = true) ∧ fs.ballocLoop (n + 1) i = fs.ballocLoop n (i + 1)) := by
  rw [ballocLoop, hsb, bread_eq (by omega)]
  simp only [Option.bind_eq_bind, Option.bind_some, Super.std, Store.wordOf_read (Nat.le_refl 4)]
  split
  · split
    · next j hj =>
      have hmem := List.mem_range.1 (List.mem_of_find?_eq_some hj)
      have hclear := List.find?_some hj
      obtain ⟨fs₁, h1, h2⟩ := balloc_take hsb h33 hi hmem rfl (and_shiftLeft_eq_zero.1 (of_decide_eq_true hclear))
      exact Or.inl ⟨j, hmem, fs₁, by rw [h1]; rfl, h2⟩
    · next hn =>
      refine Or.inr ⟨fun j hj => ?_, rfl⟩
      have := List.find?_eq_none.1 hn j (List.mem_range.2 hj)
      rw [decide_eq_true_eq, and_shiftLeft_eq_zero, Bool.not_eq_false] at this
      rw [bit_word hj, this]
  · -- every bit of the word is set
    next hw =>
    refine Or.inr ⟨fun j hj => ?_, rfl⟩
    rw [bit_word hj, not_not.1 hw, show 0xffffffff = 2 ^ 32 - 1 by decide, Nat.testBit_two_pow_sub_one]
    exact decide_eq_true hj

theorem ballocLoop_some (hsb : fs.sb = Super.std) (h33 : bit fs.disk 33 = true) :
    ∀ {n i : Nat}, i + n = 1024 → fs.ballocLoop n i = some (b, fs') → Balloc fs b fs'
  | 0, _, _, h => by cases h
  | n + 1, i, hi, h => by
    rcases ballocLoop_succ (n := n) hsb h33 (show i < 1024 by omega) with ⟨j, -, fs₁, h1, h2⟩ | ⟨-, h1⟩
    · rw [h1] at h; cases h; exact h2
    · exact ballocLoop_some hsb h33 (by omega) (h1 ▸ h)

theorem balloc_some (hsb : fs.sb = Super.std) (h33 : bit fs.disk 33 = true) (h : fs.balloc = some (b, fs')) :
    Balloc fs b fs' := ballocLoop_some hsb h33 (by decide) h

theorem ballocLoop_isSome (hsb : fs.sb = Super.std) (h33 : bit fs.disk 33 = true) (hb : b < 32768)
    (hfree : bit fs.disk b = false) : ∀ {n i : Nat}, i + n = 1024 → i ≤ b / 32 → (fs.ballocLoop n i).isSome
  | 0, i, hi, hib => by omega
  | n + 1, i, hi, hib => by
    rcases ballocLoop_succ (n := n) hsb h33 (show i < 1024 by omega) with ⟨j, -, fs₁, h1, -⟩ | ⟨hset, h1⟩
    · rw [h1]; rfl
    · have hne : i ≠ b / 32 := by
        rintro rfl
        have := hset (b % 32) (Nat.mod_lt _ (by decide))
        rw [Nat.div_add_mod, hfree] at this
        cases this
      rw [h1]
      exact ballocLoop_isSome hsb h33 hb hfree (by omega) (by omega)

/-- A free block is enough for `balloc` to succeed. -/
theorem balloc_isSome (hsb : fs.sb = Super.std) (h33 : bit fs.disk 33 = true) (hb : b < 32768)
    (hfree : bit fs.disk b = false) : fs.balloc.isSome :=
  ballocLoop_isSome hsb h33 hb hfree (by decide) (Nat.zero_le _)

/-! ## Release -/

/-- `bfree` cleared the bit of block `b`. -/
structure Bfree (fs : Fs) (b : Nat) (fs' : Fs) : Prop where
  rest : fs' = { fs with disk := fs'.disk }
  bits : ∀ c < 32768, bit fs'.disk c = (bit fs.disk c && !decide (c = b))
  frame : ∀ x, x / 4096 ≠ 33 → fs'.disk x = fs.disk x

theorem bfree_eq (hsb : fs.sb = Super.std) (h64 : 64 ≤ b) (hb : b < 32768) :
    ∃ fs', fs.bfree b = some fs' ∧ Bfree fs b fs' := by
  unfold bfree
  simp only [Option.bind_eq_bind, Nat.not_lt.2 h64, if_false, hsb, Super.std, Option.bind_some,
    bread_eq (show 1 + b / 8 ≤ 4096 by omega)]
  have hget : (fs.disk.read (33 * 4096 + b / 8) 1).getD 0 0 = fs.disk (33 * 4096 + b / 8) := rfl
  rw [hget]
  refine ⟨_, bwrite_eq (by simp only [List.length_singleton]; omega), rfl, fun c hc => ?_, fun x hx => ?_⟩
  · show bit (fs.disk.write _ _) c = _
    by_cases hcb : c / 8 = b / 8
    · unfold bit
      rw [hcb, Store.write_in (by omega) (by simp), Nat.sub_self, List.getD_cons_zero, UInt8.toNat_ofNat',
        Nat.mod_eq_of_lt (Nat.lt_of_le_of_lt Nat.and_le_left (UInt8.toNat_lt _)), Nat.testBit_and, Nat.testBit_xor,
        Nat.one_shiftLeft, Nat.testBit_two_pow, show 0xffffffff = 2 ^ 32 - 1 by decide, Nat.testBit_two_pow_sub_one,
        decide_eq_true (show c % 8 < 32 by omega), Bool.true_xor]
      congr 2
      exact decide_eq_decide.2 (by omega)
    · rw [decide_eq_false (show c ≠ b by rintro rfl; exact hcb rfl), Bool.not_false, Bool.and_true]
      exact bit_congr (Store.write_out (by simp only [List.length_singleton]; omega))
  · exact Store.write_out (by simp only [List.length_singleton]; omega)

end TinyOS.Fs
