/-
32-bit machine words as integers: the wrap-around of signed and of unsigned arithmetic, and
ranges in which it does not show.
-/
import Mathlib.Tactic

namespace TinyOS.Lib

/-- The value of an `int` after an operation whose exact result is `v`. -/
def int32 (v : Int) : Int := v.bmod (2 ^ 32)

theorem int32_of_range {v : Int} (h1 : -2 ^ 31 ≤ v) (h2 : v < 2 ^ 31) : int32 v = v := by
  unfold int32
  apply Int.bmod_eq_of_le <;> omega

theorem int32_lt (v : Int) : int32 v < 2 ^ 31 := by
  have h : v.bmod (2 ^ 32) < ((2 ^ 32 : Nat) + 1 : Int) / 2 := Int.bmod_lt (by decide)
  unfold int32
  omega

/-- The value of a `uint32_t` after an operation whose exact result is `v`. -/
def uint32 (v : Nat) : Nat := v % 2 ^ 32

theorem uint32_lt (v : Nat) : uint32 v < 2 ^ 32 := Nat.mod_lt _ (by decide)

theorem uint32_of_lt {v : Nat} (h : v < 2 ^ 32) : uint32 v = v := Nat.mod_eq_of_lt h

/-- Unsigned subtraction. -/
def usub32 (a b : Nat) : Nat := (a + 2 ^ 32 - b % 2 ^ 32) % 2 ^ 32

theorem usub32_of_le {a b : Nat} (h : b ≤ a) (ha : a < 2 ^ 32) : usub32 a b = a - b := by
  unfold usub32
  omega

end TinyOS.Lib
