/-
Numerals: the digits of a number in a base as bytes, most significant first, the value of a text of digits, and
when the next digit takes a value over a limit.
-/
import Mathlib.Data.Nat.Digits.Lemmas
import Mathlib.Tactic

namespace TinyOS.Lib

/-- `0` … `9`, then letters. -/
def digitByte (upper : Bool) (d : Nat) : UInt8 :=
  UInt8.ofNat ((if d < 10 then 48 else if upper then 55 else 87) + d)

/-- Letters of either case. -/
def digitValue (c : UInt8) : Option Nat :=
  if 48 ≤ c.toNat ∧ c.toNat ≤ 57 then some (c.toNat - 48)
  else if 65 ≤ c.toNat ∧ c.toNat ≤ 90 then some (c.toNat - 55)
  else if 97 ≤ c.toNat ∧ c.toNat ≤ 122 then some (c.toNat - 87)
  else none

def IsDigit (base : Nat) (c : UInt8) : Prop := ∃ d < base, digitValue c = some d

/-- The value of some digits behind a value. -/
def valueFrom (base v : Nat) (ds : List UInt8) : Nat := ds.foldl (fun v c => v * base + (digitValue c).getD 0) v

def numeral (upper : Bool) (base n : Nat) : List UInt8 :=
  if n = 0 then [48] else ((Nat.digits base n).map (digitByte upper)).reverse

variable {upper : Bool} {base n v w d limit : Nat} {c : UInt8} {ds es : List UInt8}

/-! ## Digits -/

theorem toNat_digitByte (h : d < 36) :
    (digitByte upper d).toNat = (if d < 10 then 48 else if upper then 55 else 87) + d := by
  rw [digitByte, UInt8.toNat_ofNat', Nat.mod_eq_of_lt]
  split_ifs <;> omega

theorem digitValue_digitByte (h : d < 36) : digitValue (digitByte upper d) = some d := by
  unfold digitValue
  rw [toNat_digitByte h]
  by_cases h10 : d < 10
  · rw [if_pos h10, if_pos (by omega), Nat.add_sub_cancel_left]
  · rw [if_neg h10, if_neg (by split_ifs <;> omega)]
    cases upper with
    | true => rw [if_pos rfl, if_pos (by omega), Nat.add_sub_cancel_left]
    | false => rw [if_neg Bool.false_ne_true, if_neg (by omega), if_pos (by omega), Nat.add_sub_cancel_left]

theorem isDigit_digitByte (hd : d < base) (hb : base ≤ 36) : IsDigit base (digitByte upper d) :=
  ⟨d, hd, digitValue_digitByte (by omega)⟩

theorem isDigit_zero (hb : 0 < base) : IsDigit base 48 := ⟨0, hb, rfl⟩

theorem IsDigit.mono {b : Nat} (h : IsDigit b c) (hb : b ≤ base) : IsDigit base c := by
  obtain ⟨d, hd, hv⟩ := h
  exact ⟨d, lt_of_lt_of_le hd hb, hv⟩

/-! ## Values -/

@[simp] theorem valueFrom_nil : valueFrom base v [] = v := rfl

theorem valueFrom_cons : valueFrom base v (c :: ds) = valueFrom base (v * base + (digitValue c).getD 0) ds := rfl

theorem valueFrom_append : valueFrom base v (ds ++ es) = valueFrom base (valueFrom base v ds) es := List.foldl_append

/-- More digits do not make a value smaller. -/
theorem le_valueFrom (hb : 0 < base) : v ≤ valueFrom base v ds := by
  induction ds generalizing v with
  | nil => exact le_rfl
  | cons c ds ih =>
    rw [valueFrom_cons]
    refine le_trans ?_ ih
    have := Nat.le_mul_of_pos_right v hb
    omega

theorem valueFrom_zeros (n : Nat) : valueFrom base 0 (List.replicate n 48) = 0 := by
  induction n with
  | zero => rfl
  | succ n ih =>
    rw [List.replicate_succ, valueFrom_cons, Nat.zero_mul]
    exact ih

/-- The text of the digits, least significant first. -/
theorem valueFrom_ofDigits (hb : base ≤ 36) : ∀ {L : List Nat}, (∀ d ∈ L, d < base) →
    valueFrom base 0 ((L.map (digitByte upper)).reverse) = Nat.ofDigits base L
  | [], _ => rfl
  | d :: L, h => by
    have hd : d < base := h d (List.mem_cons_self ..)
    rw [List.map_cons, List.reverse_cons, valueFrom_append, valueFrom_ofDigits hb fun x hx =>
      h x (List.mem_cons_of_mem _ hx),
      valueFrom_cons, valueFrom_nil, digitValue_digitByte (by omega), Option.getD_some, Nat.ofDigits_cons]
    exact (Nat.add_comm _ _).trans (congrArg _ (Nat.mul_comm _ _))

/-! ## The numeral of a number -/

theorem value_numeral (h2 : 2 ≤ base) (hb : base ≤ 36) : valueFrom base 0 (numeral upper base n) = n := by
  unfold numeral
  split
  · next h =>
    rw [h]
    exact valueFrom_zeros 1
  · rw [valueFrom_ofDigits hb fun d hd => Nat.digits_lt_base h2 hd, Nat.ofDigits_digits]

theorem isDigit_numeral (h2 : 2 ≤ base) (hb : base ≤ 36) : ∀ c ∈ numeral upper base n, IsDigit base c := by
  intro c hc
  unfold numeral at hc
  split at hc
  · rw [List.mem_singleton.1 hc]
    exact isDigit_zero (by omega)
  · obtain ⟨d, hd, rfl⟩ := List.mem_map.1 (List.mem_reverse.1 hc)
    exact isDigit_digitByte (Nat.digits_lt_base h2 hd) hb

theorem numeral_ne_nil : numeral upper base n ≠ [] := by
  unfold numeral
  split
  · exact List.cons_ne_nil _ _
  · next h =>
    rw [Ne, List.reverse_eq_nil_iff, List.map_eq_nil_iff, Nat.digits_eq_nil_iff_eq_zero]
    exact h

/-- The last digit, and the number without it. -/
theorem numeral_snoc (h2 : 2 ≤ base) (hn : base ≤ n) :
    numeral upper base n = numeral upper base (n / base) ++ [digitByte upper (n % base)] := by
  have h1 : n ≠ 0 := by omega
  have h3 : n / base ≠ 0 := (Nat.div_pos hn (by omega)).ne'
  rw [numeral, if_neg h1, numeral, if_neg h3, Nat.digits_def' (by omega) (by omega), List.map_cons, List.reverse_cons]

theorem numeral_of_lt (hn : n < base) : numeral upper base n = [digitByte upper n] := by
  unfold numeral
  split
  · next h =>
    subst h
    rfl
  · next h =>
    rw [Nat.digits_of_lt _ _ h hn]
    rfl

/-! ## A limit -/

/-- Without multiplying: the next digit keeps the value within the limit. -/
theorem next_le_iff (hb : 0 < base) (hd : d < base) :
    v * base + d ≤ limit ↔ ¬ (limit / base < v ∨ v = limit / base ∧ limit % base < d) := by
  have hl := Nat.div_add_mod limit base
  have hm := Nat.mod_lt limit hb
  rw [not_or, not_lt, not_and, not_lt]
  constructor
  · intro h
    have h1 : v ≤ limit / base := (Nat.le_div_iff_mul_le hb).2 (by omega)
    refine ⟨h1, ?_⟩
    rintro rfl
    rw [Nat.mul_comm] at hl
    omega
  · rintro ⟨h1, h2⟩
    obtain rfl | h1 := Nat.eq_or_lt_of_le h1
    · have := h2 rfl
      rw [Nat.mul_comm] at hl
      omega
    · have := Nat.mul_le_mul_right base (Nat.succ_le_of_lt h1)
      rw [Nat.succ_mul] at this
      rw [Nat.mul_comm] at hl
      omega

end TinyOS.Lib
