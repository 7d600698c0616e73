/-
Writing numbers (lib/src/stdlib/utoa.c, itoa.c, and `number` of lib/src/stdio.c): the digits are those of the number,
whatever the base, the width, the precision and the flags, and `strtol` and `strtoul` read the number back.
-/
import TinyOS.Stdio.Strtol
import Mathlib.Data.List.GetD

namespace TinyOS.Stdio

open TinyOS.Lib

/-! ## utoa.c, itoa.c -/

/-- The digits in reverse order; `none` for more than `n`. -/
def utoaLoop (base : Nat) : (n value : Nat) → Option (List UInt8)
  | 0, _ => none
  | n + 1, value =>
    if value / base ≠ 0 then (utoaLoop base n (value / base)).map (digitByte false (value % base) :: ·)
    else some [digitByte false (value % base)]

/-- `for (j = 0, i--; j < i; j++, i--)`. -/
def reverseLoop : (n : Nat) → (str : List UInt8) → (j i : Nat) → List UInt8
  | 0, str, _, _ => str
  | n + 1, str, j, i =>
    if j < i then reverseLoop n ((str.set j (str.getD i 0)).set i (str.getD j 0)) (j + 1) (i - 1) else str

/-- The string in `str`; `none` is NULL. A value of 32 bits has 32 digits at most. -/
def utoa (value : Nat) (base : Int) : Option (List UInt8) :=
  if base < 2 ∨ base > 36 then none
  else (utoaLoop base.toNat 32 value).map fun str => reverseLoop str.length str 0 (str.length - 1)

@[inherit_doc utoa] def itoa (value : Int) (base : Int) : Option (List UInt8) :=
  if base < 2 ∨ base > 36 then none
  else if base = 10 ∧ value < 0 then (utoa (toUnsigned (-value)) base).map (45 :: ·)
  else utoa (toUnsigned value) base

/-! ## stdio.c -/

/-- The flags of `number`. -/
structure Flags where
  zeropad : Bool
  sign : Bool
  plus : Bool
  space : Bool
  left : Bool
  hexPrep : Bool
  uppercase : Bool
deriving DecidableEq

/-- What `while (num != 0)` puts into `tmp`, where there is room for `n` more bytes. -/
def tmpLoop (upper : Bool) (base : Nat) : (n num : Nat) → Option (List UInt8)
  | _, 0 => some []
  | 0, _ + 1 => none
  | n + 1, num + 1 => (tmpLoop upper base n ((num + 1) / base)).map (digitByte upper ((num + 1) % base) :: ·)

/-- `tmp`, which has 66 bytes. -/
def tmpDigits (upper : Bool) (base : Nat) (num : Int) : Option (List UInt8) :=
  if num = 0 then some [48] else tmpLoop upper base 66 (toUnsigned num)

/-- `while (size-- > 0) *str++ = c;` -/
def pad (size : Int) (c : UInt8) : List UInt8 × Int := (List.replicate size.toNat c, min size 0 - 1)

/-- `sign`, and `num` and `size` then. -/
def signPart (num size : Int) (type : Flags) : List UInt8 × Int × Int :=
  if type.sign then
    if num < 0 then ([45], int32 (-num), size - 1)
    else if type.plus then ([43], num, size - 1)
    else if type.space then ([32], num, size - 1)
    else ([], num, size)
  else ([], num, size)

/-- What `HEX_PREP` writes: `0`, or `0` and `digits[33]`. -/
def prePart (base : Int) (type : Flags) : List UInt8 :=
  if type.hexPrep then if base = 8 then [48] else if base = 16 then [48, 120] else [] else []

/-- The bytes that fill the field, before the sign, behind the prefix, and behind the digits. -/
def padding (size : Int) (zeropad left : Bool) : List UInt8 × List UInt8 × List UInt8 :=
  let (front, size) := if !(zeropad || left) then pad size 32 else ([], size)
  let (mid, size) := if !left then pad size (if zeropad then 48 else 32) else ([], size)
  (front, mid, (pad size 32).1)

/-- What is put at `str`; `none` when it returns 0. -/
def number (num base size precision : Int) (type : Flags) : Option (List UInt8) :=
  if base < 2 ∨ base > 36 then none
  else do
    let (sign, num, size) := signPart num size type
    let size := if type.hexPrep then if base = 16 then size - 2 else if base = 8 then size - 1 else size else size
    let tmp ← tmpDigits type.uppercase base.toNat num
    let precision := max precision tmp.length
    let (front, mid, back) := padding (size - precision) (type.zeropad && !type.left) type.left
    let zeros := List.replicate (precision - tmp.length).toNat 48
    return front ++ (sign ++ (prePart base type ++ (mid ++ (zeros ++ (tmp.reverse ++ back)))))

variable {base n value num : Nat} {str a b m : List UInt8} {upper : Bool} {rest ws sg pre ds : List UInt8}

/-! ## Digits -/

theorem utoaLoop_eq (h2 : 2 ≤ base) (hv : value < base ^ n) (hn : n ≠ 0) :
    utoaLoop base n value = some ((numeral false base value).reverse) := by
  induction n generalizing value with
  | zero => exact absurd rfl hn
  | succ n ih =>
    rw [utoaLoop]
    by_cases h : value / base = 0
    · have hlt : value < base := (Nat.div_eq_zero_iff.1 h).resolve_left (by omega)
      rw [if_neg (not_not.2 h), Nat.mod_eq_of_lt hlt, numeral_of_lt hlt]
      rfl
    · have hge : base ≤ value := by
        by_contra hc
        exact h (Nat.div_eq_of_lt (not_le.1 hc))
      have hlt : value / base < base ^ n := by
        rw [Nat.div_lt_iff_lt_mul (by omega), ← pow_succ]
        exact hv
      have hn0 : n ≠ 0 := by
        rintro rfl
        exact h (Nat.lt_one_iff.1 hlt)
      rw [if_pos h, ih hlt hn0, Option.map_some, numeral_snoc h2 hge, List.reverse_append]
      rfl

/-- The swaps turn the part that they have not reached around. -/
theorem reverseLoop_eq (h : m.length ≤ n) : reverseLoop n (a ++ (m ++ b)) a.length (a.length + m.length - 1) = a ++
    (m.reverse ++ b) := by
  induction n generalizing m a b with
  | zero =>
    obtain rfl := List.length_eq_zero_iff.1 (Nat.le_zero.1 h)
    rfl
  | succ n ih =>
    rw [reverseLoop]
    obtain _ | ⟨x, m⟩ := m
    · rw [if_neg (by simp)]
      rfl
    obtain rfl | ⟨m, y, rfl⟩ := m.eq_nil_or_concat'
    · rw [if_neg (by simp)]
      rfl
    · simp only [List.length_cons, List.length_append, List.length_nil] at h ⊢
      rw [if_pos (by omega)]
      have hi : a.length + (m.length + (0 + 1) + 1) - 1 = (a ++ x :: m).length := by
        simp only [List.length_append, List.length_cons]
        omega
      have hget1 : (a ++ (x :: (m ++ [y]) ++ b)).getD (a ++ x :: m).length 0 = y := by
        rw [show a ++ (x :: (m ++ [y]) ++ b) = (a ++ x :: m) ++
          (y :: b) by simp, List.getD_append_right _ _ _ _ (le_refl _), Nat.sub_self]
        rfl
      have hget2 : (a ++ (x :: (m ++ [y]) ++ b)).getD a.length 0 = x := by
        rw [List.getD_append_right _ _ _ _ (le_refl _), Nat.sub_self]
        rfl
      rw [hi, hget1, hget2]
      have hset : ((a ++ (x :: (m ++ [y]) ++ b)).set a.length y).set (a ++ x :: m).length x = (a ++ [y]) ++
          (m ++ (x :: b)) := by
        rw [List.set_append_right _ _ (le_refl _), Nat.sub_self, List.cons_append, List.set_cons_zero,
          show a ++ y :: (m ++ [y] ++ b) = (a ++ y :: m) ++ (y :: b) by simp,
          show (a ++ x :: m).length = (a ++ y :: m).length by
            simp, List.set_append_right _ _ (le_refl _), Nat.sub_self, List.set_cons_zero]
        simp
      have hlast : (a ++ x :: m).length - 1 = (a ++ [y]).length + m.length - 1 := by
        simp only [List.length_append, List.length_cons, List.length_nil]
        omega
      have hj : a.length + 1 = (a ++ [y]).length := by simp
      rw [hset, hlast, hj, ih (by omega)]
      simp

/-- The digits of the value. -/
theorem utoa_eq (h2 : 2 ≤ base) (h36 : base ≤ 36) (hv : value < 2 ^ 32) :
    utoa value base = some (numeral false base value) := by
  have hbase : ¬ ((base : Int) < 2 ∨ (base : Int) > 36) := by omega
  have hlt : value < base ^ 32 := lt_of_lt_of_le hv (Nat.pow_le_pow_left h2 32)
  rw [utoa, if_neg hbase, Int.toNat_natCast, utoaLoop_eq h2 hlt (by omega), Option.map_some]
  have h := reverseLoop_eq (a := []) (b := []) (m := (numeral false base value).reverse) le_rfl
  simp only [List.nil_append, List.append_nil, List.length_nil, Nat.zero_add, List.reverse_reverse] at h
  rw [h]

theorem tmpLoop_eq (h2 : 2 ≤ base) (hv : num < base ^ n) :
    tmpLoop upper base n num = some ((Nat.digits base num).map (digitByte upper)) := by
  induction n generalizing num with
  | zero =>
    rw [pow_zero, Nat.lt_one_iff] at hv
    subst hv
    rw [tmpLoop, Nat.digits_zero, List.map_nil]
  | succ n ih =>
    cases num with
    | zero => rw [tmpLoop, Nat.digits_zero, List.map_nil]
    | succ num =>
      have hlt : (num + 1) / base < base ^ n := by
        rw [Nat.div_lt_iff_lt_mul (by omega), ← pow_succ]
        exact hv
      rw [tmpLoop, ih hlt, Nat.digits_def' (by omega) (Nat.succ_pos num)]
      rfl

theorem tmpDigits_eq {v : Int} (upper : Bool) (h2 : 2 ≤ base) (hv : v = 0 ↔ toUnsigned v = 0) :
    tmpDigits upper base v = some (numeral upper base (toUnsigned v)).reverse := by
  unfold tmpDigits numeral
  by_cases h : v = 0
  · rw [if_pos h, if_pos (hv.1 h)]
    rfl
  · have hlt : toUnsigned v < base ^ 66 := by
      calc toUnsigned v < 2 ^ 32 := toUnsigned_lt v
        _ ≤ 2 ^ 66 := Nat.pow_le_pow_right (by omega) (by omega)
        _ ≤ base ^ 66 := Nat.pow_le_pow_left h2 66
    rw [if_neg h, if_neg fun hc => h (hv.2 hc), tmpLoop_eq h2 hlt, List.reverse_reverse]

/-! ## Texts of numbers -/

/-- Nothing that could go on with the number. -/
def Ends (rest : List UInt8) : Prop := ∀ c ∈ rest.head?, isspace c = true

theorem not_digitIn_space {c : UInt8} (h : isspace c = true) : digitIn base c = false := by
  simp only [isspace, Bool.or_eq_true, beq_iff_eq] at h
  obtain (rfl | rfl) | rfl := h <;> rfl

theorem not_isX_space {c : UInt8} (h : isspace c = true) : isX c = false := by
  simp only [isspace, Bool.or_eq_true, beq_iff_eq] at h
  obtain (rfl | rfl) | rfl := h <;> rfl

/-- The bytes of digits. -/
theorem isDigit_range {c : UInt8} (h : IsDigit base c) :
    48 ≤ c.toNat ∧ c.toNat ≤ 57 ∨ 65 ≤ c.toNat ∧ c.toNat ≤ 90 ∨ 97 ≤ c.toNat ∧ c.toNat ≤ 122 := by
  obtain ⟨d, -, hd⟩ := h
  unfold digitValue at hd
  split_ifs at hd with h1 h2 h3
  · exact .inl h1
  · exact .inr (.inl h2)
  · exact .inr (.inr h3)

theorem isDigit_not_space {c : UInt8} (h : IsDigit base c) : isspace c = false := by
  rw [Bool.eq_false_iff]
  intro hs
  have h1 : digitIn base c = false := not_digitIn_space hs
  rw [digitIn_iff.2 h] at h1
  cases h1

/-- The hexadecimal digits are not `x`. -/
theorem isDigit_not_isX {c : UInt8} (h : IsDigit 16 c) : isX c = false := by
  rw [Bool.eq_false_iff]
  intro hx
  simp only [isX, Bool.or_eq_true, beq_iff_eq] at hx
  obtain ⟨d, hd, hv⟩ := h
  have h33 : d = 33 := by
    obtain rfl | rfl := hx
    · exact (Option.some.inj hv).symm
    · exact (Option.some.inj hv).symm
  omega

/-- No `0x` at the front of digits: after `0` comes a digit or white space. -/
theorem not_prefixed (hd : ∀ c ∈ ds, IsDigit 16 c) (hr : Ends rest) {x : UInt8} (hx : isX x = true) :
    ¬ [48, x] <+: ds ++ rest := by
  rintro ⟨t, ht⟩
  rw [List.cons_append, List.cons_append, List.nil_append] at ht
  obtain ⟨s, hs⟩ : ∃ s, ds ++ rest = 48 :: x :: s := ⟨t, ht.symm⟩
  have hmem : x ∈ ds ∨ x ∈ rest.head? := by
    cases ds with
    | nil =>
      -- white space is not `0`
      rw [List.nil_append] at hs
      have h48 : isspace 48 = true := hr 48 (by rw [hs]; rfl)
      cases h48
    | cons c ds =>
      rw [List.cons_append, List.cons_eq_cons] at hs
      cases ds with
      | nil => exact .inr (by rw [show rest = x :: s from hs.2]; rfl)
      | cons d ds =>
        obtain ⟨rfl, -⟩ := List.cons_eq_cons.1 hs.2
        exact .inl (by simp)
  obtain h | h := hmem
  · rw [isDigit_not_isX (hd x h)] at hx
    cases hx
  · rw [not_isX_space (hr x h)] at hx
    cases hx

/-- The text of a number: white space, a sign, `0x` before hexadecimal digits perhaps, and the digits. -/
structure Written (base : Nat) (ws sg pre ds : List UInt8) : Prop where
  space : ∀ c ∈ ws, isspace c = true
  sign : sg = [] ∨ sg = [43] ∨ sg = [45]
  pre : pre = [] ∨ pre = [48, 120] ∧ base = 16
  ne : ds ≠ []
  digits : ∀ c ∈ ds, IsDigit base c

/-- Such a text is read up to its end. -/
theorem Written.greedy (h : Written base ws sg pre ds) (h2 : 2 ≤ base) (hr : Ends rest) :
    (⟨ws, sg, pre, ds, rest⟩ : Parts).Greedy base := by
  have h0 : base ≠ 0 := by omega
  have hbase := (⟨ws, sg, pre, ds, rest⟩ : Parts).base_of_ne h0
  -- behind the sign comes a digit, be it the `0` of the prefix
  have hhead : ∀ c ∈ (pre ++ (ds ++ rest)).head?, IsDigit base c := by
    intro c hc
    obtain rfl | ⟨rfl, -⟩ := h.pre
    · obtain ⟨d, ds', rfl⟩ := List.exists_cons_of_ne_nil h.ne
      obtain rfl := Option.some.inj hc
      exact h.digits _ (List.mem_cons_self ..)
    · obtain rfl := Option.some.inj hc
      exact isDigit_zero (by omega)
  refine ⟨fun c hc => space_iff.1 (h.space c hc), fun c hc => ?_, h.sign, fun hs c hc => ?_, ?_, fun _ hb => ?_, ?_, ?_⟩
  · rw [← not_or, ← not_or, ← space_iff, Bool.not_eq_true]
    obtain hsg | hsg | hsg := h.sign
    · rw [hsg, List.nil_append] at hc
      exact isDigit_not_space (hhead c hc)
    · rw [hsg] at hc
      obtain rfl := Option.some.inj hc
      rfl
    · rw [hsg] at hc
      obtain rfl := Option.some.inj hc
      rfl
  · have hrange := isDigit_range (hhead c hc)
    constructor
    · rintro rfl
      simp at hrange
    · rintro rfl
      simp at hrange
  · obtain hpre | ⟨hpre, h16⟩ := h.pre
    · exact .inl hpre
    · exact .inr ⟨.inr h16, .inl hpre⟩
  · obtain rfl := hb.resolve_left (by omega)
    exact ⟨not_prefixed h.digits hr rfl, not_prefixed h.digits hr rfl⟩
  · rw [hbase]
    exact h.digits
  · intro c hc
    rw [hbase, ← digitIn_iff, not_digitIn_space (hr c hc)]
    exact Bool.false_ne_true

/-- What is read of it, with the minus sign or without. -/
theorem Written.strtoul (h : Written base ws sg pre ds) (h2 : 2 ≤ base) (h36 : base ≤ 36) (hr : Ends rest)
    (hv : valueFrom base 0 ds < 2 ^ 32) : strtoul (ws ++ (sg ++ (pre ++ (ds ++ rest)))) base =
      (if sg = [45] then usub32 0 (valueFrom base 0 ds) else valueFrom base 0 ds, some rest) := by
  have hstop : (⟨ws, sg, pre, ds, rest⟩ : Parts).stop = rest := if_neg h.ne
  have hmax : ulongMax = 4294967295 := rfl
  have heq := strtoul_eq (by omega) (h.greedy h2 hr)
  rw [Parts.value_of_ne _ (by omega), hstop, if_neg (show ¬ ulongMax < valueFrom base 0 ds by omega)] at heq
  rw [usub32, Nat.zero_add, Nat.mod_eq_of_lt hv]
  exact heq

theorem Written.strtol (h : Written base ws sg pre ds) (h2 : 2 ≤ base) (h36 : base ≤ 36) (hr : Ends rest) :
    strtol (ws ++ (sg ++ (pre ++ (ds ++ rest)))) base =
      (if sg = [45] then max (-2 ^ 31) (-(valueFrom base 0 ds) : Int) else min (2 ^ 31 - 1) (valueFrom base 0 ds : Int),
      some rest) := by
  have hstop : (⟨ws, sg, pre, ds, rest⟩ : Parts).stop = rest := if_neg h.ne
  have heq := strtol_eq (by omega) h36 (h.greedy h2 hr)
  rw [Parts.value_of_ne _ (by omega), hstop] at heq
  exact heq

theorem toUnsigned_of_nonneg {v : Int} (h0 : 0 ≤ v) (h : v < 2 ^ 32) : (toUnsigned v : Int) = v := by
  unfold toUnsigned
  rw [Int.emod_eq_of_lt h0 h, Int.toNat_of_nonneg h0]

theorem toUnsigned_int32 (v : Int) : toUnsigned (int32 v) = toUnsigned v := congrArg Int.toNat (Int.bmod_emod ..)

/-- The two's complement of a negative number. -/
theorem usub32_toUnsigned {v : Int} (h1 : -2 ^ 31 ≤ v) (h2 : v < 0) : usub32 0 (toUnsigned (-v)) = toUnsigned v := by
  have hv := toUnsigned_of_nonneg (v := -v) (by omega) (by omega)
  unfold usub32
  rw [Nat.mod_eq_of_lt (toUnsigned_lt _), Nat.zero_add, Nat.mod_eq_of_lt (by omega)]
  unfold toUnsigned at hv ⊢
  omega

/-! ## Reading back what was written -/

/-- The value of a text is `num`, as an `int` if there is a sign. -/
structure Denotes (sg : List UInt8) (v : Nat) (num : Int) : Prop where
  neg : sg = [45] → num < 0 ∧ v = toUnsigned (-num)
  pos : sg ≠ [45] → v = toUnsigned num

theorem Written.reads {num : Int} (h : Written base ws sg pre ds) (hd : Denotes sg (valueFrom base 0 ds) num)
    (h2 : 2 ≤ base) (h36 : base ≤ 36) (h31 : -2 ^ 31 ≤ num) (h31' : num < 2 ^ 31) (hr : Ends rest) :
    Stdio.strtoul (ws ++ (sg ++ (pre ++ (ds ++ rest)))) base = (toUnsigned num, some rest) ∧
      (sg = [45] ∨ 0 ≤ num → Stdio.strtol (ws ++ (sg ++ (pre ++ (ds ++ rest)))) base = (num, some rest)) := by
  by_cases hsg : sg = [45]
  · obtain ⟨hn, hv⟩ := hd.neg hsg
    have hneg := toUnsigned_of_nonneg (v := -num) (by omega) (by omega)
    constructor
    · rw [h.strtoul h2 h36 hr (by rw [hv]; exact toUnsigned_lt _), if_pos hsg, hv, usub32_toUnsigned h31 hn]
    · intro _
      rw [h.strtol h2 h36 hr, if_pos hsg, hv, hneg, neg_neg, max_eq_right h31]
  · have hv := hd.pos hsg
    constructor
    · rw [h.strtoul h2 h36 hr (by rw [hv]; exact toUnsigned_lt _), if_neg hsg, hv]
    · intro h0
      have h0 := h0.resolve_left hsg
      rw [h.strtol h2 h36 hr, if_neg hsg, hv, toUnsigned_of_nonneg h0 (by omega), min_eq_right (by omega)]

theorem written_numeral (h2 : 2 ≤ base) (h36 : base ≤ 36) (hsg : sg = [] ∨ sg = [43] ∨ sg = [45]) :
    Written base [] sg [] (numeral upper base value) :=
  ⟨fun c hc => (by cases hc), hsg, .inl rfl, numeral_ne_nil, isDigit_numeral h2 h36⟩

/-- What `itoa` writes is read back by `strtoul`, and by `strtol` when it is decimal or not negative. -/
theorem itoa_strtol {v : Int} (h2 : 2 ≤ base) (h36 : base ≤ 36) (h31 : -2 ^ 31 ≤ v) (h31' : v < 2 ^ 31) :
    ∃ str, itoa v base = some str ∧ ∀ rest, Ends rest → strtoul (str ++ rest) base = (toUnsigned v, some rest) ∧
      (base = 10 ∨ 0 ≤ v → strtol (str ++ rest) base = (v, some rest)) := by
  have hbase : ¬ ((base : Int) < 2 ∨ (base : Int) > 36) := by omega
  rw [itoa, if_neg hbase]
  by_cases h10 : (base : Int) = 10 ∧ v < 0
  · rw [if_pos h10, utoa_eq h2 h36 (toUnsigned_lt _)]
    refine ⟨_, rfl, fun rest hr => ?_⟩
    have hd : Denotes [45] (valueFrom base 0 (numeral false base (toUnsigned (-v)))) v :=
      ⟨fun _ => ⟨h10.2, value_numeral h2 h36⟩, fun h => absurd rfl h⟩
    obtain ⟨k1, k2⟩ := (written_numeral h2 h36 (.inr (.inr rfl))).reads hd h2 h36 h31 h31' hr
    exact ⟨k1, fun _ => k2 (.inl rfl)⟩
  · rw [if_neg h10, utoa_eq h2 h36 (toUnsigned_lt _)]
    refine ⟨_, rfl, fun rest hr => ?_⟩
    have hd : Denotes [] (valueFrom base 0 (numeral false base (toUnsigned v))) v :=
      ⟨fun h => (by cases h), fun _ => value_numeral h2 h36⟩
    obtain ⟨k1, k2⟩ := (written_numeral h2 h36 (.inl rfl)).reads hd h2 h36 h31 h31' hr
    refine ⟨k1, fun h => k2 (.inr ?_)⟩
    obtain rfl | h := h
    · by_contra hc
      exact h10 ⟨rfl, not_le.1 hc⟩
    · exact h

/-- `-42` in base 10. -/
theorem itoa_strtol_decimal : ∃ str, itoa (-42) 10 = some str ∧ strtol (str ++ [10]) 10 = (-42, some [10]) := by
  obtain ⟨str, h1, h2⟩ := itoa_strtol (v := -42) (show 2 ≤ 10 by decide) (by decide) (by decide) (by decide)
  refine ⟨str, h1, (h2 [10] ?_).2 (.inl rfl)⟩
  intro c hc
  obtain rfl := Option.some.inj hc
  rfl

theorem signPart_spec {num : Int} (size : Int) (type : Flags) (h31 : -2 ^ 31 ≤ num) (h31' : num < 2 ^ 31) :
    ((signPart num size type).2.1 = 0 ↔ toUnsigned (signPart num size type).2.1 = 0) ∧
    ((signPart num size type).1 = [45] ∧ type.sign = true ∧ num < 0 ∧
        toUnsigned (signPart num size type).2.1 = toUnsigned (-num) ∨
      ((signPart num size type).1 = [43] ∨ (signPart num size type).1 = [32] ∨ (signPart num size type).1 = []) ∧
        toUnsigned (signPart num size type).2.1 = toUnsigned num ∧ (type.sign = true → 0 ≤ num)) := by
  have hzero : ∀ v : Int, -2 ^ 31 ≤ v → v < 2 ^ 31 → (v = 0 ↔ toUnsigned v = 0) := by
    intro v h1 h2
    unfold toUnsigned
    omega
  unfold signPart
  split_ifs with h1 h2 h3 h4
  · refine ⟨?_, .inl ⟨rfl, h1, h2, toUnsigned_int32 _⟩⟩
    obtain rfl | hmin := eq_or_ne num (-2 ^ 31)
    · have hmin : int32 (-(-2 ^ 31)) = -2 ^ 31 := rfl
      simp only [hmin]
      exact hzero _ (by omega) (by omega)
    · simp only [int32_of_range (v := -num) (by omega) (by omega)]
      exact hzero _ (by omega) (by omega)
  · exact ⟨hzero _ h31 h31', .inr ⟨.inl rfl, rfl, fun _ => not_lt.1 h2⟩⟩
  · exact ⟨hzero _ h31 h31', .inr ⟨.inr (.inl rfl), rfl, fun _ => not_lt.1 h2⟩⟩
  · exact ⟨hzero _ h31 h31', .inr ⟨.inr (.inr rfl), rfl, fun _ => not_lt.1 h2⟩⟩
  · exact ⟨hzero _ h31 h31', .inr ⟨.inr (.inr rfl), rfl, fun h => absurd h h1⟩⟩

/-- Blanks before and behind, zeros between. -/
theorem padding_spec (size : Int) (zeropad left : Bool) : (∀ c ∈ (padding size zeropad left).1, c = 32) ∧
    (∀ c ∈ (padding size zeropad left).2.1, c = 48) ∧ ∀ c ∈ (padding size zeropad left).2.2, c = 32 := by
  have hpad : ∀ (size : Int) (c : UInt8), ∀ x ∈ (pad size c).1, x = c := fun size c x hx => (List.mem_replicate.1 hx).2
  have hnil : ∀ c ∈ ([] : List UInt8), c = (48 : UInt8) := fun c hc => (by cases hc)
  have hnil' : ∀ c ∈ ([] : List UInt8), c = (32 : UInt8) := fun c hc => (by cases hc)
  cases left with
  | true =>
    refine ⟨?_, hnil, hpad _ _⟩
    cases zeropad <;> exact hnil'
  | false =>
    cases zeropad with
    | true => exact ⟨hnil', hpad _ _, hpad _ _⟩
    | false =>
      -- the blanks before have used the size up
      refine ⟨hpad _ _, ?_, hpad _ _⟩
      have h0 : (min size 0 - 1).toNat = 0 := by omega
      simp only [padding, pad, Bool.or_self, Bool.not_false, if_true, h0, List.replicate_zero]
      exact hnil

theorem value_zeros {zs : List UInt8} (h : ∀ c ∈ zs, c = 48) : valueFrom base 0 (zs ++ ds) = valueFrom base 0 ds := by
  rw [List.eq_replicate_of_mem h, valueFrom_append, valueFrom_zeros]

/-- What `number` writes is a text of the number with blanks behind it. -/
theorem number_written {num : Int} (size precision : Int) (type : Flags) (h2 : 2 ≤ base) (h36 : base ≤ 36)
    (h31 : -2 ^ 31 ≤ num) (h31' : num < 2 ^ 31) : ∃ ws sg pre ds back, number num base size precision type =
    some (ws ++ (sg ++ (pre ++ (ds ++ back)))) ∧
      Written base ws sg pre ds ∧ (∀ c ∈ back, c = 32) ∧ Denotes sg (valueFrom base 0 ds) num ∧
      (type.sign = true → num < 0 → sg = [45]) := by
  have hbase : ¬ ((base : Int) < 2 ∨ (base : Int) > 36) := by omega
  obtain ⟨hz, hs⟩ := signPart_spec size type h31 h31'
  rcases hx : signPart num size type with ⟨sgn, u, size'⟩
  rw [hx] at hz hs
  simp only at hz hs
  have htmp := tmpDigits_eq type.uppercase h2 hz
  simp only [number, if_neg hbase, hx, Int.toNat_natCast, htmp, Option.bind_eq_bind, Option.bind_some,
    List.reverse_reverse, List.length_reverse]
  generalize (if type.hexPrep then
    if (base : Int) = 16 then size' - 2 else if (base : Int) = 8 then size' - 1 else size' else size') = size
  generalize max precision ((numeral type.uppercase base (toUnsigned u)).length : Int) = prec
  obtain ⟨hfront, hmid, hback⟩ := padding_spec (size - prec) (type.zeropad && !type.left) type.left
  rcases hp : padding (size - prec) (type.zeropad && !type.left) type.left with ⟨front, mid, back⟩
  rw [hp] at hfront hmid hback
  simp only at hfront hmid hback
  generalize hzeros : List.replicate (prec - ((numeral type.uppercase base (toUnsigned u)).length : Int)).toNat
    (48 : UInt8) = zeros
  have hz48 : ∀ c ∈ zeros, c = 48 := fun c hc => (List.mem_replicate.1 (hzeros ▸ hc)).2
  -- the `0` of an octal number is one of its digits
  obtain ⟨pre, oct, hpre, hpre16, hoct⟩ : ∃ pre oct : List UInt8, prePart base type = pre ++ oct ∧
      (pre = [] ∨ pre = [48, 120] ∧ base = 16) ∧
      ∀ c ∈ oct, c = 48 := by
    unfold prePart
    split_ifs with h1 h8 h16
    · exact ⟨[], [48], rfl, .inl rfl, fun c hc => List.mem_singleton.1 hc⟩
    · exact ⟨[48, 120], [], rfl, .inr ⟨rfl, by omega⟩, fun c hc => (by cases hc)⟩
    · exact ⟨[], [], rfl, .inl rfl, fun c hc => (by cases hc)⟩
    · exact ⟨[], [], rfl, .inl rfl, fun c hc => (by cases hc)⟩
  have hlead : ∀ c ∈ oct ++ (mid ++ zeros), c = 48 := by
    intro c hc
    obtain hc | hc := List.mem_append.1 hc
    · exact hoct c hc
    · obtain hc | hc := List.mem_append.1 hc
      · exact hmid c hc
      · exact hz48 c hc
  have hdigits : ∀ c ∈ oct ++ (mid ++ zeros) ++ numeral type.uppercase base (toUnsigned u), IsDigit base c := by
    intro c hc
    obtain hc | hc := List.mem_append.1 hc
    · rw [hlead c hc]
      exact isDigit_zero (by omega)
    · exact isDigit_numeral h2 h36 c hc
  have hvalue : valueFrom base 0 (oct ++ (mid ++ zeros) ++ numeral type.uppercase base (toUnsigned u)) =
      toUnsigned u := by
    rw [value_zeros hlead, value_numeral h2 h36]
  have hspace : ∀ c ∈ front, isspace c = true := by
    intro c hc
    rw [hfront c hc]
    rfl
  have hne : oct ++ (mid ++ zeros) ++ numeral type.uppercase base (toUnsigned u) ≠ [] := fun h =>
    numeral_ne_nil (List.append_eq_nil_iff.1 h).2
  rw [hpre]
  obtain ⟨rfl, hsign, hn, hu⟩ | ⟨hsgn, hu, hsign⟩ := hs
  · exact ⟨front, [45], pre, _, back, by simp, ⟨hspace, .inr (.inr rfl), hpre16, hne, hdigits⟩, hback,
      ⟨fun _ => ⟨hn, hvalue.trans hu⟩, fun h => absurd rfl h⟩, fun _ _ => rfl⟩
  · have hneg : ∀ {sg : List UInt8}, type.sign = true → num < 0 → sg = [45] := fun h h0 =>
      absurd h0 (not_lt.2 (hsign h))
    obtain rfl | rfl | rfl := hsgn
    · exact ⟨front, [43], pre, _, back, by simp, ⟨hspace, .inr (.inl rfl), hpre16, hne, hdigits⟩, hback,
        ⟨fun h => (by cases h), fun _ => hvalue.trans hu⟩, hneg⟩
    · -- a blank in place of the sign is white space
      refine ⟨front ++ [32], [], pre, _, back, by simp, ⟨?_, .inl rfl, hpre16, hne, hdigits⟩, hback,
        ⟨fun h => (by cases h), fun _ => hvalue.trans hu⟩, hneg⟩
      intro c hc
      obtain hc | hc := List.mem_append.1 hc
      · exact hspace c hc
      · rw [List.mem_singleton.1 hc]
        rfl
    · exact ⟨front, [], pre, _, back, by simp, ⟨hspace, .inl rfl, hpre16, hne, hdigits⟩, hback,
        ⟨fun h => (by cases h), fun _ => hvalue.trans hu⟩, hneg⟩

/-- Whatever the base, the width, the precision and the flags, what `number` writes is read back: by `strtoul`, and by
`strtol` when the number is written with its sign or is not negative. -/
theorem number_reads {num : Int} (size precision : Int) (type : Flags) (h2 : 2 ≤ base) (h36 : base ≤ 36)
    (h31 : -2 ^ 31 ≤ num) (h31' : num < 2 ^ 31) : ∃ str back, number num base size precision type = some (str ++ back) ∧
    (∀ c ∈ back, c = 32) ∧
      ∀ rest, Ends rest → strtoul (str ++ rest) base = (toUnsigned num, some rest) ∧
        (type.sign = true ∨ 0 ≤ num → strtol (str ++ rest) base = (num, some rest)) := by
  obtain ⟨ws, sg, pre, ds, back, h, hw, hback, hd, hneg⟩ := number_written size precision type h2 h36 h31 h31'
  refine ⟨ws ++ (sg ++ (pre ++ ds)), back, by simpa using h, hback, fun rest hr => ?_⟩
  obtain ⟨k1, k2⟩ := hw.reads hd h2 h36 h31 h31' hr
  have happ : ws ++ (sg ++ (pre ++ ds)) ++ rest = ws ++ (sg ++ (pre ++ (ds ++ rest))) := by simp
  rw [happ]
  refine ⟨k1, fun h => k2 ?_⟩
  by_cases h0 : 0 ≤ num
  · exact .inr h0
  · exact .inl (hneg (h.resolve_right h0) (not_le.1 h0))

/-- `%#8x` of 255. -/
theorem number_reads_hex : ∃ str back, number 255 16 8 (-1) ⟨false, false, false, false, false, true, false⟩ =
    some (str ++ back) ∧ strtol (str ++ []) 16 = (255, some []) := by
  obtain ⟨str, back, h1, -, h2⟩ := number_reads 8 (-1) ⟨false, false, false, false, false, true, false⟩
    (show 2 ≤ 16 by decide) (by decide) (show -2 ^ 31 ≤ (255 : Int) by decide) (by decide)
  refine ⟨str, back, h1, (h2 [] ?_).2 (.inr (by decide))⟩
  intro c hc
  cases hc

end TinyOS.Stdio
