/-
Reading numbers (lib/src/stdlib/strtol.c, strtoul.c, atoi.c): the two functions are one scan with the largest
value as a parameter, before which `strtol` alone tests the base. A text has one way to be taken apart into blanks,
sign, prefix and digits; what the functions return and where they stop is the value of the digits, cut off at the
limits.
-/
import Mathlib.Data.List.TakeWhile
import TinyOS.Lib.Radix
import TinyOS.Lib.Word

namespace TinyOS.Stdio

open TinyOS.Lib

abbrev longMax : Nat := 2147483647
abbrev ulongMax : Nat := 4294967295

/-- An `int` or `long` as an `unsigned`. -/
def toUnsigned (v : Int) : Nat := (v % 2 ^ 32).toNat

/-- `isspace`: blank, tab and newline. -/
def isspace (c : UInt8) : Bool := c == 32 || c == 9 || c == 10

/-- The test of `*s == 'x' || *s == 'X'`. -/
def isX (c : UInt8) : Bool := c == 120 || c == 88

/-! ## strtol.c, strtoul.c

A string is the list of its bytes, the NUL that ends it left out; a byte behind it is never looked at. -/

/-- What the digit loop leaves: `acc`, `any`, and the string from the byte that it stopped at. -/
structure Scan where
  acc : Nat
  any : Int
  rest : List UInt8

/-- `for (acc = 0, any = 0;; c = *s++)`, from given `acc` and `any`. -/
def digitLoop (base : Int) (cutoff cutlim : Nat) : (s : List UInt8) → (acc : Nat) → (any : Int) → Scan
  | [], acc, any => ⟨acc, any, []⟩
  | c :: s, acc, any =>
    match digitValue c with
    | none => ⟨acc, any, c :: s⟩
    | some d =>
      if (d : Int) ≥ base then ⟨acc, any, c :: s⟩
      else if any < 0 ∨ acc > cutoff ∨ acc = cutoff ∧ d > cutlim then digitLoop base cutoff cutlim s acc (-1)
      else digitLoop base cutoff cutlim s (uint32 (uint32 (acc * toUnsigned base) + d)) 1

/-- The sign, if it is `-`, and the string behind it. -/
def sign : List UInt8 → Bool × List UInt8
  | [] => (false, [])
  | c :: s => if c = 45 then (true, s) else if c = 43 then (false, s) else (false, c :: s)

/-- The base and the string behind `0x`. -/
def radix (base : Int) : List UInt8 → Int × List UInt8
  | 48 :: c :: s =>
    if (base = 0 ∨ base = 16) ∧ isX c then (16, s) else (if base = 0 then 8 else base, 48 :: c :: s)
  | 48 :: [] => (if base = 0 then 8 else base, [48])
  | s => (if base = 0 then 10 else base, s)

/-- The text of `strtol` and `strtoul`, for the largest value after `-` or without one, which an overflow gives:
the value and `*endptr`. -/
def strto (limit : Bool → Nat) (nptr : List UInt8) (base : Int) : Nat × List UInt8 :=
  let (neg, s) := sign (nptr.dropWhile isspace)
  let (base, s) := radix base s
  let r := digitLoop base (limit neg / toUnsigned base) (limit neg % toUnsigned base) s 0 0
  let acc := if r.any < 0 then limit neg else if neg then usub32 0 r.acc else r.acc
  (acc, if r.any ≠ 0 then r.rest else nptr)

/-- `cutoff = neg ? -(unsigned long)LONG_MIN : LONG_MAX`. No `*endptr` is set when the base is refused. -/
def strtol (nptr : List UInt8) (base : Int) : Int × Option (List UInt8) :=
  if base < 0 ∨ base = 1 ∨ base > 36 then (0, none)
  else
    let (acc, endptr) := strto (fun neg => if neg then longMax + 1 else longMax) nptr base
    (int32 acc, some endptr)

/-- Here no base is refused. -/
def strtoul (nptr : List UInt8) (base : Int) : Nat × Option (List UInt8) :=
  let (acc, endptr) := strto (fun _ => ulongMax) nptr base
  (acc, some endptr)

def atoi (s : List UInt8) : Int := (strtol s 10).1

/-! ## What they read -/

/-- A text taken apart: blanks, a sign, `0x`, digits, and the rest. -/
structure Parts where
  blanks : List UInt8
  sign : List UInt8
  pre : List UInt8
  digits : List UInt8
  rest : List UInt8

namespace Parts

def text (r : Parts) : List UInt8 := r.blanks ++ (r.sign ++ (r.pre ++ (r.digits ++ r.rest)))

/-- The base of the digits. Base 0 leaves it to the text: 16 behind `0x`, 8 for digits that begin with `0`, else 10. -/
def base (r : Parts) (given : Nat) : Nat :=
  if given ≠ 0 then given else if r.pre ≠ [] then 16 else if (r.digits ++ r.rest).head? = some 48 then 8 else 10

/-- Each part is of its kind, and takes all that it can, from left to right: behind the blanks comes none, behind
no sign comes none, behind no prefix comes none where a prefix is allowed, and behind the digits comes none. -/
structure Greedy (r : Parts) (given : Nat) : Prop where
  blanks : ∀ c ∈ r.blanks, c = 32 ∨ c = 9 ∨ c = 10
  noBlank : ∀ c ∈ (r.sign ++ (r.pre ++ (r.digits ++ r.rest))).head?, c ≠ 32 ∧ c ≠ 9 ∧ c ≠ 10
  sign : r.sign = [] ∨ r.sign = [43] ∨ r.sign = [45]
  noSign : r.sign = [] → ∀ c ∈ (r.pre ++ (r.digits ++ r.rest)).head?, c ≠ 43 ∧ c ≠ 45
  pre : r.pre = [] ∨ (given = 0 ∨ given = 16) ∧ (r.pre = [48, 120] ∨ r.pre = [48, 88])
  noPre : r.pre = [] → given = 0 ∨ given = 16 → ¬ [48, 120] <+: r.digits ++ r.rest ∧ ¬ [48, 88] <+: r.digits ++ r.rest
  digits : ∀ c ∈ r.digits, IsDigit (r.base given) c
  noDigit : ∀ c ∈ r.rest.head?, ¬ IsDigit (r.base given) c

/-- The value of the digits. -/
def value (r : Parts) (given : Nat) : Nat := valueFrom (r.base given) 0 r.digits

/-- Where the reading ends: behind the digits, if there are any. -/
def stop (r : Parts) : List UInt8 := if r.digits = [] then r.text else r.rest

end Parts

def digitIn (base : Nat) (c : UInt8) : Bool := (digitValue c).any (· < base)

variable {base n limit acc : Nat} {any : Int} {c : UInt8} {s t nptr : List UInt8} {r r' : Parts}

theorem digitIn_iff : digitIn base c = true ↔ IsDigit base c := by
  unfold digitIn IsDigit
  cases digitValue c with
  | none => simp
  | some d => simp

theorem space_iff : isspace c = true ↔ c = 32 ∨ c = 9 ∨ c = 10 := by
  simp only [isspace, Bool.or_eq_true, beq_iff_eq, or_assoc]

theorem toUnsigned_lt (v : Int) : toUnsigned v < 2 ^ 32 := by
  have := Int.emod_lt_of_pos v (by norm_num : (0 : Int) < 2 ^ 32)
  unfold toUnsigned
  omega

theorem toUnsigned_natCast (h : n < 2 ^ 32) : toUnsigned n = n := by
  unfold toUnsigned
  omega

/-- A run of bytes of a kind, and behind it none. -/
theorem span_exact {p : UInt8 → Bool} (hs : ∀ c ∈ s, p c = true) (ht : ∀ c ∈ t.head?, p c = false) :
    (s ++ t).takeWhile p = s ∧ (s ++ t).dropWhile p = t := by
  rw [List.takeWhile_append_of_pos hs, List.dropWhile_append_of_pos hs]
  cases t with
  | nil => exact ⟨List.append_nil s, rfl⟩
  | cons c t =>
    have hc : p c = false := ht c rfl
    rw [List.takeWhile_cons_of_neg (by simp [hc]), List.dropWhile_cons_of_neg (by simp [hc])]
    exact ⟨List.append_nil s, rfl⟩

/-! ## The digit loop -/

/-- After an overflow the digits are passed over. -/
theorem digitLoop_over (base cutoff cutlim : Nat) (s : List UInt8) (acc : Nat) :
    (digitLoop base cutoff cutlim s acc (-1)).any = -1 ∧ (digitLoop base cutoff cutlim s acc (-1)).rest = s.dropWhile
    (digitIn base) := by
  induction s generalizing acc with
  | nil => exact ⟨rfl, rfl⟩
  | cons c s ih =>
    rw [digitLoop]
    cases hc : digitValue c with
    | none => exact ⟨rfl, by rw [List.dropWhile_cons_of_neg (by simp [digitIn, hc])]⟩
    | some d =>
      by_cases hd : base ≤ d
      · simp only [ge_iff_le, Nat.cast_le, if_pos hd]
        exact ⟨trivial, by rw [List.dropWhile_cons_of_neg (by simp [digitIn, hc, hd])]⟩
      · simp only [ge_iff_le, Nat.cast_le, if_neg hd]
        rw [if_pos (Or.inl (by decide)), List.dropWhile_cons_of_pos (by simp [digitIn, hc]; omega)]
        exact ih acc

/-- What the loop makes of the digits: their value, or an overflow when that is over the limit. -/
theorem digitLoop_spec (hb : 0 < base) (hb32 : base < 2 ^ 32) (hl : limit < 2 ^ 32) (hacc : acc ≤ limit)
    (hany : 0 ≤ any) :
    (digitLoop base (limit / base) (limit % base) s acc any).rest = s.dropWhile (digitIn base) ∧
    ((digitLoop base (limit / base) (limit % base) s acc any).any < 0 ↔
    limit < valueFrom base acc (s.takeWhile (digitIn base))) ∧
    (valueFrom base acc (s.takeWhile (digitIn base)) ≤ limit →
      (digitLoop base (limit / base) (limit % base) s acc any).acc = valueFrom base acc (s.takeWhile (digitIn base))) ∧
    ((digitLoop base (limit / base) (limit % base) s acc any).any = 0 ↔ any = 0 ∧ s.takeWhile (digitIn base) = []) := by
  induction s generalizing acc any with
  | nil => exact ⟨rfl, iff_of_false (not_lt.2 hany) (not_lt.2 hacc), fun _ => rfl, (and_iff_left rfl).symm⟩
  | cons c s ih =>
    -- the loop stops here
    have hstop : digitIn base c = false → ((c :: s).dropWhile (digitIn base) = c :: s ∧
      (c :: s).takeWhile (digitIn base) = []) := by
      intro h
      rw [List.dropWhile_cons_of_neg (by simp [h]), List.takeWhile_cons_of_neg (by simp [h])]
      exact ⟨rfl, rfl⟩
    rw [digitLoop]
    cases hc : digitValue c with
    | none =>
      obtain ⟨h1, h2⟩ := hstop (by simp [digitIn, hc])
      rw [h1, h2]
      exact ⟨rfl, iff_of_false (not_lt.2 hany) (not_lt.2 hacc), fun _ => rfl, (and_iff_left rfl).symm⟩
    | some d =>
      by_cases hd : base ≤ d
      · obtain ⟨h1, h2⟩ := hstop (by simp [digitIn, hc, hd])
        simp only [ge_iff_le, Nat.cast_le, if_pos hd]
        rw [h1, h2]
        exact ⟨rfl, iff_of_false (not_lt.2 hany) (not_lt.2 hacc), fun _ => rfl, (and_iff_left rfl).symm⟩
      · have hin : digitIn base c = true := by
          simp only [digitIn, hc, Option.any_some, decide_eq_true_eq]
          omega
        simp only [ge_iff_le, Nat.cast_le, if_neg hd, toUnsigned_natCast hb32]
        rw [List.dropWhile_cons_of_pos hin, List.takeWhile_cons_of_pos hin, valueFrom_cons, hc, Option.getD_some]
        have hnext : acc * base + d ≤ limit ↔ _ := next_le_iff hb (not_le.1 hd)
        by_cases hle : acc * base + d ≤ limit
        · -- the digit is taken
          have hno := hnext.1 hle
          have hmul : acc * base < 2 ^ 32 := by omega
          rw [if_neg (by rintro (h | h | h); exacts [absurd h (not_lt.2 hany), hno (.inl h), hno (.inr h)]),
            uint32_of_lt hmul, uint32_of_lt (by omega)]
          obtain ⟨h1, h2, h3, h4⟩ := ih hle Int.one_nonneg
          refine ⟨h1, h2, h3, h4.trans (iff_of_false ?_ ?_)⟩
          · rintro ⟨h, -⟩
            cases h
          · rintro ⟨-, h⟩
            cases h
        · have hyes := not_not.1 fun h => hle (hnext.2 h)
          rw [if_pos (.inr hyes)]
          obtain ⟨h1, h2⟩ := digitLoop_over base (limit / base) (limit % base) s acc
          have hover : limit < valueFrom base (acc * base + d) (s.takeWhile (digitIn base)) :=
            lt_of_lt_of_le (not_le.1 hle) (le_valueFrom hb)
          refine ⟨h2, iff_of_true (by rw [h1]; decide) hover, fun h => absurd h (not_le.2 hover),
            iff_of_false (by rw [h1]; decide) ?_⟩
          rintro ⟨-, h⟩
          cases h

/-! ## The parts of a text -/

namespace Parts.Greedy

theorem blanks_eq (g : r.Greedy base) : r.text.takeWhile isspace = r.blanks ∧
    r.text.dropWhile isspace = r.sign ++ (r.pre ++ (r.digits ++ r.rest)) := by
  refine span_exact (fun c hc => space_iff.2 (g.blanks c hc)) fun c hc => ?_
  have hno := g.noBlank c hc
  rw [Bool.eq_false_iff]
  intro hs
  obtain h | h | h := space_iff.1 hs
  · exact hno.1 h
  · exact hno.2.1 h
  · exact hno.2.2 h

theorem sign_eq (g : r.Greedy base) : Stdio.sign (r.sign ++ (r.pre ++ (r.digits ++ r.rest))) =
    (decide (r.sign = [45]), r.pre ++ (r.digits ++ r.rest)) := by
  obtain h | h | h := g.sign
  · have hno := g.noSign h
    rw [h, List.nil_append]
    cases hv : r.pre ++ (r.digits ++ r.rest) with
    | nil => rfl
    | cons c v =>
      obtain ⟨h43, h45⟩ := hno c (by rw [hv]; rfl)
      rw [Stdio.sign, if_neg h45, if_neg h43]
      rfl
  · rw [h]
    rfl
  · rw [h]
    rfl

theorem radix_eq (g : r.Greedy base) : radix base (r.pre ++ (r.digits ++ r.rest)) =
    ((r.base base : Int), r.digits ++ r.rest) := by
  obtain h | ⟨hb, hpre⟩ := g.pre
  · have hno := g.noPre h
    rw [h, List.nil_append]
    unfold Parts.base
    rw [if_neg (not_not.2 h)]
    generalize r.digits ++ r.rest = w at hno ⊢
    unfold radix
    split
    · next c s =>
      -- what begins with `0x` would have that for its prefix
      have hx : ¬ (((base : Int) = 0 ∨ (base : Int) = 16) ∧ isX c = true) := by
        rintro ⟨hb, hx⟩
        obtain ⟨h1, h2⟩ := hno (by omega)
        simp only [isX, Bool.or_eq_true, beq_iff_eq] at hx
        obtain rfl | rfl := hx
        · exact h1 ⟨s, rfl⟩
        · exact h2 ⟨s, rfl⟩
      rw [if_neg hx, List.head?_cons, if_pos rfl]
      by_cases h0 : base = 0
      · simp [h0]
      · simp [h0]
    · rw [List.head?_cons, if_pos rfl]
      by_cases h0 : base = 0
      · simp [h0]
      · simp [h0]
    · next h1 h2 =>
      have hhead : w.head? ≠ some 48 := by
        rintro hw
        obtain ⟨v, rfl⟩ := List.head?_eq_some_iff.1 hw
        cases v with
        | nil => exact h2 rfl
        | cons c s => exact h1 c s rfl
      rw [if_neg hhead]
      by_cases h0 : base = 0
      · simp [h0]
      · simp [h0]
  · have hne : r.pre ≠ [] := by
      obtain h | h := hpre
      · simp [h]
      · simp [h]
    have hbase : r.base base = 16 := by
      unfold Parts.base
      rw [if_pos hne]
      split_ifs <;> omega
    have hb' : (base : Int) = 0 ∨ (base : Int) = 16 := by omega
    rw [hbase]
    obtain h | h := hpre
    · rw [h]
      exact if_pos ⟨hb', rfl⟩
    · rw [h]
      exact if_pos ⟨hb', rfl⟩

theorem digits_eq (g : r.Greedy base) : (r.digits ++ r.rest).takeWhile (digitIn (r.base base)) = r.digits ∧
    (r.digits ++ r.rest).dropWhile (digitIn (r.base base)) = r.rest := by
  refine span_exact (fun c hc => digitIn_iff.2 (g.digits c hc)) fun c hc => ?_
  rw [Bool.eq_false_iff]
  exact fun hd => g.noDigit c hc (digitIn_iff.1 hd)

/-- There is one way to take a text apart. -/
theorem unique (g : r.Greedy base) (g' : r'.Greedy base) (h : r'.text = r.text) : r' = r := by
  obtain ⟨h1, h2⟩ := g.blanks_eq
  obtain ⟨h1', h2'⟩ := g'.blanks_eq
  rw [h, h1] at h1'
  rw [h, h2] at h2'
  have h3 := g'.sign_eq
  rw [← h2', g.sign_eq] at h3
  have h4 := (Prod.mk.inj h3).2
  have h5 := g'.radix_eq
  rw [← h4, g.radix_eq] at h5
  obtain ⟨h6, h7⟩ := Prod.mk.inj h5
  obtain ⟨h8, h9⟩ := g.digits_eq
  obtain ⟨h8', h9'⟩ := g'.digits_eq
  rw [← Int.natCast_inj.1 h6, ← h7] at h8' h9'
  rw [h4] at h2'
  rw [h7] at h4
  cases r
  cases r'
  simp only [Parts.mk.injEq]
  exact ⟨h1'.symm, (List.append_cancel_right h2').symm, (List.append_cancel_right h4).symm, h8'.symm.trans h8,
    h9'.symm.trans h9⟩

end Parts.Greedy

theorem cut_sign (s : List UInt8) : ∃ sg t, s = sg ++ t ∧ (sg = [] ∨ sg = [43] ∨ sg = [45]) ∧
    (sg = [] → ∀ c ∈ t.head?, c ≠ 43 ∧ c ≠ 45) := by
  cases s with
  | nil => exact ⟨[], [], rfl, .inl rfl, fun _ c hc => by cases hc⟩
  | cons c s =>
    by_cases h43 : c = 43
    · exact ⟨[43], s, by rw [h43]; rfl, .inr (.inl rfl), fun h => by cases h⟩
    · by_cases h45 : c = 45
      · exact ⟨[45], s, by rw [h45]; rfl, .inr (.inr rfl), fun h => by cases h⟩
      · refine ⟨[], c :: s, rfl, .inl rfl, fun _ d hd => ?_⟩
        cases hd
        exact ⟨h43, h45⟩

theorem cut_pre (base : Nat) (s : List UInt8) : ∃ pre t, s = pre ++ t ∧
    (pre = [] ∨ (base = 0 ∨ base = 16) ∧ (pre = [48, 120] ∨ pre = [48, 88])) ∧
    (pre = [] → base = 0 ∨ base = 16 → ¬ [48, 120] <+: t ∧ ¬ [48, 88] <+: t) := by
  by_cases hb : base = 0 ∨ base = 16
  swap
  · exact ⟨[], s, rfl, .inl rfl, fun _ h => absurd h hb⟩
  by_cases h1 : [48, 120] <+: s
  · obtain ⟨t, ht⟩ := h1
    exact ⟨[48, 120], t, ht.symm, .inr ⟨hb, .inl rfl⟩, fun h => by cases h⟩
  · by_cases h2 : [48, 88] <+: s
    · obtain ⟨t, ht⟩ := h2
      exact ⟨[48, 88], t, ht.symm, .inr ⟨hb, .inr rfl⟩, fun h => by cases h⟩
    · exact ⟨[], s, rfl, .inl rfl, fun _ _ => ⟨h1, h2⟩⟩

theorem exists_greedy (nptr : List UInt8) (base : Nat) : ∃ r : Parts, r.text = nptr ∧ r.Greedy base := by
  obtain ⟨sg, v, hv, hsg, hno⟩ := cut_sign (nptr.dropWhile isspace)
  obtain ⟨pre, w, hw, hpre, hnopre⟩ := cut_pre base v
  -- the base depends on the prefix and on what is behind it
  generalize hb : (⟨[], [], pre, [], w⟩ : Parts).base base = b
  have happ : w.takeWhile (digitIn b) ++ w.dropWhile (digitIn b) = w := List.takeWhile_append_dropWhile
  have hbase :
      (⟨nptr.takeWhile isspace, sg, pre, w.takeWhile (digitIn b), w.dropWhile (digitIn b)⟩ : Parts).base base = b := by
    refine Eq.trans ?_ hb
    show (if base ≠ 0 then base else if pre ≠ [] then 16 else
      if (w.takeWhile (digitIn b) ++ w.dropWhile (digitIn b)).head? = some 48 then 8 else 10) = _
    rw [happ]
    rfl
  refine ⟨⟨nptr.takeWhile isspace, sg, pre, w.takeWhile (digitIn b), w.dropWhile (digitIn b)⟩, ?_, ?_⟩
  · unfold Parts.text
    simp only [happ]
    rw [← hw, ← hv]
    exact List.takeWhile_append_dropWhile
  · refine ⟨fun c hc => space_iff.1 (List.mem_takeWhile_imp hc), fun c hc => ?_, hsg, fun h c hc => ?_,
      hpre, fun h h16 => ?_, fun c hc => ?_, fun c hc => ?_⟩
    · simp only [happ] at hc
      rw [← hw, ← hv] at hc
      obtain ⟨u, hu⟩ := List.head?_eq_some_iff.1 hc
      have hne : nptr.dropWhile isspace ≠ [] := by
        rw [hu]
        exact List.cons_ne_nil _ _
      have h1 := List.head_dropWhile_not isspace hne
      have h2 : isspace c = false := by simpa [hu] using h1
      rw [← not_or, ← not_or, ← space_iff, h2]
      exact Bool.false_ne_true
    · simp only [happ] at hc
      rw [← hw] at hc
      exact hno h c hc
    · simp only [happ]
      exact hnopre h h16
    · rw [hbase]
      exact digitIn_iff.1 (List.mem_takeWhile_imp hc)
    · rw [hbase, ← digitIn_iff]
      obtain ⟨u, hu⟩ := List.head?_eq_some_iff.1 hc
      have hne : w.dropWhile (digitIn b) ≠ [] := by
        simp only at hu
        rw [hu]
        exact List.cons_ne_nil _ _
      have h1 := List.head_dropWhile_not (digitIn b) hne
      simp only at hu
      simpa [hu] using h1

/-! ## The functions -/

theorem Parts.base_of_ne (r : Parts) (h : base ≠ 0) : r.base base = base := if_pos h

theorem Parts.value_of_ne (r : Parts) (h : base ≠ 0) : r.value base = valueFrom base 0 r.digits := by
  rw [Parts.value, r.base_of_ne h]

theorem Parts.base_pos (r : Parts) (base : Nat) : 0 < r.base base := by
  unfold Parts.base
  split_ifs <;> omega

theorem Parts.base_lt (r : Parts) (h : base < 2 ^ 31) : r.base base < 2 ^ 31 := by
  unfold Parts.base
  split_ifs <;> omega

theorem strto_spec {limit : Bool → Nat} (hl : ∀ neg, limit neg < 2 ^ 32) (hb : base < 2 ^ 31) (g : r.Greedy base) :
    strto limit r.text base =
      (if r.value base ≤ limit (decide (r.sign = [45])) then
        (if r.sign = [45] then usub32 0 (r.value base) else r.value base)
      else limit (decide (r.sign = [45])), r.stop) := by
  obtain ⟨k1, k2, k3, k4⟩ := digitLoop_spec (s := r.digits ++ r.rest) (r.base_pos base)
    (show r.base base < 2 ^ 32 by have := r.base_lt hb; omega) (hl (decide (r.sign = [45]))) (Nat.zero_le _)
    (le_refl (0 : Int))
  obtain ⟨e1, e2⟩ := g.digits_eq
  rw [e1] at k2 k3 k4
  rw [e2] at k1
  have hu : toUnsigned (r.base base : Int) = r.base base := toUnsigned_natCast (by have := r.base_lt hb; omega)
  have hval : valueFrom (r.base base) 0 r.digits = r.value base := rfl
  rw [hval] at k2 k3
  simp only [strto, g.blanks_eq.2, g.sign_eq, g.radix_eq, hu, decide_eq_true_eq]
  congr 1
  · by_cases hle : r.value base ≤ limit (decide (r.sign = [45]))
    · rw [if_neg fun h => absurd (k2.1 h) (not_lt.2 hle), if_pos hle, k3 hle]
    · rw [if_pos (k2.2 (not_le.1 hle)), if_neg hle]
  · rw [k1, Parts.stop]
    by_cases hd : r.digits = []
    · rw [if_neg (not_not.2 (k4.2 ⟨rfl, hd⟩)), if_pos hd]
    · rw [if_pos fun h => hd (k4.1 h).2, if_neg hd]

/-- An `unsigned long` with a minus sign, read as a `long`. -/
theorem int32_neg {v : Nat} (h : v ≤ 2 ^ 31) : int32 (usub32 0 v) = -(v : Int) := by
  unfold usub32
  rw [Nat.mod_eq_of_lt (by omega : v < 2 ^ 32), Nat.zero_add]
  by_cases h0 : v = 0
  · subst h0
    rfl
  · rw [Nat.mod_eq_of_lt (by omega), Nat.cast_sub (by omega)]
    have hmod := Int.add_mul_bmod_self_right (-(v : Int)) 1 (2 ^ 32)
    have heq : ((2 ^ 32 : Nat) : Int) - (v : Int) = -(v : Int) + 1 * ((2 ^ 32 : Nat) : Int) := by ring
    rw [heq]
    exact hmod.trans (int32_of_range (by omega) (by omega))

theorem strtol_eq (h1 : base ≠ 1) (h36 : base ≤ 36) (g : r.Greedy base) : strtol r.text base =
    (if r.sign = [45] then max (-2 ^ 31) (-(r.value base) : Int) else min (2 ^ 31 - 1) (r.value base : Int),
    some r.stop) := by
  have hmax : longMax = 2147483647 := rfl
  have hl : ∀ neg : Bool, (if neg then longMax + 1 else longMax) < 2 ^ 32 := by
    intro neg
    split_ifs <;> omega
  have hbase : ¬ ((base : Int) < 0 ∨ (base : Int) = 1 ∨ (base : Int) > 36) := by omega
  unfold strtol
  rw [if_neg hbase, strto_spec hl (by omega) g]
  simp only [decide_eq_true_eq]
  refine congrArg (·, some r.stop) ?_
  generalize r.value base = v
  by_cases hneg : r.sign = [45]
  · simp only [if_pos hneg]
    by_cases h : v ≤ longMax + 1
    · rw [if_pos h, int32_neg (by omega), max_eq_right (by omega)]
    · rw [if_neg h, max_eq_left (by omega), hmax]
      rfl
  · simp only [if_neg hneg]
    by_cases h : v ≤ longMax
    · rw [if_pos h, min_eq_right (by omega), int32_of_range (by omega) (by omega)]
    · rw [if_neg h, min_eq_left (by omega), hmax]
      rfl

theorem strtoul_eq (hb : base < 2 ^ 31) (g : r.Greedy base) : strtoul r.text base =
    (if ulongMax < r.value base then ulongMax
      else if r.sign = [45] then (2 ^ 32 - r.value base) % 2 ^ 32 else r.value base, some r.stop) := by
  have hmax : ulongMax = 4294967295 := rfl
  unfold strtoul
  rw [strto_spec (fun _ => by omega) hb g]
  refine congrArg (·, some r.stop) ?_
  by_cases h : r.value base ≤ ulongMax
  · rw [if_pos h, if_neg (not_lt.2 h), usub32, Nat.zero_add, Nat.mod_eq_of_lt (by omega : r.value base < 2 ^ 32)]
  · rw [if_neg h, if_pos (not_le.1 h)]

/-- Every string is taken apart in one way, and the two functions return the value of its digits with its sign:
`strtol` cut off at `LONG_MIN` and `LONG_MAX`, `strtoul` modulo 2^32 unless the digits alone are over `ULONG_MAX`.
`*endptr` is behind the digits, or the whole string when there are none. -/
theorem numbers_read (nptr : List UInt8) (hb : base < 2 ^ 31) :
    ∃ r : Parts, (r.text = nptr ∧ r.Greedy base ∧ ∀ r' : Parts, r'.text = nptr → r'.Greedy base → r' = r) ∧
      (base ≠ 1 → base ≤ 36 → strtol nptr base =
        (if r.sign = [45] then max (-2 ^ 31) (-(r.value base) : Int) else min (2 ^ 31 - 1) (r.value base : Int),
        some r.stop)) ∧
      strtoul nptr base =
        (if ulongMax < r.value base then ulongMax
          else if r.sign = [45] then (2 ^ 32 - r.value base) % 2 ^ 32 else r.value base, some r.stop) := by
  obtain ⟨r, rfl, g⟩ := exists_greedy nptr base
  exact ⟨r, ⟨rfl, g, fun r' h g' => g.unique g' h⟩, fun h1 h36 => strtol_eq h1 h36 g, strtoul_eq hb g⟩

/-- `-0x1F!`. -/
theorem numbers_read_hex : strtol [45, 48, 120, 49, 70, 33] 0 = (-31, some [33]) ∧
    strtoul [45, 48, 120, 49, 70, 33] 0 = (4294967265, some [33]) := by
  obtain ⟨r, ⟨-, -, hr⟩, h1, h2⟩ := numbers_read [45, 48, 120, 49, 70, 33] (show 0 < 2 ^ 31 by decide)
  have g : (⟨[], [45], [48, 120], [49, 70], [33]⟩ : Parts).Greedy 0 := by
    refine ⟨by simp, by simp, by simp, by simp, by simp, by simp, ?_, ?_⟩
    · intro c hc
      refine digitIn_iff.1 ?_
      simp only [List.mem_cons, List.not_mem_nil, or_false] at hc
      obtain rfl | rfl := hc
      · rfl
      · rfl
    · intro c hc
      cases hc
      rw [← digitIn_iff]
      exact Bool.false_ne_true
  obtain rfl := hr _ rfl g
  exact ⟨h1 (by decide) (by decide), h2⟩

/-- The bases that `strtol` refuses; `strtoul` refuses none, but in a negative one there are no digits. -/
theorem base_test {b : Int} : (b < 0 ∨ b = 1 ∨ b > 36 → strtol nptr b = (0, none)) ∧
    (b < 0 → strtoul nptr b = (0, some nptr)) := by
  refine ⟨fun h => if_pos h, fun h => ?_⟩
  have hradix : ∀ s, (radix b s).1 = b := fun s => by
    unfold radix
    split
    · rw [if_neg (by omega), if_neg (by omega)]
    · rw [if_neg (by omega)]
    · rw [if_neg (by omega)]
  -- the first digit is not below the base
  have hloop : ∀ (cutoff cutlim : Nat) (s : List UInt8), digitLoop b cutoff cutlim s 0 0 =
      ⟨0, 0, s⟩ := fun cutoff cutlim s => by
    cases s with
    | nil => rfl
    | cons c s =>
      rw [digitLoop]
      cases digitValue c with
      | none => rfl
      | some d => exact if_pos (by omega)
  unfold strtoul strto
  simp only [hradix, hloop]
  simp [usub32]

end TinyOS.Stdio
