/-
Formatted output (`vsprintf` of lib/src/stdio.c): flags, width, precision, qualifier and conversion of every directive,
and that a format put together from directives is taken apart into these directives again.
-/
import TinyOS.Stdio.Number
import TinyOS.Lib.Bytes

namespace TinyOS.Stdio

open TinyOS.Lib

/-- `is_digit`. -/
def isDecimal (c : UInt8) : Bool := 48 ≤ c && c ≤ 57

/-- `strnlen` of lib/src/string/strnlen.c. -/
def strnlen (m : Store) : (n str : Nat) → Nat
  | 0, _ => 0
  | n + 1, str => if m str = 0 then 0 else strnlen m n (str + 1) + 1

/-! ## The parts of a directive

A format is the list of its bytes, the NUL that ends it left out; the arguments are the words that `va_arg` takes, and
`none` is a directive without its argument. -/

/-- `skip_atoi`. -/
def skipAtoi : (i : Int) → (s : List UInt8) → Int × List UInt8
  | i, [] => (i, [])
  | i, c :: s => if isDecimal c then skipAtoi (int32 (i * 10 + c.toNat - 48)) s else (i, c :: s)

def noFlags : Flags := ⟨false, false, false, false, false, false, false⟩

/-- The flag of a character. -/
def flagOf (f : Flags) (c : UInt8) : Option Flags :=
  if c = 45 then some { f with left := true }
  else if c = 43 then some { f with plus := true }
  else if c = 32 then some { f with space := true }
  else if c = 35 then some { f with hexPrep := true }
  else if c = 48 then some { f with zeropad := true }
  else none

/-- From `repeat` on. -/
def flagsPart : (f : Flags) → (fmt : List UInt8) → Flags × List UInt8
  | f, [] => (f, [])
  | f, c :: fmt =>
    match flagOf f c with
    | some f => flagsPart f fmt
    | none => (f, c :: fmt)

/-- A word as an `int`. -/
def signed (w : Nat) : Int := int32 w

/-- `va_arg`. -/
def vaArg : (args : List Nat) → Option (Nat × List Nat)
  | [] => none
  | w :: args => some (w, args)

/-- `va_arg(args, int)`. -/
def vaInt (args : List Nat) : Option (Int × List Nat) := (vaArg args).map fun x => (signed x.1, x.2)

/-- A width that is an argument, and the flags then. -/
def argWidth (f : Flags) (w : Int) : Int × Flags := if w < 0 then (int32 (-w), { f with left := true }) else (w, f)

/-- The field width, the flags then, and the format and the arguments behind it. -/
def widthPart (f : Flags) (fmt : List UInt8) (args : List Nat) : Option (Int × Flags × List UInt8 × List Nat) :=
  match fmt with
  | [] => some (-1, f, [], args)
  | c :: s =>
    if isDecimal c then some ((skipAtoi 0 fmt).1, f, (skipAtoi 0 fmt).2, args)
    else if c = 42 then do
      let (w, args) ← vaInt args
      return ((argWidth f w).1, (argWidth f w).2, s, args)
    else some (-1, f, fmt, args)

/-- What the precision is behind a point. -/
def pointPart (fmt : List UInt8) (args : List Nat) : Option (Int × List UInt8 × List Nat) :=
  match fmt with
  | [] => some (-1, [], args)
  | c :: s =>
    if isDecimal c then some ((skipAtoi 0 fmt).1, (skipAtoi 0 fmt).2, args)
    else if c = 42 then do
      let (w, args) ← vaInt args
      return (w, s, args)
    else some (-1, fmt, args)

def precisionPart (fmt : List UInt8) (args : List Nat) : Option (Int × List UInt8 × List Nat) :=
  match fmt with
  | 46 :: s => do
    let (p, s, args) ← pointPart s args
    return (if p < 0 then 0 else p, s, args)
  | _ => some (-1, fmt, args)

/-- Is there an `l`, and the format behind it, or behind an `L`. -/
def qualifierPart : (fmt : List UInt8) → Bool × List UInt8
  | [] => (false, [])
  | c :: s => if c = 108 then (true, s) else if c = 76 then (false, s) else (false, c :: s)

/-! ## Conversions -/

/-- Blanks up to the width, before the text or behind it. -/
def field (f : Flags) (width : Int) (text : List UInt8) : List UInt8 :=
  let (front, size) := if !f.left then pad (width - text.length) 32 else ([], width - text.length)
  front ++ (text ++ (pad size 32).1)

/-- `"<NULL>"`. -/
def nullText : List UInt8 := [60, 78, 85, 76, 76, 62]

/-- The text of `%s`: up to its NUL, and no more bytes than the precision, which is -1 without one. -/
def stringText (m : Store) (s : Nat) (precision : Int) : List UInt8 :=
  if s = 0 then nullText.take (toUnsigned precision) else m.read s (strnlen m (toUnsigned precision) s)

/-- The text of `eaddr`: six bytes in hexadecimal. -/
def eaddr (upper : Bool) (addr : List UInt8) : List UInt8 :=
  (addr.map fun b => [digitByte upper (b.toNat / 16), digitByte upper (b.toNat % 16)]).intersperse [58] |>.flatten

/-- A byte of an address of `iaddr`. -/
def octet (n : Nat) : List UInt8 :=
  if n = 0 then [digitByte false 0]
  else if n ≥ 100 then [digitByte false (n / 100), digitByte false (n % 100 / 10), digitByte false (n % 100 % 10)]
  else if n ≥ 10 then [digitByte false (n / 10), digitByte false (n % 10)]
  else [digitByte false n]

def iaddr (addr : List UInt8) : List UInt8 := (addr.map fun b => octet b.toNat).intersperse [46] |>.flatten

/-- What a directive has in front of its conversion. -/
structure Spec where
  flags : Flags
  width : Int
  precision : Int
  long : Bool

/-- The text of a directive, and the arguments behind its own. -/
abbrev Output := Option (List UInt8 × List Nat)

/-- The integer conversions, with the flags that they add. -/
def integer (base : Int) (sign upper : Bool) (d : Spec) (args : List Nat) : Output := do
  let (w, args) ← vaInt args
  return (← number w base d.width d.precision { d.flags with sign, uppercase := upper }, args)

def convert (m : Store) (d : Spec) (c : UInt8) (args : List Nat) : Output :=
  if c = 99 then do
    let (w, args) ← vaArg args
    return (field d.flags d.width [UInt8.ofNat w], args)
  else if c = 115 then do
    let (s, args) ← vaArg args
    return (field d.flags d.width (stringText m s d.precision), args)
  else if c = 112 then
    if d.width = -1 then integer 16 false false { d with width := 8, flags := { d.flags with zeropad := true } } args
    else integer 16 false false d args
  else if c = 65 ∨ c = 97 then do
    let (a, args) ← vaArg args
    return (field d.flags d.width (if d.long then eaddr (c = 65) (m.read a 6) else iaddr (m.read a 4)), args)
  else if c = 111 then integer 8 false false d args
  else if c = 88 then integer 16 false true d args
  else if c = 120 then integer 16 false false d args
  else if c = 100 ∨ c = 105 then integer 10 true false d args
  else if c = 117 then integer 10 false false d args
  else some (if c = 37 then [37] else [37, c], args)

/-- Behind `%`: the text of the directive, and the format and the arguments behind it. A format that ends in a directive
gives `%`. -/
def directive (m : Store) (fmt : List UInt8) (args : List Nat) : Option (List UInt8 × List UInt8 × List Nat) := do
  let (f, fmt) := flagsPart noFlags fmt
  let (width, f, fmt, args) ← widthPart f fmt args
  let (precision, fmt, args) ← precisionPart fmt args
  let (long, fmt) := qualifierPart fmt
  match fmt with
  | [] => return ([37], [], args)
  | c :: fmt =>
    let (text, args) ← convert m ⟨f, width, precision, long⟩ c args
    return (text, fmt, args)

/-- The loop of `vsprintf`; `none` for more than `fuel` turns. -/
def formatLoop (m : Store) : (fuel : Nat) → (fmt : List UInt8) → (args : List Nat) → Option (List UInt8)
  | 0, _, _ => none
  | _ + 1, [], _ => some []
  | fuel + 1, c :: fmt, args =>
    if c ≠ 37 then (formatLoop m fuel fmt args).map (c :: ·)
    else do
      let (text, fmt, args) ← directive m fmt args
      let rest ← formatLoop m fuel fmt args
      return text ++ rest

/-- What is put into `buf`, without the NUL; its length is returned. -/
def vsprintf (m : Store) (fmt : List UInt8) (args : List Nat) : Option (List UInt8) :=
  formatLoop m (fmt.length + 1) fmt args

/-- `printf` of both printf.c: what `putstr` writes, up to the first NUL, and what is returned; `none` also when `buf`,
of 512 bytes, has no room for the text and its NUL. -/
def vcprintf (m : Store) (fmt : List UInt8) (args : List Nat) : Option (List UInt8 × Nat) := do
  let buf ← vsprintf m fmt args
  if buf.length < 512 then some (buf.takeWhile (· ≠ 0), buf.length) else none

/-! ## Formats as directives -/

inductive Width where
  | none
  | lit (n : Nat)
  | arg

inductive Precision where
  | none
  | point
  | lit (n : Nat)
  | arg

inductive Qualifier where
  | none
  | l
  | L

structure Directive where
  flags : List UInt8
  width : Width
  precision : Precision
  qualifier : Qualifier
  conversion : UInt8

/-- A byte that stands for itself, or a directive. -/
inductive Piece where
  | byte (c : UInt8)
  | directive (d : Directive)

def Width.text : Width → List UInt8
  | .none => []
  | .lit n => numeral false 10 n
  | .arg => [42]

def Precision.text : Precision → List UInt8
  | .none => []
  | .point => [46]
  | .lit n => 46 :: numeral false 10 n
  | .arg => [46, 42]

def Qualifier.text : Qualifier → List UInt8
  | .none => []
  | .l => [108]
  | .L => [76]

/-- The directive behind its `%`. -/
def Directive.text (d : Directive) : List UInt8 :=
  d.flags ++ (d.width.text ++ (d.precision.text ++ (d.qualifier.text ++ [d.conversion])))

def Piece.text : Piece → List UInt8
  | .byte c => [c]
  | .directive d => 37 :: d.text

/-- The flags, the digits, `*`, `.`, `l` and `L` stand in front of a conversion. -/
def flagBytes : List UInt8 := [45, 43, 32, 35, 48]

def specialBytes : List UInt8 := flagBytes ++ [49, 50, 51, 52, 53, 54, 55, 56, 57, 42, 46, 108, 76]

/-- A width does not begin with the flag `0`, and the numbers are in range of an `int`. -/
structure Directive.Proper (d : Directive) : Prop where
  flags : ∀ c ∈ d.flags, c ∈ flagBytes
  width : ∀ n, d.width = .lit n → 0 < n ∧ n < 2 ^ 31
  precision : ∀ n, d.precision = .lit n → n < 2 ^ 31
  conversion : d.conversion ∉ specialBytes

def Piece.Proper : Piece → Prop
  | .byte c => c ≠ 37
  | .directive d => d.Proper

def Width.value (f : Flags) (args : List Nat) : Width → Option (Int × Flags × List Nat)
  | .none => some (-1, f, args)
  | .lit n => some (n, f, args)
  | .arg => do
    let (w, args) ← vaInt args
    return ((argWidth f w).1, (argWidth f w).2, args)

def Precision.value (args : List Nat) : Precision → Option (Int × List Nat)
  | .none => some (-1, args)
  | .point => some (0, args)
  | .lit n => some (n, args)
  | .arg => do
    let (w, args) ← vaInt args
    return (max 0 w, args)

def Qualifier.long : Qualifier → Bool
  | .l => true
  | _ => false

/-- What a directive writes. -/
def Directive.output (m : Store) (d : Directive) (args : List Nat) : Output := do
  let f := d.flags.foldl (fun f c => (flagOf f c).getD f) noFlags
  let (width, f, args) ← d.width.value f args
  let (precision, args) ← d.precision.value args
  convert m ⟨f, width, precision, d.qualifier.long⟩ d.conversion args

def Piece.output (m : Store) (args : List Nat) : Piece → Output
  | .byte c => some ([c], args)
  | .directive d => d.output m args

def outputs (m : Store) : (ps : List Piece) → (args : List Nat) → Option (List UInt8)
  | [], _ => some []
  | p :: ps, args => do
    let (text, args) ← p.output m args
    let rest ← outputs m ps args
    return text ++ rest

variable {m : Store} {f : Flags} {c : UInt8} {s t rest fmt fs : List UInt8} {args : List Nat}
  {n fuel : Nat} {d : Directive}

/-! ## Taking a directive apart -/

/-- The text goes on with a byte that is none of these. -/
def Next (not : List UInt8) (s : List UInt8) : Prop := ∃ c t, s = c :: t ∧ c ∉ not

theorem Next.mono {a b : List UInt8} (h : Next b s) (hab : a ⊆ b) : Next a s := by
  obtain ⟨c, t, rfl, hc⟩ := h
  exact ⟨c, t, rfl, fun h => hc (hab h)⟩

theorem flagOf_none (h : c ∉ flagBytes) : flagOf f c = none := by
  simp only [flagBytes, List.mem_cons, List.not_mem_nil, or_false, not_or] at h
  obtain ⟨h1, h2, h3, h4, h5⟩ := h
  rw [flagOf, if_neg h1, if_neg h2, if_neg h3, if_neg h4, if_neg h5]

theorem flagOf_some (h : c ∈ flagBytes) : ∃ f', flagOf f c = some f' := by
  simp only [flagBytes, List.mem_cons, List.not_mem_nil, or_false] at h
  obtain rfl | rfl | rfl | rfl | rfl := h <;> exact ⟨_, rfl⟩

theorem flagsPart_append (h : ∀ c ∈ fs, c ∈ flagBytes) (hs : Next flagBytes s) :
    flagsPart f (fs ++ s) = (fs.foldl (fun f c => (flagOf f c).getD f) f, s) := by
  induction fs generalizing f with
  | nil =>
    obtain ⟨c, t, rfl, hc⟩ := hs
    rw [List.nil_append, flagsPart, flagOf_none hc]
    rfl
  | cons c fs ih =>
    obtain ⟨f', hf⟩ := flagOf_some (f := f) (h c (List.mem_cons_self ..))
    rw [List.cons_append, flagsPart, hf, List.foldl_cons, hf]
    exact ih fun x hx => h x (List.mem_cons_of_mem _ hx)

def decimals : List UInt8 := [48, 49, 50, 51, 52, 53, 54, 55, 56, 57]

theorem isDecimal_iff : isDecimal c = true ↔ 48 ≤ c.toNat ∧ c.toNat ≤ 57 := by
  simp only [isDecimal, Bool.and_eq_true, decide_eq_true_eq, UInt8.le_iff_toNat_le]
  rfl

theorem isDecimal_iff_mem : isDecimal c = true ↔ c ∈ decimals := by
  rw [isDecimal_iff]
  constructor
  · rintro ⟨h1, h2⟩
    have hc : c = UInt8.ofNat c.toNat := UInt8.ofNat_toNat.symm
    rw [hc]
    generalize c.toNat = n at h1 h2
    interval_cases n <;> decide
  · intro h
    fin_cases h <;> decide

theorem skipAtoi_append (hd : ∀ c ∈ fs, IsDigit 10 c) (hs : Next decimals s) (hv : valueFrom 10 n fs < 2 ^ 31) :
    skipAtoi n (fs ++ s) = (((valueFrom 10 n fs : Nat) : Int), s) := by
  induction fs generalizing n with
  | nil =>
    obtain ⟨c, t, rfl, hc⟩ := hs
    rw [List.nil_append, skipAtoi, if_neg fun h => hc (isDecimal_iff_mem.1 h)]
    rfl
  | cons c fs ih =>
    obtain ⟨k, hk, hc⟩ := hd c (List.mem_cons_self ..)
    -- a decimal digit is no letter
    have hrange : 48 ≤ c.toNat ∧ c.toNat ≤ 57 ∧ k = c.toNat - 48 := by
      unfold digitValue at hc
      split_ifs at hc with h1 h2 h3
      · exact ⟨h1.1, h1.2, (Option.some.inj hc).symm⟩
      · have := Option.some.inj hc
        omega
      · have := Option.some.inj hc
        omega
    rw [valueFrom_cons, hc, Option.getD_some] at hv ⊢
    have hle : n * 10 + k ≤ valueFrom 10 (n * 10 + k) fs := le_valueFrom (by omega)
    have hi : (n : Int) * 10 + c.toNat - 48 = ((n * 10 + k : Nat) : Int) := by omega
    rw [List.cons_append, skipAtoi, if_pos (isDecimal_iff.2 ⟨hrange.1, hrange.2.1⟩), hi,
      int32_of_range (by omega) (by omega)]
    exact ih (fun x hx => hd x (List.mem_cons_of_mem _ hx)) hv

theorem skipAtoi_numeral (hn : n < 2 ^ 31) (hs : Next decimals s) :
    skipAtoi 0 (numeral false 10 n ++ s) = ((n : Int), s) := by
  have hv : valueFrom 10 0 (numeral false 10 n) = n := value_numeral (by omega) (by omega)
  have h := skipAtoi_append (n := 0) (isDigit_numeral (by omega) (by omega)) hs (by rw [hv]; exact hn)
  rw [hv] at h
  exact h

/-- A numeral begins with a digit, and not with `0` unless it is that. -/
theorem numeral_head (n : Nat) : ∃ c t, numeral false 10 n = c :: t ∧ isDecimal c = true ∧ (0 < n → c ≠ 48) := by
  obtain ⟨c, t, h⟩ := List.exists_cons_of_ne_nil (numeral_ne_nil : numeral false 10 n ≠ [])
  have hc : IsDigit 10 c := isDigit_numeral (by omega) (by omega) c (by rw [h]; exact List.mem_cons_self ..)
  refine ⟨c, t, h, ?_, ?_⟩
  · obtain ⟨k, hk, hv⟩ := hc
    refine isDecimal_iff.2 ?_
    unfold digitValue at hv
    split_ifs at hv with h1 h2 h3
    · exact h1
    · have := Option.some.inj hv
      omega
    · have := Option.some.inj hv
      omega
  · rintro hn rfl
    have hne : n ≠ 0 := by omega
    have hd : Nat.digits 10 n ≠ [] := fun hc => hne (Nat.digits_eq_nil_iff_eq_zero.1 hc)
    have hlast := Nat.getLast_digit_ne_zero 10 hne
    have hlt : (Nat.digits 10 n).getLast hd < 10 := Nat.digits_lt_base (by omega) (List.getLast_mem hd)
    rw [numeral, if_neg hne, ← List.map_reverse, ← List.dropLast_append_getLast hd, List.reverse_append,
      List.reverse_singleton, List.singleton_append, List.map_cons] at h
    have hb := congrArg UInt8.toNat (List.cons_eq_cons.1 h).1
    rw [toNat_digitByte (by omega), if_pos hlt] at hb
    have h48 : (48 : UInt8).toNat = 48 := rfl
    omega

/-! ### The parts -/

theorem next_numeral (n : Nat) (hn : 0 < n) (s : List UInt8) : Next flagBytes (numeral false 10 n ++ s) := by
  obtain ⟨c, t, h, hc, h0⟩ := numeral_head n
  refine ⟨c, t ++ s, by rw [h]; rfl, fun hm => ?_⟩
  have hdec := isDecimal_iff.1 hc
  simp only [flagBytes, List.mem_cons, List.not_mem_nil, or_false] at hm
  obtain rfl | rfl | rfl | rfl | rfl := hm
  · exact absurd hdec (by decide)
  · exact absurd hdec (by decide)
  · exact absurd hdec (by decide)
  · exact absurd hdec (by decide)
  · exact h0 hn rfl

theorem qualifierPart_append {q : Qualifier} (h : Next [108, 76] s) : qualifierPart (q.text ++ s) = (q.long, s) := by
  cases q with
  | none =>
    obtain ⟨c, t, rfl, hc⟩ := h
    simp only [List.mem_cons, List.not_mem_nil, or_false, not_or] at hc
    simp only [Qualifier.text, List.nil_append, qualifierPart, if_neg hc.1, if_neg hc.2]
    rfl
  | l => rfl
  | L => rfl

/-- What may follow a width: not a digit, and not `*`. -/
abbrev numberBytes : List UInt8 := decimals ++ [42]

theorem pointPart_none (h : Next numberBytes s) : pointPart s args = some (-1, s, args) := by
  obtain ⟨c, t, rfl, hc⟩ := h
  rw [List.mem_append, not_or, List.mem_singleton] at hc
  rw [pointPart, if_neg fun h => hc.1 (isDecimal_iff_mem.1 h), if_neg hc.2]

theorem pointPart_numeral (hn : n < 2 ^ 31) (h : Next decimals s) :
    pointPart (numeral false 10 n ++ s) args = some ((n : Int), s, args) := by
  obtain ⟨c, t, hnum, hc, -⟩ := numeral_head n
  have hs := skipAtoi_numeral hn h
  rw [hnum, List.cons_append] at hs ⊢
  rw [pointPart, if_pos hc, hs]

theorem precisionPart_append {p : Precision} (hp : ∀ n, p = .lit n → n < 2 ^ 31) (h : Next (46 :: numberBytes) s) :
    precisionPart (p.text ++ s) args = (p.value args).map fun x => (x.1, s, x.2) := by
  have hnum : Next numberBytes s := h.mono (List.subset_cons_self ..)
  cases p with
  | none =>
    obtain ⟨c, t, rfl, hc⟩ := h
    simp only [Precision.text, List.nil_append, precisionPart]
    split
    · next heq =>
      obtain ⟨rfl, -⟩ := List.cons_eq_cons.1 heq
      exact absurd (List.mem_cons_self ..) hc
    · rfl
  | point =>
    simp only [Precision.text, List.cons_append, List.nil_append, precisionPart, pointPart_none hnum,
      Option.bind_eq_bind, Option.bind_some]
    rfl
  | lit n =>
    simp only [Precision.text, List.cons_append, precisionPart,
      pointPart_numeral (hp n rfl) (hnum.mono (List.subset_append_left ..)), Option.bind_eq_bind, Option.bind_some]
    rw [if_neg (by omega)]
    rfl
  | arg =>
    have h42 : isDecimal 42 = false := rfl
    simp only [Precision.text, List.cons_append, List.nil_append, precisionPart, pointPart, h42, Bool.false_eq_true,
      if_false, if_true]
    rw [Precision.value]
    cases vaInt args with
    | none => rfl
    | some x =>
      obtain ⟨v, args⟩ := x
      simp only [Option.bind_eq_bind, Option.bind_some, Option.pure_def, Option.map_some]
      by_cases h0 : v < 0
      · rw [if_pos h0, max_eq_left (le_of_lt h0)]
      · rw [if_neg h0, max_eq_right (not_lt.1 h0)]

theorem widthPart_append {w : Width} (hw : ∀ n, w = .lit n → 0 < n ∧ n < 2 ^ 31) (h : Next numberBytes s) :
    widthPart f (w.text ++ s) args = (w.value f args).map fun x => (x.1, x.2.1, s, x.2.2) := by
  cases w with
  | none =>
    obtain ⟨c, t, rfl, hc⟩ := h
    rw [List.mem_append, not_or, List.mem_singleton] at hc
    simp only [Width.text, List.nil_append, widthPart]
    rw [if_neg fun h => hc.1 (isDecimal_iff_mem.1 h), if_neg hc.2]
    rfl
  | lit n =>
    obtain ⟨c, t, hnum, hc, -⟩ := numeral_head n
    have hs := skipAtoi_numeral (hw n rfl).2 (h.mono (List.subset_append_left ..))
    simp only [Width.text]
    rw [hnum, List.cons_append] at hs ⊢
    rw [widthPart, if_pos hc, hs]
    rfl
  | arg =>
    have h42 : isDecimal 42 = false := rfl
    simp only [Width.text, List.cons_append, List.nil_append, widthPart, h42, Bool.false_eq_true, if_false, if_true]
    rw [Width.value]
    cases vaInt args with
    | none => rfl
    | some x => simp only [Option.bind_eq_bind, Option.bind_some, Option.pure_def, Option.map_some]

/-! ### Directives and formats -/

theorem next_conversion (d : Directive) (h : d.Proper) (rest : List UInt8) :
    Next specialBytes ([d.conversion] ++ rest) :=
  ⟨d.conversion, rest, rfl, h.conversion⟩

theorem next_qualifier (d : Directive) (h : d.Proper) (rest : List UInt8) :
    Next (flagBytes ++ (46 :: numberBytes)) (d.qualifier.text ++ ([d.conversion] ++ rest)) := by
  cases d.qualifier with
  | none => exact (next_conversion d h rest).mono (by decide)
  | l => exact ⟨108, _, rfl, by decide⟩
  | L => exact ⟨76, _, rfl, by decide⟩

theorem next_precision (d : Directive) (h : d.Proper) (rest : List UInt8) :
    Next (flagBytes ++ numberBytes) (d.precision.text ++ (d.qualifier.text ++ ([d.conversion] ++ rest))) := by
  cases d.precision with
  | none => exact (next_qualifier d h rest).mono (by decide)
  | point => exact ⟨46, _, rfl, by decide⟩
  | lit n => exact ⟨46, _, rfl, by decide⟩
  | arg => exact ⟨46, _, rfl, by decide⟩

theorem next_width (d : Directive) (h : d.Proper) (rest : List UInt8) :
    Next flagBytes (d.width.text ++ (d.precision.text ++ (d.qualifier.text ++ ([d.conversion] ++ rest)))) := by
  cases hw : d.width with
  | none => exact (next_precision d h rest).mono (List.subset_append_left ..)
  | lit n => exact next_numeral n (h.width n hw).1 _
  | arg => exact ⟨42, _, rfl, by decide⟩

theorem directive_append (h : d.Proper) : directive m (d.text ++ rest) args = (d.output m args).map fun x =>
    (x.1, rest, x.2) := by
  have happ : d.text ++ rest = d.flags ++ (d.width.text ++
    (d.precision.text ++ (d.qualifier.text ++ ([d.conversion] ++ rest)))) := by
    simp [Directive.text]
  rw [happ]
  simp only [directive, flagsPart_append h.flags (next_width d h rest),
    widthPart_append h.width ((next_precision d h rest).mono (List.subset_append_right ..)), Directive.output]
  generalize d.flags.foldl (fun f c => (flagOf f c).getD f) noFlags = f
  cases d.width.value f args with
  | none => rfl
  | some x =>
    obtain ⟨width, f, args⟩ := x
    simp only [Option.map_some, Option.bind_eq_bind, Option.bind_some,
      precisionPart_append h.precision ((next_qualifier d h rest).mono (List.subset_append_right ..))]
    cases d.precision.value args with
    | none => rfl
    | some y =>
      obtain ⟨precision, args⟩ := y
      have hq := (next_conversion d h rest).mono (by decide : [108, 76] ⊆ specialBytes)
      simp only [Option.map_some, Option.bind_some, qualifierPart_append hq]
      rw [List.singleton_append]
      simp only
      cases convert m ⟨f, width, precision, d.qualifier.long⟩ d.conversion args with
      | none => rfl
      | some z => rfl

theorem Piece.text_ne_nil (p : Piece) : p.text ≠ [] := by
  cases p <;> exact List.cons_ne_nil _ _

theorem formatLoop_pieces (ps : List Piece) (hps : ∀ p ∈ ps, p.Proper) (args : List Nat)
    (hf : (ps.flatMap Piece.text).length < fuel) :
    formatLoop m fuel (ps.flatMap Piece.text) args = outputs m ps args := by
  induction ps generalizing args fuel with
  | nil =>
    obtain ⟨k, rfl⟩ := Nat.exists_eq_succ_of_ne_zero (by omega : fuel ≠ 0)
    rfl
  | cons p ps ih =>
    obtain ⟨k, rfl⟩ := Nat.exists_eq_succ_of_ne_zero (by omega : fuel ≠ 0)
    rw [List.flatMap_cons, List.length_append] at hf
    have hpos := List.length_pos_iff.2 p.text_ne_nil
    have hrec : ∀ args, formatLoop m k (ps.flatMap Piece.text) args = outputs m ps args := fun args =>
      ih (fun x hx => hps x (List.mem_cons_of_mem _ hx)) args (by omega)
    have hp := hps p (List.mem_cons_self ..)
    cases p with
    | byte c =>
      have hc : c ≠ 37 := hp
      simp only [List.flatMap_cons, Piece.text, List.cons_append, List.nil_append, formatLoop, if_pos hc, hrec,
        outputs, Piece.output, Option.bind_eq_bind, Option.bind_some]
      cases outputs m ps args with
      | none => rfl
      | some t => rfl
    | directive d =>
      simp only [List.flatMap_cons, Piece.text, List.cons_append, formatLoop, ne_eq, not_true_eq_false, if_false,
        directive_append (d := d) hp, outputs, Piece.output, Option.bind_eq_bind]
      cases d.output m args with
      | none => rfl
      | some x => simp only [Option.map_some, Option.bind_some, hrec]

/-- A format put together from bytes and directives writes what these write one after the other, each directive with its
own arguments. -/
theorem vsprintf_pieces (m : Store) (ps : List Piece) (hps : ∀ p ∈ ps, p.Proper) (args : List Nat) :
    vsprintf m (ps.flatMap Piece.text) args = outputs m ps args :=
  formatLoop_pieces ps hps args (Nat.lt_succ_self _)

/-- `%-*.3d|` of -5 in a field of 6. -/
theorem vsprintf_pieces_one : vsprintf (fun _ => 0) [37, 45, 42, 46, 51, 100, 124] [6, 4294967291] =
    some [45, 48, 48, 53, 32, 32, 124] := by
  refine (vsprintf_pieces (fun _ => 0) [.directive ⟨[45], .arg, .lit 3, .none, 100⟩, .byte 124] ?_
    [6, 4294967291]).trans (by decide)
  intro p hp
  obtain rfl | rfl : p = _ ∨ p = _ := by simpa using hp
  · exact ⟨by simp [flagBytes], fun n h => (by cases h), fun n h => (by cases h; decide), by decide⟩
  · exact (by decide : (124 : UInt8) ≠ 37)

end TinyOS.Stdio
