/-
Formatted input (`scanf` of user/ulib/scanf.c) on top of the buffered reads: white space, words and numbers as they
come out of a stream, and that it reads back the numbers that `printf` writes.
-/
import TinyOS.User.Scanf
import TinyOS.Stdio.Format
import Mathlib.Data.List.TakeWhile
import Mathlib.Data.List.DropRight

namespace TinyOS.Scanf

open TinyOS.Lib TinyOS.Stdio

/-- What is stored through an argument of `scanf`. -/
inductive Value where
  | char (c : UInt8)
  | string (s : List UInt8)
  | long (v : Int)
deriving DecidableEq

/-- `" \t\n"`. -/
def blanks : List UInt8 := [32, 9, 10]

/-- The loop of `remove_space`; `none` when it takes more than `fuel` turns. -/
def removeSpace (r : Results) : (fuel : Nat) → (s : Input) → Option Input
  | 0, _ => none
  | fuel + 1, s =>
    let ch := (peekchar r s).1.getD 0
    let s := (peekchar r s).2
    if ch ≠ 0 ∧ isspace ch then removeSpace r fuel (getchar r s).2 else some s

/-- `sizeof(buf)` of `scanf`. -/
abbrev wordSize : Nat := 32

/-- `%d`, `%u` and `%x`. -/
def scanNumber (r : Results) (fuel : Nat) (sign : Bool) (base : Int) (s : Input) : Option (Value × Input) := do
  let s ← removeSpace r fuel s
  let (str, s) ← gets r fuel wordSize blanks true false s
  return (.long (if sign then (strtol str base).1 else int32 (strtoul str base).1), s)

/-- `%s`, where `size` is `(size_t)-1`. -/
def scanString (r : Results) (fuel : Nat) (s : Input) : Option (Value × Input) := do
  let s ← removeSpace r fuel s
  let (str, s) ← gets r fuel 4294967295 blanks true false s
  return (.string str, s)

/-- A conversion; `none` is none of them. -/
def conversion (r : Results) (fuel : Nat) (c : UInt8) (s : Input) : Option (Option (Value × Input)) :=
  if c = 99 then some (some (.char ((getchar r s).1.getD 0), (getchar r s).2))
  else if c = 115 then some (scanString r fuel s)
  else if c = 100 then some (scanNumber r fuel true 10 s)
  else if c = 117 then some (scanNumber r fuel false 10 s)
  else if c = 120 then some (scanNumber r fuel false 16 s)
  else none

/-- The loop of `scanf` over the format: what is stored, `res`, and the state. A `%` before no conversion is
passed over. -/
def scanf (r : Results) (fuel : Nat) : (format : List UInt8) → (s : Input) → Option (List Value × Nat × Input)
  | [], s => some ([], 0, s)
  | [c], s =>
    if isspace c then (removeSpace r fuel s).map fun s => ([], 0, s)
    else if c = 37 then some ([], 0, s)
    else
      let ch := (peekchar r s).1.getD 0
      let s := (peekchar r s).2
      some ([], 0, if c = ch then (getchar r s).2 else s)
  | c :: d :: format, s =>
    if isspace c then do
      let s ← removeSpace r fuel s
      scanf r fuel (d :: format) s
    else if c = 37 then
      match conversion r fuel d s with
      | some x => do
        let (v, s) ← x
        let (vs, res, s) ← scanf r fuel format s
        return (v :: vs, res + 1, s)
      | none => scanf r fuel (d :: format) s
    else
      let ch := (peekchar r s).1.getD 0
      let s := (peekchar r s).2
      scanf r fuel (d :: format) (if c = ch then (getchar r s).2 else s)

/-! ## The stream -/

/-- From the `k`-th on the reads return these chunks, and then nothing more. -/
def Delivers (r : Results) : (k : Nat) → (cs : List Chunk) → Prop
  | k, [] => ∀ i, k ≤ i → ∃ c, r i = some c ∧ c.bytes = []
  | k, c :: cs => r k = some c ∧ c.bytes ≠ [] ∧ Delivers r (k + 1) cs

/-- The text `t` is still to come. -/
structure Feeds (r : Results) (s : Input) (t : List UInt8) : Prop where
  le : s.head ≤ s.tail
  chunks : ∃ cs, Delivers r s.reads cs ∧ t = unread s ++ cs.flatMap Chunk.bytes

variable {r : Results} {s : Input} {t tok rest ws : List UInt8} {n fuel size : Nat} {delim : List UInt8}

theorem Feeds.start {mem : Int → UInt8} {cs : List Chunk} (h : Delivers r 0 cs) :
    Feeds r (start mem) (cs.flatMap Chunk.bytes) :=
  ⟨le_refl _, cs, h, rfl⟩

/-- The test for an empty buffer, at the end of the text or before. -/
theorem Feeds.exhausted (h : Feeds r s t) : ((Scanf.exhausted r s).1 = true ↔ t = []) ∧
    Feeds r (Scanf.exhausted r s).2 t ∧ (t ≠ [] → (Scanf.exhausted r s).2.head < (Scanf.exhausted r s).2.tail) := by
  obtain ⟨cs, hd, ht⟩ := h.chunks
  unfold Scanf.exhausted
  by_cases he : s.head = s.tail
  · rw [unread_nil he, List.nil_append] at ht
    rw [if_pos he]
    cases cs with
    | nil =>
      obtain ⟨c, hc, hnil⟩ := hd s.reads (le_refl _)
      have hzero : (c.bytes.length : Int) = 0 := by
        rw [hnil]
        rfl
      rw [refill_some hc, if_pos hzero]
      refine ⟨iff_of_true rfl ht, ⟨?_, [], fun i hi => hd i ?_, ?_⟩, fun hne => absurd ht hne⟩
      · show (0 : Int) ≤ c.bytes.length
        omega
      · have hi : s.reads + 1 ≤ i := hi
        omega
      · show t = unread (refilled s c) ++ []
        rw [unread_filled, hnil, ht]
        rfl
    | cons c cs =>
      obtain ⟨hc, hne, hd⟩ := hd
      have hlen := List.length_pos_of_ne_nil hne
      have hpos : ¬ (c.bytes.length : Int) = 0 := by omega
      rw [refill_some hc, if_neg hpos]
      refine ⟨iff_of_false Bool.false_ne_true fun h0 => ?_, ⟨?_, cs, hd, ?_⟩, fun _ => ?_⟩
      · rw [h0] at ht
        exact hne (List.append_eq_nil_iff.1 ht.symm).1
      · show (0 : Int) ≤ c.bytes.length
        omega
      · rw [unread_filled, ht]
        rfl
      · show (0 : Int) < c.bytes.length
        omega
  · have hlt : s.head < s.tail := lt_of_le_of_ne h.le he
    rw [if_neg he]
    refine ⟨iff_of_false Bool.false_ne_true fun h0 => ?_, h, fun _ => hlt⟩
    rw [h0, unread_cons hlt] at ht
    cases ht

theorem Feeds.peekchar (h : Feeds r s t) : (peekchar r s).1 = t.head? ∧ Feeds r (Scanf.peekchar r s).2 t := by
  obtain ⟨h1, h2, h3⟩ := h.exhausted
  by_cases ht : t = []
  · rw [peekchar_none (h1.2 ht)]
    exact ⟨by rw [ht]; rfl, h2⟩
  · have hf : (Scanf.exhausted r s).1 = false := Bool.eq_false_iff.2 fun hc => ht (h1.1 hc)
    obtain ⟨cs, hd, he⟩ := h2.chunks
    rw [peekchar_some hf]
    refine ⟨?_, h2.le, cs, hd, he⟩
    rw [he, unread_cons (h3 ht)]
    rfl

theorem Feeds.getchar (h : Feeds r s t) : (getchar r s).1 = t.head? ∧ Feeds r (Scanf.getchar r s).2 t.tail := by
  obtain ⟨h1, h2, h3⟩ := h.exhausted
  by_cases ht : t = []
  · rw [getchar_none (h1.2 ht)]
    rw [ht] at h2 ⊢
    exact ⟨rfl, h2⟩
  · have hf : (Scanf.exhausted r s).1 = false := Bool.eq_false_iff.2 fun hc => ht (h1.1 hc)
    obtain ⟨cs, hd, he⟩ := h2.chunks
    rw [getchar_some hf]
    rw [unread_cons (h3 ht)] at he
    refine ⟨by rw [he]; rfl, Int.add_one_le_of_lt (h3 ht), cs, hd, ?_⟩
    rw [he]
    rfl

/-- A character that is not NUL is seen, and then taken. -/
theorem Feeds.next {c : UInt8} (h : Feeds r s (c :: t)) : (Scanf.peekchar r s).1 = some c ∧
    (Scanf.getchar r (Scanf.peekchar r s).2).1 = some c ∧ Feeds r (Scanf.getchar r (Scanf.peekchar r s).2).2 t := by
  obtain ⟨h1, h2⟩ := h.peekchar
  obtain ⟨h3, h4⟩ := h2.getchar
  exact ⟨h1, h3, h4⟩

theorem removeSpace_spec (h : Feeds r s (ws ++ t)) (hws : ∀ c ∈ ws, isspace c = true)
    (ht : ∀ c ∈ t.head?, isspace c = false) (hf : ws.length < fuel) :
    ∃ s', removeSpace r fuel s = some s' ∧ Feeds r s' t := by
  induction ws generalizing s fuel with
  | nil =>
    obtain ⟨k, rfl⟩ := Nat.exists_eq_succ_of_ne_zero (by omega : fuel ≠ 0)
    obtain ⟨h1, h2⟩ := h.peekchar
    refine ⟨_, ?_, h2⟩
    rw [removeSpace, if_neg]
    rintro ⟨h0, hs⟩
    rw [h1, List.nil_append] at h0 hs
    cases t with
    | nil => exact h0 rfl
    | cons c t =>
      have hs : isspace c = true := hs
      rw [ht c rfl] at hs
      cases hs
  | cons c ws ih =>
    obtain ⟨k, rfl⟩ := Nat.exists_eq_succ_of_ne_zero (by omega : fuel ≠ 0)
    obtain ⟨h1, -, h2⟩ := h.next
    have hc := hws c (List.mem_cons_self ..)
    have h0 : c ≠ 0 := by
      rintro rfl
      cases hc
    rw [List.length_cons] at hf
    obtain ⟨s', hs', hfeeds⟩ := ih h2 (fun x hx => hws x (List.mem_cons_of_mem _ hx)) (show ws.length < k by omega)
    refine ⟨s', ?_, hfeeds⟩
    rw [removeSpace, if_pos]
    · exact hs'
    · rw [h1]
      exact ⟨h0, hc⟩

/-- A word: no NUL and no delimiter in it, and a delimiter or the end of the text behind it. -/
structure Word (delim tok rest : List UInt8) : Prop where
  inside : ∀ c ∈ tok, c ≠ 0 ∧ c ∉ delim
  behind : ∀ c ∈ rest.head?, c ∈ delim

theorem Word.tail {c : UInt8} (h : Word delim (c :: tok) rest) : Word delim tok rest :=
  ⟨fun x hx => h.inside x (List.mem_cons_of_mem _ hx), h.behind⟩

/-- Behind a word both loops of `gets` stop. -/
theorem Word.stops (hw : Word delim [] rest) (h : Feeds r s rest) :
    (Scanf.peekchar r s).1.getD 0 = 0 ∨ (Scanf.peekchar r s).1.getD 0 ∈ delim := by
  rw [h.peekchar.1]
  cases rest with
  | nil => exact .inl rfl
  | cons c rest => exact .inr (hw.behind c rfl)

theorem discard_spec (h : Feeds r s (tok ++ rest)) (hw : Word delim tok rest) (hf : tok.length < fuel) :
    ∃ s', discard r delim fuel s = some s' ∧ Feeds r s' rest := by
  induction tok generalizing s fuel with
  | nil =>
    obtain ⟨k, rfl⟩ := Nat.exists_eq_succ_of_ne_zero (by omega : fuel ≠ 0)
    refine ⟨_, ?_, h.peekchar.2⟩
    rw [discard, if_pos (hw.stops h)]
  | cons c tok ih =>
    obtain ⟨k, rfl⟩ := Nat.exists_eq_succ_of_ne_zero (by omega : fuel ≠ 0)
    obtain ⟨h1, -, h2⟩ := h.next
    obtain ⟨h0, hc⟩ := hw.inside c (List.mem_cons_self ..)
    rw [List.length_cons] at hf
    obtain ⟨s', hs', hfeeds⟩ := ih h2 hw.tail (show tok.length < k by omega)
    refine ⟨s', ?_, hfeeds⟩
    rw [discard, if_neg]
    · exact hs'
    · rw [h1]
      rintro (hc0 | hc0)
      · exact h0 hc0
      · exact hc hc0

theorem getsLoop_spec (h : Feeds r s (tok ++ rest)) (hw : Word delim tok rest) (hn : tok.length ≤ n) :
    (getsLoop r delim false n s).1 = tok ∧ Feeds r (getsLoop r delim false n s).2.2 rest := by
  induction tok generalizing s n with
  | nil =>
    cases n with
    | zero => exact ⟨rfl, h⟩
    | succ n =>
      have hp : Feeds r (Scanf.peekchar r s).2 rest := h.peekchar.2
      rw [getsLoop]
      obtain h0 | hd := hw.stops h
      · simp only [h0, if_true]
        exact ⟨trivial, hp⟩
      · by_cases h0 : (Scanf.peekchar r s).1.getD 0 = 0
        · simp only [h0, if_true]
          exact ⟨trivial, hp⟩
        · simp only [if_neg h0, if_pos hd, Bool.false_eq_true, if_false]
          exact ⟨trivial, hp⟩
  | cons c tok ih =>
    rw [List.length_cons] at hn
    obtain ⟨n, rfl⟩ := Nat.exists_eq_succ_of_ne_zero (by omega : n ≠ 0)
    obtain ⟨h1, h2, h3⟩ := h.next
    obtain ⟨h0, hc⟩ := hw.inside c (List.mem_cons_self ..)
    obtain ⟨k1, k2⟩ := ih (n := n) h3 hw.tail (by omega)
    rw [getsLoop]
    simp only [h1, Option.getD_some, if_neg h0, if_neg hc, h2]
    exact ⟨congrArg _ k1, k2⟩

/-- A word that fits is read whole. -/
theorem gets_word (h : Feeds r s (tok ++ rest)) (hw : Word delim tok rest) (hn : tok.length ≤ usub32 size 1)
    (hf : 0 < fuel) :
    ∃ s', gets r fuel size delim true false s = some (tok, s') ∧ Feeds r s' rest := by
  obtain ⟨k1, k2⟩ := getsLoop_spec h hw hn
  rw [gets]
  by_cases hfin : (getsLoop r delim false (usub32 size 1) s).2.1 = true ∨ ¬ (true = true)
  · rw [if_pos hfin, k1]
    exact ⟨_, rfl, k2⟩
  · obtain ⟨s', hs', hfeeds⟩ := discard_spec (show Feeds r _ ([] ++ rest) from k2) ⟨fun c hc => (by cases hc),
      hw.behind⟩ hf
    rw [if_neg hfin, hs', k1]
    exact ⟨s', rfl, hfeeds⟩

/-! ## Numbers in a text -/

/-- The conversions of numbers that `printf` and `scanf` share. -/
inductive Conv where
  | d
  | u
  | x
deriving DecidableEq

def Conv.byte : Conv → UInt8
  | .d => 100
  | .u => 117
  | .x => 120

def Conv.base : Conv → Nat
  | .x => 16
  | _ => 10

def Conv.sign : Conv → Bool
  | .d => true
  | _ => false

/-- Widths and precisions that stand in the format. -/
def fixedWidth : Width → Option Int
  | .none => some (-1)
  | .lit n => some n
  | .arg => none

@[inherit_doc fixedWidth] def fixedPrecision : Precision → Option Int
  | .none => some (-1)
  | .point => some 0
  | .lit n => some n
  | .arg => none

/-- A number with the directive that writes it, the white space behind it in the text, and the white space behind its
conversion in the format of `scanf`. -/
structure Item where
  flags : List UInt8
  width : Width
  precision : Precision
  qualifier : Qualifier
  conv : Conv
  value : Int
  sep : List UInt8
  gap : List UInt8

namespace Item

def directive (i : Item) : Directive := ⟨i.flags, i.width, i.precision, i.qualifier, i.conv.byte⟩

def pieces (i : Item) : List Piece := .directive i.directive :: i.sep.map .byte

def scanFormat (i : Item) : List UInt8 := 37 :: i.conv.byte :: i.gap

/-- What is written of the number. -/
def field (i : Item) : Option (List UInt8) := do
  let width ← fixedWidth i.width
  let precision ← fixedPrecision i.precision
  number i.value i.conv.base width precision
    { i.flags.foldl (fun f c => (flagOf f c).getD f) noFlags with sign := i.conv.sign, uppercase := false }

/-- The number is an `int`, something separates it from the next one, and its word, which the flags and the precision
can make long, fits into the 32 bytes of `scanf`. -/
structure Good (i : Item) : Prop where
  proper : i.directive.Proper
  width : i.width ≠ .arg
  precision : i.precision ≠ .arg
  low : -2 ^ 31 ≤ i.value
  high : i.value < 2 ^ 31
  sep_ne : i.sep ≠ []
  sep : ∀ c ∈ i.sep, isspace c = true
  gap : ∀ c ∈ i.gap, isspace c = true
  short : ∀ t ∈ i.field, (t.filter fun c => !isspace c).length < wordSize

end Item

theorem isspace_iff {c : UInt8} : isspace c = true ↔ c ∈ blanks := by
  simp only [isspace, blanks, Bool.or_eq_true, beq_iff_eq, List.mem_cons, List.not_mem_nil, or_false]
  constructor
  · rintro ((h | h) | h)
    · exact .inl h
    · exact .inr (.inl h)
    · exact .inr (.inr h)
  · rintro (h | h | h)
    · exact .inl (.inl h)
    · exact .inl (.inr h)
    · exact .inr h

theorem removeSpace_drop (h : Feeds r s t) (hf : t.length < fuel) :
    ∃ s', removeSpace r fuel s = some s' ∧ Feeds r s' (t.dropWhile isspace) := by
  have hle : (t.takeWhile isspace).length ≤ t.length := (List.takeWhile_sublist _).length_le
  refine removeSpace_spec (show Feeds r s (t.takeWhile isspace ++ t.dropWhile isspace) by
    rw [List.takeWhile_append_dropWhile]; exact h)
    (fun c hc => List.mem_takeWhile_imp hc) ?_ (by omega)
  intro c hc
  obtain ⟨u, hu⟩ := List.head?_eq_some_iff.1 hc
  have hne : t.dropWhile isspace ≠ [] := by
    rw [hu]
    exact List.cons_ne_nil _ _
  have h1 := List.head_dropWhile_not isspace hne
  simpa [hu] using h1

/-! ### White space in the format -/

theorem scanf_space {c : UInt8} {fmt : List UInt8} (hc : isspace c = true) :
    scanf r fuel (c :: fmt) s = (removeSpace r fuel s).bind fun s => scanf r fuel fmt s := by
  cases fmt with
  | nil =>
    rw [scanf, if_pos hc]
    cases removeSpace r fuel s <;> rfl
  | cons d fmt =>
    rw [scanf, if_pos hc]
    rfl

theorem dropWhile_dropWhile (t : List UInt8) : (t.dropWhile isspace).dropWhile isspace = t.dropWhile isspace :=
  List.dropWhile_idempotent ..

/-- It takes white space away from the text, or nothing. -/
theorem scanf_gap {gap : List UInt8} (fmt : List UInt8) (h : Feeds r s t) (hg : ∀ c ∈ gap, isspace c = true)
    (hf : t.length < fuel) :
    ∃ s' t', scanf r fuel (gap ++ fmt) s = scanf r fuel fmt s' ∧ Feeds r s' t' ∧
    t'.dropWhile isspace = t.dropWhile isspace ∧
      t'.length ≤ t.length := by
  induction gap generalizing s t with
  | nil => exact ⟨s, t, rfl, h, rfl, le_refl _⟩
  | cons c gap ih =>
    have hle : (t.dropWhile isspace).length ≤ t.length := (List.dropWhile_sublist _).length_le
    obtain ⟨s₁, h1, h2⟩ := removeSpace_drop h hf
    obtain ⟨s', t', h3, h4, h5, h6⟩ := ih h2 (fun x hx => hg x (List.mem_cons_of_mem _ hx)) (by omega)
    refine ⟨s', t', ?_, h4, h5.trans (dropWhile_dropWhile t), by omega⟩
    rw [List.cons_append, scanf_space (hg c (List.mem_cons_self ..)), h1, Option.bind_some, h3]

/-! ### One number -/

/-- What `scanf` makes of a word. -/
def Conv.read (k : Conv) (str : List UInt8) : Int :=
  if k.sign then (strtol str k.base).1 else int32 (strtoul str k.base).1

theorem conversion_conv (k : Conv) : conversion r fuel k.byte s = some (scanNumber r fuel k.sign k.base s) := by
  cases k <;> rfl

theorem scanNumber_word (k : Conv) (h : Feeds r s t) (ht : t.dropWhile isspace = tok ++ rest)
    (hw : Word blanks tok rest) (hlen : tok.length < wordSize) (hf : t.length < fuel) :
    ∃ s', scanNumber r fuel k.sign k.base s = some (.long (k.read tok), s') ∧ Feeds r s' rest := by
  obtain ⟨s₁, h1, h2⟩ := removeSpace_drop h hf
  rw [ht] at h2
  have hsize : usub32 wordSize 1 = 31 := rfl
  have h32 : wordSize = 32 := rfl
  obtain ⟨s', h3, h4⟩ := gets_word h2 hw (show tok.length ≤ usub32 wordSize 1 by omega) (show 0 < fuel by omega)
  refine ⟨s', ?_, h4⟩
  simp only [scanNumber, h1, Option.bind_eq_bind, Option.bind_some, h3]
  rfl

theorem int32_toUnsigned {v : Int} (h1 : -2 ^ 31 ≤ v) (h2 : v < 2 ^ 31) : int32 (toUnsigned v) = v := by
  have hv : (toUnsigned v : Int) = v % 2 ^ 32 := Int.toNat_of_nonneg (Int.emod_nonneg _ (by norm_num))
  rw [hv, int32]
  exact (Int.emod_bmod v (2 ^ 32)).trans (int32_of_range h1 h2)

/-- The text of a number: white space, a word that is read back as the number, and blanks. -/
theorem Item.Good.field_spec {i : Item} (h : i.Good) : ∃ ws tok back, i.field = some (ws ++ (tok ++ back)) ∧
    (∀ c ∈ ws, isspace c = true) ∧
    (∀ c ∈ tok, c ≠ 0 ∧ isspace c = false) ∧ tok ≠ [] ∧ (∀ c ∈ back, isspace c = true) ∧ tok.length < wordSize ∧
    i.conv.read tok = i.value := by
  obtain ⟨width, hwidth⟩ : ∃ w, fixedWidth i.width = some w := by
    have := h.width
    cases hw : i.width <;> simp_all [fixedWidth]
  obtain ⟨precision, hprecision⟩ : ∃ p, fixedPrecision i.precision = some p := by
    have := h.precision
    cases hp : i.precision <;> simp_all [fixedPrecision]
  have h2 : 2 ≤ i.conv.base := by cases i.conv <;> decide
  have h36 : i.conv.base ≤ 36 := by cases i.conv <;> decide
  obtain ⟨ws, sg, pre, ds, back, hnum, hw, hback, hd, hneg⟩ := number_written width precision
    { i.flags.foldl (fun f c => (flagOf f c).getD f) noFlags with sign := i.conv.sign, uppercase := false } h2 h36
      h.low h.high
  have hfield : i.field = some (ws ++ ((sg ++ (pre ++ ds)) ++ back)) := by
    simp only [Item.field, hwidth, hprecision, Option.bind_eq_bind, Option.bind_some, hnum]
    simp
  have hback' : ∀ c ∈ back, isspace c = true := by
    intro c hc
    rw [hback c hc]
    rfl
  have hinside : ∀ c ∈ sg ++ (pre ++ ds), c ≠ 0 ∧ isspace c = false := by
    intro c hc
    have hdigit : ∀ c ∈ ds, c ≠ 0 ∧ isspace c = false := by
      intro c hc
      refine ⟨?_, isDigit_not_space (hw.digits c hc)⟩
      rintro rfl
      exact absurd (isDigit_range (hw.digits 0 hc)) (by decide)
    have hsg : ∀ c ∈ sg, c ≠ 0 ∧ isspace c = false := by
      obtain rfl | rfl | rfl := hw.sign <;> simp [isspace]
    have hpre : ∀ c ∈ pre, c ≠ 0 ∧ isspace c = false := by
      obtain rfl | ⟨rfl, -⟩ := hw.pre <;> simp [isspace]
    obtain hc | hc := List.mem_append.1 hc
    · exact hsg c hc
    · obtain hc | hc := List.mem_append.1 hc
      · exact hpre c hc
      · exact hdigit c hc
  refine ⟨ws, sg ++ (pre ++ ds), back, hfield, hw.space, hinside, ?_, hback', ?_, ?_⟩
  · intro hnil
    exact hw.ne (List.append_eq_nil_iff.1 (List.append_eq_nil_iff.1 hnil).2).2
  · -- the word is what is not white space
    have hshort := h.short _ hfield
    have h1 : ws.filter (fun c => !isspace c) = [] := List.filter_eq_nil_iff.2 fun c hc => by simp [hw.space c hc]
    have h2 : back.filter (fun c => !isspace c) = [] := List.filter_eq_nil_iff.2 fun c hc => by simp [hback' c hc]
    have h3 : (sg ++ (pre ++ ds)).filter (fun c => !isspace c) = sg ++ (pre ++ ds) :=
      List.filter_eq_self.2 fun c hc => by simp [(hinside c hc).2]
    rw [List.filter_append, List.filter_append, h1, h2, h3, List.nil_append, List.append_nil] at hshort
    exact hshort
  · have hw' : Written i.conv.base [] sg pre ds := ⟨fun c hc => (by cases hc), hw.sign, hw.pre, hw.ne, hw.digits⟩
    obtain ⟨k1, k2⟩ := hw'.reads hd h2 h36 h.low h.high (show Ends [] from fun c hc => by cases hc)
    rw [List.nil_append, List.append_nil] at k1 k2
    unfold Conv.read
    by_cases hs : i.conv.sign = true
    · rw [if_pos hs, k2 ?_]
      by_cases h0 : i.value < 0
      · exact .inl (hneg hs h0)
      · exact .inr (not_lt.1 h0)
    · rw [if_neg hs, k1, int32_toUnsigned h.low h.high]

/-! ### Writing the numbers -/

theorem outputs_bytes (m : Store) (bs : List UInt8) (ps : List Piece) (args : List Nat) :
    outputs m (bs.map .byte ++ ps) args = (outputs m ps args).map (bs ++ ·) := by
  induction bs with
  | nil => exact (Option.map_id' ..).symm
  | cons b bs ih =>
    simp only [List.map_cons, List.cons_append, outputs, Piece.output, Option.bind_eq_bind, Option.bind_some, ih]
    cases outputs m ps args with
    | none => rfl
    | some t => rfl

theorem vaInt_toUnsigned {v : Int} (h1 : -2 ^ 31 ≤ v) (h2 : v < 2 ^ 31) (args : List Nat) :
    vaInt (toUnsigned v :: args) = some (v, args) := by
  rw [vaInt, vaArg, Option.map_some, signed, int32_toUnsigned h1 h2]

theorem Item.Good.output {i : Item} (h : i.Good) (m : Store) (args : List Nat) :
    i.directive.output m (toUnsigned i.value :: args) = i.field.map fun t => (t, args) := by
  have hwidth : ∀ f args, i.width.value f args = (fixedWidth i.width).map fun w => (w, f, args) := by
    intro f args
    have := h.width
    cases hw : i.width with
    | arg => exact absurd hw this
    | none => rfl
    | lit n => rfl
  have hprecision : ∀ args, i.precision.value args = (fixedPrecision i.precision).map fun p => (p, args) := by
    intro args
    have := h.precision
    cases hp : i.precision with
    | arg => exact absurd hp this
    | none => rfl
    | point => rfl
    | lit n => rfl
  have hconvert : ∀ d args, convert m d i.conv.byte args = integer i.conv.base i.conv.sign false d args := by
    intro d args
    cases i.conv <;> rfl
  have hint := vaInt_toUnsigned h.low h.high args
  simp only [Item.directive, Directive.output, Item.field, hwidth, hprecision, Option.bind_eq_bind]
  cases fixedWidth i.width with
  | none => rfl
  | some width =>
    cases fixedPrecision i.precision with
    | none => rfl
    | some precision =>
      simp only [Option.map_some, Option.bind_some, hconvert, integer, hint, Option.bind_eq_bind]
      cases number i.value i.conv.base width precision _ <;> rfl

/-- The text that `printf` writes of some numbers. -/
def printed : List Item → Option (List UInt8)
  | [] => some []
  | i :: is => do
    let t ← i.field
    let rest ← printed is
    return t ++ (i.sep ++ rest)

theorem outputs_items {is : List Item} (h : ∀ i ∈ is, i.Good) (m : Store) :
    outputs m (is.flatMap Item.pieces) (is.map fun i => toUnsigned i.value) = printed is := by
  induction is with
  | nil => rfl
  | cons i is ih =>
    have hi := h i (List.mem_cons_self ..)
    simp only [List.flatMap_cons, Item.pieces, List.cons_append, List.map_cons, outputs, Piece.output,
      hi.output, outputs_bytes, printed, Option.bind_eq_bind]
    cases i.field with
    | none => rfl
    | some t =>
      simp only [Option.map_some, Option.bind_some]
      rw [ih fun x hx => h x (List.mem_cons_of_mem _ hx)]
      cases printed is with
      | none => rfl
      | some u => rfl

/-! ### Reading them back -/

theorem printed_some {is : List Item} (h : ∀ i ∈ is, i.Good) : ∃ t, printed is = some t := by
  induction is with
  | nil => exact ⟨[], rfl⟩
  | cons i is ih =>
    obtain ⟨ws, tok, back, hf, -⟩ := (h i (List.mem_cons_self ..)).field_spec
    obtain ⟨u, hu⟩ := ih fun x hx => h x (List.mem_cons_of_mem _ hx)
    refine ⟨(ws ++ (tok ++ back)) ++ (i.sep ++ u), ?_⟩
    rw [printed, hf, hu]
    rfl

theorem printed_ne_zero {is : List Item} (h : ∀ i ∈ is, i.Good) {t : List UInt8} (ht : printed is = some t) :
    ∀ c ∈ t, c ≠ 0 := by
  have hspace : ∀ c, isspace c = true → c ≠ 0 := by
    rintro c hc rfl
    cases hc
  induction is generalizing t with
  | nil =>
    obtain rfl := Option.some.inj ht
    intro c hc
    cases hc
  | cons i is ih =>
    have hi := h i (List.mem_cons_self ..)
    obtain ⟨ws, tok, back, hf, hws, htok, -, hback, -⟩ := hi.field_spec
    obtain ⟨u, hu⟩ := printed_some fun x hx => h x (List.mem_cons_of_mem _ hx)
    rw [printed, hf, hu] at ht
    obtain rfl := Option.some.inj ht
    intro c hc
    simp only [List.mem_append] at hc
    obtain (hc | hc | hc) | hc | hc := hc
    · exact hspace c (hws c hc)
    · exact (htok c hc).1
    · exact hspace c (hback c hc)
    · exact hspace c (hi.sep c hc)
    · exact ih (fun x hx => h x (List.mem_cons_of_mem _ hx)) hu c hc

/-- From a text that is the printed one up to white space in front. -/
theorem scanf_items {is : List Item} (h : ∀ i ∈ is, i.Good) {u : List UInt8} (hp : printed is = some u)
    (hs : Feeds r s t) (ht : t.dropWhile isspace = u.dropWhile isspace) (hf : t.length < fuel) :
    ∃ s', scanf r fuel (is.flatMap Item.scanFormat) s = some (is.map fun i => .long i.value, is.length, s') := by
  induction is generalizing s t u with
  | nil => exact ⟨s, rfl⟩
  | cons i is ih =>
    have hi := h i (List.mem_cons_self ..)
    obtain ⟨ws, tok, back, hfield, hws, htok, hne, hback, hlen, hread⟩ := hi.field_spec
    obtain ⟨v, hv⟩ := printed_some fun x hx => h x (List.mem_cons_of_mem _ hx)
    have hu : u = (ws ++ (tok ++ back)) ++ (i.sep ++ v) := by
      rw [printed, hfield, hv] at hp
      exact (Option.some.inj hp).symm
    -- the word comes first behind the white space
    have hdrop : t.dropWhile isspace = tok ++ (back ++ (i.sep ++ v)) := by
      obtain ⟨c, tok', htok'⟩ := List.exists_cons_of_ne_nil hne
      have hc := (htok c (by rw [htok']; exact List.mem_cons_self ..)).2
      rw [ht, hu, List.append_assoc, List.dropWhile_append_of_pos hws, List.append_assoc, htok']
      exact List.dropWhile_cons_of_neg (by simp [hc])
    have hspace : ∀ c ∈ back ++ i.sep, isspace c = true := by
      intro c hc
      obtain hc | hc := List.mem_append.1 hc
      · exact hback c hc
      · exact hi.sep c hc
    have hword : Word blanks tok (back ++ (i.sep ++ v)) := by
      constructor
      · intro c hc
        obtain ⟨h0, hsp⟩ := htok c hc
        refine ⟨h0, fun hb => ?_⟩
        rw [isspace_iff.2 hb] at hsp
        cases hsp
      · intro c hc
        have hne' : back ++ i.sep ≠ [] := fun hnil => hi.sep_ne (List.append_eq_nil_iff.1 hnil).2
        rw [← List.append_assoc, List.head?_append_of_ne_nil _ hne'] at hc
        exact isspace_iff.1 (hspace c (List.mem_of_mem_head? hc))
    obtain ⟨s₁, h1, h2⟩ := scanNumber_word i.conv hs hdrop hword hlen hf
    have hle : (back ++ (i.sep ++ v)).length ≤ t.length := by
      have h3 := (List.dropWhile_sublist (l := t) isspace).length_le
      rw [hdrop, List.length_append] at h3
      omega
    obtain ⟨s₂, t', h3, h4, h5, h6⟩ := scanf_gap (is.flatMap Item.scanFormat) h2 hi.gap (show _ < fuel by omega)
    have hrest : t'.dropWhile isspace = v.dropWhile isspace := by
      rw [h5, ← List.append_assoc, List.dropWhile_append_of_pos hspace]
    obtain ⟨s', h7⟩ := ih (fun x hx => h x (List.mem_cons_of_mem _ hx)) hv h4 hrest (by omega)
    refine ⟨s', ?_⟩
    have h37 : isspace 37 = false := rfl
    simp only [List.flatMap_cons, Item.scanFormat, List.cons_append, scanf, h37, Bool.false_eq_true, if_false, if_true,
      conversion_conv, h1, Option.bind_eq_bind, Option.bind_some, h3, h7, hread]
    rfl

/-- The numbers that `vsprintf` writes, as words of fewer than 32 characters, `scanf` reads back, however the text comes
in pieces through the reads; and a text that fits into the buffer of `printf` is printed as it is. -/
theorem scanf_printf (m : Store) (is : List Item) (h : ∀ i ∈ is, i.Good) :
    ∃ text, vsprintf m ((is.flatMap Item.pieces).flatMap Piece.text) (is.map fun i => toUnsigned i.value) = some text ∧
      (text.length < 512 →
        vcprintf m ((is.flatMap Item.pieces).flatMap Piece.text) (is.map fun i => toUnsigned i.value) =
          some (text, text.length)) ∧
      ∀ r cs mem fuel, Delivers r 0 cs → cs.flatMap Chunk.bytes = text → text.length < fuel →
        ∃ s, scanf r fuel (is.flatMap Item.scanFormat) (start mem) =
          some (is.map fun i => .long i.value, is.length, s) := by
  obtain ⟨text, htext⟩ := printed_some h
  have hproper : ∀ p ∈ is.flatMap Item.pieces, p.Proper := by
    intro p hp
    obtain ⟨i, hi, hp⟩ := List.mem_flatMap.1 hp
    obtain rfl | hp := List.mem_cons.1 hp
    · exact (h i hi).proper
    · obtain ⟨c, hc, rfl⟩ := List.mem_map.1 hp
      rintro rfl
      exact absurd ((h i hi).sep 37 hc) (by decide)
  have hout := vsprintf_pieces m _ hproper (is.map fun i => toUnsigned i.value)
  rw [outputs_items h, htext] at hout
  refine ⟨text, hout, fun hlen => ?_, fun r cs mem fuel hd hcs hf => ?_⟩
  · have hall : text.takeWhile (· ≠ 0) = text := List.takeWhile_eq_self_iff.2 fun c hc => by
      simpa using printed_ne_zero h htext c hc
    rw [vcprintf, hout, Option.bind_eq_bind, Option.bind_some, if_pos hlen, hall]
  · exact scanf_items h htext (hcs ▸ Feeds.start hd) rfl hf

/-- `printf("%d %#x\n", -5, 255)` and `scanf("%d %x")`, in two reads. -/
theorem scanf_printf_two :
    vcprintf (fun _ => 0) [37, 100, 32, 37, 35, 120, 10] [4294967291, 255] =
      some ([45, 53, 32, 48, 120, 102, 102, 10], 8) ∧
    ∃ s, scanf (fun k => some (if k = 0 then ⟨[45, 53, 32, 48], by decide⟩
      else if k = 1 then ⟨[120, 102, 102, 10], by decide⟩ else ⟨[], by decide⟩))
      20 [37, 100, 32, 37, 120] (start fun _ => 0) = some ([.long (-5), .long 255], 2, s) := by
  have htext : vsprintf (fun _ => 0) [37, 100, 32, 37, 35, 120, 10] [4294967291, 255] =
    some [45, 53, 32, 48, 120, 102, 102, 10] := by decide
  have hone : (⟨[], .none, .none, .none, .d, -5, [32], [32]⟩ : Item).Good :=
    ⟨⟨by simp [Item.directive], fun n h => (by cases h), fun n h => (by cases h), by decide⟩, Width.noConfusion,
      Precision.noConfusion, by decide, by decide, by decide, by simp [isspace], by simp [isspace], by decide⟩
  have htwo : (⟨[35], .none, .none, .none, .x, 255, [10], []⟩ : Item).Good :=
    ⟨⟨by simp [Item.directive, flagBytes], fun n h => (by cases h), fun n h => (by cases h), by decide⟩,
      Width.noConfusion, Precision.noConfusion, by decide, by decide, by decide, by simp [isspace], by simp, by decide⟩
  have hgood := List.forall_mem_cons.2 ⟨hone, List.forall_mem_singleton.2 htwo⟩
  obtain ⟨text, h1, h2, h3⟩ := scanf_printf (fun _ => 0) _ hgood
  obtain rfl := Option.some.inj (htext.symm.trans h1)
  refine ⟨h2 (by decide), h3 _ [⟨[45, 53, 32, 48], by decide⟩, ⟨[120, 102, 102, 10], by decide⟩] _ 20 ?_ rfl
    (by decide)⟩
  refine ⟨rfl, by decide, rfl, by decide, fun i hi => ?_⟩
  have h0 : i ≠ 0 := by omega
  have h1 : i ≠ 1 := by omega
  exact ⟨⟨[], by decide⟩, by simp only [if_neg h0, if_neg h1], rfl⟩

end TinyOS.Scanf
