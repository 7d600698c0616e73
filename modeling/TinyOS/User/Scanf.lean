/-
Buffered input of user programs (user/ulib/scanf.c): `getchar` and `getline` over the successive results of
`read(0, buf, BUF_SIZE)`. They hand out what was read exactly when no result is -1, which the test for an empty
buffer takes for an answer.
-/
import TinyOS.Lib.Word
import Mathlib.Data.List.GetD

namespace TinyOS.Scanf

open TinyOS.Lib

abbrev bufSize : Nat := 256

/-- The bytes that a read has put into `buf`. -/
structure Chunk where
  bytes : List UInt8
  le : bytes.length ≤ bufSize

/-- The results of the successive reads; `none` is -1. -/
abbrev Results := Nat → Option Chunk

/-- What happened: `buf` was indexed, with `head` and `tail` then, the byte found, and the reads so far; or character
0 was returned for the last of the reads. -/
inductive Note where
  | index (i head tail : Int) (byte : UInt8) (reads : Nat)
  | zero (reads : Nat)

/-- The static variables, with all memory from `buf` on, the number of reads so far, and what happened. -/
structure Input where
  head : Int
  tail : Int
  buf : Int → UInt8
  reads : Nat
  notes : List Note

/-! ## scanf.c -/

/-- The returned number, and the state. -/
def refill (r : Results) (s : Input) : Int × Input :=
  match r s.reads with
  | none => (-1, { s with head := 0, tail := -1, reads := s.reads + 1 })
  | some c => (c.bytes.length,
    { s with
      head := 0
      tail := c.bytes.length
      buf := fun i => if 0 ≤ i ∧ i < c.bytes.length then c.bytes.getD i.toNat 0 else s.buf i
      reads := s.reads + 1 })

def note (s : Input) (n : Note) : Input := { s with notes := s.notes ++ [n] }

/-- `buf[head]`, noted. -/
def index (s : Input) : Input := note s (.index s.head s.head s.tail (s.buf s.head) s.reads)

/-- `head == tail && refill() == 0`. -/
def exhausted (r : Results) (s : Input) : Bool × Input :=
  if s.head = s.tail then
    if (refill r s).1 = 0 then (true, note (refill r s).2 (.zero (refill r s).2.reads)) else (false, (refill r s).2)
  else (false, s)

/-- `none` is the character 0 that stands for the end of the input. -/
def getchar (r : Results) (s : Input) : Option UInt8 × Input :=
  let s' := (exhausted r s).2
  if (exhausted r s).1 then (none, s') else (some (s'.buf s'.head), { index s' with head := s'.head + 1 })

@[inherit_doc getchar] def peekchar (r : Results) (s : Input) : Option UInt8 × Input :=
  let s' := (exhausted r s).2
  if (exhausted r s).1 then (none, s') else (some (s'.buf s'.head), index s')

/-- The `for` loop of `gets` with `n` turns left: what is stored, whether it is left for `fin`, and the state. -/
def getsLoop (r : Results) (delim : List UInt8) (contain : Bool) : (n : Nat) → (s : Input) → List UInt8 × Bool × Input
  | 0, s => ([], false, s)
  | n + 1, s =>
    let ch := (peekchar r s).1.getD 0
    let s := (peekchar r s).2
    if ch = 0 then ([], true, s)
    else if ch ∈ delim then
      if contain then ([(getchar r s).1.getD 0], true, (getchar r s).2) else ([], true, s)
    else
      let rest := getsLoop r delim contain n (getchar r s).2
      ((getchar r s).1.getD 0 :: rest.1, rest.2)

/-- The `while (1)` loop of `gets`; `none` when it takes more than `fuel` turns. -/
def discard (r : Results) (delim : List UInt8) : (fuel : Nat) → (s : Input) → Option Input
  | 0, _ => none
  | fuel + 1, s =>
    let ch := (peekchar r s).1.getD 0
    let s := (peekchar r s).2
    if ch = 0 ∨ ch ∈ delim then some s else discard r delim fuel (getchar r s).2

/-- The string that is stored, without its NUL, and the state. -/
def gets (r : Results) (fuel size : Nat) (delim : List UInt8) (throw contain : Bool) (s : Input) :
    Option (List UInt8 × Input) :=
  let x := getsLoop r delim contain (usub32 size 1) s
  if x.2.1 ∨ ¬ throw then some (x.1, x.2.2) else (discard r delim fuel x.2.2).map fun s => (x.1, s)

/-- The line ends behind its newline. -/
def getline (r : Results) (size : Nat) (s : Input) : Option (List UInt8 × Input) := gets r 0 size [10] false true s

/-! ## Calls -/

inductive Call where
  | getchar
  | getline (size : Nat)

/-- The characters that a call delivers. -/
def call (r : Results) (s : Input) : Call → Option (List UInt8 × Input)
  | .getchar => some ((getchar r s).1.toList, (getchar r s).2)
  | .getline size => getline r size s

def run (r : Results) : (calls : List Call) → (s : Input) → Option (List UInt8 × Input)
  | [], s => some ([], s)
  | c :: cs, s => do
    let (bs, s) ← call r s c
    let (bs', s) ← run r cs s
    return (bs ++ bs', s)

/-- The program has not read yet. -/
def start (mem : Int → UInt8) : Input := ⟨0, 0, mem, 0, []⟩

/-- What is in the buffer and not delivered. -/
def unread (s : Input) : List UInt8 := (List.range (s.tail - s.head).toNat).map fun i : Nat => s.buf (s.head + i)

/-- The bytes of the first `k` reads. -/
def taken (r : Results) (k : Nat) : List UInt8 := (List.range k).flatMap fun i => (r i).elim [] Chunk.bytes

/-- What was delivered is what was read, up to the rest in the buffer; `buf` was indexed in `[head, tail)` only, where
the last read had put the byte found; and each read without bytes was answered with character 0. -/
structure Faithful (r : Results) (d : List UInt8) (s : Input) : Prop where
  delivered : d ++ unread s = taken r s.reads
  index : ∀ i head tail byte k, Note.index i head tail byte k ∈ s.notes → head ≤ i ∧ i < tail ∧
    ∃ j c, k = j + 1 ∧ r j = some c ∧ tail = c.bytes.length ∧ 0 ≤ i ∧ c.bytes[i.toNat]? = some byte
  zero : ∀ k < s.reads, (r k).elim [] Chunk.bytes = [] → Note.zero (k + 1) ∈ s.notes

variable {r : Results} {s : Input} {d bs : List UInt8} {c : Chunk} {n fuel size : Nat} {delim : List UInt8}
  {contain : Bool}

/-! ## Without errors -/

/-- The indices are in order, and the last read has filled the buffer up to `tail`. -/
structure Inv (r : Results) (d : List UInt8) (s : Input) : Prop extends Faithful r d s where
  head : 0 ≤ s.head
  le : s.head ≤ s.tail
  filled : s.head < s.tail → ∃ j c, s.reads = j + 1 ∧ r j = some c ∧ s.tail = c.bytes.length ∧
    ∀ i, 0 ≤ i → i < s.tail → c.bytes[i.toNat]? = some (s.buf i)

theorem start_inv (mem : Int → UInt8) : Inv r [] (start mem) :=
  ⟨⟨rfl, fun _ _ _ _ _ h => (by cases h), fun _ h => absurd h (Nat.not_lt_zero _)⟩, le_refl _, le_refl _,
    fun h => absurd h (lt_irrefl _)⟩

theorem unread_nil (h : s.head = s.tail) : unread s = [] := by
  unfold unread
  rw [h, sub_self]
  rfl

/-- The next character is the first of the unread ones. -/
theorem unread_cons (h : s.head < s.tail) : unread s = s.buf s.head :: unread { s with head := s.head + 1 } := by
  unfold unread
  obtain ⟨m, hm⟩ : ∃ m, (s.tail - s.head).toNat = m + 1 := ⟨(s.tail - s.head).toNat - 1, by omega⟩
  rw [show (s.tail - (s.head + 1)).toNat = m by omega, hm, List.range_succ_eq_map, List.map_cons, List.map_map]
  congr 1
  · rw [Nat.cast_zero, add_zero]
  · refine List.map_congr_left fun i _ => ?_
    show s.buf (s.head + (i + 1 : Nat)) = s.buf (s.head + 1 + i)
    congr 1
    omega

theorem taken_succ (r : Results) (k : Nat) : taken r (k + 1) = taken r k ++ (r k).elim [] Chunk.bytes := by
  unfold taken
  rw [List.range_succ, List.flatMap_append, List.flatMap_singleton]

/-- The state after a read that is not an error. -/
def refilled (s : Input) (c : Chunk) : Input := { s with
  head := 0
  tail := c.bytes.length
  buf := fun i => if 0 ≤ i ∧ i < c.bytes.length then c.bytes.getD i.toNat 0 else s.buf i
  reads := s.reads + 1 }

theorem refill_some (h : r s.reads = some c) : refill r s = ((c.bytes.length : Int), refilled s c) := by
  unfold refill
  rw [h]
  rfl

theorem filled_byte {i : Int} (h0 : 0 ≤ i) (h1 : i < c.bytes.length) :
    c.bytes[i.toNat]? = some ((refilled s c).buf i) := by
  have hlt : i.toNat < c.bytes.length := by omega
  show _ = some (if 0 ≤ i ∧ i < c.bytes.length then c.bytes.getD i.toNat 0 else s.buf i)
  rw [if_pos ⟨h0, h1⟩, List.getD_eq_getElem _ _ hlt, List.getElem?_eq_getElem hlt]

theorem unread_filled : unread (refilled s c) = c.bytes := by
  have hlen : ((refilled s c).tail - (refilled s c).head).toNat = c.bytes.length := by
    show ((c.bytes.length : Int) - 0).toNat = c.bytes.length
    omega
  unfold unread
  rw [hlen]
  refine List.ext_getElem (by simp) fun i h1 h2 => ?_
  rw [List.getElem_map, List.getElem_range]
  have hb := filled_byte (s := s) (c := c) (i := (i : Int)) (by omega) (by omega)
  rw [Int.toNat_natCast, List.getElem?_eq_getElem h2] at hb
  rw [show (refilled s c).head + (i : Int) = i from zero_add _]
  exact (Option.some.inj hb).symm

/-- A read into an empty buffer. -/
theorem Inv.refill (h : Inv r d s) (he : s.head = s.tail) (hc : r s.reads = some c) (hpos : c.bytes ≠ []) :
    Inv r d (refilled s c) := by
  have hlen : 0 < c.bytes.length := List.length_pos_of_ne_nil hpos
  refine ⟨⟨?_, h.index, fun k hk hz => ?_⟩, le_refl _, ?_, fun _ => ⟨s.reads, c, rfl, hc, rfl, fun i => filled_byte⟩⟩
  · have hd := h.delivered
    rw [unread_nil he, List.append_nil] at hd
    show d ++ unread (refilled s c) = taken r (s.reads + 1)
    rw [unread_filled, taken_succ, hc, hd]
    rfl
  · replace hk : k < s.reads + 1 := hk
    rcases Nat.lt_succ_iff_lt_or_eq.1 hk with hk | rfl
    · exact h.zero k hk hz
    · rw [hc] at hz
      exact absurd hz hpos
  · show (0 : Int) ≤ c.bytes.length
    omega

/-- A read at the end of the input, answered with character 0. -/
theorem Inv.ended (h : Inv r d s) (he : s.head = s.tail) (hc : r s.reads = some c) (hnil : c.bytes = []) :
    Inv r d (note (refilled s c) (.zero (s.reads + 1))) := by
  have htail : (refilled s c).tail = 0 := by
    show (c.bytes.length : Int) = 0
    rw [hnil]
    rfl
  refine ⟨⟨?_, fun i hd tl b k hm => ?_, fun k hk hz => ?_⟩, le_refl _, htail ▸ le_refl _, fun hlt => ?_⟩
  · have hd := h.delivered
    rw [unread_nil he, List.append_nil] at hd
    show d ++ unread (refilled s c) = taken r (s.reads + 1)
    rw [unread_filled, taken_succ, hc, hd]
    rfl
  · rcases List.mem_append.1 hm with hm | hm
    · exact h.index i hd tl b k hm
    · cases List.mem_singleton.1 hm
  · replace hk : k < s.reads + 1 := hk
    rcases Nat.lt_succ_iff_lt_or_eq.1 hk with hk | rfl
    · exact List.mem_append_left _ (h.zero k hk hz)
    · exact List.mem_append_right _ List.mem_cons_self
  · replace hlt : (0 : Int) < (refilled s c).tail := hlt
    omega

/-- The test for an empty buffer: either the input has ended, or there is a character. -/
theorem Inv.exhausted (h : Inv r d s) (hr : ∀ k, r k ≠ none) : Inv r d (exhausted r s).2 ∧
    ((Scanf.exhausted r s).1 = false → (Scanf.exhausted r s).2.head < (Scanf.exhausted r s).2.tail) := by
  unfold Scanf.exhausted
  by_cases he : s.head = s.tail
  · obtain ⟨c, hc⟩ := Option.ne_none_iff_exists'.1 (hr s.reads)
    rw [if_pos he, refill_some hc]
    -- an empty read is the end of the input and leaves the buffer empty
    by_cases hnil : c.bytes = []
    · have hzero : (c.bytes.length : Int) = 0 := by rw [hnil]; rfl
      rw [if_pos hzero]
      exact ⟨h.ended he hc hnil, fun hf => by cases hf⟩
    · have hlen := List.length_pos_of_ne_nil hnil
      have hne : ¬ (c.bytes.length : Int) = 0 := by omega
      rw [if_neg hne]
      refine ⟨h.refill he hc hnil, fun _ => ?_⟩
      show (0 : Int) < c.bytes.length
      omega
  · rw [if_neg he]
    exact ⟨h, fun _ => lt_of_le_of_ne h.le he⟩

/-- `buf[head]` is allowed. -/
theorem Inv.indexed (h : Inv r d s) (hlt : s.head < s.tail) : Inv r d (index s) := by
  refine ⟨⟨h.delivered, fun i hd tl b k hm => ?_, fun k hk hz => List.mem_append_left _ (h.zero k hk hz)⟩,
    h.head, h.le, h.filled⟩
  rcases List.mem_append.1 hm with hm | hm
  · exact h.toFaithful.index i hd tl b k hm
  · obtain ⟨j, c, h1, h2, h3, h4⟩ := h.filled hlt
    cases List.mem_singleton.1 hm
    exact ⟨le_refl _, hlt, j, c, h1, h2, h3, h.head, h4 _ h.head hlt⟩

theorem exhausted_of_ne (h : s.head ≠ s.tail) : exhausted r s = (false, s) := if_neg h

theorem getchar_none (h : (exhausted r s).1 = true) : getchar r s = (none, (exhausted r s).2) := if_pos h

theorem getchar_some (h : (exhausted r s).1 = false) :
    getchar r s = (some ((exhausted r s).2.buf (exhausted r s).2.head),
    { index (exhausted r s).2 with head := (exhausted r s).2.head + 1 }) := if_neg (by rw [h]; decide)

theorem peekchar_none (h : (exhausted r s).1 = true) : peekchar r s = (none, (exhausted r s).2) := if_pos h

theorem peekchar_some (h : (exhausted r s).1 = false) :
    peekchar r s = (some ((exhausted r s).2.buf (exhausted r s).2.head), index (exhausted r s).2) :=
  if_neg (by rw [h]; decide)

theorem Inv.getchar (h : Inv r d s) (hr : ∀ k, r k ≠ none) :
    Inv r (d ++ (getchar r s).1.toList) (Scanf.getchar r s).2 := by
  obtain ⟨hi, hlt⟩ := h.exhausted hr
  cases he : (Scanf.exhausted r s).1 with
  | true =>
    rw [getchar_none he, Option.toList_none, List.append_nil]
    exact hi
  | false =>
    have hx := hi.indexed (hlt he)
    rw [getchar_some he, Option.toList_some]
    refine ⟨⟨?_, hx.toFaithful.index, hx.zero⟩, Int.le_add_one hx.head, hlt he, fun hl => ?_⟩
    · have hd := hi.delivered
      rw [unread_cons (hlt he)] at hd
      rw [List.append_assoc]
      exact hd
    · exact hi.filled (hlt he)

/-- A character seen by `peekchar` is the one that `getchar` returns next. -/
theorem Inv.peekchar (h : Inv r d s) (hr : ∀ k, r k ≠ none) : Inv r d (peekchar r s).2 ∧
    ((Scanf.peekchar r s).1.getD 0 ≠ 0 → (Scanf.getchar r (Scanf.peekchar r s).2).1 =
    some ((Scanf.peekchar r s).1.getD 0)) := by
  obtain ⟨hi, hlt⟩ := h.exhausted hr
  cases he : (Scanf.exhausted r s).1 with
  | true =>
    rw [peekchar_none he]
    exact ⟨hi, fun hne => absurd rfl hne⟩
  | false =>
    have hne : (index (Scanf.exhausted r s).2).head ≠ (index (Scanf.exhausted r s).2).tail := ne_of_lt (hlt he)
    rw [peekchar_some he]
    refine ⟨hi.indexed (hlt he), fun _ => ?_⟩
    rw [getchar_some (by rw [exhausted_of_ne hne]), exhausted_of_ne hne]
    rfl

theorem Inv.getsLoop (hr : ∀ k, r k ≠ none) : ∀ {n : Nat} {d : List UInt8} {s : Input}, Inv r d s →
    Inv r (d ++ (getsLoop r delim contain n s).1) (getsLoop r delim contain n s).2.2
  | 0, d, s, h => by
    rw [Scanf.getsLoop, List.append_nil]
    exact h
  | n + 1, d, s, h => by
    obtain ⟨hp, hnext⟩ := h.peekchar hr
    have hg := hp.getchar hr
    unfold Scanf.getsLoop
    by_cases hz : (Scanf.peekchar r s).1.getD 0 = 0
    · simp only [hz, if_true, List.append_nil]
      exact hp
    · rw [hnext hz, Option.toList_some] at hg
      simp only [hz, if_false, hnext hz, Option.getD_some]
      -- the delimiter is consumed only when it is to be contained
      by_cases hdelim : (Scanf.peekchar r s).1.getD 0 ∈ delim
      · simp only [hdelim, if_true]
        cases contain with
        | true => exact hg
        | false =>
          simp only [Bool.false_eq_true, if_false, List.append_nil]
          exact hp
      · simp only [hdelim, if_false]
        have := Inv.getsLoop hr (n := n) hg
        rwa [List.append_assoc] at this

theorem Inv.getline (h : Inv r d s) (hr : ∀ k, r k ≠ none) (size : Nat) :
    ∃ bs s', getline r size s = some (bs, s') ∧ Inv r (d ++ bs) s' := by
  unfold Scanf.getline gets
  generalize usub32 size 1 = n
  simp only [Bool.false_eq_true, not_false_eq_true, or_true, if_true]
  exact ⟨_, _, rfl, h.getsLoop hr⟩

theorem Inv.run (hr : ∀ k, r k ≠ none) : ∀ (calls : List Call) {d : List UInt8} {s : Input}, Inv r d s →
    ∃ bs s', run r calls s = some (bs, s') ∧ Inv r (d ++ bs) s'
  | [], d, s, h => ⟨[], s, rfl, by rwa [List.append_nil]⟩
  | c :: cs, d, s, h => by
    have hcall : ∃ bs s', call r s c = some (bs, s') ∧ Inv r (d ++ bs) s' := by
      cases c with
      | getchar => exact ⟨_, _, rfl, h.getchar hr⟩
      | getline size => exact h.getline hr size
    obtain ⟨bs, s₁, h1, hi⟩ := hcall
    obtain ⟨bs', s₂, h2, hi'⟩ := Inv.run hr cs hi
    refine ⟨bs ++ bs', s₂, ?_, by rwa [← List.append_assoc]⟩
    unfold Scanf.run
    rw [h1]
    show (Scanf.run r cs s₁).bind _ = _
    rw [h2]
    rfl

/-! ## An error -/

/-- The state after `n` calls of `getchar`. -/
def getchars (r : Results) (n : Nat) (s : Input) : Input := (fun s => (getchar r s).2)^[n] s

theorem run_getchars : ∀ (n : Nat) (s : Input), ∃ bs, run r (List.replicate n .getchar) s = some (bs, getchars r n s)
  | 0, s => ⟨[], rfl⟩
  | n + 1, s => by
    obtain ⟨bs, h⟩ := run_getchars n (getchar r s).2
    refine ⟨(getchar r s).1.toList ++ bs, ?_⟩
    rw [List.replicate_succ]
    show (run r (List.replicate n .getchar) (getchar r s).2).bind _ = _
    rw [h]
    rfl

theorem getchars_add (m n : Nat) (s : Input) : getchars r (m + n) s = getchars r n (getchars r m s) := by
  unfold getchars
  rw [Nat.add_comm, Function.iterate_add_apply]

/-- A buffer of `m` characters is empty after `m` calls. -/
theorem getchars_drain : ∀ (m : Nat) (s : Input), s.head + m = s.tail →
    (getchars r m s).head = (getchars r m s).tail ∧ (getchars r m s).reads = s.reads
  | 0, s, h => ⟨(add_zero s.head).symm.trans h, rfl⟩
  | m + 1, s, h => by
    have hne : s.head ≠ s.tail := by omega
    have hg : (getchar r s).2 = { index s with head := s.head + 1 } := by
      rw [getchar_some (by rw [exhausted_of_ne hne]), exhausted_of_ne hne]
    have hrec := getchars_drain m { index s with head := s.head + 1 } (by
      show s.head + 1 + m = s.tail
      omega)
    show (getchars r m (getchar r s).2).head = (getchars r m (getchar r s).2).tail ∧
      (getchars r m (getchar r s).2).reads = s.reads
    rw [hg]
    exact hrec

/-- Calls of `getchar` bring the next read about, and use up what it delivers. -/
theorem getchars_read (he : s.head = s.tail) (hc : r s.reads = some c) :
    ∃ n, (getchars r n s).head = (getchars r n s).tail ∧ (getchars r n s).reads = s.reads + 1 := by
  -- the first call reads, and takes the first character if there is one
  have hg : (getchar r s).2 = if c.bytes = [] then note (refilled s c) (.zero (s.reads + 1)) else
      { index (refilled s c) with head := (refilled s c).head + 1 } := by
    by_cases hnil : c.bytes = []
    · have hx : exhausted r s = (true, note (refilled s c) (.zero (s.reads + 1))) := by
        unfold exhausted
        rw [if_pos he, refill_some hc]
        have hzero : (c.bytes.length : Int) = 0 := by rw [hnil]; rfl
        rw [if_pos hzero]
        rfl
      rw [getchar_none (by rw [hx]), hx, if_pos hnil]
    · have hx : exhausted r s = (false, refilled s c) := by
        unfold exhausted
        have hlen := List.length_pos_of_ne_nil hnil
        rw [if_pos he, refill_some hc, if_neg (by omega)]
      rw [getchar_some (by rw [hx]), hx, if_neg hnil]
  by_cases hnil : c.bytes = []
  · rw [if_pos hnil] at hg
    refine ⟨1, ?_⟩
    show (getchar r s).2.head = (getchar r s).2.tail ∧ (getchar r s).2.reads = s.reads + 1
    rw [hg]
    refine ⟨?_, rfl⟩
    show (0 : Int) = c.bytes.length
    rw [hnil]
    rfl
  · rw [if_neg hnil] at hg
    -- the other characters are in the buffer
    have hlen := List.length_pos_of_ne_nil hnil
    refine ⟨1 + (c.bytes.length - 1), ?_⟩
    rw [getchars_add]
    obtain ⟨h1, h2⟩ := getchars_drain (r := r) (c.bytes.length - 1) (getchars r 1 s) (by
      show (getchar r s).2.head + _ = (getchar r s).2.tail
      rw [hg]
      show (0 : Int) + 1 + (c.bytes.length - 1 : Nat) = c.bytes.length
      omega)
    refine ⟨h1, h2.trans ?_⟩
    show (getchar r s).2.reads = s.reads + 1
    rw [hg]
    rfl

/-- Calls of `getchar` that come to read number `k` with an empty buffer. -/
theorem getchars_reach (mem : Int → UInt8) : ∀ k, (∀ j < k, r j ≠ none) → ∃ n,
    (getchars r n (start mem)).head = (getchars r n (start mem)).tail ∧ (getchars r n (start mem)).reads = k
  | 0, _ => ⟨0, rfl, rfl⟩
  | k + 1, hr => by
    obtain ⟨n, h1, h2⟩ := getchars_reach mem k fun j hj => hr j (by omega)
    obtain ⟨c, hc⟩ := Option.ne_none_iff_exists'.1 (hr k (by omega))
    obtain ⟨m, h3, h4⟩ := getchars_read (r := r) h1 (by rw [h2]; exact hc)
    exact ⟨n + m, by rw [getchars_add]; exact h3, by rw [getchars_add, h4, h2]⟩

/-- After an error the first byte is indexed, with `tail` at -1. -/
theorem getchar_error (he : s.head = s.tail) (hc : r s.reads = none) :
    ∃ byte, Note.index 0 0 (-1) byte (s.reads + 1) ∈ (getchar r s).2.notes := by
  have hx : exhausted r s = (false, { s with head := 0, tail := -1, reads := s.reads + 1 }) := by
    have hr : refill r s = (-1, { s with head := 0, tail := -1, reads := s.reads + 1 }) := by
      unfold refill
      rw [hc]
    unfold exhausted
    rw [if_pos he, hr]
    rfl
  rw [getchar_some (by rw [hx]), hx]
  exact ⟨_, List.mem_append_right _ List.mem_cons_self⟩

/-- All sequences of calls are served faithfully exactly when no read fails. -/
theorem input_faithful (r : Results) (mem : Int → UInt8) :
    (∀ calls, ∃ d s, run r calls (start mem) = some (d, s) ∧ Faithful r d s) ↔ ∀ k, r k ≠ none := by
  constructor
  · intro h k
    -- if the reads before `k` succeed, some calls come to read `k`
    induction k using Nat.strong_induction_on with
    | _ k ih =>
      intro hk
      obtain ⟨n, he, hn⟩ := getchars_reach mem k ih
      obtain ⟨byte, hb⟩ := getchar_error (r := r) he (by rw [hn]; exact hk)
      obtain ⟨d, s, hrun, hf⟩ := h (List.replicate (n + 1) .getchar)
      obtain ⟨bs, hrun'⟩ := run_getchars (r := r) (n + 1) (start mem)
      obtain ⟨-, rfl⟩ := Prod.mk.inj (Option.some.inj (hrun.symm.trans hrun'))
      rw [getchars_add] at hf
      obtain ⟨-, hlt, -⟩ := hf.index 0 0 (-1) byte _ hb
      omega
  · intro hr calls
    obtain ⟨d, s, hrun, hi⟩ := Inv.run hr calls (start_inv mem)
    exact ⟨d, s, hrun, hi.toFaithful⟩

/-- One character, and then errors. -/
def charThenError : Results := fun k => if k = 0 then some ⟨[97], by decide⟩ else none

/-- The second `getchar` delivers the character again. -/
theorem error_repeats : ∃ d s, run charThenError [.getchar, .getchar] (start fun _ => 0) = some (d, s) ∧ d = [97, 97] ∧
    ¬ Faithful charThenError d s := by
  refine ⟨[97, 97], getchars charThenError 2 (start fun _ => 0), rfl, rfl, fun hf => ?_⟩
  have hd := congrArg List.length hf.delivered
  rw [List.length_append] at hd
  have ht : (taken charThenError (getchars charThenError 2 (start fun _ => 0)).reads).length = 1 := rfl
  rw [ht, List.length_cons, List.length_cons] at hd
  omega

end TinyOS.Scanf
