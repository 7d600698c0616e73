/-
The program head (user/src/phase6/head.c), with `strchr` and `strlen` of the library: it scans its buffer up to
a NUL, which `read` does not put behind a chunk.
-/
import TinyOS.Lib.Cstr

namespace TinyOS.Head

open TinyOS.Lib

abbrev bufSize : Nat := 4096

/-- `'\n'`. -/
abbrev newline : UInt8 := 10

/-! ## The library

A loop that takes more than `fuel` tests has left the memory there is. -/

def strlen (fuel : Nat) (m : Store) (str : Nat) : Option Nat := (scan m (· ≠ 0) fuel str).map (· - str)

/-- The place of the character, or `some none` for NULL. -/
def strchr (fuel : Nat) (m : Store) (s1 : Nat) (c : UInt8) : Option (Option Nat) :=
  (scan m (fun b => b ≠ 0 ∧ b ≠ c) fuel s1).map fun s => if m s = c then some s else none

/-! ## head.c -/

/-- The inner loop with `k` lines to go: what is written, and how many lines are to go then. `buf` is at address 0. -/
def lines (fuel : Nat) (m : Store) : (k p : Nat) → Option (List UInt8 × Nat)
  | 0, _ => some ([], 0)
  | k + 1, p => do
    match ← strchr fuel m p newline with
    | some e =>
      let (out, k) ← lines fuel m k (e + 1)
      return (m.read p (e - p + 1) ++ out, k)
    | none => return (m.read p (← strlen fuel m p), k + 1)

/-- The outer loop over the chunks that `read` returns, in a memory that begins with `buf`. -/
def head (fuel : Nat) (m : Store) (k : Nat) : (chunks : List (List UInt8)) → Option (List UInt8)
  | [] => some []
  | c :: cs =>
    if k = 0 then some []
    else do
      let (out, k) ← lines fuel (m.write 0 c) k 0
      let rest ← head fuel (m.write 0 c) k cs
      return out ++ rest

/-! ## What it is for -/

/-- The text up to and including its `k`-th newline. -/
def firstLines (k : Nat) : List UInt8 → List UInt8
  | [] => []
  | c :: t => if k = 0 then [] else c :: firstLines (if c = newline then k - 1 else k) t

/-- The byte behind each chunk, as memory was before, is NUL, as long as there are lines to go behind the chunk. -/
def Terminated (m : Store) (k : Nat) : List (List UInt8) → Prop
  | [] => True
  | c :: cs => c.count newline < k → m c.length = 0 ∧ Terminated (m.write 0 c) (k - c.count newline) cs

variable {m : Store} {k p fuel : Nat} {s t c out : List UInt8} {cs : List (List UInt8)}

/-! ## The text -/

@[simp] theorem firstLines_zero (t : List UInt8) : firstLines 0 t = [] := by
  cases t <;> rfl

theorem count_newline (b : UInt8) (t : List UInt8) :
    (b :: t).count newline = t.count newline + if b = newline then 1 else 0 := by
  rw [List.count_cons]
  simp only [beq_iff_eq]

theorem firstLines_append : ∀ (s t : List UInt8) (k : Nat),
    firstLines k (s ++ t) = firstLines k s ++ firstLines (k - s.count newline) t
  | [], t, k => rfl
  | b :: s, t, k => by
    by_cases hk : k = 0
    · rw [hk, Nat.zero_sub, firstLines_zero, firstLines_zero, firstLines_zero]
      rfl
    · rw [List.cons_append, firstLines, firstLines, if_neg hk, if_neg hk, firstLines_append, List.cons_append,
        count_newline]
      congr 3
      split <;> omega

/-- A text with fewer newlines. -/
theorem firstLines_of_lt : ∀ {t : List UInt8} {k : Nat}, t.count newline < k → firstLines k t = t
  | [], _, _ => rfl
  | b :: t, k, h => by
    rw [count_newline] at h
    rw [firstLines, if_neg (by omega), firstLines_of_lt]
    split <;> split at h <;> omega

/-- The lines of a text with enough newlines. -/
theorem firstLines_count : ∀ {t : List UInt8} {k : Nat}, k ≤ t.count newline → (firstLines k t).count newline = k
  | [], k, h => by
    rw [List.count_nil] at h
    rw [Nat.le_zero.1 h]
    rfl
  | b :: t, k, h => by
    by_cases hk : k = 0
    · rw [hk, firstLines_zero]
      rfl
    · rw [count_newline] at h
      by_cases hb : b = newline
      · rw [if_pos hb] at h
        rw [firstLines, if_neg hk, if_pos hb, count_newline, if_pos hb, firstLines_count (by omega)]
        omega
      · rw [if_neg hb] at h
        rw [firstLines, if_neg hk, if_neg hb, count_newline, if_neg hb, firstLines_count (by omega), add_zero]

/-! ## A chunk -/

/-- The bytes from `p` on before `e` are neither NUL nor a newline. -/
def Plain (m : Store) (p e : Nat) : Prop := ∀ i, p ≤ i → i < e → m i ≠ 0 ∧ m i ≠ newline

theorem strchr_iff {r : Option Nat} : strchr fuel m p newline = some r ↔
    ∃ e, p ≤ e ∧ e < p + fuel ∧ Plain m p e ∧ ((m e = newline ∧ r = some e) ∨ (m e = 0 ∧ r = none)) := by
  unfold strchr Plain
  rw [Option.map_eq_some_iff]
  refine exists_congr fun e => ?_
  rw [scan_iff]
  simp only [decide_eq_true_eq, decide_eq_false_iff_not, not_and_or, not_not]
  constructor
  · rintro ⟨⟨h1, h2, h3, h4⟩, rfl⟩
    by_cases he : m e = newline
    · exact ⟨h1, h2, h4, Or.inl ⟨he, if_pos he⟩⟩
    · exact ⟨h1, h2, h4, Or.inr ⟨h3.resolve_right he, if_neg he⟩⟩
  · rintro ⟨h1, h2, h4, ⟨he, rfl⟩ | ⟨he, rfl⟩⟩
    · exact ⟨⟨h1, h2, Or.inr he, h4⟩, if_pos he⟩
    · exact ⟨⟨h1, h2, Or.inl he, h4⟩, if_neg (by rw [he]; decide)⟩

theorem strlen_of_nul {e : Nat} (h1 : p ≤ e) (h2 : e < p + fuel) (h3 : Plain m p e) (h4 : m e = 0) :
    strlen fuel m p = some (e - p) := by
  unfold strlen
  rw [Option.map_eq_some_iff]
  refine ⟨e, scan_iff.2 ⟨h1, h2, by simpa using h4, fun i hi hie => ?_⟩, rfl⟩
  simpa using (h3 i hi hie).1

/-- What a turn of the inner loop writes: a line with its newline, or what there is before a NUL. -/
theorem lines_succ {k' : Nat} : lines fuel m (k + 1) p = some (out, k') ↔ ∃ e, p ≤ e ∧ e < p + fuel ∧ Plain m p e ∧
    ((m e = newline ∧ ∃ out', lines fuel m k (e + 1) = some (out', k') ∧ out = m.read p (e - p + 1) ++ out') ∨
      (m e = 0 ∧ out = m.read p (e - p) ∧ k' = k + 1)) := by
  rw [lines, Option.bind_eq_bind, Option.bind_eq_some_iff]
  constructor
  · rintro ⟨r, hr, h⟩
    obtain ⟨e, h1, h2, h3, ⟨h4, rfl⟩ | ⟨h4, rfl⟩⟩ := strchr_iff.1 hr
    · obtain ⟨⟨out', k₁⟩, hl, he⟩ := Option.bind_eq_some_iff.1 h
      cases he
      exact ⟨e, h1, h2, h3, Or.inl ⟨h4, out', hl, rfl⟩⟩
    · obtain ⟨n, hn, he⟩ := Option.bind_eq_some_iff.1 h
      rw [strlen_of_nul h1 h2 h3 h4] at hn
      cases hn
      cases he
      exact ⟨e, h1, h2, h3, Or.inr ⟨h4, rfl, rfl⟩⟩
  · rintro ⟨e, h1, h2, h3, ⟨h4, out', hl, rfl⟩ | ⟨h4, rfl, rfl⟩⟩
    · refine ⟨some e, strchr_iff.2 ⟨e, h1, h2, h3, Or.inl ⟨h4, rfl⟩⟩, ?_⟩
      exact Option.bind_eq_some_iff.2 ⟨(out', k'), hl, rfl⟩
    · refine ⟨none, strchr_iff.2 ⟨e, h1, h2, h3, Or.inr ⟨h4, rfl⟩⟩, ?_⟩
      exact Option.bind_eq_some_iff.2 ⟨e - p, strlen_of_nul h1 h2 h3 h4, rfl⟩

theorem Plain.count {e : Nat} (h : Plain m p e) : (m.read p (e - p)).count newline = 0 := by
  refine List.count_eq_zero.2 fun hc => ?_
  obtain ⟨i, hi, he⟩ := List.mem_map.1 hc
  exact (h (p + i) (by omega) (by have := List.mem_range.1 hi; omega)).2 he

/-- A line and its newline. -/
theorem read_line {e : Nat} (h1 : p ≤ e) (h : Plain m p e) (he : m e = newline) :
    m.read p (e - p + 1) = m.read p (e - p) ++ [newline] ∧ (m.read p (e - p + 1)).count newline = 1 := by
  have hsplit : m.read p (e - p + 1) = m.read p (e - p) ++ [newline] := by
    rw [Store.read_append, show p + (e - p) = e by omega]
    show _ ++ [m (e + 0)] = _
    rw [Nat.add_zero, he]
  rw [hsplit, List.count_append, h.count]
  exact ⟨rfl, rfl⟩

/-- The lines that are written are those that are no longer to go. -/
theorem lines_count : ∀ {k p : Nat} {out : List UInt8} {k' : Nat}, lines fuel m k p = some (out, k') →
    out.count newline + k' = k
  | 0, p, out, k', h => by
    cases h
    rfl
  | k + 1, p, out, k', h => by
    obtain ⟨e, h1, -, h3, ⟨h4, out', hl, rfl⟩ | ⟨-, rfl, rfl⟩⟩ := lines_succ.1 h
    · have := lines_count hl
      rw [List.count_append, (read_line h1 h3 h4).2]
      omega
    · rw [h3.count]
      omega

/-- A chunk at `p` without a NUL. -/
structure At (m : Store) (p : Nat) (c : List UInt8) : Prop where
  read : m.read p c.length = c
  mem : (0 : UInt8) ∉ c

theorem At.get (h : At m p t) {i : Nat} (hi : i < t.length) : m (p + i) = t[i] := by
  have hi' : i < (m.read p t.length).length := by rw [Store.read_length]; exact hi
  rw [← Store.read_getElem hi']
  exact List.getElem_of_eq h.read hi'

theorem At.ne_zero (h : At m p c) {i : Nat} (h1 : p ≤ i) (h2 : i < p + c.length) : m i ≠ 0 := by
  have hg := h.get (i := i - p) (by omega)
  rw [show p + (i - p) = i by omega] at hg
  rw [hg]
  exact fun hc => h.mem (hc ▸ List.getElem_mem _)

theorem At.take (h : At m p c) {n : Nat} (hn : n ≤ c.length) : m.read p n = c.take n := by
  refine List.ext_getElem (by simp [hn]) fun i h1 h2 => ?_
  rw [Store.read_length] at h1
  rw [Store.read_getElem, h.get (by omega), List.getElem_take]

theorem At.drop (h : At m p c) {n : Nat} (hn : n ≤ c.length) : At m (p + n) (c.drop n) where
  read := by
    refine List.ext_getElem (by simp) fun i h1 h2 => ?_
    rw [List.length_drop] at h2
    rw [Store.read_getElem, List.getElem_drop, Nat.add_assoc, h.get (by omega)]
  mem hc := h.mem (List.mem_of_mem_drop hc)

/-- What is written of a chunk with fewer newlines than lines to go begins with the chunk, and ends there if a NUL
is behind it; of another chunk it is the lines. -/
theorem lines_chunk : ∀ {k p : Nat} {c out : List UInt8} {k' : Nat}, At m p c → lines fuel m k p = some (out, k') →
    (k ≤ c.count newline → out = firstLines k c) ∧
    (c.count newline < k → ∃ x, out = c ++ x ∧ (x = [] ↔ m (p + c.length) = 0))
  | 0, p, c, out, k', _, h => by
    cases h
    exact ⟨fun _ => (firstLines_zero c).symm, fun hc => absurd hc (Nat.not_lt_zero _)⟩
  | k + 1, p, c, out, k', hat, h => by
    obtain ⟨e, h1, h2, h3, hcase⟩ := lines_succ.1 h
    by_cases hin : e < p + c.length
    · -- the line ends in the chunk
      rcases hcase with ⟨h4, out', hl, rfl⟩ | ⟨h4, -, -⟩
      · have hcut : c = (c.take (e - p) ++ [newline]) ++ c.drop (e - p + 1) := by
          rw [← hat.take (by omega), ← (read_line h1 h3 h4).1, hat.take (by omega), List.take_append_drop]
        have hcount : c.count newline = 1 + (c.drop (e - p + 1)).count newline := by
          conv_lhs => rw [hcut]
          rw [List.count_append, ← hat.take (by omega), ← (read_line h1 h3 h4).1, (read_line h1 h3 h4).2]
        have hread : m.read p (e - p + 1) = c.take (e - p) ++ [newline] := by
          rw [(read_line h1 h3 h4).1, hat.take (by omega)]
        have hlt : (c.take (e - p)).count newline = 0 := by rw [← hat.take (by omega), h3.count]
        have hrest : At m (e + 1) (c.drop (e - p + 1)) := by
          have := hat.drop (n := e - p + 1) (by omega)
          rwa [show p + (e - p + 1) = e + 1 by omega] at this
        obtain ⟨k1, k2⟩ := lines_chunk hrest hl
        refine ⟨fun hk => ?_, fun hk => ?_⟩
        · rw [k1 (by omega), hread]
          conv_rhs => rw [hcut]
          rw [firstLines_append, List.count_append, hlt]
          congr 1
          · rw [firstLines_append, hlt, firstLines_of_lt (by omega)]
            rfl
        · obtain ⟨x, rfl, hx⟩ := k2 (by omega)
          refine ⟨x, ?_, ?_⟩
          · rw [hread, ← List.append_assoc, ← hcut]
          · rw [hx, List.length_drop, show e + 1 + (c.length - (e - p + 1)) = p + c.length by omega]
      · exact absurd h4 (hat.ne_zero h1 hin)
    · -- there is no newline in the chunk, and the scan goes on behind it
      have hzero : c.count newline = 0 := by
        refine List.count_eq_zero.2 fun hc => ?_
        obtain ⟨i, hi, he⟩ := List.getElem_of_mem hc
        exact (h3 (p + i) (by omega) (by omega)).2 ((hat.get hi).trans he)
      have hpre : ∀ {n}, c.length ≤ n → m.read p n = c ++ m.read (p + c.length) (n - c.length) := fun {n} hn => by
        obtain ⟨j, rfl⟩ := Nat.exists_eq_add_of_le hn
        rw [Store.read_append, hat.read, Nat.add_sub_cancel_left]
      refine ⟨fun hk => by omega, fun _ => ?_⟩
      rcases hcase with ⟨h4, out', hl, rfl⟩ | ⟨h4, rfl, -⟩
      · refine ⟨m.read (p + c.length) (e - p + 1 - c.length) ++ out', ?_, ?_⟩
        · rw [hpre (by omega), List.append_assoc]
        · refine iff_of_false (fun hc => ?_) fun hc => ?_
          · have hlen := congrArg List.length hc
            rw [List.length_append, Store.read_length, List.length_nil] at hlen
            omega
          · rcases Nat.lt_or_eq_of_le (Nat.le_of_not_lt hin) with hlt | heq
            · exact (h3 _ (by omega) hlt).1 hc
            · rw [heq, h4] at hc
              exact absurd hc (by decide)
      · refine ⟨m.read (p + c.length) (e - p - c.length), hpre (by omega), ?_⟩
        constructor
        · intro hc
          have hlen := congrArg List.length hc
          rw [Store.read_length, List.length_nil] at hlen
          rwa [show p + c.length = e by omega]
        · intro hc
          rcases Nat.lt_or_eq_of_le (Nat.le_of_not_lt hin) with hlt | heq
          · exact absurd hc (h3 _ (by omega) hlt).1
          · rw [← heq, show p + c.length - p - c.length = 0 by omega]
            rfl

/-- The scans stay in the chunk or end at the NUL behind it. -/
theorem lines_some : ∀ {k p : Nat} {c : List UInt8}, At m p c → c.length < fuel → k ≤ c.count newline ∨
    m (p + c.length) = 0 → ∃ out k', lines fuel m k p = some (out, k')
  | 0, p, c, _, _, _ => ⟨[], 0, rfl⟩
  | k + 1, p, c, hat, hf, hend => by
    have hstop : ∃ e, p ≤ e ∧ (m e = 0 ∨ m e = newline) ∧ (e < p + c.length ∨ m e = 0 ∧ e = p + c.length) := by
      by_cases hc : newline ∈ c
      · obtain ⟨i, hi, he⟩ := List.getElem_of_mem hc
        exact ⟨p + i, by omega, Or.inr ((hat.get hi).trans he), Or.inl (by omega)⟩
      · have h0 := hend.resolve_left (by rw [List.count_eq_zero.2 hc]; omega)
        exact ⟨p + c.length, by omega, Or.inl h0, Or.inr ⟨h0, rfl⟩⟩
    -- the first such place
    let P := fun e => p ≤ e ∧ (m e = 0 ∨ m e = newline)
    have hex : ∃ e, P e := hstop.imp fun e h => ⟨h.1, h.2.1⟩
    obtain ⟨h1, h2⟩ := Nat.find_spec hex
    have hplain : Plain m p (Nat.find hex) := fun i hi hlt => not_or.1 fun hc => Nat.find_min hex hlt ⟨hi, hc⟩
    obtain ⟨e, he1, he2, he3⟩ := hstop
    have hle : Nat.find hex ≤ e := Nat.find_min' hex ⟨he1, he2⟩
    generalize Nat.find hex = e₀ at h1 h2 hplain hle
    rcases h2 with h0 | hn
    · exact ⟨_, _, lines_succ.2 ⟨e₀, h1, by omega, hplain, Or.inr ⟨h0, rfl, rfl⟩⟩⟩
    · have hlt : e₀ < p + c.length := by
        rcases he3 with h | ⟨h0, rfl⟩
        · omega
        · refine lt_of_le_of_ne hle fun hc => ?_
          rw [hc, h0] at hn
          exact absurd hn (by decide)
      have hrest : At m (e₀ + 1) (c.drop (e₀ - p + 1)) := by
        have := hat.drop (n := e₀ - p + 1) (by omega)
        rwa [show p + (e₀ - p + 1) = e₀ + 1 by omega] at this
      have hcount : c.count newline = 1 + (c.drop (e₀ - p + 1)).count newline := by
        conv_lhs => rw [← List.take_append_drop (e₀ - p + 1) c]
        rw [List.count_append, ← hat.take (by omega), (read_line h1 hplain hn).2]
      obtain ⟨out, k', hl⟩ := lines_some (k := k) hrest (by rw [List.length_drop]; omega) (by
        rw [List.length_drop, show e₀ + 1 + (c.length - (e₀ - p + 1)) = p + c.length by omega]
        exact hend.imp_left fun h => by omega)
      exact ⟨_, _, lines_succ.2 ⟨e₀, h1, by omega, hplain, Or.inl ⟨hn, out, hl, rfl⟩⟩⟩

/-! ## A file -/

theorem at_buf (h : (0 : UInt8) ∉ c) : At (m.write 0 c) 0 c := ⟨Store.read_write_self, h⟩

theorem behind : m.write 0 c (0 + c.length) = m c.length := by
  rw [Nat.zero_add]
  exact Store.write_out (Or.inr (by omega))

theorem head_cons (hk : k ≠ 0) : head fuel m k (c :: cs) = some out ↔ ∃ o k' rest,
    lines fuel (m.write 0 c) k 0 = some (o, k') ∧ head fuel (m.write 0 c) k' cs = some rest ∧ out = o ++ rest := by
  rw [head, if_neg hk, Option.bind_eq_bind, Option.bind_eq_some_iff]
  constructor
  · rintro ⟨⟨o, k'⟩, hl, h⟩
    obtain ⟨rest, hr, he⟩ := Option.bind_eq_some_iff.1 h
    exact ⟨o, k', rest, hl, hr, (Option.some.inj he).symm⟩
  · rintro ⟨o, k', rest, hl, hr, rfl⟩
    exact ⟨(o, k'), hl, Option.bind_eq_some_iff.2 ⟨rest, hr, rfl⟩⟩

theorem head_done : head fuel m 0 cs = some [] := by
  cases cs <;> rfl

/-- With a NUL behind each chunk the lines are written. -/
theorem Terminated.head : ∀ {cs : List (List UInt8)} {m : Store} {k : Nat}, Terminated m k cs →
    (∀ c ∈ cs, (0 : UInt8) ∉ c ∧ c.length < fuel) → head fuel m k cs = some (firstLines k cs.flatten)
  | [], m, k, _, _ => rfl
  | c :: cs, m, k, ht, hcs => by
    obtain ⟨hc0, hcf⟩ := hcs c List.mem_cons_self
    by_cases hk : k = 0
    · rw [hk, firstLines_zero]
      exact head_done
    · have hend : k ≤ c.count newline ∨ m.write 0 c (0 + c.length) = 0 := by
        rw [behind]
        exact (Nat.lt_or_ge (c.count newline) k).symm.imp_right fun h => (ht h).1
      obtain ⟨o, k', hl⟩ := lines_some (at_buf (m := m) hc0) hcf hend
      obtain ⟨h1, h2⟩ := lines_chunk (at_buf hc0) hl
      have hcount := lines_count hl
      rw [List.flatten_cons, firstLines_append]
      by_cases hlt : c.count newline < k
      · obtain ⟨x, rfl, hx⟩ := h2 hlt
        obtain rfl := hx.2 (behind.trans (ht hlt).1)
        have hrest := Terminated.head (ht hlt).2 fun c' hc' => hcs c' (List.mem_cons_of_mem _ hc')
        rw [List.append_nil] at hl hcount
        rw [firstLines_of_lt hlt]
        exact (head_cons hk).2 ⟨c, k', _, hl, by rw [show k' = k - c.count newline by omega]; exact hrest, rfl⟩
      · have hle := Nat.le_of_not_lt hlt
        have ho := h1 hle
        rw [ho, firstLines_count hle] at hcount
        rw [show k - c.count newline = 0 by omega, firstLines_zero]
        exact (head_cons hk).2 ⟨o, k', [], hl, by rw [show k' = 0 by omega]; exact head_done, by rw [ho]⟩

/-- Of a file with enough newlines as many lines are written, whatever they are. -/
theorem head_enough : ∀ {cs : List (List UInt8)} {m : Store} {k : Nat} {out : List UInt8}, head fuel m k cs = some out →
    (∀ c ∈ cs, (0 : UInt8) ∉ c) → k ≤ cs.flatten.count newline → out.count newline = k
  | [], m, k, out, h, _, hk => by
    cases h
    rw [List.flatten_nil, List.count_nil] at hk
    rw [Nat.le_zero.1 hk]
    rfl
  | c :: cs, m, k, out, h, hcs, hk => by
    by_cases hk0 : k = 0
    · rw [hk0, head_done] at h
      cases h
      exact hk0.symm
    · obtain ⟨o, k', rest, hl, hr, rfl⟩ := (head_cons hk0).1 h
      obtain ⟨h1, h2⟩ := lines_chunk (at_buf (hcs c List.mem_cons_self)) hl
      have hcount := lines_count hl
      rw [List.flatten_cons, List.count_append] at hk
      have hle : k' ≤ cs.flatten.count newline := by
        by_cases hlt : c.count newline < k
        · obtain ⟨x, rfl, -⟩ := h2 hlt
          rw [List.count_append] at hcount
          omega
        · rw [h1 (by omega), firstLines_count (by omega)] at hcount
          omega
      rw [List.count_append, head_enough hr (fun c' hc' => hcs c' (List.mem_cons_of_mem _ hc')) hle]
      exact hcount

/-- Of a file with fewer newlines too many are written, or too much, unless a NUL is behind each chunk. -/
theorem head_exact : ∀ {cs : List (List UInt8)} {m : Store} {k : Nat} {out : List UInt8}, head fuel m k cs = some out →
    (∀ c ∈ cs, (0 : UInt8) ∉ c) → cs.flatten.count newline < k → out.count newline = k ∨
      cs.flatten.length ≤ out.length ∧ (out.length = cs.flatten.length → Terminated m k cs)
  | [], m, k, out, h, _, _ => Or.inr ⟨Nat.zero_le _, fun _ => trivial⟩
  | c :: cs, m, k, out, h, hcs, hk => by
    rw [List.flatten_cons, List.count_append] at hk
    have hk0 : k ≠ 0 := by omega
    have hlt : c.count newline < k := by omega
    have hcs' : ∀ c' ∈ cs, (0 : UInt8) ∉ c' := fun c' hc' => hcs c' (List.mem_cons_of_mem _ hc')
    obtain ⟨o, k', rest, hl, hr, rfl⟩ := (head_cons hk0).1 h
    obtain ⟨x, rfl, hx⟩ := (lines_chunk (at_buf (hcs c List.mem_cons_self)) hl).2 hlt
    have hcount := lines_count hl
    by_cases hk' : k' ≤ cs.flatten.count newline
    · refine Or.inl ?_
      rw [List.count_append, head_enough hr hcs' hk']
      exact hcount
    · rcases head_exact hr hcs' (by omega) with hall | ⟨h1, h2⟩
      · refine Or.inl ?_
        rw [List.count_append, hall]
        exact hcount
      · refine Or.inr ⟨?_, fun he => ?_⟩
        · simp only [List.length_append, List.flatten_cons]
          omega
        · simp only [List.length_append, List.flatten_cons] at he
          obtain rfl : x = [] := List.length_eq_zero_iff.1 (by omega)
          rw [List.append_nil] at hcount
          refine fun _ => ⟨behind.symm.trans (hx.1 rfl), ?_⟩
          rw [show k - c.count newline = k' by omega]
          exact h2 (by omega)

/-- A file of the same chunk sizes without newlines has a NUL behind fewer chunks. -/
theorem Terminated.of_sizes : ∀ {cs cs' : List (List UInt8)} {m m' : Store} {k k' : Nat},
    Terminated m' k' cs' → 0 < k' →
    cs'.map List.length = cs.map List.length → (∀ c ∈ cs', (0 : UInt8) ∉ c ∧ newline ∉ c) → (∀ i, m' i = 0 → m i = 0) →
    Terminated m k cs
  | [], _, m, m', k, k', _, _, _, _, _ => trivial
  | c :: cs, [], m, m', k, k', _, _, hl, _, _ => by cases hl
  | c :: cs, c' :: cs', m, m', k, k', h, hk, hl, hcs, hm => by
    obtain ⟨hlen, hl⟩ := List.cons.inj hl
    replace hlen : c'.length = c.length := hlen
    obtain ⟨h0, hn⟩ := hcs c' List.mem_cons_self
    have hcount := List.count_eq_zero.2 hn
    obtain ⟨h1, h2⟩ := h (by omega)
    refine fun _ => ⟨hm _ (hlen ▸ h1), Terminated.of_sizes h2 (by omega) hl (fun c hc =>
      hcs c (List.mem_cons_of_mem _ hc)) fun i hi => ?_⟩
    by_cases hin : i < c.length
    · exact absurd hi ((at_buf h0).ne_zero (Nat.zero_le i) (by omega))
    · rw [Store.write_out (Or.inr (by omega))] at hi ⊢
      exact hm i hi

/-- A file without NULs is printed to its tenth newline when each chunk that is read before that has a NUL behind
it in memory; a file with fewer newlines only then; and all files of the same chunk sizes only then. -/
theorem head_prints (hcs : ∀ c ∈ cs, (0 : UInt8) ∉ c ∧ c ≠ [] ∧ c.length ≤ bufSize) (hf : bufSize < fuel) :
    (Terminated m 10 cs → head fuel m 10 cs = some (firstLines 10 cs.flatten)) ∧
    (cs.flatten.count newline < 10 → head fuel m 10 cs = some (firstLines 10 cs.flatten) → Terminated m 10 cs) ∧
    ((∀ cs' : List (List UInt8), cs'.map List.length = cs.map List.length → (∀ c ∈ cs', (0 : UInt8) ∉ c) →
      head fuel m 10 cs' = some (firstLines 10 cs'.flatten)) → Terminated m 10 cs) := by
  have hexact : ∀ cs : List (List UInt8), (∀ c ∈ cs, (0 : UInt8) ∉ c) → cs.flatten.count newline < 10 →
      head fuel m 10 cs = some (firstLines 10 cs.flatten) → Terminated m 10 cs := fun cs hcs hlt h => by
    rw [firstLines_of_lt hlt] at h
    rcases head_exact h hcs hlt with hc | ⟨-, hc⟩
    · omega
    · exact hc rfl
  refine ⟨fun h => h.head fun c hc => ⟨(hcs c hc).1, lt_of_le_of_lt (hcs c hc).2.2 hf⟩,
    hexact cs fun c hc => (hcs c hc).1, fun h => ?_⟩
  -- the file of these sizes that has no newline
  let cs' := cs.map fun c => List.replicate c.length (97 : UInt8)
  have hbyte : ∀ c ∈ cs', (0 : UInt8) ∉ c ∧ newline ∉ c := fun c hc => by
    obtain ⟨d, -, rfl⟩ := List.mem_map.1 hc
    exact ⟨fun hz => absurd (List.eq_of_mem_replicate hz) (by decide), fun hz =>
      absurd (List.eq_of_mem_replicate hz) (by decide)⟩
  have hlen : cs'.map List.length = cs.map List.length := by
    rw [List.map_map]
    exact List.map_congr_left fun c _ => List.length_replicate
  have hcount : cs'.flatten.count newline = 0 := List.count_eq_zero.2 fun hc => by
    obtain ⟨c, hc, hn⟩ := List.mem_flatten.1 hc
    exact (hbyte c hc).2 hn
  have hzero : ∀ c ∈ cs', (0 : UInt8) ∉ c := fun c hc => (hbyte c hc).1
  have ht := hexact cs' hzero (by omega) (h cs' hlen hzero)
  exact ht.of_sizes (by decide) hlen hbyte fun _ h0 => h0

/-- A file of two chunks, the second one longer. -/
theorem head_prints_demo : head 4097 (fun _ => 0) 10 [[97, 10], [98, 10, 99]] = some [97, 10, 98, 10, 99] :=
  (head_prints (by decide) (by decide)).1 fun _ => ⟨rfl, fun _ => ⟨rfl, trivial⟩⟩

/-- The file `abc`, read as `ab` and `c`: the `b` is printed again. -/
theorem head_leftover : head 4097 (fun _ => 0) 10 [[97, 98], [99]] = some [97, 98, 99, 98] ∧
    head 4097 (fun _ => 0) 10 [[97, 98], [99]] ≠ some (firstLines 10 [[97, 98], [99]].flatten) := by
  have h : head 4097 (fun _ => 0) 10 [[97, 98], [99]] = some [97, 98, 99, 98] := rfl
  refine ⟨h, ?_⟩
  rw [h]
  decide

end TinyOS.Head
