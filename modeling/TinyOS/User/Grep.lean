/-
The program grep (user/src/phase6/grep.c) over the buffer that it fills chunk by chunk: it prints the lines that match,
up to the first line that holds a NUL or that the buffer cannot hold, however `read` cuts the text.
-/
import TinyOS.User.Head
import TinyOS.User.Match
import Mathlib.Data.List.TakeWhile

namespace TinyOS.Grep

open TinyOS.Lib TinyOS.Head

/-- `sizeof(buf)`; `buf` is at address 0. -/
abbrev bufLen : Nat := 1024

/-- How many bytes `read` returns in a turn when `n` are asked for and `rest` are left: some, if there are any. -/
structure Reader where
  count : (turn n rest : Nat) → Nat
  le : ∀ turn n rest, count turn n rest ≤ min n rest
  pos : ∀ turn n rest, 0 < n → 0 < rest → 0 < count turn n rest

/-! ## grep.c -/

/-- The inner loop at `p`: what is written, the memory, and `p` then; `none` when it takes more than `fuel` turns.
The string at `p` ends at `q`, where `strchr` has found no NUL before. -/
def lines (re : List UInt8) : (fuel : Nat) → (m : Store) → (p : Nat) → Option (List UInt8 × Store × Nat)
  | 0, _, _ => none
  | fuel + 1, m, p => do
    match ← strchr bufLen m p newline with
    | none => return ([], m, p)
    | some q =>
      let m := m.write q [0]
      if matches' re (m.read p (q - p)) then
        let m := m.write q [newline]
        let (out, m', p') ← lines re fuel m (q + 1)
        return (m.read p (q + 1 - p) ++ out, m', p')
      else lines re fuel m (q + 1)

/-- The outer loop with `n` bytes in the buffer and `text` still to read: what is written and the memory. -/
def grep (re : List UInt8) (rd : Reader) : (fuel turn : Nat) → (text : List UInt8) → (n : Nat) → (m : Store) →
    Option (List UInt8 × Store)
  | 0, _, _, _, _ => none
  | fuel + 1, turn, text, n, m => do
    let k := rd.count turn (bufLen - n - 1) text.length
    if k = 0 then return ([], m)
    let m := (m.write n (text.take k)).write (n + k) [0]
    let (out, m, p) ← lines re bufLen m 0
    let n := n + k - p
    let (rest, m) ← grep re rd fuel (turn + 1) (text.drop k) n (m.write 0 (m.read p n))
    return (out ++ rest, m)

/-- `"grep: cannot open "`. -/
def cannotOpen (name : List UInt8) : List UInt8 :=
  [103, 114, 101, 112, 58, 32, 99, 97, 110, 110, 111, 116, 32, 111, 112, 101, 110, 32] ++ name ++ [newline]

/-- The loop of `main` over the files with their texts, if they can be opened: what is written, and the status. -/
def files (re : List UInt8) (rd : Reader) : (fs : List (List UInt8 × Option (List UInt8))) → (m : Store) →
    Option (List UInt8 × Nat)
  | [], _ => some ([], 0)
  | (name, none) :: _, _ => some (cannotOpen name, 1)
  | (_, some text) :: fs, m => do
    let (out, m) ← grep re rd (text.length + 1) 0 text 0 m
    let (rest, status) ← files re rd fs m
    return (out ++ rest, status)

/-! ## What it is for -/

/-- The complete lines of a text. -/
def textLines (text : List UInt8) : List (List UInt8) := (text.splitOnP (· == newline)).dropLast

/-- A line that can be in the buffer with its newline and a NUL, and that strings can hold. -/
def Fits (l : List UInt8) : Prop := l.length + 2 ≤ bufLen ∧ (0 : UInt8) ∉ l

instance (l : List UInt8) : Decidable (Fits l) := inferInstanceAs (Decidable (_ ∧ _))

instance (re text : List UInt8) : Decidable ((pattern re).Matches text) := decidable_of_iff _ (matches_pattern re text)

/-- The lines that match, with their newlines. -/
def matching (re : List UInt8) (ls : List (List UInt8)) : List UInt8 :=
  (ls.filter fun l => (pattern re).Matches l).flatMap (· ++ [newline])

/-- The lines that match before the first one that does not fit. -/
def prints (re text : List UInt8) : List UInt8 := matching re ((textLines text).takeWhile fun l => Fits l)

variable {re text b r l t : List UInt8} {ls : List (List UInt8)} {m m' : Store} {p n k fuel : Nat} {rd : Reader}

/-! ## Lines -/

theorem textLines_of_not_mem (h : newline ∉ text) : textLines text = [] := by
  rw [textLines, List.splitOnP_eq_singleton]
  · rfl
  · intro x hx
    rw [beq_eq_false_iff_ne]
    rintro rfl
    exact h hx

theorem textLines_cons (h : newline ∉ l) : textLines (l ++ newline :: text) = l :: textLines text := by
  rw [textLines, List.splitOnP_append_cons_of_forall_mem, List.dropLast_cons_of_ne_nil (List.splitOnP_ne_nil _ _)]
  · rfl
  · intro x hx
    rw [beq_eq_false_iff_ne]
    rintro rfl
    exact h hx
  · exact beq_self_eq_true newline

/-- The text of some lines. -/
abbrev joined (ls : List (List UInt8)) : List UInt8 := ls.flatMap (· ++ [newline])

theorem joined_cons (l : List UInt8) (ls : List (List UInt8)) (t : List UInt8) :
    joined (l :: ls) ++ t = l ++ newline :: (joined ls ++ t) := by
  simp

/-- Lines without NULs and newlines. -/
def Clean (ls : List (List UInt8)) : Prop := ∀ l ∈ ls, newline ∉ l ∧ (0 : UInt8) ∉ l

theorem Clean.tail (h : Clean (l :: ls)) : Clean ls := fun x hx => h x (List.mem_cons_of_mem _ hx)

theorem textLines_joined (h : Clean ls) : textLines (joined ls ++ text) = ls ++ textLines text := by
  induction ls with
  | nil => rfl
  | cons l ls ih =>
    rw [joined_cons, textLines_cons (h l (List.mem_cons_self ..)).1, ih h.tail]
    rfl

/-- `strchr` finds no newline in it. -/
def Stops (b : List UInt8) : Prop := newline ∉ b.takeWhile (· ≠ 0)

/-- What a buffer holds: lines, and something where `strchr` finds no newline. -/
theorem exists_lines (b : List UInt8) : ∃ ls r, b = joined ls ++ r ∧ Clean ls ∧ Stops r := by
  induction hn : b.length using Nat.strong_induction_on generalizing b with
  | _ n ih =>
    by_cases hs : Stops b
    · exact ⟨[], b, rfl, fun l hl => (by cases hl), hs⟩
    · obtain ⟨l, t, ht, hl⟩ := List.eq_append_cons_of_mem (not_not.1 hs)
      have hb : b = l ++ newline :: (t ++ b.dropWhile (· ≠ 0)) := by
        conv_lhs => rw [← List.takeWhile_append_dropWhile (p := (· ≠ 0)) (l := b), ht]
        simp
      have hlen := congrArg List.length hb
      simp only [List.length_append, List.length_cons] at hlen
      obtain ⟨ls, r, hr, hc, hstop⟩ := ih _ (by rw [List.length_append]; omega) (t ++ b.dropWhile (· ≠ 0)) rfl
      refine ⟨l :: ls, r, ?_, ?_, hstop⟩
      · rw [joined_cons, ← hr]
        exact hb
      · intro x hx
        obtain rfl | hx := List.mem_cons.1 hx
        · refine ⟨hl, fun h0 => ?_⟩
          have h0 : (0 : UInt8) ∈ b.takeWhile (· ≠ 0) := ht ▸ List.mem_append_left _ h0
          simpa using List.mem_takeWhile_imp h0
        · exact hc x hx

/-- A line that comes next is not one that the buffer has stopped at, unless it does not fit. -/
theorem Stops.not_fits (h : Stops b) (hb : b ++ t = l ++ newline :: text) (hlen : t = [] ∨ bufLen - 1 ≤ b.length) :
    ¬ Fits l := by
  rintro ⟨hl, h0⟩
  -- the newline is in the buffer
  have hlt : l.length < b.length := by
    obtain rfl | h := hlen
    · rw [← List.append_nil b, hb]
      simp
    · have : bufLen - 1 = 1023 := rfl
      have : bufLen = 1024 := rfl
      omega
  obtain ⟨u, rfl⟩ : ∃ u, b = l ++ newline :: u := by
    have hpre : l ++ [newline] <+: b ++ t := ⟨text, by rw [hb]; simp⟩
    obtain ⟨u, hu⟩ := List.prefix_of_prefix_length_le hpre (List.prefix_append b t) (by simpa using hlt)
    exact ⟨u, by rw [← hu]; simp⟩
  refine h ?_
  rw [List.takeWhile_append_of_pos, List.takeWhile_cons_of_pos (by decide)]
  · simp
  · intro x hx
    simp only [ne_eq, decide_eq_true_eq]
    rintro rfl
    exact h0 hx

/-! ## The buffer -/

/-- `b` stands at `p`, with a NUL behind it. -/
structure Holds (m : Store) (p : Nat) (b : List UInt8) : Prop where
  read : m.read p b.length = b
  nul : m (p + b.length) = 0

theorem Holds.get (h : Holds m p b) {i : Nat} (hi : i < b.length) : m (p + i) = b[i] := by
  have hi' : i < (m.read p b.length).length := by rw [Store.read_length]; exact hi
  rw [← Store.read_getElem hi']
  exact List.getElem_of_eq h.read hi'

theorem Holds.left (h : Holds m p (b ++ r)) : m.read p b.length = b := by
  have hr := h.read
  rw [List.length_append, Store.read_append] at hr
  exact (List.append_inj hr (by simp)).1

theorem Holds.right (h : Holds m p (b ++ r)) : Holds m (p + b.length) r where
  read := by
    have hr := h.read
    rw [List.length_append, Store.read_append] at hr
    exact (List.append_inj hr (by simp)).2
  nul := by
    have h0 := h.nul
    rwa [List.length_append, ← Nat.add_assoc] at h0

theorem Holds.congr (h : Holds m p b) (he : ∀ i, p ≤ i → m' i = m i) : Holds m' p b where
  read := by
    rw [Store.read_congr fun i _ => he (p + i) (by omega)]
    exact h.read
  nul := (he _ (by omega)).trans h.nul

theorem plain_of_read {e : Nat} (hl : m.read p (e - p) = l) (h : newline ∉ l ∧ (0 : UInt8) ∉ l) : Plain m p e := by
  intro i hi hie
  have hmem : m i ∈ l := by
    rw [← hl]
    exact List.mem_map.2 ⟨i - p, List.mem_range.2 (by omega), by rw [show p + (i - p) = i by omega]⟩
  exact ⟨fun h0 => h.2 (h0 ▸ hmem), fun hn => h.1 (hn ▸ hmem)⟩

/-- `strchr` on a line. -/
theorem Holds.strchr_line (h : Holds m p (l ++ newline :: b)) (hl : newline ∉ l ∧ (0 : UInt8) ∉ l)
    (hlen : l.length < bufLen) :
    strchr bufLen m p newline = some (some (p + l.length)) := by
  refine strchr_iff.2 ⟨p + l.length, by omega, by omega, ?_, .inl ⟨?_, rfl⟩⟩
  · exact plain_of_read (by rw [Nat.add_sub_cancel_left, h.left]) hl
  · exact h.right.get (i := 0) (by simp)

theorem Holds.strchr_stops (h : Holds m p b) (hb : Stops b) (hlen : b.length < bufLen) :
    strchr bufLen m p newline = some none := by
  have hle : (b.takeWhile (· ≠ 0)).length ≤ b.length := (List.takeWhile_sublist _).length_le
  have hsplit : b.takeWhile (· ≠ 0) ++ b.dropWhile (· ≠ 0) = b := List.takeWhile_append_dropWhile
  have h' : Holds m p (b.takeWhile (· ≠ 0) ++ b.dropWhile (· ≠ 0)) := by
    rw [hsplit]
    exact h
  refine strchr_iff.2 ⟨p + (b.takeWhile (· ≠ 0)).length, by omega, by omega, ?_, .inr ⟨?_, rfl⟩⟩
  · refine plain_of_read (l := b.takeWhile (· ≠ 0)) (by rw [Nat.add_sub_cancel_left, h'.left]) ⟨hb, fun h0 => ?_⟩
    simpa using List.mem_takeWhile_imp h0
  · -- the first NUL, in the buffer or behind it
    cases hd : b.dropWhile (· ≠ 0) with
    | nil =>
      have h0 := h'.right.nul
      rwa [hd, List.length_nil, Nat.add_zero] at h0
    | cons x t =>
      have hx := h'.right.get (i := 0) (by rw [hd]; simp)
      simp only [hd, List.getElem_cons_zero, Nat.add_zero] at hx
      rw [hx]
      have h1 : ∀ w : x :: t ≠ [], ((x :: t).head w ≠ 0) = False := by
        rw [← hd]
        intro w
        simpa using List.head_dropWhile_not (fun x : UInt8 => x ≠ 0) w
      simpa using h1 (List.cons_ne_nil _ _)

theorem matching_cons (re l : List UInt8) (ls : List (List UInt8)) :
    matching re (l :: ls) = (if matches' re l then l ++ [newline] else []) ++ matching re ls := by
  by_cases h : (pattern re).Matches l
  · rw [if_pos ((matches_pattern re l).2 h), matching, List.filter_cons_of_pos (by simpa using h)]
    rfl
  · rw [if_neg (fun h' => h ((matches_pattern re l).1 h')), matching, List.filter_cons_of_neg (by simpa using h)]
    rfl

/-- The inner loop prints the lines that match, and leaves `p` behind them. -/
theorem lines_spec (re : List UInt8) (h : Holds m p (joined ls ++ r)) (hc : Clean ls) (hr : Stops r)
    (hlen : (joined ls ++ r).length < bufLen) (hf : ls.length < fuel) :
    ∃ m', lines re fuel m p = some (matching re ls, m', p + (joined ls).length) ∧
    Holds m' (p + (joined ls).length) r := by
  induction ls generalizing m p fuel with
  | nil =>
    obtain ⟨n, rfl⟩ := Nat.exists_eq_succ_of_ne_zero (by omega : fuel ≠ 0)
    refine ⟨m, ?_, h⟩
    rw [lines, h.strchr_stops hr hlen]
    rfl
  | cons l ls ih =>
    obtain ⟨n, rfl⟩ := Nat.exists_eq_succ_of_ne_zero (by rw [List.length_cons] at hf; omega : fuel ≠ 0)
    rw [joined_cons] at h hlen
    have hl := hc l (List.mem_cons_self ..)
    rw [List.length_append, List.length_cons] at hlen
    have hread : ∀ x : UInt8, (m.write (p + l.length) [x]).read p l.length = l := by
      intro x
      rw [Store.read_write_of_disjoint (Or.inl (le_refl _)), h.left]
    have hrest : Holds m (p + l.length + 1) (joined ls ++ r) := by
      have h1 : Holds m p ((l ++ [newline]) ++ (joined ls ++ r)) := by simpa using h
      have h2 := h1.right
      rwa [List.length_append, ← Nat.add_assoc] at h2
    have hend : p + l.length + 1 + (joined ls).length = p + (joined (l :: ls)).length := by
      simp only [joined, List.flatMap_cons, List.length_append, List.length_singleton]
      omega
    rw [List.length_cons] at hf
    have hfuel : ls.length < n := by omega
    rw [lines, h.strchr_line hl (by omega), matching_cons, ← hend]
    simp only [Option.bind_eq_bind, Option.bind_some, Nat.add_sub_cancel_left, hread]
    by_cases hm : matches' re l = true
    · -- the newline is put back for the line to be written
      have hh : Holds ((m.write (p + l.length) [0]).write (p + l.length) [newline]) (p + l.length + 1)
          (joined ls ++ r) := by
        refine hrest.congr fun i hi => ?_
        rw [Store.write_out (Or.inr (by simpa using hi)), Store.write_out (Or.inr (by simpa using hi))]
      obtain ⟨m', hlines, hm'⟩ := ih hh hc.tail (by omega) hfuel
      refine ⟨m', ?_, hm'⟩
      rw [if_pos hm, if_pos hm, hlines]
      have hw : ((m.write (p + l.length) [0]).write (p + l.length) [newline]).read p (p + l.length + 1 - p) =
          l ++ [newline] := by
        rw [show p + l.length + 1 - p = l.length +
          1 by omega, Store.read_append, Store.read_write_of_disjoint (Or.inl (le_refl _)), hread]
        have hself : ((m.write (p + l.length) [0]).write (p + l.length) [newline]).read (p + l.length)
            [newline].length = [newline] :=
          Store.read_write_self
        exact congrArg _ hself
      rw [← hw]
      rfl
    · have hh : Holds (m.write (p + l.length) [0]) (p + l.length + 1) (joined ls ++ r) :=
        hrest.congr fun i hi => Store.write_out (Or.inr (by simpa using hi))
      obtain ⟨m', hlines, hm'⟩ := ih hh hc.tail (by omega) hfuel
      refine ⟨m', ?_, hm'⟩
      rw [if_neg hm, if_neg hm, hlines]
      rfl

/-! ## Files -/

theorem count_pos (rd : Reader) (turn : Nat) (h1 : n + 1 < bufLen) (h2 : text ≠ []) :
    0 < rd.count turn (bufLen - n - 1) text.length :=
  rd.pos _ _ _ (by omega) (List.length_pos_iff.2 h2)

/-- The lines that are complete in the buffer fit. -/
theorem Clean.fits (h : Clean ls) (hlen : (joined ls ++ r).length < bufLen) : ∀ l ∈ ls, Fits l := by
  intro l hl
  refine ⟨?_, (h l hl).2⟩
  obtain ⟨s, u, rfl⟩ := List.append_of_mem hl
  simp only [joined, List.flatMap_append, List.flatMap_cons, List.length_append, List.length_singleton] at hlen
  omega

theorem prints_joined (hc : Clean ls) (hf : ∀ l ∈ ls, Fits l) :
    prints re (joined ls ++ text) = matching re ls ++ prints re text := by
  rw [prints, textLines_joined hc, List.takeWhile_append_of_pos (by simpa using hf), matching, List.filter_append,
    List.flatMap_append]
  rfl

/-- Nothing is printed any more of what begins with a full buffer, or is all in the buffer. -/
theorem prints_stops (h : Stops b) (hlen : t = [] ∨ bufLen - 1 ≤ b.length) : prints re (b ++ t) = [] := by
  by_cases hn : newline ∈ b ++ t
  · obtain ⟨l, u, hu, hl⟩ := List.eq_append_cons_of_mem hn
    have hnot := h.not_fits hu hlen
    rw [prints, hu, textLines_cons hl, List.takeWhile_cons_of_neg (by simpa using hnot)]
    rfl
  · rw [prints, textLines_of_not_mem hn]
    rfl

/-- The loop with `b` in the buffer prints what there is to print of `b` and the text behind it. -/
theorem grep_spec (hfuel : text.length < fuel) (turn : Nat) (hb : m.read 0 b.length = b) (hlen : b.length < bufLen)
    (hs : Stops b) :
    ∃ m', grep re rd fuel turn text b.length m = some (prints re (b ++ text), m') := by
  induction fuel generalizing turn text b m with
  | zero => omega
  | succ fuel ih =>
    simp only [grep]
    generalize hk : rd.count turn (bufLen - b.length - 1) text.length = k
    have hle : k ≤ min (bufLen - b.length - 1) text.length := hk ▸ rd.le ..
    by_cases h0 : k = 0
    · -- `read` has returned 0
      rw [if_pos h0, prints_stops hs]
      · exact ⟨m, rfl⟩
      · by_contra hn
        obtain ⟨h1, h2⟩ := not_or.1 hn
        have := count_pos rd turn (n := b.length) (by omega) h1
        omega
    · rw [if_neg h0]
      obtain ⟨ls, r, hr, hc, hstop⟩ := exists_lines (b ++ text.take k)
      have hlk : (b ++ text.take k).length = b.length + k := by
        rw [List.length_append, List.length_take]
        omega
      have hlen' : (joined ls ++ r).length < bufLen := by
        rw [← hr, hlk]
        omega
      have hholds : Holds ((m.write b.length (text.take k)).write (b.length + k) [0]) 0 (joined ls ++ r) := by
        rw [← hr]
        constructor
        · rw [hlk, Store.read_write_of_disjoint (Or.inl (by omega)), Store.read_append,
            Store.read_write_of_disjoint (Or.inl (by omega)), hb]
          congr 1
          have htk : (text.take k).length = k := by
            rw [List.length_take]
            omega
          have h1 : (m.write b.length (text.take k)).read b.length (text.take k).length = text.take k :=
            Store.read_write_self
          rw [htk] at h1
          rw [Nat.zero_add, h1]
        · rw [hlk, Nat.zero_add]
          exact Store.write_add (i := 0) (by simp)
      have hfewer : ls.length < bufLen := by
        refine lt_of_le_of_lt ?_ hlen'
        rw [List.length_append]
        refine le_trans ?_ (Nat.le_add_right _ _)
        clear * -
        induction ls with
        | nil => simp
        | cons l ls ih =>
          simp only [joined, List.flatMap_cons, List.length_append, List.length_cons] at ih ⊢
          omega
      obtain ⟨m', hlines, hm'⟩ := lines_spec re hholds hc hstop hlen' hfewer
      simp only [Option.bind_eq_bind, hlines, Option.bind_some, Nat.zero_add]
      -- the rest of the buffer is moved to its front
      have hn : b.length + k - (joined ls).length = r.length := by
        have := congrArg List.length hr
        rw [hlk, List.length_append] at this
        omega
      rw [hn]
      have hfront : (m'.write 0 (m'.read (joined ls).length r.length)).read 0 r.length = r := by
        have hm := hm'.read
        rw [Nat.zero_add] at hm
        rw [hm]
        exact Store.read_write_self
      obtain ⟨m'', hg⟩ := ih (show (text.drop k).length < fuel by rw [List.length_drop]; omega) (turn + 1) hfront
        (by rw [List.length_append] at hlen'; omega) hstop
      refine ⟨m'', ?_⟩
      rw [hg, Option.bind_some]
      have hall : b ++ text = joined ls ++ (r ++ text.drop k) := by
        rw [← List.append_assoc, ← hr, List.append_assoc, List.take_append_drop]
      rw [hall, prints_joined hc (hc.fits hlen')]
      rfl

/-- Up to the first file that cannot be opened, the lines of each file that match are printed, up to its first line
that does not fit: the loops end, and it does not matter how `read` cuts the files or what was in memory. -/
theorem files_print (re : List UInt8) (rd : Reader) (fs : List (List UInt8 × Option (List UInt8))) (m : Store) :
    files re rd fs m = some (((fs.takeWhile fun f => f.2.isSome).flatMap fun f => prints re (f.2.getD [])) ++
      (match fs.dropWhile fun f => f.2.isSome with | [] => [] | f :: _ => cannotOpen f.1),
      if fs.all fun f => f.2.isSome then 0 else 1) := by
  induction fs generalizing m with
  | nil => rfl
  | cons f fs ih =>
    obtain ⟨name, _ | text⟩ := f
    · rfl
    · have hstart : Stops [] := List.not_mem_nil
      obtain ⟨m', h⟩ : ∃ m', grep re rd (text.length + 1) 0 text 0 m = some (prints re ([] ++ text), m') :=
        grep_spec (Nat.lt_succ_self text.length) 0 (b := []) rfl (by decide) hstart
      rw [List.nil_append] at h
      simp only [files, h, ih m', Option.bind_eq_bind, Option.bind_some, List.takeWhile_cons_of_pos, Option.isSome_some,
        List.dropWhile_cons_of_pos, List.flatMap_cons, Option.getD_some, List.all_cons,
        Bool.true_and, List.append_assoc]
      rfl

end TinyOS.Grep
