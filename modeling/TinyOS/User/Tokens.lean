/-
The tokens of a line of the shell: what `peek` and `gettoken` of user/src/phase6/sh.c do to the list of
the tokens that are left, and where words stand in the line.
-/
import TinyOS.User.Shell

namespace TinyOS.Shell

open TinyOS.Lib

/-- A string from `b` to its NUL at `es`. -/
structure Line (m : Store) (b es : Nat) : Prop where
  le : b ≤ es
  nul : m es = 0
  text : ∀ i, b ≤ i → i < es → m i ≠ 0

variable {m : Store} {b es s n k : Nat} {p : UInt8 → Bool} {a : List UInt8} {t : Token} {ts : List Token}

/-! ## The loops -/

theorem skip_spec : s ≤ skip m p n s ∧ skip m p n s ≤ s + n ∧ (∀ i, s ≤ i → i < skip m p n s → p (m i) = true) ∧
    (skip m p n s < s + n → p (m (skip m p n s)) = false) := by
  induction n generalizing s with
  | zero => simp [skip]; omega
  | succ n ih =>
    rw [skip]
    split
    · next hp =>
      obtain ⟨h1, h2, h3, h4⟩ := ih (s := s + 1)
      refine ⟨by omega, by omega, fun i hi hi' => ?_, fun h => h4 (by omega)⟩
      rcases hi.eq_or_lt with rfl | hi
      · exact hp
      · exact h3 i hi hi'
    · next hp => exact ⟨le_rfl, by omega, fun i _ _ => by omega, fun _ => by simpa using hp⟩

/-- A cursor that is where the loop ends stays there. -/
theorem skip_self (hp : 0 < n → p (m s) = false) : skip m p n s = s := by
  cases n with
  | zero => rfl
  | succ n => simp [skip, hp]

theorem skipSpace_le (hs : s ≤ es) : s ≤ skipSpace m es s ∧ skipSpace m es s ≤ es := by
  obtain ⟨h1, h2, -⟩ := skip_spec (m := m) (p := strchr whitespace) (n := es - s) (s := s)
  unfold skipSpace
  omega

theorem skipSpace_idem (hs : s ≤ es) : skipSpace m es (skipSpace m es s) = skipSpace m es s := by
  obtain ⟨h1, h2, -, h4⟩ := skip_spec (m := m) (p := strchr whitespace) (n := es - s) (s := s)
  refine skip_self fun h => h4 ?_
  unfold skipSpace at h
  omega

/-- The rest of `gettoken`, from the first byte of the token. -/
def behind (m : Store) (es s : Nat) : UInt8 × Nat :=
  if m s = 0 then (0, s)
  else if m s ∈ [bar, lpar, rpar, semi, amp, lt] then (m s, s + 1)
  else if m s = gt then if m (s + 1) = gt then (plus, s + 2) else (gt, s + 1)
  else (word, skip m wordChar (es - s) s)

theorem gettoken_eq :
    gettoken m es s = (⟨(behind m es (skipSpace m es s)).1, skipSpace m es s, (behind m es (skipSpace m es s)).2⟩,
    skipSpace m es (behind m es (skipSpace m es s)).2) := rfl

theorem gettoken_skip (hs : s ≤ es) : gettoken m es (skipSpace m es s) = gettoken m es s := by
  simp only [gettoken_eq, skipSpace_idem hs]

/-- What a token is made of. -/
structure Token.Ok (m : Store) (es : Nat) (t : Token) : Prop where
  lt : t.q < t.eq
  le : t.eq ≤ es
  ret : t.ret ≠ 0
  sym : t.ret ≠ word → m t.q = if t.ret = plus then gt else t.ret
  /-- The bytes of a word, and the one behind it. -/
  chars : t.ret = word → ∀ i, t.q ≤ i → i < t.eq → m i ∉ whitespace ∧ m i ∉ symbols ∧ m i ≠ 0
  stop : t.ret = word → m t.eq ∈ whitespace ∨ m t.eq ∈ symbols ∨ m t.eq = 0

theorem wordChar_iff {c : UInt8} : wordChar c = true ↔ c ∉ whitespace ∧ c ∉ symbols ∧ c ≠ 0 := by
  simp [wordChar, strchr]
  tauto

theorem Token.Ok.symbol {r : UInt8} {e : Nat} (hr : r ≠ word) (h0 : r ≠ 0) (hs : m s = if r = plus then gt else r)
    (hlt : s < e) (he : e ≤ es) : Token.Ok m es ⟨r, s, e⟩ :=
  ⟨hlt, he, h0, fun _ => hs, fun h => absurd h hr, fun h => absurd h hr⟩

/-- A word goes on to the next blank or symbol. -/
theorem Token.Ok.word (hl : Line m b es) (hs : s < es) (hw : wordChar (m s) = true) :
    Token.Ok m es ⟨word, s, skip m wordChar (es - s) s⟩ := by
  obtain ⟨h1, h2, h3, h4⟩ := skip_spec (m := m) (p := wordChar) (n := es - s) (s := s)
  have hlt : s < skip m wordChar (es - s) s := by
    by_contra hn
    have heq : skip m wordChar (es - s) s = s := by omega
    have := h4 (by omega)
    rw [heq, hw] at this
    cases this
  have hle : skip m wordChar (es - s) s ≤ es := by omega
  refine ⟨hlt, hle, (by decide : Shell.word ≠ 0), fun h => absurd rfl h, fun _ i hi hi' => wordChar_iff.1 (h3 i hi hi'),
    fun _ => ?_⟩
  show m (skip m wordChar (es - s) s) ∈ whitespace ∨ m (skip m wordChar (es - s) s) ∈ symbols ∨
    m (skip m wordChar (es - s) s) = 0
  rcases hle.eq_or_lt with h5 | h5
  · rw [h5]
    exact Or.inr (Or.inr hl.nul)
  · have h6 := h4 (by omega)
    rw [← Bool.not_eq_true, wordChar_iff] at h6
    tauto

theorem behind_nul (h : m s = 0) : behind m es s = (0, s) := by simp [behind, h]

/-- The token that begins at `s`. -/
theorem behind_ok (hl : Line m b es) (hb : b ≤ s) (hs : s < es) (hw : m s ∉ whitespace) :
    Token.Ok m es ⟨(behind m es s).1, s, (behind m es s).2⟩ := by
  have h0 : m s ≠ 0 := hl.text s hb hs
  unfold behind
  rw [if_neg h0]
  split
  · next h1 =>
    have hne : m s ≠ word ∧ m s ≠ plus := by
      simp only [List.mem_cons, List.not_mem_nil, or_false] at h1
      rcases h1 with h | h | h | h | h | h <;> rw [h] <;> decide
    exact .symbol hne.1 h0 (by rw [if_neg hne.2]) (Nat.lt_succ_self s) hs
  · split
    · next h1 h2 =>
      split
      · next h3 =>
        have hs' : s + 1 ≠ es := by
          intro h
          rw [h, hl.nul] at h3
          cases h3
        exact .symbol (r := plus) (by decide) (by decide) (by rw [h2, if_pos rfl]) (by omega) (by omega)
      · exact .symbol (r := gt) (by decide) (by decide) (by rw [h2, if_neg (by decide)]) (Nat.lt_succ_self s) hs
    · next h1 h2 =>
      refine .word hl hs (wordChar_iff.2 ⟨hw, ?_, h0⟩)
      simp only [symbols, List.mem_cons, List.not_mem_nil, or_false, not_or] at h1 ⊢
      tauto

/-! ## The tokens that are left -/

/-- The tokens from the cursor on, at most `n`. -/
def lex (m : Store) (es : Nat) : (n s : Nat) → List Token
  | 0, _ => []
  | n + 1, s =>
    let (t, s) := gettoken m es s
    if t.ret = 0 then [] else t :: lex m es n s

def tokens (m : Store) (es s : Nat) : List Token := lex m es (es - s + 1) s

/-- A cursor of the parser. -/
def At (b es s : Nat) : Prop := b ≤ s ∧ s ≤ es

/-- Either there are only blanks left, or there is a token. -/
theorem gettoken_cases (hl : Line m b es) (hs : At b es s) :
    ((gettoken m es s).1.ret = 0 ∧ skipSpace m es s = es ∧ (gettoken m es s).2 = es) ∨
    ((gettoken m es s).1.Ok m es ∧ (gettoken m es s).1.q = skipSpace m es s ∧
      At b es (gettoken m es s).2 ∧ (gettoken m es s).1.eq ≤ (gettoken m es s).2 ∧ s < (gettoken m es s).2) := by
  obtain ⟨h1, h2⟩ := skipSpace_le (m := m) hs.2
  have hs1 := hs.1
  rw [gettoken_eq]
  rcases h2.eq_or_lt with h3 | h3
  · left
    have h4 : behind m es es = (0, es) := behind_nul hl.nul
    rw [h3, h4]
    exact ⟨rfl, rfl, by simp [skipSpace, skip]⟩
  · right
    have hw : m (skipSpace m es s) ∉ whitespace := by
      obtain ⟨-, -, -, h4⟩ := skip_spec (m := m) (p := strchr whitespace) (n := es - s) (s := s)
      have := h4 (by unfold skipSpace at h3; omega)
      have h5 : strchr whitespace (m (skipSpace m es s)) = false := this
      simp [strchr] at h5
      exact h5.1
    have hok := behind_ok hl (hs1.trans h1) h3 hw
    obtain ⟨h5, h6⟩ := skipSpace_le (m := m) hok.le
    have h7 := hok.lt
    simp only at h5 h6 h7
    exact ⟨hok, rfl, ⟨by simp only; omega, h6⟩, h5, by simp only; omega⟩

theorem lex_eq (hl : Line m b es) : ∀ {n k s : Nat}, At b es s → es - s < n → es - s < k → lex m es n s = lex m es k s
  | 0, _, _, _, h, _ => absurd h (Nat.not_lt_zero _)
  | _ + 1, 0, _, _, _, h => absurd h (Nat.not_lt_zero _)
  | n + 1, k + 1, s, hs, h1, h2 => by
    rcases gettoken_cases hl hs with ⟨h0, -⟩ | ⟨hok, -, hat, -, hlt⟩
    · simp [lex, h0]
    · simp only [lex, if_neg hok.ret]
      have := hat.2
      rw [lex_eq (k := k) hl hat (by omega) (by omega)]

/-- The list of the tokens begins with the next one. -/
theorem tokens_eq (hl : Line m b es) (hs : At b es s) : tokens m es s =
    if (gettoken m es s).1.ret = 0 then [] else (gettoken m es s).1 :: tokens m es (gettoken m es s).2 := by
  rw [tokens, lex]
  rcases gettoken_cases hl hs with ⟨h0, -⟩ | ⟨hok, -, hat, -, hlt⟩
  · simp [h0]
  · simp only [if_neg hok.ret]
    have := hat.2
    rw [tokens, lex_eq (k := es - (gettoken m es s).2 + 1) hl hat (by omega) (by omega)]

theorem tokens_skip (hl : Line m b es) (hs : At b es s) : tokens m es (skipSpace m es s) = tokens m es s := by
  obtain ⟨h1, h2⟩ := skipSpace_le (m := m) hs.2
  rw [tokens_eq hl ⟨hs.1.trans h1, h2⟩, tokens_eq hl hs, gettoken_skip hs.2]

/-- No tokens are left exactly when the cursor is at the end, blanks aside. -/
theorem tokens_nil_iff (hl : Line m b es) (hs : At b es s) : tokens m es s = [] ↔ skipSpace m es s = es := by
  rw [tokens_eq hl hs]
  rcases gettoken_cases hl hs with ⟨h0, h1, -⟩ | ⟨hok, hq, -⟩
  · simp [h0, h1]
  · simp only [if_neg hok.ret, reduceCtorEq, false_iff]
    have h1 := hok.lt
    have h2 := hok.le
    omega

/-- `gettoken` takes the first token. -/
theorem gettoken_cons (hl : Line m b es) (hs : At b es s) (ht : tokens m es s = t :: ts) :
    ∃ s', gettoken m es s = (t, s') ∧ At b es s' ∧ tokens m es s' = ts ∧ t.Ok m es := by
  rw [tokens_eq hl hs] at ht
  rcases gettoken_cases hl hs with ⟨h0, -⟩ | ⟨hok, -, hat, -⟩
  · simp [h0] at ht
  · rw [if_neg hok.ret] at ht
    obtain ⟨rfl, rfl⟩ := List.cons.inj ht
    exact ⟨_, rfl, hat, rfl, hok⟩

/-- A token that is not the end of the line. -/
theorem gettoken_ret (hl : Line m b es) (hs : At b es s) (h : (gettoken m es s).1.ret ≠ 0) :
    tokens m es s = (gettoken m es s).1 :: tokens m es (gettoken m es s).2 ∧ At b es (gettoken m es s).2 := by
  rcases gettoken_cases hl hs with ⟨h0, -⟩ | ⟨-, -, hat, -⟩
  · exact absurd h0 h
  · exact ⟨by rw [tokens_eq hl hs, if_neg h], hat⟩

/-- The end of the line. -/
theorem gettoken_end (hl : Line m b es) (hs : At b es s) (h : (gettoken m es s).1.ret = 0) :
    tokens m es s = [] ∧ tokens m es (gettoken m es s).2 = [] ∧ At b es (gettoken m es s).2 := by
  have hes : At b es es := ⟨hl.le, le_rfl⟩
  rcases gettoken_cases hl hs with ⟨-, -, h2⟩ | ⟨hok, -⟩
  · rw [h2]
    refine ⟨by rw [tokens_eq hl hs, if_pos h], ?_, hes⟩
    rw [tokens_nil_iff hl hes]
    simp [skipSpace, skip]
  · exact absurd h hok.ret

theorem gettoken_nil (hl : Line m b es) (hs : At b es s) (ht : tokens m es s = []) : (gettoken m es s).1.ret = 0 := by
  rw [tokens_eq hl hs] at ht
  by_contra hn
  simp [hn] at ht

theorem tokens_length (hl : Line m b es) (hs : At b es s) : (tokens m es s).length ≤ es - s := by
  induction hk : es - s using Nat.strongRecOn generalizing s with
  | ind k ih =>
    rw [tokens_eq hl hs]
    rcases gettoken_cases hl hs with ⟨h0, -⟩ | ⟨hok, -, hat, -, hlt⟩
    · simp [h0]
    · rw [if_neg hok.ret, List.length_cons]
      have h1 := ih (es - (gettoken m es s).2) (by have := hat.2; omega) hat rfl
      have h2 := hat.2
      omega

theorem tokens_ok (hl : Line m b es) (hs : At b es s) (ht : t ∈ tokens m es s) : t.Ok m es ∧ b ≤ t.q := by
  induction hk : es - s using Nat.strongRecOn generalizing s with
  | ind k ih =>
    rw [tokens_eq hl hs] at ht
    rcases gettoken_cases hl hs with ⟨h0, -⟩ | ⟨hok, hq, hat, -, hlt⟩
    · simp [h0] at ht
    · rw [if_neg hok.ret] at ht
      rcases List.mem_cons.1 ht with rfl | ht
      · exact ⟨hok, hq ▸ hs.1.trans (skipSpace_le hs.2).1⟩
      · exact ih (es - (gettoken m es s).2) (by have := hat.2; omega) hat ht rfl

/-- The byte that a token begins with; for a word, one that is no symbol. -/
def Token.head (t : Token) : UInt8 := if t.ret = plus then gt else t.ret

theorem Token.head_eq {c : UInt8} (h : t.head = c) (hc : c ≠ gt) : t.ret = c := by
  unfold Token.head at h
  split at h
  · exact absurd h.symm hc
  · exact h

theorem Token.head_of_ret {c : UInt8} (h : t.ret = c) (hc : c ≠ plus) : t.head = c := by
  rw [Token.head, h, if_neg hc]

/-- The first token begins with one of `toks`. -/
def starts (toks : List UInt8) (ts : List Token) : Bool := ts.head?.any fun t => toks.contains t.head

@[simp] theorem starts_nil : starts a [] = false := rfl

@[simp] theorem starts_cons : starts a (t :: ts) = a.contains t.head := rfl

/-- `peek` looks at the first token and takes none. -/
theorem peek_spec (hl : Line m b es) (hs : At b es s) (hsub : a ⊆ symbols) :
    peek m es s a = (starts a (tokens m es s), skipSpace m es s) ∧ At b es (skipSpace m es s) ∧
      tokens m es (skipSpace m es s) = tokens m es s := by
  obtain ⟨h1, h2⟩ := skipSpace_le (m := m) hs.2
  refine ⟨?_, ⟨hs.1.trans h1, h2⟩, tokens_skip hl hs⟩
  rw [tokens_eq hl hs]
  unfold peek
  rcases gettoken_cases hl hs with ⟨h0, h3, -⟩ | ⟨hok, hq, -⟩
  · simp [h0, h3, hl.nul]
  · have hne : m (skipSpace m es s) ≠ 0 := by
      rw [← hq]
      exact hl.text _ (hq ▸ hs.1.trans h1) (lt_of_lt_of_le hok.lt hok.le)
    simp only [if_neg hok.ret, starts_cons]
    by_cases hword : (gettoken m es s).1.ret = word
    · -- a word does not begin with a symbol, and `word` is none
      have h4 := (hok.chars hword _ le_rfl hok.lt).2.1
      rw [hq] at h4
      have h5 : m (skipSpace m es s) ∉ a := fun h => h4 (hsub h)
      have h6 : word ∉ a := fun h => absurd (hsub h) (by decide)
      simp [strchr, hne, h5, Token.head, hword, h6, (by decide : word ≠ plus)]
    · have h4 := hok.sym hword
      rw [hq] at h4
      rw [Token.head, ← h4]
      have hbeq : (m (skipSpace m es s) == 0) = false := by simpa using hne
      simp [strchr, bne, hbeq]

end TinyOS.Shell
