/-
The language of the shell: a grammar over the tokens of a line, and that the parser of
user/src/phase6/sh.c accepts exactly what the grammar derives, returns its tree, and never loops.
-/
import TinyOS.User.Tokens

namespace TinyOS.Shell

open TinyOS.Lib

/-! ## The grammar -/

/-- `(< word | > word | >> word)*`. -/
inductive Redirs : List Token → List ((Nat × Nat) × Mode) → Prop
  | nil : Redirs [] []
  | cons {o w : Token} {ts rs} : o.head ∈ [lt, gt] → w.ret = word → Redirs ts rs →
      Redirs (o :: w :: ts) (((w.q, w.eq), mode o.ret) :: rs)

/-- `(word redirs)*`. -/
inductive Args : List Token → List (Nat × Nat) → List ((Nat × Nat) × Mode) → Prop
  | nil : Args [] [] []
  | cons {w : Token} {ts us rs ws rs'} : w.ret = word → Redirs ts rs → Args us ws rs' →
      Args (w :: (ts ++ us)) ((w.q, w.eq) :: ws) (rs ++ rs')

/-- `n` ampersands. -/
inductive Amps : List Token → Nat → Prop
  | nil : Amps [] 0
  | cons {t : Token} {ts n} : t.ret = amp → Amps ts n → Amps (t :: ts) (n + 1)

def backs : Nat → Cmd → Cmd
  | 0, c => c
  | n + 1, c => backs n (.back c)

inductive Level where
  | line
  | pipe
  | exec

/-- line ::= pipe &* | pipe &* ; line; pipe ::= exec | exec | pipe; exec ::= redirs (word redirs)* with at
most nine words, or ( line ) redirs. -/
inductive Derives : Level → List Token → Cmd → Prop
  | simple {ts us rs ws rs'} : Redirs ts rs → Args us ws rs' → ws.length < 10 →
      Derives .exec (ts ++ us) (wrap (.exec ws) (rs ++ rs'))
  | block {o e : Token} {ts us c rs} : o.ret = lpar → Derives .line ts c → e.ret = rpar → Redirs us rs →
      Derives .exec (o :: (ts ++ e :: us)) (wrap c rs)
  | single {ts c} : Derives .exec ts c → Derives .pipe ts c
  | pipe {t : Token} {ts us c d} : Derives .exec ts c → t.ret = bar → Derives .pipe us d →
      Derives .pipe (ts ++ t :: us) (.pipe c d)
  | last {ts as c n} : Derives .pipe ts c → Amps as n → Derives .line (ts ++ as) (backs n c)
  | list {t : Token} {ts as us c d n} : Derives .pipe ts c → Amps as n → t.ret = semi → Derives .line us d →
      Derives .line (ts ++ (as ++ t :: us)) (.list (backs n c) d)

/-! ## What the parser accepts -/

variable {m : Store} {b es s s' n fuel : Nat} {rs : List ((Nat × Nat) × Mode)} {ws : List (Nat × Nat)}
  {c d : Cmd} {ts : List Token} {t : Token}

theorem bind_ok {α β : Type} {x : Parse α} {f : α → Parse β} {y : β} :
    (x >>= f) = .ok y ↔ ∃ a, x = .ok a ∧ f a = .ok y := by
  cases x with
  | error e => exact ⟨fun h => (by cases h), fun ⟨_, h, _⟩ => (by cases h)⟩
  | ok a =>
    constructor
    · exact fun h => ⟨a, rfl, h⟩
    · rintro ⟨_, h, hf⟩
      cases h
      exact hf

theorem starts_iff {a : List UInt8} : starts a ts = true ↔ ∃ t ts', ts = t :: ts' ∧ t.head ∈ a := by
  cases ts with
  | nil => simp
  | cons t ts => simp

theorem starts_ret {a : List UInt8} {r : UInt8} (h : t.ret = r) (hr : r ≠ plus) :
    starts a (t :: ts) = a.contains r := by
  rw [starts_cons, Token.head_of_ret h hr]

theorem redirs_sound (hl : Line m b es) (hs : At b es s) (h : parseredirs m es fuel s = .ok (rs, s')) :
    ∃ ts, tokens m es s = ts ++ tokens m es s' ∧ Redirs ts rs ∧ At b es s' := by
  induction fuel generalizing s rs with
  | zero => cases h
  | succ fuel ih =>
    obtain ⟨hp, hat, htok⟩ := peek_spec hl hs (a := [lt, gt]) (by decide)
    rw [parseredirs, hp] at h
    simp only at h
    split at h
    · cases h
      exact ⟨[], htok.symm, .nil, hat⟩
    · next hb =>
      obtain ⟨o, ts, ht, ho⟩ := starts_iff.1 (by simpa using hb)
      obtain ⟨s₁, hg₁, hat₁, htok₁, -⟩ := gettoken_cons hl hat (htok.trans ht)
      rw [hg₁] at h
      simp only at h
      split at h
      · cases h
      · next hw =>
        have hword := not_not.1 hw
        obtain ⟨htok₂, hat₂⟩ := gettoken_ret hl hat₁ (by rw [hword]; decide)
        obtain ⟨⟨rs, s₃⟩, hrec, h⟩ := bind_ok.1 h
        cases h
        obtain ⟨ts', htok₃, hr, hat₃⟩ := ih hat₂ hrec
        refine ⟨_ :: _ :: ts', ?_, .cons ho hword hr, hat₃⟩
        rw [ht, ← htok₁, htok₂, htok₃]
        rfl

theorem args_sound (hl : Line m b es) (hs : At b es s) (h : parseargs m es fuel n s = .ok (ws, rs, s')) (hn : n < 10) :
    ∃ ts, tokens m es s = ts ++ tokens m es s' ∧ Args ts ws rs ∧ n + ws.length < 10 ∧ At b es s' := by
  induction fuel generalizing s n ws rs with
  | zero => cases h
  | succ fuel ih =>
    obtain ⟨hp, hat, htok⟩ := peek_spec hl hs (a := [bar, rpar, amp, semi]) (by decide)
    rw [parseargs, hp] at h
    simp only at h
    split at h
    · cases h
      exact ⟨[], htok.symm, .nil, hn, hat⟩
    · split at h
      · next h0 =>
        cases h
        obtain ⟨h1, h2, h3⟩ := gettoken_end hl hat h0
        exact ⟨[], by rw [← htok, h1, h2]; rfl, .nil, hn, h3⟩
      · split at h
        · cases h
        · next h0 hw =>
          split at h
          · cases h
          · next hlt =>
            have hword := not_not.1 hw
            obtain ⟨htok₁, hat₁⟩ := gettoken_ret hl hat h0
            obtain ⟨⟨rs₁, s₂⟩, hr, h⟩ := bind_ok.1 h
            obtain ⟨⟨ws₁, rs₂, s₃⟩, ha, h⟩ := bind_ok.1 h
            cases h
            obtain ⟨ts, htok₂, hrs, hat₂⟩ := redirs_sound hl hat₁ hr
            obtain ⟨us, htok₃, has, hlen, hat₃⟩ := ih hat₂ ha (by omega)
            refine ⟨_, ?_, .cons hword hrs has, by simp; omega, hat₃⟩
            rw [← htok, htok₁, htok₂, htok₃]
            simp

theorem back_sound (hl : Line m b es) (hs : At b es s) (h : parseback m es fuel c s = .ok (d, s')) :
    ∃ ts n, tokens m es s = ts ++ tokens m es s' ∧ Amps ts n ∧ d = backs n c ∧ At b es s' := by
  induction fuel generalizing s c with
  | zero => cases h
  | succ fuel ih =>
    obtain ⟨hp, hat, htok⟩ := peek_spec hl hs (a := [amp]) (by decide)
    rw [parseback, hp] at h
    simp only at h
    split at h
    · cases h
      exact ⟨[], 0, htok.symm, .nil, rfl, hat⟩
    · next hb =>
      obtain ⟨t, ts, ht, hhead⟩ := starts_iff.1 (by simpa using hb)
      obtain ⟨s₁, hg₁, hat₁, htok₁, -⟩ := gettoken_cons hl hat (htok.trans ht)
      rw [hg₁] at h
      obtain ⟨us, n, htok₂, ha, hd, hat₂⟩ := ih hat₁ h
      refine ⟨t :: us, n + 1, by rw [ht, ← htok₁, htok₂]; rfl, .cons ?_ ha, hd, hat₂⟩
      exact Token.head_eq (by simpa using hhead) (by decide)

/-- One token that is expected. -/
theorem symbol_sound {a : List UInt8} (hl : Line m b es) (hs : At b es s) (hsub : a ⊆ symbols)
    (hb : starts a (tokens m es s) = true) : ∃ t s₁, gettoken m es (skipSpace m es s) = (t, s₁) ∧
      tokens m es s = t :: tokens m es s₁ ∧ t.head ∈ a ∧ At b es s₁ := by
  obtain ⟨-, hat, htok⟩ := peek_spec hl hs hsub
  obtain ⟨t, ts, ht, hhead⟩ := starts_iff.1 hb
  obtain ⟨s₁, hg, hat₁, htok₁, -⟩ := gettoken_cons hl hat (htok.trans ht)
  exact ⟨t, s₁, hg, by rw [ht, htok₁], hhead, hat₁⟩

/-- What a function of the parser has read when it returns. -/
def Sound (m : Store) (b es : Nat) (f : Nat → Parse (Cmd × Nat)) (lv : Level) : Prop :=
  ∀ {s c s'}, At b es s → f s = .ok (c, s') → ∃ ts, tokens m es s = ts ++ tokens m es s' ∧ Derives lv ts c ∧ At b es s'

theorem line_sound (hl : Line m b es) (hpipe : Sound m b es (parsepipe m es fuel) .pipe)
    (hline : Sound m b es (parseline m es fuel) .line) : Sound m b es (parseline m es (fuel + 1)) .line := by
  intro s c s' hs h
  rw [parseline] at h
  obtain ⟨⟨c₁, s₁⟩, h1, h⟩ := bind_ok.1 h
  obtain ⟨⟨c₂, s₂⟩, h2, h⟩ := bind_ok.1 h
  obtain ⟨ts, htok, hd, hat⟩ := hpipe hs h1
  obtain ⟨as, n, htok₁, ha, rfl, hat₁⟩ := back_sound hl hat h2
  obtain ⟨hp, hat₂, htok₂⟩ := peek_spec hl hat₁ (a := [semi]) (by decide)
  simp only [hp] at h
  split at h
  · cases h
    exact ⟨ts ++ as, by rw [htok, htok₁, htok₂, List.append_assoc], .last hd ha, hat₂⟩
  · next hb =>
    obtain ⟨t, s₃, hg, ht, hhead, hat₃⟩ := symbol_sound (a := [semi]) hl hat₁ (by decide) (by simpa using hb)
    simp only [hg] at h
    obtain ⟨⟨c₃, s₄⟩, h3, h⟩ := bind_ok.1 h
    cases h
    obtain ⟨us, htok₄, hd₄, hat₄⟩ := hline hat₃ h3
    refine ⟨_, ?_, .list hd ha (Token.head_eq (by simpa using hhead) (by decide)) hd₄, hat₄⟩
    rw [htok, htok₁, ht, htok₄]
    simp

theorem pipe_sound (hl : Line m b es) (hexec : Sound m b es (parseexec m es fuel) .exec)
    (hpipe : Sound m b es (parsepipe m es fuel) .pipe) : Sound m b es (parsepipe m es (fuel + 1)) .pipe := by
  intro s c s' hs h
  rw [parsepipe] at h
  obtain ⟨⟨c₁, s₁⟩, h1, h⟩ := bind_ok.1 h
  obtain ⟨ts, htok, hd, hat⟩ := hexec hs h1
  obtain ⟨hp, hat₂, htok₂⟩ := peek_spec hl hat (a := [bar]) (by decide)
  simp only [hp] at h
  split at h
  · cases h
    exact ⟨ts, by rw [htok, htok₂], .single hd, hat₂⟩
  · next hb =>
    obtain ⟨t, s₃, hg, ht, hhead, hat₃⟩ := symbol_sound (a := [bar]) hl hat (by decide) (by simpa using hb)
    simp only [hg] at h
    obtain ⟨⟨c₃, s₄⟩, h3, h⟩ := bind_ok.1 h
    cases h
    obtain ⟨us, htok₄, hd₄, hat₄⟩ := hpipe hat₃ h3
    refine ⟨_, ?_, .pipe hd (Token.head_eq (by simpa using hhead) (by decide)) hd₄, hat₄⟩
    rw [htok, ht, htok₄]
    simp

theorem block_sound (hl : Line m b es) (hline : Sound m b es (parseline m es fuel) .line) :
    Sound m b es (parseblock m es (fuel + 1)) .exec := by
  intro s c s' hs h
  obtain ⟨hp, hat, htok⟩ := peek_spec hl hs (a := [lpar]) (by decide)
  rw [parseblock] at h
  simp only [hp] at h
  split at h
  · cases h
  · next hb =>
    obtain ⟨o, s₁, hg, ho, hhead, hat₁⟩ := symbol_sound (a := [lpar]) hl hs (by decide) (by simpa using hb)
    simp only [hg] at h
    obtain ⟨⟨c₁, s₂⟩, h1, h⟩ := bind_ok.1 h
    obtain ⟨ts, htok₁, hd, hat₂⟩ := hline hat₁ h1
    obtain ⟨hp₂, -⟩ := peek_spec hl hat₂ (a := [rpar]) (by decide)
    simp only [hp₂] at h
    split at h
    · cases h
    · next hb₂ =>
      obtain ⟨e, s₃, hg₂, he, hhead₂, hat₃⟩ := symbol_sound (a := [rpar]) hl hat₂ (by decide) (by simpa using hb₂)
      simp only [hg₂] at h
      obtain ⟨⟨rs, s₄⟩, h2, h⟩ := bind_ok.1 h
      cases h
      obtain ⟨us, htok₄, hr, hat₄⟩ := redirs_sound hl hat₃ h2
      refine ⟨_, ?_, .block (Token.head_eq (by simpa using hhead) (by decide)) hd
        (Token.head_eq (by simpa using hhead₂) (by decide)) hr, hat₄⟩
      rw [ho, htok₁, he, htok₄]
      simp

theorem exec_sound (hl : Line m b es) (hblock : Sound m b es (parseblock m es fuel) .exec) :
    Sound m b es (parseexec m es (fuel + 1)) .exec := by
  intro s c s' hs h
  obtain ⟨hp, hat, htok⟩ := peek_spec hl hs (a := [lpar]) (by decide)
  rw [parseexec] at h
  simp only [hp] at h
  split at h
  · obtain ⟨ts, htok₁, hd, hat₁⟩ := hblock hat h
    exact ⟨ts, by rw [← htok, htok₁], hd, hat₁⟩
  · obtain ⟨⟨rs, s₁⟩, h1, h⟩ := bind_ok.1 h
    obtain ⟨⟨ws, rs', s₂⟩, h2, h⟩ := bind_ok.1 h
    cases h
    obtain ⟨ts, htok₁, hr, hat₁⟩ := redirs_sound hl hat h1
    obtain ⟨us, htok₂, ha, hlen, hat₂⟩ := args_sound hl hat₁ h2 (by decide)
    exact ⟨ts ++ us, by rw [← htok, htok₁, htok₂, List.append_assoc], .simple hr ha (by simpa using hlen), hat₂⟩

theorem parse_sound (hl : Line m b es) : ∀ fuel, Sound m b es (parseline m es fuel) .line ∧
    Sound m b es (parsepipe m es fuel) .pipe ∧
    Sound m b es (parseexec m es fuel) .exec ∧ Sound m b es (parseblock m es fuel) .exec
  | 0 => by
    refine ⟨?_, ?_, ?_, ?_⟩ <;> intro s c s' _ h
    · rw [parseline] at h
      cases h
    · rw [parsepipe] at h
      cases h
    · rw [parseexec] at h
      cases h
    · rw [parseblock] at h
      cases h
  | fuel + 1 => by
    obtain ⟨h1, h2, h3, h4⟩ := parse_sound hl fuel
    exact ⟨line_sound hl h2 h1, pipe_sound hl h3 h2, exec_sound hl h4, block_sound hl h1⟩

/-! ## It returns -/

/-- The parser has an answer, be it a panic. -/
def Returns {α : Type} (x : Parse α) : Prop := x ≠ .error .fuel

theorem returns_bind {α β : Type} {x : Parse α} {f : α → Parse β} (hx : Returns x)
    (hf : ∀ a, x = .ok a → Returns (f a)) :
    Returns (x >>= f) := by
  cases x with
  | error e => exact fun h => hx (by cases h; rfl)
  | ok a => exact hf a rfl

@[simp] theorem returns_pure {α : Type} {a : α} : Returns (pure a : Parse α) := fun h => by cases h

@[simp] theorem returns_panic {α : Type} {msg : String} : Returns (throw (.panic msg) : Parse α) := fun h => by cases h

theorem redirs_returns (hl : Line m b es) (hs : At b es s) (hf : (tokens m es s).length < fuel) :
    Returns (parseredirs m es fuel s) := by
  induction fuel generalizing s with
  | zero => exact absurd hf (Nat.not_lt_zero _)
  | succ fuel ih =>
    obtain ⟨hp, hat, htok⟩ := peek_spec hl hs (a := [lt, gt]) (by decide)
    rw [parseredirs]
    simp only [hp]
    split
    · exact returns_pure
    · next hb =>
      obtain ⟨o, s₁, hg, ho, -, hat₁⟩ := symbol_sound (a := [lt, gt]) hl hs (by decide) (by simpa using hb)
      simp only [hg]
      split
      · exact returns_panic
      · next hw =>
        obtain ⟨htok₂, hat₂⟩ := gettoken_ret hl hat₁ (by rw [not_not.1 hw]; decide)
        rw [ho, htok₂] at hf
        exact returns_bind (ih hat₂ (by simp at hf; omega)) fun _ _ => returns_pure

theorem args_returns (hl : Line m b es) (hs : At b es s) (hf : (tokens m es s).length < fuel) :
    Returns (parseargs m es fuel n s) := by
  induction fuel generalizing s n with
  | zero => exact absurd hf (Nat.not_lt_zero _)
  | succ fuel ih =>
    obtain ⟨hp, hat, htok⟩ := peek_spec hl hs (a := [bar, rpar, amp, semi]) (by decide)
    rw [parseargs]
    simp only [hp]
    split
    · exact returns_pure
    · split
      · exact returns_pure
      · next h0 =>
        obtain ⟨htok₁, hat₁⟩ := gettoken_ret hl hat h0
        rw [← htok, htok₁] at hf
        simp only [List.length_cons] at hf
        split
        · exact returns_panic
        · split
          · exact returns_panic
          · refine returns_bind (redirs_returns hl hat₁ (by omega)) fun ⟨rs, s₂⟩ hr => ?_
            obtain ⟨ts, htok₂, -, hat₂⟩ := redirs_sound hl hat₁ hr
            have hlen := congrArg List.length htok₂
            rw [List.length_append] at hlen
            exact returns_bind (ih hat₂ (by simp only; omega)) fun _ _ => returns_pure

theorem back_returns (hl : Line m b es) (hs : At b es s) (hf : (tokens m es s).length < fuel) :
    Returns (parseback m es fuel c s) := by
  induction fuel generalizing s c with
  | zero => exact absurd hf (Nat.not_lt_zero _)
  | succ fuel ih =>
    obtain ⟨hp, hat, htok⟩ := peek_spec hl hs (a := [amp]) (by decide)
    rw [parseback]
    simp only [hp]
    split
    · exact returns_pure
    · next hb =>
      obtain ⟨t, s₁, hg, ht, -, hat₁⟩ := symbol_sound (a := [amp]) hl hs (by decide) (by simpa using hb)
      rw [ht] at hf
      simp only [hg]
      exact ih hat₁ (by simpa using hf)

/-- How much fuel each function needs: between a block and the line in it a parenthesis is read. -/
def Total (m : Store) (b es : Nat) (f : Nat → Nat → Parse (Cmd × Nat)) (k fuel : Nat) : Prop :=
  ∀ {s}, At b es s → 4 * (tokens m es s).length + k ≤ fuel → Returns (f fuel s)

theorem line_returns (hl : Line m b es) (hpipe : Total m b es (parsepipe m es) 3 fuel)
    (hline : Total m b es (parseline m es) 4 fuel) :
    Total m b es (parseline m es) 4 (fuel + 1) := by
  intro s hs hf
  rw [parseline]
  refine returns_bind (hpipe hs (by omega)) fun ⟨c₁, s₁⟩ h1 => ?_
  obtain ⟨ts, htok, -, hat⟩ := (parse_sound hl fuel).2.1 hs h1
  have hlen := congrArg List.length htok
  rw [List.length_append] at hlen
  refine returns_bind (back_returns hl hat (by omega)) fun ⟨c₂, s₂⟩ h2 => ?_
  obtain ⟨as, n, htok₁, -, -, hat₁⟩ := back_sound hl hat h2
  have hlen₁ := congrArg List.length htok₁
  rw [List.length_append] at hlen₁
  obtain ⟨hp, -⟩ := peek_spec hl hat₁ (a := [semi]) (by decide)
  simp only [hp]
  split
  · exact returns_pure
  · next hb =>
    obtain ⟨t, s₃, hg, ht, -, hat₃⟩ := symbol_sound (a := [semi]) hl hat₁ (by decide) (by simpa using hb)
    have hlen₂ := congrArg List.length ht
    rw [List.length_cons] at hlen₂
    simp only [hg]
    exact returns_bind (hline hat₃ (by omega)) fun _ _ => returns_pure

theorem pipe_returns (hl : Line m b es) (hexec : Total m b es (parseexec m es) 2 fuel)
    (hpipe : Total m b es (parsepipe m es) 3 fuel) :
    Total m b es (parsepipe m es) 3 (fuel + 1) := by
  intro s hs hf
  rw [parsepipe]
  refine returns_bind (hexec hs (by omega)) fun ⟨c₁, s₁⟩ h1 => ?_
  obtain ⟨ts, htok, -, hat⟩ := (parse_sound hl fuel).2.2.1 hs h1
  have hlen := congrArg List.length htok
  rw [List.length_append] at hlen
  obtain ⟨hp, -⟩ := peek_spec hl hat (a := [bar]) (by decide)
  simp only [hp]
  split
  · exact returns_pure
  · next hb =>
    obtain ⟨t, s₃, hg, ht, -, hat₃⟩ := symbol_sound (a := [bar]) hl hat (by decide) (by simpa using hb)
    have hlen₂ := congrArg List.length ht
    rw [List.length_cons] at hlen₂
    simp only [hg]
    exact returns_bind (hpipe hat₃ (by omega)) fun _ _ => returns_pure

theorem block_returns (hl : Line m b es) (hline : Total m b es (parseline m es) 4 fuel) :
    Total m b es (parseblock m es) 1 (fuel + 1) := by
  intro s hs hf
  obtain ⟨hp, -⟩ := peek_spec hl hs (a := [lpar]) (by decide)
  rw [parseblock]
  simp only [hp]
  split
  · exact returns_panic
  · next hb =>
    obtain ⟨o, s₁, hg, ho, -, hat₁⟩ := symbol_sound (a := [lpar]) hl hs (by decide) (by simpa using hb)
    have hlen := congrArg List.length ho
    rw [List.length_cons] at hlen
    simp only [hg]
    refine returns_bind (hline hat₁ (by omega)) fun ⟨c₁, s₂⟩ h1 => ?_
    obtain ⟨ts, htok₁, -, hat₂⟩ := (parse_sound hl fuel).1 hat₁ h1
    have hlen₁ := congrArg List.length htok₁
    rw [List.length_append] at hlen₁
    obtain ⟨hp₂, -⟩ := peek_spec hl hat₂ (a := [rpar]) (by decide)
    simp only [hp₂]
    split
    · exact returns_panic
    · next hb₂ =>
      obtain ⟨e, s₃, hg₂, he, -, hat₃⟩ := symbol_sound (a := [rpar]) hl hat₂ (by decide) (by simpa using hb₂)
      have hlen₂ := congrArg List.length he
      rw [List.length_cons] at hlen₂
      simp only [hg₂]
      exact returns_bind (redirs_returns hl hat₃ (by omega)) fun _ _ => returns_pure

theorem exec_returns (hl : Line m b es) (hblock : Total m b es (parseblock m es) 1 fuel) :
    Total m b es (parseexec m es) 2 (fuel + 1) := by
  intro s hs hf
  obtain ⟨hp, hat, htok⟩ := peek_spec hl hs (a := [lpar]) (by decide)
  rw [parseexec]
  simp only [hp]
  split
  · exact hblock hat (by rw [htok]; omega)
  · refine returns_bind (redirs_returns hl hat (by rw [htok]; omega)) fun ⟨rs, s₁⟩ h1 => ?_
    obtain ⟨ts, htok₁, -, hat₁⟩ := redirs_sound hl hat h1
    have hlen := congrArg List.length htok₁
    rw [List.length_append, htok] at hlen
    exact returns_bind (args_returns hl hat₁ (by simp only; omega)) fun _ _ => returns_pure

theorem parse_returns (hl : Line m b es) : ∀ fuel, Total m b es (parseline m es) 4 fuel ∧
    Total m b es (parsepipe m es) 3 fuel ∧ Total m b es (parseexec m es) 2 fuel ∧ Total m b es (parseblock m es) 1 fuel
  | 0 => by
    refine ⟨?_, ?_, ?_, ?_⟩ <;> intro s _ hf <;> omega
  | fuel + 1 => by
    obtain ⟨h1, h2, h3, h4⟩ := parse_returns hl fuel
    exact ⟨line_returns hl h2 h1, pipe_returns hl h3 h2, exec_returns hl h4, block_returns hl h1⟩

/-! ## It accepts all of the language -/

/-- With enough fuel the result is as described. -/
def Yields {α : Type} (x : Parse α) (P : α → Prop) : Prop := x = .error .fuel ∨ ∃ a, x = .ok a ∧ P a

theorem yields_bind {α β : Type} {x : Parse α} {f : α → Parse β} {P : α → Prop} {Q : β → Prop} (hx : Yields x P)
    (hf : ∀ a, P a → Yields (f a) Q) : Yields (x >>= f) Q := by
  rcases hx with rfl | ⟨a, rfl, ha⟩
  · exact Or.inl rfl
  · exact hf a ha

theorem yields_pure {α : Type} {a : α} {P : α → Prop} (h : P a) : Yields (pure a) P := Or.inr ⟨a, rfl, h⟩

/-- The tokens are over, or go on with one of `toks`. -/
def Follow (toks : List UInt8) (ts : List Token) : Prop := ts = [] ∨ starts toks ts = true

theorem Follow.not_starts {a w : List UInt8} (h : Follow a ts) (hd : (a.all fun c => !w.contains c) = true) :
    starts w ts = false := by
  rcases h with rfl | h
  · rfl
  · obtain ⟨t, us, rfl, ht⟩ := starts_iff.1 h
    simpa using List.all_eq_true.1 hd _ ht

theorem Follow.mono {a w : List UInt8} (h : Follow a ts) (hs : a ⊆ w) : Follow w ts := by
  rcases h with rfl | h
  · exact Or.inl rfl
  · obtain ⟨t, us, rfl, ht⟩ := starts_iff.1 h
    exact Or.inr (by simpa using hs ht)

/-- The cursor is in front of `rest`. -/
def Before (m : Store) (b es : Nat) (rest : List Token) (s : Nat) : Prop := At b es s ∧ tokens m es s = rest

theorem Before.skip {rest : List Token} (hl : Line m b es) (h : Before m b es rest s) :
    Before m b es rest (skipSpace m es s) := by
  obtain ⟨-, hat, htok⟩ := peek_spec hl h.1 (a := []) (by decide)
  exact ⟨hat, htok.trans h.2⟩

theorem Before.peek {rest : List Token} {a : List UInt8} (hl : Line m b es) (h : Before m b es rest s)
    (hsub : a ⊆ symbols) :
    peek m es s a = (starts a rest, skipSpace m es s) := by
  rw [(peek_spec hl h.1 hsub).1, h.2]

/-- The next token is read. -/
theorem Before.gettoken {rest : List Token} (hl : Line m b es) (h : Before m b es (t :: rest) s) :
    ∃ s', gettoken m es s = (t, s') ∧ Before m b es rest s' := by
  obtain ⟨s', hg, hat, htok, -⟩ := gettoken_cons hl h.1 h.2
  exact ⟨s', hg, hat, htok⟩

variable {us rest : List Token}

theorem redirs_complete (hl : Line m b es) (hr : Redirs us rs) (hs : Before m b es (us ++ rest) s)
    (hf : starts [lt, gt] rest = false) :
    Yields (parseredirs m es fuel s) fun r => r.1 = rs ∧ Before m b es rest r.2 := by
  induction fuel generalizing s us rs with
  | zero => exact Or.inl rfl
  | succ fuel ih =>
    rw [parseredirs]
    simp only [hs.peek hl (a := [lt, gt]) (by decide)]
    cases hr with
    | nil =>
      rw [List.nil_append, hf, if_pos (by rfl)]
      exact yields_pure ⟨rfl, hs.skip hl⟩
    | cons ho hw hr =>
      obtain ⟨s₁, hg₁, hs₁⟩ := (hs.skip hl).gettoken hl
      obtain ⟨s₂, hg₂, hs₂⟩ := hs₁.gettoken hl
      rw [List.cons_append, starts_cons, List.contains_iff_mem.2 ho, if_neg (by decide)]
      simp only [hg₁, hg₂, hw, ne_eq, not_true_eq_false, if_false]
      refine yields_bind (ih hr hs₂) ?_
      rintro ⟨rs, s₃⟩ ⟨rfl, hs₃⟩
      exact yields_pure ⟨rfl, hs₃⟩

/-- What comes behind the redirections of a command is no redirection. -/
theorem args_not_starts (ha : Args us ws rs) (hf : Follow [bar, rpar, amp, semi] rest) {a : List UInt8}
    (hd : ([word, bar, rpar, amp, semi].all fun c => !a.contains c) = true) : starts a (us ++ rest) = false := by
  rw [List.all_cons, Bool.and_eq_true] at hd
  cases ha with
  | nil => exact hf.not_starts hd.2
  | cons hw _ _ => simpa [Token.head_of_ret hw (by decide)] using hd.1

theorem args_complete (hl : Line m b es) (ha : Args us ws rs) (hs : Before m b es (us ++ rest) s)
    (hf : Follow [bar, rpar, amp, semi] rest) (hn : n + ws.length < 10) :
    Yields (parseargs m es fuel n s) fun r => r.1 = ws ∧ r.2.1 = rs ∧ Before m b es rest r.2.2 := by
  induction fuel generalizing s n us ws rs with
  | zero => exact Or.inl rfl
  | succ fuel ih =>
    rw [parseargs]
    simp only [hs.peek hl (a := [bar, rpar, amp, semi]) (by decide)]
    cases ha with
    | nil =>
      rw [List.nil_append]
      rcases hf with rfl | hf
      · -- the line is over
        obtain ⟨hat, htok⟩ := hs.skip hl
        obtain ⟨h1, h2⟩ := gettoken_end hl hat (gettoken_nil hl hat htok)
        rw [starts_nil, if_neg (by decide), if_pos (gettoken_nil hl hat htok)]
        exact yields_pure ⟨rfl, rfl, h2.2, h2.1⟩
      · rw [if_pos hf]
        exact yields_pure ⟨rfl, rfl, hs.skip hl⟩
    | cons hw hr ha =>
      rw [List.cons_append, List.append_assoc] at hs
      obtain ⟨s₁, hg₁, hs₁⟩ := (hs.skip hl).gettoken hl
      rw [List.cons_append, starts_ret hw (by decide), if_neg (by decide)]
      simp only [List.length_cons] at hn
      simp only [hg₁, hw, ne_eq, not_true_eq_false, if_false, if_neg (show ¬ word = 0 by decide),
        if_neg (show ¬ n + 1 ≥ 10 by omega)]
      refine yields_bind (redirs_complete hl hr hs₁ (args_not_starts ha hf (by decide))) ?_
      rintro ⟨rs₁, s₂⟩ ⟨rfl, hs₂⟩
      refine yields_bind (ih ha hs₂ (by omega)) ?_
      rintro ⟨ws₁, rs₂, s₃⟩ ⟨rfl, rfl, hs₃⟩
      exact yields_pure ⟨rfl, rfl, hs₃⟩

theorem back_complete (hl : Line m b es) (ha : Amps us n) (hs : Before m b es (us ++ rest) s)
    (hf : starts [amp] rest = false) :
    Yields (parseback m es fuel c s) fun r => r.1 = backs n c ∧ Before m b es rest r.2 := by
  induction fuel generalizing s n us c with
  | zero => exact Or.inl rfl
  | succ fuel ih =>
    rw [parseback]
    simp only [hs.peek hl (a := [amp]) (by decide)]
    cases ha with
    | nil =>
      rw [List.nil_append, hf, if_pos (by rfl)]
      exact yields_pure ⟨rfl, hs.skip hl⟩
    | cons ht ha =>
      obtain ⟨s₁, hg₁, hs₁⟩ := (hs.skip hl).gettoken hl
      rw [List.cons_append, starts_ret ht (by decide), if_neg (by decide)]
      simp only [hg₁]
      exact ih ha hs₁

/-- What may follow each kind of command. -/
def Level.follow : Level → List UInt8
  | .line => [rpar]
  | .pipe => [rpar, amp, semi]
  | .exec => [bar, rpar, amp, semi]

/-- What a function of the parser returns in front of a command. -/
def Complete (m : Store) (b es : Nat) (f : Nat → Parse (Cmd × Nat)) (lv : Level) : Prop :=
  ∀ {s us rest c}, Derives lv us c → Before m b es (us ++ rest) s → Follow lv.follow rest →
    Yields (f s) fun r => r.1 = c ∧ Before m b es rest r.2

theorem amps_follow (ha : Amps us n) (hf : Follow [rpar, amp, semi] rest) : Follow [rpar, amp, semi] (us ++ rest) := by
  cases ha with
  | nil => exact hf
  | cons ht _ =>
    exact Or.inr (by rw [List.cons_append, starts_ret ht (by decide)]; decide)

theorem line_complete (hl : Line m b es) (hpipe : Complete m b es (parsepipe m es fuel) .pipe)
    (hline : Complete m b es (parseline m es fuel) .line) : Complete m b es (parseline m es (fuel + 1)) .line := by
  intro s us rest c hd hs hf
  rw [parseline]
  cases hd with
  | last hd ha =>
    rw [List.append_assoc] at hs
    refine yields_bind (hpipe hd hs (amps_follow ha (hf.mono (by decide)))) ?_
    rintro ⟨c, s₁⟩ ⟨rfl, hs₁⟩
    refine yields_bind (back_complete hl ha hs₁ (hf.not_starts (by decide))) ?_
    rintro ⟨c, s₂⟩ ⟨rfl, hs₂⟩
    simp only [hs₂.peek hl (a := [semi]) (by decide), hf.not_starts (w := [semi]) (by decide)]
    exact yields_pure ⟨rfl, hs₂.skip hl⟩
  | list hd ha ht hd' =>
    rename_i t ts as us c d n
    have hst : ∀ {a}, starts a (t :: us ++ rest) = a.contains semi := starts_ret ht (by decide)
    have hfollow : Follow [rpar, amp, semi] (t :: us ++ rest) := Or.inr (by rw [hst]; decide)
    have hamp : starts [amp] (t :: us ++ rest) = false := by rw [hst]; decide
    rw [List.append_assoc, List.append_assoc] at hs
    refine yields_bind (hpipe hd hs (amps_follow ha hfollow)) ?_
    rintro ⟨c, s₁⟩ ⟨rfl, hs₁⟩
    refine yields_bind (back_complete hl ha hs₁ hamp) ?_
    rintro ⟨c, s₂⟩ ⟨rfl, hs₂⟩
    obtain ⟨s₃, hg, hs₃⟩ := (hs₂.skip hl).gettoken hl
    simp only [hs₂.peek hl (a := [semi]) (by decide), hg]
    rw [hst, if_neg (by decide)]
    refine yields_bind (hline hd' hs₃ hf) ?_
    rintro ⟨d, s₄⟩ ⟨rfl, hs₄⟩
    exact yields_pure ⟨rfl, hs₄⟩

theorem pipe_complete (hl : Line m b es) (hexec : Complete m b es (parseexec m es fuel) .exec)
    (hpipe : Complete m b es (parsepipe m es fuel) .pipe) : Complete m b es (parsepipe m es (fuel + 1)) .pipe := by
  intro s us rest c hd hs hf
  rw [parsepipe]
  cases hd with
  | single hd =>
    refine yields_bind (hexec hd hs (hf.mono (by decide))) ?_
    rintro ⟨c, s₁⟩ ⟨rfl, hs₁⟩
    simp only [hs₁.peek hl (a := [bar]) (by decide), hf.not_starts (w := [bar]) (by decide)]
    exact yields_pure ⟨rfl, hs₁.skip hl⟩
  | pipe hd ht hd' =>
    rename_i t ts us c d
    have hst : ∀ {a}, starts a (t :: us ++ rest) = a.contains bar := starts_ret ht (by decide)
    have hfollow : Follow [bar, rpar, amp, semi] (t :: us ++ rest) := Or.inr (by rw [hst]; decide)
    rw [List.append_assoc] at hs
    refine yields_bind (hexec hd hs hfollow) ?_
    rintro ⟨c, s₁⟩ ⟨rfl, hs₁⟩
    obtain ⟨s₂, hg, hs₂⟩ := (hs₁.skip hl).gettoken hl
    simp only [hs₁.peek hl (a := [bar]) (by decide), hg]
    rw [hst, if_neg (by decide)]
    refine yields_bind (hpipe hd' hs₂ hf) ?_
    rintro ⟨d, s₃⟩ ⟨rfl, hs₃⟩
    exact yields_pure ⟨rfl, hs₃⟩

/-- What `parseblock` returns in front of a parenthesis. -/
def CompleteBlock (m : Store) (b es : Nat) (f : Nat → Parse (Cmd × Nat)) : Prop :=
  ∀ {s us rest c}, Derives .exec us c → Before m b es (us ++ rest) s → Follow Level.exec.follow rest →
    starts [lpar] (us ++ rest) = true → Yields (f s) fun r => r.1 = c ∧ Before m b es rest r.2

theorem block_complete (hl : Line m b es) (hline : Complete m b es (parseline m es fuel) .line) :
    CompleteBlock m b es (parseblock m es (fuel + 1)) := by
  intro s us rest c hd hs hf hst
  rw [parseblock]
  simp only [hs.peek hl (a := [lpar]) (by decide), hst, Bool.not_true, Bool.false_eq_true, if_false]
  cases hd with
  | simple hr ha hn =>
    -- a simple command does not begin with a parenthesis
    cases hr with
    | nil =>
      rw [List.nil_append, args_not_starts ha hf (by decide)] at hst
      cases hst
    | cons ho _ _ =>
      rw [List.cons_append, List.cons_append, starts_cons] at hst
      simp only [List.mem_cons, List.not_mem_nil, or_false] at ho
      rcases ho with ho | ho <;> rw [ho] at hst <;> cases hst
  | block ho hd he hr =>
    rename_i o e ts us c rs
    obtain ⟨s₁, hg, hs₁⟩ := (hs.skip hl).gettoken hl
    simp only [hg]
    have hst' : ∀ {a}, starts a (e :: us ++ rest) = a.contains rpar := starts_ret he (by decide)
    have hs₁' : Before m b es (ts ++ (e :: us ++ rest)) s₁ := by simpa using hs₁
    refine yields_bind (hline hd hs₁' (Or.inr (by rw [hst']; decide))) ?_
    rintro ⟨c, s₂⟩ ⟨rfl, hs₂⟩
    obtain ⟨s₃, hg₃, hs₃⟩ := (hs₂.skip hl).gettoken hl
    simp only [hs₂.peek hl (a := [rpar]) (by decide), hg₃]
    rw [hst', if_neg (by decide)]
    refine yields_bind (redirs_complete hl hr hs₃ (hf.not_starts (by decide))) ?_
    rintro ⟨rs, s₄⟩ ⟨rfl, hs₄⟩
    exact yields_pure ⟨rfl, hs₄⟩

theorem exec_complete (hl : Line m b es) (hblock : CompleteBlock m b es (parseblock m es fuel)) :
    Complete m b es (parseexec m es (fuel + 1)) .exec := by
  intro s us rest c hd hs hf
  rw [parseexec]
  simp only [hs.peek hl (a := [lpar]) (by decide)]
  split
  · next hst => exact hblock hd (hs.skip hl) hf hst
  · next hst =>
    cases hd with
    | simple hr ha hn =>
      rw [List.append_assoc] at hs
      refine yields_bind (redirs_complete hl hr (hs.skip hl) (args_not_starts ha hf (by decide))) ?_
      rintro ⟨rs, s₁⟩ ⟨rfl, hs₁⟩
      refine yields_bind (args_complete hl ha hs₁ hf (by omega)) ?_
      rintro ⟨ws, rs', s₂⟩ ⟨rfl, rfl, hs₂⟩
      exact yields_pure ⟨rfl, hs₂⟩
    | block ho hd he hr =>
      rw [List.cons_append, starts_ret ho (by decide)] at hst
      exact absurd rfl hst

theorem parse_complete (hl : Line m b es) : ∀ fuel, Complete m b es (parseline m es fuel) .line ∧
    Complete m b es (parsepipe m es fuel) .pipe ∧ Complete m b es (parseexec m es fuel) .exec ∧
    CompleteBlock m b es (parseblock m es fuel)
  | 0 => by
    refine ⟨?_, ?_, ?_, ?_⟩
    · intro s us rest c _ _ _
      rw [parseline]
      exact Or.inl rfl
    · intro s us rest c _ _ _
      rw [parsepipe]
      exact Or.inl rfl
    · intro s us rest c _ _ _
      rw [parseexec]
      exact Or.inl rfl
    · intro s us rest c _ _ _ _
      rw [parseblock]
      exact Or.inl rfl
  | fuel + 1 => by
    obtain ⟨h1, h2, h3, h4⟩ := parse_complete hl fuel
    exact ⟨line_complete hl h2 h1, pipe_complete hl h3 h2, exec_complete hl h4, block_complete hl h1⟩

/-! ## The parser and the grammar -/

/-- With fuel for the length of the line the parser accepts exactly the language of the grammar and
returns the tree that the grammar gives. On every other line it panics. -/
theorem parsecmd_iff (hl : Line m b es) (hf : 4 * (es - b) + 4 ≤ fuel) :
    (∀ c m', parsecmd m fuel b es = .ok (c, m') ↔ Derives .line (tokens m es b) c ∧ m' = nulterminate m c) ∧
      parsecmd m fuel b es ≠ .error .fuel := by
  have hb : At b es b := ⟨le_rfl, hl.le⟩
  have hlen := tokens_length hl hb
  have hret : Returns (parseline m es fuel b) := (parse_returns hl fuel).1 hb (by omega)
  have hpeek : ∀ s, ∃ x, peek m es s [] = (x, skipSpace m es s) := fun s => ⟨_, rfl⟩
  refine ⟨fun c m' => ⟨fun h => ?_, ?_⟩, ?_⟩
  · unfold parsecmd at h
    obtain ⟨⟨c₁, s₁⟩, h1, h⟩ := bind_ok.1 h
    obtain ⟨ts, htok, hd, hat⟩ := (parse_sound hl fuel).1 hb h1
    obtain ⟨x, hx⟩ := hpeek s₁
    simp only [hx] at h
    split at h
    · cases h
    · next hs =>
      cases h
      rw [(tokens_nil_iff hl hat).2 (not_not.1 hs), List.append_nil] at htok
      exact ⟨htok ▸ hd, rfl⟩
  · rintro ⟨hd, rfl⟩
    have hs : Before m b es (tokens m es b ++ []) b := ⟨hb, by simp⟩
    rcases (parse_complete hl fuel).1 hd hs (Or.inl rfl) with h | ⟨⟨c₁, s₁⟩, h, rfl, hat, htok⟩
    · exact absurd h hret
    · rw [parsecmd, h]
      have hes := (tokens_nil_iff hl hat).1 htok
      obtain ⟨x, hx⟩ := hpeek s₁
      simp only [bind, Except.bind, hx, hes, ne_eq, not_true_eq_false, if_false]
      rfl
  · unfold parsecmd
    refine returns_bind hret fun ⟨c₁, s₁⟩ h1 => ?_
    obtain ⟨x, hx⟩ := hpeek s₁
    simp only [hx]
    split
    · exact fun h => (by cases h)
    · exact returns_pure

/-- The line `a >f|(b;c&)`. -/
def sample : Store := fun x => [97, 32, gt, 102, bar, lpar, 98, semi, 99, amp, rpar].getD x 0

theorem sample_line : Line sample 0 11 := by
  refine ⟨by decide, by decide, fun i _ hi => ?_⟩
  interval_cases i <;> decide

theorem parsecmd_iff_sample : Derives .line (tokens sample 11 0)
    (.pipe (.redir (.exec [(0, 1)]) (3, 4) .write) (.list (.exec [(6, 7)]) (.back (.exec [(8, 9)])))) :=
  (((parsecmd_iff sample_line (by decide : 4 * (11 - 0) + 4 ≤ 48)).1 _ _).1 rfl).1

end TinyOS.Shell
