/-
The words of a command of the shell: where they stand in the line, and that they are strings once
`parsecmd` of user/src/phase6/sh.c has returned.
-/
import TinyOS.Lib.Cstr
import TinyOS.User.Grammar

namespace TinyOS.Shell

open TinyOS.Lib

variable {m : Store} {b es n fuel : Nat} {rs : List ((Nat × Nat) × Mode)} {ws : List (Nat × Nat)}
  {c : Cmd} {ts : List Token}

namespace Cmd

/-- The pointers to the words and to their ends. -/
def words : Cmd → List (Nat × Nat)
  | .exec argv => argv
  | .redir cmd file _ => cmd.words ++ [file]
  | .pipe left right => left.words ++ right.words
  | .list left right => left.words ++ right.words
  | .back cmd => cmd.words

end Cmd

theorem mem_wrap {w : Nat × Nat} : w ∈ (wrap c rs).words ↔ w ∈ c.words ∨ ∃ r ∈ rs, w = r.1 := by
  induction rs generalizing c with
  | nil => simp [wrap]
  | cons r rs ih =>
    rw [wrap, List.foldl_cons, ← wrap, ih]
    simp only [Cmd.words, List.mem_append, List.mem_singleton, List.exists_mem_cons_iff, or_assoc]

theorem words_backs : (backs n c).words = c.words := by
  induction n generalizing c with
  | zero => rfl
  | succ n ih => rw [backs, ih, Cmd.words]

theorem Redirs.words (h : Redirs ts rs) : ∀ r ∈ rs, ∃ t ∈ ts, t.ret = word ∧ r.1 = (t.q, t.eq) := by
  induction h with
  | nil => simp
  | cons _ hw _ ih =>
    rintro r (- | ⟨_, hr⟩)
    · exact ⟨_, by simp, hw, rfl⟩
    · obtain ⟨t, ht, h⟩ := ih r hr
      exact ⟨t, by simp [ht], h⟩

theorem Args.words (h : Args ts ws rs) : (∀ w ∈ ws, ∃ t ∈ ts, t.ret = word ∧ w = (t.q, t.eq)) ∧
    ∀ r ∈ rs, ∃ t ∈ ts, t.ret = word ∧ r.1 = (t.q, t.eq) := by
  induction h with
  | nil => simp
  | cons hw hr _ ih =>
    constructor
    · rintro w (- | ⟨_, h⟩)
      · exact ⟨_, by simp, hw, rfl⟩
      · obtain ⟨t, ht, h⟩ := ih.1 w h
        exact ⟨t, by simp [ht], h⟩
    · intro r hm
      rcases List.mem_append.1 hm with hm | hm
      · obtain ⟨t, ht, h⟩ := hr.words r hm
        exact ⟨t, by simp [ht], h⟩
      · obtain ⟨t, ht, h⟩ := ih.2 r hm
        exact ⟨t, by simp [ht], h⟩

/-- The words of a command are words of the line. -/
theorem Derives.words {lv : Level} (h : Derives lv ts c) : ∀ w ∈ c.words, ∃ t ∈ ts, t.ret = word ∧ w = (t.q, t.eq) := by
  induction h with
  | simple hr ha _ =>
    intro w hw
    rcases mem_wrap.1 hw with hw | ⟨r, hm, rfl⟩
    · obtain ⟨t, ht, h⟩ := ha.words.1 w hw
      exact ⟨t, by simp [ht], h⟩
    · rcases List.mem_append.1 hm with hm | hm
      · obtain ⟨t, ht, h⟩ := hr.words r hm
        exact ⟨t, by simp [ht], h⟩
      · obtain ⟨t, ht, h⟩ := ha.words.2 r hm
        exact ⟨t, by simp [ht], h⟩
  | block _ _ _ hr ih =>
    intro w hw
    rcases mem_wrap.1 hw with hw | ⟨r, hm, rfl⟩
    · obtain ⟨t, ht, h⟩ := ih w hw
      exact ⟨t, by simp [ht], h⟩
    · obtain ⟨t, ht, h⟩ := hr.words r hm
      exact ⟨t, by simp [ht], h⟩
  | single _ ih => exact ih
  | pipe _ _ _ ih ih' =>
    intro w hw
    rcases List.mem_append.1 hw with hw | hw
    · obtain ⟨t, ht, h⟩ := ih w hw
      exact ⟨t, by simp [ht], h⟩
    · obtain ⟨t, ht, h⟩ := ih' w hw
      exact ⟨t, by simp [ht], h⟩
  | last _ _ ih =>
    intro w hw
    rw [words_backs] at hw
    obtain ⟨t, ht, h⟩ := ih w hw
    exact ⟨t, by simp [ht], h⟩
  | list _ _ _ _ ih ih' =>
    intro w hw
    rw [Cmd.words, words_backs] at hw
    rcases List.mem_append.1 hw with hw | hw
    · obtain ⟨t, ht, h⟩ := ih w hw
      exact ⟨t, by simp [ht], h⟩
    · obtain ⟨t, ht, h⟩ := ih' w hw
      exact ⟨t, by simp [ht], h⟩

theorem write_nul {x : Nat} : m.write n [0] x = if x = n then 0 else m x := by
  split
  · next h => rw [h, Store.write_in le_rfl (by simp)]; simp
  · next h => exact Store.write_out (by simp; omega)

theorem ite_or_append {x : Nat} {v w : UInt8} {us vs : List Nat} :
    (if x ∈ vs then w else if x ∈ us then w else v) = if x ∈ us ++ vs then w else v := by
  by_cases h1 : x ∈ vs <;> by_cases h2 : x ∈ us <;> simp [h1, h2]

/-- `nulterminate` writes a NUL to the end of each word, and nothing else. -/
theorem nulterminate_apply {x : Nat} : nulterminate m c x = if x ∈ c.words.map Prod.snd then 0 else m x := by
  induction c generalizing m with
  | exec argv =>
    rw [nulterminate, Cmd.words]
    induction argv generalizing m with
    | nil => simp
    | cons w argv ih =>
      rw [List.foldl_cons, ih, write_nul, List.map_cons]
      by_cases hx : x = w.2 <;> simp only [hx, List.mem_cons, true_or, false_or, if_true, if_false, ite_self]
  | redir c f _ ih =>
    rw [nulterminate, write_nul, ih, Cmd.words, List.map_append, ← ite_or_append]
    simp only [List.map_cons, List.map_nil, List.mem_singleton]
  | pipe l r ih ih' => rw [nulterminate, ih', ih, Cmd.words, List.map_append]; exact ite_or_append
  | list l r ih ih' => rw [nulterminate, ih', ih, Cmd.words, List.map_append]; exact ite_or_append
  | back c ih => rw [nulterminate, ih, Cmd.words]

/-- After `parsecmd` each word that the command points to is a string: the word as it stood in the line,
without blanks and symbols, with its NUL at the pointer to the end. The rest of memory is as before. -/
theorem words_terminated {m' : Store} (hl : Line m b es) (h : parsecmd m fuel b es = .ok (c, m')) :
    (∀ w ∈ c.words, ∃ text, text ≠ [] ∧ (∀ x ∈ text, wordChar x = true) ∧ m.read w.1 text.length = text ∧
      b ≤ w.1 ∧ w.1 + text.length = w.2 ∧ w.2 ≤ es ∧ Str m' w.1 text) ∧
    ∀ x, x < b ∨ es < x → m' x = m x := by
  have hb : At b es b := ⟨le_rfl, hl.le⟩
  have hwords : m' = nulterminate m c ∧ ∀ w ∈ c.words, ∃ t : Token, (t.Ok m es ∧ b ≤ t.q) ∧ t.ret = word ∧
      w = (t.q, t.eq) := by
    unfold parsecmd at h
    obtain ⟨⟨c₁, s₁⟩, h1, h⟩ := bind_ok.1 h
    obtain ⟨ts, htok, hd, hat⟩ := (parse_sound hl fuel).1 hb h1
    obtain ⟨x, hx⟩ : ∃ x, peek m es s₁ [] = (x, skipSpace m es s₁) := ⟨_, rfl⟩
    simp only [hx] at h
    split at h
    · cases h
    · cases h
      refine ⟨rfl, fun w hw => ?_⟩
      obtain ⟨t, ht, hr, hw⟩ := hd.words w hw
      exact ⟨t, tokens_ok hl hb (htok ▸ List.mem_append_left _ ht), hr, hw⟩
  obtain ⟨rfl, hwords⟩ := hwords
  -- no word contains the end of another one
  have hend : ∀ x, x ∈ c.words.map Prod.snd → b ≤ x ∧ x ≤ es ∧ wordChar (m x) = false := by
    intro x hx
    obtain ⟨w, hw, rfl⟩ := List.mem_map.1 hx
    obtain ⟨t, ⟨hok, hq⟩, hr, rfl⟩ := hwords w hw
    have hlt := hok.lt
    refine ⟨by simp only; omega, hok.le, ?_⟩
    rw [← Bool.not_eq_true, wordChar_iff]
    have := hok.stop hr
    tauto
  constructor
  · intro w hw
    obtain ⟨t, ⟨hok, hq⟩, hr, rfl⟩ := hwords w hw
    have hlt := hok.lt
    have hlen : t.q + (m.read t.q (t.eq - t.q)).length = t.eq := by
      simp
      omega
    have hchar : ∀ x ∈ m.read t.q (t.eq - t.q), wordChar x = true := by
      intro x hx
      obtain ⟨i, hi, rfl⟩ := List.mem_map.1 hx
      rw [List.mem_range] at hi
      exact wordChar_iff.2 (hok.chars hr _ (by omega) (by omega))
    refine ⟨m.read t.q (t.eq - t.q), fun hn => ?_, hchar, by simp, hq, hlen, hok.le, ?_, ?_, ?_⟩
    · rw [hn] at hlen
      simp at hlen
      omega
    · rw [Store.read_length]
      refine Store.read_congr fun i hi => ?_
      rw [nulterminate_apply, if_neg]
      intro hmem
      have h1 := wordChar_iff.2 (hok.chars hr (t.q + i) (by omega) (by omega))
      rw [(hend _ hmem).2.2] at h1
      cases h1
    · rw [hlen, nulterminate_apply, if_pos (List.mem_map_of_mem (f := Prod.snd) hw)]
    · intro h0
      exact absurd (wordChar_iff.1 (hchar 0 h0)).2.2 (by simp)
  · intro x hx
    rw [nulterminate_apply, if_neg]
    intro hmem
    obtain ⟨h1, h2, -⟩ := hend x hmem
    omega

theorem words_terminated_sample : ∃ m', Str m' 3 [102] ∧ parsecmd sample 48 0 11 = .ok
    (.pipe (.redir (.exec [(0, 1)]) (3, 4) .write) (.list (.exec [(6, 7)]) (.back (.exec [(8, 9)]))), m') := by
  have h : parsecmd sample 48 0 11 = .ok
    (.pipe (.redir (.exec [(0, 1)]) (3, 4) .write) (.list (.exec [(6, 7)]) (.back (.exec [(8, 9)]))), _) := rfl
  obtain ⟨text, -, -, hread, -, hlen, -, hstr⟩ := (words_terminated sample_line h).1 (3, 4) (by decide)
  have h1 : text.length = 1 := by
    simp only at hlen
    omega
  rw [h1] at hread
  rw [← hread] at hstr
  exact ⟨_, hstr, h⟩

end TinyOS.Shell
