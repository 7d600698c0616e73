/-
`strtok` (lib/src/string/strtok.c) on memory, with the cursor that it keeps between calls.
-/
import TinyOS.Lib.Cstr
import TinyOS.Lib.Runs

namespace TinyOS.Strtok

open TinyOS.Lib

/-- The memory, and strtok's static `lasts` (`none` is NULL). -/
structure St where
  mem : Store
  lasts : Option Nat

/-- The token and the state afterwards; the outer `none` is a loop that leaves the memory there is (`fuel` bytes). -/
def strtok (fuel : Nat) (s : Option Nat) (delim : List UInt8) (σ : St) : Option (Option Nat × St) :=
  match s <|> σ.lasts with
  | none => some (none, σ)
  | some s => do
    let tok ← scan σ.mem (· ∈ delim) fuel s
    if σ.mem tok = 0 then return (none, { σ with lasts := none })
    let e ← scan σ.mem (fun c => c ∉ delim ∧ c ≠ 0) fuel (tok + 1)
    if σ.mem e = 0 then return (some tok, { σ with lasts := none })
    return (some tok, ⟨σ.mem.write e [0], some (e + 1)⟩)

/-- The state behind a token that ends at `e`: with `post` there, its separator becomes a NUL. -/
def St.cut (σ : St) (e : Nat) : (post : List UInt8) → St
  | [] => { σ with lasts := none }
  | _ :: _ => ⟨σ.mem.write e [0], some (e + 1)⟩

/-- `strtok(NULL, …)` goes on with the string `t`, which lies behind `b` and ends at `e`. -/
def St.At (σ : St) (t : List UInt8) (b e : Nat) : Prop :=
  (σ.lasts = none ∧ t = []) ∨ ∃ a, σ.lasts = some a ∧ b ≤ a ∧ a + t.length = e ∧ Str σ.mem a t

variable {σ : St} {q : Option Nat} {fuel a b e x : Nat} {delim s t pre w post : List UInt8}

theorem strtok_null (h : σ.lasts = none) : strtok fuel none delim σ = some (none, σ) := by
  unfold strtok
  rw [h]
  rfl

/-- A string of separators only. -/
theorem strtok_sep (hq : (q <|> σ.lasts) = some a) (h : Str σ.mem a s) (h0 : 0 ∉ delim) (hf : s.length < fuel)
    (hs : ∀ c ∈ s, c ∈ delim) : strtok fuel q delim σ = some (none, { σ with lasts := none }) := by
  have htok : scan σ.mem (fun c => decide (c ∈ delim)) fuel a = some (a + s.length) := by
    refine scan_iff.2 ⟨by omega, by omega, by simpa [h.nul] using h0, fun i h1 h2 => ?_⟩
    obtain ⟨j, rfl⟩ := Nat.exists_eq_add_of_le h1
    rw [h.get (by omega)]
    exact decide_eq_true (hs _ (List.getElem_mem _))
  unfold strtok
  rw [hq]
  simp only [htok, Option.bind_eq_bind, Option.bind_some, h.nul, if_true, Option.pure_def]

/-- The first token. -/
theorem strtok_cut (hq : (q <|> σ.lasts) = some a) (h : Str σ.mem a s) (hf : s.length < fuel)
    (hc : Cut (fun c => decide (c ∈ delim)) s pre w post) :
    strtok fuel q delim σ = some (some (a + pre.length), σ.cut (a + pre.length + w.length) post) := by
  have hlen := congrArg List.length hc.eq
  rw [List.length_append, List.length_append] at hlen
  have hw := List.length_pos_iff.2 hc.ne
  have hpre : ∀ i < pre.length, ∃ c ∈ pre, σ.mem (a + i) = c := fun i hi =>
    ⟨pre[i], List.getElem_mem _, by
      rw [h.get (by omega)]
      simp only [hc.eq, List.getElem_append_left hi]⟩
  have hrun : ∀ i < w.length, ∃ c ∈ w, σ.mem (a + pre.length + i) = c := fun i hi =>
    ⟨w[i], List.getElem_mem _, by
      rw [Nat.add_assoc, h.get (by omega)]
      simp only [hc.eq, List.getElem_append_right (Nat.le_add_right _ _), Nat.add_sub_cancel_left,
        List.getElem_append_left hi]⟩
  have hnz : ∀ c ∈ w, c ≠ 0 := fun c hm h' => h.mem (by
    rw [hc.eq, ← h']
    simp [hm])
  have hend : σ.mem (a + pre.length + w.length) = post.headD 0 := by
    rw [Nat.add_assoc, h.byte (by omega), hc.eq, ← List.append_assoc, ← List.length_append, List.drop_left]
  -- the first loop skips the separators before the word
  have htok : scan σ.mem (fun c => decide (c ∈ delim)) fuel a = some (a + pre.length) := by
    refine scan_iff.2 ⟨by omega, by omega, ?_, fun i h1 h2 => ?_⟩
    · obtain ⟨c, hm, he⟩ := hrun 0 hw
      rw [Nat.add_zero] at he
      rw [he]
      exact hc.run c hm
    · obtain ⟨j, rfl⟩ := Nat.exists_eq_add_of_le h1
      obtain ⟨c, hm, he⟩ := hpre j (by omega)
      rw [he]
      exact hc.pre c hm
  have hstart : ¬σ.mem (a + pre.length) = 0 := by
    obtain ⟨c, hm, he⟩ := hrun 0 hw
    rw [Nat.add_zero] at he
    rw [he]
    exact hnz c hm
  -- the second loop ends at a separator or at the end of the string
  have hstop : scan σ.mem (fun c => decide (c ∉ delim ∧ c ≠ 0)) fuel (a + pre.length + 1) =
      some (a + pre.length + w.length) := by
    refine scan_iff.2 ⟨by omega, by omega, ?_, fun i h1 h2 => ?_⟩
    · rw [hend]
      cases post with
      | nil => simp
      | cons c post => simpa using fun hn => absurd (hc.post c rfl) (by simpa using hn)
    · obtain ⟨j, rfl⟩ := Nat.exists_eq_add_of_le h1
      obtain ⟨c, hm, he⟩ := hrun (1 + j) (by omega)
      rw [Nat.add_assoc _ 1 j, he]
      have := hc.run c hm
      simp only [decide_eq_false_iff_not] at this
      exact decide_eq_true ⟨this, hnz c hm⟩
  unfold strtok
  rw [hq]
  simp only [htok, Option.bind_eq_bind, Option.bind_some, if_neg hstart, hstop, hend]
  -- at the end of the string nothing is kept for the next call
  cases post with
  | nil => rfl
  | cons c post =>
    have hc0 : c ≠ 0 := fun h' => h.mem (by
      rw [hc.eq, ← h']
      simp)
    rw [List.headD_cons, if_neg hc0]
    rfl

/-! ## What a token leaves -/

/-- Only the separator behind the token changes. -/
theorem cut_mem (hx : x < e ∨ e < x ∨ post = []) : (σ.cut e post).mem x = σ.mem x := by
  cases post with
  | nil => rfl
  | cons c post =>
    refine Store.write_out ?_
    rw [List.length_singleton]
    rcases hx with hx | hx | hx
    · exact Or.inl hx
    · exact Or.inr hx
    · cases hx

variable {p : UInt8 → Bool}

/-- The start of the string now ends with the token. -/
theorem cut_start (h : Str σ.mem a s) (hc : Cut p s pre w post) :
    Str (σ.cut (a + pre.length + w.length) post).mem a (pre ++ w) where
  read := by
    rw [Store.read_congr fun i hi => cut_mem (Or.inl (by rw [List.length_append] at hi; omega))]
    have hr := h.read
    rw [hc.eq, ← List.append_assoc, List.length_append, Store.read_append] at hr
    exact (List.append_inj hr (by rw [Store.read_length])).1
  nul := by
    rw [List.length_append, ← Nat.add_assoc]
    cases post with
    | nil =>
      have hn := h.nul
      rw [hc.eq, List.append_nil, List.length_append, ← Nat.add_assoc] at hn
      exact hn
    | cons c post =>
      exact Store.write_add (i := 0) (by decide)
  mem hm := h.mem (by
    rw [hc.eq, ← List.append_assoc]
    exact List.mem_append_left _ hm)

theorem cut_token (h : Str σ.mem a s) (hc : Cut p s pre w post) :
    Str (σ.cut (a + pre.length + w.length) post).mem (a + pre.length) w := by
  have hd := (cut_start h hc).drop (k := pre.length) (by simp)
  rwa [List.drop_left] at hd

/-- The cursor stands behind the token. -/
theorem cut_at (h : Str σ.mem a s) (hc : Cut p s pre w post) :
    (σ.cut (a + pre.length + w.length) post).At post.tail (a + pre.length + w.length + 1) (a + s.length) := by
  have hlen := congrArg List.length hc.eq
  rw [List.length_append, List.length_append] at hlen
  cases post with
  | nil => exact Or.inl ⟨rfl, rfl⟩
  | cons c post =>
    rw [List.length_cons] at hlen
    refine Or.inr ⟨_, rfl, le_refl _, by rw [List.tail_cons]; omega, ?_⟩
    have hd := h.drop (k := pre.length + w.length + 1) (by omega)
    have he : s.drop (pre.length + w.length + 1) = post := by
      rw [hc.eq, ← List.append_assoc, ← List.length_append, ← List.drop_drop, List.drop_left]
      rfl
    rw [he, ← Nat.add_assoc, ← Nat.add_assoc] at hd
    exact hd.congr fun i _ => cut_mem (Or.inr (Or.inl (by omega)))

end TinyOS.Strtok
