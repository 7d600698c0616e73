/-
`skipelem` on memory: the loops over the path, and the buffer of 28 bytes that gets the name. Called
again on each remainder it enumerates the names of the path.
-/
import TinyOS.Lib.Cstr
import TinyOS.Fs.Path

namespace TinyOS.Fs

open TinyOS.Lib

variable {m m' : Store} {path name fuel calls k : Nat} {s nm rest : List UInt8}

namespace Ptr

/-- `skipelem(path, name)`: the result, `none` for NULL, and the memory afterwards. The outer `none` is a
loop that runs out of `fuel`. -/
def skipelem (fuel : Nat) (m : Store) (path name : Nat) : Option (Option Nat × Store) := do
  let path ← scan m (fun c => c = slash) fuel path
  if m path = 0 then return (none, m)
  let s := path
  let path ← scan m (fun c => c ≠ slash ∧ c ≠ 0) fuel path
  let len := path - s
  let m :=
    if len ≥ maxName then (m.write name (m.read s maxName)).write (name + maxName) [0]
    else (m.write name (m.read s len)).write (name + len) [0]
  let path ← scan m (fun c => c = slash) fuel path
  return (some path, m)

/-- `while ((path = skipelem(path, name)))`: the contents of `name` and the remainders, call by call. -/
def elements (fuel : Nat) : (calls : Nat) → (m : Store) → (path name : Nat) → Option (List (List UInt8 × Nat) × Store)
  | 0, _, _, _ => none
  | calls + 1, m, path, name => do
    match ← skipelem fuel m path name with
    | (none, m) => return ([], m)
    | (some path, m) =>
      let (l, m') ← elements fuel calls m path name
      return ((m.read name (maxName + 1), path) :: l, m')

end Ptr

/-- The buffer of the name is no part of the path. -/
def Apart (path : Nat) (s : List UInt8) (name : Nat) : Prop := path + s.length < name ∨ name + (maxName + 1) ≤ path

theorem Apart.drop (h : Apart path s name) (hk : k ≤ s.length) : Apart (path + k) (s.drop k) name := by
  unfold Apart at h ⊢
  rw [List.length_drop]
  omega

/-- On memory `skipelem` does what it does on the string. -/
theorem Ptr.skipelem_eq (h : Str m path s) (hd : Apart path s name) (hf : s.length < fuel) :
    Ptr.skipelem fuel m path name = match Fs.skipelem s with
      | none => some (none, m)
      | some (nm, rest) => some (some (path + (s.length - rest.length)), m.write name (nm ++ [0])) := by
  unfold Ptr.skipelem Fs.skipelem
  have h₁ := h.rest fun c => decide (c = slash)
  rw [h.scan (by decide) hf]
  have hsum := congrArg List.length (List.takeWhile_append_dropWhile (p := fun c => decide (c = slash)) (l := s))
  rw [List.length_append] at hsum
  simp only [Option.bind_eq_bind, Option.bind_some, h₁.head]
  set s₁ := s.dropWhile fun c => decide (c = slash) with hs₁
  by_cases hend : s₁.headD 0 = 0
  · rw [if_pos hend, if_pos hend]
    rfl
  rw [if_neg hend, if_neg hend]
  have h₂ := h₁.rest fun c => decide (c ≠ slash ∧ c ≠ 0)
  have hsum₁ := congrArg List.length
    (List.takeWhile_append_dropWhile (p := fun c => decide (c ≠ slash ∧ c ≠ 0)) (l := s₁))
  rw [List.length_append] at hsum₁
  rw [h₁.scan (by decide) (by omega)]
  simp only [Option.bind_some, Nat.add_sub_cancel_left]
  set a := path + (s.takeWhile fun c => decide (c = slash)).length with ha
  set e := s₁.takeWhile fun c => decide (c ≠ slash ∧ c ≠ 0) with he
  set s₂ := s₁.dropWhile fun c => decide (c ≠ slash ∧ c ≠ 0) with hs₂
  -- the name is stored with its NUL, in the buffer
  have hread : ∀ n ≤ e.length, m.read a n = e.take n := fun n hn => by
    have hall : m.read a e.length = e := by
      have := Store.read_drop_take (m := m) (a := a) (o := 0) (k := e.length) (n := s₁.length) (by omega)
      rw [h₁.read] at this
      rw [Nat.add_zero] at this
      rw [← this]
      exact (List.prefix_iff_eq_take.1 (List.takeWhile_prefix _)).symm
    have := Store.read_drop_take (m := m) (a := a) (o := 0) (k := n) (n := e.length) (by omega)
    rw [hall, Nat.add_zero] at this
    exact this.symm
  have hname : (if e.length ≥ maxName then (m.write name (m.read a maxName)).write (name + maxName) [0]
      else (m.write name (m.read a e.length)).write (name + e.length) [0]) =
      m.write name ((if e.length ≥ maxName then e.take maxName else e) ++ [0]) := by
    split
    · next hlen =>
      rw [hread _ hlen, Store.write_append, List.length_take, Nat.min_eq_left hlen]
    · rw [hread _ (le_refl _), List.take_length, Store.write_append]
  have hlen : ((if e.length ≥ maxName then e.take maxName else e) ++ [0]).length ≤ maxName + 1 := by
    split
    · rw [List.length_append, List.length_take]
      simp
    · next hlt =>
      rw [List.length_append, List.length_singleton]
      omega
  rw [hname]
  have h₃ : Str (m.write name ((if e.length ≥ maxName then e.take maxName else e) ++ [0])) (a + e.length) s₂ :=
    h₂.write (by unfold Apart at hd; omega)
  rw [h₃.scan (by decide) (by omega)]
  have hsum₂ := congrArg List.length (List.takeWhile_append_dropWhile (p := fun c => decide (c = slash)) (l := s₂))
  rw [List.length_append] at hsum₂
  simp only [Option.bind_some, Option.pure_def]
  rw [show a + e.length + (s₂.takeWhile fun c => decide (c = slash)).length =
    path + (s.length - (s₂.dropWhile fun c => decide (c = slash)).length) by omega]

/-- The remainder is a part of the path. -/
theorem skipelem_rest (h : skipelem s = some (nm, rest)) : ∃ k ≤ s.length, rest = s.drop k := by
  unfold skipelem at h
  simp only at h
  split at h
  · cases h
  · cases h
    set s₁ := s.dropWhile fun c => decide (c = slash)
    set s₂ := s₁.dropWhile fun c => decide (c ≠ slash ∧ c ≠ 0)
    have hsuf : s₂.dropWhile (fun c => decide (c = slash)) <:+ s :=
      (List.dropWhile_suffix _).trans ((List.dropWhile_suffix _).trans (List.dropWhile_suffix _))
    exact ⟨s.length - (s₂.dropWhile fun c => decide (c = slash)).length, Nat.sub_le _ _, List.suffix_iff_eq_drop.1 hsuf⟩

/-- The content of the buffer after a call. -/
theorem read_name (name : Nat) (h : Elem nm) :
    ((m.write name (nm ++ [0])).read name (maxName + 1)).length = maxName + 1 ∧
    (0 : UInt8) ∈ (m.write name (nm ++ [0])).read name (maxName + 1) ∧
    cstr ((m.write name (nm ++ [0])).read name (maxName + 1)) = nm := by
  have hlen : nm.length < maxName + 1 := h.len
  have hsplit : (m.write name (nm ++ [0])).read name (maxName + 1) =
      (nm ++ [0]) ++ (m.write name (nm ++ [0])).read (name + (nm ++ [0]).length)
          (maxName + 1 - (nm ++ [0]).length) := by
    have := Store.read_append (m := m.write name (nm ++ [0])) (a := name) (n := (nm ++ [0]).length)
      (maxName + 1 - (nm ++ [0]).length)
    rw [Store.read_write_self, Nat.add_sub_cancel' (by simp; omega)] at this
    exact this
  refine ⟨Store.read_length, ?_, ?_⟩
  · rw [hsplit]
    simp
  · rw [hsplit, List.append_assoc]
    unfold cstr
    rw [List.takeWhile_append_of_pos fun y hy => ?_]
    · exact List.append_nil _
    · rw [← h.cstr] at hy
      exact List.mem_takeWhile_imp (p := fun y => decide (y ≠ 0)) hy

/-- Call by call: the names, in a terminated buffer, and remainders that are empty behind the last of them. -/
theorem elements_names : ∀ {calls : Nat} {m : Store} {path : Nat} {s : List UInt8}, Str m path s → Apart path s name →
    s.length < fuel → s.length < calls → ∃ l m', Ptr.elements fuel calls m path name = some (l, m') ∧
      l.map (fun e => cstr e.1) = names s ∧ (∀ e ∈ l, e.1.length = maxName + 1 ∧ 0 ∈ e.1) ∧
      ∀ i e, l[i]? = some e → ∃ k ≤ s.length, e.2 = path + k ∧ m e.2 ≠ slash ∧ (m e.2 = 0 ↔ i + 1 = l.length)
  | 0, _, _, _, _, _, _, hc => absurd hc (Nat.not_lt_zero _)
  | calls + 1, m, path, s, h, hd, hf, hc => by
    have heq := Ptr.skipelem_eq h hd hf
    unfold Ptr.elements
    cases hs : skipelem s with
    | none =>
      rw [hs] at heq
      rw [heq]
      exact ⟨[], m, rfl, by rw [names_skipelem, hs]; rfl, by simp, by simp⟩
    | some r =>
      obtain ⟨nm, rest⟩ := r
      obtain ⟨helem, hshort⟩ := skipelem_some hs
      obtain ⟨k, hk, hrest⟩ := skipelem_rest hs
      have hfirst := skipelem_head hs
      rw [hs] at heq
      have hkl : s.length - rest.length = k := by
        rw [hrest, List.length_drop]
        omega
      simp only [hkl] at heq
      rw [heq]
      have hlen : nm.length < maxName + 1 := helem.len
      have hd' : Apart (path + k) rest name := hrest ▸ hd.drop hk
      have hold : ∀ i ≤ s.length, m.write name (nm ++ [0]) (path + i) = m (path + i) := fun i hi =>
        Store.write_out (by unfold Apart at hd; rw [List.length_append, List.length_singleton]; omega)
      have h' : Str (m.write name (nm ++ [0])) (path + k) rest := hrest ▸ (h.congr hold).drop hk
      obtain ⟨l, m', hl, hnames, hbufs, hpos⟩ := elements_names h' hd' (by omega) (show rest.length < calls by omega)
      obtain ⟨hb1, hb2, hb3⟩ := read_name (m := m) name helem
      refine ⟨_, m', by simp only [Option.bind_eq_bind, Option.bind_some, hl]; rfl, ?_, ?_, ?_⟩
      · rw [List.map_cons, hb3, hnames, names_rest hs]
      · intro e he
        rcases List.mem_cons.1 he with rfl | he
        · exact ⟨hb1, hb2⟩
        · exact hbufs e he
      · intro i e he
        have hkrest : k + rest.length = s.length := by omega
        cases i with
        | zero =>
          -- the remainder after the first name: empty exactly when no name follows
          rw [List.getElem?_cons_zero] at he
          cases he
          have hm : m (path + k) = rest.headD 0 := by rw [← hold k hk]; exact h'.head
          refine ⟨k, hk, rfl, by rw [hm]; exact hfirst, ?_⟩
          rw [hm, ← names_rest_nil hs, ← hnames, List.map_eq_nil_iff, List.length_cons]
          constructor
          · rintro rfl
            rfl
          · intro hc
            exact List.length_eq_zero_iff.1 (by omega)
        | succ i =>
          rw [List.getElem?_cons_succ] at he
          obtain ⟨j, hj, hej, hne, hend⟩ := hpos i e he
          have hm : m e.2 = m.write name (nm ++ [0]) e.2 := by
            rw [hej, Nat.add_assoc]
            exact (hold (k + j) (by omega)).symm
          refine ⟨k + j, by omega, by rw [hej, Nat.add_assoc], by rw [hm]; exact hne, ?_⟩
          rw [hm, hend, List.length_cons]
          omega

/-- Applied again to each remainder, `skipelem` yields the names of the path in order, each with its NUL in
the buffer, and ends. It returns NULL when there is no name, and an empty remainder with the last one. -/
theorem skipelem_enumerates (h : Str m path s) (hd : Apart path s name) (hf : s.length < fuel) :
    ((∃ m', Ptr.skipelem fuel m path name = some (none, m')) ↔ names s = []) ∧
      ∃ l m', Ptr.elements fuel fuel m path name = some (l, m') ∧ l.map (fun e => cstr e.1) = names s ∧
        (∀ e ∈ l, e.1.length = maxName + 1 ∧ 0 ∈ e.1) ∧
        ∀ i e, l[i]? = some e → ∃ k ≤ s.length, e.2 = path + k ∧ m e.2 ≠ slash ∧ (m e.2 = 0 ↔ i + 1 = l.length) := by
  refine ⟨?_, elements_names h hd hf hf⟩
  rw [Ptr.skipelem_eq h hd hf, names_skipelem]
  cases hs : skipelem s with
  | none => exact ⟨fun _ => rfl, fun _ => ⟨m, rfl⟩⟩
  | some r => exact ⟨fun ⟨m', he⟩ => by simp at he, fun he => by cases he⟩

/-- `"a//bb/"` and its names. -/
theorem skipelem_enumerates_demo : ∃ m l m', Ptr.elements 7 7 m 100 0 = some (l, m') ∧
    l.map (fun e => cstr e.1) = [[97], [98, 98]] := by
  have hs : Str (Store.write (fun _ => 0) 100 ([97, 47, 47, 98, 98, 47] ++ [0])) 100 [97, 47, 47, 98, 98, 47] :=
    Str.of_write (by decide)
  have hd : Apart 100 [97, 47, 47, 98, 98, 47] 0 := Or.inr (by decide)
  have hf : ([97, 47, 47, 98, 98, 47] : List UInt8).length < 7 := by decide
  obtain ⟨-, l, m', h1, h2, -⟩ := skipelem_enumerates hs hd hf
  exact ⟨_, l, m', h1, h2.trans (by decide)⟩

end TinyOS.Fs
