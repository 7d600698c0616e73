/-
What a path means: the names that it is made of, and the directory and the inode that they lead to in
a namespace, whatever `skipelem` and the walk of `iopen_parent` do.
-/
import TinyOS.Fs.Dir
import TinyOS.Fs.Names

namespace TinyOS.Fs

variable {nm path rest : List UInt8}

/-! ## The names of a path -/

/-- The nonempty components between the slashes of a path, each cut to 27 characters. -/
def names (path : List UInt8) : List (List UInt8) :=
  (((cstr path).splitOn slash).filter fun nm => !nm.isEmpty).map (·.take maxName)

theorem names_end (h : path.headD 0 = 0) : names path = [] := by
  have hc : cstr path = [] := by
    cases path with
    | nil => rfl
    | cons a q =>
      rw [List.headD_cons] at h
      rw [h]
      rfl
  rw [names, hc]
  rfl

theorem names_slash : names (slash :: path) = names path := by
  have hc : cstr (slash :: path) = slash :: cstr path := rfl
  rw [names, hc, List.splitOn_cons_eq_if_modifyHead, if_pos (beq_self_eq_true _)]
  rfl

theorem names_dropWhile : ∀ {path : List UInt8}, names (path.dropWhile (· = slash)) = names path
  | [] => rfl
  | a :: q => by
    by_cases ha : a = slash
    · rw [List.dropWhile_cons_of_pos (by simpa using ha), names_dropWhile, ha, names_slash]
    · rw [List.dropWhile_cons_of_neg (by simpa using ha)]

/-- A component and what follows it. -/
theorem names_append (hne : nm ≠ []) (hs : slash ∉ nm) (hz : (0 : UInt8) ∉ nm)
    (hr : rest.headD 0 = slash ∨ rest.headD 0 = 0) : names (nm ++ rest) = nm.take maxName :: names rest := by
  have hpos : ∀ y ∈ nm, (decide (y ≠ 0)) = true := fun y hy => decide_eq_true fun hc => hz (hc ▸ hy)
  have hc : cstr (nm ++ rest) = nm ++ cstr rest := List.takeWhile_append_of_pos hpos
  have hkeep : ∀ l : List (List UInt8), (nm :: l).filter (fun nm => !nm.isEmpty) = nm :: l.filter fun nm =>
    !nm.isEmpty :=
    fun l => by
      cases nm with
      | nil => exact absurd rfl hne
      | cons a q => rfl
  rcases hr with hr | hr
  · cases rest with
    | nil => cases hr
    | cons a q =>
      rw [List.headD_cons] at hr
      subst hr
      have hq : cstr (slash :: q) = slash :: cstr q := rfl
      rw [names_slash, names, hc, hq, List.splitOn_append_cons_self_of_not_mem hs, hkeep,
        List.map_cons]
      rfl
  · have hq : cstr rest = [] := by
      cases rest with
      | nil => rfl
      | cons a q =>
        rw [List.headD_cons] at hr
        rw [hr]
        rfl
    rw [names_end hr, names, hc, hq, List.append_nil, List.splitOn_eq_singleton hs, hkeep]
    rfl

/-- `skipelem` splits off the first of the names. -/
theorem names_skipelem : names path = match skipelem path with
    | none => []
    | some (nm, rest) => nm :: names rest := by
  rw [← names_dropWhile]
  unfold skipelem
  generalize hp : path.dropWhile (· = slash) = q
  simp only
  by_cases h0 : q.headD 0 = 0
  · rw [if_pos h0]
    exact names_end h0
  rw [if_neg h0]
  have hfirst : q.headD 0 ≠ slash := by
    intro ha
    have := List.head?_dropWhile_not (· = slash) path
    rw [hp] at this
    cases q with
    | nil => exact h0 rfl
    | cons a q =>
      rw [List.headD_cons] at ha
      simp [ha] at this
  have hmem : ∀ y ∈ q.takeWhile (fun c => decide (c ≠ slash ∧ c ≠ 0)), y ≠ slash ∧ y ≠ 0 := fun y hy => by
    have := List.mem_takeWhile_imp hy
    simpa only [decide_eq_true_eq] using this
  have hne : q.takeWhile (fun c => decide (c ≠ slash ∧ c ≠ 0)) ≠ [] := by
    cases q with
    | nil => exact absurd rfl h0
    | cons a q =>
      have ha : decide (a ≠ slash ∧ a ≠ 0) = true := decide_eq_true ⟨hfirst, h0⟩
      rw [List.takeWhile_cons_of_pos (p := fun c => decide (c ≠ slash ∧ c ≠ 0)) ha]
      exact List.cons_ne_nil _ _
  -- a name ends at a slash or at the end of the path
  have hrest : (q.dropWhile (fun c => decide (c ≠ slash ∧ c ≠ 0))).headD 0 = slash ∨
      (q.dropWhile (fun c => decide (c ≠ slash ∧ c ≠ 0))).headD 0 = 0 := by
    have := List.head?_dropWhile_not (fun c => decide (c ≠ slash ∧ c ≠ 0)) q
    cases hq : q.dropWhile (fun c => decide (c ≠ slash ∧ c ≠ 0)) with
    | nil => exact Or.inr rfl
    | cons a r =>
      rw [hq] at this
      simp only [List.head?_cons, decide_eq_false_iff_not, not_and, not_not] at this
      by_cases ha : a = slash
      · exact Or.inl ha
      · exact Or.inr (this ha)
  have hsplit : names q = (q.takeWhile fun c => decide (c ≠ slash ∧ c ≠ 0)).take maxName ::
      names (q.dropWhile fun c => decide (c ≠ slash ∧ c ≠ 0)) := by
    nth_rewrite 1 [← List.takeWhile_append_dropWhile (p := fun c => decide (c ≠ slash ∧ c ≠ 0)) (l := q)]
    exact names_append hne (fun hc => (hmem _ hc).1 rfl) (fun hc => (hmem _ hc).2 rfl) hrest
  rw [hsplit]
  show _ = _ :: names _
  rw [names_dropWhile]
  congr 1
  split
  · rfl
  · next hlt => exact List.take_of_length_le (by omega)

theorem names_rest (h : skipelem path = some (nm, rest)) : names path = nm :: names rest := by
  rw [names_skipelem, h]

/-- What is left of a path does not start with a slash. -/
theorem skipelem_head (h : skipelem path = some (nm, rest)) : rest.headD 0 ≠ slash := by
  unfold skipelem at h
  simp only at h
  split at h
  · cases h
  · cases h
    intro ha
    generalize hq : (path.dropWhile (· = slash)).dropWhile (fun c => decide (c ≠ slash ∧ c ≠ 0)) = q at ha
    have := List.head?_dropWhile_not (· = slash) q
    cases hw : q.dropWhile (· = slash) with
    | nil =>
      rw [hw] at ha
      cases ha
    | cons a r =>
      rw [hw] at this ha
      rw [List.headD_cons] at ha
      simp [ha] at this

/-- Behind the last name there is nothing. -/
theorem names_rest_nil (h : skipelem path = some (nm, rest)) : names rest = [] ↔ rest.headD 0 = 0 := by
  refine ⟨fun hr => ?_, names_end⟩
  by_contra h0
  have hfirst := skipelem_head h
  have hsk : skipelem rest = none := by
    rw [names_skipelem] at hr
    cases hs : skipelem rest with
    | none => rfl
    | some q => rw [hs] at hr; cases hr
  unfold skipelem at hsk
  cases rest with
  | nil => exact h0 rfl
  | cons a r =>
    have ha : a ≠ slash := hfirst
    rw [List.dropWhile_cons_of_neg (by simpa using ha)] at hsk
    simp only at hsk
    rw [if_neg h0] at hsk
    cases hsk

end TinyOS.Fs

namespace TinyOS.Ns

open TinyOS.Fs (typeDir)

variable {s : Ns} {c d d' n : Nat} {nm nm' : List UInt8}

/-! ## Where names lead -/

/-- Directory `d` has an entry that gives inode `n` the name `nm`. -/
def Has (s : Ns) (d : Nat) (nm : List UInt8) (n : Nat) : Prop := ∃ k, s.ent d k = some (n, nm)

/-- No directory has two entries of one name for two inodes. -/
def Distinct (s : Ns) : Prop := ∀ d nm n m, s.Has d nm n → s.Has d nm m → n = m

/-- The names lead from inode `c` to directory `d`, but for the last of them, which is `nm`. -/
def Parent (s : Ns) : Nat → List (List UInt8) → Nat → List UInt8 → Prop
  | _, [], _, _ => False
  | c, [x], d, nm => s.type c = typeDir ∧ d = c ∧ nm = x
  | c, x :: y :: xs, d, nm => ∃ n, s.Has c x n ∧ s.Parent n (y :: xs) d nm

theorem parent_cons {x : List UInt8} {xs : List (List UInt8)} (h : xs ≠ []) :
    s.Parent c (x :: xs) d nm ↔ ∃ n, s.Has c x n ∧ s.Parent n xs d nm := by
  cases xs with
  | nil => exact absurd rfl h
  | cons y ys => rfl

theorem Parent.walk : ∀ {xs : List (List UInt8)} {c : Nat}, s.Parent c xs d nm → s.Walk c d
  | [], _, h => h.elim
  | [_], _, ⟨_, hd, _⟩ => hd ▸ .refl
  | x :: _ :: _, _, ⟨_, ⟨k, hk⟩, h⟩ => .head ⟨k, x, hk⟩ (Parent.walk h)

theorem Parent.dir : ∀ {xs : List (List UInt8)} {c : Nat}, s.Parent c xs d nm → s.type d = typeDir
  | [], _, h => h.elim
  | [_], _, ⟨ht, hd, _⟩ => hd ▸ ht
  | _ :: _ :: _, _, ⟨_, _, h⟩ => Parent.dir h

/-- Names lead on from directories only. -/
theorem Parent.first {x : List UInt8} (hs : ∀ d j e, s.ent d j = some e → s.type d = typeDir) :
    ∀ {xs : List (List UInt8)}, s.Parent c (x :: xs) d nm → s.type c = typeDir
  | [], h => h.1
  | _ :: _, ⟨_, ⟨k, hk⟩, _⟩ => hs c k _ hk

/-- Names lead to one directory. -/
theorem Parent.unique (hs : s.Distinct) : ∀ {xs : List (List UInt8)} {c : Nat}, s.Parent c xs d nm →
    s.Parent c xs d' nm' → d = d' ∧ nm = nm'
  | [], _, h, _ => h.elim
  | [_], _, ⟨_, h1, h2⟩, ⟨_, h3, h4⟩ => ⟨h1.trans h3.symm, h2.trans h4.symm⟩
  | x :: _ :: _, c, ⟨n, hn, h⟩, ⟨m, hm, h'⟩ => by
    obtain rfl := hs c x n m hn hm
    exact Parent.unique hs h h'

end TinyOS.Ns
