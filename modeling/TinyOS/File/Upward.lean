/-
Up and down agree: the `..` of every directory is the directory that names it. This holds in every reachable
state, and with it the names from the root to a directory make a path that leads there.
-/
import TinyOS.File.Parents
import TinyOS.Fs.Reference

namespace TinyOS.Ns

open TinyOS.Fs

variable {s s' : Ns} {c d n m i j k t : Nat} {x : Seat} {nm : List UInt8} {nms : List (List UInt8)}

structure Upward (s : Ns) : Prop where
  root : s.ent 1 1 = some (1, dotdot)
  up : ∀ d j n nm, s.ent d j = some (n, nm) → nm ≠ dot → nm ≠ dotdot → s.type n = typeDir → s.ent n 1 = some (d, dotdot)

theorem Upward.congr (h : s.Upward) (ht : s'.type = s.type) (he : s'.ent = s.ent) : s'.Upward :=
  ⟨by rw [he]; exact h.root, by rw [ht, he]; exact h.up⟩

/-- An inode that goes is removed, so it is no directory of the tree. -/
theorem Upward.put (h : s.Upward) (hok : s.Ok) (hx : s.seat i = some x) (h1 : ¬ s.Del 1)
    (hdel : ∀ d j n nm, s.ent d j = some (n, nm) → nm ≠ dot → nm ≠ dotdot → ¬ s.Del n) : (s.put i).Upward := by
  rcases put_cases hok hx with ⟨-, -, ht, he⟩ | ⟨-, -, ⟨-, ht, he⟩ | ⟨hgone, ht, he⟩⟩
  · exact h.congr ht he
  · exact h.congr ht he
  -- what is freed was removed before, so neither the root nor a target of a name
  have hne : ∀ c, ¬ s.Del c → c ≠ x.no := fun c hc hcx => hc (hcx ▸ hgone)
  refine ⟨?_, fun d j n nm hent h2 h3 hn => ?_⟩
  · rw [he, Function.update_of_ne (hne 1 h1)]
    exact h.root
  · have hd : d ≠ x.no := by
      rintro rfl
      rw [he, Function.update_self] at hent
      cases hent
    rw [he, Function.update_of_ne hd] at hent
    have hnx := hne n (hdel d j n nm hent h2 h3)
    rw [ht, Function.update_of_ne hnx] at hn
    rw [he, Function.update_of_ne hnx]
    exact h.up d j n nm hent h2 h3 hn

theorem Upward.create (h : s.Upward) (hs : s.Sound) (hcr : Created s d j n t nm i s') :
    (s.create d j n t nm).Upward := by
  obtain ⟨-, hj1, -, -⟩ := hs.fresh hcr
  have hdn := hcr.ne
  -- the directories that are there keep their `..`
  have hold : ∀ {c}, s.type c = typeDir → c ≠ n := fun {c} hc hcn => by
    rw [hcn, hcr.new] at hc
    cases hc
  have hfirst : ∀ {c}, s.type c = typeDir → (s.create d j n t nm).ent c 1 = s.ent c 1 := fun {c} hc => by
    rw [create_ent (hold hc), if_neg fun h1 => hj1 h1.2.symm]
  refine ⟨(hfirst hs.root.1).trans h.root, fun c k m nm' he h2 h3 hm => ?_⟩
  rw [create_type] at hm
  rcases create_ent_named hdn he h2 h3 with he' | ⟨rfl, rfl, rfl⟩
  · have hmn : m ≠ n := by
      rintro rfl
      exact (hs.target c k m nm' he' h2 h3).1 hcr.new
    rw [Function.update_of_ne hmn] at hm
    rw [hfirst hm]
    exact h.up c k m nm' he' h2 h3 hm
  · rw [Function.update_self] at hm
    rw [create_ent_new hdn, if_pos hm, if_neg Nat.one_ne_zero, if_pos rfl]

theorem Upward.unlink (h : s.Upward) (hs : s.Sound) (hok : s.Ok) (hr : Removed s d j n nm i s') : s'.Upward := by
  obtain ⟨y, hokT, hyT, hdel, hent⟩ := Removed.marked hok hr
  have hdots : ∀ {c p}, s.ent c 1 = some (p, dotdot) → (((s.get i n).mark i).setEnt d j none).ent c 1 =
      some (p, dotdot) :=
    fun {c p} hc => (hent c 1 _).2 ⟨by
      rintro ⟨rfl, rfl⟩
      rw [hr.ent] at hc
      cases hc
      exact hr.notDotdot rfl, hc⟩
  rw [hr.eq]
  refine Upward.put ⟨hdots h.root, fun c k m nm' he h2 h3 hm => hdots ?_⟩ hokT hyT (fun hc =>
    ?_) fun c k m nm' he h2 h3 hc => ?_
  · exact h.up c k m nm' ((hent c k _).1 he).2 h2 h3 hm
  · rcases (hdel 1).1 hc with hc | hc
    · exact hs.root.2 hc
    · exact (hs.target d j n nm hr.ent hr.notDot hr.notDotdot).2.2 hc.symm
  · obtain ⟨hne, he'⟩ := (hent c k _).1 he
    rcases (hdel m).1 hc with hc | rfl
    · exact (hs.target c k m nm' he' h2 h3).2.1 hc
    · exact hne (hs.one c k d j m nm' nm he' h2 h3 hr.ent hr.notDot hr.notDotdot)

/-! ## Down from the root -/

/-- The names lead from the root to directory `n`, down from directory to directory. -/
inductive Linked (s : Ns) : List (List UInt8) → Nat → Prop
  | root : Linked s [] 1
  | down {nms : List (List UInt8)} {d j n : Nat} {nm : List UInt8} : Linked s nms d → s.ent d j = some (n, nm) →
      nm ≠ dot → nm ≠ dotdot → s.type n = typeDir → Linked s (nms ++ [nm]) n

/-- The path made of the names. -/
def pathOf (nms : List (List UInt8)) : List UInt8 := nms.flatMap (slash :: ·)

/-- The same, but `"/"` for the root. -/
def fullPath (nms : List (List UInt8)) : List UInt8 := if nms = [] then [slash] else pathOf nms

theorem Linked.dir (h : s.Linked nms n) (hs : s.Sound) : s.type n = typeDir := by
  cases h with
  | root => exact hs.root.1
  | down _ _ _ _ hn => exact hn

theorem Linked.not_del (h : s.Linked nms n) (hs : s.Sound) : ¬ s.Del n := by
  cases h with
  | root => exact hs.root.2
  | down _ he h1 h2 _ => exact (hs.target _ _ _ _ he h1 h2).2.1

theorem Linked.congr (h : s.Linked nms n) (ht : s'.type = s.type) (he : s'.ent = s.ent) : s'.Linked nms n := by
  induction h with
  | root => exact .root
  | down _ hent h1 h2 hn ih => exact ih.down (he ▸ hent) h1 h2 (ht ▸ hn)

theorem Linked.elem (h : s.Linked nms n) (hs : s.Sound) : ∀ x ∈ nms, Elem x := by
  induction h with
  | root => exact fun x hx => absurd hx List.not_mem_nil
  | down _ he _ _ _ ih =>
    intro x hx
    rcases List.mem_append.1 hx with hx | hx
    · exact ih x hx
    · rw [List.mem_singleton.1 hx]
      exact hs.name _ _ _ _ he

/-- More names behind them. -/
theorem Linked.parent (h : s.Linked nms n) {xs : List (List UInt8)} (hne : xs ≠ []) (hp : s.Parent n xs d nm) :
    s.Parent 1 (nms ++ xs) d nm := by
  induction h generalizing xs with
  | root => exact hp
  | down _ he _ _ _ ih =>
    rw [List.append_assoc]
    exact ih (List.append_ne_nil_of_left_ne_nil (List.cons_ne_nil _ _) _) ((parent_cons hne).2 ⟨_, ⟨_, he⟩, hp⟩)

theorem elem_nonzero (h : Elem nm) : (0 : UInt8) ∉ nm := fun hc => by
  rw [← h.cstr] at hc
  exact cstr_nonzero 0 hc rfl

theorem pathOf_append {nms' : List (List UInt8)} : pathOf (nms ++ nms') = pathOf nms ++ pathOf nms' :=
  List.flatMap_append

theorem pathOf_eq_nil : pathOf nms = [] ↔ nms = [] := by
  cases nms with
  | nil => exact iff_of_true rfl rfl
  | cons x xs => exact iff_of_false (List.cons_ne_nil _ _) (List.cons_ne_nil _ _)

theorem names_pathOf : ∀ {nms : List (List UInt8)}, (∀ x ∈ nms, Elem x) → names (pathOf nms) = nms
  | [], _ => rfl
  | x :: xs, h => by
    have hx := h x List.mem_cons_self
    have hz := elem_nonzero hx
    have hrest : (pathOf xs).headD 0 = slash ∨ (pathOf xs).headD 0 = 0 := by
      cases xs with
      | nil => exact Or.inr rfl
      | cons y ys => exact Or.inl rfl
    show names (slash :: (x ++ pathOf xs)) = _
    rw [names_slash, names_append hx.ne hx.slash hz hrest, names_pathOf fun y hy => h y (List.mem_cons_of_mem _ hy),
      List.take_of_length_le (Nat.le_of_lt_succ hx.len)]

/-- The path leads to the directory. -/
theorem Linked.leads (h : s.Linked nms n) (hs : s.Sound) (c : Nat) :
    Leads s (start (fullPath nms) c) (fullPath nms) n := by
  have helem := h.elem hs
  generalize hp : fullPath nms = path
  unfold fullPath at hp
  cases h with
  | root =>
    rw [if_pos rfl] at hp
    subst hp
    exact .root (by decide) rfl rfl
  | @down nms d j n nm hd he h1 h2 hn =>
    rw [if_neg (List.append_ne_nil_of_right_ne_nil _ (List.cons_ne_nil _ _))] at hp
    have hhead : path.headD 0 = slash := by
      rw [← hp]
      cases nms with
      | nil => rfl
      | cons x xs => rfl
    refine .last d nm ?_ ⟨j, he⟩
    rw [start, if_pos hhead, ← hp, names_pathOf helem]
    exact hd.parent (List.cons_ne_nil _ _) ⟨hs.plain d j _ he, rfl, rfl⟩

/-- Only these names lead from the root to the directory. -/
theorem Linked.unique {nms' : List (List UInt8)} (h : s.Linked nms n) (hs : s.Sound) (h' : s.Linked nms' n) :
    nms = nms' := by
  induction h generalizing nms' with
  | root =>
    cases h' with
    | root => rfl
    | down _ he h1 h2 _ => exact absurd rfl (hs.target _ _ _ _ he h1 h2).2.2
  | down _ he h1 h2 _ ih =>
    cases h' with
    | root => exact absurd rfl (hs.target _ _ _ _ he h1 h2).2.2
    | down hd he' h1' h2' _ =>
      obtain ⟨rfl, rfl⟩ := hs.one _ _ _ _ _ _ _ he h1 h2 he' h1' h2'
      rw [he] at he'
      cases he'
      rw [ih hd]

/-- A directory is not above itself. -/
theorem Linked.ne (h : s.Linked nms d) (hs : s.Sound) (hup : s.Upward) (he : s.ent d j = some (n, nm)) (h1 : nm ≠ dot)
    (h2 : nm ≠ dotdot) (hn : s.type n = typeDir) : n ≠ d ∧ s.ent d 1 ≠ some (n, dotdot) := by
  have hdown := h.down he h1 h2 hn
  refine ⟨?_, fun hc => ?_⟩
  · rintro rfl
    have := congrArg List.length (h.unique hs hdown)
    rw [List.length_append, List.length_singleton] at this
    omega
  -- `..` leads up to the root or to a shorter path, `nm` to a longer one
  cases h with
  | root =>
    rw [hup.root] at hc
    cases hc
    exact (hs.target _ _ _ _ he h1 h2).2.2 rfl
  | down hd he' h1' h2' hn' =>
    rw [hup.up _ _ _ _ he' h1' h2' hn'] at hc
    cases hc
    have := congrArg List.length (hd.unique hs hdown)
    simp only [List.length_append, List.length_singleton] at this
    omega

/-- One entry of a directory is for the directory below. -/
theorem Linked.only {nm' : List UInt8} (h : s.Linked nms d) (hs : s.Sound) (hup : s.Upward)
    (he : s.ent d j = some (n, nm)) (h1 : nm ≠ dot) (h2 : nm ≠ dotdot) (hn : s.type n = typeDir)
    (he' : s.ent d k = some (n, nm')) : k = j := by
  obtain ⟨hne, hup1⟩ := h.ne hs hup he h1 h2 hn
  obtain ⟨h0, q, hq⟩ := hs.dir d (hs.plain d j _ he)
  -- the same number under another name would be one of the two dots
  by_cases hd : nm' = dot
  · rw [hd] at he'
    obtain rfl := hs.uniq _ _ _ _ _ _ he' h0
    rw [h0] at he'
    cases he'
    exact absurd rfl hne
  by_cases hdd : nm' = dotdot
  · rw [hdd] at he'
    obtain rfl := hs.uniq _ _ _ _ _ _ he' hq
    exact absurd he' hup1
  · exact (hs.one _ _ _ _ _ _ _ he' hd hdd he h1 h2).2

end TinyOS.Ns

namespace TinyOS

open TinyOS.Lib TinyOS.Fs TinyOS.Mkfs

namespace Filesys

variable {u u' : Filesys} {p : Nat} {files : List (List UInt8 × List UInt8)} {boot₀ m : Store}

/-! ## In every reachable state -/

theorem upward_steady : Steady Ns.Upward where
  get _ _ _ h := h.congr rfl rfl
  put _ _ _ hok _ hs hx h := h.put hok hx hs.root.2 fun d j n nm he h1 h2 => (hs.target d j n nm he h1 h2).2.1

theorem Mounted.upward {fs : Fs} (h : Mounted files fs) : (view fs).Upward := by
  refine ⟨?_, fun d j n nm he h1 h2 hn => ?_⟩
  · rw [h.ent, if_pos rfl]
    rfl
  · rw [h.ent] at he
    split at he
    · rcases rootNames_get.1 he with ⟨-, hq⟩ | ⟨-, hq⟩ | ⟨k, hk, -, hq⟩
      · cases hq
        exact absurd rfl h1
      · cases hq
        exact absurd rfl h2
      · cases hq
        rw [h.type, if_neg (by omega)] at hn
        split at hn <;> cases hn
    · cases he

theorem Rest.allows_upward {c : Call} (hi : Rest u) (h : (view u.fs).Upward) : Allows Ns.Upward u p c := by
  cases c with
  | «open» path mode =>
    intro d l c j n nm fs hp ho hcr
    rw [hcr.eq]
    exact (h.create hi.sound hcr).congr rfl rfl
  | unlink path =>
    intro d c j n nm l fs hp hr hrem
    exact h.unlink hi.sound hi.good.ok hrem
  | _ => trivial

theorem run_upward {cs : List (Nat × Call)} (hname : ∀ f ∈ files, FileName f.1) (huniq : (files.map Prod.fst).Nodup)
    (hm : mkfs boot₀ files = some m) (hb : boot m = some u) (hr : Run Step u cs u') :
    Rest u' ∧ (view u'.fs).Upward := by
  have h₀ : (view u.fs).Upward := upward_steady.boot hname huniq hm hb (fun fs h => Mounted.upward h)
    fun s c j n t nm i s' _ _ hs h hcr _ => h.create hs hcr
  refine hr.invariant (I := fun u => Rest u ∧ (view u.fs).Upward) (fun v c v' hv hs => ?_)
    ⟨boot_rest hname huniq hm hb, h₀⟩
  exact ⟨hv.1.step hs, upward_steady.step hv.1 hv.2 (hv.1.allows_upward hv.2) hs⟩

end Filesys

end TinyOS
