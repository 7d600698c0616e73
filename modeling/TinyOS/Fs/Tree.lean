/-
The directories that paths from the root can reach: they are allocated, none of them is removed, and
what they name is allocated. This survives directories being truncated, but not entries being
written by hand.
-/
import TinyOS.Fs.Mount

namespace TinyOS.Ns

open TinyOS.Fs (typeNone typeDir dot dotdot Created Removed)

variable {s s' : Ns} {c d n m p i j k t : Nat} {x : Seat} {nm : List UInt8}

/-- `W` holds the directories in the tree, `up` gives their parents, and `loc` the one entry of each
inode that is named otherwise than by `.` or `..`. -/
structure Tree (s : Ns) (W : Nat → Prop) (up : Nat → Nat) (loc : Nat → Nat × Nat) : Prop where
  root : W 1 ∧ up 1 = 1
  dir : ∀ d, W d → s.type d = typeDir ∧ ¬ s.Del d ∧ W (up d)
  ent : ∀ d j n nm, W d → s.ent d j = some (n, nm) → (nm = dot ∧ n = d) ∨ (nm = dotdot ∧ n = up d) ∨
    (loc n = (d, j) ∧ n ≠ 1 ∧ s.type n ≠ typeNone ∧ ¬ s.Del n ∧ (s.type n = typeDir → W n ∧ up n = d))

/-- Only directories have entries. -/
def Plain (s : Ns) : Prop := ∀ d j e, s.ent d j = some e → s.type d = typeDir

variable {W : Nat → Prop} {up : Nat → Nat} {loc : Nat → Nat × Nat}

/-- What an entry in the tree names is allocated and not removed. -/
theorem Tree.target (h : Tree s W up loc) (hd : W d) (he : s.ent d j = some (n, nm)) :
    s.type n ≠ typeNone ∧ ¬ s.Del n ∧ (s.type n = typeDir → W n) := by
  rcases h.ent d j n nm hd he with ⟨-, rfl⟩ | ⟨-, rfl⟩ | ⟨-, -, h1, h2, h3⟩
  · obtain ⟨h1, h2, -⟩ := h.dir n hd
    exact ⟨by rw [h1]; decide, h2, fun _ => hd⟩
  · obtain ⟨-, -, hup⟩ := h.dir d hd
    obtain ⟨h1, h2, -⟩ := h.dir _ hup
    exact ⟨by rw [h1]; decide, h2, fun _ => hup⟩
  · exact ⟨h1, h2, fun ht => (h3 ht).1⟩

/-- Paths from the root stay in the tree. -/
theorem Tree.walk (h : Tree s W up loc) (hp : s.Plain) (hw : s.Walk 1 n) :
    s.type n ≠ typeNone ∧ ¬ s.Del n ∧ (s.type n = typeDir → W n) := by
  induction hw with
  | refl =>
    obtain ⟨h1, h2, -⟩ := h.dir 1 h.root.1
    exact ⟨by rw [h1]; decide, h2, fun _ => h.root.1⟩
  | tail _ hn ih =>
    obtain ⟨j, nm, he⟩ := hn
    exact h.target (ih.2.2 (hp _ _ _ he)) he

/-! ## References -/

theorem Tree.get (h : Tree s W up loc) : Tree (s.get i n) W up loc where
  root := h.root
  dir d hd := by
    rw [del_get]
    exact h.dir d hd
  ent d j c nm hd he := by
    rw [del_get]
    exact h.ent d j c nm hd he

/-- What a close leaves: an inode that goes was removed, so it is not in the tree. -/
theorem Tree.put (h : Tree s W up loc) (hok : s.Ok) (hx : s.seat i = some x) : Tree (s.put i) W up loc := by
  rcases put_cases hok hx with ⟨-, hdel, ht, he⟩ | ⟨-, hdel, ⟨-, ht, he⟩ | ⟨hgone, ht, he⟩⟩
  · refine ⟨h.root, fun d hd => ?_, fun d j c nm hd hent => ?_⟩
    · rw [ht, hdel]
      exact h.dir d hd
    · rw [he] at hent
      rw [ht, hdel]
      exact h.ent d j c nm hd hent
  · refine ⟨h.root, fun d hd => ?_, fun d j c nm hd hent => ?_⟩
    · rw [ht, hdel]
      obtain ⟨h1, h2, h3⟩ := h.dir d hd
      exact ⟨h1, fun hc => h2 hc.1, h3⟩
    · rw [he] at hent
      rw [ht, hdel]
      rcases h.ent d j c nm hd hent with h1 | h1 | ⟨h1, h2, h3, h4, h5⟩
      · exact Or.inl h1
      · exact Or.inr (Or.inl h1)
      · exact Or.inr (Or.inr ⟨h1, h2, h3, fun hc => h4 hc.1, h5⟩)
  · have hne : ∀ c, ¬ s.Del c → c ≠ x.no := fun c hc hcx => hc (hcx ▸ hgone)
    refine ⟨h.root, fun d hd => ?_, fun d j c nm hd hent => ?_⟩
    · obtain ⟨h1, h2, h3⟩ := h.dir d hd
      rw [ht, hdel, Function.update_of_ne (hne d h2)]
      exact ⟨h1, fun hc => h2 hc.1, h3⟩
    · have hdx := hne d (h.dir d hd).2.1
      rw [he, Function.update_of_ne hdx] at hent
      have hcx := hne c (h.target hd hent).2.1
      rw [ht, hdel, Function.update_of_ne hcx]
      rcases h.ent d j c nm hd hent with h1 | h1 | ⟨h1, h2, h3, h4, h5⟩
      · exact Or.inl h1
      · exact Or.inr (Or.inl h1)
      · exact Or.inr (Or.inr ⟨h1, h2, h3, fun hc => h4 hc.1, h5⟩)

theorem Live.put (h : s.Live) (hok : s.Ok) (hx : s.seat i = some x) : (s.put i).Live := by
  intro m hm
  rcases put_cases hok hx with ⟨hheld, -, ht, -⟩ | ⟨hheld, -, ⟨-, ht, -⟩ | ⟨-, ht, -⟩⟩
  · rw [ht]
    exact h m ((hheld m).1 hm)
  · rw [ht]
    exact h m ((hheld m).1 hm).1
  · obtain ⟨h1, h2⟩ := (hheld m).1 hm
    rw [ht, Function.update_of_ne h2]
    exact h m h1

/-! ## A new inode -/

theorem Tree.create (h : Tree s W up loc) (hl : s.Live) (hd : W d) (hn : s.type n = typeNone) (ht : t ≠ typeNone) :
    ∃ W' up' loc', Tree (s.create d j n t nm) W' up' loc' := by
  have hW : ∀ c, W c → c ≠ n := fun c hc hcn => by
    have := (h.dir c hc).1
    rw [hcn, hn] at this
    cases this
  have hdel : ∀ m, (s.create d j n t nm).Del m ↔ s.Del m := fun m => by
    unfold Del
    rw [create_seat]
  have hnd : ¬ s.Del n := by
    rintro ⟨l, x, hx, hxn, -⟩
    exact hl n ⟨l, x, hx, hxn⟩ hn
  refine ⟨fun c => W c ∨ (c = n ∧ t = typeDir), Function.update up n d, Function.update loc n (d, j), ?_⟩
  have hup : ∀ c, W c → Function.update up n d c = up c := fun c hc => Function.update_of_ne (hW c hc) ..
  refine ⟨⟨Or.inl h.root.1, (hup 1 h.root.1).trans h.root.2⟩, fun c hc => ?_, fun c k m nm' hc he => ?_⟩
  · rw [create_type, hdel]
    rcases hc with hc | ⟨rfl, rfl⟩
    · obtain ⟨h1, h2, h3⟩ := h.dir c hc
      rw [Function.update_of_ne (hW c hc), hup c hc]
      exact ⟨h1, h2, Or.inl h3⟩
    · rw [Function.update_self, Function.update_self]
      exact ⟨rfl, hnd, Or.inl hd⟩
  · rw [create_type, hdel]
    rcases hc with hc | ⟨rfl, rfl⟩
    · rw [create_ent (hW c hc)] at he
      rw [hup c hc]
      split at he
      · next hcd =>
        cases he
        right; right
        rw [Function.update_self, Function.update_self, Function.update_self, hcd.1, hcd.2]
        exact ⟨rfl, fun hn1 => hW 1 h.root.1 hn1.symm, ht, hnd, fun htd => ⟨Or.inr ⟨rfl, htd⟩, rfl⟩⟩
      · have hmn : m ≠ n := by
          rintro rfl
          exact (h.target hc he).1 hn
        rw [Function.update_of_ne hmn, Function.update_of_ne hmn, Function.update_of_ne hmn]
        rcases h.ent c k m nm' hc he with h1 | h1 | ⟨h1, h2, h3, h4, h5⟩
        · exact Or.inl h1
        · exact Or.inr (Or.inl h1)
        · exact Or.inr (Or.inr ⟨h1, h2, h3, h4, fun hdir => ⟨Or.inl (h5 hdir).1, (h5 hdir).2⟩⟩)
    · rw [create_ent_new (hW d hd), if_pos rfl] at he
      rw [Function.update_self]
      split at he
      · cases he
        exact Or.inl ⟨rfl, rfl⟩
      · split at he
        · cases he
          exact Or.inr (Or.inl ⟨rfl, rfl⟩)
        · cases he

theorem Live.create (hl : s.Live) (hn : s.type n = typeNone) : (s.create d j n t nm).Live := by
  intro m hm
  have hm' : s.Held m := by
    unfold Held at hm ⊢
    rwa [create_seat] at hm
  have hmn : m ≠ n := by
    rintro rfl
    exact hl m hm' hn
  rw [create_type, Function.update_of_ne hmn]
  exact hl m hm'

/-! ## An entry removed -/

/-- The namespace just before a removed inode is closed. -/
theorem Removed.before (hok : s.Ok) (hr : Removed s d j n nm i s') :
    ∃ x, (s.get i n).seat i = some x ∧ x.no = n ∧ (((s.get i n).mark i).setEnt d j none).Ok ∧
      (((s.get i n).mark i).setEnt d j none).seat i = some { x with del := true } := by
  obtain ⟨x, hx, hxn⟩ := hr.room.get_some
  have hok₁ := hok.get hr.room
  have hmk : ((s.get i n).mark i).Ok := by
    rw [mark_eq hx]
    exact hok₁.setSeat hx fun y hy => by
      cases hy
      exact ⟨hok₁.pos i x hx, rfl⟩
  exact ⟨x, hx, hxn, ⟨hmk.pos, hmk.uniq⟩, by rw [setEnt_seat, mark_eq hx, setSeat_self]⟩

theorem Tree.unlink (h : Tree s W up loc) (hok : s.Ok) (hd : W d) (hr : Removed s d j n nm i s') :
    ∃ W', Tree s' W' up loc := by
  obtain ⟨x, hx, hxn, hokT, hxT⟩ := Removed.before hok hr
  have hok₁ := hok.get hr.room
  have hdel : ∀ m, (((s.get i n).mark i).setEnt d j none).Del m ↔ s.Del m ∨ m = n := fun m => by
    have : (((s.get i n).mark i).setEnt d j none).Del m ↔ ((s.get i n).mark i).Del m := Iff.rfl
    rw [this, del_mark hok₁ hx, del_get, hxn]
  have hloc : loc n = (d, j) ∧ n ≠ 1 := by
    rcases h.ent d j n nm hd hr.ent with ⟨h1, -⟩ | ⟨h1, -⟩ | ⟨h1, h2, -⟩
    · exact absurd h1 hr.notDot
    · exact absurd h1 hr.notDotdot
    · exact ⟨h1, h2⟩
  -- what lies below the removed inode leaves the tree with it
  have hroot : ∀ l, up^[l] 1 = 1 := fun l => Function.iterate_fixed h.root.2 l
  have htree : Tree (((s.get i n).mark i).setEnt d j none) (fun c => W c ∧ ∀ l, up^[l] c ≠ n) up loc := by
    refine ⟨⟨⟨h.root.1, fun l hl => hloc.2 ((hroot l).symm.trans hl).symm⟩, h.root.2⟩, fun c hc => ?_,
      fun c k m nm' hc he => ?_⟩
    · obtain ⟨h1, h2, h3⟩ := h.dir c hc.1
      rw [hdel]
      refine ⟨h1, fun hcd => ?_, h3, fun l => hc.2 (l + 1)⟩
      rcases hcd with hcd | rfl
      · exact h2 hcd
      · exact hc.2 0 rfl
    · have hcase : ¬ (c = d ∧ k = j) := by
        rintro ⟨rfl, rfl⟩
        rw [setEnt_self] at he
        cases he
      rw [setEnt_ne (by tauto)] at he
      rcases h.ent c k m nm' hc.1 he with h1 | h1 | ⟨h1, h2, h3, h4, h5⟩
      · exact Or.inl h1
      · exact Or.inr (Or.inl h1)
      · have hmn : m ≠ n := by
          rintro rfl
          rw [hloc.1] at h1
          cases h1
          exact hcase ⟨rfl, rfl⟩
        rw [hdel]
        refine Or.inr (Or.inr ⟨h1, h2, h3, fun hc' => hc'.elim h4 hmn, fun htd =>
          ⟨⟨(h5 htd).1, fun l => ?_⟩, (h5 htd).2⟩⟩)
        cases l with
        | zero => exact hmn
        | succ l =>
          rw [Function.iterate_succ_apply, (h5 htd).2]
          exact hc.2 l
  rw [hr.eq]
  exact ⟨_, htree.put hokT hxT⟩

theorem Live.unlink (hl : s.Live) (hok : s.Ok) (hr : Removed s d j n nm i s') (hn : s.type n ≠ typeNone) : s'.Live := by
  obtain ⟨x, hx, -, hokT, hxT⟩ := Removed.before hok hr
  have hlive : (((s.get i n).mark i).setEnt d j none).Live := fun m hm => by
    have hm' : (s.get i n).Held m := (held_mark (hok.get hr.room) hx).1 hm
    rcases (held_get hr.room).1 hm' with hm' | rfl
    · exact hl m hm'
    · exact hn
  rw [hr.eq]
  exact hlive.put hokT hxT

/-! ## Truncation -/

theorem Tree.trunc (h : Tree s W up loc) : Tree (s.trunc n) W up loc := by
  refine ⟨h.root, h.dir, fun d j c nm hd he => ?_⟩
  by_cases hdn : d = n
  · rw [hdn] at he
    simp only [Ns.trunc, Function.update_self] at he
    cases he
  · simp only [Ns.trunc, Function.update_of_ne hdn] at he
    exact h.ent d j c nm hd he

/-! ## References -/

/-- Removing an entry leaves the references as they were. -/
theorem Removed.refs (hok : s.Ok) (hr : Removed s d j n nm i s') : s'.refs k = s.refs k := by
  obtain ⟨x, hx, -, -, hxT⟩ := Removed.before hok hr
  have hT : (((s.get i n).mark i).setEnt d j none).refs k = s.refs k + if k = i then 1 else 0 := by
    show ((s.get i n).mark i).refs k = _
    rw [refs_mark, refs_get]
  rw [hr.eq, refs_put hxT, hT]
  omega

theorem Removed.no (hok : s.Ok) (hr : Removed s d j n nm i s') {y z : Seat} (hy : s.seat k = some y)
    (hz : s'.seat k = some z) : z.no = y.no := by
  obtain ⟨x, hx, hxn, -, hxT⟩ := Removed.before hok hr
  rw [hr.eq] at hz
  obtain ⟨u, hu, hzu⟩ := no_put hz
  rw [hzu]
  by_cases hki : k = i
  · subst hki
    rw [hxT] at hu
    cases hu
    exact (no_get hy hx : x.no = y.no)
  · rw [setEnt_seat, mark_seat_ne hki, get_seat_ne hki, hy] at hu
    cases hu
    rfl

end TinyOS.Ns
