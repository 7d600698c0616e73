/-
Directories in order, in the whole namespace: each starts with entries for itself and its parent, no
name stands in it twice, and an inode has at most one other name, which it loses when it is removed.
Unlike the tree below the root, this holds of removed directories as well.
-/
import TinyOS.Fs.Tree

namespace TinyOS.Ns

open TinyOS.Fs (typeNone typeDir dot dotdot slash Created Removed Elem cstr)

variable {s s' : Ns} {c d n m p i j k t : Nat} {x : Seat} {nm : List UInt8}

structure Sound (s : Ns) : Prop where
  root : s.type 1 = typeDir ∧ ¬ s.Del 1
  plain : s.Plain
  dir : ∀ d, s.type d = typeDir → s.ent d 0 = some (d, dot) ∧ ∃ p, s.ent d 1 = some (p, dotdot)
  name : ∀ d j n nm, s.ent d j = some (n, nm) → Elem nm
  uniq : ∀ d j k n m nm, s.ent d j = some (n, nm) → s.ent d k = some (m, nm) → j = k
  target : ∀ d j n nm, s.ent d j = some (n, nm) → nm ≠ dot → nm ≠ dotdot → s.type n ≠ typeNone ∧ ¬ s.Del n ∧ n ≠ 1
  one : ∀ d j d' j' n nm nm', s.ent d j = some (n, nm) → nm ≠ dot → nm ≠ dotdot → s.ent d' j' = some (n, nm') →
    nm' ≠ dot → nm' ≠ dotdot → d = d' ∧ j = j'

theorem Sound.distinct (h : Sound s) : s.Distinct := fun c nm n m ⟨i, hi⟩ ⟨j, hj⟩ => by
  obtain rfl := h.uniq c i j n m nm hi hj
  exact (Prod.mk.inj (Option.some.inj (hi.symm.trans hj))).1

theorem elem_dot : Elem dot := ⟨by decide, by decide, by decide, by decide⟩

theorem elem_dotdot : Elem dotdot := ⟨by decide, by decide, by decide, by decide⟩

/-- The same types and entries, and removed inodes only where they were. -/
theorem Sound.congr (h : Sound s) (ht : s'.type = s.type) (he : s'.ent = s.ent) (hd : ∀ m, s'.Del m → s.Del m) :
    Sound s' := by
  refine ⟨?_, ?_, ?_, ?_, ?_, ?_, ?_⟩
  · rw [ht]
    exact ⟨h.root.1, fun hc => h.root.2 (hd 1 hc)⟩
  · unfold Plain
    rw [ht, he]
    exact h.plain
  · rw [ht, he]
    exact h.dir
  · rw [he]
    exact h.name
  · rw [he]
    exact h.uniq
  · rw [ht, he]
    intro d j n nm hj h1 h2
    obtain ⟨h3, h4, h5⟩ := h.target d j n nm hj h1 h2
    exact ⟨h3, fun hc => h4 (hd n hc), h5⟩
  · rw [he]
    exact h.one

theorem Sound.get (h : Sound s) : Sound (s.get i n) := h.congr rfl rfl fun _ => del_get.1

/-- An inode that goes was removed, so nothing names it. -/
theorem Sound.put (h : Sound s) (hok : s.Ok) (hx : s.seat i = some x) : Sound (s.put i) := by
  rcases put_cases hok hx with ⟨-, hdel, ht, he⟩ | ⟨-, hdel, ⟨-, ht, he⟩ | ⟨hgone, ht, he⟩⟩
  · exact h.congr ht he fun m => (hdel m).1
  · exact h.congr ht he fun m hm => ((hdel m).1 hm).1
  -- what is freed has no entries any more
  have hne : ∀ {d j e}, (s.put i).ent d j = some e → d ≠ x.no ∧ s.ent d j = some e := fun {d j e} hent => by
    rw [he] at hent
    by_cases hd : d = x.no
    · rw [hd, Function.update_self] at hent
      cases hent
    · rw [Function.update_of_ne hd] at hent
      exact ⟨hd, hent⟩
  have htype : ∀ {d}, d ≠ x.no → (s.put i).type d = s.type d := fun {d} hd => by rw [ht, Function.update_of_ne hd]
  have hroot : 1 ≠ x.no := fun hc => h.root.2 (hc ▸ hgone)
  refine ⟨⟨(htype hroot).trans h.root.1, fun hc => h.root.2 ((hdel 1).1 hc).1⟩, fun d j e hent => ?_, fun d hd => ?_,
    fun d j n nm hent => h.name d j n nm (hne hent).2, fun d j k n m nm h1 h2 =>
      h.uniq d j k n m nm (hne h1).2 (hne h2).2,
    fun d j n nm hent h1 h2 => ?_, fun d j d' j' n nm nm' h1 h2 h3 h4 =>
      h.one d j d' j' n nm nm' (hne h1).2 h2 h3 (hne h4).2⟩
  · obtain ⟨hd, hent'⟩ := hne hent
    rw [htype hd]
    exact h.plain d j e hent'
  · have hdx : d ≠ x.no := by
      rintro rfl
      rw [ht, Function.update_self] at hd
      cases hd
    rw [htype hdx] at hd
    rw [he, Function.update_of_ne hdx]
    exact h.dir d hd
  · obtain ⟨h3, h4, h5⟩ := h.target d j n nm (hne hent).2 h1 h2
    have hnx : n ≠ x.no := fun hc => h4 (hc ▸ hgone)
    rw [htype hnx]
    exact ⟨h3, fun hc => h4 ((hdel n).1 hc).1, h5⟩

/-- The place of a new entry is not one of the first two, and its name is neither of theirs. -/
theorem Sound.fresh (h : Sound s) (hcr : Created s d j n t nm i s') : j ≠ 0 ∧ j ≠ 1 ∧ nm ≠ dot ∧ nm ≠ dotdot := by
  obtain ⟨h0, p, h1⟩ := h.dir d hcr.dir
  refine ⟨?_, ?_, ?_, ?_⟩
  · rintro rfl
    rw [hcr.empty] at h0
    cases h0
  · rintro rfl
    rw [hcr.empty] at h1
    cases h1
  · rintro rfl
    exact hcr.unique 0 d h0
  · rintro rfl
    exact hcr.unique 1 p h1

/-- After a creation an entry is an old one, the new one, or one of the two in a new directory. -/
theorem create_ent_cases {e : Nat × List UInt8} (hdn : d ≠ n) (he : (s.create d j n t nm).ent c k = some e) :
    (c ≠ n ∧ s.ent c k = some e) ∨ (c = d ∧ k = j ∧ e = (n, nm)) ∨
      (c = n ∧ t = typeDir ∧ ((k = 0 ∧ e = (n, dot)) ∨ (k = 1 ∧ e = (d, dotdot)))) := by
  by_cases hc : c = n
  · rw [hc, create_ent_new hdn] at he
    right; right
    split at he
    · next htd =>
      refine ⟨hc, htd, ?_⟩
      split at he
      · next h0 =>
        cases he
        exact Or.inl ⟨h0, rfl⟩
      · split at he
        · next h1 =>
          cases he
          exact Or.inr ⟨h1, rfl⟩
        · cases he
    · cases he
  · rw [create_ent hc] at he
    split at he
    · next hcd =>
      cases he
      exact Or.inr (Or.inl ⟨hcd.1, hcd.2, rfl⟩)
    · exact Or.inl ⟨hc, he⟩

/-- One with a name other than `.` and `..` is an old one or the new one. -/
theorem create_ent_named {m : Nat} {nm' : List UInt8} (hdn : d ≠ n) (he : (s.create d j n t nm).ent c k = some (m, nm'))
    (h1 : nm' ≠ dot) (h2 : nm' ≠ dotdot) : s.ent c k = some (m, nm') ∨ (c = d ∧ k = j ∧ m = n) := by
  rcases create_ent_cases hdn he with ⟨-, he'⟩ | ⟨hc, hk, he'⟩ | ⟨-, -, ⟨-, he'⟩ | ⟨-, he'⟩⟩
  · exact Or.inl he'
  · exact Or.inr ⟨hc, hk, (Prod.mk.inj he').1⟩
  · exact absurd (Prod.mk.inj he').2 h1
  · exact absurd (Prod.mk.inj he').2 h2

/-- Names stay unique. -/
theorem create_ent_unique {l m m' : Nat} {nm' : List UInt8} (h : Sound s) (hcr : Created s d j n t nm i s')
    (h1 : (s.create d j n t nm).ent c k = some (m, nm')) (h2 : (s.create d j n t nm).ent c l = some (m', nm')) :
    k = l := by
  have hdn := hcr.ne
  have hdots : dot ≠ dotdot := by decide
  rcases create_ent_cases hdn h1 with ⟨ha, hb⟩ | ⟨rfl, rfl, hb⟩ | ⟨ha, -, hb⟩
  · rcases create_ent_cases hdn h2 with ⟨-, hb'⟩ | ⟨rfl, rfl, hb'⟩ | ⟨ha', -, -⟩
    · exact h.uniq c k l m m' nm' hb hb'
    · cases hb'
      exact absurd hb (hcr.unique k m)
    · exact absurd ha' ha
  · cases hb
    rcases create_ent_cases hdn h2 with ⟨-, hb'⟩ | ⟨-, hlj, -⟩ | ⟨ha', -, -⟩
    · exact absurd hb' (hcr.unique l m')
    · exact hlj.symm
    · exact absurd ha' hdn
  · rcases create_ent_cases hdn h2 with ⟨ha', -⟩ | ⟨hcd, -, -⟩ | ⟨-, -, hb'⟩
    · exact absurd ha ha'
    · exact absurd (hcd.symm.trans ha) hdn
    · rcases hb with ⟨rfl, hb⟩ | ⟨rfl, hb⟩ <;> rcases hb' with ⟨rfl, hb'⟩ | ⟨rfl, hb'⟩
      · rfl
      · exact absurd ((Prod.mk.inj hb).2.symm.trans (Prod.mk.inj hb').2) hdots
      · exact absurd ((Prod.mk.inj hb').2.symm.trans (Prod.mk.inj hb).2) hdots
      · rfl

theorem Sound.create (h : Sound s) (hl : s.Live) (hcr : Created s d j n t nm i s') (ht : t ≠ typeNone) (hnm : Elem nm) :
    Sound (s.create d j n t nm) := by
  obtain ⟨hj0, hj1, -, -⟩ := h.fresh hcr
  have hdn := hcr.ne
  have hdel : ∀ m, (s.create d j n t nm).Del m ↔ s.Del m := fun m => by
    unfold Del
    rw [create_seat]
  have hnd : ¬ s.Del n := by
    rintro ⟨l, y, hy, hyn, -⟩
    exact hl n ⟨l, y, hy, hyn⟩ hcr.new
  have hn1 : (1 : Nat) ≠ n := by
    intro hc
    have := h.root.1
    rw [hc, hcr.new] at this
    cases this
  have htype : ∀ {m}, m ≠ n → (s.create d j n t nm).type m = s.type m := fun {m} hm => by
    rw [create_type, Function.update_of_ne hm]
  have htypen : (s.create d j n t nm).type n = t := by rw [create_type, Function.update_self]
  -- the new inode was free, so no entry names it
  have hold : ∀ {c k m nm'}, s.ent c k = some (m, nm') → nm' ≠ dot → nm' ≠ dotdot →
      m ≠ n := fun {c k m nm'} he h1 h2 hc =>
    (h.target c k m nm' he h1 h2).1 (hc ▸ hcr.new)
  refine ⟨⟨(htype hn1).trans h.root.1, fun hc => h.root.2 ((hdel 1).1 hc)⟩, fun c k e he => ?_, fun c hc => ?_,
    fun c k m nm' he => ?_, fun c k l m m' nm' h1 h2 => create_ent_unique h hcr h1 h2, fun c k m nm' he h1 h2 => ?_,
    fun c k c' k' m nm₁ nm₂ h1 h2 h3 h4 h5 h6 => ?_⟩
  · rcases create_ent_cases hdn he with ⟨hc, he'⟩ | ⟨rfl, -, -⟩ | ⟨rfl, htd, -⟩
    · rw [htype hc]
      exact h.plain c k e he'
    · rw [htype hdn]
      exact hcr.dir
    · rw [htypen]
      exact htd
  · -- the new directory has the two dots where they belong
    by_cases hcn : c = n
    · subst hcn
      rw [htypen] at hc
      rw [create_ent_new hdn, create_ent_new hdn, if_pos hc, if_pos rfl, if_pos hc, if_neg Nat.one_ne_zero, if_pos rfl]
      exact ⟨rfl, d, rfl⟩
    · rw [htype hcn] at hc
      obtain ⟨h0, p, h1⟩ := h.dir c hc
      rw [create_ent hcn, create_ent hcn, if_neg (by rintro ⟨-, hz⟩; exact hj0 hz.symm),
        if_neg (by rintro ⟨-, hz⟩; exact hj1 hz.symm)]
      exact ⟨h0, p, h1⟩
  · rcases create_ent_cases hdn he with ⟨-, he'⟩ | ⟨-, -, he'⟩ | ⟨-, -, ⟨-, he'⟩ | ⟨-, he'⟩⟩
    · exact h.name c k m nm' he'
    · cases he'
      exact hnm
    · cases he'
      exact elem_dot
    · cases he'
      exact elem_dotdot
  · rw [hdel]
    rcases create_ent_named hdn he h1 h2 with he' | ⟨-, -, rfl⟩
    · rw [htype (hold he' h1 h2)]
      exact h.target c k m nm' he' h1 h2
    · rw [htypen]
      exact ⟨ht, hnd, hn1.symm⟩
  · rcases create_ent_named hdn h1 h2 h3 with ha | ⟨hc, hk, hm⟩
    · rcases create_ent_named hdn h4 h5 h6 with hb | ⟨-, -, hm⟩
      · exact h.one c k c' k' m nm₁ nm₂ ha h2 h3 hb h5 h6
      · exact absurd hm (hold ha h2 h3)
    · rcases create_ent_named hdn h4 h5 h6 with hb | ⟨hc', hk', -⟩
      · exact absurd hm (hold hb h5 h6)
      · exact ⟨hc.trans hc'.symm, hk.trans hk'.symm⟩

/-- Removing an entry: the inode lost its only name. -/
theorem Sound.unlink (h : Sound s) (hok : s.Ok) (hr : Removed s d j n nm i s') : Sound s' := by
  obtain ⟨x, hx, hxn, hokT, hxT⟩ := Removed.before hok hr
  have hok₁ := hok.get hr.room
  have hdel : ∀ m, (((s.get i n).mark i).setEnt d j none).Del m ↔ s.Del m ∨ m = n := fun m => by
    have : (((s.get i n).mark i).setEnt d j none).Del m ↔ ((s.get i n).mark i).Del m := Iff.rfl
    rw [this, del_mark hok₁ hx, del_get, hxn]
  -- all entries but the removed one are there as before
  have hold : ∀ {c k e}, (((s.get i n).mark i).setEnt d j none).ent c k = some e →
      ¬ (c = d ∧ k = j) ∧ s.ent c k = some e := fun {c k e} he => by
    by_cases hc : c = d ∧ k = j
    · rw [hc.1, hc.2, setEnt_self] at he
      cases he
    · rw [setEnt_ne (by tauto)] at he
      exact ⟨hc, he⟩
  obtain ⟨-, -, hn1⟩ := h.target d j n nm hr.ent hr.notDot hr.notDotdot
  rw [hr.eq]
  refine Sound.put ?_ hokT hxT
  refine ⟨⟨h.root.1, fun hc => ?_⟩, fun c k e he => h.plain c k e (hold he).2, fun c hc => ?_,
    fun c k m nm' he => h.name c k m nm' (hold he).2, fun c k l m m' nm' h1 h2 =>
      h.uniq c k l m m' nm' (hold h1).2 (hold h2).2,
    fun c k m nm' he h1 h2 => ?_, fun c k c' k' m nm₁ nm₂ h1 h2 h3 h4 =>
      h.one c k c' k' m nm₁ nm₂ (hold h1).2 h2 h3 (hold h4).2⟩
  · rcases (hdel 1).1 hc with hc | hc
    · exact h.root.2 hc
    · exact hn1 hc.symm
  · obtain ⟨h0, p, h1⟩ := h.dir c hc
    have hent := hr.ent
    have hj0 : ¬ (c = d ∧ 0 = j) := by
      rintro ⟨rfl, rfl⟩
      rw [hent] at h0
      cases h0
      exact hr.notDot rfl
    have hj1 : ¬ (c = d ∧ 1 = j) := by
      rintro ⟨rfl, rfl⟩
      rw [hent] at h1
      cases h1
      exact hr.notDotdot rfl
    rw [setEnt_ne (by tauto), setEnt_ne (by tauto)]
    exact ⟨h0, p, h1⟩
  · obtain ⟨hne, he'⟩ := hold he
    obtain ⟨h3, h4, h5⟩ := h.target c k m nm' he' h1 h2
    refine ⟨h3, fun hc => ?_, h5⟩
    rcases (hdel m).1 hc with hc | rfl
    · exact h4 hc
    · exact hne (h.one c k d j m nm' nm he' h1 h2 hr.ent hr.notDot hr.notDotdot)

/-- Only directories have entries, so truncating anything else changes none. -/
theorem Sound.trunc (h : Sound s) (hn : s.type n ≠ typeDir) : s.trunc n = s := by
  have hnone : s.ent n = fun _ => none := funext fun j => by
    cases he : s.ent n j with
    | none => rfl
    | some e => exact absurd (h.plain n j e he) hn
  unfold Ns.trunc
  rw [← hnone, Function.update_eq_self]

/-- Every name in the namespace but `.` and `..` leads to an allocated inode. -/
theorem Sound.named (h : Sound s) (c : Nat) : Fs.Named s c := fun d j n nm _ he h1 h2 => (h.target d j n nm he h1 h2).1

end TinyOS.Ns
