/-
Where inodes stand in the namespace: the parent of a directory is a directory that is not removed,
and what is allocated is removed or has its place below the root. Both survive the operations that
create nothing in removed directories and, for the parents, remove no directory above another.
-/
import TinyOS.Fs.Lost

namespace TinyOS.Ns

open TinyOS.Fs (typeNone typeDir typeFile typeDev dot dotdot Created Removed)

variable {s s' : Ns} {c d e n m p i j k t : Nat} {x : Seat} {nm : List UInt8}

/-- A state in the middle of a removal: the entry is gone and the inode is marked. -/
theorem Removed.marked (hok : s.Ok) (hr : Removed s d j n nm i s') :
    ∃ y, (((s.get i n).mark i).setEnt d j none).Ok ∧ (((s.get i n).mark i).setEnt d j none).seat i = some y ∧
      (∀ m, (((s.get i n).mark i).setEnt d j none).Del m ↔ s.Del m ∨ m = n) ∧
      ∀ c k e, (((s.get i n).mark i).setEnt d j none).ent c k = some e ↔ ¬ (c = d ∧ k = j) ∧ s.ent c k = some e := by
  obtain ⟨x, hx, hxn, hokT, hxT⟩ := Removed.before hok hr
  refine ⟨_, hokT, hxT, fun m => ?_, fun c k e => ?_⟩
  · have : (((s.get i n).mark i).setEnt d j none).Del m ↔ ((s.get i n).mark i).Del m := Iff.rfl
    rw [this, del_mark (hok.get hr.room) hx, del_get, hxn]
  · by_cases hc : c = d ∧ k = j
    · rw [hc.1, hc.2, setEnt_self]
      simp
    · rw [setEnt_ne (by tauto)]
      exact ⟨fun he => ⟨hc, he⟩, fun he => he.2⟩

/-- There is one entry that is removed. -/
theorem Removed.unique {d' j' n' i' : Nat} {nm' : List UInt8} (hs : s.Sound) (hok : s.Ok) (hr : Removed s d j n nm i s')
    (hr' : Removed s d' j' n' nm' i' s') : d = d' ∧ j = j' := by
  have hgone : s'.ent d j = none := by
    obtain ⟨y, hokT, hyT, -, -⟩ := Removed.marked hok hr
    rw [hr.eq]
    rcases put_cases hokT hyT with ⟨-, -, -, he⟩ | ⟨-, -, ⟨-, -, he⟩ | ⟨-, -, he⟩⟩
    · rw [he, setEnt_self]
    · rw [he, setEnt_self]
    · by_cases hd : d = y.no
      · rw [he, hd, Function.update_self]
      · rw [he, Function.update_of_ne hd, setEnt_self]
  by_contra hne
  -- in the other removal it would go with its directory, but that has only the dots
  obtain ⟨y, hy, hyn, hokT, hyT⟩ := Removed.before hok hr'
  have hkept : (((s.get i' n').mark i').setEnt d' j' none).ent d j = some (n, nm) := by
    rw [setEnt_ne (by tauto)]
    exact hr.ent
  rw [hr'.eq] at hgone
  rcases put_cases hokT hyT with ⟨-, -, -, he⟩ | ⟨-, -, ⟨-, -, he⟩ | ⟨-, -, he⟩⟩
  · rw [he, hkept] at hgone
    cases hgone
  · rw [he, hkept] at hgone
    cases hgone
  · by_cases hd : d = y.no
    · obtain rfl := hd.trans hyn
      have hdir := hs.plain d j _ hr.ent
      have hj : ¬ 2 ≤ j := fun hj => by
        cases (hr'.empty hdir j hj).symm.trans hr.ent
      obtain ⟨h0, q, h1⟩ := hs.dir d hdir
      have hj' : j = 0 ∨ j = 1 := by omega
      obtain rfl | rfl := hj'
      · cases h0.symm.trans hr.ent
        exact hr.notDot rfl
      · cases h1.symm.trans hr.ent
        exact hr.notDotdot rfl
    · rw [he, Function.update_of_ne hd, hkept] at hgone
      cases hgone

theorem Created.del (hcr : Created s d j n t nm i s') : s'.Del m ↔ s.Del m := by
  rw [hcr.eq, del_get]
  unfold Del
  rw [create_seat]

theorem Created.not_del (hl : s.Live) (hcr : Created s d j n t nm i s') : ¬ s.Del n := by
  rintro ⟨l, y, hy, hyn, -⟩
  exact hl n ⟨l, y, hy, hyn⟩ hcr.new

/-! ## Parents -/

/-- The parent of a directory is a directory that is not removed, and only the root is its own. -/
structure Parents (s : Ns) : Prop where
  kinds : ∀ n, s.type n = typeNone ∨ s.type n = typeFile ∨ s.type n = typeDir ∨ s.type n = typeDev
  up : ∀ d p, s.ent d 1 = some (p, dotdot) → s.type p = typeDir ∧ ¬ s.Del p
  self : ∀ d, s.ent d 1 = some (d, dotdot) → d = 1

theorem Parents.get (h : s.Parents) : (s.get i n).Parents :=
  ⟨h.kinds, fun d p he => by rw [del_get]; exact h.up d p he, h.self⟩

theorem Parents.put (h : s.Parents) (hok : s.Ok) (hx : s.seat i = some x) : (s.put i).Parents := by
  rcases put_cases hok hx with ⟨-, hdel, ht, he⟩ | ⟨-, hdel, ⟨-, ht, he⟩ | ⟨hgone, ht, he⟩⟩
  · exact ⟨by rw [ht]; exact h.kinds, by
      rw [ht, he]; exact fun d p hp => (h.up d p hp).imp id fun hn hc => hn ((hdel p).1 hc), by rw [he]; exact h.self⟩
  · exact ⟨by rw [ht]; exact h.kinds, by
      rw [ht, he]; exact fun d p hp => (h.up d p hp).imp id fun hn hc => hn ((hdel p).1 hc).1, by rw [he]; exact h.self⟩
  have hent : ∀ {d k q}, (s.put i).ent d k = some q → s.ent d k = some q := fun {d k q} hq => by
    rw [he] at hq
    by_cases hd : d = x.no
    · rw [hd, Function.update_self] at hq
      cases hq
    · rw [Function.update_of_ne hd] at hq
      exact hq
  refine ⟨fun n => ?_, fun d p hp => ?_, fun d hd => h.self d (hent hd)⟩
  · rw [ht]
    by_cases hn : n = x.no
    · rw [hn, Function.update_self]
      exact Or.inl rfl
    · rw [Function.update_of_ne hn]
      exact h.kinds n
  · obtain ⟨h1, h2⟩ := h.up d p (hent hp)
    have hpx : p ≠ x.no := fun hc => h2 (hc ▸ hgone)
    rw [ht, Function.update_of_ne hpx]
    exact ⟨h1, fun hc => h2 ((hdel p).1 hc).1⟩

theorem Parents.create (h : s.Parents) (hs : s.Sound) (hcr : Created s d j n t nm i s')
    (ht : t = typeFile ∨ t = typeDir ∨ t = typeDev) (hd : t = typeDir → ¬ s.Del d) : (s.create d j n t nm).Parents := by
  obtain ⟨-, hj1, -, -⟩ := hs.fresh hcr
  have hdn := hcr.ne
  have hdel : ∀ m, (s.create d j n t nm).Del m ↔ s.Del m := fun m => by
    unfold Del
    rw [create_seat]
  have htype : ∀ {m}, s.type m = typeDir → (s.create d j n t nm).type m = typeDir := fun {m} hm => by
    have hmn : m ≠ n := by
      rintro rfl
      rw [hcr.new] at hm
      cases hm
    rw [create_type, Function.update_of_ne hmn]
    exact hm
  -- the parent of a directory is the old one, or the one of the new directory
  have hup : ∀ {c p}, (s.create d j n t nm).ent c 1 = some (p, dotdot) →
      (c ≠ n ∧ s.ent c 1 = some (p, dotdot)) ∨ (c = n ∧ t = typeDir ∧ p = d) := fun {c p} hp => by
    rcases create_ent_cases hdn hp with hold | ⟨-, hk, -⟩ | ⟨hc, htd, ⟨hk, -⟩ | ⟨-, hnew⟩⟩
    · exact Or.inl hold
    · exact absurd hk.symm hj1
    · exact absurd hk Nat.one_ne_zero
    · exact Or.inr ⟨hc, htd, (Prod.mk.inj hnew).1⟩
  refine ⟨fun m => ?_, fun c p hp => ?_, fun c hc => ?_⟩
  · rw [create_type]
    by_cases hm : m = n
    · rw [hm, Function.update_self]
      exact Or.inr ht
    · rw [Function.update_of_ne hm]
      exact h.kinds m
  · rw [hdel]
    rcases hup hp with ⟨-, hp'⟩ | ⟨-, htd, rfl⟩
    · obtain ⟨h1, h2⟩ := h.up c p hp'
      exact ⟨htype h1, h2⟩
    · exact ⟨htype hcr.dir, hd htd⟩
  · rcases hup hc with ⟨-, hc'⟩ | ⟨hcn, -, hcd⟩
    · exact h.self c hc'
    · exact absurd (hcd.symm.trans hcn) hdn

/-- An inode is removed that no other directory has as its parent. -/
theorem Parents.unlink (h : s.Parents) (hs : s.Sound) (hok : s.Ok) (hr : Removed s d j n nm i s')
    (hup : ∀ e, e ≠ n → s.ent e 1 ≠ some (n, dotdot)) : s'.Parents := by
  obtain ⟨y, hokT, hyT, hdel, hent⟩ := Removed.marked hok hr
  obtain ⟨-, -, hn1⟩ := hs.target d j n nm hr.ent hr.notDot hr.notDotdot
  rw [hr.eq]
  refine Parents.put ⟨h.kinds, fun c p hp => ?_, fun c hc => h.self c ((hent c 1 _).1 hc).2⟩ hokT hyT
  have hp' := ((hent c 1 _).1 hp).2
  obtain ⟨h1, h2⟩ := h.up c p hp'
  refine ⟨h1, fun hc => ?_⟩
  rcases (hdel p).1 hc with hc | rfl
  · exact h2 hc
  · by_cases hcp : c = p
    · subst hcp
      exact hn1 (h.self c hp')
    · exact hup c hcp hp'

/-- In a directory whose parents are in order every entry leads to an allocated inode. -/
theorem Parents.entry (h : s.Parents) (hs : s.Sound) (he : s.ent d j = some (n, nm)) : s.type n ≠ typeNone := by
  obtain ⟨h0, p, h1⟩ := hs.dir d (hs.plain d j _ he)
  by_cases hd : nm = dot
  · have hj := hs.uniq d j 0 n d dot (hd ▸ he) h0
    rw [hj, h0] at he
    cases he
    rw [hs.plain d 0 _ h0]
    decide
  by_cases hdd : nm = dotdot
  · have hj := hs.uniq d j 1 n p dotdot (hdd ▸ he) h1
    rw [hj, h1] at he
    cases he
    rw [(h.up d n h1).1]
    decide
  exact (hs.target d j n nm he hd hdd).1

theorem Parents.walk (h : s.Parents) (hs : s.Sound) (hc : s.type c ≠ typeNone) (hw : s.Walk c n) :
    s.type n ≠ typeNone := by
  cases hw with
  | refl => exact hc
  | tail _ hn =>
    obtain ⟨j, nm, he⟩ := hn
    exact h.entry hs he

/-! ## Places -/

/-- Inode `n` has the place `j` in directory `d`: the entry there names it otherwise than by `.` or `..`. -/
def At (s : Ns) (d j n : Nat) : Prop := ∃ nm, s.ent d j = some (n, nm) ∧ nm ≠ dot ∧ nm ≠ dotdot

/-- Inode `n` is below the root. -/
def Below (s : Ns) : Nat → Prop := Relation.ReflTransGen (fun d n => ∃ j, s.At d j n) 1

/-- What is allocated is the root, or removed, or has a place in a directory below the root; removed
directories are empty. -/
structure Placed (s : Ns) : Prop where
  place : ∀ n, s.type n ≠ typeNone → n = 1 ∨ s.Del n ∨ ∃ d j, s.At d j n ∧ s.Below d
  bare : ∀ d, s.Del d → ∀ k, 2 ≤ k → s.ent d k = none

theorem Below.walk (h : s.Below n) : s.Walk 1 n := by
  induction h with
  | refl => exact .refl
  | tail _ hn ih =>
    obtain ⟨j, nm, he, -⟩ := hn
    exact ih.tail ⟨j, nm, he⟩

theorem Below.not_del (h : s.Below n) (h1 : ¬ s.Del 1) (ht : ∀ d j n, s.At d j n → ¬ s.Del n) : ¬ s.Del n := by
  cases h with
  | refl => exact h1
  | tail _ hn =>
    obtain ⟨j, hj⟩ := hn
    exact ht _ j n hj

/-- The places of what is not removed stay, so what was below the root still is. -/
theorem Below.keep (h : s.Below n) (hk : ∀ d j m, s.Below d → s.At d j m → s.Below m → s'.At d j m) : s'.Below n := by
  induction h with
  | refl => exact .refl
  | tail hb hn ih =>
    obtain ⟨j, hj⟩ := hn
    exact ih.tail ⟨j, hk _ j _ hb hj (hb.tail ⟨j, hj⟩)⟩

theorem Sound.not_del (hs : s.Sound) (h : s.At d j n) : ¬ s.Del n := by
  obtain ⟨nm, he, h1, h2⟩ := h
  exact (hs.target d j n nm he h1 h2).2.1

theorem Placed.get (h : s.Placed) : (s.get i n).Placed :=
  ⟨fun m hm => by rw [del_get]; exact h.place m hm, fun d hd => h.bare d (del_get.1 hd)⟩

theorem Placed.put (h : s.Placed) (hok : s.Ok) (hx : s.seat i = some x) (h1 : ¬ s.Del 1)
    (ht : ∀ d j n, s.At d j n → ¬ s.Del n) : (s.put i).Placed := by
  have hat : (s.put i).ent = s.ent → ∀ {d j m}, s.At d j m → (s.put i).At d j m := fun he {d j m} hj => by
    unfold At
    rw [he]
    exact hj
  rcases put_cases hok hx with ⟨-, hdel, hty, he⟩ | ⟨-, hdel, ⟨hkeep, hty, he⟩ | ⟨hgone, hty, he⟩⟩
  · refine ⟨fun n hn => ?_, fun d hd => by rw [he]; exact h.bare d ((hdel d).1 hd)⟩
    rw [hty] at hn
    rw [hdel]
    exact (h.place n hn).imp id (Or.imp id fun ⟨d, j, ha, hb⟩ =>
      ⟨d, j, hat he ha, hb.keep fun _ _ _ _ hj _ => hat he hj⟩)
  · refine ⟨fun n hn => ?_, fun d hd => by rw [he]; exact h.bare d ((hdel d).1 hd).1⟩
    rw [hty] at hn
    rw [hdel]
    refine (h.place n hn).imp id (Or.imp (fun hd => ⟨hd, ?_⟩) fun ⟨d, j, ha, hb⟩ =>
      ⟨d, j, hat he ha, hb.keep fun _ _ _ _ hj _ => hat he hj⟩)
    rintro rfl
    exact hkeep hd
  -- the inode that goes is nowhere below the root
  have hstay : ∀ {d j m}, s.Below d → s.At d j m → (s.put i).At d j m := fun {d j m} hb hj => by
    have hdx : d ≠ x.no := fun hc => hb.not_del h1 ht (hc ▸ hgone)
    unfold At
    rw [he, Function.update_of_ne hdx]
    exact hj
  refine ⟨fun n hn => ?_, fun d hd k hk => ?_⟩
  · rw [hty] at hn
    have hnx : n ≠ x.no := by
      rintro rfl
      rw [Function.update_self] at hn
      exact hn rfl
    rw [Function.update_of_ne hnx] at hn
    rw [hdel]
    exact (h.place n hn).imp id (Or.imp (fun hd => ⟨hd, hnx⟩) fun ⟨d, j, ha, hb⟩ =>
      ⟨d, j, hstay hb ha, hb.keep fun _ _ _ hb' hj _ => hstay hb' hj⟩)
  · rw [he]
    by_cases hdx : d = x.no
    · rw [hdx, Function.update_self]
    · rw [Function.update_of_ne hdx]
      exact h.bare d ((hdel d).1 hd).1 k hk

/-- A new inode in a directory that is not removed. -/
theorem Placed.create (h : s.Placed) (hs : s.Sound) (hl : s.Live) (hcr : Created s d j n t nm i s') (hd : ¬ s.Del d) :
    (s.create d j n t nm).Placed := by
  obtain ⟨-, -, hdot, hdotdot⟩ := hs.fresh hcr
  have hdn := hcr.ne
  have hdel : ∀ m, (s.create d j n t nm).Del m ↔ s.Del m := fun m => by
    unfold Del
    rw [create_seat]
  have hstay : ∀ {c k m}, s.At c k m → (s.create d j n t nm).At c k m := fun {c k m} hk => by
    obtain ⟨nm', he, h1, h2⟩ := hk
    have hcn : c ≠ n := by
      rintro rfl
      have := hs.plain c k _ he
      rw [hcr.new] at this
      cases this
    refine ⟨nm', ?_, h1, h2⟩
    rw [create_ent hcn, if_neg]
    · exact he
    · rintro ⟨rfl, rfl⟩
      rw [hcr.empty] at he
      cases he
  have hbelow : ∀ {c}, s.Below c → (s.create d j n t nm).Below c := fun {c} hc => hc.keep fun _ _ _ _ hk _ => hstay hk
  have hdb : s.Below d := by
    rcases h.place d (by rw [hcr.dir]; decide) with rfl | hc | ⟨c, k, hc, hb⟩
    · exact .refl
    · exact absurd hc hd
    · exact hb.tail ⟨k, hc⟩
  refine ⟨fun m hm => ?_, fun c hc k hk => ?_⟩
  · rw [hdel]
    by_cases hmn : m = n
    · subst hmn
      refine Or.inr (Or.inr ⟨d, j, ⟨nm, ?_, hdot, hdotdot⟩, hbelow hdb⟩)
      rw [create_ent hdn, if_pos ⟨rfl, rfl⟩]
    · rw [create_type, Function.update_of_ne hmn] at hm
      exact (h.place m hm).imp id (Or.imp id fun ⟨c, k, ha, hb⟩ => ⟨c, k, hstay ha, hbelow hb⟩)
  · rw [hdel] at hc
    have hcn : c ≠ n := fun hcn => Created.not_del hl hcr (hcn ▸ hc)
    rw [create_ent hcn, if_neg]
    · exact h.bare c hc k hk
    · rintro ⟨rfl, -⟩
      exact hd hc

theorem Placed.unlink (h : s.Placed) (hs : s.Sound) (hok : s.Ok) (hr : Removed s d j n nm i s') : s'.Placed := by
  obtain ⟨y, hokT, hyT, hdel, hent⟩ := Removed.marked hok hr
  obtain ⟨-, -, hn1⟩ := hs.target d j n nm hr.ent hr.notDot hr.notDotdot
  have hempty : ∀ k, 2 ≤ k → s.ent n k = none := fun k hk => by
    cases he : s.ent n k with
    | none => rfl
    | some q =>
      rw [← he]
      exact hr.empty (hs.plain n k q he) k hk
  -- nothing has its place in what is removed
  have hchild : ∀ k m, ¬ s.At n k m := by
    rintro k m ⟨nm', he, h1, h2⟩
    obtain ⟨h0, p, hp⟩ := hs.dir n (hs.plain n k _ he)
    rcases (by omega : k = 0 ∨ k = 1 ∨ 2 ≤ k) with rfl | rfl | hk
    · rw [h0] at he
      cases he
      exact h1 rfl
    · rw [hp] at he
      cases he
      exact h2 rfl
    · rw [hempty k hk] at he
      cases he
  have hstay : ∀ {c k m}, m ≠ n → s.At c k m → (((s.get i n).mark i).setEnt d j none).At c k m := by
    rintro c k m hm ⟨nm', he, h1, h2⟩
    refine ⟨nm', (hent c k _).2 ⟨?_, he⟩, h1, h2⟩
    rintro ⟨rfl, rfl⟩
    rw [hr.ent] at he
    cases he
    exact hm rfl
  have hbelow : ∀ {c}, s.Below c → c ≠ n → (((s.get i n).mark i).setEnt d j none).Below c := fun {c} hc => by
    induction hc with
    | refl => exact fun _ => .refl
    | @tail b c hb hstep ih =>
      intro hcn
      obtain ⟨k, hk⟩ := hstep
      have hbn : b ≠ n := by
        rintro rfl
        exact hchild k c hk
      exact (ih hbn).tail ⟨k, hstay hcn hk⟩
  rw [hr.eq]
  refine Placed.put ⟨fun m hm => ?_, fun c hc k hk => ?_⟩ hokT hyT (fun hc => ?_) fun c k m hm hc => ?_
  · rw [hdel]
    rcases h.place m hm with h1 | h1 | ⟨c, k, ha, hb⟩
    · exact Or.inl h1
    · exact Or.inr (Or.inl (Or.inl h1))
    · by_cases hmn : m = n
      · exact Or.inr (Or.inl (Or.inr hmn))
      · have hcn : c ≠ n := by
          rintro rfl
          exact hchild k m ha
        exact Or.inr (Or.inr ⟨c, k, hstay hmn ha, hbelow hb hcn⟩)
  · have hnone : s.ent c k = none := by
      rcases (hdel c).1 hc with hc | rfl
      · exact h.bare c hc k hk
      · exact hempty k hk
    cases he : (((s.get i n).mark i).setEnt d j none).ent c k with
    | none => rfl
    | some q =>
      have := ((hent c k q).1 he).2
      rw [hnone] at this
      cases this
  · rcases (hdel 1).1 hc with hc | hc
    · exact hs.root.2 hc
    · exact hn1 hc.symm
  · obtain ⟨nm', he, h1, h2⟩ := hm
    obtain ⟨hne, he'⟩ := (hent c k _).1 he
    rcases (hdel m).1 hc with hc | rfl
    · exact (hs.target c k m nm' he' h1 h2).2.1 hc
    · exact hne (hs.one c k d j m nm' nm he' h1 h2 hr.ent hr.notDot hr.notDotdot)

/-- Inodes in use that are not removed are below the root. -/
theorem Placed.below (h : s.Placed) (hn : s.type n ≠ typeNone) (hd : ¬ s.Del n) : s.Below n := by
  rcases h.place n hn with rfl | hc | ⟨d, j, ha, hb⟩
  · exact .refl
  · exact absurd hc hd
  · exact hb.tail ⟨j, ha⟩

end TinyOS.Ns
