/-
A removed file that is still open: no path leads to it, from wherever a walk may start, and this
stays so until its last reference goes.
-/
import TinyOS.Fs.Sound

namespace TinyOS.Ns

open TinyOS.Fs (typeNone typeDir typeFile dot dotdot Created Removed)

variable {s s' : Ns} {R R' : Nat → Prop} {c d e n m i j k t : Nat} {x : Seat} {nm : List UInt8}

/-- No walk from a place in `R` ends in the removed file `n`. -/
structure Lost (s : Ns) (R : Nat → Prop) (n : Nat) : Prop where
  file : s.type n = typeFile
  del : s.Del n
  far : ∀ c, R c → ¬ s.Walk c n

theorem Lost.held (h : s.Lost R n) : s.Held n := by
  obtain ⟨i, x, hx, hn, -⟩ := h.del
  exact ⟨i, x, hx, hn⟩

/-- Fewer entries, fewer walks. -/
theorem Walk.mono (h : ∀ d j e, s'.ent d j = some e → s.ent d j = some e) (hw : s'.Walk c d) : s.Walk c d := by
  induction hw with
  | refl => exact .refl
  | tail _ hn ih =>
    obtain ⟨j, nm, he⟩ := hn
    exact ih.tail ⟨j, nm, h _ _ _ he⟩

/-- Places that can be reached are as good to start from as those they are reached from. -/
theorem Lost.reach (h : s.Lost R n) (hr : ∀ c, R' c → ∃ b, R b ∧ s.Walk b c) : s.Lost R' n :=
  ⟨h.file, h.del, fun c hc hw => by
    obtain ⟨b, hb, hbc⟩ := hr c hc
    exact h.far b hb (hbc.trans hw)⟩

theorem Lost.get (h : s.Lost R n) : (s.get i m).Lost R n :=
  ⟨h.file, del_get.2 h.del, fun c hc hw => h.far c hc (hw.mono fun _ _ _ he => he)⟩

/-- A reference given back, to another inode or not the last one. -/
theorem Lost.put (h : s.Lost R n) (hok : s.Ok) (hx : s.seat i = some x) (hn : (s.put i).Held n) :
    (s.put i).Lost R n := by
  rcases put_cases hok hx with ⟨-, hdel, ht, he⟩ | ⟨hheld, hdel, hgo⟩
  · refine ⟨by rw [ht]; exact h.file, (hdel n).2 h.del, fun c hc hw => h.far c hc (hw.mono fun d j e hent => ?_)⟩
    rw [he] at hent
    exact hent
  · have hne : n ≠ x.no := ((hheld n).1 hn).2
    refine ⟨?_, (hdel n).2 ⟨h.del, hne⟩, fun c hc hw => h.far c hc (hw.mono fun d j e hent => ?_)⟩
    · rcases hgo with ⟨-, ht, -⟩ | ⟨-, ht, -⟩
      · rw [ht]
        exact h.file
      · rw [ht, Function.update_of_ne hne]
        exact h.file
    · rcases hgo with ⟨-, -, he⟩ | ⟨-, -, he⟩
      · rw [he] at hent
        exact hent
      · rw [he] at hent
        by_cases hd : d = x.no
        · rw [hd, Function.update_self] at hent
          cases hent
        · rw [Function.update_of_ne hd] at hent
          exact hent

theorem Lost.put_kept (h : s.Lost R n) (hok : s.Ok) (hx : s.seat i = some x) (hk : s.Kept i) : (s.put i).Lost R n := by
  refine h.put hok hx ?_
  rcases put_cases hok hx with ⟨hheld, -⟩ | ⟨hheld, -, hgo⟩
  · exact (hheld n).2 h.held
  · refine (hheld n).2 ⟨h.held, ?_⟩
    rintro rfl
    have hd : x.del = true := (del_iff hok hx).1 h.del
    have h1 : x.ref = 1 := by
      by_contra hne
      have hself : (s.put i).Held x.no := by
        rw [put_ref hx hne]
        exact ⟨i, { x with ref := x.ref - 1 }, setSeat_self, rfl⟩
      exact ((hheld x.no).1 hself).2 rfl
    rw [hk x hx h1] at hd
    cases hd

theorem held_of_put (hok : s.Ok) (hx : s.seat i = some x) (hn : (s.put i).Held n) : s.Held n := by
  rcases put_cases hok hx with ⟨hheld, -⟩ | ⟨hheld, -⟩
  · exact (hheld n).1 hn
  · exact ((hheld n).1 hn).1

/-- A new inode in a directory that a walk reaches: the walks through it lead to nothing new. -/
theorem Lost.create (h : s.Lost R n) (hl : s.Live) (hnew : s.type m = typeNone) (hdm : d ≠ m)
    (hd : ∃ b, R b ∧ s.Walk b d) :
    (s.create d j m t nm).Lost R n := by
  have hnm : n ≠ m := fun hc => hl n h.held (hc ▸ hnew)
  have hwalk : ∀ {c e}, R c → (s.create d j m t nm).Walk c e → e = m ∨ ∃ b, R b ∧ s.Walk b e := fun {c e} hc hw => by
    induction hw with
    | refl => exact Or.inr ⟨c, hc, .refl⟩
    | @tail e e' _ hn ih =>
      obtain ⟨k, nm', he⟩ := hn
      rcases create_ent_cases hdm he with ⟨hem, hold⟩ | ⟨-, -, hnew⟩ | ⟨-, -, ⟨-, hdot⟩ | ⟨-, hdotdot⟩⟩
      · obtain ⟨b, hb, hbe⟩ := ih.resolve_left hem
        exact Or.inr ⟨b, hb, hbe.tail ⟨k, nm', hold⟩⟩
      · exact Or.inl (Prod.mk.inj hnew).1
      · exact Or.inl (Prod.mk.inj hdot).1
      · rw [(Prod.mk.inj hdotdot).1]
        exact Or.inr hd
  refine ⟨by rw [create_type, Function.update_of_ne hnm]; exact h.file, ?_, fun c hc hw => ?_⟩
  · unfold Del
    rw [create_seat]
    exact h.del
  · rcases hwalk hc hw with hc | ⟨b, hb, hbn⟩
    · exact hnm hc
    · exact h.far b hb hbn

/-- Another inode is removed. -/
theorem Lost.unlink (h : s.Lost R n) (hok : s.Ok) (hr : Removed s d j m nm i s') (hn : s'.Held n) : s'.Lost R n := by
  obtain ⟨x, hx, hxn, hokT, hxT⟩ := Removed.before hok hr
  have hok₁ := hok.get hr.room
  have hT : (((s.get i m).mark i).setEnt d j none).Lost R n := by
    refine ⟨h.file, ?_, fun c hc hw => h.far c hc (hw.mono fun b k e he => ?_)⟩
    · have hdel : ((s.get i m).mark i).Del n := (del_mark hok₁ hx).2 (Or.inl (del_get.2 h.del))
      exact hdel
    · by_cases hbd : b = d ∧ k = j
      · rw [hbd.1, hbd.2, setEnt_self] at he
        cases he
      · rw [setEnt_ne (by tauto)] at he
        exact he
  rw [hr.eq] at hn ⊢
  exact hT.put hokT hxT hn

/-- The file of which the only name is removed, while it is in use: what could still lead to it is a
`..` that names its number. -/
theorem Removed.lost (hs : s.Sound) (hok : s.Ok) (hr : Removed s d j n nm i s') (ht : s.type n = typeFile)
    (hroot : ∀ c, R c → s.type c = typeDir) (hup : ∀ c e, R c → s.Walk c e → ∀ k, s.ent e k ≠ some (n, dotdot))
    (hn : s'.Held n) : s'.Lost R n := by
  obtain ⟨x, hx, hxn, hokT, hxT⟩ := Removed.before hok hr
  have hok₁ := hok.get hr.room
  have hT : (((s.get i n).mark i).setEnt d j none).Lost R n := by
    refine ⟨ht, ?_, fun c hc hw => ?_⟩
    · have hdel : ((s.get i n).mark i).Del n := (del_mark hok₁ hx).2 (Or.inr hxn.symm)
      exact hdel
    · -- the last step of a walk to the file
      cases hw with
      | refl =>
        have := hroot n hc
        rw [ht] at this
        cases this
      | @tail e _ hw hstep =>
        obtain ⟨k, nm', he⟩ := hstep
        have hold : ∀ b l q, (((s.get i n).mark i).setEnt d j none).ent b l = some q → ¬ (b = d ∧ l = j) ∧
            s.ent b l = some q :=
          fun b l q hq => by
            by_cases hbd : b = d ∧ l = j
            · rw [hbd.1, hbd.2, setEnt_self] at hq
              cases hq
            · rw [setEnt_ne (by tauto)] at hq
              exact ⟨hbd, hq⟩
        obtain ⟨hne, he'⟩ := hold _ _ _ he
        have hw' : s.Walk c e := Walk.mono (fun b l q hq => (hold b l q hq).2) hw
        by_cases h1 : nm' = dot
        · obtain ⟨h0, -⟩ := hs.dir e (hs.plain e k _ he')
          have hk := hs.uniq e k 0 n e dot (h1 ▸ he') h0
          rw [hk, h0] at he'
          have hen : e = n := congrArg Prod.fst (Option.some.inj he')
          have := hs.plain e 0 _ h0
          rw [hen, ht] at this
          cases this
        by_cases h2 : nm' = dotdot
        · exact hup c e hc hw' k (h2 ▸ he')
        · exact hne (hs.one e k d j n nm' nm he' h1 h2 hr.ent hr.notDot hr.notDotdot)
  rw [hr.eq] at hn ⊢
  exact hT.put hokT hxT hn

end TinyOS.Ns

namespace TinyOS.Fs

open TinyOS.Lib

variable {fs fs' : Fs} {i j n : Nat} {x : Seat}

/-- The blocks of inode `n`, its indirect block included. -/
def Owns (m : Store) (n b : Nat) : Prop := (∃ k, holds m (.data n k) b) ∨ holds m (.indirect n) b

/-- Inode `n` was erased: its disk inode is cleared and exactly its blocks are free, while all other
inodes and the slots of the table but `i` are as they were. -/
structure Erased (i n : Nat) (fs fs' : Fs) : Prop where
  self : node fs'.disk n = Dinode.zero
  bits : ∀ b < 32768, bit fs'.disk b = false ↔ bit fs.disk b = false ∨ Owns fs.disk n b
  other : ∀ j < 1920, j ≠ n → node fs'.disk j = node fs.disk j ∧ content fs'.disk j = content fs.disk j
  slots : ∀ j, j ≠ i → fs'.inodes j = fs.inodes j

theorem Vanished.holds (h : Vanished i n fs fs') (hn : n < 1920) {b : Nat} (s : Slot) :
    holds fs'.disk s b ↔ holds fs.disk s b ∧ ∀ k, s ≠ .data n k ∧ s ≠ .indirect n := by
  -- the inode has no blocks any more
  have hzero : ∀ k, blk fs'.disk n k = 0 := fun k => by
    have h12 : (node fs'.disk n).addrs 12 = 0 := by rw [h.self]; rfl
    rcases Nat.lt_or_ge k 12 with hk | hk
    · rw [blk_direct hk, h.self]
      rfl
    · exact blk_none hk h12
  cases s with
  | data j k =>
    by_cases hj : j = n
    · subst hj
      refine ⟨fun hh => absurd hh.2.2.symm ?_, fun hh => absurd rfl (hh.2 k).1⟩
      rw [hzero]
      exact hh.2.1
    · refine ⟨fun hh => ⟨⟨hh.1, hh.2.1, ?_⟩, fun l => ⟨?_, ?_⟩⟩, fun hh => ⟨hh.1.1, hh.1.2.1, ?_⟩⟩
      · rw [← h.blks j hh.1 hj]
        exact hh.2.2
      · rintro ⟨⟩
        exact hj rfl
      · rintro ⟨⟩
      · rw [h.blks j hh.1.1 hj]
        exact hh.1.2.2
  | indirect j =>
    by_cases hj : j = n
    · subst hj
      refine ⟨fun hh => absurd hh.2.2.symm ?_, fun hh => absurd rfl (hh.2 0).2⟩
      rw [h.self]
      exact hh.2.1
    · refine ⟨fun hh => ⟨⟨hh.1, hh.2.1, ?_⟩, fun l => ⟨?_, ?_⟩⟩, fun hh => ⟨hh.1.1, hh.1.2.1, ?_⟩⟩
      · rw [← h.other j hh.1 hj]
        exact hh.2.2
      · rintro ⟨⟩
      · rintro ⟨⟩
        exact hj rfl
      · rw [h.other j hh.1.1 hj]
        exact hh.1.2.2

/-- The last reference to a removed inode erases it. -/
theorem iclose_erased (h : Good fs) (hl : (view fs).Live) (hx : (view fs).seat i = some x) (h1 : x.ref = 1)
    (hd : x.del = true) : ∃ fs', fs.iclose i = some fs' ∧ Erased i x.no fs fs' := by
  have ht := hl _ ⟨i, x, hx, rfl⟩
  have hlt := (h.seat_lt hx).2
  obtain ⟨fs', he, hv⟩ := iclose_last h hx h1 hd ht
  obtain ⟨fs₁, he₁, -, hg⟩ := iclose_view h hx fun _ _ => ht
  obtain rfl := Option.some.inj (he.symm.trans he₁)
  refine ⟨fs', he, hv.self, fun b hb => ?_, fun j hj hne => ⟨hv.other j hj hne, ?_⟩, hv.slots⟩
  swap
  · exact content_congr (hv.other j hj hne) (hv.bytes j hj hne)
  have hown : ∀ s, holds fs.disk s b → (∀ k, s ≠ .data x.no k ∧ s ≠ .indirect x.no) ∨
      Owns fs.disk x.no b := fun s hs => by
    by_cases hk : ∀ k, s ≠ .data x.no k ∧ s ≠ .indirect x.no
    · exact Or.inl hk
    · simp only [not_forall, not_and_or, not_not] at hk
      obtain ⟨k, rfl | rfl⟩ := hk
      · exact Or.inr (Or.inl ⟨k, hs⟩)
      · exact Or.inr (Or.inr hs)
  rcases Nat.lt_or_ge b 64 with hb64 | hb64
  · -- metadata stays in use and belongs to no inode
    have hno : ¬ Owns fs.disk x.no b := by
      rintro (⟨k, hk⟩ | hk)
      · exact absurd (h.inv.owned.dataBlk hk).1 (by omega)
      · exact absurd (h.inv.owned.dataBlk hk).1 (by omega)
    rw [hg.inv.owned.used b hb64, h.inv.owned.used b hb64]
    simp [hno]
  · have hu : DataBlk b := ⟨hb64, hb⟩
    rw [hg.inv.owned.own.part b hu, h.inv.owned.own.part b hu]
    constructor
    · intro hfree
      by_cases hnone : ∀ s, ¬ holds fs.disk s b
      · exact Or.inl hnone
      · simp only [not_forall, not_not] at hnone
        obtain ⟨s, hs⟩ := hnone
        refine Or.inr ((hown s hs).resolve_left fun hk => ?_)
        exact hfree s ((hv.holds hlt s).2 ⟨hs, hk⟩)
    · intro hor s hs
      obtain ⟨hs', hk⟩ := (hv.holds hlt s).1 hs
      rcases hor with hnone | ⟨k, hk'⟩ | hk'
      · exact hnone s hs'
      · exact (hk k).1 (h.inv.owned.own.inj s _ b hs' hk')
      · exact (hk 0).2 (h.inv.owned.own.inj s _ b hs' hk')

/-- A block that `balloc` hands out belongs to nobody. -/
theorem balloc_fresh (h : Good fs) {b : Nat} (he : fs.balloc = some (b, fs')) : ¬ Owns fs.disk n b := by
  have hb := balloc_some h.inv.sb h.inv.bit33 he
  have hfree := h.inv.owned.free_dataBlk hb.lt hb.free
  rintro (⟨k, hk⟩ | hk)
  · exact h.inv.owned.own.not_hold hfree hb.free _ hk
  · exact h.inv.owned.own.not_hold hfree hb.free _ hk

end TinyOS.Fs
