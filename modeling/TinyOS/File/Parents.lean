/-
Names lead to inodes in use: as long as nobody makes a directory in a removed one or removes a
directory above a removed one, what a path finds is a file, a directory or a device, and `..` is the
directory that a directory was made in.
-/
import TinyOS.File.Lift
import TinyOS.File.Unlinked
import TinyOS.Fs.Placed

namespace TinyOS

open TinyOS.Lib TinyOS.Fs TinyOS.Mkfs

namespace Filesys

variable {u u' u₀ u₁ v : Filesys} {n p c i j l : Nat} {d : Desc} {fs fs' : Fs} {path nm : List UInt8}
  {files : List (List UInt8 × List UInt8)} {boot₀ m : Store}

/-! ## The start -/

/-- What holds of the namespace of an image, and of what is made in it while nothing is removed, holds
when the first process starts. -/
theorem Steady.boot {P : Ns → Prop} (hP : Steady P) (hname : ∀ f ∈ files, FileName f.1)
    (huniq : (files.map Prod.fst).Nodup)
    (hm : mkfs boot₀ files = some m) (hb : boot m = some u) (hstart : ∀ fs, Mounted files fs → P (view fs))
    (hcr : ∀ s c j n t nm i s', s.Ok → s.Live → s.Sound → P s → Created s c j n t nm i s' → t = typeDir ∨ t = typeDev →
      P (s.create c j n t nm)) : P (view u.fs) := by
  obtain ⟨-, hmt⟩ := mount_mounted hm
  obtain ⟨fs, fs', i, hdev, ho, rfl⟩ := boot_some hm hb
  have hrest := mounted_rest hmt (mkfs_short hname hm) huniq
  have h₁ := hP.initDev (p := 0) (d := noFiles 0) hrest rfl (hstart _ hmt) hcr hdev
  have h₂ := hrest.initDev (p := 0) (d := noFiles 0) rfl hdev
  obtain ⟨x, hx⟩ := h₂.cwd_seat (p := 0) (d := noFiles 0) rfl
  rcases iopen_view h₂.good hx ho with ⟨hc, -⟩ | ⟨l, n, -, -, hv, -⟩ | ⟨hc, -⟩
  · cases hc
  · show P (view fs')
    rw [hv]
    exact hP.get _ _ _ h₁
  · exact absurd rfl hc

theorem Mounted.parents {fs : Fs} (h : Mounted files fs) : (view fs).Parents := by
  -- only the root has entries, and the second one is its `..`
  have hroot : ∀ {d p}, (view fs).ent d 1 = some (p, dotdot) → d = 1 ∧ p = 1 := fun {d p} he => by
    rw [h.ent] at he
    split at he
    · next hd =>
      rcases rootNames_get.1 he with ⟨hj, -⟩ | ⟨-, hq⟩ | ⟨k, -, hj, -⟩
      · cases hj
      · cases hq
        exact ⟨hd, rfl⟩
      · omega
    · cases he
  refine ⟨fun n => ?_, fun d p he => ?_, fun d he => (hroot he).1⟩
  · rw [h.type]
    split
    · exact Or.inr (Or.inr (Or.inl rfl))
    · split
      · exact Or.inr (Or.inl rfl)
      · exact Or.inl rfl
  · obtain ⟨-, rfl⟩ := hroot he
    exact ⟨by rw [h.type, if_pos rfl], Fs.Mounted.not_del h 1⟩

/-- Nothing is removed, and what holds of the places and parents of such a namespace. -/
def Whole (s : Ns) : Prop := s.Parents ∧ s.Placed ∧ ∀ n, ¬ s.Del n

theorem Mounted.whole {fs : Fs} (h : Mounted files fs) (hname : ∀ f ∈ files, FileName f.1 ∧ f.1.length ≤ 27) :
    Whole (view fs) := by
  have hdel : ∀ n, ¬ (view fs).Del n := Fs.Mounted.not_del h
  refine ⟨Mounted.parents h, ⟨fun n hn => ?_, fun d hd => absurd hd (hdel d)⟩, hdel⟩
  rw [h.type] at hn
  split at hn
  · next h1 => exact Or.inl h1
  · split at hn
    · next h2 =>
      have hk : n - 2 < files.length := by omega
      obtain ⟨⟨hne, hz, hs, hdot, hdotdot⟩, -⟩ := hname _ (List.getElem_mem hk)
      refine Or.inr (Or.inr ⟨1, n, ⟨files[n - 2].1, ?_, hdot, hdotdot⟩, .refl⟩)
      rw [h.ent, if_pos rfl]
      refine rootNames_get.2 (Or.inr (Or.inr ⟨n - 2, hk, by omega, ?_⟩))
      rw [cstr_eq_self hz, show 2 + (n - 2) = n by omega]
    · exact absurd rfl hn

theorem whole_steady : Steady Whole where
  get _ _ _ h := ⟨h.1.get, h.2.1.get, fun n hn => h.2.2 n (Ns.del_get.1 hn)⟩
  put s i x hok _ _ hx h := by
    refine ⟨h.1.put hok hx, h.2.1.put hok hx (h.2.2 1) fun _ _ n _ => h.2.2 n, fun n hn => h.2.2 n ?_⟩
    rcases Ns.put_cases hok hx with ⟨-, hdel, -⟩ | ⟨-, hdel, -⟩
    · exact (hdel n).1 hn
    · exact ((hdel n).1 hn).1

/-- When the first process starts nothing is removed, and every inode has its place and its parent. -/
theorem boot_whole (hname : ∀ f ∈ files, FileName f.1) (huniq : (files.map Prod.fst).Nodup)
    (hm : mkfs boot₀ files = some m) (hb : boot m = some u) : Whole (view u.fs) := by
  refine whole_steady.boot hname huniq hm hb (fun fs h => Mounted.whole h (mkfs_short hname hm)) ?_
  intro s c j n t nm i s' _ hl hs h hcr ht
  refine ⟨h.1.create hs hcr (Or.inr ht) fun _ => h.2.2 c, h.2.1.create hs hl hcr (h.2.2 c), fun k hk => h.2.2 k ?_⟩
  unfold Ns.Del at hk ⊢
  rw [Ns.create_seat] at hk
  exact hk

/-! ## Parents in a run -/

theorem parents_steady : Steady Ns.Parents where
  get _ _ _ h := h.get
  put _ _ _ hok _ _ hx h := h.put hok hx

/-- The call makes no directory in a removed one, and does not remove a directory that another one has
as its parent. -/
def Tidy (u : Filesys) (p : Nat) : Call → Prop
  | .open path mode => ∀ d c j n nm l fs, u.procs p = some d →
      u.fs.iopen d.cwd path (openType mode) = some (some l, fs) →
      Created (view u.fs) c j n (openType mode) nm l (view fs) → openType mode = typeDir → ¬ (view u.fs).Del c
  | .unlink path => ∀ d c j n nm l fs, u.procs p = some d → u.fs.iremove d.cwd path = some (true, fs) →
      Removed (view u.fs) c j n nm l (view fs) → ∀ e, e ≠ n → (view u.fs).ent e 1 ≠ some (n, dotdot)
  | _ => True

/-- A step with a call that is tidy. -/
def TidyStep (u : Filesys) (c : Nat × Call) (u' : Filesys) : Prop := Step u c u' ∧ Tidy u c.1 c.2

/-- The directory that `iopen` creates in is the one that the path leads to. -/
theorem Rest.created_parent {x : Seat} {t : Nat} (hi : Rest u) (hx : (view u.fs).seat d.cwd = some x) (ht : t < 2 ^ 32)
    (ho : u.fs.iopen d.cwd path t = some (some l, fs)) (hcr : Created (view u.fs) c j n t nm l (view fs)) :
    (view u.fs).Parent (start path x.no) (names path) c nm := by
  have hnew : (view fs).ent c j = some (n, nm) := by
    rw [hcr.eq]
    show ((view u.fs).create c j n t nm).ent c j = _
    rw [Ns.create_ent hcr.ne, if_pos ⟨rfl, rfl⟩]
  rcases iopen_resolve hi.good hx ho with ⟨hl, -⟩ | ⟨i, n', -, -, hv, -⟩ | ⟨-, hmade⟩
  · cases hl
  · -- nothing would be new
    rw [hv] at hnew
    have hold : (view u.fs).ent c j = some (n, nm) := hnew
    rw [hcr.empty] at hold
    cases hold
  · obtain ⟨i, d', j', n', nm', -, hcr', hparent, -⟩ := hmade hi.live ht
    have hne : c ≠ n' := by
      rintro rfl
      cases hcr.dir.symm.trans hcr'.new
    rw [hcr'.eq] at hnew
    have hent : ((view u.fs).create d' j' n' t nm').ent c j = some (n, nm) := hnew
    rw [Ns.create_ent hne] at hent
    split_ifs at hent with hcj
    · rw [hcj.1]
      cases hent
      exact hparent
    · rw [hcr.empty] at hent
      cases hent

/-- What the state before says of a tidy `open`: no removed directory is where the path puts the new one. -/
theorem Rest.tidy_open {mode : Nat} (hi : Rest u)
    (h : openType mode = typeDir → ∀ d x c nm, u.procs p = some d → (view u.fs).seat d.cwd = some x →
      (view u.fs).Parent (start path x.no) (names path) c nm → (∀ j n, (view u.fs).ent c j ≠ some (n, nm)) →
      ¬ (view u.fs).Del c) :
    Tidy u p (.open path mode) := by
  intro d c j n nm l fs hp ho hcr ht
  obtain ⟨x, hx⟩ := hi.cwd_seat hp
  exact h ht d x c nm hp hx (hi.created_parent hx openType_lt ho hcr) fun k m => hcr.unique k m

/-- What it says of a tidy `unlink`: no directory but the one that the path leads to has that for its parent. -/
theorem Rest.tidy_unlink (hi : Rest u)
    (h : ∀ d x c j n nm, u.procs p = some d → (view u.fs).seat d.cwd = some x →
      (view u.fs).Parent (start path x.no) (names path) c nm → (view u.fs).ent c j = some (n, nm) →
      ∀ e, e ≠ n → (view u.fs).ent e 1 ≠ some (n, dotdot)) : Tidy u p (.unlink path) := by
  intro d c j n nm l fs hp hr hrem
  obtain ⟨x, hx⟩ := hi.cwd_seat hp
  rcases iremove_resolve hi.good hx (hi.sound.named _) hr with ⟨hb, -⟩ | ⟨-, c', j', n', nm', i', hrem', hparent, -⟩
  · cases hb
  · obtain ⟨rfl, rfl⟩ := Ns.Removed.unique hi.sound hi.good.ok hrem hrem'
    cases hrem.ent.symm.trans hrem'.ent
    exact h d x c j n nm hp hx hparent hrem.ent

theorem openType_kind {mode : Nat} (h : openType mode ≠ typeNone) :
    openType mode = typeFile ∨ openType mode = typeDir := by
  unfold openType at h ⊢
  split
  · split
    · exact Or.inr rfl
    · exact Or.inl rfl
  · next hc =>
    rw [if_neg hc] at h
    exact absurd rfl h

theorem Rest.allows_parents {c : Call} (hi : Rest u) (h : (view u.fs).Parents) (ht : Tidy u p c) :
    Allows Ns.Parents u p c := by
  cases c with
  | «open» path mode =>
    intro d l c j n nm fs hp ho hcr
    rw [hcr.eq]
    refine (h.create hi.sound hcr ?_ (ht d c j n nm l fs hp ho hcr)).get
    refine (openType_kind fun hc => ?_).imp id Or.inl
    obtain ⟨x, hx⟩ := hi.cwd_seat hp
    rcases iopen_view hi.good hx ho with ⟨hl, -⟩ | ⟨l', n', -, -, hv, -⟩ | ⟨ht0, -⟩
    · cases hl
    · have h1 : (view fs).ent c j = some (n, nm) := by
        rw [hcr.eq]
        show ((view u.fs).create c j n (openType mode) nm).ent c j = _
        rw [Ns.create_ent hcr.ne, if_pos ⟨rfl, rfl⟩]
      rw [hv] at h1
      have h2 : (view u.fs).ent c j = some (n, nm) := h1
      rw [hcr.empty] at h2
      cases h2
    · exact ht0 hc
  | unlink path =>
    intro d c j n nm l fs hp hr hrem
    exact h.unlink hi.sound hi.good.ok hrem (ht d c j n nm l fs hp hr hrem)
  | _ => trivial

theorem run_parents {cs : List (Nat × Call)} (hi : Rest u) (h : (view u.fs).Parents) (hr : Run TidyStep u cs u') :
    Rest u' ∧ (view u'.fs).Parents := by
  refine hr.invariant (I := fun u => Rest u ∧ (view u.fs).Parents) (fun v c v' hv hs => ?_) ⟨hi, h⟩
  exact ⟨hv.1.step hs.1, parents_steady.step hv.1 hv.2 (hv.1.allows_parents hv.2 hs.2) hs.1⟩

/-! ## The parent of one directory -/

/-- While `n` is a directory its parent is `c`. -/
def Child (n c : Nat) (s : Ns) : Prop := s.type n = typeDir → s.ent n 1 = some (c, dotdot)

theorem Child.put {s : Ns} {x : Seat} (h : Child n c s) (hok : s.Ok) (hx : s.seat i = some x) :
    Child n c (s.put i) := by
  rcases Ns.put_cases hok hx with ⟨-, -, ht, he⟩ | ⟨-, -, ⟨-, ht, he⟩ | ⟨-, ht, he⟩⟩
  · unfold Child
    rw [ht, he]
    exact h
  · unfold Child
    rw [ht, he]
    exact h
  · intro hn
    have hnx : n ≠ x.no := by
      rintro rfl
      rw [ht, Function.update_self] at hn
      cases hn
    rw [ht, Function.update_of_ne hnx] at hn
    rw [he, Function.update_of_ne hnx]
    exact h hn

theorem child_steady : Steady (Child n c) where
  get _ _ _ h := h
  put _ _ _ hok _ _ hx h := h.put hok hx

/-- No step gives a directory in use another parent. -/
theorem Rest.allows_child {cl : Call} (hi : Rest u) (hn : (view u.fs).type n = typeDir) (h : Child n c (view u.fs)) :
    Allows (Child n c) u p cl := by
  cases cl with
  | «open» path mode =>
    intro d l c' j n' nm fs hp ho hcr hdir
    obtain ⟨-, hj1, -, -⟩ := hi.sound.fresh hcr
    have hne : n ≠ n' := by
      rintro rfl
      rw [hcr.new] at hn
      cases hn
    rw [hcr.eq]
    show ((view u.fs).create c' j n' (openType mode) nm).ent n 1 = _
    rw [Ns.create_ent hne, if_neg (by rintro ⟨-, hz⟩; exact hj1 hz.symm)]
    exact h hn
  | unlink path =>
    intro d c' j n' nm l fs hp hr hrem
    obtain ⟨y, hokT, hyT, -, hent⟩ := Ns.Removed.marked hi.good.ok hrem
    rw [hrem.eq]
    refine Child.put (fun hn => (hent n 1 _).2 ⟨?_, h hn⟩) hokT hyT
    rintro ⟨rfl, rfl⟩
    have h1 := h hn
    rw [hrem.ent] at h1
    cases h1
    exact hrem.notDotdot rfl
  | _ => trivial

/-- A tidy step after which inode `n` is a directory. -/
def DirStep (n : Nat) (u : Filesys) (c : Nat × Call) (u' : Filesys) : Prop :=
  TidyStep u c u' ∧ (node u'.fs.disk n).type = typeDir

/-- The call makes the directory `n` in the directory `c`. -/
def Makes (u : Filesys) (p : Nat) (call : Call) (n c : Nat) : Prop :=
  ∃ path mode d l j nm fs, call = .open path mode ∧ u.procs p = some d ∧ openType mode = typeDir ∧
    u.fs.iopen d.cwd path typeDir = some (some l, fs) ∧ Created (view u.fs) c j n typeDir nm l (view fs)

theorem Makes.child {call : Call} (hi : Rest u) (hm : Makes u p call n c) (hs : u.step p call = some u') :
    n < 1920 ∧ Child n c (view u'.fs) := by
  obtain ⟨path, mode, d, l, j, nm, fs, rfl, hp, ht, ho, hcr⟩ := hm
  refine ⟨hcr.lt.2, child_steady.step hi (fun hn => ?_) ?_ hs⟩
  · rw [hcr.new] at hn
    cases hn
  · -- what `iopen` makes is the directory `n`
    intro d' l' c' j' n' nm' fs' hp' ho' hcr' hn
    obtain rfl := Option.some.inj (hp.symm.trans hp')
    rw [ht, ho] at ho'
    cases ho'
    rw [hcr.eq]
    show ((view u.fs).create c j n typeDir nm).ent n 1 = _
    rw [Ns.create_ent_new hcr.ne, if_pos rfl, if_neg Nat.one_ne_zero, if_pos rfl]

theorem run_child {cs : List (Nat × Call)} (hn : n < 1920) (hi : Rest u) (hp : (view u.fs).Parents)
    (hd : (node u.fs.disk n).type = typeDir) (hc : Child n c (view u.fs)) (hr : Run (DirStep n) u cs v) :
    (view v.fs).ent n 1 = some (c, dotdot) ∧ Rest v ∧ (view v.fs).Parents := by
  have key := hr.invariant
    (I := fun v => Rest v ∧ (view v.fs).Parents ∧ (node v.fs.disk n).type = typeDir ∧ Child n c (view v.fs))
    (fun v _ v' ⟨h1, h2, h3, h4⟩ hs => ⟨h1.step hs.1.1, parents_steady.step h1 h2 (h1.allows_parents h2 hs.1.2) hs.1.1,
      hs.2, child_steady.step h1 h4 (h1.allows_child ((view_type hn).trans h3) h4) hs.1.1⟩) ⟨hi, hp, hd, hc⟩
  obtain ⟨h1, h2, h3, h4⟩ := key
  exact ⟨h4 ((view_type hn).trans h3), h1, h2⟩

/-- As long as `n` is a directory, `c` is one, and not removed. -/
theorem run_up {cs : List (Nat × Call)} (hn : n < 1920) (hi : Rest u) (hp : (view u.fs).Parents)
    (hd : (node u.fs.disk n).type = typeDir) (hc : Child n c (view u.fs)) (hr : Run (DirStep n) u cs v) :
    entry v.fs.disk n 1 = some (c, dotdot) ∧ (node v.fs.disk c).type = typeDir ∧ ¬ (view v.fs).Del c := by
  obtain ⟨hent, hi₂, h₂⟩ := run_child hn hi hp hd hc hr
  obtain ⟨hty, hdel⟩ := h₂.up n c hent
  refine ⟨?_, ?_, hdel⟩
  · rw [← view_ent (type_of_ent hent)]
    exact hent
  · rw [← view_type (hi₂.good.ent n 1 c dotdot hent).1]
    exact hty

/-! ## Names -/

/-- The type of an inode in use. -/
def Kind (t : Nat) : Prop := t = typeFile ∨ t = typeDir ∨ t = typeDev

/-- In state `u` every entry of a directory leads to an inode in use, and so does every path. -/
structure Leads (u : Filesys) : Prop where
  entry : ∀ d j n nm, (view u.fs).ent d j = some (n, nm) → Kind (node u.fs.disk n).type
  path : ∀ p d path t i fs, u.procs p = some d → (t = typeNone ∨ Kind t) → u.fs.iopen d.cwd path t = some (some i, fs) →
    Kind (fs.itype i)

theorem Rest.leads (hi : Rest u) (h : (view u.fs).Parents) : Leads u := by
  have hkind : ∀ {n}, (view u.fs).type n ≠ typeNone → Kind ((view u.fs).type n) := fun {n} hn =>
    (h.kinds n).resolve_left hn
  refine ⟨fun d j n nm he => ?_, fun p d path t i fs hp ht ho => ?_⟩
  · have hk := hkind (h.entry hi.sound he)
    rwa [view_type (hi.good.ent d j n nm he).1] at hk
  · obtain ⟨x, hx⟩ := hi.cwd_seat hp
    have hstart : (view u.fs).type (start path x.no) ≠ typeNone := by
      unfold start
      split
      · rw [hi.sound.root.1]
        decide
      · exact hi.live _ ⟨_, x, hx, rfl⟩
    have ht32 : t < 2 ^ 32 := by
      rcases ht with rfl | rfl | rfl | rfl <;> decide
    rcases iopen_view hi.good hx ho with ⟨hc, -⟩ | ⟨l, n, hl, hroom, hv, hg, hw, -⟩ | ⟨ht0, hmade⟩
    · cases hc
    · -- the inode was there, and a walk leads to inodes in use
      cases hl
      obtain ⟨y, hy, hyn⟩ := hroom.get_some
      have hy' : (view fs).seat i = some y := hv ▸ hy
      have hty : fs.itype i = (view u.fs).type n := by
        rw [itype, seat_type hg hy', hv, hyn]
        rfl
      rw [hty]
      exact hkind (h.walk hi.sound hstart hw)
    · obtain ⟨l, c, j, n, nm, hl, hcr, -, -, hg, -⟩ := hmade hi.live ht32
      cases hl
      obtain ⟨y, hy, hyn⟩ := (room_create.2 hcr.room).get_some
      have hy' : (view fs).seat i = some y := by
        rw [hcr.eq]
        exact hy
      have hty : fs.itype i = t := by
        rw [itype, seat_type hg hy', hyn, hcr.eq]
        show ((view u.fs).create c j n t nm).type n = t
        rw [Ns.create_type, Function.update_self]
      rw [hty]
      exact ht.resolve_left ht0

/-- In every run of tidy steps from an image that mkfs made of files with different names, entries and
paths lead to inodes in use; and `..` of a directory made in such a run is the directory that it was
made in, which is not removed before it. Any directory, also one that was there from the start, keeps its `..`. -/
theorem names_live {cs : List (Nat × Call)} (hname : ∀ f ∈ files, FileName f.1) (huniq : (files.map Prod.fst).Nodup)
    (hm : mkfs boot₀ files = some m) (hb : boot m = some u₀) (hr : Run TidyStep u₀ cs u) :
    Leads u ∧ (∀ p call n c u₁ ds v, Makes u p call n c → DirStep n u (p, call) u₁ → Run (DirStep n) u₁ ds v →
      entry v.fs.disk n 1 = some (c, dotdot) ∧ (node v.fs.disk c).type = typeDir ∧ ¬ (view v.fs).Del c) ∧
    ∀ n < 1920, (node u.fs.disk n).type = typeDir → ∃ c, entry u.fs.disk n 1 = some (c, dotdot) ∧ ∀ ds v,
    Run (DirStep n) u ds v →
      entry v.fs.disk n 1 = some (c, dotdot) ∧ (node v.fs.disk c).type = typeDir ∧ ¬ (view v.fs).Del c := by
  obtain ⟨hi, h⟩ := run_parents (boot_rest hname huniq hm hb) (boot_whole hname huniq hm hb).1 hr
  refine ⟨hi.leads h, fun p call n c u₁ ds v hmk hs hrun => ?_, fun n hn hd => ?_⟩
  · obtain ⟨hn, hc⟩ := hmk.child hi hs.1.1
    exact run_up hn (hi.step hs.1.1) (parents_steady.step hi h (hi.allows_parents h hs.1.2) hs.1.1) hs.2 hc hrun
  · obtain ⟨-, c, hc⟩ := hi.sound.dir n ((view_type hn).trans hd)
    refine ⟨c, ?_, fun ds v hrun => run_up hn hi h hd (fun _ => hc) hrun⟩
    rw [← view_ent ((view_type hn).trans hd)]
    exact hc

/-- A directory in the root, that process 1 makes. -/
def makeDir : List (Nat × Call) := [(1, .open [slash, 100] (oCreate ||| oDir))]

theorem makeDir_isSome : (after makeDir).isSome := by
  decide +kernel

theorem names_live_demo : ∃ m u₀ u, mkfs (fun _ => 0) shell = some m ∧ boot m = some u₀ ∧ Run TidyStep u₀ makeDir u ∧
    Leads u := by
  obtain ⟨u, hu⟩ := Option.isSome_iff_exists.1 makeDir_isSome
  obtain ⟨u₀, hu₀, hrun⟩ := Option.bind_eq_some_iff.1 hu
  obtain ⟨m, hm, hb⟩ := Option.bind_eq_some_iff.1 hu₀
  obtain ⟨u', hstep, hrun⟩ := Option.bind_eq_some_iff.1 hrun
  cases hrun
  have hdel := (boot_whole shell_name shell_nodup hm hb).2.2
  have hr : Run TidyStep u₀ makeDir u := .single ⟨hstep, fun _ c _ _ _ _ _ _ _ _ _ => hdel c⟩
  exact ⟨m, u₀, u, hm, hb, hr, (names_live shell_name shell_nodup hm hb hr).1⟩

/-- A process in a directory that is removed, as is then the one above it. -/
def stranded : List (Nat × Call) :=
  [(1, .open [slash, 100] (oCreate ||| oDir)), (1, .close 0), (1, .open [slash, 100, slash, 101] (oCreate ||| oDir)),
    (1, .close 0), (1, .chdir [slash, 100, slash, 101]), (1, .unlink [slash, 100, slash, 101]),
    (1, .unlink [slash, 100])]

theorem stranded_found : ((after stranded).bind fun u => (u.procs 1).bind fun d =>
    (u.fs.iopen d.cwd dotdot typeNone).bind fun r => r.1.map fun i => r.2.itype i) = some typeNone := by
  decide +kernel

/-- The `..` of the directory that the process is in leads to an inode that is not in use. -/
theorem names_stale :
    ¬ ∀ (boot₀ m : Store) (files : List (List UInt8 × List UInt8)) (u₀ u : Filesys) (cs : List (Nat × Call)),
    (∀ f ∈ files, FileName f.1) → (files.map Prod.fst).Nodup → mkfs boot₀ files = some m → boot m = some u₀ →
    Run Step u₀ cs u → Leads u := by
  intro hall
  obtain ⟨u, hu, h⟩ := Option.bind_eq_some_iff.1 stranded_found
  obtain ⟨d, hp, h⟩ := Option.bind_eq_some_iff.1 h
  obtain ⟨⟨r, fs⟩, ho, h⟩ := Option.bind_eq_some_iff.1 h
  obtain ⟨i, hi, h⟩ := Option.map_eq_some_iff.1 h
  obtain ⟨m, u₀, hm, hb, hr⟩ := after_run hu
  have hl := hall _ m shell u₀ u _ shell_name shell_nodup hm hb hr
  have hi' : r = some i := hi
  rw [hi'] at ho
  rcases hl.path 1 d dotdot typeNone i fs hp (Or.inl rfl) ho with hk | hk | hk <;> rw [h] at hk <;> cases hk

end Filesys

end TinyOS
