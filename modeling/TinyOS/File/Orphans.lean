/-
No orphans: as long as nobody makes anything in a removed directory, every inode in use is the root,
or has exactly one name below it, or is removed and still open; and the blocks in use are theirs.
-/
import TinyOS.File.Parents

namespace TinyOS

open TinyOS.Lib TinyOS.Fs TinyOS.Mkfs

namespace Filesys

variable {u u' u₀ v : Filesys} {n p c i j l : Nat} {d : Desc} {fs fs' : Fs} {path nm : List UInt8}
  {files : List (List UInt8 × List UInt8)} {boot₀ m : Store}

theorem placed_steady : Steady fun s => s.Placed where
  get _ _ _ h := h.get
  put _ _ _ hok _ hs hx h := h.put hok hx hs.root.2 fun _ _ _ hat => hs.not_del hat

/-- The call makes nothing in a removed directory. -/
def Rooted (u : Filesys) (p : Nat) : Call → Prop
  | .open path mode => ∀ d c j n nm l fs, u.procs p = some d →
      u.fs.iopen d.cwd path (openType mode) = some (some l, fs) →
      Created (view u.fs) c j n (openType mode) nm l (view fs) → ¬ (view u.fs).Del c
  | _ => True

/-- What the state before says of a rooted `open`: no removed directory is where the path puts what is new. -/
theorem Rest.rooted_open {mode : Nat} (hi : Rest u)
    (h : ∀ d x c nm, u.procs p = some d → (view u.fs).seat d.cwd = some x →
      (view u.fs).Parent (start path x.no) (names path) c nm → (∀ j n, (view u.fs).ent c j ≠ some (n, nm)) →
      ¬ (view u.fs).Del c) :
    Rooted u p (.open path mode) := by
  intro d c j n nm l fs hp ho hcr
  obtain ⟨x, hx⟩ := hi.cwd_seat hp
  exact h d x c nm hp hx (hi.created_parent hx openType_lt ho hcr) fun k m => hcr.unique k m

def RootedStep (u : Filesys) (c : Nat × Call) (u' : Filesys) : Prop := Step u c u' ∧ Rooted u c.1 c.2

theorem Rest.allows_placed {c : Call} (hi : Rest u) (h : (view u.fs).Placed) (ht : Rooted u p c) :
    Allows Ns.Placed u p c := by
  cases c with
  | «open» path mode =>
    intro d l c j n nm fs hp ho hcr
    rw [hcr.eq]
    exact (h.create hi.sound hi.live hcr (ht d c j n nm l fs hp ho hcr)).get
  | unlink path =>
    intro d c j n nm l fs hp hr hrem
    exact h.unlink hi.sound hi.good.ok hrem
  | _ => trivial

theorem run_placed {cs : List (Nat × Call)} (hi : Rest u) (h : (view u.fs).Placed) (hr : Run RootedStep u cs u') :
    Rest u' ∧ (view u'.fs).Placed := by
  refine hr.invariant (I := fun u => Rest u ∧ (view u.fs).Placed) (fun v c v' hv hs => ?_) ⟨hi, h⟩
  exact ⟨hv.1.step hs.1, placed_steady.step hv.1 hv.2 (hv.1.allows_placed hv.2 hs.2) hs.1⟩

/-- The place `q` in a directory that paths from the root reach is the only one that names `n`, `.` and
`..` apart. -/
def OnlyPlace (fs : Fs) (n : Nat) (q : Nat × Nat) : Prop :=
  ((view fs).At q.1 q.2 n ∧ (view fs).Walk 1 q.1) ∧ ∀ q', (view fs).At q'.1 q'.2 n ∧ (view fs).Walk 1 q'.1 → q' = q

/-- No inode in use is lost, and when none of those that are open is removed, all of them, with all
their blocks, are reached from the root. -/
structure Kept (fs : Fs) : Prop where
  inode : ∀ n < 1920, (node fs.disk n).type ≠ typeNone → n = 1 ∨ (∃ q, OnlyPlace fs n q) ∨ InUse n fs
  idle : (∀ i, 0 < (fs.inodes i).ref → (fs.inodes i).del = false) →
    (∀ n < 1920, (node fs.disk n).type ≠ typeNone → (view fs).Walk 1 n) ∧
      ∀ b, 64 ≤ b → b < 32768 → bit fs.disk b = true → ∃ n, Owns fs.disk n b ∧ (view fs).Walk 1 n

theorem onlyPlace_of_at {q : Nat × Nat} (hs : (view fs).Sound) (ha : (view fs).At q.1 q.2 n)
    (hw : (view fs).Walk 1 q.1) :
    OnlyPlace fs n q := by
  refine ⟨⟨ha, hw⟩, fun q' hq' => ?_⟩
  obtain ⟨nm, he, h1, h2⟩ := ha
  obtain ⟨⟨nm', he', h3, h4⟩, -⟩ := hq'
  obtain ⟨hd, hj⟩ := hs.one _ _ _ _ n nm' nm he' h3 h4 he h1 h2
  exact Prod.ext hd hj

theorem Rest.kept (hi : Rest u) (h : (view u.fs).Placed) : Kept u.fs := by
  refine ⟨fun n hn ht => ?_, fun hidle => ?_⟩
  · rcases h.place n (by rw [view_type hn]; exact ht) with h1 | hd | ⟨d, j, ha, hb⟩
    · exact Or.inl h1
    · obtain ⟨i, x, hx, hxn, -⟩ := hd
      exact Or.inr (Or.inr (inUse_iff.2 ⟨i, x, hx, hxn⟩))
    · exact Or.inr (Or.inl ⟨(d, j), onlyPlace_of_at hi.sound ha hb.walk⟩)
  · -- with nothing open no inode is deleted, so all of them are below the root
    have hdel : ∀ n, ¬ (view u.fs).Del n := by
      rintro n ⟨i, x, hx, -, hd⟩
      obtain ⟨h1, -, -, h2⟩ := view_seat.1 hx
      rw [hidle i h1] at h2
      rw [← h2] at hd
      cases hd
    have hwalk : ∀ n < 1920, (node u.fs.disk n).type ≠ typeNone → (view u.fs).Walk 1 n := fun n hn ht =>
      (h.below (by rw [view_type hn]; exact ht) (hdel n)).walk
    refine ⟨hwalk, fun b h1 h2 hbit => ?_⟩
    have hown := hi.good.inv.owned
    obtain ⟨s, hs⟩ := hown.own.held ⟨h1, h2⟩ (by rw [hbit]; decide)
    cases s with
    | data n k =>
      refine ⟨n, Or.inl ⟨k, hs⟩, hwalk n hs.1 fun ht => hs.2.1 ?_⟩
      have hnone := hown.none n hs.1 ht
      rw [← hs.2.2]
      rcases Nat.lt_or_ge k 12 with hk | hk
      · rw [blk_direct hk, hnone]
      · exact blk_none hk (hnone 12)
    | indirect n =>
      refine ⟨n, Or.inr hs, hwalk n hs.1 fun ht => hs.2.1 ?_⟩
      rw [← hs.2.2]
      exact hown.none n hs.1 ht 12

/-- In every run from an image that mkfs made of files with different names, in which nothing is made in
removed directories, no inode in use is lost. -/
theorem no_orphans {cs : List (Nat × Call)} (hname : ∀ f ∈ files, FileName f.1) (huniq : (files.map Prod.fst).Nodup)
    (hm : mkfs boot₀ files = some m) (hb : boot m = some u₀) (hr : Run RootedStep u₀ cs u) : Kept u.fs := by
  obtain ⟨hi, h⟩ := run_placed (boot_rest hname huniq hm hb) (boot_whole hname huniq hm hb).2.1 hr
  exact hi.kept h

/-- A file is made in the root and removed while it is open. -/
def removeOpen : List (Nat × Call) := [(1, .open [slash, 97] (oCreate ||| oRdwr)), (1, .unlink [slash, 97])]

theorem removeOpen_isSome : (after removeOpen).isSome := by
  decide +kernel

theorem no_orphans_demo : ∃ m u₀ u, mkfs (fun _ => 0) shell = some m ∧ boot m = some u₀ ∧
    Run RootedStep u₀ removeOpen u ∧ Kept u.fs := by
  obtain ⟨u, hu⟩ := Option.isSome_iff_exists.1 removeOpen_isSome
  obtain ⟨u₀, hu₀, hrun⟩ := Option.bind_eq_some_iff.1 hu
  obtain ⟨m, hm, hb⟩ := Option.bind_eq_some_iff.1 hu₀
  obtain ⟨u₁, h1, hrun⟩ := Option.bind_eq_some_iff.1 hrun
  obtain ⟨u₂, h2, hrun⟩ := Option.bind_eq_some_iff.1 hrun
  cases hrun
  have hdel := (boot_whole shell_name shell_nodup hm hb).2.2
  have hr₁ : Run RootedStep u₀ [(1, .open [slash, 97] (oCreate ||| oRdwr))] u₁ :=
    .single ⟨h1, fun _ c _ _ _ _ _ _ _ _ => hdel c⟩
  have hr : Run RootedStep u₀ removeOpen u := .snoc hr₁ ⟨h2, trivial⟩
  exact ⟨m, u₀, u, hm, hb, hr, no_orphans shell_name shell_nodup hm hb hr⟩

/-! ## A lost inode -/

/-- All paths from the root stay in `l`, which does not hold the inode `n`; and `n` is in use but not open. -/
def lost (fs : Fs) (l : List Nat) (n : Nat) : Bool :=
  l.contains 1 && !l.contains n && (n != 1 && decide (n < 1920) && (node fs.disk n).type != typeNone) &&
    (l.all fun e => (List.range ((node fs.disk e).size / 32)).all fun k => ((view fs).ent e k).all fun q =>
      l.contains q.1) &&
    (List.range inodeNum).all fun i => !decide (0 < (fs.inodes i).ref) || (fs.inodes i).no != n

theorem not_kept_lost {l : List Nat} (hg : Good fs) (h : lost fs l n = true) : ¬ Kept fs := by
  unfold lost at h
  simp only [Bool.and_eq_true, bne_iff_ne, decide_eq_true_eq] at h
  obtain ⟨⟨⟨⟨h1, hn⟩, ⟨hn1, hlt⟩, ht⟩, hl⟩, hseat⟩ := h
  -- the list holds the root and is closed under entries, so it holds what can be walked to
  have hwalk : ∀ {e}, (view fs).Walk 1 e → e ∈ l := fun {e} hw => by
    induction hw with
    | refl => exact List.contains_iff_mem.1 h1
    | @tail e _ _ hstep ih =>
      obtain ⟨k, nm, he⟩ := hstep
      have hk : k < (node fs.disk e).size / 32 := by
        have hdir := type_of_ent he
        have := (entry_some.1 ((view_ent hdir).symm.trans he)).1
        omega
      have := List.all_eq_true.1 (List.all_eq_true.1 hl e ih) k (List.mem_range.2 hk)
      rw [he] at this
      exact List.contains_iff_mem.1 this
  intro hk
  rcases hk.inode n hlt ht with hc | ⟨q, ⟨⟨nm, he, -⟩, hw⟩, -⟩ | ⟨i, hr, hno⟩
  · exact hn1 hc
  · have hmem := hwalk (hw.tail ⟨q.2, nm, he⟩)
    rw [List.contains_iff_mem.2 hmem] at hn
    cases hn
  · have := List.all_eq_true.1 hseat i (List.mem_range.2 (hg.inv.table.small i hr))
    simp only [Bool.or_eq_true, Bool.not_eq_true', decide_eq_false_iff_not, bne_iff_ne] at this
    exact this.elim (fun hc => hc hr) fun hc => hc hno

/-- A file is made in a directory that was removed, closed, and the directory is left. -/
def strayFile : List (Nat × Call) :=
  [(1, .open [slash, 100] (oCreate ||| oDir)), (1, .close 0), (1, .chdir [slash, 100]), (1, .unlink [slash, 100]),
    (1, .open [97] (oCreate ||| oRdwr)), (1, .close 0), (1, .chdir [slash])]

theorem strayFile_lost : (after strayFile).map (fun u => lost u.fs [1, 2, 3, 4, 5] 7) = some true := by
  decide +kernel

theorem orphan_found :
    ¬ ∀ (boot₀ m : Store) (files : List (List UInt8 × List UInt8)) (u₀ u : Filesys) (cs : List (Nat × Call)),
    (∀ f ∈ files, FileName f.1) → (files.map Prod.fst).Nodup → mkfs boot₀ files = some m → boot m = some u₀ →
    Run Step u₀ cs u → Kept u.fs := by
  intro hall
  obtain ⟨u, hu, h⟩ := Option.map_eq_some_iff.1 strayFile_lost
  obtain ⟨m, u₀, hm, hb, hr⟩ := after_run hu
  have hi := run_rest (boot_rest shell_name shell_nodup hm hb) hr
  exact not_kept_lost hi.good h (hall _ m shell u₀ u _ shell_name shell_nodup hm hb hr)

end Filesys

end TinyOS
