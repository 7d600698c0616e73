/-
Files that are removed while they are open: no path leads to them, nobody else gets their inode or
their blocks, and they go with their last reference.
-/
import TinyOS.File.Dirs
import TinyOS.Fs.Lost

namespace TinyOS

open TinyOS.Lib TinyOS.Fs TinyOS.Mkfs

namespace Filesys

variable {u u' v : Filesys} {ef es : Nat → Int} {R : Nat → Prop} {n p f i : Nat} {d : Desc} {x : Seat} {fs fs' : Fs}
  {path : List UInt8}

/-! ## One operation -/

/-- The removed file `n` is in use, and no path leads to it: `R` holds the root and the working
directories. -/
structure Gone (R : Nat → Prop) (n : Nat) (u : Filesys) : Prop where
  root : R 1
  home : ∀ p d x, u.procs p = some d → (view u.fs).seat d.cwd = some x → R x.no
  lost : (view u.fs).Lost R n

theorem Gone.lt (h : Gone R n u) : n < 1920 := lt_of_type (by rw [h.lost.file]; decide)

theorem Gone.congr (h : Gone R n u) (h1 : u'.fs = u.fs) (h2 : u'.procs = u.procs) : Gone R n u' :=
  ⟨h.root, by rw [h1, h2]; exact h.home, by rw [h1]; exact h.lost⟩

theorem Gone.withFs (h : Gone R n u) (hi : Inv ef es u) (hst : Ns.Stay (view u.fs) (view fs))
    (hl : (view fs).Lost R n) :
    Gone R n { u with fs := fs } := by
  refine ⟨h.root, fun p d y hp hy => ?_, hl⟩
  obtain ⟨x, hx⟩ := hi.cwd_seat hp
  rw [(hst _ x y hx hy).1]
  exact h.home p d x hp hx

theorem Gone.start (h : Gone R n u) (hp : u.procs p = some d) (hx : (view u.fs).seat d.cwd = some x) :
    R (Fs.start path x.no) := by
  unfold Fs.start
  split
  · exact h.root
  · exact h.home p d x hp hx

/-- Looking up a path does not find the file. -/
theorem Gone.iopen {t : Nat} {r : Option Nat} (h : Gone R n u) (hi : Inv ef es u) (hp : u.procs p = some d)
    (ht : t < 2 ^ 32) (he : u.fs.iopen d.cwd path t = some (r, fs)) :
    Gone R n { u with fs := fs } ∧ Keeps n u.fs.disk fs.disk ∧
      ∀ l, r = some l → ∃ y, (view fs).seat l = some y ∧ (view fs).Kept l ∧ y.no ≠ n ∧
        (t = typeNone → ∃ c, R c ∧ (view fs).Walk c y.no) := by
  obtain ⟨x, hx⟩ := hi.cwd_seat hp
  have hstart : R (Fs.start path x.no) := h.start hp hx
  rcases iopen_view hi.good hx he with ⟨rfl, hv, -, hd⟩ | ⟨l, c, rfl, hroom, hv, -, hw, hd⟩ | ⟨ht0, hmade⟩
  · exact ⟨h.withFs hi (hv ▸ Ns.Stay.refl _) (hv ▸ h.lost), .of_eq hd, fun l hl => by cases hl⟩
  · refine ⟨h.withFs hi (hv ▸ Ns.Stay.get) (hv ▸ h.lost.get), .of_eq hd, fun l' hl => ?_⟩
    cases hl
    obtain ⟨y, hy, hyc⟩ := hroom.get_some
    refine ⟨y, hv ▸ hy, hv ▸ Ns.kept_get_self hi.good.ok, fun hyn => ?_, fun _ => ⟨_, hstart, ?_⟩⟩
    · exact h.lost.far _ hstart (hyn ▸ hyc ▸ hw)
    · rw [hv, hyc]
      exact hw
  · obtain ⟨l, c, j, m, nm, rfl, hcr, hw, -, -, hentered⟩ := hmade hi.live ht
    have hlost : (view fs).Lost R n := by
      rw [hcr.eq]
      exact (h.lost.create hi.live hcr.new hcr.ne ⟨_, hstart, hw⟩).get
    have hfile : (node u.fs.disk n).type = typeFile := (view_type h.lt).symm.trans h.lost.file
    refine ⟨h.withFs hi (Ns.Stay.created hi.live hcr) hlost, hentered.keeps h.lt ?_ ?_, fun l' hl => ?_⟩
    · rw [hfile]
      decide
    · rw [hfile]
      decide
    · cases hl
      have hroom : ((view u.fs).create c j m t nm).Room l m := room_create.2 hcr.room
      obtain ⟨y, hy, hym⟩ := hroom.get_some
      refine ⟨y, hcr.eq ▸ hy, hcr.eq ▸ Ns.kept_get_self (ok_create hi.good.ok), fun hyn => ?_, fun hc => absurd hc ht0⟩
      exact hi.live n h.lost.held (by rw [← hyn, hym]; exact hcr.new)

/-- A reference given back that is not the last one to a removed inode. -/
theorem Gone.close_kept (h : Gone R n u) (hi : ∀ p d, u.procs p = some d → ∃ x, (view u.fs).seat d.cwd = some x)
    (hg : Good u.fs) (hx : (view u.fs).seat i = some x) (hk : (view u.fs).Kept i) (he : u.fs.iclose i = some fs) :
    Gone R n { u with fs := fs } ∧ Keeps n u.fs.disk fs.disk := by
  obtain ⟨fs₁, h1, hv, -, hd⟩ := iclose_kept hg hx hk
  obtain rfl := Option.some.inj (he.symm.trans h1)
  refine ⟨⟨h.root, fun p d y hp hy => ?_, hv ▸ h.lost.put_kept hg.ok hx hk⟩, .of_eq hd⟩
  obtain ⟨z, hz⟩ := hi p d hp
  rw [(Ns.Stay.put hg.ok hx _ z y hz (hv ▸ hy)).1]
  exact h.home p d z hp hz

/-- A reference given back, where the file is in use afterwards. -/
theorem Gone.iclose (hi : Inv ef es u) (hx : 1 ≤ es i) (he : u.fs.iclose i = some fs) (hn : (view fs).Held n) :
    (view u.fs).Held n ∧ (Gone R n u → Gone R n { u with fs := fs } ∧ Keeps n u.fs.disk fs.disk) := by
  obtain ⟨x, hx, -⟩ := Ns.seat_of_refs (s := view u.fs) (i := i) (by
    have h1 := hi.seats i
    have h2 := slotRefs_nonneg (u := u) (i := i)
    omega)
  have hty := hi.live _ ⟨i, x, hx, rfl⟩
  obtain ⟨fs₁, h1, hv, -⟩ := iclose_view hi.good hx fun _ _ => hty
  obtain rfl := Option.some.inj (he.symm.trans h1)
  rw [hv] at hn
  refine ⟨Ns.held_of_put hi.good.ok hx hn, fun h => ⟨h.withFs hi ?_ ?_, ?_⟩⟩
  · rw [hv]
    exact Ns.Stay.put hi.good.ok hx
  · rw [hv]
    exact h.lost.put hi.good.ok hx hn
  · refine iclose_keeps hi.good hx hty he h.lt fun hnx => ?_
    by_contra hc
    have h1 : x.ref = 1 := by
      by_contra h1
      exact hc (Or.inl h1)
    have hgone : ¬ ((view u.fs).put i).Held x.no := by
      rintro ⟨l, y, hy, hyn⟩
      by_cases hl : l = i
      · rw [hl, Ns.put_seat_self hx, if_pos h1] at hy
        cases hy
      · rw [Ns.put_seat_ne hl] at hy
        exact hl (hi.good.ok.uniq l i y x hy hx hyn)
    exact hgone (hnx ▸ hn)

theorem Gone.fclose (hi : Inv ef es u) (hf : 0 < (u.files f).ref) (he : u.fclose f = some u')
    (hn : (view u'.fs).Held n) :
    (view u.fs).Held n ∧ (Gone R n u → Gone R n u' ∧ Keeps n u.fs.disk u'.fs.disk) := by
  have hself : ∀ y, (u.setFile f y).files f = y := fun y => Function.update_self ..
  unfold Filesys.fclose at he
  simp only [hself] at he
  split at he
  · next hlast =>
    obtain ⟨fs, hcl, he⟩ := Option.bind_eq_some_iff.1 he
    cases he
    -- as in `Inv.fclose`: the file holds no slot any more, the call does
    have hset := hi.setFile (y := { u.files f with ref := (u.files f).ref - 1 }) (hi.small f hf)
      (fun _ h2 h3 => hi.kind f hf h2 h3) fun k => by
        have h1 := hi.extra k
        have h2 := unit_nonneg (n := (u.files f).inode) (i := k)
        unfold uses
        rw [if_pos ⟨hf, hlast.2⟩, if_neg (by simp only; omega)]
        omega
    obtain ⟨h1, h2⟩ := Gone.iclose (R := R) hset (i := (u.files f).inode) (by
      have h1 := hi.extra (u.files f).inode
      unfold uses
      rw [if_pos ⟨hf, hlast.2⟩, if_neg (by simp only; omega), unit_self]
      omega) hcl hn
    exact ⟨h1, fun h => h2 (h.congr rfl rfl)⟩
  · cases he
    exact ⟨hn, fun h => ⟨h.congr rfl rfl, Keeps.refl _ _⟩⟩

/-! ## Calls -/

theorem Gone.fopen {mode : Nat} {r : Option Nat} (h : Gone R n u) (hi : Inv ef es u) (hp : u.procs p = some d)
    (he : u.fopen d.cwd path mode = some (r, u')) : Gone R n u' ∧ Keeps n u.fs.disk u'.fs.disk := by
  obtain ⟨x, hx⟩ := hi.cwd_seat hp
  obtain ⟨hprocs, hsame | ⟨q, fs, hio, hg, hl, hs, hfin⟩, -⟩ := hi.fopen hx he
  · exact ⟨h.congr hsame hprocs, .of_eq (congrArg Fs.disk hsame)⟩
  obtain ⟨h₁, hkeep, hq⟩ := h.iopen hi hp openType_lt hio
  rcases hfin with hsame | ⟨l, z, rfl, hz, -, hcl⟩ | ⟨l, z, rfl, hz, hdir, htr⟩
  · exact ⟨h₁.congr hsame hprocs, hkeep.trans (.of_eq (congrArg Fs.disk hsame))⟩
  · have hhome : ∀ p d, u.procs p = some d → ∃ x, (view fs).seat d.cwd = some x := fun p d hp => by
      rcases hi.iopen hx openType_lt hio with ⟨hc, -⟩ | ⟨l', y, hc, -, -, hi₁⟩ | ⟨l', y, hc, hnone, -, hy, -⟩
      · cases hc
      · exact hi₁.cwd_seat (p := p) hp
      · have hty : fs.itype l' = (view fs).type y.no := seat_type hg hy
        exact absurd (hty.symm.trans hnone) (hl _ ⟨l', y, hy, rfl⟩)
    obtain ⟨y, hy, hk, -⟩ := hq l rfl
    obtain ⟨h₂, hkeep₂⟩ := h₁.close_kept (u := { u with fs := fs }) hhome hg hy hk hcl
    exact ⟨h₂.congr rfl hprocs, hkeep.trans hkeep₂⟩
  · obtain ⟨y, hy, -, hyn, -⟩ := hq l rfl
    rw [hz] at hy
    cases hy
    obtain ⟨fs₁, h1, h2, hv, -⟩ := itrunc_view hg hz (hl _ ⟨l, z, hz, rfl⟩)
    obtain rfl := Option.some.inj (htr.symm.trans h1)
    rw [hs.trunc hdir] at hv
    refine ⟨⟨h₁.root, fun p d y hp hy => ?_, hv ▸ h₁.lost⟩, hkeep.trans (h2.keeps h.lt (Ne.symm hyn))⟩
    rw [hv] at hy
    exact h₁.home p d y (hprocs ▸ hp) hy

theorem Gone.setProc {d' : Desc} (h : Gone R n u) (hd : ∀ x, (view u.fs).seat d'.cwd = some x → R x.no) :
    Gone R n (u.setProc p d') := by
  refine ⟨h.root, fun q e x hq hx => ?_, h.lost⟩
  have hq' : Function.update u.procs p (some d') q = some e := hq
  by_cases hqp : q = p
  · rw [hqp, Function.update_self] at hq'
    cases hq'
    exact hd x hx
  · rw [Function.update_of_ne hqp] at hq'
    exact h.home q e x hq' hx

theorem Gone.sysOpen {mode : Nat} (h : Gone R n u) (hi : Rest u) (hp : u.procs p = some d)
    (he : u.sysOpen p d path mode = some u') : Gone R n u' ∧ Keeps n u.fs.disk u'.fs.disk := by
  unfold Filesys.sysOpen at he
  split at he
  · cases he
    exact ⟨h, Keeps.refl _ _⟩
  obtain ⟨⟨r, u₁⟩, ho, he⟩ := Option.bind_eq_some_iff.1 he
  obtain ⟨h₁, hkeep⟩ := h.fopen hi hp ho
  obtain ⟨x, hx⟩ := hi.cwd_seat hp
  obtain ⟨hprocs, -, -⟩ := hi.fopen hx ho
  cases r with
  | none =>
    cases he
    exact ⟨h₁, hkeep⟩
  | some f =>
    cases he
    exact ⟨h₁.setProc fun y hy => h₁.home p d y (hprocs ▸ hp) hy, hkeep⟩

theorem Gone.sysChdir (h : Gone R n u) (hi : Rest u) (hp : u.procs p = some d) (he : u.sysChdir p d path = some u')
    (hn : (view u'.fs).Held n) : (∃ R', Gone R' n u') ∧ Keeps n u.fs.disk u'.fs.disk := by
  unfold Filesys.sysChdir at he
  obtain ⟨⟨r, fs⟩, ho, he⟩ := Option.bind_eq_some_iff.1 he
  obtain ⟨x, hx⟩ := hi.cwd_seat hp
  obtain ⟨h₁, hkeep, hq⟩ := h.iopen hi hp (by decide) ho
  have hlt := hi.table p (by rw [hp]; exact Option.some_ne_none d)
  rcases hi.iopen hx (by decide) ho with ⟨rfl, hi₁⟩ | ⟨l, y, rfl, hy, -, hi₁⟩ | ⟨l, y, rfl, hti, hg, hy, hcl⟩
  · cases he
    exact ⟨⟨R, h₁⟩, hkeep⟩
  · simp only at he
    split at he
    · obtain ⟨fs', hcl, he⟩ := Option.bind_eq_some_iff.1 he
      cases he
      obtain ⟨h2, h3⟩ := (Gone.iclose (R := R) hi₁ (by simp only [unit_self]; decide) hcl hn).2 h₁
      exact ⟨⟨R, h2⟩, hkeep.trans h3⟩
    · next hcd =>
      obtain ⟨fs', hcl, he⟩ := Option.bind_eq_some_iff.1 he
      cases he
      -- the new working directory is reached from the old ones
      obtain ⟨y', hy', -, -, hreach⟩ := hq l rfl
      have hnew : Gone (fun c => R c ∨ c = y'.no) n
          (({ u with fs := fs } : Filesys).setProc p { d with cwd := l }) := by
        refine Gone.setProc ⟨Or.inl h₁.root, fun p d x hp hx => Or.inl (h₁.home p d x hp hx), ?_⟩ fun z hz => Or.inr ?_
        · refine h₁.lost.reach fun c hc => ?_
          rcases hc with hc | rfl
          · exact ⟨c, hc, .refl⟩
          · exact hreach rfl
        · have hz' : (view fs).seat l = some z := hz
          rw [hy'] at hz'
          cases hz'
          rfl
      have hcwd : ∀ k, cwdOf (u.procs p) k - cwdOf (some { d with cwd := l }) k = unit d.cwd k - unit l k := fun k => by
        rw [hp]
        rfl
      have hi₂ := hi₁.withProc (o := some { d with cwd := l }) hlt (fun d' hd' z hz => by
          cases hd'
          exact (seat_type hi₁.good hz).symm.trans (not_not.1 hcd)) fun k => by
        have := unit_nonneg (n := d.cwd) (i := k)
        simp only [hcwd]
        omega
      obtain ⟨h2, h3⟩ := (Gone.iclose (R := fun c => R c ∨ c = y'.no) hi₂ (i := d.cwd) (by
        simp only [hcwd, unit_self]
        omega) hcl hn).2 hnew
      exact ⟨⟨_, h2⟩, hkeep.trans h3⟩
  · have hne : fs.itype l ≠ typeDir := by rw [hti]; decide
    simp only [if_pos hne] at he
    obtain ⟨fs', hc, he⟩ := Option.bind_eq_some_iff.1 he
    cases he
    have hhome := hcl fs' hc
    obtain ⟨y', hy', hk, -⟩ := hq l rfl
    obtain ⟨fs₁, h1, hv, -, hd⟩ := iclose_kept hg hy' hk
    obtain rfl := Option.some.inj (hc.symm.trans h1)
    refine ⟨⟨R, h₁.root, fun q e z hq hz => ?_, hv ▸ h₁.lost.put_kept hg.ok hy' hk⟩, hkeep.trans (.of_eq hd)⟩
    obtain ⟨w, hw, hwz⟩ := Ns.no_put (hv ▸ hz)
    rw [hwz]
    exact h₁.home q e w hq hw

theorem Gone.sysExec {reads : List (Nat × Nat)} (h : Gone R n u) (hi : Rest u) (hp : u.procs p = some d)
    (he : u.sysExec d path reads = some u') : Gone R n u' ∧ Keeps n u.fs.disk u'.fs.disk := by
  unfold Filesys.sysExec at he
  obtain ⟨⟨r, fs⟩, ho, he⟩ := Option.bind_eq_some_iff.1 he
  obtain ⟨h₁, hkeep, hq⟩ := h.iopen hi hp (by decide) ho
  obtain ⟨x, hx⟩ := hi.cwd_seat hp
  cases r with
  | none =>
    cases he
    exact ⟨h₁, hkeep⟩
  | some l =>
    obtain ⟨fs₁, hr, he⟩ := Option.bind_eq_some_iff.1 he
    obtain ⟨fs₂, hcl, he⟩ := Option.bind_eq_some_iff.1 he
    cases he
    obtain ⟨y, hy, hk, -⟩ := hq l rfl
    have hg : Good fs := by
      rcases hi.iopen hx (by decide) ho with ⟨hc, -⟩ | ⟨l', z, hc, hz, -, hi₁⟩ | ⟨l', z, hc, -, hg, -⟩
      · cases hc
      · exact hi₁.good
      · exact hg
    have hsame : fs₁ = fs := ireads_idle hg hy hr
    rw [hsame] at hcl
    obtain ⟨fs₃, h1, hv, -, hd⟩ := iclose_kept hg hy hk
    obtain rfl := Option.some.inj (hcl.symm.trans h1)
    refine ⟨⟨h₁.root, fun q e z hq hz => ?_, hv ▸ h₁.lost.put_kept hg.ok hy hk⟩, hkeep.trans (.of_eq hd)⟩
    obtain ⟨w, hw, hwz⟩ := Ns.no_put (hv ▸ hz)
    rw [hwz]
    exact h₁.home q e w hq hw

theorem Gone.sysUnlink (h : Gone R n u) (hi : Rest u) (hp : u.procs p = some d) (he : u.sysUnlink d path = some u')
    (hn : (view u'.fs).Held n) : Gone R n u' ∧ Keeps n u.fs.disk u'.fs.disk := by
  unfold Filesys.sysUnlink at he
  obtain ⟨⟨b, fs⟩, hr, he⟩ := Option.bind_eq_some_iff.1 he
  cases he
  obtain ⟨x, hx⟩ := hi.cwd_seat hp
  rcases iremove_view hi.good hx (hi.sound.named _) hr with ⟨-, hv, -, hd⟩ | ⟨-, c, j, m, nm, i, hrem, -, -, hkeep, -⟩
  · exact ⟨h.withFs hi (hv ▸ Ns.Stay.refl _) (hv ▸ h.lost), .of_eq hd⟩
  · refine ⟨h.withFs hi (Ns.Stay.removed hi.good.ok hrem) (h.lost.unlink hi.good.ok hrem hn), hkeep n h.lt ?_ ?_⟩
    · rw [h.lost.file]
      decide
    · rintro rfl
      exact (hi.sound.target c j n nm hrem.ent hrem.notDot hrem.notDotdot).2.1 h.lost.del

/-! ## `fork` and `exit` -/

theorem Gone.fork {c : Nat} (h : Gone R n u) (hi : Rest u) (hp : u.procs p = some d) :
    Gone R n (u.fork c d) ∧ Keeps n u.fs.disk (u.fork c d).fs.disk := by
  obtain ⟨hd, hprocs, hfs⟩ := Inv.dups (l := List.range maxUfile) hi fun j hj f hf =>
    hi.opened hp (List.mem_range.1 hj) hf
  obtain ⟨x, hx⟩ := hd.cwd_seat (hprocs ▸ hp)
  obtain ⟨hv, -⟩ := idup_view hd.good hx
  have h₁ := h.congr hfs hprocs
  have h₂ := h₁.withFs hd (hv ▸ Ns.Stay.get) (hv ▸ h₁.lost.get)
  have hdisk := congrArg Fs.disk hfs
  refine ⟨h₂.setProc fun y hy => ?_, .of_eq ?_⟩
  · exact h₂.home p d y (hprocs ▸ hp) hy
  · exact hdisk

theorem Gone.leave (h : Gone R n u) : Gone R n { u with procs := Function.update u.procs p none } := by
  refine ⟨h.root, fun q e x hq hx => ?_, h.lost⟩
  have hq' : Function.update u.procs p none q = some e := hq
  by_cases hqp : q = p
  · rw [hqp, Function.update_self] at hq'
    cases hq'
  · rw [Function.update_of_ne hqp] at hq'
    exact h.home q e x hq' hx

theorem Gone.closes {tab : Nat → Option Nat} {rest : List Nat} : ∀ {l : List Nat} {u : Filesys},
    Inv (fun g => ((l ++ rest).countP fun j => decide (tab j = some g) : Nat)) es u →
    l.foldlM (fun u j => (tab j).elim (some u) u.fclose) u = some u' → (view u'.fs).Held n →
    (view u.fs).Held n ∧ (Gone R n u → Gone R n u' ∧ Keeps n u.fs.disk u'.fs.disk)
  | [], u, _, he, hn => by
    cases he
    exact ⟨hn, fun h => ⟨h, Keeps.refl _ _⟩⟩
  | j :: l, u, hi, he, hn => by
    rw [List.foldlM_cons] at he
    obtain ⟨u₁, h1, he⟩ := Option.bind_eq_some_iff.1 he
    -- one round, from which the others go on
    have hone : Inv (fun g => ((l ++ rest).countP fun j => decide (tab j = some g) : Nat)) es u₁ :=
      Inv.closes (l := [j]) hi (by rw [List.foldlM_cons, h1]; rfl)
    obtain ⟨h2, h3⟩ := Gone.closes hone he hn
    cases hj : tab j with
    | none =>
      rw [hj] at h1
      cases h1
      exact ⟨h2, h3⟩
    | some f =>
      rw [hj] at h1
      obtain ⟨h4, h5⟩ := Gone.fclose (R := R) hi (hi.closing hj) h1 h2
      refine ⟨h4, fun h => ?_⟩
      obtain ⟨h6, h7⟩ := h5 h
      obtain ⟨h8, h9⟩ := h3 h6
      exact ⟨h8, h7.trans h9⟩

theorem Gone.exit (h : Gone R n u) (hi : Rest u) (hp : u.procs p = some d) (he : u.exit p d = some u')
    (hn : (view u'.fs).Held n) : Gone R n u' ∧ Keeps n u.fs.disk u'.fs.disk := by
  unfold Filesys.exit at he
  obtain ⟨u₁, hcl, he⟩ := Option.bind_eq_some_iff.1 he
  obtain ⟨fs, hic, he⟩ := Option.bind_eq_some_iff.1 he
  cases he
  have hleave := (hi.leave hp).congr (a := fun g =>
    ((List.range maxUfile ++ []).countP fun j => decide (d.files j = some g) : Nat))
    (fun g => by rw [List.append_nil]) fun _ => rfl
  have hloop := Inv.closes hleave hcl
  obtain ⟨h1, h2⟩ := Gone.iclose (R := R) hloop (i := d.cwd) (by rw [unit_self]) hic hn
  obtain ⟨-, h3⟩ := Gone.closes (R := R) hleave hcl h1
  obtain ⟨h4, h5⟩ := h3 h.leave
  obtain ⟨h6, h7⟩ := h2 h4
  exact ⟨h6, h5.trans h7⟩

/-! ## Steps -/

/-- Process `p` writes to the file `n`. -/
def WritesTo (n : Nat) (u : Filesys) (p : Nat) (c : Call) : Prop :=
  ∃ d fd buf f, u.procs p = some d ∧ c = .write fd buf ∧ procGetfile d fd = some f ∧ (u.files f).type = typeFile ∧
    (u.fs.inodes (u.files f).inode).no = n

theorem Gone.step {c : Call} (h : Gone R n u) (hi : Rest u) (he : u.step p c = some u') (hn : (view u'.fs).Held n) :
    (∃ R', Gone R' n u') ∧ (Keeps n u.fs.disk u'.fs.disk ∨ WritesTo n u p c) := by
  unfold Filesys.step at he
  split at he
  · cases he
  next d hp =>
  have hsame : Keeps n u.fs.disk u.fs.disk := Keeps.refl _ _
  cases c with
  | «open» path mode =>
    obtain ⟨h1, h2⟩ := h.sysOpen hi hp he
    exact ⟨⟨R, h1⟩, Or.inl h2⟩
  | close fd =>
    simp only [Filesys.sysClose] at he
    split at he
    · cases he
      exact ⟨⟨R, h⟩, Or.inl hsame⟩
    · next f hf =>
      obtain ⟨hlt, hfile⟩ := procGetfile_some hf
      obtain ⟨u₁, hcl, he⟩ := Option.bind_eq_some_iff.1 he
      cases he
      obtain ⟨h1, h2⟩ := (Gone.fclose (R := R) hi (hi.opened hp hlt hfile) hcl hn).2 h
      exact ⟨⟨R, h1.setProc fun y hy => h1.home p d y ((fclose_procs hcl) ▸ hp) hy⟩, Or.inl h2⟩
  | dup fd =>
    cases he
    unfold Filesys.sysDup
    split
    · exact ⟨⟨R, h⟩, Or.inl hsame⟩
    · split
      · exact ⟨⟨R, h⟩, Or.inl hsame⟩
      · next f _ =>
        have h1 : Gone R n (u.fdup f) := h.congr rfl rfl
        exact ⟨⟨R, h1.setProc fun y hy => h1.home p d y hp hy⟩, Or.inl hsame⟩
  | read fd size =>
    simp only [Filesys.sysRead] at he
    split at he
    · cases he
      exact ⟨⟨R, h⟩, Or.inl hsame⟩
    · next f hf =>
      obtain ⟨hlt, hfile⟩ := procGetfile_some hf
      obtain ⟨q, hq, rfl⟩ := Option.map_eq_some_iff.1 he
      obtain ⟨-, h1, h2⟩ := fread_fs hi (hi.opened hp hlt hfile) hq
      exact ⟨⟨R, h.congr h2 h1⟩, Or.inl (.of_eq (congrArg Fs.disk h2))⟩
  | write fd buf =>
    simp only [Filesys.sysWrite] at he
    split at he
    · cases he
      exact ⟨⟨R, h⟩, Or.inl hsame⟩
    · next f hf =>
      obtain ⟨hlt, hfile⟩ := procGetfile_some hf
      obtain ⟨q, hq, rfl⟩ := Option.map_eq_some_iff.1 he
      obtain ⟨-, h1, h2⟩ := fwrite_fs hi (hi.opened hp hlt hfile) hq
      rcases h2 with h2 | ⟨x, off, r', htype, hx, hdir, hw⟩
      · exact ⟨⟨R, h.congr h2 h1⟩, Or.inl (.of_eq (congrArg Fs.disk h2))⟩
      · have hty := hi.live _ ⟨_, x, hx, rfl⟩
        obtain ⟨hv, -⟩ := iwrite_view hi.good hx hty hdir hw
        refine ⟨⟨R, h.root, fun p d y hp hy => ?_, hv ▸ h.lost⟩, ?_⟩
        · exact h.home p d y (h1 ▸ hp) (hv ▸ hy)
        · by_cases hxn : x.no = n
          · exact Or.inr ⟨d, fd, buf, f, hp, rfl, hf, htype, (seat_no hx).trans hxn⟩
          · have hl := hi.good.layer hx hty
            rcases iwrite_some hl.inv hl.mapped hl.active hw with ⟨-, -, hfs⟩ | ⟨-, -, hwr⟩
            · exact Or.inl (.of_eq (congrArg Fs.disk hfs))
            · exact Or.inl (hwr.keeps h.lt (Ne.symm hxn))
  | lseek fd off whence =>
    simp only [Filesys.sysLseek] at he
    split at he
    · cases he
      exact ⟨⟨R, h⟩, Or.inl hsame⟩
    · next f hf =>
      obtain ⟨q, hq, rfl⟩ := Option.map_eq_some_iff.1 he
      obtain ⟨h1, h2⟩ := fseek_fs hq
      exact ⟨⟨R, h.congr h1 h2⟩, Or.inl (.of_eq (congrArg Fs.disk h1))⟩
  | chdir path =>
    obtain ⟨h1, h2⟩ := h.sysChdir hi hp he hn
    exact ⟨h1, Or.inl h2⟩
  | unlink path =>
    obtain ⟨h1, h2⟩ := h.sysUnlink hi hp he hn
    exact ⟨⟨R, h1⟩, Or.inl h2⟩
  | exec path reads =>
    obtain ⟨h1, h2⟩ := h.sysExec hi hp he
    exact ⟨⟨R, h1⟩, Or.inl h2⟩
  | fork c =>
    simp only at he
    split at he
    · cases he
      obtain ⟨h1, h2⟩ := h.fork (c := c) hi hp
      exact ⟨⟨R, h1⟩, Or.inl h2⟩
    · cases he
  | exit =>
    obtain ⟨h1, h2⟩ := h.exit hi hp he hn
    exact ⟨⟨R, h1⟩, Or.inl h2⟩

/-! ## The last reference -/

/-- Some slot of the inode table holds `n`. -/
def InUse (n : Nat) (fs : Fs) : Prop := ∃ i, 0 < (fs.inodes i).ref ∧ (fs.inodes i).no = n

theorem inUse_iff : InUse n fs ↔ (view fs).Held n := by
  constructor
  · rintro ⟨i, hr, hn⟩
    exact ⟨i, ⟨_, _, _⟩, view_seat.2 ⟨hr, rfl, rfl, rfl⟩, hn⟩
  · rintro ⟨i, x, hx, hn⟩
    obtain ⟨hr, hno, -, -⟩ := view_seat.1 hx
    exact ⟨i, hr, hno.trans hn⟩

/-- `w` is `v`, or a state in the middle of an `exit` from `v`. -/
def Within (v w : Filesys) : Prop :=
  w = v ∨ ∃ p d l rest, v.procs p = some d ∧ l ++ rest = List.range maxUfile ∧
    l.foldlM (fun u j => (d.files j).elim (some u) u.fclose) { v with procs := Function.update v.procs p none } = some w

theorem Rest.within {w : Filesys} (hi : Rest v) (h : Gone R n v) (hw : Within v w) (hn : (view w.fs).Held n) :
    (∃ ef es, Inv ef es w) ∧ Gone R n w := by
  rcases hw with rfl | ⟨p, d, l, rest, hp, hl, hw⟩
  · exact ⟨⟨_, _, hi⟩, h⟩
  · have hleave := hi.leave hp
    rw [← hl] at hleave
    exact ⟨⟨_, _, Inv.closes hleave hw⟩, ((Gone.closes hleave hw hn).2 h.leave).1⟩

/-- What the removed file `n` can rely on in state `v`: its inode and its blocks are given to nobody, no
path leads to it, only writes to it change it, and it goes with its last reference and alone. -/
structure Safe (n : Nat) (v : Filesys) : Prop where
  dialloc : ∀ t m fs, t < 2 ^ 32 → v.fs.dialloc t = some (m, fs) → m ≠ n
  balloc : ∀ b fs, v.fs.balloc = some (b, fs) → ¬ Owns v.fs.disk n b
  lookup : ∀ p d path t i fs, v.procs p = some d → t < 2 ^ 32 → v.fs.iopen d.cwd path t = some (some i, fs) →
    (fs.inodes i).no ≠ n
  kept : ∀ p c v', v.step p c = some v' → InUse n v'.fs →
    ((node v'.fs.disk n = node v.fs.disk n ∧ content v'.fs.disk n = content v.fs.disk n) ∧
      ∀ k, blk v.fs.disk n k ≠ 0 → blk v'.fs.disk n k = blk v.fs.disk n k) ∨ WritesTo n v p c
  last : ∀ w i, Within v w → (w.fs.inodes i).ref = 1 → (w.fs.inodes i).no = n →
    ∃ fs, w.fs.iclose i = some fs ∧ Erased i n w.fs fs

theorem Gone.safe (h : Gone R n v) (hi : Rest v) : Safe n v where
  dialloc t m fs ht he := by
    obtain ⟨-, -, hnone, -⟩ := dialloc_view hi.good hi.live ht he
    rintro rfl
    rw [h.lost.file] at hnone
    cases hnone
  balloc b fs he := balloc_fresh hi.good he
  lookup p d path t i fs hp ht he := by
    obtain ⟨y, hy, -, hyn, -⟩ := (h.iopen hi hp ht he).2.2 i rfl
    rw [seat_no hy]
    exact hyn
  kept p c v' he hn := by
    rcases (h.step hi he (inUse_iff.1 hn)).2 with hk | hw
    · exact Or.inl ⟨⟨hk.node, hk.content⟩, hk.blks⟩
    · exact Or.inr hw
  last w i hw hr hno := by
    have hseat : (view w.fs).seat i = some ⟨n, 1, (w.fs.inodes i).del⟩ :=
      view_seat.2 ⟨by omega, hno, hr, rfl⟩
    obtain ⟨⟨ef, es, hi'⟩, h'⟩ := hi.within h hw ⟨i, _, hseat, rfl⟩
    have hdel := (Ns.del_iff hi'.good.ok hseat).1 h'.lost.del
    exact iclose_erased hi'.good hi'.live hseat rfl hdel

/-! ## Runs -/

/-- A call during which the file stays in use. -/
def KeepStep (n : Nat) (u : Filesys) (c : Nat × Call) (u' : Filesys) : Prop := Step u c u' ∧ InUse n u'.fs

theorem run_gone {ws : List (Nat × Call)} (hi : Rest u) (h : ∃ R, Gone R n u) (hr : Run (KeepStep n) u ws v) :
    Rest v ∧ ∃ R, Gone R n v :=
  hr.invariant (I := fun u => Rest u ∧ ∃ R, Gone R n u) (fun s c t hs hst => by
    obtain ⟨hs, R, hR⟩ := hs
    exact ⟨hs.step hst.1, (hR.step hs hst.1 (inUse_iff.1 hst.2)).1⟩) ⟨hi, h⟩

/-- From the root or a working directory one comes to a directory of which the `..` has the number `n`. -/
def UpTo (n : Nat) (u : Filesys) : Prop :=
  ∃ c e k, (c = 1 ∨ ∃ p d, u.procs p = some d ∧ (u.fs.inodes d.cwd).no = c) ∧ (view u.fs).Walk c e ∧
    (view u.fs).ent e k = some (n, dotdot)

/-- A regular file that is in use when `iremove` removes its path is safe until its last reference goes,
in every run, unless the `..` of a directory that has lost its parent names the number of its inode. -/
theorem unlinked_safe {boot₀ m : Store} {files : List (List UInt8 × List UInt8)} {u₀ : Filesys}
    {cs ws : List (Nat × Call)} {fs₁ fs₂ : Fs} (hname : ∀ f ∈ files, FileName f.1)
    (huniq : (files.map Prod.fst).Nodup) (hm : mkfs boot₀ files = some m) (hb : boot m = some u₀)
    (hr : Run Step u₀ cs u) (hp : u.procs p = some d) (hpath : u.fs.iopen d.cwd path typeNone = some (some i, fs₁))
    (hn : (fs₁.inodes i).no = n) (hfile : (node u.fs.disk n).type = typeFile) (huse : InUse n u.fs)
    (hrem : u.fs.iremove d.cwd path = some (true, fs₂)) (hup : ¬ UpTo n u)
    (hrun : Run (KeepStep n) { u with fs := fs₂ } ws v) : Safe n v := by
  have hi := run_rest (boot_rest hname huniq hm hb) hr
  obtain ⟨x, hx⟩ := hi.cwd_seat hp
  rcases iremove_view hi.good hx (hi.sound.named _) hrem with ⟨hc, -⟩ | ⟨-, c, j, n', nm, l, hrm, -, hg, -, hsame⟩
  · cases hc
  obtain rfl : n' = n := (hsame i fs₁ hpath).symm.trans hn
  have hi₂ : Rest { u with fs := fs₂ } := hi.sysUnlink hp (by
    unfold Filesys.sysUnlink
    rw [hrem]
    rfl)
  obtain ⟨l', y, hy, hyn⟩ := inUse_iff.1 huse
  have hlt : n' < 1920 := hyn ▸ (hi.good.seat_lt hy).2
  -- the other reference keeps it in use
  have hheld : (view fs₂).Held n' := by
    have hrefs := Ns.Removed.refs (k := l') hi.good.ok hrm
    have hpos : 0 < (view u.fs).refs l' := by
      unfold Ns.refs
      rw [hy]
      exact hi.good.ok.pos l' y hy
    obtain ⟨z, hz, -⟩ := Ns.seat_of_refs (s := view fs₂) (i := l') (hrefs ▸ hpos)
    exact ⟨l', z, hz, (Ns.Removed.no hi.good.ok hrm hy hz).trans hyn⟩
  have hgone : Gone (fun c => c = 1 ∨ ∃ p d, u.procs p = some d ∧ (u.fs.inodes d.cwd).no = c) n'
      { u with fs := fs₂ } := by
    refine ⟨Or.inl rfl, fun q e z hq hz => Or.inr ⟨q, e, hq, ?_⟩, ?_⟩
    · obtain ⟨w, hw⟩ := hi.cwd_seat hq
      rw [seat_no hw]
      exact (Ns.Removed.no hi.good.ok hrm hw hz).symm
    · refine Ns.Removed.lost hi.sound hi.good.ok hrm ((view_type hlt).trans hfile) (fun c hc => ?_)
        (fun c e hc hw k he => ?_) hheld
      · rcases hc with rfl | ⟨q, e, hq, rfl⟩
        · exact hi.sound.root.1
        · obtain ⟨w, hw⟩ := hi.cwd_seat hq
          rw [seat_no hw]
          exact hi.home q e hq w hw
      · exact hup ⟨c, e, k, hc, hw, he⟩
  obtain ⟨hv, R, hR⟩ := run_gone hi₂ ⟨_, hgone⟩ hrun
  exact hR.safe hv

/-! ## Two runs -/

/-- The root and the working directories are in `l`, and the entries of the directories in `l` stay in
it and are no `..` that names `n`. -/
def stays (u : Filesys) (l : List Nat) (n : Nat) : Bool :=
  l.contains 1 && ((List.range procNum).all fun p => (u.procs p).all fun d => l.contains (u.fs.inodes d.cwd).no) &&
    l.all fun e => (List.range ((node u.fs.disk e).size / 32)).all fun k =>
      ((view u.fs).ent e k).all fun q => l.contains q.1 && !(q.1 == n && q.2 == dotdot)

theorem upTo_stays {l : List Nat} (hi : Rest u) (hs : stays u l n = true) : ¬ UpTo n u := by
  unfold stays at hs
  rw [Bool.and_eq_true, Bool.and_eq_true] at hs
  obtain ⟨⟨h1, hc⟩, hs⟩ := hs
  have hent : ∀ e ∈ l, ∀ k q, (view u.fs).ent e k = some q → q.1 ∈ l ∧
      ¬ (q.1 = n ∧ q.2 = dotdot) := fun e he k q hq => by
    have hk : k < (node u.fs.disk e).size / 32 := by
      have hdir := type_of_ent hq
      have := (entry_some.1 ((view_ent hdir).symm.trans hq)).1
      omega
    have := List.all_eq_true.1 (List.all_eq_true.1 hs e he) k (List.mem_range.2 hk)
    rw [hq] at this
    simp only [Option.all_some, Bool.and_eq_true, List.contains_iff_mem, Bool.not_eq_true', Bool.and_eq_false_iff,
      beq_eq_false_iff_ne] at this
    exact ⟨this.1, fun hq => this.2.elim (fun hc => hc hq.1) fun hc => hc hq.2⟩
  rintro ⟨c, e, k, hroot, hw, he⟩
  have hcl : c ∈ l := by
    rcases hroot with rfl | ⟨p, d, hp, rfl⟩
    · exact List.contains_iff_mem.1 h1
    · have := List.all_eq_true.1 hc p (List.mem_range.2 (hi.table p (by rw [hp]; exact Option.some_ne_none d)))
      rw [hp] at this
      exact List.contains_iff_mem.1 this
  have hel : ∀ {b}, (view u.fs).Walk c b → b ∈ l := fun {b} hw => by
    induction hw with
    | refl => exact hcl
    | tail _ hn ih =>
      obtain ⟨j, nm, hj⟩ := hn
      exact (hent _ ih j _ hj).1
  exact (hent e (hel hw) k _ he).2 ⟨rfl, rfl⟩

/-- A regular file is made and opened by process 1. -/
def openFile : List (Nat × Call) := [(1, .open [slash, 97] (oCreate ||| oRdwr))]

/-- The state after a run from an image that holds the shell. -/
def after (cs : List (Nat × Call)) : Option Filesys :=
  ((mkfs (fun _ => 0) shell).bind boot).bind fun u => cs.foldlM (fun u c => u.step c.1 c.2) u

theorem after_run {cs : List (Nat × Call)} (h : after cs = some u) :
    ∃ m u₀, mkfs (fun _ => 0) shell = some m ∧ boot m = some u₀ ∧ Run Step u₀ cs u := by
  obtain ⟨u₀, hu₀, hrun⟩ := Option.bind_eq_some_iff.1 h
  obtain ⟨m, hm, hb⟩ := Option.bind_eq_some_iff.1 hu₀
  exact ⟨m, u₀, hm, hb, .of_foldlM hrun⟩

/-- What process 1 finds and does with a path: the number of the inode that it names, whether it is a
regular file in the slot `i` of the inode table, and the file system without the path. -/
def unlinked (u : Filesys) (path : List UInt8) (i : Nat) : Option (Desc × Nat × Fs) := do
  let d ← u.procs 1
  let (r, fs₁) ← u.fs.iopen d.cwd path typeNone
  let l ← r
  let n := (fs₁.inodes l).no
  let (b, fs₂) ← u.fs.iremove d.cwd path
  if b ∧ (node u.fs.disk n).type = typeFile ∧ 0 < (u.fs.inodes i).ref ∧
    (u.fs.inodes i).no = n then some (d, n, fs₂) else none

theorem unlinked_some {path : List UInt8} {l : Nat} {q : Desc × Nat × Fs} (h : unlinked u path l = some q) :
    u.procs 1 = some q.1 ∧ (∃ i fs₁, u.fs.iopen q.1.cwd path typeNone = some (some i, fs₁) ∧
      (fs₁.inodes i).no = q.2.1) ∧
      (node u.fs.disk q.2.1).type = typeFile ∧ InUse q.2.1 u.fs ∧ u.fs.iremove q.1.cwd path = some (true, q.2.2) := by
  unfold unlinked at h
  obtain ⟨d, hd, h₁⟩ := Option.bind_eq_some_iff.1 h
  obtain ⟨⟨r, fs₁⟩, ho, h₂⟩ := Option.bind_eq_some_iff.1 h₁
  obtain ⟨i, hi, h₃⟩ := Option.bind_eq_some_iff.1 h₂
  obtain ⟨⟨b, fs₂⟩, hr, h₄⟩ := Option.bind_eq_some_iff.1 h₃
  simp only at hi h₄
  split at h₄
  · next hc =>
    obtain ⟨hb, h1, h2, h3⟩ := hc
    cases h₄
    exact ⟨hd, ⟨i, fs₁, hi ▸ ho, rfl⟩, h1, ⟨l, h2, h3⟩, hb ▸ hr⟩
  · cases h₄

theorem demo_unlinked : ((after openFile).bind fun u => (unlinked u [slash, 97] 1).bind fun q =>
    (({ u with fs := q.2.2 } : Filesys).step 1 (.write 0 [1, 2, 3])).map fun v =>
      (stays u [1, 2, 3, 4, 5, 6] q.2.1, decide (0 < (v.fs.inodes 1).ref ∧ (v.fs.inodes 1).no = q.2.1))) =
      some (true, true) := by
  decide +kernel

/-- The file just made is removed, and written to afterwards. -/
theorem unlinked_safe_demo : ∃ u fs₂ n v, after openFile = some u ∧
    Run (KeepStep n) { u with fs := fs₂ } [(1, .write 0 [1, 2, 3])] v ∧ InUse n v.fs ∧ Safe n v := by
  obtain ⟨u, hu, h⟩ := Option.bind_eq_some_iff.1 demo_unlinked
  obtain ⟨⟨d, n, fs₂⟩, hq, h⟩ := Option.bind_eq_some_iff.1 h
  obtain ⟨v, hv, h⟩ := Option.map_eq_some_iff.1 h
  obtain ⟨hst, huse'⟩ := Prod.mk.inj h
  obtain ⟨hp, ⟨i, fs₁, hpath, hn⟩, hfile, huse, hrem⟩ := unlinked_some hq
  obtain ⟨m, u₀, hm, hb, hr⟩ := after_run hu
  have hi := run_rest (boot_rest shell_name shell_nodup hm hb) hr
  have hin : InUse n v.fs := ⟨1, of_decide_eq_true huse'⟩
  have hrun : Run (KeepStep n) { u with fs := fs₂ } [(1, .write 0 [1, 2, 3])] v := .single ⟨hv, hin⟩
  exact ⟨u, fs₂, n, v, hu, hrun, hin, unlinked_safe shell_name shell_nodup hm
    hb hr hp hpath hn hfile huse hrem (upTo_stays hi hst) hrun⟩

/-- A process in a directory that is removed, as is the one above it, of which a file gets the number. -/
def dangling : List (Nat × Call) :=
  [(1, .open [slash, 100] (oCreate ||| oDir)), (1, .close 0), (1, .open [slash, 100, slash, 101] (oCreate ||| oDir)),
    (1, .close 0), (1, .chdir [slash, 100, slash, 101]), (1, .unlink [slash, 100, slash, 101]),
    (1, .unlink [slash, 100]), (1, .open [slash, 97] (oCreate ||| oRdwr))]

theorem dangling_found : ((after dangling).bind fun u => (unlinked u [slash, 97] 1).bind fun q =>
    (q.2.2.iopen q.1.cwd dotdot typeNone).bind fun r => r.1.map fun l => decide ((r.2.inodes l).no = q.2.1)) =
    some true := by
  decide +kernel

/-- The removed file is found as the `..` of the directory that the process is in. -/
theorem unlinked_found : ¬ ∀ (boot₀ m : Store) (files : List (List UInt8 × List UInt8)) (u₀ u v : Filesys)
    (cs ws : List (Nat × Call)) (p n i : Nat) (d : Desc) (path : List UInt8) (fs₁ fs₂ : Fs),
    (∀ f ∈ files, FileName f.1) → (files.map Prod.fst).Nodup → mkfs boot₀ files = some m → boot m = some u₀ →
    Run Step u₀ cs u → u.procs p = some d → u.fs.iopen d.cwd path typeNone = some (some i, fs₁) →
    (fs₁.inodes i).no = n →
    (node u.fs.disk n).type = typeFile → InUse n u.fs → u.fs.iremove d.cwd path = some (true, fs₂) →
    Run (KeepStep n) { u with fs := fs₂ } ws v → Safe n v := by
  intro hall
  obtain ⟨u, hu, h⟩ := Option.bind_eq_some_iff.1 dangling_found
  obtain ⟨⟨d, n, fs₂⟩, hq, h⟩ := Option.bind_eq_some_iff.1 h
  obtain ⟨⟨r, fs₃⟩, ho, h⟩ := Option.bind_eq_some_iff.1 h
  obtain ⟨l, hl, h⟩ := Option.map_eq_some_iff.1 h
  obtain ⟨hp, ⟨i, fs₁, hpath, hn⟩, hfile, huse, hrem⟩ := unlinked_some hq
  obtain ⟨m, u₀, hm, hb, hr⟩ := after_run hu
  have hsafe := hall _ m shell u₀ u _ _ [] 1 n i d _ fs₁ fs₂ shell_name shell_nodup hm hb hr hp
    hpath hn hfile huse hrem .nil
  have hl' : r = some l := hl
  rw [hl'] at ho
  exact hsafe.lookup 1 d dotdot typeNone l fs₃ hp (by decide) ho (of_decide_eq_true h)

end Filesys

end TinyOS
