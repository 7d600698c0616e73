/-
From the operations of the namespace to system calls: what references, one new inode and one removed
entry keep, every call keeps.
-/
import TinyOS.File.Dirs

namespace TinyOS

open TinyOS.Lib TinyOS.Fs

namespace Filesys

variable {u u' : Filesys} {ef es : Nat → Int} {P : Ns → Prop} {p f i : Nat} {d : Desc} {x : Seat} {fs fs' : Fs}
  {path : List UInt8}

/-- `P` survives references that are taken and given back. -/
structure Steady (P : Ns → Prop) : Prop where
  get : ∀ s i n, P s → P (s.get i n)
  put : ∀ s i x, s.Ok → s.Live → s.Sound → s.seat i = some x → P s → P (s.put i)

/-- `P` survives what the call may create and remove. -/
def Allows (P : Ns → Prop) (u : Filesys) (p : Nat) : Call → Prop
  | .open path mode => ∀ d l c j n nm fs, u.procs p = some d →
      u.fs.iopen d.cwd path (openType mode) = some (some l, fs) →
      Created (view u.fs) c j n (openType mode) nm l (view fs) → P (view fs)
  | .unlink path => ∀ d c j n nm l fs, u.procs p = some d → u.fs.iremove d.cwd path = some (true, fs) →
      Removed (view u.fs) c j n nm l (view fs) → P (view fs)
  | _ => True

theorem Steady.iclose (hP : Steady P) (hi : Inv ef es u) (hx : 1 ≤ es i) (h : P (view u.fs))
    (he : u.fs.iclose i = some fs) :
    P (view fs) := by
  obtain ⟨x, hx, -⟩ := Ns.seat_of_refs (s := view u.fs) (i := i) (by
    have h1 := hi.seats i
    have h2 := slotRefs_nonneg (u := u) (i := i)
    omega)
  obtain ⟨fs₁, h1, hv, -⟩ := iclose_view hi.good hx fun _ _ => hi.live _ ⟨i, x, hx, rfl⟩
  obtain rfl := Option.some.inj (he.symm.trans h1)
  rw [hv]
  exact hP.put _ _ _ hi.good.ok hi.live hi.sound hx h

theorem Steady.fclose (hP : Steady P) (hi : Inv ef es u) (hf : 0 < (u.files f).ref) (h : P (view u.fs))
    (he : u.fclose f = some u') : P (view u'.fs) := by
  have hself : ∀ y, (u.setFile f y).files f = y := fun y => Function.update_self ..
  unfold Filesys.fclose at he
  simp only [hself] at he
  split at he
  · next hlast =>
    obtain ⟨fs, hcl, he⟩ := Option.bind_eq_some_iff.1 he
    cases he
    obtain ⟨x, hx⟩ := hi.file_seat hf hlast.2
    obtain ⟨fs₁, h1, hv, -⟩ := iclose_view hi.good hx fun _ _ => hi.live _ ⟨_, x, hx, rfl⟩
    obtain rfl := Option.some.inj (hcl.symm.trans h1)
    show P (view fs)
    rw [hv]
    exact hP.put _ _ _ hi.good.ok hi.live hi.sound hx h
  · cases he
    exact h

theorem Steady.fopen {cwd mode : Nat} {r : Option Nat} (hP : Steady P) (hi : Inv ef es u)
    (hx : (view u.fs).seat cwd = some x)
    (h : P (view u.fs)) (hc : ∀ l c j n nm fs, u.fs.iopen cwd path (openType mode) = some (some l, fs) →
      Created (view u.fs) c j n (openType mode) nm l (view fs) → P (view fs))
    (he : u.fopen cwd path mode = some (r, u')) : P (view u'.fs) := by
  obtain ⟨-, hsame | ⟨q, fs, hio, hg, hl, hs, hfin⟩, -⟩ := hi.fopen hx he
  · rw [hsame]
    exact h
  have h₁ : P (view fs) := by
    rcases iopen_view hi.good hx hio with ⟨-, hv, -⟩ | ⟨l, n, -, -, hv, -⟩ | ⟨-, hmade⟩
    · rw [hv]
      exact h
    · rw [hv]
      exact hP.get _ _ _ h
    · obtain ⟨l, c, j, n, nm, rfl, hcr, -⟩ := hmade hi.live openType_lt
      exact hc l c j n nm fs hio hcr
  rcases hfin with hsame | ⟨l, z, -, hz, hk, hcl⟩ | ⟨l, z, -, hz, hdir, htr⟩
  · rw [hsame]
    exact h₁
  · obtain ⟨fs₁, h1, hv, -, -⟩ := iclose_kept hg hz hk
    rw [Option.some.inj (hcl.symm.trans h1), hv]
    exact hP.put _ _ _ hg.ok hl hs hz h₁
  · obtain ⟨fs₁, h1, -, hv, -⟩ := itrunc_view hg hz (hl _ ⟨l, z, hz, rfl⟩)
    rw [Option.some.inj (htr.symm.trans h1), hv, hs.trunc hdir]
    exact h₁

/-- Opening what is there, and giving it back. -/
theorem look_back {cwd l : Nat} {fs₁ : Fs} (hi : Inv ef es u) (hx : (view u.fs).seat cwd = some x)
    (h : P (view u.fs)) (ho : u.fs.iopen cwd path typeNone = some (some l, fs)) (hr : fs₁ = fs)
    (he : fs₁.iclose l = some fs') : P (view fs') := by
  subst hr
  rcases iopen_view hi.good hx ho with ⟨hc, -⟩ | ⟨l', n, hl, hroom, hv, hg, -⟩ | ⟨hc, -⟩
  · cases hc
  · cases hl
    rw [(iclose_back hi.good.ok hg hroom hv he).1]
    exact h
  · exact absurd rfl hc

theorem Steady.sysChdir (hP : Steady P) (hi : Rest u) (hp : u.procs p = some d) (h : P (view u.fs))
    (he : u.sysChdir p d path = some u') : P (view u'.fs) := by
  unfold Filesys.sysChdir at he
  obtain ⟨⟨r, fs⟩, ho, he⟩ := Option.bind_eq_some_iff.1 he
  obtain ⟨x, hx⟩ := hi.cwd_seat hp
  cases r with
  | none =>
    cases he
    rcases iopen_view hi.good hx ho with ⟨-, hv, -⟩ | ⟨l, n, hc, -⟩ | ⟨hc, -⟩
    · show P (view fs)
      rw [hv]
      exact h
    · cases hc
    · exact absurd rfl hc
  | some l =>
    simp only at he
    split at he
    · obtain ⟨fs', hcl, he⟩ := Option.bind_eq_some_iff.1 he
      cases he
      exact look_back hi hx h ho rfl hcl
    · next hcd =>
      obtain ⟨fs', hcl, he⟩ := Option.bind_eq_some_iff.1 he
      cases he
      -- the old working directory is still held when it is closed
      have hlive : Good fs ∧ (view fs).Live ∧ (view fs).Sound ∧ ∃ z, (view fs).seat d.cwd = some z := by
        rcases hi.iopen hx (by decide) ho with ⟨hc, -⟩ | ⟨l', y, -, -, -, hi₁⟩ | ⟨l', y, hl, hnone, -⟩
        · cases hc
        · exact ⟨hi₁.good, hi₁.live, hi₁.sound, hi₁.cwd_seat (p := p) hp⟩
        · cases hl
          rw [hnone] at hcd
          exact absurd (by decide) hcd
      obtain ⟨hg, hl, hs, z, hz⟩ := hlive
      have h₁ : P (view fs) := by
        rcases iopen_view hi.good hx ho with ⟨hc, -⟩ | ⟨l', n, -, -, hv, -⟩ | ⟨hc, -⟩
        · cases hc
        · rw [hv]
          exact hP.get _ _ _ h
        · exact absurd rfl hc
      obtain ⟨fs₁, h1, hv, -⟩ := iclose_view hg hz fun _ _ => hl _ ⟨_, z, hz, rfl⟩
      show P (view fs')
      rw [Option.some.inj (hcl.symm.trans h1), hv]
      exact hP.put _ _ _ hg.ok hl hs hz h₁

theorem Steady.closes {tab : Nat → Option Nat} {rest : List Nat} (hP : Steady P) : ∀ {l : List Nat} {u : Filesys},
    Inv (fun g => ((l ++ rest).countP fun j => decide (tab j = some g) : Nat)) es u → P (view u.fs) →
    l.foldlM (fun u j => (tab j).elim (some u) u.fclose) u = some u' → P (view u'.fs)
  | [], u, _, h, he => by
    cases he
    exact h
  | j :: l, u, hi, h, he => by
    rw [List.foldlM_cons] at he
    obtain ⟨u₁, h1, he⟩ := Option.bind_eq_some_iff.1 he
    have hone : Inv (fun g => ((l ++ rest).countP fun j => decide (tab j = some g) : Nat)) es u₁ :=
      Inv.closes (l := [j]) hi (by rw [List.foldlM_cons, h1]; rfl)
    refine hP.closes hone ?_ he
    cases hj : tab j with
    | none =>
      rw [hj] at h1
      cases h1
      exact h
    | some f =>
      rw [hj] at h1
      exact hP.fclose hi (hi.closing hj) h h1

theorem Steady.exit (hP : Steady P) (hi : Rest u) (hp : u.procs p = some d) (h : P (view u.fs))
    (he : u.exit p d = some u') :
    P (view u'.fs) := by
  unfold Filesys.exit at he
  obtain ⟨u₁, hcl, he⟩ := Option.bind_eq_some_iff.1 he
  obtain ⟨fs, hic, he⟩ := Option.bind_eq_some_iff.1 he
  cases he
  have hleave := hi.leave hp
  rw [← List.append_nil (List.range maxUfile)] at hleave
  exact hP.iclose (Inv.closes hleave hcl) (by rw [unit_self]) (hP.closes hleave h hcl) hic

/-- A call that may create and remove what it does. -/
theorem Steady.step {c : Call} (hP : Steady P) (hi : Rest u) (h : P (view u.fs)) (ha : Allows P u p c)
    (he : u.step p c = some u') : P (view u'.fs) := by
  unfold Filesys.step at he
  split at he
  · cases he
  next d hp =>
  obtain ⟨x, hx⟩ := hi.cwd_seat hp
  cases c with
  | «open» path mode =>
    simp only [Filesys.sysOpen] at he
    split at he
    · cases he
      exact h
    obtain ⟨⟨r, u₁⟩, ho, he⟩ := Option.bind_eq_some_iff.1 he
    have h₁ := hP.fopen hi hx h (fun l c j n nm fs => ha d l c j n nm fs hp) ho
    cases r with
    | none => cases he; exact h₁
    | some f => cases he; exact h₁
  | close fd =>
    simp only [Filesys.sysClose] at he
    split at he
    · cases he
      exact h
    · next f hf =>
      obtain ⟨hlt, hfile⟩ := procGetfile_some hf
      obtain ⟨u₁, hcl, he⟩ := Option.bind_eq_some_iff.1 he
      cases he
      have h₁ := hP.fclose hi (hi.opened hp hlt hfile) h hcl
      exact h₁
  | dup fd =>
    cases he
    unfold Filesys.sysDup
    split
    · exact h
    · split
      · exact h
      · exact h
  | read fd size =>
    simp only [Filesys.sysRead] at he
    split at he
    · cases he
      exact h
    · next f hf =>
      obtain ⟨hlt, hfile⟩ := procGetfile_some hf
      obtain ⟨q, hq, rfl⟩ := Option.map_eq_some_iff.1 he
      rw [(fread_fs hi (hi.opened hp hlt hfile) hq).2.2]
      exact h
  | write fd buf =>
    simp only [Filesys.sysWrite] at he
    split at he
    · cases he
      exact h
    · next f hf =>
      obtain ⟨hlt, hfile⟩ := procGetfile_some hf
      obtain ⟨q, hq, rfl⟩ := Option.map_eq_some_iff.1 he
      rcases (fwrite_fs hi (hi.opened hp hlt hfile) hq).2.2 with h2 | ⟨y, off, r', -, hy, hdir, hw⟩
      · rw [h2]
        exact h
      · rw [(iwrite_view hi.good hy (hi.live _ ⟨_, y, hy, rfl⟩) hdir hw).1]
        exact h
  | lseek fd off whence =>
    simp only [Filesys.sysLseek] at he
    split at he
    · cases he
      exact h
    · obtain ⟨q, hq, rfl⟩ := Option.map_eq_some_iff.1 he
      rw [(fseek_fs hq).1]
      exact h
  | chdir path => exact hP.sysChdir hi hp h he
  | unlink path =>
    obtain ⟨⟨b, fs⟩, hr, he⟩ := Option.bind_eq_some_iff.1 he
    cases he
    rcases iremove_view hi.good hx (hi.sound.named _) hr with ⟨-, hv, -⟩ | ⟨rfl, c, j, n, nm, l, hrem, -⟩
    · show P (view fs)
      rw [hv]
      exact h
    · exact ha d c j n nm l fs hp hr hrem
  | exec path reads =>
    obtain ⟨⟨r, fs⟩, ho, he⟩ := Option.bind_eq_some_iff.1 he
    cases r with
    | none =>
      cases he
      rcases iopen_view hi.good hx ho with ⟨-, hv, -⟩ | ⟨l, n, hc, -⟩ | ⟨hc, -⟩
      · show P (view fs)
        rw [hv]
        exact h
      · cases hc
      · exact absurd rfl hc
    | some l =>
      obtain ⟨fs₁, hr, he⟩ := Option.bind_eq_some_iff.1 he
      obtain ⟨fs₂, hcl, he⟩ := Option.bind_eq_some_iff.1 he
      cases he
      refine look_back hi hx h ho ?_ hcl
      rcases hi.iopen hx (by decide) ho with ⟨hc, -⟩ | ⟨l', z, hl, hz, -, hi₁⟩ | ⟨l', z, hl, -, hg, hz, -⟩
      · cases hc
      · cases hl
        exact ireads_idle hi₁.good hz hr
      · cases hl
        exact ireads_idle hg hz hr
  | fork c =>
    simp only at he
    split at he
    · cases he
      obtain ⟨hd, hprocs, hfs⟩ := Inv.dups (l := List.range maxUfile) hi fun j hj f hf =>
        hi.opened hp (List.mem_range.1 hj) hf
      obtain ⟨y, hy⟩ := hd.cwd_seat (hprocs ▸ hp)
      obtain ⟨hv, -⟩ := idup_view hd.good hy
      have h₁ : P (view ((List.range maxUfile).foldl (fun u j => (d.files j).elim u u.fdup) u).fs) := by
        rw [hfs]
        exact h
      have h₂ := hP.get _ d.cwd y.no h₁
      rw [← hv] at h₂
      exact h₂
    · cases he
  | exit => exact hP.exit hi hp h he

/-! ## Runs -/

/-- `P` survives what devices and their directory add before there are processes. -/
theorem Steady.initDev (hP : Steady P) (hi : Rest u) (hp : u.procs p = some d) (h : P (view u.fs))
    (hcr : ∀ s c j n t nm i s', s.Ok → s.Live → s.Sound → P s → Created s c j n t nm i s' → t = typeDir ∨ t = typeDev →
      P (s.create c j n t nm))
    (he : Filesys.initDev u.fs d.cwd = some fs) : P (view fs) := by
  unfold Filesys.initDev at he
  obtain ⟨⟨r, fs₁⟩, ho, he₁⟩ := Option.bind_eq_some_iff.1 he
  obtain ⟨i, hr, he₂⟩ := Option.bind_eq_some_iff.1 he₁
  obtain ⟨fs₂, hcl, he₃⟩ := Option.bind_eq_some_iff.1 he₂
  cases hr
  obtain ⟨x, hx⟩ := hi.cwd_seat hp
  have hput : ∀ {y}, Good fs₁ → (view fs₁).Live → (view fs₁).Sound → (view fs₁).seat i = some y → P (view fs₁) →
      P (view fs₂) := fun {y} hg hl hs hy h₁ => by
    obtain ⟨fs₄, h1, hv, -⟩ := iclose_view hg hy fun _ _ => hl _ ⟨i, y, hy, rfl⟩
    rw [Option.some.inj (hcl.symm.trans h1), hv]
    exact hP.put _ _ _ hg.ok hl hs hy h₁
  have hdir : Rest { u with fs := fs₂ } ∧ P (view fs₂) := by
    rcases hi.iopen hx (by decide) ho with ⟨hbad, -⟩ | ⟨i', y, hr, hy, -, hi₁⟩ | ⟨i', y, hr, -, hg, hy, hi₁⟩
    · cases hbad
    · cases hr
      refine ⟨(hi₁.iclose (by simp only [unit_self]; decide) hcl).congr (fun _ => rfl) fun k => by ring,
        hput hi₁.good hi₁.live hi₁.sound hy ?_⟩
      rcases iopen_view hi.good hx ho with ⟨hc, -⟩ | ⟨l, n, -, -, hv, -⟩ | ⟨-, hmade⟩
      · cases hc
      · rw [hv]
        exact hP.get _ _ _ h
      · obtain ⟨l, c, j, n, nm, -, hm, -⟩ := hmade hi.live (by decide)
        rw [hm.eq]
        exact hP.get _ _ _ (hcr _ _ _ _ _ _ _ _ hi.good.ok hi.live hi.sound h hm (Or.inl rfl))
    · cases hr
      refine ⟨hi₁ fs₂ hcl, ?_⟩
      rcases iopen_view hi.good hx ho with ⟨hc, -⟩ | ⟨l, n, hl, hroom, hv, hg', -⟩ | ⟨-, hmade⟩
      · cases hc
      · cases hl
        rw [(iclose_back hi.good.ok hg hroom hv hcl).1]
        exact h
      · obtain ⟨l, c, j, n, nm, hl, hm, -⟩ := hmade hi.live (by decide)
        cases hl
        rw [(iclose_back (ok_create hi.good.ok) hg (room_create.2 hm.room) hm.eq hcl).1]
        exact hcr _ _ _ _ _ _ _ _ hi.good.ok hi.live hi.sound h hm (Or.inl rfl)
  -- the loop over the table
  have hloop : ∀ (l : List (List UInt8 × Nat)) (fs fs' : Fs), (∀ q ∈ l, q.2 < 2 ^ 32) → Rest { u with fs := fs } →
      P (view fs) → l.foldlM (fun fs q => fs.iadddev d.cwd q.1 q.2) fs = some fs' → P (view fs') := by
    intro l
    induction l with
    | nil =>
      intro fs fs' _ _ h he
      cases he
      exact h
    | cons q l ih =>
      intro fs fs' hl h hP₁ he
      rw [List.foldlM_cons] at he
      obtain ⟨fs₃, h1, he⟩ := Option.bind_eq_some_iff.1 he
      obtain ⟨x, hx⟩ := h.cwd_seat (p := p) hp
      have hnext := Inv.iadddev h hx (hl q List.mem_cons_self) h1
      refine ih fs₃ fs' (fun q hq => hl q (List.mem_cons_of_mem _ hq)) hnext ?_ he
      rcases iadddev_view h.good hx (hl q List.mem_cons_self) h1 with ⟨hv, -⟩ | hmade
      · rw [hv]
        exact hP₁
      · obtain ⟨l, c, j, n, nm, hm, -, -, hv, -⟩ := hmade h.live
        rw [hv]
        exact hcr _ _ _ _ _ _ _ _ h.good.ok h.live h.sound hP₁ hm (Or.inr rfl)
  exact hloop _ _ _ (by decide) hdir.1 hdir.2 he₃

end Filesys

end TinyOS
