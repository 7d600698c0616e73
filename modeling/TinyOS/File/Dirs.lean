/-
Directories under system calls: in every state between calls each directory is in order, and writes
and opens change the bytes of directories only where `ilookup` makes an entry.
-/
import TinyOS.File.Refs
import TinyOS.Fs.Reference

namespace TinyOS

open TinyOS.Lib TinyOS.Fs TinyOS.Mkfs

namespace Filesys

variable {u u' u₀ : Filesys} {boot₀ m : Store} {files : List (List UInt8 × List UInt8)} {fs fs' : Fs} {p cwd : Nat}

/-- How `boot` goes: the devices are made, and the first process opens the root. -/
theorem boot_some (hm : mkfs boot₀ files = some m) (hb : boot m = some u) : ∃ fs fs' i, initDev (only m 1) 0 = some fs ∧
    fs.iopen 0 [slash] typeNone = some (some i, fs') ∧
    u = ⟨fs', fun _ => noFile, fun p =>
      if p = 0 then some (noFiles 0) else if p = 1 then some (noFiles i) else none⟩ := by
  unfold boot at hb
  rw [(mount_mounted hm).1] at hb
  simp only [Option.bind_eq_bind, Option.bind_some, Option.pure_def] at hb
  obtain ⟨fs, hdev, hb⟩ := Option.bind_eq_some_iff.1 hb
  obtain ⟨⟨r, fs'⟩, ho, hb⟩ := Option.bind_eq_some_iff.1 hb
  obtain ⟨i, hr, hb⟩ := Option.bind_eq_some_iff.1 hb
  cases hr
  cases hb
  exact ⟨fs, fs', i, hdev, ho, rfl⟩

/-- The file system before there are processes, with a reference to the working directory of the first. -/
theorem mounted_held (h : Mounted files fs) (hname : ∀ f ∈ files, FileName f.1 ∧ f.1.length ≤ 27)
    (huniq : (files.map Prod.fst).Nodup) : Inv (fun _ => 0) (unit 0) ⟨fs, fun _ => noFile, fun _ => none⟩ := by
  have hnone : ∀ f, ¬ 0 < ((fun _ : Nat => noFile) f).ref := fun f hf => absurd hf (lt_irrefl 0)
  refine ⟨h.good, h.live, mounted_sound h hname huniq, fun f => ?_, fun i => ?_, fun f hf => absurd hf (hnone f),
    fun f hf => absurd hf (hnone f), fun p hp => absurd rfl hp, fun _ _ hp => (by cases hp), fun i => unit_nonneg⟩
  · show (0 : Int) = (∑ p ∈ Finset.range procNum, 0) + 0
    rw [Finset.sum_const_zero]
    rfl
  · have hu : ∀ f, uses ((fun _ : Nat => noFile) f) i = 0 := fun f => if_neg fun hc => hnone f hc.1
    show (view fs).refs i = (∑ f ∈ Finset.range totalFile, uses ((fun _ : Nat => noFile) f) i) +
      (∑ p ∈ Finset.range procNum, 0) + _
    rw [Finset.sum_eq_zero fun f _ => hu f, Finset.sum_const_zero]
    unfold Ns.refs unit
    rw [h.seat]
    split <;> rfl

/-- The same with the process. -/
theorem mounted_rest (h : Mounted files fs) (hname : ∀ f ∈ files, FileName f.1 ∧ f.1.length ≤ 27)
    (huniq : (files.map Prod.fst).Nodup) :
    Rest ⟨fs, fun _ => noFile, Function.update (fun _ => none) 0 (some (noFiles 0))⟩ := by
  refine ((mounted_held h hname huniq).withProc (p := 0) (o := some (noFiles 0)) (by decide) (fun d hd x hx => ?_)
    fun k => ?_).congr (fun g => ?_) fun k => ?_
  · cases hd
    have hx' : (view fs).seat 0 = some x := hx
    rw [h.seat, if_pos rfl] at hx'
    cases hx'
    show (view fs).type 1 = typeDir
    rw [h.type, if_pos rfl]
  · show 0 ≤ unit 0 k + (0 - unit 0 k)
    omega
  · show (0 : Int) = 0 + (0 - (slots maxUfile (fun _ => none) g : Nat))
    rw [slots_none fun _ => rfl]
    rfl
  · show (0 : Int) = unit 0 k + (0 - unit 0 k)
    ring

theorem Rest.initDev {d : Desc} (h : Rest u) (hp : u.procs p = some d) (he : Filesys.initDev u.fs d.cwd = some fs) :
    Rest { u with fs := fs } := by
  unfold Filesys.initDev at he
  obtain ⟨⟨r, fs₁⟩, ho, he₁⟩ := Option.bind_eq_some_iff.1 he
  obtain ⟨i, hr, he₂⟩ := Option.bind_eq_some_iff.1 he₁
  obtain ⟨fs₂, hcl, he₃⟩ := Option.bind_eq_some_iff.1 he₂
  cases hr
  obtain ⟨x, hx⟩ := h.cwd_seat hp
  have hdir : Rest { u with fs := fs₂ } := by
    rcases h.iopen hx (by decide) ho with ⟨hbad, -⟩ | ⟨i, y, hr, -, -, hi⟩ | ⟨i, -, hr, -, -, -, hi⟩
    · cases hbad
    · cases hr
      refine (hi.iclose (by simp only [unit_self]; decide) hcl).congr (fun _ => rfl) fun k => by ring
    · cases hr
      exact hi fs₂ hcl
  -- the loop over the table
  have hloop : ∀ (l : List (List UInt8 × Nat)) (fs fs' : Fs), (∀ q ∈ l, q.2 < 2 ^ 32) → Rest { u with fs := fs } →
      l.foldlM (fun fs q => fs.iadddev d.cwd q.1 q.2) fs = some fs' → Rest { u with fs := fs' } := by
    intro l
    induction l with
    | nil =>
      intro fs fs' _ h he
      cases he
      exact h
    | cons q l ih =>
      intro fs fs' hl h he
      rw [List.foldlM_cons] at he
      obtain ⟨fs₃, h1, he⟩ := Option.bind_eq_some_iff.1 he
      obtain ⟨x, hx⟩ := h.cwd_seat (p := p) hp
      have hnext := Inv.iadddev h hx (hl q List.mem_cons_self) h1
      exact ih fs₃ fs' (fun q hq => hl q (List.mem_cons_of_mem _ hq)) hnext he
  exact hloop _ _ _ (by decide) hdir he₃

theorem boot_rest (hname : ∀ f ∈ files, FileName f.1) (huniq : (files.map Prod.fst).Nodup)
    (hm : mkfs boot₀ files = some m) (hb : boot m = some u) : Rest u := by
  obtain ⟨fs, fs', i, hdev, ho, rfl⟩ := boot_some hm hb
  have h₂ := (mounted_rest (mount_mounted hm).2 (mkfs_short hname hm) huniq).initDev (p := 0) (d := noFiles 0) rfl hdev
  -- the second process opens the root itself, which is a directory
  have hskip : skipelem [slash] = none := rfl
  unfold iopen at ho
  rw [hskip] at ho
  simp only [List.headD_cons, if_true] at ho
  obtain ⟨⟨l, fs₁⟩, hget, ho⟩ := Option.bind_eq_some_iff.1 ho
  cases ho
  have hsb : fs.sb.root = 1 := by rw [h₂.good.inv.sb]; rfl
  rw [hsb] at hget
  obtain ⟨hroom, hv, hg, -⟩ := iget_view h₂.good (by decide) (by decide) hget
  have hdir := h₂.sound.root.1
  have hroot : Inv (fun _ => 0) (fun k => 0 + unit l k)
      ⟨fs₁, fun _ => noFile, Function.update (fun _ => none) 0 (some (noFiles 0))⟩ := by
    refine h₂.withFs hg (hv ▸ live_get h₂.live hroom (by rw [hdir]; decide)) (hv ▸ h₂.sound.get) (fun k => ?_)
      (hv ▸ Ns.Stay.get) fun k => add_nonneg (le_refl 0) unit_nonneg
    rw [hv, Ns.refs_get]
    rfl
  have h₃ := hroot.withProc (p := 1) (o := some (noFiles l)) (by decide) (fun d hd x hx => ?_) fun k => by
    show 0 ≤ 0 + unit l k + (0 - unit l k)
    omega
  swap
  · cases hd
    obtain ⟨y, hy, hy1⟩ := hroom.get_some
    have hx' : (view fs₁).seat l = some x := hx
    rw [hv, hy] at hx'
    cases hx'
    show (view fs₁).type x.no = typeDir
    rw [hv, hy1]
    exact hdir
  have hprocs : Function.update (Function.update (fun _ => none) 0 (some (noFiles 0))) 1 (some (noFiles l)) =
      fun p => if p = 0 then some (noFiles 0) else if p = 1 then some (noFiles l) else none := funext fun p => by
    by_cases h1 : p = 1
    · rw [h1, Function.update_self]
      rfl
    · rw [Function.update_of_ne h1, if_neg h1]
      by_cases h0 : p = 0
      · rw [h0, Function.update_self, if_pos rfl]
      · rw [Function.update_of_ne h0, if_neg h0]
  rw [← hprocs]
  refine h₃.congr (fun g => ?_) fun k => ?_
  · show (0 : Int) = 0 + (0 - (slots maxUfile (fun _ => none) g : Nat))
    rw [slots_none fun _ => rfl]
    rfl
  · show (0 : Int) = 0 + unit l k + (0 - unit l k)
    ring

/-! ## The bytes of directories -/

/-- `iopen` changes the disk by one new entry only, and that only if it was asked to create something. -/
theorem iopen_entered {t : Nat} {path : List UInt8} {r : Option Nat} {x : Seat} (h : Good fs) (hl : (view fs).Live)
    (hx : (view fs).seat cwd = some x) (ht : t < 2 ^ 32) (he : fs.iopen cwd path t = some (r, fs')) :
    fs'.disk = fs.disk ∨ (t ≠ typeNone ∧ ∃ d j n nm, Entered fs.disk d j n t nm fs'.disk) := by
  rcases iopen_view h hx he with ⟨-, -, -, hd⟩ | ⟨i, n, -, -, -, -, -, hd⟩ | ⟨ht0, hmade⟩
  · exact Or.inl hd
  · exact Or.inl hd
  · obtain ⟨i, d, j, n, nm, -, -, -, -, -, hentered⟩ := hmade hl ht
    exact Or.inr ⟨ht0, d, j, n, nm, hentered⟩

/-- A write changes no directory. -/
theorem Rest.write_alike {d : Desc} {fd : Int} {buf : List UInt8} (h : Rest u) (hp : u.procs p = some d)
    (he : u.sysWrite d fd buf = some u') : Alike u.fs.disk u'.fs.disk := by
  unfold Filesys.sysWrite at he
  split at he
  · cases he
    exact Alike.refl _
  · next f hf =>
    obtain ⟨hlt, hfile⟩ := procGetfile_some hf
    obtain ⟨⟨r, u₁⟩, hq, rfl⟩ := Option.map_eq_some_iff.1 he
    obtain ⟨-, -, hsame | ⟨x, off, r', -, hx, hdir, hw⟩⟩ := fwrite_fs h (h.opened hp hlt hfile) hq
    · show Alike u.fs.disk u₁.fs.disk
      rw [hsame]
      exact Alike.refl _
    · have hl := h.good.layer hx (h.live _ ⟨_, x, hx, rfl⟩)
      rcases iwrite_some hl.inv hl.mapped hl.active hw with ⟨-, -, hsame⟩ | ⟨-, -, hwr⟩
      · show Alike u.fs.disk u₁.fs.disk
        rw [hsame]
        exact Alike.refl _
      · exact alike_others hwr.others (by rw [← view_type (h.good.seat_lt hx).2]; exact hdir)

/-- An open changes no directory without `O_CREATE`, and else by one new entry at most. -/
theorem Rest.open_entered {d : Desc} {path : List UInt8} {mode : Nat} (h : Rest u) (hp : u.procs p = some d)
    (he : u.sysOpen p d path mode = some u') :
    ∃ m, (m = u.fs.disk ∨ (has mode oCreate ∧ ∃ d j n nm, Entered u.fs.disk d j n (openType mode) nm m)) ∧
      Alike m u'.fs.disk := by
  unfold Filesys.sysOpen at he
  split at he
  · cases he
    exact ⟨_, Or.inl rfl, Alike.refl _⟩
  obtain ⟨⟨r, u₁⟩, ho, he⟩ := Option.bind_eq_some_iff.1 he
  obtain ⟨x, hx⟩ := h.cwd_seat hp
  have hfs : u'.fs = u₁.fs := by
    cases r with
    | none => cases he; rfl
    | some f => cases he; rfl
  rw [hfs]
  obtain ⟨-, hsame | ⟨q, fs, hio, hfin⟩, -⟩ := h.fopen hx ho
  · rw [hsame]
    exact ⟨_, Or.inl rfl, Alike.refl _⟩
  · refine ⟨fs.disk, ?_, hfin.alike⟩
    have ht : openType mode < 2 ^ 32 := by
      unfold openType
      split
      · split <;> decide
      · decide
    refine (iopen_entered h.good h.live hx ht hio).imp id fun ⟨ht0, hm⟩ => ⟨?_, hm⟩
    by_contra hc
    unfold openType at ht0
    rw [if_neg hc] at ht0
    exact ht0 rfl

/-! ## Runs -/

/-- A call of a process, that the kernel survives. -/
def Step (u : Filesys) (c : Nat × Call) (u' : Filesys) : Prop := u.step c.1 c.2 = some u'

/-- A write, or an open with any flags. -/
def Call.Writes : Call → Prop
  | .write _ _ | .open _ _ => True
  | _ => False

/-- A call that asks `ilookup` to create what it does not find, with type `t`. -/
def Call.Creates (t : Nat) : Call → Prop
  | .open _ mode => has mode oCreate ∧ t = openType mode
  | _ => False

/-- What a call makes of the directories: nothing, or one entry more where it asks for that. -/
def Changes (m : Store) (c : Nat × Call) (m' : Store) : Prop :=
  ∃ m₁, (m₁ = m ∨ ∃ d j n t nm, c.2.Creates t ∧ Entered m d j n t nm m₁) ∧ Alike m₁ m'

theorem run_rest {cs : List (Nat × Call)} (h : Rest u) (hr : Run Step u cs u') : Rest u' :=
  hr.invariant (fun _ _ _ h hs => h.step hs) h

theorem Rest.writes {c : Nat × Call} (h : Rest u) (hw : c.2.Writes) (hs : Step u c u') :
    Changes u.fs.disk c u'.fs.disk := by
  obtain ⟨p, c⟩ := c
  unfold Step Filesys.step at hs
  simp only at hs hw ⊢
  split at hs
  · cases hs
  next d hp =>
  cases c with
  | write fd buf => exact ⟨_, Or.inl rfl, h.write_alike hp hs⟩
  | «open» path mode =>
    obtain ⟨m, hm, halike⟩ := h.open_entered hp hs
    refine ⟨m, hm.imp id ?_, halike⟩
    rintro ⟨hc, d, j, n, nm, hentered⟩
    exact ⟨d, j, n, _, nm, ⟨hc, rfl⟩, hentered⟩
  | _ => cases hw

theorem run_writes {cs : List (Nat × Call)} (h : Rest u) (hr : Run Step u cs u') (hw : ∀ c ∈ cs, c.2.Writes) :
    Run Changes u.fs.disk cs u'.fs.disk := by
  induction hr with
  | nil => exact .nil
  | snoc hr hs ih =>
    have hlast := (run_rest h hr).writes (hw _ (List.mem_append_right _ List.mem_cons_self)) hs
    exact .snoc (ih fun c hc => hw c (List.mem_append_left _ hc)) hlast

theorem run_alike {cs : List (Nat × Call)} {m m' : Store} (hr : Run Changes m cs m')
    (hno : ∀ c ∈ cs, ∀ t, ¬ c.2.Creates t) :
    Alike m m' := by
  induction hr with
  | nil => exact Alike.refl _
  | snoc hr hs ih =>
    obtain ⟨m₁, hm | ⟨d, j, n, t, nm, hc, -⟩, halike⟩ := hs
    · rw [hm] at halike
      exact (ih fun c hc => hno c (List.mem_append_left _ hc)).trans halike
    · exact absurd hc (hno _ (List.mem_append_right _ List.mem_cons_self) t)

/-- Between system calls each directory is in order. -/
theorem Rest.wfDir (h : Rest u) {d : Nat} (hd : d < 1920) (ht : (node u.fs.disk d).type = typeDir) :
    WfDir u.fs.disk d := by
  have hdir : (view u.fs).type d = typeDir := (view_type hd).trans ht
  obtain ⟨h0, p, h1⟩ := h.sound.dir d hdir
  have hent : ∀ j, entry u.fs.disk d j = (view u.fs).ent d j := fun j => (view_ent hdir).symm
  refine ⟨⟨h.good.size d hd ht, ?_⟩, (hent 0).trans h0, ⟨p, (hent 1).trans h1⟩, fun j n nm hj => ?_,
    fun j k n n' nm hj hk => ?_⟩
  · have := (entry_some.1 ((hent 1).trans h1)).1
    omega
  · have helem := h.sound.name d j n nm ((hent j).symm.trans hj)
    exact ⟨helem.ne, Nat.le_of_lt_succ helem.len, helem.slash⟩
  · exact h.sound.uniq d j k n n' nm ((hent j).symm.trans hj) ((hent k).symm.trans hk)

/-- In every run of system calls from an image that mkfs made of files with different names, every
directory is in order between calls; and each of any further writes and opens leaves the bytes of all
directories, but for one new entry where it is an open with `O_CREATE`. -/
theorem dirs_sound {cs ws : List (Nat × Call)} (hname : ∀ f ∈ files, FileName f.1) (huniq : (files.map Prod.fst).Nodup)
    (hm : mkfs boot₀ files = some m) (hb : boot m = some u₀) (hr : Run Step u₀ cs u) (hw : Run Step u ws u')
    (hws : ∀ c ∈ ws, c.2.Writes) :
    (∀ d < 1920, (node u.fs.disk d).type = typeDir → WfDir u.fs.disk d) ∧ Run Changes u.fs.disk ws u'.fs.disk ∧
      ((∀ c ∈ ws, ∀ t, ¬ c.2.Creates t) → ∀ d < 1920, (node u.fs.disk d).type = typeDir →
        (node u'.fs.disk d).type = typeDir ∧ content u'.fs.disk d = content u.fs.disk d) := by
  have hrest := run_rest (boot_rest hname huniq hm hb) hr
  have hch := run_writes hrest hw hws
  exact ⟨fun d hd ht => hrest.wfDir hd ht, hch, run_alike hch⟩

/-- A directory made in the root, and a file in it. -/
def demoCalls : List (Nat × Call) :=
  [(1, .open [slash, 100] (oCreate ||| oDir)), (1, .open [slash, 100, slash, 97] (oCreate ||| oRdwr))]

/-- A write to the file, which is then opened again and emptied. -/
def demoWrites : List (Nat × Call) := [(1, .write 1 [1, 2, 3]), (1, .open [slash, 100, slash, 97] (oWronly ||| oTrunc))]

theorem demo_isSome : (((mkfs (fun _ => 0) shell).bind boot).bind fun u =>
    (demoCalls ++ demoWrites).foldlM (fun u c => u.step c.1 c.2) u).isSome := by
  decide +kernel

theorem dirs_sound_demo : ∃ m u₀ u u', mkfs (fun _ => 0) shell = some m ∧ boot m = some u₀ ∧ Run Step u₀ demoCalls u ∧
    Run Step u demoWrites u' ∧ Run Changes u₀.fs.disk demoCalls u.fs.disk ∧
    (∀ d < 1920, (node u.fs.disk d).type = typeDir → WfDir u.fs.disk d) ∧
    ∀ d < 1920, (node u.fs.disk d).type = typeDir → content u'.fs.disk d = content u.fs.disk d := by
  obtain ⟨u', h⟩ := Option.isSome_iff_exists.1 demo_isSome
  obtain ⟨u₀, hu₀, hrun⟩ := Option.bind_eq_some_iff.1 h
  obtain ⟨m, hm, hb⟩ := Option.bind_eq_some_iff.1 hu₀
  rw [List.foldlM_append] at hrun
  obtain ⟨u, hu, hu'⟩ := Option.bind_eq_some_iff.1 hrun
  have hr : Run Step u₀ demoCalls u := .of_foldlM hu
  have hw : Run Step u demoWrites u' := .of_foldlM hu'
  obtain ⟨-, h₀, -⟩ := dirs_sound shell_name shell_nodup hm hb .nil hr (by simp [demoCalls, Call.Writes])
  obtain ⟨h1, -, h2⟩ := dirs_sound shell_name shell_nodup hm hb hr hw (by simp [demoWrites, Call.Writes])
  have hno : ∀ c ∈ demoWrites, ∀ t, ¬ c.2.Creates t := by
    simp [demoWrites, Call.Creates, has, oWronly, oTrunc, oCreate]
  exact ⟨m, u₀, u, u', hm, hb, hr, hw, h₀, h1, fun d hd ht => (h2 hno d hd ht).2⟩

end Filesys

end TinyOS
