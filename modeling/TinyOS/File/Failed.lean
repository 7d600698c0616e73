/-
An open that fails: it leaves everything as it was, except that it can leave behind the directory that
it has made before it finds that a directory must not be opened in that mode.
-/
import TinyOS.File.Unlinked

namespace TinyOS

open TinyOS.Lib TinyOS.Fs TinyOS.Mkfs

namespace Filesys

variable {u u' u₀ : Filesys} {f p mode : Nat} {d : Desc} {fs : Fs} {path : List UInt8} {cs : List (Nat × Call)}
  {files : List (List UInt8 × List UInt8)} {boot₀ m : Store}

/-! ## What the call returns -/

/-- `sys_open` with the descriptor that it returns, `none` for -1. -/
def sysOpenFd (u : Filesys) (p : Nat) (d : Desc) (path : List UInt8) (mode : Nat) : Option (Option Nat × Filesys) :=
  match procAllocfile d with
  | none => some (none, u)
  | some fd => do
    let (r, u) ← u.fopen d.cwd path mode
    match r with
    | none => some (none, u)
    | some f => some (some fd, u.setProc p { d with files := Function.update d.files fd (some f) })

theorem sysOpenFd_snd : (u.sysOpenFd p d path mode).map Prod.snd = u.sysOpen p d path mode := by
  unfold sysOpenFd sysOpen
  cases procAllocfile d with
  | none => rfl
  | some fd =>
    simp only [Option.bind_eq_bind]
    cases u.fopen d.cwd path mode with
    | none => rfl
    | some q =>
      obtain ⟨r, v⟩ := q
      cases r <;> rfl

/-- The disk, the types, entries and references of inodes, the references of open files, what is open, and
the descriptors are the same. -/
structure Unchanged (u u' : Filesys) : Prop where
  disk : u'.fs.disk = u.fs.disk
  names : view u'.fs = view u.fs
  inodes : ∀ i, (u'.fs.inodes i).ref = (u.fs.inodes i).ref
  files : ∀ f, (u'.files f).ref = (u.files f).ref
  opened : ∀ f, (u.files f).ref ≠ 0 → u'.files f = u.files f
  procs : u'.procs = u.procs

/-- The call finds a free descriptor and a free file, is to make a directory that is not there yet, and
is to write to it or to empty it. -/
structure LeavesDir (u : Filesys) (d : Desc) (path : List UInt8) (mode : Nat) : Prop where
  fd : procAllocfile d ≠ none
  file : ∃ f, f < totalFile ∧ (u.files f).ref = 0
  create : has mode oCreate = true ∧ has mode oDir = true
  write : has mode oWronly = true ∨ has mode oRdwr = true ∨ has mode oTrunc = true
  parent : ∃ e nm, (view u.fs).Parent (start path (u.fs.inodes d.cwd).no) (names path) e nm ∧ ∀ n,
    ¬ (view u.fs).Has e nm n

/-! ## The modes -/

theorem openType_file (h : openType mode = typeFile) : badMode typeFile mode = false := by
  unfold openType at h
  split at h
  · split at h
    · cases h
    · next hd =>
      unfold badMode
      simp only [Bool.not_eq_true] at hd
      rw [hd]
      rfl
  · cases h

theorem openType_dir : openType mode = typeDir ↔ has mode oCreate = true ∧ has mode oDir = true := by
  unfold openType
  split
  · next hc =>
    split
    · next hd => exact ⟨fun _ => ⟨hc, hd⟩, fun _ => rfl⟩
    · next hd => exact ⟨fun h => (by cases h), fun h => absurd h.2 hd⟩
  · next hc => exact ⟨fun h => (by cases h), fun h => absurd h.1 hc⟩

theorem badMode_dir : badMode typeDir mode = true ↔ has mode oWronly = true ∨ has mode oRdwr = true ∨
    has mode oTrunc = true := by
  unfold badMode
  simp [typeDir, or_assoc]

/-! ## A failed `fopen` -/

/-- What has the same disk and the same namespace, and a file less that was taken from the free ones. -/
theorem unchanged_of (hi : Rest u) (hg : Good u'.fs) (hd : u'.fs.disk = u.fs.disk) (hv : view u'.fs = view u.fs)
    (hf : (u.files f).ref = 0) {y : File} (hy : y.ref = 0) (hfiles : u'.files = Function.update u.files f y)
    (hp : u'.procs = u.procs) : Unchanged u u' := by
  refine ⟨hd, hv, fun i => ?_, fun g => ?_, fun g hgr => ?_, hp⟩
  · cases hs : (view u.fs).seat i with
    | some x =>
      have h1 := (view_seat.1 hs).2.2.1
      rw [← hv] at hs
      exact ((view_seat.1 hs).2.2.1).trans h1.symm
    | none =>
      have h1 := view_seat_none.1 hs
      rw [← hv] at hs
      have h2 := view_seat_none.1 hs
      have h3 := hi.good.inv.table.ref i
      have h4 := hg.inv.table.ref i
      omega
  · rw [hfiles]
    by_cases hgf : g = f
    · rw [hgf, Function.update_self, hy, hf]
    · rw [Function.update_of_ne hgf]
  · rw [hfiles]
    exact Function.update_of_ne (fun hc => hgr (by rw [hc]; exact hf)) ..

/-- Closing an entry of the table of files that has no inode yet. -/
theorem fclose_fresh {y : File} {v : Filesys} (hcl : u'.fclose f = some v) (h : u'.files f = y) (hr : y.ref = 1)
    (ht : y.type = typeNone) : v = u'.setFile f { y with ref := 0 } := by
  have hself : ∀ z, (u'.setFile f z).files f = z := fun z => Function.update_self ..
  unfold Filesys.fclose at hcl
  simp only [hself] at hcl
  rw [if_neg (by rw [h, ht]; rintro ⟨-, hc⟩; cases hc)] at hcl
  cases hcl
  rw [h, hr]
  rfl

/-- The entry of the table of files is given back. -/
theorem fclose_given {fs : Fs} {v : Filesys}
    (hcl : ({ u.setFile f { u.files f with ref := 1, type := typeNone } with fs := fs } : Filesys).fclose f = some v) :
    v.fs = fs ∧ v.procs = u.procs ∧ v.files =
      Function.update u.files f { u.files f with ref := 0, type := typeNone } := by
  have hfile : (u.setFile f { u.files f with ref := 1, type := typeNone }).files f =
      { u.files f with ref := 1, type := typeNone } := Function.update_self ..
  have hv := fclose_fresh hcl hfile rfl rfl
  rw [hv]
  refine ⟨rfl, rfl, ?_⟩
  show Function.update (Function.update _ _ _) _ _ = _
  rw [Function.update_idem]

/-- An `fopen` that gives `NULL` leaves everything as it was, or has made a directory that it must not open. -/
theorem Rest.fopen_none {x : Seat} (hi : Rest u) (hx : (view u.fs).seat d.cwd = some x)
    (ho : u.fopen d.cwd path mode = some (none, u')) :
    (Unchanged u u' ∧ ((∀ f < totalFile, (u.files f).ref ≠ 0) ∨ badMode typeDir mode = false ∨
        (openType mode ≠ typeNone → ∀ e nm, ¬ (view u.fs).Parent (start path x.no) (names path) e nm) ∨
        ∃ n, Leads (view u.fs) (start path x.no) path n)) ∨
      ((∃ f, f < totalFile ∧ (u.files f).ref = 0) ∧ openType mode = typeDir ∧ badMode typeDir mode = true ∧
        (∃ e nm, (view u.fs).Parent (start path x.no) (names path) e nm ∧ ∀ n, ¬ (view u.fs).Has e nm n) ∧
        view u'.fs ≠ view u.fs) := by
  cases fopened ho with
  | full ha =>
    refine Or.inl ⟨⟨rfl, rfl, fun _ => rfl, fun _ => rfl, fun _ _ => rfl, rfl⟩, Or.inl fun f hf hc => ?_⟩
    unfold falloc at ha
    rw [Option.map_eq_none_iff, List.find?_eq_none] at ha
    exact ha f (List.mem_range.2 hf) (by simpa using hc)
  | @missing f u₁ _ fs ha hopen hcl =>
    obtain ⟨hf, hfree, hq, -⟩ := falloc_some hi ha
    simp only at hf hq hfree
    subst hq
    obtain ⟨h1, h2, h3⟩ := fclose_given hcl
    have hopen : u.fs.iopen d.cwd path (openType mode) = some (none, fs) := hopen
    rcases iopen_resolve hi.good hx hopen with ⟨-, hv, hg, hd, -, hno⟩ | ⟨i, n, hc, -⟩ | ⟨-, hmade⟩
    · -- `iopen` has found nothing and made nothing
      exact Or.inl ⟨unchanged_of hi (h1 ▸ hg) (h1 ▸ hd) (h1 ▸ hv) hfree rfl h3 h2,
        Or.inr (Or.inr (Or.inl fun hc => hno hc hi.sound.distinct))⟩
    · cases hc
    · obtain ⟨i, e, j, n, nm, hc, -⟩ := hmade hi.live openType_lt
      cases hc
  | @refused f i u₁ v fs fs₁ ha hopen hfd hbad hcl hic =>
    obtain ⟨hf, hfree, hq, -⟩ := falloc_some hi ha
    simp only at hf hq hfree
    subst hq
    obtain ⟨h1, h2, h3⟩ := fclose_given hcl
    rw [h1] at hic
    have hopen : u.fs.iopen d.cwd path (openType mode) = some (some i, fs) := hopen
    rcases iopen_resolve hi.good hx hopen with ⟨hc, -⟩ | ⟨i', n, hc, hroom, hv, hg, hlead, hd⟩ | ⟨ht, hmade⟩
    · cases hc
    · cases hc
      -- the inode was there before, and the reference to it goes back
      obtain ⟨e2, e3, e4⟩ := iclose_back hi.good.ok hg hroom hv hic
      exact Or.inl ⟨unchanged_of hi e3 (e4.trans hd) e2 hfree rfl h3 h2, Or.inr (Or.inr (Or.inr ⟨n, hlead⟩))⟩
    · obtain ⟨i', e, j, n, nm, hc, hcr, hparent, -, hg, -⟩ := hmade hi.live openType_lt
      cases hc
      have hroom : ((view u.fs).create e j n (openType mode) nm).Room i n := room_create.2 hcr.room
      obtain ⟨y, hy, hyn⟩ := hroom.get_some
      rw [← hcr.eq] at hy
      have hmade : ((view u.fs).create e j n (openType mode) nm).type n = openType mode := by
        rw [Ns.create_type, Function.update_self]
      -- the inode was made in this call, so it stays
      have htype : fs.itype i = openType mode := by
        rw [itype, seat_type hg hy, hcr.eq, hyn]
        exact hmade
      rw [htype] at hbad
      have hdir : openType mode = typeDir := by
        rcases openType_cases with hc | hc | hc
        · exact absurd hc ht
        · rw [hc, openType_file hc] at hbad
          cases hbad
        · exact hc
      obtain ⟨e2, -, -⟩ := iclose_back (ok_create hi.good.ok) hg hroom hcr.eq hic
      refine Or.inr ⟨⟨f, hf, hfree⟩, hdir, hdir ▸ hbad, ⟨e, nm, hparent, fun n hn => ?_⟩, fun hsame => ?_⟩
      · obtain ⟨k, hk⟩ := hn
        exact hcr.unique k n hk
      have hn : (view fs₁).type n = openType mode := by
        rw [e2]
        exact hmade
      exact ht (hn.symm.trans ((congrFun (congrArg Ns.type hsame) n).trans hcr.new))

/-! ## A failed `sys_open` -/

/-- For every state that a run reaches, and every path and mode: an open that returns -1 leaves everything
as it was if and only if it does not make a directory that it must not open. -/
theorem failed_open (hname : ∀ f ∈ files, FileName f.1) (huniq : (files.map Prod.fst).Nodup)
    (hm : mkfs boot₀ files = some m) (hb : boot m = some u₀) (hr : Run Step u₀ cs u) (hp : u.procs p = some d)
    (ho : u.sysOpenFd p d path mode = some (none, u')) : Unchanged u u' ↔ ¬ LeavesDir u d path mode := by
  have hi := run_rest (boot_rest hname huniq hm hb) hr
  obtain ⟨x, hx⟩ := hi.cwd_seat hp
  unfold sysOpenFd at ho
  cases hfd : procAllocfile d with
  | none =>
    rw [hfd] at ho
    cases ho
    exact ⟨fun _ h => h.fd hfd, fun _ => ⟨rfl, rfl, fun _ => rfl, fun _ => rfl, fun _ _ => rfl, rfl⟩⟩
  | some fd =>
    rw [hfd] at ho
    obtain ⟨⟨r, v⟩, hopen, ho⟩ := Option.bind_eq_some_iff.1 ho
    cases r with
    | some f => cases ho
    | none =>
      cases ho
      rcases hi.fopen_none hx hopen with ⟨hsame, hwhy⟩ | ⟨hfree, hdir, hbad, hparent, hne⟩
      · refine ⟨fun _ h => ?_, fun _ => hsame⟩
        obtain ⟨e, nm, hpar, hlast⟩ := h.parent
        rw [seat_no hx] at hpar
        rcases hwhy with hfull | hmode | hno | ⟨n, hlead⟩
        · obtain ⟨f, hf, hfree⟩ := h.file
          exact hfull f hf hfree
        · rw [badMode_dir.2 h.write] at hmode
          cases hmode
        · exact hno (by rw [openType_dir.2 h.create]; decide) e nm hpar
        · rcases hlead with ⟨hnil, -, -⟩ | ⟨e', nm', hpar', hhas⟩
          · rw [hnil] at hpar
            exact hpar
          · obtain ⟨rfl, rfl⟩ := Ns.Parent.unique hi.sound.distinct hpar hpar'
            exact hlast n hhas
      · -- a directory was made, so the names differ
        refine ⟨fun h => absurd h.names hne, fun h => absurd ?_ h⟩
        exact ⟨by rw [hfd]; exact Option.some_ne_none fd, hfree, openType_dir.1 hdir, badMode_dir.1 hbad,
          by rw [seat_no hx]; exact hparent⟩

/-- What process 1 is told about a path, and what is there then. -/
def opened (u : Filesys) (path : List UInt8) (mode : Nat) : Option (Desc × Option Nat × Filesys) := do
  let d ← u.procs 1
  let (r, u') ← u.sysOpenFd 1 d path mode
  return (d, r, u')

theorem opened_some {q : Desc × Option Nat × Filesys} (h : opened u path mode = some q) :
    u.procs 1 = some q.1 ∧ u.sysOpenFd 1 q.1 path mode = some (q.2.1, q.2.2) := by
  unfold opened at h
  obtain ⟨d, hd, h₁⟩ := Option.bind_eq_some_iff.1 h
  obtain ⟨⟨r, u'⟩, ho, h₂⟩ := Option.bind_eq_some_iff.1 h₁
  cases h₂
  exact ⟨hd, ho⟩

theorem opened_missing : ((after []).bind fun u => (opened u [slash, 120] 0).map fun q => q.2.1) = some none := by
  decide +kernel

theorem failed_open_demo : ∃ u u' : Filesys, after [] = some u ∧ ∃ d, u.procs 1 = some d ∧
    u.sysOpenFd 1 d [slash, 120] 0 = some (none, u') ∧ Unchanged u u' := by
  obtain ⟨u, hu, h⟩ := Option.bind_eq_some_iff.1 opened_missing
  obtain ⟨⟨d, r, u'⟩, hq, hr⟩ := Option.map_eq_some_iff.1 h
  obtain ⟨hp, ho⟩ := opened_some hq
  simp only at hr hp ho
  subst hr
  obtain ⟨m, u₀, hm, hb, hrun⟩ := after_run hu
  exact ⟨u, u', hu, d, hp, ho, (failed_open shell_name shell_nodup hm hb hrun hp ho).2
    fun h => absurd h.create.1 (by decide)⟩

/-- The mode of an open that is to make a directory and to write to it. -/
def writeDir : Nat := oCreate ||| oDir ||| oWronly

theorem opened_dir : ((after []).bind fun u => (opened u [slash, 100] writeDir).map fun q =>
    (q.2.1, decide ((node q.2.2.fs.disk 6).type = (node u.fs.disk 6).type))) = some (none, false) := by
  decide +kernel

/-- The new directory stays when the open fails. -/
theorem failed_open_found : ¬ ∀ (boot₀ m : Store) (files : List (List UInt8 × List UInt8)) (u₀ u u' : Filesys)
    (cs : List (Nat × Call)) (p mode : Nat) (d : Desc) (path : List UInt8),
    (∀ f ∈ files, FileName f.1) → (files.map Prod.fst).Nodup → mkfs boot₀ files = some m → boot m = some u₀ →
    Run Step u₀ cs u → u.procs p = some d → u.sysOpenFd p d path mode = some (none, u') → Unchanged u u' := by
  intro hall
  obtain ⟨u, hu, h⟩ := Option.bind_eq_some_iff.1 opened_dir
  obtain ⟨⟨d, r, u'⟩, hq, hr⟩ := Option.map_eq_some_iff.1 h
  obtain ⟨hp, ho⟩ := opened_some hq
  obtain ⟨hr, htype⟩ := Prod.mk.inj hr
  simp only at hr hp ho
  subst hr
  obtain ⟨m, u₀, hm, hb, hrun⟩ := after_run hu
  have hsame := hall _ m shell u₀ u u' _ 1 _ d _ shell_name shell_nodup hm hb hrun hp ho
  exact of_decide_eq_false htype (by rw [hsame.disk])

end Filesys

end TinyOS
