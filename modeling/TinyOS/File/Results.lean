/-
System calls with what they return, for programs that go on with it; and what a process sees that opens, reads and
leaves directories by one name, with a single slot of the inode table free.
-/
import TinyOS.File.Failed
import TinyOS.File.Upward

namespace TinyOS.Ns

open TinyOS.Fs

variable {s : Ns} {i c n : Nat} {x : Seat}

/-- The slot of an inode that has one. -/
theorem Room.eq (hr : s.Room i n) (h : s.Ok) (hx : s.seat c = some x) (hn : x.no = n) : i = c := by
  rcases hr with ⟨y, hy, hyn⟩ | ⟨-, hheld⟩
  · exact h.uniq i c y x hy hx (hyn.trans hn.symm)
  · exact absurd ⟨c, x, hx, hn⟩ hheld

/-- A reference given back and taken again. -/
theorem get_put (h : s.Ok) (hx : s.seat i = some x) (hd : ¬ s.Del x.no) :
    (s.put i).get i x.no = s ∧ (s.put i).Room i x.no ∧ (s.put i).type = s.type ∧ (s.put i).ent = s.ent := by
  have hdel : x.del = false := by
    cases hc : x.del with
    | false => rfl
    | true => exact absurd ((del_iff h hx).2 hc) hd
  have hnames : (s.put i).type = s.type ∧ (s.put i).ent = s.ent := by
    by_cases h1 : x.ref = 1
    · rw [put_last hx h1, hdel]
      exact ⟨rfl, rfl⟩
    · rw [put_ref hx h1]
      exact ⟨rfl, rfl⟩
  have hget : ((s.put i).get i x.no).seat i = s.seat i := by
    rw [get_seat_self, put_seat_self hx, hx]
    split
    · next h1 => exact congrArg some (Seat.ext rfl h1.symm hdel.symm)
    · exact congrArg some (Seat.ext rfl (Int.sub_add_cancel x.ref 1) rfl)
  -- with the last reference gone the seat is free, and no other seat has the number
  have hroom : (s.put i).Room i x.no := by
    unfold Room
    rw [put_seat_self hx]
    split
    · refine Or.inr ⟨rfl, ?_⟩
      rintro ⟨j, y, hy, hyx⟩
      have hj : j ≠ i := by
        rintro rfl
        rw [put_seat_self hx, if_pos ‹_›] at hy
        cases hy
      rw [put_seat_ne hj] at hy
      exact hj (h.uniq j i y x hy hx hyx)
    · exact Or.inl ⟨_, rfl, rfl⟩
  refine ⟨Ns.ext hnames.1 hnames.2 (funext fun j => ?_), hroom, hnames⟩
  by_cases hj : j = i
  · rw [hj, hget]
  · rw [get_seat_ne hj, put_seat_ne hj]

end TinyOS.Ns

namespace TinyOS.Fs

open TinyOS.Lib

variable {fs fs' : Fs} {i j k n q a cwd : Nat} {x : Seat} {nm path : List UInt8}

/-! ## One name -/

/-- Opening what a directory has under one name takes one slot at most. -/
theorem iopen_one (h : Good fs) (hs : (view fs).Sound) (hx : (view fs).seat cwd = some x)
    (hskip : skipelem path = some (nm, [])) (hrel : path.headD 0 ≠ slash) (he : (view fs).ent x.no k = some (q, nm))
    (ha : a < inodeNum) (hfree : (view fs).seat a = none) : ∃ i fs', fs.iopen cwd path typeNone = some (some i, fs') ∧
      (view fs).Room i q ∧ view fs' = (view fs).get i q ∧ Good fs' ∧ fs'.disk = fs.disk := by
  have hdir := hs.plain _ _ _ he
  have hac : a ≠ cwd := by
    rintro rfl
    rw [hx] at hfree
    cases hfree
  have hroom : (view fs).Room cwd x.no := Or.inl ⟨x, hx, rfl⟩
  obtain ⟨hv, hg⟩ := idup_view h hx
  obtain ⟨y, hy, hyn⟩ := hroom.get_some
  rw [← hv] at hy
  have hdir' : (view (fs.idup cwd)).type y.no = typeDir := by
    rw [hv, hyn]
    exact hdir
  have hfree' : (view (fs.idup cwd)).seat a = none := by
    rw [hv, Ns.get_seat_ne hac]
    exact hfree
  obtain ⟨r, fs₁, hlook, -⟩ : ∃ r fs₁, (fs.idup cwd).ilookup cwd nm typeNone = some (r, fs₁) ∧
      fs₁.disk = (fs.idup cwd).disk :=
    ilookup_isSome hg hy hdir' ha (ref_zero hg hfree')
  -- the path has one name, so its parent is the working directory
  have hpar : fs.iopenParent cwd path = some (some (cwd, nm), fs.idup cwd) := by
    unfold iopenParent
    rw [if_neg hrel]
    show iopenParentLoop (path.length + 1) (fs.idup cwd) cwd path = _
    unfold iopenParentLoop
    simp only [hskip]
    rw [if_neg (not_not.2 ((seat_type hg hy).trans hdir'))]
    rfl
  have helem := (skipelem_some hskip).1
  obtain ⟨fs₂, hcl⟩ : ∃ fs₂, fs₁.iclose cwd = some fs₂ := by
    obtain ⟨-, ⟨i, j, n, rfl, -, hroom₁, hv₁, hg₁, -⟩ | ⟨rfl, -, rfl, -⟩ | ⟨hc, -⟩⟩ :=
      ilookup_view hg hy helem.len hlook
    · rw [hv] at hroom₁ hv₁
      obtain ⟨fs₂, h1, -⟩ := iclose_get_get h.ok hg₁ hroom hroom₁ hv₁
      exact ⟨fs₂, h1⟩
    · obtain ⟨fs₂, h1, -⟩ := iclose_get h.ok hg hroom hv
      exact ⟨fs₂, h1⟩
    · exact absurd rfl hc
  have hopen : fs.iopen cwd path typeNone = some (r.map Prod.fst, fs₂) := by
    unfold iopen
    simp only [hskip, hpar, hlook, hcl, Option.bind_eq_bind, Option.bind_some]
    rfl
  have hlead : Leads (view fs) (start path x.no) path q := by
    rw [start, if_neg hrel]
    refine .last x.no nm ?_ ⟨k, he⟩
    rw [names_rest hskip]
    exact ⟨hdir, rfl, rfl⟩
  -- the call succeeds, and it cannot have missed a name that is there
  rcases iopen_resolve h hx hopen with ⟨-, -, -, -, hmiss, -⟩ | ⟨i, n, hr, hroom', hv', hg', hlead', hd⟩ | ⟨hc, -⟩
  · exact absurd (hmiss hs.distinct) (hlead.not_missing hs.distinct)
  · obtain rfl := hlead.unique hs.distinct hlead'
    exact ⟨i, fs₂, hr ▸ hopen, hroom', hv', hg', hd⟩
  · exact absurd rfl hc

/-- The path of the names opens their directory, from any working directory. -/
theorem iopen_linked {c n : Nat} {nms : List (List UInt8)} (h : WellFormed fs) (hx : (view fs).seat c = some x)
    (hfree : (view fs).TwoFree) (hl : (view fs).Linked nms n) :
    ∃ i fs', fs.iopen c (Ns.fullPath nms) typeNone = some (some i, fs') ∧
    fs'.ino i = n := by
  obtain ⟨r, fs', hopen, ho⟩ := iopen_exact (Ns.fullPath nms) h hx (show typeNone < 2 ^ 32 by decide)
    ⟨hfree, fun hc => absurd rfl hc, fun hc => absurd rfl hc⟩
  obtain ⟨i, rfl, -, hmore, -⟩ := ho.found n (hl.leads h.sound x.no)
  exact ⟨i, fs', hopen, hmore.no⟩

end TinyOS.Fs

namespace TinyOS

open TinyOS.Lib TinyOS.Fs

namespace Filesys

def oRdonly : Nat := 0x000

/-- `struct stat`. -/
structure Stat where
  type : Nat
  size : Nat
  node : Nat

/-- A local `struct stat`; what it holds before a call is never read. -/
def Stat.zero : Stat := ⟨0, 0, 0⟩

/-! ## Results

The outer `none` is a call that the kernel stops in, the inner one the result -1. -/

def openFd (u : Filesys) (p : Nat) (path : List UInt8) (mode : Nat) : Option (Option Nat × Filesys) := do
  let d ← u.procs p
  u.sysOpenFd p d path mode

def readFd (u : Filesys) (p : Nat) (fd : Int) (size : Nat) : Option (Option (List UInt8) × Filesys) := do
  let d ← u.procs p
  match procGetfile d fd with
  | none => return (none, u)
  | some f => u.fread f size

def fstat (u : Filesys) (p : Nat) (fd : Int) (st : Stat) : Option (Option Stat) := do
  let d ← u.procs p
  match procGetfile d fd with
  | none => return none
  | some f =>
    let x := u.files f
    if x.type = typeFile then return some ⟨u.fs.itype x.inode, u.fs.isize x.inode, u.fs.ino x.inode⟩
    else if x.type = typeDev then return some ⟨typeDev, 0, 0⟩
    else return some st

variable {u u' : Filesys} {p f i j k n q a fd size : Nat} {d : Desc} {x : Seat} {y : File} {fs fs' : Fs}
  {nm path : List UInt8}

/-- Apart from the results these are the calls of the system. -/
theorem openFd_step {mode : Nat} : (u.openFd p path mode).map Prod.snd = u.step p (.open path mode) := by
  unfold openFd step
  cases u.procs p with
  | none => rfl
  | some d => exact sysOpenFd_snd

theorem readFd_step {fd : Int} : (u.readFd p fd size).map Prod.snd = u.step p (.read fd size) := by
  unfold readFd step sysRead
  cases u.procs p with
  | none => rfl
  | some d =>
    simp only [Option.bind_eq_bind, Option.bind_some]
    cases procGetfile d fd <;> rfl

/-! ## Directories -/

theorem procGetfile_eq (h : fd < maxUfile) : procGetfile d fd = d.files fd := by
  unfold procGetfile
  rw [if_neg (by omega), Int.toNat_natCast]

/-- Descriptor `fd` of the process is open file `f`, which reads from slot `i` at an offset, with nobody else. -/
structure Reader (u : Filesys) (d : Desc) (fd f i o : Nat) : Prop where
  lt : fd < maxUfile
  fd : d.files fd = some f
  ref : (u.files f).ref = 1
  type : (u.files f).type = typeFile
  readable : (u.files f).readable = true
  inode : (u.files f).inode = i
  offset : (u.files f).offset = o

/-- The process has opened a directory: a free descriptor, a free open file, and one more reference to a slot. -/
structure Opens (u : Filesys) (p : Nat) (d : Desc) (q fd f i : Nat) (u' : Filesys) (d' : Desc) : Prop where
  fdFree : d.files fd = none
  fileFree : (u.files f).ref = 0
  fileLt : f < totalFile
  proc : u'.procs p = some d'
  cwd : d'.cwd = d.cwd
  fds : ∀ j, j ≠ fd → d'.files j = d.files j
  others : ∀ g, g ≠ f → u'.files g = u.files g
  reader : Reader u' d' fd f i 0
  room : (view u.fs).Room i q
  view : view u'.fs = (view u.fs).get i q
  good : Good u'.fs
  disk : u'.fs.disk = u.fs.disk

/-- Opening a directory that has one name in the working directory. -/
theorem openFd_dir (h : Good u.fs) (hs : (Fs.view u.fs).Sound) (hp : u.procs p = some d)
    (hx : (Fs.view u.fs).seat d.cwd = some x) (hskip : skipelem path = some (nm, [])) (hrel : path.headD 0 ≠ slash)
    (he : (Fs.view u.fs).ent x.no k = some (q, nm)) (hq : (Fs.view u.fs).type q = typeDir) (ha : a < inodeNum)
    (hslot : (Fs.view u.fs).seat a = none) (hj : j < maxUfile) (hfd : d.files j = none) (hf : f < totalFile)
    (hfile : (u.files f).ref = 0) :
    ∃ fd f i u' d', u.openFd p path oRdonly = some (some fd, u') ∧ Opens u p d q fd f i u' d' := by
  obtain ⟨i, fs, hopen, hroom, hv, hg, hd⟩ := iopen_one h hs hx hskip hrel he ha hslot
  -- a descriptor and an open file are free, so the searches find one
  obtain ⟨fd, hal⟩ : ∃ fd, procAllocfile d = some fd := by
    refine Option.ne_none_iff_exists'.1 fun hc => ?_
    have := List.find?_eq_none.1 hc j (List.mem_range.2 hj)
    rw [hfd] at this
    exact this rfl
  have hfdNone : d.files fd = none := by simpa using List.find?_some hal
  have hfdLt : fd < maxUfile := List.mem_range.1 (List.mem_of_find?_eq_some hal)
  obtain ⟨g, hg'⟩ : ∃ g, ((List.range totalFile).find? fun f => decide ((u.files f).ref = 0)) = some g := by
    refine Option.ne_none_iff_exists'.1 fun hc => ?_
    have := List.find?_eq_none.1 hc f (List.mem_range.2 hf)
    rw [hfile] at this
    exact this rfl
  have hgRef : (u.files g).ref = 0 := by simpa using List.find?_some hg'
  have hgLt : g < totalFile := List.mem_range.1 (List.mem_of_find?_eq_some hg')
  have hfa : u.falloc = some (g, u.setFile g { u.files g with ref := 1, type := typeNone }) := by
    unfold falloc
    rw [hg']
    rfl
  obtain ⟨y, hy, hyn⟩ := hroom.get_some
  rw [← hv] at hy
  have htype : fs.itype i = typeDir := by
    rw [itype, seat_type hg hy, hyn, hv]
    exact hq
  obtain ⟨z, hfo, hz⟩ : ∃ z, u.fopen d.cwd path oRdonly = some (some g, ⟨fs, Function.update u.files g z, u.procs⟩) ∧
      z = { u.files g with
        ref := 1, readable := true, writable := false, type := typeFile, inode := i, offset := 0 } := by
    refine ⟨_, ?_, rfl⟩
    unfold fopen
    rw [hfa]
    show (u.fs.iopen d.cwd path typeNone).bind _ = _
    rw [hopen]
    show (if fs.itype i = typeFile ∨ fs.itype i = typeDir then _ else _) = _
    rw [htype]
    simp only [setFile, Function.update_self, Function.update_idem]
    rfl
  refine ⟨fd, g, i, Filesys.setProc ⟨fs, Function.update u.files g z, u.procs⟩ p
    { d with files := Function.update d.files fd (some g) }, { d with files := Function.update d.files fd (some g) },
    ?_, ?_⟩
  · unfold openFd sysOpenFd
    simp only [hp, hal, hfo, Option.bind_eq_bind, Option.bind_some]
  exact {
    fdFree := hfdNone
    fileFree := hgRef
    fileLt := hgLt
    proc := Function.update_self ..
    cwd := rfl
    fds := fun j hj => Function.update_of_ne hj ..
    others := fun k hk => Function.update_of_ne hk ..
    reader := by
      refine ⟨hfdLt, Function.update_self .., ?_, ?_, ?_, ?_, ?_⟩ <;>
        simp only [Filesys.setProc, hz, Function.update_self]
    room := hroom
    view := hv
    good := hg
    disk := hd }

theorem Reader.get (h : Reader u d fd f i o) : procGetfile d fd = some f := (procGetfile_eq h.lt).trans h.fd

/-- What happens to other open files and other slots does not matter. -/
theorem Reader.congr (h : Reader u d fd f i o) {d' : Desc} (hd : d'.files fd = d.files fd)
    (hf : u'.files f = u.files f) :
    Reader u' d' fd f i o :=
  ⟨h.lt, hd.trans h.fd, hf ▸ h.ref, hf ▸ h.type, hf ▸ h.readable, hf ▸ h.inode, hf ▸ h.offset⟩

theorem Reader.fstat (h : Reader u d fd f i o) (hp : u.procs p = some d) (st : Stat) :
    u.fstat p fd st = some (some ⟨u.fs.itype i, u.fs.isize i, u.fs.ino i⟩) := by
  unfold Filesys.fstat
  simp only [hp, h.get, Option.bind_eq_bind, Option.bind_some, h.type, if_true, h.inode]
  rfl

/-- The file after a read that ends at an offset. -/
def seekTo (u : Filesys) (f o : Nat) : Filesys := u.setFile f { u.files f with offset := o }

theorem Reader.seekTo {o' : Nat} (h : Reader u d fd f i o) : Reader (u.seekTo f o') d fd f i o' := by
  have hself : (u.seekTo f o').files f = { u.files f with offset := o' } := Function.update_self ..
  refine ⟨h.lt, h.fd, ?_, ?_, ?_, ?_, ?_⟩ <;> rw [hself]
  · exact h.ref
  · exact h.type
  · exact h.readable
  · exact h.inode

theorem Reader.seekTo_self (h : Reader u d fd f i o) : u.seekTo f o = u := by
  have hfile : { u.files f with offset := o } = u.files f := by rw [← h.offset]
  unfold Filesys.seekTo setFile
  rw [hfile, Function.update_eq_self]

/-- Reading the next entry of a directory. -/
theorem Reader.read_dirent (h : Reader u d fd f i (32 * j)) (hp : u.procs p = some d) (hl : Layer u.fs i q)
    (h32 : (node u.fs.disk q).size % 32 = 0) (hj : 32 * j < (node u.fs.disk q).size) (de : Dirent) :
    ∃ bs, u.readFd p fd direntSize = some (some bs, u.seekTo f (32 * (j + 1))) ∧ bs ≠ [] ∧
      Dirent.ofBytes (bs ++ de.bytes.drop bs.length) = direntAt u.fs.disk q j := by
  have hsize := hl.mapped.size_le (hl.inv.lt hl.active)
  obtain ⟨bs, hr, hde⟩ := iread_dirent hl h32 hj de
  have hlen : bs.length = 32 := by
    have hw : 32 * j + direntSize < 2 ^ 32 := by
      simp only [direntSize]
      omega
    have hb :=
      Option.some.inj
      (Prod.mk.inj (Option.some.inj (hr.symm.trans (iread_eq hl.inv hl.mapped hl.active (le_of_lt hj) hw)))).1
    rw [hb, bytesAt_length]
    simp only [direntSize]
    omega
  refine ⟨bs, ?_, fun hc => ?_, hde⟩
  · unfold readFd
    simp only [hp, h.get, Option.bind_eq_bind, Option.bind_some]
    unfold Filesys.fread
    simp only [h.readable, h.type, h.inode, h.offset, hr, hlen, Bool.not_true, Bool.false_eq_true, if_false, if_true,
      Option.bind_eq_bind, Option.bind_some]
    rw [uint32_of_lt (by omega), show 32 * j + 32 = 32 * (j + 1) by ring]
    unfold Filesys.seekTo
    rw [h.type.symm, h.inode.symm, h.readable.symm]
    rfl
  · rw [hc] at hlen
    cases hlen

/-- The process has closed a descriptor, and with it the file. -/
structure Closes (u : Filesys) (p : Nat) (d : Desc) (fd f : Nat) (fs : Fs) (u' : Filesys) (d' : Desc) : Prop where
  proc : u'.procs p = some d'
  cwd : d'.cwd = d.cwd
  fdFree : d'.files fd = none
  fds : ∀ j, j ≠ fd → d'.files j = d.files j
  fileFree : (u'.files f).ref = 0
  others : ∀ g, g ≠ f → u'.files g = u.files g
  fs : u'.fs = fs

/-- Closing a descriptor on a file that has no other. -/
theorem Reader.close (h : Reader u d fd f i o) (hp : u.procs p = some d) (hcl : u.fs.iclose i = some fs) :
    ∃ u' d', u.step p (.close fd) = some u' ∧ Closes u p d fd f fs u' d' := by
  have hclose : u.fclose f = some ⟨fs, Function.update u.files f { u.files f with ref := 0 }, u.procs⟩ := by
    unfold fclose
    simp only [setFile, Function.update_self, h.ref, h.type, h.inode, sub_self, and_self, if_true, hcl,
      Option.bind_eq_bind, Option.bind_some]
    rfl
  refine ⟨Filesys.setProc ⟨fs, Function.update u.files f { u.files f with ref := 0 }, u.procs⟩ p
    { d with files := Function.update d.files fd none }, { d with files := Function.update d.files fd none }, ?_, ?_⟩
  · unfold step sysClose
    simp only [hp, h.get, hclose, Option.bind_eq_bind, Option.bind_some, Int.toNat_natCast]
    rfl
  · refine ⟨Function.update_self .., rfl, Function.update_self .., fun j hj => Function.update_of_ne hj .., ?_,
      fun g hg => Function.update_of_ne hg .., rfl⟩
    simp only [setProc, Function.update_self]

theorem chdir_eq {fs₁ fs₂ : Fs} (hp : u.procs p = some d) (hopen : u.fs.iopen d.cwd path typeNone = some (some i, fs₁))
    (ht : fs₁.itype i = typeDir) (hcl : fs₁.iclose d.cwd = some fs₂) :
    u.step p (.chdir path) = some (Filesys.setProc ⟨fs₂, u.files, u.procs⟩ p { d with cwd := i }) := by
  unfold step sysChdir
  simp only [hp, hopen, Option.bind_eq_bind, Option.bind_some, ht, ne_eq, not_true_eq_false, if_false, hcl]
  rfl

end Filesys

end TinyOS
