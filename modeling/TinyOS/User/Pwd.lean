/-
The program pwd (user/src/phase6/pwd.c): it goes up by `..` to the root, finds in every directory the name of the one
it comes from by the number of the inode, and writes the names into its buffer from the end of it.
-/
import TinyOS.File.Results
import TinyOS.Lib.Cstr

namespace TinyOS.Pwd

open TinyOS.Lib TinyOS.Fs TinyOS.Filesys

abbrev bufSize : Nat := 512

/-- `'\n'`. -/
abbrev newline : UInt8 := 10

/-- The buffer in which `vcprintf` makes its text. -/
abbrev printSize : Nat := 512

/-! ## pwd.c

A failed assertion is `none`, and so is a string that does not end in its array. -/

def strlen (str : List UInt8) : Option Nat := str.findIdx? (· = 0)

/-- `while (read(pfd, &di, sizeof di) > 0)` up to `goto found` or `assert(0)`. -/
def findNode (pid : Nat) (pfd : Int) (node : Nat) : (fuel : Nat) → Filesys → Dirent → Option (Dirent × Filesys)
  | 0, _, _ => none
  | fuel + 1, u, di => do
    let (bs, u) ← u.readFd pid pfd direntSize
    let bs ← bs
    if bs = [] then none
    else
      let di := Dirent.ofBytes (bs ++ di.bytes.drop bs.length)
      if di.inode = node then return (di, u) else findNode pid pfd node fuel u di

/-- The loop of `pwd`, with `buf` at address 0. -/
def pwd (pid : Nat) : (fuel : Nat) → Filesys → Store → (p : Nat) → Option (Filesys × Store × Nat)
  | 0, _, _, _ => none
  | fuel + 1, u, m, p => do
    let (fd, u) ← u.openFd pid dot oRdonly
    let (pfd, u) ← u.openFd pid dotdot oRdonly
    let fd ← fd
    let pfd ← pfd
    let st ← ← u.fstat pid fd .zero
    let node := st.node
    let st ← ← u.fstat pid pfd st
    if node = st.node then return (u, m.write p [slash], p)
    else
      let (di, u) ← findNode pid pfd node fuel u .zero
      let len ← strlen di.name
      if p < len + 1 then none
      else
        let p := p - (len + 1)
        let m := (m.write (p + 1) (di.name.take len)).write p [slash]
        let u ← u.step pid (.close fd)
        let u ← u.step pid (.close pfd)
        let u ← u.step pid (.chdir dotdot)
        pwd pid fuel u m p

/-- What `main` writes to the standard output. -/
def main (pid fuel : Nat) (u : Filesys) : Option (List UInt8 × Filesys) := do
  let (u, m, p) ← pwd pid fuel u (fun _ => 0) 510
  let len ← strlen (m.read p (bufSize - p))
  if len + 2 ≤ printSize then return (m.read p len ++ [newline], u) else none

variable {u u₁ u' : Filesys} {s : Ns} {m : Store} {d d' : Desc} {pid n q i j k o f g fd pfd p fuel c : Nat} {x : Seat}
  {nm t bs : List UInt8} {nms nms' : List (List UInt8)}

/-! ## Text -/

theorem strlen_cstr {str : List UInt8} (h : (0 : UInt8) ∈ str) : strlen str = some (cstr str).length := by
  unfold strlen cstr
  rw [List.findIdx?_eq_some_of_exists ⟨0, h, by decide⟩, List.takeWhile_eq_take_findIdx_not,
    List.length_take_of_le List.findIdx_le_length]
  simp

/-- A string in a field that is shorter than the field. -/
theorem mem_of_cstr {str : List UInt8} (h : (cstr str).length < str.length) : (0 : UInt8) ∈ str := by
  by_contra hc
  rw [cstr_eq_self hc] at h
  exact Nat.lt_irrefl _ h

theorem take_cstr (str : List UInt8) : str.take (cstr str).length = cstr str :=
  (List.prefix_iff_eq_take.1 (List.takeWhile_prefix _)).symm

/-- The length of a string in memory that ends in its array. -/
theorem strlen_str (h : Str m p t) (hk : t.length < k) : strlen (m.read p k) = some t.length := by
  obtain ⟨l, rfl⟩ := Nat.exists_eq_add_of_lt hk
  have hz : m.read (p + t.length) (1 + l) = 0 :: m.read (p + t.length + 1) l := by
    rw [Store.read_append, ← h.nul]
    rfl
  have hread : m.read p (t.length + l + 1) = t ++ 0 :: m.read (p + t.length + 1) l := by
    rw [Nat.add_assoc, Nat.add_comm l, Store.read_append, h.read, hz]
  rw [hread, strlen_cstr (List.mem_append_right _ List.mem_cons_self), cstr_append_zero fun c hc h0 => h.mem (h0 ▸ hc)]

/-- Bytes in front of a string. -/
theorem str_write (h : Str m (p + bs.length) t) (h0 : (0 : UInt8) ∉ bs) : Str (m.write p bs) p (bs ++ t) where
  read := by
    rw [List.length_append, Store.read_append, Store.read_write_self, Store.read_write_of_disjoint (Or.inr (le_refl _)),
      h.read]
  nul := by
    rw [List.length_append, ← Nat.add_assoc, Store.write_out (Or.inr (by omega))]
    exact h.nul
  mem := by
    rw [List.mem_append]
    exact fun hc => hc.elim h0 h.mem

/-- What there is of the path: it fills the buffer up to byte 510, and byte 511 is not touched. -/
structure Text (m : Store) (p : Nat) (t : List UInt8) : Prop where
  str : Str m p t
  fits : p + t.length = 510
  last : m 511 = 0
  head : t = [] ∨ m p = slash

theorem text_nil : Text (fun _ => 0) 510 [] := ⟨.nil rfl, rfl, rfl, Or.inl rfl⟩

theorem head_write : m.write p [slash] p = slash := by
  have h : m.write p [slash] (p + 0) = slash := Store.write_add (Nat.lt_succ_self 0)
  rwa [Nat.add_zero] at h

/-- A name put in front. -/
theorem Text.cons (h : Text m p t) (h0 : (0 : UInt8) ∉ nm) (hp : nm.length + 1 ≤ p) :
    Text ((m.write (p - (nm.length + 1) + 1) nm).write (p - (nm.length + 1)) [slash]) (p - (nm.length + 1))
      (slash :: (nm ++ t)) := by
  obtain ⟨q, rfl⟩ := Nat.exists_eq_add_of_le' hp
  rw [Nat.add_sub_cancel]
  have hstr : Str m (q + 1 + nm.length) t := by
    rw [Nat.add_assoc, Nat.add_comm 1]
    exact h.str
  have hfits := h.fits
  refine ⟨str_write (str_write hstr h0) (by decide), ?_, ?_, Or.inr ?_⟩
  · simp only [List.length_cons, List.length_append]
    omega
  · rw [Store.write_out (Or.inr (by simp only [List.length_singleton]; omega)), Store.write_out (Or.inr (by omega))]
    exact h.last
  · exact head_write

/-- The path as it is printed. -/
def orRoot (t : List UInt8) : List UInt8 := if t = [] then [slash] else t

/-- The slash for the root. -/
theorem Text.root (h : Text m p t) : Str (m.write p [slash]) p (orRoot t) := by
  unfold orRoot
  have hfits := h.fits
  rcases h.head with rfl | hp
  · have hp : p = 510 := hfits
    rw [if_pos rfl, hp]
    exact str_write (.nil h.last) (by decide)
  · rw [if_neg fun hc => ?_]
    · refine h.str.congr fun i _ => ?_
      by_cases hi : i = 0
      · rw [hi, Nat.add_zero, head_write, hp]
      · exact Store.write_out (Or.inr (by simp only [List.length_singleton]; omega))
    · have h0 := h.str.nul
      rw [hc, List.length_nil, Nat.add_zero, hp] at h0
      cases h0

/-! ## The search -/

/-- The first entry for the inode is found. -/
theorem findNode_eq (hp : u.procs pid = some d) (hl : Layer u.fs i q) (h32 : (node u.fs.disk q).size % 32 = 0)
    (hk : 32 * k < (node u.fs.disk q).size) (hn : (direntAt u.fs.disk q k).inode = n)
    (hfirst : ∀ j < k, (direntAt u.fs.disk q j).inode ≠ n) : ∀ {fuel j : Nat} {u' : Filesys} {di : Dirent},
    k < fuel + j → j ≤ k → u' = u.seekTo f (32 * j) → Reader u' d fd f i (32 * j) →
    findNode pid fd n fuel u' di = some (direntAt u.fs.disk q k, u.seekTo f (32 * (k + 1)))
  | 0, j, _, _, hf, hj, _, _ => by omega
  | fuel + 1, j, u', di, hf, hj, hu, hr => by
    subst hu
    obtain ⟨bs, hread, hne, hde⟩ := hr.read_dirent hp hl h32 (by show 32 * j < (node u.fs.disk q).size; omega) di
    have hseek : (u.seekTo f (32 * j)).seekTo f (32 * (j + 1)) = u.seekTo f (32 * (j + 1)) := by
      unfold Filesys.seekTo setFile
      simp only [Function.update_self, Function.update_idem]
    have hde' : Dirent.ofBytes (bs ++ di.bytes.drop bs.length) = direntAt u.fs.disk q j := hde
    unfold findNode
    rw [hread, hseek]
    simp only [Option.bind_eq_bind, Option.bind_some, if_neg hne, hde']
    rcases Nat.lt_or_eq_of_le hj with hlt | rfl
    · rw [if_neg (hfirst j hlt)]
      exact findNode_eq hp hl h32 hk hn hfirst (by omega) hlt rfl (hseek ▸ hr.seekTo)
    · rw [if_pos hn]
      rfl

/-! ## A turn of the loop -/

/-- The process is in directory `n`, with two descriptors and two open files free; `s` are the names and the
slots without its reference to the directory. -/
structure Home (s : Ns) (disk : Store) (u : Filesys) (pid n : Nat) (d : Desc) : Prop where
  proc : u.procs pid = some d
  good : Good u.fs
  room : s.Room d.cwd n
  view : view u.fs = s.get d.cwd n
  disk : u.fs.disk = disk
  fds : ∃ i < maxUfile, ∃ j < maxUfile, i ≠ j ∧ d.files i = none ∧ d.files j = none
  files : ∃ f < totalFile, ∃ g < totalFile, f ≠ g ∧ (u.files f).ref = 0 ∧ (u.files g).ref = 0

/-- It has opened the directory and the one above it, `q`. -/
structure Both (s : Ns) (u : Filesys) (pid n q : Nat) (d : Desc) (fd pfd f g i o : Nat) (u' : Filesys) (d' : Desc) :
    Prop where
  proc : u'.procs pid = some d'
  cwd : d'.cwd = d.cwd
  here : Reader u' d' fd f d.cwd 0
  above : Reader u' d' pfd g i o
  fdNe : fd ≠ pfd
  fileNe : f ≠ g
  fds : ∀ j, j ≠ fd → j ≠ pfd → d'.files j = d.files j
  fdFree : d.files fd = none ∧ d.files pfd = none
  fileLt : f < totalFile ∧ g < totalFile
  room : ((s.get d.cwd n).get d.cwd n).Room i q
  view : view u'.fs = ((s.get d.cwd n).get d.cwd n).get i q
  good : Good u'.fs
  disk : u'.fs.disk = u.fs.disk

/-- Of two free ones one is left. -/
theorem exists_other {N : Nat} {P : Nat → Prop} (h : ∃ i < N, ∃ j < N, i ≠ j ∧ P i ∧ P j) (a : Nat) :
    ∃ b < N, b ≠ a ∧ P b := by
  obtain ⟨i, hi, j, hj, hij, h1, h2⟩ := h
  by_cases hia : i = a
  · exact ⟨j, hj, fun hja => hij (hia.trans hja.symm), h2⟩
  · exact ⟨i, hi, hia, h1⟩

section Turn

variable {disk : Store} (hs : s.Ok) (hsound : s.Sound) (hfree : s.TwoFree)

include hs hsound hfree

/-- Both directories can be opened. -/
theorem Home.opened (h : Home s disk u pid n d) (hn : s.type n = typeDir) (hup : s.ent n 1 = some (q, dotdot))
    (hq : s.type q = typeDir) :
    ∃ fd pfd f g i u₁ u₂ d₂, u.openFd pid dot oRdonly = some (some fd, u₁) ∧ u₁.openFd pid dotdot oRdonly =
      some (some pfd, u₂) ∧ Both s u pid n q d fd pfd f g i 0 u₂ d₂ := by
  obtain ⟨x, hx, hxn⟩ := h.room.get_some
  have hok := hs.get h.room
  have hroom : (s.get d.cwd n).Room d.cwd n := Or.inl ⟨x, hx, hxn⟩
  obtain ⟨a, ha, hfreeA⟩ := exists_free_get hfree d.cwd n
  obtain ⟨j, hj, -, hfd⟩ := exists_other h.fds maxUfile
  obtain ⟨g, hg, -, hfile⟩ := exists_other h.files totalFile
  have hx' : (Fs.view u.fs).seat d.cwd = some x := h.view.symm ▸ hx
  have hent : (Fs.view u.fs).ent x.no 0 = some (n, dot) := by
    rw [h.view, hxn]
    exact (hsound.dir n hn).1
  have hdir : (Fs.view u.fs).type n = typeDir := h.view.symm ▸ hn
  obtain ⟨fd, f, c, u₁, d₁, ho₁, h₁⟩ := openFd_dir h.good (h.view ▸ hsound.get) h.proc hx'
    (show skipelem dot = some (dot, []) from rfl) (by decide) hent hdir ha (h.view.symm ▸ hfreeA) hj hfd hg hfile
  -- the working directory has its slot already
  have hc : c = d.cwd := by
    have hr := h₁.room
    rw [h.view] at hr
    exact hr.eq hok hx hxn
  subst hc
  have hv₁ : Fs.view u₁.fs = (s.get d.cwd n).get d.cwd n := by rw [h₁.view, h.view]
  obtain ⟨y, hy, hyn⟩ := hroom.get_some
  have hy₁ : (Fs.view u₁.fs).seat d₁.cwd = some y := by
    rw [hv₁, h₁.cwd]
    exact hy
  have hac : a ≠ d.cwd := by
    rintro rfl
    rw [hx] at hfreeA
    cases hfreeA
  have hfreeA₁ : (Fs.view u₁.fs).seat a = none := by
    rw [hv₁, Ns.get_seat_ne hac]
    exact hfreeA
  obtain ⟨j₁, hj₁, hjne, hfd₁⟩ := exists_other h.fds fd
  obtain ⟨g₁, hg₁, hgne, hfile₁⟩ := exists_other h.files f
  have hent₁ : (Fs.view u₁.fs).ent y.no 1 = some (q, dotdot) := by
    rw [hv₁, hyn]
    exact hup
  obtain ⟨pfd, g, i, u₂, d₂, ho₂, h₂⟩ := openFd_dir h₁.good (hv₁ ▸ hsound.get.get) h₁.proc hy₁
    (show skipelem dotdot = some (dotdot, []) from rfl) (by decide) hent₁ (by rw [hv₁]; exact hq) ha hfreeA₁ hj₁
    ((h₁.fds j₁ hjne).trans hfd₁) hg₁ (by rw [h₁.others g₁ hgne]; exact hfile₁)
  have hfdNe : fd ≠ pfd := by
    rintro rfl
    have := h₂.fdFree
    rw [h₁.reader.fd] at this
    cases this
  have hfileNe : f ≠ g := by
    rintro rfl
    have := h₂.fileFree
    rw [h₁.reader.ref] at this
    cases this
  refine ⟨fd, pfd, f, g, i, u₁, u₂, d₂, ho₁, ho₂, ?_⟩
  exact {
    proc := h₂.proc
    cwd := h₂.cwd.trans h₁.cwd
    here := h₁.reader.congr (h₂.fds fd hfdNe) (h₂.others f hfileNe)
    above := h₂.reader
    fdNe := hfdNe
    fileNe := hfileNe
    fds := fun k hk hk' => (h₂.fds k hk').trans (h₁.fds k hk)
    fdFree := ⟨h₁.fdFree, (h₁.fds pfd hfdNe.symm).symm.trans h₂.fdFree⟩
    fileLt := ⟨h₁.fileLt, h₂.fileLt⟩
    room := hv₁ ▸ h₂.room
    view := by rw [h₂.view, hv₁]
    good := h₂.good
    disk := h₂.disk.trans h₁.disk }

omit hs hsound hfree in
theorem Both.nodes (h : Both s u pid n q d fd pfd f g i o u' d') (hroom : s.Room d.cwd n) :
    u'.fs.ino d.cwd = n ∧ u'.fs.ino i = q := by
  obtain ⟨x, hx, hxn⟩ := hroom.get_some
  have hroom₁ : (s.get d.cwd n).Room d.cwd n := Or.inl ⟨x, hx, hxn⟩
  obtain ⟨y, hy, hyn⟩ := hroom₁.get_some
  obtain ⟨z, hz⟩ := exists_seat_get h.room hy
  obtain ⟨w, hw, hwq⟩ := h.room.get_some
  rw [← h.view] at hw
  refine ⟨(seat_no (h.view.symm ▸ hz)).trans ?_, (seat_no hw).trans hwq⟩
  exact (Ns.no_get hy hz).trans hyn

omit hs hsound hfree in
theorem Both.layer (h : Both s u pid n q d fd pfd f g i o u' d') (hq : s.type q = typeDir) : Layer u'.fs i q := by
  obtain ⟨w, hw, rfl⟩ := h.room.get_some
  rw [← h.view] at hw
  refine h.good.layer hw ?_
  rw [h.view]
  exact hq.symm ▸ by decide

omit hs hsound hfree in
theorem Both.seek {o' : Nat} (h : Both s u pid n q d fd pfd f g i o u' d') :
    Both s u pid n q d fd pfd f g i o' (u'.seekTo g o') d' :=
  { h with
    here := h.here.congr rfl (Function.update_of_ne h.fileNe ..)
    above := h.above.seekTo }

/-- Leaving for the directory above, with both closed. -/
theorem Both.left (h : Both s u pid n q d fd pfd f g i o u' d') (hh : Home s disk u pid n d)
    (hup : s.ent n 1 = some (q, dotdot)) (hq : s.type q = typeDir) : ∃ u₁ u₂ u₃ d₃, u'.step pid (.close fd) = some u₁ ∧
      u₁.step pid (.close pfd) = some u₂ ∧ u₂.step pid (.chdir dotdot) = some u₃ ∧ Home s disk u₃ pid q d₃ := by
  obtain ⟨x, hx, hxn⟩ := hh.room.get_some
  have hok := hs.get hh.room
  have hroom : (s.get d.cwd n).Room d.cwd n := Or.inl ⟨x, hx, hxn⟩
  -- the first directory
  obtain ⟨fs₁, hcl₁, hv₁, hg₁, hd₁⟩ := iclose_get_get hok h.good hroom h.room h.view
  have hroom₁ := (Ns.put_get_get hok hroom h.room).2
  obtain ⟨u₁, d₁, hstep₁, h₁⟩ := h.here.close h.proc hcl₁
  have habove : Reader u₁ d₁ pfd g i o := h.above.congr (h₁.fds pfd h.fdNe.symm) (h₁.others g h.fileNe.symm)
  -- the second
  obtain ⟨fs₂, hcl₂, hv₂, hg₂, hd₂⟩ := iclose_get hok hg₁ hroom₁ hv₁
  obtain ⟨u₂, d₂, hstep₂, h₂⟩ := habove.close h₁.proc (h₁.fs.symm ▸ hcl₂)
  have hcwd : d₂.cwd = d.cwd := h₂.cwd.trans (h₁.cwd.trans h.cwd)
  have hfds : d₂.files = d.files := by
    funext k
    by_cases hk : k = pfd
    · rw [hk, h₂.fdFree, h.fdFree.2]
    rw [h₂.fds k hk]
    by_cases hk' : k = fd
    · rw [hk', h₁.fdFree, h.fdFree.1]
    · rw [h₁.fds k hk', h.fds k hk' hk]
  have hfile : (u₂.files f).ref = 0 := by
    rw [h₂.others f h.fileNe]
    exact h₁.fileFree
  -- up
  have hx₂ : (Fs.view fs₂).seat d.cwd = some x := hv₂.symm ▸ hx
  have hent : (Fs.view fs₂).ent x.no 1 = some (q, dotdot) := by
    rw [hv₂, hxn]
    exact hup
  obtain ⟨a, ha, hfreeA⟩ := exists_free_get hfree d.cwd n
  obtain ⟨i', fs₃, hopen, hroom₃, hv₃, hg₃, hd₃⟩ := iopen_one hg₂ (hv₂ ▸ hsound.get) hx₂
    (show skipelem dotdot = some (dotdot, []) from rfl) (by decide) hent ha (hv₂.symm ▸ hfreeA)
  rw [hv₂] at hroom₃ hv₃
  obtain ⟨w, hw, hwq⟩ := hroom₃.get_some
  have htype : fs₃.itype i' = typeDir := by
    rw [itype, seat_type hg₃ (hv₃.symm ▸ hw), hwq, hv₃]
    exact hq
  obtain ⟨fs₄, hcl₄, hv₄, hg₄, hd₄⟩ := iclose_get_get hs hg₃ hh.room hroom₃ hv₃
  rw [← hcwd, ← h₂.fs] at hopen
  refine ⟨u₁, u₂, _, { d₂ with cwd := i' }, hstep₁, hstep₂, chdir_eq h₂.proc hopen htype (hcwd.symm ▸ hcl₄), ?_⟩
  exact {
    proc := Function.update_self ..
    good := hg₄
    room := (Ns.put_get_get hs hh.room hroom₃).2
    view := hv₄
    disk := hd₄.trans (hd₃.trans (hd₂.trans (hd₁.trans (h.disk.trans hh.disk))))
    fds := hfds.symm ▸ hh.fds
    files := ⟨f, h.fileLt.1, g, h.fileLt.2, h.fileNe, hfile, h₂.fileFree⟩ }

/-- In the root the loop ends. -/
theorem Home.pwd_root (hup : s.Upward) (h : Home s disk u pid 1 d) (m : Store) (p fuel : Nat) :
    ∃ u', pwd pid (fuel + 1) u m p = some (u', m.write p [slash], p) ∧ u'.fs.disk = disk := by
  obtain ⟨fd, pfd, f, g, i, u₁, u₂, d₂, ho₁, ho₂, hb⟩ := h.opened hs hsound hfree hsound.root.1 hup.root hsound.root.1
  obtain ⟨hno₁, hno₂⟩ := hb.nodes h.room
  refine ⟨u₂, ?_, hb.disk.trans h.disk⟩
  unfold pwd
  simp only [ho₁, ho₂, Option.bind_eq_bind, Option.bind_some, hb.here.fstat hb.proc, hb.above.fstat hb.proc,
    hno₁, hno₂, if_true]
  rfl

/-- Elsewhere it goes up, with the name in front of the text. -/
theorem Home.pwd_up {nms : List (List UInt8)} (hup : s.Upward) (hl : s.Linked nms q) (he : s.ent q k = some (n, nm))
    (h1 : nm ≠ dot) (h2 : nm ≠ dotdot) (hn : s.type n = typeDir) (h : Home s disk u pid n d) (hp : nm.length + 1 ≤ p)
    (hf : k < fuel) :
    ∃ u' d', pwd pid (fuel + 1) u m p = pwd pid fuel u'
      ((m.write (p - (nm.length + 1) + 1) nm).write (p - (nm.length + 1)) [slash])
      (p - (nm.length + 1)) ∧ Home s disk u' pid q d' := by
  have hq := hl.dir hsound
  have hent := hup.up q k n nm he h1 h2 hn
  obtain ⟨fd, pfd, f, g, i, u₁, u₂, d₂, ho₁, ho₂, hb⟩ := h.opened hs hsound hfree hn hent hq
  obtain ⟨hno₁, hno₂⟩ := hb.nodes h.room
  have hlay := hb.layer hq
  have hent₂ : ∀ j e, (Fs.view u₂.fs).ent q j = some e ↔ s.ent q j = some e := fun j e => by
    rw [hb.view]
    rfl
  have hdir₂ : (Fs.view u₂.fs).type q = typeDir := by
    rw [hb.view]
    exact hq
  have hqlt := lt_of_type (hdir₂.symm ▸ by decide : (Fs.view u₂.fs).type q ≠ typeNone)
  obtain ⟨hsize, hn0, hno, hname⟩ := entry_some.1 ((view_ent hdir₂).symm.trans ((hent₂ k _).2 he))
  have h32 := hb.good.size q hqlt ((view_type hqlt).symm.trans hdir₂)
  -- no entry before it has the number
  have hfirst : ∀ j < k, (direntAt u₂.fs.disk q j).inode ≠ n := fun j hj hc => by
    have hej := (hent₂ j _).1 ((view_ent hdir₂).trans (entry_some.2 ⟨by omega, hn0, hc, rfl⟩))
    exact absurd (hl.only hsound hup he h1 h2 hn hej) (by omega)
  have hfind : findNode pid pfd n fuel u₂ .zero = some (direntAt u₂.fs.disk q k, u₂.seekTo g (32 * (k + 1))) :=
    findNode_eq hb.proc hlay h32 (by omega) hno hfirst (by omega) (Nat.zero_le k) hb.above.seekTo_self.symm hb.above
  have hlen : strlen (direntAt u₂.fs.disk q k).name = some nm.length := by
    rw [strlen_cstr (mem_of_cstr ?_), hname]
    rw [hname, direntAt_name]
    exact (hsound.name q k n nm he).len
  have htake : (direntAt u₂.fs.disk q k).name.take nm.length = nm := by
    rw [← hname]
    exact take_cstr _
  have hread : Both s u pid n q d fd pfd f g i (32 * (k + 1)) (u₂.seekTo g (32 * (k + 1))) d₂ := hb.seek
  obtain ⟨v₁, v₂, v₃, d₃, hv₁, hv₂, hv₃, hh⟩ := hread.left hs hsound hfree h hent hq
  refine ⟨v₃, d₃, ?_, hh⟩
  rw [pwd]
  simp only [ho₁, ho₂, Option.bind_eq_bind, Option.bind_some, hb.here.fstat hb.proc, hb.above.fstat hb.proc, hno₁, hno₂,
    if_neg (hl.ne hsound hup he h1 h2 hn).1, hfind, hlen, htake, if_neg (Nat.not_lt.2 hp), hv₁, hv₂, hv₃]

omit hs hsound hfree in
theorem Home.entry_lt (h : Home s disk u pid n d) {e : Nat × List UInt8} (he : s.ent q k = some e) : k < 132608 := by
  have hent : (Fs.view u.fs).ent q k = some e := by
    rw [h.view]
    exact he
  have hdir := type_of_ent hent
  have hqlt := lt_of_type (hdir.symm ▸ by decide : (Fs.view u.fs).type q ≠ typeNone)
  have hsize := (entry_some.1 ((view_ent hdir).symm.trans hent)).1
  have hmax := h.good.mapped.size_le hqlt
  omega

/-- The whole loop. -/
theorem Home.pwd (hup : s.Upward) (hl : s.Linked nms n) (h : Home s disk u pid n d) (ht : Text m p t)
    (hp : (Ns.pathOf nms).length ≤ p) (hf : nms.length + 132609 ≤ fuel) :
    ∃ u' m' p', Pwd.pwd pid fuel u m p = some (u', m', p') ∧ Str m' p' (orRoot (Ns.pathOf nms ++ t)) ∧
      p' + (orRoot (Ns.pathOf nms ++ t)).length < bufSize ∧ u'.fs.disk = disk := by
  induction hl generalizing u d m p t fuel with
  | root =>
    obtain ⟨fuel, rfl⟩ := Nat.exists_eq_add_of_le' (show 1 ≤ fuel by omega)
    obtain ⟨u', hpwd, hd⟩ := h.pwd_root hs hsound hfree hup m p fuel
    refine ⟨u', _, p, hpwd, ht.root, ?_, hd⟩
    have hfits := ht.fits
    show p + (orRoot t).length < 512
    unfold orRoot
    split
    · next h0 =>
      rw [h0, List.length_nil] at hfits
      rw [List.length_singleton]
      omega
    · omega
  | @down nms q k n nm hl he h1 h2 hn ih =>
    obtain ⟨fuel, rfl⟩ := Nat.exists_eq_add_of_le' (show 1 ≤ fuel by omega)
    rw [List.length_append, List.length_singleton] at hf
    have hpath : Ns.pathOf (nms ++ [nm]) = Ns.pathOf nms ++ slash :: nm := by
      rw [Ns.pathOf_append]
      exact congrArg (Ns.pathOf nms ++ slash :: ·) (List.append_nil nm)
    rw [hpath, List.length_append, List.length_cons] at hp
    have hk : k < 132608 := h.entry_lt he
    obtain ⟨u', d', hpwd, hh⟩ := h.pwd_up hs hsound hfree hup hl he h1 h2 hn (m := m) (show nm.length + 1 ≤ p by omega)
      (show k < fuel by omega)
    rw [hpwd, hpath, List.append_assoc, List.cons_append]
    exact ih hh (ht.cons (Ns.elem_nonzero (hsound.name q k n nm he)) (by omega)) (by omega) (by omega)

end Turn

/-! ## The program -/

/-- Two descriptors, two open files and two slots of the inode table are free. -/
structure Spare (u : Filesys) (d : Desc) : Prop where
  fds : ∃ i < maxUfile, ∃ j < maxUfile, i ≠ j ∧ d.files i = none ∧ d.files j = none
  files : ∃ f < totalFile, ∃ g < totalFile, f ≠ g ∧ (u.files f).ref = 0 ∧ (u.files g).ref = 0
  slots : (view u.fs).TwoFree

/-! ## System calls -/

/-- From `u` to `u'` there are only system calls of the process. -/
def Calls (pid : Nat) (u u' : Filesys) : Prop := ∃ cs, Run Step u cs u' ∧ ∀ c ∈ cs, c.1 = pid

theorem Calls.refl : Calls pid u u := ⟨[], .nil, fun _ hc => absurd hc List.not_mem_nil⟩

theorem Calls.step {c : Filesys.Call} (hs : u.step pid c = some u₁) (h : Calls pid u₁ u') : Calls pid u u' := by
  obtain ⟨cs, hr, hcs⟩ := h
  refine ⟨[(pid, c)] ++ cs, (Run.single hs).append hr, fun x hx => ?_⟩
  obtain hx | hx := List.mem_append.1 hx
  · rw [List.mem_singleton.1 hx]
  · exact hcs x hx

theorem openFd_some {mode : Nat} {r : Option Nat} (h : u.openFd pid t mode = some (r, u')) :
    u.step pid (.open t mode) = some u' := by
  rw [← openFd_step, h]
  rfl

theorem findNode_calls {di di' : Dirent} {pfd : Int} (h : findNode pid pfd n fuel u di = some (di', u')) :
    Calls pid u u' := by
  induction fuel generalizing u di with
  | zero => cases h
  | succ fuel ih =>
    unfold findNode at h
    obtain ⟨⟨r, u₁⟩, h1, h⟩ := Option.bind_eq_some_iff.1 h
    obtain ⟨bs, -, h⟩ := Option.bind_eq_some_iff.1 h
    have hstep : u.step pid (.read pfd direntSize) = some u₁ := by
      rw [← readFd_step, h1]
      rfl
    split at h
    · cases h
    · simp only at h
      split at h
      · cases h
        exact .step hstep .refl
      · exact .step hstep (ih h)

/-- What pwd does to the system it does by system calls. -/
theorem pwd_calls {m' : Store} {p' : Nat} (h : pwd pid fuel u m p = some (u', m', p')) : Calls pid u u' := by
  induction fuel generalizing u m p with
  | zero => cases h
  | succ fuel ih =>
    unfold pwd at h
    obtain ⟨⟨r₁, u₁⟩, h1, h⟩ := Option.bind_eq_some_iff.1 h
    obtain ⟨⟨r₂, u₂⟩, h2, h⟩ := Option.bind_eq_some_iff.1 h
    obtain ⟨fd, -, h⟩ := Option.bind_eq_some_iff.1 h
    obtain ⟨pfd, -, h⟩ := Option.bind_eq_some_iff.1 h
    obtain ⟨st₁, -, h⟩ := Option.bind_eq_some_iff.1 h
    obtain ⟨st, -, h⟩ := Option.bind_eq_some_iff.1 h
    obtain ⟨st₂, -, h⟩ := Option.bind_eq_some_iff.1 h
    obtain ⟨st', -, h⟩ := Option.bind_eq_some_iff.1 h
    refine .step (openFd_some h1) (.step (openFd_some h2) ?_)
    simp only at h
    split_ifs at h with h3
    · cases h
      exact .refl
    · obtain ⟨⟨di, u₃⟩, h4, h⟩ := Option.bind_eq_some_iff.1 h
      obtain ⟨len, -, h⟩ := Option.bind_eq_some_iff.1 h
      simp only at h
      split_ifs at h with h5
      obtain ⟨u₄, h6, h⟩ := Option.bind_eq_some_iff.1 h
      obtain ⟨u₅, h7, h⟩ := Option.bind_eq_some_iff.1 h
      obtain ⟨u₆, h8, h⟩ := Option.bind_eq_some_iff.1 h
      obtain ⟨cs, hr, hcs⟩ := findNode_calls h4
      obtain ⟨cs', hr', hcs'⟩ := Calls.step h6 (.step h7 (.step h8 (ih h)))
      exact ⟨cs ++ cs', hr.append hr', fun c hc => (List.mem_append.1 hc).elim (hcs c) (hcs' c)⟩

/-- A process in a directory, seen apart from its reference to the directory. -/
theorem home_of (h : WellFormed u.fs) (hp : u.procs pid = some d) (hx : (view u.fs).seat d.cwd = some x)
    (hl : (view u.fs).Linked nms x.no) (hspare : Spare u d) :
    ∃ s : Ns, s.Ok ∧ s.Sound ∧ s.TwoFree ∧ s.type = (view u.fs).type ∧ s.ent = (view u.fs).ent ∧
      Home s u.fs.disk u pid x.no d := by
  obtain ⟨hget, hroom, ht, he⟩ := Ns.get_put h.good.ok hx (hl.not_del h.sound)
  obtain ⟨a, ha, b, hb, hab, hfa, hfb⟩ := hspare.slots
  have hne : ∀ {k}, (view u.fs).seat k = none → k ≠ d.cwd := fun {k} hk => by
    rintro rfl
    rw [hx] at hk
    cases hk
  refine ⟨(view u.fs).put d.cwd, h.good.ok.put hx, h.sound.put h.good.ok hx, ⟨a, ha, b, hb, hab, ?_, ?_⟩, ht, he, ?_⟩
  · rw [Ns.put_seat_ne (hne hfa)]
    exact hfa
  · rw [Ns.put_seat_ne (hne hfb)]
    exact hfb
  · exact ⟨hp, h.good, hroom, hget.symm, rfl, hspare.fds, hspare.files⟩

/-- pwd ends in every directory that a path of at most 510 characters leads to from the root, and prints the
path; it only makes system calls, and the disk stays as it is. Wherever the directories are as they were, the
path opens the directory again. -/
theorem pwd_inverts (h : WellFormed u.fs) (hup : (view u.fs).Upward) (hp : u.procs pid = some d)
    (hx : (view u.fs).seat d.cwd = some x) (hl : (view u.fs).Linked nms x.no) (hlen : (Ns.fullPath nms).length ≤ 510)
    (hspare : Spare u d) :
    (∃ k, ∀ fuel ≥ k, ∃ u', main pid fuel u = some (Ns.fullPath nms ++ [newline], u') ∧ Calls pid u u' ∧
    u'.fs.disk = u.fs.disk) ∧
      ∀ fs c y, WellFormed fs → (view fs).type = (view u.fs).type → (view fs).ent = (view u.fs).ent →
      (view fs).TwoFree →
        (view fs).seat c = some y → ∃ i fs', fs.iopen c (Ns.fullPath nms) typeNone = some (some i, fs') ∧
        fs'.ino i = x.no := by
  refine ⟨⟨nms.length + 132609, fun fuel hf => ?_⟩, fun fs c y hfs ht he hfree hy =>
    iopen_linked hfs hy hfree (hl.congr ht he)⟩
  obtain ⟨s, hs, hsound, hfree, ht, he, hhome⟩ := home_of h hp hx hl hspare
  have hwhole : orRoot (Ns.pathOf nms ++ []) = Ns.fullPath nms := by
    unfold orRoot
    rw [List.append_nil]
    exact if_congr Ns.pathOf_eq_nil rfl rfl
  have hfits : (Ns.pathOf nms).length ≤ 510 := by
    unfold Ns.fullPath at hlen
    split at hlen
    · next h0 =>
      rw [h0]
      exact Nat.zero_le _
    · exact hlen
  obtain ⟨u', m, p, hpwd, hstr, hend, hd⟩ := hhome.pwd hs hsound hfree (hup.congr ht he)
    (hl.congr ht he) text_nil hfits hf
  rw [hwhole] at hstr hend
  refine ⟨u', ?_, pwd_calls hpwd, hd⟩
  unfold main
  simp only [hpwd, Option.bind_eq_bind, Option.bind_some,
    strlen_str hstr (show (Ns.fullPath nms).length < bufSize - p by omega)]
  rw [if_pos (show (Ns.fullPath nms).length + 2 ≤ 512 by omega), hstr.read]
  rfl

/-- The first process goes to the directory of the devices. -/
def inDev : List (Nat × Filesys.Call) := [(1, .chdir devDir)]

theorem inDev_found : ((after inDev).bind fun u => (u.procs 1).map fun d =>
    decide (entry u.fs.disk 1 3 = some (3, [100, 101, 118]) ∧
    (u.fs.inodes d.cwd).no = 3 ∧ (u.fs.inodes d.cwd).ref = 1 ∧ (node u.fs.disk 1).type = typeDir ∧
    (node u.fs.disk 3).type = typeDir ∧
    d.files 0 = none ∧ d.files 1 = none ∧ (u.files 0).ref = 0 ∧ (u.files 1).ref = 0 ∧ (u.fs.inodes 10).ref = 0 ∧
    (u.fs.inodes 11).ref = 0)) = some true := by
  decide +kernel

theorem pwd_inverts_demo : ∃ u u' fuel, after inDev = some u ∧ main 1 fuel u = some (devDir ++ [newline], u') := by
  obtain ⟨u, hu, h⟩ := Option.bind_eq_some_iff.1 inDev_found
  obtain ⟨d, hp, h⟩ := Option.map_eq_some_iff.1 h
  obtain ⟨hent, hno, href, ht1, ht2, hf0, hf1, hr0, hr1, hs10, hs11⟩ := of_decide_eq_true h
  obtain ⟨m, u₀, hm, hb, hr⟩ := after_run hu
  obtain ⟨hrest, hup⟩ := run_upward Mkfs.shell_name Mkfs.shell_nodup hm hb hr
  have hx : (view u.fs).seat d.cwd = some ⟨3, 1, (u.fs.inodes d.cwd).del⟩ := view_seat.2 ⟨by omega, hno, href, rfl⟩
  have hdev : (view u.fs).ent 1 3 = some (3, [100, 101, 118]) :=
    (view_ent ((view_type (by decide)).trans ht1)).trans hent
  have hl : (view u.fs).Linked ([] ++ [[100, 101, 118]]) 3 :=
    .down .root hdev (by decide) (by decide) ((view_type (by decide)).trans ht2)
  have hspare : Spare u d := ⟨⟨0, by decide, 1, by decide, by decide, hf0, hf1⟩,
    ⟨0, by decide, 1, by decide, by decide, hr0, hr1⟩,
    ⟨10, by decide, 11, by decide, by decide, view_seat_none.2 (by omega), view_seat_none.2 (by omega)⟩⟩
  obtain ⟨⟨k, hk⟩, -⟩ := pwd_inverts ⟨hrest.good, hrest.live, hrest.sound⟩ hup hp hx hl (by decide) hspare
  obtain ⟨u', hmain, -⟩ := hk k (le_refl k)
  exact ⟨u, u', k, hu, hmain⟩

end TinyOS.Pwd
