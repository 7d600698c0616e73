/-
Where the offset of an open file is: `fseek`, unlike `fread` and `fwrite`, moves it wherever it is told to.
-/
import TinyOS.Fs.Reads
import TinyOS.File.Stream

namespace TinyOS

open TinyOS.Lib TinyOS.Fs TinyOS.Mkfs

namespace Filesys

variable {u v v' : Filesys} {f n o p size off whence : Nat} {d : Desc} {fd : Int} {buf : List UInt8}

/-- Open file `f` is inode `n`, and its offset is not behind the end. -/
structure InFile (f n : Nat) (v : Filesys) : Prop where
  rest : Rest v
  isOpen : OpenAt v f n (v.files f).offset
  le : (v.files f).offset ≤ (node v.fs.disk n).size

/-- A seek that stays in a file of this size from this offset, by the numbers it is given; those from `2 ^ 31`
on are the negative ones. -/
def SeekIn (size o off : Nat) : (whence : Nat) → Prop
  | 0 => off ≤ size
  | 1 => o + off ≤ size ∨ 2 ^ 32 ≤ o + off
  | _ => off = 0 ∨ 2 ^ 32 ≤ size + off

/-- The call leaves the open file alone but for its count, and does not make the inode shorter. -/
structure Beside (f n : Nat) (v v' : Filesys) : Prop where
  ref : 0 < (v'.files f).ref
  file : v'.files f = { v.files f with ref := (v'.files f).ref }
  no : (v'.fs.inodes (v.files f).inode).no = n
  size : (node v.fs.disk n).size ≤ (node v'.fs.disk n).size

theorem Leaves.beside (h : Leaves f n v v') : Beside f n v v' := by
  refine ⟨h.ref, h.file, h.no, ?_⟩
  rw [← content_length, ← content_length, h.content]

/-! ## One call -/

theorem setFile_self {x : File} : (v.setFile f x).files f = x := Function.update_self ..

theorem InFile.layer (h : InFile f n v) : Layer v.fs (v.files f).inode n := h.rest.layer h.isOpen

theorem InFile.size_le (h : InFile f n v) : (node v.fs.disk n).size ≤ 1036 * 4096 :=
  h.layer.mapped.size_le (h.layer.inv.lt h.layer.active)

theorem InFile.beside {c : Call} (h : InFile f n v) (hs : v.step p c = some v') (hb : Beside f n v v') :
    InFile f n v' := by
  have hoff : (v'.files f).offset = (v.files f).offset := by rw [hb.file]
  refine ⟨h.rest.step hs, ⟨hb.ref, ?_, ?_, rfl⟩, ?_⟩
  · rw [hb.file]
    exact h.isOpen.type
  · rw [hb.file]
    exact hb.no
  · rw [hoff]
    exact le_trans h.le hb.size

/-- What `fseek` does to the open file. -/
theorem InFile.fseek_eq {r : Option Nat} (h : InFile f n v) (he : v.fseek f off whence = some (r, v')) :
    ∃ o, v' = v.setFile f { v.files f with offset := uint32 o } ∧
      ((whence = 0 ∧ o = off) ∨ (whence = 1 ∧ o = (v.files f).offset + off) ∨
      (whence = 2 ∧ o = (node v.fs.disk n).size + off)) := by
  have hsize : v.fs.isize (v.files f).inode = (node v.fs.disk n).size := by
    unfold Fs.isize
    rw [h.layer.inv.dinode h.layer.active]
  unfold Filesys.fseek at he
  simp only [hsize] at he
  rw [if_pos h.isOpen.type] at he
  split at he
  · cases he
    exact ⟨_, rfl, Or.inl ⟨rfl, rfl⟩⟩
  · cases he
    exact ⟨_, rfl, Or.inr (Or.inl ⟨rfl, rfl⟩)⟩
  · cases he
    exact ⟨_, rfl, Or.inr (Or.inr ⟨rfl, rfl⟩)⟩
  · cases he

/-- The offset after a seek is in the file exactly when the numbers say so. -/
theorem InFile.fseek_le {r : Option Nat} (h : InFile f n v) (hoff : off < 2 ^ 32)
    (he : v.fseek f off whence = some (r, v')) :
    (v'.files f).offset ≤ (node v'.fs.disk n).size ↔ SeekIn (node v.fs.disk n).size (v.files f).offset off whence := by
  obtain ⟨o, rfl, hcase⟩ := h.fseek_eq he
  have hle := h.le
  have hmax := h.size_le
  have hnew : ((v.setFile f { v.files f with offset := uint32 o }).files f).offset = o % 2 ^ 32 := by
    rw [setFile_self]
    rfl
  rw [hnew]
  show o % 2 ^ 32 ≤ (node v.fs.disk n).size ↔ _
  -- `fseek` adds modulo `2 ^ 32`, which is how a negative offset goes back
  rcases hcase with ⟨rfl, rfl⟩ | ⟨rfl, rfl⟩ | ⟨rfl, rfl⟩
  · show o % 2 ^ 32 ≤ _ ↔ o ≤ _
    rw [Nat.mod_eq_of_lt hoff]
  · show _ ↔ (v.files f).offset + off ≤ _ ∨ _
    omega
  · show _ ↔ off = 0 ∨ _
    omega

theorem InFile.seek {r : Option Nat} (h : InFile f n v) (hp : v.procs p = some d) (hfd : procGetfile d fd = some f)
    (hoff : off < 2 ^ 32) (hin : SeekIn (node v.fs.disk n).size (v.files f).offset off whence)
    (he : v.fseek f off whence = some (r, v')) : InFile f n v' := by
  have hs : v.step p (.lseek fd off whence) = some v' := by
    unfold Filesys.step Filesys.sysLseek
    simp only [hp, hfd, he, Option.map_some]
  refine ⟨h.rest.step hs, ?_, (h.fseek_le hoff he).2 hin⟩
  obtain ⟨o, rfl, -⟩ := h.fseek_eq he
  have hopen : OpenAt (v.setFile f { v.files f with offset := uint32 o }) f n (uint32 o) := h.isOpen.setOffset
  rw [hopen.offset]
  exact hopen

/-- A request that returns delivers bytes, which the offset passes. -/
theorem InFile.fread_some {r : Option (List UInt8)} (h : InFile f n v) (hr : (v.files f).readable = true)
    (hsize : size < 2 ^ 32) (he : v.fread f size = some (r, v')) :
    ∃ buf, r = some buf ∧ (v.files f).offset + buf.length ≤
    (node v.fs.disk n).size ∧
      v' = v.setFile f { v.files f with offset := (v.files f).offset + buf.length } := by
  have hle := h.le
  rcases Nat.lt_or_ge ((v.files f).offset + size) (2 ^ 32) with hlt | hge
  · rw [h.rest.fread_eq h.isOpen hr (by rw [content_length]; exact hle) hlt] at he
    cases he
    refine ⟨_, rfl, ?_, rfl⟩
    rw [List.length_take, List.length_drop, content_length]
    omega
  · -- the kernel does not come back from a request that wraps around
    have hstop : v.fs.iread (v.files f).inode (v.files f).offset size = none :=
      iread_wraps h.layer.inv h.layer.active h.size_le hle hsize hge
    unfold Filesys.fread at he
    simp [hr, h.isOpen.type, hstop] at he

theorem InFile.read {r : Option (List UInt8)} (h : InFile f n v) (hp : v.procs p = some d)
    (hfd : procGetfile d fd = some f) (hsize : size < 2 ^ 32) (he : v.fread f size = some (r, v')) : InFile f n v' := by
  have hs : v.step p (.read fd size) = some v' := by
    unfold Filesys.step Filesys.sysRead
    simp only [hp, hfd, he, Option.map_some]
  cases hr : (v.files f).readable with
  | false =>
    unfold Filesys.fread at he
    simp [hr] at he
    exact he.2 ▸ h
  | true =>
    obtain ⟨buf, -, hle, hv⟩ := h.fread_some hr hsize he
    have hopen : OpenAt v' f n ((v.files f).offset + buf.length) := by
      rw [hv]
      exact h.isOpen.setOffset
    refine ⟨h.rest.step hs, ?_, ?_⟩
    · rw [hopen.offset]
      exact hopen
    · rw [hopen.offset, hv]
      exact hle

theorem InFile.fwrite_ne {r : Option Nat} (h : InFile f n v) (hw : (v.files f).writable = true)
    (he : v.fwrite f buf = some (r, v')) : r ≠ none := by
  rintro rfl
  unfold Filesys.fwrite at he
  simp only [hw, h.isOpen.type, Bool.not_true, Bool.false_eq_true, if_false, if_true] at he
  obtain ⟨⟨r, fs⟩, hi, he⟩ := Option.bind_eq_some_iff.1 he
  rcases iwrite_some h.layer.inv h.layer.mapped h.layer.active hi with ⟨hlt, -⟩ | ⟨-, rfl, -⟩
  · exact Nat.not_lt.2 h.le hlt
  · cases he

theorem InFile.write {r : Option Nat} (h : InFile f n v) (hp : v.procs p = some d) (hfd : procGetfile d fd = some f)
    (he : v.fwrite f buf = some (r, v')) : InFile f n v' := by
  have hs : v.step p (.write fd buf) = some v' := by
    unfold Filesys.step Filesys.sysWrite
    simp only [hp, hfd, he, Option.map_some]
  cases hw : (v.files f).writable with
  | false =>
    unfold Filesys.fwrite at he
    simp [hw] at he
    exact he.2 ▸ h
  | true =>
    cases r with
    | none => exact absurd rfl (h.fwrite_ne hw he)
    | some k =>
      have hle := h.le
      obtain ⟨-, hopen, hc⟩ := h.rest.fwrite_some h.isOpen (by rw [content_length]; exact hle) he
      refine ⟨h.rest.step hs, ?_, ?_⟩
      · rw [hopen.offset]
        exact hopen
      · rw [hopen.offset, ← content_length, hc, List.length_append, List.length_append, List.length_take,
          content_length]
        omega

/-- Behind the end a read fails. -/
theorem OpenAt.fread_behind {o : Nat} (size : Nat) (h : OpenAt v f n o) (hl : Layer v.fs (v.files f).inode n)
    (hr : (v.files f).readable = true) (hlt : (node v.fs.disk n).size < o) : v.fread f size = some (none, v) := by
  have hread : v.fs.iread (v.files f).inode o size = some (none, v.fs) := by
    unfold Fs.iread
    rw [hl.inv.dinode hl.active]
    exact if_pos hlt
  unfold Filesys.fread
  simp only [hr, h.type, h.offset, hread]
  rfl

/-! ## Runs -/

/-- Some run of the system in which processes seek in open file `f`, read it and write it; their seeks stay
in the file. Descriptors are duplicated and processes fork meanwhile; all other calls leave the open file alone, and
none of them makes inode `n` shorter. -/
inductive Uses (f n : Nat) (u : Filesys) : Filesys → Prop
  | nil : Uses f n u u
  | seek {v v' : Filesys} {p off whence : Nat} {d : Desc} {fd : Int} {r : Option Nat} : Uses f n u v →
      v.procs p = some d →
      procGetfile d fd = some f → off < 2 ^ 32 → SeekIn (node v.fs.disk n).size (v.files f).offset off whence →
      v.fseek f off whence = some (r, v') → Uses f n u v'
  | read {v v' : Filesys} {p size : Nat} {d : Desc} {fd : Int} {r : Option (List UInt8)} : Uses f n u v →
      v.procs p = some d → procGetfile d fd = some f → size < 2 ^ 32 → v.fread f size = some (r, v') → Uses f n u v'
  | write {v v' : Filesys} {p : Nat} {d : Desc} {fd : Int} {buf : List UInt8} {r : Option Nat} : Uses f n u v →
      v.procs p = some d → procGetfile d fd = some f → v.fwrite f buf = some (r, v') → Uses f n u v'
  | dup {v v' : Filesys} {p : Nat} {fd : Int} : Uses f n u v → v.step p (.dup fd) = some v' → Uses f n u v'
  | fork {v v' : Filesys} {p c : Nat} : Uses f n u v → v.step p (.fork c) = some v' → Uses f n u v'
  | other {v v' : Filesys} {p : Nat} {c : Call} : Uses f n u v → v.step p c = some v' → Beside f n v v' → Uses f n u v'

theorem run_inFile (h : InFile f n u) (hr : Uses f n u v) : InFile f n v := by
  induction hr with
  | nil => exact h
  | seek _ hp hfd hoff hin he ih => exact ih.seek hp hfd hoff hin he
  | read _ hp hfd hsize he ih => exact ih.read hp hfd hsize he
  | write _ hp hfd he ih => exact ih.write hp hfd he
  | dup _ hs ih => exact ih.beside hs (leaves_dup ih.isOpen hs).beside
  | fork _ hs ih => exact ih.beside hs (leaves_fork ih.isOpen hs).beside
  | other _ hs hb ih => exact ih.beside hs hb

/-- As long as the seeks stay in the file the offset does, and neither reads nor writes fail for it; the next
seek moves it out of the file exactly when its numbers say so. -/
theorem offset_in_file {boot₀ m : Store} {files : List (List UInt8 × List UInt8)} {u₀ : Filesys}
    {cs : List (Nat × Call)} (hname : ∀ f ∈ files, FileName f.1) (huniq : (files.map Prod.fst).Nodup)
    (hm : mkfs boot₀ files = some m) (hb : boot m = some u₀) (hr : Run Step u₀ cs u) (h : OpenAt u f n o)
    (ho : o ≤ (node u.fs.disk n).size) (hv : Uses f n u v) :
    (v.files f).offset ≤ (node v.fs.disk n).size ∧
      (∀ size r v', (v.files f).readable = true → size < 2 ^ 32 → v.fread f size = some (r, v') → r ≠ none) ∧
      (∀ buf r v', (v.files f).writable = true → v.fwrite f buf = some (r, v') → r ≠ none) ∧
      ∀ off whence r v', off < 2 ^ 32 → v.fseek f off whence = some (r, v') →
        ((v'.files f).offset ≤ (node v'.fs.disk n).size ↔
        SeekIn (node v.fs.disk n).size (v.files f).offset off whence) := by
  have hstart : InFile f n u := ⟨run_rest (boot_rest hname huniq hm hb) hr, h.offset.symm ▸ h, h.offset.symm ▸ ho⟩
  have hin := run_inFile hstart hv
  refine ⟨hin.le, ?_, ?_, ?_⟩
  · rintro size r v' hreadable hsize he rfl
    obtain ⟨buf, hbuf, -⟩ := hin.fread_some hreadable hsize he
    cases hbuf
  · intro buf r v' hwritable he
    exact hin.fwrite_ne hwritable he
  · intro off whence r v' hoff he
    exact hin.fseek_le hoff he

/-- The file with three bytes is open as descriptor 0 of process 1. -/
theorem threeBytes_state : ∃ m u₀ u d, mkfs (fun _ => 0) shell = some m ∧ boot m = some u₀ ∧ Run Step u₀ threeBytes u ∧
    OpenAt u 0 6 1 ∧ (node u.fs.disk 6).size = 3 ∧ u.procs 1 = some d ∧ procGetfile d 0 = some 0 ∧
    (u.files 0).readable = true := by
  have hstate : (after threeBytes).map (fun u => decide ((u.procs 1).bind (procGetfile · 0) = some 0 ∧
    (u.files 0).readable = true)) =
      some true := by decide +kernel
  obtain ⟨u, hu, hopen⟩ := Option.map_eq_some_iff.1 threeBytes_open
  obtain ⟨h1, h2, h3, h4, h5⟩ := of_decide_eq_true hopen
  rw [hu, Option.map_some] at hstate
  obtain ⟨hfd, hread⟩ := of_decide_eq_true (Option.some.inj hstate)
  obtain ⟨d, hp, hfd⟩ := Option.bind_eq_some_iff.1 hfd
  obtain ⟨m, u₀, hm, hb, hr⟩ := after_run hu
  exact ⟨m, u₀, u, d, hm, hb, hr, ⟨h1, h2, h3, h4⟩, h5, hp, hfd, hread⟩

theorem offset_in_file_demo : ∃ m u₀ u v, mkfs (fun _ => 0) shell = some m ∧ boot m = some u₀ ∧
    Run Step u₀ threeBytes u ∧
    Uses 0 6 u v ∧ (v.files 0).offset = 3 ∧ (v.files 0).offset ≤ (node v.fs.disk 6).size := by
  obtain ⟨m, u₀, u, d, hm, hb, hr, hopen, hsize, hp, hfd, -⟩ := threeBytes_state
  -- two bytes on from the second one
  have he : u.fseek 0 2 1 = some (some 3, u.setFile 0 { u.files 0 with offset := 3 }) := by
    unfold Filesys.fseek
    simp only
    rw [if_pos hopen.type, hopen.offset]
    rfl
  have hin : SeekIn (node u.fs.disk 6).size (u.files 0).offset 2 1 := by
    rw [hsize, hopen.offset]
    exact Or.inl (le_refl 3)
  have huses : Uses 0 6 u (u.setFile 0 { u.files 0 with offset := 3 }) := .seek .nil hp hfd (by decide) hin he
  have hmain := offset_in_file shell_name shell_nodup hm hb hr hopen (by rw [hsize]; decide) huses
  exact ⟨m, u₀, u, _, hm, hb, hr, huses, by rw [hopen.setOffset.offset], hmain.1⟩

/-- `SEEK_SET` to 4 in a file of three bytes, and a read. -/
theorem seek_passes_end :
    ¬ ∀ (boot₀ m : Store) (files : List (List UInt8 × List UInt8)) (u₀ u v v' : Filesys) (cs : List (Nat × Call))
    (f n o p off whence size : Nat) (d : Desc) (fd : Int) (r : Option Nat) (buf : Option (List UInt8)),
    mkfs boot₀ files = some m → boot m = some u₀ → Run Step u₀ cs u → OpenAt u f n o → o ≤ (node u.fs.disk n).size →
    u.procs p = some d → procGetfile d fd = some f → off < 2 ^ 32 → u.fseek f off whence = some (r, v) →
    (v.files f).readable = true → v.fread f size = some (buf, v') →
    (v.files f).offset ≤ (node v.fs.disk n).size ∧ buf ≠ none := by
  intro hall
  obtain ⟨m, u₀, u, d, hm, hb, hr, hopen, hsize, hp, hfd, hread⟩ := threeBytes_state
  have he : u.fseek 0 4 0 = some (some 4, u.setFile 0 { u.files 0 with offset := 4 }) := by
    unfold Filesys.fseek
    simp only
    rw [if_pos hopen.type]
    rfl
  have hi : InFile 0 6 u :=
    ⟨run_rest (boot_rest shell_name shell_nodup hm hb) hr, hopen.offset.symm ▸ hopen, by
      rw [hopen.offset, hsize]
      decide⟩
  have hset : OpenAt (u.setFile 0 { u.files 0 with offset := 4 }) 0 6 4 := hopen.setOffset
  have hfile : (u.setFile 0 { u.files 0 with offset := 4 }).files 0 = { u.files 0 with offset := 4 } := setFile_self
  have hreadable : ((u.setFile 0 { u.files 0 with offset := 4 }).files 0).readable = true := by
    rw [hfile]
    exact hread
  have hlayer : Layer (u.setFile 0 { u.files 0 with offset := 4 }).fs
      ((u.setFile 0 { u.files 0 with offset := 4 }).files 0).inode 6 := by
    rw [hfile]
    exact hi.layer
  have hfail := hset.fread_behind 1 hlayer hreadable (show (node u.fs.disk 6).size < 4 by rw [hsize]; decide)
  obtain ⟨-, hne⟩ := hall (fun _ => 0) m shell u₀ u _ _ threeBytes 0 6 1 1 4 0 1 d 0 _ _ hm hb hr hopen
    (by rw [hsize]; decide) hp hfd
    (by decide) he hreadable hfail
  exact hne rfl

end Filesys

end TinyOS
