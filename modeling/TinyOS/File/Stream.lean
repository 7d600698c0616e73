/-
Processes that share an open file read the stream in turn, and write it in turn: what each call
delivers or takes starts where the call before it ended.
-/
import TinyOS.File.Unlinked

namespace TinyOS

open TinyOS.Lib TinyOS.Fs TinyOS.Mkfs

namespace Filesys

variable {u v v' : Filesys} {f n o p size c i : Nat} {d : Desc} {fd : Int} {buf : List UInt8}
  {chunks : List (List UInt8)}

/-! ## An open file -/

/-- Open file `f` is inode `n`, at offset `o`. -/
structure OpenAt (u : Filesys) (f n o : Nat) : Prop where
  ref : 0 < (u.files f).ref
  type : (u.files f).type = typeFile
  no : (u.fs.inodes (u.files f).inode).no = n
  offset : (u.files f).offset = o

/-- The step keeps the open file but for its count, and the bytes of the inode. -/
structure Leaves (f n : Nat) (v v' : Filesys) : Prop where
  ref : 0 < (v'.files f).ref
  file : v'.files f = { v.files f with ref := (v'.files f).ref }
  no : (v'.fs.inodes (v.files f).inode).no = n
  content : content v'.fs.disk n = content v.fs.disk n

theorem OpenAt.leaves (h : OpenAt v f n o) (hl : Leaves f n v v') : OpenAt v' f n o := by
  refine ⟨hl.ref, ?_, ?_, ?_⟩
  · rw [hl.file]
    exact h.type
  · rw [hl.file]
    exact hl.no
  · rw [hl.file]
    exact h.offset

theorem Rest.layer (hi : Rest u) (h : OpenAt u f n o) : Layer u.fs (u.files f).inode n := by
  obtain ⟨x, hx⟩ := hi.file_seat h.ref h.type
  have hno : x.no = n := (view_seat.1 hx).2.1.symm.trans h.no
  exact hno ▸ hi.good.layer hx (hi.live _ ⟨_, x, hx, rfl⟩)

/-! ## `dup` and `fork` -/

theorem fdup_files {g : Nat} (h : 0 < (u.files f).ref) :
    0 < ((u.fdup g).files f).ref ∧ (u.fdup g).files f = { u.files f with ref := ((u.fdup g).files f).ref } := by
  unfold Filesys.fdup Filesys.setFile
  simp only
  by_cases hf : f = g
  · subst hf
    simp only [Function.update_self, and_true]
    omega
  · simp only [Function.update_of_ne hf, and_true]
    exact h

theorem dups_files (tab : Nat → Option Nat) (l : List Nat) (h : 0 < (u.files f).ref) :
    0 < ((l.foldl (fun u j => (tab j).elim u u.fdup) u).files f).ref ∧
      (l.foldl (fun u j => (tab j).elim u u.fdup) u).files f =
        { u.files f with ref := ((l.foldl (fun u j => (tab j).elim u u.fdup) u).files f).ref } ∧
      (l.foldl (fun u j => (tab j).elim u u.fdup) u).fs = u.fs := by
  induction l generalizing u with
  | nil => exact ⟨h, rfl, rfl⟩
  | cons j l ih =>
    rw [List.foldl_cons]
    cases tab j with
    | none => exact ih h
    | some g =>
      obtain ⟨h1, h2⟩ := fdup_files (g := g) h
      obtain ⟨h3, h4, h5⟩ := ih (u := u.fdup g) h1
      refine ⟨h3, h4.trans ?_, h5⟩
      simp only
      rw [h2]
      rfl

theorem dup_leaves (h : OpenAt v f n o) : Leaves f n v (v.sysDup p d fd) := by
  unfold Filesys.sysDup
  split
  · exact ⟨h.ref, rfl, h.no, rfl⟩
  · split
    · exact ⟨h.ref, rfl, h.no, rfl⟩
    · next g _ =>
      obtain ⟨h1, h2⟩ := fdup_files (g := g) h.ref
      exact ⟨h1, h2, h.no, rfl⟩

theorem fork_leaves (h : OpenAt v f n o) : Leaves f n v (v.fork c d) := by
  obtain ⟨h1, h2, h3⟩ := dups_files d.files (List.range maxUfile) h.ref
  refine ⟨h1, h2, ?_, ?_⟩
  · show ((Fs.idup _ d.cwd).inodes _).no = n
    rw [h3]
    unfold Fs.idup Fs.setInode
    simp only
    by_cases hc : (v.files f).inode = d.cwd
    · rw [hc, Function.update_self]
      exact hc ▸ h.no
    · rw [Function.update_of_ne hc]
      exact h.no
  · show content (Fs.idup _ d.cwd).disk n = _
    rw [h3]
    rfl

/-! ## One request -/

theorem Rest.fread_eq (hi : Rest u) (h : OpenAt u f n o) (hr : (u.files f).readable = true)
    (ho : o ≤ (content u.fs.disk n).length) (hw : o + size < 2 ^ 32) :
    u.fread f size = some (some (((content u.fs.disk n).drop o).take size),
      u.setFile f { u.files f with offset := o + (((content u.fs.disk n).drop o).take size).length }) := by
  have hl := hi.layer h
  have hsize := hl.mapped.size_le (hl.inv.lt hl.active)
  rw [content_length] at ho
  have hread := (inode_layer hl).2.2 o size ho hw
  have hlen : (((content u.fs.disk n).drop o).take size).length ≤ (node u.fs.disk n).size - o := by
    rw [List.length_take, List.length_drop, content_length]
    omega
  unfold Filesys.fread
  simp only [hr, h.type, h.offset, hread]
  rw [if_neg (by decide), if_pos trivial]
  show some _ = some _
  rw [uint32_of_lt (by omega)]

theorem OpenAt.setOffset {o' : Nat} (h : OpenAt u f n o) :
    OpenAt (u.setFile f { u.files f with offset := o' }) f n o' := by
  have hself : (u.setFile f { u.files f with offset := o' }).files f = { u.files f with offset := o' } :=
    Function.update_self ..
  refine ⟨?_, ?_, ?_, ?_⟩
  · rw [hself]
    exact h.ref
  · rw [hself]
    exact h.type
  · rw [hself]
    exact h.no
  · rw [hself]

/-- What a write through the open file does when it returns. -/
theorem Rest.fwrite_some {k : Nat} (hi : Rest u) (h : OpenAt u f n o) (ho : o ≤ (content u.fs.disk n).length)
    (he : u.fwrite f buf = some (some k, v)) :
    k = buf.length ∧ OpenAt v f n (o + buf.length) ∧
      content v.fs.disk n = (content u.fs.disk n).take o ++ buf ++ (content u.fs.disk n).drop (o + buf.length) := by
  have hl := hi.layer h
  have hn := hl.inv.lt hl.active
  rw [content_length] at ho
  unfold Filesys.fwrite at he
  simp only [h.type, h.offset] at he
  split at he
  · cases he
  rw [if_pos trivial] at he
  obtain ⟨⟨r, fs⟩, hw, he⟩ := Option.bind_eq_some_iff.1 he
  rcases iwrite_some hl.inv hl.mapped hl.active hw with ⟨-, rfl, -⟩ | ⟨-, rfl, hwr⟩
  · cases he
  · cases he
    have hsize := (hwr.layer hl ho).mapped.size_le hn
    -- the offset stays below `2 ^ 32`, since the file has grown to it
    have hmax : (node fs.disk n).size = max (node u.fs.disk n).size (o + buf.length) := by rw [hwr.self]
    have hno : (fs.inodes (u.files f).inode).no = n := by
      rw [hwr.inodes, Function.update_self]
      exact h.no
    refine ⟨rfl, ?_, hwr.content hn ho⟩
    rw [uint32_of_lt (by omega)]
    have hopen : OpenAt { u with fs := fs } f n o := ⟨h.ref, h.type, hno, h.offset⟩
    have hset : OpenAt (Filesys.setFile { u with fs := fs } f { u.files f with offset := o + buf.length }) f n
        (o + buf.length) :=
      hopen.setOffset
    simpa only [h.type, h.offset] using hset

/-- A write for which the disk has blocks and the file has room succeeds. -/
theorem Rest.fwrite_isSome (hi : Rest u) (h : OpenAt u f n o) (ho : o ≤ (content u.fs.disk n).length)
    (hw : (u.files f).writable = true) (hmax : o + buf.length ≤ (12 + 1024) * 4096)
    (hneed : need u.fs.disk n (touched o buf.length) ≤ freeBlks u.fs.disk) :
    ∃ v, u.fwrite f buf = some (some buf.length, v) := by
  rw [content_length] at ho
  obtain ⟨fs, hfs, -⟩ := ((inode_layer (hi.layer h)).1 o buf hmax hneed).1 ho
  unfold Filesys.fwrite
  simp only [h.type, h.offset, hw, hfs, Bool.not_true, Bool.false_eq_true, if_false, if_true, Option.bind_eq_bind,
    Option.bind_some]
  exact ⟨_, rfl⟩

/-! ## Streams -/

/-- Some run of the system in which processes read through open file `f`: `chunks` is what the requests
delivered, in the order of the calls. Descriptors are duplicated and processes fork meanwhile; all other calls leave
the open file and the bytes of inode `n` alone. -/
inductive Reads (f n : Nat) (u : Filesys) : List (List UInt8) → Filesys → Prop
  | nil : Reads f n u [] u
  | read {chunks : List (List UInt8)} {v v' : Filesys} {p size : Nat} {d : Desc} {fd : Int} {buf : List UInt8} :
      Reads f n u chunks v → v.procs p = some d → procGetfile d fd = some f →
      (v.files f).offset + size < 2 ^ 32 → v.fread f size = some (some buf, v') → Reads f n u (chunks ++ [buf]) v'
  | dup {chunks : List (List UInt8)} {v v' : Filesys} {p : Nat} {fd : Int} :
      Reads f n u chunks v → v.step p (.dup fd) = some v' → Reads f n u chunks v'
  | fork {chunks : List (List UInt8)} {v v' : Filesys} {p c : Nat} : Reads f n u chunks v →
      v.step p (.fork c) = some v' → Reads f n u chunks v'
  | other {chunks : List (List UInt8)} {v v' : Filesys} {p : Nat} {c : Call} :
      Reads f n u chunks v → v.step p c = some v' → Leaves f n v v' → Reads f n u chunks v'

/-- The same for writes. -/
inductive Writes (f n : Nat) (u : Filesys) : List (List UInt8) → Filesys → Prop
  | nil : Writes f n u [] u
  | write {chunks : List (List UInt8)} {v v' : Filesys} {p k : Nat} {d : Desc} {fd : Int} {buf : List UInt8} :
      Writes f n u chunks v → v.procs p = some d → procGetfile d fd = some f →
      v.fwrite f buf = some (some k, v') → Writes f n u (chunks ++ [buf]) v'
  | dup {chunks : List (List UInt8)} {v v' : Filesys} {p : Nat} {fd : Int} :
      Writes f n u chunks v → v.step p (.dup fd) = some v' → Writes f n u chunks v'
  | fork {chunks : List (List UInt8)} {v v' : Filesys} {p c : Nat} : Writes f n u chunks v →
      v.step p (.fork c) = some v' → Writes f n u chunks v'
  | other {chunks : List (List UInt8)} {v v' : Filesys} {p : Nat} {c : Call} :
      Writes f n u chunks v → v.step p c = some v' → Leaves f n v v' → Writes f n u chunks v'

theorem leaves_dup (h : OpenAt v f n o) (hs : v.step p (.dup fd) = some v') : Leaves f n v v' := by
  unfold Filesys.step at hs
  split at hs
  · cases hs
  · cases hs
    exact dup_leaves h

theorem leaves_fork (h : OpenAt v f n o) (hs : v.step p (.fork c) = some v') : Leaves f n v v' := by
  unfold Filesys.step at hs
  split at hs
  · cases hs
  · simp only at hs
    split at hs
    · cases hs
      exact fork_leaves h
    · cases hs

/-- What `chunks` have been read so far of the bytes `file`, from offset `o` on. -/
structure ReadTo (file : List UInt8) (f n o : Nat) (chunks : List (List UInt8)) (v : Filesys) : Prop where
  rest : Rest v
  isOpen : OpenAt v f n (o + chunks.flatten.length)
  content : content v.fs.disk n = file
  le : o + chunks.flatten.length ≤ file.length
  flatten : chunks.flatten = (file.drop o).take chunks.flatten.length

theorem ReadTo.leaves {file : List UInt8} {c : Call} (h : ReadTo file f n o chunks v) (hs : v.step p c = some v')
    (hl : Leaves f n v v') : ReadTo file f n o chunks v' :=
  ⟨h.rest.step hs, h.isOpen.leaves hl, hl.content.trans h.content, h.le, h.flatten⟩

theorem ReadTo.read {file : List UInt8} (h : ReadTo file f n o chunks v) (hp : v.procs p = some d)
    (hfd : procGetfile d fd = some f) (hw : (v.files f).offset + size < 2 ^ 32)
    (he : v.fread f size = some (some buf, v')) : ReadTo file f n o (chunks ++ [buf]) v' := by
  have hread : (v.files f).readable = true := by
    by_contra hr
    unfold Filesys.fread at he
    simp only at he
    rw [if_pos (by simpa using hr)] at he
    cases he
  have hs : v.step p (.read fd size) = some v' := by
    unfold Filesys.step Filesys.sysRead
    simp only [hp, hfd, he, Option.map_some]
  rw [h.isOpen.offset] at hw
  rw [h.rest.fread_eq h.isOpen hread (h.content ▸ h.le) hw] at he
  have hbuf : buf = ((file.drop (o + chunks.flatten.length)).take size) := by
    rw [← h.content]
    exact (Option.some.inj (congrArg Prod.fst (Option.some.inj he))).symm
  have hv : v' = _ := (congrArg Prod.snd (Option.some.inj he)).symm
  have hlen : (chunks ++ [buf]).flatten.length = chunks.flatten.length + buf.length := by simp
  have hle : buf.length ≤ file.length - (o + chunks.flatten.length) := by
    rw [hbuf, List.length_take, List.length_drop]
    omega
  -- the next chunk begins where the chunks so far end
  have hto := h.le
  refine ⟨h.rest.step hs, ?_, ?_, ?_, ?_⟩
  · rw [hlen, ← Nat.add_assoc, hv, hbuf, ← h.content]
    exact h.isOpen.setOffset
  · rw [hv]
    exact h.content
  · omega
  · rw [hlen, List.take_add, ← h.flatten, List.drop_drop, List.flatten_append, List.flatten_singleton]
    congr 1
    rw [hbuf, List.take_eq_take_iff, List.length_take]
    omega

theorem run_reads (hi : Rest u) (h : OpenAt u f n o) (ho : o ≤ (content u.fs.disk n).length)
    (hr : Reads f n u chunks v) :
    ReadTo (content u.fs.disk n) f n o chunks v := by
  induction hr with
  | nil => exact ⟨hi, h, rfl, ho, by simp⟩
  | read _ hp hfd hw he ih => exact ih.read hp hfd hw he
  | dup _ hs ih => exact ih.leaves hs (leaves_dup ih.isOpen hs)
  | fork _ hs ih => exact ih.leaves hs (leaves_fork ih.isOpen hs)
  | other _ hs hl ih => exact ih.leaves hs hl

/-- `chunks` have been written so far over the bytes `file`, from offset `o` on. -/
structure WroteTo (file : List UInt8) (f n o : Nat) (chunks : List (List UInt8)) (v : Filesys) : Prop where
  rest : Rest v
  isOpen : OpenAt v f n (o + chunks.flatten.length)
  content : content v.fs.disk n = file.take o ++ chunks.flatten ++ file.drop (o + chunks.flatten.length)

theorem WroteTo.leaves {file : List UInt8} {c : Call} (h : WroteTo file f n o chunks v) (hs : v.step p c = some v')
    (hl : Leaves f n v v') : WroteTo file f n o chunks v' :=
  ⟨h.rest.step hs, h.isOpen.leaves hl, hl.content.trans h.content⟩

theorem WroteTo.write {file : List UInt8} {k : Nat} (h : WroteTo file f n o chunks v) (ho : o ≤ file.length)
    (hp : v.procs p = some d) (hfd : procGetfile d fd = some f) (he : v.fwrite f buf = some (some k, v')) :
    k = buf.length ∧ WroteTo file f n o (chunks ++ [buf]) v' := by
  have hs : v.step p (.write fd buf) = some v' := by
    unfold Filesys.step Filesys.sysWrite
    simp only [hp, hfd, he, Option.map_some]
  have htake : (file.take o ++ chunks.flatten).length = o + chunks.flatten.length := by
    rw [List.length_append, List.length_take, Nat.min_eq_left ho]
  have hle : o + chunks.flatten.length ≤ (Fs.content v.fs.disk n).length := by
    rw [h.content, List.length_append, htake]
    omega
  obtain ⟨hk, hopen, hc⟩ := h.rest.fwrite_some h.isOpen hle he
  have hflat : (chunks ++ [buf]).flatten = chunks.flatten ++ buf := by
    rw [List.flatten_append, List.flatten_singleton]
  refine ⟨hk, h.rest.step hs, ?_, ?_⟩
  · rw [hflat, List.length_append, ← Nat.add_assoc]
    exact hopen
  · -- what was there before the new chunk stays, and what comes after it is the old file
    rw [hc, h.content, List.take_left' htake, ← List.drop_drop, List.drop_left' htake, List.drop_drop, hflat,
      List.length_append, Nat.add_assoc, List.append_assoc (file.take o)]

theorem run_writes_through (hi : Rest u) (h : OpenAt u f n o) (ho : o ≤ (content u.fs.disk n).length)
    (hr : Writes f n u chunks v) : WroteTo (content u.fs.disk n) f n o chunks v := by
  induction hr with
  | nil => exact ⟨hi, h, by simp⟩
  | write _ hp hfd he ih => exact (ih.write ho hp hfd he).2
  | dup _ hs ih => exact ih.leaves hs (leaves_dup ih.isOpen hs)
  | fork _ hs ih => exact ih.leaves hs (leaves_fork ih.isOpen hs)
  | other _ hs hl ih => exact ih.leaves hs hl

/-- In every reachable state, an open file at an offset `o` that is not behind the end. Whoever reads through
its descriptors, and in which order: the chunks make up the file from `o` on, and the next request gets what follows, so
nothing at the end. Whoever writes through them: the chunks stand in the file one after the other from `o` on, all of
them whole, the rest of the file is as it was, and the next one is written whole if there is room for it. -/
theorem shared_stream {boot₀ m : Store} {files : List (List UInt8 × List UInt8)} {u₀ : Filesys} {cs : List (Nat × Call)}
    (hname : ∀ f ∈ files, FileName f.1) (huniq : (files.map Prod.fst).Nodup)
    (hm : mkfs boot₀ files = some m) (hb : boot m = some u₀) (hr : Run Step u₀ cs u) (h : OpenAt u f n o)
    (ho : o ≤ (content u.fs.disk n).length) :
    (∀ chunks v, Reads f n u chunks v → ReadTo (content u.fs.disk n) f n o chunks v ∧
      ∀ size, (v.files f).readable = true → (v.files f).offset + size < 2 ^ 32 → ∃ v',
        v.fread f size = some (some (((content u.fs.disk n).drop (o + chunks.flatten.length)).take size), v')) ∧
    ∀ chunks v, Writes f n u chunks v → WroteTo (content u.fs.disk n) f n o chunks v ∧
      (∀ buf k v', v.fwrite f buf = some (some k, v') → k = buf.length) ∧
      ∀ buf, (v.files f).writable = true → (v.files f).offset + buf.length ≤ (12 + 1024) * 4096 →
        need v.fs.disk n (touched (v.files f).offset buf.length) ≤ freeBlks v.fs.disk →
        ∃ v', v.fwrite f buf = some (some buf.length, v') := by
  have hi := run_rest (boot_rest hname huniq hm hb) hr
  refine ⟨fun chunks v hrd => ?_, fun chunks v hwr => ?_⟩
  · have hto := run_reads hi h ho hrd
    refine ⟨hto, fun size hreadable hw => ?_⟩
    rw [hto.isOpen.offset] at hw
    have hle : o + chunks.flatten.length ≤ (content v.fs.disk n).length := by
      rw [hto.content]
      exact hto.le
    rw [← hto.content]
    exact ⟨_, hto.rest.fread_eq hto.isOpen hreadable hle hw⟩
  · have hto := run_writes_through hi h ho hwr
    have hle : o + chunks.flatten.length ≤ (content v.fs.disk n).length := by
      rw [hto.content, List.length_append, List.length_append, List.length_take]
      omega
    refine ⟨hto, fun buf k v' he => (hto.rest.fwrite_some hto.isOpen hle he).1, fun buf hwritable hmax hneed => ?_⟩
    rw [hto.isOpen.offset] at hmax hneed
    exact hto.rest.fwrite_isSome hto.isOpen hle hwritable hmax hneed

/-- A file with three bytes, at its second byte. -/
def threeBytes : List (Nat × Call) :=
  [(1, .open [slash, 97] (oCreate ||| oRdwr)), (1, .write 0 [7, 8, 9]), (1, .lseek 0 1 0)]

theorem threeBytes_open : (after threeBytes).map (fun u => decide (0 < (u.files 0).ref ∧ (u.files 0).type = typeFile ∧
    (u.fs.inodes (u.files 0).inode).no = 6 ∧ (u.files 0).offset = 1 ∧ (node u.fs.disk 6).size = 3)) = some true := by
  decide +kernel

theorem shared_stream_demo : ∃ m u₀ u, mkfs (fun _ => 0) shell = some m ∧ boot m = some u₀ ∧ Run Step u₀ threeBytes u ∧
    ∀ chunks v, Reads 0 6 u chunks v → ReadTo (content u.fs.disk 6) 0 6 1 chunks v := by
  obtain ⟨u, hu, hopen⟩ := Option.map_eq_some_iff.1 threeBytes_open
  obtain ⟨h1, h2, h3, h4, h5⟩ := of_decide_eq_true hopen
  obtain ⟨m, u₀, hm, hb, hr⟩ := after_run hu
  have hs := shared_stream shell_name shell_nodup hm hb hr ⟨h1, h2, h3, h4⟩ (by rw [content_length, h5]; decide)
  exact ⟨m, u₀, u, hm, hb, hr, fun chunks v hrd => (hs.1 chunks v hrd).1⟩

end Filesys

end TinyOS
