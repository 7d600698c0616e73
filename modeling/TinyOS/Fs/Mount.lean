/-
Mounting an image: the namespace of a disk that mkfs made, as `init_fs` and the first `iopen("/")`
find it.
-/
import TinyOS.Fs.Path

namespace TinyOS.Fs

open TinyOS.Lib TinyOS.Mkfs

variable {m : Store} {d j n : Nat} {es : List Dirent} {files : List (List UInt8 × List UInt8)} {s : Img}

/-- The active inode table before the first `iopen`. -/
def blankInodes : Nat → Inode := fun _ => ⟨0, 0, false, Dinode.zero⟩

/-- `init_fs`, and the root directory opened as the working directory of the first process. -/
def mount (m : Store) : Option (Option Nat × Fs) := (initFs m blankInodes).iopen 0 [slash] typeNone

theorem mount_eq (h : superAt m = Super.std) : mount m = some (some 0, only m 1) := by
  have hsb : (initFs m blankInodes).sb = Super.std := h
  have hroot : (initFs m blankInodes).sb.root = 1 := by rw [hsb]; rfl
  have hskip : skipelem [slash] = none := rfl
  have hget : (initFs m blankInodes).iget 1 = some (0, only m 1) := by
    have hread : (initFs m blankInodes).diread 1 = some (node m 1) := diread_eq hsb
    have h1 : (List.range inodeNum).find? (fun i => decide (0 < ((initFs m blankInodes).inodes i).ref ∧
        ((initFs m blankInodes).inodes i).no = 1)) = none := by
      rw [List.find?_eq_none]
      intro i _
      simp [initFs, blankInodes]
    have h2 : (List.range inodeNum).find? (fun i => decide (((initFs m blankInodes).inodes i).ref = 0)) = some 0 := rfl
    unfold iget
    simp only [h1, h2, hread, Option.bind_eq_bind, Option.bind_some, Option.pure_def]
    refine congrArg (fun fs => some (0, fs)) ?_
    unfold only setInode
    rw [hsb]
    refine congrArg (Fs.mk Super.std m) (funext fun i => ?_)
    by_cases hi : i = 0
    · rw [hi, Function.update_self, if_pos rfl]
    · rw [Function.update_of_ne hi, if_neg hi]
      rfl
  unfold mount iopen
  rw [hskip]
  simp only [List.headD_cons, if_true, hroot, hget, Option.bind_eq_bind, Option.bind_some, Option.pure_def]

/-! ## A directory given by its entries -/

theorem flatMap_bytes_length (h : ∀ e ∈ es, e.name.length = 28) :
    (es.flatMap Dirent.bytes).length = 32 * es.length := by
  induction es with
  | nil => rfl
  | cons e es ih =>
    rw [List.flatMap_cons, List.length_append, Dirent.bytes_length (h e List.mem_cons_self),
      ih fun e' he' => h e' (List.mem_cons_of_mem _ he'), List.length_cons]
    omega

theorem flatMap_bytes_drop (h : ∀ e ∈ es, e.name.length = 28) : ∀ {j : Nat} (hj : j < es.length),
    ((es.flatMap Dirent.bytes).drop (32 * j)).take 32 = es[j].bytes := by
  induction es with
  | nil => exact fun hj => absurd hj (Nat.not_lt_zero _)
  | cons e es ih =>
    intro j hj
    have he := Dirent.bytes_length (h e List.mem_cons_self)
    rw [List.flatMap_cons]
    cases j with
    | zero => rw [Nat.mul_zero, List.drop_zero, ← he, List.take_left]; rfl
    | succ j =>
      rw [show 32 * (j + 1) = e.bytes.length + 32 * j by omega, List.drop_length_add_append]
      exact ih (fun e' he' => h e' (List.mem_cons_of_mem _ he')) (Nat.lt_of_succ_lt_succ hj)

/-- The entries of a directory whose content is a list of entries. -/
theorem entry_content (hsize : (node m d).size = 32 * es.length) (hc : content m d = es.flatMap Dirent.bytes)
    (hn : ∀ e ∈ es, e.name.length = 28) (hi : ∀ e ∈ es, e.inode ≠ 0 ∧ e.inode < 2 ^ 32) :
    entry m d j = es[j]?.map fun e => (e.inode, cstr e.name) := by
  by_cases hj : j < es.length
  · have he : es[j] ∈ es := List.getElem_mem hj
    have hdir : direntAt m d j = es[j] := by
      unfold direntAt
      rw [bytesAt_content (by omega), hc, flatMap_bytes_drop hn hj, Dirent.ofBytes_bytes (hi _ he).2 (hn _ he)]
    rw [List.getElem?_eq_getElem hj]
    refine entry_some.2 ⟨by omega, (hi _ he).1, ?_, ?_⟩
    · rw [hdir]
    · rw [hdir]
  · rw [List.getElem?_eq_none (by omega)]
    exact entry_none_of_size (by omega)

/-! ## The root directory of an image -/

/-- The names in the root directory of an image, with their inodes. -/
def rootNames (files : List (List UInt8 × List UInt8)) : List (Nat × List UInt8) :=
  (1, dot) :: (1, dotdot) :: (files.zipIdx 2).map fun p => (p.2, cstr p.1.1)

theorem rootEnts_names : (rootEnts (files.map Prod.fst)).map (fun e => (e.inode, cstr e.name)) = rootNames files := by
  unfold rootEnts rootNames
  rw [List.zipIdx_map]
  simp only [List.map_cons, List.map_map, cstr_strcpy, cstr_dot, cstr_dotdot]
  congr 2
  refine List.map_congr_left fun p _ => ?_
  simp only [Function.comp_apply, Prod.map_fst, Prod.map_snd, cstr_strcpy, id]

theorem rootEnts_mem (hshort : ∀ f ∈ files, f.1.length < 28) :
    ∀ e ∈ rootEnts (files.map Prod.fst), e.name.length = 28 ∧ 0 < e.inode ∧ e.inode < 2 + files.length := by
  have hzero : Dirent.zero.name.length = 28 := List.length_replicate
  intro e he
  unfold rootEnts at he
  rcases List.mem_cons.1 he with rfl | he
  · exact ⟨strcpy_length (by rw [hzero]; decide), Nat.one_pos, by show 1 < _; omega⟩
  rcases List.mem_cons.1 he with rfl | he
  · exact ⟨strcpy_length (by rw [hzero]; decide), Nat.one_pos, by show 1 < _; omega⟩
  obtain ⟨⟨nm, k⟩, hp, rfl⟩ := List.mem_map.1 he
  have hk := List.mem_zipIdx hp
  rw [List.length_map] at hk
  refine ⟨strcpy_length ?_, by show 0 < k; omega, hk.2.1⟩
  have hmem : nm ∈ files.map Prod.fst := hk.2.2 ▸ List.getElem_mem _
  obtain ⟨f, hf, hfn⟩ := List.mem_map.1 hmem
  have h1 := hshort f hf
  have h2 := cstr_length_le (a := nm)
  rw [hzero]
  show (cstr nm).length < 28
  rw [← hfn] at h2 ⊢
  omega

/-- The namespace of an image: the root directory with one regular file for each input file. -/
structure Mounted (files : List (List UInt8 × List UInt8)) (fs : Fs) : Prop where
  good : Good fs
  type : ∀ n, (view fs).type n = if n = 1 then typeDir else if 2 ≤ n ∧ n < 2 + files.length then typeFile else typeNone
  ent : ∀ d j, (view fs).ent d j = if d = 1 then (rootNames files)[j]? else none
  seat : ∀ i, (view fs).seat i = if i = 0 then some ⟨1, 1, false⟩ else none
  content : ∀ k (hk : k < files.length), Fs.content fs.disk (2 + k) = files[k].2
  count : 2 + files.length ≤ 1920

/-- Nothing is removed in an image. -/
theorem Mounted.not_del (h : Mounted files fs) (n : Nat) : ¬ (view fs).Del n := by
  rintro ⟨i, x, hx, -, hd⟩
  rw [h.seat] at hx
  split at hx <;> cases hx
  cases hd

theorem Mounted.live (h : Mounted files fs) : (view fs).Live := by
  rintro n ⟨i, x, hx, rfl⟩
  rw [h.seat] at hx
  split at hx <;> cases hx
  rw [h.type, if_pos rfl]
  decide

theorem built_mounted (hb : Built files s) : Mounted files (only s.img 1) := by
  have hcount : 2 + files.length ≤ 1920 := by rw [← hb.next]; exact hb.inv.inodes.2
  have hinv : FsInv (only s.img 1) := only_inv hb.inv.owned (by decide) (by decide)
  have hroot : (view (only s.img 1)).type 1 = typeDir := (view_type (by decide)).trans hb.rootType
  have htype : ∀ n, (view (only s.img 1)).type n =
      if n = 1 then typeDir else if 2 ≤ n ∧ n < 2 + files.length then typeFile else typeNone := fun n => by
    by_cases h1 : n = 1
    · rw [if_pos h1, h1, hroot]
    rw [if_neg h1]
    by_cases h2 : 2 ≤ n ∧ n < 2 + files.length
    · obtain ⟨k, rfl⟩ := Nat.exists_eq_add_of_le h2.1
      rw [if_pos h2, view_type (by omega)]
      exact hb.fileType k (by omega)
    · rw [if_neg h2]
      by_cases hlt : n < 1920
      · rw [view_type hlt]
        exact congrArg Dinode.type (hb.inv.unused n hlt (by rw [hb.next]; omega))
      · exact if_neg hlt
  have hmem := rootEnts_mem hb.short
  have hsize : (node s.img 1).size = 32 * (rootEnts (files.map Prod.fst)).length := by
    rw [← content_length, hb.root, flatMap_bytes_length fun e he => (hmem e he).1]
  -- the root is the only directory, and its entries are those that mkfs wrote
  have hent : ∀ d j, (view (only s.img 1)).ent d j = if d = 1 then (rootNames files)[j]? else none := fun d j => by
    by_cases hd : d = 1
    · rw [if_pos hd, hd, view_ent hroot, ← rootEnts_names, List.getElem?_map]
      exact entry_content hsize hb.root (fun e he => (hmem e he).1) fun e he =>
        ⟨Nat.pos_iff_ne_zero.1 (hmem e he).2.1, by have := (hmem e he).2.2; omega⟩
    · rw [if_neg hd, view_ent_none]
      rw [htype, if_neg hd]
      split <;> decide
  refine ⟨⟨hinv, hb.inv.mapped, fun d hd ht => ?_, fun d j c nm hc => ?_⟩, htype, hent, fun i => ?_, hb.file, hcount⟩
  · have hd1 : d = 1 := by
      have := htype d
      rw [view_type hd, ht] at this
      by_contra hne
      rw [if_neg hne] at this
      split at this <;> cases this
    rw [hd1]
    show (node s.img 1).size % 32 = 0
    rw [hsize]
    omega
  · rw [hent] at hc
    split at hc
    · next hd =>
      have hmem' := List.mem_of_getElem? hc
      rw [← rootEnts_names] at hmem'
      obtain ⟨e, he, heq⟩ := List.mem_map.1 hmem'
      cases heq
      refine ⟨by have := (hmem e he).2.2; omega, fun h1 h2 => ?_⟩
      unfold rootEnts at he
      rcases List.mem_cons.1 he with rfl | he
      · exact absurd cstr_strcpy h1
      rcases List.mem_cons.1 he with rfl | he
      · exact absurd cstr_strcpy h2
      obtain ⟨⟨nm, k⟩, hp, rfl⟩ := List.mem_map.1 he
      have hk := (List.mem_zipIdx hp).1
      show k ≠ d
      omega
    · cases hc
  · show seatOf ((only s.img 1).inodes i) = _
    unfold only
    by_cases hi : i = 0
    · simp only [if_pos hi]
      rfl
    · simp only [if_neg hi]
      rfl

/-- The names of the files fit in their entries. -/
theorem mkfs_short {boot : Store} (hname : ∀ f ∈ files, FileName f.1) (h : mkfs boot files = some m) :
    ∀ f ∈ files, FileName f.1 ∧ f.1.length ≤ 27 := fun f hf => by
  obtain ⟨s, hbuilt, -⟩ := mkfs_built h
  exact ⟨hname f hf, Nat.le_of_lt_succ (hbuilt.short f hf)⟩

theorem mount_mounted {boot : Store} (h : mkfs boot files = some m) :
    mount m = some (some 0, only m 1) ∧ Mounted files (only m 1) := by
  obtain ⟨s, hb, rfl⟩ := mkfs_built h
  exact ⟨mount_eq hb.sb, built_mounted hb⟩

end TinyOS.Fs
