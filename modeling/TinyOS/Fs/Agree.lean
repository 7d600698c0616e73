/-
The image builder and the kernel agree on the disk: every file that mkfs was given is found under
its name in the mounted root directory, with its bytes, and nothing else is.
-/
import TinyOS.Fs.Capacity
import TinyOS.Fs.Mount

namespace TinyOS.Fs

open TinyOS.Lib TinyOS.Mkfs

variable {fs fs' : Fs} {m : Store} {i j n d p k : Nat} {x : Seat} {name : List UInt8}
  {files : List (List UInt8 × List UInt8)}

/-! ## Directories as they should be -/

/-- A directory that is in order: whole entries, the first two for itself and for its parent, names
of 1 to 27 bytes that end within their buffer and have no slash, and no name twice. -/
structure WfDir (m : Store) (d : Nat) : Prop where
  size : (node m d).size % 32 = 0 ∧ 64 ≤ (node m d).size
  self : entry m d 0 = some (d, dot)
  parent : ∃ p, entry m d 1 = some (p, dotdot)
  name : ∀ j n nm, entry m d j = some (n, nm) → nm ≠ [] ∧ nm.length ≤ 27 ∧ slash ∉ nm
  uniq : ∀ j k n n' nm, entry m d j = some (n, nm) → entry m d k = some (n', nm) → j = k

/-! ## `iopen` of a name in the root directory -/

theorem skipelem_root (hn : FileName name) (hl : name.length ≤ 27) : skipelem (slash :: name) = some (name, []) := by
  obtain ⟨h0, hz, hs, -⟩ := hn
  have hne : ∀ c ∈ name, c ≠ slash ∧ c ≠ 0 := fun c hc => ⟨fun h => hs (h ▸ hc), fun h => hz (h ▸ hc)⟩
  cases hname : name with
  | nil => exact absurd hname h0
  | cons c rest =>
    have hc := hne c (by rw [hname]; exact List.mem_cons_self)
    have hall : ∀ y ∈ c :: rest, decide (y ≠ slash ∧ y ≠ 0) = true := fun y hy =>
      decide_eq_true (hne y (by rw [hname]; exact hy))
    have hdrop : (slash :: c :: rest).dropWhile (· = slash) = c :: rest := by
      rw [List.dropWhile_cons_of_pos (by simp), List.dropWhile_cons_of_neg (by simpa using hc.1)]
    have htake : (c :: rest).takeWhile (fun c => decide (c ≠ slash ∧ c ≠ 0)) = c :: rest :=
      List.takeWhile_eq_self_iff.2 hall
    have hend : (c :: rest).dropWhile (fun c => decide (c ≠ slash ∧ c ≠ 0)) = [] := List.dropWhile_eq_nil_iff.2 hall
    unfold skipelem
    simp only [hdrop, List.headD_cons, if_neg hc.2, htake, hend, List.dropWhile_nil]
    split
    · next h27 =>
      rw [List.take_of_length_le]
      rw [hname] at hl
      exact hl
    · rfl

/-- A free slot is enough to open an inode. -/
theorem iget_isSome (h : Good fs) {l : Nat} (hl : l < inodeNum) (hr : (fs.inodes l).ref = 0) :
    ∃ i fs', fs.iget n = some (i, fs') := by
  unfold iget
  split
  · exact ⟨_, _, rfl⟩
  · split
    · next k hk =>
      rw [diread_eq h.inv.sb]
      exact ⟨_, _, rfl⟩
    · next hk =>
      have := List.find?_eq_none.1 hk l (List.mem_range.2 hl)
      simp only [decide_eq_true_eq] at this
      exact absurd hr this

/-- Looking a name up without creating it ends well when there is a free slot, and leaves the disk as
it was. -/
theorem ilookup_isSome (h : Good fs) (hx : (view fs).seat p = some x) (hd : (view fs).type x.no = typeDir) {l : Nat}
    (hl : l < inodeNum) (hr : (fs.inodes l).ref = 0) :
    ∃ r fs', fs.ilookup p name typeNone = some (r, fs') ∧ fs'.disk = fs.disk := by
  have hlt := (h.seat_lt hx).2
  have hdir' : (node fs.disk x.no).type = typeDir := by rw [← view_type hlt]; exact hd
  have hrec : (node fs.disk x.no).size / direntSize = (node fs.disk x.no).size / 32 := rfl
  obtain ⟨w, hscan, hw⟩ := ilookupLoop_eq name (h.layer hx (hd.symm ▸ by decide)) (h.size x.no hlt hdir')
    ((node fs.disk x.no).size / direntSize + 2) 0 Dirent.zero (node fs.disk x.no).size (Nat.zero_le _) (by omega)
    List.length_replicate
  rw [Nat.mul_zero] at hscan
  unfold ilookup
  rw [seat_type h hx, seat_node h hx, if_neg (not_not.2 hd)]
  simp only [Option.bind_eq_bind, hscan, Option.bind_some]
  cases w with
  | found off no =>
    obtain ⟨j, -, rfl, hent⟩ := hw
    rw [← view_ent hd] at hent
    obtain ⟨i, fs', hg⟩ := iget_isSome (n := no) h hl hr
    obtain ⟨-, -, -, hdisk⟩ := iget_view h (entry_some.1 (view_ent hd ▸ hent)).2.1.bot_lt (h.ent _ _ _ _ hent).1 hg
    simp only [hg, Option.bind_some]
    exact ⟨_, _, rfl, hdisk⟩
  | missing e empty => exact ⟨_, _, rfl, rfl⟩

/-- `iopen("/name", TYPE_NONE)` on a mounted image. -/
theorem iopen_root (h : Mounted files fs) (hn : FileName name) (hl : name.length ≤ 27) :
    ∃ r fs', fs.iopen 0 (slash :: name) typeNone = some (r, fs') ∧ fs'.disk = fs.disk ∧
      ((∃ i j n, r = some i ∧ (view fs).ent 1 j = some (n, name) ∧ (view fs).Room i n ∧ view fs' = (view fs).get i n ∧
          Good fs') ∨
        (r = none ∧ ∀ j n, (view fs).ent 1 j ≠ some (n, name))) := by
  have hx : (view fs).seat 0 = some ⟨1, 1, false⟩ := by rw [h.seat, if_pos rfl]
  obtain ⟨hr0, hno0, href0, hdel0⟩ := view_seat.1 hx
  obtain ⟨hv₁, hg₁⟩ := idup_view h.good hx
  have hskip := skipelem_root hn hl
  have hcstr : cstr name = name := cstr_eq_self hn.2.1
  have hdir : (view fs).type 1 = typeDir := by rw [h.type, if_pos rfl]
  have hget : fs.iget 1 = some (0, fs.idup 0) := by
    have hfind : (List.range inodeNum).find? (fun i => decide (0 < (fs.inodes i).ref ∧ (fs.inodes i).no = 1)) =
        some 0 := by
      rw [show List.range inodeNum = 0 :: (List.range 127).map Nat.succ from List.range_succ_eq_map]
      exact List.find?_cons_of_pos (decide_eq_true ⟨hr0, hno0⟩)
    unfold iget
    rw [hfind]
    rfl
  have hx₁ : (view (fs.idup 0)).seat 0 = some ⟨1, 2, false⟩ := by
    rw [hv₁, Ns.get_seat_self, hx]
    rfl
  have hdir₁ : (view (fs.idup 0)).type 1 = typeDir := by rw [hv₁]; exact hdir
  have hfree : ((fs.idup 0).inodes 1).ref = 0 := by
    have hnone : (view fs).seat 1 = none := by rw [h.seat, if_neg (by decide)]
    have := view_seat_none.1 hnone
    have hge := h.good.inv.table.ref 1
    have heq : (fs.idup 0).inodes 1 = fs.inodes 1 := by simp [idup, setInode]
    rw [heq]
    omega
  have hfound : ∃ r fs₂, (fs.idup 0).ilookup 0 name typeNone = some (r, fs₂) ∧ fs₂.disk = (fs.idup 0).disk :=
    ilookup_isSome hg₁ hx₁ hdir₁ (l := 1) (by decide) hfree
  obtain ⟨r, fs₂, hlook, hdisk⟩ := hfound
  have hpar : fs.iopenParent 0 (slash :: name) = some (some (0, name), fs.idup 0) := by
    have hroot : fs.sb.root = 1 := by rw [h.good.inv.sb]; rfl
    unfold iopenParent
    rw [List.headD_cons, if_pos rfl, hroot, hget]
    simp only [Option.bind_eq_bind, Option.bind_some]
    unfold iopenParentLoop
    simp only [hskip]
    rw [seat_type hg₁ hx₁, if_neg (not_not.2 hdir₁)]
    rfl
  have hopen : ∀ fs₃, fs₂.iclose 0 = some fs₃ →
      fs.iopen 0 (slash :: name) typeNone = some (r.map Prod.fst, fs₃) := fun fs₃ hcl => by
    unfold iopen
    rw [hskip]
    simp only [hpar, Option.bind_eq_bind, Option.bind_some, hlook, hcl, Option.pure_def]
  have hroom₁ : (view fs).Room 0 1 := Or.inl ⟨_, hx, rfl⟩
  -- the reference to the root directory goes back, without touching the disk
  obtain ⟨-, ⟨i, j, n, rfl, hent, hroom, hv₂, hg₂, -⟩ | ⟨rfl, -, rfl, hno⟩ | ⟨hbad, -⟩⟩ :=
    ilookup_view hg₁ hx₁ (Nat.lt_succ_of_le hl) hlook
  · rw [hv₁] at hroom hv₂ hent
    rw [hcstr] at hent
    obtain ⟨-, hroom₂⟩ := Ns.put_get_get h.good.ok hroom₁ hroom
    obtain ⟨fs₃, h1, h2, h3, h4⟩ := iclose_get_get h.good.ok hg₂ hroom₁ hroom hv₂
    exact ⟨_, fs₃, hopen fs₃ h1, h4.trans hdisk, Or.inl ⟨i, j, n, rfl, hent, hroom₂, h2, h3⟩⟩
  · obtain ⟨fs₃, h1, -, -, h4⟩ := iclose_get h.good.ok hg₁ hroom₁ hv₁
    refine ⟨_, fs₃, hopen fs₃ h1, h4.trans hdisk, Or.inr ⟨rfl, fun j n hc => hno j n ?_⟩⟩
    rw [hcstr, hv₁]
    exact hc
  · exact absurd rfl hbad

/-! ## The mounted image -/

theorem rootNames_get {q : Nat × List UInt8} : (rootNames files)[j]? = some q ↔
    (j = 0 ∧ q = (1, dot)) ∨ (j = 1 ∧ q = (1, dotdot)) ∨
      ∃ k, ∃ hk : k < files.length, j = k + 2 ∧ q = (2 + k, cstr files[k].1) := by
  unfold rootNames
  match j with
  | 0 => simp [eq_comm]
  | 1 => simp [eq_comm]
  | k + 2 =>
    rw [List.getElem?_cons_succ, List.getElem?_cons_succ, List.getElem?_map, List.getElem?_zipIdx]
    constructor
    · intro hq
      obtain ⟨f, hf, rfl⟩ := Option.map_eq_some_iff.1 hq
      obtain ⟨g, hg, rfl⟩ := Option.map_eq_some_iff.1 hf
      obtain ⟨hk, rfl⟩ := List.getElem?_eq_some_iff.1 hg
      exact Or.inr (Or.inr ⟨k, hk, rfl, rfl⟩)
    · rintro (⟨h0, -⟩ | ⟨h1, -⟩ | ⟨l, hl, h2, rfl⟩)
      · omega
      · omega
      · obtain rfl : l = k := by omega
        rw [List.getElem?_eq_getElem hl]
        rfl

/-- The root directory of a mounted image is in order. -/
theorem Mounted.wfDir (h : Mounted files fs) (hname : ∀ f ∈ files, FileName f.1 ∧ f.1.length ≤ 27)
    (huniq : (files.map Prod.fst).Nodup) : WfDir fs.disk 1 := by
  have hdir : (view fs).type 1 = typeDir := by rw [h.type, if_pos rfl]
  have hent : ∀ j, entry fs.disk 1 j = (rootNames files)[j]? := fun j => by rw [← view_ent hdir, h.ent, if_pos rfl]
  have hcstr : ∀ k (hk : k < files.length), cstr files[k].1 = files[k].1 := fun k hk =>
    cstr_eq_self (hname _ (List.getElem_mem hk)).1.2.1
  have h0 : entry fs.disk 1 0 = some (1, dot) := by rw [hent, rootNames_get]; exact Or.inl ⟨rfl, rfl⟩
  have h1 : entry fs.disk 1 1 = some (1, dotdot) := by rw [hent, rootNames_get]; exact Or.inr (Or.inl ⟨rfl, rfl⟩)
  refine ⟨⟨h.good.size 1 (by decide) (by rw [← view_type (by decide)]; exact hdir), (entry_some.1 h1).1⟩,
    h0, ⟨1, h1⟩, ?_, ?_⟩
  · intro j n nm hj
    rw [hent, rootNames_get] at hj
    rcases hj with ⟨-, hq⟩ | ⟨-, hq⟩ | ⟨k, hk, -, hq⟩ <;> cases hq
    · exact ⟨by decide, by decide, by decide⟩
    · exact ⟨by decide, by decide, by decide⟩
    · obtain ⟨⟨hne, -, hs, -⟩, hl⟩ := hname _ (List.getElem_mem hk)
      rw [hcstr k hk]
      exact ⟨hne, hl, hs⟩
  · -- the names of the files are neither "." nor ".." and pairwise different
    intro j l n n' nm hj hl
    rw [hent, rootNames_get] at hj hl
    have hspecial : ∀ k (hk : k < files.length), cstr files[k].1 ≠ dot ∧ cstr files[k].1 ≠ dotdot := fun k hk => by
      rw [hcstr k hk]
      exact (hname _ (List.getElem_mem hk)).1.2.2.2
    have hdots : dot ≠ dotdot := by decide
    rcases hj with ⟨rfl, hq⟩ | ⟨rfl, hq⟩ | ⟨k, hk, rfl, hq⟩ <;>
      rcases hl with ⟨rfl, hq'⟩ | ⟨rfl, hq'⟩ | ⟨k', hk', rfl, hq'⟩ <;>
      simp only [Prod.mk.injEq] at hq hq'
    · rfl
    · exact absurd (hq.2.symm.trans hq'.2) hdots
    · exact absurd (hq'.2.symm.trans hq.2) (hspecial k' hk').1
    · exact absurd (hq'.2.symm.trans hq.2) hdots
    · rfl
    · exact absurd (hq'.2.symm.trans hq.2) (hspecial k' hk').2
    · exact absurd (hq.2.symm.trans hq'.2) (hspecial k hk).1
    · exact absurd (hq.2.symm.trans hq'.2) (hspecial k hk).2
    · have heq : files[k].1 = files[k'].1 := by rw [← hcstr k hk, ← hcstr k' hk', ← hq.2, ← hq'.2]
      have hkk : k = k' := by
        refine (@List.Nodup.getElem_inj_iff _ _ huniq k (by simpa using hk) k' (by simpa using hk')).1 ?_
        rw [List.getElem_map, List.getElem_map]
        exact heq
      rw [hkk]

/-- What `iread` returns of a file that `iopen` found. -/
theorem Mounted.iread (h : Mounted files fs) (hg : Good fs') (hdisk : fs'.disk = fs.disk)
    (hk : k < files.length) (hl : files[k].2.length < 2 ^ 32) (hx : (view fs').seat i = some x) (hno : x.no = 2 + k) :
    (fs'.inodes i).dinode.type = typeFile ∧ (fs'.inodes i).dinode.size = files[k].2.length ∧
      fs'.iread i 0 files[k].2.length = some (some files[k].2, fs') := by
  have hcount := h.count
  have hlt : 2 + k < 1920 := by omega
  have hfile : (view fs).type (2 + k) = typeFile := by rw [h.type, if_neg (by omega), if_pos (by omega)]
  have htype : (view fs').type x.no = typeFile := by
    rw [hno, view_type hlt, hdisk, ← view_type hlt]
    exact hfile
  have hcont : Fs.content fs'.disk (2 + k) = files[k].2 := by rw [hdisk]; exact h.content k hk
  have hsize : (node fs'.disk (2 + k)).size = files[k].2.length := by rw [← hcont, content_length]
  refine ⟨by rw [seat_type hg hx, htype], by rw [seat_node hg hx, hno, hsize], ?_⟩
  have ha : Active fs' i (2 + k) := hno ▸ active_of_seat hx (by rw [htype]; decide)
  rw [iread_eq hg.inv hg.mapped ha (Nat.zero_le _) (by omega), hsize, Nat.sub_zero, Nat.min_self, ← hsize]
  exact congrArg (fun l => some (some l, fs')) hcont

/-- Every image of files that fit is mounted in order, and `iopen` finds in its root directory these
files, with their bytes, and no others. -/
theorem image_agrees (boot : Store) (hname : ∀ f ∈ files, FileName f.1) (huniq : (files.map Prod.fst).Nodup)
    (hne : files ≠ []) (hfits : Fits files) :
    ∃ m fs, mkfs boot files = some m ∧ mount m = some (some 0, fs) ∧ FsInv fs ∧ Mapped fs.disk ∧
      (∀ d < 1920, (node fs.disk d).type = typeDir → WfDir fs.disk d) ∧
      (∀ f ∈ files, ∃ i fs', fs.iopen 0 (slash :: f.1) typeNone = some (some i, fs') ∧
        (fs'.inodes i).dinode.type = typeFile ∧ (fs'.inodes i).dinode.size = f.2.length ∧
        fs'.iread i 0 f.2.length = some (some f.2, fs')) ∧
      ∀ name, FileName name → name.length ≤ 27 → (∀ f ∈ files, f.1 ≠ name) →
        ∃ fs', fs.iopen 0 (slash :: name) typeNone = some (none, fs') := by
  obtain ⟨m, hm⟩ := mkfs_fits boot hne hfits
  obtain ⟨hmount, hmt⟩ := mount_mounted hm
  have hlen : ∀ f ∈ files, FileName f.1 ∧ f.1.length ≤ 27 := fun f hf =>
    ⟨hname f hf, Nat.le_of_lt_succ (hfits.name f hf)⟩
  have hroot : ∀ j n nm, (view (only m 1)).ent 1 j = some (n, nm) ↔
      (rootNames files)[j]? = some (n, nm) := fun j n nm => by
    rw [hmt.ent, if_pos rfl]
  refine ⟨m, only m 1, hm, hmount, hmt.good.inv, hmt.good.mapped, ?_, ?_, ?_⟩
  · intro d hd hdir
    rw [← view_type hd, hmt.type] at hdir
    by_cases h1 : d = 1
    · rw [h1]
      exact hmt.wfDir hlen huniq
    · rw [if_neg h1] at hdir
      split at hdir <;> exact absurd hdir (by decide)
  · intro f hf
    obtain ⟨k, hk, rfl⟩ := List.getElem_of_mem hf
    obtain ⟨hfn, hl⟩ := hlen _ hf
    have hcstr : cstr files[k].1 = files[k].1 := cstr_eq_self hfn.2.1
    have hthere : (view (only m 1)).ent 1 (k + 2) = some (2 + k, files[k].1) := by
      rw [hroot, rootNames_get]
      exact Or.inr (Or.inr ⟨k, hk, rfl, by rw [hcstr]⟩)
    obtain ⟨r, fs', hopen, hdisk, ⟨i, j, n, rfl, hent, hroom, hv, hg⟩ | ⟨rfl, hno⟩⟩ := iopen_root hmt hfn hl
    · have hn : n = 2 + k := by
        have hent' := hent
        rw [hroot, rootNames_get] at hent'
        rcases hent' with ⟨-, hq⟩ | ⟨-, hq⟩ | ⟨k', hk', rfl, hq⟩ <;> simp only [Prod.mk.injEq] at hq
        · exact absurd hq.2 hfn.2.2.2.1
        · exact absurd hq.2 hfn.2.2.2.2
        · have huq := (hmt.wfDir hlen huniq).uniq (k + 2) (k' + 2) (2 + k) n files[k].1
          have hdir : (view (only m 1)).type 1 = typeDir := by rw [hmt.type, if_pos rfl]
          rw [← view_ent hdir, ← view_ent hdir] at huq
          have := huq hthere hent
          omega
      have hsize := hfits.size _ hf
      obtain ⟨x, hx, hno⟩ := hroom.get_some
      exact ⟨i, fs', hopen, hmt.iread hg hdisk hk (by omega) (by rw [hv]; exact hx) (hno.trans hn)⟩
    · exact absurd hthere (hno (k + 2) (2 + k))
  · intro name hn hl hother
    obtain ⟨r, fs', hopen, -, ⟨i, j, n, rfl, hent, -⟩ | ⟨rfl, -⟩⟩ := iopen_root hmt hn hl
    · rw [hroot, rootNames_get] at hent
      rcases hent with ⟨-, hq⟩ | ⟨-, hq⟩ | ⟨k, hk, rfl, hq⟩ <;> simp only [Prod.mk.injEq] at hq
      · exact absurd hq.2 hn.2.2.2.1
      · exact absurd hq.2 hn.2.2.2.2
      · refine absurd ?_ (hother _ (List.getElem_mem hk))
        rw [hq.2, cstr_eq_self (hname _ (List.getElem_mem hk)).2.1]
    · exact ⟨fs', hopen⟩

/-- Two files, one of them without a byte. -/
theorem image_agrees_demo : ∃ m fs, mkfs (fun _ => 0) [([97], []), ([97, 98], [1, 2, 3])] = some m ∧
    mount m = some (some 0, fs) ∧ ∃ i fs', fs.iopen 0 (slash :: [97, 98]) typeNone = some (some i, fs') ∧
      fs'.iread i 0 3 = some (some [1, 2, 3], fs') := by
  have hfits : Fits [([97], []), ([97, 98], [1, 2, 3])] := ⟨by simp, by simp, by decide, by decide⟩
  obtain ⟨m, fs, hm, hmount, -, -, -, hfile, -⟩ :=
    image_agrees (fun _ => 0) (by simp [FileName, dot, dotdot, slash]) (by simp) (List.cons_ne_nil _ _) hfits
  obtain ⟨i, fs', hopen, -, -, hread⟩ := hfile ([97, 98], [1, 2, 3]) (by simp)
  exact ⟨m, fs, hm, hmount, i, fs', hopen, hread⟩

end TinyOS.Fs
