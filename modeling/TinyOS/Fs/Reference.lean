/-
`iopen` and `iremove` against what a path means: which inode they give, what they make or remove, and
that nothing else changes.
-/
import TinyOS.Fs.Progress
import TinyOS.Fs.Placed

namespace TinyOS

open TinyOS.Lib TinyOS.Fs TinyOS.Mkfs

/-! ## The start -/

/-- The namespace of a mounted image: one directory, with a regular file for each input file. -/
theorem mounted_sound {files : List (List UInt8 × List UInt8)} {fs : Fs} (h : Mounted files fs)
    (hname : ∀ f ∈ files, FileName f.1 ∧ f.1.length ≤ 27) (huniq : (files.map Prod.fst).Nodup) : (view fs).Sound := by
  have hdel := h.not_del
  have hent : ∀ {d j e}, (view fs).ent d j = some e → d = 1 ∧ (rootNames files)[j]? = some e := fun {d j e} he => by
    rw [h.ent] at he
    split at he
    · next hd => exact ⟨hd, he⟩
    · cases he
  have hwf := h.wfDir hname huniq
  have hroot : (view fs).type 1 = typeDir := by rw [h.type, if_pos rfl]
  have hdir : ∀ {d}, (view fs).type d = typeDir → d = 1 := fun {d} hd => by
    rw [h.type] at hd
    split at hd
    · assumption
    · split at hd <;> cases hd
  have hfile : ∀ {j n nm}, (rootNames files)[j]? = some (n, nm) → nm ≠ dot → nm ≠ dotdot →
      ∃ k, ∃ hk : k < files.length, j = k + 2 ∧ n = 2 + k ∧ nm = files[k].1 := fun {j n nm} he h1 h2 => by
    rcases rootNames_get.1 he with ⟨-, hq⟩ | ⟨-, hq⟩ | ⟨k, hk, hj, hq⟩ <;> cases hq
    · exact absurd rfl h1
    · exact absurd rfl h2
    · exact ⟨k, hk, hj, rfl, cstr_eq_self (hname _ (List.getElem_mem hk)).1.2.1⟩
  refine ⟨⟨hroot, hdel 1⟩, fun _ _ _ he => type_of_ent he, fun d hd => ?_, fun d j n nm he => ?_,
    fun d j k n m nm h1 h2 => ?_, fun d j n nm he h1 h2 => ?_, fun d j d' j' n nm nm' h1 h2 h3 h4 h5 h6 => ?_⟩
  · obtain rfl := hdir hd
    rw [view_ent hroot, view_ent hroot]
    exact ⟨hwf.self, hwf.parent⟩
  · obtain ⟨rfl, he'⟩ := hent he
    by_cases h1 : nm = dot
    · exact h1 ▸ Ns.elem_dot
    by_cases h2 : nm = dotdot
    · exact h2 ▸ Ns.elem_dotdot
    obtain ⟨k, hk, -, -, rfl⟩ := hfile he' h1 h2
    obtain ⟨⟨hne, hz, hs, -⟩, hl⟩ := hname _ (List.getElem_mem hk)
    exact ⟨by omega, cstr_eq_self hz, hne, hs⟩
  · obtain ⟨rfl, -⟩ := hent h1
    rw [view_ent hroot] at h1 h2
    exact hwf.uniq j k n m nm h1 h2
  · obtain ⟨rfl, he'⟩ := hent he
    obtain ⟨k, hk, -, rfl, -⟩ := hfile he' h1 h2
    refine ⟨?_, hdel _, by omega⟩
    rw [h.type, if_neg (by omega), if_pos (by omega)]
    decide
  · obtain ⟨rfl, ha⟩ := hent h1
    obtain ⟨rfl, hb⟩ := hent h4
    obtain ⟨k, -, rfl, hk, -⟩ := hfile ha h2 h3
    obtain ⟨k', -, rfl, hk', -⟩ := hfile hb h5 h6
    exact ⟨rfl, by omega⟩

end TinyOS

namespace TinyOS.Ns

open TinyOS.Fs TinyOS.Lib

variable {s s' : Ns} {d j n i k : Nat} {nm : List UInt8}

/-- A removed inode that nobody else refers to is freed. -/
theorem Removed.freed (hr : Removed s d j n nm i s') (hn : ¬ s.Held n) : s'.type n = typeNone := by
  have hnone : s.seat i = none := by
    rcases hr.room with ⟨y, hy, hyn⟩ | ⟨hnone, -⟩
    · exact absurd ⟨i, y, hy, hyn⟩ hn
    · exact hnone
  have hget : (s.get i n).seat i = some ⟨n, 1, false⟩ := by rw [get_seat_self, hnone]; rfl
  have hT : (((s.get i n).mark i).setEnt d j none).seat i = some ⟨n, 1, true⟩ := by
    rw [setEnt_seat, mark_eq hget, setSeat_self]
  rw [hr.eq, put_last hT rfl]
  exact Function.update_self ..

/-- The other inodes keep their types. -/
theorem Removed.type (hok : s.Ok) (hr : Removed s d j n nm i s') (hk : k ≠ n) : s'.type k = s.type k := by
  obtain ⟨x, -, hxn, hokT, hxT⟩ := Removed.before hok hr
  rw [hr.eq]
  rcases put_cases hokT hxT with ⟨-, -, ht, -⟩ | ⟨-, -, ⟨-, ht, -⟩ | ⟨-, ht, -⟩⟩
  · rw [ht]
    rfl
  · rw [ht]
    rfl
  · rw [ht]
    exact Function.update_of_ne (by rw [hxn]; exact hk) ..

end TinyOS.Ns

namespace TinyOS.Fs

open TinyOS.Lib TinyOS.Mkfs

variable {fs fs' : Fs} {i j n d p t k cwd : Nat} {x : Seat} {nm path : List UInt8} {b : Bool}

/-- The invariant of the file system between system calls: it is a namespace whose directories are in
order and whose inodes in use are allocated. -/
structure WellFormed (fs : Fs) : Prop where
  good : Good fs
  live : (view fs).Live
  sound : (view fs).Sound

theorem mounted_wellFormed {files : List (List UInt8 × List UInt8)} (h : Mounted files fs)
    (hname : ∀ f ∈ files, FileName f.1 ∧ f.1.length ≤ 27) (huniq : (files.map Prod.fst).Nodup) : WellFormed fs :=
  ⟨h.good, h.live, mounted_sound h hname huniq⟩

theorem view_refs (h : Good fs) : (view fs).refs i = (fs.inodes i).ref := by
  unfold Ns.refs
  cases hs : (view fs).seat i with
  | none => exact (ref_zero h hs).symm
  | some x => exact (view_seat.1 hs).2.2.1.symm

/-- Nothing has changed on the disk or in the inode table, what a free slot holds apart. -/
structure Untouched (fs fs' : Fs) : Prop where
  disk : fs'.disk = fs.disk
  names : view fs' = view fs
  refs : ∀ i, (fs'.inodes i).ref = (fs.inodes i).ref
  active : ∀ i, 0 < (fs.inodes i).ref → fs'.inodes i = fs.inodes i

theorem untouched_of (h : Good fs) (h' : Good fs') (hv : view fs' = view fs) (hd : fs'.disk = fs.disk) :
    Untouched fs fs' := by
  have href : ∀ i, (fs'.inodes i).ref = (fs.inodes i).ref := fun i => by rw [← view_refs h, ← view_refs h', hv]
  refine ⟨hd, hv, href, fun i hi => ?_⟩
  obtain ⟨y, hy⟩ : ∃ y, (view fs).seat i = some y := ⟨⟨_, _, _⟩, view_seat.2 ⟨hi, rfl, rfl, rfl⟩⟩
  have hy' : (view fs').seat i = some y := by rw [hv]; exact hy
  obtain ⟨-, h1, h2, h3⟩ := view_seat.1 hy
  obtain ⟨-, h4, h5, h6⟩ := view_seat.1 hy'
  have hnode : (fs'.inodes i).dinode = (fs.inodes i).dinode := by rw [seat_node h' hy', seat_node h hy, hd]
  cases hi' : fs'.inodes i
  cases hi₀ : fs.inodes i
  rw [hi'] at h4 h5 h6 hnode
  rw [hi₀] at h1 h2 h3 hnode
  simp only at h1 h2 h3 h4 h5 h6 hnode
  rw [h4, h5, h6, hnode, h1, h2, h3]

/-! ## `iopen` -/

theorem Leads.unique {s : Ns} {c m : Nat} (hs : s.Distinct) (h : Leads s c path n) (h' : Leads s c path m) : n = m := by
  rcases h with ⟨hnil, -, rfl⟩ | ⟨d, nm, hp, hn⟩ <;> rcases h' with ⟨hnil', -, rfl⟩ | ⟨d', nm', hp', hn'⟩
  · rfl
  · rw [hnil] at hp'
    exact hp'.elim
  · rw [hnil'] at hp
    exact hp.elim
  · obtain ⟨rfl, rfl⟩ := hp.unique hs hp'
    exact hs d nm n m hn hn'

theorem Leads.not_missing {s : Ns} {c : Nat} (hs : s.Distinct) (h : Leads s c path n) : ¬ Missing s c path := by
  rcases h with ⟨hnil, hsl, -⟩ | ⟨d, nm, hp, hn⟩ <;> rintro (⟨hnil', hsl'⟩ | ⟨hnil', hno⟩ | ⟨d', nm', hp', hno⟩)
  · exact hsl' hsl
  · exact hnil' hnil
  · rw [hnil] at hp'
    exact hp'
  · rw [hnil'] at hp
    exact hp
  · exact hno d nm hp
  · obtain ⟨rfl, rfl⟩ := hp.unique hs hp'
    exact hno n hn

/-- The only change of the reference counts is one more reference at slot `i`, which holds inode `n`. -/
structure OneMore (fs : Fs) (i n : Nat) (fs' : Fs) : Prop where
  refs : ∀ k, (fs'.inodes k).ref = (fs.inodes k).ref + if k = i then 1 else 0
  no : (fs'.inodes i).no = n
  others : ∀ k, k ≠ i → (view fs').seat k = (view fs).seat k

theorem oneMore_of {s : Ns} (h : Good fs) (h' : Good fs') (hs : s.seat = (view fs).seat) (hroom : s.Room i n)
    (hv : view fs' = s.get i n) : OneMore fs i n fs' := by
  obtain ⟨y, hy, hyn⟩ := hroom.get_some
  refine ⟨fun k => ?_, ?_, fun k hk => ?_⟩
  · rw [← view_refs h, ← view_refs h', hv, Ns.refs_get]
    unfold Ns.refs
    rw [hs]
  · rw [← hv] at hy
    exact (seat_no hy).trans hyn
  · rw [hv, Ns.get_seat_ne hk, hs]

/-- Inode `n` of type `t` was made, with the name `nm` in directory `d`: in the first place that is empty, which
is the end of the directory when none is before it. -/
structure Made (fs : Fs) (t d j n : Nat) (nm : List UInt8) (i : Nat) (fs' : Fs) : Prop where
  created : Created (view fs) d j n t nm i (view fs')
  first : ∀ k < j, (view fs).ent d k ≠ none
  more : OneMore fs i n fs'
  others : ∀ k < 1920, k ≠ n → k ≠ d → Keeps k fs.disk fs'.disk

/-- What `iopen` does with a path that begins at inode `c`. -/
structure OpensAs (fs : Fs) (c : Nat) (path : List UInt8) (t : Nat) (r : Option Nat) (fs' : Fs) : Prop where
  good : Good fs' ∧ (view fs').Sound
  found : ∀ n, Leads (view fs) c path n → ∃ i, r = some i ∧ view fs' = (view fs).get i n ∧ OneMore fs i n fs' ∧
    fs'.disk = fs.disk
  missing : Missing (view fs) c path → (t = typeNone ∨ ∀ d nm, ¬ (view fs).Parent c (names path) d nm) →
    r = none ∧ Untouched fs fs'
  made : t ≠ typeNone → ∀ d nm, (view fs).Parent c (names path) d nm → (∀ n, ¬ (view fs).Has d nm n) →
    ∃ i j n, r = some i ∧ Made fs t d j n nm i fs'

theorem opensAs_of {r : Option Nat} (h : WellFormed fs) (hx : (view fs).seat cwd = some x) (ht : t < 2 ^ 32)
    (he : fs.iopen cwd path t = some (r, fs')) : OpensAs fs (start path x.no) path t r fs' := by
  have hdist := h.sound.distinct
  rcases iopen_resolve h.good hx he with ⟨rfl, hv, hg, hd, hmiss, hno⟩ |
    ⟨i, n, rfl, hroom, hv, hg, hlead, hd⟩ | ⟨htn, hmade⟩
  · refine ⟨⟨hg, hv ▸ h.sound⟩, fun n hn => absurd (hmiss hdist) (hn.not_missing hdist),
      fun _ _ => ⟨rfl, untouched_of h.good hg hv hd⟩, fun htn d nm hp _ => absurd hp (hno htn hdist d nm)⟩
  · refine ⟨⟨hg, hv ▸ h.sound.get⟩, fun m hm => ?_, fun hc _ => absurd hc (hlead.not_missing hdist),
      fun _ d nm hp hno => absurd (Missing.last d nm hp hno) (hlead.not_missing hdist)⟩
    obtain rfl := hlead.unique hdist hm
    exact ⟨i, rfl, hv, oneMore_of h.good hg rfl hroom hv, hd⟩
  · obtain ⟨i, d, j, n, nm, rfl, hcr, hparent, helem, hg, hfirst, hentered⟩ := hmade h.live ht
    have hlast : Missing (view fs) (start path x.no) path := .last d nm hparent fun m ⟨k, hk⟩ => hcr.unique k m hk
    refine ⟨⟨hg, hcr.eq ▸ (h.sound.create h.live hcr htn helem).get⟩, fun m hm => absurd hlast (hm.not_missing hdist),
      fun _ hc => ?_, fun _ d' nm' hp _ => ?_⟩
    · rcases hc with hc | hc
      · exact absurd hc htn
      · exact absurd hparent (hc d nm)
    · obtain ⟨rfl, rfl⟩ := hparent.unique hdist hp
      exact ⟨i, j, n, rfl, hcr, hfirst, oneMore_of h.good hg Ns.create_seat (room_create.2 hcr.room) hcr.eq,
        hentered.other⟩

/-- With slots, an inode and blocks enough, `iopen` ends, and does with the path what it means. -/
theorem iopen_exact (path : List UInt8) (h : WellFormed fs) (hx : (view fs).seat cwd = some x) (ht : t < 2 ^ 32)
    (hq : Enough fs t) :
    ∃ r fs', fs.iopen cwd path t = some (r, fs') ∧ OpensAs fs (start path x.no) path t r fs' := by
  obtain ⟨⟨r, fs'⟩, he⟩ := iopen_isSome path h.good h.live h.sound hx ht hq
  exact ⟨r, fs', he, opensAs_of h hx ht he⟩

/-- The image with the shell has blocks to spare. -/
theorem shell_image : ∃ m, mkfs (fun _ => 0) shell = some m ∧ 3 ≤ freeBlks m := by
  have hev : (mkfs (fun _ => 0) shell).map (fun m => [100, 101, 102].all fun c => !bit m c) = some true := by
    decide +kernel
  obtain ⟨m, hm, hbits⟩ := Option.map_eq_some_iff.1 hev
  refine ⟨m, hm, ?_⟩
  have hsub : [100, 101, 102].toFinset ⊆ (Finset.range 32768).filter fun c => bit m c = false := fun c hc => by
    have hc := List.mem_toFinset.1 hc
    refine Finset.mem_filter.2 ⟨Finset.mem_range.2 ?_, by simpa using List.all_eq_true.1 hbits c hc⟩
    simp only [List.mem_cons, List.not_mem_nil, or_false] at hc
    omega
  have hle := Finset.card_le_card hsub
  rw [show [100, 101, 102].toFinset.card = 3 by decide] at hle
  unfold freeBlks
  exact hle

/-- A directory is made in the root of an image with one file. -/
theorem iopen_exact_demo : ∃ fs i fs' n j, WellFormed fs ∧ fs.iopen 0 [slash, 100] typeDir = some (some i, fs') ∧
    Made fs typeDir 1 j n [100] i fs' := by
  obtain ⟨m, hm, hblk⟩ := shell_image
  obtain ⟨-, hM⟩ := mount_mounted hm
  have hw := mounted_wellFormed hM (mkfs_short shell_name hm) shell_nodup
  have hx : (view (only m 1)).seat 0 = some ⟨1, 1, false⟩ := by rw [hM.seat, if_pos rfl]
  have hnone : ∀ i, i ≠ 0 → (view (only m 1)).seat i = none := fun i hi => by rw [hM.seat, if_neg hi]
  have hroot : (view (only m 1)).type 1 = typeDir := (hM.type 1).trans (if_pos rfl)
  have hq : Enough (only m 1) typeDir :=
    ⟨⟨1, by decide, 2, by decide, by decide, hnone 1 (by decide), hnone 2 (by decide)⟩,
      fun _ => ⟨5, by decide, by decide, (hM.type 5).trans (by rw [if_neg (by decide), if_neg (by simp [shell])])⟩,
      fun _ => hblk⟩
  obtain ⟨r, fs', he, ho⟩ := iopen_exact [slash, 100] hw hx (show typeDir < 2 ^ 32 by decide) hq
  obtain ⟨i, j, n, rfl, hmade⟩ := ho.made (by decide) 1 [100] ⟨hroot, rfl, rfl⟩ fun n ⟨k, hk⟩ => by
    rw [hM.ent, if_pos rfl] at hk
    rcases rootNames_get.1 hk with ⟨-, hc⟩ | ⟨-, hc⟩ | ⟨l, hl, -, hc⟩
    · cases hc
    · cases hc
    · obtain rfl : l = 0 := Nat.lt_one_iff.1 hl
      cases (Prod.mk.inj hc).2
  exact ⟨_, i, fs', n, j, hw, he, hmade⟩

/-! ## `iremove` -/

/-- The entry `j` of directory `d` that the path leads to, the name `nm` of inode `n`, is zeroed. The inode is
freed when nothing refers to it, with all its blocks. -/
structure Unlinked (fs : Fs) (c : Nat) (path : List UInt8) (d j n : Nat) (nm : List UInt8) (fs' : Fs) : Prop where
  parent : (view fs).Parent c (names path) d nm
  entry : (view fs).ent d j = some (n, nm)
  notDots : nm ≠ dot ∧ nm ≠ dotdot
  zeroed : ∀ o, byteAt fs'.disk d o = if 32 * j ≤ o ∧ o < 32 * j + 32 then 0 else byteAt fs.disk d o
  dir : (node fs'.disk d).size = (node fs.disk d).size ∧ (view fs').type d = typeDir
  others : ∀ k < 1920, k ≠ d → k ≠ n → Keeps k fs.disk fs'.disk
  refs : ∀ i, (fs'.inodes i).ref = (fs.inodes i).ref
  held : (view fs).Held n → Keeps n fs.disk fs'.disk ∧ (node fs'.disk n).type ≠ typeNone
  freed : ¬ (view fs).Held n → (node fs'.disk n).type = typeNone ∧ ∀ k, blk fs'.disk n k = 0

theorem patch_zeros {o c : Nat} (y : UInt8) : (patch c (List.replicate direntSize 0) o).getD y =
    if c ≤ o ∧ o < c + 32 then 0 else y := by
  have hlen : (List.replicate direntSize (0 : UInt8)).length = 32 := List.length_replicate
  by_cases h : c ≤ o ∧ o < c + 32
  · rw [if_pos h, patch_in h.1 (by rw [hlen]; exact h.2), Option.getD_some, List.getD_eq_getElem?_getD]
    rw [List.getElem?_replicate]
    split <;> rfl
  · rw [if_neg h, patch_out (by rw [hlen]; omega)]
    rfl

theorem blk_zero (h : Good fs) (hn : n < 1920) (ht : (node fs.disk n).type = typeNone) : blk fs.disk n k = 0 := by
  have hz := h.inv.owned.none n hn ht
  by_cases hk : k < 12
  · rw [blk_direct hk, hz]
  · exact blk_none (by omega) (hz 12)

/-- A removal that is refused leaves everything as it was, and is refused for a reason; any other one zeroes one
entry. With two free slots in the inode table it ends. -/
theorem iremove_exact (h : WellFormed fs) (hx : (view fs).seat cwd = some x) :
    (∀ b fs', fs.iremove cwd path = some (b, fs') →
      WellFormed fs' ∧ (b = false ↔ Refused (view fs) (start path x.no) path) ∧ (b = false → Untouched fs fs') ∧
        (b = true → ∃ d j n nm, Unlinked fs (start path x.no) path d j n nm fs')) ∧
      ((view fs).TwoFree → ∃ b fs', fs.iremove cwd path = some (b, fs')) := by
  have hdist := h.sound.distinct
  have hnamed := h.sound.named (start path x.no)
  refine ⟨fun b fs' he => ?_, fun hfree => ?_⟩
  swap
  · obtain ⟨⟨b, fs'⟩, he⟩ := iremove_isSome h.good hx hnamed hfree
    exact ⟨b, fs', he⟩
  rcases iremove_resolve h.good hx hnamed he with ⟨rfl, hv, hg, hd, hwhy⟩ |
    ⟨rfl, d, j, n, nm, i, hr, hparent, hg, hcl, -⟩
  · exact ⟨⟨hg, hv ▸ h.live, hv ▸ h.sound⟩, ⟨fun _ => hwhy hdist, fun _ => rfl⟩, fun _ => untouched_of h.good hg hv hd,
      fun hc => by cases hc⟩
  have htn := (h.sound.target d j n nm hr.ent hr.notDot hr.notDotdot).1
  have hn := lt_of_type htn
  have hnd : d ≠ n := fun hc => (h.good.ent d j n nm hr.ent).2 hr.notDot hr.notDotdot hc.symm
  refine ⟨⟨hg, h.live.unlink h.good.ok hr htn, h.sound.unlink h.good.ok hr⟩, ⟨fun hc => (by cases hc), fun hno => ?_⟩,
    fun hc => (by cases hc), fun _ => ⟨d, j, n, nm, hparent, hr.ent, ⟨hr.notDot, hr.notDotdot⟩, fun o => ?_,
      ⟨hcl.size, (Ns.Removed.type h.good.ok hr hnd).trans hr.dir⟩, hcl.other, fun k => ?_, fun hheld =>
        ?_, fun hheld => ?_⟩⟩
  · -- no reason to refuse applies to what was removed
    exfalso
    rcases hno with hno | ⟨d', nm', hp, hdots⟩ | ⟨d', nm', hp, hmiss⟩ | ⟨d', n', k, nm', hp, hhas, ht, hk, hent⟩
    · exact hno d nm hparent
    · obtain ⟨-, rfl⟩ := hparent.unique hdist hp
      rcases hdots with hc | hc
      · exact hr.notDot hc
      · exact hr.notDotdot hc
    · obtain ⟨rfl, rfl⟩ := hparent.unique hdist hp
      exact hmiss n ⟨j, hr.ent⟩
    · obtain ⟨rfl, rfl⟩ := hparent.unique hdist hp
      obtain rfl := hdist d nm n n' ⟨j, hr.ent⟩ hhas
      exact hent (hr.empty ht k hk)
  · rw [hcl.bytes, patch_zeros]
  · rw [← view_refs hg, ← view_refs h.good]
    exact Ns.Removed.refs h.good.ok hr
  · have hkeep := hcl.held hheld
    refine ⟨hkeep, ?_⟩
    rw [hkeep.node, ← view_type hn]
    exact htn
  · have hfreed := Ns.Removed.freed hr hheld
    rw [view_type hn] at hfreed
    exact ⟨hfreed, fun k => blk_zero hg hn hfreed⟩

/-- The file "a" of an image is removed. Nobody has it open, so its inode is freed. -/
theorem iremove_exact_demo : ∃ fs fs' d j nm, WellFormed fs ∧ fs.iremove 0 [slash, 97] = some (true, fs') ∧
    WellFormed fs' ∧ Unlinked fs 1 [slash, 97] d j 2 nm fs' ∧ (node fs'.disk 2).type = typeNone := by
  have hname : ∀ f ∈ [(([97], [1, 2, 3]) : List UInt8 × List UInt8)], FileName f.1 ∧ f.1.length ≤ 27 := fun f hf => by
    obtain rfl := List.mem_singleton.1 hf
    exact ⟨⟨by simp, by simp, by simp [slash], by simp [dot], by simp [dotdot]⟩, by simp⟩
  have hfits : Fits [([97], [1, 2, 3])] :=
    ⟨fun f hf => Nat.lt_succ_of_le (hname f hf).2, fun f hf => by
      obtain rfl := List.mem_singleton.1 hf
      exact Nat.le_of_lt (by decide), by decide, by decide⟩
  obtain ⟨m, hm⟩ := mkfs_fits (fun _ => 0) (List.cons_ne_nil _ _) hfits
  obtain ⟨-, hM⟩ := mount_mounted hm
  have hw := mounted_wellFormed hM hname (List.nodup_singleton _)
  have hx : (view (only m 1)).seat 0 = some ⟨1, 1, false⟩ := by rw [hM.seat, if_pos rfl]
  have hnone : ∀ i, i ≠ 0 → (view (only m 1)).seat i = none := fun i hi => by rw [hM.seat, if_neg hi]
  obtain ⟨hexact, hret⟩ := @iremove_exact _ _ _ [slash, 97] hw hx
  obtain ⟨b, fs', he⟩ := hret ⟨1, by decide, 2, by decide, by decide, hnone 1 (by decide), hnone 2 (by decide)⟩
  obtain ⟨hw', hno, -, hyes⟩ := hexact b fs' he
  -- the root has the name, for a file
  have hroot : (view (only m 1)).type 1 = typeDir := (hM.type 1).trans (if_pos rfl)
  have hfile : (view (only m 1)).type 2 = typeFile := (hM.type 2).trans (by rw [if_neg (by decide), if_pos (by simp)])
  have hp : (view (only m 1)).Parent (start [slash, 97] 1) (names [slash, 97]) 1 [97] := ⟨hroot, rfl, rfl⟩
  have hhas : (view (only m 1)).Has 1 [97] 2 := by
    refine ⟨2, (hM.ent 1 2).trans ?_⟩
    rw [if_pos rfl]
    rfl
  have hdist := hw.sound.distinct
  have hb : b = true := by
    rw [← Bool.not_eq_false, hno]
    rintro (hc | ⟨d, nm, hq, hdots⟩ | ⟨d, nm, hq, hmiss⟩ | ⟨d, n, k, nm, hq, hn, ht, -, -⟩)
    · exact hc 1 [97] hp
    · obtain ⟨-, rfl⟩ := hp.unique hdist hq
      exact absurd hdots (by decide)
    · obtain ⟨rfl, rfl⟩ := hp.unique hdist hq
      exact hmiss 2 hhas
    · obtain ⟨rfl, rfl⟩ := hp.unique hdist hq
      obtain rfl := hdist _ _ _ _ hhas hn
      rw [hfile] at ht
      cases ht
  subst hb
  obtain ⟨d, j, n, nm, hu⟩ := hyes rfl
  obtain ⟨rfl, rfl⟩ := hp.unique hdist hu.parent
  obtain rfl := hdist _ _ _ _ hhas ⟨j, hu.entry⟩
  have hheld : ¬ (view (only m 1)).Held 2 := by
    rintro ⟨i, y, hy, hyn⟩
    rw [hM.seat] at hy
    split at hy <;> cases hy
    cases hyn
  exact ⟨_, fs', _, j, _, hw, he, hw', hu, (hu.freed hheld).1⟩

/-! ## A full inode table -/

/-- When every slot holds another inode, the name of an inode that no slot holds cannot be removed. -/
theorem iremove_none (h : Good fs) (hx : (view fs).seat cwd = some x) (hdist : (view fs).Distinct)
    (hfull : ∀ i < inodeNum, ∃ y, (view fs).seat i = some y ∧ y.no ≠ n)
    (hp : (view fs).Parent (start path x.no) (names path) d nm) (hn : (view fs).Has d nm n)
    (hdots : ¬ (nm = dot ∨ nm = dotdot)) :
    fs.iremove cwd path = none := by
  cases he : fs.iremove cwd path with
  | none => rfl
  | some q =>
    exfalso
    unfold iremove at he
    obtain ⟨⟨w, fs₁⟩, hpar, he₁⟩ := Option.bind_eq_some_iff.1 he
    obtain ⟨-, ⟨rfl, -, -, hno⟩ | ⟨p, e, nm', rfl, hroom, hv, hg, hparent, -, helem⟩⟩ := iopenParent_view h hx hpar
    · exact hno hdist d nm hp
    obtain ⟨rfl, rfl⟩ := hp.unique hdist hparent
    simp only [helem.cstr] at he₁
    rw [if_neg hdots] at he₁
    obtain ⟨⟨r, fs₂⟩, hlook, -⟩ := Option.bind_eq_some_iff.1 he₁
    obtain ⟨y, hy, hyd⟩ := hroom.get_some
    have hy₁ : (view fs₁).seat p = some y := by rw [hv]; exact hy
    obtain ⟨-, ⟨i, j, n', rfl, hent, hroom₁, hv₁, hg₁, -⟩ | ⟨rfl, -, rfl, hno⟩ | ⟨hbad, -⟩⟩ :=
      ilookup_view hg hy₁ helem.len hlook
    · rw [hv] at hent hroom₁ hv₁
      rw [hyd, helem.cstr] at hent
      obtain rfl := hdist d nm n n' hn ⟨j, hent⟩
      obtain ⟨z, hz, -⟩ := hroom₁.get_some
      rw [← hv₁] at hz
      obtain ⟨w, hw, hwn⟩ := hfull i (hg₁.inv.table.small i (view_seat.1 hz).1)
      -- the slot is taken, by another inode
      have hi : ∃ v, ((view fs).get p d).seat i = some v ∧ v.no ≠ n := by
        by_cases hip : i = p
        · subst hip
          refine ⟨y, hy, ?_⟩
          rw [Ns.get_seat_self, hw] at hy
          cases hy
          exact hwn
        · exact ⟨w, by rw [Ns.get_seat_ne hip]; exact hw, hwn⟩
      obtain ⟨v, hv', hvn⟩ := hi
      rcases hroom₁ with ⟨u, hu, hun⟩ | ⟨hu, -⟩
      · rw [hv'] at hu
        cases hu
        exact hvn hun
      · rw [hv'] at hu
        cases hu
    · obtain ⟨k, hk⟩ := hn
      refine hno k n ?_
      rw [hv, hyd, helem.cstr]
      exact hk
    · exact absurd rfl hbad

/-- A disk with the inodes 1 to 128 in use. -/
def crowded (m : Store) : Fs :=
  ⟨Super.std, m, fun i => if i < inodeNum then ⟨i + 1, 1, false, node m (i + 1)⟩ else ⟨0, 0, false, Dinode.zero⟩⟩

theorem crowded_seat {m : Store} :
    (view (crowded m)).seat i = if i < inodeNum then some ⟨i + 1, 1, false⟩ else none := by
  show seatOf (if i < inodeNum then (⟨i + 1, 1, false, node m (i + 1)⟩ : Inode) else ⟨0, 0, false, Dinode.zero⟩) = _
  split
  · rfl
  · rfl

theorem crowded_wellFormed {m : Store} {files : List (List UInt8 × List UInt8)} (h : Mounted files (only m 1))
    (hname : ∀ f ∈ files, FileName f.1 ∧ f.1.length ≤ 27) (huniq : (files.map Prod.fst).Nodup)
    (hlen : 127 ≤ files.length) :
    WellFormed (crowded m) := by
  have hin : ∀ i, 0 < ((crowded m).inodes i).ref → i < inodeNum ∧
      (crowded m).inodes i = ⟨i + 1, 1, false, node m (i + 1)⟩ :=
    fun i hi => by
      have hc : (crowded m).inodes i =
        if i < inodeNum then ⟨i + 1, 1, false, node m (i + 1)⟩ else ⟨0, 0, false, Dinode.zero⟩ := rfl
      rw [hc] at hi ⊢
      split at hi
      · next hlt => exact ⟨hlt, if_pos hlt⟩
      · exact absurd hi (lt_irrefl 0)
  refine ⟨h.good.of_table rfl rfl ⟨fun i => ?_, fun i hi => (hin i hi).1, fun i hi => ?_, fun i hi => ?_,
    fun i j hi hj hij => ?_⟩, fun n hn => ?_, (mounted_sound h hname huniq).congr rfl rfl fun n hn => ?_⟩
  · show 0 ≤ (if i < inodeNum then (⟨i + 1, 1, false, node m (i + 1)⟩ : Inode) else ⟨0, 0, false, Dinode.zero⟩).ref
    split
    · exact Int.one_nonneg
    · exact le_rfl
  · rw [(hin i hi).2]
    have := (hin i hi).1
    exact ⟨Nat.succ_pos i, show i + 1 < 1920 by simp only [inodeNum] at this; omega⟩
  · rw [(hin i hi).2]
    rfl
  · rw [(hin i hi).2, (hin j hj).2] at hij
    exact Nat.succ.inj hij
  · obtain ⟨i, y, hy, rfl⟩ := hn
    rw [crowded_seat] at hy
    split at hy
    · next hlt =>
      cases hy
      have hty : (view (crowded m)).type (i + 1) = (view (only m 1)).type (i + 1) := rfl
      simp only [inodeNum] at hlt
      rw [hty, h.type]
      split
      · decide
      · rw [if_pos (by omega)]
        decide
    · cases hy
  · obtain ⟨i, y, hy, -, hdel⟩ := hn
    rw [crowded_seat] at hy
    split at hy <;> cases hy
    cases hdel

/-- 128 files with names of one character. -/
def manyFiles : List (List UInt8 × List UInt8) := (List.range 128).map fun k => ([UInt8.ofNat (k + 100)], [])

theorem manyFiles_name : ∀ f ∈ manyFiles, FileName f.1 ∧ f.1.length ≤ 27 := fun f hf => by
  obtain ⟨k, hk, rfl⟩ := List.mem_map.1 hf
  have key : ∀ k < 128, (0 : UInt8) ≠ UInt8.ofNat (k + 100) ∧ slash ≠ UInt8.ofNat (k + 100) ∧
      (46 : UInt8) ≠ UInt8.ofNat (k + 100) := by
    decide
  obtain ⟨h1, h2, h3⟩ := key k (List.mem_range.1 hk)
  refine ⟨⟨List.cons_ne_nil _ _, by simpa using h1, by simpa using h2, fun hc => h3 ?_, fun hc => ?_⟩,
    show 1 ≤ 27 by decide⟩
  · exact (List.cons.inj hc).1.symm
  · cases (List.cons.inj hc).2

theorem manyFiles_nodup : (manyFiles.map Prod.fst).Nodup := by
  decide +kernel

/-- With a full inode table the kernel stops in the middle of a removal. -/
theorem iremove_overflow : ¬ ∀ (fs : Fs) (cwd : Nat) (x : Seat) (path : List UInt8), WellFormed fs →
    (view fs).seat cwd = some x →
    ∃ b fs', fs.iremove cwd path = some (b, fs') ∧ (b = false ↔ Refused (view fs) (start path x.no) path) := by
  intro hall
  have hfits : Fits manyFiles := ⟨fun f hf => Nat.lt_succ_of_le (manyFiles_name f hf).2, fun f hf => by
    obtain ⟨k, -, rfl⟩ := List.mem_map.1 hf
    exact Nat.zero_le _, by decide +kernel, by decide +kernel⟩
  obtain ⟨m, hm⟩ := mkfs_fits (fun _ => 0) (by decide +kernel) hfits
  obtain ⟨-, hM⟩ := mount_mounted hm
  have hw := crowded_wellFormed hM manyFiles_name manyFiles_nodup (by decide +kernel)
  have hx : (view (crowded m)).seat 0 = some ⟨1, 1, false⟩ := by
    rw [crowded_seat]
    rfl
  obtain ⟨b, fs', he, -⟩ := hall (crowded m) 0 _ [slash, 227] hw hx
  have hroot : (view (crowded m)).type 1 = typeDir := (hM.type 1).trans (if_pos rfl)
  have hp : (view (crowded m)).Parent (start [slash, 227] 1) (names [slash, 227]) 1 [227] := ⟨hroot, rfl, rfl⟩
  have hn : (view (crowded m)).Has 1 [227] 129 := by
    refine ⟨129, (hM.ent 1 129).trans ?_⟩
    rw [if_pos rfl]
    exact rootNames_get.2 (Or.inr (Or.inr ⟨127, by decide +kernel, rfl, by decide +kernel⟩))
  rw [iremove_none hw.good hx hw.sound.distinct (n := 129) (fun i hi => ⟨_, by rw [crowded_seat, if_pos hi], ?_⟩) hp hn
    (by decide)] at he
  · cases he
  · show i + 1 ≠ 129
    simp only [inodeNum] at hi
    omega

end TinyOS.Fs
