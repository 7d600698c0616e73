/-
The operations on paths come to an end: they fail in no assertion when two slots of the inode table are
free, and where they make something, when an inode and three blocks are free too.
-/
import TinyOS.Fs.Agree
import TinyOS.Fs.Sound

namespace TinyOS

/-- Two slots of the inode table are free. -/
def Ns.TwoFree (s : Ns) : Prop := ∃ a < Fs.inodeNum, ∃ b < Fs.inodeNum, a ≠ b ∧ s.seat a = none ∧ s.seat b = none

namespace Fs

open TinyOS.Lib

variable {fs fs' : Fs} {s : Ns} {i j n c d p t k cwd : Nat} {x y : Seat} {nm name path : List UInt8}

/-! ## Free slots -/

theorem ref_zero (h : Good fs) (hs : (view fs).seat k = none) : (fs.inodes k).ref = 0 := by
  have h1 := view_seat_none.1 hs
  have h2 := h.inv.table.ref k
  omega

theorem exists_free_get (h : s.TwoFree) (i n : Nat) : ∃ a < inodeNum, (s.get i n).seat a = none := by
  obtain ⟨a, ha, b, hb, hab, h1, h2⟩ := h
  by_cases hai : a = i
  · refine ⟨b, hb, ?_⟩
    rw [Ns.get_seat_ne fun hbi => hab (hai.trans hbi.symm)]
    exact h2
  · refine ⟨a, ha, ?_⟩
    rw [Ns.get_seat_ne hai]
    exact h1

/-- Looking a name up in a directory to which one more reference was taken. -/
theorem lookup_isSome (h : Good fs) (hv : view fs = s.get p d) (hfree : s.TwoFree) (hx : (view fs).seat p = some x)
    (hd : (view fs).type x.no = typeDir) (name : List UInt8) : ∃ r, fs.ilookup p name typeNone = some r := by
  obtain ⟨a, ha, hs⟩ := exists_free_get hfree p d
  rw [← hv] at hs
  obtain ⟨r, fs', h1, -⟩ : ∃ r fs', fs.ilookup p name typeNone = some (r, fs') ∧ fs'.disk = fs.disk :=
    ilookup_isSome h hx hd ha (ref_zero h hs)
  exact ⟨_, h1⟩

/-! ## The walk -/

theorem iopenParentLoop_isSome (hs : s.Ok) (hfree : s.TwoFree) :
    ∀ {fuel : Nat} {fs : Fs} {i c : Nat} {path : List UInt8},
    path.length < fuel → Good fs → s.Room i c → view fs = s.get i c → ∃ r, iopenParentLoop fuel fs i path = some r
  | 0, _, _, _, _, hf, _, _, _ => absurd hf (Nat.not_lt_zero _)
  | fuel + 1, fs, i, c, path, hf, h, hroom, hv => by
    obtain ⟨x, hx, hxc⟩ := hroom.get_some
    rw [← hv] at hx
    obtain ⟨fs₀, hcl₀, -⟩ := iclose_get hs h hroom hv
    unfold iopenParentLoop
    split
    · rw [hcl₀]
      exact ⟨_, rfl⟩
    next nm rest hskip =>
    obtain ⟨helem, hshort⟩ := skipelem_some hskip
    rw [seat_type h hx]
    by_cases hdir : (view fs).type x.no = typeDir
    swap
    · rw [if_pos hdir, hcl₀]
      exact ⟨_, rfl⟩
    rw [if_neg (not_not.2 hdir)]
    by_cases hlast : rest.headD 0 = 0
    · rw [if_pos hlast]
      exact ⟨_, rfl⟩
    rw [if_neg hlast]
    obtain ⟨⟨next, fs₁⟩, hlook⟩ := lookup_isSome h hv hfree hx hdir nm
    simp only [Option.bind_eq_bind, hlook, Option.bind_some]
    obtain ⟨-, ⟨j, k, n, rfl, hent, hroom₁, hv₁, hg₁, -⟩ | ⟨rfl, -, rfl, -⟩ | ⟨hbad, -⟩⟩ :=
      ilookup_view h hx helem.len hlook
    · rw [hv] at hroom₁ hv₁
      obtain ⟨-, hroom₂⟩ := Ns.put_get_get hs hroom hroom₁
      obtain ⟨fs₃, h1, h2, h3, -⟩ := iclose_get_get hs hg₁ hroom hroom₁ hv₁
      rw [h1]
      exact iopenParentLoop_isSome hs hfree (by omega) h3 hroom₂ h2
    · rw [hcl₀]
      exact ⟨_, rfl⟩
    · exact absurd rfl hbad

theorem iopenParent_isSome (path : List UInt8) (h : Good fs) (hx : (view fs).seat cwd = some x)
    (hfree : (view fs).TwoFree) :
    ∃ r, fs.iopenParent cwd path = some r := by
  unfold iopenParent
  by_cases hs : path.headD 0 = slash
  · obtain ⟨a, ha, -, -, -, hfa, -⟩ := id hfree
    obtain ⟨i, fs₁, hget⟩ := iget_isSome (n := 1) h ha (ref_zero h hfa)
    rw [if_pos hs, h.inv.sb]
    obtain ⟨hroom, hv, hg, -⟩ := iget_view h (by decide) (by decide) hget
    obtain ⟨r, hr⟩ := iopenParentLoop_isSome h.ok hfree (Nat.lt_succ_self path.length) hg hroom hv
    exact ⟨r, by rw [show fs.iget Super.std.root = _ from hget]; exact hr⟩
  · rw [if_neg hs]
    obtain ⟨hv, hg⟩ := idup_view h hx
    exact iopenParentLoop_isSome h.ok hfree (Nat.lt_succ_self path.length) hg (Or.inl ⟨x, hx, rfl⟩) hv

/-! ## `iopen` -/

/-- A directory in which all the first `j` places are taken is not full: no inode has two names. -/
theorem slots_le (hs : s.Sound) (hent : ∀ d j c nm, s.ent d j = some (c, nm) → c < 1920) (hd : s.type d = typeDir)
    (hfull : ∀ k < j, s.ent d k ≠ none) : j ≤ 1922 := by
  obtain ⟨h0, e, h1⟩ := hs.dir d hd
  have hsome : ∀ k, k < j → ∃ c nm, s.ent d k = some (c, nm) := fun k hk => by
    obtain ⟨q, hq⟩ := Option.ne_none_iff_exists'.1 (hfull k hk)
    exact ⟨q.1, q.2, hq⟩
  have hname : ∀ k c nm, 2 ≤ k → s.ent d k = some (c, nm) → nm ≠ dot ∧ nm ≠ dotdot := fun k c nm hk he => by
    constructor
    · rintro rfl
      have := hs.uniq d 0 k _ _ _ h0 he
      omega
    · rintro rfl
      have := hs.uniq d 1 k _ _ _ h1 he
      omega
  have hle : (Finset.Ico 2 j).card ≤ (Finset.range 1920).card := by
    refine Finset.card_le_card_of_injOn (fun k => (s.ent d k).elim 0 Prod.fst) (fun k hk => ?_) fun k hk l hl hkl => ?_
    · obtain ⟨-, hkj⟩ := Finset.mem_Ico.1 hk
      obtain ⟨c, nm, hc⟩ := hsome k hkj
      show (s.ent d k).elim 0 Prod.fst ∈ Finset.range 1920
      rw [hc]
      exact Finset.mem_range.2 (hent d k c nm hc)
    · obtain ⟨hk2, hkj⟩ := Finset.mem_Ico.1 hk
      obtain ⟨hl2, hlj⟩ := Finset.mem_Ico.1 hl
      obtain ⟨c, nm, hc⟩ := hsome k hkj
      obtain ⟨c', nm', hc'⟩ := hsome l hlj
      simp only [hc, hc', Option.elim_some] at hkl
      subst hkl
      obtain ⟨h3, h4⟩ := hname k c nm hk2 hc
      obtain ⟨h5, h6⟩ := hname l c nm' hl2 hc'
      exact (hs.one d k d l c nm nm' hc h3 h4 hc' h5 h6).2
  rw [Nat.card_Ico, Finset.card_range] at hle
  omega

/-- The bytes of an entry lie in one block. -/
theorem need_entry (m : Store) (n j : Nat) : need m n (touched (32 * j) 32) ≤ 2 ∧
    (32 * j < 12 * 4096 → need m n (touched (32 * j) 32) ≤ 1) := by
  have hsub : touched (32 * j) 32 ⊆ {32 * j / 4096} := fun k hk => by
    obtain ⟨o, h1, h2, rfl⟩ := mem_touched.1 hk
    rw [Finset.mem_singleton]
    omega
  have hone : ((touched (32 * j) 32).filter fun k => blk m n k = 0).card ≤ 1 :=
    (Finset.card_le_card (Finset.filter_subset _ _)).trans
      ((Finset.card_le_card hsub).trans (Finset.card_singleton _).le)
  unfold need
  constructor
  · split <;> omega
  · intro hj
    rw [if_neg]
    · omega
    · rintro ⟨-, k, hk, h12⟩
      have := Finset.mem_singleton.1 (hsub hk)
      omega

theorem diallocLoop_isSome (hsb : fs.sb = Super.std) (ht : t < 2 ^ 32) (hn : n < 1920)
    (hnone : (node fs.disk n).type = typeNone) :
    ∀ {k l : Nat}, l ≤ n → n < l + k → ∃ r, fs.diallocLoop t k l = some r
  | 0, l, h1, h2 => by omega
  | k + 1, l, h1, h2 => by
    unfold diallocLoop
    rw [diread_eq hsb]
    simp only [Option.bind_eq_bind, Option.bind_some]
    split
    · have hfit : Dinode.Fits ⟨t, 0, 0, fun _ => 0⟩ :=
        ⟨ht, show 0 < 2 ^ 32 by decide, show 0 < 2 ^ 32 by decide, fun _ => show 0 < 2 ^ 32 by decide, fun _ _ => rfl⟩
      obtain ⟨m', hw, -⟩ := diwrite_eq (n := l) hsb (by omega) hfit
      rw [hw]
      exact ⟨_, rfl⟩
    · next hl =>
      have hnl : n ≠ l := fun hc => hl (hc ▸ hnone)
      exact diallocLoop_isSome hsb ht hn hnone (by omega) (by omega)

/-- `dialloc` takes no block, and the new inode has none. -/
theorem dialloc_node (h : Good fs) (ht : t < 2 ^ 32) (he : fs.dialloc t = some (n, fs')) :
    freeBlks fs'.disk = freeBlks fs.disk ∧ (node fs'.disk n).size = 0 := by
  unfold dialloc at he
  rw [h.inv.sb] at he
  obtain ⟨h1, h2, -, hw⟩ := diallocLoop_some h.inv.sb he
  have hlt : n < 1920 := by simp only [Super.std] at h2; omega
  have hfit : Dinode.Fits ⟨t, 0, 0, fun _ => 0⟩ :=
    ⟨ht, show 0 < 2 ^ 32 by decide, show 0 < 2 ^ 32 by decide, fun _ => show 0 < 2 ^ 32 by decide, fun _ _ => rfl⟩
  obtain ⟨m', hw', hset⟩ := diwrite_eq h.inv.sb hlt hfit
  obtain rfl : { fs with disk := m' } = fs' := Option.some.inj (hw'.symm.trans hw)
  exact ⟨hset.freeBlks, by rw [hset.self]⟩

theorem idirinit_isSome (h : Good fs) (hx : (view fs).seat i = some x) (hy : (view fs).seat p = some y)
    (htx : (view fs).type x.no = typeDir) (hty : (view fs).type y.no = typeDir) (hsize : (node fs.disk x.no).size = 0)
    (hfree : 1 ≤ freeBlks fs.disk) : ∃ fs', fs.idirinit i p = some fs' := by
  have hl := h.layer hx (htx.symm ▸ by decide)
  have hxlt := (h.seat_lt hx).2
  have hylt := (h.seat_lt hy).2
  have hzero : Dirent.zero.name.length = 28 := List.length_replicate
  have hdot : (strcpy Dirent.zero.name dot).length = 28 := strcpy_length (by rw [hzero]; decide)
  have hdotdot : (strcpy (strcpy Dirent.zero.name dot) dotdot).length = 28 := strcpy_length (by rw [hdot]; decide)
  have hlen : ∀ {e : Dirent}, e.name.length = 28 → e.bytes.length = 32 := fun he => Dirent.bytes_length he
  unfold idirinit
  simp only [seat_no hx, seat_node h hx, seat_node h hy]
  rw [if_neg (not_not.2 ((view_type hxlt).symm.trans htx)), if_neg (not_not.2 ((view_type hylt).symm.trans hty)),
    if_neg (not_not.2 hsize)]
  simp only [Option.bind_eq_bind, Option.pure_def]
  have hneed := (need_entry fs.disk x.no 0).2 (by omega)
  obtain ⟨⟨r₁, fs₁⟩, hw₁⟩ : ∃ q, fs.iwrite i (32 * 0) (⟨x.no, strcpy Dirent.zero.name dot⟩ : Dirent).bytes = some q :=
    Option.isSome_iff_exists.1 (iwrite_isSome hl.inv hl.active (by omega) (by rw [hlen hdot]; omega)
      (by rw [hlen hdot]; omega))
  have hw₁' := hw₁
  rw [Nat.mul_zero] at hw₁'
  rw [hw₁', Option.bind_some]
  obtain ⟨hv₁, hg₁, hs₁, -⟩ := iwrite_ent (j := 0) h hx htx (Nat.zero_le _) hdot hxlt (fun hc =>
    absurd cstr_strcpy hc) hw₁
  have hx₁ : (view fs₁).seat i = some x := by rw [hv₁]; exact hx
  have hy₁ : (view fs₁).seat p = some y := by rw [hv₁]; exact hy
  have htx₁ : (view fs₁).type x.no = typeDir := by rw [hv₁]; exact htx
  have hfit : 32 * 1 ≤ (node fs₁.disk x.no).size := by omega
  have hl₁ := hg₁.layer hx₁ (htx₁.symm ▸ by decide)
  -- the second entry lies in the block of the first
  have hb : blk fs₁.disk x.no 0 ≠ 0 := hg₁.mapped x.no hxlt 0 (by rw [Nat.zero_mul]; omega)
  have hneed₁ : need fs₁.disk x.no (touched (32 * 1) 32) = 0 := by
    have htouch : ∀ k ∈ touched (32 * 1) 32, k = 0 := fun k hk => by
      obtain ⟨o, h1, h2, rfl⟩ := mem_touched.1 hk
      omega
    unfold need
    rw [Finset.filter_false_of_mem fun k hk => by rw [htouch k hk]; exact hb, if_neg]
    · rfl
    · rintro ⟨-, k, hk, h12⟩
      have := htouch k hk
      omega
  obtain ⟨⟨r₂, fs₂⟩, hw₂⟩ : ∃ q, fs₁.iwrite i (32 * 1)
      (⟨y.no, strcpy (strcpy Dirent.zero.name dot) dotdot⟩ : Dirent).bytes = some q :=
    Option.isSome_iff_exists.1 (iwrite_isSome hl₁.inv hl₁.active hfit (by rw [hlen hdotdot]; omega)
      (by rw [hlen hdotdot, hneed₁]; exact Nat.zero_le _))
  rw [seat_no hy₁]
  have hw₂' : fs₁.iwrite i direntSize _ = some (r₂, fs₂) := hw₂
  rw [hw₂']
  exact ⟨fs₂, rfl⟩

/-- `ilookup` ends when a slot is free, and when it makes something, an inode and three blocks too. -/
theorem create_isSome (h : Good fs) (hl : (view fs).Live) (hs : (view fs).Sound) (hx : (view fs).seat p = some x)
    (hdir : (view fs).type x.no = typeDir) (hname : name.length < 28) (ht : t < 2 ^ 32) {a : Nat} (ha : a < inodeNum)
    (hfree : (view fs).seat a = none) (hinode : ∃ n, 0 < n ∧ n < 1920 ∧ (view fs).type n = typeNone)
    (hblk : 3 ≤ freeBlks fs.disk) : ∃ r, fs.ilookup p name t = some r := by
  have hxlt := (h.seat_lt hx).2
  have hlx := h.layer hx (hdir.symm ▸ by decide)
  have hdir' : (node fs.disk x.no).type = typeDir := by rw [← view_type hxlt]; exact hdir
  have hrec : (node fs.disk x.no).size / direntSize = (node fs.disk x.no).size / 32 := rfl
  obtain ⟨w, hscan, hw⟩ := ilookupLoop_eq name hlx (h.size x.no hxlt hdir')
    ((node fs.disk x.no).size / direntSize + 2) 0 Dirent.zero (node fs.disk x.no).size (Nat.zero_le _) (by omega)
    List.length_replicate
  rw [Nat.mul_zero] at hscan
  unfold ilookup
  rw [seat_type h hx, seat_node h hx, if_neg (not_not.2 hdir)]
  simp only [Option.bind_eq_bind, hscan, Option.bind_some]
  cases w with
  | found off no =>
    obtain ⟨i, fs₁, hg⟩ := iget_isSome (n := no) h ha (ref_zero h hfree)
    simp only [hg, Option.bind_some]
    exact ⟨_, rfl⟩
  | missing e empty =>
    obtain ⟨-, hlen, -, hempty⟩ := hw
    obtain ⟨j, rfl, hj, hnone, hfirst⟩ := hempty rfl
    simp only
    by_cases htn : t = typeNone
    · rw [if_pos htn]
      exact ⟨_, rfl⟩
    rw [if_neg htn]
    have hj' : j ≤ 1922 := slots_le hs (fun d j c nm hc => (h.ent d j c nm hc).1) hdir fun k hk => by
      rw [view_ent hdir]
      exact hfirst k (Nat.zero_le k) hk
    obtain ⟨n₀, h0, h1, h2⟩ := hinode
    rw [view_type h1] at h2
    obtain ⟨⟨n, fs₁⟩, hal⟩ : ∃ r, fs.dialloc t = some r := by
      unfold dialloc
      rw [h.inv.sb]
      exact diallocLoop_isSome h.inv.sb ht h1 h2 h0 (by simp only [Super.std]; omega)
    obtain ⟨hn0, hnlt, hnn, hv₁, hg₁, -, hkeep₁⟩ := dialloc_view h hl ht hal
    obtain ⟨hfree₁, hsize₁⟩ := dialloc_node h ht hal
    have hne : x.no ≠ n := by
      rintro hc
      rw [← hc, hdir] at hnn
      cases hnn
    have hx₁ : (view fs₁).seat p = some x := by rw [hv₁]; exact hx
    have hdir₁ : (view fs₁).type x.no = typeDir := by
      rw [hv₁]
      exact (Function.update_of_ne hne ..).trans hdir
    have hcstr : (cstr name).length < e.name.length := by
      have := cstr_length_le (a := name)
      omega
    have hbytes : (⟨n, strcpy e.name name⟩ : Dirent).bytes.length = 32 :=
      Dirent.bytes_length ((strcpy_length hcstr).trans hlen)
    have hl₁ := hg₁.layer hx₁ (hdir₁.symm ▸ by decide)
    have hneed := (need_entry fs₁.disk x.no j).1
    have hj₁ : 32 * j ≤ (node fs₁.disk x.no).size := by rw [(hkeep₁ _ hxlt hne).node]; exact hj
    obtain ⟨⟨r, fs₂⟩, hwr⟩ : ∃ q, fs₁.iwrite p (32 * j) (⟨n, strcpy e.name name⟩ : Dirent).bytes = some q :=
      Option.isSome_iff_exists.1 (iwrite_isSome hl₁.inv hl₁.active hj₁ (by omega) (by rw [hbytes]; omega))
    have hfree₂ := iwrite_free hl₁.inv hl₁.active hwr
    rw [hbytes] at hfree₂
    obtain ⟨hv₂, hg₂, -, hkeep₂⟩ := iwrite_ent hg₁ hx₁ hdir₁ hj₁ ((strcpy_length hcstr).trans hlen) hnlt
      (fun _ _ => Ne.symm hne) hwr
    have hseat₂ : (view fs₂).seat a = none := by rw [hv₂, Ns.setEnt_seat, hv₁]; exact hfree
    obtain ⟨i, fs₃, hget⟩ := iget_isSome (n := n) hg₂ ha (ref_zero hg₂ hseat₂)
    simp only [hal, hwr, hget, Option.bind_some]
    by_cases htd : t = typeDir
    · rw [if_pos htd]
      have hseated := ilookup_seated h hx hdir hl ht hname hlen hj hal hwr hget
      obtain ⟨-, -, -, hdisk₃⟩ := iget_view hg₂ hn0 hnlt hget
      obtain ⟨z, hz, hzn⟩ := hseated.room.get_some
      have hz₃ : (view fs₃).seat i = some z := by rw [hseated.eq]; exact hz
      have htz : (view fs₃).type z.no = typeDir := by rw [hzn, view_type hnlt, hseated.type_new, htd]
      have htp : (view fs₃).type x.no = typeDir := by rw [view_type hxlt, hseated.type_dir]
      obtain ⟨fs₄, h4⟩ := idirinit_isSome hseated.good hz₃ (hseated.seat hx) htz htp
        (by rw [hdisk₃, hzn, (hkeep₂ n hnlt (Ne.symm hne)).node]; exact hsize₁) (by rw [hdisk₃]; omega)
      rw [h4]
      exact ⟨_, rfl⟩
    · rw [if_neg htd]
      exact ⟨_, rfl⟩

/-- What `iopen` needs to end: two free slots, and an inode and three blocks when it may make something. -/
structure Enough (fs : Fs) (t : Nat) : Prop where
  slots : (view fs).TwoFree
  inode : t ≠ typeNone → ∃ n, 0 < n ∧ n < 1920 ∧ (view fs).type n = typeNone
  blks : t ≠ typeNone → 3 ≤ freeBlks fs.disk

theorem iopen_isSome (path : List UInt8) (h : Good fs) (hl : (view fs).Live) (hs : (view fs).Sound)
    (hx : (view fs).seat cwd = some x) (ht : t < 2 ^ 32) (hq : Enough fs t) : ∃ r, fs.iopen cwd path t = some r := by
  obtain ⟨a, ha, -, -, -, hfa, -⟩ := id hq.slots
  unfold iopen
  split
  · by_cases hp : path.headD 0 = slash
    · obtain ⟨i, fs₁, hget⟩ := iget_isSome (n := 1) h ha (ref_zero h hfa)
      rw [if_pos hp, h.inv.sb]
      rw [show fs.iget Super.std.root = _ from hget]
      exact ⟨_, rfl⟩
    · rw [if_neg hp]
      exact ⟨_, rfl⟩
  · obtain ⟨⟨w, fs₁⟩, hpar⟩ := iopenParent_isSome path h hx hq.slots
    simp only [Option.bind_eq_bind, hpar, Option.bind_some]
    obtain ⟨hdisk, ⟨rfl, -⟩ | ⟨p, d, nm, rfl, hroom, hv, hg, -, hdir, helem⟩⟩ := iopenParent_view h hx hpar
    · exact ⟨_, rfl⟩
    obtain ⟨y, hy, hyd⟩ := hroom.get_some
    have hy₁ : (view fs₁).seat p = some y := by rw [hv]; exact hy
    have hdir₁ : (view fs₁).type y.no = typeDir := by
      rw [hv, hyd]
      exact hdir
    have htd : (view fs).type d ≠ typeNone := by rw [hdir]; decide
    obtain ⟨b, hb, hsb⟩ := exists_free_get hq.slots p d
    obtain ⟨⟨r, fs₂⟩, hlook⟩ : ∃ r, fs₁.ilookup p nm t = some r := by
      by_cases htn : t = typeNone
      · rw [htn]
        exact lookup_isSome hg hv hq.slots hy₁ hdir₁ nm
      · exact create_isSome hg (hv ▸ live_get hl hroom htd) (hv ▸ hs.get) hy₁ hdir₁ helem.len ht hb (hv ▸ hsb)
          (by rw [hv]; exact hq.inode htn) (by rw [hdisk]; exact hq.blks htn)
    simp only [hlook, Option.bind_some]
    obtain ⟨fs₃, hcl⟩ : ∃ fs₃, fs₂.iclose p = some fs₃ := by
      obtain ⟨-, ⟨i, j, n, rfl, -, hroom₁, hv₁, hg₁, -⟩ | ⟨rfl, -, rfl, -⟩ | ⟨-, hmade⟩⟩ :=
        ilookup_view hg hy₁ helem.len hlook
      · rw [hv] at hroom₁ hv₁
        obtain ⟨fs₃, h1, -⟩ := iclose_get_get h.ok hg₁ hroom hroom₁ hv₁
        exact ⟨fs₃, h1⟩
      · obtain ⟨fs₃, h1, -⟩ := iclose_get h.ok hg hroom hv
        exact ⟨fs₃, h1⟩
      · obtain ⟨i, j, n, rfl, hcr, hg₁, -⟩ := hmade (hv ▸ live_get hl hroom htd) ht
        rw [hv, hyd, helem.cstr] at hcr
        obtain ⟨fs₃, h1, -⟩ := iclose_created h.ok hg₁ hroom hcr
        exact ⟨fs₃, h1⟩
    rw [hcl]
    exact ⟨_, rfl⟩

/-! ## `iremove` -/

/-- An entry that is there is overwritten without any new block. -/
theorem iwrite_entry_isSome (h : Good fs) (hx : (view fs).seat i = some x) (ht : (view fs).type x.no ≠ typeNone)
    (hj : 32 * j + 32 ≤ (node fs.disk x.no).size) {buf : List UInt8} (hb : buf.length = 32) :
    ∃ r, fs.iwrite i (32 * j) buf = some r := by
  have hl := h.layer hx ht
  have hlt := (h.seat_lt hx).2
  have hsize := h.mapped.size_le hlt
  refine Option.isSome_iff_exists.1 (iwrite_isSome hl.inv hl.active (by omega) (by omega) ?_)
  have hmapped : ∀ k ∈ touched (32 * j) buf.length, blk fs.disk x.no k ≠ 0 := fun k hk => by
    obtain ⟨o, h1, h2, rfl⟩ := mem_touched.1 hk
    exact h.mapped x.no hlt _ (by omega)
  have hzero : need fs.disk x.no (touched (32 * j) buf.length) = 0 := by
    unfold need
    rw [Finset.filter_false_of_mem hmapped, if_neg]
    · rfl
    · rintro ⟨h0, k, hk, h12⟩
      exact hmapped k hk (blk_none h12 h0)
  omega

/-- What `iremove` does with an entry `j` of directory `d` that it has found. -/
theorem remove_isSome (hs : s.Ok) (h : Good fs) (hroom : s.Room p d) (hroom₁ : (s.get p d).Room i n)
    (hv : view fs = (s.get p d).get i n) (hdir : s.type d = typeDir) (hent : s.ent d j = some (n, nm)) (hnd : n ≠ d)
    (hn : s.type n ≠ typeNone) :
    ∃ fs₁ r fs₂ fs₃, (fs.setInode i { fs.inodes i with del := true }).iwrite p (32 * j) (List.replicate direntSize 0) =
      some (r, fs₁) ∧ fs₁.iclose i = some fs₂ ∧ fs₂.iclose p = some fs₃ := by
  obtain ⟨y, hy, hyd⟩ := hroom.get_some
  obtain ⟨z, hz, hzn⟩ := hroom₁.get_some
  have hz₁ : (view fs).seat i = some z := by rw [hv]; exact hz
  have hpi : p ≠ i := by
    rintro rfl
    rcases hroom₁ with ⟨u, hu, hun⟩ | ⟨hu, -⟩
    · rw [hy] at hu
      cases hu
      exact hnd (hun.symm.trans hyd)
    · rw [hy] at hu
      cases hu
  obtain ⟨hvm, hgm⟩ := mark_view h hz₁
  have hym : (view (fs.setInode i { fs.inodes i with del := true })).seat p = some y := by
    rw [hvm, hv, Ns.mark_seat_ne hpi, Ns.get_seat_ne hpi]
    exact hy
  have htm : (view (fs.setInode i { fs.inodes i with del := true })).type y.no = typeDir := by
    rw [hvm, hv, hyd]
    exact hdir
  have hfit : 32 * j + 32 ≤ (node (fs.setInode i { fs.inodes i with del := true }).disk y.no).size := by
    have hem : (view (fs.setInode i { fs.inodes i with del := true })).ent y.no j = some (n, nm) := by
      rw [hvm, hv, hyd]
      exact hent
    rw [view_ent htm] at hem
    exact (entry_some.1 hem).1
  obtain ⟨⟨r, fs₁⟩, hw⟩ := iwrite_entry_isSome hgm hym (htm.symm ▸ by decide) hfit
    (List.length_replicate (n := direntSize) (a := 0))
  obtain ⟨hv₁, hg₁, -, -⟩ := iwrite_ent (e := Dirent.zero) hgm hym htm (by omega) List.length_replicate
    (show 0 < 1920 by decide) (fun _ _ => show 0 ≠ y.no from Nat.ne_of_lt (hgm.seat_lt hym).1) hw
  have hi₁ : (view fs₁).seat i = some { z with del := true } := by
    rw [hv₁, Ns.setEnt_seat, hvm, Ns.mark_eq hz₁, Ns.setSeat_self]
  have htn : (view fs₁).type z.no ≠ typeNone := by
    rw [hv₁, hvm, hv, hzn]
    exact hn
  obtain ⟨fs₂, h1, h2, h3⟩ := iclose_view hg₁ hi₁ fun _ _ => htn
  have hp₂ : (view fs₂).seat p = (s.get p d).seat p := by
    rw [h2, Ns.put_seat_ne hpi, hv₁, Ns.setEnt_seat, hvm, Ns.mark_seat_ne hpi, hv, Ns.get_seat_ne hpi]
  obtain ⟨fs₃, h4, -⟩ := iclose_kept h3 (hp₂.trans hy) fun w hw hw1 => Ns.kept_get_self hs w (hp₂ ▸ hw) hw1
  exact ⟨fs₁, r, fs₂, fs₃, hw, h1, h4⟩

theorem iremove_isSome (h : Good fs) (hx : (view fs).seat cwd = some x) (hn : Named (view fs) (start path x.no))
    (hfree : (view fs).TwoFree) : ∃ r, fs.iremove cwd path = some r := by
  obtain ⟨⟨w, fs₁⟩, hpar⟩ := iopenParent_isSome path h hx hfree
  unfold iremove
  simp only [Option.bind_eq_bind, hpar, Option.bind_some]
  obtain ⟨-, ⟨rfl, -⟩ | ⟨p, d, nm, rfl, hroom, hv, hg, hparent, hdir, helem⟩⟩ := iopenParent_view h hx hpar
  · exact ⟨_, rfl⟩
  obtain ⟨y, hy, hyd⟩ := hroom.get_some
  have hy₁ : (view fs₁).seat p = some y := by rw [hv]; exact hy
  obtain ⟨fs₀, hcl₀, -⟩ := iclose_get h.ok hg hroom hv
  simp only [helem.cstr]
  by_cases hdots : nm = dot ∨ nm = dotdot
  · rw [if_pos hdots, hcl₀]
    exact ⟨_, rfl⟩
  rw [if_neg hdots]
  have hdir₁ : (view fs₁).type y.no = typeDir := by
    rw [hv, hyd]
    exact hdir
  obtain ⟨⟨r, fs₂⟩, hlook⟩ := lookup_isSome hg hv hfree hy₁ hdir₁ nm
  simp only [hlook, Option.bind_some]
  obtain ⟨-, ⟨i, j, n, rfl, hent, hroom₁, hv₁, hg₁, hd₁⟩ | ⟨rfl, -, rfl, -⟩ | ⟨hbad, -⟩⟩ :=
    ilookup_view hg hy₁ helem.len hlook
  swap
  · rw [hcl₀]
    exact ⟨_, rfl⟩
  swap; · exact absurd rfl hbad
  rw [hv] at hroom₁ hv₁ hent
  rw [hyd, helem.cstr] at hent
  replace hent : (view fs).ent d j = some (n, nm) := hent
  obtain ⟨z, hz, hzn⟩ := hroom₁.get_some
  have hz₁ : (view fs₂).seat i = some z := by rw [hv₁]; exact hz
  -- the test whether a directory is empty comes to an end
  obtain ⟨e, he⟩ : ∃ e : Bool, ∀ f : Bool × Fs → Option (Bool × Fs),
      (if fs₂.itype i = typeDir then (fs₂.idirempty i).bind f else (pure (true, fs₂) : Option (Bool × Fs)).bind f) =
          f (e, fs₂) := by
    by_cases htd : fs₂.itype i = typeDir
    · simp only [if_pos htd]
      rw [itype, seat_type hg₁ hz₁] at htd
      have hlt := (hg₁.seat_lt hz₁).2
      have htd' : (node fs₂.disk z.no).type = typeDir := by rw [← view_type hlt]; exact htd
      obtain ⟨e, he, -⟩ := idirempty_eq (hg₁.layer hz₁ (htd.symm ▸ by decide)) htd' (hg₁.size z.no hlt htd')
      exact ⟨e, fun f => by rw [he, Option.bind_some]⟩
    · simp only [if_neg htd]
      exact ⟨true, fun f => rfl⟩
  dsimp only
  rw [he]
  by_cases hb : e = true
  · rw [if_neg (not_not.2 hb)]
    have hnd : n ≠ d := (h.ent d j n nm hent).2 (fun hc => hdots (Or.inl hc)) fun hc => hdots (Or.inr hc)
    obtain ⟨fs₃, r, fs₄, fs₅, h1, h2, h3⟩ := remove_isSome h.ok hg₁ hroom hroom₁ hv₁ hdir hent hnd
      (hn d j n nm hparent.walk hent (fun hc => hdots (Or.inl hc)) fun hc => hdots (Or.inr hc))
    simp only [h1, h2, h3, Option.bind_some]
    exact ⟨_, rfl⟩
  · rw [if_pos hb]
    obtain ⟨fs₃, h1, h2, h3, -⟩ := iclose_get (h.ok.get hroom) hg₁ hroom₁ hv₁
    obtain ⟨fs₄, h4, -⟩ := iclose_get h.ok h3 hroom h2
    simp only [h1, h4, Option.bind_some]
    exact ⟨_, rfl⟩

end Fs

end TinyOS
