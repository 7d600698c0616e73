/-
The inode layer in use: any calls of fs.c, on inodes that the caller holds references to, from a
mounted image on. Block ownership and the agreement of the inode table with the disk survive all of
them, as long as nobody writes the bytes of a directory by hand.
-/
import TinyOS.Fs.Tree
import TinyOS.Lib.Run

namespace TinyOS

open TinyOS.Lib TinyOS.Fs

/-- The file system, the slot of the working directory, and the references that the caller holds. -/
structure Handles where
  fs : Fs
  cwd : Nat
  hold : Nat → Nat

namespace Handles

inductive Call where
  | iopen (path : List UInt8) (type : Nat)
  | iread (i off len : Nat)
  | iwrite (i off : Nat) (buf : List UInt8)
  | itrunc (i : Nat)
  | idup (i : Nat)
  | iclose (i : Nat)
  | iremove (path : List UInt8)
  | iadddev (name : List UInt8) (id : Nat)

/-- The arguments are 32-bit words. -/
def Call.Ok : Call → Prop
  | .iopen _ type => type < 2 ^ 32
  | .iadddev _ id => id < 2 ^ 32
  | _ => True

def take (h : Handles) (i : Nat) : Nat → Nat := Function.update h.hold i (h.hold i + 1)

def drop (h : Handles) (i : Nat) : Nat → Nat := Function.update h.hold i (h.hold i - 1)

/-- What `iopen` delivers is held. -/
def opened (h : Handles) (fs : Fs) : Option Nat → Handles
  | some i => { h with fs := fs, hold := h.take i }
  | none => { h with fs := fs }

/-- A call; `none` where an assertion fails or the caller does not hold the inode. -/
def step (h : Handles) : Call → Option Handles
  | .iopen path type => do
    let (r, fs) ← h.fs.iopen h.cwd path type
    return h.opened fs r
  | .iread i off len => do
    if h.hold i = 0 then none
    let (_, fs) ← h.fs.iread i off len
    return { h with fs := fs }
  | .iwrite i off buf => do
    if h.hold i = 0 then none
    let (_, fs) ← h.fs.iwrite i off buf
    return { h with fs := fs }
  | .itrunc i => do
    if h.hold i = 0 then none
    return { h with fs := ← h.fs.itrunc i }
  | .idup i => do
    if h.hold i = 0 then none
    return { h with fs := h.fs.idup i, hold := h.take i }
  | .iclose i => do
    if h.hold i = 0 then none
    return { h with fs := ← h.fs.iclose i, hold := h.drop i }
  | .iremove path => do
    let (_, fs) ← h.fs.iremove h.cwd path
    return { h with fs := fs }
  | .iadddev name id => do return { h with fs := ← h.fs.iadddev h.cwd name id }

/-- A mounted image: nothing held but the working directory. -/
def start (m : Store) : Option Handles := do
  let (cwd, fs) ← mount m
  return ⟨fs, ← cwd, fun _ => 0⟩

/-- No bytes of a directory are written by hand. -/
def Polite (h : Handles) : Call → Prop
  | .iwrite i _ _ => h.fs.itype i ≠ typeDir
  | _ => True

instance : DecidablePred Call.Ok
  | .iopen _ type => inferInstanceAs (Decidable (type < 2 ^ 32))
  | .iadddev _ id => inferInstanceAs (Decidable (id < 2 ^ 32))
  | .iread .. | .iwrite .. | .itrunc _ | .idup _ | .iclose _ | .iremove _ => inferInstanceAs (Decidable True)

instance {h : Handles} : DecidablePred h.Polite
  | .iwrite i _ _ => inferInstanceAs (Decidable (h.fs.itype i ≠ typeDir))
  | .iopen .. | .iread .. | .itrunc _ | .idup _ | .iclose _ | .iremove _ | .iadddev .. =>
    inferInstanceAs (Decidable True)

/-- A call that succeeds, and is not a write into a directory. -/
def Step (h : Handles) (c : Call) (h' : Handles) : Prop := c.Ok ∧ h.Polite c ∧ h.step c = some h'

/-- A call that succeeds, whatever it writes. -/
def AnyStep (h : Handles) (c : Call) (h' : Handles) : Prop := c.Ok ∧ h.step c = some h'

/-- Everything that a run of calls keeps. -/
structure Inv (h : Handles) : Prop where
  good : Good h.fs
  live : (view h.fs).Live
  tree : ∃ W up loc, Ns.Tree (view h.fs) W up loc
  refs : ∀ i, (h.hold i : Int) + (if i = h.cwd then 1 else 0) ≤ (view h.fs).refs i
  cwd : ∀ x, (view h.fs).seat h.cwd = some x → x.no = 1

variable {h h' : Handles} {i j n : Nat} {x : Seat} {path : List UInt8}

theorem Inv.seat (hi : Inv h) (hh : h.hold i ≠ 0) : ∃ x, (view h.fs).seat i = some x ∧
    (h.hold i : Int) + (if i = h.cwd then 1 else 0) ≤ x.ref := by
  have hr := hi.refs i
  have hpos : 0 < (view h.fs).refs i := by
    split at hr <;> omega
  obtain ⟨x, hx, hxr⟩ := Ns.seat_of_refs hpos
  exact ⟨x, hx, hxr ▸ hr⟩

theorem Inv.cwd_seat (hi : Inv h) : ∃ x, (view h.fs).seat h.cwd = some x ∧ x.no = 1 := by
  have hr := hi.refs h.cwd
  rw [if_pos rfl] at hr
  obtain ⟨x, hx, -⟩ := Ns.seat_of_refs (s := view h.fs) (i := h.cwd) (by omega)
  exact ⟨x, hx, hi.cwd x hx⟩

theorem start_one (path : List UInt8) : Fs.start path 1 = 1 := ite_self 1

theorem plain_view (fs : Fs) : (view fs).Plain := fun _ _ _ he => type_of_ent he

/-- The file system changed, what stands for it in the namespace and the references did not. -/
theorem Inv.same (hi : Inv h) {fs : Fs} (hv : view fs = view h.fs) (hg : Good fs) : Inv { h with fs := fs } :=
  ⟨hg, hv ▸ hi.live, hv ▸ hi.tree, hv ▸ hi.refs, hv ▸ hi.cwd⟩

/-- A reference taken for the caller. -/
theorem Inv.take (hi : Inv h) {fs : Fs} (hr : (view h.fs).Room i n) (ht : (view h.fs).type n ≠ typeNone)
    (hv : view fs = (view h.fs).get i n) (hg : Good fs) : Inv { h with fs := fs, hold := h.take i } := by
  obtain ⟨W, up, loc, htree⟩ := hi.tree
  obtain ⟨y, hy, hy1⟩ := hi.cwd_seat
  refine ⟨hg, hv ▸ live_get hi.live hr ht, ⟨W, up, loc, hv ▸ htree.get⟩, fun j => ?_, fun x hx => ?_⟩
  · have := hi.refs j
    rw [hv, Ns.refs_get]
    show ((Function.update h.hold i (h.hold i + 1) j : Nat) : Int) + _ ≤ _
    by_cases hj : j = i
    · subst hj
      rw [Function.update_self, if_pos rfl]
      show ((h.hold j + 1 : Nat) : Int) + (if j = h.cwd then 1 else 0) ≤ _
      push_cast
      omega
    · rw [Function.update_of_ne hj, if_neg hj, Int.add_zero]
      exact this
  · rw [hv] at hx
    exact (Ns.no_get hy hx).trans hy1

/-- What the working directory leads to. -/
theorem Inv.walk (hi : Inv h) (hx : (view h.fs).seat h.cwd = some x) {d : Nat}
    (hw : (view h.fs).Walk (Fs.start path x.no) d) : (view h.fs).type d ≠ typeNone := by
  obtain ⟨W, up, loc, htree⟩ := hi.tree
  rw [hi.cwd x hx, start_one] at hw
  exact (htree.walk (plain_view _) hw).1

theorem Inv.made (hi : Inv h) {fs : Fs} {d t : Nat} {nm : List UInt8} {s' : Ns} (hx : (view h.fs).seat h.cwd = some x)
    (ht : t ≠ typeNone) (hcr : Created (view h.fs) d j n t nm i s') (hw : (view h.fs).Walk (Fs.start path x.no) d)
    (hv : view fs = (view h.fs).create d j n t nm) (hg : Good fs) : Inv { h with fs := fs } := by
  obtain ⟨W, up, loc, htree⟩ := hi.tree
  rw [hi.cwd x hx, start_one] at hw
  have hd : W d := (htree.walk (plain_view _) hw).2.2 hcr.dir
  refine ⟨hg, hv ▸ hi.live.create hcr.new, hv ▸ htree.create hi.live hd hcr.new ht, fun k => ?_, fun y hy => ?_⟩
  · have := hi.refs k
    show _ ≤ (view fs).refs k
    rw [hv, Ns.refs, Ns.create_seat]
    exact this
  · rw [hv, Ns.create_seat] at hy
    exact hi.cwd y hy

theorem Inv.iopen (hi : Inv h) {t : Nat} {r : Option Nat} {fs : Fs} (ht : t < 2 ^ 32)
    (he : h.fs.iopen h.cwd path t = some (r, fs)) :
    Inv (h.opened fs r) := by
  obtain ⟨x, hx, -⟩ := hi.cwd_seat
  rcases iopen_view hi.good hx he with ⟨rfl, hv, hg, -⟩ | ⟨i, n, rfl, hroom, hv, hg, hw, -⟩ | ⟨ht0, hmade⟩
  · exact hi.same hv hg
  · exact hi.take hroom (hi.walk hx hw) hv hg
  · obtain ⟨i, d, j, n, nm, rfl, hcr, hw, -, hg, -⟩ := hmade hi.live ht
    -- the new inode, and then the reference to it
    obtain ⟨W, up, loc, htree⟩ := hi.tree
    have hw1 := hw
    rw [hi.cwd x hx, start_one] at hw1
    have hd : W d := (htree.walk (plain_view _) hw1).2.2 hcr.dir
    obtain ⟨W', up', loc', htree'⟩ := htree.create (j := j) hi.live hd hcr.new ht0
    have hroom : ((view h.fs).create d j n t nm).Room i n := room_create.2 hcr.room
    have htype : ((view h.fs).create d j n t nm).type n ≠ typeNone := by
      rw [Ns.create_type, Function.update_self]
      exact ht0
    have hv := hcr.eq
    refine ⟨hg, hv ▸ live_get (hi.live.create hcr.new) hroom htype, ⟨W', up', loc', hv ▸ htree'.get⟩, fun k => ?_,
      fun y hy => ?_⟩
    · have := hi.refs k
      have hrefs : ((view h.fs).create d j n t nm).refs k = (view h.fs).refs k := by
        rw [Ns.refs, Ns.create_seat, Ns.refs]
      show ((Function.update h.hold i (h.hold i + 1) k : Nat) : Int) + _ ≤ (view fs).refs k
      rw [hv, Ns.refs_get, hrefs]
      by_cases hk : k = i
      · subst hk
        rw [Function.update_self, if_pos rfl]
        show ((h.hold k + 1 : Nat) : Int) + (if k = h.cwd then 1 else 0) ≤ _
        push_cast
        omega
      · rw [Function.update_of_ne hk, if_neg hk, Int.add_zero]
        exact this
    · have hx' : ((view h.fs).create d j n t nm).seat h.cwd = some x := by rw [Ns.create_seat]; exact hx
      change (view fs).seat h.cwd = some y at hy
      rw [hv] at hy
      exact (Ns.no_get hx' hy).trans (hi.cwd x hx)

theorem Inv.iclose (hi : Inv h) {fs : Fs} (hh : h.hold i ≠ 0) (he : h.fs.iclose i = some fs) :
    Inv { h with fs := fs, hold := h.drop i } := by
  obtain ⟨x, hx, hxr⟩ := hi.seat hh
  obtain ⟨fs', h1, hv, hg⟩ := iclose_view hi.good hx fun _ _ => hi.live _ ⟨i, x, hx, rfl⟩
  obtain rfl := Option.some.inj (he.symm.trans h1)
  obtain ⟨W, up, loc, htree⟩ := hi.tree
  refine ⟨hg, hv ▸ hi.live.put hi.good.ok hx, ⟨W, up, loc, hv ▸ htree.put hi.good.ok hx⟩, fun j => ?_, fun y hy => ?_⟩
  · have := hi.refs j
    show ((Function.update h.hold i (h.hold i - 1) j : Nat) : Int) + _ ≤ (view fs).refs j
    rw [hv, Ns.refs_put hx]
    by_cases hj : j = i
    · subst hj
      rw [Function.update_self, if_pos rfl]
      show ((h.hold j - 1 : Nat) : Int) + (if j = h.cwd then 1 else 0) ≤ _
      omega
    · rw [Function.update_of_ne hj, if_neg hj, Int.sub_zero]
      exact this
  · rw [hv] at hy
    obtain ⟨z, hz, hyz⟩ := Ns.no_put hy
    exact hyz.trans (hi.cwd z hz)

theorem Inv.iremove (hi : Inv h) {fs : Fs} {b : Bool} (he : h.fs.iremove h.cwd path = some (b, fs)) :
    Inv { h with fs := fs } := by
  obtain ⟨x, hx, hx1⟩ := hi.cwd_seat
  obtain ⟨W, up, loc, htree⟩ := hi.tree
  have hnamed : Named (view h.fs) (Fs.start path x.no) := fun d j n nm hw hent _ _ =>
    hi.walk hx (hw.tail ⟨j, nm, hent⟩)
  rcases iremove_view hi.good hx hnamed he with ⟨-, hv, hg, -⟩ | ⟨-, d, j, n, nm, i, hr, hw, hg, -⟩
  · exact hi.same hv hg
  · have htn : (view h.fs).type n ≠ typeNone := hi.walk hx (hw.tail ⟨j, nm, hr.ent⟩)
    have hd : W d := by
      rw [hx1, start_one] at hw
      exact (htree.walk (plain_view _) hw).2.2 hr.dir
    refine ⟨hg, hi.live.unlink hi.good.ok hr htn, ?_, fun k => ?_, fun y hy => ?_⟩
    · obtain ⟨W', h'⟩ := htree.unlink hi.good.ok hd hr
      exact ⟨W', up, loc, h'⟩
    · show _ ≤ (view fs).refs k
      rw [Ns.Removed.refs hi.good.ok hr]
      exact hi.refs k
    · exact (Ns.Removed.no hi.good.ok hr hx hy).trans hx1

theorem Inv.step {c : Call} (hi : Inv h) (hs : Step h c h') : Inv h' := by
  obtain ⟨hok, hpol, he⟩ := hs
  cases c with
  | iopen path type =>
    obtain ⟨⟨r, fs⟩, ho, he⟩ := Option.bind_eq_some_iff.1 he
    cases he
    exact hi.iopen hok ho
  | iread i off len =>
    by_cases hh : h.hold i = 0
    · simp only [Handles.step, if_pos hh] at he
      cases he
    simp only [Handles.step, if_neg hh] at he
    obtain ⟨⟨r, fs⟩, hr, he⟩ := Option.bind_eq_some_iff.1 he
    cases he
    obtain ⟨x, hx, -⟩ := hi.seat hh
    have hl := hi.good.layer hx (hi.live _ ⟨i, x, hx, rfl⟩)
    obtain ⟨rfl, -⟩ := iread_some hl.inv hl.mapped hl.active hr
    exact hi
  | iwrite i off buf =>
    by_cases hh : h.hold i = 0
    · simp only [Handles.step, if_pos hh] at he
      cases he
    simp only [Handles.step, if_neg hh] at he
    obtain ⟨⟨r, fs⟩, hw, he⟩ := Option.bind_eq_some_iff.1 he
    cases he
    obtain ⟨x, hx, -⟩ := hi.seat hh
    have hdir : (view h.fs).type x.no ≠ typeDir := by
      rw [← seat_type hi.good hx]
      exact hpol
    obtain ⟨hv, hg⟩ := iwrite_view hi.good hx (hi.live _ ⟨i, x, hx, rfl⟩) hdir hw
    exact hi.same hv hg
  | itrunc i =>
    by_cases hh : h.hold i = 0
    · simp only [Handles.step, if_pos hh] at he
      cases he
    simp only [Handles.step, if_neg hh] at he
    obtain ⟨fs, ht, he⟩ := Option.bind_eq_some_iff.1 he
    cases he
    obtain ⟨x, hx, -⟩ := hi.seat hh
    obtain ⟨fs', h1, -, hv, hg⟩ := itrunc_view hi.good hx (hi.live _ ⟨i, x, hx, rfl⟩)
    obtain rfl := Option.some.inj (ht.symm.trans h1)
    obtain ⟨W, up, loc, htree⟩ := hi.tree
    exact ⟨hg, hv ▸ hi.live, ⟨W, up, loc, hv ▸ htree.trunc⟩, hv ▸ hi.refs, hv ▸ hi.cwd⟩
  | idup i =>
    by_cases hh : h.hold i = 0
    · simp only [Handles.step, if_pos hh] at he
      cases he
    simp only [Handles.step, if_neg hh] at he
    cases he
    obtain ⟨x, hx, -⟩ := hi.seat hh
    obtain ⟨hv, hg⟩ := idup_view hi.good hx
    exact hi.take (Or.inl ⟨x, hx, rfl⟩) (hi.live _ ⟨i, x, hx, rfl⟩) hv hg
  | iclose i =>
    by_cases hh : h.hold i = 0
    · simp only [Handles.step, if_pos hh] at he
      cases he
    simp only [Handles.step, if_neg hh] at he
    obtain ⟨fs, hc, he⟩ := Option.bind_eq_some_iff.1 he
    cases he
    exact hi.iclose hh hc
  | iremove path =>
    obtain ⟨⟨b, fs⟩, hr, he⟩ := Option.bind_eq_some_iff.1 he
    cases he
    exact hi.iremove hr
  | iadddev name id =>
    obtain ⟨fs, ha, he⟩ := Option.bind_eq_some_iff.1 he
    cases he
    obtain ⟨x, hx, -⟩ := hi.cwd_seat
    rcases iadddev_view hi.good hx hok ha with ⟨hv, hg⟩ | hmade
    · exact hi.same hv hg
    · obtain ⟨i, d, j, n, nm, hcr, hw, -, hv, hg⟩ := hmade hi.live
      exact hi.made hx (by decide) hcr hw hv hg

/-! ## The start -/

/-- The tree of a mounted image: one directory. -/
theorem mounted_tree {files : List (List UInt8 × List UInt8)} {fs : Fs} (h : Mounted files fs) :
    Ns.Tree (view fs) (fun d => d = 1) (fun _ => 1) fun n => (1, n) := by
  have hdel := h.not_del
  refine ⟨⟨rfl, rfl⟩, fun d hd => ⟨by rw [h.type, if_pos hd], hdel d, rfl⟩, fun d j n nm hd he => ?_⟩
  subst hd
  rw [h.ent, if_pos rfl, rootNames] at he
  match j, he with
  | 0, he => cases he; exact Or.inl ⟨rfl, rfl⟩
  | 1, he => cases he; exact Or.inr (Or.inl ⟨rfl, rfl⟩)
  | j + 2, he =>
    have he' : ((files.zipIdx 2).map fun p => (p.2, cstr p.1.1))[j]? = some (n, nm) := he
    rw [List.getElem?_map, Option.map_eq_some_iff] at he'
    obtain ⟨⟨f, k⟩, hk, hkn⟩ := he'
    cases hkn
    rw [List.getElem?_zipIdx, Option.map_eq_some_iff] at hk
    obtain ⟨g, hg, hgk⟩ := hk
    cases hgk
    have hj : j < files.length := (List.getElem?_eq_some_iff.1 hg).1
    refine Or.inr (Or.inr ⟨by rw [Nat.add_comm], by omega, ?_, hdel _, fun ht => ?_⟩)
    · rw [h.type, if_neg (by omega), if_pos (by omega)]
      decide
    · rw [h.type, if_neg (by omega), if_pos (by omega)] at ht
      cases ht

theorem mounted_inv {files : List (List UInt8 × List UInt8)} {fs : Fs} (h : Mounted files fs) :
    Inv ⟨fs, 0, fun _ => 0⟩ := by
  refine ⟨h.good, h.live, ⟨_, _, _, mounted_tree h⟩, fun i => ?_, fun x hx => ?_⟩
  · show (0 : Int) + (if i = 0 then 1 else 0) ≤ _
    unfold Ns.refs
    rw [h.seat]
    split <;> exact le_refl _
  · rw [show (view fs).seat 0 = _ from h.seat 0, if_pos rfl] at hx
    cases hx
    rfl

theorem start_inv {boot m : Store} {files : List (List UInt8 × List UInt8)} (hm : Mkfs.mkfs boot files = some m) :
    ∃ h₀, start m = some h₀ ∧ Inv h₀ := by
  obtain ⟨h1, h2⟩ := mount_mounted hm
  exact ⟨⟨Mkfs.only m 1, 0, fun _ => 0⟩, by unfold start; rw [h1]; rfl, mounted_inv h2⟩

theorem run_inv {boot m : Store} {files : List (List UInt8 × List UInt8)} {h₀ : Handles} {cs : List Call}
    (hm : Mkfs.mkfs boot files = some m) (hs : start m = some h₀) (hr : Run Step h₀ cs h) : Inv h := by
  obtain ⟨h₁, h1, h2⟩ := start_inv hm
  rw [hs] at h1
  cases h1
  exact hr.invariant (fun _ _ _ hi hst => hi.step hst) h2

/-! ## Block ownership -/

/-- Every run of the inode layer from a mounted image that writes no directory by hand leaves each
block with one owner or free, the metadata blocks in use, and unused inodes without blocks. -/
theorem blocks_owned {boot m : Store} {files : List (List UInt8 × List UInt8)} {h₀ : Handles} {cs : List Call}
    (hm : Mkfs.mkfs boot files = some m) (hs : start m = some h₀) (hr : Run Step h₀ cs h) : Owned h.fs.disk :=
  (run_inv hm hs hr).good.inv.owned

/-- A directory with a file in it, which is written, emptied, written again, removed while it is open, and
closed; and the directory is removed. -/
def writeRemove : List Call :=
  [.iopen [slash, 100] typeDir, .iopen [slash, 100, slash, 97] typeFile, .iwrite 2 0 [1, 2, 3],
    .itrunc 2, .iwrite 2 0 [4],
    .iremove [slash, 100, slash, 97], .iread 2 0 1, .iclose 2, .iclose 1, .iremove [slash, 100]]

theorem run_polite {h₀ : Handles} {cs : List Call}
    (hs : cs.foldlM (fun h c => if c.Ok ∧ h.Polite c then h.step c else none) h₀ = some h) : Run Step h₀ cs h := by
  refine (Run.of_foldlM hs).mono fun h c h' hc => ?_
  split at hc
  · next hok => exact ⟨hok.1, hok.2, hc⟩
  · cases hc

theorem demo_isSome : (((Mkfs.mkfs (fun _ => 0) Mkfs.shell).bind start).bind fun h =>
    writeRemove.foldlM (fun h c => if c.Ok ∧ h.Polite c then h.step c else none) h).isSome := by
  decide +kernel

theorem demo_run : ∃ m h₀ h₁, Mkfs.mkfs (fun _ => 0) Mkfs.shell = some m ∧ start m = some h₀ ∧
    Run Step h₀ writeRemove h₁ := by
  obtain ⟨h₁, h⟩ := Option.isSome_iff_exists.1 demo_isSome
  obtain ⟨h₀, h, hrun⟩ := Option.bind_eq_some_iff.1 h
  obtain ⟨m, hm, hs⟩ := Option.bind_eq_some_iff.1 h
  exact ⟨m, h₀, h₁, hm, hs, run_polite hrun⟩

theorem blocks_owned_demo : ∃ m h₀ h₁, Mkfs.mkfs (fun _ => 0) Mkfs.shell = some m ∧ start m = some h₀ ∧
    Run Step h₀ writeRemove h₁ ∧ Owned h₁.fs.disk := by
  obtain ⟨m, h₀, h₁, hm, hs, hr⟩ := demo_run
  exact ⟨m, h₀, h₁, hm, hs, hr, blocks_owned hm hs hr⟩

/-- An entry of the root written by hand that names the unused inode 3, as "x". -/
def stray : List Call :=
  [.iopen [slash] typeNone, .iwrite 0 96 (Dirent.bytes ⟨3, strcpy Dirent.zero.name [120]⟩),
    .iopen [slash, 120] typeNone]

theorem run_any {h₀ : Handles} {cs : List Call} (hs : cs.foldlM step h₀ = some h) (hok : ∀ c ∈ cs, c.Ok) :
    Run AnyStep h₀ cs h := by
  induction cs using List.reverseRecOn generalizing h with
  | nil => cases hs; exact .nil
  | append_singleton cs c ih =>
    rw [List.foldlM_append] at hs
    obtain ⟨u, hu, hs⟩ := Option.bind_eq_some_iff.1 hs
    exact .snoc (ih hu fun c' hc' => hok c' (List.mem_append_left _ hc'))
      ⟨hok c (List.mem_append_right _ List.mem_cons_self), by simpa using hs⟩

theorem stray_blocks : ((((Mkfs.mkfs (fun _ => 0) Mkfs.shell).bind start).bind fun h =>
    (stray ++ [Call.iwrite 1 0 [1]]).foldlM step h).map fun h =>
      ((node h.fs.disk 3).type, decide ((node h.fs.disk 3).addrs 0 = 0))) = some (typeNone, false) := by
  decide +kernel

/-- With a directory written by hand an unused inode comes to own a block. -/
theorem blocks_stray : ¬ ∀ (boot m : Store) (files : List (List UInt8 × List UInt8)) (h₀ h : Handles) (cs : List Call),
    Mkfs.mkfs boot files = some m → start m = some h₀ → Run AnyStep h₀ cs h → Owned h.fs.disk := by
  intro hall
  obtain ⟨h, hrun, hval⟩ := Option.map_eq_some_iff.1 stray_blocks
  obtain ⟨h₀, hstart, hrun⟩ := Option.bind_eq_some_iff.1 hrun
  obtain ⟨m, hm, hs⟩ := Option.bind_eq_some_iff.1 hstart
  have hr := run_any hrun fun c hc => by
    simp only [stray, List.cons_append, List.nil_append, List.mem_cons, List.not_mem_nil, or_false] at hc
    rcases hc with rfl | rfl | rfl | rfl <;> simp [Call.Ok]
  have howned := hall _ m Mkfs.shell h₀ h _ hm hs hr
  rw [Prod.mk.injEq, decide_eq_false_iff_not] at hval
  exact hval.2 (howned.none 3 (by decide) hval.1 0)

/-! ## The inode table -/

/-- In a run of the inode layer from a mounted image that writes no directory by hand, no inode has
two slots, and every slot in use holds the inode that is on the disk. -/
theorem inodes_synced {boot m : Store} {files : List (List UInt8 × List UInt8)} {h₀ : Handles} {cs : List Call}
    (hm : Mkfs.mkfs boot files = some m) (hs : start m = some h₀) (hr : Run Step h₀ cs h) :
    (∀ i j, 0 < (h.fs.inodes i).ref → 0 < (h.fs.inodes j).ref → (h.fs.inodes i).no = (h.fs.inodes j).no → i = j) ∧
      ∀ i, 0 < (h.fs.inodes i).ref → h.fs.diread (h.fs.inodes i).no = some (h.fs.inodes i).dinode := by
  have hi := (run_inv hm hs hr).good.inv
  exact ⟨hi.table.uniq, fun i hr => by rw [diread_eq hi.sb, hi.table.same i hr]⟩

theorem inodes_synced_demo : ∃ m h₀ h₁, Mkfs.mkfs (fun _ => 0) Mkfs.shell = some m ∧ start m = some h₀ ∧
    Run Step h₀ writeRemove h₁ ∧
    ∀ i, 0 < (h₁.fs.inodes i).ref → h₁.fs.diread (h₁.fs.inodes i).no = some (h₁.fs.inodes i).dinode := by
  obtain ⟨m, h₀, h₁, hm, hs, hr⟩ := demo_run
  exact ⟨m, h₀, h₁, hm, hs, hr, (inodes_synced hm hs hr).2⟩

theorem stray_synced : ((((Mkfs.mkfs (fun _ => 0) Mkfs.shell).bind start).bind fun h =>
    (stray ++ [Call.iopen [slash, 121] typeFile]).foldlM step h).bind fun h =>
      (h.fs.diread (h.fs.inodes 1).no).map fun d =>
      (decide (0 < (h.fs.inodes 1).ref), d.type, (h.fs.inodes 1).dinode.type)) =
    some (true, typeFile, typeNone) := by
  decide +kernel

/-- With a directory written by hand a slot in use holds an inode that differs from the disk's. -/
theorem inodes_stray : ¬ ∀ (boot m : Store) (files : List (List UInt8 × List UInt8)) (h₀ h : Handles) (cs : List Call),
    Mkfs.mkfs boot files = some m → start m = some h₀ → Run AnyStep h₀ cs h →
      ∀ i, 0 < (h.fs.inodes i).ref → h.fs.diread (h.fs.inodes i).no = some (h.fs.inodes i).dinode := by
  intro hall
  obtain ⟨h, hrun, hval⟩ := Option.bind_eq_some_iff.1 stray_synced
  obtain ⟨d, hd, hval⟩ := Option.map_eq_some_iff.1 hval
  obtain ⟨h₀, hstart, hrun⟩ := Option.bind_eq_some_iff.1 hrun
  obtain ⟨m, hm, hs⟩ := Option.bind_eq_some_iff.1 hstart
  have hr := run_any hrun fun c hc => by
    simp only [stray, List.cons_append, List.nil_append, List.mem_cons, List.not_mem_nil, or_false] at hc
    rcases hc with rfl | rfl | rfl | rfl <;> simp [Call.Ok]
  rw [Prod.mk.injEq, Prod.mk.injEq, decide_eq_true_eq] at hval
  have hsame := hall _ m Mkfs.shell h₀ h _ hm hs hr 1 hval.1
  rw [hd] at hsame
  have htype := hval.2.2
  rw [← Option.some.inj hsame, hval.2.1] at htype
  cases htype

end Handles

end TinyOS
