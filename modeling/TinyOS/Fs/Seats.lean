/-
The namespace that a disk and its active inode table stand for, and what `iget`, `idup`, `iclose`,
`iwrite` and `itrunc` do to it.
-/
import TinyOS.Fs.Dir
import TinyOS.Fs.Names

namespace TinyOS.Fs

open TinyOS.Lib

variable {fs fs' : Fs} {i j n d p : Nat} {x : Seat}

def seatOf (x : Inode) : Option Seat := if 0 < x.ref then some ⟨x.no, x.ref, x.del⟩ else none

/-- The namespace that a file system stands for. -/
def view (fs : Fs) : Ns where
  type n := if n < 1920 then (node fs.disk n).type else typeNone
  ent d j := if d < 1920 ∧ (node fs.disk d).type = typeDir then entry fs.disk d j else none
  seat i := seatOf (fs.inodes i)

/-- The invariant under which the file system is a namespace: block ownership, no file with a hole,
and directories made of whole entries that name inodes, none of them the directory itself. -/
structure Good (fs : Fs) : Prop where
  inv : FsInv fs
  mapped : Mapped fs.disk
  size : ∀ d < 1920, (node fs.disk d).type = typeDir → (node fs.disk d).size % 32 = 0
  ent : ∀ d j c nm, (view fs).ent d j = some (c, nm) → c < 1920 ∧ (nm ≠ dot → nm ≠ dotdot → c ≠ d)

theorem view_type (hn : n < 1920) : (view fs).type n = (node fs.disk n).type := if_pos hn

theorem lt_of_type (h : (view fs).type n ≠ typeNone) : n < 1920 := by
  by_contra hn
  exact h (if_neg hn)

theorem view_ent (h : (view fs).type d = typeDir) : (view fs).ent d j = entry fs.disk d j := by
  have hd := lt_of_type (h.symm ▸ by decide : (view fs).type d ≠ typeNone)
  rw [view_type hd] at h
  exact if_pos ⟨hd, h⟩

theorem view_ent_none (h : (view fs).type d ≠ typeDir) : (view fs).ent d j = none :=
  if_neg fun hc => h ((view_type hc.1).trans hc.2)

theorem type_of_ent {c : Nat} {nm : List UInt8} (h : (view fs).ent d j = some (c, nm)) :
    (view fs).type d = typeDir := by
  by_contra ht
  rw [view_ent_none ht] at h
  cases h

/-! ## Seats -/

theorem view_seat : (view fs).seat i = some x ↔
    0 < (fs.inodes i).ref ∧ (fs.inodes i).no = x.no ∧ (fs.inodes i).ref = x.ref ∧ (fs.inodes i).del = x.del := by
  show seatOf (fs.inodes i) = some x ↔ _
  unfold seatOf
  split
  · next h =>
    rw [Option.some.injEq, Seat.ext_iff]
    exact ⟨fun hx => ⟨h, hx⟩, fun hx => hx.2⟩
  · next h => exact ⟨fun hc => (by cases hc), fun hx => absurd hx.1 h⟩

theorem view_seat_none : (view fs).seat i = none ↔ ¬ 0 < (fs.inodes i).ref := by
  show seatOf (fs.inodes i) = none ↔ _
  unfold seatOf
  split
  · next h => exact ⟨fun hc => (by cases hc), fun hn => absurd h hn⟩
  · next h => exact ⟨fun _ => h, fun _ => rfl⟩

theorem held_of_ref (h : 0 < (fs.inodes i).ref) : (view fs).Held (fs.inodes i).no :=
  ⟨i, ⟨_, _, _⟩, view_seat.2 ⟨h, rfl, rfl, rfl⟩, rfl⟩

theorem Table.ok (h : Table fs) : (view fs).Ok where
  pos i x hx := by
    obtain ⟨h1, -, h2, -⟩ := view_seat.1 hx
    exact h2 ▸ h1
  uniq i j x y hx hy hn := by
    obtain ⟨h1, h2, -⟩ := view_seat.1 hx
    obtain ⟨h3, h4, -⟩ := view_seat.1 hy
    exact h.uniq i j h1 h3 (h2.trans (hn.trans h4.symm))

theorem Good.ok (h : Good fs) : (view fs).Ok := h.inv.table.ok

theorem Good.seat_lt (h : Good fs) (hx : (view fs).seat i = some x) : 0 < x.no ∧ x.no < 1920 := by
  obtain ⟨h1, h2, -⟩ := view_seat.1 hx
  exact h2 ▸ h.inv.table.no i h1

theorem active_of_seat (hx : (view fs).seat i = some x) (ht : (view fs).type x.no ≠ typeNone) : Active fs i x.no := by
  obtain ⟨h1, h2, -⟩ := view_seat.1 hx
  exact ⟨h1, h2, by rw [← view_type (lt_of_type ht)]; exact ht⟩

theorem Good.layer (h : Good fs) (hx : (view fs).seat i = some x) (ht : (view fs).type x.no ≠ typeNone) :
    Layer fs i x.no := ⟨h.inv, h.mapped, active_of_seat hx ht⟩

theorem view_setInode (y : Inode) : view (fs.setInode i y) = (view fs).setSeat i (seatOf y) := by
  refine Ns.ext rfl rfl (funext fun j => ?_)
  by_cases hj : j = i
  · rw [hj, Ns.setSeat_self]
    show seatOf (Function.update fs.inodes i y i) = _
    rw [Function.update_self]
  · rw [Ns.setSeat_ne hj]
    show seatOf (Function.update fs.inodes i y j) = seatOf (fs.inodes j)
    rw [Function.update_of_ne hj]

/-- The table with one entry set. -/
theorem Table.setInode (h : Table fs) (y : Inode) (h0 : 0 ≤ y.ref)
    (hy : 0 < y.ref → i < inodeNum ∧ (0 < y.no ∧ y.no < 1920) ∧ y.dinode = node fs.disk y.no ∧
      ∀ j ≠ i, 0 < (fs.inodes j).ref → (fs.inodes j).no ≠ y.no) : Table (fs.setInode i y) := by
  have hself : (fs.setInode i y).inodes i = y := Function.update_self ..
  have hne : ∀ j, j ≠ i → (fs.setInode i y).inodes j = fs.inodes j := fun j hj => Function.update_of_ne hj ..
  -- each property for the seat that changes and for the others
  refine ⟨fun j => ?_, fun j hj => ?_, fun j hj => ?_, fun j hj => ?_, fun j k hj hk hn => ?_⟩
  · by_cases hji : j = i
    · rw [hji, hself]; exact h0
    · rw [hne j hji]; exact h.ref j
  · by_cases hji : j = i
    · rw [hji, hself] at hj
      rw [hji]
      exact (hy hj).1
    · rw [hne j hji] at hj
      exact h.small j hj
  · by_cases hji : j = i
    · rw [hji, hself] at hj ⊢
      exact (hy hj).2.1
    · rw [hne j hji] at hj ⊢
      exact h.no j hj
  · by_cases hji : j = i
    · rw [hji, hself] at hj ⊢
      exact (hy hj).2.2.1
    · rw [hne j hji] at hj ⊢
      exact h.same j hj
  · by_cases hji : j = i
    · by_cases hki : k = i
      · rw [hji, hki]
      · rw [hji, hself] at hj hn
        rw [hne k hki] at hk hn
        exact absurd hn.symm ((hy hj).2.2.2 k hki hk)
    · by_cases hki : k = i
      · rw [hki, hself] at hk hn
        rw [hne j hji] at hj hn
        exact absurd hn ((hy hk).2.2.2 j hji hj)
      · rw [hne j hji] at hj hn
        rw [hne k hki] at hk hn
        exact h.uniq j k hj hk hn

/-- Only the references changed. -/
theorem Good.of_table (h : Good fs) (hsb : fs'.sb = fs.sb) (hd : fs'.disk = fs.disk) (ht : Table fs') : Good fs' where
  inv := ⟨hsb.trans h.inv.sb, hd ▸ h.inv.owned, ht⟩
  mapped := hd ▸ h.mapped
  size := hd ▸ h.size
  ent d j c nm hc := by
    have he : (view fs').ent d j = (view fs).ent d j := by unfold view; rw [hd]
    rw [he] at hc
    exact h.ent d j c nm hc

/-! ## `iget` and `idup` -/

theorem idup_view (h : Good fs) (hx : (view fs).seat i = some x) :
    view (fs.idup i) = (view fs).get i x.no ∧ Good (fs.idup i) := by
  obtain ⟨hr, hn, he, hd⟩ := view_seat.1 hx
  unfold idup
  constructor
  · rw [view_setInode, seatOf, if_pos (by show 0 < (fs.inodes i).ref + 1; omega), Ns.get, hx]
    simp only [hn, he, hd, Option.elim_some]
  · refine h.of_table rfl rfl (h.inv.table.setInode _ (by show 0 ≤ (fs.inodes i).ref + 1; omega) fun _ =>
      ⟨h.inv.table.small i hr, h.inv.table.no i hr, h.inv.table.same i hr, fun j hj hjr hno => hj ?_⟩)
    exact h.inv.table.uniq j i hjr hr hno

theorem iget_view (h : Good fs) (hn0 : 0 < n) (hn : n < 1920) (he : fs.iget n = some (i, fs')) :
    (view fs).Room i n ∧ view fs' = (view fs).get i n ∧ Good fs' ∧ fs'.disk = fs.disk := by
  unfold iget at he
  split at he
  · next k hk =>
    cases he
    have hp := List.find?_some hk
    simp only [decide_eq_true_eq] at hp
    have hx : (view fs).seat i = some ⟨n, _, _⟩ := view_seat.2 ⟨hp.1, hp.2, rfl, rfl⟩
    exact ⟨Or.inl ⟨_, hx, rfl⟩, (idup_view h hx).1, (idup_view h hx).2, rfl⟩
  · next hk =>
    have hno : ∀ j, 0 < (fs.inodes j).ref → (fs.inodes j).no ≠ n := fun j hj hjn => by
      have := List.find?_eq_none.1 hk j (List.mem_range.2 (h.inv.table.small j hj))
      simp only [decide_eq_true_eq] at this
      exact this ⟨hj, hjn⟩
    split at he
    · next k hk' =>
      have hp := List.find?_some hk'
      have hlt := List.mem_range.1 (List.mem_of_find?_eq_some hk')
      simp only [decide_eq_true_eq] at hp
      rw [diread_eq h.inv.sb] at he
      cases he
      have hnone : (view fs).seat i = none := view_seat_none.2 (by rw [hp]; decide)
      refine ⟨Or.inr ⟨hnone, ?_⟩, ?_, ?_, rfl⟩
      · rintro ⟨j, x, hx, hxn⟩
        obtain ⟨h1, h2, -⟩ := view_seat.1 hx
        exact hno j h1 (h2.trans hxn)
      · rw [view_setInode, Ns.get, hnone]
        rfl
      · exact h.of_table rfl rfl (h.inv.table.setInode _ Int.one_nonneg fun _ =>
          ⟨hlt, ⟨hn0, hn⟩, rfl, fun j _ hj => hno j hj⟩)
    · cases he

/-! ## One inode changes -/

/-- All other inodes show in the namespace as before. -/
theorem view_frame (hn : ∀ j < 1920, j ≠ n → node fs'.disk j = node fs.disk j)
    (hb : ∀ j < 1920, j ≠ n → ∀ o, byteAt fs'.disk j o = byteAt fs.disk j o) (hd : d ≠ n) :
    (view fs').type d = (view fs).type d ∧ ∀ j, (view fs').ent d j = (view fs).ent d j := by
  have ht : (view fs').type d = (view fs).type d := by
    show (if d < 1920 then _ else _) = if d < 1920 then _ else _
    split
    · next h => rw [hn d h hd]
    · rfl
  refine ⟨ht, fun j => ?_⟩
  by_cases hdir : (view fs).type d = typeDir
  · have hlt := lt_of_type (hdir.symm ▸ by decide : (view fs).type d ≠ typeNone)
    rw [view_ent hdir, view_ent (ht.trans hdir)]
    exact entry_congr (by rw [hn d hlt hd]) fun o _ => hb d hlt hd o
  · rw [view_ent_none hdir, view_ent_none fun hc => hdir (ht.symm.trans hc)]

/-- An inode changed in memory and on disk keeps its seat. -/
theorem seat_dinode {d : Dinode} (h : fs'.inodes = Function.update fs.inodes i { fs.inodes i with dinode := d }) :
    (view fs').seat = (view fs).seat := by
  funext j
  show seatOf (fs'.inodes j) = seatOf (fs.inodes j)
  rw [h]
  by_cases hj : j = i
  · rw [hj, Function.update_self]; rfl
  · rw [Function.update_of_ne hj]

/-- Directories other than one inode are as they were. -/
theorem Good.of_frame (h : Good fs) (hi : FsInv fs') (hm : Mapped fs'.disk)
    (hn : ∀ j < 1920, j ≠ n → node fs'.disk j = node fs.disk j)
    (hb : ∀ j < 1920, j ≠ n → ∀ o, byteAt fs'.disk j o = byteAt fs.disk j o)
    (hsize : (node fs'.disk n).type = typeDir → (node fs'.disk n).size % 32 = 0)
    (hent : ∀ j c nm, (view fs').ent n j = some (c, nm) → c < 1920 ∧ (nm ≠ dot → nm ≠ dotdot → c ≠ n)) :
    Good fs' where
  inv := hi
  mapped := hm
  size d hd ht := by
    by_cases hdn : d = n
    · rw [hdn] at ht ⊢
      exact hsize ht
    · rw [hn d hd hdn] at ht ⊢
      exact h.size d hd ht
  ent d j c nm hc := by
    by_cases hdn : d = n
    · rw [hdn] at hc ⊢
      exact hent j c nm hc
    · rw [(view_frame hn hb hdn).2] at hc
      exact h.ent d j c nm hc

theorem iwrite_view {off : Nat} {buf : List UInt8} {r : Option Nat} (h : Good fs) (hx : (view fs).seat i = some x)
    (ht : (view fs).type x.no ≠ typeNone) (hdir : (view fs).type x.no ≠ typeDir)
    (hw : fs.iwrite i off buf = some (r, fs')) : view fs' = view fs ∧ Good fs' := by
  have hl := h.layer hx ht
  have hlt := lt_of_type ht
  rcases iwrite_some hl.inv hl.mapped hl.active hw with ⟨-, -, rfl⟩ | ⟨hoff, -, hwr⟩
  · exact ⟨rfl, h⟩
  · have hb : ∀ j < 1920, j ≠ x.no → ∀ o, byteAt fs'.disk j o = byteAt fs.disk j o := fun j hj hne o => by
      rw [hwr.bytes j hj, if_neg hne]
    have hself : (view fs').type x.no = (view fs).type x.no := by rw [view_type hlt, view_type hlt, hwr.self]
    have hnd : (view fs').type x.no ≠ typeDir := hself ▸ hdir
    refine ⟨Ns.ext (funext fun d => ?_) (funext fun d => funext fun j => ?_) (seat_dinode hwr.inodes), ?_⟩
    · by_cases hd : d = x.no
      · rw [hd, hself]
      · exact (view_frame hwr.other hb hd).1
    · by_cases hd : d = x.no
      · rw [hd, view_ent_none hdir, view_ent_none hnd]
      · exact (view_frame hwr.other hb hd).2 j
    · refine h.of_frame hwr.inv (hwr.mapped_all h.mapped hoff) hwr.other hb (fun hc => ?_) fun j c nm hc => ?_
      · rw [← view_type hlt] at hc
        exact absurd hc hnd
      · rw [view_ent_none hnd] at hc
        cases hc

theorem ent_of_size_zero (h : (node fs.disk n).size = 0) : (view fs).ent n j = none := by
  by_cases hdir : (view fs).type n = typeDir
  · rw [view_ent hdir]
    exact entry_none_of_size (by omega)
  · exact view_ent_none hdir

theorem itrunc_view (h : Good fs) (hx : (view fs).seat i = some x) (ht : (view fs).type x.no ≠ typeNone) :
    ∃ fs', fs.itrunc i = some fs' ∧ Truncated i x.no fs fs' ∧ view fs' = (view fs).trunc x.no ∧ Good fs' := by
  have hl := h.layer hx ht
  have hlt := lt_of_type ht
  obtain ⟨fs', he, htr⟩ := itrunc_eq hl.inv hl.active
  have hsize : (node fs'.disk x.no).size = 0 := by rw [htr.self]
  refine ⟨fs', he, htr, Ns.ext (funext fun d => ?_) (funext fun d => funext fun j => ?_) (seat_dinode htr.inodes), ?_⟩
  · show _ = (view fs).type d
    by_cases hd : d = x.no
    · rw [hd, view_type hlt, view_type hlt, htr.self]
    · exact (view_frame htr.other htr.bytes hd).1
  · show _ = Function.update (view fs).ent x.no (fun _ => none) d j
    by_cases hd : d = x.no
    · rw [hd, Function.update_self, ent_of_size_zero hsize]
    · rw [Function.update_of_ne hd]
      exact (view_frame htr.other htr.bytes hd).2 j
  · refine h.of_frame htr.inv (htr.mapped_all h.mapped) htr.other htr.bytes (fun _ => ?_) fun j c nm hc => ?_
    · rw [hsize]
    · rw [ent_of_size_zero hsize] at hc
      cases hc

/-! ## `iclose` -/

theorem seatOf_drop (hx : (view fs).seat i = some x) :
    seatOf { fs.inodes i with ref := (fs.inodes i).ref - 1 } =
      if x.ref = 1 then none else some { x with ref := x.ref - 1 } := by
  obtain ⟨h1, h2, h3, h4⟩ := view_seat.1 hx
  unfold seatOf
  simp only [h2, h4, h3]
  split
  · rw [if_neg (by omega)]
  · rw [if_pos (by omega)]

/-- `difree` of an inode without blocks, and the seat given up. -/
theorem difree_view {n : Nat} (h : Good fs) (hx : (view fs).seat i = some x) (h1 : x.ref = 1) (hn : n = x.no)
    (ha : (node fs.disk n).addrs = fun _ => 0) :
    ∃ m', fs.difree n = some { fs with disk := m' } ∧
      view (Fs.setInode { fs with disk := m' } i { fs.inodes i with ref := (fs.inodes i).ref - 1 }) =
        ((view fs).free n).setSeat i none ∧
      Good (Fs.setInode { fs with disk := m' } i { fs.inodes i with ref := (fs.inodes i).ref - 1 }) := by
  obtain ⟨hr, hno, hre, -⟩ := view_seat.1 hx
  have hlt : n < 1920 := hn ▸ (h.seat_lt hx).2
  have hz : Dinode.zero.Fits := ⟨by decide, by decide, by decide, fun _ => show 0 < 2 ^ 32 by decide, fun _ _ => rfl⟩
  obtain ⟨m', he, hset⟩ := diwrite_eq h.inv.sb hlt hz
  refine ⟨m', he, ?_⟩
  have hadd : Dinode.zero.addrs = (node fs.disk n).addrs := ha.symm
  generalize hfs' : Fs.setInode { fs with disk := m' } i { fs.inodes i with ref := (fs.inodes i).ref - 1 } = fs'
  have hd : fs'.disk = m' := by rw [← hfs']; rfl
  have hother : ∀ j < 1920, j ≠ n → node fs'.disk j = node fs.disk j := fun j hj hne => by
    rw [hd]; exact hset.other j hne hj
  have hb : ∀ j < 1920, j ≠ n → ∀ o, byteAt fs'.disk j o = byteAt fs.disk j o := fun j hj _ o => by
    rw [hd]; exact hset.byteAt hadd h.inv.owned hj o
  have hself : node fs'.disk n = Dinode.zero := by rw [hd, hset.self]
  have hsize : (node fs'.disk n).size = 0 := by rw [hself]; rfl
  have htype : (view fs').type n = typeNone := by rw [view_type hlt, hself]; rfl
  have hinodes : fs'.inodes = Function.update fs.inodes i { fs.inodes i with ref := (fs.inodes i).ref - 1 } := by
    rw [← hfs']; rfl
  constructor
  · refine Ns.ext (funext fun d => ?_) (funext fun d => funext fun j => ?_) (funext fun j => ?_)
    · show _ = Function.update (view fs).type n typeNone d
      by_cases hdn : d = n
      · rw [hdn, Function.update_self, htype]
      · rw [Function.update_of_ne hdn]
        exact (view_frame hother hb hdn).1
    · show _ = Function.update (view fs).ent n (fun _ => none) d j
      by_cases hdn : d = n
      · rw [hdn, Function.update_self, ent_of_size_zero hsize]
      · rw [Function.update_of_ne hdn]
        exact (view_frame hother hb hdn).2 j
    · show seatOf (fs'.inodes j) = Function.update (view fs).seat i none j
      rw [hinodes]
      by_cases hj : j = i
      · rw [hj, Function.update_self, Function.update_self, seatOf_drop hx, if_pos h1]
      · rw [Function.update_of_ne hj, Function.update_of_ne hj]
        rfl
  · refine h.of_frame ⟨?_, ?_, ?_⟩ ?_ hother hb (fun _ => by rw [hsize]) fun j c nm hc => ?_
    · rw [← hfs']; exact h.inv.sb
    · rw [hd]; exact hset.owned hadd h.inv.owned fun _ _ => rfl
    · -- the seat is empty now, all others hold other inodes
      have hne : ∀ j, 0 < (fs'.inodes j).ref → j ≠ i ∧ fs'.inodes j = fs.inodes j := fun j hj => by
        by_cases hji : j = i
        · rw [hinodes, hji, Function.update_self, hre, h1] at hj
          exact absurd hj (Int.lt_irrefl 0)
        · exact ⟨hji, by rw [hinodes, Function.update_of_ne hji]⟩
      refine ⟨fun j => ?_, fun j hj => ?_, fun j hj => ?_, fun j hj => ?_, fun j k hj hk hjk => ?_⟩
      · by_cases hji : j = i
        · rw [hinodes, hji, Function.update_self, hre, h1]; exact Int.le_refl 0
        · rw [hinodes, Function.update_of_ne hji]; exact h.inv.table.ref j
      · obtain ⟨-, hje⟩ := hne j hj
        rw [hje] at hj
        exact h.inv.table.small j hj
      · obtain ⟨-, hje⟩ := hne j hj
        rw [hje] at hj ⊢
        exact h.inv.table.no j hj
      · obtain ⟨hji, hje⟩ := hne j hj
        rw [hje] at hj ⊢
        rw [hother _ (h.inv.table.no j hj).2 fun hc => hji (h.inv.table.uniq j i hj hr (hc.trans (hn.trans hno.symm)))]
        exact h.inv.table.same j hj
      · obtain ⟨-, hje⟩ := hne j hj
        obtain ⟨-, hke⟩ := hne k hk
        rw [hje] at hj hjk
        rw [hke] at hk hjk
        exact h.inv.table.uniq j k hj hk hjk
    · intro j hj k hk
      by_cases hjn : j = n
      · rw [hjn, hsize] at hk
        exact absurd hk (Nat.not_lt_zero _)
      · rw [hother j hj hjn] at hk
        rw [hd, hset.blk hadd h.inv.owned hj]
        exact h.mapped j hj k hk
    · rw [ent_of_size_zero hsize] at hc
      cases hc

theorem iclose_view (h : Good fs) (hx : (view fs).seat i = some x)
    (ht : x.ref = 1 → x.del = true → (view fs).type x.no ≠ typeNone) :
    ∃ fs', fs.iclose i = some fs' ∧ view fs' = (view fs).put i ∧ Good fs' := by
  obtain ⟨hr, hno, hre, hde⟩ := view_seat.1 hx
  unfold iclose
  by_cases hlast : (fs.inodes i).ref = 1 ∧ (fs.inodes i).del = true
  · have h1 : x.ref = 1 := hre ▸ hlast.1
    have hd1 : x.del = true := hde ▸ hlast.2
    obtain ⟨fs₁, he, htr, hv, hg⟩ := itrunc_view h hx (ht h1 hd1)
    have hin : fs₁.inodes i = { fs.inodes i with dinode := node fs₁.disk x.no } := by
      rw [htr.inodes, Function.update_self]
    have hx₁ : (view fs₁).seat i = some x := by rw [hv]; exact hx
    have hno₁ : (fs₁.inodes i).no = x.no := by rw [hin]; exact hno
    obtain ⟨m', hf, hv₂, hg₂⟩ := difree_view hg hx₁ h1 hno₁ (by rw [hno₁, htr.self])
    refine ⟨_, ?_, hv₂.trans ?_, hg₂⟩
    · rw [if_pos hlast, he]
      simp only [Option.bind_eq_bind, Option.bind_some, hf, Option.pure_def]
    · rw [Ns.put_last hx h1, if_pos hd1, hno₁, hv]
      refine Ns.ext rfl ?_ rfl
      show Function.update (Function.update (view fs).ent x.no _) x.no _ = _
      rw [Function.update_idem]
      rfl
  · refine ⟨_, by rw [if_neg hlast]; rfl, ?_, ?_⟩
    · rw [view_setInode, seatOf_drop hx]
      by_cases h1 : x.ref = 1
      · rw [if_pos h1, Ns.put_last hx h1, if_neg]
        intro hd
        exact hlast ⟨hre.trans h1, hde.trans hd⟩
      · rw [if_neg h1, Ns.put_ref hx h1]
    · refine h.of_table rfl rfl (h.inv.table.setInode _ (by show 0 ≤ (fs.inodes i).ref - 1; omega) fun _ =>
        ⟨h.inv.table.small i hr, h.inv.table.no i hr, h.inv.table.same i hr, fun j hj hjr hjn => hj ?_⟩)
      exact h.inv.table.uniq j i hjr hr hjn

/-- Inode `n` in slot `i` is gone: its disk inode is cleared, all others are as they were. -/
structure Vanished (i n : Nat) (fs fs' : Fs) : Prop where
  self : node fs'.disk n = Dinode.zero
  other : ∀ j < 1920, j ≠ n → node fs'.disk j = node fs.disk j
  blks : ∀ j < 1920, j ≠ n → ∀ k, blk fs'.disk j k = blk fs.disk j k
  bytes : ∀ j < 1920, j ≠ n → ∀ o, byteAt fs'.disk j o = byteAt fs.disk j o
  slots : ∀ j, j ≠ i → fs'.inodes j = fs.inodes j

/-- The last reference to a removed inode. -/
theorem iclose_last (h : Good fs) (hx : (view fs).seat i = some x) (h1 : x.ref = 1) (hd : x.del = true)
    (ht : (view fs).type x.no ≠ typeNone) : ∃ fs', fs.iclose i = some fs' ∧ Vanished i x.no fs fs' := by
  obtain ⟨-, hno, hre, hde⟩ := view_seat.1 hx
  have hlt := (h.seat_lt hx).2
  obtain ⟨fs₁, he, htr, -, hg⟩ := itrunc_view h hx ht
  have hno₁ : (fs₁.inodes i).no = x.no := by
    rw [htr.inodes, Function.update_self]
    exact hno
  have hz : Dinode.zero.Fits := ⟨by decide, by decide, by decide, fun _ => show 0 < 2 ^ 32 by decide, fun _ _ => rfl⟩
  obtain ⟨m', hw, hset⟩ := diwrite_eq hg.inv.sb hlt hz
  have hadd : Dinode.zero.addrs = (node fs₁.disk x.no).addrs := by rw [htr.self]; rfl
  refine ⟨Fs.setInode { fs₁ with disk := m' } i { fs₁.inodes i with ref := (fs₁.inodes i).ref - 1 }, ?_, ?_⟩
  · unfold iclose difree
    rw [if_pos ⟨hre.trans h1, hde.trans hd⟩, he]
    simp only [Option.bind_eq_bind, Option.bind_some, hno₁, hw, Option.pure_def]
  · refine ⟨hset.self, fun j hj hne => ?_, fun j hj hne k => ?_, fun j hj hne o => ?_, fun j hj => ?_⟩
    · exact (hset.other j hne hj).trans (htr.other j hj hne)
    · exact (hset.blk hadd hg.inv.owned hj k).trans (htr.blks j hj hne k)
    · exact (hset.byteAt hadd hg.inv.owned hj o).trans (htr.bytes j hj hne o)
    · show Function.update fs₁.inodes i _ j = _
      rw [Function.update_of_ne hj, htr.inodes, Function.update_of_ne hj]

/-- Closing an inode leaves all others alone, and itself unless it goes. -/
theorem iclose_keeps (h : Good fs) (hx : (view fs).seat i = some x) (ht : (view fs).type x.no ≠ typeNone)
    (he : fs.iclose i = some fs') (hj : j < 1920) (hlast : j = x.no → x.ref ≠ 1 ∨ x.del = false) :
    Keeps j fs.disk fs'.disk := by
  obtain ⟨-, hno, hre, hde⟩ := view_seat.1 hx
  by_cases hc : x.ref = 1 ∧ x.del = true
  · obtain ⟨fs₁, h1, h2⟩ := iclose_last h hx hc.1 hc.2 ht
    obtain rfl := Option.some.inj (he.symm.trans h1)
    have hne : j ≠ x.no := fun hj => by
      rcases hlast hj with h1 | h1
      · exact h1 hc.1
      · rw [hc.2] at h1
        cases h1
    exact ⟨h2.other j hj hne, fun k _ => h2.blks j hj hne k, h2.bytes j hj hne⟩
  · unfold iclose at he
    rw [if_neg (by rw [hre, hde]; exact hc)] at he
    cases he
    exact Keeps.refl _ _

end TinyOS.Fs
