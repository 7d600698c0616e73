/-
Directories as part of the namespace: writing an entry, allocating an inode, and `ilookup`, which
opens the inode of a name or makes one.
-/
import TinyOS.Fs.Seats

namespace TinyOS.Fs

open TinyOS.Lib

variable {fs fs' : Fs} {i j n d p t : Nat} {x : Seat} {name : List UInt8}

/-! ## Entries written -/

/-- Writing an entry into a directory. -/
theorem iwrite_ent {e : Dirent} {r : Option Nat} (h : Good fs) (hx : (view fs).seat i = some x)
    (ht : (view fs).type x.no = typeDir) (hj : 32 * j ≤ (node fs.disk x.no).size) (hn : e.name.length = 28)
    (hi : e.inode < 1920) (hloop : cstr e.name ≠ dot → cstr e.name ≠ dotdot → e.inode ≠ x.no)
    (hw : fs.iwrite i (32 * j) e.bytes = some (r, fs')) :
    view fs' = (view fs).setEnt x.no j (if e.inode = 0 then none else some (e.inode, cstr e.name)) ∧ Good fs' ∧
      (node fs'.disk x.no).size = max (node fs.disk x.no).size (32 * j + 32) ∧
      ∀ k < 1920, k ≠ x.no → Keeps k fs.disk fs'.disk := by
  have hl := h.layer hx (ht.symm ▸ by decide)
  have hlt := (h.seat_lt hx).2
  rcases iwrite_some hl.inv hl.mapped hl.active hw with ⟨hbad, -⟩ | ⟨-, -, hwr⟩
  · omega
  -- the other inodes keep their bytes, and the directory changes in one entry
  have hb : ∀ k < 1920, k ≠ x.no → ∀ o, byteAt fs'.disk k o = byteAt fs.disk k o := fun k hk hne o => by
    rw [hwr.bytes k hk, if_neg hne]
  have hself : (view fs').type x.no = (view fs).type x.no := by rw [view_type hlt, view_type hlt, hwr.self]
  have hent : ∀ k, (view fs').ent x.no k =
      if k = j then (if e.inode = 0 then none else some (e.inode, cstr e.name)) else (view fs).ent x.no k := fun k => by
    rw [view_ent (hself.trans ht), view_ent ht, hwr.entry hlt hj (by omega) hn]
  have hsize : (node fs'.disk x.no).size = max (node fs.disk x.no).size (32 * j + 32) := by
    rw [hwr.self, Dirent.bytes_length hn]
  refine ⟨Ns.ext (funext fun c => ?_) (funext fun c => funext fun k => ?_) (seat_dinode hwr.inodes), ?_, hsize,
    fun k hk hne => hwr.keeps hk hne⟩
  · show _ = (view fs).type c
    by_cases hc : c = x.no
    · rw [hc, hself]
    · exact (view_frame hwr.other hb hc).1
  · by_cases hc : c = x.no
    · rw [hc, hent]
      split
      · next hk => rw [hk, Ns.setEnt_self]
      · next hk => rw [Ns.setEnt_ne (Or.inr hk)]
    · rw [Ns.setEnt_ne (Or.inl hc)]
      exact (view_frame hwr.other hb hc).2 k
  · refine h.of_frame hwr.inv (hwr.mapped_all h.mapped hj) hwr.other hb (fun _ => ?_) fun k c nm hc => ?_
    · have h32 := h.size x.no hlt (by rw [← view_type hlt]; exact ht)
      rw [hsize]
      omega
    · rw [hent] at hc
      split at hc
      · split at hc
        · cases hc
        · cases hc
          exact ⟨hi, hloop⟩
      · exact h.ent _ _ _ _ hc

/-- The bytes of a directory into which an entry is written. -/
theorem iwrite_bytes {buf : List UInt8} {r : Option Nat} (h : Good fs) (hx : (view fs).seat i = some x)
    (ht : (view fs).type x.no ≠ typeNone) (hj : 32 * j ≤ (node fs.disk x.no).size)
    (hw : fs.iwrite i (32 * j) buf = some (r, fs')) (o : Nat) :
    byteAt fs'.disk x.no o = (patch (32 * j) buf o).getD (byteAt fs.disk x.no o) := by
  have hl := h.layer hx ht
  rcases iwrite_some hl.inv hl.mapped hl.active hw with ⟨hbad, -⟩ | ⟨-, -, hwr⟩
  · omega
  · rw [hwr.bytes x.no (h.seat_lt hx).2, if_pos rfl]

/-- The same, for the whole content. -/
theorem iwrite_content {buf : List UInt8} {o : Nat} {r : Option Nat} (h : Good fs) (hx : (view fs).seat i = some x)
    (ht : (view fs).type x.no ≠ typeNone) (ho : o ≤ (node fs.disk x.no).size) (hw : fs.iwrite i o buf = some (r, fs')) :
    content fs'.disk x.no = (content fs.disk x.no).take o ++ buf ++ (content fs.disk x.no).drop (o + buf.length) := by
  have hl := h.layer hx ht
  rcases iwrite_some hl.inv hl.mapped hl.active hw with ⟨hbad, -⟩ | ⟨-, -, hwr⟩
  · omega
  · exact hwr.content (h.seat_lt hx).2 ho

theorem content_empty {m : Store} (h : (node m n).size = 0) : content m n = [] := by
  unfold content
  rw [h, bytesAt_zero]

/-! ## `dialloc` -/

theorem diallocLoop_some (hsb : fs.sb = Super.std) :
    ∀ {k l : Nat}, fs.diallocLoop t k l = some (n, fs') → l ≤ n ∧ n < l + k ∧ (node fs.disk n).type = typeNone ∧
      fs.diwrite ⟨t, 0, 0, fun _ => 0⟩ n = some fs'
  | 0, _, h => by cases h
  | k + 1, l, h => by
    unfold diallocLoop at h
    rw [diread_eq hsb] at h
    simp only [Option.bind_eq_bind, Option.bind_some] at h
    split at h
    · next ht =>
      obtain ⟨fs₁, hw, h⟩ := Option.bind_eq_some_iff.1 h
      cases h
      exact ⟨Nat.le_refl _, by omega, ht, hw⟩
    · obtain ⟨h1, h2, h3⟩ := diallocLoop_some hsb h
      exact ⟨by omega, by omega, h3⟩

/-- `dialloc` takes an inode that is not in use. -/
theorem dialloc_view (h : Good fs) (hl : (view fs).Live) (ht : t < 2 ^ 32)
    (he : fs.dialloc t = some (n, fs')) :
    0 < n ∧ n < 1920 ∧ (view fs).type n = typeNone ∧ view fs' = (view fs).alloc n t ∧ Good fs' ∧
      (node fs'.disk n).size = 0 ∧ ∀ k < 1920, k ≠ n → Keeps k fs.disk fs'.disk := by
  unfold dialloc at he
  rw [h.inv.sb] at he
  obtain ⟨h1, h2, hnone, hw⟩ := diallocLoop_some h.inv.sb he
  have hlt : n < 1920 := by simp only [Super.std] at h2; omega
  have hfit : Dinode.Fits ⟨t, 0, 0, fun _ => 0⟩ :=
    ⟨ht, show 0 < 2 ^ 32 by decide, show 0 < 2 ^ 32 by decide, fun _ => show 0 < 2 ^ 32 by decide, fun _ _ => rfl⟩
  obtain ⟨m', hw', hset⟩ := diwrite_eq h.inv.sb hlt hfit
  have hfs : { fs with disk := m' } = fs' := Option.some.inj (hw'.symm.trans hw)
  have hin : fs'.inodes = fs.inodes := by rw [← hfs]
  have hsb : fs'.sb = fs.sb := by rw [← hfs]
  obtain rfl : m' = fs'.disk := by rw [← hfs]
  clear hfs hw hw'
  have hnone' : (view fs).type n = typeNone := (view_type hlt).trans hnone
  have hadd : (⟨t, 0, 0, fun _ => 0⟩ : Dinode).addrs = (node fs.disk n).addrs :=
    funext fun k => (h.inv.owned.none n hlt hnone k).symm
  have hother : ∀ k < 1920, k ≠ n → node fs'.disk k = node fs.disk k := fun k hk hne => hset.other k hne hk
  have hb : ∀ k < 1920, k ≠ n → ∀ o, byteAt fs'.disk k o = byteAt fs.disk k o := fun k hk _ o =>
    hset.byteAt hadd h.inv.owned hk o
  have hsize : (node fs'.disk n).size = 0 := by rw [hset.self]
  -- the new inode was free, so no seat holds it
  have hfree : ∀ k, 0 < (fs.inodes k).ref → (fs.inodes k).no ≠ n := fun k hk hkn =>
    hl n (hkn ▸ held_of_ref hk) hnone'
  refine ⟨h1, hlt, hnone', Ns.ext (funext fun c => ?_) (funext fun c => funext fun k => ?_) ?_, ?_, hsize,
    fun k hk hne => ⟨hother k hk hne, fun l _ => hset.blk hadd h.inv.owned hk l, hb k hk hne⟩⟩
  · show _ = Function.update (view fs).type n t c
    by_cases hc : c = n
    · rw [hc, Function.update_self, view_type hlt, hset.self]
    · rw [Function.update_of_ne hc]
      exact (view_frame hother hb hc).1
  · by_cases hc : c = n
    · rw [hc, Ns.alloc_ent_self, ent_of_size_zero hsize]
    · rw [Ns.alloc_ent_ne hc]
      exact (view_frame hother hb hc).2 k
  · show (fun k => seatOf (fs'.inodes k)) = fun k => seatOf (fs.inodes k)
    rw [hin]
  · refine h.of_frame ⟨hsb.trans h.inv.sb, ?_, ?_⟩ ?_ hother hb (fun _ => by rw [hsize]) fun k c nm hc => ?_
    · exact hset.owned hadd h.inv.owned fun _ _ => rfl
    · refine ⟨hin ▸ h.inv.table.ref, hin ▸ h.inv.table.small, hin ▸ h.inv.table.no, fun k hk => ?_,
        hin ▸ h.inv.table.uniq⟩
      rw [hin] at hk ⊢
      rw [hother _ (h.inv.table.no k hk).2 (hfree k hk)]
      exact h.inv.table.same k hk
    · intro k hk l hl'
      by_cases hkn : k = n
      · rw [hkn, hsize] at hl'
        exact absurd hl' (Nat.not_lt_zero _)
      · rw [hother k hk hkn] at hl'
        rw [hset.blk hadd h.inv.owned hk]
        exact h.mapped k hk l hl'
    · rw [ent_of_size_zero hsize] at hc
      cases hc

/-! ## `idirinit` -/

theorem cstr_dot : cstr dot = dot := rfl

theorem cstr_dotdot : cstr dotdot = dotdot := rfl

/-- The disk inode of a seat. -/
theorem seat_node (h : Good fs) (hx : (view fs).seat i = some x) : (fs.inodes i).dinode = node fs.disk x.no := by
  obtain ⟨h1, h2, -⟩ := view_seat.1 hx
  rw [← h2]
  exact h.inv.table.same i h1

theorem seat_no (hx : (view fs).seat i = some x) : (fs.inodes i).no = x.no := (view_seat.1 hx).2.1

theorem seat_type (h : Good fs) (hx : (view fs).seat i = some x) : (fs.inodes i).dinode.type = (view fs).type x.no := by
  rw [seat_node h hx, view_type (h.seat_lt hx).2]

/-- The bytes of a new directory `n` in directory `d`: `.` and `..`. -/
def dots (n d : Nat) : List UInt8 :=
  Dirent.bytes ⟨n, strcpy Dirent.zero.name dot⟩ ++ Dirent.bytes ⟨d, strcpy (strcpy Dirent.zero.name dot) dotdot⟩

theorem idirinit_view {y : Seat} (h : Good fs) (hx : (view fs).seat i = some x) (hy : (view fs).seat p = some y)
    (he : fs.idirinit i p = some fs') :
    view fs' = (view fs).dirInit x.no y.no ∧ Good fs' ∧ content fs'.disk x.no = dots x.no y.no ∧
      ∀ k < 1920, k ≠ x.no → Keeps k fs.disk fs'.disk := by
  unfold idirinit at he
  simp only [seat_no hx, seat_node h hx, seat_node h hy] at he
  by_cases htx : (node fs.disk x.no).type = typeDir
  swap; · rw [if_pos htx] at he; cases he
  by_cases hty : (node fs.disk y.no).type = typeDir
  swap; · rw [if_neg (not_not.2 htx), if_pos hty] at he; cases he
  by_cases hsize : (node fs.disk x.no).size = 0
  swap; · rw [if_neg (not_not.2 htx), if_neg (not_not.2 hty), if_pos hsize] at he; cases he
  rw [if_neg (not_not.2 htx), if_neg (not_not.2 hty), if_neg (not_not.2 hsize)] at he
  simp only [Option.bind_eq_bind, Option.pure_def] at he
  obtain ⟨⟨r₁, fs₁⟩, hw₁, he⟩ := Option.bind_eq_some_iff.1 he
  obtain ⟨⟨r₂, fs₂⟩, hw₂, he⟩ := Option.bind_eq_some_iff.1 he
  cases he
  have hzero : Dirent.zero.name.length = 28 := List.length_replicate
  have hdot : (strcpy Dirent.zero.name dot).length = 28 := strcpy_length (by rw [hzero]; decide)
  have hdotdot : (strcpy (strcpy Dirent.zero.name dot) dotdot).length = 28 := strcpy_length (by rw [hdot]; decide)
  obtain ⟨hx0, hxlt⟩ := h.seat_lt hx
  obtain ⟨hy0, hylt⟩ := h.seat_lt hy
  rw [← view_type hxlt] at htx
  obtain ⟨hv₁, hg₁, hs₁, hk₁⟩ := iwrite_ent (j := 0) h hx htx (Nat.zero_le _) hdot hxlt
    (fun hc => absurd cstr_strcpy hc) hw₁
  rw [cstr_strcpy, cstr_dot, if_neg (Nat.pos_iff_ne_zero.1 hx0)] at hv₁
  have hx₁ : (view fs₁).seat i = some x := by rw [hv₁]; exact hx
  have hy₁ : (view fs₁).seat p = some y := by rw [hv₁]; exact hy
  rw [seat_no hy₁] at hw₂
  obtain ⟨hv₂, hg₂, -, hk₂⟩ := iwrite_ent (j := 1) hg₁ hx₁ (by rw [hv₁]; exact htx) (by rw [hs₁]; omega) hdotdot hylt
    (fun _ hc => absurd cstr_strcpy hc) hw₂
  rw [cstr_strcpy, cstr_dotdot, if_neg (Nat.pos_iff_ne_zero.1 hy0), hv₁] at hv₂
  -- the first entry ends where the second one begins
  have hc₁ := iwrite_content h hx (by rw [htx]; decide) (Nat.zero_le _) hw₁
  rw [content_empty hsize, List.take_nil, List.drop_nil, List.nil_append, List.append_nil] at hc₁
  have hlen := Dirent.bytes_length (e := ⟨x.no, strcpy Dirent.zero.name dot⟩) hdot
  have hc₂ := iwrite_content (o := direntSize) hg₁ hx₁ (by rw [hv₁]; show (view fs).type x.no ≠ _; rw [htx]; decide)
    (by rw [hs₁]; show 32 ≤ _; omega) hw₂
  rw [hc₁, List.take_of_length_le (Nat.le_of_eq hlen),
    List.drop_of_length_le (by rw [hlen]; exact Nat.le_add_right 32 _), List.append_nil] at hc₂
  exact ⟨hv₂, hg₂, hc₂, fun k hk hne => (hk₁ k hk hne).trans (hk₂ k hk hne)⟩

/-! ## `ilookup` -/

/-- Inode `n` came into being under the name `nm` in directory `d`, with a reference to it. -/
structure Created (s : Ns) (d j n t : Nat) (nm : List UInt8) (i : Nat) (s' : Ns) : Prop where
  dir : s.type d = typeDir
  lt : 0 < n ∧ n < 1920
  new : s.type n = typeNone
  empty : s.ent d j = none
  unique : ∀ k m, s.ent d k ≠ some (m, nm)
  room : s.Room i n
  eq : s' = (s.create d j n t nm).get i n

theorem Created.ne {s s' : Ns} {nm : List UInt8} (h : Created s d j n t nm i s') : d ≠ n := by
  rintro rfl
  have := h.new.symm.trans h.dir
  cases this

/-- Disk `m` with one entry more: inode `n` of type `t`, as entry `j` of directory `d`, with the name `nm`. A new
directory holds the two dots, and a new file nothing. -/
structure Entered (m : Store) (d j n t : Nat) (nm : List UInt8) (m' : Store) : Prop where
  dir : d < 1920 ∧ (node m d).type = typeDir
  new : 0 < n ∧ n < 1920 ∧ (node m n).type = typeNone
  place : 32 * j ≤ (node m d).size ∧ entry m d j = none
  unique : ∀ k l, entry m d k ≠ some (l, nm)
  bytes : ∃ e : Dirent, e.inode = n ∧ e.name.length = 28 ∧ cstr e.name = nm ∧
    content m' d = (content m d).take (32 * j) ++ e.bytes ++ (content m d).drop (32 * j + 32)
  type : (node m' d).type = typeDir
  made : (node m' n).type = t ∧ content m' n = if t = typeDir then dots n d else []
  other : ∀ k < 1920, k ≠ n → k ≠ d → Keeps k m m'

variable {m m' : Store} {nm : List UInt8} {k : Nat}

/-- What is in use and no directory stays as it was. -/
theorem Entered.keeps (h : Entered m d j n t nm m') (hk : k < 1920) (hn : (node m k).type ≠ typeNone)
    (hd : (node m k).type ≠ typeDir) : Keeps k m m' := by
  refine h.other k hk (fun hc => ?_) fun hc => ?_
  · rw [hc] at hn
    exact hn h.new.2.2
  · rw [hc] at hd
    exact hd h.dir.2

/-- A new inode `n` of type `t` has its entry in directory `d` and its seat, a directory not yet its dots. -/
structure Seated (fs : Fs) (d j n t : Nat) (nm : List UInt8) (i : Nat) (fs' : Fs) : Prop where
  dir : d < 1920 ∧ (view fs).type d = typeDir
  new : 0 < n ∧ n < 1920 ∧ (view fs).type n = typeNone
  room : (view fs).Room i n
  eq : view fs' = (((view fs).alloc n t).setEnt d j (some (n, nm))).get i n
  good : Good fs'
  bytes : ∃ e : Dirent, e.inode = n ∧ e.name.length = 28 ∧ cstr e.name = nm ∧
    content fs'.disk d = (content fs.disk d).take (32 * j) ++ e.bytes ++ (content fs.disk d).drop (32 * j + 32)
  nil : content fs'.disk n = []
  other : ∀ k < 1920, k ≠ n → k ≠ d → Keeps k fs.disk fs'.disk

theorem ilookup_seated {fs₁ fs₂ : Fs} {e : Dirent} {r : Option Nat} (h : Good fs) (hx : (view fs).seat p = some x)
    (hdir : (view fs).type x.no = typeDir) (hlive : (view fs).Live) (ht : t < 2 ^ 32) (hn : name.length < 28)
    (hlen : e.name.length = 28) (hj : 32 * j ≤ (node fs.disk x.no).size) (hal : fs.dialloc t = some (n, fs₁))
    (hwr : fs₁.iwrite p (32 * j) (Dirent.bytes ⟨n, strcpy e.name name⟩) = some (r, fs₂))
    (hget : fs₂.iget n = some (i, fs')) : Seated fs x.no j n t (cstr name) i fs' := by
  have hxlt := (h.seat_lt hx).2
  obtain ⟨hn0, hnlt, hnone, hv₁, hg₁, hsize₁, hkeep₁⟩ := dialloc_view h hlive ht hal
  have hne : x.no ≠ n := by
    rintro hc
    rw [← hc, hdir] at hnone
    cases hnone
  have hx₁ : (view fs₁).seat p = some x := by rw [hv₁]; exact hx
  have hdir₁ : (view fs₁).type x.no = typeDir := by
    rw [hv₁]
    exact (Function.update_of_ne hne ..).trans hdir
  have hname : (cstr name).length < e.name.length := by
    have := cstr_length_le (a := name)
    omega
  have hj₁ : 32 * j ≤ (node fs₁.disk x.no).size := by
    rw [(hkeep₁ _ hxlt hne).node]
    exact hj
  have hcpy := (strcpy_length hname).trans hlen
  obtain ⟨hv₂, hg₂, -, hkeep₂⟩ := iwrite_ent hg₁ hx₁ hdir₁ hj₁ hcpy hnlt (fun _ _ => Ne.symm hne) hwr
  rw [cstr_strcpy, if_neg (Nat.pos_iff_ne_zero.1 hn0), hv₁] at hv₂
  obtain ⟨hroom, hv₃, hg₃, hdisk₃⟩ := iget_view hg₂ hn0 hnlt hget
  have hbytes := iwrite_content hg₁ hx₁ (by rw [hdir₁]; decide) hj₁ hwr
  rw [(hkeep₁ _ hxlt hne).content, Dirent.bytes_length hcpy, ← hdisk₃] at hbytes
  rw [hv₂] at hv₃ hroom
  refine ⟨⟨hxlt, hdir⟩, ⟨hn0, hnlt, hnone⟩, hroom, hv₃, hg₃, ⟨_, rfl, hcpy, cstr_strcpy, hbytes⟩, ?_,
    fun k hk hkn hkx => ?_⟩
  · rw [hdisk₃, (hkeep₂ n hnlt (Ne.symm hne)).content]
    exact content_empty hsize₁
  · rw [hdisk₃]
    exact (hkeep₁ k hk hkn).trans (hkeep₂ k hk hkx)

namespace Seated

variable {fs₁ : Fs}

theorem ne (h : Seated fs d j n t nm i fs₁) : d ≠ n := by
  rintro rfl
  have := h.new.2.2.symm.trans h.dir.2
  cases this

theorem type_dir (h : Seated fs d j n t nm i fs₁) : (node fs₁.disk d).type = typeDir := by
  rw [← view_type h.dir.1, h.eq]
  exact (Function.update_of_ne h.ne ..).trans h.dir.2

theorem type_new (h : Seated fs d j n t nm i fs₁) : (node fs₁.disk n).type = t := by
  rw [← view_type h.new.2.1, h.eq]
  exact Function.update_self ..

/-- The seat of the directory is another one than that of the new inode. -/
theorem seat (h : Seated fs x.no j n t nm i fs₁) (hx : (view fs).seat p = some x) : (view fs₁).seat p = some x := by
  have hpi : p ≠ i := by
    rintro rfl
    rcases h.room with ⟨y, hy, hyn⟩ | ⟨hy, -⟩
    · rw [hx] at hy
      cases hy
      exact h.ne hyn
    · rw [hx] at hy
      cases hy
  rw [h.eq, Ns.get_seat_ne hpi]
  exact hx

/-- What `Entered` asks of a disk that has what `n` wants by its type. -/
theorem entered (h : Seated fs d j n t nm i fs₁) (hj : 32 * j ≤ (node fs.disk d).size)
    (hfree : entry fs.disk d j = none) (hno : ∀ k l, entry fs.disk d k ≠ some (l, nm)) (hd : Keeps d fs₁.disk m')
    (hmade : (node m' n).type = t ∧ content m' n = if t = typeDir then dots n d else [])
    (hother : ∀ k < 1920, k ≠ n → Keeps k fs₁.disk m') : Entered fs.disk d j n t nm m' := by
  obtain ⟨e, h1, h2, h3, hb⟩ := h.bytes
  refine ⟨⟨h.dir.1, ?_⟩, ⟨h.new.1, h.new.2.1, ?_⟩, ⟨hj, hfree⟩, hno, ⟨e, h1, h2, h3, hd.content.trans hb⟩, ?_, hmade,
    fun k hk hkn hkd => (h.other k hk hkn hkd).trans (hother k hk hkn)⟩
  · rw [← view_type h.dir.1]
    exact h.dir.2
  · rw [← view_type h.new.2.1]
    exact h.new.2.2
  · rw [hd.node]
    exact h.type_dir

theorem created {s' : Ns} (h : Seated fs d j n t nm i fs₁) (hfree : (view fs).ent d j = none)
    (hno : ∀ k m, (view fs).ent d k ≠ some (m, nm)) (hs : s' = ((view fs).create d j n t nm).get i n) :
    Created (view fs) d j n t nm i s' :=
  ⟨h.dir.2, ⟨h.new.1, h.new.2.1⟩, h.new.2.2, hfree, hno, h.room, hs⟩

end Seated

/-- `ilookup` finds the name, or finds nothing, or makes an inode of that name. -/
theorem ilookup_view {r : Option (Nat × Nat)} (h : Good fs) (hx : (view fs).seat p = some x) (hn : name.length < 28)
    (he : fs.ilookup p name t = some (r, fs')) :
    (view fs).type x.no = typeDir ∧
      ((∃ i j n, r = some (i, 32 * j) ∧ (view fs).ent x.no j = some (n, cstr name) ∧ (view fs).Room i n ∧
          view fs' = (view fs).get i n ∧ Good fs' ∧ fs'.disk = fs.disk) ∨
        (r = none ∧ t = typeNone ∧ fs' = fs ∧ ∀ k m, (view fs).ent x.no k ≠ some (m, cstr name)) ∨
        (t ≠ typeNone ∧ ((view fs).Live → t < 2 ^ 32 → ∃ i j n, r = some (i, 32 * j) ∧
          Created (view fs) x.no j n t (cstr name) i (view fs') ∧ Good fs' ∧
          (∀ k < j, (view fs).ent x.no k ≠ none) ∧ Entered fs.disk x.no j n t (cstr name) fs'.disk))) := by
  have hxlt := (h.seat_lt hx).2
  unfold ilookup at he
  rw [seat_type h hx, seat_node h hx] at he
  by_cases hdir : (view fs).type x.no = typeDir
  swap; · rw [if_pos hdir] at he; cases he
  rw [if_neg (not_not.2 hdir)] at he
  simp only [Option.bind_eq_bind, Option.pure_def, Option.bind_some] at he
  have hdir' : (node fs.disk x.no).type = typeDir := by rw [← view_type hxlt]; exact hdir
  have hrec : (node fs.disk x.no).size / direntSize = (node fs.disk x.no).size / 32 := rfl
  -- the scan finds the name, or it ends and knows the first free entry
  obtain ⟨w, hscan, hw⟩ := ilookupLoop_eq name (h.layer hx (hdir.symm ▸ by decide)) (h.size x.no hxlt hdir')
    ((node fs.disk x.no).size / direntSize + 2) 0 Dirent.zero (node fs.disk x.no).size (Nat.zero_le _) (by omega)
    List.length_replicate
  rw [Nat.mul_zero] at hscan
  rw [hscan, Option.bind_some] at he
  refine ⟨hdir, ?_⟩
  cases w with
  | found off no =>
    left
    obtain ⟨j, -, rfl, hent⟩ := hw
    obtain ⟨⟨i, fs₁⟩, hg, he⟩ := Option.bind_eq_some_iff.1 he
    cases he
    rw [← view_ent hdir] at hent
    obtain ⟨hroom, hv, hgood, hdisk⟩ := iget_view h (entry_some.1 (view_ent hdir ▸ hent)).2.1.bot_lt
      (h.ent _ _ _ _ hent).1 hg
    exact ⟨i, j, no, rfl, hent, hroom, hv, hgood, hdisk⟩
  | missing e empty =>
    right
    obtain ⟨hno, hlen, -, hempty⟩ := hw
    obtain ⟨j, rfl, hj, hfree, hfirst⟩ := hempty rfl
    simp only at he
    -- without a type nothing is created
    by_cases ht : t = typeNone
    · left
      rw [if_pos ht] at he
      cases he
      exact ⟨rfl, ht, rfl, fun k m hk => hno k m (Nat.zero_le _) (view_ent hdir ▸ hk)⟩
    right
    rw [if_neg ht] at he
    refine ⟨ht, fun hlive ht32 => ?_⟩
    obtain ⟨⟨n, fs₁⟩, hal, he⟩ := Option.bind_eq_some_iff.1 he
    obtain ⟨⟨r₁, fs₂⟩, hwr, he⟩ := Option.bind_eq_some_iff.1 he
    obtain ⟨⟨i, fs₃⟩, hget, he⟩ := Option.bind_eq_some_iff.1 he
    -- a new inode, its entry, a seat for it, and for a directory the two dots
    have hs := ilookup_seated h hx hdir hlive ht32 hn hlen hj hal hwr hget
    have hno' : ∀ k m, entry fs.disk x.no k ≠ some (m, cstr name) := fun k m => hno k m (Nat.zero_le k)
    have hcreated : ∀ s', s' = ((view fs).create x.no j n t (cstr name)).get i n →
        Created (view fs) x.no j n t (cstr name) i s' := fun s' =>
      hs.created ((view_ent hdir).trans hfree) fun k m => view_ent hdir ▸ hno' k m
    replace hfirst : ∀ k < j, (view fs).ent x.no k ≠ none := fun k hk => by
      rw [view_ent hdir]
      exact hfirst k (Nat.zero_le k) hk
    by_cases hd : t = typeDir
    · rw [if_pos hd] at he
      obtain ⟨fs₄, hinit, he⟩ := Option.bind_eq_some_iff.1 he
      cases he
      obtain ⟨z, hz, hzn⟩ := hs.room.get_some
      obtain ⟨hv₄, hg₄, hdots, hkeep₄⟩ := idirinit_view hs.good (by rw [hs.eq]; exact hz) (hs.seat hx) hinit
      rw [hzn] at hv₄ hdots hkeep₄
      refine ⟨i, j, n, rfl, hcreated _ ?_, hg₄, hfirst, hs.entered hj hfree hno' (hkeep₄ x.no hxlt hs.ne) ⟨?_, ?_⟩
        hkeep₄⟩
      · rw [hv₄, hs.eq, Ns.create, if_pos hd]
        rfl
      · rw [← view_type hs.new.2.1, hv₄]
        show (view fs₃).type n = t
        rw [view_type hs.new.2.1]
        exact hs.type_new
      · rw [if_pos hd]
        exact hdots
    · rw [if_neg hd] at he
      cases he
      refine ⟨i, j, n, rfl, hcreated _ ?_, hs.good, hfirst, hs.entered hj hfree hno' (Keeps.refl ..) ⟨hs.type_new, ?_⟩
        fun k _ _ => Keeps.refl k _⟩
      · rw [hs.eq, Ns.create, if_neg hd]
      · rw [if_neg hd]
        exact hs.nil

end TinyOS.Fs
