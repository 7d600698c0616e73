/-
What the file system is for: a namespace of typed inodes and named entries, with the table of the
inodes in use. Its operations are those that the code of fs.c comes down to.
-/
import Mathlib.Logic.Relation
import TinyOS.Fs.Basic

namespace TinyOS

/-- A seat of the table of inodes in use: an inode, its references, and whether it is removed. -/
@[ext] structure Seat where
  no : Nat
  ref : Int
  del : Bool

/-- The types of the inodes, the entries of the directories, and the inodes in use. -/
@[ext] structure Ns where
  type : Nat → Nat
  ent : Nat → Nat → Option (Nat × List UInt8)
  seat : Nat → Option Seat

namespace Ns

open TinyOS.Fs (typeNone typeDir dot dotdot)

variable {s : Ns} {c d n m p i j k t : Nat} {x : Seat} {nm : List UInt8}

def Held (s : Ns) (n : Nat) : Prop := ∃ i x, s.seat i = some x ∧ x.no = n

/-- Removed, but still in use. -/
def Del (s : Ns) (n : Nat) : Prop := ∃ i x, s.seat i = some x ∧ x.no = n ∧ x.del = true

/-- A directory names an inode. -/
def Names (s : Ns) (d n : Nat) : Prop := ∃ j nm, s.ent d j = some (n, nm)

/-- An inode is reached from another by names. -/
def Walk (s : Ns) : Nat → Nat → Prop := Relation.ReflTransGen s.Names

/-- Nothing in use is unallocated. -/
def Live (s : Ns) : Prop := ∀ n, s.Held n → s.type n ≠ typeNone

/-- References are counted from 1, and no inode has two seats. -/
structure Ok (s : Ns) : Prop where
  pos : ∀ i x, s.seat i = some x → 0 < x.ref
  uniq : ∀ i j x y, s.seat i = some x → s.seat j = some y → x.no = y.no → i = j

/-- Seat `i` is the one for a reference to inode `n`. -/
def Room (s : Ns) (i n : Nat) : Prop := (∃ x, s.seat i = some x ∧ x.no = n) ∨ (s.seat i = none ∧ ¬ s.Held n)

/-! ## The operations -/

def setSeat (s : Ns) (i : Nat) (o : Option Seat) : Ns := { s with seat := Function.update s.seat i o }

/-- Another reference to inode `n`. -/
def get (s : Ns) (i n : Nat) : Ns :=
  s.setSeat i (some ((s.seat i).elim ⟨n, 1, false⟩ fun x => { x with ref := x.ref + 1 }))

def free (s : Ns) (n : Nat) : Ns :=
  { s with type := Function.update s.type n typeNone, ent := Function.update s.ent n fun _ => none }

/-- A reference given back; with the last one a removed inode goes. -/
def put (s : Ns) (i : Nat) : Ns :=
  match s.seat i with
  | none => s
  | some x =>
    if x.ref = 1 then (if x.del then s.free x.no else s).setSeat i none
    else s.setSeat i (some { x with ref := x.ref - 1 })

/-- Entry `j` of directory `d` becomes `o`. -/
def setEnt (s : Ns) (d j : Nat) (o : Option (Nat × List UInt8)) : Ns :=
  { s with ent := Function.update s.ent d (Function.update (s.ent d) j o) }

/-- Inode `n` comes into use, with the type `t` and no content. -/
def alloc (s : Ns) (n t : Nat) : Ns :=
  { s with type := Function.update s.type n t, ent := Function.update s.ent n fun _ => none }

/-- The entries of a new directory: itself and its parent. -/
def dirInit (s : Ns) (n d : Nat) : Ns := (s.setEnt n 0 (some (n, dot))).setEnt n 1 (some (d, dotdot))

/-- Inode `n` of type `t` comes into being as entry `j` of directory `d`. -/
def create (s : Ns) (d j n t : Nat) (nm : List UInt8) : Ns :=
  if t = typeDir then ((s.alloc n t).setEnt d j (some (n, nm))).dirInit n d else (s.alloc n t).setEnt d j (some (n, nm))

/-- The inode of seat `i` is removed. -/
def mark (s : Ns) (i : Nat) : Ns := s.setSeat i ((s.seat i).map fun x => { x with del := true })

/-- Inode `n` loses its content. -/
def trunc (s : Ns) (n : Nat) : Ns := { s with ent := Function.update s.ent n fun _ => none }

/-! ## Entries -/

theorem setEnt_self {o : Option (Nat × List UInt8)} : (s.setEnt d j o).ent d j = o := by
  simp only [setEnt, Function.update_self]

theorem setEnt_ne {o : Option (Nat × List UInt8)} (h : c ≠ d ∨ k ≠ j) : (s.setEnt d j o).ent c k = s.ent c k := by
  simp only [setEnt]
  rcases h with h | h
  · rw [Function.update_of_ne h]
  · by_cases hc : c = d
    · rw [hc, Function.update_self, Function.update_of_ne h]
    · rw [Function.update_of_ne hc]

@[simp] theorem setEnt_type {o : Option (Nat × List UInt8)} : (s.setEnt d j o).type = s.type := rfl

@[simp] theorem setEnt_seat {o : Option (Nat × List UInt8)} : (s.setEnt d j o).seat = s.seat := rfl

theorem alloc_ent_self : (s.alloc n t).ent n j = none := by
  simp only [alloc, Function.update_self]

theorem alloc_ent_ne (h : d ≠ n) : (s.alloc n t).ent d j = s.ent d j := by
  simp only [alloc, Function.update_of_ne h]

@[simp] theorem create_seat : (s.create d j n t nm).seat = s.seat := by
  unfold create
  split <;> rfl

@[simp] theorem create_type : (s.create d j n t nm).type = Function.update s.type n t := by
  unfold create
  split <;> rfl

/-- The entries of inodes other than the new one. -/
theorem create_ent (h : c ≠ n) :
    (s.create d j n t nm).ent c k = if c = d ∧ k = j then some (n, nm) else s.ent c k := by
  have hbase : ((s.alloc n t).setEnt d j (some (n, nm))).ent c k =
      if c = d ∧ k = j then some (n, nm) else s.ent c k := by
    by_cases hcd : c = d ∧ k = j
    · rw [if_pos hcd, hcd.1, hcd.2, setEnt_self]
    · rw [if_neg hcd, setEnt_ne (by tauto), alloc_ent_ne h]
  unfold create
  split
  · unfold dirInit
    rw [setEnt_ne (Or.inl h), setEnt_ne (Or.inl h), hbase]
  · exact hbase

/-- The entries of the new inode. -/
theorem create_ent_new (h : d ≠ n) : (s.create d j n t nm).ent n k =
    if t = typeDir then if k = 0 then some (n, dot) else if k = 1 then some (d, dotdot) else none else none := by
  have hbase : ((s.alloc n t).setEnt d j (some (n, nm))).ent n k = none := by
    rw [setEnt_ne (Or.inl (Ne.symm h)), alloc_ent_self]
  unfold create
  split
  · unfold dirInit
    by_cases h1 : k = 1
    · subst h1
      rw [setEnt_self]
      rfl
    · rw [setEnt_ne (Or.inr h1), if_neg h1]
      by_cases h0 : k = 0
      · rw [h0, setEnt_self, if_pos rfl]
      · rw [setEnt_ne (Or.inr h0), hbase, if_neg h0]
  · exact hbase

/-! ## References -/

@[simp] theorem setSeat_self {o : Option Seat} : (s.setSeat i o).seat i = o := Function.update_self ..

theorem setSeat_ne {o : Option Seat} (h : j ≠ i) : (s.setSeat i o).seat j = s.seat j := Function.update_of_ne h ..

@[simp] theorem setSeat_type {o : Option Seat} : (s.setSeat i o).type = s.type := rfl

@[simp] theorem setSeat_ent {o : Option Seat} : (s.setSeat i o).ent = s.ent := rfl

theorem get_seat_self : (s.get i n).seat i =
    some ((s.seat i).elim ⟨n, 1, false⟩ fun x => { x with ref := x.ref + 1 }) := setSeat_self

theorem Room.get_some (h : s.Room i n) : ∃ x, (s.get i n).seat i = some x ∧ x.no = n := by
  rw [get_seat_self]
  rcases h with ⟨x, hx, rfl⟩ | ⟨hx, -⟩
  · exact ⟨_, rfl, by rw [hx]; rfl⟩
  · exact ⟨_, rfl, by rw [hx]; rfl⟩

theorem get_seat_ne (h : j ≠ i) : (s.get i n).seat j = s.seat j := setSeat_ne h

theorem held_get (h : s.Room i n) : (s.get i n).Held m ↔ s.Held m ∨ m = n := by
  constructor
  · rintro ⟨j, y, hy, rfl⟩
    by_cases hj : j = i
    · obtain ⟨x, hx, hn⟩ := h.get_some
      rw [hj, hx] at hy
      cases hy
      exact Or.inr hn
    · rw [get_seat_ne hj] at hy
      exact Or.inl ⟨j, y, hy, rfl⟩
  · rintro (⟨j, y, hy, rfl⟩ | rfl)
    · by_cases hj : j = i
      · subst hj
        refine ⟨j, _, get_seat_self, ?_⟩
        rw [hy]; rfl
      · exact ⟨j, y, by rw [get_seat_ne hj]; exact hy, rfl⟩
    · obtain ⟨x, hx, hn⟩ := h.get_some
      exact ⟨i, x, hx, hn⟩

theorem del_get : (s.get i n).Del m ↔ s.Del m := by
  constructor
  · rintro ⟨j, y, hy, rfl, hd⟩
    by_cases hj : j = i
    · subst hj
      obtain rfl := Option.some.inj (get_seat_self.symm.trans hy)
      cases hx : s.seat j with
      | none => rw [hx] at hd; cases hd
      | some x =>
        rw [hx] at hd
        exact ⟨j, x, hx, rfl, hd⟩
    · rw [get_seat_ne hj] at hy
      exact ⟨j, y, hy, rfl, hd⟩
  · rintro ⟨j, y, hy, rfl, hd⟩
    by_cases hj : j = i
    · subst hj
      exact ⟨j, _, get_seat_self, by rw [hy]; rfl, by rw [hy]; exact hd⟩
    · exact ⟨j, y, by rw [get_seat_ne hj]; exact hy, rfl, hd⟩

theorem Ok.get (h : s.Ok) (hr : s.Room i n) : (s.get i n).Ok := by
  obtain ⟨z, hz, hzn⟩ := hr.get_some
  refine ⟨fun j y hy => ?_, fun j k y w hy hw hno => ?_⟩
  · by_cases hj : j = i
    · subst hj
      obtain rfl := Option.some.inj (get_seat_self.symm.trans hy)
      cases hx : s.seat j with
      | none => exact Int.one_pos
      | some x => exact Int.lt_add_one_of_le (Int.le_of_lt (h.pos j x hx))
    · rw [get_seat_ne hj] at hy
      exact h.pos j y hy
  · -- no other seat can have the number that `i` has now
    have key : ∀ l v, l ≠ i → (s.get i n).seat l = some v → v.no = n → False := fun l v hl hv hvn => by
      rw [get_seat_ne hl] at hv
      rcases hr with ⟨u, hu, hun⟩ | ⟨-, hheld⟩
      · exact hl (h.uniq l i v u hv hu (hvn.trans hun.symm))
      · exact hheld ⟨l, v, hv, hvn⟩
    by_cases hj : j = i
    · by_cases hk : k = i
      · rw [hj, hk]
      · rw [hj, hz] at hy
        cases hy
        exact (key k w hk hw (hno.symm.trans hzn)).elim
    · by_cases hk : k = i
      · rw [hk, hz] at hw
        cases hw
        exact (key j y hj hy (hno.trans hzn)).elim
      · rw [get_seat_ne hj] at hy
        rw [get_seat_ne hk] at hw
        exact h.uniq j k y w hy hw hno

/-- A reference taken and given back leaves no trace. -/
theorem put_get (h : s.Ok) : (s.get i n).put i = s := by
  unfold put get
  simp only [setSeat, Function.update_self]
  cases hx : s.seat i with
  | none =>
    simp only [Option.elim_none, if_true, Bool.false_eq_true, if_false, Function.update_idem]
    rw [← hx, Function.update_eq_self]
  | some x =>
    have hpos := h.pos i x hx
    have h1 : ¬ x.ref + 1 = 1 := by omega
    simp only [Option.elim_some, if_neg h1, Function.update_idem, Int.add_sub_cancel]
    rw [← hx, Function.update_eq_self]

theorem get_comm (hij : i ≠ j) : (s.get i p).get j n = (s.get j n).get i p := by
  unfold get setSeat
  simp only [Function.update_of_ne hij, Function.update_of_ne (Ne.symm hij)]
  rw [Function.update_comm (Ne.symm hij)]

/-- Taking a second reference and giving the first one back. -/
theorem put_get_get (h : s.Ok) (hr : s.Room i p) (hr' : (s.get i p).Room j n) :
    ((s.get i p).get j n).put i = s.get j n ∧ s.Room j n := by
  by_cases hij : j = i
  · obtain ⟨x, hx, hxp⟩ := hr.get_some
    have hn : n = p := by
      rcases hr' with ⟨y, hy, rfl⟩ | ⟨hy, -⟩
      · rw [hij, hx] at hy
        cases hy
        exact hxp
      · rw [hij, hx] at hy
        cases hy
    rw [hij, hn, put_get (h.get hr)]
    exact ⟨rfl, hr⟩
  · have hroom : s.Room j n := by
      rcases hr' with ⟨y, hy, hyn⟩ | ⟨hy, hheld⟩
      · exact Or.inl ⟨y, by rw [← get_seat_ne hij]; exact hy, hyn⟩
      · exact Or.inr ⟨by rw [← get_seat_ne hij]; exact hy, fun hc => hheld ((held_get hr).2 (Or.inl hc))⟩
    refine ⟨?_, hroom⟩
    rw [get_comm (Ne.symm hij), put_get (h.get hroom)]

/-- Giving back a reference to the inode of seat `i` frees nothing. -/
def Kept (s : Ns) (i : Nat) : Prop := ∀ x, s.seat i = some x → x.ref = 1 → x.del = false

/-- The reference just taken is not the last one to a removed inode. -/
theorem kept_get_self (h : s.Ok) : (s.get i n).Kept i := by
  intro x hx h1
  rw [get_seat_self] at hx
  cases hy : s.seat i with
  | none =>
    rw [hy] at hx
    cases hx
    rfl
  | some y =>
    rw [hy] at hx
    cases hx
    have hpos := h.pos i y hy
    have : y.ref + 1 = 1 := h1
    omega

theorem Kept.get (hk : s.Kept i) (h : s.Ok) : (s.get j n).Kept i := by
  by_cases hij : i = j
  · rw [hij]
    exact kept_get_self h
  · intro x hx
    rw [get_seat_ne hij] at hx
    exact hk x hx

/-! ## Giving back the last reference -/

theorem put_ref (hx : s.seat i = some x) (h : x.ref ≠ 1) :
    s.put i = s.setSeat i (some { x with ref := x.ref - 1 }) := by
  unfold put
  rw [hx]
  exact if_neg h

theorem put_last (hx : s.seat i = some x) (h : x.ref = 1) :
    s.put i = (if x.del then s.free x.no else s).setSeat i none := by
  unfold put
  rw [hx]
  exact if_pos h

theorem put_seat_ne (hj : j ≠ i) : (s.put i).seat j = s.seat j := by
  cases hx : s.seat i with
  | none => unfold put; rw [hx]
  | some x =>
    by_cases h : x.ref = 1
    · rw [put_last hx h, setSeat_ne hj]
      split <;> rfl
    · rw [put_ref hx h, setSeat_ne hj]

/-- What the seat still holds afterwards. -/
theorem put_seat_self (hx : s.seat i = some x) :
    (s.put i).seat i = if x.ref = 1 then none else some { x with ref := x.ref - 1 } := by
  by_cases h : x.ref = 1
  · rw [put_last hx h, setSeat_self, if_pos h]
  · rw [put_ref hx h, setSeat_self, if_neg h]

theorem held_setSeat (h : s.Ok) (hx : s.seat i = some x) {o : Option Seat} (ho : ∀ y, o = some y → y.no = x.no) :
    (s.setSeat i o).Held m ↔ s.Held m ∧ (m = x.no → o.isSome) := by
  constructor
  · rintro ⟨j, y, hy, rfl⟩
    by_cases hj : j = i
    · rw [hj, setSeat_self] at hy
      exact ⟨⟨i, x, hx, (ho y hy).symm⟩, fun _ => hy ▸ rfl⟩
    · rw [setSeat_ne hj] at hy
      exact ⟨⟨j, y, hy, rfl⟩, fun he => absurd (h.uniq j i y x hy hx he) hj⟩
  · rintro ⟨⟨j, y, hy, rfl⟩, hsome⟩
    by_cases hj : j = i
    · rw [hj, hx] at hy
      cases hy
      obtain ⟨z, hz⟩ := Option.isSome_iff_exists.1 (hsome rfl)
      exact ⟨i, z, setSeat_self.trans hz, ho z hz⟩
    · exact ⟨j, y, (setSeat_ne hj).trans hy, rfl⟩

theorem del_setSeat (h : s.Ok) (hx : s.seat i = some x) {o : Option Seat} :
    (s.setSeat i o).Del m ↔ (s.Del m ∧ m ≠ x.no) ∨ ∃ y, o = some y ∧ y.no = m ∧ y.del = true := by
  constructor
  · rintro ⟨j, y, hy, rfl, hd⟩
    by_cases hj : j = i
    · rw [hj, setSeat_self] at hy
      exact Or.inr ⟨y, hy, rfl, hd⟩
    · rw [setSeat_ne hj] at hy
      exact Or.inl ⟨⟨j, y, hy, rfl, hd⟩, fun he => hj (h.uniq j i y x hy hx he)⟩
  · rintro (⟨⟨j, y, hy, rfl, hd⟩, hne⟩ | ⟨y, hy, rfl, hd⟩)
    · have hj : j ≠ i := by
        rintro rfl
        rw [hx] at hy
        cases hy
        exact hne rfl
      exact ⟨j, y, (setSeat_ne hj).trans hy, rfl, hd⟩
    · exact ⟨i, y, setSeat_self.trans hy, rfl, hd⟩

theorem del_iff (h : s.Ok) (hx : s.seat i = some x) : s.Del x.no ↔ x.del = true := by
  constructor
  · rintro ⟨j, y, hy, hn, hd⟩
    obtain rfl := h.uniq j i y x hy hx hn
    rw [hx] at hy
    cases hy
    exact hd
  · intro hd
    exact ⟨i, x, hx, rfl, hd⟩

/-- After a reference is given back, the inode is still in use, or it was not removed, or it goes. -/
theorem put_cases (h : s.Ok) (hx : s.seat i = some x) :
    ((∀ m, (s.put i).Held m ↔ s.Held m) ∧ (∀ m, (s.put i).Del m ↔ s.Del m) ∧
      (s.put i).type = s.type ∧ (s.put i).ent = s.ent) ∨
    ((∀ m, (s.put i).Held m ↔ s.Held m ∧ m ≠ x.no) ∧ (∀ m, (s.put i).Del m ↔ s.Del m ∧ m ≠ x.no) ∧
      ((¬ s.Del x.no ∧ (s.put i).type = s.type ∧ (s.put i).ent = s.ent) ∨
        (s.Del x.no ∧ (s.put i).type = Function.update s.type x.no typeNone ∧
          (s.put i).ent = Function.update s.ent x.no fun _ => none))) := by
  -- the last reference frees the seat, and the inode if it is deleted
  by_cases h1 : x.ref = 1
  · right
    have hfree : ∀ q : Prop, ∀ _ : Decidable q, (if q then s.free x.no else s).seat = s.seat := fun q _ => by
      split <;> rfl
    have hheld : ∀ m, (s.put i).Held m ↔ (s.setSeat i none).Held m := fun m => by
      rw [put_last hx h1]
      unfold Held setSeat
      rw [hfree]
    have hdel : ∀ m, (s.put i).Del m ↔ (s.setSeat i none).Del m := fun m => by
      rw [put_last hx h1]
      unfold Del setSeat
      rw [hfree]
    refine ⟨fun m => ?_, fun m => ?_, ?_⟩
    · rw [hheld, held_setSeat h hx fun y hy => by cases hy]
      simp
    · rw [hdel, del_setSeat h hx]
      simp
    · rw [put_last hx h1, setSeat_type, setSeat_ent, del_iff h hx]
      by_cases hd : x.del = true
      · rw [if_pos hd]
        exact Or.inr ⟨hd, rfl, rfl⟩
      · rw [if_neg hd]
        exact Or.inl ⟨hd, rfl, rfl⟩
  · left
    rw [put_ref hx h1]
    refine ⟨fun m => ?_, fun m => ?_, rfl, rfl⟩
    · rw [held_setSeat h hx fun y hy => by cases hy; rfl]
      simp
    · rw [del_setSeat h hx]
      constructor
      · rintro (⟨hm, -⟩ | ⟨y, hy, rfl, hd⟩)
        · exact hm
        · cases hy
          exact (del_iff h hx).2 hd
      · intro hm
        by_cases hmx : m = x.no
        · subst hmx
          exact Or.inr ⟨_, rfl, rfl, (del_iff h hx).1 hm⟩
        · exact Or.inl ⟨hm, hmx⟩

theorem Ok.setSeat (h : s.Ok) {o : Option Seat} (hx : s.seat i = some x)
    (ho : ∀ y, o = some y → 0 < y.ref ∧ y.no = x.no) : (s.setSeat i o).Ok := by
  have hold : ∀ j y, (s.setSeat i o).seat j = some y → ∃ z, s.seat j = some z ∧ z.no = y.no ∧
      0 < y.ref := fun j y hy => by
    by_cases hj : j = i
    · rw [hj, setSeat_self] at hy
      rw [hj]
      exact ⟨x, hx, (ho y hy).2.symm, (ho y hy).1⟩
    · rw [setSeat_ne hj] at hy
      exact ⟨y, hy, rfl, h.pos j y hy⟩
  refine ⟨fun j y hy => ?_, fun j k y w hy hw hn => ?_⟩
  · obtain ⟨z, -, -, hpos⟩ := hold j y hy
    exact hpos
  · obtain ⟨z, hz, hzn, -⟩ := hold j y hy
    obtain ⟨v, hv, hvn, -⟩ := hold k w hw
    exact h.uniq j k z v hz hv (hzn.trans (hn.trans hvn.symm))

theorem Ok.put (h : s.Ok) (hx : s.seat i = some x) : (s.put i).Ok := by
  have hseat : ∀ j y, (s.put i).seat j = some y → ∃ z, s.seat j = some z ∧ z.no = y.no ∧ 0 < y.ref := fun j y hy => by
    by_cases hj : j = i
    · rw [hj, put_seat_self hx] at hy
      split at hy
      · cases hy
      · next h1 =>
        cases hy
        have hpos := h.pos i x hx
        exact ⟨x, hj ▸ hx, rfl, by show 0 < x.ref - 1; omega⟩
    · rw [put_seat_ne hj] at hy
      exact ⟨y, hy, rfl, h.pos j y hy⟩
  refine ⟨fun j y hy => ?_, fun j k y w hy hw hn => ?_⟩
  · obtain ⟨z, -, -, hpos⟩ := hseat j y hy
    exact hpos
  · obtain ⟨z, hz, hzn, -⟩ := hseat j y hy
    obtain ⟨v, hv, hvn, -⟩ := hseat k w hw
    exact h.uniq j k z v hz hv (hzn.trans (hn.trans hvn.symm))

/-! ## Removing -/

theorem mark_eq (hx : s.seat i = some x) : s.mark i = s.setSeat i (some { x with del := true }) := by
  unfold mark
  rw [hx]
  rfl

theorem mark_seat_ne (hj : j ≠ i) : (s.mark i).seat j = s.seat j := setSeat_ne hj

theorem mark_get (hij : i ≠ j) : (s.get j n).mark i = (s.mark i).get j n := by
  unfold mark get
  rw [setSeat_ne hij, setSeat_ne (Ne.symm hij)]
  simp only [setSeat]
  rw [Function.update_comm hij]

/-- References to different inodes are given back and taken in any order. -/
theorem put_get_ne (hij : i ≠ j) : (s.get j n).put i = (s.put i).get j n := by
  cases hx : s.seat i with
  | none =>
    have hx' : (s.get j n).seat i = none := by rw [get_seat_ne hij, hx]
    unfold put
    simp only [hx, hx']
  | some x =>
    have hx' : (s.get j n).seat i = some x := by rw [get_seat_ne hij, hx]
    by_cases h : x.ref = 1
    · rw [put_last hx h, put_last hx' h]
      unfold get
      rw [setSeat_ne (Ne.symm hij)]
      by_cases hd : x.del = true
      · simp only [if_pos hd, setSeat, free]
        rw [Function.update_comm hij]
      · simp only [if_neg hd, setSeat]
        rw [Function.update_comm hij]
    · rw [put_ref hx h, put_ref hx' h]
      unfold get
      rw [setSeat_ne (Ne.symm hij)]
      simp only [setSeat]
      rw [Function.update_comm hij]

theorem held_mark (h : s.Ok) (hx : s.seat i = some x) : (s.mark i).Held m ↔ s.Held m := by
  rw [mark_eq hx, held_setSeat h hx fun y hy => by cases hy; rfl]
  simp

theorem del_mark (h : s.Ok) (hx : s.seat i = some x) : (s.mark i).Del m ↔ s.Del m ∨ m = x.no := by
  rw [mark_eq hx, del_setSeat h hx]
  constructor
  · rintro (⟨hm, -⟩ | ⟨y, hy, rfl, -⟩)
    · exact Or.inl hm
    · cases hy
      exact Or.inr rfl
  · rintro (hm | rfl)
    · by_cases hmx : m = x.no
      · exact Or.inr ⟨_, rfl, hmx.symm, rfl⟩
      · exact Or.inl ⟨hm, hmx⟩
    · exact Or.inr ⟨_, rfl, rfl, rfl⟩

/-! ## Counting references -/

/-- The references to the inode of seat `i`. -/
def refs (s : Ns) (i : Nat) : Int := (s.seat i).elim 0 Seat.ref

theorem seat_of_refs (h : 0 < s.refs i) : ∃ x, s.seat i = some x ∧ s.refs i = x.ref := by
  unfold refs at h ⊢
  cases hx : s.seat i with
  | none => rw [hx] at h; exact absurd h (Int.lt_irrefl 0)
  | some x => exact ⟨x, rfl, rfl⟩

theorem refs_setSeat {o : Option Seat} : (s.setSeat i o).refs j = if j = i then o.elim 0 Seat.ref else s.refs j := by
  unfold refs
  by_cases hj : j = i
  · rw [hj, setSeat_self, if_pos rfl]
  · rw [setSeat_ne hj, if_neg hj]

theorem refs_get : (s.get i n).refs j = s.refs j + if j = i then 1 else 0 := by
  unfold get
  rw [refs_setSeat]
  by_cases hj : j = i
  · rw [if_pos hj, if_pos hj, hj]
    unfold refs
    cases s.seat i <;> rfl
  · rw [if_neg hj, if_neg hj, Int.add_zero]

theorem refs_put (hx : s.seat i = some x) : (s.put i).refs j = s.refs j - if j = i then 1 else 0 := by
  by_cases hj : j = i
  · rw [hj, if_pos rfl]
    unfold refs
    rw [put_seat_self hx, hx]
    by_cases h : x.ref = 1
    · rw [if_pos h]
      simp only [Option.elim_none, Option.elim_some]
      omega
    · rw [if_neg h]
      rfl
  · rw [if_neg hj, Int.sub_zero]
    unfold refs
    rw [put_seat_ne hj]

theorem refs_mark : (s.mark i).refs j = s.refs j := by
  unfold mark
  rw [refs_setSeat]
  by_cases hj : j = i
  · rw [if_pos hj, hj]
    unfold refs
    cases s.seat i <;> rfl
  · rw [if_neg hj]

/-- A seat that stays taken keeps its inode. -/
theorem no_get (hx : s.seat i = some x) {y : Seat} (hy : (s.get j n).seat i = some y) : y.no = x.no := by
  by_cases hij : i = j
  · subst hij
    rw [get_seat_self, hx] at hy
    cases hy
    rfl
  · rw [get_seat_ne hij, hx] at hy
    cases hy
    rfl

theorem no_put {y : Seat} (hy : (s.put j).seat i = some y) : ∃ x, s.seat i = some x ∧ y.no = x.no := by
  by_cases hij : i = j
  · subst hij
    cases hx : s.seat i with
    | none =>
      unfold put at hy
      rw [hx] at hy
      simp only at hy
      rw [hx] at hy
      cases hy
    | some x =>
      rw [put_seat_self hx] at hy
      split at hy
      · cases hy
      · cases hy
        exact ⟨x, rfl, rfl⟩
  · rw [put_seat_ne hij] at hy
    exact ⟨y, hy, rfl⟩

end Ns

end TinyOS
