/-
Reference counts of open files: in every state between system calls each entry of the file table
counts the descriptors that point to it, and each slot of the inode table the open files and working
directories that use it. Inside a call the references that the call holds come on top.
-/
import TinyOS.File.Basic
import TinyOS.Fs.Sound
import TinyOS.Fs.Content
import TinyOS.Lib.Count

namespace TinyOS

open TinyOS.Lib TinyOS.Fs

/-- What was in use before and still is keeps its number and its type. -/
def Ns.Stay (s s' : Ns) : Prop :=
  ∀ i x x', s.seat i = some x → s'.seat i = some x' → x'.no = x.no ∧ s'.type x.no = s.type x.no

namespace Ns

variable {s s' : Ns} {i j n d t : Nat} {x : Seat} {nm : List UInt8}

theorem Stay.refl (s : Ns) : Stay s s := fun i x x' h h' => by
  rw [h] at h'
  cases h'
  exact ⟨rfl, rfl⟩

theorem Stay.get : Stay s (s.get i n) := fun _ _ _ hx hx' => ⟨no_get hx hx', rfl⟩

theorem Stay.put (hok : s.Ok) (hx : s.seat i = some x) : Stay s (s.put i) := by
  intro j y y' hy hy'
  obtain ⟨z, hz, hzn⟩ := no_put hy'
  rw [hy] at hz
  cases hz
  refine ⟨hzn, ?_⟩
  rcases put_cases hok hx with ⟨-, -, ht, -⟩ | ⟨hheld, -, ⟨-, ht, -⟩ | ⟨-, ht, -⟩⟩
  · rw [ht]
  · rw [ht]
  · have hne : y.no ≠ x.no := hzn ▸ ((hheld y'.no).1 ⟨j, y', hy', rfl⟩).2
    rw [ht, Function.update_of_ne hne]

theorem Stay.create (hl : s.Live) (hn : s.type n = typeNone) : Stay s (s.create d j n t nm) := by
  intro k y y' hy hy'
  rw [create_seat, hy] at hy'
  cases hy'
  have hyn : y.no ≠ n := fun hc => hl y.no ⟨k, y, hy, rfl⟩ (hc ▸ hn)
  exact ⟨rfl, by rw [create_type, Function.update_of_ne hyn]⟩

theorem Stay.created (hl : s.Live) (hcr : Created s d j n t nm i s') : Stay s s' := by
  intro k y y' hy hy'
  rw [hcr.eq] at hy' ⊢
  have hy₁ : (s.create d j n t nm).seat k = some y := by rw [create_seat]; exact hy
  exact ⟨no_get hy₁ hy', (Stay.create hl hcr.new k y y hy hy₁).2⟩

theorem Stay.removed (hok : s.Ok) (hr : Removed s d j n nm i s') : Stay s s' := by
  intro k y y' hy hy'
  obtain ⟨x, hx, -, hokT, hxT⟩ := Removed.before hok hr
  refine ⟨Removed.no hok hr hy hy', ?_⟩
  have hT : ∃ z, (((s.get i n).mark i).setEnt d j none).seat k = some z ∧ z.no = y.no := by
    by_cases hki : k = i
    · subst hki
      exact ⟨_, hxT, (no_get hy hx : x.no = y.no)⟩
    · exact ⟨y, by rw [setEnt_seat, mark_seat_ne hki, get_seat_ne hki]; exact hy, rfl⟩
  obtain ⟨z, hz, hzn⟩ := hT
  rw [hr.eq] at hy' ⊢
  have h2 := (Stay.put hokT hxT k z y' hz hy').2
  rw [hzn] at h2
  exact h2

end Ns

namespace Filesys

variable {u u' : Filesys} {ef es : Nat → Int} {f i p n t l : Nat} {d d' : Desc} {x : Seat} {y : File} {fs fs' : Fs}
  {path : List UInt8}

/-! ## Counting -/

/-- One reference. -/
def unit (i : Nat) : Nat → Int := fun j => if j = i then 1 else 0

def fdsOf (o : Option Desc) (f : Nat) : Int := o.elim 0 fun d => slots maxUfile d.files f

def cwdOf (o : Option Desc) (i : Nat) : Int := o.elim 0 fun d => unit d.cwd i

/-- An open file uses a slot of the inode table, a closed one or a device does not. -/
def uses (x : File) (i : Nat) : Int := if 0 < x.ref ∧ x.type = typeFile then unit x.inode i else 0

/-- The descriptors of all processes that point to open file `f`. -/
def fdRefs (u : Filesys) (f : Nat) : Int := ∑ p ∈ Finset.range procNum, fdsOf (u.procs p) f

/-- The open files and working directories that use slot `i`. -/
def slotRefs (u : Filesys) (i : Nat) : Int :=
  (∑ f ∈ Finset.range totalFile, uses (u.files f) i) + ∑ p ∈ Finset.range procNum, cwdOf (u.procs p) i

theorem unit_nonneg : 0 ≤ unit n i := by
  unfold unit
  split <;> decide

theorem unit_self : unit i i = 1 := if_pos rfl

theorem uses_nonneg : 0 ≤ uses y i := by
  unfold uses
  split
  · exact unit_nonneg
  · exact le_refl 0

theorem cwdOf_nonneg {o : Option Desc} : 0 ≤ cwdOf o i := by
  cases o with
  | none => exact le_refl 0
  | some d => exact unit_nonneg

theorem slotRefs_nonneg : 0 ≤ u.slotRefs i :=
  add_nonneg (Finset.sum_nonneg fun _ _ => uses_nonneg) (Finset.sum_nonneg fun _ _ => cwdOf_nonneg)

/-- `ef` and `es` are the references to open files and to slots that the running call holds. -/
structure Inv (ef es : Nat → Int) (u : Filesys) : Prop where
  good : Good u.fs
  live : (view u.fs).Live
  sound : (view u.fs).Sound
  fds : ∀ f, (u.files f).ref = u.fdRefs f + ef f
  seats : ∀ i, (view u.fs).refs i = u.slotRefs i + es i
  small : ∀ f, 0 < (u.files f).ref → f < totalFile
  kind : ∀ f, 0 < (u.files f).ref → (u.files f).type = typeFile → (u.files f).writable →
    ∀ x, (view u.fs).seat (u.files f).inode = some x → (view u.fs).type x.no ≠ typeDir
  table : ∀ p, u.procs p ≠ none → p < procNum
  home : ∀ p d, u.procs p = some d → ∀ x, (view u.fs).seat d.cwd = some x → (view u.fs).type x.no = typeDir
  extra : ∀ i, 0 ≤ es i

theorem Inv.congr (h : Inv ef es u) {a b : Nat → Int} (h1 : ∀ f, a f = ef f) (h2 : ∀ i, b i = es i) :
    Inv a b u := by
  obtain rfl : a = ef := funext h1
  obtain rfl : b = es := funext h2
  exact h

/-! ## What is in use has a seat -/

theorem Inv.file_refs (h : Inv ef es u) (hr : 0 < (u.files f).ref) (ht : (u.files f).type = typeFile) :
    0 < (view u.fs).refs (u.files f).inode := by
  have hle : uses (u.files f) (u.files f).inode ≤ ∑ g ∈ Finset.range totalFile, uses (u.files g) (u.files f).inode :=
    Finset.single_le_sum (fun g _ => uses_nonneg) (Finset.mem_range.2 (h.small f hr))
  have hone : uses (u.files f) (u.files f).inode = 1 := by
    unfold uses
    rw [if_pos ⟨hr, ht⟩, unit_self]
  have hcwd : 0 ≤ ∑ p ∈ Finset.range procNum, cwdOf (u.procs p) (u.files f).inode :=
    Finset.sum_nonneg fun p _ => cwdOf_nonneg
  have h1 := h.seats (u.files f).inode
  have h2 := h.extra (u.files f).inode
  unfold slotRefs at h1
  omega

theorem Inv.cwd_refs (h : Inv ef es u) (hp : u.procs p = some d) : 0 < (view u.fs).refs d.cwd := by
  have hlt := h.table p (by rw [hp]; exact Option.some_ne_none d)
  have hle : cwdOf (u.procs p) d.cwd ≤ ∑ q ∈ Finset.range procNum, cwdOf (u.procs q) d.cwd :=
    Finset.single_le_sum (fun q _ => cwdOf_nonneg) (Finset.mem_range.2 hlt)
  have hone : cwdOf (u.procs p) d.cwd = 1 := by
    rw [hp]
    exact unit_self
  have hfiles : 0 ≤ ∑ g ∈ Finset.range totalFile, uses (u.files g) d.cwd := Finset.sum_nonneg fun g _ => uses_nonneg
  have h1 := h.seats d.cwd
  have h2 := h.extra d.cwd
  unfold slotRefs at h1
  omega

theorem Inv.file_seat (h : Inv ef es u) (hr : 0 < (u.files f).ref) (ht : (u.files f).type = typeFile) :
    ∃ x, (view u.fs).seat (u.files f).inode = some x := by
  obtain ⟨x, hx, -⟩ := Ns.seat_of_refs (h.file_refs hr ht)
  exact ⟨x, hx⟩

theorem Inv.cwd_seat (h : Inv ef es u) (hp : u.procs p = some d) : ∃ x, (view u.fs).seat d.cwd = some x := by
  obtain ⟨x, hx, -⟩ := Ns.seat_of_refs (h.cwd_refs hp)
  exact ⟨x, hx⟩

/-! ## Changes of one component -/

theorem Inv.withFs {c : Nat → Int} (h : Inv ef es u) (hg : Good fs) (hl : (view fs).Live) (hs : (view fs).Sound)
    (hr : ∀ i, (view fs).refs i = (view u.fs).refs i + c i) (hst : Ns.Stay (view u.fs) (view fs))
    (hx : ∀ i, 0 ≤ es i + c i) : Inv ef (fun i => es i + c i) { u with fs := fs } := by
  refine ⟨hg, hl, hs, h.fds, fun i => ?_, h.small, fun f h1 h2 h3 y hy => ?_, h.table, fun p d hp y hy => ?_, hx⟩
  · have := h.seats i
    rw [hr i, this]
    show _ = u.slotRefs i + _
    ring
  · obtain ⟨x, hx'⟩ := h.file_seat h1 h2
    obtain ⟨h4, h5⟩ := hst _ x y hx' hy
    show (view fs).type y.no ≠ _
    rw [h4, h5]
    exact h.kind f h1 h2 h3 x hx'
  · obtain ⟨x, hx'⟩ := h.cwd_seat hp
    obtain ⟨h4, h5⟩ := hst _ x y hx' hy
    show (view fs).type y.no = _
    rw [h4, h5]
    exact h.home p d hp x hx'

theorem Inv.setFile (h : Inv ef es u) (hf : f < totalFile)
    (hk : 0 < y.ref → y.type = typeFile → y.writable → ∀ x, (view u.fs).seat y.inode = some x →
    (view u.fs).type x.no ≠ typeDir) (hx : ∀ i, 0 ≤ es i + (uses (u.files f) i - uses y i)) :
    Inv (fun g => ef g + if g = f then y.ref - (u.files f).ref else 0) (fun i => es i + (uses (u.files f) i - uses y i))
      (u.setFile f y) := by
  have hself : (u.setFile f y).files f = y := Function.update_self ..
  have hne : ∀ g, g ≠ f → (u.setFile f y).files g = u.files g := fun g hg => Function.update_of_ne hg ..
  refine ⟨h.good, h.live, h.sound, fun g => ?_, fun i => ?_, fun g hg => ?_, fun g h1 h2 h3 => ?_, h.table, h.home, hx⟩
  · show _ = u.fdRefs g + _
    by_cases hgf : g = f
    · rw [hgf, hself, if_pos rfl, ← add_assoc, ← h.fds f]
      ring
    · rw [hne g hgf, if_neg hgf, add_zero, h.fds g]
  · have hsum := sum_one (f := fun g => uses (u.files g) i) (g := fun g => uses ((u.setFile f y).files g) i) hf
        fun g hg => by
      simp only [hne g hg]
    have hold := h.seats i
    unfold slotRefs at hold ⊢
    show (view u.fs).refs i = _
    rw [hsum, hold]
    simp only [hself]
    show _ = _ + (∑ p ∈ Finset.range procNum, cwdOf (u.procs p) i) + _
    ring
  · by_cases hgf : g = f
    · exact hgf ▸ hf
    · rw [hne g hgf] at hg
      exact h.small g hg
  · by_cases hgf : g = f
    · rw [hgf, hself] at h1 h2 h3 ⊢
      exact hk h1 h2 h3
    · rw [hne g hgf] at h1 h2 h3 ⊢
      exact h.kind g h1 h2 h3

/-- Another set of descriptors and another working directory, or none. -/
theorem Inv.withProc {o : Option Desc} (h : Inv ef es u) (hp : p < procNum)
    (hd : ∀ d, o = some d → ∀ x, (view u.fs).seat d.cwd = some x → (view u.fs).type x.no = typeDir)
    (hx : ∀ i, 0 ≤ es i + (cwdOf (u.procs p) i - cwdOf o i)) :
    Inv (fun g => ef g + (fdsOf (u.procs p) g - fdsOf o g)) (fun i => es i + (cwdOf (u.procs p) i - cwdOf o i))
      { u with procs := Function.update u.procs p o } := by
  refine ⟨h.good, h.live, h.sound, fun g => ?_, fun i => ?_, h.small, h.kind, fun q hq => ?_, fun q d' hq => ?_, hx⟩
  · have hsum := sum_one (f := fun q => fdsOf (u.procs q) g) (g := fun q => fdsOf (Function.update u.procs p o q) g) hp
      fun q hq => by simp only [Function.update_of_ne hq]
    have hold := h.fds g
    unfold fdRefs at hold ⊢
    show (u.files g).ref = _
    rw [hsum, hold]
    simp only [Function.update_self]
    ring
  · have hsum := sum_one (f := fun q => cwdOf (u.procs q) i) (g := fun q => cwdOf (Function.update u.procs p o q) i) hp
      fun q hq => by simp only [Function.update_of_ne hq]
    have hold := h.seats i
    unfold slotRefs at hold ⊢
    show (view u.fs).refs i = _
    rw [hsum, hold]
    simp only [Function.update_self]
    ring
  · by_cases hqp : q = p
    · exact hqp ▸ hp
    · refine h.table q ?_
      have : Function.update u.procs p o q ≠ none := hq
      rwa [Function.update_of_ne hqp] at this
  · have hq' : Function.update u.procs p o q = some d' := hq
    by_cases hqp : q = p
    · rw [hqp, Function.update_self] at hq'
      exact hd d' hq'
    · rw [Function.update_of_ne hqp] at hq'
      exact h.home q d' hq'

/-! ## References taken and given back -/

/-- A call gives back a reference to a slot. -/
theorem Inv.iclose (h : Inv ef es u) (hi : 1 ≤ es i) (he : u.fs.iclose i = some fs) :
    Inv ef (fun k => es k - unit i k) { u with fs := fs } := by
  have hpos : 0 < (view u.fs).refs i := by
    have h1 := h.seats i
    have h2 : 0 ≤ u.slotRefs i := slotRefs_nonneg
    omega
  obtain ⟨x, hx, -⟩ := Ns.seat_of_refs hpos
  obtain ⟨fs', h1, hv, hg⟩ := iclose_view h.good hx fun _ _ => h.live _ ⟨i, x, hx, rfl⟩
  obtain rfl := Option.some.inj (he.symm.trans h1)
  refine (h.withFs (c := fun k => -unit i k) hg ?_ ?_ (fun k => ?_) ?_ fun k => ?_).congr (fun _ => rfl) fun k => ?_
  · exact hv ▸ h.live.put h.good.ok hx
  · exact hv ▸ h.sound.put h.good.ok hx
  · rw [hv, Ns.refs_put hx]
    rfl
  · exact hv ▸ Ns.Stay.put h.good.ok hx
  · have := h.extra k
    unfold unit
    split
    · next hk =>
      subst hk
      omega
    · omega
  · ring

/-- A call takes one more reference to a slot in use. -/
theorem Inv.idup (h : Inv ef es u) (hx : (view u.fs).seat i = some x) :
    Inv ef (fun k => es k + unit i k) { u with fs := u.fs.idup i } := by
  obtain ⟨hv, hg⟩ := idup_view h.good hx
  refine h.withFs hg ?_ ?_ (fun k => ?_) ?_ fun k => ?_
  · exact hv ▸ live_get h.live (Or.inl ⟨x, hx, rfl⟩) (h.live _ ⟨i, x, hx, rfl⟩)
  · exact hv ▸ h.sound.get
  · rw [hv, Ns.refs_get]
    rfl
  · exact hv ▸ Ns.Stay.get
  · have := h.extra k
    have := unit_nonneg (n := i) (i := k)
    omega

/-- A call gives back a reference to an open file. -/
theorem Inv.fclose (h : Inv ef es u) (hf : 0 < (u.files f).ref) (he : u.fclose f = some u') :
    Inv (fun g => ef g - unit f g) es u' := by
  have hlt := h.small f hf
  unfold Filesys.fclose at he
  have hself : ∀ y, (u.setFile f y).files f = y := fun y => Function.update_self ..
  have hset := h.setFile (y := { u.files f with ref := (u.files f).ref - 1 }) hlt
    (fun _ h2 h3 => h.kind f hf h2 h3) fun k => ?_
  swap
  · have h1 := h.extra k
    unfold uses
    simp only
    have h2 := unit_nonneg (n := (u.files f).inode) (i := k)
    split <;> split <;> omega
  have hef : ∀ g, (ef g - unit f g) = ef g + if g = f then ((u.files f).ref - 1) - (u.files f).ref else 0 := fun g => by
    unfold unit
    split <;> ring
  simp only [hself] at he
  by_cases hlast : (u.files f).ref - 1 = 0 ∧ (u.files f).type = typeFile
  · rw [if_pos hlast] at he
    obtain ⟨fs, hcl, he⟩ := Option.bind_eq_some_iff.1 he
    cases he
    -- the file is gone, so the slot has one reference more than there are users
    have hdiff : ∀ k, uses (u.files f) k - uses { u.files f with ref := (u.files f).ref - 1 } k =
        unit (u.files f).inode k :=
      fun k => by
        unfold uses
        rw [if_pos ⟨hf, hlast.2⟩, if_neg (by simp only; omega), sub_zero]
    have hset' := (hset.congr hef fun k => (congrArg (es k + ·) (hdiff k)).symm)
    refine (hset'.iclose (i := (u.files f).inode) ?_ hcl).congr (fun _ => rfl) fun k => by ring
    have := h.extra (u.files f).inode
    rw [unit_self]
    omega
  · rw [if_neg hlast] at he
    cases he
    refine hset.congr hef fun k => ?_
    have hsame : uses { u.files f with ref := (u.files f).ref - 1 } k = uses (u.files f) k := by
      unfold uses
      simp only
      by_cases ht : (u.files f).type = typeFile
      · rw [if_pos ⟨by omega, ht⟩, if_pos ⟨hf, ht⟩]
      · rw [if_neg (by tauto), if_neg (by tauto)]
    rw [hsame]
    ring

theorem Inv.fdup (h : Inv ef es u) (hf : 0 < (u.files f).ref) : Inv (fun g => ef g + unit f g) es (u.fdup f) := by
  have hsame : ∀ k, uses { u.files f with ref := (u.files f).ref + 1 } k = uses (u.files f) k := fun k => by
    unfold uses
    simp only
    by_cases ht : (u.files f).type = typeFile
    · rw [if_pos ⟨by omega, ht⟩, if_pos ⟨hf, ht⟩]
    · rw [if_neg (by tauto), if_neg (by tauto)]
  refine (h.setFile (y := { u.files f with ref := (u.files f).ref + 1 }) (h.small f hf)
    (fun _ h2 h3 => h.kind f hf h2 h3)
    fun k => ?_).congr (fun g => ?_) fun k => ?_
  · have := h.extra k
    rw [hsame]
    omega
  · unfold unit
    split
    · next hg =>
      subst hg
      simp only
      ring
    · rfl
  · rw [hsame]
    ring

theorem falloc_some {r : Nat × Filesys} (h : Inv ef es u) (he : u.falloc = some r) :
    r.1 < totalFile ∧ (u.files r.1).ref = 0 ∧ r.2 = u.setFile r.1 { u.files r.1 with ref := 1, type := typeNone } ∧
      Inv (fun g => ef g + unit r.1 g) es r.2 := by
  unfold falloc at he
  obtain ⟨f, hf, rfl⟩ := Option.map_eq_some_iff.1 he
  have hlt := List.mem_range.1 (List.mem_of_find?_eq_some hf)
  have hfree : (u.files f).ref = 0 := by simpa using List.find?_some hf
  refine ⟨hlt, hfree, rfl, ?_⟩
  have hsame : ∀ k, uses (u.files f) k - uses { u.files f with ref := 1, type := typeNone } k = 0 := fun k => by
    unfold uses
    rw [if_neg (by rw [hfree]; rintro ⟨hc, -⟩; omega), if_neg (by rintro ⟨-, hc⟩; cases hc)]
    rfl
  refine (h.setFile hlt (fun _ h2 => by cases h2) fun k => ?_).congr (fun g => ?_) fun k => ?_
  · rw [hsame, add_zero]
    exact h.extra k
  · unfold unit
    split
    · next hg =>
      rw [hfree]
      rfl
    · rfl
  · rw [hsame, add_zero]

theorem fclose_procs (he : u.fclose f = some u') : u'.procs = u.procs := by
  unfold Filesys.fclose at he
  simp only at he
  split at he
  · obtain ⟨fs, -, he⟩ := Option.bind_eq_some_iff.1 he
    cases he
    rfl
  · cases he
    rfl

/-- Closing what is not an open file on the disk. -/
theorem fclose_fs (he : u.fclose f = some u') (ht : (u.files f).type ≠ typeFile) : u'.fs = u.fs := by
  have hself : ∀ y, (u.setFile f y).files f = y := fun y => Function.update_self ..
  unfold Filesys.fclose at he
  simp only [hself] at he
  rw [if_neg fun hc => ht hc.2] at he
  cases he
  rfl

/-! ## `iopen` -/

/-- What `iopen` finds by `..` in a removed directory may have gone; the caller can only close it. -/
theorem Inv.iopen {cwd : Nat} {r : Option Nat} (h : Inv ef es u) (hx : (view u.fs).seat cwd = some x) (ht : t < 2 ^ 32)
    (he : u.fs.iopen cwd path t = some (r, fs)) :
    (r = none ∧ Inv ef es { u with fs := fs }) ∨
      (∃ i y, r = some i ∧ (view fs).seat i = some y ∧ (view fs).Kept i ∧
        Inv ef (fun k => es k + unit i k) { u with fs := fs }) ∨
      ∃ i y, r = some i ∧ fs.itype i = typeNone ∧ Good fs ∧ (view fs).seat i = some y ∧
        ∀ fs', fs.iclose i = some fs' → Inv ef es { u with fs := fs' } := by
  have hsame : ∀ {fs'}, view fs' = view u.fs → Good fs' → Inv ef es { u with fs := fs' } := fun {fs'} hv hg =>
    (h.withFs hg (hv ▸ h.live) (hv ▸ h.sound) (fun k => by rw [hv, add_zero])
      (hv ▸ Ns.Stay.refl _) fun k => by rw [add_zero]; exact h.extra k).congr (fun _ => rfl) fun k => by ring
  have hmore : ∀ i k, 0 ≤ es k + unit i k := fun i k => add_nonneg (h.extra k) unit_nonneg
  rcases iopen_view h.good hx he with ⟨rfl, hv, hg, -⟩ | ⟨i, n, rfl, hroom, hv, hg, -⟩ | ⟨ht0, hmade⟩
  · exact Or.inl ⟨rfl, hsame hv hg⟩
  · obtain ⟨y, hy, hyn⟩ := hroom.get_some
    rw [← hv] at hy
    by_cases htn : (view u.fs).type n = typeNone
    · refine Or.inr (Or.inr ⟨i, y, rfl, ?_, hg, hy, fun fs' hcl => ?_⟩)
      · have hty : fs.itype i = (view fs).type y.no := seat_type hg hy
        rw [hty, hyn, hv]
        exact htn
      · obtain ⟨h2, h3, -⟩ := iclose_back h.good.ok hg hroom hv hcl
        exact hsame h2 h3
    · refine Or.inr (Or.inl ⟨i, y, rfl, hy, hv ▸ Ns.kept_get_self h.good.ok,
        h.withFs hg (hv ▸ live_get h.live hroom htn)
        (hv ▸ h.sound.get) (fun k => ?_) (hv ▸ Ns.Stay.get) (hmore i)⟩)
      rw [hv, Ns.refs_get]
      rfl
  · obtain ⟨i, d, j, n, nm, rfl, hcr, -, helem, hg, -⟩ := hmade h.live ht
    have hv := hcr.eq
    have hroom : ((view u.fs).create d j n t nm).Room i n := room_create.2 hcr.room
    have htype : ((view u.fs).create d j n t nm).type n ≠ typeNone := by
      rw [Ns.create_type, Function.update_self]
      exact ht0
    obtain ⟨y, hy, -⟩ := hroom.get_some
    refine Or.inr (Or.inl ⟨i, y, rfl, hv ▸ hy, hv ▸ Ns.kept_get_self (ok_create h.good.ok),
      h.withFs hg ?_ ?_ (fun k => ?_)
      (Ns.Stay.created h.live hcr) (hmore i)⟩)
    · exact hv ▸ live_get (h.live.create hcr.new) hroom htype
    · exact hv ▸ (h.sound.create h.live hcr ht0 helem).get
    · rw [hv, Ns.refs_get, Ns.refs, Ns.create_seat]
      rfl

/-- The directories on a disk are directories on the other one, with the same bytes. -/
def Alike (m m' : Store) : Prop :=
  ∀ d < 1920, (node m d).type = typeDir → (node m' d).type = typeDir ∧ content m' d = content m d

theorem Alike.refl (m : Store) : Alike m m := fun _ _ h => ⟨h, rfl⟩

theorem Alike.trans {a b c : Store} (h : Alike a b) (h' : Alike b c) : Alike a c := fun d hd ht =>
  have h1 := h d hd ht
  have h2 := h' d hd h1.1
  ⟨h2.1, h2.2.trans h1.2⟩

/-- What changes no inode but one that is not a directory. -/
theorem alike_others (ho : Others i n fs fs') (hn : (node fs.disk n).type ≠ typeDir) : Alike fs.disk fs'.disk :=
  fun d hd ht => by
    have hdn : d ≠ n := fun hc => hn (hc ▸ ht)
    exact ⟨(congrArg Dinode.type (ho.node d hd hdn)).trans ht, ho.content d hd hdn⟩

theorem Inv.iadddev {cwd id : Nat} (h : Inv ef es u) (hx : (view u.fs).seat cwd = some x) (hid : id < 2 ^ 32)
    (he : u.fs.iadddev cwd path id = some fs) : Inv ef es { u with fs := fs } := by
  have hsame : ∀ {fs'}, Good fs' → (view fs').Live → (view fs').Sound → (∀ k, (view fs').refs k = (view u.fs).refs k) →
      Ns.Stay (view u.fs) (view fs') → Inv ef es { u with fs := fs' } := fun {fs'} h1 h2 h3 h4 h5 =>
    (h.withFs h1 h2 h3 (fun k => by rw [h4, add_zero]) h5 fun k => by
      rw [add_zero]; exact h.extra k).congr (fun _ => rfl) fun k => by ring
  rcases iadddev_view h.good hx hid he with ⟨hv, hg⟩ | hmade
  · exact hsame hg (hv ▸ h.live) (hv ▸ h.sound) (fun k => by rw [hv]) (hv ▸ Ns.Stay.refl _)
  · obtain ⟨i, d, j, n, nm, hcr, -, helem, hv, hg⟩ := hmade h.live
    refine hsame hg (hv ▸ h.live.create hcr.new) (hv ▸ h.sound.create h.live hcr (by decide) helem) (fun k => ?_)
      (hv ▸ Ns.Stay.create h.live hcr.new)
    rw [hv, Ns.refs, Ns.create_seat]
    rfl

/-- Truncating anything but a directory. -/
theorem Inv.itrunc (h : Inv ef es u) (hx : (view u.fs).seat i = some x) (ht : (view u.fs).type x.no ≠ typeDir)
    (he : u.fs.itrunc i = some fs) :
    Inv ef es { u with fs := fs } ∧ view fs = view u.fs := by
  obtain ⟨fs', h1, -, hv, hg⟩ := itrunc_view h.good hx (h.live _ ⟨i, x, hx, rfl⟩)
  obtain rfl := Option.some.inj (he.symm.trans h1)
  rw [h.sound.trunc ht] at hv
  refine ⟨(h.withFs hg (hv ▸ h.live) (hv ▸ h.sound) (fun k => by rw [hv, add_zero])
    (hv ▸ Ns.Stay.refl _) fun k => by rw [add_zero]; exact h.extra k).congr (fun _ => rfl) fun k => by ring, hv⟩

/-- What `fopen` does behind `iopen`: nothing, or it gives the inode back, or it empties a file. -/
def Finish (fs : Fs) (q : Option Nat) (fs' : Fs) : Prop :=
  Good fs ∧ (view fs).Live ∧ (view fs).Sound ∧ (fs' = fs ∨
    (∃ i x, q = some i ∧ (view fs).seat i = some x ∧ (view fs).Kept i ∧ fs.iclose i = some fs') ∨
    ∃ i x, q = some i ∧ (view fs).seat i = some x ∧ (view fs).type x.no ≠ typeDir ∧ fs.itrunc i = some fs')

theorem Finish.alike {q : Option Nat} (h : Finish fs q fs') : Alike fs.disk fs'.disk := by
  obtain ⟨hg, hl, -, rfl | ⟨i, x, -, hx, hk, hcl⟩ | ⟨i, x, -, hx, ht, htr⟩⟩ := h
  · exact Alike.refl _
  · obtain ⟨fs₁, h1, -, -, h4⟩ := iclose_kept hg hx hk
    obtain rfl := Option.some.inj (hcl.symm.trans h1)
    rw [h4]
    exact Alike.refl _
  · obtain ⟨fs₁, h1, h2, -, -⟩ := itrunc_view hg hx (hl _ ⟨i, x, hx, rfl⟩)
    obtain rfl := Option.some.inj (htr.symm.trans h1)
    exact alike_others h2.others (by rw [← view_type (hg.seat_lt hx).2]; exact ht)

/-! ## file.c -/

theorem typeNone_ne_file : typeNone ≠ typeFile := by decide

/-- What holds of an entry that `falloc` took and that has no inode yet. -/
theorem uses_none (ht : y.type ≠ typeFile) : uses y i = 0 := if_neg fun hc => ht hc.2

/-- How `fopen` ends: with no entry of the table of files, with nothing at the path, with an inode that the mode is
not for, with a file or a directory, or with a device. -/
inductive Fopened (u : Filesys) (cwd : Nat) (path : List UInt8) (mode : Nat) : Option Nat → Filesys → Prop
  | full : u.falloc = none → Fopened u cwd path mode none u
  | missing {f : Nat} {u₁ u' : Filesys} {fs : Fs} : u.falloc = some (f, u₁) →
      u₁.fs.iopen cwd path (openType mode) = some (none, fs) → ({ u₁ with fs := fs } : Filesys).fclose f = some u' →
      Fopened u cwd path mode none u'
  | refused {f i : Nat} {u₁ v : Filesys} {fs fs₁ : Fs} : u.falloc = some (f, u₁) →
      u₁.fs.iopen cwd path (openType mode) = some (some i, fs) → fs.itype i = typeFile ∨ fs.itype i = typeDir →
      badMode (fs.itype i) mode = true → ({ u₁ with fs := fs } : Filesys).fclose f = some v → v.fs.iclose i = some fs₁ →
      Fopened u cwd path mode none { v with fs := fs₁ }
  | file {f i : Nat} {u₁ : Filesys} {fs fs₁ : Fs} : u.falloc = some (f, u₁) →
      u₁.fs.iopen cwd path (openType mode) = some (some i, fs) → fs.itype i = typeFile ∨ fs.itype i = typeDir →
      badMode (fs.itype i) mode = false → (fs.itype i = typeFile ∧ fs.itrunc i = some fs₁) ∨ fs₁ = fs →
      Fopened u cwd path mode (some f) (({ u₁ with fs := fs₁ } : Filesys).setFile f { u₁.files f with
        readable := !has mode oWronly, writable := has mode oWronly || has mode oRdwr, type := typeFile,
        inode := i, offset := 0 })
  | device {f i : Nat} {u₁ : Filesys} {fs fs₁ : Fs} : u.falloc = some (f, u₁) →
      u₁.fs.iopen cwd path (openType mode) = some (some i, fs) → fs.itype i = typeDev → fs.iclose i = some fs₁ →
      Fopened u cwd path mode (some f) (({ u₁ with fs := fs₁ } : Filesys).setFile f { u₁.files f with
        readable := !has mode oWronly, writable := has mode oWronly || has mode oRdwr, type := typeDev,
        dev := fs.idevid i })

theorem fopened {cwd mode : Nat} {r : Option Nat} (he : u.fopen cwd path mode = some (r, u')) :
    Fopened u cwd path mode r u' := by
  unfold Filesys.fopen at he
  cases ha : u.falloc with
  | none =>
    rw [ha] at he
    cases he
    exact .full ha
  | some q =>
    obtain ⟨f, u₁⟩ := q
    rw [ha] at he
    obtain ⟨⟨ip, fs⟩, hopen, he⟩ := Option.bind_eq_some_iff.1 he
    cases ip with
    | none =>
      obtain ⟨v, hcl, he⟩ := Option.bind_eq_some_iff.1 he
      cases he
      exact .missing ha hopen hcl
    | some i =>
      simp only at he
      by_cases hfd : fs.itype i = typeFile ∨ fs.itype i = typeDir
      · rw [if_pos hfd] at he
        by_cases hb : badMode (fs.itype i) mode = true
        · rw [if_pos hb] at he
          obtain ⟨v, hcl, he⟩ := Option.bind_eq_some_iff.1 he
          obtain ⟨fs₁, hic, he⟩ := Option.bind_eq_some_iff.1 he
          cases he
          exact .refused ha hopen hfd hb hcl hic
        · rw [if_neg hb] at he
          by_cases hc : fs.itype i = typeFile ∧ has mode oTrunc
          · rw [if_pos hc] at he
            obtain ⟨fs₁, htr, he⟩ := Option.bind_eq_some_iff.1 he
            cases he
            exact .file ha hopen hfd (Bool.eq_false_iff.2 hb) (Or.inl ⟨hc.1, htr⟩)
          · rw [if_neg hc] at he
            cases he
            exact .file ha hopen hfd (Bool.eq_false_iff.2 hb) (Or.inr rfl)
      · rw [if_neg hfd] at he
        by_cases hdev : fs.itype i = typeDev
        · rw [if_pos hdev] at he
          obtain ⟨fs₁, hic, he⟩ := Option.bind_eq_some_iff.1 he
          cases he
          exact .device ha hopen hdev hic
        · rw [if_neg hdev] at he
          cases he

/-- The entry that `falloc` took has no inode yet. -/
theorem falloc_entry {u₁ : Filesys} (h : Inv ef es u) (ha : u.falloc = some (f, u₁)) :
    u₁.procs = u.procs ∧ u₁.fs = u.fs ∧ 0 < (u₁.files f).ref ∧ (u₁.files f).type ≠ typeFile ∧ f < totalFile ∧
      Inv (fun g => ef g + unit f g) es u₁ := by
  obtain ⟨hf, -, hq, hinv⟩ := falloc_some h ha
  simp only at hf hq hinv
  have hfile : u₁.files f = { u.files f with ref := 1, type := typeNone } := by rw [hq]; exact Function.update_self ..
  refine ⟨by rw [hq]; rfl, by rw [hq]; rfl, ?_, ?_, hf, hinv⟩
  · rw [hfile]
    exact Int.one_pos
  · rw [hfile]
    exact typeNone_ne_file

theorem openType_cases {mode : Nat} :
    openType mode = typeNone ∨ openType mode = typeFile ∨ openType mode = typeDir := by
  unfold openType
  split
  · split
    · exact Or.inr (Or.inr rfl)
    · exact Or.inr (Or.inl rfl)
  · exact Or.inl rfl

theorem openType_lt {mode : Nat} : openType mode < 2 ^ 32 := by
  rcases openType_cases with h | h | h <;> rw [h] <;> decide

theorem Inv.fopen {cwd mode : Nat} {r : Option Nat} (h : Inv ef es u) (hx : (view u.fs).seat cwd = some x)
    (he : u.fopen cwd path mode = some (r, u')) :
    u'.procs = u.procs ∧
      (u'.fs = u.fs ∨ ∃ q fs, u.fs.iopen cwd path (openType mode) = some (q, fs) ∧ Finish fs q u'.fs) ∧
      ((r = none ∧ Inv ef es u') ∨ ∃ f, r = some f ∧ Inv (fun g => ef g + unit f g) es u') := by
  have hback : ∀ f g, ef g = ef g + unit f g - unit f g := fun f g => by ring
  cases fopened he with
  | full ha => exact ⟨rfl, Or.inl rfl, Or.inl ⟨rfl, h⟩⟩
  | @missing f u₁ _ fs ha hopen hcl =>
    obtain ⟨hprocs, hfs, hpos, htype, -, hinv⟩ := falloc_entry h ha
    rcases hinv.iopen (hfs ▸ hx) openType_lt hopen with ⟨-, hi⟩ | ⟨i, y, hc, -⟩ | ⟨i, -, hc, -⟩
    · rw [hfs] at hopen
      refine ⟨(fclose_procs hcl).trans hprocs, Or.inr ⟨_, fs, hopen, ?_⟩, Or.inl ⟨rfl, ?_⟩⟩
      · exact ⟨hi.good, hi.live, hi.sound, Or.inl (fclose_fs hcl htype)⟩
      · exact (hi.fclose hpos hcl).congr (hback f) fun _ => rfl
    · cases hc
    · cases hc
  | @refused f i u₁ v fs fs₁ ha hopen hfd hb hcl hic =>
    obtain ⟨hprocs, hfs, hpos, htype, -, hinv⟩ := falloc_entry h ha
    rcases hinv.iopen (hfs ▸ hx) openType_lt hopen with ⟨hc, -⟩ | ⟨i', y, hc, hy, hkept, hi⟩ | ⟨i', -, hc, hti, -⟩
    · cases hc
    · cases hc
      rw [hfs] at hopen
      have hv := fclose_fs hcl htype
      refine ⟨(fclose_procs hcl).trans hprocs, Or.inr ⟨_, fs, hopen, ?_⟩, Or.inl ⟨rfl, ?_⟩⟩
      · rw [hv] at hic
        exact ⟨hi.good, hi.live, hi.sound, Or.inr (Or.inl ⟨i, y, rfl, hy, hkept, hic⟩)⟩
      · refine ((hi.fclose hpos hcl).iclose ?_ hic).congr (hback f) fun k => by ring
        have := h.extra i
        simp only [unit_self]
        omega
    · cases hc
      rw [hti] at hfd
      exact absurd hfd (by decide)
  | @file f i u₁ fs fs₁ ha hopen hfd hb htr =>
    obtain ⟨hprocs, hfs, hpos, htype, hf, hinv⟩ := falloc_entry h ha
    rcases hinv.iopen (hfs ▸ hx) openType_lt hopen with ⟨hc, -⟩ | ⟨i', y, hc, hy, hkept, hi⟩ | ⟨i', -, hc, hti, -⟩
    · cases hc
    · cases hc
      rw [hfs] at hopen
      have hty : fs.itype i = (view fs).type y.no := seat_type hi.good hy
      -- an open directory cannot be written to
      have hkind : has mode oWronly || has mode oRdwr → (view fs).type y.no ≠ typeDir := fun hw hd => by
        rw [hty, hd] at hb
        unfold badMode at hb
        rw [hw] at hb
        simp at hb
      obtain ⟨hi₂, hv₂, hfin⟩ : Inv (fun g => ef g + unit f g) (fun k => es k + unit i k) { u₁ with fs := fs₁ } ∧
          view fs₁ = view fs ∧ Finish fs (some i) fs₁ := by
        rcases htr with ⟨hfile, htr⟩ | rfl
        · have hnd : (view fs).type y.no ≠ typeDir := by rw [← hty, hfile]; decide
          obtain ⟨h1, h2⟩ := hi.itrunc hy hnd htr
          exact ⟨h1, h2, hi.good, hi.live, hi.sound, Or.inr (Or.inr ⟨i, y, rfl, hy, hnd, htr⟩)⟩
        · exact ⟨hi, rfl, hi.good, hi.live, hi.sound, Or.inl rfl⟩
      refine ⟨hprocs, Or.inr ⟨_, fs, hopen, hfin⟩, Or.inr ⟨f, rfl, ?_⟩⟩
      have hnone : ∀ k, uses (u₁.files f) k = 0 := fun k => uses_none htype
      have hnew : ∀ k, uses { u₁.files f with
          readable := !has mode oWronly, writable := has mode oWronly || has mode oRdwr, type := typeFile, inode := i,
          offset := 0 } k = unit i k :=
        fun k => if_pos ⟨hpos, rfl⟩
      refine (hi₂.setFile hf (fun _ _ hw z hz => ?_) fun k => ?_).congr (fun g => ?_) fun k => ?_
      · simp only at hz ⊢
        rw [hv₂, hy] at hz
        cases hz
        rw [hv₂]
        exact hkind hw
      · have := h.extra k
        simp only [hnone, hnew]
        omega
      · simp only [sub_self, ite_self, add_zero]
      · simp only [hnone, hnew]
        ring
    · cases hc
      rw [hti] at hfd
      exact absurd hfd (by decide)
  | @device f i u₁ fs fs₁ ha hopen hdev hic =>
    obtain ⟨hprocs, hfs, hpos, htype, hf, hinv⟩ := falloc_entry h ha
    rcases hinv.iopen (hfs ▸ hx) openType_lt hopen with ⟨hc, -⟩ | ⟨i', y, hc, hy, hkept, hi⟩ | ⟨i', -, hc, hti, -⟩
    · cases hc
    · cases hc
      rw [hfs] at hopen
      refine ⟨hprocs, Or.inr ⟨_, fs, hopen, ?_⟩, Or.inr ⟨f, rfl, ?_⟩⟩
      · exact ⟨hi.good, hi.live, hi.sound, Or.inr (Or.inl ⟨i, y, rfl, hy, hkept, hic⟩)⟩
      have hi₂ := hi.iclose (by have := h.extra i; simp only [unit_self]; omega) hic
      have hnone : ∀ k, uses (u₁.files f) k = 0 := fun k => uses_none htype
      have hnew : ∀ k, uses { u₁.files f with
          readable := !has mode oWronly, writable := has mode oWronly || has mode oRdwr, type := typeDev,
          dev := fs.idevid i } k = 0 :=
        fun k => uses_none (by simp only; decide)
      refine (hi₂.setFile hf (fun _ hc => by cases hc) fun k => ?_).congr (fun g => ?_) fun k => ?_
      · have := h.extra k
        simp only [hnone, hnew]
        omega
      · simp only [sub_self, ite_self, add_zero]
      · simp only [hnone, hnew]
        ring
    · cases hc
      rw [hti] at hdev
      exact absurd hdev (by decide)

/-- Another offset. -/
theorem Inv.offset (h : Inv ef es u) (hf : 0 < (u.files f).ref) (o : Nat) :
    Inv ef es (u.setFile f { u.files f with offset := o }) := by
  have hsame : ∀ k, uses { u.files f with offset := o } k = uses (u.files f) k := fun _ => rfl
  refine (h.setFile (y := { u.files f with offset := o }) (h.small f hf) (fun _ => h.kind f hf) fun k => ?_).congr
    (fun g => ?_)
    fun k => ?_
  · rw [hsame, sub_self, add_zero]
    exact h.extra k
  · simp only [sub_self, ite_self, add_zero]
  · rw [hsame, sub_self, add_zero]

/-- Reading leaves the file system as it is. -/
theorem fread_fs {size : Nat} {r : Option (List UInt8)} (h : Inv ef es u) (hf : 0 < (u.files f).ref)
    (he : u.fread f size = some (r, u')) : Inv ef es u' ∧ u'.procs = u.procs ∧ u'.fs = u.fs := by
  unfold Filesys.fread at he
  simp only at he
  split at he
  · cases he
    exact ⟨h, rfl, rfl⟩
  split at he
  · next ht =>
    obtain ⟨⟨r', fs⟩, hr, he⟩ := Option.bind_eq_some_iff.1 he
    obtain ⟨x, hx⟩ := h.file_seat hf ht
    have hl := h.good.layer hx (h.live _ ⟨_, x, hx, rfl⟩)
    obtain ⟨rfl, -⟩ := iread_some hl.inv hl.mapped hl.active hr
    cases r' with
    | none =>
      cases he
      exact ⟨h, rfl, rfl⟩
    | some buf =>
      cases he
      exact ⟨h.offset hf _, rfl, rfl⟩
  · split at he
    · split at he
      · cases he
        exact ⟨h, rfl, rfl⟩
      · cases he
    · cases he
      exact ⟨h, rfl, rfl⟩

/-- Writing leaves the file system as it is, or writes to an inode that is not a directory. -/
theorem fwrite_fs {buf : List UInt8} {r : Option Nat} (h : Inv ef es u) (hf : 0 < (u.files f).ref)
    (he : u.fwrite f buf = some (r, u')) : Inv ef es u' ∧ u'.procs = u.procs ∧ (u'.fs = u.fs ∨
      ∃ x off r', (u.files f).type = typeFile ∧ (view u.fs).seat (u.files f).inode = some x ∧
        (view u.fs).type x.no ≠ typeDir ∧
        u.fs.iwrite (u.files f).inode off buf = some (r', u'.fs)) := by
  unfold Filesys.fwrite at he
  simp only at he
  split at he
  · cases he
    exact ⟨h, rfl, Or.inl rfl⟩
  next hw =>
  split at he
  · next ht =>
    obtain ⟨⟨r', fs⟩, hr, he⟩ := Option.bind_eq_some_iff.1 he
    obtain ⟨x, hx⟩ := h.file_seat hf ht
    have hdir := h.kind f hf ht (by simpa using hw) x hx
    obtain ⟨hv, hg⟩ := iwrite_view h.good hx (h.live _ ⟨_, x, hx, rfl⟩) hdir hr
    have hi : Inv ef es { u with fs := fs } := (h.withFs hg (hv ▸ h.live) (hv ▸ h.sound)
      (fun k => by rw [hv, add_zero]) (hv ▸ Ns.Stay.refl _) fun k => by rw [add_zero]; exact h.extra k).congr
        (fun _ => rfl) fun k => by ring
    cases r' with
    | none =>
      cases he
      exact ⟨hi, rfl, Or.inr ⟨x, _, none, ht, hx, hdir, hr⟩⟩
    | some n =>
      cases he
      exact ⟨hi.offset hf _, rfl, Or.inr ⟨x, _, some n, ht, hx, hdir, hr⟩⟩
  · split at he
    · split at he
      · cases he
        exact ⟨h, rfl, Or.inl rfl⟩
      · cases he
    · cases he
      exact ⟨h, rfl, Or.inl rfl⟩

theorem Inv.fseek {off whence : Nat} {r : Option Nat} (h : Inv ef es u) (hf : 0 < (u.files f).ref)
    (he : u.fseek f off whence = some (r, u')) : Inv ef es u' := by
  unfold Filesys.fseek at he
  simp only at he
  split at he
  · split at he
    · cases he
      exact h.offset hf _
    · cases he
      exact h.offset hf _
    · cases he
      exact h.offset hf _
    · cases he
  · cases he
    exact h

theorem fseek_fs {off whence : Nat} {r : Option Nat} (he : u.fseek f off whence = some (r, u')) :
    u'.fs = u.fs ∧ u'.procs = u.procs := by
  unfold Filesys.fseek at he
  simp only at he
  split at he
  · split at he
    all_goals cases he
    all_goals exact ⟨rfl, rfl⟩
  · cases he
    exact ⟨rfl, rfl⟩

/-! ## System calls -/

/-- Between system calls nothing is held. -/
def Rest (u : Filesys) : Prop := Inv (fun _ => 0) (fun _ => 0) u

theorem fdRefs_nonneg : 0 ≤ u.fdRefs f := by
  refine Finset.sum_nonneg fun p _ => ?_
  unfold fdsOf
  cases u.procs p with
  | none => exact le_refl 0
  | some d => exact Int.natCast_nonneg _

/-- What a descriptor points to is open. -/
theorem Rest.opened (h : Rest u) (hp : u.procs p = some d) {j : Nat} (hj : j < maxUfile) (hf : d.files j = some f) :
    0 < (u.files f).ref := by
  have hlt := h.table p (by rw [hp]; exact Option.some_ne_none d)
  have hle : fdsOf (u.procs p) f ≤ ∑ q ∈ Finset.range procNum, fdsOf (u.procs q) f := by
    refine Finset.single_le_sum (f := fun q => fdsOf (u.procs q) f) (fun q _ => ?_) (Finset.mem_range.2 hlt)
    unfold fdsOf
    cases u.procs q with
    | none => exact le_refl 0
    | some d => exact Int.natCast_nonneg _
  have hone : 0 < slots maxUfile d.files f := slots_pos.2 ⟨j, hj, hf⟩
  have hself : fdsOf (u.procs p) f = slots maxUfile d.files f := by rw [hp]; rfl
  have := h.fds f
  unfold fdRefs at this
  omega

theorem procGetfile_some {fd : Int} (h : procGetfile d fd = some f) :
    fd.toNat < maxUfile ∧ d.files fd.toNat = some f := by
  unfold procGetfile at h
  split at h
  · cases h
  · next hc =>
    simp only [maxUfile] at hc ⊢
    exact ⟨by omega, h⟩

theorem procAllocfile_some (h : procAllocfile d = some l) : l < maxUfile ∧ d.files l = none := by
  unfold procAllocfile at h
  exact ⟨List.mem_range.1 (List.mem_of_find?_eq_some h), by simpa using List.find?_some h⟩

/-- Another set of descriptors for the process that calls. -/
theorem Inv.setFiles (h : Inv ef es u) (hp : u.procs p = some d) {tab : Nat → Option Nat} :
    Inv (fun g => ef g + (slots maxUfile d.files g - slots maxUfile tab g : Int)) es
      (u.setProc p { d with files := tab }) := by
  have hlt := h.table p (by rw [hp]; exact Option.some_ne_none d)
  have hsame : ∀ k, cwdOf (u.procs p) k - cwdOf (some { d with files := tab }) k = 0 := fun k => by
    rw [hp]
    exact sub_self _
  refine (h.withProc (o := some { d with files := tab }) hlt (fun d' hd' => ?_) fun k => ?_).congr (fun g => ?_)
    fun k => ?_
  · cases hd'
    exact h.home p d hp
  · rw [hsame, add_zero]
    exact h.extra k
  · rw [hp]
    rfl
  · rw [hsame, add_zero]

theorem slots_add (hj : l < maxUfile) (hn : d.files l = none) (g : Nat) :
    (slots maxUfile d.files g : Int) - slots maxUfile (Function.update d.files l (some f)) g = -unit f g := by
  rw [slots_set hj, hn, if_neg (by simp)]
  unfold unit
  simp only [Option.some.injEq, @eq_comm _ f]
  ring

theorem slots_del (hj : l < maxUfile) (hn : d.files l = some f) (g : Nat) :
    (slots maxUfile d.files g : Int) - slots maxUfile (Function.update d.files l none) g = unit f g := by
  rw [slots_set hj, hn, if_neg (c := none = some g) (by simp)]
  unfold unit
  simp only [Option.some.injEq, @eq_comm _ f]
  ring

theorem Rest.sysOpen {mode : Nat} (h : Rest u) (hp : u.procs p = some d) (he : u.sysOpen p d path mode = some u') :
    Rest u' := by
  unfold Filesys.sysOpen at he
  split at he
  · cases he
    exact h
  · next l hl =>
    obtain ⟨hlt, hfree⟩ := procAllocfile_some hl
    obtain ⟨⟨r, u₁⟩, ho, he⟩ := Option.bind_eq_some_iff.1 he
    obtain ⟨x, hx⟩ := h.cwd_seat hp
    obtain ⟨hprocs, -, ⟨rfl, hi⟩ | ⟨f, rfl, hi⟩⟩ := h.fopen hx ho
    · cases he
      exact hi
    · cases he
      refine (hi.setFiles (hprocs ▸ hp)).congr (fun g => ?_) fun _ => rfl
      rw [slots_add hlt hfree]
      ring

theorem Rest.sysClose {fd : Int} (h : Rest u) (hp : u.procs p = some d) (he : u.sysClose p d fd = some u') :
    Rest u' := by
  unfold Filesys.sysClose at he
  split at he
  · cases he
    exact h
  · next f hf =>
    obtain ⟨hlt, hfile⟩ := procGetfile_some hf
    obtain ⟨u₁, hcl, he⟩ := Option.bind_eq_some_iff.1 he
    cases he
    refine ((h.fclose (h.opened hp hlt hfile) hcl).setFiles ((fclose_procs hcl) ▸ hp)).congr (fun g => ?_) fun _ => rfl
    rw [slots_del hlt hfile]
    ring

theorem Rest.sysDup {fd : Int} (h : Rest u) (hp : u.procs p = some d) : Rest (u.sysDup p d fd) := by
  unfold Filesys.sysDup
  split
  · exact h
  · next l hl =>
    obtain ⟨hlt, hfree⟩ := procAllocfile_some hl
    split
    · exact h
    · next f hf =>
      obtain ⟨hlt', hfile⟩ := procGetfile_some hf
      refine ((h.fdup (h.opened hp hlt' hfile)).setFiles (d := d) (p := p) hp).congr (fun g => ?_) fun _ => rfl
      rw [slots_add hlt hfree]
      ring

theorem Rest.sysChdir (h : Rest u) (hp : u.procs p = some d) (he : u.sysChdir p d path = some u') : Rest u' := by
  unfold Filesys.sysChdir at he
  obtain ⟨⟨r, fs⟩, ho, he⟩ := Option.bind_eq_some_iff.1 he
  obtain ⟨x, hx⟩ := h.cwd_seat hp
  have hlt := h.table p (by rw [hp]; exact Option.some_ne_none d)
  rcases h.iopen hx (by decide) ho with ⟨rfl, hi⟩ | ⟨i, y, rfl, -, -, hi⟩ | ⟨i, -, rfl, hti, -, -, hcl⟩
  · cases he
    exact hi
  · simp only at he
    split at he
    · obtain ⟨fs', hcl, he⟩ := Option.bind_eq_some_iff.1 he
      cases he
      refine (hi.iclose ?_ hcl).congr (fun _ => rfl) fun k => by ring
      simp only [unit_self]
      decide
    · next hcd =>
      obtain ⟨fs', hcl, he⟩ := Option.bind_eq_some_iff.1 he
      cases he
      -- first the new working directory, which gives the old one back to the call
      have hcwd : ∀ k, cwdOf (u.procs p) k - cwdOf (some { d with cwd := i }) k = unit d.cwd k - unit i k := fun k => by
        rw [hp]
        rfl
      have hnew := hi.withProc (o := some { d with cwd := i }) hlt (fun d' hd' z hz => by
          cases hd'
          have hty := seat_type hi.good hz
          exact hty.symm.trans (not_not.1 hcd)) fun k => by
        have := unit_nonneg (n := d.cwd) (i := k)
        simp only [hcwd]
        omega
      refine (hnew.iclose (i := d.cwd) ?_ hcl).congr (fun g => ?_) fun k => ?_
      · simp only [hcwd, unit_self]
        omega
      · simp only [hp]
        show (0 : Int) = 0 + (slots maxUfile d.files g - slots maxUfile d.files g)
        ring
      · simp only [hcwd]
        ring
  · have hne : fs.itype i ≠ typeDir := by rw [hti]; decide
    simp only [if_pos hne] at he
    obtain ⟨fs', hc, he⟩ := Option.bind_eq_some_iff.1 he
    cases he
    exact hcl fs' hc

/-- Reading leaves the file system as it is, also from an inode that has gone. -/
theorem iread_idle {off len : Nat} {r : Option (List UInt8)} (h : Good fs) (hx : (view fs).seat i = some x)
    (he : fs.iread i off (uint32 len) = some (r, fs')) : fs' = fs := by
  by_cases ht : (view fs).type x.no = typeNone
  swap
  · have hl := h.layer hx ht
    exact (iread_some hl.inv hl.mapped hl.active he).1
  have hlt := (h.seat_lt hx).2
  have hsize : (node fs.disk x.no).size = 0 := by
    by_contra hs
    refine h.mapped x.no hlt 0 ((Nat.zero_mul 4096).symm ▸ Nat.pos_of_ne_zero hs) ?_
    rw [blk_direct (by decide)]
    exact h.inv.owned.none x.no hlt (by rw [← view_type hlt]; exact ht) 0
  unfold Fs.iread at he
  rw [seat_node h hx, hsize] at he
  by_cases hoff : off > 0
  · simp only [if_pos hoff] at he
    cases he
    rfl
  · obtain rfl : off = 0 := by omega
    simp only [if_neg hoff] at he
    have hlen : (if uint32 (0 + uint32 len) > 0 then 0 - 0 else uint32 len) = 0 := by
      unfold uint32
      split <;> omega
    rw [hlen] at he
    obtain ⟨⟨bs, fs₁⟩, h1, h2⟩ := Option.bind_eq_some_iff.1 he
    rw [ireadLoop, if_pos rfl] at h1
    obtain ⟨-, rfl⟩ := Prod.mk.inj (Option.some.inj h1)
    exact ((Prod.mk.inj (Option.some.inj h2)).2).symm

theorem ireads_idle : ∀ {reads : List (Nat × Nat)}, Good fs → (view fs).seat i = some x →
    reads.foldlM (fun fs q => (fs.iread i (uint32 q.1) (uint32 q.2)).map Prod.snd) fs = some fs' → fs' = fs
  | [], _, _, he => by
    cases he
    rfl
  | q :: reads, h, hx, he => by
    rw [List.foldlM_cons] at he
    obtain ⟨fs₁, h1, he⟩ := Option.bind_eq_some_iff.1 he
    obtain ⟨⟨r, fs₂⟩, hr, rfl⟩ := Option.map_eq_some_iff.1 h1
    have hsame : fs₂ = fs := iread_idle h hx hr
    simp only [hsame] at he
    exact ireads_idle h hx he

theorem Rest.sysExec {reads : List (Nat × Nat)} (h : Rest u) (hp : u.procs p = some d)
    (he : u.sysExec d path reads = some u') : Rest u' := by
  unfold Filesys.sysExec at he
  obtain ⟨⟨r, fs⟩, ho, he⟩ := Option.bind_eq_some_iff.1 he
  obtain ⟨x, hx⟩ := h.cwd_seat hp
  rcases h.iopen hx (by decide) ho with ⟨rfl, hi⟩ | ⟨i, y, rfl, hy, -, hi⟩ | ⟨i, y, rfl, -, hg, hy, hclose⟩
  · cases he
    exact hi
  · obtain ⟨fs₁, hr, he⟩ := Option.bind_eq_some_iff.1 he
    obtain ⟨fs₂, hcl, he⟩ := Option.bind_eq_some_iff.1 he
    cases he
    obtain rfl := ireads_idle hi.good hy hr
    refine (hi.iclose ?_ hcl).congr (fun _ => rfl) fun k => by ring
    simp only [unit_self]
    decide
  · obtain ⟨fs₁, hr, he⟩ := Option.bind_eq_some_iff.1 he
    obtain ⟨fs₂, hcl, he⟩ := Option.bind_eq_some_iff.1 he
    cases he
    obtain rfl := ireads_idle hg hy hr
    exact hclose fs₂ hcl

theorem Rest.sysUnlink (h : Rest u) (hp : u.procs p = some d) (he : u.sysUnlink d path = some u') : Rest u' := by
  unfold Filesys.sysUnlink at he
  obtain ⟨⟨b, fs⟩, hr, he⟩ := Option.bind_eq_some_iff.1 he
  cases he
  obtain ⟨x, hx⟩ := h.cwd_seat hp
  have hzero : ∀ {fs' : Fs}, Good fs' → (view fs').Live → (view fs').Sound →
      (∀ k, (view fs').refs k = (view u.fs).refs k) →
      Ns.Stay (view u.fs) (view fs') → Rest { u with fs := fs' } := fun {fs'} h1 h2 h3 h4 h5 =>
    (h.withFs (c := fun _ => 0) h1 h2 h3 (fun k => by rw [h4, add_zero]) h5 fun k => le_refl 0).congr (fun _ => rfl)
      fun k => by ring
  rcases iremove_view h.good hx (h.sound.named _) hr with ⟨-, hv, hg, -⟩ | ⟨-, c, j, n, nm, i, hrem, -, hg, -⟩
  · exact hzero hg (hv ▸ h.live) (hv ▸ h.sound) (fun k => by rw [hv]) (hv ▸ Ns.Stay.refl _)
  · have htn := (h.sound.target c j n nm hrem.ent hrem.notDot hrem.notDotdot).1
    exact hzero hg (h.live.unlink h.good.ok hrem htn) (h.sound.unlink h.good.ok hrem)
      (fun k => Ns.Removed.refs h.good.ok hrem) (Ns.Stay.removed h.good.ok hrem)

/-! ## `fork` and `exit` -/

/-- The loop of `proc_copycurr` over the descriptors. -/
theorem Inv.dups {tab : Nat → Option Nat} : ∀ {l : List Nat} {u : Filesys} {ef : Nat → Int}, Inv ef es u →
    (∀ j ∈ l, ∀ f, tab j = some f → 0 < (u.files f).ref) →
    Inv (fun g => ef g + (l.countP fun j => decide (tab j = some g) : Nat)) es
      (l.foldl (fun u j => (tab j).elim u u.fdup) u) ∧ (l.foldl (fun u j => (tab j).elim u u.fdup) u).procs = u.procs ∧
      (l.foldl (fun u j => (tab j).elim u u.fdup) u).fs = u.fs
  | [], u, ef, h, _ => ⟨h.congr (fun g => by simp) fun _ => rfl, rfl, rfl⟩
  | j :: l, u, ef, h, hpos => by
    rw [List.foldl_cons]
    cases hj : tab j with
    | none =>
      obtain ⟨h1, h2, h3⟩ := h.dups (l := l) fun k hk => hpos k (List.mem_cons_of_mem _ hk)
      refine ⟨h1.congr (fun g => ?_) fun _ => rfl, h2, h3⟩
      rw [List.countP_cons, hj]
      simp
    | some f =>
      have hf := hpos j List.mem_cons_self f hj
      have hup : ∀ g, 0 < (u.files g).ref → 0 < ((u.fdup f).files g).ref := fun g hg => by
        unfold Filesys.fdup Filesys.setFile
        simp only
        by_cases hgf : g = f
        · subst hgf
          rw [Function.update_self]
          simp only
          omega
        · rw [Function.update_of_ne hgf]
          exact hg
      obtain ⟨h1, h2, h3⟩ := (h.fdup hf).dups (l := l) fun k hk g hg =>
        hup g (hpos k (List.mem_cons_of_mem _ hk) g hg)
      refine ⟨h1.congr (fun g => ?_) fun _ => rfl, h2, h3⟩
      rw [List.countP_cons, hj]
      unfold unit
      by_cases hgf : g = f
      · subst hgf
        simp
        ring
      · rw [if_neg hgf, if_neg (by simpa using Ne.symm hgf)]
        simp

theorem Rest.fork {c : Nat} (h : Rest u) (hp : u.procs p = some d) (hc : c < procNum) (hn : u.procs c = none) :
    Rest (u.fork c d) := by
  obtain ⟨hd, hprocs, hfs⟩ := Inv.dups (l := List.range maxUfile) h fun j hj f hf =>
    h.opened hp (List.mem_range.1 hj) hf
  obtain ⟨x, hx⟩ := hd.cwd_seat (hprocs ▸ hp)
  have hfree : ((List.range maxUfile).foldl (fun u j => (d.files j).elim u u.fdup) u).procs c = none := hprocs ▸ hn
  refine ((hd.idup hx).withProc (o := some d) hc (fun d' hd' => ?_) fun k => ?_).congr (fun g => ?_) fun k => ?_
  · cases hd'
    exact (hd.idup hx).home p d (hprocs ▸ hp)
  · simp only [hfree]
    show 0 ≤ 0 + unit d.cwd k + (0 - unit d.cwd k)
    omega
  · simp only [hfree]
    show (0 : Int) = 0 + (slots maxUfile d.files g : Nat) + (0 - (slots maxUfile d.files g : Nat))
    ring
  · simp only [hfree]
    show (0 : Int) = 0 + unit d.cwd k + (0 - unit d.cwd k)
    ring

/-- The next descriptor of the loop points to an open file. -/
theorem Inv.closing {tab : Nat → Option Nat} {l : List Nat} {j : Nat}
    (h : Inv (fun g => ((j :: l).countP fun j => decide (tab j = some g) : Nat)) es u) (hj : tab j = some f) :
    0 < (u.files f).ref := by
  have h2 := h.fds f
  have h3 := fdRefs_nonneg (u := u) (f := f)
  rw [List.countP_cons, hj] at h2
  simp only [decide_true, if_true] at h2
  omega

/-- The loop of `proc_makezombie` over the descriptors `l`, with `rest` still to come. -/
theorem Inv.closes {tab : Nat → Option Nat} {rest : List Nat} : ∀ {l : List Nat} {u : Filesys},
    Inv (fun g => ((l ++ rest).countP fun j => decide (tab j = some g) : Nat)) es u →
    l.foldlM (fun u j => (tab j).elim (some u) u.fclose) u = some u' →
    Inv (fun g => (rest.countP fun j => decide (tab j = some g) : Nat)) es u'
  | [], u, h, he => by
    cases he
    exact h
  | j :: l, u, h, he => by
    rw [List.foldlM_cons] at he
    obtain ⟨u₁, h1, he⟩ := Option.bind_eq_some_iff.1 he
    refine Inv.closes (l := l) ?_ he
    cases hj : tab j with
    | none =>
      rw [hj] at h1
      cases h1
      refine h.congr (fun g => ?_) fun _ => rfl
      rw [List.cons_append, List.countP_cons, hj]
      simp
    | some f =>
      rw [hj] at h1
      refine (h.fclose (h.closing hj) h1).congr (fun g => ?_) fun _ => rfl
      rw [List.cons_append, List.countP_cons, hj]
      unfold unit
      by_cases hgf : g = f
      · subst hgf
        simp
      · rw [if_neg hgf, if_neg (by simpa using Ne.symm hgf)]
        simp

/-- A process that is a zombie: what it had is held by the call. -/
theorem Rest.leave (h : Rest u) (hp : u.procs p = some d) :
    Inv (fun g => ((List.range maxUfile).countP fun j => decide (d.files j = some g) : Nat)) (unit d.cwd)
      { u with procs := Function.update u.procs p none } := by
  have hlt := h.table p (by rw [hp]; exact Option.some_ne_none d)
  have hcwd : ∀ k, (0 : Int) + (cwdOf (u.procs p) k - cwdOf none k) = unit d.cwd k := fun k => by
    rw [hp]
    show 0 + (unit d.cwd k - 0) = _
    ring
  refine (h.withProc (o := none) hlt (fun _ hc => by cases hc) fun k => ?_).congr (fun g => ?_) fun k => (hcwd k).symm
  · rw [hcwd]
    exact unit_nonneg
  · rw [hp]
    show ((slots maxUfile d.files g : Nat) : Int) = 0 + ((slots maxUfile d.files g : Nat) - 0)
    ring

theorem Rest.exit (h : Rest u) (hp : u.procs p = some d) (he : u.exit p d = some u') : Rest u' := by
  unfold Filesys.exit at he
  obtain ⟨u₁, hcl, he⟩ := Option.bind_eq_some_iff.1 he
  obtain ⟨fs, hic, he⟩ := Option.bind_eq_some_iff.1 he
  cases he
  have hloop := Inv.closes ((h.leave hp).congr (fun g => by rw [List.append_nil]) fun _ => rfl) hcl
  refine (hloop.iclose (i := d.cwd) (by rw [unit_self]) hic).congr (fun g => by simp) fun k => ?_
  ring

/-! ## Steps -/

theorem Rest.step {c : Call} (h : Rest u) (he : u.step p c = some u') : Rest u' := by
  unfold Filesys.step at he
  split at he
  · cases he
  next d hp =>
  cases c with
  | «open» path mode => exact h.sysOpen hp he
  | close fd => exact h.sysClose hp he
  | dup fd =>
    cases he
    exact h.sysDup hp
  | read fd size =>
    simp only [Filesys.sysRead] at he
    split at he
    · cases he
      exact h
    · next f hf =>
      obtain ⟨hlt, hfile⟩ := procGetfile_some hf
      obtain ⟨q, hq, rfl⟩ := Option.map_eq_some_iff.1 he
      exact (fread_fs h (h.opened hp hlt hfile) hq).1
  | write fd buf =>
    simp only [Filesys.sysWrite] at he
    split at he
    · cases he
      exact h
    · next f hf =>
      obtain ⟨hlt, hfile⟩ := procGetfile_some hf
      obtain ⟨q, hq, rfl⟩ := Option.map_eq_some_iff.1 he
      exact (fwrite_fs h (h.opened hp hlt hfile) hq).1
  | lseek fd off whence =>
    simp only [Filesys.sysLseek] at he
    split at he
    · cases he
      exact h
    · next f hf =>
      obtain ⟨hlt, hfile⟩ := procGetfile_some hf
      obtain ⟨q, hq, rfl⟩ := Option.map_eq_some_iff.1 he
      exact h.fseek (h.opened hp hlt hfile) hq
  | chdir path => exact h.sysChdir hp he
  | unlink path => exact h.sysUnlink hp he
  | exec path reads => exact h.sysExec hp he
  | fork c =>
    simp only at he
    split at he
    · next hc =>
      cases he
      exact h.fork hp hc.1 (Option.isNone_iff_eq_none.1 hc.2)
    · cases he
  | exit => exact h.exit hp he

end Filesys

end TinyOS
