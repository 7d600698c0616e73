/-
Paths: a walk over the names of a path ends in a directory and leaves only a reference to it, and
`iopen`, `iremove` and `iadddev` as operations of the namespace.
-/
import TinyOS.Fs.Lookup
import TinyOS.Fs.Resolve

namespace TinyOS.Fs

open TinyOS.Lib

variable {fs fs' : Fs} {s s' : Ns} {i j n c d p t k : Nat} {x : Seat} {nm path : List UInt8}

/-! ## `skipelem` -/

/-- A name as a path gives it: 1 to 27 characters, none of them a slash or a NUL. -/
structure Elem (nm : List UInt8) : Prop where
  len : nm.length < 28
  cstr : cstr nm = nm
  ne : nm ≠ []
  slash : slash ∉ nm

theorem skipelem_some {rest : List UInt8} (h : skipelem path = some (nm, rest)) :
    Elem nm ∧ rest.length < path.length := by
  unfold skipelem at h
  generalize hp : path.dropWhile (· = slash) = q at h
  simp only at h
  split at h
  · cases h
  · next hq =>
    cases h
    have hmem : ∀ y ∈ q.takeWhile (fun c => decide (c ≠ slash ∧ c ≠ 0)), y ≠ 0 := fun y hy => by
      have := List.mem_takeWhile_imp hy
      simp only [decide_eq_true_eq] at this
      exact this.2
    have hmems : ∀ y ∈ q.takeWhile (fun c => decide (c ≠ slash ∧ c ≠ 0)), y ≠ slash := fun y hy => by
      have := List.mem_takeWhile_imp hy
      simp only [decide_eq_true_eq] at this
      exact this.1
    have hlen : q.length ≤ path.length := hp ▸ (List.dropWhile_sublist _).length_le
    -- the slashes are skipped, so the name does not start with one
    have hfirst : q.headD 0 ≠ slash := by
      intro ha
      have := List.head?_dropWhile_not (· = slash) path
      rw [hp] at this
      cases q with
      | nil => exact hq rfl
      | cons a q =>
        rw [List.headD_cons] at ha
        simp [ha] at this
    refine ⟨⟨?_, cstr_eq_self ?_, ?_, ?_⟩, ?_⟩
    · split
      · rw [List.length_take]
        simp only [maxName]
        omega
      · next h27 => simp only [maxName] at h27; omega
    · split
      · exact fun hc => hmem 0 (List.mem_of_mem_take hc) rfl
      · exact fun hc => hmem 0 hc rfl
    · cases q with
      | nil => exact absurd rfl hq
      | cons a q =>
        have ha : decide (a ≠ slash ∧ a ≠ 0) = true := decide_eq_true ⟨hfirst, hq⟩
        rw [List.takeWhile_cons_of_pos (p := fun c => decide (c ≠ slash ∧ c ≠ 0)) ha]
        split
        · exact List.cons_ne_nil _ _
        · exact List.cons_ne_nil _ _
    · split
      · exact fun hc => hmems _ (List.mem_of_mem_take hc) rfl
      · exact fun hc => hmems _ hc rfl
    · -- the name has at least one character, so the rest is shorter
      cases q with
      | nil => exact absurd rfl hq
      | cons a q =>
        have ha0 : a ≠ 0 := hq
        have has : a ≠ slash := hfirst
        have hdrop : ((a :: q).dropWhile fun c => decide (c ≠ slash ∧ c ≠ 0)).length ≤ q.length := by
          rw [List.dropWhile_cons_of_pos (by simp [ha0, has])]
          exact (List.dropWhile_sublist _).length_le
        have hrest := (List.dropWhile_sublist (fun c => decide (c = slash))
          (l := (a :: q).dropWhile fun c => decide (c ≠ slash ∧ c ≠ 0))).length_le
        rw [List.length_cons] at hlen
        omega

/-! ## The walk -/

/-- Giving back a reference that is not the last one to a removed inode. -/
theorem iclose_kept (h : Good fs) (hx : (view fs).seat i = some x) (hk : (view fs).Kept i) :
    ∃ fs', fs.iclose i = some fs' ∧ view fs' = (view fs).put i ∧ Good fs' ∧ fs'.disk = fs.disk := by
  obtain ⟨fs', h1, h2, h3⟩ := iclose_view h hx fun h1 hd => by rw [hk x hx h1] at hd; cases hd
  refine ⟨fs', h1, h2, h3, ?_⟩
  obtain ⟨-, -, e1, e2⟩ := view_seat.1 hx
  unfold iclose at h1
  rw [if_neg (by rintro ⟨c1, c2⟩; rw [e1] at c1; rw [e2, hk x hx c1] at c2; cases c2)] at h1
  cases h1
  rfl

/-- A seat stays taken while references are taken. -/
theorem exists_seat_get {s : Ns} (hr : s.Room j n) (hx : s.seat i = some x) : ∃ y, (s.get j n).seat i = some y := by
  by_cases hij : i = j
  · obtain ⟨y, hy, -⟩ := hr.get_some
    exact ⟨y, hij ▸ hy⟩
  · exact ⟨x, by rw [Ns.get_seat_ne hij]; exact hx⟩

/-- The reference that was taken goes back. -/
theorem iclose_get {s : Ns} (hs : s.Ok) (hg : Good fs) (hroom : s.Room p d) (hv : view fs = s.get p d) :
    ∃ fs', fs.iclose p = some fs' ∧ view fs' = s ∧ Good fs' ∧ fs'.disk = fs.disk := by
  obtain ⟨y, hy, -⟩ := hroom.get_some
  obtain ⟨fs', h1, h2, h3, h4⟩ := iclose_kept hg (by rw [hv]; exact hy) (by rw [hv]; exact Ns.kept_get_self hs)
  rw [hv, Ns.put_get hs] at h2
  exact ⟨fs', h1, h2, h3, h4⟩

theorem iclose_back {s : Ns} (hs : s.Ok) (hg : Good fs) (hroom : s.Room p d) (hv : view fs = s.get p d)
    (hcl : fs.iclose p = some fs') : view fs' = s ∧ Good fs' ∧ fs'.disk = fs.disk := by
  obtain ⟨fs₁, h1, h2⟩ := iclose_get hs hg hroom hv
  obtain rfl := Option.some.inj (hcl.symm.trans h1)
  exact h2

/-- It goes back after another was taken. -/
theorem iclose_get_get {s : Ns} (hs : s.Ok) (hg : Good fs) (hroom : s.Room p d) (hroom' : (s.get p d).Room i n)
    (hv : view fs = (s.get p d).get i n) :
    ∃ fs', fs.iclose p = some fs' ∧ view fs' = s.get i n ∧ Good fs' ∧ fs'.disk = fs.disk := by
  obtain ⟨y, hy, -⟩ := hroom.get_some
  obtain ⟨z, hz⟩ := exists_seat_get hroom' hy
  have hkept : ((s.get p d).get i n).Kept p := (Ns.kept_get_self hs).get (hs.get hroom)
  obtain ⟨fs', h1, h2, h3, h4⟩ := iclose_kept hg (by rw [hv]; exact hz) (by rw [hv]; exact hkept)
  rw [hv, (Ns.put_get_get hs hroom hroom').1] at h2
  exact ⟨fs', h1, h2, h3, h4⟩

theorem iclose_back_get {s : Ns} (hs : s.Ok) (hg : Good fs) (hroom : s.Room p d) (hroom' : (s.get p d).Room i n)
    (hv : view fs = (s.get p d).get i n) (hcl : fs.iclose p = some fs') :
    view fs' = s.get i n ∧ Good fs' ∧ fs'.disk = fs.disk := by
  obtain ⟨fs₁, h1, h2⟩ := iclose_get_get hs hg hroom hroom' hv
  obtain rfl := Option.some.inj (hcl.symm.trans h1)
  exact h2

/-- The walk from inode `c` with one reference taken to it: it gives the reference back, or takes one
to the directory where it ends. -/
theorem iopenParentLoop_view (hs : s.Ok) : ∀ {fuel : Nat} {fs : Fs} {i c : Nat} {path : List UInt8}
    {r : Option (Nat × List UInt8)}, Good fs → s.Room i c → view fs = s.get i c →
    iopenParentLoop fuel fs i path = some (r, fs') →
    fs'.disk = fs.disk ∧ ((r = none ∧ view fs' = s ∧ Good fs' ∧ (s.Distinct → ∀ d nm, ¬ s.Parent c (names path) d nm)) ∨
      ∃ p d nm, r = some (p, nm) ∧ s.Room p d ∧ view fs' = s.get p d ∧ Good fs' ∧ s.Parent c (names path) d nm ∧
        s.type d = typeDir ∧ Elem nm)
  | 0, _, _, _, _, _, _, _, _, he => by cases he
  | fuel + 1, fs, i, c, path, r, h, hroom, hv, he => by
    obtain ⟨x, hx, hxc⟩ := hroom.get_some
    rw [← hv] at hx
    unfold iopenParentLoop at he
    split at he
    · obtain ⟨fs₂, hcl, he⟩ := Option.bind_eq_some_iff.1 he
      cases he
      obtain ⟨h2, h3, h4⟩ := iclose_back hs h hroom hv hcl
      refine ⟨h4, Or.inl ⟨rfl, h2, h3, fun _ d nm hp => ?_⟩⟩
      rw [names_skipelem, ‹skipelem path = none›] at hp
      exact hp
    · next nm rest hskip =>
      obtain ⟨helem, -⟩ := skipelem_some hskip
      have hnames := names_rest hskip
      have hend := names_rest_nil hskip
      rw [seat_type h hx] at he
      by_cases hdir : (view fs).type x.no = typeDir
      swap
      · rw [if_pos hdir] at he
        obtain ⟨fs₂, hcl, he⟩ := Option.bind_eq_some_iff.1 he
        cases he
        obtain ⟨h2, h3, h4⟩ := iclose_back hs h hroom hv hcl
        refine ⟨h4, Or.inl ⟨rfl, h2, h3, fun _ d nm' hp => hdir ?_⟩⟩
        rw [hnames] at hp
        rw [hv, hxc]
        show s.type c = typeDir
        exact hp.first fun d j e hd => by
          have hd' : (view fs).ent d j = some e := by rw [hv]; exact hd
          have ht := type_of_ent hd'
          rw [hv] at ht
          exact ht
      rw [if_neg (not_not.2 hdir)] at he
      have hdir' : s.type c = typeDir := by rw [hv, hxc] at hdir; exact hdir
      -- the last name is left to the caller, the others are looked up
      by_cases hlast : rest.headD 0 = 0
      · rw [if_pos hlast] at he
        cases he
        refine ⟨rfl, Or.inr ⟨i, c, nm, rfl, hroom, hv, h, ?_, hdir', helem⟩⟩
        rw [hnames, hend.2 hlast]
        exact ⟨hdir', rfl, rfl⟩
      rw [if_neg hlast] at he
      have hmore : ∀ d nm', s.Parent c (names path) d nm' ↔ ∃ n, s.Has c nm n ∧
          s.Parent n (names rest) d nm' := fun d nm' => by
        rw [hnames, Ns.parent_cons fun hc => hlast (hend.1 hc)]
      simp only [Option.bind_eq_bind, Option.pure_def] at he
      obtain ⟨⟨next, fs₁⟩, hlook, he₁⟩ := Option.bind_eq_some_iff.1 he
      obtain ⟨fs₂, hcl, he₂⟩ := Option.bind_eq_some_iff.1 he₁
      obtain ⟨-, ⟨j, k, n, rfl, hent, hroom₁, hv₁, hg₁, hd₁⟩ | ⟨rfl, -, rfl, hno⟩ | ⟨hbad, -⟩⟩ :=
        ilookup_view h hx helem.len hlook
      · -- found: one reference to the next inode, and the one to this inode goes
        rw [hv] at hroom₁ hv₁ hent
        rw [hxc, helem.cstr] at hent
        have hhas : s.Has c nm n := ⟨k, hent⟩
        obtain ⟨-, hroom₂⟩ := Ns.put_get_get hs hroom hroom₁
        obtain ⟨h2, h3, h4⟩ := iclose_back_get hs hg₁ hroom hroom₁ hv₁ hcl
        obtain ⟨hd₂, hno | ⟨p, d, nm', e4, e5, e6, e7, e8, e9⟩⟩ := iopenParentLoop_view hs h3 hroom₂ h2 he₂
        · obtain ⟨e4, e5, e6, e7⟩ := hno
          refine ⟨hd₂.trans (h4.trans hd₁), Or.inl ⟨e4, e5, e6, fun hdist d nm' hp => ?_⟩⟩
          obtain ⟨m, hm, hp⟩ := (hmore d nm').1 hp
          obtain rfl := hdist c nm n m hhas hm
          exact e7 hdist d nm' hp
        · exact ⟨hd₂.trans (h4.trans hd₁), Or.inr ⟨p, d, nm', e4, e5, e6, e7, (hmore d nm').2 ⟨n, hhas, e8⟩, e9⟩⟩
      · obtain ⟨h2, h3, h4⟩ := iclose_back hs h hroom hv hcl
        cases he₂
        refine ⟨h4, Or.inl ⟨rfl, h2, h3, fun _ d nm' hp => ?_⟩⟩
        obtain ⟨m, ⟨k, hk⟩, -⟩ := (hmore d nm').1 hp
        refine hno k m ?_
        rw [hv, hxc, helem.cstr]
        exact hk
      · exact absurd rfl hbad

/-- Where the walk of a path starts: at the root, or in the working directory `c`. -/
def start (path : List UInt8) (c : Nat) : Nat := if path.headD 0 = slash then 1 else c

theorem iopenParent_view {r : Option (Nat × List UInt8)} (h : Good fs) (hx : (view fs).seat i = some x)
    (he : fs.iopenParent i path = some (r, fs')) :
    fs'.disk = fs.disk ∧ ((r = none ∧ view fs' = view fs ∧ Good fs' ∧
        ((view fs).Distinct → ∀ d nm, ¬ (view fs).Parent (start path x.no) (names path) d nm)) ∨
      ∃ p d nm, r = some (p, nm) ∧ (view fs).Room p d ∧ view fs' = (view fs).get p d ∧ Good fs' ∧
        (view fs).Parent (start path x.no) (names path) d nm ∧ (view fs).type d = typeDir ∧ Elem nm) := by
  unfold iopenParent at he
  unfold start
  by_cases hs : path.headD 0 = slash
  · rw [if_pos hs] at he ⊢
    obtain ⟨⟨ip, fs₁⟩, hget, he⟩ := Option.bind_eq_some_iff.1 he
    rw [h.inv.sb] at hget
    obtain ⟨hroom, hv, hg, hd⟩ := iget_view h (by decide) (by decide) hget
    obtain ⟨hd₁, hw⟩ := iopenParentLoop_view h.ok hg hroom hv he
    exact ⟨hd₁.trans hd, hw⟩
  · rw [if_neg hs] at he ⊢
    simp only [Option.bind_eq_bind, Option.pure_def, Option.bind_some] at he
    obtain ⟨hv, hg⟩ := idup_view h hx
    obtain ⟨hd, hw⟩ := iopenParentLoop_view h.ok hg (Or.inl ⟨x, hx, rfl⟩) hv he
    exact ⟨hd, hw⟩

/-! ## `iopen` -/

theorem create_get {s : Ns} : (s.get p c).create d j n t nm = (s.create d j n t nm).get p c := by
  unfold Ns.create
  split <;> rfl

theorem room_create {s : Ns} : (s.create d j n t nm).Room i c ↔ s.Room i c := by
  unfold Ns.Room Ns.Held
  rw [Ns.create_seat]

theorem ok_create {s : Ns} (h : s.Ok) : (s.create d j n t nm).Ok :=
  ⟨by rw [Ns.create_seat]; exact h.pos, by rw [Ns.create_seat]; exact h.uniq⟩

theorem live_get {s : Ns} (h : s.Live) (hr : s.Room i n) (ht : s.type n ≠ typeNone) : (s.get i n).Live := fun m hm => by
  rcases (Ns.held_get hr).1 hm with hm | rfl
  · exact h m hm
  · exact ht

/-- The directory `p` goes back after something came into being in it. -/
theorem iclose_created {s : Ns} (hs : s.Ok) (hg : Good fs) (hroom : s.Room p d)
    (hcr : Created (s.get p d) d j n t nm i (view fs)) :
    ∃ fs', fs.iclose p = some fs' ∧ Created s d j n t nm i (view fs') ∧ Good fs' ∧ fs'.disk = fs.disk := by
  have hv := hcr.eq
  rw [create_get] at hv
  have hok : (s.create d j n t nm).Ok := ok_create hs
  have hroomp : (s.create d j n t nm).Room p d := room_create.2 hroom
  have hroomi : ((s.create d j n t nm).get p d).Room i n := by
    rw [← create_get]
    exact room_create.2 hcr.room
  obtain ⟨-, hroom₂⟩ := Ns.put_get_get hok hroomp hroomi
  obtain ⟨fs', h1, h2, h3, h4⟩ := iclose_get_get hok hg hroomp hroomi hv
  exact ⟨fs', h1, ⟨hcr.dir, hcr.lt, hcr.new, hcr.empty, hcr.unique, room_create.1 hroom₂, h2⟩, h3, h4⟩

/-- A path that begins at `c` leads to nothing: it has no names, or its parent is not there, or its
parent has no entry of the last name. -/
inductive Missing (s : Ns) (c : Nat) (path : List UInt8) : Prop
  | empty : names path = [] → path.headD 0 ≠ slash → Missing s c path
  | parent : names path ≠ [] → (∀ d nm, ¬ s.Parent c (names path) d nm) → Missing s c path
  | last (d : Nat) (nm : List UInt8) : s.Parent c (names path) d nm → (∀ n, ¬ s.Has d nm n) → Missing s c path

/-- A path that begins at `c` leads to inode `n`. -/
inductive Leads (s : Ns) (c : Nat) (path : List UInt8) (n : Nat) : Prop
  | root : names path = [] → path.headD 0 = slash → n = 1 → Leads s c path n
  | last (d : Nat) (nm : List UInt8) : s.Parent c (names path) d nm → s.Has d nm n → Leads s c path n

/-- `iopen` finds nothing, or takes a reference to the inode that the path leads to, or makes one in the
directory that the path leads to. -/
theorem iopen_resolve {cwd : Nat} {r : Option Nat} (h : Good fs) (hx : (view fs).seat cwd = some x)
    (he : fs.iopen cwd path t = some (r, fs')) :
    (r = none ∧ view fs' = view fs ∧ Good fs' ∧ fs'.disk = fs.disk ∧
        ((view fs).Distinct → Missing (view fs) (start path x.no) path) ∧
        (t ≠ typeNone → (view fs).Distinct → ∀ d nm, ¬ (view fs).Parent (start path x.no) (names path) d nm)) ∨
      (∃ i n, r = some i ∧ (view fs).Room i n ∧ view fs' = (view fs).get i n ∧ Good fs' ∧
        Leads (view fs) (start path x.no) path n ∧ fs'.disk = fs.disk) ∨
      (t ≠ typeNone ∧ ((view fs).Live → t < 2 ^ 32 → ∃ i d j n nm, r = some i ∧
        Created (view fs) d j n t nm i (view fs') ∧ (view fs).Parent (start path x.no) (names path) d nm ∧ Elem nm ∧
        Good fs' ∧ (∀ k < j, (view fs).ent d k ≠ none) ∧ Entered fs.disk d j n t nm fs'.disk)) := by
  unfold iopen at he
  split at he
  · next hskip =>
    have hnil : names path = [] := by rw [names_skipelem, hskip]
    by_cases hs : path.headD 0 = slash
    · rw [if_pos hs] at he
      obtain ⟨⟨i, fs₁⟩, hget, he⟩ := Option.bind_eq_some_iff.1 he
      cases he
      rw [h.inv.sb] at hget
      obtain ⟨hroom, hv, hg, hd⟩ := iget_view h (by decide) (by decide) hget
      exact Or.inr (Or.inl ⟨i, 1, rfl, hroom, hv, hg, .root hnil hs rfl, hd⟩)
    · rw [if_neg hs] at he
      cases he
      refine Or.inl ⟨rfl, rfl, h, rfl, fun _ => .empty hnil hs, fun _ _ d nm hp => ?_⟩
      rw [hnil] at hp
      exact hp
  · next nm' rest hskip =>
    obtain ⟨⟨w, fs₁⟩, hpar, he₁⟩ := Option.bind_eq_some_iff.1 he
    obtain ⟨hdpar, ⟨rfl, hv, hg, hno⟩ | ⟨p, d, nm, rfl, hroom, hv, hg, hwalk, hdir, helem⟩⟩ :=
      iopenParent_view h hx hpar
    · cases he₁
      refine Or.inl ⟨rfl, hv, hg, hdpar, fun hdist => .parent ?_ (hno hdist), fun _ => hno⟩
      rw [names_rest hskip]
      exact List.cons_ne_nil _ _
    · obtain ⟨⟨inode, fs₂⟩, hlook, he₂⟩ := Option.bind_eq_some_iff.1 he₁
      obtain ⟨fs₃, hcl, he₃⟩ := Option.bind_eq_some_iff.1 he₂
      cases he₃
      obtain ⟨y, hy, hyd⟩ := hroom.get_some
      have hy₁ : (view fs₁).seat p = some y := by rw [hv]; exact hy
      obtain ⟨-, ⟨i, j, n, rfl, hent, hroom₁, hv₁, hg₁, hd₁⟩ | ⟨rfl, ht, rfl, hno⟩ | ⟨ht, hmade⟩⟩ :=
        ilookup_view hg hy₁ helem.len hlook
      · rw [hv] at hroom₁ hv₁ hent
        rw [hyd, helem.cstr] at hent
        obtain ⟨-, hroom₂⟩ := Ns.put_get_get h.ok hroom hroom₁
        obtain ⟨h2, h3, h4⟩ := iclose_back_get h.ok hg₁ hroom hroom₁ hv₁ hcl
        exact Or.inr (Or.inl ⟨i, n, rfl, hroom₂, h2, h3, .last d nm hwalk ⟨j, hent⟩, h4.trans (hd₁.trans hdpar)⟩)
      · obtain ⟨h2, h3, h4⟩ := iclose_back h.ok hg hroom hv hcl
        refine Or.inl ⟨rfl, h2, h3, h4.trans hdpar, fun _ => .last d nm hwalk fun n hn => ?_, fun hc => absurd ht hc⟩
        obtain ⟨k, hk⟩ := hn
        refine hno k n ?_
        rw [hv, hyd, helem.cstr]
        exact hk
      · refine Or.inr (Or.inr ⟨ht, fun hlive ht32 => ?_⟩)
        -- the lookup has made the file, and the directory goes back
        have hlive₁ : (view fs₁).Live := by
          rw [hv]
          exact live_get hlive hroom (by rw [hdir]; decide)
        obtain ⟨i, j, n, rfl, hcr, hg₁, hfirst, hentered⟩ := hmade hlive₁ ht32
        rw [hv, hyd, helem.cstr] at hcr
        rw [hv, hyd] at hfirst
        rw [hyd, helem.cstr, hdpar] at hentered
        obtain ⟨fs₃', h1, h2, h3, h4⟩ := iclose_created h.ok hg₁ hroom hcr
        obtain rfl := Option.some.inj (h1.symm.trans hcl)
        exact ⟨i, d, j, n, nm, rfl, h2, hwalk, helem, h3, hfirst, h4.symm ▸ hentered⟩

theorem Leads.walk {s : Ns} (h : Leads s (start path c) path n) : s.Walk (start path c) n := by
  rcases h with ⟨-, hs, rfl⟩ | ⟨d, nm, hp, k, hk⟩
  · rw [start, if_pos hs]
    exact .refl
  · exact hp.walk.tail ⟨k, nm, hk⟩

theorem iopen_view {cwd : Nat} {r : Option Nat} (h : Good fs) (hx : (view fs).seat cwd = some x)
    (he : fs.iopen cwd path t = some (r, fs')) :
    (r = none ∧ view fs' = view fs ∧ Good fs' ∧ fs'.disk = fs.disk) ∨
      (∃ i n, r = some i ∧ (view fs).Room i n ∧ view fs' = (view fs).get i n ∧ Good fs' ∧
        (view fs).Walk (start path x.no) n ∧ fs'.disk = fs.disk) ∨
      (t ≠ typeNone ∧ ((view fs).Live → t < 2 ^ 32 → ∃ i d j n nm, r = some i ∧
        Created (view fs) d j n t nm i (view fs') ∧ (view fs).Walk (start path x.no) d ∧ Elem nm ∧ Good fs' ∧
        Entered fs.disk d j n t nm fs'.disk)) := by
  rcases iopen_resolve h hx he with ⟨h1, h2, h3, h4, -⟩ | ⟨i, n, h1, h2, h3, h4, h5, h6⟩ | ⟨ht, hmade⟩
  · exact Or.inl ⟨h1, h2, h3, h4⟩
  · exact Or.inr (Or.inl ⟨i, n, h1, h2, h3, h4, h5.walk, h6⟩)
  · refine Or.inr (Or.inr ⟨ht, fun hlive ht32 => ?_⟩)
    obtain ⟨i, d, j, n, nm, h1, h2, h3, h4, h5, -, h6⟩ := hmade hlive ht32
    exact ⟨i, d, j, n, nm, h1, h2, h3.walk, h4, h5, h6⟩

/-! ## `iremove` -/

/-- Entry `j` of directory `d`, the name `nm` of inode `n`, was removed. -/
structure Removed (s : Ns) (d j n : Nat) (nm : List UInt8) (i : Nat) (s' : Ns) : Prop where
  dir : s.type d = typeDir
  ent : s.ent d j = some (n, nm)
  notDot : nm ≠ dot
  notDotdot : nm ≠ dotdot
  empty : s.type n = typeDir → ∀ k, 2 ≤ k → s.ent n k = none
  room : s.Room i n
  eq : s' = (((s.get i n).mark i).setEnt d j none).put i

/-- A reference to an inode in use is not the only one. -/
theorem get_ref_ne {s : Ns} {u : Seat} (h : s.Ok) (hr : s.Room i n) (hh : s.Held n) (hu : (s.get i n).seat i = some u) :
    u.ref ≠ 1 := by
  rcases hr with ⟨y, hy, -⟩ | ⟨-, hno⟩
  · rw [Ns.get_seat_self, hy] at hu
    cases hu
    have := h.pos i y hy
    show y.ref + 1 ≠ 1
    omega
  · exact absurd hh hno

/-- The inodes that paths from `c` name otherwise than by `.` and `..` are allocated. -/
def Named (s : Ns) (c : Nat) : Prop :=
  ∀ d j n nm, s.Walk c d → s.ent d j = some (n, nm) → nm ≠ dot → nm ≠ dotdot → s.type n ≠ typeNone

theorem idirempty_view (h : Good fs) (hx : (view fs).seat i = some x) {b : Bool}
    (hd : (view fs).type x.no = typeDir) (he : fs.idirempty i = some (b, fs')) :
    fs' = fs ∧ (b = true ↔ ∀ k, 2 ≤ k → (view fs).ent x.no k = none) := by
  have hlt := (h.seat_lt hx).2
  have hdir' : (node fs.disk x.no).type = typeDir := by rw [← view_type hlt]; exact hd
  obtain ⟨b', h1, h2⟩ := idirempty_eq (h.layer hx (hd.symm ▸ by decide)) hdir' (h.size x.no hlt hdir')
  rw [h1] at he
  cases he
  refine ⟨rfl, h2.trans ?_⟩
  simp only [view_ent hd]

theorem mark_view (h : Good fs) (hx : (view fs).seat i = some x) :
    view (fs.setInode i { fs.inodes i with del := true }) = (view fs).mark i ∧
      Good (fs.setInode i { fs.inodes i with del := true }) := by
  obtain ⟨hr, hno, hre, -⟩ := view_seat.1 hx
  constructor
  · rw [view_setInode, Ns.mark_eq hx, seatOf, if_pos hr]
    simp only [hno, hre]
  · refine h.of_table rfl rfl (h.inv.table.setInode _ (h.inv.table.ref i) fun _ =>
      ⟨h.inv.table.small i hr, h.inv.table.no i hr, h.inv.table.same i hr, fun j hj hjr hjn => hj ?_⟩)
    exact h.inv.table.uniq j i hjr hr hjn

/-- A path that begins at `c` names nothing that can be removed: its parent is not there, its last name
is `.` or `..` or has no entry, or is that of a directory with a third entry. -/
inductive Refused (s : Ns) (c : Nat) (path : List UInt8) : Prop
  | parent : (∀ d nm, ¬ s.Parent c (names path) d nm) → Refused s c path
  | dots (d : Nat) (nm : List UInt8) : s.Parent c (names path) d nm → nm = dot ∨ nm = dotdot → Refused s c path
  | missing (d : Nat) (nm : List UInt8) : s.Parent c (names path) d nm → (∀ n, ¬ s.Has d nm n) → Refused s c path
  | full (d n k : Nat) (nm : List UInt8) : s.Parent c (names path) d nm → s.Has d nm n → s.type n = typeDir → 2 ≤ k →
      s.ent n k ≠ none → Refused s c path

/-- What became of a disk when entry `j` of directory `d` was zeroed: no other inode has changed, except that
inode `n` may be freed when nothing holds it. -/
structure Cleared (s : Ns) (m : Store) (d j n : Nat) (m' : Store) : Prop where
  other : ∀ k < 1920, k ≠ d → k ≠ n → Keeps k m m'
  held : s.Held n → Keeps n m m'
  size : (node m' d).size = (node m d).size
  bytes : ∀ o, byteAt m' d o = (patch (32 * j) (List.replicate direntSize 0) o).getD (byteAt m d o)

/-- `iremove` has the directory `d` in slot `p`, and what its entry `j` names in slot `i`. -/
structure Found (fs fs₂ : Fs) (p i d j n : Nat) (nm : List UInt8) : Prop where
  before : Good fs
  after : Good fs₂
  view : view fs₂ = ((view fs).get p d).get i n
  disk : fs₂.disk = fs.disk
  parent : (Fs.view fs).Room p d
  child : ((Fs.view fs).get p d).Room i n
  dir : (Fs.view fs).type d = typeDir
  ent : (Fs.view fs).ent d j = some (n, nm)
  name : ¬ (nm = dot ∨ nm = dotdot)

namespace Found

variable {fs₂ fs₃ fs₄ : Fs}

theorem ne (h : Found fs fs₂ p i d j n nm) : n ≠ d :=
  (h.before.ent d j n nm h.ent).2 (fun hc => h.name (Or.inl hc)) fun hc => h.name (Or.inr hc)

theorem slots (h : Found fs fs₂ p i d j n nm) : p ≠ i := by
  obtain ⟨y, hy, hyd⟩ := h.parent.get_some
  rintro rfl
  rcases h.child with ⟨u, hu, hun⟩ | ⟨hu, -⟩
  · rw [hy] at hu
    cases hu
    exact h.ne (hun.symm.trans hyd)
  · rw [hy] at hu
    cases hu

theorem parent_seat (h : Found fs fs₂ p i d j n nm) : ∃ y, (Fs.view fs₂).seat p = some y ∧ y.no = d := by
  obtain ⟨y, hy, hyd⟩ := h.parent.get_some
  refine ⟨y, ?_, hyd⟩
  rw [h.view, Ns.get_seat_ne h.slots]
  exact hy

theorem child_seat (h : Found fs fs₂ p i d j n nm) : ∃ z, (Fs.view fs₂).seat i = some z ∧ z.no = n := by
  obtain ⟨z, hz, hzn⟩ := h.child.get_some
  refine ⟨z, ?_, hzn⟩
  rw [h.view]
  exact hz

/-- The two slots are given back. -/
theorem closed (h : Found fs fs₂ p i d j n nm) (h1 : fs₂.iclose i = some fs₃) (h2 : fs₃.iclose p = some fs₄) :
    Fs.view fs₄ = Fs.view fs ∧ Good fs₄ ∧ fs₄.disk = fs.disk := by
  obtain ⟨hv, hg, hd⟩ := iclose_back (h.before.ok.get h.parent) h.after h.child h.view h1
  obtain ⟨h4, h5, h6⟩ := iclose_back h.before.ok hg h.parent hv h2
  exact ⟨h4, h5, h6.trans (hd.trans h.disk)⟩

/-- The test whether a directory is empty changes nothing. -/
theorem emptied {α : Type} {g : Bool × Fs → Option α} {q : α} (h : Found fs fs₂ p i d j n nm)
    (he : (if fs₂.itype i = typeDir then (fs₂.idirempty i).bind g else g (true, fs₂)) = some q) :
    ∃ e : Bool, (e = true ↔ ((Fs.view fs).type n = typeDir → ∀ k, 2 ≤ k → (Fs.view fs).ent n k = none)) ∧
    g (e, fs₂) = some q := by
  obtain ⟨z, hz, hzn⟩ := h.child_seat
  have htype : (Fs.view fs₂).type z.no = (Fs.view fs).type n := by rw [h.view, hzn]; rfl
  have hent : ∀ k, (Fs.view fs₂).ent z.no k = (Fs.view fs).ent n k := fun k => by rw [h.view, hzn]; rfl
  have hit : fs₂.itype i = (Fs.view fs).type n := (seat_type h.after hz).trans htype
  rw [hit] at he
  by_cases htd : (Fs.view fs).type n = typeDir
  · rw [if_pos htd] at he
    obtain ⟨⟨e, fs₃⟩, hie, hg⟩ := Option.bind_eq_some_iff.1 he
    obtain ⟨rfl, hiff⟩ := idirempty_view h.after hz (htype.trans htd) hie
    simp only [hent] at hiff
    exact ⟨e, hiff.trans ⟨fun hall _ => hall, fun hall => hall htd⟩, hg⟩
  · rw [if_neg htd] at he
    exact ⟨true, ⟨fun _ hc => absurd hc htd, fun _ => rfl⟩, he⟩

/-- The entry is zeroed with the inode marked, and the two slots are given back. -/
theorem removed {r : Option Nat} {fs₅ : Fs} (h : Found fs fs₂ p i d j n nm) (hlive : (Fs.view fs).type n ≠ typeNone)
    (hempty : (Fs.view fs).type n = typeDir → ∀ k, 2 ≤ k → (Fs.view fs).ent n k = none)
    (hwr : (fs₂.setInode i { fs₂.inodes i with del := true }).iwrite p (32 * j) (List.replicate direntSize 0) =
    some (r, fs₃)) (hcl₁ : fs₃.iclose i = some fs₄) (hcl₂ : fs₄.iclose p = some fs₅) :
    Removed (Fs.view fs) d j n nm i (Fs.view fs₅) ∧ Good fs₅ ∧ Cleared (Fs.view fs) fs.disk d j n fs₅.disk := by
  obtain ⟨hput, hroom⟩ := Ns.put_get_get h.before.ok h.parent h.child
  obtain ⟨y, hy, hyd⟩ := h.parent_seat
  obtain ⟨z, hz, -⟩ := h.child_seat
  obtain ⟨hvm, hgm⟩ := mark_view h.after hz
  have hym : (Fs.view (fs₂.setInode i { fs₂.inodes i with del := true })).seat p = some y := by
    rw [hvm, Ns.mark_seat_ne h.slots]
    exact hy
  have htd : (Fs.view (fs₂.setInode i { fs₂.inodes i with del := true })).type y.no = typeDir := by
    rw [hvm, h.view, hyd]
    exact h.dir
  have hsize : 32 * j ≤ (node fs₂.disk y.no).size := by
    have hent₂ : (Fs.view fs₂).ent y.no j = some (n, nm) := by rw [h.view, hyd]; exact h.ent
    rw [view_ent (type_of_ent hent₂)] at hent₂
    have := (entry_some.1 hent₂).1
    omega
  have hbytes₃ := iwrite_bytes hgm hym (htd.symm ▸ by decide) hsize hwr
  obtain ⟨hv₃, hg₃, hsize₃, hkeep₃⟩ := iwrite_ent (e := Dirent.zero) hgm hym htd hsize List.length_replicate
    (show 0 < 1920 by decide) (fun _ _ => show 0 ≠ y.no from Nat.ne_of_lt (h.after.seat_lt hy).1) hwr
  rw [if_pos (show Dirent.zero.inode = 0 from rfl), hvm, h.view, hyd, Ns.get_comm h.slots,
    Ns.mark_get (Ne.symm h.slots)] at hv₃
  have hok₁ : ((Fs.view fs).get i n).Ok := h.before.ok.get hroom
  obtain ⟨u, hu, hun⟩ := hroom.get_some
  -- `T` is what is there when the entry is cleared, but for the reference to the directory
  have hokT : ((((Fs.view fs).get i n).mark i).setEnt d j none).Ok := by
    have hmk : (((Fs.view fs).get i n).mark i).Ok := by
      rw [Ns.mark_eq hu]
      exact hok₁.setSeat hu fun v hv => by
        cases hv
        exact ⟨hok₁.pos i u hu, rfl⟩
    exact ⟨hmk.pos, hmk.uniq⟩
  generalize hT : (((Fs.view fs).get i n).mark i).setEnt d j none = T at hokT
  replace hv₃ : Fs.view fs₃ = T.get p d := by rw [hv₃, ← hT]; rfl
  have huT : T.seat i = some { u with del := true } := by
    rw [← hT, Ns.setEnt_seat, Ns.mark_eq hu, Ns.setSeat_self]
  have hu₃ : (Fs.view fs₃).seat i = some { u with del := true } := by
    rw [hv₃, Ns.get_seat_ne (Ne.symm h.slots)]
    exact huT
  have hgone : (Fs.view fs₃).type u.no ≠ typeNone := by
    have htn : (Fs.view fs₃).type n = (Fs.view fs).type n := by rw [hv₃, ← hT]; rfl
    rw [hun, htn]
    exact hlive
  obtain ⟨fs₆, h1, h2, h3⟩ := iclose_view hg₃ hu₃ fun _ _ => hgone
  obtain rfl := Option.some.inj (hcl₁.symm.trans h1)
  rw [hv₃, Ns.put_get_ne (Ne.symm h.slots)] at h2
  have hputOk : (T.put i).Ok := hokT.put huT
  obtain ⟨v, hv⟩ : ∃ v, (Fs.view fs₄).seat p = some v := by
    rw [h2, Ns.get_seat_self]
    exact ⟨_, rfl⟩
  obtain ⟨fs₇, h4, h5, h6, h7⟩ := iclose_kept h3 hv (by rw [h2]; exact Ns.kept_get_self hputOk)
  obtain rfl := Option.some.inj (hcl₂.symm.trans h4)
  rw [h2, Ns.put_get hputOk] at h5
  refine ⟨⟨h.dir, h.ent, fun hc => h.name (Or.inl hc), fun hc => h.name (Or.inr hc), hempty, hroom, by rw [h5, hT]⟩, h6,
    ?_⟩
  have hmark : (fs₂.setInode i { fs₂.inodes i with del := true }).disk = fs.disk := h.disk
  have hdn : d ≠ n := fun hc => h.ne hc.symm
  have hdlt : d < 1920 := lt_of_type (by rw [h.dir]; decide)
  have hlast : ∀ {k}, k < 1920 → k ≠ n → Keeps k fs₃.disk fs₅.disk := fun {k} hk hkn => by
    rw [h7]
    exact iclose_keeps hg₃ hu₃ hgone hcl₁ hk fun hc => absurd (hc.trans hun) hkn
  rw [hmark, hyd] at hsize₃ hbytes₃ hkeep₃
  refine ⟨fun k hk hkd hkn => (hkeep₃ k hk hkd).trans (hlast hk hkn), fun hheld => ?_, ?_, fun o => ?_⟩
  · have hnlt : n < 1920 := (h.before.ent d j n nm h.ent).1
    rw [h7]
    refine (hkeep₃ n hnlt h.ne).trans (iclose_keeps hg₃ hu₃ hgone hcl₁ hnlt fun _ => Or.inl ?_)
    show u.ref ≠ 1
    exact get_ref_ne h.before.ok hroom hheld hu
  · have hmax : 32 * j + 32 ≤ (node fs.disk d).size := by
      have hent := h.ent
      rw [view_ent h.dir] at hent
      exact (entry_some.1 hent).1
    rw [(hlast hdlt hdn).node, hsize₃]
    omega
  · rw [(hlast hdlt hdn).bytes, hbytes₃]

end Found

theorem iopenParentLoop_none {ip fuel : Nat} {w : Nat × List UInt8} (hskip : skipelem path = none) :
    iopenParentLoop fuel fs ip path ≠ some (some w, fs') := by
  intro he
  cases fuel with
  | zero => cases he
  | succ fuel =>
    unfold iopenParentLoop at he
    simp only [hskip] at he
    obtain ⟨fs₁, -, he⟩ := Option.bind_eq_some_iff.1 he
    cases he

/-- `iopen` of the same path looks the last name up in the same directory. -/
theorem Found.iopen {fs₁ fs₂ fs₀ : Fs} {cwd off r : Nat} (h : Found fs fs₂ p i d j n nm)
    (hpar : fs.iopenParent cwd path = some (some (p, nm), fs₁))
    (hlook : fs₁.ilookup p nm typeNone = some (some (i, off), fs₂))
    (ho : fs.iopen cwd path typeNone = some (some r, fs₀)) : (fs₀.inodes r).no = n := by
  unfold Fs.iopen at ho
  split at ho
  · next hskip =>
    obtain ⟨ip, fs₈, hloop⟩ : ∃ ip fs₈, iopenParentLoop (path.length + 1) fs₈ ip path = some (some (p, nm), fs₁) := by
      unfold iopenParent at hpar
      split at hpar
      · obtain ⟨⟨ip, fs₈⟩, -, hpar⟩ := Option.bind_eq_some_iff.1 hpar
        exact ⟨ip, fs₈, hpar⟩
      · exact ⟨_, _, hpar⟩
    exact absurd hloop (iopenParentLoop_none hskip)
  · rw [hpar] at ho
    simp only [Option.bind_eq_bind, Option.bind_some, hlook] at ho
    obtain ⟨fs₈, hcl, ho⟩ := Option.bind_eq_some_iff.1 ho
    cases ho
    obtain ⟨hv, -, -⟩ := iclose_back_get h.before.ok h.after h.parent h.child h.view hcl
    obtain ⟨z, hz, hzn⟩ := (Ns.put_get_get h.before.ok h.parent h.child).2.get_some
    rw [← hv] at hz
    exact (seat_no hz).trans hzn

/-- `iremove` leaves everything as it is, or removes the entry that the path leads to. -/
theorem iremove_resolve {cwd : Nat} {b : Bool} (h : Good fs) (hx : (view fs).seat cwd = some x)
    (hn : Named (view fs) (start path x.no)) (he : fs.iremove cwd path = some (b, fs')) :
    (b = false ∧ view fs' = view fs ∧ Good fs' ∧ fs'.disk = fs.disk ∧
        ((view fs).Distinct → Refused (view fs) (start path x.no) path)) ∨
      (b = true ∧ ∃ d j n nm i, Removed (view fs) d j n nm i (view fs') ∧
        (view fs).Parent (start path x.no) (names path) d nm ∧
        Good fs' ∧ Cleared (view fs) fs.disk d j n fs'.disk ∧
        ∀ r fs₀, fs.iopen cwd path typeNone = some (some r, fs₀) → (fs₀.inodes r).no = n) := by
  unfold iremove at he
  obtain ⟨⟨w, fs₁⟩, hpar, he₁⟩ := Option.bind_eq_some_iff.1 he
  obtain ⟨hdpar, ⟨rfl, hv, hg, hno⟩ | ⟨p, d, nm, rfl, hroom, hv, hg, hparent, hdir, helem⟩⟩ :=
    iopenParent_view h hx hpar
  · cases he₁
    exact Or.inl ⟨rfl, hv, hg, hdpar, fun hdist => .parent (hno hdist)⟩
  have hcstr := helem.cstr
  obtain ⟨y, hy, hyd⟩ := hroom.get_some
  simp only [hcstr] at he₁
  by_cases hdots : nm = dot ∨ nm = dotdot
  · rw [if_pos hdots] at he₁
    obtain ⟨fs₂, hcl, he₂⟩ := Option.bind_eq_some_iff.1 he₁
    cases he₂
    obtain ⟨h1, h2, h3⟩ := iclose_back h.ok hg hroom hv hcl
    exact Or.inl ⟨rfl, h1, h2, h3.trans hdpar, fun _ => .dots d nm hparent hdots⟩
  rw [if_neg hdots] at he₁
  obtain ⟨⟨r, fs₂⟩, hlook, he₂⟩ := Option.bind_eq_some_iff.1 he₁
  obtain ⟨-, ⟨i, j, n, rfl, hent, hroom₁, hv₁, hg₁, hd₁⟩ | ⟨rfl, -, rfl, hno⟩ | ⟨hbad, -⟩⟩ :=
    ilookup_view hg (by rw [hv]; exact hy) helem.len hlook
  · rw [hv] at hroom₁ hv₁ hent
    rw [hyd, hcstr] at hent
    replace hent : (view fs).ent d j = some (n, nm) := hent
    have hf : Found fs fs₂ p i d j n nm := ⟨h, hg₁, hv₁, hd₁.trans hdpar, hroom, hroom₁, hdir, hent, hdots⟩
    obtain ⟨e, hempty, he₃⟩ := hf.emptied he₂
    simp only at he₃
    -- a directory with entries is refused, and both references go back
    by_cases hb : e = true
    · rw [if_neg (not_not.2 hb)] at he₃
      obtain ⟨⟨r₁, fs₄⟩, hwr, he₄⟩ := Option.bind_eq_some_iff.1 he₃
      obtain ⟨fs₅, hcl₁, he₅⟩ := Option.bind_eq_some_iff.1 he₄
      obtain ⟨fs₆, hcl₂, he₆⟩ := Option.bind_eq_some_iff.1 he₅
      cases he₆
      have hlive := hn d j n nm hparent.walk hent (fun hc => hdots (Or.inl hc)) fun hc => hdots (Or.inr hc)
      obtain ⟨h1, h2, h3⟩ := hf.removed hlive (hempty.1 hb) hwr hcl₁ hcl₂
      exact Or.inr ⟨rfl, d, j, n, nm, i, h1, hparent, h2, h3, fun r fs₀ ho => hf.iopen hpar hlook ho⟩
    · rw [if_pos hb] at he₃
      obtain ⟨fs₄, hcl₁, he₄⟩ := Option.bind_eq_some_iff.1 he₃
      obtain ⟨fs₅, hcl₂, he₅⟩ := Option.bind_eq_some_iff.1 he₄
      cases he₅
      obtain ⟨h1, h2, h3⟩ := hf.closed hcl₁ hcl₂
      have hfull : ¬ ((view fs).type n = typeDir → ∀ k, 2 ≤ k → (view fs).ent n k = none) := fun hc => hb (hempty.2 hc)
      simp only [not_forall] at hfull
      obtain ⟨htn, k, hk, hent'⟩ := hfull
      exact Or.inl ⟨rfl, h1, h2, h3, fun _ => .full d n k nm hparent ⟨j, hent⟩ htn hk hent'⟩
  · obtain ⟨fs₃, hcl, he₃⟩ := Option.bind_eq_some_iff.1 he₂
    cases he₃
    obtain ⟨h1, h2, h3⟩ := iclose_back h.ok hg hroom hv hcl
    refine Or.inl ⟨rfl, h1, h2, h3.trans hdpar, fun _ => .missing d nm hparent fun n hn => ?_⟩
    obtain ⟨k, hk⟩ := hn
    refine hno k n ?_
    rw [hv, hyd, hcstr]
    exact hk
  · exact absurd rfl hbad

theorem iremove_view {cwd : Nat} {b : Bool} (h : Good fs) (hx : (view fs).seat cwd = some x)
    (hn : Named (view fs) (start path x.no)) (he : fs.iremove cwd path = some (b, fs')) :
    (b = false ∧ view fs' = view fs ∧ Good fs' ∧ fs'.disk = fs.disk) ∨
      (b = true ∧ ∃ d j n nm i, Removed (view fs) d j n nm i (view fs') ∧ (view fs).Walk (start path x.no) d ∧
        Good fs' ∧ (∀ k < 1920, (view fs).type k ≠ typeDir → k ≠ n → Keeps k fs.disk fs'.disk) ∧
        ∀ r fs₀, fs.iopen cwd path typeNone = some (some r, fs₀) → (fs₀.inodes r).no = n) := by
  rcases iremove_resolve h hx hn he with ⟨h1, h2, h3, h4, -⟩ | ⟨h1, d, j, n, nm, i, h2, h3, h4⟩
  · exact Or.inl ⟨h1, h2, h3, h4⟩
  · obtain ⟨h5, h6, h7⟩ := h4
    exact Or.inr ⟨h1, d, j, n, nm, i, h2, h3.walk, h5, fun k hk hk1 hk2 =>
      h6.other k hk (fun hc => hk1 (hc ▸ h2.dir)) hk2, h7⟩

/-! ## `iadddev` -/

/-- Setting the device number of an inode. -/
theorem setDevice_view {id : Nat} (h : Good fs) (hx : (view fs).seat i = some x) (hid : id < 2 ^ 32) :
    ∃ fs', (fs.setDinode i { (fs.inodes i).dinode with device := id }).iupdate i = some fs' ∧ view fs' = view fs ∧
      Good fs' := by
  obtain ⟨hr, hno, -⟩ := view_seat.1 hx
  have hlt := (h.seat_lt hx).2
  rw [seat_node h hx]
  have hfit : ({ node fs.disk x.no with device := id } : Dinode).Fits := ⟨node_fits.type, hid, node_fits.size,
    node_fits.addrs, node_fits.outside⟩
  obtain ⟨m', h1, hset⟩ := iupdate_eq h.inv.sb hno hlt hfit
  refine ⟨_, h1, ?_⟩
  generalize hfs : (⟨fs.sb, m', Function.update fs.inodes i
    { fs.inodes i with dinode := { node fs.disk x.no with device := id } }⟩ : Fs) = fs'
  have hd : fs'.disk = m' := by rw [← hfs]
  rw [← hd] at hset
  have hin : fs'.inodes = Function.update fs.inodes i { fs.inodes i with dinode := node fs'.disk x.no } := by
    rw [hset.self, ← hfs]
  have hsb : fs'.sb = fs.sb := by rw [← hfs]
  clear hfs h1 hd
  have hother : ∀ k < 1920, k ≠ x.no → node fs'.disk k = node fs.disk k := fun k hk hne => hset.other k hne hk
  have hb : ∀ k < 1920, ∀ o, byteAt fs'.disk k o = byteAt fs.disk k o := fun k hk o =>
    hset.byteAt rfl h.inv.owned hk o
  have htype : (view fs').type x.no = (view fs).type x.no := by rw [view_type hlt, view_type hlt, hset.self]
  -- the bytes are the same, so are the entries
  have hent : ∀ k, (view fs').ent x.no k = (view fs).ent x.no k := fun k => by
    by_cases hdir : (view fs).type x.no = typeDir
    · rw [view_ent hdir, view_ent (htype.trans hdir)]
      exact entry_congr (by rw [hset.self]) fun o _ => hb _ hlt o
    · rw [view_ent_none hdir, view_ent_none fun hc => hdir (htype.symm.trans hc)]
  refine ⟨Ns.ext (funext fun c => ?_) (funext fun c => funext fun k => ?_) (seat_dinode hin), ?_⟩
  · by_cases hc : c = x.no
    · rw [hc, htype]
    · exact (view_frame hother (fun k hk _ => hb k hk) hc).1
  · by_cases hc : c = x.no
    · rw [hc, hent]
    · exact (view_frame hother (fun k hk _ => hb k hk) hc).2 k
  · refine h.of_frame ⟨hsb.trans h.inv.sb, ?_, ?_⟩ (fun k hk l hl => ?_) hother (fun k hk _ => hb k hk) (fun ht => ?_)
      fun k c nm hc => ?_
    · exact hset.owned rfl h.inv.owned fun hz => h.inv.owned.none x.no hlt hz
    · exact h.inv.table.step hr hno hin hother
    · have hsz : (node fs'.disk k).size = (node fs.disk k).size := by
        by_cases hkx : k = x.no
        · rw [hkx, hset.self]
        · rw [hother k hk hkx]
      rw [hsz] at hl
      rw [hset.blk rfl h.inv.owned hk]
      exact h.mapped k hk l hl
    · rw [hset.self] at ht ⊢
      exact h.size x.no hlt ht
    · rw [hent] at hc
      exact h.ent _ _ _ _ hc

/-- `iadddev` changes nothing but device numbers, or makes an inode that is not in use. -/
theorem iadddev_view {cwd id : Nat} (h : Good fs) (hx : (view fs).seat cwd = some x) (hid : id < 2 ^ 32)
    (he : fs.iadddev cwd path id = some fs') :
    (view fs' = view fs ∧ Good fs') ∨
      ((view fs).Live → ∃ i d j n nm, Created (view fs) d j n typeDev nm i
      (((view fs).create d j n typeDev nm).get i n) ∧
        (view fs).Walk (start path x.no) d ∧ Elem nm ∧
        view fs' = (view fs).create d j n typeDev nm ∧ Good fs') := by
  unfold iadddev at he
  obtain ⟨⟨r, fs₁⟩, hopen, he₁⟩ := Option.bind_eq_some_iff.1 he
  obtain ⟨ip, hr, he₂⟩ := Option.bind_eq_some_iff.1 he₁
  obtain ⟨fs₂, hdev, hcl⟩ := Option.bind_eq_some_iff.1 he₂
  subst hr
  have hclose : ∀ {s : Ns} {n : Nat}, s.Ok → s.Room ip n → view fs₁ = s.get ip n → Good fs₁ → view fs' = s ∧ Good fs' :=
    fun {s n} hs hroom hv hg => by
      obtain ⟨z, hz, -⟩ := hroom.get_some
      have hz₁ : (view fs₁).seat ip = some z := by rw [hv]; exact hz
      obtain ⟨fs₃, h1, h2, h3⟩ := setDevice_view hg hz₁ hid
      obtain rfl := Option.some.inj (hdev.symm.trans h1)
      obtain ⟨h4, h5, -⟩ := iclose_back hs h3 hroom (h2.trans hv) hcl
      exact ⟨h4, h5⟩
  rcases iopen_view h hx hopen with ⟨hbad, -⟩ | ⟨i, n, hi, hroom, hv, hg, -⟩ | ⟨-, hmade⟩
  · cases hbad
  · cases hi
    exact Or.inl (hclose h.ok hroom hv hg)
  · refine Or.inr fun hlive => ?_
    obtain ⟨i, d, j, n, nm, hi, hcr, hwalk, helem, hg, -⟩ := hmade hlive (by decide)
    cases hi
    obtain ⟨h1, h2⟩ := hclose (ok_create h.ok) (room_create.2 hcr.room) hcr.eq hg
    exact ⟨ip, d, j, n, nm, ⟨hcr.dir, hcr.lt, hcr.new, hcr.empty, hcr.unique, hcr.room, rfl⟩, hwalk, helem, h1, h2⟩

end TinyOS.Fs
