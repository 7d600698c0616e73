/-
What the shell's processes do together (user/src/phase6/sh.c): the processes of a job are a chain in
which each waits for the next, so whatever the interleaving a job does what its command means.
-/
import TinyOS.User.Jobs

namespace TinyOS.Shell

open TinyOS.Lib

variable {s s' : Table} {e : Event} {es : List Event} {p q j : Nat} {P Q : Proc} {J : Job} {ch ps : List Nat}
  {g next child : Prog} {io : Fds} {c c' : Ctl} {a : Option Act} {t u : List Act}

/-! ## Descriptors -/

/-- Every descriptor is open, 0 and 1 among them. -/
structure Full (io : Fds) : Prop where
  two : 2 ≤ io.length
  all : none ∉ io

theorem fd_lt {md : Mode} (h : Full io) : md.fd < io.length := by
  have h2 := h.two
  cases md <;> simp only [Mode.fd] <;> omega

theorem idxOf_set {l : Fds} {n : Nat} (h : none ∉ l) (hn : n < l.length) : (l.set n none).idxOf none = n := by
  induction l generalizing n with
  | nil => cases hn
  | cons x l ih =>
    rw [List.mem_cons, not_or] at h
    cases n with
    | zero => simp
    | succ n =>
      rw [List.set_cons_succ, List.idxOf_cons_ne _ (Ne.symm h.1), ih h.2 (Nat.lt_of_succ_lt_succ hn)]

/-- The descriptor that was closed is the one that `open` returns. -/
theorem openFd_close {n : Nat} {o : Opened} (h : none ∉ io) (hn : n < io.length) :
    openFd (close io n) o = io.set n (some o) := by
  simp only [openFd, close, idxOf_set h hn, List.length_set, if_pos hn, List.set_set]

theorem Full.set {n : Nat} {o : Opened} (h : Full io) : Full (io.set n (some o)) := by
  constructor
  · rw [List.length_set]
    exact h.two
  · intro hm
    obtain hm | hm := List.mem_or_eq_of_mem_set hm
    · exact h.all hm
    · cases hm

def Ctl.Full : Ctl → Prop
  | .run _ io => Shell.Full io
  | .wait _ io => Shell.Full io
  | _ => True

theorem Alone.full (h : Alone c a c') (hc : c.Full) : c'.Full := by
  cases h with
  | cd => exact hc
  | parsed => exact hc
  | @opened _ _ md =>
    simp only [Ctl.Full] at hc ⊢
    rw [openFd_close hc.all (fd_lt hc)]
    exact hc.set
  | _ => trivial

/-! ## One job -/

/-- What a process still does, once those that it waits for are done. -/
def Left : Ctl → List Act → Prop
  | .run g io, t => Does g io t
  | .wait g io, t => Does g io t
  | .image _ _, t => t = [.done]
  | .exiting, t => t = []
  | .zombie, t => t = []

theorem Does.exists_cmd (c : Cmd) (io : Fds) : ∃ t, Does (.cmd c) io t := by
  induction c generalizing io with
  | exec argv =>
    by_cases h : argv = []
    · subst h
      exact ⟨_, .empty⟩
    · exact ⟨_, .run h⟩
  | redir c w md ih => exact ⟨_, .refused⟩
  | pipe l r => exact ⟨_, .pipe⟩
  | list l r hl hr => exact ⟨_, .unlisted⟩
  | back c => exact ⟨_, .unbacked⟩

theorem Does.exists (g : Prog) (io : Fds) : ∃ t, Does g io t := by
  cases g with
  | cmd c => exact exists_cmd c io
  | text r =>
    cases r with
    | error f => exact ⟨_, .panic⟩
    | ok c =>
      obtain ⟨t, ht⟩ := exists_cmd c io
      exact ⟨t, .parsed ht⟩
  | lines ls =>
    induction ls with
    | nil => exact ⟨_, .eof⟩
    | cons l ls ih =>
      cases l with
      | text r => exact ⟨_, .unread⟩
      | cd dir =>
        obtain ⟨t, ht⟩ := ih
        exact ⟨.cd dir false :: t, .cd ht⟩

theorem Left.exists (c : Ctl) : ∃ t, Left c t := by
  cases c with
  | run g io => exact Does.exists g io
  | wait g io => exact Does.exists g io
  | image => exact ⟨_, rfl⟩
  | exiting => exact ⟨_, rfl⟩
  | zombie => exact ⟨_, rfl⟩

theorem Alone.left (h : Alone c a c') (hc : c.Full) (ht : Left c' t) : Left c (a.toList ++ t) := by
  cases h with
  | eof => cases ht; exact .eof
  | cd => exact .cd ht
  | unread => cases ht; exact .unread
  | parsed => exact .parsed ht
  | panic => cases ht; exact .panic
  | empty => cases ht; exact .empty
  | start hn => cases ht; exact .run hn
  | failed hn => cases ht; exact .failed hn
  | @opened _ _ md =>
    simp only [Left, Ctl.Full] at ht hc
    rw [openFd_close hc.all (fd_lt hc)] at ht
    exact .redir ht
  | refused => cases ht; exact .refused
  | unlisted => cases ht; exact .unlisted
  | unbacked => cases ht; exact .unbacked
  | done => cases ht; rfl

theorem Alone.not_waits (h : Alone c a c') : ¬ c.waits ∧ ¬ c'.waits := by
  cases h <;> exact ⟨id, id⟩

theorem Forks.does (h : Forks g child next) (ht : Does child io t) (hu : Does next io u) : Does g io (t ++ u) := by
  cases h with
  | line => exact .line ht hu
  | list => exact .list ht hu

/-! ## The processes of a job -/

/-- Process `q` is the child that `p` waits for. -/
def Table.Under (s : Table) (q p : Nat) : Prop :=
  ∃ Q P, s.procs q = some Q ∧ Q.parent = some p ∧ s.procs p = some P ∧ P.ctl.waits

/-- The processes of job `j`, the one that runs first and the one that the job began as last. -/
structure Chain (s : Table) (j root : Nat) (ch : List Nat) : Prop where
  mem : ∀ p, p ∈ ch ↔ ∃ P, s.procs p = some P ∧ P.job = j
  nodup : ch.Nodup
  linked : ch.IsChain s.Under
  last : ch.getLast? = some root
  head : ∀ p P, ch.head? = some p → s.procs p = some P → ¬ P.ctl.waits

/-- What the processes of a chain still do together. -/
def Rest (s : Table) : List Nat → List Act → Prop
  | [], t => t = []
  | p :: ps, t => ∃ P u v, s.procs p = some P ∧ Left P.ctl u ∧ Rest s ps v ∧ t = u ++ v

/-- Every parent waits for the child, in the same job, or is about to exit. -/
structure Kin (s : Table) : Prop where
  jobs : ∀ p P, s.procs p = some P → ∃ J, s.jobs P.job = some J
  full : ∀ p P, s.procs p = some P → P.ctl.Full
  parent : ∀ q Q p, s.procs q = some Q → Q.parent = some p →
    ∃ P, s.procs p = some P ∧ (P.ctl = .exiting ∨ P.ctl.waits ∧ P.job = Q.job ∧ ∀ J, s.jobs Q.job = some J → q ≠ J.root)

theorem Table.put_self (s : Table) (p : Nat) (x : Proc) : (s.put p x).procs p = some x := Function.update_self ..

theorem Table.put_of_ne (s : Table) {p q : Nat} (x : Proc) (h : q ≠ p) : (s.put p x).procs q = s.procs q :=
  Function.update_of_ne h ..

theorem Table.drop_of_ne (s : Table) {p q : Nat} (h : q ≠ p) : (s.drop p).procs q = s.procs q :=
  Function.update_of_ne h ..

theorem Table.drop_self (s : Table) (p : Nat) : (s.drop p).procs p = none := Function.update_self ..

/-! ### Chains -/

/-- A process that does not wait is the first of its chain. -/
theorem Chain.eq_cons {root : Nat} (hc : Chain s j root ch) (hp : s.procs p = some P) (hj : P.job = j)
    (hw : ¬ P.ctl.waits) :
    ∃ ps, ch = p :: ps := by
  obtain ⟨l, ps, rfl⟩ := List.append_of_mem ((hc.mem p).2 ⟨P, hp, hj⟩)
  obtain rfl | ⟨l, x, rfl⟩ := l.eq_nil_or_concat'
  · exact ⟨ps, rfl⟩
  · obtain ⟨-, -, h⟩ := List.isChain_append.1 hc.linked
    obtain ⟨-, P', -, -, hp', hw'⟩ := h x (by simp) p rfl
    rw [hp] at hp'
    cases hp'
    exact absurd hw' hw

/-- A process of a chain that is not the last one stands right before its parent. -/
theorem Chain.before {root : Nat} (hc : Chain s j root ch) (hq : s.procs q = some Q) (hj : Q.job = j) (hr : q ≠ root)
    (hp : Q.parent = some p) : ∃ l ps, ch = l ++ q :: p :: ps := by
  obtain ⟨l, ps, rfl⟩ := List.append_of_mem ((hc.mem q).2 ⟨Q, hq, hj⟩)
  cases ps with
  | nil =>
    have hl := hc.last
    rw [List.getLast?_append, List.getLast?_singleton] at hl
    exact absurd (Option.some.inj hl) hr
  | cons y ps =>
    obtain ⟨-, h, -⟩ := List.isChain_append.1 hc.linked
    obtain ⟨Q', -, hq', hy, -, -⟩ := (List.isChain_cons_cons.1 h).1
    rw [hq] at hq'
    cases hq'
    rw [hp] at hy
    cases hy
    exact ⟨l, ps, rfl⟩

/-- `x` stands as before, except that it may have lost a parent that did not wait for it. -/
def Same (s s' : Table) (x : Nat) : Prop :=
  ∀ P, s.procs x = some P → ∃ P', s'.procs x = some P' ∧ P'.ctl = P.ctl ∧ P'.job = P.job ∧ ∀ y,
    s.Under x y → P'.parent = some y

theorem Same.of_eq {x : Nat} (h : s'.procs x = s.procs x) : Same s s' x := by
  intro P hP
  refine ⟨P, h.trans hP, rfl, rfl, ?_⟩
  rintro y ⟨Q, -, hQ, hy, -⟩
  rw [hP] at hQ
  cases hQ
  exact hy

theorem Table.Under.keep {x y : Nat} (h : s.Under x y) {X : Proc} (hx : s'.procs x = some X) (hxy : X.parent = some y)
    (hy : Same s s' y) :
    s'.Under x y := by
  obtain ⟨-, Y, -, -, hY, hw⟩ := h
  obtain ⟨Y', hY', hc, -, -⟩ := hy Y hY
  exact ⟨X, Y', hx, hxy, hY', hc ▸ hw⟩

theorem linked_keep (hl : (p :: ps).IsChain s.Under)
    (hp : ∀ y, s.Under p y → ∃ X, s'.procs p = some X ∧ X.parent = some y) (hs : ∀ x ∈ ps, Same s s' x) :
    (p :: ps).IsChain s'.Under := by
  induction ps generalizing p with
  | nil => exact .singleton p
  | cons y ps ih =>
    obtain ⟨h, hl⟩ := List.isChain_cons_cons.1 hl
    obtain ⟨X, hX, hxy⟩ := hp y h
    refine List.isChain_cons_cons.2 ⟨h.keep hX hxy (hs y (List.mem_cons_self ..)), ih hl ?_ fun x hx =>
      hs x (List.mem_cons_of_mem _ hx)⟩
    intro z hz
    obtain ⟨Y, -, hY, -⟩ := id hz
    obtain ⟨Y', hY', -, -, hp'⟩ := hs y (List.mem_cons_self ..) Y hY
    exact ⟨Y', hY', hp' z hz⟩

theorem rest_keep (hs : ∀ x ∈ ps, (∃ P, s.procs x = some P) ∧ Same s s' x) (ht : Rest s' ps t) : Rest s ps t := by
  induction ps generalizing t with
  | nil => exact ht
  | cons x ps ih =>
    obtain ⟨P', u, v, hP', hu, hv, rfl⟩ := ht
    obtain ⟨⟨P, hP⟩, hx⟩ := hs x (List.mem_cons_self ..)
    obtain ⟨P'', hP'', hc, -, -⟩ := hx P hP
    rw [hP'] at hP''
    cases hP''
    exact ⟨P, u, v, hP, hc ▸ hu, ih (fun y hy => hs y (List.mem_cons_of_mem _ hy)) hv, rfl⟩

theorem Chain.ne_nil {root : Nat} (hc : Chain s j root ch) : ch ≠ [] := by
  rintro rfl
  cases hc.last

/-- The other jobs do not see a move. -/
structure Others (s s' : Table) (j : Nat) : Prop where
  same : ∀ x P, s.procs x = some P → P.job ≠ j → Same s s' x
  old : ∀ x P', s'.procs x = some P' → P'.job ≠ j → (∃ P, s.procs x = some P ∧ P.job = P'.job) ∨ s.jobs P'.job = none

theorem Chain.other {i root : Nat} (hc : Chain s i root ch) (ho : Others s s' j) (hi : i ≠ j) (hJ : s.jobs i ≠ none) :
    Chain s' i root ch ∧ ∀ t, Rest s' ch t → Rest s ch t := by
  have hs : ∀ x ∈ ch, ∃ P, s.procs x = some P ∧ P.job = i ∧ Same s s' x := by
    intro x hx
    obtain ⟨P, hP, rfl⟩ := (hc.mem x).1 hx
    exact ⟨P, hP, rfl, ho.same x P hP hi⟩
  refine ⟨⟨?_, hc.nodup, ?_, hc.last, ?_⟩, ?_⟩
  · intro x
    constructor
    · intro hx
      obtain ⟨P, hP, hj, h⟩ := hs x hx
      obtain ⟨P', hP', -, hj', -⟩ := h P hP
      exact ⟨P', hP', hj'.trans hj⟩
    · rintro ⟨P', hP', rfl⟩
      obtain ⟨P, hP, hj⟩ | hn := ho.old x P' hP' hi
      · exact (hc.mem x).2 ⟨P, hP, hj⟩
      · exact absurd hn hJ
  · cases ch with
    | nil => exact .nil
    | cons p ps =>
      refine linked_keep hc.linked ?_ ?_
      · intro y hy
        obtain ⟨P, hP, -, h⟩ := hs p (List.mem_cons_self ..)
        obtain ⟨P', hP', -, -, hp⟩ := h P hP
        exact ⟨P', hP', hp y hy⟩
      · intro x hx
        obtain ⟨-, -, -, h⟩ := hs x (List.mem_cons_of_mem _ hx)
        exact h
  · intro p P' hh hP'
    obtain ⟨P, hP, -, h⟩ := hs p (List.mem_of_mem_head? hh)
    obtain ⟨P'', hP'', hctl, -⟩ := h P hP
    rw [hP'] at hP''
    cases hP''
    rw [hctl]
    exact hc.head p P hh hP
  · intro t ht
    refine rest_keep ?_ ht
    intro x hx
    obtain ⟨P, hP, -, h⟩ := hs x hx
    exact ⟨⟨P, hP⟩, h⟩

/-- Only processes of job `j` differ, and those of a job that there was not. -/
def Within (s : Table) (j : Nat) (f : Nat → Option Proc) : Prop :=
  ∀ x, f x = s.procs x ∨ (∀ P, s.procs x = some P → P.job = j) ∧ ∀ P, f x = some P → P.job = j ∨ s.jobs P.job = none

theorem Within.refl (s : Table) (j : Nat) : Within s j s.procs := fun _ => .inl rfl

theorem Within.put {u : Table} {X : Proc} (h : Within s j u.procs) (hp : ∀ P, s.procs p = some P → P.job = j)
    (hX : X.job = j ∨ s.jobs X.job = none) : Within s j (u.put p X).procs := by
  intro x
  by_cases hx : x = p
  · subst hx
    refine .inr ⟨hp, ?_⟩
    intro P hP
    rw [Table.put_self] at hP
    cases hP
    exact hX
  · rw [Table.put_of_ne _ _ hx]
    exact h x

theorem Within.drop {u : Table} (h : Within s j u.procs) (hp : ∀ P, s.procs p = some P → P.job = j) :
    Within s j (u.drop p).procs := by
  intro x
  by_cases hx : x = p
  · subst hx
    refine .inr ⟨hp, ?_⟩
    intro P hP
    rw [Table.drop_self] at hP
    cases hP
  · rw [Table.drop_of_ne _ hx]
    exact h x

theorem Others.of_within (h : Within s j s'.procs) : Others s s' j := by
  constructor
  · intro x P hP hj
    obtain h | ⟨h, -⟩ := h x
    · exact .of_eq h
    · exact absurd (h P hP) hj
  · intro x P' hP' hj
    obtain h | ⟨-, h⟩ := h x
    · exact .inl ⟨P', h ▸ hP', rfl⟩
    · exact .inr ((h P' hP').resolve_left hj)

theorem Moves.others (hk : Kin s) (h : Moves s e s') : Others s s' e.job := by
  have hold : ∀ {p : Nat} {c : Ctl} {par : Option Nat} {j : Nat}, s.procs p = some ⟨c, par, j⟩ →
      ∀ P, s.procs p = some P → P.job = j := by
    intro p c par j hp P hP
    rw [hp] at hP
    cases hP
    rfl
  have hnone : ∀ {q : Nat} (j : Nat), s.procs q = none → ∀ P, s.procs q = some P → P.job = j := by
    intro q j hq P hP
    rw [hq] at hP
    cases hP
  cases h with
  | alone hp ha => exact .of_within ((Within.refl s _).put (hold hp) (.inl rfl))
  | fork hp hf hq => exact .of_within (((Within.refl s _).put (hold hp) (.inl rfl)).put (hnone _ hq) (.inl rfl))
  | back hp hq hJ => exact .of_within (((Within.refl s _).put (hold hp) (.inl rfl)).put (hnone _ hq) (.inr hJ))
  | @reap p par j g io q i hp hq =>
    -- the child that is reaped is of the same job
    obtain ⟨P, hP, hh⟩ := hk.parent q _ p hq rfl
    rw [hp] at hP
    cases hP
    obtain hh | ⟨-, rfl, -⟩ := hh
    · cases hh
    exact .of_within (((Within.refl s _).drop (hold hq)).put (hold hp) (.inl rfl))
  | childless hp hn => exact .of_within ((Within.refl s _).put (hold hp) (.inl rfl))
  | pipe hp => exact .of_within (by exact (Within.refl s _).put (hold hp) (.inl rfl))
  | @exit p par j hp =>
    have hne : ∀ x P, s.procs x = some P → P.job ≠ j → x ≠ p := by
      rintro x P hP hj rfl
      rw [hp] at hP
      cases hP
      exact hj rfl
    constructor
    · intro x P hP hj Q hQ
      refine ⟨{ Q with parent := if Q.parent = some p then none else Q.parent }, ?_, rfl, rfl, ?_⟩
      · simp only [Table.orphan, Table.put_of_ne _ _ (hne x P hP hj), hQ, Option.map_some]
      · -- an exiting process waits for nobody
        rintro y ⟨Q', Y, hQ', hy, hY, hw⟩
        rw [hQ] at hQ'
        cases hQ'
        rw [if_neg]
        · exact hy
        · intro h
          rw [h] at hy
          cases hy
          rw [hp] at hY
          cases hY
          exact hw
    · intro x P' hP' hj
      simp only [Table.orphan] at hP'
      obtain ⟨P, hP, rfl⟩ := Option.map_eq_some_iff.1 hP'
      have hx : x ≠ p := by
        rintro rfl
        rw [Table.put_self] at hP
        cases hP
        exact hj rfl
      rw [Table.put_of_ne _ _ hx] at hP
      exact .inl ⟨P, hP, rfl⟩

theorem Same.of_none {x : Nat} (h : s.procs x = none) : Same s s' x := by
  intro P hP
  rw [h] at hP
  cases hP

/-- The first process of a chain does something, and waits for nobody after it. -/
theorem Chain.turn {root : Nat} {X : Proc} (hc : Chain s j root ch) (hp : s.procs p = some P) (hj : P.job = j)
    (hw : ¬ P.ctl.waits) (hp' : s'.procs p = some X) (hX : X.job = j) (hwX : ¬ X.ctl.waits)
    (hpar : ∀ y, s.Under p y → X.parent = some y) (hs : ∀ x, x ≠ p → Same s s' x)
    (hn : ∀ x X', x ≠ p → s'.procs x = some X' → X'.job = j → ∃ P, s.procs x = some P ∧ P.job = j)
    (hl : ∀ t, Left X.ctl t → Left P.ctl (a.toList ++ t)) :
    ∃ ch', Chain s' j root ch' ∧ ∀ t, Rest s' ch' t → Rest s ch (a.toList ++ t) := by
  obtain ⟨ps, rfl⟩ := hc.eq_cons hp hj hw
  have hps : ∀ x ∈ ps, x ≠ p := fun x hx h => (List.nodup_cons.1 hc.nodup).1 (h ▸ hx)
  refine ⟨p :: ps, ⟨?_, hc.nodup, ?_, hc.last, ?_⟩, ?_⟩
  · intro x
    by_cases hx : x = p
    · subst hx
      exact ⟨fun _ => ⟨X, hp', hX⟩, fun _ => List.mem_cons_self ..⟩
    · constructor
      · intro h
        obtain ⟨Q, hQ, hQj⟩ := (hc.mem x).1 h
        obtain ⟨Q', hQ', -, hj', -⟩ := hs x hx Q hQ
        exact ⟨Q', hQ', hj'.trans hQj⟩
      · rintro ⟨Q', hQ', hQj⟩
        exact (hc.mem x).2 (hn x Q' hx hQ' hQj)
  · exact linked_keep hc.linked (fun y hy => ⟨X, hp', hpar y hy⟩) fun x hx => hs x (hps x hx)
  · intro q Q hq hQ
    cases hq
    rw [hp'] at hQ
    cases hQ
    exact hwX
  · rintro t ⟨X', u, v, hX', hu, hv, rfl⟩
    rw [hp'] at hX'
    cases hX'
    rw [← List.append_assoc]
    refine ⟨P, _, v, hp, hl u hu, rest_keep (fun x hx => ?_) hv, rfl⟩
    obtain ⟨Q, hQ, -⟩ := (hc.mem x).1 (List.mem_cons_of_mem _ hx)
    exact ⟨⟨Q, hQ⟩, hs x (hps x hx)⟩

/-- The first process of a chain puts a child in front of itself. -/
theorem Chain.fork {root : Nat} {par : Option Nat} (hc : Chain s j root ch) (hp : s.procs p = some ⟨.run g io, par, j⟩)
    (hf : Forks g child next) (hq : s.procs q = none) :
    ∃ ch', Chain ((s.put p ⟨.wait next io, par, j⟩).put q ⟨.run child io, some p, j⟩) j root ch' ∧
      ∀ t, Rest ((s.put p ⟨.wait next io, par, j⟩).put q ⟨.run child io, some p, j⟩) ch' t → Rest s ch t := by
  obtain ⟨ps, rfl⟩ := hc.eq_cons hp rfl id
  have hpq : p ≠ q := by
    rintro rfl
    rw [hq] at hp
    cases hp
  have hqch : q ∉ p :: ps := by
    intro h
    obtain ⟨Q, hQ, -⟩ := (hc.mem q).1 h
    rw [hq] at hQ
    cases hQ
  have hps : ∀ x ∈ ps, x ≠ p := fun x hx h => (List.nodup_cons.1 hc.nodup).1 (h ▸ hx)
  generalize hs' : (s.put p ⟨.wait next io, par, j⟩).put q ⟨.run child io, some p, j⟩ = s'
  have hq' : s'.procs q = some ⟨.run child io, some p, j⟩ := by rw [← hs', Table.put_self]
  have hp' : s'.procs p = some ⟨.wait next io, par, j⟩ := by rw [← hs', Table.put_of_ne _ _ hpq, Table.put_self]
  have ho : ∀ x, x ≠ p → x ≠ q → s'.procs x = s.procs x := by
    intro x hx hxq
    rw [← hs', Table.put_of_ne _ _ hxq, Table.put_of_ne _ _ hx]
  have hsame : ∀ x ∈ ps, Same s s' x := fun x hx =>
    .of_eq (ho x (hps x hx) fun h => hqch (h ▸ List.mem_cons_of_mem _ hx))
  refine ⟨q :: p :: ps, ⟨?_, List.nodup_cons.2 ⟨hqch, hc.nodup⟩, ?_, ?_, ?_⟩, ?_⟩
  · intro x
    by_cases hxq : x = q
    · subst hxq
      exact ⟨fun _ => ⟨_, hq', rfl⟩, fun _ => List.mem_cons_self ..⟩
    · by_cases hx : x = p
      · subst hx
        exact ⟨fun _ => ⟨_, hp', rfl⟩, fun _ => by simp⟩
      · rw [ho x hx hxq, ← hc.mem x, List.mem_cons]
        exact or_iff_right hxq
  · refine List.isChain_cons_cons.2 ⟨⟨_, _, hq', rfl, hp', trivial⟩, linked_keep hc.linked ?_ hsame⟩
    rintro y ⟨Q, -, hQ, hy, -⟩
    rw [hp] at hQ
    cases hQ
    exact ⟨_, hp', hy⟩
  · rw [List.getLast?_cons_cons]
    exact hc.last
  · intro x X hx hX
    cases hx
    rw [hq'] at hX
    cases hX
    exact id
  · rintro t ⟨Q, u, v, hQ, hu, ⟨P, u', v', hP, hu', hv', rfl⟩, rfl⟩
    rw [hq'] at hQ
    cases hQ
    rw [hp'] at hP
    cases hP
    rw [← List.append_assoc]
    refine ⟨_, u ++ u', v', hp, hf.does hu hu', rest_keep (fun x hx => ⟨?_, hsame x hx⟩) hv', rfl⟩
    obtain ⟨X, hX, -⟩ := (hc.mem x).1 (List.mem_cons_of_mem _ hx)
    exact ⟨X, hX⟩

/-- A zombie child is the first of its chain; its parent comes first after it. -/
theorem Chain.reap {root i : Nat} {par : Option Nat} (hk : Kin s) (hJ : ∃ x, s.jobs j = some x ∧ x.root = root)
    (hc : Chain s j root ch) (hp : s.procs p = some ⟨.wait g io, par, j⟩) (hq : s.procs q = some ⟨.zombie, some p, i⟩) :
    ∃ ps, ch = q :: p :: ps := by
  obtain ⟨x, hx, rfl⟩ := hJ
  obtain ⟨P, hP, h⟩ := hk.parent q _ p hq rfl
  rw [hp] at hP
  cases hP
  obtain h | ⟨-, rfl, hr⟩ := h
  · cases h
  obtain ⟨l, ps, hl⟩ := hc.before hq rfl (hr x hx) rfl
  obtain ⟨ps', rfl⟩ := hc.eq_cons hq rfl id
  cases l with
  | nil => exact ⟨ps, hl⟩
  | cons y l =>
    have hn := hc.nodup
    rw [hl] at hn
    obtain ⟨rfl, -⟩ := List.cons_eq_cons.1 hl
    exact absurd (by simp) (List.nodup_cons.1 hn).1

theorem Chain.reaped {root i : Nat} {par : Option Nat} (hc : Chain s j root (q :: p :: ps))
    (hp : s.procs p = some ⟨.wait g io, par, j⟩) (hq : s.procs q = some ⟨.zombie, some p, i⟩) :
    Chain ((s.drop q).put p ⟨.run g io, par, j⟩) j root (p :: ps) ∧
      ∀ t, Rest ((s.drop q).put p ⟨.run g io, par, j⟩) (p :: ps) t → Rest s (q :: p :: ps) t := by
  obtain ⟨hqp, hnd⟩ := List.nodup_cons.1 hc.nodup
  have hps : ∀ x ∈ ps, x ≠ p := fun x hx h => (List.nodup_cons.1 hnd).1 (h ▸ hx)
  have hpq : p ≠ q := fun h => hqp (h ▸ List.mem_cons_self ..)
  generalize hs' : (s.drop q).put p ⟨.run g io, par, j⟩ = s'
  have hp' : s'.procs p = some ⟨.run g io, par, j⟩ := by rw [← hs', Table.put_self]
  have hq' : s'.procs q = none := by rw [← hs', Table.put_of_ne _ _ hpq.symm, Table.drop_self]
  have ho : ∀ x, x ≠ p → x ≠ q → s'.procs x = s.procs x := by
    intro x hx hxq
    rw [← hs', Table.put_of_ne _ _ hx, Table.drop_of_ne _ hxq]
  have hsame : ∀ x ∈ ps, Same s s' x := fun x hx =>
    .of_eq (ho x (hps x hx) fun h => hqp (h ▸ List.mem_cons_of_mem _ hx))
  refine ⟨⟨?_, hnd, ?_, ?_, ?_⟩, ?_⟩
  · intro x
    by_cases hxq : x = q
    · subst hxq
      rw [hq']
      exact ⟨fun h => absurd h hqp, fun ⟨_, h, _⟩ => (by cases h)⟩
    · by_cases hx : x = p
      · subst hx
        exact ⟨fun _ => ⟨_, hp', rfl⟩, fun _ => List.mem_cons_self ..⟩
      · rw [ho x hx hxq, ← hc.mem x, List.mem_cons (a := x) (b := q)]
        exact (or_iff_right hxq).symm
  · refine linked_keep (List.isChain_cons_cons.1 hc.linked).2 ?_ hsame
    rintro y ⟨Q, -, hQ, hy, -⟩
    rw [hp] at hQ
    cases hQ
    exact ⟨_, hp', hy⟩
  · have hl := hc.last
    rwa [List.getLast?_cons_cons] at hl
  · intro x X hx hX
    cases hx
    rw [hp'] at hX
    cases hX
    exact id
  · rintro t ⟨P, u, v, hP, hu, hv, rfl⟩
    rw [hp'] at hP
    cases hP
    refine ⟨_, [], u ++ v, hq, rfl, ⟨_, u, v, hp, hu, rest_keep (fun x hx => ⟨?_, hsame x hx⟩) hv, rfl⟩, rfl⟩
    obtain ⟨X, hX, -⟩ := (hc.mem x).1 (List.mem_cons_of_mem _ (List.mem_cons_of_mem _ hx))
    exact ⟨X, hX⟩

theorem Moves.own {root : Nat} (hk : Kin s) (hJ : ∃ x, s.jobs e.job = some x ∧ x.root = root)
    (hc : Chain s e.job root ch) (h : Moves s e s') :
    ∃ ch', Chain s' e.job root ch' ∧ ∀ t, Rest s' ch' t → Rest s ch (e.act.toList ++ t) := by
  have hne : ∀ {p x : Nat} {X : Proc} (u : Table), x ≠ p → Same u (u.put p X) x := fun u hx => .of_eq (u.put_of_ne _ hx)
  have hpar : ∀ {p : Nat} {c : Ctl} {par : Option Nat} {j : Nat}, s.procs p = some ⟨c, par, j⟩ →
      ∀ y, s.Under p y → par = some y := by
    rintro p c par j hp y ⟨Q, -, hQ, hy, -⟩
    rw [hp] at hQ
    cases hQ
    exact hy
  cases h with
  | @alone p par j c a c' hp ha =>
    refine hc.turn hp rfl ha.not_waits.1 (s.put_self p _) rfl ha.not_waits.2 (hpar hp) (fun x hx => hne s hx) ?_
      fun t => ha.left (hk.full p _ hp)
    intro x X' hx hX hj
    rw [s.put_of_ne _ hx] at hX
    exact ⟨X', hX, hj⟩
  | fork hp hf hq => exact hc.fork hp hf hq
  | @back p par j c io q k hp hq hJk =>
    have hpq : p ≠ q := by
      rintro rfl
      rw [hq] at hp
      cases hp
    refine hc.turn (X := ⟨.exiting, par, j⟩) hp rfl id ((Table.put_of_ne _ _ hpq).trans (s.put_self p _)) rfl id
      (hpar hp) ?_ ?_ ?_
    · intro x hx
      by_cases hxq : x = q
      · exact .of_none (hxq ▸ hq)
      · exact .of_eq ((Table.put_of_ne _ _ hxq).trans (s.put_of_ne _ hx))
    · intro x X hx hX hj
      by_cases hxq : x = q
      · subst hxq
        have hX := (Table.put_self _ x _).symm.trans hX
        cases hX
        -- the new job is not this one
        obtain ⟨J, hJ, -⟩ := hJ
        simp only at hj
        rw [hj, hJ] at hJk
        cases hJk
      · exact ⟨X, ((Table.put_of_ne _ _ hxq).trans (s.put_of_ne _ hx)).symm.trans hX, hj⟩
    · intro t ht
      cases ht
      exact .back
  | @reap p par j g io q i hp hq =>
    obtain ⟨ps, rfl⟩ := Chain.reap hk hJ hc hp hq
    exact ⟨_, hc.reaped hp hq⟩
  | @childless p par j g io hp hn =>
    -- the process before it in the chain is its child
    obtain ⟨l, ps, rfl⟩ := List.append_of_mem ((hc.mem p).2 ⟨_, hp, rfl⟩)
    obtain rfl | ⟨l, x, rfl⟩ := l.eq_nil_or_concat'
    · exact absurd trivial (hc.head p _ rfl hp)
    · obtain ⟨-, -, h⟩ := List.isChain_append.1 hc.linked
      obtain ⟨Q, -, hQ, hx, -⟩ := h x (by simp) p rfl
      exact absurd hx (hn x Q hQ)
  | @exit p par j hp =>
    have hx : ∀ x, x ≠ p → ((s.put p ⟨.zombie, par, j⟩).orphan p).procs x =
        (s.procs x).map fun X => { X with parent := if X.parent = some p then none else X.parent } := by
      intro x hx
      simp only [Table.orphan, Table.put_of_ne _ _ hx]
    refine hc.turn (X := ⟨.zombie, if par = some p then none else par, j⟩) hp rfl id ?_ rfl id ?_ ?_ ?_ ?_
    · simp only [Table.orphan, Table.put_self, Option.map_some]
    · rintro y hy
      obtain rfl := hpar hp y hy
      obtain ⟨-, Y, -, -, hY, hw⟩ := hy
      refine if_neg fun h => ?_
      cases h
      rw [hp] at hY
      cases hY
      exact hw
    · intro x hxp X hX
      refine ⟨_, (hx x hxp).trans (congrArg _ hX), rfl, rfl, ?_⟩
      rintro y ⟨X', Y, hX', hy, hY, hw⟩
      rw [hX] at hX'
      cases hX'
      refine (if_neg fun h => ?_).trans hy
      rw [h] at hy
      cases hy
      rw [hp] at hY
      cases hY
      exact hw
    · intro x X hxp hX hj
      rw [hx x hxp] at hX
      obtain ⟨Y, hY, rfl⟩ := Option.map_eq_some_iff.1 hX
      exact ⟨Y, hY, hj⟩
    · intro t ht
      cases ht
      rfl
  | @pipe p par j l r io hp =>
    have hs' : ({ s.put p ⟨.exiting, par, j⟩ with halted := true } : Table).procs p = some ⟨.exiting, par, j⟩ :=
      s.put_self p _
    refine hc.turn hp rfl id hs' rfl id
      (hpar hp) (fun x hx => .of_eq (s.put_of_ne _ hx)) ?_ ?_
    · intro x X' hx hX hj
      exact ⟨X', (s.put_of_ne _ hx) ▸ hX, hj⟩
    · intro t ht
      cases ht
      exact .pipe

/-! ### Parents -/

/-- Nobody is the child of `p`. -/
def Table.Childless (s : Table) (p : Nat) : Prop := ∀ q Q, s.procs q = some Q → Q.parent ≠ some p

theorem Kin.childless (hk : Kin s) (hp : s.procs p = some P) (he : P.ctl ≠ .exiting) (hw : ¬ P.ctl.waits) :
    s.Childless p := by
  intro q Q hQ hpar
  obtain ⟨P', hP', h⟩ := hk.parent q Q p hQ hpar
  rw [hp] at hP'
  cases hP'
  obtain h | ⟨h, -⟩ := h
  · exact he h
  · exact hw h

theorem Alone.not_exiting (h : Alone c a c') : c ≠ .exiting := by
  cases h <;> intro h <;> cases h

theorem Kin.put {par : Option Nat} {d : Ctl} (hk : Kin s) (hp : s.procs p = some ⟨c, par, j⟩) (hn : s.Childless p)
    (hf : d.Full) :
    Kin (s.put p ⟨d, par, j⟩) := by
  constructor
  · intro q Q hQ
    by_cases hq : q = p
    · subst hq
      rw [Table.put_self] at hQ
      cases hQ
      exact hk.jobs q ⟨c, par, j⟩ hp
    · rw [Table.put_of_ne _ _ hq] at hQ
      exact hk.jobs q Q hQ
  · intro q Q hQ
    by_cases hq : q = p
    · subst hq
      rw [Table.put_self] at hQ
      cases hQ
      exact hf
    · rw [Table.put_of_ne _ _ hq] at hQ
      exact hk.full q Q hQ
  · intro q Q y hQ hy
    -- the parent was there before, and is not `p`
    have h : ∃ Q', s.procs q = some Q' ∧ Q'.parent = some y ∧ Q'.job = Q.job := by
      by_cases hq : q = p
      · subst hq
        rw [Table.put_self] at hQ
        cases hQ
        exact ⟨_, hp, hy, rfl⟩
      · rw [Table.put_of_ne _ _ hq] at hQ
        exact ⟨Q, hQ, hy, rfl⟩
    obtain ⟨Q', hQ', hy', hj⟩ := h
    have hyp : y ≠ p := fun h => hn q Q' hQ' (h ▸ hy')
    rw [Table.put_of_ne _ _ hyp, ← hj]
    exact hk.parent q Q' y hQ' hy'

theorem Kin.born {k : Nat} {x : Job} (hk : Kin s) (hJ : s.jobs k = none) : Kin (s.born k x) := by
  have hne : ∀ q Q, s.procs q = some Q → Q.job ≠ k := by
    rintro q Q hQ rfl
    obtain ⟨J, h⟩ := hk.jobs q Q hQ
    rw [hJ] at h
    cases h
  have hjobs : ∀ q Q, s.procs q = some Q → (s.born k x).jobs Q.job = s.jobs Q.job := fun q Q hQ =>
    Function.update_of_ne (hne q Q hQ) ..
  constructor
  · intro q Q hQ
    rw [hjobs q Q hQ]
    exact hk.jobs q Q hQ
  · exact hk.full
  · intro q Q y hQ hy
    rw [hjobs q Q hQ]
    exact hk.parent q Q y hQ hy

theorem Kin.add {X : Proc} (hk : Kin s) (hq : s.procs q = none) (hJ : ∃ J, s.jobs X.job = some J) (hf : X.ctl.Full)
    (hpar : ∀ y, X.parent = some y →
      ∃ P, s.procs y = some P ∧ (P.ctl = .exiting ∨ P.ctl.waits ∧ P.job = X.job ∧ ∀ J, s.jobs X.job = some J →
        q ≠ J.root)) :
    Kin (s.put q X) := by
  have hold : ∀ {y P}, s.procs y = some P → (s.put q X).procs y = some P := by
    intro y P hP
    rw [Table.put_of_ne]
    · exact hP
    · rintro rfl
      rw [hq] at hP
      cases hP
  constructor
  · intro x Q hQ
    by_cases hx : x = q
    · subst hx
      rw [Table.put_self] at hQ
      cases hQ
      exact hJ
    · rw [Table.put_of_ne _ _ hx] at hQ
      exact hk.jobs x Q hQ
  · intro x Q hQ
    by_cases hx : x = q
    · subst hx
      rw [Table.put_self] at hQ
      cases hQ
      exact hf
    · rw [Table.put_of_ne _ _ hx] at hQ
      exact hk.full x Q hQ
  · intro x Q y hQ hy
    by_cases hx : x = q
    · subst hx
      rw [Table.put_self] at hQ
      cases hQ
      obtain ⟨P, hP, h⟩ := hpar y hy
      exact ⟨P, hold hP, h⟩
    · rw [Table.put_of_ne _ _ hx] at hQ
      obtain ⟨P, hP, h⟩ := hk.parent x Q y hQ hy
      exact ⟨P, hold hP, h⟩

theorem Kin.drop (hk : Kin s) (hn : s.Childless q) : Kin (s.drop q) := by
  have hne : ∀ {x Q}, (s.drop q).procs x = some Q → s.procs x = some Q := by
    intro x Q hQ
    by_cases hx : x = q
    · subst hx
      rw [Table.drop_self] at hQ
      cases hQ
    · rwa [Table.drop_of_ne _ hx] at hQ
  refine ⟨fun x Q hQ => hk.jobs x Q (hne hQ), fun x Q hQ => hk.full x Q (hne hQ), ?_⟩
  intro x Q y hQ hy
  obtain ⟨P, hP, h⟩ := hk.parent x Q y (hne hQ) hy
  refine ⟨P, ?_, h⟩
  rw [Table.drop_of_ne]
  · exact hP
  · rintro rfl
    exact hn x Q (hne hQ) hy

theorem Kin.exit {par : Option Nat} (hk : Kin s) (hp : s.procs p = some ⟨.exiting, par, j⟩) :
    Kin ((s.put p ⟨.zombie, par, j⟩).orphan p) := by
  -- whoever is there was there, and has its parent still if that is not `p`
  have hold : ∀ {x X}, ((s.put p ⟨.zombie, par, j⟩).orphan p).procs x = some X → ∃ Y, s.procs x = some Y ∧
      Y.job = X.job ∧
      (Y.ctl.Full → X.ctl.Full) ∧ ∀ y, X.parent = some y → Y.parent = some y ∧ y ≠ p := by
    intro x X hX
    simp only [Table.orphan] at hX
    obtain ⟨Y, hY, rfl⟩ := Option.map_eq_some_iff.1 hX
    have hpar : ∀ y, (if Y.parent = some p then none else Y.parent) = some y → Y.parent = some y ∧ y ≠ p := by
      intro y hy
      split at hy
      · cases hy
      · next h =>
        refine ⟨hy, ?_⟩
        rintro rfl
        exact h hy
    by_cases hx : x = p
    · subst hx
      rw [Table.put_self] at hY
      cases hY
      exact ⟨_, hp, rfl, fun _ => trivial, hpar⟩
    · rw [Table.put_of_ne _ _ hx] at hY
      exact ⟨Y, hY, rfl, id, hpar⟩
  constructor
  · intro x X hX
    obtain ⟨Y, hY, hj, -⟩ := hold hX
    rw [← hj]
    exact hk.jobs x Y hY
  · intro x X hX
    obtain ⟨Y, hY, -, hf, -⟩ := hold hX
    exact hf (hk.full x Y hY)
  · intro x X y hX hy
    obtain ⟨Y, hY, hj, -, hpar⟩ := hold hX
    obtain ⟨hy, hne⟩ := hpar y hy
    obtain ⟨P, hP, h⟩ := hk.parent x Y y hY hy
    refine ⟨{ P with parent := if P.parent = some p then none else P.parent }, ?_, hj ▸ h⟩
    simp only [Table.orphan, Table.put_of_ne _ _ hne, hP, Option.map_some]

theorem eq_of_before {l ps' : List Nat} {x : Nat} (hn : (q :: p :: ps).Nodup) (h : q :: p :: ps = l ++ x :: p :: ps') :
    x = q := by
  cases l with
  | nil => exact (List.cons_eq_cons.1 h).1.symm
  | cons y l =>
    -- `p` would stand in the list twice
    have hp := (List.nodup_cons.1 (List.nodup_cons.1 hn).2).1
    have h1 := (List.cons_eq_cons.1 h).2
    cases l with
    | nil =>
      have h2 := (List.cons_eq_cons.1 h1).2
      exact absurd (by simp [h2]) hp
    | cons z l =>
      have h2 := (List.cons_eq_cons.1 h1).2
      exact absurd (by simp [h2]) hp

theorem Moves.kin (hk : Kin s) (hch : ∀ j J, s.jobs j = some J → ∃ ch, Chain s j J.root ch) (h : Moves s e s') :
    Kin s' := by
  cases h with
  | alone hp ha => exact hk.put hp (hk.childless hp ha.not_exiting ha.not_waits.1) (ha.full (hk.full _ _ hp))
  | @fork p par j g io child next q hp hf hq =>
    have hn : s.Childless p := hk.childless hp (fun h => by cases h) id
    have hpq : q ≠ p := by
      rintro rfl
      rw [hq] at hp
      cases hp
    refine (hk.put (d := .wait next io) hp hn (hk.full p _ hp)).add ((s.put_of_ne _ hpq).trans hq)
      (hk.jobs p ⟨.run g io, par, j⟩ hp) (hk.full p ⟨.run g io, par, j⟩ hp) ?_
    intro y hy
    cases hy
    refine ⟨_, s.put_self p _, .inr ⟨trivial, rfl, ?_⟩⟩
    -- the process that the job began as is already there
    rintro J hJ rfl
    obtain ⟨ch, hc⟩ := hch j J hJ
    obtain ⟨Q, hQ, -⟩ := (hc.mem J.root).1 (List.mem_of_getLast? hc.last)
    rw [hq] at hQ
    cases hQ
  | @back p par j c io q k hp hq hJ =>
    have hn : s.Childless p := hk.childless hp (fun h => by cases h) id
    have hpq : q ≠ p := by
      rintro rfl
      rw [hq] at hp
      cases hp
    have hk' : Kin ((s.born k ⟨.cmd c, io, q⟩).put p ⟨.exiting, par, j⟩) := (hk.born hJ).put hp hn trivial
    refine hk'.add (X := ⟨.run (.cmd c) io, some p, k⟩) ((Table.put_of_ne _ _ hpq).trans hq)
      ⟨_, Function.update_self ..⟩
      (hk.full p ⟨.run (.cmd (.back c)) io, par, j⟩ hp) ?_
    intro y hy
    cases hy
    exact ⟨_, Table.put_self .., .inl rfl⟩
  | @reap p par j g io q i hp hq =>
    obtain ⟨P, hP, h⟩ := hk.parent q _ p hq rfl
    rw [hp] at hP
    cases hP
    obtain h | ⟨-, rfl, -⟩ := h
    · cases h
    obtain ⟨J, hJ⟩ := hk.jobs p _ hp
    obtain ⟨ch, hc⟩ := hch j J hJ
    obtain ⟨ps, rfl⟩ := Chain.reap hk ⟨J, hJ, rfl⟩ hc hp hq
    have hpq : p ≠ q := fun h => (List.nodup_cons.1 hc.nodup).1 (h ▸ List.mem_cons_self ..)
    have hn : (s.drop q).Childless p := by
      -- the reaped child was the only one
      intro x X hX hpar
      by_cases hx : x = q
      · subst hx
        rw [Table.drop_self] at hX
        cases hX
      rw [Table.drop_of_ne _ hx] at hX
      obtain ⟨P, hP, h⟩ := hk.parent x X p hX hpar
      rw [hp] at hP
      cases hP
      obtain h | ⟨-, hj, hr⟩ := h
      · cases h
      simp only at hj
      obtain ⟨l, ps', hl⟩ := hc.before hX hj.symm (hr J (hj ▸ hJ)) hpar
      exact hx (eq_of_before hc.nodup hl)
    exact ((hk.drop (hk.childless hq (fun h => by cases h) id)).put ((s.drop_of_ne hpq).trans hp) hn (hk.full p _ hp))
  | @childless p par j g io hp hn => exact hk.put hp hn (hk.full p _ hp)
  | exit hp => exact hk.exit hp
  | pipe hp =>
    obtain ⟨h1, h2, h3⟩ := hk.put hp (d := .exiting) (hk.childless hp (fun h => by cases h) id) trivial
    exact ⟨h1, h2, h3⟩

/-! ## Runs -/

structure Inv (es : List Event) (s : Table) : Prop where
  kin : Kin s
  chains : ∀ j J, s.jobs j = some J → ∃ ch, Chain s j J.root ch ∧ ∀ t, Rest s ch t → Does J.prog J.io (acts j es ++ t)
  known : ∀ e ∈ es, ∃ J, s.jobs e.job = some J

theorem acts_snoc (j : Nat) (es : List Event) (e : Event) :
    acts j (es ++ [e]) = acts j es ++ (if e.job = j then e.act.toList else []) := by
  rw [acts, List.filterMap_append]
  refine congrArg _ ?_
  by_cases h : e.job = j
  · rw [if_pos h]
    cases ha : e.act with
    | none => simp [h, ha]
    | some a => simp [h, ha]
  · simp [h]

theorem acts_none (h : ∀ e ∈ es, e.job ≠ j) : acts j es = [] := List.filterMap_eq_nil_iff.2 fun e he => if_neg (h e he)

/-- A move keeps the jobs that there are, or begins one with a process of its own. -/
theorem Moves.jobs (hk : Kin s) (h : Moves s e s') : s'.jobs = s.jobs ∧ (∀ k c io, e.act ≠ some (.spawn k c io)) ∨
    ∃ k c io q, s.jobs k = none ∧ e.act = some (.spawn k c io) ∧
    s'.jobs = Function.update s.jobs k (some ⟨.cmd c, io, q⟩) ∧
      (∃ P, s'.procs q = some P ∧ P.ctl = .run (.cmd c) io) ∧ ∀ x, (∃ X, s'.procs x = some X ∧ X.job = k) ↔ x = q := by
  cases h with
  | @back p par j c io q k hp hq hJ =>
    refine .inr ⟨k, c, io, q, hJ, rfl, rfl, ⟨_, Table.put_self .., rfl⟩, fun x => ⟨?_, ?_⟩⟩
    · rintro ⟨X, hX, hj⟩
      by_contra hxq
      have hX := (Table.put_of_ne _ _ hxq).symm.trans hX
      -- nobody was of a job that there was not
      have hjob : ∃ J, s.jobs X.job = some J := by
        by_cases hx : x = p
        · subst hx
          have hX := (Table.put_self s x _).symm.trans hX
          cases hX
          exact hk.jobs x ⟨.run (.cmd (.back c)) io, par, j⟩ hp
        · exact hk.jobs x X ((Table.put_of_ne _ _ hx).symm.trans hX)
      obtain ⟨J, h⟩ := hjob
      rw [hj, hJ] at h
      cases h
    · rintro rfl
      exact ⟨_, Table.put_self .., rfl⟩
  | alone hp ha =>
    refine .inl ⟨rfl, ?_⟩
    rintro k c io h
    simp only at h
    subst h
    cases ha
  | _ => exact .inl ⟨rfl, fun k c io h => by cases h⟩

theorem Inv.step (h : Inv es s) (hm : Moves s e s') : Inv (es ++ [e]) s' := by
  have hch : ∀ j J, s.jobs j = some J → ∃ ch, Chain s j J.root ch := fun j J hJ => by
    obtain ⟨ch, hc, -⟩ := h.chains j J hJ
    exact ⟨ch, hc⟩
  have hold : ∀ j J, s.jobs j = some J → ∃ ch, Chain s' j J.root ch ∧
      ∀ t, Rest s' ch t → Does J.prog J.io (acts j (es ++ [e]) ++ t) := by
    intro j J hJ
    obtain ⟨ch, hc, ht⟩ := h.chains j J hJ
    rw [acts_snoc]
    by_cases hj : e.job = j
    · subst hj
      obtain ⟨ch', hc', ht'⟩ := hm.own h.kin ⟨J, hJ, rfl⟩ hc
      refine ⟨ch', hc', fun t hr => ?_⟩
      rw [if_pos rfl, List.append_assoc]
      exact ht _ (ht' t hr)
    · obtain ⟨hc', ht'⟩ := hc.other (hm.others h.kin) (Ne.symm hj) (by rw [hJ]; exact Option.some_ne_none J)
      refine ⟨ch, hc', fun t hr => ?_⟩
      rw [if_neg hj, List.append_nil]
      exact ht t (ht' t hr)
  have hjob : ∃ J, s.jobs e.job = some J := by
    cases hm with
    | alone hp _ => exact h.kin.jobs _ _ hp
    | fork hp _ _ => exact h.kin.jobs _ _ hp
    | back hp _ _ => exact h.kin.jobs _ _ hp
    | reap hp _ => exact h.kin.jobs _ _ hp
    | childless hp _ => exact h.kin.jobs _ _ hp
    | exit hp => exact h.kin.jobs _ _ hp
    | pipe hp => exact h.kin.jobs _ _ hp
  have hknown : ∀ x ∈ es ++ [e], ∃ J, s.jobs x.job = some J := by
    intro x hx
    obtain hx | hx := List.mem_append.1 hx
    · exact h.known x hx
    · rw [List.mem_singleton.1 hx]
      exact hjob
  obtain ⟨hj, -⟩ | ⟨k, c, io, q, hJ, -, hj, hq, hmem⟩ := hm.jobs h.kin
  · exact ⟨hm.kin h.kin hch, fun j J hJ => hold j J (hj ▸ hJ), fun x hx => hj ▸ hknown x hx⟩
  · have hne : ∀ {j J}, s.jobs j = some J → j ≠ k := by
      rintro j J h rfl
      rw [hJ] at h
      cases h
    refine ⟨hm.kin h.kin hch, ?_, ?_⟩
    · intro j J h1
      by_cases hjk : j = k
      · -- the new job has one process, and has done nothing
        subst hjk
        rw [hj, Function.update_self] at h1
        cases h1
        obtain ⟨P, hP, hctl⟩ := hq
        refine ⟨[q], ⟨?_, List.nodup_singleton q, .singleton q, rfl, ?_⟩, ?_⟩
        · intro x
          rw [List.mem_singleton]
          exact (hmem x).symm
        · intro x X hx hX
          cases hx
          rw [hP] at hX
          cases hX
          rw [hctl]
          exact id
        · rintro t ⟨X, u, v, hX, hu, rfl, rfl⟩
          rw [hP] at hX
          cases hX
          rw [hctl] at hu
          rw [acts_none fun x hx => hne (hknown x hx).choose_spec, List.nil_append, List.append_nil]
          exact hu
      · rw [hj, Function.update_of_ne hjk] at h1
        exact hold j J h1
    · intro x hx
      obtain ⟨J, h1⟩ := hknown x hx
      rw [hj, Function.update_of_ne (hne h1)]
      exact ⟨J, h1⟩

theorem boot_inv (ls : List Input) : Inv [] (boot ls) := by
  have hp : ∀ p P, (boot ls).procs p = some P →
      p = 0 ∧ P = ⟨.run (.lines ls) [some .console, some .console, some .console], none, 0⟩ := by
    intro p P h
    simp only [boot] at h
    split at h
    · next h0 =>
      cases h
      exact ⟨h0, rfl⟩
    · cases h
  have hfull : Full [some .console, some .console, some .console] := ⟨by simp, by simp⟩
  refine ⟨⟨?_, ?_, ?_⟩, ?_, fun e he => (by cases he)⟩
  · intro p P h
    obtain ⟨-, rfl⟩ := hp p P h
    exact ⟨_, rfl⟩
  · intro p P h
    obtain ⟨-, rfl⟩ := hp p P h
    exact hfull
  · intro q Q p h hpar
    obtain ⟨-, rfl⟩ := hp q Q h
    cases hpar
  · intro j J h
    simp only [boot] at h
    split at h
    · next h0 =>
      cases h
      subst h0
      refine ⟨[0], ⟨?_, List.nodup_singleton 0, .singleton 0, rfl, ?_⟩, ?_⟩
      · intro p
        constructor
        · intro h
          rw [List.mem_singleton.1 h]
          exact ⟨_, rfl, rfl⟩
        · rintro ⟨P, h, -⟩
          rw [(hp p P h).1]
          exact List.mem_singleton_self 0
      · intro p P _ h
        rw [(hp p P h).2]
        exact id
      · rintro t ⟨P, u, v, h, hu, rfl, rfl⟩
        rw [(hp 0 P h).2] at hu
        rw [List.append_nil]
        exact hu
    · cases h

theorem inv_run {ls : List Input} (hr : Run Step (boot ls) es s) : Inv es s :=
  hr.invariant_log (fun _ _ _ _ h hs => h.step hs.2) (boot_inv ls)

theorem Rest.exists (h : ∀ x ∈ ch, ∃ P, s.procs x = some P) : ∃ t, Rest s ch t := by
  induction ch with
  | nil => exact ⟨[], rfl⟩
  | cons p ps ih =>
    obtain ⟨P, hP⟩ := h p (List.mem_cons_self ..)
    obtain ⟨u, hu⟩ := Left.exists P.ctl
    obtain ⟨v, hv⟩ := ih fun x hx => h x (List.mem_cons_of_mem _ hx)
    exact ⟨u ++ v, P, u, v, hP, hu, hv, rfl⟩

/-- No process of the job is left but zombies. -/
def Table.Ended (s : Table) (j : Nat) : Prop := ∀ p P, s.procs p = some P → P.job = j → P.ctl = .zombie

theorem Chain.ended {root : Nat} (hc : Chain s j root ch) (he : s.Ended j) : Rest s ch [] := by
  have h : ∀ x ∈ ch, ∃ P, s.procs x = some P ∧ P.ctl = .zombie := by
    intro x hx
    obtain ⟨P, hP, hj⟩ := (hc.mem x).1 hx
    exact ⟨P, hP, he x P hP hj⟩
  clear hc he
  induction ch with
  | nil => rfl
  | cons p ps ih =>
    obtain ⟨P, hP, hz⟩ := h p (List.mem_cons_self ..)
    refine ⟨P, [], [], hP, ?_, ih fun x hx => h x (List.mem_cons_of_mem _ hx), rfl⟩
    rw [hz]
    rfl

/-- A job that has not ended can go on by itself. -/
theorem Chain.progress {root : Nat} (hc : Chain s j root ch) (he : ¬ s.Ended j) : ∃ e s', e.job = j ∧ Moves s e s' := by
  obtain ⟨p, ps, rfl⟩ := List.exists_cons_of_ne_nil hc.ne_nil
  obtain ⟨⟨c, par, j'⟩, hp, rfl⟩ := (hc.mem p).1 (List.mem_cons_self ..)
  have hw : ¬ c.waits := hc.head p _ rfl hp
  cases c with
  | wait => exact absurd trivial hw
  | image => exact ⟨_, _, rfl, .alone hp .done⟩
  | exiting => exact ⟨_, _, rfl, .exit hp⟩
  | zombie =>
    cases ps with
    | nil =>
      refine absurd (fun q Q hQ hj => ?_) he
      obtain rfl := List.mem_singleton.1 ((hc.mem q).2 ⟨Q, hQ, hj⟩)
      rw [hp] at hQ
      cases hQ
      rfl
    | cons y ps =>
      obtain ⟨Q, ⟨cy, pary, jy⟩, hQ, hpar, hY, hwy⟩ := (List.isChain_cons_cons.1 hc.linked).1
      rw [hp] at hQ
      cases hQ
      simp only at hpar
      subst hpar
      obtain ⟨Y, hY', hjy⟩ := (hc.mem y).1 (by simp)
      rw [hY] at hY'
      cases hY'
      cases cy with
      | wait g io => exact ⟨_, _, hjy, .reap hY hp⟩
      | _ => exact hwy.elim
  | run g io =>
    cases g with
    | text r =>
      cases r with
      | ok c => exact ⟨_, _, rfl, .alone hp .parsed⟩
      | error f => exact ⟨_, _, rfl, .alone hp .panic⟩
    | lines ls =>
      cases ls with
      | nil => exact ⟨_, _, rfl, .alone hp .eof⟩
      | cons l ls =>
        cases l with
        | cd dir => exact ⟨_, _, rfl, .alone hp (show Alone _ (some (.cd dir false)) _ from .cd)⟩
        | text r => exact ⟨_, _, rfl, .alone hp .unread⟩
    | cmd c =>
      cases c with
      | exec argv =>
        by_cases h : argv = []
        · subst h
          exact ⟨_, _, rfl, .alone hp .empty⟩
        · exact ⟨_, _, rfl, .alone hp (.failed h)⟩
      | redir c w md => exact ⟨_, _, rfl, .alone hp .refused⟩
      | pipe l r => exact ⟨_, _, rfl, .pipe hp⟩
      | list l r => exact ⟨_, _, rfl, .alone hp .unlisted⟩
      | back c => exact ⟨_, _, rfl, .alone hp .unbacked⟩

/-- The jobs are the shell and those that were started in the background. -/
theorem jobs_run {ls : List Input} (hr : Run Step (boot ls) es s) (j : Nat) (g : Prog) (io : Fds) :
    (∃ root, s.jobs j = some ⟨g, io, root⟩) ↔
      j = 0 ∧ g = .lines ls ∧ io = [some .console, some .console, some .console] ∨
      ∃ c, g = .cmd c ∧ ∃ e ∈ es, e.act = some (.spawn j c io) := by
  induction hr generalizing j g io with
  | nil =>
    simp only [boot, List.not_mem_nil, false_and, exists_false, and_false, or_false]
    constructor
    · rintro ⟨root, h⟩
      split at h
      · next h0 =>
        cases h
        exact ⟨h0, rfl, rfl⟩
      · cases h
    · rintro ⟨rfl, rfl, rfl⟩
      exact ⟨0, rfl⟩
  | @snoc es e t u hr hs ih =>
    obtain ⟨hj, hn⟩ | ⟨k, c, io', q, hJ, ha, hj, -, -⟩ := hs.2.jobs (inv_run hr).kin
    · rw [hj, ih]
      simp [hn]
    · rw [hj]
      by_cases hjk : j = k
      · subst hjk
        have hno : ∀ g io, ¬ ∃ root, t.jobs j = some ⟨g, io, root⟩ := by
          rintro g io ⟨root, h⟩
          rw [hJ] at h
          cases h
        rw [Function.update_self]
        constructor
        · rintro ⟨root, h⟩
          cases h
          exact .inr ⟨c, rfl, e, by simp, ha⟩
        · rintro (h | ⟨c', rfl, e', he', ha'⟩)
          · exact absurd ((ih j g io).2 (.inl h)) (hno g io)
          · obtain he' | he' := List.mem_append.1 he'
            · exact absurd ((ih j _ io).2 (.inr ⟨c', rfl, e', he', ha'⟩)) (hno _ io)
            · rw [List.mem_singleton.1 he', ha] at ha'
              cases ha'
              exact ⟨q, rfl⟩
      · rw [Function.update_of_ne hjk, ih]
        refine or_congr_right (exists_congr fun c' => and_congr_right fun _ => ?_)
        constructor
        · rintro ⟨e', he', h⟩
          exact ⟨e', List.mem_append_left _ he', h⟩
        · rintro ⟨e', he', h⟩
          obtain he' | he' := List.mem_append.1 he'
          · exact ⟨e', he', h⟩
          · rw [List.mem_singleton.1 he', ha] at h
            cases h
            exact absurd rfl hjk

theorem Inv.does (h : Inv es s) (hJ : s.jobs j = some J) :
    (∃ t, Does J.prog J.io (acts j es ++ t)) ∧ (s.Ended j → Does J.prog J.io (acts j es)) ∧
      (¬ s.Ended j → s.halted = false → ∃ e s', e.job = j ∧ Step s e s') := by
  obtain ⟨ch, hc, ht⟩ := h.chains j J hJ
  refine ⟨?_, ?_, ?_⟩
  · obtain ⟨t, h⟩ := Rest.exists fun x hx => by
      obtain ⟨P, hP, -⟩ := (hc.mem x).1 hx
      exact ⟨P, hP⟩
    exact ⟨t, ht t h⟩
  · intro he
    have h := ht [] (hc.ended he)
    rwa [List.append_nil] at h
  · intro he hh
    obtain ⟨e, s', hj, hm⟩ := hc.progress he
    exact ⟨e, s', hj, hh, hm⟩

/-- In every interleaving the jobs are the shell and what it started in the background, and each does, in order,
what it was given: what it has done so far can be completed to what its program means, it is that once its
processes have ended, and until then the job can go on. -/
theorem jobs_do {ls : List Input} (hr : Run Step (boot ls) es s) :
    (∀ j g io, (∃ root, s.jobs j = some ⟨g, io, root⟩) ↔
      j = 0 ∧ g = .lines ls ∧ io = [some .console, some .console, some .console] ∨
      ∃ c, g = .cmd c ∧ ∃ e ∈ es, e.act = some (.spawn j c io)) ∧
    ∀ j J, s.jobs j = some J →
      (∃ t, Does J.prog J.io (acts j es ++ t)) ∧ (s.Ended j → Does J.prog J.io (acts j es)) ∧
        (¬ s.Ended j → s.halted = false → ∃ e s', e.job = j ∧ Step s e s') :=
  ⟨jobs_run hr, fun _ _ hJ => (inv_run hr).does hJ⟩

/-- `a &`: the line has ended for the shell, the command of job 1 is still to come. -/
theorem jobs_do_background : ∃ s,
    Run Step (boot [.text (.ok (.back (.exec [(0, 1)])))])
      [⟨0, 0, none⟩, ⟨1, 0, none⟩,
      ⟨1, 0, some (.spawn 1 (.exec [(0, 1)]) [some .console, some .console, some .console])⟩] s ∧
    (∃ root, s.jobs 1 = some ⟨.cmd (.exec [(0, 1)]), [some .console, some .console, some .console], root⟩) ∧
    ∃ t, Does (.lines [.text (.ok (.back (.exec [(0, 1)])))]) [some .console, some .console, some .console]
      (.spawn 1 (.exec [(0, 1)]) [some .console, some .console, some .console] :: t) := by
  have h1 : Run Step (boot [.text (.ok (.back (.exec [(0, 1)])))]) [⟨0, 0, none⟩] _ :=
    .single ⟨rfl, .fork (p := 0) (q := 1) rfl .line rfl⟩
  have h2 := Run.snoc h1 ⟨rfl, .alone (p := 1) rfl .parsed⟩
  have h3 := Run.snoc h2 ⟨rfl, .back (p := 1) (q := 2) (k := 1) rfl rfl rfl⟩
  refine ⟨_, h3, ?_, ?_⟩
  · exact ((jobs_do h3).1 1 _ _).2 (.inr ⟨_, rfl, _, List.mem_append_right _ (List.mem_singleton_self _), rfl⟩)
  · exact ((jobs_do h3).2 0 _ rfl).1

end TinyOS.Shell
