/-
Any number of semaphores under any interleaving of `sem_p` and `sem_v` calls by at most 63
processes: the counter is exact, its missing units are the waiters, waiters are woken in the order
they blocked, and no wake-up is lost or invented.

The invariant ties the counter, the wait lists and the statuses to a log of what happened; every
step is one call, or the scheduler taking the processor from or giving it to a process.
-/
import TinyOS.Sem.Basic
import TinyOS.Lib.Run

namespace TinyOS.SemRun

open TinyOS.Lib TinyOS.Klib

variable {ι : Type} [DecidableEq ι]

/-- What the current process does next, or which process gets the processor. -/
inductive Event (ι : Type) where
  | semP (x : ι)
  | semV (x : ι)
  | yield
  | dispatch (i : Nat)

/-- What has happened: process `i` calls `sem_p` (`p`), blocks in it, returns from it (`pass`);
`sem_v` is called (`v`) and makes process `i` READY (`wake`). -/
inductive Entry (ι : Type) where
  | p (x : ι) (i : Nat)
  | block (x : ι) (i : Nat)
  | pass (x : ι) (i : Nat)
  | v (x : ι)
  | wake (x : ι) (i : Nat)
  deriving DecidableEq

/-- The system, the `sem_p` call each process is inside of, and the log. -/
structure State (ι : Type) where
  sys : Sys ι
  inside : Nat → Option ι
  log : List (Entry ι)

/-- The processes that a step moves from BLOCKED to READY. -/
def woken (s s' : Sys ι) : List Nat :=
  (List.range procNum).filter fun i => s.status i = .blocked ∧ s'.status i = .ready

/-- One step over the semaphores `xs`. `sem_p` is called by one of the processes 1 .. 63; `sem_v`
also by an interrupt handler, which runs on whatever process is current. -/
def step (xs : List ι) (r : State ι) : Event ι → Option (State ι)
  | .semP x =>
    let i := r.sys.curr
    if x ∈ xs ∧ r.sys.status i = .running ∧ 1 ≤ i ∧ i < procNum then do
      let s ← r.sys.semP x
      if s.status i = .blocked then
        some ⟨s, Function.update r.inside i (some x), r.log ++ [.p x i, .block x i]⟩
      else
        some ⟨s, r.inside, r.log ++ [.p x i, .pass x i]⟩
    else none
  | .semV x =>
    if x ∈ xs ∧ r.sys.status r.sys.curr = .running then do
      let s ← r.sys.semV x
      some ⟨s, r.inside, r.log ++ .v x :: (woken r.sys s).map (.wake x)⟩
    else none
  | .yield =>
    if r.sys.status r.sys.curr = .running then some { r with sys := r.sys.procYield } else none
  | .dispatch i =>
    if r.sys.status r.sys.curr ≠ .running ∧ r.sys.status i = .ready then
      match r.inside i with
      | none => some { r with sys := r.sys.procRun i }
      | some x => some ⟨r.sys.procRun i, Function.update r.inside i none, r.log ++ [.pass x i]⟩
    else none

def Step (xs : List ι) (r : State ι) (e : Event ι) (r' : State ι) : Prop := step xs r e = some r'

/-- `sem_init` of every semaphore of `xs`. -/
def initSems (s : Sys ι) (v0 : ι → Int) (xs : List ι) : Sys ι := xs.foldl (fun s x => s.semInit x (v0 x)) s

def start (s : Sys ι) (v0 : ι → Int) (xs : List ι) : State ι := ⟨initSems s v0 xs, fun _ => none, []⟩

/-! ## Reading the log -/

/-- The processes that called `sem_p` on `x`, blocked in it, returned from it and were woken from
it, each in order, and the number of `sem_v` calls. -/
def callers (x : ι) (log : List (Entry ι)) : List Nat :=
  log.filterMap fun | .p y i => if y = x then some i else none | _ => none

@[inherit_doc callers] def blockers (x : ι) (log : List (Entry ι)) : List Nat :=
  log.filterMap fun | .block y i => if y = x then some i else none | _ => none

@[inherit_doc callers] def passers (x : ι) (log : List (Entry ι)) : List Nat :=
  log.filterMap fun | .pass y i => if y = x then some i else none | _ => none

@[inherit_doc callers] def wakes (x : ι) (log : List (Entry ι)) : List Nat :=
  log.filterMap fun | .wake y i => if y = x then some i else none | _ => none

@[inherit_doc callers] def vCount (x : ι) (log : List (Entry ι)) : Nat := log.count (.v x)

section
variable (x : ι) (l m : List (Entry ι))

@[simp] theorem callers_append : callers x (l ++ m) = callers x l ++ callers x m := List.filterMap_append
@[simp] theorem blockers_append : blockers x (l ++ m) = blockers x l ++ blockers x m := List.filterMap_append
@[simp] theorem passers_append : passers x (l ++ m) = passers x l ++ passers x m := List.filterMap_append
@[simp] theorem wakes_append : wakes x (l ++ m) = wakes x l ++ wakes x m := List.filterMap_append
@[simp] theorem vCount_append : vCount x (l ++ m) = vCount x l + vCount x m := List.count_append

end

/-- The entries of a `sem_v` are no calls of `sem_p`, and block nobody and let nobody pass. -/
theorem callers_semV (x y : ι) (l : List Nat) : callers y (.v x :: l.map (.wake x)) = [] := by
  unfold callers
  induction l with
  | nil => rfl
  | cons a l ih => simp

theorem blockers_semV (x y : ι) (l : List Nat) : blockers y (.v x :: l.map (.wake x)) = [] := by
  unfold blockers
  induction l with
  | nil => rfl
  | cons a l ih => simp

theorem passers_semV (x y : ι) (l : List Nat) : passers y (.v x :: l.map (.wake x)) = [] := by
  unfold passers
  induction l with
  | nil => rfl
  | cons a l ih => simp

theorem vCount_semV (x y : ι) (l : List Nat) : vCount y (.v x :: l.map (.wake x)) = if x = y then 1 else 0 := by
  have hwake : List.count (Entry.v y) (l.map (Entry.wake x)) = 0 := List.count_eq_zero.2 (by simp)
  simp [vCount, List.count_cons, hwake]

theorem wakes_map_wake (x y : ι) (l : List Nat) : wakes x (l.map (.wake y)) = if y = x then l else [] := by
  unfold wakes
  induction l with
  | nil => simp
  | cons a l ih =>
    rw [List.map_cons, List.filterMap_cons, ih]
    split <;> simp_all

/-! ## The invariant -/

/-- The processes inside a `sem_p` call on `x`. -/
def insiders (r : State ι) (x : ι) : List Nat := (List.range procNum).filter fun i => r.inside i = some x

/-- The invariant of every run over the semaphores `xs` with initial values `v0`. -/
structure Inv (xs : List ι) (v0 : ι → Int) (r : State ι) (wait : ι → List Nat) : Prop where
  ok : Sys.WaitOK (· ∈ xs) r.sys wait
  tight : ∀ x ∈ xs, r.sys.Tight wait x
  value : ∀ x ∈ xs, r.sys.value x = v0 x + vCount x r.log - (callers x r.log).length
  inside : ∀ x ∈ xs, ∀ i ∈ wait x, r.inside i = some x
  outside : ∀ i, r.sys.status i = .running → r.inside i = none
  insider : ∀ i x, r.inside i = some x → i < procNum
  fifo : ∀ x ∈ xs, blockers x r.log = wakes x r.log ++ wait x
  passed : ∀ x ∈ xs, (passers x r.log).length + (insiders r x).length = (callers x r.log).length

theorem initSems_cons (s : Sys ι) (v0 : ι → Int) (x : ι) (xs : List ι) :
    initSems s v0 (x :: xs) = initSems (s.semInit x (v0 x)) v0 xs := rfl

theorem initSems_waitOK {s : Sys ι} (hinit : s.lists.inited = false) (hb : ∀ i, s.status i ≠ .blocked)
    (v0 : ι → Int) (x : ι) (xs : List ι) :
    Sys.WaitOK (· ∈ x :: xs) (initSems s v0 (x :: xs)) (fun _ => []) ∧ (initSems s v0 (x :: xs)).status = s.status ∧
      ∀ y ∈ x :: xs, (initSems s v0 (x :: xs)).value y = v0 y := by
  -- the first `list_init` sets up the pool, so the induction starts behind it
  have hfold : ∀ (ys : List ι) (dom : ι → Prop) (s : Sys ι), Sys.WaitOK dom s (fun _ => []) →
      (∀ y, dom y → s.value y = v0 y) →
      Sys.WaitOK (fun y => dom y ∨ y ∈ ys) (initSems s v0 ys) (fun _ => []) ∧ (initSems s v0 ys).status = s.status ∧
        ∀ y, dom y ∨ y ∈ ys → (initSems s v0 ys).value y = v0 y := by
    intro ys
    induction ys with
    | nil => intro dom s hs hv; simpa [initSems] using ⟨hs, hv⟩
    | cons y ys ih =>
      intro dom s hs hv
      have hs' : Sys.WaitOK (fun z => dom z ∨ z = y) (s.semInit y (v0 y)) (fun _ => []) :=
        (hs.semInit (fun _ => rfl) (v0 y)).congr rfl (fun _ => Iff.rfl) fun z _ => by by_cases h : z = y <;> simp [h]
      have hv' : ∀ z, dom z ∨ z = y → (s.semInit y (v0 y)).value z = v0 z := by
        intro z hz
        by_cases h : z = y
        · subst h; simp [Sys.semInit, Sys.setValue]
        · simpa [Sys.semInit, Sys.setValue, h] using hv z (hz.resolve_right h)
      obtain ⟨h1, h2, h3⟩ := ih _ _ hs' hv'
      simp only [initSems_cons, List.mem_cons]
      exact ⟨by simpa only [or_assoc] using h1, h2, by simpa only [or_assoc] using h3⟩
  have hnone : s.lists.inited = true → Queues (fun _ => False) s.lists (fun _ => []) := fun h => by
    rw [hinit] at h; cases h
  have hq := listInit_queues x hnone (fun _ _ => id) (fun h => h.elim)
  have hs : Sys.WaitOK (fun y => False ∨ y = x) (s.semInit x (v0 x)) (fun _ => []) :=
    ⟨hq.congr fun y _ => by by_cases h : y = x <;> simp [h], fun i => by simpa [Sys.semInit, Sys.setValue] using hb i,
      by simp, by simp, by simp⟩
  obtain ⟨h1, h2, h3⟩ := hfold xs (fun y => False ∨ y = x) _ hs (by simp [Sys.semInit, Sys.setValue])
  simp only [false_or] at h1 h3
  simp only [initSems_cons, List.mem_cons]
  exact ⟨h1, h2, h3⟩

theorem start_inv {s : Sys ι} (hinit : s.lists.inited = false) (hb : ∀ i, s.status i ≠ .blocked) {v0 : ι → Int}
    {xs : List ι} (hx : xs ≠ []) (hv : ∀ x ∈ xs, 0 ≤ v0 x) : Inv xs v0 (start s v0 xs) (fun _ => []) := by
  obtain ⟨x, xs, rfl⟩ := List.exists_cons_of_ne_nil hx
  obtain ⟨hok, -, hval⟩ := initSems_waitOK hinit hb v0 x xs
  refine ⟨hok, fun y hy => ?_, fun y hy => ?_, by simp, fun _ _ => rfl, by simp [start], by
    simp [start, blockers, wakes], by simp [start, passers, callers, insiders]⟩
  · have := hv y hy
    simp only [Sys.Tight, start, hval y hy, List.length_nil, Nat.cast_zero]
    omega
  · simpa [start, vCount, callers] using hval y hy

/-! ## One step -/

/-- Processes leave the wait list of a semaphore only into READY, and nobody but its caller moves
when `sem_v` wakes nobody. -/
theorem woken_self (s : Sys ι) (x : ι) (v : Int) : woken s (s.setValue x v) = [] := by
  unfold woken
  rw [List.filter_eq_nil_iff]
  intro i _
  rw [decide_eq_true_eq]
  rintro ⟨h1, h2⟩
  rw [Sys.setValue, h1] at h2
  cases h2

omit [DecidableEq ι] in
theorem woken_update {s s' : Sys ι} {p : Nat} (hp : p < procNum) (hb : s.status p = .blocked)
    (hs : s'.status = Function.update s.status p .ready) : woken s s' = [p] := by
  have : ∀ i, (s.status i = .blocked ∧ s'.status i = .ready) ↔ i = p := by
    intro i
    rw [hs]
    by_cases h : i = p
    · subst h; simpa using hb
    · simp only [Function.update_of_ne h, h, iff_false]
      rintro ⟨h1, h2⟩; rw [h1] at h2; cases h2
  unfold woken
  have hf : ∀ i ∈ List.range procNum, decide (s.status i = .blocked ∧ s'.status i = .ready) = (i == p) := by
    intro i _
    rw [Bool.eq_iff_iff, decide_eq_true_eq, this, beq_iff_eq]
  rw [List.filter_congr hf, List.filter_beq, List.count_range, if_pos hp]
  rfl

/-- Entering `sem_p` adds one process to those inside it, leaving it takes one away. -/
theorem insiders_update (r : State ι) (x : ι) {i : Nat} (hi : i < procNum) (o : Option ι) (s : Sys ι)
    (l : List (Entry ι)) :
    (insiders ⟨s, Function.update r.inside i o, l⟩ x).length + (if r.inside i = some x then 1 else 0) =
      (insiders r x).length + (if o = some x then 1 else 0) := by
  have hcount : ∀ f : Nat → Option ι, ((List.range procNum).filter fun j => f j = some x).length =
      ((List.range procNum).erase i).countP (fun j => f j = some x) + (if f i = some x then 1 else 0) := by
    intro f
    have hperm := List.perm_cons_erase (List.mem_range.2 hi)
    rw [← List.countP_eq_length_filter, hperm.countP_eq, List.countP_cons]
    simp
  have hrest : ((List.range procNum).erase i).countP (fun j => Function.update r.inside i o j = some x) =
      ((List.range procNum).erase i).countP (fun j => r.inside j = some x) := by
    refine List.countP_congr fun j hj => ?_
    have : j ≠ i := fun h => List.Nodup.not_mem_erase List.nodup_range (h ▸ hj)
    simp [this]
  simp only [insiders]
  rw [hcount, hcount, hrest]
  simp only [Function.update_self]
  omega

section
variable {xs : List ι} {v0 : ι → Int} {r r' : State ι} {wait : ι → List Nat}

omit [DecidableEq ι] in
/-- A semaphore whose queue and counter did not change. -/
theorem tight_of_eq {s s' : Sys ι} {w w' : ι → List Nat} {y : ι} (h : s.Tight w y) (hw : w' y = w y)
    (hv : s'.value y = s.value y) : s'.Tight w' y := by
  unfold Sys.Tight; rw [hw, hv]; exact h

theorem step_yield (hI : Inv xs v0 r wait) (hs : Step xs r .yield r') : Inv xs v0 r' wait := by
  simp only [Step, step] at hs
  split at hs
  · rename_i hr
    cases hs
    refine ⟨hI.ok.congr rfl (fun i => ?_) fun _ _ => rfl, hI.tight, hI.value, hI.inside, fun i hi => ?_, hI.insider,
      hI.fifo, hI.passed⟩
    · by_cases h : i = r.sys.curr
      · subst h; simp [Sys.procYield, Sys.setStatus, hr]
      · simp [Sys.procYield, Sys.setStatus, h]
    · by_cases h : i = r.sys.curr
      · subst h; simp [Sys.procYield, Sys.setStatus] at hi
      · simp only [Sys.procYield, Sys.setStatus, Function.update_of_ne h] at hi; exact hI.outside i hi
  · cases hs

theorem step_dispatch (hI : Inv xs v0 r wait) {i : Nat} (hs : Step xs r (.dispatch i) r') : Inv xs v0 r' wait := by
  simp only [Step, step] at hs
  split at hs
  swap
  · cases hs
  rename_i hr
  have hok : Sys.WaitOK (· ∈ xs) (r.sys.procRun i) wait := hI.ok.congr rfl (fun j => by
    by_cases h : j = i
    · subst h; simp [Sys.procRun, Sys.setStatus, hr.2]
    · simp [Sys.procRun, Sys.setStatus, h]) fun _ _ => rfl
  have hrun : ∀ j, (r.sys.procRun i).status j = .running → j = i ∨ r.sys.status j = .running := by
    intro j hj
    by_cases h : j = i
    · exact .inl h
    · simp only [Sys.procRun, Sys.setStatus, Function.update_of_ne h] at hj; exact .inr hj
  -- a READY process is on no wait list
  have hnot : ∀ x ∈ xs, i ∉ wait x := fun x hx hi => by
    have := (hI.ok.blocked i).2 ⟨x, hx, hi⟩
    rw [hr.2] at this; cases this
  cases hin' : r.inside i with
  | none =>
    rw [hin'] at hs
    cases hs
    exact ⟨hok, hI.tight, hI.value, hI.inside, fun j hj => (hrun j hj).elim (fun h => h ▸ hin') (hI.outside j),
      hI.insider, hI.fifo, hI.passed⟩
  | some x =>
    rw [hin'] at hs
    cases hs
    have hi : i < procNum := hI.insider i x hin'
    refine ⟨hok, hI.tight, fun y hy => ?_, fun y hy j hj => ?_, fun j hj => ?_, fun j y hj => ?_, fun y hy => ?_,
      fun y hy => ?_⟩
    · have hv : (r.sys.procRun i).value y = r.sys.value y := rfl
      rw [hv, hI.value y hy]
      simp [vCount, callers]
    · have : j ≠ i := fun h => hnot y hy (h ▸ hj)
      simpa [this] using hI.inside y hy j hj
    · by_cases h : j = i
      · subst h; simp
      · simpa [h] using hI.outside j ((hrun j hj).resolve_left h)
    · by_cases h : j = i
      · exact h ▸ hi
      · exact hI.insider j y (by simpa [h] using hj)
    · simpa [blockers, wakes] using hI.fifo y hy
    · have hins := insiders_update r y hi none (r.sys.procRun i) (r.log ++ [.pass x i])
      have hpass := hI.passed y hy
      have hc : callers y [.pass x i] = [] := rfl
      have hp : (passers y [.pass x i]).length = if x = y then 1 else 0 := by
        simp only [passers, List.filterMap_cons, List.filterMap_nil]; split <;> simp_all
      simp only [hin', Option.some.injEq, reduceCtorEq, if_false] at hins
      rw [callers_append, passers_append, hc, List.length_append, List.append_nil, hp]
      omega

theorem step_semP (hI : Inv xs v0 r wait) {x : ι} (hb : ∀ x ∈ xs, v0 x + vCount x r'.log < 2 ^ 31)
    (hs : Step xs r (.semP x) r') : ∃ wait', Inv xs v0 r' wait' := by
  simp only [Step, step] at hs
  split at hs
  swap
  · cases hs
  rename_i hr
  obtain ⟨hx, hrun, hi⟩ := hr
  obtain ⟨s, hsem, hs⟩ := Option.bind_eq_some_iff.1 hs
  have hout := hI.outside _ hrun
  have hlen := hI.ok.length_le hx
  have ht : ((wait x).length : Int) = max 0 (-r.sys.value x) := hI.tight x hx
  have hval := hI.value x hx
  have hvb : v0 x + vCount x r.log < 2 ^ 31 := by
    have := hb x hx
    split at hs <;> cases hs <;> simpa [vCount] using this
  have h32 : int32 (r.sys.value x - 1) = r.sys.value x - 1 := int32_of_range (by omega) (by omega)
  rcases hI.ok.semP hx hi (by rw [hrun]; simp) hsem with ⟨hv, rfl, hok⟩ | ⟨hv, hc, hst, hva, hok⟩
  · -- a unit is left: the call passes
    rw [if_neg (by simp [Sys.setValue, hrun])] at hs
    cases hs
    rw [h32] at hv
    refine ⟨wait, hok, fun y hy => ?_, fun y hy => ?_, hI.inside, hI.outside, hI.insider, fun y hy => ?_,
      fun y hy => ?_⟩
    · by_cases h : y = x
      · subst h
        simp only [Sys.Tight, Sys.setValue, Function.update_self, h32]; omega
      · exact tight_of_eq (hI.tight y hy) rfl (by simp [Sys.setValue, h])
    · have := hI.value y hy
      by_cases h : y = x
      · subst h
        simp [Sys.setValue, h32, vCount, callers] at this ⊢; omega
      · have h' : x ≠ y := fun e => h e.symm
        simpa [Sys.setValue, h, vCount, callers, h'] using this
    · simpa [blockers, wakes] using hI.fifo y hy
    · have := hI.passed y hy
      by_cases h : x = y
      · subst h; simp [passers, callers, insiders] at this ⊢; omega
      · simpa [passers, callers, insiders, h] using this
  · -- no unit is left: the caller queues behind the other waiters
    rw [if_pos (by rw [hst]; simp)] at hs
    cases hs
    rw [h32] at hv
    refine ⟨_, hok, fun y hy => ?_, fun y hy => ?_, fun y hy j hj => ?_, fun j hj => ?_, fun j y hj => ?_,
      fun y hy => ?_, fun y hy => ?_⟩
    · by_cases h : y = x
      · subst h
        simp only [Sys.Tight, hva, Function.update_self, h32, List.length_append, List.length_singleton,
          Nat.cast_add, Nat.cast_one]
        omega
      · exact tight_of_eq (hI.tight y hy) (by simp [h]) (by simp [hva, h])
    · have := hI.value y hy
      by_cases h : y = x
      · subst h
        simp [hva, h32, vCount, callers] at this ⊢; omega
      · have h' : x ≠ y := fun e => h e.symm
        simpa [hva, h, vCount, callers, h'] using this
    · by_cases h : y = x
      · subst h
        rw [Function.update_self, List.mem_append, List.mem_singleton] at hj
        rcases hj with hj | rfl
        · by_cases hjc : j = r.sys.curr
          · subst hjc; simp
          · simpa [hjc] using hI.inside y hy j hj
        · simp
      · rw [Function.update_of_ne h] at hj
        have hjc : j ≠ r.sys.curr := by
          rintro rfl
          have := hI.inside y hy _ hj
          rw [hout] at this; cases this
        simpa [hjc] using hI.inside y hy j hj
    · rw [hst] at hj
      by_cases h : j = r.sys.curr
      · subst h; simp at hj
      · simpa [h] using hI.outside j (by simpa [h] using hj)
    · by_cases h : j = r.sys.curr
      · exact h ▸ hi.2
      · exact hI.insider j y (by simpa [h] using hj)
    · have := hI.fifo y hy
      by_cases h : y = x
      · subst h; simp [blockers, wakes] at this ⊢; simp [this]
      · have h' : x ≠ y := fun e => h e.symm
        simpa [blockers, wakes, h, h'] using this
    · have hins := insiders_update r y hi.2 (some x) s (r.log ++ [.p x r.sys.curr, .block x r.sys.curr])
      have := hI.passed y hy
      rw [hout] at hins
      by_cases h : x = y
      · subst h; simp [passers, callers] at this hins ⊢; omega
      · simp [passers, callers, h] at this hins ⊢; omega

theorem step_semV (hI : Inv xs v0 r wait) {x : ι} (hb : ∀ x ∈ xs, v0 x + vCount x r'.log < 2 ^ 31)
    (hs : Step xs r (.semV x) r') : ∃ wait', Inv xs v0 r' wait' := by
  simp only [Step, step] at hs
  split at hs
  swap
  · cases hs
  rename_i hr
  obtain ⟨hx, hrun⟩ := hr
  obtain ⟨s, hsem, hs⟩ := Option.bind_eq_some_iff.1 hs
  have hlen := hI.ok.length_le hx
  have ht : ((wait x).length : Int) = max 0 (-r.sys.value x) := hI.tight x hx
  have hval := hI.value x hx
  cases hs
  have hvb : v0 x + vCount x r.log + 1 < 2 ^ 31 := by
    have := hb x hx
    rw [vCount_append, vCount_semV, if_pos rfl] at this
    push_cast at this ⊢; omega
  have h32 : int32 (r.sys.value x + 1) = r.sys.value x + 1 := int32_of_range (by omega) (by omega)
  have hwk : ∀ (y : ι) (l : List Nat), wakes y (.v x :: l.map (Entry.wake x)) = if x = y then l else [] := by
    intro y l; rw [← wakes_map_wake]; rfl
  have hvalue : ∀ y ∈ xs, s.value = Function.update r.sys.value x (r.sys.value x + 1) →
      s.value y = v0 y + vCount y (r.log ++ .v x :: (woken r.sys s).map (.wake x)) -
        (callers y (r.log ++ .v x :: (woken r.sys s).map (.wake x))).length := by
    intro y hy hsv
    have := hI.value y hy
    rw [vCount_append, vCount_semV, callers_append, callers_semV, List.append_nil, hsv]
    by_cases h : y = x
    · subst h; simp; omega
    · have h' : x ≠ y := fun e => h e.symm
      simpa [h, h'] using this
  rcases hI.ok.semV hx hsem with ⟨hv, rfl, hok⟩ | ⟨hv, p, rest, hw, hc, hst, hva, hok⟩
  · rw [h32] at hv
    refine ⟨wait, hok, fun y hy => ?_, fun y hy => ?_, hI.inside, hI.outside, hI.insider, fun y hy => ?_,
      fun y hy => ?_⟩
    · by_cases h : y = x
      · subst h
        simp only [Sys.Tight, Sys.setValue, Function.update_self, h32]; omega
      · exact tight_of_eq (hI.tight y hy) rfl (by simp [Sys.setValue, h])
    · exact hvalue y hy (by simp [Sys.setValue, h32])
    · rw [woken_self, blockers_append, wakes_append, blockers_semV, hwk]
      simpa using hI.fifo y hy
    · rw [passers_append, callers_append, passers_semV, callers_semV, List.append_nil, List.append_nil]
      exact hI.passed y hy
  · rw [h32] at hv
    have hpx : p ∈ wait x := by simp [hw]
    have hpb : r.sys.status p = .blocked := (hI.ok.blocked p).2 ⟨x, hx, hpx⟩
    have hwok := woken_update (hI.ok.procs x hx p hpx).2 hpb hst
    have hsub : ∀ y j, j ∈ Function.update wait x rest y → j ∈ wait y := by
      intro y j hj
      by_cases h : y = x
      · subst h; rw [Function.update_self] at hj; rw [hw]; exact List.mem_cons_of_mem _ hj
      · rwa [Function.update_of_ne h] at hj
    refine ⟨_, hok, fun y hy => ?_, fun y hy => ?_, fun y hy j hj => hI.inside y hy j (hsub y j hj), fun j hj => ?_,
      hI.insider, fun y hy => ?_, fun y hy => ?_⟩
    · by_cases h : y = x
      · subst h
        rw [hw, List.length_cons] at ht
        simp only [Sys.Tight, hva, Function.update_self, h32]
        push_cast at ht; omega
      · exact tight_of_eq (hI.tight y hy) (by simp [h]) (by simp [hva, h])
    · exact hvalue y hy (by rw [hva, h32])
    · rw [hst] at hj
      by_cases h : j = p
      · subst h; simp at hj
      · exact hI.outside j (by simpa [h] using hj)
    · rw [hwok, blockers_append, wakes_append, blockers_semV, hwk]
      have := hI.fifo y hy
      by_cases h : y = x
      · subst h; simp [this, hw]
      · have h' : x ≠ y := fun e => h e.symm
        simpa [h, h'] using this
    · rw [passers_append, callers_append, passers_semV, callers_semV, List.append_nil, List.append_nil]
      exact hI.passed y hy

/-- The step lemma: every event keeps the invariant while the counters stay below `2 ^ 31`. -/
theorem step_inv (e : Event ι) (hI : Inv xs v0 r wait) (hb : ∀ x ∈ xs, v0 x + vCount x r'.log < 2 ^ 31)
    (hs : Step xs r e r') : ∃ wait', Inv xs v0 r' wait' := by
  cases e with
  | semP x => exact step_semP hI hb hs
  | semV x => exact step_semV hI hb hs
  | yield => exact ⟨wait, step_yield hI hs⟩
  | dispatch i => exact ⟨wait, step_dispatch hI hs⟩

/-- The log only grows. -/
theorem step_log {e : Event ι} (hs : Step xs r e r') : r.log <+: r'.log := by
  unfold Step at hs
  cases e with
  | semP x =>
    simp only [step] at hs
    split at hs
    · obtain ⟨s, -, hs⟩ := Option.bind_eq_some_iff.1 hs
      split at hs <;> cases hs <;> exact List.prefix_append _ _
    · cases hs
  | semV x =>
    simp only [step] at hs
    split at hs
    · obtain ⟨s, -, hs⟩ := Option.bind_eq_some_iff.1 hs
      cases hs; exact List.prefix_append _ _
    · cases hs
  | yield =>
    simp only [step] at hs
    split at hs <;> cases hs
    exact List.prefix_refl _
  | dispatch i =>
    simp only [step] at hs
    split at hs
    · split at hs <;> cases hs
      · exact List.prefix_refl _
      · exact List.prefix_append _ _
    · cases hs

/-- The run lemma. -/
theorem run_inv {s : Sys ι} {es : List (Event ι)} (hinit : s.lists.inited = false)
    (hblk : ∀ i, s.status i ≠ .blocked) (hx : xs ≠ []) (hv : ∀ x ∈ xs, 0 ≤ v0 x)
    (hrun : Run (Step xs) (start s v0 xs) es r) (hb : ∀ x ∈ xs, v0 x + vCount x r.log < 2 ^ 31) :
    ∃ wait, Inv xs v0 r wait := by
  induction hrun with
  | nil => exact ⟨_, start_inv hinit hblk hx hv⟩
  | snoc _ hs ih =>
    have hmono := step_log hs
    obtain ⟨wait, hI⟩ := ih fun x hx => by
      have h1 := hb x hx
      have h2 := hmono.sublist.count_le (.v x)
      simp only [vCount] at h1 ⊢
      omega
    exact step_inv _ hI hb hs

end

/-! ## The main result -/

/-- Kernel semaphores lose and invent no wake-up. After `sem_init` of the semaphores `xs` with values
`v0 ≥ 0` and any interleaving of calls, as long as no counter can reach `2 ^ 31`: every value is its
initial value plus the `sem_v` calls minus the `sem_p` calls; the wait lists hold exactly the missing
units; the blocked processes are exactly the waiters, each in one place; waiters were woken in the
order they blocked; no more `sem_p` calls have passed than there were units; and the node pool has an
entry left for every further waiter. -/
theorem sem_exact {xs : List ι} {v0 : ι → Int} {s : Sys ι} {es : List (Event ι)} {r : State ι}
    (hinit : s.lists.inited = false) (hblk : ∀ i, s.status i ≠ .blocked) (hv : ∀ x ∈ xs, 0 ≤ v0 x)
    (hrun : Run (Step xs) (start s v0 xs) es r) (hb : ∀ x ∈ xs, v0 x + vCount x r.log < 2 ^ 31) (hx : xs ≠ []) :
    ∃ wait : ι → List Nat, Queues (· ∈ xs) r.sys.lists wait ∧
      (∀ x ∈ xs, r.sys.value x = v0 x + vCount x r.log - (callers x r.log).length ∧
        ((wait x).length : Int) = max 0 (-r.sys.value x) ∧
        blockers x r.log = wakes x r.log ++ wait x ∧
        ((passers x r.log).length : Int) ≤ v0 x + vCount x r.log) ∧
      (∀ i, r.sys.status i = .blocked ↔ ∃ x ∈ xs, i ∈ wait x) ∧
      (∀ x ∈ xs, (wait x).Nodup) ∧ (∀ x ∈ xs, ∀ y ∈ xs, ∀ i, i ∈ wait x → i ∈ wait y → x = y) ∧
      (∀ n p, r.sys.lists.listEnqueue n p ≠ none) ∧
      ∀ x ∈ xs, v0 x + vCount x r.log + 1 < 2 ^ 31 → r.sys.semV x ≠ none := by
  obtain ⟨wait, hI⟩ := run_inv hinit hblk hx hv hrun hb
  refine ⟨wait, hI.ok.queues, fun x hx => ⟨hI.value x hx, hI.tight x hx, hI.fifo x hx, ?_⟩, fun i => ?_, hI.ok.nodup,
    fun x hx y hy => hI.ok.apart x y hx hy, hI.ok.enqueue_ne_none, fun x hx hlt => ?_⟩
  · -- the waiters are inside their call, so what has passed is at most the calls minus the waiters
    have hsub : (wait x).length ≤ (insiders r x).length := by
      refine ((hI.ok.nodup x hx).subperm fun i hi => ?_).length_le
      simp only [insiders, List.mem_filter, List.mem_range, decide_eq_true_eq]
      exact ⟨(hI.ok.procs x hx i hi).2, hI.inside x hx i hi⟩
    have h1 := hI.passed x hx
    have h2 := hI.value x hx
    have h3 : ((wait x).length : Int) = max 0 (-r.sys.value x) := hI.tight x hx
    omega
  · exact hI.ok.blocked i
  · exact hI.ok.semV_ne_none hx (hI.tight x hx) (by have := hI.value x hx; omega)

/-- Sixty-four READY processes, process 1 running, and a pool nobody has set up. -/
def demo : Sys Unit :=
  ⟨fun i => if i = 1 then .running else .ready, 1, fun _ => 0, ⟨⟨id, id⟩, fun _ => none, false⟩⟩

/-- Process 1 blocks on a semaphore without units and process 2 wakes it. -/
theorem sem_exact_demo :
    ∃ r, Run (Step [()]) (start demo (fun _ => 0) [()]) [.semP (), .dispatch 2, .semV ()] r ∧
      blockers () r.log = [1] ∧
      ∃ wait : Unit → List Nat, Queues (· ∈ [()]) r.sys.lists wait ∧ blockers () r.log = wakes () r.log ++ wait () := by
  have hev : (([.semP (), .dispatch 2, .semV ()] : List (Event Unit)).foldlM (step [()])
      (start demo (fun _ => 0) [()])).any (fun r => vCount () r.log = 1 ∧ blockers () r.log = [1]) = true := by
    decide +kernel
  obtain ⟨r, hr, hlog⟩ := (Option.any_eq_true _ _).1 hev
  rw [decide_eq_true_eq] at hlog
  have hrun := Run.of_foldlM hr
  obtain ⟨wait, hq, hall, -⟩ := sem_exact rfl (by intro i; simp only [demo]; split <;> simp) (by simp) hrun
    (by simp [hlog.1]) (by simp)
  exact ⟨r, hrun, hlog.2, wait, hq, (hall () (by simp)).2.2.1⟩

end TinyOS.SemRun
