/-
Counting semaphores with a queue of waiters, and processes that run P and V statements in any interleaving: the
missing units of a semaphore are with the processes that took them, and its waiters are the units it owes.
-/
import TinyOS.Lib.Count
import TinyOS.Lib.Run

namespace TinyOS.Lib

/-- The value of each semaphore and its waiters, the one that has waited longest first. -/
structure Sems (ι : Type) where
  value : ι → Int
  wait : ι → List Nat

variable {ι Loc : Type} [DecidableEq ι]

namespace Sems

/-- P by process `i`, and whether it blocks. -/
def p (s : Sems ι) (x : ι) (i : Nat) : Sems ι × Bool :=
  if s.value x - 1 < 0 then
    (⟨Function.update s.value x (s.value x - 1), Function.update s.wait x (s.wait x ++ [i])⟩, true)
  else (⟨Function.update s.value x (s.value x - 1), s.wait⟩, false)

/-- V, and who is woken. -/
def v (s : Sems ι) (x : ι) : Option (Sems ι × Option Nat) :=
  if s.value x + 1 ≤ 0 then
    match s.wait x with
    | [] => none
    | j :: r => some (⟨Function.update s.value x (s.value x + 1), Function.update s.wait x r⟩, some j)
  else some (⟨Function.update s.value x (s.value x + 1), s.wait⟩, none)

end Sems

inductive Stmt (ι : Type) where
  | other
  | p (x : ι)
  | v (x : ι)

namespace Stmt

/-- The units that a statement takes from a semaphore. -/
def takes : Stmt ι → ι → Int
  | .other, _ => 0
  | .p x, y => if x = y then 1 else 0
  | .v _, _ => 0

/-- The units that it gives back. -/
def gives : Stmt ι → ι → Int
  | .other, _ => 0
  | .p _, _ => 0
  | .v x, y => if x = y then 1 else 0

variable (x y : ι)

@[simp] theorem takes_other : (Stmt.other : Stmt ι).takes y = 0 := rfl
@[simp] theorem takes_p : (Stmt.p x).takes y = if x = y then 1 else 0 := rfl
@[simp] theorem takes_v : (Stmt.v x).takes y = 0 := rfl
@[simp] theorem gives_other : (Stmt.other : Stmt ι).gives y = 0 := rfl
@[simp] theorem gives_p : (Stmt.p x).gives y = 0 := rfl
@[simp] theorem gives_v : (Stmt.v x).gives y = if x = y then 1 else 0 := rfl

theorem takes_nonneg (st : Stmt ι) : 0 ≤ st.takes x := by
  cases st with
  | other => exact le_refl _
  | p y => rw [takes_p]; split <;> decide
  | v y => exact le_refl _

end Stmt

/-- What `n` processes run: the statement at each location, the location after it, and the semaphores of which
a process has a unit at a location. -/
structure Program (ι Loc : Type) [DecidableEq ι] where
  n : Nat
  stmt : Nat → Loc → Stmt ι
  next : Loc → Loc
  taken : Nat → Loc → List ι
  taken_next : ∀ i l x, ((taken i (next l)).count x : Int) = (taken i l).count x +
    (stmt i l).takes x - (stmt i l).gives x

/-- A process outside P, blocked in it, or woken and yet to return from it. -/
inductive Call where
  | out
  | blocked
  | woken
  deriving DecidableEq

structure Procs (ι Loc : Type) where
  sems : Sems ι
  pc : Nat → Loc
  call : Nat → Call

namespace Program

/-- Process `i` goes on by one statement, or returns from P. -/
def step (P : Program ι Loc) (s : Procs ι Loc) (i : Nat) : Option (Procs ι Loc) :=
  if i < P.n then
    match s.call i with
    | .blocked => none
    | .woken => some { s with pc := Function.update s.pc i (P.next (s.pc i)), call := Function.update s.call i .out }
    | .out =>
      match P.stmt i (s.pc i) with
      | .other => some { s with pc := Function.update s.pc i (P.next (s.pc i)) }
      | .p x =>
        if (s.sems.p x i).2 then some ⟨(s.sems.p x i).1, s.pc, Function.update s.call i .blocked⟩
        else some ⟨(s.sems.p x i).1, Function.update s.pc i (P.next (s.pc i)), s.call⟩
      | .v x => (s.sems.v x).map fun r =>
        ⟨r.1, Function.update s.pc i (P.next (s.pc i)), r.2.elim s.call (Function.update s.call · .woken)⟩
  else none

def Step (P : Program ι Loc) (s : Procs ι Loc) (i : Nat) (s' : Procs ι Loc) : Prop := P.step s i = some s'

/-- The semaphores with their first values, and no process started. -/
def start (cap : ι → Int) (l : Loc) : Procs ι Loc := ⟨⟨cap, fun _ => []⟩, fun _ => l, fun _ => .out⟩

/-- The units of a semaphore that a process has taken, the one it waits for included. -/
def owed (P : Program ι Loc) (s : Procs ι Loc) (i : Nat) (x : ι) : Int :=
  (P.taken i (s.pc i)).count x + if s.call i = .out then 0 else (P.stmt i (s.pc i)).takes x

/-- The waiters of each semaphore are the processes blocked in P on it. -/
structure Queued (P : Program ι Loc) (s : Procs ι Loc) : Prop where
  waiters : ∀ x i, i ∈ s.sems.wait x ↔ i < P.n ∧ s.call i = .blocked ∧ P.stmt i (s.pc i) = .p x
  nodup : ∀ x, (s.sems.wait x).Nodup
  calls : ∀ i, s.call i ≠ .out → ∃ x, P.stmt i (s.pc i) = .p x

structure Inv (P : Program ι Loc) (cap : ι → Int) (s : Procs ι Loc) : Prop extends Queued P s where
  tight : ∀ x, ((s.sems.wait x).length : Int) = max 0 (-s.sems.value x)
  ledger : ∀ x, s.sems.value x = cap x - ∑ i ∈ Finset.range P.n, P.owed s i x

variable {P : Program ι Loc} {cap : ι → Int} {s s' : Procs ι Loc} {i j : Nat} {x y : ι}

theorem owed_nonneg : 0 ≤ P.owed s i x := by
  have := Stmt.takes_nonneg x (P.stmt i (s.pc i))
  unfold owed
  split <;> omega

theorem start_inv {l : Loc} (hl : ∀ i, P.taken i l = []) (hc : ∀ x, 0 ≤ cap x) : P.Inv cap (start cap l) := by
  refine ⟨⟨fun x i => ?_, fun _ => List.nodup_nil, fun i hi => absurd rfl hi⟩, fun x => ?_, fun x => ?_⟩
  · simp [start]
  · have := hc x
    simp only [start, List.length_nil]
    omega
  · have h0 : ∀ i, P.owed (start cap l) i x = 0 := fun i => by simp [owed, start, hl]
    simp only [h0, Finset.sum_const_zero, sub_zero]
    rfl

/-! ## What a step does -/

/-- The four kinds of step: a process moves on, blocks, gives a unit to nobody, or to a waiter. -/
theorem step_cases (h : P.step s i = some s') : i < P.n ∧
    ((s.call i = .woken ∧
    s' = { s with pc := Function.update s.pc i (P.next (s.pc i)), call := Function.update s.call i .out }) ∨
    (s.call i = .out ∧ P.stmt i (s.pc i) = .other ∧ s' = { s with pc := Function.update s.pc i (P.next (s.pc i)) }) ∨
    (∃ x, s.call i = .out ∧ P.stmt i (s.pc i) = .p x ∧ s.sems.value x - 1 < 0 ∧ s' =
      ⟨⟨Function.update s.sems.value x (s.sems.value x - 1), Function.update s.sems.wait x (s.sems.wait x ++ [i])⟩,
        s.pc, Function.update s.call i .blocked⟩) ∨
    (∃ x, s.call i = .out ∧ P.stmt i (s.pc i) = .p x ∧ ¬ s.sems.value x - 1 < 0 ∧ s' =
      ⟨⟨Function.update s.sems.value x (s.sems.value x - 1), s.sems.wait⟩,
        Function.update s.pc i (P.next (s.pc i)), s.call⟩) ∨
    (∃ x j r, s.call i = .out ∧ P.stmt i (s.pc i) = .v x ∧ s.sems.value x + 1 ≤ 0 ∧ s.sems.wait x = j :: r ∧ s' =
      ⟨⟨Function.update s.sems.value x (s.sems.value x + 1), Function.update s.sems.wait x r⟩,
        Function.update s.pc i (P.next (s.pc i)), Function.update s.call j .woken⟩) ∨
    (∃ x, s.call i = .out ∧ P.stmt i (s.pc i) = .v x ∧ ¬ s.sems.value x + 1 ≤ 0 ∧ s' =
      ⟨⟨Function.update s.sems.value x (s.sems.value x + 1), s.sems.wait⟩, Function.update s.pc i (P.next (s.pc i)),
        s.call⟩)) := by
  unfold step at h
  split at h
  case isFalse => cases h
  case isTrue hi =>
    refine ⟨hi, ?_⟩
    cases hc : s.call i with
    | blocked => rw [hc] at h; cases h
    | woken =>
      rw [hc] at h
      exact Or.inl ⟨rfl, (Option.some.inj h).symm⟩
    | out =>
      rw [hc] at h
      refine Or.inr ?_
      cases hst : P.stmt i (s.pc i) with
      | other =>
        simp only [hst] at h
        exact Or.inl ⟨rfl, rfl, (Option.some.inj h).symm⟩
      | p x =>
        simp only [hst, Sems.p] at h
        by_cases hv : s.sems.value x - 1 < 0
        · simp only [if_pos hv] at h
          exact Or.inr (Or.inl ⟨x, rfl, rfl, hv, (Option.some.inj h).symm⟩)
        · simp only [if_neg hv] at h
          exact Or.inr (Or.inr (Or.inl ⟨x, rfl, rfl, hv, (Option.some.inj h).symm⟩))
      | v x =>
        simp only [hst, Sems.v] at h
        by_cases hv : s.sems.value x + 1 ≤ 0
        · simp only [if_pos hv] at h
          cases hw : s.sems.wait x with
          | nil => simp only [hw] at h; cases h
          | cons j r =>
            simp only [hw] at h
            exact Or.inr (Or.inr (Or.inr (Or.inl ⟨x, j, r, rfl, rfl, hv, hw, (Option.some.inj h).symm⟩)))
        · simp only [if_neg hv] at h
          exact Or.inr (Or.inr (Or.inr (Or.inr ⟨x, rfl, rfl, hv, (Option.some.inj h).symm⟩)))

/-! ## The waiters -/

/-- A process that is not blocked moves on. -/
theorem Queued.go {l : Loc} (h : P.Queued s) (hb : s.call i ≠ .blocked) (hw : s'.sems.wait = s.sems.wait)
    (hpc : s'.pc = Function.update s.pc i l) (hcall : s'.call = Function.update s.call i .out) : P.Queued s' := by
  refine ⟨fun x k => ?_, hw ▸ h.nodup, fun k hk => ?_⟩
  · rw [hw, hpc, hcall, h.waiters]
    by_cases hki : k = i
    · subst hki
      rw [Function.update_self]
      exact ⟨fun hc => absurd hc.2.1 hb, fun hc => by cases hc.2.1⟩
    · rw [Function.update_of_ne hki, Function.update_of_ne hki]
  · by_cases hki : k = i
    · subst hki
      rw [hcall, Function.update_self] at hk
      exact absurd rfl hk
    · rw [hcall, Function.update_of_ne hki] at hk
      rw [hpc, Function.update_of_ne hki]
      exact h.calls k hk

theorem Queued.block (h : P.Queued s) (hi : i < P.n) (hc : s.call i = .out) (hx : P.stmt i (s.pc i) = .p x)
    (hw : s'.sems.wait = Function.update s.sems.wait x (s.sems.wait x ++ [i])) (hpc : s'.pc = s.pc)
    (hcall : s'.call = Function.update s.call i .blocked) : P.Queued s' := by
  -- `i` runs, so it is in no queue yet
  have hno : ∀ y, i ∉ s.sems.wait y := fun y hy => by
    have := ((h.waiters y i).1 hy).2.1
    rw [hc] at this
    cases this
  refine ⟨fun y k => ?_, fun y => ?_, fun k hk => ?_⟩
  · rw [hw, hpc, hcall]
    by_cases hki : k = i
    · subst hki
      rw [Function.update_self, hx]
      by_cases hy : y = x
      · subst hy
        rw [Function.update_self]
        exact ⟨fun _ => ⟨hi, rfl, rfl⟩, fun _ => List.mem_append_right _ List.mem_cons_self⟩
      · rw [Function.update_of_ne hy]
        exact ⟨fun hc => absurd hc (hno y), fun hc => absurd (Stmt.p.inj hc.2.2).symm hy⟩
    · rw [Function.update_of_ne hki, ← h.waiters]
      by_cases hy : y = x
      · subst hy
        rw [Function.update_self, List.mem_append, List.mem_singleton]
        exact or_iff_left hki
      · rw [Function.update_of_ne hy]
  · rw [hw]
    by_cases hy : y = x
    · subst hy
      rw [Function.update_self]
      exact List.nodup_append.2 ⟨h.nodup y, List.nodup_singleton _, fun a ha b hb => by
        rw [List.mem_singleton.1 hb]
        rintro rfl
        exact hno y ha⟩
    · rw [Function.update_of_ne hy]
      exact h.nodup y
  · rw [hpc]
    by_cases hki : k = i
    · subst hki
      exact ⟨x, hx⟩
    · rw [hcall, Function.update_of_ne hki] at hk
      exact h.calls k hk

/-- The process that has waited longest is woken. -/
theorem Queued.wake {r : List Nat} (h : P.Queued s) (hj : s.sems.wait x = j :: r)
    (hw : s'.sems.wait = Function.update s.sems.wait x r) (hpc : s'.pc = s.pc)
    (hcall : s'.call = Function.update s.call j .woken) : P.Queued s' := by
  have hnd := h.nodup x
  rw [hj, List.nodup_cons] at hnd
  -- `j` waits at its P of `x`, so it was in no other queue
  have hjx : P.stmt j (s.pc j) = .p x := ((h.waiters x j).1 (hj ▸ List.mem_cons_self)).2.2
  refine ⟨fun y k => ?_, fun y => ?_, fun k hk => ?_⟩
  · rw [hw, hpc, hcall]
    by_cases hkj : k = j
    · subst hkj
      rw [Function.update_self]
      refine ⟨fun hc => ?_, fun hc => by cases hc.2.1⟩
      by_cases hy : y = x
      · subst hy
        rw [Function.update_self] at hc
        exact absurd hc hnd.1
      · rw [Function.update_of_ne hy, h.waiters, hjx] at hc
        exact absurd (Stmt.p.inj hc.2.2).symm hy
    · rw [Function.update_of_ne hkj, ← h.waiters]
      by_cases hy : y = x
      · subst hy
        rw [Function.update_self, hj, List.mem_cons]
        exact (or_iff_right hkj).symm
      · rw [Function.update_of_ne hy]
  · rw [hw]
    by_cases hy : y = x
    · subst hy
      rw [Function.update_self]
      exact hnd.2
    · rw [Function.update_of_ne hy]
      exact h.nodup y
  · rw [hpc]
    by_cases hkj : k = j
    · subst hkj
      exact ⟨x, hjx⟩
    · rw [hcall, Function.update_of_ne hkj] at hk
      exact h.calls k hk

/-! ## The ledger -/

theorem owed_congr (hpc : s'.pc j = s.pc j) (hcall : s'.call j = .out ↔ s.call j = .out) :
    P.owed s' j x = P.owed s j x := by
  unfold owed
  rw [hpc]
  simp only [hcall]

/-- A process goes on from a statement. -/
theorem owed_next (hc : s.call i = .out) (hpc : s'.pc i = P.next (s.pc i)) (hc' : s'.call i = .out) :
    P.owed s' i x = P.owed s i x + (P.stmt i (s.pc i)).takes x - (P.stmt i (s.pc i)).gives x := by
  unfold owed
  rw [hpc, P.taken_next, if_pos hc, if_pos hc', add_zero, add_zero]

/-- A process that was woken returns: the unit it waited for is taken. -/
theorem owed_return (hc : s.call i ≠ .out) (hx : P.stmt i (s.pc i) = .p y) (hpc : s'.pc i = P.next (s.pc i))
    (hc' : s'.call i = .out) : P.owed s' i x = P.owed s i x := by
  unfold owed
  rw [hpc, P.taken_next, if_neg hc, if_pos hc', hx]
  rw [Stmt.gives_p, sub_zero, add_zero]

theorem owed_block (hc : s.call i = .out) (hpc : s'.pc i = s.pc i) (hc' : s'.call i ≠ .out) :
    P.owed s' i x = P.owed s i x + (P.stmt i (s.pc i)).takes x := by
  unfold owed
  rw [hpc, if_pos hc, if_neg hc', add_zero]

/-- The ledger of a step in which only one process owes another number. -/
theorem Inv.ledger_step (h : P.Inv cap s) (hi : i < P.n) (hrest : ∀ k, k ≠ i → P.owed s' k x = P.owed s k x)
    (hv : s'.sems.value x = s.sems.value x - (P.owed s' i x - P.owed s i x)) :
    s'.sems.value x = cap x - ∑ k ∈ Finset.range P.n, P.owed s' k x := by
  rw [sum_one hi hrest, hv, h.ledger]
  omega

/-! ## A step -/

theorem tight_update {value : ι → Int} {wait : ι → List Nat} {w : List Nat} {v : Int}
    (h : ∀ y, ((wait y).length : Int) = max 0 (-value y)) (hx : (w.length : Int) = max 0 (-v)) (y : ι) :
    ((Function.update wait x w y).length : Int) = max 0 (-Function.update value x v y) := by
  by_cases hy : y = x
  · subst hy
    rw [Function.update_self, Function.update_self, hx]
  · rw [Function.update_of_ne hy, Function.update_of_ne hy, h]

theorem tight_same {value : ι → Int} {wait : ι → List Nat} {v : Int}
    (h : ∀ y, ((wait y).length : Int) = max 0 (-value y)) (hx : ((wait x).length : Int) = max 0 (-v)) (y : ι) :
    ((wait y).length : Int) = max 0 (-Function.update value x v y) := by
  have := tight_update (w := wait x) (x := x) h hx y
  rwa [Function.update_eq_self] at this

/-- The change of a value as a number that is 0 at the other semaphores. -/
theorem update_add {value : ι → Int} {d : Int} (y : ι) :
    Function.update value x (value x + d) y = value y + if x = y then d else 0 := by
  by_cases hy : y = x
  · subst hy
    rw [Function.update_self, if_pos rfl]
  · rw [Function.update_of_ne hy, if_neg (Ne.symm hy), add_zero]

theorem Inv.back (h : P.Inv cap s) (hi : i < P.n) (hc : s.call i = .woken) :
    P.Inv cap { s with pc := Function.update s.pc i (P.next (s.pc i)), call := Function.update s.call i .out } := by
  obtain ⟨y, hy⟩ := h.calls i (by rw [hc]; decide)
  refine ⟨h.go (by rw [hc]; decide) rfl rfl rfl, h.tight, fun x => h.ledger_step hi (fun k hk => owed_congr ?_ ?_) ?_⟩
  · exact Function.update_of_ne hk _ _
  · exact iff_of_eq (congrArg (· = _) (Function.update_of_ne hk _ _))
  · rw [owed_return (by rw [hc]; decide) hy (Function.update_self ..) (Function.update_self ..), sub_self, sub_zero]

/-- A process goes on from a statement, and no other is blocked or woken. -/
theorem Inv.move {value : ι → Int} (h : P.Inv cap s) (hi : i < P.n) (hc : s.call i = .out)
    (ht : ∀ x, ((s.sems.wait x).length : Int) = max 0 (-value x))
    (hv : ∀ x, value x = s.sems.value x - (P.stmt i (s.pc i)).takes x + (P.stmt i (s.pc i)).gives x) :
    P.Inv cap ⟨⟨value, s.sems.wait⟩, Function.update s.pc i (P.next (s.pc i)), s.call⟩ := by
  have hcall : s.call = Function.update s.call i .out := by rw [← hc, Function.update_eq_self]
  refine ⟨h.go (by rw [hc]; decide) rfl rfl hcall, ht, fun x => h.ledger_step hi (fun k hk => owed_congr ?_ Iff.rfl) ?_⟩
  · exact Function.update_of_ne hk _ _
  · rw [owed_next hc]
    · show value x = _
      rw [hv]
      omega
    · exact Function.update_self ..
    · exact hc

theorem Inv.block (h : P.Inv cap s) (hi : i < P.n) (hc : s.call i = .out) (hst : P.stmt i (s.pc i) = .p x)
    (hv : s.sems.value x - 1 < 0) : P.Inv cap ⟨⟨Function.update s.sems.value x (s.sems.value x - 1),
      Function.update s.sems.wait x (s.sems.wait x ++ [i])⟩, s.pc, Function.update s.call i .blocked⟩ := by
  have hlen : ((s.sems.wait x ++ [i]).length : Int) = max 0 (-(s.sems.value x - 1)) := by
    have := h.tight x
    rw [List.length_append, List.length_singleton]
    omega
  -- the unit that `i` waits for counts as owed from now on
  refine ⟨h.toQueued.block hi hc hst rfl rfl rfl, tight_update h.tight hlen, fun y => h.ledger_step hi (fun k hk =>
    owed_congr rfl ?_) ?_⟩
  · exact iff_of_eq (congrArg (· = _) (Function.update_of_ne hk _ _))
  · have hin : Function.update s.call i .blocked i ≠ .out := by
      rw [Function.update_self]
      decide
    rw [owed_block hc, hst, Stmt.takes_p]
    · show Function.update s.sems.value x (s.sems.value x + -1) y = _
      rw [update_add]
      split <;> omega
    · rfl
    · exact hin

theorem Inv.wake {r : List Nat} (h : P.Inv cap s) (hi : i < P.n) (hc : s.call i = .out) (hst : P.stmt i (s.pc i) = .v x)
    (hv : s.sems.value x + 1 ≤ 0) (hw : s.sems.wait x = j :: r) :
    P.Inv cap ⟨⟨Function.update s.sems.value x (s.sems.value x + 1), Function.update s.sems.wait x r⟩,
      Function.update s.pc i (P.next (s.pc i)), Function.update s.call j .woken⟩ := by
  have hj : s.call j = .blocked := ((h.waiters x j).1 (hw ▸ List.mem_cons_self)).2.1
  have hji : i ≠ j := fun he => by
    rw [he, hj] at hc
    cases hc
  have hlen : (r.length : Int) = max 0 (-(s.sems.value x + 1)) := by
    have := h.tight x
    rw [hw, List.length_cons] at this
    omega
  -- first the waiter leaves the queue, then the caller goes on
  have hwake : P.Queued ⟨⟨s.sems.value, Function.update s.sems.wait x r⟩, s.pc, Function.update s.call j .woken⟩ :=
    h.toQueued.wake hw rfl rfl rfl
  have hout : Function.update s.call j .woken i = .out := by rw [Function.update_of_ne hji, hc]
  have hnb : Function.update s.call j .woken i ≠ .blocked := by rw [hout]; decide
  refine ⟨hwake.go hnb rfl rfl (by rw [← hout, Function.update_eq_self]), tight_update h.tight hlen,
    fun y => h.ledger_step hi (fun k hk => owed_congr ?_ ?_) ?_⟩
  · exact Function.update_of_ne hk _ _
  · show Function.update s.call j .woken k = .out ↔ s.call k = .out
    by_cases hkj : k = j
    · subst hkj
      rw [Function.update_self, hj]
      decide
    · rw [Function.update_of_ne hkj]
  · rw [owed_next hc, hst, Stmt.takes_v, Stmt.gives_v]
    · show Function.update s.sems.value x (s.sems.value x + 1) y = _
      rw [update_add]
      omega
    · exact Function.update_self ..
    · exact hout

theorem step_inv (h : P.Inv cap s) (hs : P.step s i = some s') : P.Inv cap s' := by
  obtain ⟨hi, hcase⟩ := step_cases hs
  rcases hcase with ⟨hc, rfl⟩ | ⟨hc, hst, rfl⟩ | ⟨x, hc, hst, hv, rfl⟩ | ⟨x, hc, hst, hv, rfl⟩ |
    ⟨x, j, r, hc, hst, hv, hw, rfl⟩ | ⟨x, hc, hst, hv, rfl⟩
  · exact h.back hi hc
  · exact h.move hi hc h.tight fun x => by rw [hst, Stmt.takes_other, Stmt.gives_other, sub_zero, add_zero]
  · exact h.block hi hc hst hv
  · have hlen : ((s.sems.wait x).length : Int) = max 0 (-(s.sems.value x - 1)) := by
      have := h.tight x
      omega
    refine h.move hi hc (tight_same h.tight hlen) fun y => ?_
    rw [hst, Stmt.takes_p, Stmt.gives_p]
    show Function.update s.sems.value x (s.sems.value x + -1) y = _
    rw [update_add]
    split <;> omega
  · exact h.wake hi hc hst hv hw
  · have hlen : ((s.sems.wait x).length : Int) = max 0 (-(s.sems.value x + 1)) := by
      have := h.tight x
      omega
    refine h.move hi hc (tight_same h.tight hlen) fun y => ?_
    rw [hst, update_add, Stmt.takes_v, Stmt.gives_v]
    omega

/-- The ledger holds after every run. -/
theorem run_inv {l : Loc} {es : List Nat} (hl : ∀ i, P.taken i l = []) (hc : ∀ x, 0 ≤ cap x)
    (hr : Run P.Step (start cap l) es s) : P.Inv cap s :=
  hr.invariant (fun _ _ _ h hs => step_inv h hs) (start_inv hl hc)

/-- A process that is not blocked can go on: V finds the waiter that it wakes. -/
theorem Inv.step_isSome (h : P.Inv cap s) (hi : i < P.n) (hb : s.call i ≠ .blocked) : (P.step s i).isSome := by
  unfold step
  rw [if_pos hi]
  cases hc : s.call i with
  | blocked => exact absurd hc hb
  | woken => rfl
  | out =>
    cases hst : P.stmt i (s.pc i) with
    | other => simp only [Option.isSome_some]
    | p x =>
      show (if (s.sems.p x i).2 then _ else _ : Option (Procs ι Loc)).isSome
      split <;> rfl
    | v x =>
      simp only [Option.isSome_map]
      unfold Sems.v
      split
      · next hv =>
        cases hw : s.sems.wait x with
        | nil =>
          -- a value below zero counts the waiters, so the queue is not empty
          have := h.tight x
          rw [hw, List.length_nil] at this
          omega
        | cons j r => rfl
      · rfl

end Program

end TinyOS.Lib
