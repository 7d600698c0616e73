/-
The scheduler. Whenever a program or the idle loop runs, exactly one PCB is RUNNING, the current
one; whenever `schedule` is entered, PCB 0 at the latest is READY, so its search ends; and nobody
becomes READY out of a free PCB or a zombie, except a process that `fork` has just built.
-/
import TinyOS.Proc.Calls

namespace TinyOS.Kernel

open TinyOS.Lib TinyOS.Klib

variable {k k' : Kernel} {G dom : Sema → Prop} {wait : Sema → List Nat} {p q u c n : Nat} {x : Sema} {v : Int}
  {s : Sys Sema} {e : Event} {out : Out}

/-! ## Running and paused -/

/-- One process runs, the current one. -/
structure Runs (k : Kernel) : Prop where
  curr : k.sys.curr < procNum
  running : ∀ p, k.sys.status p = .running ↔ p = k.sys.curr
  idle : k.sys.status 0 = .running ∨ k.sys.status 0 = .ready
  cont : k.cont 0 = .user

/-- No process runs, and PCB 0 is ready to. -/
structure Paused (k : Kernel) : Prop where
  curr : k.sys.curr < procNum
  stopped : ∀ p, k.sys.status p ≠ .running
  idle : k.sys.status 0 = .ready
  cont : k.cont 0 = .user

theorem Runs.status (h : Runs k) : k.sys.status k.sys.curr = .running := (h.running _).2 rfl

theorem Runs.live (h : Runs k) : Live k.sys k.sys.curr := by
  unfold Live
  rw [h.status]
  decide

theorem Runs.idle_ready (h : Runs k) (hc : k.sys.curr ≠ 0) : k.sys.status 0 = .ready :=
  h.idle.resolve_left fun h0 => hc ((h.running 0).1 h0).symm

theorem Runs.congr (h : Runs k) (h1 : k'.sys.curr = k.sys.curr) (h2 : k'.sys.status = k.sys.status)
    (h3 : k'.cont 0 = .user) : Runs k' := by
  refine ⟨h1 ▸ h.curr, fun p => ?_, ?_, h3⟩
  · rw [h1, h2]
    exact h.running p
  · rw [h2]
    exact h.idle

/-- Another process becomes READY. -/
theorem Runs.wake (h : Runs k) (hp : p ≠ k.sys.curr) (h1 : k'.sys.curr = k.sys.curr)
    (h2 : k'.sys.status = Function.update k.sys.status p .ready) (h3 : k'.cont 0 = .user) : Runs k' := by
  refine ⟨h1 ▸ h.curr, fun q => ?_, ?_, h3⟩
  · rw [h1, h2]
    by_cases hq : q = p
    · subst hq
      rw [Function.update_self]
      exact ⟨fun hc => absurd hc (by decide), fun hc => absurd hc hp⟩
    · rw [Function.update_of_ne hq]
      exact h.running q
  · rw [h2]
    by_cases h0 : 0 = p
    · subst h0
      rw [Function.update_self]
      exact Or.inr rfl
    · rw [Function.update_of_ne h0]
      exact h.idle

/-- The current process stops, PCB 0 only for being READY. -/
theorem Runs.pause {st : Status} (h : Runs k) (hst : st ≠ .running) (h0 : k.sys.curr = 0 → st = .ready)
    (h1 : k'.sys.curr = k.sys.curr) (h2 : k'.sys.status = Function.update k.sys.status k.sys.curr st)
    (h3 : k'.cont 0 = .user) : Paused k' := by
  refine ⟨h1 ▸ h.curr, fun p hp => ?_, ?_, h3⟩
  · rw [h2] at hp
    by_cases hpc : p = k.sys.curr
    · rw [hpc, Function.update_self] at hp
      exact hst hp
    · rw [Function.update_of_ne hpc] at hp
      exact hpc ((h.running p).1 hp)
  · rw [h2]
    by_cases hc : 0 = k.sys.curr
    · rw [← hc, Function.update_self]
      exact h0 hc.symm
    · rw [Function.update_of_ne hc]
      exact h.idle_ready (Ne.symm hc)

/-- Another process becomes READY while none runs. -/
theorem Paused.wake (h : Paused k) (h1 : k'.sys.curr = k.sys.curr)
    (h2 : k'.sys.status = Function.update k.sys.status p .ready) (h3 : k'.cont 0 = .user) : Paused k' := by
  refine ⟨h1 ▸ h.curr, fun q hq => ?_, ?_, h3⟩
  · rw [h2] at hq
    by_cases hqp : q = p
    · rw [hqp, Function.update_self] at hq
      cases hq
    · rw [Function.update_of_ne hqp] at hq
      exact h.stopped q hq
  · rw [h2]
    by_cases h0 : 0 = p
    · rw [h0, Function.update_self]
    · rw [Function.update_of_ne h0]
      exact h.idle

/-! ## The search of `schedule` -/

theorem nextProc_lt (h : p < procNum) : nextProc p < procNum := by
  unfold nextProc procNum at *
  split <;> omega

theorem search_some {status : Nat → Status} {n p q : Nat} (h : search status n p = some q) (hp : p < procNum) :
    status q = .ready ∧ q < procNum := by
  induction n generalizing p with
  | zero => cases h
  | succ n ih =>
    unfold search at h
    split at h
    · next hr =>
      cases h
      exact ⟨hr, nextProc_lt hp⟩
    · exact ih h (nextProc_lt hp)

/-- The search comes past PCB `d + p`, cyclically, in round `d`. -/
theorem search_isSome {status : Nat → Status} {d p q : Nat} (hd : q = (p + (d + 1)) % procNum) (hp : p < procNum)
    (hq : status q = .ready) : ∀ {n : Nat}, d < n → ∃ r, search status n p = some r := by
  induction d generalizing p with
  | zero =>
    intro n hn
    obtain ⟨n, rfl⟩ : ∃ m, n = m + 1 := ⟨n - 1, by omega⟩
    have hnext : nextProc p = q := by
      unfold nextProc procNum at *
      split <;> omega
    unfold search
    rw [hnext, if_pos hq]
    exact ⟨q, rfl⟩
  | succ d ih =>
    intro n hn
    obtain ⟨n, rfl⟩ : ∃ m, n = m + 1 := ⟨n - 1, by omega⟩
    unfold search
    split
    · exact ⟨_, rfl⟩
    · refine ih ?_ (nextProc_lt hp) (by omega)
      unfold nextProc procNum at *
      split <;> omega

/-- With some PCB READY the search ends within `PROC_NUM` rounds. -/
theorem search_ends {status : Nat → Status} (hp : p < procNum) (hq : q < procNum) (hr : status q = .ready) :
    ∃ r, search status procNum p = some r := by
  refine search_isSome (d := (q + procNum - p - 1) % procNum) ?_ hp hr ?_
  · unfold procNum at *
    omega
  · exact Nat.mod_lt _ (by decide)

/-- `schedule` picks a READY process, which then is the only one that runs. -/
theorem Paused.schedule (h : Paused k) : ∃ q, search k.sys.status procNum k.sys.curr = some q ∧
    k.sys.status q = .ready ∧ q < procNum ∧ k.schedule = some { k with sys := k.sys.procRun q } ∧
    Runs { k with sys := k.sys.procRun q } := by
  obtain ⟨q, hq⟩ := search_ends h.curr (q := 0) (by decide) h.idle
  obtain ⟨hr, hlt⟩ := search_some hq h.curr
  refine ⟨q, hq, hr, hlt, ?_, ⟨hlt, fun p => ?_, ?_, h.cont⟩⟩
  · unfold Kernel.schedule
    rw [hq]
    rfl
  · show Function.update k.sys.status q .running p = .running ↔ p = q
    by_cases hpq : p = q
    · rw [hpq, Function.update_self]
      exact ⟨fun _ => rfl, fun _ => rfl⟩
    · rw [Function.update_of_ne hpq]
      exact ⟨fun hc => absurd hc (h.stopped p), fun hc => absurd hc hpq⟩
  · show Function.update k.sys.status q .running 0 = .running ∨ _
    by_cases h0 : 0 = q
    · rw [← h0, Function.update_self]
      exact Or.inl rfl
    · refine Or.inr ?_
      show Function.update k.sys.status q .running 0 = .ready
      rw [Function.update_of_ne h0]
      exact h.idle

theorem Waits.schedule (h : Waits G dom wait k) (hs : k.sys.status q = .ready) (hq : q < procNum) :
    Waits G dom wait { k with sys := k.sys.procRun q } := by
  refine h.status (s := k.sys.procRun q) (p := q) rfl rfl rfl (by rw [hs]; decide) (by decide)
    (Or.inl ?_) fun _ => h.zombie q hq (by rw [hs]; decide)
  unfold Live Sys.procRun Sys.setStatus
  simp only [hs, Function.update_self]
  decide

/-! ## The kernel from entry to exit -/

/-- How `handle` leaves the processes. -/
def Left (k : Kernel) : Out → Prop
  | .back => Runs k
  | .switch => Paused k

/-- Who is READY was so before, or ran, or was blocked. -/
def Quiet (k k' : Kernel) : Prop := ∀ p, k'.sys.status p = .ready →
  k.sys.status p = .ready ∨ k.sys.status p = .running ∨ k.sys.status p = .blocked

theorem Quiet.of_eq (h : k'.sys.status = k.sys.status) : Quiet k k' := fun p hp => Or.inl (by rw [← h]; exact hp)

/-- One status changes, and not from nothing to READY. -/
theorem Quiet.of_update {st : Status} (h : k'.sys.status = Function.update k.sys.status p st)
    (hst : st = .ready → k.sys.status p = .running ∨ k.sys.status p = .blocked) : Quiet k k' := by
  intro q hq
  rw [h] at hq
  by_cases hqp : q = p
  · rw [hqp, Function.update_self] at hq
    rw [hqp]
    exact Or.inr (hst hq)
  · rw [Function.update_of_ne hqp] at hq
    exact Or.inl hq

theorem Quiet.trans_eq (h : Quiet k k') {k₀ : Kernel} (h0 : k.sys.status = k₀.sys.status) : Quiet k₀ k' := by
  intro p hp
  rw [← h0]
  exact h p hp

/-- What an event may do while the semaphores in `G` count exactly: it opens none of them with less
than nothing, and brings none to its upper end. -/
def Fits (G : Sema → Prop) (k : Kernel) : Event → Prop
  | .semOpen value => ∀ u, G (.user u) → 0 ≤ int32 value
  | .semV id => ∀ u, k.procGetusem k.sys.curr (int32 id) = some u → G (.user u) → k.sys.value (.user u) + 1 < 2 ^ 31
  | .exit _ => ∀ q, (k.pcb k.sys.curr).parent = some q → G (.zombie q) → k.sys.value (.zombie q) + 1 < 2 ^ 31
  | .serial _ => ¬ G .serial
  | _ => True

/-- Nothing is required of the events where no semaphore has to count exactly. -/
theorem fits_none : Fits (fun _ => False) k e := by
  cases e with
  | semOpen value => exact fun u hg => hg.elim
  | semV id => exact fun u _ hg => hg.elim
  | exit status => exact fun q _ hg => hg.elim
  | serial bytes => exact id
  | _ => trivial

/-- The outcome of a call of the current process. -/
def Done (G : Sema → Prop) (k k' : Kernel) (out : Out) : Prop :=
  (∃ dom wait, Waits G dom wait k') ∧ Left k' out ∧ Quiet k k'

theorem Done.back_same (h : Waits G dom wait k') (hr : Runs k) (h1 : k'.sys.curr = k.sys.curr)
    (h2 : k'.sys.status = k.sys.status) (h3 : k'.cont 0 = .user) : Done G k k' .back :=
  ⟨⟨dom, wait, h⟩, hr.congr h1 h2 h3, Quiet.of_eq h2⟩

theorem back_cont {r : Reply} (h : k.cont 0 = .user) : (k.back r).cont 0 = .user := by
  unfold Kernel.back
  simp only [Function.update_apply, h, ite_self]

theorem setCont_zero {r : Cont} (h : k.cont 0 = .user) (hp : p ≠ 0) : (k.setCont p r).cont 0 = .user := by
  unfold Kernel.setCont
  simp only [Function.update_of_ne (Ne.symm hp), h]

/-- `proc_yield`. -/
theorem Runs.yield (hr : Runs k) (h : Waits G dom wait k) : Waits G dom wait k.sysYield ∧ Paused k.sysYield ∧
    Quiet k k.sysYield := by
  refine ⟨?_, hr.pause (by decide) (fun _ => rfl) rfl rfl hr.cont,
    Quiet.of_update (p := k.sys.curr) rfl fun _ => Or.inl hr.status⟩
  refine h.status (s := k.sys.procYield) (p := k.sys.curr) rfl rfl rfl (by rw [hr.status]; decide) (by decide)
    (Or.inl ?_) fun _ => h.zombie _ hr.curr (by rw [hr.status]; decide)
  unfold Live Sys.procYield Sys.setStatus
  simp only [hr.status, Function.update_self]
  decide

theorem sysSleep_done {cur ticks : Nat} (h : Waits G dom wait k) (hr : Runs k) (hc : k.sys.curr ≠ 0)
    (he : k.sysSleep cur ticks = (k', out)) : Done G k k' out := by
  obtain ⟨h1, h2, h3⟩ := hr.yield h
  unfold Kernel.sysSleep at he
  split at he
  · cases he
    exact ⟨⟨dom, wait, h1.setCont⟩, ⟨h2.curr, h2.stopped, h2.idle, setCont_zero h2.cont hc⟩, h3⟩
  · cases he
    exact Done.back_same h.setCont hr rfl rfl (setCont_zero hr.cont hc)

/-- Taking a unit, or blocking. -/
theorem semP_done (h : Waits G dom wait k) (hr : Runs k) (hc : k.sys.curr ≠ 0) (hx : dom x)
    (hm : k.MayWait k.sys.curr x) (hs : k.sys.semP x = some s) :
    (s.status = k.sys.status ∧ Done G k { k with sys := s } .back) ∨
      (s.status k.sys.curr = .blocked ∧ Done G k { k with sys := s } .switch) := by
  obtain ⟨h1, ⟨h2, h3⟩ | ⟨h2, h3⟩⟩ := h.semP hx ⟨Nat.pos_of_ne_zero hc, hr.curr⟩ hr.status hm hs
  · exact Or.inl ⟨h2, Done.back_same h3 hr h1 h2 hr.cont⟩
  · exact Or.inr ⟨by rw [h2, Function.update_self], ⟨dom, _, h3⟩,
      hr.pause (by decide) (fun h0 => absurd h0 hc) h1 h2 hr.cont,
      Quiet.of_update (p := k.sys.curr) h2 fun hb => by cases hb⟩

theorem semP_curr (hs : k.sys.semP x = some s) : s.curr = k.sys.curr := by
  rcases Sys.semP_cases hs with ⟨-, rfl⟩ | ⟨-, l, -, rfl⟩
  · rfl
  · rfl

/-- Neither the reply nor the place to go on matters to anybody else. -/
theorem Done.back {r : Reply} (h : Done G k k' out) : Done G k (k'.back r) out := by
  obtain ⟨⟨dom, wait, h1⟩, h2, h3⟩ := h
  refine ⟨⟨dom, wait, h1.back⟩, ?_, h3⟩
  cases out with
  | back => exact Runs.congr h2 rfl rfl (back_cont h2.cont)
  | switch => exact ⟨h2.curr, h2.stopped, h2.idle, back_cont h2.cont⟩

theorem Done.setCont {r : Cont} (h : Done G k k' out) (hp : p ≠ 0) : Done G k (k'.setCont p r) out := by
  obtain ⟨⟨dom, wait, h1⟩, h2, h3⟩ := h
  refine ⟨⟨dom, wait, h1.setCont⟩, ?_, h3⟩
  cases out with
  | back => exact Runs.congr h2 rfl rfl (setCont_zero h2.cont hp)
  | switch => exact ⟨h2.curr, h2.stopped, h2.idle, setCont_zero h2.cont hp⟩

/-- A call that goes on after a first part that changed no status. -/
theorem Done.after {k₀ : Kernel} (h : Done G k k' out) (h0 : k.sys.status = k₀.sys.status) : Done G k₀ k' out :=
  ⟨h.1, h.2.1, h.2.2.trans_eq h0⟩

theorem popFront_eq : k.popFront.2.sys = k.sys ∧ k.popFront.2.pcb = k.pcb ∧ k.popFront.2.ref = k.ref ∧
    k.popFront.2.cont = k.cont := by
  unfold Kernel.popFront
  split <;> exact ⟨rfl, rfl, rfl, rfl⟩

theorem getcharRest_eq {ch : UInt8} (h : k.getcharRest = some (ch, k')) :
    k'.sys = k.sys ∧ k'.pcb = k.pcb ∧ k'.ref = k.ref ∧ k'.cont = k.cont := by
  have hk : (if k.popFront.1 = 0 then none else some k.popFront) = some (ch, k') := h
  by_cases h0 : k.popFront.1 = 0
  · rw [if_pos h0] at hk
    cases hk
  · rw [if_neg h0, Option.some.injEq] at hk
    have := popFront_eq (k := k)
    rw [hk] at this
    exact this

theorem serialRead_done : ∀ {n : Nat} {got : List UInt8} {k : Kernel} {dom : Sema → Prop}
    {wait : Sema → List Nat}, Waits G dom wait k → Runs k → k.sys.curr ≠ 0 → serialRead n got k = some (k', out) →
    Done G k k' out
  | 0, got, k, dom, wait, h, hr, hc, he => by
    cases he
    exact (Done.back_same h hr rfl rfl hr.cont).back
  | n + 1, got, k, dom, wait, h, hr, hc, he => by
    unfold serialRead at he
    obtain ⟨s, hs, he⟩ := Option.bind_eq_some_iff.1 he
    rcases semP_done h hr hc h.serial trivial hs with ⟨h1, ⟨dom', wait', hw⟩, hrun, -⟩ | ⟨h1, h2⟩
    · rw [if_neg (by rw [h1, hr.status]; decide)] at he
      obtain ⟨⟨ch, k₁⟩, hg, he⟩ := Option.bind_eq_some_iff.1 he
      obtain ⟨e1, e2, e3, e4⟩ := getcharRest_eq hg
      have hw₁ : Waits G dom' wait' k₁ := hw.congr e1 e2 e3
      have hrun₁ : Runs k₁ := Runs.congr hrun (by rw [e1]) (by rw [e1]) (by rw [e4]; exact hr.cont)
      have hst : k₁.sys.status = k.sys.status := by rw [e1]; exact h1
      by_cases hch : ch = 10
      · simp only [if_pos hch, Option.some.injEq, Prod.mk.injEq] at he
        obtain ⟨rfl, rfl⟩ := he
        exact (Done.back_same hw₁ hrun₁ rfl rfl hrun₁.cont).back.after hst
      · simp only [if_neg hch] at he
        exact (serialRead_done hw₁ hrun₁ (by rw [e1, semP_curr hs]; exact hc) he).after hst
    · rw [if_pos h1] at he
      cases he
      exact h2.setCont hc

/-! ## Waking -/

/-- All that happened is that some blocked processes became READY. -/
def Woke (s s' : Sys Sema) : Prop :=
  s'.curr = s.curr ∧ ∀ p, s'.status p = s.status p ∨ (s.status p = .blocked ∧ s'.status p = .ready)

theorem Woke.trans {s₁ s₂ s₃ : Sys Sema} (h : Woke s₁ s₂) (h' : Woke s₂ s₃) : Woke s₁ s₃ := by
  refine ⟨h'.1.trans h.1, fun p => ?_⟩
  rcases h'.2 p with h2 | ⟨h2, h3⟩
  · rw [h2]
    exact h.2 p
  · rcases h.2 p with h1 | ⟨h1, -⟩
    · exact Or.inr ⟨h1 ▸ h2, h3⟩
    · exact Or.inr ⟨h1, h3⟩

theorem Woke.runs (h : Woke k.sys k'.sys) (hr : Runs k) (hc : k'.cont 0 = .user) : Runs k' := by
  refine ⟨h.1 ▸ hr.curr, fun p => ?_, ?_, hc⟩
  · rw [h.1, ← hr.running p]
    rcases h.2 p with h1 | ⟨h1, h2⟩
    · rw [h1]
    · rw [h1, h2]
      decide
  · rcases h.2 0 with h1 | ⟨-, h2⟩
    · rw [h1]
      exact hr.idle
    · exact Or.inr h2

theorem Woke.live {s s' : Sys Sema} (h : Woke s s') (hp : Live s p) : Live s' p := by
  unfold Live at hp ⊢
  rcases h.2 p with h1 | ⟨-, h1⟩
  · rw [h1]
    exact hp
  · rw [h1]
    decide

theorem Woke.quiet (h : Woke k.sys k'.sys) : Quiet k k' := by
  intro p hp
  rcases h.2 p with h1 | ⟨h1, -⟩
  · exact Or.inl (by rw [← h1]; exact hp)
  · exact Or.inr (Or.inr h1)

theorem Waits.woke (h : Waits G dom wait k) (hx : dom x) (hb : G x → k.sys.value x + 1 < 2 ^ 31)
    (hs : k.sys.semV x = some s) : Woke k.sys s ∧ ∃ wait', Waits G dom wait' { k with sys := s } ∧
    Fewer wait' wait := by
  obtain ⟨h1, wait', h2, hf, h3 | ⟨p, hp, h3⟩⟩ := h.semV hx hb hs
  · exact ⟨⟨h1, fun q => Or.inl (by rw [h3])⟩, wait', h2, hf⟩
  · refine ⟨⟨h1, fun q => ?_⟩, wait', h2, hf⟩
    rw [h3]
    by_cases hq : q = p
    · rw [hq, Function.update_self]
      exact Or.inr ⟨hp, rfl⟩
    · rw [Function.update_of_ne hq]
      exact Or.inl rfl

theorem Done.of_woke (h : Waits G dom wait k') (hr : Runs k) (hw : Woke k.sys k'.sys) (hc : k'.cont = k.cont) :
    Done G k k' .back :=
  ⟨⟨dom, wait, h⟩, hw.runs hr (by rw [hc]; exact hr.cont), hw.quiet⟩

/-- `sem_v` on the serial line, any number of times. -/
theorem serialV_woke (hG : ¬ G .serial) : ∀ {l : List Nat} {k : Kernel} {wait : Sema → List Nat} {s : Sys Sema},
    Waits G dom wait k → l.foldlM (fun s _ => s.semV .serial) k.sys = some s →
    Woke k.sys s ∧ ∃ wait', Waits G dom wait' { k with sys := s }
  | [], k, wait, s, h, hs => by
    cases hs
    exact ⟨⟨rfl, fun _ => Or.inl rfl⟩, wait, h⟩
  | _ :: l, k, wait, s, h, hs => by
    rw [List.foldlM_cons] at hs
    obtain ⟨s₁, h1, hs⟩ := Option.bind_eq_some_iff.1 hs
    obtain ⟨h2, wait₁, h3, -⟩ := h.woke h.serial (fun hg => absurd hg hG) h1
    obtain ⟨h4, wait', h5⟩ := serialV_woke (l := l) hG h3 hs
    exact ⟨h2.trans h4, wait', h5⟩

theorem pushBack_woke {ch : UInt8} (hG : ¬ G .serial) (h : Waits G dom wait k) (he : k.pushBack ch = some k') :
    Woke k.sys k'.sys ∧ k'.cont = k.cont ∧ ∃ wait', Waits G dom wait' k' := by
  unfold Kernel.pushBack at he
  simp only at he
  split at he
  · obtain ⟨s, hs, hk⟩ := Option.bind_eq_some_iff.1 he
    cases hk
    obtain ⟨h1, wait', h2⟩ := serialV_woke hG h hs
    exact ⟨h1, rfl, wait', h2.congr rfl rfl rfl⟩
  · cases he
    exact ⟨⟨rfl, fun _ => Or.inl rfl⟩, rfl, wait, h.congr rfl rfl rfl⟩

theorem popBack_eq : k.popBack.2.sys = k.sys ∧ k.popBack.2.pcb = k.pcb ∧ k.popBack.2.ref = k.ref ∧
    k.popBack.2.cont = k.cont := by
  unfold Kernel.popBack
  split <;> exact ⟨rfl, rfl, rfl, rfl⟩

theorem serialHandle_woke (hG : ¬ G .serial) : ∀ {l : List UInt8} {k : Kernel} {wait : Sema → List Nat},
    Waits G dom wait k → serialHandle l k = some k' → Woke k.sys k'.sys ∧ k'.cont = k.cont ∧ ∃ wait',
    Waits G dom wait' k'
  | [], k, wait, h, he => by
    cases he
    exact ⟨⟨rfl, fun _ => Or.inl rfl⟩, rfl, wait, h⟩
  | ch :: rest, k, wait, h, he => by
    -- a byte that is kept goes through `pushBack`, the others change at most the buffer
    have hpush : ∀ {c : UInt8}, (k.pushBack c).bind (serialHandle rest) = some k' →
        Woke k.sys k'.sys ∧ k'.cont = k.cont ∧ ∃ wait', Waits G dom wait' k' := by
      intro c hb
      obtain ⟨k₁, h1, h2⟩ := Option.bind_eq_some_iff.1 hb
      obtain ⟨h3, h4, wait₁, h5⟩ := pushBack_woke hG h h1
      obtain ⟨h6, h7, h8⟩ := serialHandle_woke (l := rest) hG h5 h2
      exact ⟨h3.trans h6, h7.trans h4, h8⟩
    have hback : serialHandle rest k.popBack.2 = some k' →
        Woke k.sys k'.sys ∧ k'.cont = k.cont ∧ ∃ wait', Waits G dom wait' k' := by
      intro hb
      obtain ⟨e1, e2, e3, e4⟩ := popBack_eq (k := k)
      obtain ⟨h1, h2, h3⟩ := serialHandle_woke (l := rest) hG (h.congr e1 e2 e3) hb
      rw [e1] at h1
      rw [e4] at h2
      exact ⟨h1, h2, h3⟩
    unfold serialHandle at he
    split at he
    · exact serialHandle_woke (l := rest) hG h he
    · split at he
      · cases he
        exact ⟨⟨rfl, fun _ => Or.inl rfl⟩, rfl, wait, h⟩
      · split at he
        · exact hback he
        · simp only [Option.bind_eq_bind] at he
          generalize (if ch = 13 then (10 : UInt8) else ch) = c at he
          split at he
          · exact hpush he
          · exact serialHandle_woke (l := rest) hG h he

/-! ## Each system call -/

theorem waitRest_done (h : Waits G dom wait k) (hr : Runs k) (he : k.waitRest = some k') : Done G k k' .back := by
  have h' := h.waitRest hr.curr he
  unfold Kernel.waitRest at he
  obtain ⟨z, hz, he⟩ := Option.bind_eq_some_iff.1 he
  obtain ⟨hlt, -, hst⟩ := procFindzombie_some hz
  have hne : z ≠ k.sys.curr := fun hc => by
    rw [hc, hr.status] at hst
    cases hst
  have hfree : k.procFree z = { k with sys := k.sys.setStatus z .unused } := by
    unfold Kernel.procFree
    rw [if_neg (by rw [hst]; decide)]
  have hq : Quiet k (k.procFree z) := by
    rw [hfree]
    exact Quiet.of_update (p := z) rfl fun hc => by cases hc
  have hrun : Runs (k.procFree z) := by
    rw [hfree]
    refine ⟨hr.curr, fun p => ?_, ?_, hr.cont⟩
    · show Function.update k.sys.status z .unused p = .running ↔ p = k.sys.curr
      by_cases hp : p = z
      · rw [hp, Function.update_self]
        exact ⟨fun hc => absurd hc (by decide), fun hc => absurd hc hne⟩
      · rw [Function.update_of_ne hp]
        exact hr.running p
    · have h0 : 0 ≠ z := fun hc => by
        rw [← hc] at hst
        rcases hr.idle with h0 | h0 <;> rw [hst] at h0 <;> cases h0
      show Function.update k.sys.status z .unused 0 = .running ∨ Function.update k.sys.status z .unused 0 = .ready
      rw [Function.update_of_ne h0]
      exact hr.idle
  cases he
  exact ⟨⟨dom, wait, h'⟩, hrun.congr rfl rfl (back_cont hrun.cont), hq⟩

theorem sysWait_done (h : Waits G dom wait k) (hr : Runs k) (hc : k.sys.curr ≠ 0) (he : k.sysWait = some (k', out)) :
    Done G k k' out := by
  unfold Kernel.sysWait at he
  simp only at he
  by_cases h0 : (k.pcb k.sys.curr).childNum = 0
  · rw [if_pos h0] at he
    cases he
    exact (Done.back_same h hr rfl rfl hr.cont).back
  · rw [if_neg h0] at he
    obtain ⟨s, hs, he⟩ := Option.bind_eq_some_iff.1 he
    have hx : dom (.zombie k.sys.curr) := h.zombie _ hr.curr (by rw [hr.status]; decide)
    rcases semP_done h hr hc hx rfl hs with ⟨h1, ⟨dom', wait', hw⟩, hrun, -⟩ | ⟨h1, h2⟩
    · rw [if_neg (by rw [h1, hr.status]; decide)] at he
      obtain ⟨k₁, hk, he⟩ := Option.bind_eq_some_iff.1 he
      cases he
      exact (waitRest_done hw hrun hk).after h1
    · rw [if_pos h1] at he
      cases he
      exact h2.setCont hc

theorem sysSemP_done {id : Int} (h : Waits G dom wait k) (hr : Runs k) (hc : k.sys.curr ≠ 0)
    (he : k.sysSemP id = some (k', out)) : Done G k k' out := by
  unfold Kernel.sysSemP at he
  simp only at he
  split at he
  · cases he
    exact (Done.back_same h hr rfl rfl hr.cont).back
  · next u hu =>
    obtain ⟨s, hs, he⟩ := Option.bind_eq_some_iff.1 he
    obtain ⟨-, hj, hus⟩ := procGetusem_some hu
    have hx : dom (.user u) := h.dom_user hr.curr hr.live ⟨_, hj, hus⟩
    cases he
    rcases semP_done h hr hc hx ⟨_, hj, hus⟩ hs with ⟨h1, h2⟩ | ⟨h1, h2⟩
    · rw [if_neg (by rw [h1, hr.status]; decide)]
      exact h2.back
    · rw [if_pos h1]
      exact h2.back

theorem sysSemV_done {id : Int} (h : Waits G dom wait k) (hr : Runs k)
    (hb : ∀ u, k.procGetusem k.sys.curr id = some u → G (.user u) → k.sys.value (.user u) + 1 < 2 ^ 31)
    (he : k.sysSemV id = some k') : Done G k k' .back := by
  unfold Kernel.sysSemV at he
  split at he
  · cases he
    exact (Done.back_same h hr rfl rfl hr.cont).back
  · next u hu =>
    obtain ⟨s, hs, he⟩ := Option.bind_eq_some_iff.1 he
    obtain ⟨-, hj, hus⟩ := procGetusem_some hu
    have hx : dom (.user u) := h.dom_user hr.curr hr.live ⟨_, hj, hus⟩
    obtain ⟨h1, wait', h2, -⟩ := h.woke hx (hb u hu) hs
    cases he
    exact Done.back (Done.of_woke h2 hr h1 rfl)

/-- A process that exits stops for ever, and its parent may wake. -/
theorem exit_done (h : Waits G dom wait k) (hr : Runs k) (hc : k.sys.curr ≠ 0)
    (hb : ∀ q, (k.pcb k.sys.curr).parent = some q → G (.zombie q) → k.sys.value (.zombie q) + 1 < 2 ^ 31)
    (he : k.procMakezombie k.sys.curr v = some k') : Done G k k' .switch := by
  obtain ⟨h1, h2, ⟨wait', h3, -⟩, h4⟩ := h.procMakezombie hr.curr hr.status hb he
  have hcont : k'.cont 0 = .user := by rw [h2]; exact hr.cont
  rcases h4 with h4 | ⟨q, hq, hqb, h4⟩
  · exact ⟨⟨dom, wait', h3⟩, hr.pause (by decide) (fun h0 => absurd h0 hc) h1 h4 hcont,
      Quiet.of_update (p := k.sys.curr) h4 fun hz => by cases hz⟩
  · have hp : Paused { k with sys := k.sys.setStatus k.sys.curr .zombie } :=
      hr.pause (by decide) (fun h0 => absurd h0 hc) rfl rfl hr.cont
    refine ⟨⟨dom, wait', h3⟩, hp.wake h1 h4 hcont, fun p hp => ?_⟩
    rw [h4] at hp
    by_cases hpq : p = q
    · rw [hpq]
      exact Or.inr (Or.inr hqb)
    · rw [Function.update_of_ne hpq] at hp
      have hback : Quiet k { k with sys := k.sys.setStatus k.sys.curr .zombie } :=
        Quiet.of_update rfl fun hz => by cases hz
      exact hback p hp

/-- `fork` makes one process READY, the one in the PCB that it got from `proc_alloc`. -/
theorem sysFork_done (h : Waits G dom wait k) (hr : Runs k) :
    (∃ dom wait, Waits G dom wait k.sysFork) ∧ Runs k.sysFork ∧
      ∀ p, k.sysFork.sys.status p = .ready → (k.sys.status p = .ready ∨ k.sys.status p = .running ∨
        k.sys.status p = .blocked) ∨ ∃ k₁, k.procAlloc = some (p, k₁) := by
  obtain ⟨dom', wait', hw, -⟩ := h.sysFork hr.curr hr.status
  refine ⟨⟨dom', wait', hw⟩, ?_⟩
  unfold Kernel.sysFork
  cases ha : k.procAlloc with
  | none =>
    obtain ⟨-, h2, h3⟩ := Done.back (r := ⟨-1, 0, []⟩) (Done.back_same h hr rfl rfl hr.cont)
    exact ⟨h2, fun p hp => Or.inl (h3 p hp)⟩
  | some ck =>
    obtain ⟨c, k₁⟩ := ck
    obtain ⟨-, -, hst, hk₁⟩ := procAlloc_eq ha
    have hne : c ≠ k.sys.curr := fun hc => by
      rw [hc, hr.status] at hst
      cases hst
    have hcurr : k₁.sys.curr = k.sys.curr := by rw [hk₁]; rfl
    have hstatus : k₁.sys.status = Function.update k.sys.status c .uninit := by rw [hk₁]; rfl
    have hpcb : ∀ j, (k₁.pcb c).usems j = none := fun j => by
      rw [hk₁]
      simp only [Function.update_self]
    have hne₁ : c ≠ k₁.sys.curr := by rw [hcurr]; exact hne
    have hsys : (k₁.procCopycurr c).sys = k₁.sys := by rw [procCopycurr_eq hne₁ hpcb]
    have hcont : (k₁.procCopycurr c).cont 0 = .user := by
      rw [procCopycurr_eq hne₁ hpcb]
      simp only [Function.update_apply, hk₁, hr.cont, ite_self]
    have hfinal : (k₁.procCopycurr c).sys.procAddready c = { (k₁.procCopycurr c).sys with
        status := Function.update k.sys.status c .ready } := by
      unfold Sys.procAddready Sys.setStatus
      rw [hsys, hstatus, Function.update_idem]
    have hrun : Runs { k₁.procCopycurr c with sys := (k₁.procCopycurr c).sys.procAddready c } := by
      refine hr.wake (p := c) hne ?_ ?_ hcont
      · show ((k₁.procCopycurr c).sys.procAddready c).curr = _
        rw [hfinal]
        show (k₁.procCopycurr c).sys.curr = _
        rw [hsys, hcurr]
      · show ((k₁.procCopycurr c).sys.procAddready c).status = _
        rw [hfinal]
    refine ⟨hrun.congr rfl rfl (back_cont hrun.cont), fun p hp => ?_⟩
    have hp' : ((k₁.procCopycurr c).sys.procAddready c).status p = .ready := hp
    rw [hfinal] at hp'
    by_cases hpc : p = c
    · exact Or.inr ⟨k₁, by rw [hpc]⟩
    · refine Or.inl (Or.inl ?_)
      simpa only [Function.update_of_ne hpc] using hp'

/-! ## One step -/

theorem sysSemOpen_cont (h : k.cont 0 = .user) : (k.sysSemOpen v).cont 0 = .user := by
  unfold Kernel.sysSemOpen
  simp only
  split
  · exact back_cont h
  · split
    · exact back_cont h
    · next u k₁ ha =>
      obtain ⟨w, -, hw⟩ := Option.map_eq_some_iff.1 ha
      cases hw
      exact back_cont (k := Kernel.setPcb _ _ _) h

theorem sysSemClose_cont {id : Int} (h : k.cont 0 = .user) : (k.sysSemClose id).cont 0 = .user := by
  unfold Kernel.sysSemClose
  simp only
  split
  · exact back_cont h
  · exact back_cont (k := Kernel.setPcb _ _ _) h

/-- The invariant of the system. -/
def Inv (G : Sema → Prop) (k : Kernel) : Prop := (∃ dom wait, Waits G dom wait k) ∧ Runs k

/-- `p` is built by this event: `fork` got its PCB from `proc_alloc`. -/
def Built (k : Kernel) (e : Event) (p : Nat) : Prop := e = .fork ∧ ∃ k₁, k.procAlloc = some (p, k₁)

/-- The idle loop makes no system call and is never left inside one. -/
theorem may_curr (hr : Runs k) (hm : k.may e) (ht : e ≠ .timer) (hs : ∀ bytes, e ≠ .serial bytes) : k.sys.curr ≠ 0 := by
  intro h0
  cases e with
  | timer => exact ht rfl
  | serial bytes => exact hs bytes rfl
  | resume => exact of_decide_eq_true hm (by rw [h0]; exact hr.cont)
  | _ => exact (of_decide_eq_true hm).2 h0

/-- How the kernel goes on with a call that it left. -/
theorem resume_cases (he : k.handle .resume = some (k', out)) :
    (∃ cur ticks, k.cont k.sys.curr = .sleep cur ticks ∧ k.sysSleep cur ticks = (k', out)) ∨
      (k.cont k.sys.curr = .wait ∧ k.waitRest = some k' ∧ out = .back) ∨
      ∃ n more ch k₁, k.cont k.sys.curr = .read n more ∧ k.getcharRest = some (ch, k₁) ∧
        ((ch = 10 ∧ k' = k₁.back ⟨more.length + 1, 0, more ++ [ch]⟩ ∧ out = .back) ∨
          (ch ≠ 10 ∧ serialRead n (more ++ [ch]) k₁ = some (k', out))) := by
  unfold Kernel.handle at he
  simp only at he
  cases hk : k.cont k.sys.curr with
  | user =>
    rw [hk] at he
    cases he
  | sleep cur ticks =>
    rw [hk] at he
    exact Or.inl ⟨cur, ticks, rfl, Option.some.inj he⟩
  | wait =>
    rw [hk] at he
    obtain ⟨k₁, hw, he⟩ := Option.bind_eq_some_iff.1 he
    cases he
    exact Or.inr (Or.inl ⟨rfl, hw, rfl⟩)
  | read n more =>
    rw [hk] at he
    obtain ⟨⟨ch, k₁⟩, hg, he⟩ := Option.bind_eq_some_iff.1 he
    refine Or.inr (Or.inr ⟨n, more, ch, k₁, rfl, hg, ?_⟩)
    by_cases hch : ch = 10
    · simp only [if_pos hch, Option.some.injEq, Prod.mk.injEq] at he
      exact Or.inl ⟨hch, he.1.symm, he.2.symm⟩
    · simp only [if_neg hch] at he
      exact Or.inr ⟨hch, he⟩

theorem handle_done (hI : Inv G k) (hm : k.may e) (hf : Fits G k e) (he : k.handle e = some (k', out)) :
    (∃ dom wait, Waits G dom wait k') ∧ Left k' out ∧
      ∀ p, k'.sys.status p = .ready →
        (k.sys.status p = .ready ∨ k.sys.status p = .running ∨ k.sys.status p = .blocked) ∨ Built k e p := by
  obtain ⟨⟨dom, wait, h⟩, hr⟩ := hI
  have hdone : Done G k k' out → (∃ dom wait, Waits G dom wait k') ∧ Left k' out ∧
      ∀ p, k'.sys.status p = .ready →
        (k.sys.status p = .ready ∨ k.sys.status p = .running ∨ k.sys.status p = .blocked) ∨ Built k e p :=
    fun hd => ⟨hd.1, hd.2.1, fun p hp => Or.inl (hd.2.2 p hp)⟩
  have hnz : e ≠ .timer → (∀ bytes, e ≠ .serial bytes) → k.sys.curr ≠ 0 := may_curr hr hm
  unfold Kernel.handle at he
  cases e with
  | yield =>
    cases he
    obtain ⟨h1, h2, h3⟩ := hr.yield h
    exact hdone ⟨⟨dom, wait, h1⟩, h2, h3⟩
  | sleep ticks =>
    exact hdone (sysSleep_done h hr (hnz (by simp) (by simp)) (Option.some.inj he))
  | fork =>
    cases he
    obtain ⟨h1, h2, h3⟩ := sysFork_done h hr
    exact ⟨h1, h2, fun p hp => (h3 p hp).imp_right fun hb => ⟨rfl, hb⟩⟩
  | exec =>
    cases he
    exact hdone (Done.back_same h hr rfl rfl hr.cont)
  | exit status =>
    obtain ⟨k₁, hk, he⟩ := Option.bind_eq_some_iff.1 he
    cases he
    exact hdone (exit_done h hr (hnz (by simp) (by simp)) hf hk)
  | wait => exact hdone (sysWait_done h hr (hnz (by simp) (by simp)) he)
  | semOpen value =>
    cases he
    obtain ⟨h1, h2, dom', wait', h3, -⟩ := h.sysSemOpen (v := int32 value) hr.curr hr.status fun u hg =>
      ⟨hf u hg, int32_lt value⟩
    refine hdone ⟨⟨dom', wait', h3⟩, hr.congr h1 h2 (sysSemOpen_cont hr.cont), Quiet.of_eq h2⟩
  | semP id => exact hdone (sysSemP_done h hr (hnz (by simp) (by simp)) he)
  | semV id =>
    obtain ⟨k₁, hk, he⟩ := Option.bind_eq_some_iff.1 he
    cases he
    exact hdone (sysSemV_done h hr hf hk)
  | semClose id =>
    cases he
    obtain ⟨h1, h2⟩ := h.sysSemClose hr.curr hr.status
    refine hdone ⟨⟨dom, wait, h2⟩, hr.congr (by rw [h1]) (by rw [h1]) (sysSemClose_cont hr.cont),
      Quiet.of_eq (by rw [h1])⟩
  | read count => exact hdone (serialRead_done h hr (hnz (by simp) (by simp)) he)
  | timer =>
    cases he
    obtain ⟨h1, h2, h3⟩ := Runs.yield (k := { k with tick := uint32 (k.tick + 1) }) (hr.congr rfl rfl hr.cont)
      (h.congr rfl rfl rfl)
    exact hdone ⟨⟨dom, wait, h1⟩, h2, h3⟩
  | serial bytes =>
    obtain ⟨k₁, hk, he⟩ := Option.bind_eq_some_iff.1 he
    cases he
    obtain ⟨h1, h2, wait', h3⟩ := serialHandle_woke hf h hk
    exact hdone (Done.of_woke h3 hr h1 h2)
  | resume =>
    have hc := hnz (by simp) (by simp)
    rcases resume_cases he with ⟨cur, ticks, hk, hs⟩ | ⟨hk, hw, rfl⟩ | ⟨n, got, ch, k₁, hk, hg, hend⟩
    · exact hdone (sysSleep_done h hr hc hs)
    · exact hdone (waitRest_done h hr hw)
    · obtain ⟨e1, e2, e3, e4⟩ := getcharRest_eq hg
      have hw₁ : Waits G dom wait k₁ := h.congr e1 e2 e3
      have hrun₁ : Runs k₁ := hr.congr (by rw [e1]) (by rw [e1]) (by rw [e4]; exact hr.cont)
      have hst : k₁.sys.status = k.sys.status := by rw [e1]
      rcases hend with ⟨-, rfl, rfl⟩ | ⟨-, hread⟩
      · exact hdone ((Done.back_same hw₁ hrun₁ rfl rfl hrun₁.cont).back.after hst)
      · exact hdone ((serialRead_done hw₁ hrun₁ (by rw [e1]; exact hc) hread).after hst)

/-! ## Every run -/

def Step (k : Kernel) (e : Event) (k' : Kernel) : Prop := k.step e = some k'

theorem step_inv (hI : Inv G k) (hf : Fits G k e) (hs : Step k e k') : Inv G k' := by
  unfold Step step at hs
  split at hs
  · next hm =>
    obtain ⟨⟨k₁, out⟩, hh, hs⟩ := Option.bind_eq_some_iff.1 hs
    obtain ⟨⟨dom, wait, h⟩, hl, -⟩ := handle_done hI hm hf hh
    simp only at hs
    cases out with
    | back =>
      rw [if_neg (by decide)] at hs
      cases hs
      exact ⟨⟨dom, wait, h⟩, hl⟩
    | switch =>
      rw [if_pos rfl] at hs
      obtain ⟨q, -, hr, hq, hsch, hrun⟩ := Paused.schedule hl
      rw [hsch] at hs
      cases hs
      exact ⟨⟨dom, wait, h.schedule hr hq⟩, hrun⟩
  · cases hs

/-! ## The start -/

theorem initSerial_waits (G : Sema → Prop) : Waits G (fun y => False ∨ y = .serial) (fun _ => []) blank.initSerial := by
  have hq : Queues (fun i => False ∨ i = Sema.serial) ((blank.sys.lists : Lists Sema Nat).listInit (.head .serial))
      (Function.update (fun _ => []) Sema.serial []) :=
    listInit_queues Sema.serial (fun h => by cases h) (fun _ _ => id) fun h => h.elim
  have hq' : Queues (fun y => False ∨ y = .serial) blank.initSerial.sys.lists (fun _ => ([] : List Nat)) :=
    hq.congr fun y _ => by by_cases hy : y = .serial <;> simp [hy]
  have hst : ∀ p, blank.initSerial.sys.status p = .unused := fun _ => rfl
  refine ⟨⟨hq', fun i => ?_, fun _ _ => List.nodup_nil, fun _ _ _ _ _ hi => absurd hi List.not_mem_nil,
      fun _ _ _ hi => absurd hi List.not_mem_nil⟩, Or.inr rfl, fun p _ hp => absurd (hst p) hp, fun u hu =>
        absurd hu (lt_irrefl _),
    fun p q hpq => (by cases hpq), fun _ _ _ hi => absurd hi List.not_mem_nil, fun u => ?_, fun x hx _ => ?_⟩
  · rw [hst]
    refine ⟨fun hc => absurd hc (by decide), fun ⟨_, _, hi⟩ => absurd hi List.not_mem_nil⟩
  · refine (Finset.sum_eq_zero fun p _ => ?_).symm
    exact if_neg fun hl => hl.1 (hst p)
  · obtain rfl : x = .serial := hx.resolve_left id
    unfold Sys.Tight
    simp only [Kernel.initSerial, Sys.semInit, Sys.setValue, Function.update_self]
    decide

theorem Waits.initProc (h : Waits G dom wait k) (hw : ∀ x, wait x = []) (hs : k.sys.status 0 = .unused)
    (hu : ∀ j, (k.pcb 0).usems j = none) : ∃ dom wait, Waits G dom wait k.initProc := by
  have h₁ := h.semInit (x := .zombie 0) (v := 0) (fun _ => hw _) fun _ => by omega
  have h₂ := h₁.status (s := k.initProc.sys) (p := 0) rfl rfl rfl
    (show k.sys.status 0 ≠ .blocked by rw [hs]; decide) (by decide) (Or.inr hu) fun _ => Or.inr rfl
  exact ⟨_, _, h₂⟩

/-- The state that `main` leaves: PCB 0 runs its idle loop, and one process is READY. -/
theorem boot_inv (G : Sema → Prop) : ∃ k, boot = some k ∧ Inv G k := by
  obtain ⟨dom, wait, h⟩ := (initSerial_waits G).initProc (fun _ => rfl) rfl fun _ => rfl
  have hstatus : ∀ p, blank.initSerial.initProc.sys.status p = if p = 0 then .running else .unused := fun p => by
    show Function.update (fun _ => Status.unused) 0 .running p = _
    rw [Function.update_apply]
  unfold boot initUserAndGo
  cases ha : blank.initSerial.initProc.procAlloc with
  | none =>
    have := List.find?_eq_none.1 (Option.map_eq_none_iff.1 ha) 1 (List.mem_range'_1.2 ⟨le_refl 1, by decide⟩)
    rw [hstatus, if_neg Nat.one_ne_zero] at this
    exact absurd rfl this
  | some ck =>
    obtain ⟨c, k₁⟩ := ck
    obtain ⟨hc1, hc2, hst, hk₁⟩ := procAlloc_eq ha
    obtain ⟨dom', wait', h₁, hd, -⟩ := h.procAlloc ha
    have hs : k₁.sys.status = Function.update blank.initSerial.initProc.sys.status c .uninit := by rw [hk₁]; rfl
    have hcurr : k₁.sys.curr = 0 := by rw [hk₁]; rfl
    have hstc : k₁.sys.status c = .uninit := by rw [hs, Function.update_self]
    refine ⟨_, rfl, ⟨dom', wait', h₁.status (p := c) rfl rfl rfl (by rw [hstc]; decide) (by decide)
      (Or.inl ?_) fun _ => hd⟩, ?_⟩
    · unfold Live Sys.procAddready Sys.setStatus
      simp only [hstc, Function.update_self]
      decide
    · have hall : ∀ p, (k₁.sys.procAddready c).status p =
          if p = c then .ready else if p = 0 then .running else .unused :=
        fun p => by
          show Function.update k₁.sys.status c .ready p = _
          rw [hs, Function.update_idem, Function.update_apply, hstatus]
      have hc0 : 0 ≠ c := by omega
      refine ⟨?_, fun p => ?_, Or.inl ?_, ?_⟩
      · show k₁.sys.curr < procNum
        rw [hcurr]
        decide
      · show (k₁.sys.procAddready c).status p = .running ↔ p = k₁.sys.curr
        rw [hall, hcurr]
        by_cases hpc : p = c
        · rw [if_pos hpc]
          exact ⟨fun hx => absurd hx (by decide), fun hx => absurd (hx.symm.trans hpc) hc0⟩
        · rw [if_neg hpc]
          by_cases hp0 : p = 0
          · rw [if_pos hp0]
            exact ⟨fun _ => hp0, fun _ => rfl⟩
          · rw [if_neg hp0]
            exact ⟨fun hx => absurd hx (by decide), fun hx => absurd hx hp0⟩
      · show (k₁.sys.procAddready c).status 0 = .running
        rw [hall, if_neg hc0, if_pos rfl]
      · rw [hk₁]
        rfl

/-! ## Main result -/

theorem run_inv {k₀ : Kernel} {es : List Event} (hb : boot = some k₀) (hrun : Run Step k₀ es k) :
    Inv (fun _ => False) k := by
  obtain ⟨k₁, h1, hI⟩ := boot_inv fun _ => False
  obtain rfl := Option.some.inj (hb.symm.trans h1)
  exact Run.invariant (I := Inv fun _ => False) (fun _ _ _ hs hst => step_inv hs fits_none hst) hrun hI

/-- In every state that the kernel reaches the current process runs and no other does, and PCB 0 is
RUNNING or READY. No event makes a free PCB or a zombie READY except for the process that `fork`
builds, and whenever the kernel is left through `schedule`, some process is READY, the search finds
one within `PROC_NUM` rounds, and that one runs. -/
theorem one_runs {k₀ : Kernel} {es : List Event} (hb : boot = some k₀) (hrun : Run Step k₀ es k) :
    k.sys.curr < procNum ∧ (∀ p, k.sys.status p = .running ↔ p = k.sys.curr) ∧
      (k.sys.status 0 = .running ∨ k.sys.status 0 = .ready) ∧
      ∀ e k₁ out, k.may e → k.handle e = some (k₁, out) →
        (∀ p, (k.sys.status p = .zombie ∨ k.sys.status p = .unused ∨ k.sys.status p = .uninit) →
          k₁.sys.status p = .ready → Built k e p) ∧
        (out = .switch → (∃ p < procNum, k₁.sys.status p = .ready) ∧
          ∃ q, search k₁.sys.status procNum k₁.sys.curr = some q ∧ k₁.sys.status q = .ready ∧
            k₁.schedule = some { k₁ with sys := k₁.sys.procRun q }) := by
  have hI := run_inv hb hrun
  refine ⟨hI.2.curr, hI.2.running, hI.2.idle, fun e k₁ out hm hh => ?_⟩
  obtain ⟨-, hl, hq⟩ := handle_done hI hm fits_none hh
  refine ⟨fun p hp hr => (hq p hr).resolve_left fun hc => ?_, fun ho => ?_⟩
  · rcases hp with hp | hp | hp <;> rw [hp] at hc <;> rcases hc with hc | hc | hc <;> cases hc
  · subst ho
    obtain ⟨q, h1, h2, -, h3, -⟩ := Paused.schedule hl
    exact ⟨⟨0, by decide, hl.idle⟩, q, h1, h2, h3⟩

/-- Process 1 forks, waits for the child and is woken by its exit. -/
theorem one_runs_demo : ∃ k₀ k, boot = some k₀ ∧
    Run Step k₀ [.timer, .fork, .wait, .exit 7, .timer, .resume] k ∧ (k.reply 1).status = 7 ∧
      ∀ p, k.sys.status p = .running ↔ p = k.sys.curr := by
  have hev : (boot.bind fun k₀ => [Event.timer, .fork, .wait, .exit 7, .timer, .resume].foldlM step k₀).any
      (fun k => decide ((k.reply 1).status = 7)) = true := by decide +kernel
  obtain ⟨k, hk, hr⟩ := (Option.any_eq_true _ _).1 hev
  obtain ⟨k₀, hb, hk⟩ := Option.bind_eq_some_iff.1 hk
  have hrun := Run.of_foldlM hk
  exact ⟨k₀, k, hb, hrun, of_decide_eq_true hr, (one_runs hb hrun).2.1⟩

end TinyOS.Kernel
