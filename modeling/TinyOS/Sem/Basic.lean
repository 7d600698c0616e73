/-
Kernel semaphores (kernel/src/sem.c) and the process states they move processes between
(kernel/src/proc.c): a signed counter with a wait list from the node pool of klib/list.c. The
semaphores are named by an arbitrary type, so the same definitions serve the semaphores of the
kernel and any other set of them.
-/
import TinyOS.Klib.List
import TinyOS.Lib.Word

namespace TinyOS

open TinyOS.Lib TinyOS.Klib

/-- `PROC_NUM`. -/
def procNum : Nat := 64

/-- `proc_t.status`. -/
inductive Status where
  | unused
  | uninit
  | running
  | ready
  | zombie
  | blocked
  deriving DecidableEq

/-- The status of every PCB, the index of the current one, and for every semaphore its value and
the wait list, which holds PCB indices. -/
structure Sys (ι : Type) where
  status : Nat → Status
  curr : Nat
  value : ι → Int
  lists : Lists ι Nat

namespace Sys

variable {ι : Type} [DecidableEq ι]

def setStatus (s : Sys ι) (p : Nat) (st : Status) : Sys ι := { s with status := Function.update s.status p st }

def setValue (s : Sys ι) (x : ι) (v : Int) : Sys ι := { s with value := Function.update s.value x v }

def procAddready (s : Sys ι) (p : Nat) : Sys ι := s.setStatus p .ready

/-- Up to the `INT(0x81)`, which enters `schedule`. -/
def procYield (s : Sys ι) : Sys ι := s.setStatus s.curr .ready

/-- Up to the `INT(0x81)`, which enters `schedule`. -/
def procBlock (s : Sys ι) : Sys ι := s.setStatus s.curr .blocked

def procRun (s : Sys ι) (p : Nat) : Sys ι := { s.setStatus p .running with curr := p }

def semInit (s : Sys ι) (x : ι) (value : Int) : Sys ι :=
  { s.setValue x value with lists := s.lists.listInit (.head x) }

/-- `none` is the failed assertion of `list_enqueue`. The process is blocked afterwards or goes on. -/
def semP (s : Sys ι) (x : ι) : Option (Sys ι) :=
  let s := s.setValue x (int32 (s.value x - 1))
  if s.value x < 0 then do
    let l ← s.lists.listEnqueue (.head x) s.curr
    return procBlock { s with lists := l }
  else some s

/-- `none` is the page fault of `proc_addready(NULL)`. -/
def semV (s : Sys ι) (x : ι) : Option (Sys ι) :=
  let s := s.setValue x (int32 (s.value x + 1))
  if s.value x ≤ 0 then do
    let (p, l) ← s.lists.listDequeue (.head x)
    return procAddready { s with lists := l } (← p)
  else some s

/-! ## The wait lists and the blocked processes -/

/-- The wait lists of the semaphores in `dom` hold the queues `wait` of processes `1 .. 63`: exactly
the blocked processes, each in one place. -/
structure WaitOK (dom : ι → Prop) (s : Sys ι) (wait : ι → List Nat) : Prop where
  queues : Queues dom s.lists wait
  blocked : ∀ i, s.status i = .blocked ↔ ∃ x, dom x ∧ i ∈ wait x
  nodup : ∀ x, dom x → (wait x).Nodup
  apart : ∀ x y, dom x → dom y → ∀ i, i ∈ wait x → i ∈ wait y → x = y
  procs : ∀ x, dom x → ∀ i ∈ wait x, 1 ≤ i ∧ i < procNum

/-- Value and wait list agree: the waiters are the missing units. -/
def Tight (s : Sys ι) (wait : ι → List Nat) (x : ι) : Prop := ((wait x).length : Int) = max 0 (-s.value x)

variable {dom : ι → Prop} {s s' : Sys ι} {wait : ι → List Nat}

omit [DecidableEq ι] in
theorem WaitOK.congr {wait' : ι → List Nat} (h : WaitOK dom s wait) (hl : s'.lists = s.lists)
    (hb : ∀ i, s'.status i = .blocked ↔ s.status i = .blocked) (hw : ∀ x, dom x → wait' x = wait x) :
    WaitOK dom s' wait' := by
  refine ⟨hl ▸ h.queues.congr hw, fun i => ?_, fun x hx => hw x hx ▸ h.nodup x hx, fun x y hx hy i => ?_,
    fun x hx => hw x hx ▸ h.procs x hx⟩
  · rw [hb, h.blocked]
    exact exists_congr fun x => and_congr_right fun hx => by rw [hw x hx]
  · rw [hw x hx, hw y hy]; exact h.apart x y hx hy i

omit [DecidableEq ι] in
theorem WaitOK.length_le (h : WaitOK dom s wait) {x : ι} (hx : dom x) : (wait x).length ≤ 63 := by
  have hsub : wait x ⊆ (List.range' 1 63) := fun i hi => by
    obtain ⟨h1, h2⟩ := h.procs x hx i hi
    simp only [procNum] at h2
    simp only [List.mem_range'_1]; omega
  simpa using ((h.nodup x hx).subperm hsub).length_le

/-- The node pool is never exhausted: it holds more entries than there are processes. -/
theorem WaitOK.enqueue_ne_none (h : WaitOK dom s wait) (n : Node ι) (p : Nat) : s.lists.listEnqueue n p ≠ none := by
  intro he
  obtain ⟨l, hnd, hlen, hl⟩ := listEnqueue_none h.queues he h.nodup h.apart
  have hsub : l ⊆ List.range procNum := fun i hi => by
    obtain ⟨x, hx, hi⟩ := hl i hi
    exact List.mem_range.2 (h.procs x hx i hi).2
  have := (hnd.subperm hsub).length_le
  simp [hlen, listNum, procNum] at this

/-! ## sem_init -/

theorem WaitOK.semInit (h : WaitOK dom s wait) {x : ι} (hx : dom x → wait x = []) (v : Int) :
    WaitOK (fun y => dom y ∨ y = x) (s.semInit x v) (Function.update wait x []) := by
  -- the new list is empty, so what is in a list was in one before
  have hmem : ∀ y i, (dom y ∨ y = x) → i ∈ Function.update wait x [] y → dom y ∧ i ∈ wait y := by
    intro y i hy hi
    by_cases hyx : y = x
    · subst hyx; simp at hi
    · rw [Function.update_of_ne hyx] at hi; exact ⟨hy.resolve_right hyx, hi⟩
  refine ⟨?_, fun i => ?_, fun y hy => ?_, fun y z hy hz i hi hi' => ?_, fun y hy i hi => ?_⟩
  · have hinit : s.lists.inited = true := by obtain ⟨loc, q, fr, hs, -⟩ := h.queues; exact hs.inited
    exact listInit_queues x (fun _ => h.queues) (fun hf => by rw [hinit] at hf; cases hf) hx
  · refine (h.blocked i).trans ⟨?_, ?_⟩
    · rintro ⟨y, hy, hi⟩
      refine ⟨y, .inl hy, ?_⟩
      by_cases hyx : y = x
      · subst hyx; rw [hx hy] at hi; cases hi
      · rwa [Function.update_of_ne hyx]
    · rintro ⟨y, hy, hi⟩; exact ⟨y, hmem y i hy hi⟩
  · by_cases hyx : y = x
    · subst hyx; simp
    · rw [Function.update_of_ne hyx]; exact h.nodup y (hy.resolve_right hyx)
  · obtain ⟨hy, hi⟩ := hmem y i hy hi
    obtain ⟨hz, hi'⟩ := hmem z i hz hi'
    exact h.apart y z hy hz i hi hi'
  · obtain ⟨hy, hi⟩ := hmem y i hy hi
    exact h.procs y hy i hi

/-! ## sem_p -/

/-- What a call of `sem_p` by the running process does: it takes a unit, or it queues and blocks. -/
theorem semP_cases {x : ι} (hs : s.semP x = some s') :
    (0 ≤ int32 (s.value x - 1) ∧ s' = s.setValue x (int32 (s.value x - 1))) ∨
    (int32 (s.value x - 1) < 0 ∧ ∃ l, s.lists.listEnqueue (.head x) s.curr = some l ∧
      s' = procBlock { s.setValue x (int32 (s.value x - 1)) with lists := l }) := by
  simp only [Sys.semP, setValue, Function.update_self] at hs
  split at hs
  · rename_i hv
    obtain ⟨l, hl, rfl⟩ : ∃ l, s.lists.listEnqueue (.head x) s.curr = some l ∧ _ := by
      simpa [Option.bind_eq_some_iff] using hs
    exact .inr ⟨hv, l, hl, rfl⟩
  · rename_i hv
    exact .inl ⟨by omega, (Option.some.inj hs).symm⟩

theorem semP_value {x : ι} (hs : s.semP x = some s') :
    s'.value = Function.update s.value x (int32 (s.value x - 1)) := by
  rcases semP_cases hs with ⟨-, rfl⟩ | ⟨-, l, -, rfl⟩
  · rfl
  · rfl

/-- `sem_p` by a process that is not blocked either leaves the wait lists alone or appends it. -/
theorem WaitOK.semP (h : WaitOK dom s wait) {x : ι} (hx : dom x) (hc : 1 ≤ s.curr ∧ s.curr < procNum)
    (hr : s.status s.curr ≠ .blocked) (hs : s.semP x = some s') :
    (0 ≤ int32 (s.value x - 1) ∧ s' = s.setValue x (int32 (s.value x - 1)) ∧ WaitOK dom s' wait) ∨
    (int32 (s.value x - 1) < 0 ∧ s'.curr = s.curr ∧ s'.status = Function.update s.status s.curr .blocked ∧
      s'.value = Function.update s.value x (int32 (s.value x - 1)) ∧
      WaitOK dom s' (Function.update wait x (wait x ++ [s.curr]))) := by
  rcases semP_cases hs with ⟨hv, rfl⟩ | ⟨hv, l, hl, rfl⟩
  · exact .inl ⟨hv, rfl, h.congr rfl (fun _ => Iff.rfl) fun _ _ => rfl⟩
  · refine .inr ⟨hv, rfl, rfl, rfl, ?_⟩
    -- the caller runs, so it waits nowhere yet
    have hno : ∀ y, dom y → s.curr ∉ wait y := fun y hy hi => hr ((h.blocked _).2 ⟨y, hy, hi⟩)
    have hmem : ∀ y i, i ∈ Function.update wait x (wait x ++ [s.curr]) y ↔ i ∈ wait y ∨ y = x ∧ i = s.curr := by
      intro y i
      by_cases hyx : y = x
      · subst hyx; simp
      · simp [hyx]
    refine ⟨listEnqueue_some h.queues hx hl, fun i => ?_, fun y hy => ?_, fun y z hy hz i hi hi' => ?_,
      fun y hy i hi => ?_⟩
    · by_cases hi : i = s.curr
      · subst hi
        simp only [procBlock, setStatus, setValue, Function.update_self, true_iff]
        exact ⟨x, hx, by simp⟩
      · simp only [procBlock, setStatus, setValue, Function.update_of_ne hi, h.blocked, hmem, hi, and_false, or_false]
    · by_cases hyx : y = x
      · subst hyx
        rw [Function.update_self]
        exact List.nodup_append.2 ⟨h.nodup y hy, List.nodup_singleton _, fun a ha b hb => by
          rw [List.mem_singleton] at hb; subst hb; rintro rfl; exact hno y hy ha⟩
      · rw [Function.update_of_ne hyx]; exact h.nodup y hy
    · rw [hmem] at hi hi'
      rcases hi with hi | ⟨rfl, rfl⟩ <;> rcases hi' with hi' | ⟨rfl, he⟩
      · exact h.apart y z hy hz i hi hi'
      · subst he; exact absurd hi (hno y hy)
      · exact absurd hi' (hno z hz)
      · rfl
    · rcases (hmem y i).1 hi with hi | ⟨-, rfl⟩
      · exact h.procs y hy i hi
      · exact hc

/-! ## sem_v -/

theorem semV_cases {x : ι} (hs : s.semV x = some s') :
    (0 < int32 (s.value x + 1) ∧ s' = s.setValue x (int32 (s.value x + 1))) ∨
    (int32 (s.value x + 1) ≤ 0 ∧ ∃ p l, s.lists.listDequeue (.head x) = some (some p, l) ∧
      s' = procAddready { s.setValue x (int32 (s.value x + 1)) with lists := l } p) := by
  simp only [Sys.semV, setValue, Function.update_self] at hs
  split at hs
  · rename_i hv
    obtain ⟨l, p, hl, rfl⟩ : ∃ l p, s.lists.listDequeue (.head x) = some (some p, l) ∧
        procAddready { s.setValue x (int32 (s.value x + 1)) with lists := l } p = s' := by
      simpa [Option.bind_eq_some_iff, setValue] using hs
    exact .inr ⟨hv, p, l, hl, rfl⟩
  · rename_i hv
    exact .inl ⟨by omega, (Option.some.inj hs).symm⟩

theorem semV_value {x : ι} (hs : s.semV x = some s') :
    s'.value = Function.update s.value x (int32 (s.value x + 1)) := by
  rcases semV_cases hs with ⟨-, rfl⟩ | ⟨-, p, l, -, rfl⟩
  · rfl
  · rfl

/-- `sem_v` either leaves the wait lists alone or wakes the process that has waited longest. -/
theorem WaitOK.semV (h : WaitOK dom s wait) {x : ι} (hx : dom x) (hs : s.semV x = some s') :
    (0 < int32 (s.value x + 1) ∧ s' = s.setValue x (int32 (s.value x + 1)) ∧ WaitOK dom s' wait) ∨
    (int32 (s.value x + 1) ≤ 0 ∧ ∃ p rest, wait x = p :: rest ∧ s'.curr = s.curr ∧
      s'.status = Function.update s.status p .ready ∧
      s'.value = Function.update s.value x (int32 (s.value x + 1)) ∧
      WaitOK dom s' (Function.update wait x rest)) := by
  rcases semV_cases hs with ⟨hv, rfl⟩ | ⟨hv, p, l, hl, rfl⟩
  · exact .inl ⟨hv, rfl, h.congr rfl (fun _ => Iff.rfl) fun _ _ => rfl⟩
  · cases hw : wait x with
    | nil => rw [listDequeue_nil h.queues hx hw] at hl; cases hl
    | cons q rest =>
      obtain ⟨l', hl', hq'⟩ := listDequeue_cons h.queues hx hw
      rw [hl'] at hl; cases hl
      refine .inr ⟨hv, p, rest, rfl, rfl, rfl, rfl, ?_⟩
      have hnd := h.nodup x hx
      rw [hw, List.nodup_cons] at hnd
      have hmem : ∀ y i, i ∈ Function.update wait x rest y → i ∈ wait y := by
        intro y i hi
        by_cases hyx : y = x
        · subst hyx; rw [Function.update_self] at hi; rw [hw]; exact List.mem_cons_of_mem _ hi
        · rwa [Function.update_of_ne hyx] at hi
      have hpx : p ∈ wait x := by simp [hw]
      refine ⟨hq', fun i => ?_, fun y hy => ?_, fun y z hy hz i hi hi' =>
        h.apart y z hy hz i (hmem y i hi) (hmem z i hi'), fun y hy i hi => h.procs y hy i (hmem y i hi)⟩
      · by_cases hi : i = p
        · subst hi
          simp only [procAddready, setStatus, Function.update_self, reduceCtorEq, false_iff]
          rintro ⟨y, hy, hiy⟩
          -- the woken process was in this list only, and once
          obtain rfl := h.apart y x hy hx i (hmem y i hiy) hpx
          rw [Function.update_self] at hiy
          exact hnd.1 hiy
        · simp only [procAddready, setStatus, setValue, Function.update_of_ne hi, h.blocked]
          refine exists_congr fun y => and_congr_right fun _ => ?_
          by_cases hyx : y = x
          · subst hyx; simp [hw, hi]
          · rw [Function.update_of_ne hyx]
      · by_cases hyx : y = x
        · subst hyx; rw [Function.update_self]; exact hnd.2
        · rw [Function.update_of_ne hyx]; exact h.nodup y hy

/-- Where value and wait list agree, `sem_v` finds a waiter whenever it needs one. -/
theorem WaitOK.semV_ne_none (h : WaitOK dom s wait) {x : ι} (hx : dom x) (ht : s.Tight wait x)
    (hv : s.value x + 1 < 2 ^ 31) : s.semV x ≠ none := by
  have hlen := h.length_le hx
  have ht' : ((wait x).length : Int) = max 0 (-s.value x) := ht
  have hi : int32 (s.value x + 1) = s.value x + 1 := int32_of_range (by omega) hv
  simp only [Sys.semV, setValue, Function.update_self, hi]
  split
  · cases hw : wait x with
    | nil => rw [hw, List.length_nil] at ht'; omega
    | cons p rest =>
      obtain ⟨l, hl, -⟩ := listDequeue_cons h.queues hx hw
      simp [hl]
  · simp

end Sys

end TinyOS
