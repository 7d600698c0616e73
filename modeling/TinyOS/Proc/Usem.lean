/-
User semaphores. As long as programs open them with values that are not negative and do not count
them up past the largest `int`, `sem_v` finds a waiting process whenever it looks for one. A
semaphore that is opened with a negative value has waiters that do not exist.
-/
import TinyOS.Proc.Sched

namespace TinyOS.Kernel

open TinyOS.Lib TinyOS.Klib

variable {k k' : Kernel} {dom : Sema → Prop} {wait : Sema → List Nat} {e : Event}

/-- The semaphores of user programs. -/
def IsUser (x : Sema) : Prop := ∃ u, x = .user u

/-- What programs must not do: open a semaphore with less than nothing, or free a unit of one that has
`INT_MAX` of them. -/
def Meets (k : Kernel) : Event → Prop
  | .semOpen value => 0 ≤ int32 value
  | .semV id => ∀ u, k.procGetusem k.sys.curr (int32 id) = some u → k.sys.value (.user u) + 1 < 2 ^ 31
  | _ => True

/-- Where the counter of the semaphore says that somebody waits, `sem_v` takes a process from the wait
list. -/
def FindsWaiter (k : Kernel) : Event → Prop
  | .semV id => ∀ u, k.procGetusem k.sys.curr (int32 id) = some u → int32 (k.sys.value (.user u) + 1) ≤ 0 →
      ∃ p l, k.sys.lists.listDequeue (.head (.user u)) = some (some p, l)
  | _ => True

theorem Meets.fits (h : Meets k e) : Fits IsUser k e := by
  cases e with
  | semOpen value => exact fun u _ => h
  | semV id => exact fun u hu _ => h u hu
  | exit status => exact fun q _ hg => by obtain ⟨u, hu⟩ := hg; cases hu
  | serial bytes => exact fun hg => by obtain ⟨u, hu⟩ := hg; cases hu
  | _ => trivial

theorem Inv.findsWaiter (h : Inv IsUser k) (hm : Meets k e) : FindsWaiter k e := by
  obtain ⟨⟨dom, wait, hw⟩, hr⟩ := h
  cases e with
  | semV id =>
    intro u hu hle
    obtain ⟨-, hj, hus⟩ := procGetusem_some hu
    have hlive : Live k.sys k.sys.curr := hr.live
    have hd : dom (.user u) := hw.dom_user hr.curr hlive ⟨_, hj, hus⟩
    have hlen := hw.ok.length_le hd
    obtain ⟨ht, -⟩ := hw.tight _ hd ⟨u, rfl⟩
    unfold Sys.Tight at ht
    rw [int32_of_range (by omega) (hm u hu)] at hle
    -- value and length of the list agree, so a value of at most 0 has a waiter
    cases hq : wait (.user u) with
    | nil =>
      rw [hq, List.length_nil] at ht
      omega
    | cons p rest =>
      obtain ⟨l, hl, -⟩ := listDequeue_cons hw.ok.queues hd hq
      exact ⟨p, l, hl⟩
  | _ => trivial

/-- The steps of programs that keep to `Meets`. -/
def MeetStep (k : Kernel) (e : Event) (k' : Kernel) : Prop := Step k e k' ∧ Meets k e

/-- While programs keep to it, no `sem_v` on a user semaphore finds its wait list empty. -/
theorem usems_find {k₀ : Kernel} {es : List Event} (hb : boot = some k₀) (hrun : Run MeetStep k₀ es k)
    (hm : Meets k e) :
    FindsWaiter k e := by
  obtain ⟨k₁, h1, hI⟩ := boot_inv IsUser
  obtain rfl := Option.some.inj (hb.symm.trans h1)
  have hk : Inv IsUser k :=
    Run.invariant (I := Inv IsUser) (fun s e t hs hst => step_inv hs hst.2.fits hst.1) hrun hI
  exact hk.findsWaiter hm

/-- Events that meet the condition in any state. -/
theorem meetStep_run {k₀ : Kernel} {es : List Event} (h : ∀ e ∈ es, ∀ k, Meets k e) (hrun : Run Step k₀ es k) :
    Run MeetStep k₀ es k := by
  induction hrun with
  | nil => exact .nil
  | snoc _ hs ih =>
    refine .snoc (ih fun e he => h e (List.mem_append_left _ he)) ⟨hs, h _ ?_ _⟩
    exact List.mem_append_right _ (List.mem_singleton_self _)

/-- Process 1 waits on a semaphore without units, and its child frees one. -/
theorem usems_find_demo : ∃ k₀ k, boot = some k₀ ∧ Run MeetStep k₀ [.timer, .semOpen 0, .fork, .semP 0] k ∧
    k.sys.value (.user 0) = -1 ∧ FindsWaiter k (.semV 0) := by
  have hev : (boot.bind fun k₀ => [Event.timer, .semOpen 0, .fork, .semP 0].foldlM step k₀).any
      (fun k => decide (k.sys.value (.user 0) = -1 ∧ k.procGetusem k.sys.curr (int32 0) = some 0)) = true := by
    decide +kernel
  obtain ⟨k, hk, hr⟩ := (Option.any_eq_true _ _).1 hev
  obtain ⟨k₀, hb, hk⟩ := Option.bind_eq_some_iff.1 hk
  obtain ⟨hval, hget⟩ := of_decide_eq_true hr
  have hrun : Run MeetStep k₀ [.timer, .semOpen 0, .fork, .semP 0] k := by
    refine meetStep_run (fun e he k => ?_) (Run.of_foldlM hk)
    simp only [List.mem_cons, List.not_mem_nil, or_false] at he
    rcases he with rfl | rfl | rfl | rfl
    · trivial
    · show 0 ≤ int32 0
      decide
    · trivial
    · trivial
  refine ⟨k₀, k, hb, hrun, hval, usems_find hb hrun fun u hu => ?_⟩
  obtain rfl := Option.some.inj (hu.symm.trans hget)
  rw [hval]
  decide

/-- A semaphore that is opened with -1 owes its first `sem_v` a process that is not there. -/
theorem usems_find_not : ∃ k₀ k, boot = some k₀ ∧ Run Step k₀ [.timer, .semOpen (-1)] k ∧
    ¬ FindsWaiter k (.semV 0) ∧ k.may (.semV 0) ∧ k.handle (.semV 0) = none := by
  have hev : (boot.bind fun k₀ => [Event.timer, .semOpen (-1)].foldlM step k₀).any
      (fun k => decide (k.procGetusem k.sys.curr (int32 0) = some 0 ∧ int32 (k.sys.value (.user 0) + 1) ≤ 0 ∧
        (k.sys.lists.listDequeue (.head (.user 0))).all (fun r => r.1.isNone) ∧ k.may (.semV 0) ∧
        (k.handle (.semV 0)).isNone)) = true := by decide +kernel
  obtain ⟨k, hk, hr⟩ := (Option.any_eq_true _ _).1 hev
  obtain ⟨k₀, hb, hk⟩ := Option.bind_eq_some_iff.1 hk
  obtain ⟨hget, hle, hdeq, hmay, hnone⟩ := of_decide_eq_true hr
  refine ⟨k₀, k, hb, Run.of_foldlM hk, fun hf => ?_, hmay, Option.isNone_iff_eq_none.1 hnone⟩
  obtain ⟨p, l, hl⟩ := hf 0 hget hle
  rw [hl] at hdeq
  cases hdeq

end TinyOS.Kernel
