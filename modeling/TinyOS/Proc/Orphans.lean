/-
Zombies that a `wait` will collect, and those that nobody collects because their parent exited first.
-/
import TinyOS.Proc.Family

namespace TinyOS.Kernel

open TinyOS.Lib TinyOS.Klib

variable {k k' : Kernel} {c : Nat} {e : Event}

/-! ## Orphans -/

/-- A zombie whose parent pointer is NULL. -/
def Orphan (k : Kernel) (z : Nat) : Prop := k.sys.status z = .zombie ∧ (k.pcb z).parent = none

instance : Decidable (Orphan k c) := inferInstanceAs (Decidable (_ ∧ _))

theorem Calm.orphan (h : Calm k k') (ho : Orphan k c) : Orphan k' c :=
  ⟨(h.zombie c).2 ho.1, (h.pcb c).1.trans ho.2⟩

/-- Nobody collects an orphan. -/
theorem step_orphan (h : Family k) (hs : Step k e k') (ho : Orphan k c) : Orphan k' c := by
  obtain ⟨-, k₁, out, -, hch, hk⟩ := step_change h hs
  refine hk.calm.orphan ?_
  cases hch with
  | calm _ _ _ h1 => exact h1.orphan ho
  | fork i k₂ _ _ _ h1 =>
    -- the new process gets a free PCB
    have hne : c ≠ i := fun hc => by
      have := h1.free
      rw [← hc, ho.1] at this
      cases this
    refine ⟨?_, ?_⟩
    · rw [h1.status_apply, if_neg hne]
      exact ho.1
    · rw [h1.parent, if_neg hne]
      exact ho.2
  | exit v _ h1 =>
    refine ⟨(h1.zombie c).2 (Or.inr ho.1), ?_⟩
    rw [h1.parent]
    split
    · rfl
    · exact ho.2
  | wait _ k₂ z _ _ h1 _ _ _ _ h2 =>
    have ho₂ := h1.orphan ho
    -- `wait` takes a child of the caller, which an orphan is not
    have hne : c ≠ z := fun hc => by
      have := (mem_zombies.1 h2.mem).2.1
      rw [← hc, ho₂.2] at this
      cases this
    refine ⟨?_, (h2.pcb c).1.trans ho₂.2⟩
    rw [h2.status_apply, if_neg hne]
    exact ho₂.1

/-- A parent that calls `wait` collects a zombie at once if it has one. -/
theorem sysWait_collects (h : Family k) (hc : k.cont k.sys.curr = .user) (hz : (k.zombies k.sys.curr).Nonempty) :
    ∃ k' z, k.sysWait = some (k', .back) ∧ z ∈ k.zombies k.sys.curr ∧
      k'.sys.status = Function.update k.sys.status z .unused := by
  obtain ⟨hI, heven⟩ := h
  have hr := hI.2
  have hl : Live k.sys k.sys.curr := hr.live
  have hunits := heven.units _ hr.curr hl
  have howed : k.owed k.sys.curr = 0 := by
    unfold owed
    rw [hc]
    rfl
  have hpos := Finset.card_pos.2 hz
  have hle : (k.zombies k.sys.curr).card ≤ procNum := zombies_le
  unfold procNum at hle
  -- there is a unit for each zombie, so P does not block
  have hv : int32 (k.sys.value (.zombie k.sys.curr) - 1) = k.sys.value (.zombie k.sys.curr) - 1 :=
    int32_of_range (by omega) (by omega)
  obtain ⟨s, hs, hst, hcurr⟩ : ∃ s, k.sys.semP (.zombie k.sys.curr) = some s ∧ s.status = k.sys.status ∧
      s.curr = k.sys.curr := by
    refine ⟨k.sys.setValue (.zombie k.sys.curr) (k.sys.value (.zombie k.sys.curr) - 1), ?_, rfl, rfl⟩
    unfold Sys.semP
    simp only [Sys.setValue, Function.update_self, hv]
    rw [if_neg (by omega)]
  -- a zombie child counts as a child
  have hnz : (k.pcb k.sys.curr).childNum ≠ 0 := fun h0 => by
    obtain ⟨q, hq⟩ := hz
    obtain ⟨h1, h2, h3⟩ := mem_zombies.1 hq
    have := (heven.children_empty hr).1 h0
    have hm : q ∈ k.children k.sys.curr := mem_children.2 ⟨h1, h2, by rw [h3]; decide⟩
    rw [this] at hm
    exact absurd hm (Finset.notMem_empty q)
  have hzs : Kernel.zombies { k with sys := s } k.sys.curr = k.zombies k.sys.curr := by
    unfold zombies
    rw [hst]
  obtain ⟨z, hfind⟩ := procFindzombie_isSome (k := { k with sys := s }) (hzs.symm ▸ hz)
  obtain ⟨k₁, hk₁⟩ : ∃ k₁, Kernel.waitRest { k with sys := s } = some k₁ := by
    unfold Kernel.waitRest
    refine ⟨_, Option.bind_eq_some_iff.2 ⟨z, ?_, rfl⟩⟩
    rw [hcurr]
    exact hfind
  obtain ⟨z', hz'⟩ := waitRest_waited hk₁
  refine ⟨k₁, z', ?_, ?_, by rw [hz'.status, hst]⟩
  · have hnb : s.status k.sys.curr ≠ .blocked := by
      rw [hst, hr.status]
      decide
    unfold Kernel.sysWait
    simp only [if_neg hnz]
    refine Option.bind_eq_some_iff.2 ⟨s, hs, ?_⟩
    simp only [if_neg hnb]
    exact Option.bind_eq_some_iff.2 ⟨k₁, hk₁, rfl⟩
  · have hmem := hz'.mem
    rw [← hzs]
    show z' ∈ Kernel.zombies { k with sys := s } k.sys.curr
    rw [← hcurr]
    exact hmem

/-- In every state that the kernel reaches, the parent of a zombie, where it has one, is alive, and its next
`wait` frees a zombie child at once. An orphan stays in its PCB for ever: the parent of a process that exits
after it is NULL, and no `wait` looks for such a process. -/
theorem zombies_wait {k₀ : Kernel} {es : List Event} (hb : boot = some k₀) (hrun : Run Step k₀ es k) :
    (∀ z p, k.sys.status z = .zombie → (k.pcb z).parent = some p →
      p < procNum ∧ (k.sys.status p ≠ .unused ∧ k.sys.status p ≠ .zombie) ∧
      (k.sys.curr = p → k.may .wait → ∃ k' z', k.handle .wait = some (k', .back) ∧ k.sys.status z' = .zombie ∧
        (k.pcb z').parent = some p ∧ k'.sys.status = Function.update k.sys.status z' .unused)) ∧
      ∀ z, Orphan k z → ∀ es' k', Run Step k es' k' → Orphan k' z := by
  have h := run_family hb hrun
  refine ⟨fun z p hz hp => ?_, fun z ho es' k' hrun' => ?_⟩
  · obtain ⟨h1, h2, h3⟩ := h.even.parent z p hp
    refine ⟨h2, h3, fun hc hm => ?_⟩
    subst hc
    obtain ⟨k', z', h4, h5, h6⟩ := sysWait_collects h (of_decide_eq_true hm).1 ⟨z, mem_zombies.2 ⟨h1, hp, hz⟩⟩
    obtain ⟨-, h7, h8⟩ := mem_zombies.1 h5
    exact ⟨k', z', h4, h8, h7, h6⟩
  · have hI : Family k' ∧ Orphan k' z := Run.invariant (I := fun k => Family k ∧ Orphan k z)
      (fun _ _ _ hs hst => ⟨step_family hs.1 hst, step_orphan hs.1 hst hs.2⟩) hrun' ⟨h, ho⟩
    exact hI.2

theorem zombies_wait_demo : ∃ k₀ k, boot = some k₀ ∧ Run Step k₀ [.timer, .fork, .timer, .fork, .exit 0, .exit 0] k ∧
    k.sys.status 1 ≠ .zombie ∧ ∀ es' k', Run Step k es' k' → Orphan k' 3 := by
  have hev : (boot.bind fun k₀ => [Event.timer, .fork, .timer, .fork, .exit 0, .exit 0].foldlM step k₀).any
      (fun k => decide (k.sys.status 2 = .zombie ∧ (k.pcb 2).parent = some 1 ∧ Orphan k 3)) = true := by decide +kernel
  obtain ⟨k, hk, hr⟩ := (Option.any_eq_true _ _).1 hev
  obtain ⟨k₀, hb, hk⟩ := Option.bind_eq_some_iff.1 hk
  obtain ⟨h1, h2, h3⟩ := of_decide_eq_true hr
  have hrun := Run.of_foldlM hk
  obtain ⟨h4, h5⟩ := zombies_wait hb hrun
  exact ⟨k₀, k, hb, hrun, (h4 2 1 h1 h2).2.1.2, h5 3 h3⟩

/-- Process 2 exits before its child in PCB 3. -/
theorem orphan_stays : ¬ ∀ k₀ es k, boot = some k₀ → Run Step k₀ es k → ∀ z, k.sys.status z = .zombie → z ≠ k.sys.curr →
    ∃ p, (k.pcb z).parent = some p ∧ k.sys.status p ≠ .unused ∧ k.sys.status p ≠ .zombie := by
  intro hall
  have hev : (boot.bind fun k₀ => [Event.timer, .fork, .timer, .fork, .exit 0, .exit 0].foldlM step k₀).any
      (fun k => decide (Orphan k 3 ∧ 3 ≠ k.sys.curr)) = true := by decide +kernel
  obtain ⟨k, hk, hr⟩ := (Option.any_eq_true _ _).1 hev
  obtain ⟨k₀, hb, hk⟩ := Option.bind_eq_some_iff.1 hk
  obtain ⟨⟨h1, h2⟩, h3⟩ := of_decide_eq_true hr
  obtain ⟨p, hp, -⟩ := hall k₀ _ k hb (Run.of_foldlM hk) 3 h1 h3
  rw [h2] at hp
  cases hp

end TinyOS.Kernel
