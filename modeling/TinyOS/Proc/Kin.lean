/-
The family of a process: its children and the zombies among them, and the events that leave every family
as it is.
-/
import TinyOS.Proc.Readers

namespace TinyOS.Kernel

open TinyOS.Lib TinyOS.Klib

variable {k k' : Kernel} {G dom : Sema → Prop} {wait : Sema → List Nat} {p q c : Nat} {x : Sema}
  {s : Sys Sema} {e : Event} {out : Out}

/-! ## Families -/

def children (k : Kernel) (p : Nat) : Finset Nat :=
  (Finset.range procNum).filter fun q => (k.pcb q).parent = some p ∧ k.sys.status q ≠ .unused

def zombies (k : Kernel) (p : Nat) : Finset Nat :=
  (Finset.range procNum).filter fun q => (k.pcb q).parent = some p ∧ k.sys.status q = .zombie

/-- The unit that a process has taken, or waits for, in `sys_wait`. -/
def owed (k : Kernel) (p : Nat) : Int := if k.cont p = .wait then 1 else 0

/-- Parents are alive, even where the pointer is that of a free PCB; `child_num` and `zombie_sem` count what
they are for. -/
structure Even (k : Kernel) : Prop where
  parent : ∀ q p, (k.pcb q).parent = some p → q < procNum ∧ p < procNum ∧ Live k.sys p
  count : ∀ p < procNum, Live k.sys p → (k.pcb p).childNum = (k.children p).card
  units : ∀ p < procNum, Live k.sys p → k.sys.value (.zombie p) + k.owed p = (k.zombies p).card

theorem mem_children : q ∈ k.children p ↔ q < procNum ∧ (k.pcb q).parent = some p ∧ k.sys.status q ≠ .unused := by
  unfold children
  rw [Finset.mem_filter, Finset.mem_range]

theorem mem_zombies : q ∈ k.zombies p ↔ q < procNum ∧ (k.pcb q).parent = some p ∧ k.sys.status q = .zombie := by
  unfold zombies
  rw [Finset.mem_filter, Finset.mem_range]

theorem children_le : (k.children p).card ≤ procNum :=
  (Finset.card_filter_le _ _).trans (Finset.card_range _).le

theorem zombies_le : (k.zombies p).card ≤ procNum :=
  (Finset.card_filter_le _ _).trans (Finset.card_range _).le

/-! ## What leaves a family alone -/

structure Kin (k k' : Kernel) : Prop where
  value : ∀ p, k'.sys.value (.zombie p) = k.sys.value (.zombie p)
  pcb : ∀ q, (k'.pcb q).parent = (k.pcb q).parent ∧ (k'.pcb q).childNum = (k.pcb q).childNum ∧
    (k'.pcb q).pid = (k.pcb q).pid ∧ (k'.pcb q).exitCode = (k.pcb q).exitCode
  unused : ∀ q, k'.sys.status q = .unused ↔ k.sys.status q = .unused
  zombie : ∀ q, k'.sys.status q = .zombie ↔ k.sys.status q = .zombie
  cont : ∀ q, k'.cont q = .wait ↔ k.cont q = .wait
  nextPid : k'.nextPid = k.nextPid

theorem Kin.refl (k : Kernel) : Kin k k :=
  ⟨fun _ => rfl, fun _ => ⟨rfl, rfl, rfl, rfl⟩, fun _ => Iff.rfl, fun _ => Iff.rfl, fun _ => Iff.rfl, rfl⟩

theorem Kin.trans {k₀ : Kernel} (h : Kin k₀ k) (h' : Kin k k') : Kin k₀ k' := by
  refine ⟨fun p => (h'.value p).trans (h.value p), fun q => ?_, fun q => (h'.unused q).trans (h.unused q),
    fun q => (h'.zombie q).trans (h.zombie q), fun q => (h'.cont q).trans (h.cont q), h'.nextPid.trans h.nextPid⟩
  obtain ⟨a1, a2, a3, a4⟩ := h.pcb q
  obtain ⟨b1, b2, b3, b4⟩ := h'.pcb q
  exact ⟨b1.trans a1, b2.trans a2, b3.trans a3, b4.trans a4⟩

theorem Kin.live (h : Kin k k') : Live k'.sys p ↔ Live k.sys p := by
  unfold Live
  simp only [ne_eq, h.unused p, h.zombie p]

theorem Kin.children (h : Kin k k') : k'.children p = k.children p := by
  ext q
  simp only [mem_children, (h.pcb q).1, ne_eq, h.unused q]

theorem Kin.zombies (h : Kin k k') : k'.zombies p = k.zombies p := by
  ext q
  rw [mem_zombies, mem_zombies, (h.pcb q).1, h.zombie q]

theorem Kin.even (h : Kin k k') (he : Even k) : Even k' := by
  refine ⟨fun q p hq => ?_, fun p hp hl => ?_, fun p hp hl => ?_⟩
  · rw [(h.pcb q).1] at hq
    rw [h.live]
    exact he.parent q p hq
  · rw [h.live] at hl
    rw [(h.pcb p).2.1, h.children]
    exact he.count p hp hl
  · rw [h.live] at hl
    have : k'.owed p = k.owed p := by
      unfold owed
      simp only [h.cont p]
    rw [h.value, this, h.zombies]
    exact he.units p hp hl

theorem Kin.setCont {r : Cont} (h : Kin k k') (hp : k.cont p ≠ .wait) (hr : r ≠ .wait) : Kin k (k'.setCont p r) := by
  refine ⟨h.value, h.pcb, h.unused, h.zombie, fun q => ?_, h.nextPid⟩
  unfold Kernel.setCont
  simp only [Function.update_apply]
  split
  · next hq =>
    rw [hq]
    exact ⟨fun hc => absurd hc hr, fun hc => absurd hc hp⟩
  · exact h.cont q

theorem Kin.back {r : Reply} (h : Kin k k') (hp : k.cont k'.sys.curr ≠ .wait) : Kin k (k'.back r) := by
  have h' : Kin k (k'.setCont k'.sys.curr .user) := h.setCont hp (by simp)
  exact ⟨h'.value, h'.pcb, h'.unused, h'.zombie, h'.cont, h'.nextPid⟩

/-- The current process stops or goes on. -/
theorem Kin.status {t : Status} (hr : Runs k) (hv : ∀ p, s.value (.zombie p) = k.sys.value (.zombie p))
    (hs : s.status = Function.update k.sys.status k.sys.curr t) (h1 : t ≠ .unused) (h2 : t ≠ .zombie) :
    Kin k { k with sys := s } := by
  have hst : ∀ (q : Nat) (o : Status), t ≠ o → o ≠ .running →
      (s.status q = o ↔ k.sys.status q = o) := fun q o ho hne => by
    rw [hs]
    by_cases hq : q = k.sys.curr
    · rw [hq, Function.update_self, hr.status]
      exact ⟨fun hc => absurd hc ho, fun hc => absurd hc.symm hne⟩
    · rw [Function.update_of_ne hq]
  exact ⟨hv, fun _ => ⟨rfl, rfl, rfl, rfl⟩, fun q => hst q _ h1 (by decide), fun q => hst q _ h2 (by decide),
    fun _ => Iff.rfl, rfl⟩

/-- Blocked processes are woken. -/
theorem Kin.woke (hw : Woke k.sys s) (hv : ∀ p, s.value (.zombie p) = k.sys.value (.zombie p)) :
    Kin k { k with sys := s } := by
  have hst : ∀ (q : Nat) (o : Status), o ≠ .blocked → o ≠ .ready →
      (s.status q = o ↔ k.sys.status q = o) := fun q o h1 h2 => by
    rcases hw.2 q with h | ⟨h3, h4⟩
    · rw [h]
    · rw [h3, h4]
      exact ⟨fun hc => absurd hc.symm h2, fun hc => absurd hc.symm h1⟩
  exact ⟨hv, fun _ => ⟨rfl, rfl, rfl, rfl⟩, fun q => hst q _ (by decide) (by decide), fun q =>
    hst q _ (by decide) (by decide), fun _ => Iff.rfl, rfl⟩

theorem semP_kin (hr : Runs k) (hx : ∀ p, x ≠ .zombie p) (hs : k.sys.semP x = some s) : Kin k { k with sys := s } := by
  have hv : ∀ p, s.value (.zombie p) = k.sys.value (.zombie p) := fun p => by
    rw [Sys.semP_value hs, Function.update_of_ne (Ne.symm (hx p))]
  rcases Sys.semP_cases hs with ⟨-, rfl⟩ | ⟨-, l, -, rfl⟩
  · exact ⟨hv, fun _ => ⟨rfl, rfl, rfl, rfl⟩, fun _ => Iff.rfl, fun _ => Iff.rfl, fun _ => Iff.rfl, rfl⟩
  · exact Kin.status (t := .blocked) hr hv rfl (by decide) (by decide)

theorem Runs.yield_kin (hr : Runs k) : Kin k k.sysYield :=
  Kin.status (t := .ready) hr (fun _ => rfl) rfl (by decide) (by decide)

/-! ## The serial line -/

theorem getcharRest_kin {ch : UInt8} (h : k.getcharRest = some (ch, k')) :
    Kin k k' ∧ k'.sys = k.sys ∧ k'.cont = k.cont := by
  obtain ⟨hpop, -⟩ := getcharRest_some h
  have hk : Kin k k.popFront.2 ∧ k.popFront.2.sys = k.sys ∧ k.popFront.2.cont = k.cont := by
    unfold Kernel.popFront
    split
    · exact ⟨⟨fun _ => rfl, fun _ => ⟨rfl, rfl, rfl, rfl⟩, fun _ => Iff.rfl, fun _ => Iff.rfl, fun _ => Iff.rfl, rfl⟩,
        rfl, rfl⟩
    · exact ⟨.refl k, rfl, rfl⟩
  rw [hpop] at hk
  exact hk

theorem serialRead_kin : ∀ {n : Nat} {more : List UInt8} {k : Kernel}, Runs k → k.cont k.sys.curr ≠ .wait →
    serialRead n more k = some (k', out) → Kin k k'
  | 0, more, k, hr, hc, he => by
    cases he
    exact (Kin.refl k).back hc
  | n + 1, more, k, hr, hc, he => by
    unfold serialRead at he
    obtain ⟨s, hs, he⟩ := Option.bind_eq_some_iff.1 he
    have h₁ : Kin k { k with sys := s } := semP_kin hr (by simp) hs
    split at he
    · cases he
      exact h₁.setCont hc (by simp)
    · next hb =>
      obtain ⟨⟨ch, k₁⟩, hg, he⟩ := Option.bind_eq_some_iff.1 he
      obtain ⟨h₂, e1, e4⟩ := getcharRest_kin hg
      -- the caller did not block, so no status has changed
      have hst : s.status = k.sys.status := by
        rcases Sys.semP_cases hs with ⟨-, rfl⟩ | ⟨-, l, -, rfl⟩
        · rfl
        · exact absurd (Function.update_self ..) hb
      have hcurr : k₁.sys.curr = k.sys.curr := by rw [e1]; exact semP_curr hs
      have hr₁ : Runs k₁ := hr.congr hcurr (by rw [e1]; exact hst) (by rw [e4]; exact hr.cont)
      have hc₁ : k₁.cont k₁.sys.curr ≠ .wait := by rw [hcurr, e4]; exact hc
      by_cases hch : ch = 10
      · simp only [if_pos hch, Option.some.injEq, Prod.mk.injEq] at he
        obtain ⟨rfl, rfl⟩ := he
        exact (h₁.trans h₂).trans ((Kin.refl k₁).back hc₁)
      · simp only [if_neg hch] at he
        exact (h₁.trans h₂).trans (serialRead_kin hr₁ hc₁ he)

theorem serialVs_value {l : List Nat} : ∀ {s t : Sys Sema}, l.foldlM (fun s _ => s.semV .serial) s = some t →
    ∀ p, t.value (.zombie p) = s.value (.zombie p) := by
  induction l with
  | nil =>
    intro s t h p
    cases h
    rfl
  | cons i l ih =>
    intro s t h p
    rw [List.foldlM_cons] at h
    obtain ⟨s₁, h1, h⟩ := Option.bind_eq_some_iff.1 h
    rw [ih h p, Sys.semV_value h1, Function.update_of_ne (by simp)]

theorem pushBack_rest {ch : UInt8} (he : k.pushBack ch = some k') :
    (∀ p, k'.sys.value (.zombie p) = k.sys.value (.zombie p)) ∧ k'.pcb = k.pcb ∧ k'.nextPid = k.nextPid := by
  unfold Kernel.pushBack at he
  simp only at he
  split at he
  · obtain ⟨s, hs, hk⟩ := Option.bind_eq_some_iff.1 he
    cases hk
    exact ⟨serialVs_value hs, rfl, rfl⟩
  · cases he
    exact ⟨fun _ => rfl, rfl, rfl⟩

theorem serialHandle_rest : ∀ {l : List UInt8} {k : Kernel}, serialHandle l k = some k' →
    (∀ p, k'.sys.value (.zombie p) = k.sys.value (.zombie p)) ∧ k'.pcb = k.pcb ∧ k'.nextPid = k.nextPid
  | [], k, he => by
    cases he
    exact ⟨fun _ => rfl, rfl, rfl⟩
  | ch :: rest, k, he => by
    -- after a byte is pushed the rest of the input is handled
    have hpush : ∀ {b : UInt8}, (k.pushBack b).bind (serialHandle rest) = some k' →
        (∀ p, k'.sys.value (.zombie p) = k.sys.value (.zombie p)) ∧ k'.pcb = k.pcb ∧ k'.nextPid = k.nextPid := by
      intro b hb
      obtain ⟨k₁, h1, h2⟩ := Option.bind_eq_some_iff.1 hb
      obtain ⟨a1, a2, a3⟩ := pushBack_rest h1
      obtain ⟨b1, b2, b3⟩ := serialHandle_rest (l := rest) h2
      exact ⟨fun p => (b1 p).trans (a1 p), b2.trans a2, b3.trans a3⟩
    unfold serialHandle at he
    split at he
    · exact serialHandle_rest (l := rest) he
    · split at he
      · cases he
        exact ⟨fun _ => rfl, rfl, rfl⟩
      · split at he
        · obtain ⟨b1, b2, b3⟩ := serialHandle_rest (l := rest) he
          obtain ⟨a1, a2, -, -⟩ := popBack_eq (k := k)
          have a3 : k.popBack.2.nextPid = k.nextPid := by
            unfold Kernel.popBack
            split
            · rfl
            · rfl
          exact ⟨fun p => by rw [b1, a1], b2.trans a2, b3.trans a3⟩
        · simp only [Option.bind_eq_bind] at he
          generalize (if ch = 13 then (10 : UInt8) else ch) = b at he
          split at he
          · exact hpush he
          · exact serialHandle_rest (l := rest) he

theorem serialHandle_kin {l : List UInt8} (h : Waits G dom wait k) (hG : ¬ G .serial)
    (he : serialHandle l k = some k') : Kin k k' := by
  obtain ⟨h1, h2, -⟩ := serialHandle_woke hG h he
  obtain ⟨h3, h4, h5⟩ := serialHandle_rest he
  have hk : Kin k { k with sys := k'.sys } := .woke h1 h3
  exact ⟨hk.value, fun q => by rw [h4]; exact ⟨rfl, rfl, rfl, rfl⟩, hk.unused, hk.zombie, fun q => by rw [h2], h5⟩

/-! ## Events without a family -/

/-- `fork`, `exit` and `wait`, and the way on from the `sem_p` of `wait`. -/
def Kindred (k : Kernel) : Event → Prop
  | .fork => True
  | .exit _ => True
  | .wait => True
  | .resume => k.cont k.sys.curr = .wait
  | _ => False

theorem sysSleep_kin {cur ticks : Nat} (hr : Runs k) (hc : k.cont k.sys.curr ≠ .wait) :
    Kin k (k.sysSleep cur ticks).1 := by
  unfold Kernel.sysSleep
  split
  · exact hr.yield_kin.setCont hc (by simp)
  · exact (Kin.refl k).setCont hc (by simp)

theorem sysSemOpen_kin {v : Int} (hc : k.cont k.sys.curr ≠ .wait) : Kin k (k.sysSemOpen v) := by
  unfold Kernel.sysSemOpen
  simp only
  cases k.procAllocusem k.sys.curr with
  | none => exact (Kin.refl k).back hc
  | some j =>
    cases hb : k.usemAlloc v with
    | none => exact (Kin.refl k).back hc
    | some uk =>
      obtain ⟨u, -, rfl⟩ := Option.map_eq_some_iff.1 hb
      refine Kin.back ⟨fun p => ?_, fun q => ?_, fun _ => Iff.rfl, fun _ => Iff.rfl, fun _ => Iff.rfl, rfl⟩ hc
      · show Function.update k.sys.value (.user u) v (.zombie p) = _
        rw [Function.update_of_ne (by simp)]
      · rw [setPcb_apply]
        split
        · next hq => rw [hq]; exact ⟨rfl, rfl, rfl, rfl⟩
        · exact ⟨rfl, rfl, rfl, rfl⟩

theorem sysSemP_kin {id : Int} (hr : Runs k) (hc : k.cont k.sys.curr ≠ .wait) (he : k.sysSemP id = some (k', out)) :
    Kin k k' := by
  unfold Kernel.sysSemP at he
  simp only at he
  split at he
  · cases he
    exact (Kin.refl k).back hc
  · obtain ⟨s, hs, he⟩ := Option.bind_eq_some_iff.1 he
    cases he
    have h₁ : Kin k { k with sys := s } := semP_kin hr (by simp) hs
    exact h₁.back (by show k.cont s.curr ≠ _; rw [semP_curr hs]; exact hc)

theorem sysSemV_kin {id : Int} (h : Waits (fun _ => False) dom wait k) (hr : Runs k) (hc : k.cont k.sys.curr ≠ .wait)
    (he : k.sysSemV id = some k') : Kin k k' := by
  unfold Kernel.sysSemV at he
  split at he
  · cases he
    exact (Kin.refl k).back hc
  · next u hu =>
    obtain ⟨s, hs, he⟩ := Option.bind_eq_some_iff.1 he
    cases he
    obtain ⟨-, hj, hus⟩ := procGetusem_some hu
    have hd : dom (.user u) := h.dom_user hr.curr hr.live ⟨_, hj, hus⟩
    obtain ⟨h1, -⟩ := h.woke hd (fun hg => hg.elim) hs
    have h₁ : Kin k { k with sys := s } := .woke h1 fun p => by
      rw [Sys.semV_value hs, Function.update_of_ne (by simp)]
    exact h₁.back (by show k.cont s.curr ≠ _; rw [h1.1]; exact hc)

theorem sysSemClose_kin {id : Int} (hc : k.cont k.sys.curr ≠ .wait) : Kin k (k.sysSemClose id) := by
  unfold Kernel.sysSemClose
  simp only
  split
  · exact (Kin.refl k).back hc
  · refine Kin.back ⟨fun _ => rfl, fun q => ?_, fun _ => Iff.rfl, fun _ => Iff.rfl, fun _ => Iff.rfl, rfl⟩ hc
    rw [setPcb_apply]
    split
    · next hq => rw [hq]; exact ⟨rfl, rfl, rfl, rfl⟩
    · exact ⟨rfl, rfl, rfl, rfl⟩

theorem handle_kin (h : Waits (fun _ => False) dom wait k) (hr : Runs k) (hm : k.may e) (hn : ¬ Kindred k e)
    (he : k.handle e = some (k', out)) : Kin k k' := by
  have huser : k.cont k.sys.curr = .user → k.cont k.sys.curr ≠ .wait := fun hc => by
    rw [hc]
    simp
  unfold Kernel.handle at he
  cases e with
  | yield =>
    cases he
    exact hr.yield_kin
  | sleep ticks =>
    have : Kin k (k.sysSleep k.tick (uint32 ticks)).1 := sysSleep_kin hr (huser (of_decide_eq_true hm).1)
    rw [Option.some.inj he] at this
    exact this
  | fork => exact absurd trivial hn
  | exec =>
    cases he
    exact .refl k
  | exit status => exact absurd trivial hn
  | wait => exact absurd trivial hn
  | semOpen value =>
    cases he
    exact sysSemOpen_kin (huser (of_decide_eq_true hm).1)
  | semP id => exact sysSemP_kin hr (huser (of_decide_eq_true hm).1) he
  | semV id =>
    obtain ⟨k₁, hk, he⟩ := Option.bind_eq_some_iff.1 he
    cases he
    exact sysSemV_kin h hr (huser (of_decide_eq_true hm).1) hk
  | semClose id =>
    cases he
    exact sysSemClose_kin (huser (of_decide_eq_true hm).1)
  | read count => exact serialRead_kin hr (huser (of_decide_eq_true hm).1) he
  | timer =>
    cases he
    obtain ⟨h1, h2, h3, h4, h5, h6⟩ := hr.yield_kin
    exact ⟨h1, h2, h3, h4, h5, h6⟩
  | serial bytes =>
    obtain ⟨k₁, hk, he⟩ := Option.bind_eq_some_iff.1 he
    cases he
    exact serialHandle_kin h id hk
  | resume =>
    rcases resume_cases he with ⟨cur, ticks, hk, hs⟩ | ⟨hk, -⟩ | ⟨n, more, ch, k₁, hk, hg, hend⟩
    · have : Kin k (k.sysSleep cur ticks).1 := sysSleep_kin hr (by rw [hk]; simp)
      rw [hs] at this
      exact this
    · exact absurd hk hn
    · obtain ⟨h₁, e1, e4⟩ := getcharRest_kin hg
      have hr₁ : Runs k₁ := hr.congr (by rw [e1]) (by rw [e1]) (by rw [e4]; exact hr.cont)
      have hc₁ : k₁.cont k₁.sys.curr ≠ .wait := by rw [e1, e4, hk]; simp
      rcases hend with ⟨-, rfl, rfl⟩ | ⟨-, hread⟩
      · exact h₁.trans ((Kin.refl k₁).back hc₁)
      · exact h₁.trans (serialRead_kin hr₁ hc₁ hread)

end TinyOS.Kernel
