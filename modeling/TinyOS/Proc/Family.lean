/-
Parents and children. `child_num` counts the children of a process, and the units of `zombie_sem` the
zombies among them that no `wait` has been promised: so `wait` finds a zombie whenever it looks for one.
-/
import TinyOS.Proc.Kin

namespace TinyOS.Kernel

open TinyOS.Lib TinyOS.Klib

variable {k k' : Kernel} {G dom : Sema → Prop} {wait : Sema → List Nat} {p q c : Nat} {x : Sema}
  {s : Sys Sema} {e : Event} {out : Out}

/-! ## `fork` -/

/-- What `fork` does to the PCBs, with the new process in PCB `c`. -/
structure Forked (k : Kernel) (c : Nat) (k' : Kernel) : Prop where
  lt : c < procNum
  ne : c ≠ k.sys.curr
  free : k.sys.status c = .unused
  curr : k'.sys.curr = k.sys.curr
  status : k'.sys.status = Function.update k.sys.status c .ready
  value : ∀ q, k'.sys.value (.zombie q) = if q = c then 0 else k.sys.value (.zombie q)
  parent : ∀ q, (k'.pcb q).parent = if q = c then some k.sys.curr else (k.pcb q).parent
  childNum : ∀ q, (k'.pcb q).childNum =
    if q = c then 0 else if q = k.sys.curr then int32 ((k.pcb q).childNum + 1) else (k.pcb q).childNum
  pid : ∀ q, (k'.pcb q).pid = if q = c then k.nextPid else (k.pcb q).pid
  exitCode : ∀ q, (k'.pcb q).exitCode = (k.pcb q).exitCode
  cont : ∀ q, k'.cont q = if q = k.sys.curr ∨ q = c then .user else k.cont q
  nextPid : k'.nextPid = int32 (k.nextPid + 1)
  reply : (k'.reply k.sys.curr).eax = k.nextPid

theorem sysFork_forked {k₁ : Kernel} (hr : Runs k) (ha : k.procAlloc = some (c, k₁)) : Forked k c k.sysFork := by
  obtain ⟨-, hlt, hst, hk₁⟩ := procAlloc_eq ha
  have hne : c ≠ k.sys.curr := fun hc => by
    rw [hc, hr.status] at hst
    cases hst
  have hcurr : k₁.sys.curr = k.sys.curr := by rw [hk₁]; rfl
  have hpcb₁ : ∀ q, k₁.pcb q = if q = c then ⟨k.nextPid, none, 0, (k.pcb c).exitCode, fun _ =>
    none⟩ else k.pcb q := fun q => by
    rw [hk₁]
    show Function.update k.pcb c _ q = _
    rw [Function.update_apply]
  have heq := procCopycurr_eq (k := k₁) (c := c) (by rw [hcurr]; exact hne) fun j => by rw [hpcb₁, if_pos rfl]
  have hfork : k.sysFork = ({ k₁.procCopycurr c with sys := (k₁.procCopycurr c).sys.procAddready c } : Kernel).back
      ⟨((k₁.procCopycurr c).pcb c).pid, 0, []⟩ := by
    unfold Kernel.sysFork
    rw [ha]
  rw [heq] at hfork
  have hpcb : ∀ q, k.sysFork.pcb q =
      if q = c then { k₁.pcb c with parent := some k.sys.curr, usems := (k₁.pcb k.sys.curr).usems }
      else if q = k.sys.curr then { k₁.pcb k.sys.curr with childNum := int32 ((k₁.pcb k.sys.curr).childNum + 1) }
          else k₁.pcb q := fun q => by
    rw [hfork]
    show Function.update (Function.update k₁.pcb k₁.sys.curr _) c _ q = _
    rw [Function.update_apply, Function.update_apply, hcurr]
  have hother : ∀ q, q ≠ c → k₁.pcb q = k.pcb q := fun q hq => by rw [hpcb₁, if_neg hq]
  have hself : k₁.pcb c = ⟨k.nextPid, none, 0, (k.pcb c).exitCode, fun _ => none⟩ := by rw [hpcb₁, if_pos rfl]
  refine ⟨hlt, hne, hst, ?_, ?_, fun q => ?_, fun q => ?_, fun q => ?_, fun q => ?_, fun q => ?_, fun q => ?_, ?_, ?_⟩
  · rw [hfork]
    exact hcurr
  · rw [hfork]
    show Function.update k₁.sys.status c .ready = _
    rw [hk₁]
    exact Function.update_idem ..
  · rw [hfork]
    show k₁.sys.value (.zombie q) = _
    rw [hk₁]
    show Function.update k.sys.value (.zombie c) 0 (.zombie q) = _
    by_cases hq : q = c
    · rw [if_pos hq, hq, Function.update_self]
    · rw [if_neg hq, Function.update_of_ne (by simpa using hq)]
  · rw [hpcb]
    split
    · rfl
    · split
      · next hq hq' => rw [hother _ hne.symm, hq']
      · next hq hq' => rw [hother q hq]
  · rw [hpcb]
    split
    · rw [hself]
    · split
      · next hq hq' => rw [hother _ hne.symm, hq']
      · next hq hq' => rw [hother q hq]
  · rw [hpcb]
    split
    · rw [hself]
    · split
      · next hq hq' => rw [hother _ hne.symm, hq']
      · next hq hq' => rw [hother q hq]
  · rw [hpcb]
    split
    · next hq => rw [hself, hq]
    · split
      · next hq hq' => rw [hother _ hne.symm, hq']
      · next hq hq' => rw [hother q hq]
  · rw [hfork]
    show Function.update (Function.update k₁.cont c .user) k₁.sys.curr .user q = _
    rw [Function.update_apply, Function.update_apply, hcurr, hk₁]
    by_cases hq : q = k.sys.curr
    · rw [if_pos hq, if_pos (Or.inl hq)]
    · rw [if_neg hq]
      by_cases hq' : q = c
      · rw [if_pos hq', if_pos (Or.inr hq')]
      · rw [if_neg hq', if_neg (not_or.2 ⟨hq, hq'⟩)]
  · rw [hfork]
    show k₁.nextPid = _
    rw [hk₁]
  · rw [hfork]
    show (Function.update (Function.update k₁.reply c ⟨0, 0, []⟩) k₁.sys.curr (Reply.mk _ 0 []) k.sys.curr).eax = _
    rw [hcurr, Function.update_self]
    show (Function.update (Function.update k₁.pcb k.sys.curr _) c _ c).pid = _
    rw [Function.update_self]
    show (k₁.pcb c).pid = _
    rw [hself]

theorem Forked.status_apply (h : Forked k c k') : k'.sys.status q = if q = c then .ready else k.sys.status q := by
  rw [h.status, Function.update_apply]

theorem Forked.live (h : Forked k c k') : Live k'.sys q ↔ q = c ∨ Live k.sys q := by
  unfold Live
  rw [h.status_apply]
  split
  · next hq => exact ⟨fun _ => Or.inl hq, fun _ => by decide⟩
  · next hq => exact ⟨Or.inr, fun hl => hl.resolve_left hq⟩

theorem Forked.dead (h : Forked k c k') : ¬ Live k.sys c := fun hl => hl.1 h.free

theorem Forked.even (h : Forked k c k') (hr : Runs k) (he : Even k) (hc : k.cont k.sys.curr ≠ .wait) : Even k' := by
  have hlive : Live k.sys k.sys.curr := hr.live
  -- nobody names the free PCB as a parent
  have hnone : ∀ q, (k.pcb q).parent ≠ some c := fun q hq => h.dead (he.parent q c hq).2.2
  refine ⟨fun q p hq => ?_, fun p hp hl => ?_, fun p hp hl => ?_⟩
  · rw [h.parent] at hq
    rw [h.live]
    split at hq
    · next hqc =>
      cases hq
      exact ⟨hqc ▸ h.lt, hr.curr, Or.inr hlive⟩
    · obtain ⟨h1, h2, h3⟩ := he.parent q p hq
      exact ⟨h1, h2, Or.inr h3⟩
  · rw [h.childNum]
    by_cases hpc : p = c
    · have hempty : k'.children p = ∅ := Finset.eq_empty_of_forall_notMem fun q hq => by
        obtain ⟨-, h1, -⟩ := mem_children.1 hq
        rw [h.parent, hpc] at h1
        split at h1
        · exact h.ne (Option.some.inj h1).symm
        · exact hnone q h1
      rw [if_pos hpc, hempty]
      rfl
    · have hlp := (h.live.1 hl).resolve_left hpc
      have hcount := he.count p hp hlp
      rw [if_neg hpc]
      by_cases hpcurr : p = k.sys.curr
      · have hins : k'.children p = insert c (k.children p) := by
          ext q
          rw [Finset.mem_insert, mem_children, mem_children, h.parent, h.status_apply]
          by_cases hqc : q = c
          · rw [if_pos hqc, if_pos hqc]
            exact ⟨fun _ => Or.inl hqc, fun _ => ⟨hqc ▸ h.lt, by rw [hpcurr], by decide⟩⟩
          · rw [if_neg hqc, if_neg hqc]
            exact ⟨Or.inr, fun hx => hx.resolve_left hqc⟩
        have hnot : c ∉ k.children p := fun hm => (mem_children.1 hm).2.2 h.free
        have hle : (k.children p).card ≤ procNum := children_le
        unfold procNum at hle
        rw [if_pos hpcurr, hins, Finset.card_insert_of_notMem hnot, hcount, int32_of_range (by omega) (by omega)]
        push_cast
        rfl
      · have hsame : k'.children p = k.children p := by
          ext q
          rw [mem_children, mem_children, h.parent, h.status_apply]
          by_cases hqc : q = c
          · rw [if_pos hqc, if_pos hqc]
            refine ⟨fun hx => absurd (Option.some.inj hx.2.1).symm hpcurr, fun hx => ?_⟩
            rw [hqc] at hx
            exact absurd h.free hx.2.2
          · rw [if_neg hqc, if_neg hqc]
        rw [if_neg hpcurr, hsame, hcount]
  · rw [h.value]
    have hzom : p ≠ c → k'.zombies p = k.zombies p := fun hpc => by
      ext q
      rw [mem_zombies, mem_zombies, h.parent, h.status_apply]
      by_cases hqc : q = c
      · rw [if_pos hqc, if_pos hqc]
        refine ⟨fun hx => (by cases hx.2.2), fun hx => ?_⟩
        rw [hqc, h.free] at hx
        cases hx.2.2
      · rw [if_neg hqc, if_neg hqc]
    by_cases hpc : p = c
    · have hempty : k'.zombies p = ∅ := Finset.eq_empty_of_forall_notMem fun q hq => by
        obtain ⟨-, h1, -⟩ := mem_zombies.1 hq
        rw [h.parent, hpc] at h1
        split at h1
        · exact h.ne (Option.some.inj h1).symm
        · exact hnone q h1
      have howed : k'.owed p = 0 := by
        unfold owed
        rw [h.cont, if_pos (Or.inr hpc)]
        rfl
      rw [if_pos hpc, hempty, howed]
      rfl
    · have hlp := (h.live.1 hl).resolve_left hpc
      have howed : k'.owed p = k.owed p := by
        unfold owed
        rw [h.cont]
        by_cases hpcurr : p = k.sys.curr
        · rw [if_pos (Or.inl hpcurr), hpcurr, if_neg hc]
          rfl
        · rw [if_neg (not_or.2 ⟨hpcurr, hpc⟩)]
      rw [if_neg hpc, howed, hzom hpc]
      exact he.units p hp hlp

/-! ## `exit` -/

/-- What `exit` of the current process does to the PCBs. -/
structure Exited (k : Kernel) (code : Int) (k' : Kernel) : Prop where
  value : ∀ q, k'.sys.value (.zombie q) =
    if (k.pcb k.sys.curr).parent = some q then int32 (k.sys.value (.zombie q) + 1) else k.sys.value (.zombie q)
  parent : ∀ q, (k'.pcb q).parent =
    if q < procNum ∧ (k.pcb q).parent = some k.sys.curr then none else (k.pcb q).parent
  childNum : ∀ q, (k'.pcb q).childNum = (k.pcb q).childNum
  pid : ∀ q, (k'.pcb q).pid = (k.pcb q).pid
  exitCode : ∀ q, (k'.pcb q).exitCode = if q = k.sys.curr then code else (k.pcb q).exitCode
  unused : ∀ q, k'.sys.status q = .unused ↔ k.sys.status q = .unused
  zombie : ∀ q, k'.sys.status q = .zombie ↔ q = k.sys.curr ∨ k.sys.status q = .zombie
  cont : k'.cont = k.cont
  nextPid : k'.nextPid = k.nextPid

theorem procMakezombie_exited {v : Int} (h : Waits (fun _ => False) dom wait k) (hr : Runs k)
    (he : k.procMakezombie k.sys.curr v = some k') : Exited k v k' := by
  obtain ⟨-, hcont, -, hst⟩ := h.procMakezombie hr.curr hr.status (fun q _ hg => hg.elim) he
  have hstatus : ∀ (q : Nat) (o : Status), o ≠ .blocked → o ≠ .ready →
      (k'.sys.status q = o ↔ Function.update k.sys.status k.sys.curr .zombie q = o) := fun q o h1 h2 => by
    rcases hst with hst | ⟨i, hi, hb, hst⟩
    · rw [hst]
    · rw [hst]
      by_cases hqi : q = i
      · rw [hqi, Function.update_self, Function.update_of_ne hi, hb]
        exact ⟨fun hc => absurd hc.symm h2, fun hc => absurd hc.symm h1⟩
      · rw [Function.update_of_ne hqi]
  -- the exit code first, then the unit for the parent, then the children's pointers
  unfold Kernel.procMakezombie at he
  simp only [Kernel.setPcb, Option.bind_eq_bind] at he
  have hself : (Function.update k.pcb k.sys.curr { k.pcb k.sys.curr with exitCode := v } k.sys.curr) =
      { k.pcb k.sys.curr with exitCode := v } := Function.update_self ..
  rw [hself] at he
  obtain ⟨s, hs, hk⟩ := Option.bind_eq_some_iff.1 he
  cases hk
  have hpcb : ∀ q, Function.update k.pcb k.sys.curr { k.pcb k.sys.curr with exitCode := v } q =
      ⟨(k.pcb q).pid, (k.pcb q).parent, (k.pcb q).childNum, if q = k.sys.curr then v else (k.pcb q).exitCode,
        (k.pcb q).usems⟩ := fun q => by
    rw [Function.update_apply]
    split
    · next hq => rw [hq]
    · rfl
  refine ⟨fun q => ?_, fun q => ?_, fun q => ?_, fun q => ?_, fun q => ?_, fun q => ?_, fun q => ?_, hcont, rfl⟩
  · show s.value _ = _
    cases hpar : (k.pcb k.sys.curr).parent with
    | none =>
      rw [hpar, Option.elim_none] at hs
      cases hs
      rw [if_neg (by simp)]
      rfl
    | some i =>
      rw [hpar, Option.elim_some] at hs
      rw [Sys.semV_value hs]
      show Function.update k.sys.value (.zombie i) (int32 (k.sys.value (.zombie i) + 1)) (.zombie q) = _
      by_cases hq : q = i
      · rw [hq, Function.update_self, if_pos rfl]
      · rw [Function.update_of_ne (by simpa using hq), if_neg fun hc => hq (Option.some.inj hc).symm]
  · simp only [hpcb]
    split <;> rfl
  · simp only [hpcb]
    split <;> rfl
  · simp only [hpcb]
    split <;> rfl
  · simp only [hpcb]
    split <;> rfl
  · rw [hstatus q _ (by decide) (by decide)]
    by_cases hq : q = k.sys.curr
    · rw [hq, Function.update_self, hr.status]
      exact iff_of_false (by decide) (by decide)
    · rw [Function.update_of_ne hq]
  · rw [hstatus q _ (by decide) (by decide)]
    by_cases hq : q = k.sys.curr
    · rw [hq, Function.update_self]
      exact ⟨fun _ => Or.inl rfl, fun _ => rfl⟩
    · rw [Function.update_of_ne hq]
      exact ⟨Or.inr, fun hc => hc.resolve_left hq⟩

theorem Exited.live {v : Int} (h : Exited k v k') : Live k'.sys q ↔ q ≠ k.sys.curr ∧ Live k.sys q := by
  unfold Live
  rw [ne_eq, ne_eq, h.unused, h.zombie, not_or]
  exact ⟨fun ⟨h1, h2, h3⟩ => ⟨h2, h1, h3⟩, fun ⟨h2, h1, h3⟩ => ⟨h1, h2, h3⟩⟩

theorem Exited.even {v : Int} (h : Exited k v k') (hr : Runs k) (he : Even k) : Even k' := by
  have hnz : k.sys.status k.sys.curr ≠ .zombie := by rw [hr.status]; decide
  have hpar : ∀ {p}, p ≠ k.sys.curr → ∀ q, (k'.pcb q).parent = some p ↔ (k.pcb q).parent = some p := fun hp q => by
    rw [h.parent]
    split
    · next hq =>
      rw [hq.2]
      exact ⟨fun hc => (by cases hc), fun hc => absurd (Option.some.inj hc).symm hp⟩
    · exact Iff.rfl
  refine ⟨fun q p hq => ?_, fun p hp hl => ?_, fun p hp hl => ?_⟩
  · rw [h.parent] at hq
    split at hq
    · cases hq
    · next hn =>
      obtain ⟨h1, h2, h3⟩ := he.parent q p hq
      exact ⟨h1, h2, h.live.2 ⟨fun hc => hn ⟨h1, hc ▸ hq⟩, h3⟩⟩
  · obtain ⟨hpc, hlp⟩ := h.live.1 hl
    have hsame : k'.children p = k.children p := by
      ext q
      rw [mem_children, mem_children, hpar hpc, ne_eq, h.unused]
    rw [h.childNum, hsame]
    exact he.count p hp hlp
  · obtain ⟨hpc, hlp⟩ := h.live.1 hl
    have hunits := he.units p hp hlp
    have howed : k'.owed p = k.owed p := by
      unfold owed
      rw [h.cont]
    have hle : (k.zombies p).card ≤ procNum := zombies_le
    unfold procNum at hle
    have ho : 0 ≤ k.owed p ∧ k.owed p ≤ 1 := by
      unfold owed
      split <;> omega
    rw [h.value, howed]
    -- the parent gets a zombie and a unit; at most 64 zombies keep the counter small
    by_cases hpp : (k.pcb k.sys.curr).parent = some p
    · have hins : k'.zombies p = insert k.sys.curr (k.zombies p) := by
        ext q
        rw [Finset.mem_insert, mem_zombies, mem_zombies, hpar hpc, h.zombie]
        by_cases hq : q = k.sys.curr
        · exact ⟨fun _ => Or.inl hq, fun _ => ⟨hq ▸ hr.curr, hq ▸ hpp, Or.inl hq⟩⟩
        · exact ⟨fun ⟨h1, h2, h3⟩ => Or.inr ⟨h1, h2, h3.resolve_left hq⟩,
            fun hx => ⟨(hx.resolve_left hq).1, (hx.resolve_left hq).2.1, Or.inr (hx.resolve_left hq).2.2⟩⟩
      have hnot : k.sys.curr ∉ k.zombies p := fun hm => hnz (mem_zombies.1 hm).2.2
      rw [if_pos hpp, hins, Finset.card_insert_of_notMem hnot, int32_of_range (by omega) (by omega)]
      push_cast
      omega
    · have hsame : k'.zombies p = k.zombies p := by
        ext q
        rw [mem_zombies, mem_zombies, hpar hpc, h.zombie]
        refine ⟨fun ⟨h1, h2, h3⟩ => ⟨h1, h2, h3.resolve_left fun hq => hpp (hq ▸ h2)⟩, fun ⟨h1, h2, h3⟩ =>
          ⟨h1, h2, Or.inr h3⟩⟩
      rw [if_neg hpp, hsame]
      exact hunits

/-! ## `wait` -/

/-- What a `wait` that has its unit does: it frees the zombie in PCB `z`. -/
structure Waited (k : Kernel) (z : Nat) (k' : Kernel) : Prop where
  mem : z ∈ k.zombies k.sys.curr
  value : k'.sys.value = k.sys.value
  status : k'.sys.status = Function.update k.sys.status z .unused
  childNum : ∀ q, (k'.pcb q).childNum = if q = k.sys.curr then int32 ((k.pcb q).childNum - 1) else (k.pcb q).childNum
  pcb : ∀ q, (k'.pcb q).parent = (k.pcb q).parent ∧ (k'.pcb q).pid = (k.pcb q).pid ∧
    (k'.pcb q).exitCode = (k.pcb q).exitCode
  cont : k'.cont = Function.update k.cont k.sys.curr .user
  nextPid : k'.nextPid = k.nextPid
  reply : k'.reply k.sys.curr = ⟨(k.pcb z).pid, (k.pcb z).exitCode, []⟩

theorem waitRest_waited (he : k.waitRest = some k') : ∃ z, Waited k z k' := by
  unfold Kernel.waitRest at he
  obtain ⟨z, hz, he⟩ := Option.bind_eq_some_iff.1 he
  have hmem := procFindzombie_some hz
  have hfree : k.procFree z = { k with sys := k.sys.setStatus z .unused } := by
    unfold procFree
    rw [if_neg (by rw [hmem.2.2]; decide)]
  cases he
  rw [hfree]
  refine ⟨z, mem_zombies.2 hmem, rfl, rfl, fun q => ?_, fun q => ?_, rfl, rfl, Function.update_self ..⟩
  · show (Function.update k.pcb k.sys.curr _ q).childNum = _
    rw [Function.update_apply]
    split
    · next hq => rw [hq]
    · rfl
  · show (Function.update k.pcb k.sys.curr _ q).parent = _ ∧ (Function.update k.pcb k.sys.curr _ q).pid = _ ∧
      (Function.update k.pcb k.sys.curr _ q).exitCode = _
    rw [Function.update_apply]
    split
    · next hq => rw [hq]; exact ⟨rfl, rfl, rfl⟩
    · exact ⟨rfl, rfl, rfl⟩

theorem waitRest_setCont {r : Cont} : (k.setCont k.sys.curr r).waitRest = k.waitRest := by
  have hfree : ∀ z, (k.setCont k.sys.curr r).procFree z = (k.procFree z).setCont k.sys.curr r := fun z => by
    unfold procFree
    show (if k.sys.status z = .running then _ else _) = _
    split <;> rfl
  have hcurr : ∀ z, (k.procFree z).sys.curr = k.sys.curr := fun z => by
    unfold procFree
    split <;> rfl
  unfold Kernel.waitRest
  show ((k.procFindzombie k.sys.curr).bind fun z => _) = (k.procFindzombie k.sys.curr).bind fun z => _
  refine Option.bind_congr fun z _ => ?_
  rw [hfree z]
  simp only [Kernel.setPcb, Kernel.back, Kernel.setCont, hcurr, Function.update_idem]

theorem procFindzombie_isSome (h : (k.zombies p).Nonempty) : ∃ z, k.procFindzombie p = some z := by
  obtain ⟨q, hq⟩ := h
  obtain ⟨h1, h2, h3⟩ := mem_zombies.1 hq
  exact Option.isSome_iff_exists.1 (List.find?_isSome.2 ⟨q, List.mem_range.2 h1, decide_eq_true ⟨h2, h3⟩⟩)

theorem semP_status (hr : Runs k) (hs : k.sys.semP x = some s) (q : Nat) (o : Status) (h1 : o ≠ .blocked)
    (h2 : o ≠ .running) :
    s.status q = o ↔ k.sys.status q = o := by
  rcases Sys.semP_cases hs with ⟨-, rfl⟩ | ⟨-, l, -, rfl⟩
  · exact Iff.rfl
  · show Function.update k.sys.status k.sys.curr .blocked q = o ↔ _
    by_cases hq : q = k.sys.curr
    · rw [hq, Function.update_self, hr.status]
      exact iff_of_false (Ne.symm h1) (Ne.symm h2)
    · rw [Function.update_of_ne hq]

/-- The unit is taken, or the process will have it when it is woken. -/
theorem semP_even (he : Even k) (hr : Runs k) (hc : k.cont k.sys.curr ≠ .wait)
    (hs : k.sys.semP (.zombie k.sys.curr) = some s) :
    Even ({ k with sys := s }.setCont k.sys.curr .wait) := by
  have hst : ∀ (q : Nat) (o : Status), o ≠ .blocked → o ≠ .running → (s.status q = o ↔ k.sys.status q = o) :=
    semP_status hr hs
  have hlive : ∀ p, Live s p ↔ Live k.sys p := fun p => by
    unfold Live
    rw [ne_eq, ne_eq, hst p _ (by decide) (by decide), hst p _ (by decide) (by decide)]
  have hch : ∀ p, ({ k with sys := s }.setCont k.sys.curr .wait).children p = k.children p := fun p => by
    ext q
    rw [mem_children, mem_children, ne_eq, ne_eq]
    show _ ∧ _ ∧ ¬ s.status q = .unused ↔ _
    rw [hst q _ (by decide) (by decide)]
    exact Iff.rfl
  have hzo : ∀ p, ({ k with sys := s }.setCont k.sys.curr .wait).zombies p = k.zombies p := fun p => by
    ext q
    rw [mem_zombies, mem_zombies]
    show _ ∧ _ ∧ s.status q = .zombie ↔ _
    rw [hst q _ (by decide) (by decide)]
    exact Iff.rfl
  refine ⟨fun q p hq => ?_, fun p hp hl => ?_, fun p hp hl => ?_⟩
  · obtain ⟨h1, h2, h3⟩ := he.parent q p hq
    exact ⟨h1, h2, (hlive p).2 h3⟩
  · rw [hch]
    exact he.count p hp ((hlive p).1 hl)
  · have hunits := he.units p hp ((hlive p).1 hl)
    rw [hzo]
    show s.value (.zombie p) + _ = _
    rw [Sys.semP_value hs]
    by_cases hpc : p = k.sys.curr
    · have h0 : k.owed p = 0 := by
        unfold owed
        rw [hpc, if_neg hc]
      have h1 : ({ k with sys := s }.setCont k.sys.curr .wait).owed p = 1 := by
        unfold owed
        rw [if_pos]
        rw [hpc]
        exact Function.update_self ..
      have hle : (k.zombies p).card ≤ procNum := zombies_le
      unfold procNum at hle
      rw [h1, ← hpc, Function.update_self, int32_of_range (by omega) (by omega)]
      omega
    · have h1 : ({ k with sys := s }.setCont k.sys.curr .wait).owed p = k.owed p := by
        show (if Function.update k.cont k.sys.curr .wait p = .wait then (1 : Int) else 0) =
          if k.cont p = .wait then 1 else 0
        rw [Function.update_of_ne hpc]
      rw [h1, Function.update_of_ne (by simpa using hpc)]
      exact hunits

theorem Waited.status_apply {z : Nat} (h : Waited k z k') :
    k'.sys.status q = if q = z then .unused else k.sys.status q := by
  rw [h.status, Function.update_apply]

theorem Waited.live {z : Nat} (h : Waited k z k') : Live k'.sys q ↔ Live k.sys q := by
  unfold Live
  rw [h.status_apply]
  split
  · next hq =>
    rw [hq, (mem_zombies.1 h.mem).2.2]
    exact iff_of_false (fun hl => hl.1 rfl) (fun hl => hl.2 rfl)
  · exact Iff.rfl

theorem Waited.even {z : Nat} (h : Waited k z k') (he : Even k) (hc : k.cont k.sys.curr = .wait) : Even k' := by
  obtain ⟨hz1, hz2, hz3⟩ := mem_zombies.1 h.mem
  have hch : ∀ p, k'.children p = (k.children p).erase z := fun p => by
    ext q
    rw [Finset.mem_erase, mem_children, mem_children, (h.pcb q).1, h.status_apply]
    by_cases hq : q = z
    · rw [if_pos hq]
      exact iff_of_false (fun hx => hx.2.2 rfl) (fun hx => hx.1 hq)
    · rw [if_neg hq]
      exact ⟨fun hx => ⟨hq, hx⟩, fun hx => hx.2⟩
  have hzo : ∀ p, k'.zombies p = (k.zombies p).erase z := fun p => by
    ext q
    rw [Finset.mem_erase, mem_zombies, mem_zombies, (h.pcb q).1, h.status_apply]
    by_cases hq : q = z
    · rw [if_pos hq]
      exact iff_of_false (fun hx => by cases hx.2.2) (fun hx => hx.1 hq)
    · rw [if_neg hq]
      exact ⟨fun hx => ⟨hq, hx⟩, fun hx => hx.2⟩
  -- a process has one parent, so only the caller loses a child
  have hother : ∀ {p}, p ≠ k.sys.curr → z ∉ k.children p ∧ z ∉ k.zombies p := fun {p} hp => by
    refine ⟨fun hm => hp ?_, fun hm => hp ?_⟩
    · exact Option.some.inj ((mem_children.1 hm).2.1.symm.trans hz2)
    · exact Option.some.inj ((mem_zombies.1 hm).2.1.symm.trans hz2)
  refine ⟨fun q p hq => ?_, fun p hp hl => ?_, fun p hp hl => ?_⟩
  · rw [(h.pcb q).1] at hq
    rw [h.live]
    exact he.parent q p hq
  · have hcount := he.count p hp (h.live.1 hl)
    rw [h.childNum, hch]
    by_cases hpc : p = k.sys.curr
    · have hmem : z ∈ k.children p := mem_children.2 ⟨hz1, hpc ▸ hz2, by rw [hz3]; decide⟩
      have hcard := Finset.card_erase_add_one hmem
      have hle : (k.children p).card ≤ procNum := children_le
      unfold procNum at hle
      rw [if_pos hpc, hcount, int32_of_range (by omega) (by omega)]
      omega
    · rw [if_neg hpc, hcount, Finset.erase_eq_of_notMem (hother hpc).1]
  · have hunits := he.units p hp (h.live.1 hl)
    rw [h.value, hzo]
    by_cases hpc : p = k.sys.curr
    · have hcard := Finset.card_erase_add_one (hpc ▸ h.mem : z ∈ k.zombies p)
      have h0 : k'.owed p = 0 := by
        unfold owed
        rw [h.cont, hpc, Function.update_self]
        rfl
      have h1 : k.owed p = 1 := by
        unfold owed
        rw [hpc, if_pos hc]
      rw [h0]
      omega
    · have h0 : k'.owed p = k.owed p := by
        unfold owed
        rw [h.cont, Function.update_of_ne hpc]
      rw [h0, Finset.erase_eq_of_notMem (hother hpc).2]
      exact hunits

/-! ## One event -/

def IsZombie : Sema → Prop
  | .zombie _ => True
  | _ => False

structure Family (k : Kernel) : Prop where
  inv : Inv IsZombie k
  even : Even k

/-- Nobody is born, dies or is collected. -/
structure Calm (k k' : Kernel) : Prop where
  pcb : ∀ q, (k'.pcb q).parent = (k.pcb q).parent ∧ (k'.pcb q).pid = (k.pcb q).pid ∧
    (k'.pcb q).exitCode = (k.pcb q).exitCode
  unused : ∀ q, k'.sys.status q = .unused ↔ k.sys.status q = .unused
  zombie : ∀ q, k'.sys.status q = .zombie ↔ k.sys.status q = .zombie
  nextPid : k'.nextPid = k.nextPid

theorem Kin.calm (h : Kin k k') : Calm k k' :=
  ⟨fun q => ⟨(h.pcb q).1, (h.pcb q).2.2⟩, h.unused, h.zombie, h.nextPid⟩

theorem semP_calm (hr : Runs k) (hs : k.sys.semP x = some s) (r : Cont) : Calm k ({ k with sys := s }.setCont p r) :=
  ⟨fun _ => ⟨rfl, rfl, rfl⟩, fun q => semP_status hr hs q _ (by decide) (by decide),
    fun q => semP_status hr hs q _ (by decide) (by decide), rfl⟩

theorem Waits.mono {G' : Sema → Prop} (h : Waits G dom wait k) (hG : ∀ x, G' x → G x) : Waits G' dom wait k :=
  ⟨h.ok, h.serial, h.zombie, h.user, h.parent, h.may, h.refs, fun x hx hg => h.tight x hx (hG x hg)⟩

/-- Only a process itself waits on its `zombie_sem`, so nobody does while it runs. -/
theorem Waits.zombie_nonneg (h : Waits IsZombie dom wait k) (hr : Runs k) : 0 ≤ k.sys.value (.zombie k.sys.curr) := by
  have hd : dom (.zombie k.sys.curr) := h.zombie _ hr.curr (by rw [hr.status]; decide)
  obtain ⟨ht, -⟩ := h.tight _ hd trivial
  have hnil : wait (.zombie k.sys.curr) = [] := List.eq_nil_iff_forall_not_mem.2 fun q hq => by
    have hb := h.blocked hd hq
    have hqc : q = k.sys.curr := h.may _ hd q hq
    rw [hqc, hr.status] at hb
    cases hb
  unfold Sys.Tight at ht
  rw [hnil, List.length_nil] at ht
  omega

theorem Family.fits (h : Family k) : Fits IsZombie k e := by
  cases e with
  | semOpen value => exact fun u hg => hg.elim
  | semV id => exact fun u _ hg => hg.elim
  | exit status =>
    intro q hq _
    obtain ⟨-, hp, hl⟩ := h.even.parent _ q hq
    have hunits := h.even.units q hp hl
    have hle : (k.zombies q).card ≤ procNum := zombies_le
    unfold procNum at hle
    have ho : 0 ≤ k.owed q := by
      unfold owed
      split <;> omega
    omega
  | serial bytes => exact id
  | _ => trivial

/-- A process that has its unit finds a zombie. -/
theorem Even.find (h : Even k) (hr : Runs k) (hv : 0 ≤ k.sys.value (.zombie k.sys.curr))
    (hc : k.cont k.sys.curr = .wait) :
    ∃ z, k.procFindzombie k.sys.curr = some z := by
  have hl : Live k.sys k.sys.curr := hr.live
  have hunits := h.units _ hr.curr hl
  have ho : k.owed k.sys.curr = 1 := if_pos hc
  exact procFindzombie_isSome (Finset.card_pos.1 (by omega))

/-- `sys_wait` without a child, `sys_wait` that is to be continued, and `sys_wait` that gets a unit at once. -/
theorem sysWait_cases (he : k.sysWait = some (k', out)) :
    ((k.pcb k.sys.curr).childNum = 0 ∧ out = .back ∧ k' = k.back ⟨-1, 0, []⟩) ∨
      ((k.pcb k.sys.curr).childNum ≠ 0 ∧ ∃ s, k.sys.semP (.zombie k.sys.curr) = some s ∧
        ((out = .switch ∧ k' = { k with sys := s }.setCont k.sys.curr .wait) ∨
          (out = .back ∧ s.curr = k.sys.curr ∧ s.status = k.sys.status ∧
            ({ k with sys := s }.setCont k.sys.curr .wait).waitRest = some k'))) := by
  unfold Kernel.sysWait at he
  simp only at he
  split at he
  · next h0 =>
    cases he
    exact Or.inl ⟨h0, rfl, rfl⟩
  · next h0 =>
    obtain ⟨s, hs, he⟩ := Option.bind_eq_some_iff.1 he
    have hcurr : s.curr = k.sys.curr := semP_curr hs
    refine Or.inr ⟨h0, s, hs, ?_⟩
    split at he
    · cases he
      exact Or.inl ⟨rfl, rfl⟩
    · next hb =>
      obtain ⟨k₁, hw, he⟩ := Option.bind_eq_some_iff.1 he
      cases he
      have hst : s.status = k.sys.status := by
        rcases Sys.semP_cases hs with ⟨-, rfl⟩ | ⟨-, l, -, rfl⟩
        · rfl
        · exact absurd (Function.update_self ..) hb
      refine Or.inr ⟨rfl, hcurr, hst, ?_⟩
      rw [← hw, ← waitRest_setCont (k := { k with sys := s }) (r := .wait)]
      show ({ k with sys := s }.setCont k.sys.curr .wait).waitRest = ({ k with sys := s }.setCont s.curr .wait).waitRest
      rw [hcurr]

/-- What an event does to the families. -/
inductive Change (k : Kernel) : Event → Out → Kernel → Prop
  | calm (e : Event) (out : Out) (k' : Kernel) : Calm k k' → Even k' → (∀ v, e ≠ .exit v) →
      (e = .fork → k.procAlloc = none) → (e = .resume → k.cont k.sys.curr ≠ .wait) →
      (e = .wait → out = .switch ∧ (k.children k.sys.curr).Nonempty ∨
        out = .back ∧ k.children k.sys.curr = ∅ ∧ (k'.reply k.sys.curr).eax = -1) → Change k e out k'
  | fork (c : Nat) (k₁ k' : Kernel) : k.procAlloc = some (c, k₁) → k' = k.sysFork → Forked k c k' →
      Change k .fork .back k'
  | exit (v : Int) (k' : Kernel) : Exited k (int32 v) k' → Change k (.exit v) .switch k'
  | wait (e : Event) (k₁ : Kernel) (z : Nat) (k' : Kernel) : e = .wait ∨ e = .resume ∧ k.cont k.sys.curr = .wait →
      Calm k k₁ → Even k₁ → k₁.sys.curr = k.sys.curr → Runs k₁ → k₁.cont k.sys.curr = .wait → Waited k₁ z k' →
      Change k e .back k'

theorem Change.even (h : Change k e out k') (he : Even k) (hr : Runs k) (hm : k.may e) : Even k' := by
  cases h with
  | calm _ _ _ _ h1 => exact h1
  | fork c k₁ _ _ _ h1 => exact h1.even hr he (by rw [(of_decide_eq_true hm).1]; simp)
  | exit v _ h1 => exact h1.even hr he
  | wait _ k₁ z _ _ _ h1 h2 h3 h4 h5 => exact h5.even h1 (by rw [h2]; exact h4)

theorem Even.children_empty (he : Even k) (hr : Runs k) : (k.pcb k.sys.curr).childNum = 0 ↔
    k.children k.sys.curr = ∅ := by
  rw [he.count _ hr.curr hr.live, ← Finset.card_eq_zero]
  exact Int.natCast_eq_zero

theorem handle_change (h : Family k) (hm : k.may e) (he : k.handle e = some (k', out)) : Change k e out k' := by
  obtain ⟨⟨⟨dom, wait, hw⟩, hr⟩, heven⟩ := h
  have hw₀ : Waits (fun _ => False) dom wait k := hw.mono fun _ hf => hf.elim
  by_cases hn : Kindred k e
  · cases e with
    | fork =>
      have huser : k.cont k.sys.curr ≠ .wait := by rw [(of_decide_eq_true hm).1]; simp
      cases he
      cases ha : k.procAlloc with
      | none =>
        have hk : Kin k k.sysFork := by
          unfold Kernel.sysFork
          rw [ha]
          exact (Kin.refl k).back huser
        exact .calm _ _ _ hk.calm (hk.even heven) (by simp) (fun _ => ha) (by simp) (by simp)
      | some ck => exact .fork ck.1 ck.2 _ ha rfl (sysFork_forked hr ha)
    | exit v =>
      obtain ⟨k₁, hk, he⟩ := Option.bind_eq_some_iff.1 he
      cases he
      exact .exit v _ (procMakezombie_exited hw₀ hr hk)
    | wait =>
      have huser := (of_decide_eq_true hm).1
      rcases sysWait_cases he with ⟨h0, rfl, rfl⟩ | ⟨h0, s, hs, h1⟩
      · have hk : Kin k (k.back ⟨-1, 0, []⟩) := (Kin.refl k).back (by rw [huser]; simp)
        refine .calm _ _ _ hk.calm (hk.even heven) (by simp) (by simp) (by simp) fun _ => Or.inr ⟨rfl, ?_, ?_⟩
        · exact (heven.children_empty hr).1 h0
        · show (Function.update k.reply k.sys.curr _ k.sys.curr).eax = _
          rw [Function.update_self]
      · have hcalm := semP_calm (p := k.sys.curr) hr hs .wait
        have heven₁ := semP_even heven hr (by rw [huser]; simp) hs
        have hne : (k.children k.sys.curr).Nonempty := Finset.nonempty_iff_ne_empty.2 fun hc =>
          h0 ((heven.children_empty hr).2 hc)
        rcases h1 with ⟨rfl, rfl⟩ | ⟨rfl, hcurr, hst, hk⟩
        · exact .calm _ _ _ hcalm heven₁ (by simp) (by simp) (by simp) fun _ => Or.inl ⟨rfl, hne⟩
        · obtain ⟨z, hz⟩ := waitRest_waited hk
          refine .wait _ _ z _ (Or.inl rfl) hcalm heven₁ hcurr (hr.congr hcurr hst ?_) ?_ hz
          · show Function.update k.cont k.sys.curr .wait 0 = .user
            have h0 : (0 : Nat) ≠ k.sys.curr := fun hc => (of_decide_eq_true hm).2 hc.symm
            rw [Function.update_of_ne h0]
            exact hr.cont
          · exact Function.update_self ..
    | resume =>
      have hcont : k.cont k.sys.curr = .wait := hn
      unfold Kernel.handle at he
      simp only at he
      rw [hcont] at he
      obtain ⟨k₁, hk, he⟩ := Option.bind_eq_some_iff.1 he
      cases he
      obtain ⟨z, hz⟩ := waitRest_waited hk
      exact .wait _ k z _ (Or.inr ⟨rfl, hcont⟩) (Kin.refl k).calm heven rfl hr hcont hz
    | _ => exact hn.elim
  · have hk := handle_kin hw₀ hr hm hn he
    refine .calm _ _ _ hk.calm (hk.even heven) (fun v hv => ?_) (fun hf => ?_) (fun hr => ?_) fun hw => ?_
    · exact hn (hv ▸ trivial)
    · exact absurd (hf ▸ trivial) hn
    · exact fun hc => hn (hr ▸ hc)
    · exact absurd (hw ▸ trivial) hn

theorem schedule_kin (hc : k.sys.curr < procNum) (h : k.schedule = some k') : Kin k k' := by
  obtain ⟨q, hq, rfl⟩ := Option.map_eq_some_iff.1 h
  obtain ⟨hready, -⟩ := search_some hq hc
  have hst : ∀ (i : Nat) (o : Status), o ≠ .ready → o ≠ .running →
      (Function.update k.sys.status q .running i = o ↔ k.sys.status i = o) := fun i o h1 h2 => by
    by_cases hi : i = q
    · rw [hi, Function.update_self, hready]
      exact iff_of_false (Ne.symm h2) (Ne.symm h1)
    · rw [Function.update_of_ne hi]
  exact ⟨fun _ => rfl, fun _ => ⟨rfl, rfl, rfl, rfl⟩, fun i => hst i _ (by decide) (by decide),
    fun i => hst i _ (by decide) (by decide), fun _ => Iff.rfl, rfl⟩

/-- A step: an event, and perhaps another process after it. -/
theorem step_change (h : Family k) (hs : Step k e k') : k.may e = true ∧ ∃ k₁ out, k.handle e = some (k₁, out) ∧
    Change k e out k₁ ∧ Kin k₁ k' := by
  unfold Step step at hs
  split at hs
  · next hm =>
    obtain ⟨⟨k₁, out⟩, hh, hs⟩ := Option.bind_eq_some_iff.1 hs
    refine ⟨hm, k₁, out, hh, handle_change h hm hh, ?_⟩
    obtain ⟨-, hl, -⟩ := handle_done h.inv hm h.fits hh
    simp only at hs
    cases out with
    | switch =>
      rw [if_pos rfl] at hs
      exact schedule_kin (Paused.curr hl) hs
    | back =>
      rw [if_neg (by decide)] at hs
      cases hs
      exact .refl k'
  · cases hs

theorem step_family (h : Family k) (hs : Step k e k') : Family k' := by
  obtain ⟨hm, k₁, out, -, hch, hk⟩ := step_change h hs
  exact ⟨step_inv h.inv h.fits hs, hk.even (hch.even h.even h.inv.2 hm)⟩

/-! ## Runs -/

theorem boot_eq (hb : boot = some k) : ∃ c, 1 ≤ c ∧
    (∀ q, k.sys.status q = if q = c then .ready else if q = 0 then .running else .unused) ∧
    (∀ q, (k.pcb q).parent = none ∧ (k.pcb q).childNum = 0 ∧ (k.pcb q).pid = if q = c then 1 else 0) ∧
    (∀ q, k.sys.value (.zombie q) = 0) ∧ (∀ q, k.cont q = .user) ∧ k.nextPid = 2 := by
  unfold boot initUserAndGo at hb
  obtain ⟨⟨c, k₁⟩, ha, hb⟩ := Option.bind_eq_some_iff.1 hb
  obtain ⟨hc, -, -, rfl⟩ := procAlloc_eq ha
  cases hb
  refine ⟨c, hc, fun q => ?_, fun q => ?_, fun q => ?_, fun _ => rfl, ?_⟩
  · show
      Function.update (Function.update (Function.update (fun _ => Status.unused) 0 .running) c .uninit) c .ready q = _
    rw [Function.update_idem, Function.update_apply, Function.update_apply]
  · show (Function.update (fun _ => Pcb.mk 0 none 0 0 fun _ => none) c ⟨1, none, 0, 0, fun _ => none⟩ q).parent = none ∧
      (Function.update (fun _ => Pcb.mk 0 none 0 0 fun _ => none) c ⟨1, none, 0, 0, fun _ => none⟩ q).childNum = 0 ∧
      (Function.update (fun _ => Pcb.mk 0 none 0 0 fun _ => none) c ⟨1, none, 0, 0, fun _ => none⟩ q).pid = _
    rw [Function.update_apply]
    split
    · exact ⟨rfl, rfl, rfl⟩
    · exact ⟨rfl, rfl, rfl⟩
  · show Function.update (Function.update (Function.update (fun _ : Sema => (0 : Int)) .serial 0) (.zombie 0) 0)
      (.zombie c) 0 (.zombie q) = 0
    simp only [Function.update_apply, ite_self]
  · show int32 (1 + 1) = 2
    decide

theorem boot_family (hb : boot = some k) : Family k := by
  obtain ⟨k₁, h1, hI⟩ := boot_inv IsZombie
  obtain rfl := Option.some.inj (hb.symm.trans h1)
  obtain ⟨c, -, -, hpcb, hvalue, hcont, -⟩ := boot_eq hb
  have hnone : ∀ q p, (k.pcb q).parent ≠ some p := fun q p hq => by
    rw [(hpcb q).1] at hq
    cases hq
  refine ⟨hI, fun q p hq => absurd hq (hnone q p), fun p _ _ => ?_, fun p _ _ => ?_⟩
  · have hempty : k.children p = ∅ := Finset.eq_empty_of_forall_notMem fun q hq => hnone q p (mem_children.1 hq).2.1
    rw [hempty, (hpcb p).2.1]
    rfl
  · have hempty : k.zombies p = ∅ := Finset.eq_empty_of_forall_notMem fun q hq => hnone q p (mem_zombies.1 hq).2.1
    have howed : k.owed p = 0 := by
      unfold owed
      rw [hcont]
      rfl
    rw [hempty, hvalue, howed]
    rfl

theorem run_family {k₀ : Kernel} {es : List Event} (hb : boot = some k₀) (hrun : Run Step k₀ es k) : Family k :=
  Run.invariant (I := Family) (fun _ _ _ hs hst => step_family hs hst) hrun (boot_family hb)

end TinyOS.Kernel
