/-
What each function of the process layer does to the invariant: PCBs change under it as long as the
references to user semaphores are counted along.
-/
import TinyOS.Proc.Waits

namespace TinyOS.Kernel

open TinyOS.Lib TinyOS.Klib

variable {k k' : Kernel} {G dom : Sema → Prop} {wait : Sema → List Nat} {p q u c j : Nat} {x : Sema} {v : Int}
  {s : Sys Sema}

/-! ## Changes of one PCB -/

theorem Waits.setPcb {y : Pcb} {g : Nat → Int} (h : Waits G dom wait k) (hp : p < procNum)
    (hpar : ∀ q, y.parent = some q → dom (.zombie q))
    (hw : k.sys.status p ≠ .blocked ∨ y.usems = (k.pcb p).usems)
    (href : ∀ u, g u = k.ref u +
      if Live k.sys p then (slots maxUsem y.usems u : Int) - slots maxUsem (k.pcb p).usems u else 0)
    (hu : ∀ u, 0 < g u → dom (.user u)) :
    Waits G dom wait { k with pcb := Function.update k.pcb p y, ref := g } := by
  refine ⟨h.ok, h.serial, h.zombie, hu, fun i q hi => ?_, fun x hx q hq => ?_, fun u => ?_, h.tight⟩
  · by_cases hip : i = p
    · subst hip
      simp only [Function.update_self] at hi
      exact hpar q hi
    · simp only [Function.update_of_ne hip] at hi
      exact h.parent i q hi
  · have hold := h.may x hx q hq
    unfold MayWait at hold ⊢
    by_cases hqp : q = p
    · subst hqp
      rcases hw with hw | hw
      · exact absurd (h.blocked hx hq) hw
      · simpa only [Function.update_self, hw] using hold
    · simpa only [Function.update_of_ne hqp] using hold
  · have hsum := sum_one (f := fun q => k.held q u)
      (g := fun q => Kernel.held { k with pcb := Function.update k.pcb p y, ref := g } q u) hp fun q hq => by
        simp only [held, Function.update_of_ne hq]
    have hold : k.ref u = ∑ q ∈ Finset.range procNum, k.held q u := h.refs u
    show g u = _
    unfold holders
    rw [hsum, href u, hold]
    simp only [held, Function.update_self]
    split <;> ring

/-- A change that concerns neither semaphores nor references. -/
theorem Waits.setPcb_same {y : Pcb} (h : Waits G dom wait k) (hp : p < procNum)
    (hpar : ∀ q, y.parent = some q → dom (.zombie q)) (hu : y.usems = (k.pcb p).usems) :
    Waits G dom wait (k.setPcb p y) := by
  refine h.setPcb hp hpar (Or.inr hu) (fun u => ?_) h.user
  rw [hu, sub_self, ite_self, add_zero]

theorem Waits.back {r : Reply} (h : Waits G dom wait k) : Waits G dom wait (k.back r) := h.congr rfl rfl rfl

theorem Waits.setCont {r : Cont} (h : Waits G dom wait k) : Waits G dom wait (k.setCont p r) := h.congr rfl rfl rfl

/-! ## `proc_alloc` and `proc_free` -/

/-- A PCB that was free and becomes one without parent, children and semaphores. -/
theorem procAlloc_eq (he : k.procAlloc = some (c, k')) : 1 ≤ c ∧ c < procNum ∧ k.sys.status c = .unused ∧
    k' = { k with
      sys := (k.sys.setStatus c .uninit).semInit (.zombie c) 0
      pcb := Function.update k.pcb c ⟨k.nextPid, none, 0, (k.pcb c).exitCode, fun _ => none⟩
      nextPid := int32 (k.nextPid + 1) } := by
  obtain ⟨i, hi, hk⟩ := Option.map_eq_some_iff.1 he
  have hst := List.find?_some hi
  have hmem := List.mem_range'_1.1 (List.mem_of_find?_eq_some hi)
  cases hk
  rw [decide_eq_true_eq] at hst
  refine ⟨hmem.1, ?_, hst, rfl⟩
  unfold procNum at hmem ⊢
  omega

theorem Waits.procAlloc (h : Waits G dom wait k) (he : k.procAlloc = some (c, k')) :
    ∃ dom' wait', Waits G dom' wait' k' ∧ dom' (.zombie c) ∧ Fewer wait' wait := by
  obtain ⟨-, hc, hst, rfl⟩ := procAlloc_eq he
  have hnot : ¬ Live k.sys c := fun hl => hl.1 hst
  have h₁ : Waits G dom wait (Kernel.mk k.sys
    (Function.update k.pcb c ⟨k.nextPid, none, 0, (k.pcb c).exitCode, fun _ => none⟩)
      k.nextPid k.ref k.tick k.buffer k.head k.tail k.clapboard k.cont k.reply) :=
    h.setPcb hc (fun q hq => by cases hq) (Or.inl (by rw [hst]; decide)) (fun u => by rw [if_neg hnot, add_zero]) h.user
  -- who waits on a zombie_sem is its owner, and a free PCB does not wait
  have hempty : dom (.zombie c) → wait (.zombie c) = [] := fun hd => by
    refine List.eq_nil_iff_forall_not_mem.2 fun q hq => ?_
    obtain rfl : q = c := h.may _ hd q hq
    have := h.blocked hd hq
    rw [hst] at this
    cases this
  have h₂ := h₁.semInit (x := .zombie c) (v := 0) hempty fun _ => by omega
  have h₃ := h₂.status (s := (k.sys.setStatus c .uninit).semInit (.zombie c) 0) (p := c) rfl rfl rfl
    (by show k.sys.status c ≠ _; rw [hst]; decide) (by decide)
    (Or.inr fun j => by show (Function.update k.pcb c _ c).usems j = none; rw [Function.update_self])
    fun _ => Or.inr rfl
  exact ⟨_, _, h₃.congr rfl rfl rfl, Or.inr rfl, .update fun q hq => absurd hq List.not_mem_nil⟩

theorem Waits.procFree (h : Waits G dom wait k) (hz : k.sys.status p = .zombie) : Waits G dom wait (k.procFree p) := by
  unfold Kernel.procFree
  rw [if_neg (by rw [hz]; decide)]
  refine h.status (p := p) rfl rfl rfl (by rw [hz]; decide) (by decide) (Or.inl ?_) fun hc => absurd rfl hc
  unfold Live Sys.setStatus
  simp only [hz, Function.update_self]
  decide

/-! ## `proc_copycurr` -/

theorem setPcb_apply {y : Pcb} : (k.setPcb p y).pcb q = if q = p then y else k.pcb q := by
  unfold Kernel.setPcb
  simp only [Function.update_apply]

/-- The child is a copy of the caller in a PCB without semaphores. -/
theorem procCopycurr_eq (hne : c ≠ k.sys.curr) (hu : ∀ j, (k.pcb c).usems j = none) : k.procCopycurr c =
    { k with
      pcb := Function.update (Function.update k.pcb k.sys.curr
        { k.pcb k.sys.curr with childNum := int32 ((k.pcb k.sys.curr).childNum + 1) }) c
        { k.pcb c with parent := some k.sys.curr, usems := (k.pcb k.sys.curr).usems }
      ref := eachUsem usemDup (k.pcb k.sys.curr).usems k.ref
      cont := Function.update k.cont c .user
      reply := Function.update k.reply c ⟨0, 0, []⟩ } := by
  have hor : (fun j => (k.pcb k.sys.curr).usems j <|> (k.pcb c).usems j) = (k.pcb k.sys.curr).usems :=
    funext fun j => by rw [hu j]; cases (k.pcb k.sys.curr).usems j <;> rfl
  have hcurr : ∀ y, (k.setPcb c y).pcb k.sys.curr = k.pcb k.sys.curr := fun y => by rw [setPcb_apply, if_neg hne.symm]
  have hboth : ∀ y z, ((k.setPcb c y).setPcb k.sys.curr z).pcb c = y ∧
      ((k.setPcb c y).setPcb k.sys.curr z).pcb k.sys.curr = z :=
    fun y z => by rw [setPcb_apply, if_neg hne, setPcb_apply, if_pos rfl, setPcb_apply, if_pos rfl]; exact ⟨rfl, rfl⟩
  unfold Kernel.procCopycurr
  simp only [hcurr, hboth, hor]
  congr 1
  · refine funext fun i => ?_
    rw [setPcb_apply, setPcb_apply, setPcb_apply, Function.update_apply, Function.update_apply]
    split
    · rfl
    · split
      · rfl
      · rfl
  · rw [setPcb_apply, if_neg hne.symm, (hboth _ _).2]
    rfl

theorem Waits.procCopycurr (h : Waits G dom wait k) (hc : c < procNum) (hp : k.sys.curr < procNum)
    (hne : c ≠ k.sys.curr) (hst : k.sys.status c = .uninit) (hr : k.sys.status k.sys.curr = .running)
    (hu : ∀ j, (k.pcb c).usems j = none) :
    Waits G dom wait (k.procCopycurr c) := by
  have hdom : dom (.zombie k.sys.curr) := h.zombie _ hp (by rw [hr]; decide)
  have hlive : Live k.sys c := by unfold Live; rw [hst]; decide
  have hlivep : Live k.sys k.sys.curr := by unfold Live; rw [hr]; decide
  have h₁ : Waits G dom wait (k.setPcb k.sys.curr
      { k.pcb k.sys.curr with childNum := int32 ((k.pcb k.sys.curr).childNum + 1) }) :=
    h.setPcb_same hp (fun q hq => h.parent _ q hq) rfl
  have hsame : (k.setPcb k.sys.curr
      { k.pcb k.sys.curr with childNum := int32 ((k.pcb k.sys.curr).childNum + 1) }).pcb c = k.pcb c := by
    rw [setPcb_apply, if_neg hne]
  rw [procCopycurr_eq hne hu]
  refine Waits.congr (h₁.setPcb (p := c)
    (y := { k.pcb c with parent := some k.sys.curr, usems := (k.pcb k.sys.curr).usems }) hc
    (fun q hq => by cases hq; exact hdom)
    (Or.inl (by show k.sys.status c ≠ _; rw [hst]; decide)) (fun u => ?_) fun u hpos => ?_) rfl rfl rfl
  · show _ = k.ref u + if Live k.sys c then (slots maxUsem (k.pcb k.sys.curr).usems u : Int) - slots maxUsem _ u else 0
    rw [hsame, slots_none hu, if_pos hlive, eachUsem_dup]
    push_cast
    ring
  · rw [eachUsem_dup] at hpos
    by_cases hs : 0 < slots maxUsem (k.pcb k.sys.curr).usems u
    · exact h.user u ((h.refs u).symm ▸ holders_pos hp hlivep (slots_pos.1 hs))
    · exact h.user u (by omega)

/-- `fork`: the child is READY and holds what its parent holds. -/
theorem Waits.sysFork (h : Waits G dom wait k) (hp : k.sys.curr < procNum) (hr : k.sys.status k.sys.curr = .running) :
    ∃ dom' wait', Waits G dom' wait' k.sysFork ∧ Fewer wait' wait := by
  unfold Kernel.sysFork
  cases ha : k.procAlloc with
  | none => exact ⟨dom, wait, h.back, .refl wait⟩
  | some ck =>
    obtain ⟨c, k₁⟩ := ck
    obtain ⟨hc1, hc2, hst, hk₁⟩ := procAlloc_eq ha
    obtain ⟨dom', wait', h₁, hd, hf⟩ := h.procAlloc ha
    have hne : c ≠ k.sys.curr := fun hc => by
      rw [hc, hr] at hst
      cases hst
    have hcurr : k₁.sys.curr = k.sys.curr := by rw [hk₁]; rfl
    have hstatus : k₁.sys.status = Function.update k.sys.status c .uninit := by rw [hk₁]; rfl
    have hstc : k₁.sys.status c = .uninit := by rw [hstatus, Function.update_self]
    have hpcb : ∀ j, (k₁.pcb c).usems j = none := fun j => by
      rw [hk₁]
      simp only [Function.update_self]
    have hne₁ : c ≠ k₁.sys.curr := by rw [hcurr]; exact hne
    have hrun₁ : k₁.sys.status k₁.sys.curr = .running := by
      rw [hcurr, hstatus, Function.update_of_ne hne.symm]
      exact hr
    have h₂ := h₁.procCopycurr hc2 (by rw [hcurr]; exact hp) hne₁ hstc hrun₁ hpcb
    have hsys : (k₁.procCopycurr c).sys = k₁.sys := by rw [procCopycurr_eq hne₁ hpcb]
    have h₃ : Waits G dom' wait' { k₁.procCopycurr c with sys := (k₁.procCopycurr c).sys.procAddready c } := by
      refine h₂.status (p := c) rfl rfl rfl (by rw [hsys, hstc]; decide) (by decide) (Or.inl ?_) fun _ => hd
      unfold Live Sys.procAddready Sys.setStatus
      simp only [hsys, hstc, Function.update_self]
      decide
    exact ⟨dom', wait', h₃.back, hf⟩

/-! ## `sys_wait` -/

theorem procFindzombie_some (h : k.procFindzombie p = some q) : q < procNum ∧ (k.pcb q).parent = some p ∧
    k.sys.status q = .zombie := by
  have h1 := List.find?_some h
  simp only [decide_eq_true_eq] at h1
  exact ⟨List.mem_range.1 (List.mem_of_find?_eq_some h), h1⟩

theorem Waits.waitRest (h : Waits G dom wait k) (hp : k.sys.curr < procNum) (he : k.waitRest = some k') :
    Waits G dom wait k' := by
  unfold Kernel.waitRest at he
  obtain ⟨z, hz, he⟩ := Option.bind_eq_some_iff.1 he
  obtain ⟨-, -, hst⟩ := procFindzombie_some hz
  have h₁ := h.procFree hst
  cases he
  refine Waits.back ?_
  exact h₁.setPcb_same hp (fun q hq => h₁.parent _ q hq) rfl

/-! ## `proc_makezombie` -/

/-- A running process becomes a zombie and gives its semaphores back. -/
theorem Waits.die (h : Waits G dom wait k) (hp : p < procNum) (hr : k.sys.status p = .running) :
    Waits G dom wait { k with sys := k.sys.setStatus p .zombie, ref := eachUsem usemClose (k.pcb p).usems k.ref } := by
  have hlive : Live k.sys p := by unfold Live; rw [hr]; decide
  have href : ∀ u, eachUsem usemClose (k.pcb p).usems k.ref u = k.ref u - slots maxUsem (k.pcb p).usems u :=
    fun u => eachUsem_close ..
  have hst : ∀ q, q ≠ p → (k.sys.setStatus p .zombie).status q = k.sys.status q := fun q hq =>
    Function.update_of_ne hq ..
  have hself : (k.sys.setStatus p .zombie).status p = .zombie := Function.update_self ..
  refine ⟨h.ok.congr rfl (fun q => ?_) fun _ _ => rfl, h.serial, fun q hq hs => h.zombie q hq ?_,
    fun u hu => h.user u ?_, h.parent, h.may, fun u => ?_, h.tight⟩
  · by_cases hq : q = p
    · rw [hq, hself, hr]
      decide
    · rw [hst q hq]
  · by_cases hqp : q = p
    · rw [hqp, hr]
      decide
    · rw [← hst q hqp]
      exact hs
  · have hpos : 0 < eachUsem usemClose (k.pcb p).usems k.ref u := hu
    rw [href u] at hpos
    omega
  · have hsum := sum_one (f := fun q => k.held q u) (g := fun q => Kernel.held
      { k with sys := k.sys.setStatus p .zombie, ref := eachUsem usemClose (k.pcb p).usems k.ref } q u) hp
          fun q hq => by
        have hl : Live (k.sys.setStatus p .zombie) q ↔ Live k.sys q := by unfold Live; rw [hst q hq]
        simp only [held, hl]
    have hold : k.ref u = ∑ q ∈ Finset.range procNum, k.held q u := h.refs u
    have hdead : ¬ Live (k.sys.setStatus p .zombie) p := fun hl => hl.2 hself
    unfold holders
    rw [hsum]
    show eachUsem usemClose (k.pcb p).usems k.ref u = _
    rw [href, hold]
    simp only [held, if_pos hlive, if_neg hdead]
    ring

theorem Waits.procMakezombie (h : Waits G dom wait k) (hp : p < procNum) (hr : k.sys.status p = .running)
    (hb : ∀ q, (k.pcb p).parent = some q → G (.zombie q) → k.sys.value (.zombie q) + 1 < 2 ^ 31)
    (he : k.procMakezombie p v = some k') :
    k'.sys.curr = k.sys.curr ∧ k'.cont = k.cont ∧ (∃ wait', Waits G dom wait' k' ∧ Fewer wait' wait) ∧
      (k'.sys.status = Function.update k.sys.status p .zombie ∨
        ∃ q ≠ p, k.sys.status q = .blocked ∧
          k'.sys.status = Function.update (Function.update k.sys.status p .zombie) q .ready) := by
  have hpcb : (Function.update k.pcb p { k.pcb p with exitCode := v } p) = { k.pcb p with exitCode := v } :=
    Function.update_self ..
  unfold Kernel.procMakezombie at he
  simp only [Kernel.setPcb, Option.bind_eq_bind] at he
  rw [hpcb] at he
  obtain ⟨s, hs, hk⟩ := Option.bind_eq_some_iff.1 he
  simp only [Option.pure_def, Option.some.injEq] at hk
  have h₁ := h.die hp hr
  -- the parents of the children and the exit code are all that changes in the PCBs
  have hend : ∀ {wait'}, Waits G dom wait' { k with sys := s, ref := eachUsem usemClose (k.pcb p).usems k.ref } →
      Waits G dom wait' k' := by
    intro wait' hw
    have hus : ∀ i, (k'.pcb i).usems = (k.pcb i).usems := fun i => by
      rw [← hk]
      by_cases hip : i = p
      · subst hip
        simp only [hpcb]
        split <;> rfl
      · simp only [Function.update_of_ne hip]
        split <;> rfl
    have hpar : ∀ i q, (k'.pcb i).parent = some q → (k.pcb i).parent = some q := fun i q hi => by
      rw [← hk] at hi
      by_cases hip : i = p
      · subst hip
        simp only [hpcb] at hi
        split at hi
        · cases hi
        · exact hi
      · simp only [Function.update_of_ne hip] at hi
        split at hi
        · cases hi
        · exact hi
    have hsys : k'.sys = s := by rw [← hk]
    have href : k'.ref = eachUsem usemClose (k.pcb p).usems k.ref := by rw [← hk]
    have hm : ∀ q y, k'.MayWait q y ↔ k.MayWait q y := fun q y => by
      unfold MayWait
      simp only [hus]
    refine ⟨hsys ▸ hw.ok, hw.serial, ?_, ?_, fun i q hi => hw.parent i q (hpar i q hi),
      fun y hy q hq => (hm q y).2 (hw.may y hy q hq), fun u => ?_, ?_⟩
    · rw [hsys]; exact hw.zombie
    · rw [href]; exact hw.user
    · rw [href]
      refine (hw.refs u).trans (Finset.sum_congr rfl fun i _ => ?_)
      unfold held
      rw [hsys, hus]
    · rw [hsys]; exact hw.tight
  have hcurr : k'.sys = s ∧ k'.cont = k.cont := by rw [← hk]; exact ⟨rfl, rfl⟩
  rw [hcurr.1, hcurr.2]
  cases hparent : (k.pcb p).parent with
  | none =>
    rw [hparent, Option.elim_none] at hs
    cases hs
    exact ⟨rfl, rfl, ⟨wait, hend h₁, .refl wait⟩, Or.inl rfl⟩
  | some q =>
    rw [hparent, Option.elim_some] at hs
    obtain ⟨h1, wait', h2, hf, h3⟩ := h₁.semV (h.parent p q hparent) (hb q hparent) hs
    refine ⟨h1, rfl, ⟨wait', hend h2, hf⟩, ?_⟩
    rcases h3 with h3 | ⟨i, hi, h3⟩
    · exact Or.inl h3
    · have hip : i ≠ p := fun hc => by
        rw [hc] at hi
        have hz : Function.update k.sys.status p Status.zombie p = .blocked := hi
        rw [Function.update_self] at hz
        cases hz
      refine Or.inr ⟨i, hip, ?_, h3⟩
      have hz : Function.update k.sys.status p Status.zombie i = .blocked := hi
      rw [Function.update_of_ne hip] at hz
      exact hz

/-! ## User semaphores -/

theorem procGetusem_some {id : Int} (h : k.procGetusem p id = some u) :
    0 ≤ id ∧ id.toNat < maxUsem ∧ (k.pcb p).usems id.toNat = some u := by
  unfold Kernel.procGetusem at h
  split at h
  · cases h
  · next hid => exact ⟨by omega, by omega, h⟩

/-- A user semaphore that a live process holds is set up. -/
theorem Waits.dom_user (h : Waits G dom wait k) (hp : p < procNum) (hl : Live k.sys p)
    (hu : ∃ j < maxUsem, (k.pcb p).usems j = some u) : dom (.user u) :=
  h.user u ((h.refs u).symm ▸ holders_pos hp hl hu)

/-- No user semaphore that is handed out has a waiter. -/
theorem Waits.wait_nil (h : Waits G dom wait k) (h0 : k.ref u = 0) (hd : dom (.user u)) : wait (.user u) = [] := by
  refine List.eq_nil_iff_forall_not_mem.2 fun q hq => ?_
  have hb := h.blocked hd hq
  have hpos := holders_pos (h.ok.procs _ hd q hq).2 (by unfold Live; rw [hb]; decide) (h.may _ hd q hq)
  have := h.refs u
  omega

theorem Waits.sysSemOpen (h : Waits G dom wait k) (hp : k.sys.curr < procNum) (hr : k.sys.status k.sys.curr = .running)
    (hv : ∀ u, G (.user u) → 0 ≤ v ∧ v < 2 ^ 31) :
    (k.sysSemOpen v).sys.curr = k.sys.curr ∧ (k.sysSemOpen v).sys.status = k.sys.status ∧
      ∃ dom' wait', Waits G dom' wait' (k.sysSemOpen v) ∧ Fewer wait' wait := by
  unfold Kernel.sysSemOpen
  simp only
  cases ha : k.procAllocusem k.sys.curr with
  | none => exact ⟨rfl, rfl, dom, wait, h.back, .refl wait⟩
  | some j =>
    cases hb : k.usemAlloc v with
    | none => exact ⟨rfl, rfl, dom, wait, h.back, .refl wait⟩
    | some uk =>
      obtain ⟨u, hu, rfl⟩ := Option.map_eq_some_iff.1 hb
      refine ⟨rfl, rfl, ?_⟩
      have h0 : k.ref u = 0 := by simpa using List.find?_some hu
      have hfree : (k.pcb k.sys.curr).usems j = none := by simpa using List.find?_some ha
      have hj : j < maxUsem := List.mem_range.1 (List.mem_of_find?_eq_some ha)
      have hlive : Live k.sys k.sys.curr := by unfold Live; rw [hr]; decide
      have h₁ := h.semInit (x := .user u) (v := v) (h.wait_nil h0) (hv u)
      have h₂ := h₁.setPcb (p := k.sys.curr)
        (y := { k.pcb k.sys.curr with usems := Function.update (k.pcb k.sys.curr).usems j (some u) })
        (g := Function.update k.ref u 1) hp (fun q hq => h₁.parent k.sys.curr q hq)
        (Or.inl (by show k.sys.status k.sys.curr ≠ _; rw [hr]; decide)) (fun w => ?_) fun w hw => ?_
      · exact ⟨_, _, (h₂.congr rfl rfl rfl).back, .update fun q hq => absurd hq List.not_mem_nil⟩
      · rw [if_pos (show Live (k.sys.semInit (.user u) v) k.sys.curr from hlive)]
        show _ = k.ref w + ((slots maxUsem (Function.update (k.pcb k.sys.curr).usems j (some u)) w : Int) -
          slots maxUsem (k.pcb k.sys.curr).usems w)
        rw [slots_set hj, hfree]
        by_cases hwu : w = u
        · subst hwu
          rw [Function.update_self, h0]
          simp
        · rw [Function.update_of_ne hwu]
          simp [Ne.symm hwu]
      · by_cases hwu : w = u
        · exact Or.inr (by rw [hwu])
        · rw [Function.update_of_ne hwu] at hw
          exact Or.inl (h.user w hw)

theorem Waits.sysSemClose {id : Int} (h : Waits G dom wait k) (hp : k.sys.curr < procNum)
    (hr : k.sys.status k.sys.curr = .running) :
    (k.sysSemClose id).sys = k.sys ∧ Waits G dom wait (k.sysSemClose id) := by
  unfold Kernel.sysSemClose
  simp only
  cases hg : k.procGetusem k.sys.curr id with
  | none => exact ⟨rfl, h.back⟩
  | some u =>
    obtain ⟨-, hj, hu⟩ := procGetusem_some hg
    refine ⟨rfl, ?_⟩
    have hlive : Live k.sys k.sys.curr := by unfold Live; rw [hr]; decide
    have h₂ := h.setPcb (p := k.sys.curr)
      (y := { k.pcb k.sys.curr with usems := Function.update (k.pcb k.sys.curr).usems id.toNat none })
      (g := usemClose k.ref u) hp (fun q hq => h.parent k.sys.curr q hq) (Or.inl (by rw [hr]; decide)) (fun w => ?_)
      fun w hw => ?_
    · exact (h₂.congr rfl rfl rfl).back
    · rw [if_pos hlive, slots_set hj, hu]
      unfold usemClose
      by_cases hwu : w = u
      · subst hwu
        rw [Function.update_self]
        simp [sub_eq_add_neg]
      · rw [Function.update_of_ne hwu]
        simp [Ne.symm hwu]
    · unfold usemClose at hw
      by_cases hwu : w = u
      · rw [hwu]
        exact h.dom_user hp hlive ⟨_, hj, hu⟩
      · rw [Function.update_of_ne hwu] at hw
        exact h.user w hw

end TinyOS.Kernel
