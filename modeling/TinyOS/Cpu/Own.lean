/-
However the processes take turns, each goes on as if it had a processor of its own: the contexts on the kernel
stacks are what these processors have saved.
-/
import TinyOS.Cpu.Switch

namespace TinyOS.Cpu

open TinyOS.Lib

variable {mem mem' : Nat → Nat} {lo top c : Nat} {cs : List Nat} {r : Regs} {rs : List Regs}
  {s s' : Sys} {a a' : Nat → Own}

/-! ## The contexts on a stack -/

/-- A context on the stack between `lo` and `top`, and the contexts behind it. One of the program is at the top. -/
structure Frame (mem : Nat → Nat) (lo top c : Nat) (cs : List Nat) (r : Regs) : Prop where
  holds : Holds mem c r (mem (c + 32))
  lo : lo ≤ c
  le : c + r.size ≤ cs.head?.getD top
  call : mem (c + 32) = 128 → r.user = true
  user : r.user = true → cs = [] ∧ c + 60 = top ∧ kernelSel r.ds = false
  kernel : r.user = false → r.cs = kcode ∧ r.ss = kdata ∧ r.gpr .esp = c + 52

def Frames (mem : Nat → Nat) (lo top : Nat) : List Nat → List Regs → Prop
  | [], [] => True
  | c :: cs, r :: rs => Frame mem lo top c cs r ∧ Frames mem lo top cs rs
  | _, _ => False

theorem size_pos (r : Regs) : 52 ≤ r.size ∧ r.size ≤ 60 := by
  unfold Regs.size
  split <;> omega

theorem Frames.bound (h : Frames mem lo top cs rs) (hlo : lo ≤ top) :
    lo ≤ cs.head?.getD top ∧ cs.head?.getD top ≤ top := by
  induction cs generalizing rs with
  | nil => exact ⟨hlo, le_refl _⟩
  | cons c cs ih =>
    cases rs with
    | nil => exact h.elim
    | cons r rs =>
      obtain ⟨h1, h2⟩ := h
      have hle := h1.le
      have hc := (ih h2).2
      exact ⟨h1.lo, show c ≤ top by omega⟩

theorem Holds.congr {irq : Nat} (h : Holds mem c r irq) (hm : ∀ x, c ≤ x → x < c + r.size → mem' x = mem x) :
    Holds mem' c r irq := by
  obtain ⟨ds, errcode, h1, h2⟩ := h
  refine ⟨ds, errcode, h1, h2.congr fun x h3 h4 => hm x h3 ?_⟩
  rwa [length_context] at h4

/-- What is below the innermost context does not matter. -/
theorem Frames.congr (h : Frames mem lo top cs rs) (hlo : lo ≤ top)
    (hm : ∀ x, cs.head?.getD top ≤ x → x < top → mem' x = mem x) :
    Frames mem' lo top cs rs := by
  induction cs generalizing rs with
  | nil =>
    cases rs with
    | nil => trivial
    | cons r rs => exact h.elim
  | cons c cs ih =>
    cases rs with
    | nil => exact h.elim
    | cons r rs =>
      obtain ⟨h1, h2⟩ := h
      have hle := h1.le
      have hb := (h2.bound hlo).2
      have hs := size_pos r
      have hm : ∀ x, c ≤ x → x < top → mem' x = mem x := hm
      have h32 : mem' (c + 32) = mem (c + 32) := hm _ (by omega) (by omega)
      refine ⟨⟨?_, h1.lo, h1.le, h32 ▸ h1.call, h1.user, h1.kernel⟩, ih h2 fun x h3 h4 => hm x (by omega) h4⟩
      rw [h32]
      exact h1.holds.congr fun x h3 h4 => hm x h3 (by omega)

theorem kstackSize_eq : kstackSize = ctxOffset + 60 := rfl

/-! ## The simulation -/

/-- The processors of their own, as the kernel keeps them. -/
structure Sim (s : Sys) (a : Nat → Own) : Prop where
  cur : (a s.curr).cur = s.m.cpu
  live : s.live s.curr
  lt : s.curr < procNum
  user : s.m.cpu.user = true → s.curr ≠ 0 ∧ s.calls s.curr = [] ∧ kernelSel s.m.cpu.ds = false
  kernel : s.m.cpu.user = false → s.m.cpu.cs = kcode ∧ s.m.cpu.ss = kdata ∧ s.kstack s.curr ≤ s.m.get .esp ∧
    s.m.get .esp ≤ s.bound s.curr
  tss : s.curr ≠ 0 → s.m.esp0 = s.kstack s.curr + kstackSize ∧ s.m.ss0 = kdata
  apart : ∀ p q, s.live p → s.live q → p ≠ q → s.kstack p + kstackSize ≤ s.kstack q ∨
    s.kstack q + kstackSize ≤ s.kstack p
  range : ∀ p, s.live p → s.kstack p + kstackSize < 2 ^ 31
  frames : ∀ p, s.live p → Frames s.m.mem (s.kstack p) (s.kstack p + kstackSize) (s.calls p) (a p).saved
  ctx : ∀ p, p ≠ s.curr → s.status p = .ready ∨ s.status p = .blocked → (s.calls p).head? = some (s.ctx p)
  idle : ∀ r ∈ (a 0).saved, r.user = false

/-- Code that only computes changes no context. -/
theorem Sim.kept (h : Sim s a) {mem : Nat → Nat} (hm : s.Kept mem) (p : Nat) (hp : s.live p) :
    Frames mem (s.kstack p) (s.kstack p + kstackSize) (s.calls p) (a p).saved := by
  have hlo : s.kstack p ≤ s.kstack p + kstackSize := Nat.le_add_right ..
  have hb := ((h.frames p hp).bound hlo).1
  exact (h.frames p hp).congr hlo fun x h1 h2 => hm p hp x (le_trans hb h1) h2 fun _ => h1

/-- The kernel writes on the free part of its stack. -/
theorem Sim.kept_free (h : Sim s a) {mem : Nat → Nat}
    (hm : ∀ x, x < s.kstack s.curr ∨ s.bound s.curr ≤ x → mem x = s.m.mem x) :
    s.Kept mem := by
  intro p hp x h1 h2 h3
  refine hm x ?_
  by_cases hpc : p = s.curr
  · exact .inr (hpc ▸ h3 hpc)
  · have hap := h.apart p s.curr hp h.live hpc
    have hb := ((h.frames s.curr h.live).bound (Nat.le_add_right ..)).2
    have hb : s.bound s.curr ≤ s.kstack s.curr + kstackSize := hb
    omega

theorem Marks.live {status : Nat → Status} (h : s.Marks status) (p : Nat)
    (hp : status p ≠ .unused ∧ status p ≠ .uninit) (hc : s.live s.curr) :
    s.live p := by
  obtain h | ⟨rfl, h⟩ | ⟨h, h' | h'⟩ := h p
  · rw [h] at hp
    exact hp
  · exact hc
  · exact ⟨by rw [h'.1]; decide, by rw [h'.1]; decide⟩
  · exact absurd h'.2 hp.1

theorem saved_update {p : Nat} {x : Own} (h : x.saved = (a p).saved) (q : Nat) :
    (Function.update a p x q).saved = (a q).saved := by
  by_cases hq : q = p
  · rw [hq, Function.update_self]
    exact h
  · rw [Function.update_of_ne hq]

/-! ### Computation -/

theorem Sim.run (h : Sim s a) {r : Regs} {mem : Nat → Nat} {fs gs : UInt16} {status : Nat → Status} (hm : s.Kept mem)
    (hst : s.Marks status) (hu : r.user = true → s.curr ≠ 0 ∧ s.calls s.curr = [] ∧ kernelSel r.ds = false)
    (hk : r.user = false → r.cs = kcode ∧ r.ss = kdata ∧ s.kstack s.curr ≤ r.gpr .esp ∧ r.gpr .esp ≤ s.bound s.curr) :
    Sim { s with m := { s.m with cpu := r, mem := mem, fs := fs, gs := gs }, status := status }
      (Function.update a s.curr { a s.curr with cur := r }) := by
  have hlive : ∀ p, status p ≠ .unused ∧ status p ≠ .uninit → s.live p := fun p hp => Marks.live hst p hp h.live
  have hsaved := saved_update (a := a) (p := s.curr) (x := { a s.curr with cur := r }) rfl
  constructor
  · show (Function.update a s.curr _ s.curr).cur = r
    rw [Function.update_self]
  · show status s.curr ≠ .unused ∧ status s.curr ≠ .uninit
    obtain h1 | ⟨-, h1 | h1 | h1⟩ | ⟨h1, -⟩ := hst s.curr
    · rw [h1]
      exact h.live
    · exact ⟨by rw [h1]; decide, by rw [h1]; decide⟩
    · exact ⟨by rw [h1]; decide, by rw [h1]; decide⟩
    · exact ⟨by rw [h1]; decide, by rw [h1]; decide⟩
    · exact absurd rfl h1
  · exact h.lt
  · exact hu
  · exact hk
  · exact h.tss
  · exact fun p q hp hq => h.apart p q (hlive p hp) (hlive q hq)
  · exact fun p hp => h.range p (hlive p hp)
  · intro p hp
    rw [hsaved]
    exact h.kept hm p (hlive p hp)
  · intro p hp hs
    have hs : status p = .ready ∨ status p = .blocked := hs
    refine h.ctx p hp ?_
    obtain h1 | ⟨h1, -⟩ | ⟨-, h1 | h1⟩ := hst p
    · rwa [← h1]
    · exact absurd h1 hp
    · exact .inr h1.1
    · rw [h1.2] at hs
      obtain hs | hs := hs <;> cases hs
  · rw [hsaved]
    exact h.idle

/-! ### Traps -/

theorem Holds.irq {irq : Nat} (h : Holds mem c r irq) : mem (c + 32) = irq := by
  obtain ⟨ds, errcode, -, h⟩ := h
  have h := (words_append [ds, r.gpr .ebp, r.gpr .edi, r.gpr .esi, r.gpr .edx, r.gpr .ecx, r.gpr .ebx, r.gpr .eax]).1 h
  exact h.2.1

theorem user_false (h : r.cs = kcode) : r.user = false := by
  unfold Regs.user
  rw [h]
  rfl

theorem Sim.trap (h : Sim s a) {vec handler ret : Nat} (ht : s.m.stackTop = c + 8 + s.m.cpu.size)
    (hlo : s.kstack s.curr ≤ c) (hhi : s.m.stackTop ≤ s.bound s.curr)
    (hv : Machine.irqWord vec = 128 → s.m.cpu.user = true) :
    ∃ a', Own.step a (s.curr, .trap (s.trap vec handler ret).m.cpu) = some a' ∧ Sim (s.trap vec handler ret) a' := by
  have hrange := h.range s.curr h.live
  have hb := ((h.frames s.curr h.live).bound (Nat.le_add_right ..)).2
  have hb : s.bound s.curr ≤ s.kstack s.curr + kstackSize := hb
  have hsize := size_pos s.m.cpu
  obtain ⟨he, harg, hh, ho⟩ := Machine.enter_spec vec 0 handler ret ht (by omega)
  obtain ⟨hcs, hss, hss0, hesp0⟩ := Machine.enter_regs s.m vec 0 handler ret
  have hkept : s.Kept (s.m.enter vec 0 handler ret).mem := h.kept_free fun x hx => ho x (by omega)
  have hcalls : (s.trap vec handler ret).calls = Function.update s.calls s.curr ((c + 8) :: s.calls s.curr) := by
    show Function.update s.calls s.curr (_ :: _) = _
    rw [he, harg]
  have hself : (s.trap vec handler ret).calls s.curr = (c + 8) :: s.calls s.curr := by rw [hcalls, Function.update_self]
  have hu : (s.m.enter vec 0 handler ret).cpu.user = false := user_false hcs
  refine ⟨Function.update a s.curr ⟨(s.m.enter vec 0 handler ret).cpu, (a s.curr).cur :: (a s.curr).saved⟩, rfl, ?_⟩
  constructor
  · show (Function.update a s.curr _ s.curr).cur = _
    rw [Function.update_self]
    rfl
  · exact h.live
  · exact h.lt
  · intro hc
    exact absurd hc (by rw [show (s.trap vec handler ret).m.cpu.user = false from hu]; decide)
  · intro _
    refine ⟨hcs, ?_, ?_, ?_⟩
    · refine hss.trans ?_
      cases hu : s.m.cpu.user with
      | true => exact (h.tss (h.user hu).1).2
      | false => exact (h.kernel hu).2.1
    · exact he ▸ hlo
    · show (s.m.enter vec 0 handler ret).get .esp ≤ ((s.trap vec handler ret).calls s.curr).head?.getD _
      rw [he, hself]
      exact Nat.le_add_right ..
  · intro h0
    exact ⟨hesp0.trans (h.tss h0).1, hss0.trans (h.tss h0).2⟩
  · exact h.apart
  · exact h.range
  · intro p hp
    have hold := h.kept hkept p hp
    by_cases hpc : p = s.curr
    · subst hpc
      rw [hself, Function.update_self]
      refine ⟨⟨?_, show s.kstack s.curr ≤ c + 8 by omega, ?_, ?_, ?_, ?_⟩, hold⟩
      · rw [h.cur]
        exact hh.irq.symm ▸ hh
      · rw [h.cur]
        exact le_trans (le_of_eq ht.symm) hhi
      · rw [h.cur]
        intro hi
        exact hv (hh.irq.symm.trans hi)
      · rw [h.cur]
        intro hu
        obtain ⟨h1, h2, h3⟩ := h.user hu
        refine ⟨h2, ?_, h3⟩
        rw [Machine.stackTop, if_pos hu, (h.tss h1).1, Regs.size, if_pos hu] at ht
        exact ht.symm
      · rw [h.cur]
        intro hu
        obtain ⟨h1, h2, -⟩ := h.kernel hu
        rw [Machine.stackTop, hu, Regs.size, hu] at ht
        exact ⟨h1, h2, ht⟩
    · rw [hcalls, Function.update_of_ne hpc, Function.update_of_ne hpc]
      exact hold
  · intro p hp hs
    have hp : p ≠ s.curr := hp
    rw [hcalls, Function.update_of_ne hp]
    exact h.ctx p hp hs
  · intro r hr
    by_cases h0 : s.curr = 0
    · rw [← h0, Function.update_self] at hr
      obtain rfl | hr := List.mem_cons.1 hr
      · rw [h.cur]
        cases hu : s.m.cpu.user with
        | true => exact absurd h0 (h.user hu).1
        | false => rfl
      · exact h.idle r (h0 ▸ hr)
    · rw [Function.update_of_ne (Ne.symm h0)] at hr
      exact h.idle r hr

/-! ### The ways back -/

/-- The memory when `irq_iret` is called: its argument and the return address are on the stack. -/
def argMem (m : Machine) (b c ret : Nat) : Nat → Nat := Function.update (Function.update m.mem (b + 4) c) b ret

theorem callIret_spec {m : Machine} {b irq : Nat} (ret : Nat) (hcs : ring m.cpu.cs = 0) (hb : m.get .esp = b + 8)
    (hb32 : b + 8 < 2 ^ 32) (h : Holds (argMem m b c ret) c r irq) (hc : c + 60 < 2 ^ 32)
    (hu : r.user = true → kernelSel r.ds = false) (hk : r.user = false → r.gpr .esp = c + 52 ∧ r.ss = m.cpu.ss) :
    m.callIret c ret = ({ m with mem := argMem m b c ret } : Machine).resumed r := by
  have h1 : m.push c = { m.set .esp (b + 4) with mem := Function.update m.mem (b + 4) c } :=
    Machine.push_eq hb (by omega)
  have h2 : (m.push c).push ret = { (m.push c).set .esp b with mem := argMem m b c ret } := by
    rw [Machine.push_eq (c := b) (by rw [h1]; rfl) (by omega), h1]
    rfl
  have harg : argMem m b c ret (b + 4) = c := by
    rw [argMem, Function.update_of_ne (by omega), Function.update_self]
  rw [Machine.callIret, h2, h1]
  exact Machine.irqIret_spec (c := c) hcs harg h hc hu hk

/-- A process goes on where its innermost context says. -/
theorem Sim.resume (h : Sim s a) {p b esp0 : Nat} {ss0 : UInt16} (ret : Nat) (status : Nat → Status) (ctx : Nat → Nat)
    (hu : s.m.cpu.user = false) (hb : s.m.get .esp = b + 8) (hlo : s.kstack s.curr ≤ b) (hc : s.calls p = c :: cs)
    (hp : p < procNum) (hst : ∀ q, status q ≠ .unused ∧ status q ≠ .uninit → s.live q)
    (hpl : status p ≠ .unused ∧ status p ≠ .uninit) (htss : p ≠ 0 → esp0 = s.kstack p + kstackSize ∧ ss0 = kdata)
    (hctx : ∀ q, q ≠ p → status q = .ready ∨ status q = .blocked → (s.calls q).head? = some (ctx q)) :
    ∃ a', Own.step a (p, .iret) = some a' ∧ Sim { s.setCalls p cs with
      m := ({ s.m with ss0 := ss0, esp0 := esp0 } : Machine).callIret c ret, curr := p,
      status := status, ctx := ctx } a' := by
  obtain ⟨hcs, hss, -, hbound⟩ := h.kernel hu
  have hlive := hst p hpl
  have hrange := h.range p hlive
  have hrc := h.range s.curr h.live
  have htop := ((h.frames s.curr h.live).bound (Nat.le_add_right ..)).2
  have htop : s.bound s.curr ≤ s.kstack s.curr + kstackSize := htop
  have hkept : s.Kept (argMem s.m b c ret) := h.kept_free fun x hx => by
    rw [argMem, Function.update_of_ne (by omega), Function.update_of_ne (by omega)]
  have hframes := h.kept hkept p hlive
  rw [hc] at hframes
  cases hsaved : (a p).saved with
  | nil =>
    rw [hsaved] at hframes
    exact hframes.elim
  | cons r rs =>
    rw [hsaved] at hframes
    obtain ⟨hf, hrest⟩ := hframes
    have hsize := size_pos r
    have hle := hf.le
    have hcb := (hrest.bound (Nat.le_add_right ..)).2
    have hm := callIret_spec (m := { s.m with ss0 := ss0, esp0 := esp0 }) (b := b) (c := c) (r := r) ret
      (by rw [hcs]; rfl) hb (by omega) hf.holds (by omega) (fun hr => (hf.user hr).2.2) (fun hr =>
        ⟨(hf.kernel hr).2.2, (hf.kernel hr).2.1.trans hss.symm⟩)
    refine ⟨Function.update a p ⟨r.back, rs⟩, ?_, ?_⟩
    · simp only [Own.step, Own.act, hsaved, List.head?_cons, Option.map_some, List.tail_cons]
    rw [hm]
    constructor
    · show (Function.update a p _ p).cur = _
      rw [Function.update_self]
      rfl
    · exact hpl
    · exact hp
    · intro hr
      have hr : r.user = true := hr
      refine ⟨?_, ?_, (hf.user hr).2.2⟩
      · rintro rfl
        have h0 := h.idle r (by rw [hsaved]; exact List.mem_cons_self ..)
        exact Bool.noConfusion (h0.symm.trans hr)
      · show Function.update s.calls p cs p = []
        rw [Function.update_self, (hf.user hr).1]
    · intro hr
      have hr : r.user = false := hr
      obtain ⟨k1, k2, k3⟩ := hf.kernel hr
      have hlo' := hf.lo
      refine ⟨k1, k2, show s.kstack p ≤ r.gpr .esp by omega, ?_⟩
      show r.gpr .esp ≤ (Function.update s.calls p cs p).head?.getD _
      rw [Function.update_self, k3]
      rw [Regs.size, hr] at hle
      exact hle
    · exact htss
    · exact fun p q hp hq => h.apart p q (hst p hp) (hst q hq)
    · exact fun p hp => h.range p (hst p hp)
    · intro q hq
      have hold := h.kept hkept q (hst q hq)
      by_cases hqp : q = p
      · subst hqp
        show Frames _ _ _ (Function.update s.calls q cs q) (Function.update a q _ q).saved
        rw [Function.update_self, Function.update_self]
        exact hrest
      · show Frames _ _ _ (Function.update s.calls p cs q) (Function.update a p _ q).saved
        rw [Function.update_of_ne hqp, Function.update_of_ne hqp]
        exact hold
    · intro q hq hs
      show (Function.update s.calls p cs q).head? = _
      rw [Function.update_of_ne hq]
      exact hctx q hq hs
    · intro r' hr'
      refine h.idle r' ?_
      by_cases h0 : p = 0
      · rw [← h0, Function.update_self] at hr'
        rw [← h0, hsaved]
        exact List.mem_cons_of_mem _ hr'
      · rwa [Function.update_of_ne (Ne.symm h0)] at hr'

/-- In a system call the stack has nothing but its context. -/
theorem Sim.syscall (h : Sim s a) (hc : s.calls s.curr = c :: cs) (hv : s.irqAt c = 128) :
    cs = [] ∧ c = s.kstack s.curr + ctxOffset ∧ s.curr ≠ 0 ∧ ∃ r, (a s.curr).saved = [r] ∧ r.user = true ∧
    kernelSel r.ds = false ∧
      Holds s.m.mem c r 128 := by
  have hf := h.frames s.curr h.live
  rw [hc] at hf
  cases hsaved : (a s.curr).saved with
  | nil =>
    rw [hsaved] at hf
    exact hf.elim
  | cons r rs =>
    rw [hsaved] at hf
    obtain ⟨hf, hrest⟩ := hf
    have hr := hf.call hv
    obtain ⟨rfl, htop, hds⟩ := hf.user hr
    have hk := kstackSize_eq
    refine ⟨rfl, by omega, fun h0 => ?_, r, ?_, hr, hds, hv ▸ hf.holds⟩
    · have hfalse := h.idle r (by rw [← h0, hsaved]; exact List.mem_cons_self ..)
      exact Bool.noConfusion (hfalse.symm.trans hr)
    · cases rs with
      | nil => rfl
      | cons r rs => exact hrest.elim

theorem Sim.exec (h : Sim s a) {c' b ret irq : Nat} (hu : s.m.cpu.user = false) (hc : s.calls s.curr = c :: cs)
    (hv : s.irqAt c = 128) (hr : r.user = true) (hds : kernelSel r.ds = false) (hn : Holds s.m.mem c' r irq)
    (hlo : s.m.get .esp ≤ c') (hhi : c' + 60 ≤ c) (hb : s.m.get .esp = b + 8) (hroom : s.kstack s.curr ≤ b) :
    ∃ a', Own.step a (s.curr, .exec r) = some a' ∧ Sim (s.exec c' ret) a' := by
  obtain ⟨rfl, htop, h0, -⟩ := h.syscall hc hv
  obtain ⟨hcs, hss, -, hbound⟩ := h.kernel hu
  have hrange := h.range s.curr h.live
  have hk := kstackSize_eq
  have hbc : s.bound s.curr = c := by
    unfold Sys.bound
    rw [hc]
    rfl
  have hkept : s.Kept (argMem s.m b c' ret) := h.kept_free fun x hx => by
    rw [argMem, Function.update_of_ne (by omega), Function.update_of_ne (by omega)]
  have hn' : Holds (argMem s.m b c' ret) c' r irq := hn.congr fun x h1 _ => by
    rw [argMem, Function.update_of_ne (by omega), Function.update_of_ne (by omega)]
  have hm := callIret_spec (m := s.m) ret (by rw [hcs]; rfl) hb (by omega) hn' (by omega) (fun _ => hds)
    (fun hf => Bool.noConfusion (hf.symm.trans hr))
  refine ⟨Function.update a s.curr ⟨r.back, []⟩, rfl, ?_⟩
  unfold Sys.exec
  rw [hm]
  have hself : Function.update s.calls s.curr ([] : List Nat) s.curr = [] := Function.update_self ..
  constructor
  · show (Function.update a s.curr _ s.curr).cur = _
    rw [Function.update_self]
    rfl
  · exact h.live
  · exact h.lt
  · exact fun _ => ⟨h0, hself, hds⟩
  · exact fun hf => Bool.noConfusion ((show r.user = false from hf).symm.trans hr)
  · exact h.tss
  · exact h.apart
  · exact h.range
  · intro p hp
    by_cases hpc : p = s.curr
    · subst hpc
      show Frames _ _ _ (Function.update s.calls s.curr [] s.curr) (Function.update a s.curr _ s.curr).saved
      rw [hself, Function.update_self]
      trivial
    · show Frames _ _ _ (Function.update s.calls s.curr [] p) (Function.update a s.curr _ p).saved
      rw [Function.update_of_ne hpc, Function.update_of_ne hpc]
      exact h.kept hkept p hp
  · intro p hp hs
    have hp : p ≠ s.curr := hp
    show (Function.update s.calls s.curr [] p).head? = _
    rw [Function.update_of_ne hp]
    exact h.ctx p hp hs
  · intro r' hr'
    rw [Function.update_of_ne (Ne.symm h0)] at hr'
    exact h.idle r' hr'

/-! ### System calls -/

theorem Holds.setEax {irq v : Nat} (h : Holds mem c r irq) :
    Holds (Function.update mem (c + 28) v) c (r.setEax v) irq := by
  obtain ⟨ds, errcode, h1, h2⟩ := h
  exact ⟨ds, errcode, h1, Words.set [ds, r.gpr .ebp, r.gpr .edi, r.gpr .esi, r.gpr .edx, r.gpr .ecx, r.gpr .ebx] h2⟩

theorem Sim.eax (h : Sim s a) {v : Nat} (hc : s.calls s.curr = c :: cs) (hv : s.irqAt c = 128) :
    ∃ a', Own.step a (s.curr, .eax v) = some a' ∧ Sim (s.setEax c v) a' := by
  obtain ⟨rfl, htop, h0, r, hsaved, hr, hds, hh⟩ := h.syscall hc hv
  have hk := kstackSize_eq
  have hother : ∀ p, s.live p → p ≠ s.curr → ∀ x, s.kstack p ≤ x → x < s.kstack p + kstackSize →
      Function.update s.m.mem (c + 28) v x = s.m.mem x := by
    intro p hp hpc x h1 h2
    have hap := h.apart p s.curr hp h.live hpc
    exact Function.update_of_ne (by omega) ..
  refine ⟨Function.update a s.curr ⟨(a s.curr).cur, [r.setEax v]⟩, ?_, ?_⟩
  · simp only [Own.step, Own.act, hsaved, List.head?_cons, Option.map_some, List.tail_cons]
  constructor
  · show (Function.update a s.curr _ s.curr).cur = _
    rw [Function.update_self]
    exact h.cur
  · exact h.live
  · exact h.lt
  · exact h.user
  · exact h.kernel
  · exact h.tss
  · exact h.apart
  · exact h.range
  · intro p hp
    have hp : s.live p := hp
    by_cases hpc : p = s.curr
    · subst hpc
      show Frames (Function.update s.m.mem (c + 28) v) (s.kstack s.curr) _ (s.calls s.curr)
        (Function.update a s.curr _ s.curr).saved
      rw [hc, Function.update_self]
      have htop : c + 60 = s.kstack s.curr + kstackSize := by omega
      refine ⟨⟨hh.setEax.irq.symm ▸ hh.setEax,
        show s.kstack s.curr ≤ c by omega, ?_, fun _ => hr, fun _ => ⟨rfl, htop, hds⟩,
        fun hf => Bool.noConfusion ((show r.user = false from hf).symm.trans hr)⟩, trivial⟩
      have hsize := size_pos (r.setEax v)
      show c + (r.setEax v).size ≤ s.kstack s.curr + kstackSize
      omega
    · show Frames _ (s.kstack p) _ (s.calls p) (Function.update a s.curr _ p).saved
      rw [Function.update_of_ne hpc]
      have hlo : s.kstack p ≤ s.kstack p + kstackSize := Nat.le_add_right ..
      exact (h.frames p hp).congr hlo fun x h1 h2 => hother p hp hpc x (le_trans ((h.frames p hp).bound hlo).1 h1) h2
  · exact h.ctx
  · intro r' hr'
    rw [Function.update_of_ne (Ne.symm h0)] at hr'
    exact h.idle r' hr'

/-- The copy of a context, with another result. -/
theorem Holds.copy {c' v irq : Nat} (h : Holds mem c r irq) (hr : r.user = true) :
    Holds (Function.update (copyWords mem c c' 15) (c' + 28) v) c' (r.setEax v) irq := by
  refine Holds.setEax ?_
  obtain ⟨ds, errcode, h1, h2⟩ := h
  have hlen : (context r ds irq errcode).length = 15 := by
    unfold context
    rw [hr]
    rfl
  exact ⟨ds, errcode, h1, hlen ▸ h2.copy⟩

theorem Sim.fork (h : Sim s a) {p k : Nat} (hc : s.calls s.curr = c :: cs) (hv : s.irqAt c = 128) (hp0 : 1 ≤ p)
    (hp : s.status p = .unused) (hk : ∀ q, s.live q → k + kstackSize ≤ s.kstack q ∨ s.kstack q + kstackSize ≤ k)
    (hmem : k + kstackSize < 2 ^ 31) : ∃ a', Own.step a (s.curr, .fork p) = some a' ∧ Sim (s.fork p k) a' := by
  obtain ⟨rfl, htop, h0, r, hsaved, hr, hds, hh⟩ := h.syscall hc hv
  have hkst := kstackSize_eq
  have hpc : p ≠ s.curr := by
    rintro rfl
    exact h.live.1 hp
  have hcopy : Holds (s.fork p k).m.mem (k + ctxOffset) (r.setEax 0) 128 := by
    rw [htop] at hh
    exact hh.copy hr
  have hother : ∀ x, x < k ∨ k + kstackSize ≤ x → (s.fork p k).m.mem x = s.m.mem x := by
    intro x hx
    show Function.update (copyWords _ _ _ _) _ _ x = _
    rw [Function.update_of_ne (by omega), copyWords_other (by omega)]
  -- the processes are the old ones and the child
  have hlive : ∀ q, q ≠ p → (s.fork p k).live q → s.live q := by
    intro q hq hl
    unfold Sys.live at hl
    have hst : (s.fork p k).status q = s.status q := Function.update_of_ne hq ..
    rwa [hst] at hl
  have hnew : (s.fork p k).kstack p = k := Function.update_self ..
  have hold : ∀ q, q ≠ p → (s.fork p k).kstack q = s.kstack q := fun q hq => Function.update_of_ne hq ..
  have hcalls : ∀ q, q ≠ p → (s.fork p k).calls q = s.calls q := fun q hq => Function.update_of_ne hq ..
  refine ⟨Function.update a p ⟨r, [r.setEax 0]⟩, ?_, ?_⟩
  · simp only [Own.step, hsaved, List.head?_cons, Option.map_some]
  constructor
  · show (Function.update a p _ s.curr).cur = _
    rw [Function.update_of_ne hpc.symm]
    exact h.cur
  · show (Function.update s.status p _ s.curr) ≠ _ ∧ (Function.update s.status p _ s.curr) ≠ _
    rw [Function.update_of_ne hpc.symm]
    exact h.live
  · exact h.lt
  · intro hu
    obtain ⟨-, k2, k3⟩ := h.user hu
    exact ⟨h0, (hcalls s.curr hpc.symm).trans k2, k3⟩
  · intro hu
    obtain ⟨k1, k2, k3, k4⟩ := h.kernel hu
    refine ⟨k1, k2, ?_, ?_⟩
    · show (s.fork p k).kstack s.curr ≤ _
      rw [hold s.curr hpc.symm]
      exact k3
    · show _ ≤ ((s.fork p k).calls s.curr).head?.getD ((s.fork p k).kstack s.curr + kstackSize)
      rw [hold s.curr hpc.symm, hcalls s.curr hpc.symm]
      exact k4
  · intro _
    show s.m.esp0 = (s.fork p k).kstack s.curr + kstackSize ∧ _
    rw [hold s.curr hpc.symm]
    exact h.tss h0
  · intro q q' hq hq' hne
    by_cases h1 : q = p
    · subst h1
      rw [hnew, hold q' (Ne.symm hne)]
      exact hk q' (hlive q' (Ne.symm hne) hq')
    · by_cases h2 : q' = p
      · subst h2
        rw [hnew, hold q h1]
        exact (hk q (hlive q h1 hq)).symm
      · rw [hold q h1, hold q' h2]
        exact h.apart q q' (hlive q h1 hq) (hlive q' h2 hq') hne
  · intro q hq
    by_cases h1 : q = p
    · rw [h1, hnew]
      exact hmem
    · rw [hold q h1]
      exact h.range q (hlive q h1 hq)
  · intro q hq
    by_cases h1 : q = p
    · subst h1
      have hself : (s.fork q k).calls q = [k + ctxOffset] := Function.update_self ..
      have hsize : (r.setEax 0).size = 60 := if_pos hr
      rw [hnew, hself, Function.update_self]
      exact ⟨⟨hcopy.irq.symm ▸ hcopy, Nat.le_add_right .., by
        rw [hsize]; exact le_refl _, fun _ => hr, fun _ => ⟨rfl, rfl, hds⟩,
        fun hf => Bool.noConfusion ((show r.user = false from hf).symm.trans hr)⟩, trivial⟩
    · have hl := hlive q h1 hq
      have hlo : s.kstack q ≤ s.kstack q + kstackSize := Nat.le_add_right ..
      rw [hold q h1, hcalls q h1, Function.update_of_ne h1]
      refine (h.frames q hl).congr hlo fun x h2 h3 => hother x ?_
      have hb := ((h.frames q hl).bound hlo).1
      have hap := hk q hl
      omega
  · intro q hq hs
    by_cases h1 : q = p
    · subst h1
      show (Function.update s.calls q _ q).head? = some (Function.update s.ctx q _ q)
      rw [Function.update_self, Function.update_self]
      rfl
    · have hst : (s.fork p k).status q = s.status q := Function.update_of_ne h1 ..
      have hctx : (s.fork p k).ctx q = s.ctx q := Function.update_of_ne h1 ..
      rw [hst] at hs
      rw [hcalls q h1, hctx]
      exact h.ctx q hq hs
  · intro r' hr'
    rw [Function.update_of_ne (by omega)] at hr'
    exact h.idle r' hr'

/-! ## Runs -/

theorem Sim.bound (h : Sim s a) : s.bound s.curr ≤ s.kstack s.curr + kstackSize :=
  ((h.frames s.curr h.live).bound (Nat.le_add_right ..)).2

/-- Each step is one of the processor that the process has for itself. -/
theorem Sim.step {e : Nat × Act} (h : Sim s a) (hs : Careful s e s') : ∃ a', Own.step a e = some a' ∧ Sim s' a' := by
  have hk := kstackSize_eq
  obtain ⟨hs, hm⟩ := hs
  cases hs with
  | user hu hr hds hif _ =>
    obtain ⟨h0, hc, -⟩ := h.user hu
    exact ⟨_, rfl, h.run (hm _ rfl) (fun p => .inl rfl) (fun _ => ⟨h0, hc, hds⟩) fun hf =>
      Bool.noConfusion (hf.symm.trans hr)⟩
  | kernel hu hcs hss hlo hhi hst =>
    exact ⟨_, rfl, h.run (hm _ rfl) hst (fun hr => Bool.noConfusion ((user_false hcs).symm.trans hr)) fun _ =>
      ⟨hcs, hss, hlo, hhi⟩⟩
  | trap hu hv =>
    obtain ⟨h0, hc, -⟩ := h.user hu
    have htop : s.m.stackTop = s.kstack s.curr + kstackSize := (if_pos hu).trans (h.tss h0).1
    have hsize : s.m.cpu.size = 60 := if_pos hu
    refine h.trap (c := s.kstack s.curr + 4028) ?_ (Nat.le_add_right ..) ?_ fun _ => hu
    · have h4096 : kstackSize = 4096 := rfl
      omega
    · rw [htop, Sys.bound, hc]
      exact le_refl _
  | int hu hv hroom =>
    obtain ⟨-, -, -, hesp⟩ := h.kernel hu
    have htop : s.m.stackTop = s.m.get .esp := if_neg (Bool.eq_false_iff.1 hu)
    have hsize : s.m.cpu.size = 52 := if_neg (Bool.eq_false_iff.1 hu)
    refine h.trap (c := s.m.get .esp - 60) (by omega) (by omega) (htop ▸ hesp) fun h128 => ?_
    unfold Machine.irqWord at h128
    split at h128 <;> omega
  | eax hu hc hv => exact h.eax hc hv
  | @iret c ret cs hu hc hv hroom =>
    obtain ⟨b, hb⟩ := Nat.exists_eq_add_of_le' (show 8 ≤ s.m.get .esp by omega)
    have hr := h.resume (p := s.curr) (b := b) ret s.status s.ctx hu hb (by omega) hc h.lt (fun q hq => hq) h.live
      h.tss h.ctx
    rw [Sys.irqIret, hc]
    exact hr
  | @switch c p ret cs hu hc hv hp hroom =>
    obtain ⟨b, hb⟩ := Nat.exists_eq_add_of_le' (show 8 ≤ s.m.get .esp by omega)
    obtain ⟨hready, hlt⟩ := Kernel.search_some hp h.lt
    have hctx : ∀ q, s.status q = .ready ∨ s.status q = .blocked →
        (s.calls q).head? = some (Function.update s.ctx s.curr c q) := by
      intro q hq
      by_cases hqc : q = s.curr
      · rw [hqc, hc, Function.update_self]
        rfl
      · rw [Function.update_of_ne hqc]
        exact h.ctx q hqc hq
    obtain ⟨cs', hcs'⟩ := List.head?_eq_some_iff.1 (hctx p (.inl hready))
    have hst : ∀ q, Function.update s.status p .running q ≠ .unused ∧ Function.update s.status p .running q ≠ .uninit →
        s.live q := by
      intro q hq
      by_cases hqp : q = p
      · rw [hqp]
        exact ⟨by rw [hready]; decide, by rw [hready]; decide⟩
      · rwa [Function.update_of_ne hqp] at hq
    have hr := h.resume (p := p) (b := b) ret (Function.update s.status p .running) (Function.update s.ctx s.curr c)
      hu hb (by omega) hcs' hlt hst (by rw [Function.update_self]; decide) (fun _ => ⟨rfl, rfl⟩)
        (fun q hqp hq => hctx q (by
        rwa [Function.update_of_ne hqp] at hq))
    have htail : (s.calls p).tail = cs' := by rw [hcs']; rfl
    rw [← htail] at hr
    exact hr
  | @exec c c' ret irq cs r hu hc hv hr hds hn hlo hhi hroom =>
    obtain ⟨b, hb⟩ := Nat.exists_eq_add_of_le' (show 8 ≤ s.m.get .esp by omega)
    exact h.exec hu hc hv hr hds hn hlo hhi hb (by omega)
  | fork hu hc hv hlo hhi hp hk hmem => exact h.fork hc hv hlo hp hk hmem

theorem Boot.sim (h : Boot s r) : Sim s (Own.start s r) := by
  have hk := kstackSize_eq
  have hlive : ∀ p, s.live p → p = 0 ∨ p = 1 := by
    intro p hp
    by_contra hc
    exact hp.1 (h.unused p (by omega))
  have hself : (Own.start s r 0) = ⟨s.m.cpu, []⟩ := rfl
  constructor
  · rw [h.curr]
    rfl
  · rw [h.curr]
    exact ⟨by rw [h.running]; decide, by rw [h.running]; decide⟩
  · rw [h.curr]
    decide
  · intro hu
    exact Bool.noConfusion ((user_false h.cs).symm.trans hu)
  · intro _
    rw [Sys.bound, h.curr, h.idle]
    exact ⟨h.cs, h.ss, h.low, h.high⟩
  · intro h0
    exact absurd h.curr h0
  · intro p q hp hq hne
    obtain rfl | rfl := hlive p hp
    · obtain rfl | rfl := hlive q hq
      · exact absurd rfl hne
      · exact h.apart
    · obtain rfl | rfl := hlive q hq
      · exact h.apart.symm
      · exact absurd rfl hne
  · intro p hp
    obtain rfl | rfl := hlive p hp
    · exact h.range.1
    · exact h.range.2
  · intro p hp
    obtain rfl | rfl := hlive p hp
    · rw [h.idle]
      trivial
    · obtain ⟨irq, hh⟩ := h.holds
      have hsize : r.size = 60 := if_pos h.user
      rw [h.call]
      have hctx := h.ctx
      exact ⟨⟨hh.irq.symm ▸ hh, by omega, show s.ctx 1 + r.size ≤ s.kstack 1 + kstackSize by omega, fun _ => h.user,
        fun _ => ⟨rfl, by omega, h.ds⟩, fun hf => Bool.noConfusion (hf.symm.trans h.user)⟩, trivial⟩
  · intro p hp hs
    have hl : s.live p := by
      obtain hs | hs := hs
      · exact ⟨by rw [hs]; decide, by rw [hs]; decide⟩
      · exact ⟨by rw [hs]; decide, by rw [hs]; decide⟩
    obtain rfl | rfl := hlive p hl
    · exact absurd h.curr.symm hp
    · rw [h.call]
      rfl
  · intro r' hr'
    cases hr'

theorem Sim.run_steps {es : List (Nat × Act)} (h : Sim s a) (hr : Run Careful s es s') :
    ∃ a', es.foldlM Own.step a = some a' ∧ Sim s' a' := by
  induction hr with
  | nil => exact ⟨a, rfl, h⟩
  | snoc _ hs ih =>
    obtain ⟨a₁, h1, h2⟩ := ih
    obtain ⟨a₂, h3, h4⟩ := h2.step hs
    refine ⟨a₂, ?_, h4⟩
    rw [List.foldlM_append, h1]
    show [_].foldlM Own.step a₁ = some a₂
    rw [List.foldlM_cons, h3]
    rfl

theorem callIret_sels (m : Machine) (c ret : Nat) : (m.callIret c ret).fs = m.fs ∧ (m.callIret c ret).gs = m.gs ∨
    (m.callIret c ret).fs = dropSel m.fs ∧ (m.callIret c ret).gs = dropSel m.gs :=
  Machine.irqIret_sels ((m.push c).push ret)

/-- What a process has in `fs` and `gs` is left to the one that runs next. -/
theorem Step.sels {e : Nat × Act} (hs : Step s e s') (he : ∀ r, e.2 ≠ .run r) :
    s'.m.fs = s.m.fs ∧ s'.m.gs = s.m.gs ∨ s'.m.fs = dropSel s.m.fs ∧ s'.m.gs = dropSel s.m.gs := by
  have henter : ∀ vec handler ret, (s.trap vec handler ret).m.fs = s.m.fs ∧ (s.trap vec handler ret).m.gs = s.m.gs := by
    intro vec handler ret
    unfold Sys.trap Machine.enter Machine.interrupt Machine.irq Machine.switchStack
    split_ifs <;> exact ⟨rfl, rfl⟩
  cases hs with
  | user => exact absurd rfl (he _)
  | kernel => exact absurd rfl (he _)
  | trap => exact .inl (henter ..)
  | int => exact .inl (henter ..)
  | eax => exact .inl ⟨rfl, rfl⟩
  | @iret c ret => exact callIret_sels s.m c ret
  | @switch c p ret =>
    exact callIret_sels { s.m with ss0 := kdata, esp0 := s.kstack p + kstackSize }
      (Function.update s.ctx s.curr c p) ret
  | @exec c c' ret => exact callIret_sels s.m c' ret
  | fork => exact .inl ⟨rfl, rfl⟩

/-- However the processes take turns in a careful run: the processor has the registers that the running process
would have on a processor of its own, and the context of every other one that may run again is what its own
processor has saved last. -/
theorem own_processor {es : List (Nat × Act)} (hb : Boot s r) (hr : Run Careful s es s') :
    ∃ a, es.foldlM Own.step (Own.start s r) = some a ∧ (a s'.curr).cur = s'.m.cpu ∧
      ∀ p, p ≠ s'.curr → s'.status p = .ready ∨ s'.status p = .blocked →
        ∃ x, (a p).saved.head? = some x ∧ Holds s'.m.mem (s'.ctx p) x (s'.irqAt (s'.ctx p)) := by
  obtain ⟨a, h1, h2⟩ := hb.sim.run_steps hr
  refine ⟨a, h1, h2.cur, fun p hp hs => ?_⟩
  have hl : s'.live p := by
    obtain hs | hs := hs
    · exact ⟨by rw [hs]; decide, by rw [hs]; decide⟩
    · exact ⟨by rw [hs]; decide, by rw [hs]; decide⟩
  obtain ⟨cs, hc⟩ := List.head?_eq_some_iff.1 (h2.ctx p hp hs)
  have hf := h2.frames p hl
  rw [hc] at hf
  cases hsaved : (a p).saved with
  | nil =>
    rw [hsaved] at hf
    exact hf.elim
  | cons x xs =>
    rw [hsaved] at hf
    exact ⟨x, rfl, hf.1.holds⟩

/-! ### PCB 0 hands over to the first program -/

/-- The first program, as `load_user` starts it, and the loop of PCB 0. -/
def program : Regs := ⟨fun x => if x = .esp then 0xbfffffe0 else 0, 0x08048000, 0x202, 27, 35, 35, 35⟩

@[inherit_doc program] def loop : Regs := ⟨fun x => if x = .esp then 0x1fff80 else 0, 0x100200, 0x202, kcode,
  kdata, kdata, kdata⟩

def sample : Sys where
  m := ⟨loop, fun x => (context program 35 0 0).getD ((x - 0x300fc4) / 4) 0, 0, 0, 0, 0⟩
  curr := 0
  status := fun p => if p = 0 then .running else if p = 1 then .ready else .unused
  kstack := fun p => if p = 0 then 0x1ff000 else 0x300000
  ctx := fun _ => 0x300fc4
  calls := fun p => if p = 1 then [0x300fc4] else []

theorem sample_boot : Boot sample program := by
  refine ⟨rfl, rfl, rfl, by decide, by decide, rfl, rfl, fun p hp => ?_, rfl, rfl, rfl, ⟨0, 35, 0, rfl, ?_⟩, by
    decide, by decide, by decide, by decide⟩
  · show (if p = 0 then Status.running else if p = 1 then .ready else .unused) = .unused
    rw [if_neg (by omega), if_neg (by omega)]
  · refine ⟨?_, ?_, ?_, ?_, ?_, ?_, ?_, ?_, ?_, ?_, ?_, ?_, ?_, ?_, ?_, trivial⟩ <;> decide +kernel

/-- The timer interrupts PCB 0, which gives the processor to PCB 1. -/
def timer : Sys := sample.trap 32 0 0

@[inherit_doc timer] def yielding : Sys :=
  { timer with
    m := { timer.m with cpu := timer.m.cpu, mem := timer.m.mem }, status := Function.update timer.status 0 .ready }

@[inherit_doc timer] def yielded : Sys := yielding.trap 129 0 0

@[inherit_doc timer] def running : Sys := yielded.schedule 0x1fff10 1 0

theorem calls_yielded : yielded.calls 0 = [0x1fff10, 0x1fff4c] := by decide +kernel

theorem sample_run : Run Careful sample [(0, .trap timer.m.cpu), (0, .run timer.m.cpu), (0, .trap yielded.m.cpu),
    (1, .iret)] running := by
  have h1 : Careful sample (0, .trap timer.m.cpu) timer := ⟨Step.int (by decide) (.inr (by decide)) (by decide),
    fun _ h => (by cases h)⟩
  have h2 : Careful timer (0, .run timer.m.cpu) yielding := by
    refine ⟨Step.kernel (by decide +kernel) (by decide +kernel) (by decide +kernel) (by decide +kernel)
      (by decide +kernel) fun p => ?_, fun _ _ _ _ _ _ _ _ => rfl⟩
    by_cases hp : p = 0
    · subst hp
      exact .inr (.inl ⟨rfl, .inl (Function.update_self ..)⟩)
    · exact .inl (Function.update_of_ne hp ..)
  have h3 : Careful yielding (0, .trap yielded.m.cpu) yielded :=
    ⟨Step.int (by decide +kernel) (.inl rfl) (by decide +kernel), fun _ h => (by cases h)⟩
  have h4 : Careful yielded (1, .iret) running :=
    ⟨Step.switch (by decide +kernel) calls_yielded (by decide +kernel) (by decide +kernel) (by decide +kernel),
      fun _ h => (by cases h)⟩
  exact .snoc (.snoc (.snoc (.snoc .nil h1) h2) h3) h4

theorem own_processor_run : ∃ a, [(0, Act.trap timer.m.cpu), (0, .run timer.m.cpu), (0, .trap yielded.m.cpu),
    (1, .iret)].foldlM Own.step (Own.start sample program) = some a ∧ (a 1).cur = running.m.cpu ∧
      ∃ x, (a 0).saved.head? = some x ∧ Holds running.m.mem (running.ctx 0) x 129 := by
  obtain ⟨a, h1, h2, h3⟩ := own_processor sample_boot sample_run
  obtain ⟨x, h4, h5⟩ := h3 0 (by decide +kernel) (.inl (by decide +kernel))
  have hirq : running.irqAt (running.ctx 0) = 129 := by decide +kernel
  exact ⟨a, h1, h2, x, h4, hirq ▸ h5⟩

/-! ## What a program sees -/

/-- The registers of a program `u`, but for `es`, and for `eax` the results in `vs`. -/
structure Like (u : Regs) (vs : List Nat) (r : Regs) : Prop where
  gpr : ∀ x, x ≠ .eax → r.gpr x = u.gpr x
  eax : r.gpr .eax = u.gpr .eax ∨ r.gpr .eax ∈ vs
  flow : r.eip = u.eip ∧ r.cs = u.cs ∧ r.eflags = u.eflags
  sels : r.ds = u.ds ∧ r.ss = u.ss

/-- Everywhere that the process keeps registers of its program, they are those. -/
def Keeps (u : Regs) (vs : List Nat) (x : Own) : Prop :=
  (x.cur.user = true → Like u vs x.cur) ∧ ∀ r ∈ x.saved, r.user = true → Like u vs r

variable {u : Regs} {vs : List Nat}

theorem Like.mono (h : Like u vs r) {v : Nat} : Like u (vs ++ [v]) r :=
  ⟨h.gpr, h.eax.imp id fun hm => List.mem_append_left _ hm, h.flow, h.sels⟩

theorem Like.setEax (h : Like u vs r) {v : Nat} : Like u (vs ++ [v]) (r.setEax v) := by
  refine ⟨fun x hx => ?_, .inr ?_, h.flow, h.sels⟩
  · exact (Function.update_of_ne hx ..).trans (h.gpr x hx)
  · show Function.update r.gpr .eax v .eax ∈ _
    rw [Function.update_self]
    exact List.mem_append_right _ (List.mem_singleton_self v)

/-- The results of the system calls of process `p`. -/
def result (p : Nat) : Nat × Act → Option Nat
  | (q, .eax v) => if q = p then some v else none
  | _ => none

@[inherit_doc result] def results (p : Nat) (es : List (Nat × Act)) : List Nat := es.filterMap (result p)

/-- Process `p` does not go on with its program, with another program, or as another process. -/
def Waits (p : Nat) (e : Nat × Act) : Prop :=
  match e.2 with
  | .run r => e.1 = p → r.user = false
  | .exec _ => e.1 ≠ p
  | .fork c => c ≠ p
  | _ => True

theorem Own.step_cases {p : Nat} {act : Act} (h : Own.step a (p, act) = some a') :
    (∃ c x, act = .fork c ∧ a' = Function.update a c x) ∨ ∃ x, (a p).act act = some x ∧ a' = Function.update a p x := by
  cases act with
  | fork c =>
    obtain ⟨r, -, rfl⟩ := Option.map_eq_some_iff.1 h
    exact .inl ⟨c, _, rfl, rfl⟩
  | eax v =>
    obtain ⟨x, hx, rfl⟩ := Option.map_eq_some_iff.1 h
    exact .inr ⟨x, hx, rfl⟩
  | iret =>
    obtain ⟨x, hx, rfl⟩ := Option.map_eq_some_iff.1 h
    exact .inr ⟨x, hx, rfl⟩
  | _ => exact .inr ⟨_, rfl, (Option.some.inj h).symm⟩

/-- A step of the process itself. -/
theorem Keeps.act {x y : Own} {act : Act} {p : Nat} (hk : Keeps u vs x) (hw : Waits p (p, act))
    (ht : ∀ r, act = .trap r → r.user = false) (hs : x.act act = some y) : Keeps u (vs ++ results p [(p, act)]) y := by
  obtain ⟨hcur, hsaved⟩ := hk
  cases act with
  | run r =>
    obtain rfl := Option.some.inj hs
    exact ⟨fun hr => Bool.noConfusion ((hw rfl).symm.trans hr), fun r hr hu =>
      (List.append_nil vs).symm ▸ hsaved r hr hu⟩
  | trap r =>
    obtain rfl := Option.some.inj hs
    refine ⟨fun hr => Bool.noConfusion ((ht r rfl).symm.trans hr), fun r hr hu => (List.append_nil vs).symm ▸ ?_⟩
    obtain rfl | hr := List.mem_cons.1 hr
    · exact hcur hu
    · exact hsaved r hr hu
  | eax v =>
    have hres : results p [(p, Act.eax v)] = [v] := List.filterMap_cons_some (f := result p) (if_pos rfl)
    rw [hres]
    obtain ⟨r, hr, rfl⟩ := Option.map_eq_some_iff.1 hs
    obtain ⟨rs, hrs⟩ := List.head?_eq_some_iff.1 hr
    refine ⟨fun hu => (hcur hu).mono, fun r' hr' hu => ?_⟩
    obtain rfl | hr' := List.mem_cons.1 hr'
    · exact (hsaved r (by rw [hrs]; exact List.mem_cons_self ..) hu).setEax
    · exact (hsaved r' (List.mem_of_mem_tail hr') hu).mono
  | iret =>
    obtain ⟨r, hr, rfl⟩ := Option.map_eq_some_iff.1 hs
    refine ⟨fun hu => (List.append_nil vs).symm ▸ ?_, fun r' hr' hu => (List.append_nil vs).symm ▸
      hsaved r' (List.mem_of_mem_tail hr') hu⟩
    obtain ⟨h1, h2, h3, h4⟩ := hsaved r (List.mem_of_mem_head? hr) hu
    exact ⟨h1, h2, h3, h4⟩
  | exec r => exact absurd rfl hw
  | fork c =>
    obtain rfl := Option.some.inj hs
    exact (List.append_nil vs).symm ▸ ⟨hcur, hsaved⟩

theorem Keeps.step {p : Nat} {e : Nat × Act} {es : List (Nat × Act)} (hk : Keeps u (results p es) (a p))
    (hw : Waits p e) (ht : ∀ r, e.2 = .trap r → r.user = false) (hs : Own.step a e = some a') :
    Keeps u (results p (es ++ [e])) (a' p) := by
  obtain ⟨q, act⟩ := e
  rw [results, List.filterMap_append]
  obtain ⟨c, x, rfl, rfl⟩ | ⟨x, hx, rfl⟩ := Own.step_cases hs
  · rw [Function.update_of_ne (Ne.symm hw)]
    exact (List.append_nil (results p es)).symm ▸ hk
  · by_cases hq : q = p
    · subst hq
      rw [Function.update_self]
      exact hk.act hw ht hx
    · -- no result of `p`
      have hres : results p [(q, act)] = [] := by
        cases act with
        | eax v => exact List.filterMap_cons_none (f := result p) (if_neg hq)
        | _ => rfl
      have happ : results p es ++ results p [(q, act)] = results p es := by rw [hres, List.append_nil]
      rw [Function.update_of_ne (Ne.symm hq)]
      exact happ.symm ▸ hk

/-- In any careful run a program that is interrupted or makes a system call goes on with the registers that
trap.S saves as they were: all but `eax`, which only the results of its own system calls change, and `es`. -/
theorem registers_kept {es fs : List (Nat × Act)} {t : Sys} (hb : Boot s r) (hr : Run Careful s es s')
    (hu : s'.m.cpu.user = true) (hr' : Run Careful s' fs t) (hw : ∀ e ∈ fs, Waits s'.curr e) (ht : t.curr = s'.curr)
    (hu' : t.m.cpu.user = true) :
    Like s'.m.cpu (results s'.curr fs) t.m.cpu := by
  obtain ⟨a, -, h⟩ := hb.sim.run_steps hr
  have hstart : Keeps s'.m.cpu (results s'.curr []) (a s'.curr) := by
    refine ⟨fun _ => ?_, fun x hx _ => ?_⟩
    · rw [h.cur]
      exact ⟨fun _ _ => rfl, .inl rfl, ⟨rfl, rfl, rfl⟩, ⟨rfl, rfl⟩⟩
    · have hf := h.frames s'.curr h.live
      rw [(h.user hu).2.1] at hf
      cases hsaved : (a s'.curr).saved with
      | nil =>
        rw [hsaved] at hx
        cases hx
      | cons y ys =>
        rw [hsaved] at hf
        exact hf.elim
  have hrun : ∃ a', Sim t a' ∧ Keeps s'.m.cpu (results s'.curr fs) (a' s'.curr) := by
    clear ht hu'
    induction hr' with
    | nil => exact ⟨a, h, hstart⟩
    | @snoc fs e t t' _ hs ih =>
      obtain ⟨a₁, h1, h2⟩ := ih fun e he => hw e (List.mem_append_left _ he)
      obtain ⟨a₂, h3, h4⟩ := h1.step hs
      refine ⟨a₂, h4, h2.step (hw e (List.mem_append_right _ (List.mem_singleton_self e))) ?_ h3⟩
      rintro r he
      have hs := hs.1
      cases hs <;> cases he
      · exact user_false (Machine.enter_regs ..).1
      · exact user_false (Machine.enter_regs ..).1
  obtain ⟨a', h1, h2⟩ := hrun
  rw [← ht] at h2
  rw [← h1.cur]
  exact ht ▸ h2.1 (by rw [h1.cur]; exact hu')

/-- The program makes a system call, which returns 7. -/
def calling : Sys := running.trap 128 0 0

@[inherit_doc calling] def called : Sys := calling.setEax 0x300fc4 7

@[inherit_doc calling] def back : Sys := called.irqIret 0x300fc4 0

theorem registers_kept_call : running.m.cpu.user = true ∧ back.m.cpu.user = true ∧
    Like running.m.cpu [7] back.m.cpu := by
  have hu : running.m.cpu.user = true := by decide +kernel
  have hu' : back.m.cpu.user = true := by decide +kernel
  have h1 : Careful running (1, .trap calling.m.cpu) calling := ⟨Step.trap hu (.inl rfl), fun _ h => (by cases h)⟩
  have h2 : Careful calling (1, .eax 7) called :=
    ⟨Step.eax (by decide +kernel) (by decide +kernel : calling.calls 1 = [0x300fc4]) (by decide +kernel),
      fun _ h => (by cases h)⟩
  have h3 : Careful called (1, .iret) back :=
    ⟨Step.iret (by decide +kernel) (by decide +kernel : called.calls 1 = [0x300fc4])
    (by decide +kernel) (by decide +kernel), fun _ h => (by cases h)⟩
  refine ⟨hu, hu', registers_kept sample_boot sample_run hu (.snoc (.snoc (.snoc .nil h1) h2) h3) ?_ rfl hu'⟩
  intro e he
  obtain rfl | rfl | rfl : e = _ ∨ e = _ ∨ e = _ := by simpa using he
  · trivial
  · trivial
  · trivial

end TinyOS.Cpu
