/-
Traps: the context that the entry of an interrupt leaves on the stack holds the registers, and `irq_iret` brings
them back.
-/
import TinyOS.Cpu.Basic

namespace TinyOS.Cpu

open TinyOS.Lib

variable {m : Machine} {r : Regs} {c vec code handler ret irq : Nat}

theorem length_context (ds errcode : Nat) : 4 * (context r ds irq errcode).length = r.size := by
  unfold context Regs.size
  split <;> rfl

namespace Machine

/-! ## `irq_iret` -/

section
variable (m) (x y : Reg) (v v' : Nat) (a b : UInt16)
@[simp] theorem get_set : (m.set x v).get y = if y = x then v else m.get y := Function.update_apply ..
@[simp] theorem get_setSels : (m.setSels a b).get x = m.get x := rfl
@[simp] theorem get_setFlow : (m.setFlow v a v').get x = m.get x := rfl
@[simp] theorem get_setStack : (m.setStack a v).get x = if x = .esp then v else m.get x := Function.update_apply ..
@[simp] theorem mem_set : (m.set x v).mem = m.mem := rfl
@[simp] theorem mem_setSels : (m.setSels a b).mem = m.mem := rfl
@[simp] theorem mem_setFlow : (m.setFlow v a v').mem = m.mem := rfl
@[simp] theorem cs_setFlow : (m.setFlow v a v').cpu.cs = a := rfl
end

theorem ext {m' : Machine} (hg : ∀ x, m.get x = m'.get x) (hf : m.cpu.eip = m'.cpu.eip ∧ m.cpu.cs = m'.cpu.cs ∧
    m.cpu.eflags = m'.cpu.eflags) (hs : m.cpu.ds = m'.cpu.ds ∧ m.cpu.es = m'.cpu.es ∧ m.cpu.ss = m'.cpu.ss)
    (hm : m.mem = m'.mem ∧ m.ss0 = m'.ss0 ∧ m.esp0 = m'.esp0) (hfs : m.fs = m'.fs ∧ m.gs = m'.gs) : m = m' := by
  obtain ⟨⟨g, eip, eflags, cs, ds, es, ss⟩, mem, ss0, esp0, fs, gs⟩ := m
  obtain ⟨⟨g', eip', eflags', cs', ds', es', ss'⟩, mem', ss0', esp0', fs', gs'⟩ := m'
  obtain rfl : g = g' := funext hg
  obtain ⟨rfl, rfl, rfl⟩ := hf
  obtain ⟨rfl, rfl, rfl⟩ := hs
  obtain ⟨rfl, rfl, rfl⟩ := hm
  obtain ⟨rfl, rfl⟩ := hfs
  rfl

/-- The general registers as they are before the `iret` of `irq_iret`. -/
theorem irqIret_eq {ds errcode : Nat} {r : Regs} {rest : List Nat} (harg : m.mem (m.get .esp + 4) = c)
    (hc : c + 40 < 2 ^ 32)
    (hw : Words m.mem c ([ds, r.gpr .ebp, r.gpr .edi, r.gpr .esi, r.gpr .edx, r.gpr .ecx, r.gpr .ebx, r.gpr .eax, irq,
    errcode] ++ rest)) :
    m.irqIret = iret { m with cpu := { m.cpu with
      gpr := Function.update r.gpr .esp (c + 40), ds := UInt16.ofNat ds, es := UInt16.ofNat ds } } := by
  simp only [Words, List.cons_append, List.nil_append, Nat.add_assoc, Nat.reduceAdd] at hw
  obtain ⟨h0, h1, h2, h3, h4, h5, h6, h7, -⟩ := hw
  simp (disch := omega) only [irqIret, argToEsp, writeSels, harg, popl, pop, get_set, mem_set, get_setSels, mem_setSels,
    if_true, reduceCtorEq, if_false, uint32_of_lt, ax, h0, h1, h2, h3, h4, h5, h6, h7, Nat.add_assoc, Nat.reduceAdd]
  refine congrArg iret (ext (fun x => ?_) ⟨rfl, rfl, rfl⟩ ⟨rfl, rfl, rfl⟩ ⟨rfl, rfl, rfl⟩ ⟨rfl, rfl⟩)
  cases x <;> rfl

theorem iret_inner {eip eflags : Nat} {cs : UInt16} (he : m.get .esp = c) (hc : c + 12 < 2 ^ 32)
    (hw : Words m.mem c [eip, cs.toNat, eflags]) (hcs : ¬ ring m.cpu.cs < ring cs) :
    m.iret = (m.set .esp (c + 12)).setFlow eip cs eflags := by
  simp only [Words, Nat.add_assoc, Nat.reduceAdd, and_true] at hw
  obtain ⟨h0, h1, h2⟩ := hw
  simp (disch := omega) only [iret, pop, get_set, mem_set, he, if_true, uint32_of_lt, h0, h1, h2, Nat.add_assoc,
    Nat.reduceAdd, cs_setFlow, UInt16.ofNat_toNat, hcs, if_false]
  refine ext (fun x => ?_) ⟨rfl, rfl, rfl⟩ ⟨rfl, rfl, rfl⟩ ⟨rfl, rfl, rfl⟩ ⟨rfl, rfl⟩
  cases x <;> rfl

theorem iret_outer {eip eflags esp : Nat} {cs ss : UInt16} (he : m.get .esp = c) (hc : c + 20 < 2 ^ 32)
    (hw : Words m.mem c [eip, cs.toNat, eflags, esp, ss.toNat]) (hcs : ring m.cpu.cs < ring cs)
    (hds : kernelSel m.cpu.ds = false) (hes : kernelSel m.cpu.es = false) :
    m.iret = { (m.setFlow eip cs eflags).setStack ss esp with fs := dropSel m.fs, gs := dropSel m.gs } := by
  simp only [Words, Nat.add_assoc, Nat.reduceAdd, and_true] at hw
  obtain ⟨h0, h1, h2, h3, h4⟩ := hw
  simp (disch := omega) only [iret, pop, get_set, mem_set, he, if_true, uint32_of_lt, h0, h1, h2, Nat.add_assoc,
    Nat.reduceAdd, cs_setFlow, UInt16.ofNat_toNat, hcs]
  simp (disch := omega) only [iretOuter, pop, get_set, mem_set, get_setFlow, mem_setFlow, if_true, uint32_of_lt, h3,
    h4, UInt16.ofNat_toNat, Nat.add_assoc, Nat.reduceAdd]
  refine ext (fun x => ?_) ⟨rfl, rfl, rfl⟩ ⟨if_neg (Bool.eq_false_iff.1 hds), if_neg (Bool.eq_false_iff.1 hes),
    rfl⟩ ⟨rfl, rfl, rfl⟩
    ⟨rfl, rfl⟩
  cases x <;> rfl

theorem irqIret_spec (hcs : ring m.cpu.cs = 0) (harg : m.mem (m.get .esp + 4) = c) (h : Holds m.mem c r irq)
    (hc : c + 60 < 2 ^ 32) (hu : r.user = true → kernelSel r.ds = false)
    (hk : r.user = false → r.gpr .esp = c + 52 ∧ r.ss = m.cpu.ss) :
    m.irqIret = m.resumed r := by
  obtain ⟨ds, errcode, hds, hw⟩ := h
  rw [irqIret_eq harg (by omega) hw, hds]
  have hw := (words_append [ds, r.gpr .ebp, r.gpr .edi, r.gpr .esi, r.gpr .edx, r.gpr .ecx, r.gpr .ebx, r.gpr .eax, irq,
    errcode]).1 hw
  cases hr : r.user with
  | false =>
    obtain ⟨hesp, hss⟩ := hk hr
    have hring : ring r.cs = 0 := by simpa [Regs.user] using hr
    simp only [hr, Bool.false_eq_true, if_false] at hw
    refine Eq.trans (iret_inner (c := c + 40) rfl (by omega) hw.2
      (by simp only [hring, Nat.not_lt_zero, not_false_eq_true])) ?_
    have hno : ¬ r.user = true := Bool.eq_false_iff.1 hr
    refine ext (fun x => ?_) ⟨rfl, rfl, rfl⟩ ⟨rfl, rfl, hss.symm⟩ ⟨rfl, rfl, rfl⟩ ⟨(if_neg hno).symm, (if_neg hno).symm⟩
    cases x with
    | esp => exact hesp.symm
    | _ => rfl
  | true =>
    have hring : ring r.cs ≠ 0 := by simpa [Regs.user] using hr
    simp only [hr, if_true] at hw
    refine Eq.trans (iret_outer (c := c + 40) rfl (by omega) hw.2 (lt_of_eq_of_lt hcs (Nat.pos_of_ne_zero hring))
      (hu hr) (hu hr)) ?_
    refine ext (fun x => ?_) ⟨rfl, rfl, rfl⟩ ⟨rfl, rfl, rfl⟩ ⟨rfl, rfl, rfl⟩ ⟨(if_pos hr).symm, (if_pos hr).symm⟩
    cases x <;> rfl

/-- `fs` and `gs` do not come back. -/
theorem irqIret_sels (m : Machine) : m.irqIret.fs = m.fs ∧ m.irqIret.gs = m.gs ∨
    m.irqIret.fs = dropSel m.fs ∧ m.irqIret.gs = dropSel m.gs := by
  have hiret : ∀ m : Machine, m.iret.fs = m.fs ∧ m.iret.gs = m.gs ∨ m.iret.fs = dropSel m.fs ∧
      m.iret.gs = dropSel m.gs := by
    intro m
    simp only [iret]
    split_ifs with h
    · exact .inr ⟨rfl, rfl⟩
    · exact .inl ⟨rfl, rfl⟩
  exact hiret _

/-! ## Entry -/

/-- `vs` are on the stack, which is at `c`; the rest of the memory is that of `mem`, the other registers are
those of `g`. -/
structure OnStack (mem : Nat → Nat) (g : Reg → Nat) (m : Machine) (c : Nat) (vs : List Nat) : Prop where
  esp : m.get .esp = c
  gpr : ∀ x, x ≠ .esp → m.get x = g x
  words : Words m.mem c vs
  other : ∀ x, x < c ∨ c + 4 * vs.length ≤ x → m.mem x = mem x

variable {mem : Nat → Nat} {g : Reg → Nat} {vs : List Nat}

theorem push_eq {v : Nat} (h : m.get .esp = c + 4) (hc : c + 4 < 2 ^ 32) :
    m.push v = { m.set .esp c with mem := Function.update m.mem c v } := by
  unfold Machine.push
  rw [h, usub32_of_le (by omega) hc, Nat.add_sub_cancel]

theorem OnStack.push (h : OnStack mem g m (c + 4) vs) (hc : c + 4 < 2 ^ 32) (v : Nat) :
    OnStack mem g (m.push v) c (v :: vs) := by
  rw [push_eq h.esp hc]
  refine ⟨(get_set ..).trans (if_pos rfl), fun x hx => ?_, h.words.push, fun x hx => ?_⟩
  · exact (Function.update_of_ne hx ..).trans (h.gpr x hx)
  · rw [List.length_cons] at hx
    exact (Function.update_of_ne (by omega) ..).trans (h.other x (by omega))

theorem OnStack.pushl (h : OnStack mem g m (c + 4) vs) (hc : c + 4 < 2 ^ 32) {x : Reg} (hx : x ≠ .esp) :
    OnStack mem g (m.pushl x) c (g x :: vs) := by
  rw [← h.gpr x hx]
  exact h.push hc _

theorem OnStack.set (h : OnStack mem g m c vs) {x : Reg} (hx : x ≠ .esp) (v : Nat) :
    OnStack mem (Function.update g x v) (m.set x v) c vs := by
  refine ⟨(Function.update_of_ne hx.symm ..).trans h.esp, fun y hy => ?_, h.words, h.other⟩
  rw [get_set, Function.update_apply, h.gpr y hy]

theorem OnStack.pushlEsp (h : OnStack mem g m (c + 4) vs) (hc : c + 4 < 2 ^ 32) :
    OnStack mem g (m.pushl .esp) c ((c + 4) :: vs) := by
  have h1 := h.push hc (m.get .esp)
  rw [h.esp] at h1
  rw [Machine.pushl, h.esp]
  exact h1

theorem OnStack.call (h : OnStack mem g m (c + 4) vs) (hc : c + 4 < 2 ^ 32) (f ret : Nat) :
    OnStack mem g (m.call f ret) c (ret :: vs) := by
  obtain ⟨h1, h2, h3, h4⟩ := h.push hc ret
  exact ⟨h1, h2, h3, h4⟩

theorem OnStack.writeSels (h : OnStack mem g m c vs) : OnStack mem g m.writeSels c vs :=
  ⟨h.esp, h.gpr, h.words, h.other⟩

/-- The word that `pushl %eax` pushes for `ds`. -/
def dsWord (eax : Nat) (ds : UInt16) : Nat := eax / 2 ^ 16 * 2 ^ 16 + ds.toNat

theorem ofNat_dsWord (eax : Nat) (ds : UInt16) : UInt16.ofNat (dsWord eax ds) = ds := by
  apply UInt16.toNat.inj
  have hds := ds.toNat_lt
  rw [UInt16.toNat_ofNat', dsWord]
  omega

theorem OnStack.setAx (h : OnStack mem g m c vs) (v : UInt16) :
    OnStack mem (Function.update g .eax (dsWord (g .eax) v)) (m.setAx v) c vs := by
  have h1 := h.set (x := .eax) (by decide) (dsWord (m.get .eax) v)
  rw [h.gpr .eax (by decide)] at h1
  unfold Machine.setAx
  rw [h.gpr .eax (by decide)]
  exact h1

theorem OnStack.trap (h : OnStack mem g m (c + 40) vs) (handler ret : Nat) (hc : c + 40 < 2 ^ 32) :
    ∃ g', OnStack mem g' (m.trap handler ret) c
    ([ret, c + 8, dsWord (g .eax) m.cpu.ds, g .ebp, g .edi, g .esi, g .edx, g .ecx, g .ebx, g .eax] ++ vs) := by
  have h1 := ((h.pushl (c := c + 36) (by omega) (x := .eax) (by decide)).pushl (c := c + 32) (by omega)
    (x := .ebx) (by decide)).pushl
    (c := c + 28) (by omega) (x := .ecx) (by decide)
  have h2 := ((h1.pushl (c := c + 24) (by omega) (x := .edx) (by decide)).pushl (c := c + 20) (by omega)
    (x := .esi) (by decide)).pushl
    (c := c + 16) (by omega) (x := .edi) (by decide)
  have h3 := h2.pushl (c := c + 12) (by omega) (x := .ebp) (by decide)
  have h4 := (h3.setAx m.cpu.ds).pushl (c := c + 8) (by omega) (x := .eax) (by decide)
  rw [Function.update_self] at h4
  exact ⟨_, ((h4.setAx kdata).writeSels.pushlEsp (c := c + 4) (by omega)).call (by omega) handler ret⟩

/-- What the processor pushes first when it comes from another ring. -/
def outerWords (r : Regs) : List Nat := if r.user then [r.gpr .esp, r.ss.toNat] else []

theorem onStack_switchStack (ht : m.stackTop = c + 4 * (outerWords m.cpu).length) (hc : c + 8 < 2 ^ 32) :
    OnStack m.mem m.get m.switchStack c (outerWords m.cpu) := by
  unfold stackTop outerWords at *
  unfold switchStack
  cases hu : m.cpu.user with
  | true =>
    rw [hu] at ht
    simp only [if_true] at ht ⊢
    have h0 : OnStack m.mem m.get (m.setStack m.ss0 m.esp0) (c + 8) [] :=
      ⟨(get_setStack ..).trans ((if_pos rfl).trans ht), fun x hx => (get_setStack ..).trans (if_neg hx),
        trivial, fun x _ => rfl⟩
    exact (h0.push (c := c + 4) (by omega) _).push (by omega) _
  | false =>
    rw [hu] at ht
    simp only [Bool.false_eq_true, if_false] at ht ⊢
    exact ⟨ht, fun x _ => rfl, trivial, fun x _ => rfl⟩

theorem OnStack.setFlow (h : OnStack mem g m c vs) (eip : Nat) (cs : UInt16) (eflags : Nat) :
    OnStack mem g (m.setFlow eip cs eflags) c vs := ⟨h.esp, h.gpr, h.words, h.other⟩

/-- Both kinds of entries leave the same words, with 0 for an error code that the processor does not push. -/
theorem onStack_irq (vec code : Nat) (ht : m.stackTop = c + 20 + 4 * (outerWords m.cpu).length) (hc : c + 28 < 2 ^ 32) :
    OnStack m.mem m.get ((m.interrupt vec code).irq vec) c
      ([irqWord vec, if hasCode vec then code else 0, m.cpu.eip, m.cpu.cs.toNat, m.cpu.eflags] ++
      outerWords m.cpu) := by
  have h0 := (((onStack_switchStack ht (by omega)).push (c := c + 16) (by omega) m.cpu.eflags).push
    (c := c + 12) (by omega)
    m.cpu.cs.toNat).push (c := c + 8) (by omega) m.cpu.eip
  unfold interrupt irq
  cases hv : hasCode vec with
  | true => exact ((h0.push (c := c + 4) (by omega) code).setFlow ..).push (by omega) _
  | false => exact ((h0.setFlow ..).push (c := c + 4) (by omega) 0).push (by omega) _

/-- After an interrupt the context of the registers is on the stack, below it the argument of `irq_handle`, which is its
address, and the return address. -/
theorem enter_spec (vec code handler ret : Nat) (ht : m.stackTop = c + 8 + m.cpu.size) (hc : c + 68 < 2 ^ 32) :
    (m.enter vec code handler ret).get .esp = c ∧ (m.enter vec code handler ret).mem (c + 4) = c + 8 ∧
    Holds (m.enter vec code handler ret).mem (c + 8) m.cpu (irqWord vec) ∧
    (∀ x, x < c ∨ m.stackTop ≤ x → (m.enter vec code handler ret).mem x = m.mem x) := by
  have hsize : 4 * (outerWords m.cpu).length + 52 = m.cpu.size := by
    unfold outerWords Regs.size
    split <;> rfl
  obtain ⟨g', h⟩ := (onStack_irq (m := m) (c := c + 40) vec code (by omega) (by omega)).trap handler ret (by omega)
  have hds : ((m.interrupt vec code).irq vec).cpu.ds = m.cpu.ds := by
    unfold interrupt irq switchStack
    split_ifs <;> rfl
  rw [hds] at h
  obtain ⟨he, -, hw, ho⟩ := h
  obtain ⟨-, harg, hw⟩ := hw
  refine ⟨he, harg, ⟨dsWord (m.get .eax) m.cpu.ds, if hasCode vec then code else 0, ?_, hw⟩, fun x hx => ho x ?_⟩
  · exact ofNat_dsWord ..
  · simp only [List.length_append, List.length_cons, List.length_nil]
    omega

theorem enter_regs (m : Machine) (vec code handler ret : Nat) : (m.enter vec code handler ret).cpu.cs = kcode ∧
    (m.enter vec code handler ret).cpu.ss = (if m.cpu.user then m.ss0 else m.cpu.ss) ∧
    (m.enter vec code handler ret).ss0 = m.ss0 ∧ (m.enter vec code handler ret).esp0 = m.esp0 := by
  unfold enter interrupt irq switchStack
  split_ifs <;> exact ⟨rfl, rfl, rfl, rfl⟩

end Machine

end TinyOS.Cpu
