/-
Processes on the processor (kernel/src/proc.c, cte.c): contexts on kernel stacks, `schedule`, `proc_run`,
`proc_copycurr` and the end of `irq_handle`, against processes that have a processor each.
-/
import TinyOS.Cpu.Trap
import TinyOS.Proc.Sched
import TinyOS.Lib.Run

namespace TinyOS.Cpu

open TinyOS.Lib

/-! ## The kernel

The C code of the kernel is left open as far as it only computes: it may change the registers and the memory, as long as
its stack pointer stays within the stack of the current process. -/

/-- `KSTACK_SIZE`, and the offset of `ctx` in `kstack_t`. -/
abbrev kstackSize : Nat := 4096

@[inherit_doc kstackSize] abbrev ctxOffset : Nat := 4036

/-- `kstack` and `ctx` are those of the PCBs. `calls p` are the calls of `irq_handle` that process `p` is in, innermost
first, each by its `ctx`. -/
structure Sys where
  m : Machine
  curr : Nat
  status : Nat → Status
  kstack : Nat → Nat
  ctx : Nat → Nat
  calls : Nat → List Nat

namespace Sys

def live (s : Sys) (p : Nat) : Prop := s.status p ≠ .unused ∧ s.status p ≠ .uninit

/-- The stack of a process below this is free. -/
def bound (s : Sys) (p : Nat) : Nat := (s.calls p).head?.getD (s.kstack p + kstackSize)

/-- `ctx->irq`. -/
def irqAt (s : Sys) (c : Nat) : Nat := s.m.mem (c + 32)

/-- `mem` may be the memory after some code of the current process. -/
def Kept (s : Sys) (mem : Nat → Nat) : Prop :=
  ∀ p, s.live p → ∀ x, s.kstack p ≤ x → x < s.kstack p + kstackSize → (p = s.curr → s.bound p ≤ x) → mem x = s.m.mem x

/-- What system calls and interrupts do to the statuses before `schedule`: they make the current process READY,
BLOCKED or ZOMBIE, wake others up, and free others that are ZOMBIE. -/
def Marks (s : Sys) (status : Nat → Status) : Prop :=
  ∀ p, status p = s.status p ∨ p = s.curr ∧ (status p = .ready ∨ status p = .blocked ∨ status p = .zombie) ∨
    p ≠ s.curr ∧ (s.status p = .blocked ∧ status p = .ready ∨ s.status p = .zombie ∧ status p = .unused)

end Sys

/-- `irq_iret(ctx)`. -/
def Machine.callIret (m : Machine) (ctx ret : Nat) : Machine := ((m.push ctx).push ret).irqIret

namespace Sys

def setCalls (s : Sys) (p : Nat) (cs : List Nat) : Sys := { s with calls := Function.update s.calls p cs }

/-- An interrupt, up to `irq_handle`. -/
def trap (s : Sys) (vec handler ret : Nat) : Sys :=
  let m := s.m.enter vec 0 handler ret
  { s.setCalls s.curr (m.mem (m.get .esp + 4) :: s.calls s.curr) with m := m }

/-- `ctx->eax = res`. -/
def setEax (s : Sys) (c v : Nat) : Sys := { s with m := { s.m with mem := Function.update s.m.mem (c + 28) v } }

/-- The end of `irq_handle`. -/
def irqIret (s : Sys) (c ret : Nat) : Sys :=
  { s.setCalls s.curr (s.calls s.curr).tail with m := s.m.callIret c ret }

/-- `proc_run`. -/
def procRun (s : Sys) (p ret : Nat) : Sys :=
  { s.setCalls p (s.calls p).tail with
    status := Function.update s.status p .running
    curr := p
    m := { s.m with ss0 := kdata, esp0 := s.kstack p + kstackSize }.callIret (s.ctx p) ret }

/-- `schedule(ctx)`, whose search ends at `p`. -/
def schedule (s : Sys) (c p ret : Nat) : Sys := { s with ctx := Function.update s.ctx s.curr c }.procRun p ret

/-- `irq_iret(&ctx)` of `sys_exec`. -/
def exec (s : Sys) (c ret : Nat) : Sys := { s.setCalls s.curr [] with m := s.m.callIret c ret }

/-- `proc_alloc`, which gets the page `k` for the kernel stack, `proc_copycurr` and `proc_addready`. -/
def fork (s : Sys) (p k : Nat) : Sys :=
  { s.setCalls p [k + ctxOffset] with
    status := Function.update s.status p .ready
    kstack := Function.update s.kstack p k
    ctx := Function.update s.ctx p (k + ctxOffset)
    m := { s.m with
      mem := Function.update (copyWords s.m.mem (s.kstack s.curr + ctxOffset) (k + ctxOffset) 15)
        (k + ctxOffset + 28) 0 } }

end Sys

/-! ## A processor for each process -/

/-- The registers, and those that its traps have saved, the last one first. -/
structure Own where
  cur : Regs
  saved : List Regs

/-- `run` is some computation, `eax` the result of a system call, `exec` the way into another program. -/
inductive Act where
  | run (r : Regs)
  | trap (r : Regs)
  | eax (v : Nat)
  | iret
  | exec (r : Regs)
  | fork (child : Nat)

def Regs.setEax (r : Regs) (v : Nat) : Regs := { r with gpr := Function.update r.gpr .eax v }

def Own.act (x : Own) : Act → Option Own
  | .run r => some { x with cur := r }
  | .trap r => some ⟨r, x.cur :: x.saved⟩
  | .eax v => x.saved.head?.map fun r => { x with saved := r.setEax v :: x.saved.tail }
  | .iret => x.saved.head?.map fun r => ⟨r.back, x.saved.tail⟩
  | .exec r => some ⟨r.back, []⟩
  | .fork _ => some x

/-- The processors of all, when one process does something. A child starts like its parent, with 0 in `eax`. -/
def Own.step (a : Nat → Own) (e : Nat × Act) : Option (Nat → Own) :=
  match e.2 with
  | .fork child => (a e.1).saved.head?.map fun r => Function.update a child ⟨r, [r.setEax 0]⟩
  | act => ((a e.1).act act).map (Function.update a e.1)

/-! ## Steps -/

/-- A step of the kernel or of the program that runs, and whose it is. `handler` and `ret` are addresses of
code. A program cannot write where the kernel stacks are; the kernel can write anywhere. -/
inductive Step (s : Sys) : Nat × Act → Sys → Prop
  | user {r : Regs} {mem : Nat → Nat} {fs gs : UInt16} (hu : s.m.cpu.user = true) (hr : r.user = true)
      (hds : kernelSel r.ds = false) (hif : r.eflags.testBit 9 = s.m.cpu.eflags.testBit 9) (hm : s.Kept mem) :
      Step s (s.curr, .run r) { s with m := { s.m with cpu := r, mem := mem, fs := fs, gs := gs } }
  | kernel {r : Regs} {mem : Nat → Nat} {status : Nat → Status} (hu : s.m.cpu.user = false) (hcs : r.cs = kcode)
      (hss : r.ss = kdata)
      (hlo : s.kstack s.curr ≤ r.gpr .esp) (hhi : r.gpr .esp ≤ s.bound s.curr) (hst : s.Marks status) :
      Step s (s.curr, .run r) { s with m := { s.m with cpu := r, mem := mem }, status := status }
  /-- `int $0x80` of a program, or an interrupt from outside. -/
  | trap {vec handler ret : Nat} (hu : s.m.cpu.user = true)
      (hv : vec = 128 ∨ 32 ≤ vec ∧ vec ≤ 47 ∧ s.m.cpu.eflags.testBit 9 = true) :
      Step s (s.curr, .trap (s.trap vec handler ret).m.cpu) (s.trap vec handler ret)
  /-- `INT(0x81)` of the kernel, or an interrupt of the loop that PCB 0 ends in. -/
  | int {vec handler ret : Nat} (hu : s.m.cpu.user = false)
      (hv : vec = 129 ∨ 32 ≤ vec ∧ vec ≤ 47 ∧ s.m.cpu.eflags.testBit 9 = true)
      (hroom : s.kstack s.curr + 60 ≤ s.m.get .esp) :
      Step s (s.curr, .trap (s.trap vec handler ret).m.cpu) (s.trap vec handler ret)
  | eax {c v : Nat} {cs : List Nat} (hu : s.m.cpu.user = false) (hc : s.calls s.curr = c :: cs) (hv : s.irqAt c = 128) :
      Step s (s.curr, .eax v) (s.setEax c v)
  | iret {c ret : Nat} {cs : List Nat} (hu : s.m.cpu.user = false) (hc : s.calls s.curr = c :: cs)
      (hv : s.irqAt c ≠ 129) (hroom : s.kstack s.curr + 8 ≤ s.m.get .esp) :
      Step s (s.curr, .iret) (s.irqIret c ret)
  | switch {c p ret : Nat} {cs : List Nat} (hu : s.m.cpu.user = false) (hc : s.calls s.curr = c :: cs)
      (hv : s.irqAt c = 129)
      (hp : Kernel.search s.status procNum s.curr = some p) (hroom : s.kstack s.curr + 8 ≤ s.m.get .esp) :
      Step s (p, .iret) (s.schedule c p ret)
  /-- The new context is a local variable that `load_user` has filled. -/
  | exec {c c' ret irq : Nat} {cs : List Nat} {r : Regs} (hu : s.m.cpu.user = false) (hc : s.calls s.curr = c :: cs)
      (hv : s.irqAt c = 128)
      (hr : r.user = true) (hds : kernelSel r.ds = false) (hn : Holds s.m.mem c' r irq) (hlo : s.m.get .esp ≤ c')
      (hhi : c' + 60 ≤ c) (hroom : s.kstack s.curr + 8 ≤ s.m.get .esp) :
      Step s (s.curr, .exec r) (s.exec c' ret)
  /-- The allocator gives a page that is nobody's kernel stack. -/
  | fork {c p k : Nat} {cs : List Nat} (hu : s.m.cpu.user = false) (hc : s.calls s.curr = c :: cs)
      (hv : s.irqAt c = 128)
      (hlo : 1 ≤ p) (hhi : p < procNum) (hp : s.status p = .unused) (hk : ∀ q, s.live q → k + kstackSize ≤ s.kstack q ∨
      s.kstack q + kstackSize ≤ k) (hmem : k + kstackSize < 2 ^ 31) :
      Step s (s.curr, .fork p) (s.fork p k)

/-- A step that leaves the contexts alone that are to come back. Nothing in the kernel sees to that: `sys_read`
stores at any address that a program gives. -/
def Careful (s : Sys) (e : Nat × Act) (s' : Sys) : Prop := Step s e s' ∧ ∀ r, e.2 = .run r → s.Kept s'.m.mem

/-- The state that `init_user_and_go` ends in: PCB 0 in its loop, and PCB 1 with the context of the first program. -/
structure Boot (s : Sys) (r : Regs) : Prop where
  curr : s.curr = 0
  cs : s.m.cpu.cs = kcode
  ss : s.m.cpu.ss = kdata
  low : s.kstack 0 ≤ s.m.get .esp
  high : s.m.get .esp ≤ s.kstack 0 + kstackSize
  running : s.status 0 = .running
  ready : s.status 1 = .ready
  unused : ∀ p, 1 < p → s.status p = .unused
  idle : s.calls 0 = []
  ctx : s.ctx 1 = s.kstack 1 + ctxOffset
  call : s.calls 1 = [s.ctx 1]
  holds : ∃ irq, Holds s.m.mem (s.ctx 1) r irq
  user : r.user = true
  ds : kernelSel r.ds = false
  apart : s.kstack 0 + kstackSize ≤ s.kstack 1 ∨ s.kstack 1 + kstackSize ≤ s.kstack 0
  range : s.kstack 0 + kstackSize < 2 ^ 31 ∧ s.kstack 1 + kstackSize < 2 ^ 31

def Own.start (s : Sys) (r : Regs) : Nat → Own := fun p => if p = 0 then ⟨s.m.cpu, []⟩ else ⟨r, [r]⟩

end TinyOS.Cpu
