/-
The processor as far as traps go through it: the entry of an interrupt, the code of kernel/src/trap.S, and the `iret` at
its end, on the registers and on the words of the kernel stacks. What a trap saves is what `irq_iret` brings back.
-/
import TinyOS.Lib.Words
import TinyOS.Lib.Word

namespace TinyOS.Cpu

open TinyOS.Lib

inductive Reg where
  | eax
  | ebx
  | ecx
  | edx
  | esi
  | edi
  | ebp
  | esp
  deriving DecidableEq

structure Regs where
  gpr : Reg → Nat
  eip : Nat
  eflags : Nat
  cs : UInt16
  ds : UInt16
  es : UInt16
  ss : UInt16

/-- The registers, the words of memory by their addresses, and the two fields of `tss` that are used. `fs` and `gs` are
registers apart: trap.S does not save them. -/
structure Machine where
  cpu : Regs
  mem : Nat → Nat
  ss0 : UInt16
  esp0 : Nat
  fs : UInt16
  gs : UInt16

/-- `KSEL(SEG_KCODE)`, `KSEL(SEG_KDATA)`. -/
def kcode : UInt16 := 8

@[inherit_doc kcode] def kdata : UInt16 := 16

/-- The ring of a selector. -/
def ring (sel : UInt16) : Nat := sel.toNat % 4

/-- A selector of `SEG_KCODE` or `SEG_KDATA`. -/
def kernelSel (sel : UInt16) : Bool := sel.toNat / 8 == 1 || sel.toNat / 8 == 2

/-- A selector of the kernel becomes 0. -/
def dropSel (sel : UInt16) : UInt16 := if kernelSel sel then 0 else sel

/-- Is the program of these registers outside the kernel? -/
def Regs.user (r : Regs) : Bool := ring r.cs != 0

namespace Machine

/-! ## Instructions -/

def get (m : Machine) (r : Reg) : Nat := m.cpu.gpr r

def set (m : Machine) (r : Reg) (v : Nat) : Machine :=
  { m with cpu := { m.cpu with gpr := Function.update m.cpu.gpr r v } }

def push (m : Machine) (v : Nat) : Machine :=
  { m.set .esp (usub32 (m.get .esp) 4) with mem := Function.update m.mem (usub32 (m.get .esp) 4) v }

/-- The word on top of the stack, and the machine without it. -/
def pop (m : Machine) : Nat × Machine := (m.mem (m.get .esp), m.set .esp (uint32 (m.get .esp + 4)))

/-- `%ax`. -/
def ax (m : Machine) : UInt16 := UInt16.ofNat (m.get .eax)

def setAx (m : Machine) (v : UInt16) : Machine := m.set .eax (m.get .eax / 2 ^ 16 * 2 ^ 16 + v.toNat)

/-- `pushl`, `popl` of a register. -/
def pushl (m : Machine) (r : Reg) : Machine := m.push (m.get r)

@[inherit_doc pushl] def popl (m : Machine) (r : Reg) : Machine := m.pop.2.set r m.pop.1

def setSels (m : Machine) (ds es : UInt16) : Machine := { m with cpu := { m.cpu with ds := ds, es := es } }

def setFlow (m : Machine) (eip : Nat) (cs : UInt16) (eflags : Nat) : Machine :=
  { m with cpu := { m.cpu with eip := eip, cs := cs, eflags := eflags } }

/-- `movw %ds, %ax`, and `movw %ax, %ds` with `movw %ax, %es`. -/
def readDs (m : Machine) : Machine := m.setAx m.cpu.ds

@[inherit_doc readDs] def writeSels (m : Machine) : Machine := m.setSels m.ax m.ax

/-- `movl 4(%esp), %eax` and `movl %eax, %esp`. -/
def argToEsp (m : Machine) : Machine := (m.set .eax (m.mem (m.get .esp + 4))).set .esp (m.mem (m.get .esp + 4))

/-- `call` of the function at address `f`. -/
def call (m : Machine) (f ret : Nat) : Machine := (m.push ret).setFlow f m.cpu.cs m.cpu.eflags

def setStack (m : Machine) (ss : UInt16) (esp : Nat) : Machine :=
  { m.set .esp esp with cpu := { (m.set .esp esp).cpu with ss := ss } }

/-- The part of `iret` that a return to an outer ring has more: the stack is left, and selectors of the kernel
are dropped. -/
def iretOuter (m : Machine) : Machine :=
  let (esp, m) := m.pop
  let (ss, m) := m.pop
  { (m.setStack (UInt16.ofNat ss) esp).setSels (dropSel m.cpu.ds) (dropSel m.cpu.es) with
    fs := dropSel m.fs, gs := dropSel m.gs }

def iret (m : Machine) : Machine :=
  let inner := ring m.cpu.cs
  let (eip, m) := m.pop
  let (cs, m) := m.pop
  let (eflags, m) := m.pop
  let m := m.setFlow eip (UInt16.ofNat cs) eflags
  if inner < ring m.cpu.cs then m.iretOuter else m

/-! ## Entry

The gates are interrupt gates into `SEG_KCODE`. -/

/-- The exceptions for which the processor pushes an error code. -/
def hasCode (vec : Nat) : Bool := vec == 8 || (10 ≤ vec && vec ≤ 14)

/-- `eflags` without TF, IF, NT, RF and VM. -/
def maskFlags (eflags : Nat) : Nat := eflags &&& (2 ^ 32 - 1 - (2 ^ 8 + 2 ^ 9 + 2 ^ 14 + 2 ^ 16 + 2 ^ 17))

/-- From another ring the stack is that of `tss`. -/
def switchStack (m : Machine) : Machine :=
  if m.cpu.user then ((m.setStack m.ss0 m.esp0).push m.cpu.ss.toNat).push (m.get .esp) else m

/-- What the processor does. -/
def interrupt (m : Machine) (vec code : Nat) : Machine :=
  let old := m.cpu
  let m := ((m.switchStack.push old.eflags).push old.cs.toNat).push old.eip
  let m := if hasCode vec then m.push code else m
  m.setFlow old.eip kcode (maskFlags old.eflags)

/-! ## trap.S -/

/-- The vectors with an entry of their own; the others have `irqall`. -/
def ownEntry (vec : Nat) : Bool := vec ≤ 16 || (32 ≤ vec && vec ≤ 47) || vec == 128 || vec == 129

/-- The word that the entry of a vector pushes last. -/
def irqWord (vec : Nat) : Nat := if ownEntry vec then vec else 2 ^ 32 - 1

def irq (m : Machine) (vec : Nat) : Machine :=
  if hasCode vec then m.push (irqWord vec) else (m.push 0).push (irqWord vec)

/-- Up to the first instruction of `irq_handle` at address `handler`; `ret` is the address of `.L0`. -/
def trap (m : Machine) (handler ret : Nat) : Machine :=
  m.pushl .eax |>.pushl .ebx |>.pushl .ecx |>.pushl .edx |>.pushl .esi |>.pushl .edi |>.pushl .ebp
    |>.readDs |>.pushl .eax |>.setAx kdata |>.writeSels |>.pushl .esp |>.call handler ret

/-- `irq_iret`, with its argument at `4(%esp)`. -/
def irqIret (m : Machine) : Machine :=
  let m := m.argToEsp |>.popl .eax |>.writeSels |>.popl .ebp |>.popl .edi |>.popl .esi |>.popl .edx |>.popl .ecx
    |>.popl .ebx |>.popl .eax
  (m.set .esp (uint32 (m.get .esp + 8))).iret

/-- An interrupt up to `irq_handle`. -/
def enter (m : Machine) (vec code handler ret : Nat) : Machine := ((m.interrupt vec code).irq vec).trap handler ret

end Machine

/-! ## The context -/

/-- `sizeof(Context)`, and the part of it that is pushed when the ring stays the same. -/
def Regs.size (r : Regs) : Nat := if r.user then 60 else 52

/-- The words of a `Context`, from `ds` on. -/
def context (r : Regs) (ds irq errcode : Nat) : List Nat :=
  [ds, r.gpr .ebp, r.gpr .edi, r.gpr .esi, r.gpr .edx, r.gpr .ecx, r.gpr .ebx, r.gpr .eax, irq, errcode, r.eip,
    r.cs.toNat, r.eflags] ++
    if r.user then [r.gpr .esp, r.ss.toNat] else []

/-- What comes back of the registers: `es` gets `ds`. -/
def Regs.back (r : Regs) : Regs := { r with es := r.ds }

/-- The machine when registers have come back. What `fs` and `gs` are is left to those who ran before. -/
def Machine.resumed (m : Machine) (r : Regs) : Machine :=
  { m with cpu := r.back, fs := if r.user then dropSel m.fs else m.fs, gs := if r.user then dropSel m.gs else m.gs }

/-- The context at `c` is one of these registers. -/
def Holds (mem : Nat → Nat) (c : Nat) (r : Regs) (irq : Nat) : Prop :=
  ∃ ds errcode, UInt16.ofNat ds = r.ds ∧ Words mem c (context r ds irq errcode)

/-- Where an interrupt puts its context: below the stack of `tss`, or below what is on the stack. -/
def Machine.stackTop (m : Machine) : Nat := if m.cpu.user then m.esp0 else m.get .esp

end TinyOS.Cpu
