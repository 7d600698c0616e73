/-
Processes and their memory: `sys_brk`, `sbrk` of the user library, `fork` and `exec`, over the pages of
vme.c.
-/
import TinyOS.Vm.Fork

namespace TinyOS

open TinyOS.Lib

/-- A loadable segment of a program, with the bytes of the file for it. -/
structure Seg where
  vaddr : Nat
  memsz : Nat
  writable : Bool
  data : List UInt8
  fits : data.length ≤ memsz
  below : vaddr + memsz ≤ Vm.usrMem - Vm.pgsize

/-- A program: its segments, and `end`, which the linker places behind them. -/
structure Prog where
  segs : List Seg
  stop : Nat
  above : Vm.phyMem ≤ stop
  below : stop ≤ Vm.usrMem - Vm.pgsize

namespace Vm

/-- The bytes of a segment, what the file does not give being zero, at their addresses. -/
def Seg.bytes (g : Seg) (d : Nat) : List (Nat × Nat × UInt8) :=
  (g.data ++ List.replicate (g.memsz - g.data.length) 0).zipIdx.map
    fun (q : UInt8 × Nat) => (d, g.vaddr + q.2, q.1)

def loadSeg (d : Nat) (s : Vm) (g : Seg) : Option Vm := do
  let s ← s.vmMap d g.vaddr g.memsz (if g.writable then pteP ||| pteW ||| pteU else pteP ||| pteU)
  return s.pokes (Seg.bytes g d)

/-- `load_elf` after the file is found to be a program: the segments, and a page for the stack. -/
def loadElf (s : Vm) (d : Nat) (prog : Prog) : Option Vm := do
  let s ← prog.segs.foldlM (loadSeg d) s
  s.vmMap d (usrMem - pgsize) pgsize (pteP ||| pteW ||| pteU)

/-- `load_user`, with the bytes that `load_arg` puts on the stack. -/
def loadUser (s : Vm) (d : Nat) (prog : Prog) (args : List (Nat × UInt8)) : Option Vm := do
  let s ← s.loadElf d prog
  return s.pokes (args.map fun x => (d, x))

end Vm

/-- What a process has to do with memory: `pgdir`, `kstack` and `brk` of its PCB, the variable `old_brk`
of its `sbrk`, and the initial break of its program. -/
structure Mproc where
  pgdir : Nat
  kstack : Nat
  brk : Nat
  oldBrk : Nat
  init : Nat

structure Mm where
  vm : Vm
  procs : Nat → Option Mproc

namespace Mm

open TinyOS.Vm

def setProc (u : Mm) (p : Nat) (x : Mproc) : Mm := { u with procs := Function.update u.procs p (some x) }

/-- `proc_run`: from now on process `p` runs. -/
def run (u : Mm) (p : Nat) : Option Mm := (u.procs p).map fun x => { u with vm := { u.vm with cr3 := x.pgdir } }

/-- `sys_brk` of the process `p`, that runs. `none` is a panic or a failed assertion. -/
def sysBrk (u : Mm) (p addr : Nat) : Option Mm := do
  let x ← u.procs p
  let brk := x.brk
  let newBrk := pageUp addr
  if brk = 0 then some (u.setProc p { x with brk := newBrk })
  else if brk < newBrk then do
    let vm ← u.vm.vmMap u.vm.cr3 brk (newBrk - brk) (pteP ||| pteW ||| pteU)
    return { u with vm := vm }.setProc p { x with brk := newBrk }
  else if newBrk < brk then do
    let vm ← u.vm.vmUnmap u.vm.cr3 newBrk (brk - newBrk)
    return { u with vm := vm }.setProc p { x with brk := newBrk }
  else some u

/-- `old_brk + increment` in 32 bits. -/
def addBrk (b : Nat) (increment : Int) : Nat := (((b : Int) + increment) % 2 ^ 32).toNat

/-- The first part of `sbrk`, that finds the initial break. -/
def sbrkInit (u : Mm) (p : Nat) : Option Mm := do
  let x ← u.procs p
  if x.oldBrk = 0 then sysBrk (u.setProc p { x with oldBrk := x.init }) p x.init else some u

/-- `sbrk`; as `sys_brk` always returns 0, it returns the old break. -/
def sbrk (u : Mm) (p : Nat) (increment : Int) : Option (Nat × Mm) := do
  let u ← u.sbrkInit p
  let x ← u.procs p
  let u ← u.sysBrk p (addBrk x.oldBrk increment)
  let y ← u.procs p
  return (x.oldBrk, u.setProc p { y with oldBrk := addBrk x.oldBrk increment })

/-- `sys_fork` of the process `p`, that runs, with the free PCB `c`: `proc_alloc` and `proc_copycurr`,
which does not copy `brk`. The user's variables are in the memory that is copied. -/
def sysFork (u : Mm) (p c : Nat) : Option Mm := do
  let x ← u.procs p
  let (pgdir, vm) ← u.vm.vmAlloc
  let (kstack, vm) ← vm.kalloc
  let vm ← vm.vmCopycurr pgdir
  return { u with vm := vm }.setProc c { x with pgdir := pgdir, kstack := kstack, brk := 0 }

/-- `sys_exec` of the process `p`, that runs. `prog` is what the loader makes of the path, `none` for a
file that is missing or not a program. -/
def sysExec (u : Mm) (p : Nat) (prog : Option Prog) (args : List (Nat × UInt8)) : Option (Int × Mm) := do
  let x ← u.procs p
  let (pgdir, vm) ← u.vm.vmAlloc
  let u := { u with vm := vm }.setProc p { x with pgdir := pgdir }
  match prog with
  | none => return (-1, { u with vm := ← u.vm.kfree pgdir })
  | some prog =>
    let vm ← u.vm.loadUser pgdir prog args
    let curr := vm.cr3
    let vm ← Vm.kfree { vm with cr3 := pgdir } curr
    return (0, { u with vm := vm }.setProc p { x with pgdir := pgdir, oldBrk := 0, init := pageUp prog.stop })

end Mm

end TinyOS
