/-
Processes (kernel/src/proc.c), user semaphores (kernel/src/sem.c) and the serial line
(kernel/src/serial.c), with the system calls and interrupts that move processes between their
states (kernel/src/syscall.c, timer.c). Address spaces and open files are modelled elsewhere: no
status depends on them.
-/
import TinyOS.Sem.Basic

namespace TinyOS

open TinyOS.Lib TinyOS.Klib

/-- `MAX_USEM`. -/
def maxUsem : Nat := 32

/-- `USER_SEM_NUM`. -/
def userSemNum : Nat := 128

/-- `BUFFER_SIZE`. -/
def bufferSize : Int := 256

/-- The semaphores of the kernel: `serial_sem`, `pcb[p].zombie_sem` and `user_sem[u].sem`. -/
inductive Sema where
  | serial
  | zombie (p : Nat)
  | user (u : Nat)
  deriving DecidableEq

/-- `proc_t`: `usems` holds indices into `user_sem`. The status is in `Sys`. -/
structure Pcb where
  pid : Int
  parent : Option Nat
  childNum : Int
  exitCode : Int
  usems : Nat → Option Nat

/-- Where a process goes on when it gets the processor: in user mode (PCB 0 in its idle loop), or in
the kernel behind the `INT(0x81)` of `sys_sleep`, of `sem_p` in `sys_wait`, or of `sem_p` in
`getchar`, with the number of characters to read after this one and those read before it. -/
inductive Cont where
  | user
  | sleep (cur ticks : Nat)
  | wait
  | read (more : Nat) (got : List UInt8)
  deriving DecidableEq

/-- What a system call gives its caller: `eax`, `*status` of `sys_wait`, the buffer of `sys_read`. -/
structure Reply where
  eax : Int
  status : Int
  buf : List UInt8

structure Kernel where
  sys : Sys Sema
  pcb : Nat → Pcb
  nextPid : Int
  ref : Nat → Int
  tick : Nat
  buffer : Int → UInt8
  head : Int
  tail : Int
  clapboard : Int
  cont : Nat → Cont
  reply : Nat → Reply

namespace Kernel

/-! ## Semaphores of user programs -/

def usemDup (ref : Nat → Int) (u : Nat) : Nat → Int := Function.update ref u (ref u + 1)

def usemClose (ref : Nat → Int) (u : Nat) : Nat → Int := Function.update ref u (ref u - 1)

/-- `none` is the `NULL` that says that all are in use. -/
def usemAlloc (k : Kernel) (value : Int) : Option (Nat × Kernel) :=
  ((List.range userSemNum).find? fun u => decide (k.ref u = 0)).map fun u =>
    (u, { k with sys := k.sys.semInit (.user u) value, ref := Function.update k.ref u 1 })

/-- One of the loops over the semaphores of a process, which skip the free slots. -/
def eachUsem (f : (Nat → Int) → Nat → Nat → Int) (usems : Nat → Option Nat) (ref : Nat → Int) : Nat → Int :=
  (List.range maxUsem).foldl (fun ref j => (usems j).elim ref (f ref)) ref

/-! ## Processes -/

def setPcb (k : Kernel) (p : Nat) (x : Pcb) : Kernel := { k with pcb := Function.update k.pcb p x }

def setCont (k : Kernel) (p : Nat) (c : Cont) : Kernel := { k with cont := Function.update k.cont p c }

/-- The end of a system call of the current process. -/
def back (k : Kernel) (r : Reply) : Kernel :=
  { k with cont := Function.update k.cont k.sys.curr .user, reply := Function.update k.reply k.sys.curr r }

/-- `none` is the `NULL` that says that there is no free PCB. -/
def procAlloc (k : Kernel) : Option (Nat × Kernel) :=
  ((List.range' 1 (procNum - 1)).find? fun i => decide (k.sys.status i = .unused)).map fun i =>
    (i, { k with
      sys := (k.sys.setStatus i .uninit).semInit (.zombie i) 0
      pcb := Function.update k.pcb i ⟨k.nextPid, none, 0, (k.pcb i).exitCode, fun _ => none⟩
      nextPid := int32 (k.nextPid + 1) })

def procFree (k : Kernel) (p : Nat) : Kernel :=
  if k.sys.status p = .running then k else { k with sys := k.sys.setStatus p .unused }

/-- The new process starts in user mode behind the `fork`, with 0 in `eax`. -/
def procCopycurr (k : Kernel) (c : Nat) : Kernel :=
  let p := k.sys.curr
  let k := k.setPcb c { k.pcb c with parent := some p }
  let k := k.setPcb p { k.pcb p with childNum := int32 ((k.pcb p).childNum + 1) }
  let k := k.setPcb c { k.pcb c with usems := fun j => (k.pcb p).usems j <|> (k.pcb c).usems j }
  { k with
    ref := eachUsem usemDup (k.pcb p).usems k.ref
    cont := Function.update k.cont c .user
    reply := Function.update k.reply c ⟨0, 0, []⟩ }

def procMakezombie (k : Kernel) (p : Nat) (code : Int) : Option Kernel := do
  let k := { k.setPcb p { k.pcb p with exitCode := code } with sys := k.sys.setStatus p .zombie }
  let sys ← (k.pcb p).parent.elim (some k.sys) fun q => k.sys.semV (.zombie q)
  return { k with
    sys := sys
    pcb := fun i => if i < procNum ∧ (k.pcb i).parent = some p then { k.pcb i with parent := none } else k.pcb i
    ref := eachUsem usemClose (k.pcb p).usems k.ref }

def procFindzombie (k : Kernel) (p : Nat) : Option Nat :=
  (List.range procNum).find? fun i => decide ((k.pcb i).parent = some p ∧ k.sys.status i = .zombie)

def procAllocusem (k : Kernel) (p : Nat) : Option Nat :=
  (List.range maxUsem).find? fun j => decide ((k.pcb p).usems j = none)

def procGetusem (k : Kernel) (p : Nat) (id : Int) : Option Nat :=
  if id < 0 ∨ maxUsem ≤ id then none else (k.pcb p).usems id.toNat

/-! ## The scheduler -/

/-- The PCB behind `p`, cyclically. -/
def nextProc (p : Nat) : Nat := if p = procNum - 1 then 0 else p + 1

/-- The first `n` rounds of the search loop of `schedule`, from PCB `p` on. -/
def search (status : Nat → Status) : Nat → Nat → Option Nat
  | 0, _ => none
  | n + 1, p => if status (nextProc p) = .ready then some (nextProc p) else search status n (nextProc p)

/-- `none` is a search that finds nothing in `PROC_NUM` rounds, in which it has seen every PCB, and so
goes on for ever. -/
def schedule (k : Kernel) : Option Kernel :=
  (search k.sys.status procNum k.sys.curr).map fun q => { k with sys := k.sys.procRun q }

/-! ## The serial line -/

def pushBack (k : Kernel) (ch : UInt8) : Option Kernel :=
  let k := { k with buffer := Function.update k.buffer (k.tail.tmod bufferSize) ch, tail := int32 (k.tail + 1) }
  if ch = 10 then do
    let sys ← (List.range (int32 (k.tail - k.clapboard)).toNat).foldlM (fun s _ => s.semV .serial) k.sys
    return { k with sys := sys, clapboard := k.tail }
  else some k

def popBack (k : Kernel) : UInt8 × Kernel :=
  if k.tail > k.clapboard then
    let k := { k with tail := int32 (k.tail - 1) }
    (k.buffer (k.tail.tmod bufferSize), k)
  else (0, k)

def popFront (k : Kernel) : UInt8 × Kernel :=
  if k.clapboard > k.head then (k.buffer (k.head.tmod bufferSize), { k with head := int32 (k.head + 1) }) else (0, k)

/-- The interrupt handler, for the bytes that wait at the port. -/
def serialHandle : List UInt8 → Kernel → Option Kernel
  | [], k => some k
  | ch :: rest, k =>
    if ch = 0 then serialHandle rest k
    else if ch = 0x1b then some k
    else if ch = 8 ∨ ch = 127 then serialHandle rest k.popBack.2
    else
      let ch := if ch = 13 then 10 else ch
      if ch = 10 ∨ (32 ≤ ch ∧ ch < 127) then do serialHandle rest (← k.pushBack ch)
      else serialHandle rest k

/-- `getchar` behind its `sem_p`: `none` is the failed assertion. -/
def getcharRest (k : Kernel) : Option (UInt8 × Kernel) :=
  let (ch, k) := k.popFront
  if ch = 0 then none else some (ch, k)

/-- How the kernel is left: back to the program that was interrupted, or through `INT(0x81)` into
`schedule`. -/
inductive Out where
  | back
  | switch
  deriving DecidableEq

/-- The loop of `serial_read`, for `n` characters more than the ones in `got`. -/
def serialRead : Nat → List UInt8 → Kernel → Option (Kernel × Out)
  | 0, got, k => some (k.back ⟨got.length, 0, got⟩, .back)
  | n + 1, got, k => do
    let sys ← k.sys.semP .serial
    if sys.status k.sys.curr = .blocked then
      some ({ k with sys := sys }.setCont k.sys.curr (.read n got), .switch)
    else do
      let (ch, k) ← { k with sys := sys }.getcharRest
      if ch = 10 then some (k.back ⟨got.length + 1, 0, got ++ [ch]⟩, .back) else serialRead n (got ++ [ch]) k

/-! ## System calls -/

def sysYield (k : Kernel) : Kernel := { k with sys := k.sys.procYield }

/-- One test of the loop of `sys_sleep`. -/
def sysSleep (k : Kernel) (cur ticks : Nat) : Kernel × Out :=
  if usub32 k.tick cur < ticks then (k.sysYield.setCont k.sys.curr (.sleep cur ticks), .switch)
  else (k.setCont k.sys.curr .user, .back)

def sysFork (k : Kernel) : Kernel :=
  match k.procAlloc with
  | none => k.back ⟨-1, 0, []⟩
  | some (c, k) =>
    let k := k.procCopycurr c
    { k with sys := k.sys.procAddready c }.back ⟨(k.pcb c).pid, 0, []⟩

/-- `sys_wait` behind its `sem_p`: `none` is the failed assertion. -/
def waitRest (k : Kernel) : Option Kernel := do
  let p := k.sys.curr
  let zombie ← k.procFindzombie p
  let r : Reply := ⟨(k.pcb zombie).pid, (k.pcb zombie).exitCode, []⟩
  let k := k.procFree zombie
  return (k.setPcb p { k.pcb p with childNum := int32 ((k.pcb p).childNum - 1) }).back r

def sysWait (k : Kernel) : Option (Kernel × Out) :=
  let p := k.sys.curr
  if (k.pcb p).childNum = 0 then some (k.back ⟨-1, 0, []⟩, .back)
  else do
    let sys ← k.sys.semP (.zombie p)
    if sys.status p = .blocked then some ({ k with sys := sys }.setCont p .wait, .switch)
    else return (← { k with sys := sys }.waitRest, .back)

def sysSemOpen (k : Kernel) (value : Int) : Kernel :=
  let p := k.sys.curr
  match k.procAllocusem p with
  | none => k.back ⟨-1, 0, []⟩
  | some j =>
    match k.usemAlloc value with
    | none => k.back ⟨-1, 0, []⟩
    | some (u, k) =>
      (k.setPcb p { k.pcb p with usems := Function.update (k.pcb p).usems j (some u) }).back ⟨j, 0, []⟩

/-- A process that `sem_p` blocks returns from the call as soon as it gets the processor again. -/
def sysSemP (k : Kernel) (id : Int) : Option (Kernel × Out) :=
  let p := k.sys.curr
  match k.procGetusem p id with
  | none => some (k.back ⟨-1, 0, []⟩, .back)
  | some u => do
    let sys ← k.sys.semP (.user u)
    return ({ k with sys := sys }.back ⟨0, 0, []⟩, if sys.status p = .blocked then .switch else .back)

def sysSemV (k : Kernel) (id : Int) : Option Kernel :=
  match k.procGetusem k.sys.curr id with
  | none => some (k.back ⟨-1, 0, []⟩)
  | some u => do
    let sys ← k.sys.semV (.user u)
    return { k with sys := sys }.back ⟨0, 0, []⟩

def sysSemClose (k : Kernel) (id : Int) : Kernel :=
  let p := k.sys.curr
  match k.procGetusem p id with
  | none => k.back ⟨-1, 0, []⟩
  | some u =>
    let k := { k with ref := usemClose k.ref u }
    (k.setPcb p { k.pcb p with usems := Function.update (k.pcb p).usems id.toNat none }).back ⟨0, 0, []⟩

/-! ## The system -/

/-- A system call of the current process, an interrupt, or the kernel going on with the system call in
which the current process lost the processor. `exec` stands for every call that leaves the
processes as they are. -/
inductive Event where
  | yield
  | sleep (ticks : Nat)
  | fork
  | exec
  | exit (status : Int)
  | wait
  | semOpen (value : Int)
  | semP (id : Int)
  | semV (id : Int)
  | semClose (id : Int)
  | read (count : Nat)
  | timer
  | serial (bytes : List UInt8)
  | resume

/-- Interrupts are off in the kernel, and PCB 0 makes no system call. -/
def may (k : Kernel) : Event → Bool
  | .resume => decide (k.cont k.sys.curr ≠ .user)
  | .timer => decide (k.cont k.sys.curr = .user)
  | .serial _ => decide (k.cont k.sys.curr = .user)
  | _ => decide (k.cont k.sys.curr = .user ∧ k.sys.curr ≠ 0)

/-- `timer_handle`. -/
def timerHandle (k : Kernel) : Kernel := { k with tick := uint32 (k.tick + 1) }.sysYield

/-- From the entry into the kernel until it is left. Arguments of type `int` are given as any number
that the register holds. -/
def handle (k : Kernel) : Event → Option (Kernel × Out)
  | .yield => some (k.sysYield, .switch)
  | .sleep ticks => some (k.sysSleep k.tick (uint32 ticks))
  | .fork => some (k.sysFork, .back)
  | .exec => some (k, .back)
  | .exit status => do return (← k.procMakezombie k.sys.curr (int32 status), .switch)
  | .wait => k.sysWait
  | .semOpen value => some (k.sysSemOpen (int32 value), .back)
  | .semP id => k.sysSemP (int32 id)
  | .semV id => do return (← k.sysSemV (int32 id), .back)
  | .semClose id => some (k.sysSemClose (int32 id), .back)
  | .read count => serialRead (uint32 count) [] k
  | .timer => some (k.timerHandle, .switch)
  | .serial bytes => do return (← serialHandle bytes k, .back)
  | .resume =>
    match k.cont k.sys.curr with
    | .user => none
    | .sleep cur ticks => some (k.sysSleep cur ticks)
    | .wait => do return (← k.waitRest, .back)
    | .read n got => do
      let (ch, k) ← k.getcharRest
      if ch = 10 then some (k.back ⟨got.length + 1, 0, got ++ [ch]⟩, .back) else serialRead n (got ++ [ch]) k

/-- `none`: the event cannot happen now, or the kernel stops in it. -/
def step (k : Kernel) (e : Event) : Option Kernel :=
  if k.may e then do
    let (k, out) ← k.handle e
    if out = .switch then k.schedule else some k
  else none

/-! ## The start -/

/-- Static memory. -/
def blank : Kernel :=
  ⟨⟨fun _ => .unused, 0, fun _ => 0, ⟨⟨id, id⟩, fun _ => none, false⟩⟩, fun _ => ⟨0, none, 0, 0, fun _ => none⟩, 1,
    fun _ => 0, 0, fun _ => 0, 0, 0, 0, fun _ => .user, fun _ => ⟨0, 0, []⟩⟩

def initSerial (k : Kernel) : Kernel := { k with sys := k.sys.semInit .serial 0 }

def initProc (k : Kernel) : Kernel := { k with sys := (k.sys.setStatus 0 .running).semInit (.zombie 0) 0 }

/-- `none` is the failed assertion. -/
def initUserAndGo (k : Kernel) : Option Kernel := do
  let (p, k) ← k.procAlloc
  return { k with sys := k.sys.procAddready p }

/-- `main`, up to the idle loop. -/
def boot : Option Kernel := blank.initSerial.initProc.initUserAndGo

end Kernel

end TinyOS
