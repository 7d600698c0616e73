/-
Running command lines (user/src/phase6/sh.c): `main` and `runcmd` as a table of processes that fork,
wait for a child, redirect their descriptors and become other programs, interleaved in any order; and
what a command means, as the acts it leads to one after the other.
-/
import TinyOS.User.Shell
import TinyOS.Lib.Run

namespace TinyOS.Shell

open TinyOS.Lib

/-! ## Descriptors -/

/-- What a descriptor is open on. -/
inductive Opened where
  | console
  | file (name : Nat × Nat) (mode : Mode)
deriving DecidableEq

abbrev Fds := List (Option Opened)

def close (io : Fds) (fd : Nat) : Fds := io.set fd none

/-- The lowest free descriptor. -/
def openFd (io : Fds) (o : Opened) : Fds :=
  let fd := io.idxOf none
  if fd < io.length then io.set fd (some o) else io ++ [some o]

/-- The `fd` that `parseredirs` gives `redircmd`. -/
def Mode.fd : Mode → Nat
  | .read => 0
  | .write => 1
  | .append => 1

/-! ## Processes -/

/-- A line that `main` reads: `cd` with its directory, or what `parsecmd` makes of it in the child. -/
inductive Input where
  | cd (dir : Nat)
  | text (r : Parse Cmd)

/-- The loop of `main` over the lines to come, `runcmd(parsecmd(buf))`, and `runcmd(cmd)`. -/
inductive Prog where
  | lines (ls : List Input)
  | text (r : Parse Cmd)
  | cmd (c : Cmd)

/-- What is seen of a process from outside. -/
inductive Act where
  /-- `chdir`, and whether it failed. -/
  | cd (dir : Nat) (failed : Bool)
  | panic (f : Fault)
  | start (argv : List (Nat × Nat)) (io : Fds)
  | done
  | failed (argv : List (Nat × Nat))
  | opened (file : Nat × Nat) (mode : Mode)
  | refused (file : Nat × Nat)
  | nofork
  /-- A background job of its own. -/
  | spawn (job : Nat) (c : Cmd) (io : Fds)
  /-- The kernel gives up in `sys_pipe`. -/
  | abort

/-- `wait` goes on as the program once a child has been reaped; `image` is another program. -/
inductive Ctl where
  | run (g : Prog) (io : Fds)
  | wait (g : Prog) (io : Fds)
  | image (argv : List (Nat × Nat)) (io : Fds)
  | exiting
  | zombie

def Ctl.waits : Ctl → Prop
  | .wait _ _ => True
  | _ => False

structure Proc where
  ctl : Ctl
  parent : Option Nat
  job : Nat

/-- What a job was given, and the process it began as. -/
structure Job where
  prog : Prog
  io : Fds
  root : Nat

structure Table where
  procs : Nat → Option Proc
  jobs : Nat → Option Job
  halted : Bool

/-- Process `proc` of job `job` took a step, with what was seen of it. -/
structure Event where
  proc : Nat
  job : Nat
  act : Option Act

def acts (j : Nat) (es : List Event) : List Act := es.filterMap fun e => if e.job = j then e.act else none

namespace Table

def put (s : Table) (p : Nat) (x : Proc) : Table := { s with procs := Function.update s.procs p (some x) }

def drop (s : Table) (p : Nat) : Table := { s with procs := Function.update s.procs p none }

def born (s : Table) (j : Nat) (x : Job) : Table := { s with jobs := Function.update s.jobs j (some x) }

/-- `proc_makezombie`: the children have no parent any more. -/
def orphan (s : Table) (p : Nat) : Table :=
  { s with procs := fun q => (s.procs q).map fun x =>
    { x with parent := if x.parent = some p then none else x.parent } }

end Table

/-- What a process does by itself; a failed `fork1` panics. -/
inductive Alone : Ctl → Option Act → Ctl → Prop
  | eof {io} : Alone (.run (.lines []) io) none .exiting
  | cd {dir failed ls io} : Alone (.run (.lines (.cd dir :: ls)) io) (some (.cd dir failed)) (.run (.lines ls) io)
  | unread {r ls io} : Alone (.run (.lines (.text r :: ls)) io) (some .nofork) .exiting
  | parsed {c io} : Alone (.run (.text (.ok c)) io) none (.run (.cmd c) io)
  | panic {f io} : Alone (.run (.text (.error f)) io) (some (.panic f)) .exiting
  | empty {io} : Alone (.run (.cmd (.exec [])) io) none .exiting
  | start {argv io} : argv ≠ [] → Alone (.run (.cmd (.exec argv)) io) (some (.start argv io)) (.image argv io)
  | failed {argv io} : argv ≠ [] → Alone (.run (.cmd (.exec argv)) io) (some (.failed argv)) .exiting
  | opened {c w md io} :
      Alone (.run (.cmd (.redir c w md)) io) (some (.opened w md))
        (.run (.cmd c) (openFd (close io md.fd) (.file w md)))
  | refused {c w md io} : Alone (.run (.cmd (.redir c w md)) io) (some (.refused w)) .exiting
  | unlisted {l r io} : Alone (.run (.cmd (.list l r)) io) (some .nofork) .exiting
  | unbacked {c io} : Alone (.run (.cmd (.back c)) io) (some .nofork) .exiting
  | done {argv io} : Alone (.image argv io) (some .done) .exiting

/-- The child and what the parent goes on with after `wait(0)`. -/
inductive Forks : Prog → Prog → Prog → Prop
  | line {r ls} : Forks (.lines (.text r :: ls)) (.text r) (.lines ls)
  | list {l r} : Forks (.cmd (.list l r)) (.cmd l) (.cmd r)

/-- One process moves; the others stand where they are. -/
inductive Moves (s : Table) : Event → Table → Prop
  | alone {p par j c a c'} : s.procs p = some ⟨c, par, j⟩ → Alone c a c' → Moves s ⟨p, j, a⟩ (s.put p ⟨c', par, j⟩)
  | fork {p par j g io child next q} : s.procs p = some ⟨.run g io, par, j⟩ → Forks g child next → s.procs q = none →
      Moves s ⟨p, j, none⟩ ((s.put p ⟨.wait next io, par, j⟩).put q ⟨.run child io, some p, j⟩)
  | back {p par j c io q k} : s.procs p = some ⟨.run (.cmd (.back c)) io, par, j⟩ → s.procs q = none → s.jobs k = none →
      Moves s ⟨p, j, some (.spawn k c io)⟩
        (((s.put p ⟨.exiting, par, j⟩).put q ⟨.run (.cmd c) io, some p, k⟩).born k ⟨.cmd c, io, q⟩)
  | reap {p par j g io q i} : s.procs p = some ⟨.wait g io, par, j⟩ → s.procs q = some ⟨.zombie, some p, i⟩ →
      Moves s ⟨p, j, none⟩ ((s.drop q).put p ⟨.run g io, par, j⟩)
  | childless {p par j g io} : s.procs p = some ⟨.wait g io, par, j⟩ →
      (∀ q x, s.procs q = some x → x.parent ≠ some p) → Moves s ⟨p, j, none⟩ (s.put p ⟨.run g io, par, j⟩)
  | exit {p par j} : s.procs p = some ⟨.exiting, par, j⟩ → Moves s ⟨p, j, none⟩ ((s.put p ⟨.zombie, par, j⟩).orphan p)
  | pipe {p par j l r io} : s.procs p = some ⟨.run (.cmd (.pipe l r)) io, par, j⟩ →
      Moves s ⟨p, j, some .abort⟩ { s.put p ⟨.exiting, par, j⟩ with halted := true }

/-- Nothing moves in a machine that has stopped. -/
def Step (s : Table) (e : Event) (s' : Table) : Prop := s.halted = false ∧ Moves s e s'

/-- The shell is job 0, with descriptors 0, 1 and 2 open on the console. -/
def boot (ls : List Input) : Table where
  procs p := if p = 0 then some ⟨.run (.lines ls) [some .console, some .console, some .console], none, 0⟩ else none
  jobs j := if j = 0 then some ⟨.lines ls, [some .console, some .console, some .console], 0⟩ else none
  halted := false

/-! ## What a command means -/

/-- The acts that a program with descriptors `io` leads to, in order: a line ends before the next one begins,
the left side of `;` before the right one, and a background job is only started. -/
inductive Does : Prog → Fds → List Act → Prop
  | eof {io} : Does (.lines []) io []
  | cd {dir failed ls io t} : Does (.lines ls) io t → Does (.lines (.cd dir :: ls)) io (.cd dir failed :: t)
  | line {r ls io t u} : Does (.text r) io t → Does (.lines ls) io u → Does (.lines (.text r :: ls)) io (t ++ u)
  | unread {r ls io} : Does (.lines (.text r :: ls)) io [.nofork]
  | parsed {c io t} : Does (.cmd c) io t → Does (.text (.ok c)) io t
  | panic {f io} : Does (.text (.error f)) io [.panic f]
  | empty {io} : Does (.cmd (.exec [])) io []
  | run {argv io} : argv ≠ [] → Does (.cmd (.exec argv)) io [.start argv io, .done]
  | failed {argv io} : argv ≠ [] → Does (.cmd (.exec argv)) io [.failed argv]
  | redir {c w md io t} : Does (.cmd c) (io.set md.fd (some (.file w md))) t →
      Does (.cmd (.redir c w md)) io (.opened w md :: t)
  | refused {c w md io} : Does (.cmd (.redir c w md)) io [.refused w]
  | list {l r io t u} : Does (.cmd l) io t → Does (.cmd r) io u → Does (.cmd (.list l r)) io (t ++ u)
  | unlisted {l r io} : Does (.cmd (.list l r)) io [.nofork]
  | back {k c io} : Does (.cmd (.back c)) io [.spawn k c io]
  | unbacked {c io} : Does (.cmd (.back c)) io [.nofork]
  | pipe {l r io} : Does (.cmd (.pipe l r)) io [.abort]

end TinyOS.Shell
