/-
Open files (kernel/src/file.c) over the file system, and the system calls on them and on paths
(kernel/src/syscall.c), for any number of processes that fork and exit (kernel/src/proc.c). What a
device reads or writes is not part of it.
-/
import TinyOS.Fs.Mount
import TinyOS.Sem.Basic

namespace TinyOS

open TinyOS.Lib TinyOS.Fs

/-- `TOTAL_FILE`. -/
def totalFile : Nat := 128

/-- `MAX_UFILE`. -/
def maxUfile : Nat := 32

/-- `DEV_NUM`. -/
def devNum : Nat := 2

def oWronly : Nat := 0x001
def oRdwr : Nat := 0x002
def oCreate : Nat := 0x200
def oTrunc : Nat := 0x400
def oDir : Nat := 0x800

/-- `mode & flag`. -/
def has (mode flag : Nat) : Bool := mode &&& flag != 0

/-- `file_t`, with the slot of the inode and the number of the device. -/
structure File where
  type : Nat
  ref : Int
  readable : Bool
  writable : Bool
  inode : Nat
  offset : Nat
  dev : Int

/-- The part of `proc_t` about files: descriptors, and the slot of the working directory. -/
structure Desc where
  files : Nat → Option Nat
  cwd : Nat

/-- The file system, the table of open files, and the live processes. -/
structure Filesys where
  fs : Fs
  files : Nat → File
  procs : Nat → Option Desc

namespace Filesys

def setFile (u : Filesys) (f : Nat) (x : File) : Filesys := { u with files := Function.update u.files f x }

/-! ## file.c -/

def falloc (u : Filesys) : Option (Nat × Filesys) :=
  ((List.range totalFile).find? fun f => decide ((u.files f).ref = 0)).map fun f =>
    (f, u.setFile f { u.files f with ref := 1, type := typeNone })

def fdup (u : Filesys) (f : Nat) : Filesys := u.setFile f { u.files f with ref := (u.files f).ref + 1 }

def fclose (u : Filesys) (f : Nat) : Option Filesys :=
  let u := u.setFile f { u.files f with ref := (u.files f).ref - 1 }
  if (u.files f).ref = 0 ∧ (u.files f).type = typeFile then do
    return { u with fs := ← u.fs.iclose (u.files f).inode }
  else some u

/-- The type with which `fopen` calls `iopen`. -/
def openType (mode : Nat) : Nat :=
  if has mode oCreate then (if has mode oDir then typeDir else typeFile) else typeNone

/-- Whether an open file or directory of this type must not be opened in this mode. -/
def badMode (type mode : Nat) : Bool :=
  (type != typeDir && has mode oDir) || (type == typeDir && (has mode oWronly || has mode oRdwr || has mode oTrunc))

/-- `none` is a failed assertion, the inner `none` the `NULL`. -/
def fopen (u : Filesys) (cwd : Nat) (path : List UInt8) (mode : Nat) : Option (Option Nat × Filesys) :=
  match u.falloc with
  | none => some (none, u)
  | some (f, u) => do
    let (ip, fs) ← u.fs.iopen cwd path (openType mode)
    let u := { u with fs := fs }
    let x := { u.files f with readable := !has mode oWronly, writable := has mode oWronly || has mode oRdwr }
    match ip with
    | none => return (none, ← u.fclose f)
    | some i =>
      let type := u.fs.itype i
      if type = typeFile ∨ type = typeDir then
        if badMode type mode then do
          let u ← u.fclose f
          return (none, { u with fs := ← u.fs.iclose i })
        else do
          let fs ← if type = typeFile ∧ has mode oTrunc then u.fs.itrunc i else some u.fs
          return (some f, { u with fs := fs }.setFile f { x with type := typeFile, inode := i, offset := 0 })
      else if type = typeDev then do
        let dev := u.fs.idevid i
        return (some f, { u with fs := ← u.fs.iclose i }.setFile f { x with type := typeDev, dev := dev })
      else none

/-- The bytes of a file; nothing of a device. `none` is a crash. -/
def fread (u : Filesys) (f size : Nat) : Option (Option (List UInt8) × Filesys) :=
  let x := u.files f
  if !x.readable then some (none, u)
  else if x.type = typeFile then do
    let (r, fs) ← u.fs.iread x.inode x.offset size
    let u := { u with fs := fs }
    match r with
    | some buf => return (some buf, u.setFile f { x with offset := uint32 (x.offset + buf.length) })
    | none => return (none, u)
  else if x.type = typeDev then (if 0 ≤ x.dev ∧ x.dev < devNum then some (none, u) else none)
  else some (none, u)

/-- The number of bytes written to a file. -/
def fwrite (u : Filesys) (f : Nat) (buf : List UInt8) : Option (Option Nat × Filesys) :=
  let x := u.files f
  if !x.writable then some (none, u)
  else if x.type = typeFile then do
    let (r, fs) ← u.fs.iwrite x.inode x.offset buf
    let u := { u with fs := fs }
    match r with
    | some n => return (some n, u.setFile f { x with offset := uint32 (x.offset + n) })
    | none => return (none, u)
  else if x.type = typeDev then (if 0 ≤ x.dev ∧ x.dev < devNum then some (none, u) else none)
  else some (none, u)

/-- `whence` is 0, 1 or 2 for `SEEK_SET`, `SEEK_CUR` and `SEEK_END`; `none` is the failed assertion. -/
def fseek (u : Filesys) (f off whence : Nat) : Option (Option Nat × Filesys) :=
  let x := u.files f
  let go (o : Nat) : Option (Option Nat × Filesys) := some (some (uint32 o), u.setFile f { x with offset := uint32 o })
  if x.type = typeFile then
    match whence with
    | 0 => go off
    | 1 => go (x.offset + off)
    | 2 => go (u.fs.isize x.inode + off)
    | _ => none
  else some (none, u)

/-! ## System calls -/

def setProc (u : Filesys) (p : Nat) (d : Desc) : Filesys := { u with procs := Function.update u.procs p (some d) }

def procAllocfile (d : Desc) : Option Nat := (List.range maxUfile).find? fun j => decide (d.files j = none)

def procGetfile (d : Desc) (fd : Int) : Option Nat := if fd < 0 ∨ maxUfile ≤ fd then none else d.files fd.toNat

def sysOpen (u : Filesys) (p : Nat) (d : Desc) (path : List UInt8) (mode : Nat) : Option Filesys :=
  match procAllocfile d with
  | none => some u
  | some fd => do
    let (r, u) ← u.fopen d.cwd path mode
    match r with
    | none => some u
    | some f => some (u.setProc p { d with files := Function.update d.files fd (some f) })

def sysClose (u : Filesys) (p : Nat) (d : Desc) (fd : Int) : Option Filesys :=
  match procGetfile d fd with
  | none => some u
  | some f => do
    let u ← u.fclose f
    return u.setProc p { d with files := Function.update d.files fd.toNat none }

def sysDup (u : Filesys) (p : Nat) (d : Desc) (fd : Int) : Filesys :=
  match procAllocfile d with
  | none => u
  | some new =>
    match procGetfile d fd with
    | none => u
    | some f => (u.fdup f).setProc p { d with files := Function.update d.files new (some f) }

def sysRead (u : Filesys) (d : Desc) (fd : Int) (size : Nat) : Option Filesys :=
  match procGetfile d fd with
  | none => some u
  | some f => (u.fread f size).map Prod.snd

def sysWrite (u : Filesys) (d : Desc) (fd : Int) (buf : List UInt8) : Option Filesys :=
  match procGetfile d fd with
  | none => some u
  | some f => (u.fwrite f buf).map Prod.snd

def sysLseek (u : Filesys) (d : Desc) (fd : Int) (off whence : Nat) : Option Filesys :=
  match procGetfile d fd with
  | none => some u
  | some f => (u.fseek f off whence).map Prod.snd

def sysChdir (u : Filesys) (p : Nat) (d : Desc) (path : List UInt8) : Option Filesys := do
  let (r, fs) ← u.fs.iopen d.cwd path typeNone
  match r with
  | none => return { u with fs := fs }
  | some i =>
    if fs.itype i ≠ typeDir then return { u with fs := ← fs.iclose i }
    else return { u with fs := ← fs.iclose d.cwd }.setProc p { d with cwd := i }

def sysUnlink (u : Filesys) (d : Desc) (path : List UInt8) : Option Filesys := do
  let (_, fs) ← u.fs.iremove d.cwd path
  return { u with fs := fs }

/-- The part of `sys_exec` about files: `reads` are the offsets and lengths that `load_elf` takes from the
headers of the program. -/
def sysExec (u : Filesys) (d : Desc) (path : List UInt8) (reads : List (Nat × Nat)) : Option Filesys := do
  let (r, fs) ← u.fs.iopen d.cwd path typeNone
  match r with
  | none => return { u with fs := fs }
  | some i =>
    let fs ← reads.foldlM (fun fs q => (fs.iread i (uint32 q.1) (uint32 q.2)).map Prod.snd) fs
    return { u with fs := ← fs.iclose i }

/-- The part of `proc_copycurr` about files, for a new process `c`. -/
def fork (u : Filesys) (c : Nat) (d : Desc) : Filesys :=
  let u := (List.range maxUfile).foldl (fun u j => (d.files j).elim u u.fdup) u
  { u with fs := u.fs.idup d.cwd }.setProc c d

/-- The part of `proc_makezombie` about files; the process counts as a zombie from the start. -/
def exit (u : Filesys) (p : Nat) (d : Desc) : Option Filesys := do
  let u := { u with procs := Function.update u.procs p none }
  let u ← (List.range maxUfile).foldlM (fun u j => (d.files j).elim (some u) u.fclose) u
  return { u with fs := ← u.fs.iclose d.cwd }

/-! ## The system -/

/-- A system call; `fork` names the PCB that the new process gets. -/
inductive Call where
  | open (path : List UInt8) (mode : Nat)
  | close (fd : Int)
  | dup (fd : Int)
  | read (fd : Int) (size : Nat)
  | write (fd : Int) (buf : List UInt8)
  | lseek (fd : Int) (off whence : Nat)
  | chdir (path : List UInt8)
  | unlink (path : List UInt8)
  | exec (path : List UInt8) (reads : List (Nat × Nat))
  | fork (c : Nat)
  | exit

/-- A call of process `p`; `none`: it cannot happen, or the kernel stops in it. -/
def step (u : Filesys) (p : Nat) (c : Call) : Option Filesys :=
  match u.procs p with
  | none => none
  | some d =>
    match c with
    | .open path mode => u.sysOpen p d path mode
    | .close fd => u.sysClose p d fd
    | .dup fd => some (u.sysDup p d fd)
    | .read fd size => u.sysRead d fd size
    | .write fd buf => u.sysWrite d fd buf
    | .lseek fd off whence => u.sysLseek d fd off whence
    | .chdir path => u.sysChdir p d path
    | .unlink path => u.sysUnlink d path
    | .exec path reads => u.sysExec d path reads
    | .fork c => if c < procNum ∧ (u.procs c).isNone then some (u.fork c d) else none
    | .exit => u.exit p d

/-! ## The start -/

/-- `"/dev"`. -/
def devDir : List UInt8 := [slash, 100, 101, 118]

/-- The names in `dev_table`: `"/dev/serial"` and `"/dev/null"`. -/
def devTable : List (List UInt8) :=
  [devDir ++ [slash, 115, 101, 114, 105, 97, 108], devDir ++ [slash, 110, 117, 108, 108]]

def initDev (fs : Fs) (cwd : Nat) : Option Fs := do
  let (i, fs) ← fs.iopen cwd devDir typeDir
  let fs ← fs.iclose (← i)
  devTable.zipIdx.foldlM (fun fs q => fs.iadddev cwd q.1 q.2) fs

def noFile : File := ⟨typeNone, 0, false, false, 0, 0, 0⟩

def noFiles (cwd : Nat) : Desc := ⟨fun _ => none, cwd⟩

/-- `init_fs` to `init_user_and_go`: the kernel's process and the first user process, both in the root. -/
def boot (m : Store) : Option Filesys := do
  let (cwd, fs) ← mount m
  let cwd ← cwd
  let fs ← initDev fs cwd
  let (i, fs) ← fs.iopen cwd [slash] typeNone
  let i ← i
  return ⟨fs, fun _ => noFile, fun p => if p = 0 then some (noFiles cwd) else if p = 1 then some (noFiles i) else none⟩

end Filesys

end TinyOS
