/-
`load_elf` (kernel/src/loader.c): the headers of an executable are read through the file system, and its
segments into the pages mapped for them in a page directory. `none` is a failed assertion, or a page fault
in the kernel.
-/
import TinyOS.Fs.Basic
import TinyOS.Vm.Put

namespace TinyOS

open TinyOS.Lib TinyOS.Vm

/-! ## Headers -/

abbrev elfMagic : Nat := 0x464c457f
abbrev ptLoad : Nat := 1
abbrev pfW : Nat := 2
abbrev ehdrSize : Nat := 52
abbrev phdrSize : Nat := 32

/-- `(uint32_t)-1`. -/
abbrev minusOne : Nat := 2 ^ 32 - 1

/-- A local `Elf32_Ehdr`, as the memory it takes. -/
abbrev Ehdr := Store

namespace Ehdr

def magic (elf : Ehdr) : Nat := elf.word 0
def eEntry (elf : Ehdr) : Nat := elf.word 24
def ePhoff (elf : Ehdr) : Nat := elf.word 28
def ePhnum (elf : Ehdr) : Nat := (elf 44).toNat + 256 * (elf 45).toNat

end Ehdr

/-- A local `Elf32_Phdr`, as the memory it takes. -/
abbrev Phdr := Store

namespace Phdr

def pType (ph : Phdr) : Nat := ph.word 0
def pOffset (ph : Phdr) : Nat := ph.word 4
def pVaddr (ph : Phdr) : Nat := ph.word 8
def pFilesz (ph : Phdr) : Nat := ph.word 16
def pMemsz (ph : Phdr) : Nat := ph.word 20
def pFlags (ph : Phdr) : Nat := ph.word 24

/-- The rights that `load_elf` asks for. -/
def prot (ph : Phdr) : Nat := if pFlags ph &&& pfW ≠ 0 then 7 else 5

end Phdr

open Ehdr Phdr

/-! ## The loader -/

/-- `iread` into a local variable; what it does not read stays as it was. -/
def readLocal (fs : Fs) (inode off len : Nat) (buf : Store) : Option (Store × Fs) := do
  let (bs, fs) ← fs.iread inode off len
  return (buf.write 0 (bs.getD []), fs)

/-- What was written for a segment: its range for `vm_map`, and the start and length of each store. -/
structure Written where
  va : Nat
  memsz : Nat
  spans : List (Nat × Nat)

/-- `load_elf` at work. -/
structure Loader where
  vm : Vm
  fs : Fs
  log : List Written

namespace Loader

def loadSegment (x : Loader) (pgdir inode : Nat) (ph : Phdr) : Option Loader := do
  let vm ← x.vm.vmMap pgdir (pVaddr ph) (pMemsz ph) (prot ph)
  -- the kernel writes through the new address space, for which read-only pages are no obstacle
  let vm := { vm with cr3 := pgdir }
  let (bs, fs) ← x.fs.iread inode (pOffset ph) (pFilesz ph)
  let bs := bs.getD []
  let vm ← vm.puts (pVaddr ph) bs
  let start := uint32 (pVaddr ph + pFilesz ph)
  -- `p_memsz - p_filesz`, which wraps around when the data is longer than the segment
  let n := usub32 (pMemsz ph) (pFilesz ph)
  let vm ← vm.puts start (List.replicate n 0)
  return ⟨vm, fs, x.log ++ [⟨pVaddr ph, pMemsz ph, [(pVaddr ph, bs.length), (start, n)]⟩]⟩

/-- The loop over the program headers from number `i` on, `n` of them. `ph` keeps its bytes from turn to
turn. -/
def loadSegments (pgdir inode phoff : Nat) : (n i : Nat) → Phdr → Loader → Option Loader
  | 0, _, _, x => some x
  | n + 1, i, ph, x => do
    let (ph, fs) ← readLocal x.fs inode (uint32 (phoff + i * phdrSize)) phdrSize ph
    let x := { x with fs := fs }
    let x ← if pType ph = ptLoad then x.loadSegment pgdir inode ph else pure x
    loadSegments pgdir inode phoff n (i + 1) ph x

/-- `elf` and `ph` are what the local variables hold at first. -/
def loadElf (vm : Vm) (fs : Fs) (pgdir cwd : Nat) (name : List UInt8) (elf : Ehdr) (ph : Phdr) :
    Option (Nat × Loader) := do
  let (inode, fs) ← fs.iopen cwd name Fs.typeNone
  match inode with
  | none => return (minusOne, ⟨vm, fs, []⟩)
  | some inode =>
    let (elf, fs) ← readLocal fs inode 0 ehdrSize elf
    if magic elf ≠ elfMagic then
      let fs ← fs.iclose inode
      return (minusOne, ⟨vm, fs, []⟩)
    else
      let pdCurr := vm.cr3
      let x ← loadSegments pgdir inode (ePhoff elf) (ePhnum elf) 0 ph ⟨vm, fs, []⟩
      let vm := { x.vm with cr3 := pdCurr }
      let vm ← vm.vmMap pgdir (usrMem - pgsize) pgsize 7
      let fs ← x.fs.iclose inode
      return (eEntry elf, ⟨vm, fs, x.log⟩)

end Loader

end TinyOS
