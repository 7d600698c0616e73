/-
Virtual memory of vme.c: the pages of physical memory, the list of the free ones that runs through
them, page directories and page tables, and the functions that map, unmap and copy pages.
-/
import TinyOS.Lib.Bytes
import TinyOS.Lib.Word

namespace TinyOS

open TinyOS.Lib

/-- Physical memory by pages. A pointer to a page is the number of the page; `free` is
`free_page_list`, 0 being `NULL`, `cr3` the page directory in use, `kpt` the first of the kernel's own
page tables, which the linker places below `KER_MEM`. -/
structure Vm where
  mem : Nat → Store
  free : Nat
  cr3 : Nat
  kpt : Nat

namespace Vm

abbrev pgsize : Nat := 4096
abbrev kerPage : Nat := 0x200000 / 4096
abbrev phyPage : Nat := 0x8000000 / 4096
abbrev phyMem : Nat := 0x8000000
abbrev usrMem : Nat := 0xc0000000
abbrev pteP : Nat := 1
abbrev pteW : Nat := 2
abbrev pteU : Nat := 4

def pageDown (a : Nat) : Nat := a / pgsize * pgsize

def pageUp (a : Nat) : Nat := uint32 (a + 4095) / pgsize * pgsize

/-! ## Entries -/

/-- The index in the page directory, and in the page table. -/
def addr2dir (va : Nat) : Nat := va / 2 ^ 22
def addr2tbl (va : Nat) : Nat := va / 2 ^ 12 % 1024

/-- `MAKE_PDE` and `MAKE_PTE`. -/
def makeEntry (page prot : Nat) : Nat := page * pgsize ||| prot ||| pteP

/-- The bits of an entry of a page directory or a page table. -/
def present (e : Nat) : Bool := e.testBit 0
def pageFrame (e : Nat) : Nat := e / pgsize

/-- `present = 0`. -/
def clearPresent (e : Nat) : Nat := e / 2 * 2

def word (s : Vm) (page i : Nat) : Nat := (s.mem page).word (4 * i)

def setPage (s : Vm) (page : Nat) (m : Store) : Vm := { s with mem := Function.update s.mem page m }

def setWord (s : Vm) (page i v : Nat) : Vm := s.setPage page ((s.mem page).setWord (4 * i) v)

def zeroPage (s : Vm) (page : Nat) : Vm := s.setPage page ((s.mem page).fill 0 pgsize 0)

/-! ## Pages -/

/-- `none` is the panic on an empty heap. -/
def kalloc (s : Vm) : Option (Nat × Vm) :=
  if s.free = 0 then none
  else some (s.free, { s with free := pageFrame (s.word s.free 0) }.zeroPage s.free)

/-- `none` is a panic or a failed assertion; the latter when the list is empty. -/
def kfree (s : Vm) (page : Nat) : Option Vm :=
  if page < kerPage ∨ phyPage ≤ page then none
  else if s.free < kerPage ∨ phyPage ≤ s.free then none
  else some { (s.zeroPage page).setWord page 0 (s.free * pgsize) with free := page }

/-- The entries `0` to `n - 1` of a page are set. -/
def setWords (page : Nat) (f : Nat → Nat) : Nat → Vm → Vm
  | 0, s => s
  | n + 1, s => (setWords page f n s).setWord page n (f n)

/-- The kernel's part is mapped by the kernel's page tables, the rest is empty. -/
def vmAlloc (s : Vm) : Option (Nat × Vm) := do
  let (pgdir, s) ← s.kalloc
  return (pgdir, setWords pgdir (fun i => if i < 32 then makeEntry (s.kpt + i) 3 else 0) 1024 s)

/-! ## Tables -/

/-- A pointer to an entry of a page table is the page and the index; the inner `none` is `NULL`. -/
def walkpte (s : Vm) (pgdir va prot : Nat) : Option (Option (Nat × Nat) × Vm) :=
  let pde := s.word pgdir (addr2dir va)
  if !present pde && prot.testBit 0 then do
    let (pt, s) ← s.kalloc
    if prot < 8 then
      return (some (pt, addr2tbl va), s.setWord pgdir (addr2dir va) (makeEntry pt prot))
    else none
  else if !present pde then some (none, s)
  else
    let s := if prot ≠ 0 then s.setWord pgdir (addr2dir va) (pde ||| prot) else s
    if prot < 8 then some (some (pageFrame (s.word pgdir (addr2dir va)), addr2tbl va), s) else none

/-- The physical address of a virtual one, 0 being `NULL`; `none` is a page fault in the kernel. -/
def walk (s : Vm) (pgdir va prot : Nat) : Option (Nat × Vm) := do
  let (pte, s) ← s.walkpte pgdir va prot
  let (t, j) ← pte
  let e := s.word t j
  if prot.testBit 0 ∧ e &&& prot &&& 7 ≠ prot then none
  else if va < phyMem then none
  else if pageFrame e = 0 ∧ !prot.testBit 0 then some (0, s)
  else some (pageFrame e * pgsize ||| va % pgsize, s)

def mapPage (pgdir va prot : Nat) (s : Vm) : Option Vm := do
  let (pte, s) ← s.walkpte pgdir va prot
  let (t, j) ← pte
  if !present (s.word t j) then do
    let (page, s) ← s.kalloc
    return s.setWord t j (makeEntry page prot)
  else return s.setWord t j (s.word t j ||| prot)

/-- The loop of `vm_map`, over `n` pages. -/
def mapPages (pgdir prot : Nat) : Nat → Nat → Vm → Option Vm
  | _, 0, s => some s
  | va, n + 1, s => do mapPages pgdir prot (va + pgsize) n (← s.mapPage pgdir va prot)

def vmMap (s : Vm) (pgdir va len prot : Nat) : Option Vm :=
  let start := pageDown va
  let stop := pageUp (uint32 (va + len))
  if prot.testBit 0 ∧ prot < 8 ∧ phyMem ≤ start ∧ start ≤ stop then
    mapPages pgdir prot start ((stop - start) / pgsize) s
  else none

def unmapPage (pgdir va : Nat) (s : Vm) : Option Vm := do
  let (pte, s) ← s.walkpte pgdir va 0
  match pte with
  | none => some s
  | some (t, j) =>
    if present (s.word t j) then do
      let s ← s.kfree (pageFrame (s.word t j))
      return s.setWord t j (clearPresent (s.word t j))
    else some s

def unmapPages (pgdir : Nat) : Nat → Nat → Vm → Option Vm
  | _, 0, s => some s
  | va, n + 1, s => do unmapPages pgdir (va + pgsize) n (← s.unmapPage pgdir va)

def vmUnmap (s : Vm) (pgdir va len : Nat) : Option Vm :=
  if va % pgsize = 0 ∧ len % pgsize = 0 then
    unmapPages pgdir (pageDown va) ((pageUp (uint32 (va + len)) - pageDown va) / pgsize) s
  else none

/-- `memcpy` of a page between two addresses of pages. -/
def copyTo (s : Vm) (dst src : Nat) : Vm :=
  s.setPage (dst / pgsize) ((s.mem (dst / pgsize)).write (dst % pgsize)
    ((s.mem (src / pgsize)).read (src % pgsize) pgsize))

def copyPage (pgdir va : Nat) (s : Vm) : Option Vm := do
  let (pte, s) ← s.walkpte s.cr3 va 0
  match pte with
  | none => some s
  | some (t, j) =>
    if present (s.word t j) then do
      let s ← s.vmMap pgdir va pgsize (s.word t j &&& 7)
      let (pa, s) ← s.walk s.cr3 va 0
      let (newPa, s) ← s.walk pgdir va 0
      return s.copyTo newPa pa
    else some s

def copyPages (pgdir : Nat) : Nat → Nat → Vm → Option Vm
  | _, 0, s => some s
  | va, n + 1, s => do copyPages pgdir (va + pgsize) n (← s.copyPage pgdir va)

def vmCopycurr (s : Vm) (pgdir : Nat) : Option Vm := copyPages pgdir phyMem ((usrMem - phyMem) / pgsize) s

/-! ## Teardown -/

def freeFrame (pt j : Nat) (s : Vm) : Option Vm :=
  if present (s.word pt j) then s.kfree (pageFrame (s.word pt j)) else some s

/-- The pages of one page table. -/
def freeFrames (pt : Nat) : Nat → Nat → Vm → Option Vm
  | _, 0, s => some s
  | j, n + 1, s => do freeFrames pt (j + 1) n (← s.freeFrame pt j)

def freeTable (pgdir i : Nat) (s : Vm) : Option Vm :=
  let pt := pageFrame (s.word pgdir i)
  if present (s.word pgdir i) then do Vm.kfree (← freeFrames pt 0 1024 s) pt else some s

def freeTables (pgdir : Nat) : Nat → Nat → Vm → Option Vm
  | _, 0, s => some s
  | i, n + 1, s => do freeTables pgdir (i + 1) n (← s.freeTable pgdir i)

def vmTeardown (s : Vm) (pgdir : Nat) : Option Vm := do
  let s ← freeTables pgdir 32 (1024 - 32) s
  s.kfree pgdir

end Vm

end TinyOS
