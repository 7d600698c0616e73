/-
What `sys_brk` may do to memory, for any address that a program passes to it.
-/
import TinyOS.Vm.Ranges
import TinyOS.Vm.Sbrk

namespace TinyOS

open TinyOS.Lib TinyOS.Vm

namespace Mm

variable {u u' v : Mm} {D K : Nat → Prop} {L : List Nat} {s s' : Vm} {x : Mproc} {p c d b b' w addr : Nat}
  {args : List (Nat × UInt8)} {prog : Prog}

/-! ## Ranges between two breaks -/

theorem sysBrk_pageUp (hn : Break (pageUp addr)) (ha : pageUp addr % pgsize = 0) :
    u.sysBrk p (pageUp addr) = u.sysBrk p addr := by
  unfold sysBrk
  simp only [hn.pageUp_eq ha]

/-! ## One call -/

/-- The call stays within the heap: between the initial break of the program and the stack, from a break
that is not below either, with the pages that it takes, or, as `kfree` insists on it, a page that is free already. -/
structure Fits (u : Mm) (x : Mproc) (addr : Nat) : Prop where
  above : x.init ≤ pageUp addr
  below : pageUp addr ≤ usrMem - pgsize
  brk : x.brk ≠ 0 → x.init ≤ x.brk
  room : x.brk ≠ 0 → x.brk ≤ pageUp addr →
    pagesFor u.vm x.pgdir (x.brk / pgsize) (pageUp addr / pgsize - x.brk / pgsize) ≤ u.vm.freeList.length
  free : x.brk ≠ 0 → pageUp addr ≤ x.brk → u.vm.free ≠ 0 ∨
    ∀ w, pageUp addr / pgsize ≤ w → w < x.brk / pgsize → present (u.vm.pte x.pgdir (w / 1024) (w % 1024)) = false

/-- The call does nothing to the kernel's memory and its mapping, nothing to the program and its stack, and nothing at
all outside of the pages between the old break and the new one. -/
structure Harmless (u u' : Mm) (x : Mproc) (addr : Nat) : Prop where
  kernel : ∀ q, q < kerPage → u'.vm.mem q = u.vm.mem q
  low : ∀ i < 32, u'.vm.word x.pgdir i = u.vm.word x.pgdir i
  program : ∀ w, UserPage w → ¬ (x.init ≤ w * pgsize ∧ w * pgsize < usrMem - pgsize) → SamePage u.vm u'.vm x.pgdir w
  heap : ∀ e w, u.Dirs e → UserPage w →
    ¬ (e = x.pgdir ∧ min x.brk (pageUp addr) ≤ w * pgsize ∧ w * pgsize < max x.brk (pageUp addr)) →
      SamePage u.vm u'.vm e w

theorem pageUp_align {a : Nat} : pageUp a % pgsize = 0 := Nat.mul_mod_left _ _

theorem walkFree_cr3 {n q : Nat} : walkFree { s with cr3 := c } n q = walkFree s n q := by
  induction n generalizing q with
  | zero => rfl
  | succ n ih =>
    unfold walkFree
    rw [ih]
    rfl

theorem Fits.run (h : Fits u x addr) : Fits { u with vm := { u.vm with cr3 := c } } x addr := by
  refine ⟨h.above, h.below, h.brk, fun h1 h2 => ?_, h.free⟩
  have hlist : freeList { u.vm with cr3 := c } = u.vm.freeList := walkFree_cr3
  rw [hlist]
  exact h.room h1 h2

theorem Fits.newBreak (h : Fits u x addr) (hi : InStep u.vm x) : Break (pageUp addr) :=
  ⟨le_trans hi.init.1.1 h.above, h.below⟩

theorem Within.harmless {y : Mproc} (h : Within u.vm s u.Dirs K x.pgdir fun w => min x.brk (pageUp addr) ≤ w * pgsize ∧
      w * pgsize < max x.brk (pageUp addr)) (hd : u.Dirs x.pgdir) (hf : Fits u x addr) (hb : x.init ≤ x.brk)
    (hbrk : x.brk ≤ usrMem - pgsize) : Harmless u ({ u with vm := s }.setProc p y) x addr where
  kernel q hq := h.kernel q fun hc => absurd hc.1 (Nat.not_le.2 hq)
  low i hi := h.low _ i hd hi
  program w hw hn := by
    refine h.page _ w hd hw fun hc => hn ?_
    have h1 := hf.above
    have h2 := hf.below
    exact ⟨le_trans (le_min hb h1) hc.2.1, lt_of_lt_of_le hc.2.2 (max_le hbrk h2)⟩
  heap e w he hw hn := h.page e w he hw hn

/-- The calls of a program that have to do with memory, and its writes. -/
inductive Request where
  | brk (p addr : Nat)
  | fork (p c : Nat)
  | exec (p : Nat) (prog : Option Prog) (args : List (Nat × UInt8))
  | write (p va : Nat) (b : UInt8)

/-- A process runs, and makes a call that returns. -/
inductive Makes (u : Mm) : Request → Mm → Prop
  | brk {p addr : Nat} {v u' : Mm} : addr < 2 ^ 32 → u.run p = some v → v.sysBrk p addr = some u' →
      Makes u (.brk p addr) u'
  | fork {p c : Nat} {v u' : Mm} : u.procs c = none → u.run p = some v → v.sysFork p c = some u' →
      Makes u (.fork p c) u'
  | exec {p : Nat} {prog : Option Prog} {args : List (Nat × UInt8)} {r : Int} {v u' : Mm} : (∀ y ∈ args, UserAddr y.1) →
      u.run p = some v → v.sysExec p prog args = some (r, u') → Makes u (.exec p prog args) u'
  | write {p va : Nat} {b : UInt8} {x : Mproc} {v : Mm} : UserAddr va → u.procs p = some x → u.run p = some v →
      Makes u (.write p va b) { v with vm := v.vm.poke x.pgdir va b }

/-- `sbrk` is not part of these runs, and its variable not set. -/
def Plain (u : Mm) : Prop := ∀ p x, u.procs p = some x → x.oldBrk = 0

theorem Plain.setProc (h : u.Plain) (hx : x.oldBrk = 0) : ({ u with vm := s }.setProc p x).Plain := fun q z hz => by
  rcases setProc_some hz with ⟨-, rfl⟩ | ⟨-, hz⟩
  · exact hx
  · exact h q z hz

theorem Inv.brk (h : u.Inv) (hpl : u.Plain) (hp : u.procs p = some x) (hcr : u.vm.cr3 = x.pgdir) (hf : Fits u x addr)
    (he : u.sysBrk p addr = some u') : u'.Inv ∧ u'.Plain := by
  obtain ⟨K, L, hs⟩ := h.sound
  have hx := h.procs p x hp
  have hn := hf.newBreak hx
  have hna : pageUp addr % pgsize = 0 := pageUp_align
  rw [← sysBrk_pageUp hn hna] at he
  obtain ⟨s', rfl, hk, -⟩ := sysBrk_some hs hp ⟨p, x, hp, rfl⟩ hcr hx.brk hn he
  rw [hn.pageUp_eq hna]
  have hold := hpl p x hp
  refine ⟨h.setProc (y := { x with brk := pageUp addr }) hp rfl ⟨K, hk⟩ ⟨hx.init, Or.inr ⟨hn, hna⟩,
    fun h0 => absurd hold h0, fun h0 => absurd hold h0⟩, hpl.setProc hold⟩

theorem Inv.poke {va : Nat} {y : UInt8} (h : u.Inv) (hp : u.procs p = some x) (hva : UserAddr va) :
    Mm.Inv { u with vm := u.vm.poke x.pgdir va y } := by
  obtain ⟨K, L, hs⟩ := h.sound
  obtain ⟨hs', hsame⟩ := hs.poke (b := y) ⟨p, x, hp, rfl⟩ hva
  exact ⟨⟨K, L, hs'⟩, h.inj, fun q z hz => (h.procs q z hz).congr fun w hw => rights_same hsame ⟨q, z, hz, rfl⟩ hw⟩

end Mm

end TinyOS
