/-
What a call of `sys_exec` that fails leaves: the PCB names a page directory that is free again.
-/
import TinyOS.Vm.Procs

namespace TinyOS

open TinyOS.Lib TinyOS.Vm

namespace Mm

variable {u u' : Mm} {D K : Nat → Prop} {L L' : List Nat} {x : Mproc} {p : Nat} {prog : Option Prog}
  {args : List (Nat × UInt8)}

/-- What a call that fails has to leave: the process as it was, on a page directory that is the one in
CR3 and is not free, what it sees in its memory, and the free pages. -/
structure Untouched (u u' : Mm) (p : Nat) : Prop where
  procs : u'.procs = u.procs
  runs : ∀ x, u'.procs p = some x → x.pgdir = u'.vm.cr3
  used : ∀ x L, u'.procs p = some x → Chain u'.vm u'.vm.free L → x.pgdir ∉ L
  sees : ∀ va, UserAddr va → u'.vm.peek u.vm.cr3 va = u.vm.peek u.vm.cr3 va ∧
    u'.vm.rights u.vm.cr3 (va / pgsize) = u.vm.rights u.vm.cr3 (va / pgsize)
  free : ∀ L L', Chain u.vm u.vm.free L → Chain u'.vm u'.vm.free L' → ∀ q, q ∈ L' ↔ q ∈ L

/-- The new directory goes back to the free list, but stays in the PCB. -/
theorem sysExec_fails (hb : Built u.vm D K) (hp : u.procs p = some x) (hcr : u.vm.cr3 = x.pgdir) (hd : D x.pgdir)
    (he : u.sysExec p prog args = some (-1, u')) :
    ∃ d L, Chain u'.vm u'.vm.free (d :: L) ∧ u'.procs p = some { x with pgdir := d } ∧ u'.vm.cr3 = x.pgdir ∧
    d ≠ x.pgdir := by
  obtain ⟨L, h⟩ := hb.sound
  unfold sysExec at he
  rw [hp, Option.bind_eq_bind, Option.bind_some] at he
  obtain ⟨⟨d, s₁⟩, h1, he⟩ := Option.bind_eq_some_iff.1 he
  obtain ⟨L', rfl, hnd, -, hs₁, -, -, -, hcr₁, -⟩ := h.vmAlloc h1
  cases prog with
  | some prog =>
    obtain ⟨s₂, -, he⟩ := Option.bind_eq_some_iff.1 he
    obtain ⟨s₃, -, he⟩ := Option.bind_eq_some_iff.1 he
    cases he
  | none =>
    obtain ⟨s₂, h2, he⟩ := Option.bind_eq_some_iff.1 he
    cases he
    -- the directory is freed, and the PCB still names it
    have hs₂ := hs₁.drop (Or.inr rfl) h2
    have hcr₂ : s₂.cr3 = s₁.cr3 := ((hs₁.detach d).kfree (Or.inr ⟨.dir d, rfl, trivial, Or.inr rfl, rfl⟩) h2).2.2.2.1
    refine ⟨d, L', hs₂.chain, Function.update_self .., hcr₂.trans (hcr₁.trans hcr), ?_⟩
    rintro rfl
    exact hnd hd

/-- No failed call of `sys_exec` leaves the process as it was. -/
theorem failed_exec (hb : Built u.vm D K) (hp : u.procs p = some x) (hcr : u.vm.cr3 = x.pgdir) (hd : D x.pgdir)
    (he : u.sysExec p prog args = some (-1, u')) : ¬ Untouched u u' p := fun hu => by
  obtain ⟨d, L, hL, hp', -, -⟩ := sysExec_fails hb hp hcr hd he
  exact hu.used _ _ hp' hL List.mem_cons_self

/-- A process with nothing mapped, in an otherwise free heap. -/
theorem execStart_built : ∃ s₁ s₂, (initPage (fun _ _ => 0) 100 101).vmAlloc = some (512, s₁) ∧
    s₁.kalloc = some (513, s₂) ∧ Built { s₂ with cr3 := 512 } (And (fun _ => False) 512) (And (fun _ => False) 513) ∧
    ∃ s₃ s₄, Vm.vmAlloc { s₂ with cr3 := 512 } = some (514, s₃) ∧ s₃.kfree 514 = some s₄ := by
  have h₀ : Sound (initPage (fun _ _ => 0) 100 101) (fun _ => False) (fun _ => False) (List.range' 512 32256) :=
    initPage_sound
  rw [List.range'_succ, List.range'_succ, List.range'_succ] at h₀
  obtain ⟨s₁, h1⟩ := h₀.vmAlloc_some
  obtain ⟨L₁, hL₁, -, -, hs₁, -⟩ := h₀.vmAlloc h1
  obtain rfl := (List.cons.inj hL₁).2
  obtain ⟨s₂, h2⟩ := hs₁.kalloc_some
  have hb₂ := (((Built.init (fun _ _ => 0) 100 101).vmAlloc h1).kalloc h2).setCr3 (d := 512) (Or.inr rfl)
  obtain ⟨L₂, hL₂, -, hs₂, -⟩ := hs₁.kalloc h2
  obtain rfl := (List.cons.inj hL₂).2
  have hs₂' : Sound { s₂ with cr3 := 512 } _ _ _ :=
    ⟨hs₂.chain.congr fun _ _ => rfl, hs₂.nodup, hs₂.heap, hs₂.own, hs₂.prot⟩
  obtain ⟨s₃, h3⟩ := hs₂'.vmAlloc_some
  obtain ⟨L₃, hL₃, -, -, hs₃, -⟩ := hs₂'.vmAlloc h3
  obtain rfl := (List.cons.inj hL₃).2
  obtain ⟨s₄, h4⟩ := (hs₃.detach 514).kfree_some (Or.inr ⟨.dir 514, rfl, trivial, Or.inr rfl, rfl⟩)
    (List.cons_ne_nil _ _)
  exact ⟨s₁, s₂, h1, h2, hb₂, s₃, s₄, h3, h4⟩

theorem execStart : ∃ (u u' : Mm) (D K : Nat → Prop) (x : Mproc), Built u.vm D K ∧ u.procs 1 = some x ∧
    u.vm.cr3 = x.pgdir ∧ D x.pgdir ∧ u.sysExec 1 none [] = some (-1, u') := by
  obtain ⟨s₁, s₂, -, -, hb, s₃, s₄, h3, h4⟩ := execStart_built
  let u : Mm := ⟨{ s₂ with cr3 := 512 }, fun q => if q = 1 then some ⟨512, 513, 0, 0, phyMem⟩ else none⟩
  have hp : u.procs 1 = some ⟨512, 513, 0, 0, phyMem⟩ := rfl
  refine ⟨u, { u.setProc 1 ⟨514, 513, 0, 0, phyMem⟩ with vm := s₄ }, _, _, _, hb, hp, rfl, Or.inr rfl, ?_⟩
  unfold sysExec
  rw [hp, Option.bind_eq_bind, Option.bind_some]
  refine Option.bind_eq_some_iff.2 ⟨(514, s₃), h3, ?_⟩
  exact Option.bind_eq_some_iff.2 ⟨s₄, h4, rfl⟩

theorem failed_exec_demo : ∃ (u u' : Mm) (D K : Nat → Prop), Built u.vm D K ∧ u.sysExec 1 none [] = some (-1, u') ∧
    ¬ Untouched u u' 1 := by
  obtain ⟨u, u', D, K, x, hb, hp, hcr, hd, he⟩ := execStart
  exact ⟨u, u', D, K, hb, he, failed_exec hb hp hcr hd he⟩

/-- The free page directory in the PCB, after a call that failed. -/
theorem freed_pgdir : ¬ ∀ (u u' : Mm) (D K : Nat → Prop) (x : Mproc) (p : Nat) (args : List (Nat × UInt8)),
    Built u.vm D K → u.procs p = some x → u.vm.cr3 = x.pgdir → D x.pgdir → u.sysExec p none args = some (-1, u') →
    Untouched u u' p := fun hall => by
  obtain ⟨u, u', D, K, x, hb, hp, hcr, hd, he⟩ := execStart
  obtain ⟨d, L, hL, hp', -, -⟩ := sysExec_fails hb hp hcr hd he
  exact (hall u u' D K x 1 [] hb hp hcr hd he).used _ _ hp' hL List.mem_cons_self

end Mm

end TinyOS
