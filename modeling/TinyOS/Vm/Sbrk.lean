/-
The two copies of the break over runs of `sbrk`, `fork` and `exec`: while they are in step, all of
the heap is mapped.
-/
import TinyOS.Vm.Brk
import TinyOS.Vm.Confined

namespace TinyOS

open TinyOS.Lib TinyOS.Vm

namespace Mm

variable {u u' v : Mm} {D K : Nat → Prop} {L : List Nat} {s s' : Vm} {x y : Mproc} {p q c d e w : Nat}
  {inc : Int} {m : Nat} {args : List (Nat × UInt8)} {prog : Option Prog} {r : Int}

/-! ## The invariant -/

/-- What holds of each process: its break is at the end of a page, and when `sbrk` knows a break then
`brk` of the PCB is not set, or in step with it, and the heap is mapped. -/
structure InStep (s : Vm) (x : Mproc) : Prop where
  init : Break x.init ∧ x.init % pgsize = 0
  brk : x.brk = 0 ∨ (Break x.brk ∧ x.brk % pgsize = 0)
  old : x.oldBrk ≠ 0 → x.init ≤ x.oldBrk ∧ Break x.oldBrk ∧ (x.brk = 0 ∨ x.brk = pageUp x.oldBrk)
  heap : x.oldBrk ≠ 0 → ∀ w, x.init / pgsize ≤ w → w < pageUp x.oldBrk / pgsize → s.rights x.pgdir w = 7

/-- The page directories of the processes. -/
def Dirs (u : Mm) (d : Nat) : Prop := ∃ p x, u.procs p = some x ∧ x.pgdir = d

structure Inv (u : Mm) : Prop where
  sound : ∃ K L, Sound u.vm u.Dirs K L
  inj : ∀ p q x y, u.procs p = some x → u.procs q = some y → x.pgdir = y.pgdir → p = q
  procs : ∀ p x, u.procs p = some x → InStep u.vm x

theorem userPage_heap {a b : Nat} (ha : Break a) (hb : Break b) (h1 : a / pgsize ≤ w) (h2 : w < pageUp b / pgsize) :
    UserPage w := by
  have h3 : 0x8000000 ≤ a := ha.1
  have h4 : pageUp b ≤ 0xc0000000 - 4096 := hb.pageUp.1.2
  have h5 : a / 4096 ≤ w := h1
  have h6 : w < pageUp b / 4096 := h2
  constructor
  · show 32768 ≤ w
    omega
  · omega

theorem InStep.congr (h : InStep s x) (hr : ∀ w, UserPage w → s'.rights x.pgdir w = s.rights x.pgdir w) :
    InStep s' x := by
  refine ⟨h.init, h.brk, h.old, fun h0 w h1 h2 => ?_⟩
  rw [hr w (userPage_heap h.init.1 (h.old h0).2.1 h1 h2)]
  exact h.heap h0 w h1 h2

theorem setProc_procs : (u.setProc p y).procs q = if q = p then some y else u.procs q := by
  unfold Mm.setProc
  exact Function.update_apply ..

theorem setProc_some {z : Mproc} (h : (u.setProc p y).procs q = some z) :
    (q = p ∧ z = y) ∨ (q ≠ p ∧ u.procs q = some z) := by
  rw [setProc_procs] at h
  split at h
  · next hq => exact Or.inl ⟨hq, (Option.some.inj h).symm⟩
  · next hq => exact Or.inr ⟨hq, h⟩

theorem dirs_setProc (hp : u.procs p = some x) (hd : y.pgdir = x.pgdir) :
    ({ u with vm := s }.setProc p y).Dirs = u.Dirs := by
  funext d
  refine propext ⟨?_, ?_⟩
  · rintro ⟨q, z, hz, rfl⟩
    rcases setProc_some hz with ⟨rfl, rfl⟩ | ⟨-, hz⟩
    · exact ⟨q, x, hp, hd.symm⟩
    · exact ⟨q, z, hz, rfl⟩
  · rintro ⟨q, z, hz, rfl⟩
    by_cases hq : q = p
    · subst hq
      obtain rfl : x = z := Option.some.inj (hp.symm.trans hz)
      exact ⟨q, y, setProc_procs.trans (if_pos rfl), hd⟩
    · exact ⟨q, z, setProc_procs.trans ((if_neg hq).trans hz), rfl⟩

/-- A step that changes the memory of one process, and its PCB but for the page directory. -/
theorem Inv.setProc (h : u.Inv) (hp : u.procs p = some x) (hd : y.pgdir = x.pgdir)
    (hk : ∃ K, Keeps u.vm s u.Dirs K x.pgdir) (hy : InStep s y) : ({ u with vm := s }.setProc p y).Inv := by
  obtain ⟨K, hk⟩ := hk
  refine ⟨?_, fun q q' z z' hz hz' hzz => ?_, fun q z hz => ?_⟩
  · rw [dirs_setProc hp hd]
    exact ⟨K, hk.sound⟩
  · rcases setProc_some hz with ⟨h1, h2⟩ | ⟨-, h1⟩ <;> rcases setProc_some hz' with ⟨h3, h4⟩ | ⟨-, h3⟩
    · exact h1.trans h3.symm
    · rw [h1]
      exact h.inj _ _ x z' hp h3 (hd.symm.trans (h2 ▸ hzz))
    · rw [h3]
      exact h.inj _ _ z x h1 hp (hzz.trans (h4 ▸ hd))
    · exact h.inj _ _ z z' h1 h3 hzz
  · rcases setProc_some hz with ⟨rfl, rfl⟩ | ⟨hq, hz⟩
    · exact hy
    · refine (h.procs q z hz).congr fun w hw => hk.rights _ w ⟨q, z, hz, rfl⟩ (fun hc => hq ?_) hw
      exact h.inj _ _ z x hz hp hc

theorem Inv.run (h : u.Inv) (hr : u.run p = some v) :
    v.Inv ∧ ∃ x, u.procs p = some x ∧ v = { u with vm := { u.vm with cr3 := x.pgdir } } := by
  obtain ⟨x, hx, rfl⟩ := Option.map_eq_some_iff.1 hr
  obtain ⟨K, L, hs⟩ := h.sound
  exact ⟨⟨⟨K, L, hs.chain.congr fun _ _ => rfl, hs.nodup, hs.heap, hs.own, hs.prot⟩, h.inj, fun q z hz =>
    (h.procs q z hz).congr fun _ _ => rfl⟩, x, hx, rfl⟩

/-! ## `sbrk` -/

/-- The break that `sbrk` starts from. -/
def Mproc.base (x : Mproc) : Nat := if x.oldBrk = 0 then x.init else x.oldBrk

/-- The new break is between the initial break of the program and the stack. -/
def InBounds (x : Mproc) (inc : Int) : Prop := x.init ≤ (Mproc.base x : Int) + inc ∧
  (Mproc.base x : Int) + inc ≤ usrMem - pgsize

instance : Decidable (InBounds x inc) := inferInstanceAs (Decidable (_ ∧ _))

/-- It is not the first call after a fork of a process with a heap, or does not grow it. -/
def NotFirst (x : Mproc) (inc : Int) : Prop := x.brk = 0 → x.oldBrk ≠ 0 → pageUp (addBrk x.oldBrk inc) ≤ pageUp x.oldBrk

theorem addBrk_eq {b : Nat} (h0 : 0 ≤ (b : Int) + inc) (h1 : (b : Int) + inc ≤ usrMem - pgsize) :
    (addBrk b inc : Int) = b + inc := by
  have h2 : (b : Int) + inc ≤ 0xc0000000 - 4096 := h1
  unfold addBrk
  rw [Int.emod_eq_of_lt h0 (by omega), Int.toNat_of_nonneg h0]

/-- What `sbrk` leaves in the PCB and in memory. -/
structure Grown (s : Vm) (x : Mproc) : Prop where
  brk : x.brk = pageUp x.oldBrk
  heap : ∀ w, x.init / pgsize ≤ w → w < pageUp x.oldBrk / pgsize → s.rights x.pgdir w = 7

/-- The process knows its break after the first part of `sbrk`. -/
theorem Inv.sbrkInit (h : u.Inv) (hp : u.procs p = some x) (hcr : u.vm.cr3 = x.pgdir) (he : u.sbrkInit p = some u') :
    u'.Inv ∧ ∃ y, u'.procs p = some y ∧ y.oldBrk = Mproc.base x ∧
    y.init = x.init ∧ y.pgdir = x.pgdir ∧ u'.vm.cr3 = u.vm.cr3 ∧
      y.oldBrk ≠ 0 ∧ (y.brk = 0 → x.brk = 0 ∧ x.oldBrk ≠ 0) := by
  have hx := h.procs p x hp
  have hinit : x.init ≠ 0 := fun hc => by
    have := hx.init.1.1
    rw [hc] at this
    exact absurd this (by decide)
  unfold Mm.sbrkInit at he
  rw [hp, Option.bind_eq_bind, Option.bind_some] at he
  unfold Mproc.base
  split at he
  · next h0 =>
    obtain ⟨K, L, hs⟩ := h.sound
    have hpy : (u.setProc p { x with oldBrk := x.init }).procs p = some { x with oldBrk := x.init } :=
      Function.update_self ..
    have hdirs : (u.setProc p { x with oldBrk := x.init }).Dirs = u.Dirs := dirs_setProc (s := u.vm) hp rfl
    obtain ⟨s', rfl, hk, hr⟩ := sysBrk_some (D := u.Dirs) (u := u.setProc p { x with oldBrk := x.init })
      hs hpy ⟨p, x, hp, rfl⟩ hcr hx.brk
      hx.init.1 he
    have hup : pageUp x.init = x.init := hx.init.1.pageUp_eq hx.init.2
    have hnew : InStep s' { x with oldBrk := x.init, brk := pageUp x.init } := by
      refine ⟨hx.init, Or.inr ⟨hx.init.1.pageUp.1, hx.init.1.pageUp.2.1⟩, fun _ => ⟨le_refl _, hx.init.1, Or.inr rfl⟩,
        fun _ w h1 h2 => ?_⟩
      have h3 : w < pageUp x.init / pgsize := h2
      have h4 : x.init / pgsize ≤ w := h1
      rw [hup] at h3
      omega
    have hinv := h.setProc (y := { x with oldBrk := x.init, brk := pageUp x.init }) hp rfl ⟨K, hk⟩ hnew
    have heq : { (u.setProc p { x with oldBrk := x.init }) with vm := s' }.setProc p
      { x with oldBrk := x.init, brk := pageUp x.init } =
        { u with vm := s' }.setProc p { x with oldBrk := x.init, brk := pageUp x.init } := by
      unfold Mm.setProc
      simp only [Function.update_idem]
    rw [heq]
    refine ⟨hinv, _, Function.update_self .., (if_pos h0).symm, rfl, rfl, hk.cr3, hinit, fun hc => ?_⟩
    rw [hup] at hc
    exact absurd hc hinit
  · next h0 =>
    cases he
    exact ⟨h, x, hp, (if_neg h0).symm, rfl, rfl, rfl, h0, fun hc => ⟨hc, h0⟩⟩

theorem Inv.sbrk (h : u.Inv) (hp : u.procs p = some x) (hcr : u.vm.cr3 = x.pgdir) (hin : InBounds x inc)
    (hnot : NotFirst x inc) (he : u.sbrk p inc = some (m, u')) : u'.Inv ∧ ∃ y, u'.procs p = some y ∧ Grown u'.vm y := by
  unfold Mm.sbrk at he
  obtain ⟨u₁, h1, he⟩ := Option.bind_eq_some_iff.1 he
  obtain ⟨h₁, x₁, hp₁, hold, hinit, hpg, hcr₁, h0, hfirst⟩ := h.sbrkInit hp hcr h1
  rw [hp₁, Option.bind_eq_bind, Option.bind_some] at he
  obtain ⟨u₂, h2, he⟩ := Option.bind_eq_some_iff.1 he
  obtain ⟨K, L, hs⟩ := h₁.sound
  have hx₁ := h₁.procs p x₁ hp₁
  obtain ⟨hle, hbo, hstep⟩ := hx₁.old h0
  obtain ⟨hin1, hin2⟩ := hin
  rw [← hold] at hin1 hin2
  rw [← hinit] at hin1
  have hadd := addBrk_eq (by omega) hin2
  have hlo : phyMem ≤ x₁.init := hx₁.init.1.1
  have hnew : Break (addBrk x₁.oldBrk inc) := by
    have h3 : (x₁.oldBrk : Int) + inc ≤ 0xc0000000 - 4096 := hin2
    refine ⟨by omega, ?_⟩
    show addBrk x₁.oldBrk inc ≤ 0xc0000000 - 4096
    omega
  obtain ⟨s', rfl, hk, hr⟩ := sysBrk_some hs hp₁ ⟨p, x₁, hp₁, rfl⟩ (hcr₁.trans (hcr.trans hpg.symm)) hx₁.brk hnew h2
  have hp₂ : ({ u₁ with vm := s' }.setProc p { x₁ with brk := pageUp (addBrk x₁.oldBrk inc) }).procs p =
    some { x₁ with brk := pageUp (addBrk x₁.oldBrk inc) } := Function.update_self ..
  rw [hp₂] at he
  cases he
  have hheap : ∀ w, x₁.init / pgsize ≤ w → w < pageUp (addBrk x₁.oldBrk inc) / pgsize →
      s'.rights x₁.pgdir w = 7 := fun w h3 h4 => by
    rw [hr w (userPage_heap hx₁.init.1 hnew h3 h4)]
    unfold moved
    by_cases hw : w < pageUp x₁.oldBrk / pgsize
    · rw [hx₁.heap h0 w h3 hw]
      split
      · rfl
      · rw [if_neg fun hc => absurd hc.1 (by omega)]
    · rcases hstep with hz | hz
      · obtain ⟨h5, h6⟩ := hfirst hz
        have hold' : x₁.oldBrk = x.oldBrk := hold.trans (if_neg h6)
        have h7 := hnot h5 h6
        rw [← hold'] at h7
        have := Nat.div_le_div_right (c := pgsize) h7
        omega
      · have hne : x₁.brk ≠ 0 := fun hc => by
          have h5 := hbo.pageUp.1.1
          rw [← hz, hc] at h5
          exact absurd h5 (by decide)
        rw [if_pos ⟨hne, by rw [hz]; omega, h4⟩]
        exact or_seven rights_lt
  have hnext : InStep s' { x₁ with brk := pageUp (addBrk x₁.oldBrk inc), oldBrk := addBrk x₁.oldBrk inc } :=
    ⟨hx₁.init, Or.inr ⟨hnew.pageUp.1, hnew.pageUp.2.1⟩, fun _ =>
      ⟨by show x₁.init ≤ addBrk x₁.oldBrk inc; omega, hnew, Or.inr rfl⟩, fun _ => hheap⟩
  have hinv := h₁.setProc (y := { x₁ with brk := pageUp (addBrk x₁.oldBrk inc), oldBrk := addBrk x₁.oldBrk inc })
    hp₁ rfl ⟨K, hk⟩ hnext
  have heq : ({ u₁ with vm := s' }.setProc p { x₁ with brk := pageUp (addBrk x₁.oldBrk inc) }).setProc p
      { x₁ with brk := pageUp (addBrk x₁.oldBrk inc), oldBrk := addBrk x₁.oldBrk inc } =
      { u₁ with vm := s' }.setProc p { x₁ with brk := pageUp (addBrk x₁.oldBrk inc), oldBrk := addBrk x₁.oldBrk inc
        } := by
    unfold Mm.setProc
    simp only [Function.update_idem]
  rw [heq]
  exact ⟨hinv, _, Function.update_self .., rfl, hheap⟩

/-! ## `fork` and `exec` -/

/-- A process `c` gets a page directory that is new, or that is its own no longer. -/
theorem Inv.replace {D' : Nat → Prop} (h : u.Inv) (hs : ∃ K L, Sound s D' K L)
    (hD : ∀ e, D' e ↔ e = y.pgdir ∨ ∃ q z, q ≠ c ∧ u.procs q = some z ∧ z.pgdir = e) (hnew : ¬ u.Dirs y.pgdir)
    (hr : ∀ q z w, q ≠ c → u.procs q = some z → UserPage w → s.rights z.pgdir w = u.vm.rights z.pgdir w)
    (hy : InStep s y) : ({ u with vm := s }.setProc c y).Inv := by
  obtain ⟨K, L, hs⟩ := hs
  have hdirs : ({ u with vm := s }.setProc c y).Dirs = D' := by
    funext e
    refine propext ⟨?_, fun he => ?_⟩
    · rintro ⟨q, z, hz, rfl⟩
      rcases setProc_some hz with ⟨-, rfl⟩ | ⟨hq, hz⟩
      · exact (hD _).2 (Or.inl rfl)
      · exact (hD _).2 (Or.inr ⟨q, z, hq, hz, rfl⟩)
    · rcases (hD e).1 he with rfl | ⟨q, z, hq, hz, rfl⟩
      · exact ⟨c, y, setProc_procs.trans (if_pos rfl), rfl⟩
      · exact ⟨q, z, setProc_procs.trans ((if_neg hq).trans hz), rfl⟩
  refine ⟨⟨K, L, hdirs ▸ hs⟩, fun q q' z z' hz hz' hzz => ?_, fun q z hz => ?_⟩
  · rcases setProc_some hz with ⟨h1, h2⟩ | ⟨-, h1⟩ <;> rcases setProc_some hz' with ⟨h3, h4⟩ | ⟨-, h3⟩
    · exact h1.trans h3.symm
    · exact absurd ⟨q', z', h3, hzz.symm.trans (congrArg _ h2)⟩ hnew
    · exact absurd ⟨q, z, h1, hzz.trans (congrArg _ h4)⟩ hnew
    · exact h.inj _ _ z z' h1 h3 hzz
  · rcases setProc_some hz with ⟨-, rfl⟩ | ⟨hq, hz⟩
    · exact hy
    · exact (h.procs q z hz).congr fun w hw => hr q z w hq hz hw

theorem Inv.fork (h : u.Inv) (hp : u.procs p = some x) (hcr : u.vm.cr3 = x.pgdir) (hc : u.procs c = none)
    (he : u.sysFork p c = some u') : u'.Inv := by
  obtain ⟨K, L, hs⟩ := h.sound
  unfold sysFork at he
  rw [hp, Option.bind_eq_bind, Option.bind_some] at he
  obtain ⟨⟨d, s₁⟩, h1, he⟩ := Option.bind_eq_some_iff.1 he
  obtain ⟨⟨k, s₂⟩, h2, he⟩ := Option.bind_eq_some_iff.1 he
  obtain ⟨s₃, h3, he⟩ := Option.bind_eq_some_iff.1 he
  cases he
  obtain ⟨L₁, -, hnd, -, hs₁, hempty, hsame₁, -, hcr₁, -⟩ := hs.vmAlloc h1
  obtain ⟨L₂, -, -, hs₂, hsame₂, -, -, hcr₂, -⟩ := hs₁.kalloc h2
  have hd : And u.Dirs d d := Or.inr rfl
  have hcr' : s₂.cr3 = x.pgdir := hcr₂.trans (hcr₁.trans hcr)
  have hcurr : And u.Dirs d s₂.cr3 := Or.inl ⟨p, x, hp, hcr'.symm⟩
  have hne : d ≠ s₂.cr3 := by
    rintro rfl
    exact hnd ⟨p, x, hp, hcr'.symm⟩
  have hempty₂ : Empty s₂ d := fun i h4 h5 => by
    rw [hsame₂.pde d i hd ⟨h4, h5⟩]
    exact hempty i h4 h5
  obtain ⟨L₃, hi⟩ := hs₂.vmCopycurr_run hcurr hd hne hempty₂ h3
  have hcopy := hi.copy hs₂ hcurr hd hne hempty₂
  -- the entries that were there before are the same in the end
  have hsame : ∀ e w, u.Dirs e → UserPage w → s₃.rights e w = u.vm.rights e w := fun e w hDe hw => by
    have hed : e ≠ d := fun hed => hnd (hed ▸ hDe)
    rw [hi.sound.rights_eq (Or.inl hDe) hw, hi.pte e _ _ (Or.inl hDe) hw.index.1 hw.index.2 hed,
      ← hs₂.rights_eq (Or.inl hDe) hw, rights_same hsame₂ (Or.inl hDe) hw, rights_same hsame₁ hDe hw]
  have hx := h.procs p x hp
  have hchild : InStep s₃ { x with pgdir := d, kstack := k, brk := 0 } := by
    refine ⟨hx.init, Or.inl rfl, fun h0 => ⟨(hx.old h0).1, (hx.old h0).2.1, Or.inl rfl⟩, fun h0 w h4 h5 => ?_⟩
    have huser : UserAddr (w * pgsize) := by
      have h6 : 0x8000000 ≤ x.init := hx.init.1.1
      have h7 : pageUp x.oldBrk ≤ 0xc0000000 - 4096 := (hx.old h0).2.1.pageUp.1.2
      have h8 : x.init / 4096 ≤ w := h4
      have h9 : w < pageUp x.oldBrk / 4096 := h5
      constructor
      · show 0x8000000 ≤ w * 4096
        omega
      · show w * 4096 < 0xc0000000
        omega
    have hr := hcopy.rights _ huser
    rw [Nat.mul_div_cancel w (by decide), hcr'] at hr
    have hw := userPage_heap hx.init.1 (hx.old h0).2.1 h4 h5
    rw [hr, rights_same hsame₂ (Or.inl ⟨p, x, hp, rfl⟩) hw, rights_same hsame₁ ⟨p, x, hp, rfl⟩ hw]
    exact hx.heap h0 w h4 h5
  refine h.replace (y := { x with pgdir := d, kstack := k, brk := 0 }) ⟨_, _, hi.sound⟩ (fun e => ?_) hnd
    (fun q z w _ hz hw => hsame _ w ⟨q, z, hz, rfl⟩ hw) hchild
  constructor
  · rintro (⟨q, z, hz, rfl⟩ | rfl)
    · exact Or.inr ⟨q, z, fun hq => (by rw [hq, hc] at hz; cases hz), hz, rfl⟩
    · exact Or.inl rfl
  · rintro (rfl | ⟨q, z, -, hz, rfl⟩)
    · exact Or.inr rfl
    · exact Or.inl ⟨q, z, hz, rfl⟩

theorem Inv.exec {prog : Prog} (h : u.Inv) (hp : u.procs p = some x) (hcr : u.vm.cr3 = x.pgdir)
    (hargs : ∀ y ∈ args, UserAddr y.1) (he : u.sysExec p (some prog) args = some (r, u')) : u'.Inv := by
  obtain ⟨K, L, hs⟩ := h.sound
  unfold sysExec at he
  rw [hp, Option.bind_eq_bind, Option.bind_some] at he
  obtain ⟨⟨d, s₁⟩, h1, he⟩ := Option.bind_eq_some_iff.1 he
  obtain ⟨s₂, h2, he⟩ := Option.bind_eq_some_iff.1 he
  obtain ⟨s₃, h3, he⟩ := Option.bind_eq_some_iff.1 he
  cases he
  obtain ⟨L₁, -, hnd, -, hs₁, -, hsame₁, -, hcr₁, -⟩ := hs.vmAlloc h1
  have hk := keeps_loadUser (Or.inr rfl) hs₁ hargs h2
  obtain ⟨L₂, hs₂⟩ := hk.sound
  have hcr₂ : s₂.cr3 = x.pgdir := hk.cr3.trans (hcr₁.trans hcr)
  have hs₂' : Sound { s₂ with cr3 := d } (And u.Dirs d) K L₂ :=
    ⟨hs₂.chain.congr fun _ _ => rfl, hs₂.nodup, hs₂.heap, hs₂.own, hs₂.prot⟩
  rw [hcr₂] at h3
  have hold : And u.Dirs d x.pgdir := Or.inl ⟨p, x, hp, rfl⟩
  have hs₃ := hs₂'.drop hold h3
  have hsame₃ := ((hs₂'.detach x.pgdir).kfree (Or.inr ⟨.dir x.pgdir, rfl, trivial, hold, rfl⟩) h3).2.1
  have hx := h.procs p x hp
  have hne : d ≠ x.pgdir := by
    rintro rfl
    exact hnd ⟨p, x, hp, rfl⟩
  have hback : ∀ q z, q ≠ p → u.procs q = some z → z.pgdir ≠ x.pgdir := fun q z hq hz hzz =>
    hq (h.inj q p z x hz hp hzz)
  have hother : ∀ q z w, q ≠ p → u.procs q = some z → UserPage w →
      s₃.rights z.pgdir w = u.vm.rights z.pgdir w := fun q z w hq hz hw => by
    have hD : u.Dirs z.pgdir := ⟨q, z, hz, rfl⟩
    have hzd : z.pgdir ≠ d := fun hc => hnd (hc ▸ hD)
    rw [rights_same hsame₃ ⟨Or.inl hD, hback q z hq hz⟩ hw]
    show s₂.rights z.pgdir w = u.vm.rights z.pgdir w
    rw [hk.rights _ w (Or.inl hD) hzd hw, rights_same hsame₁ hD hw]
  have hstop : Break prog.stop := ⟨prog.above, prog.below⟩
  have hnew : InStep s₃ { x with pgdir := d, oldBrk := 0, init := pageUp prog.stop } :=
    ⟨⟨hstop.pageUp.1, hstop.pageUp.2.1⟩, hx.brk, fun h0 => absurd rfl h0, fun h0 => absurd rfl h0⟩
  have heq : ({ { u with vm := s₁ }.setProc p { x with pgdir := d } with vm := s₃ } : Mm).setProc p
      { x with pgdir := d, oldBrk := 0, init := pageUp prog.stop } =
      { u with vm := s₃ }.setProc p { x with pgdir := d, oldBrk := 0, init := pageUp prog.stop } := by
    unfold Mm.setProc
    simp only [Function.update_idem]
  rw [heq]
  refine h.replace (y := { x with pgdir := d, oldBrk := 0, init := pageUp prog.stop }) ⟨_, _, hs₃⟩
    (fun e => ?_) hnd hother hnew
  constructor
  · rintro ⟨⟨q, z, hz, rfl⟩ | rfl, hne'⟩
    · refine Or.inr ⟨q, z, fun hq => hne' ?_, hz, rfl⟩
      rw [hq] at hz
      rw [Option.some.inj (hz.symm.trans hp)]
    · exact Or.inl rfl
  · rintro (rfl | ⟨q, z, hq, hz, rfl⟩)
    · exact ⟨Or.inr rfl, hne⟩
    · exact ⟨Or.inl ⟨q, z, hz, rfl⟩, hback q z hq hz⟩

/-! ## Runs -/

/-- The first process, that `init_user_proc` makes. -/
def boot (mem : Nat → Store) (kpd kpt p : Nat) (prog : Prog) (args : List (Nat × UInt8)) : Option Mm := do
  let (pgdir, vm) ← (initPage mem kpd kpt).vmAlloc
  let (kstack, vm) ← vm.kalloc
  let vm ← vm.loadUser pgdir prog args
  return { vm := vm, procs := fun _ => none : Mm }.setProc p ⟨pgdir, kstack, 0, 0, pageUp prog.stop⟩

inductive Call where
  | sbrk (p : Nat) (increment : Int)
  | fork (p c : Nat)
  | exec (p : Nat) (prog : Option Prog) (args : List (Nat × UInt8))

/-- A process runs, and makes a call that returns; `sbrk` keeps to its bounds. -/
inductive Step (u : Mm) : Call → Mm → Prop
  | sbrk {p : Nat} {x : Mproc} {inc : Int} {m : Nat} {v u' : Mm} : u.procs p = some x → InBounds x inc →
      u.run p = some v → v.sbrk p inc = some (m, u') → Step u (.sbrk p inc) u'
  | fork {p c : Nat} {v u' : Mm} : u.procs c = none → u.run p = some v → v.sysFork p c = some u' → Step u (.fork p c) u'
  | exec {p : Nat} {prog : Option Prog} {args : List (Nat × UInt8)} {r : Int} {v u' : Mm} : (∀ y ∈ args, UserAddr y.1) →
      u.run p = some v → v.sysExec p prog args = some (r, u') → Step u (.exec p prog args) u'

/-- No heap grows in the first call after a fork, and no `exec` fails. -/
def Fine (u : Mm) : Call → Prop
  | .sbrk p inc => ∀ x, u.procs p = some x → NotFirst x inc
  | .fork _ _ => True
  | .exec _ prog _ => prog.isSome

theorem Inv.step {a : Call} (h : u.Inv) (hf : Fine u a) (hs : Step u a u') : u'.Inv := by
  cases hs with
  | sbrk hp hin hr he =>
    obtain ⟨hv, x, hx, rfl⟩ := h.run hr
    obtain rfl := Option.some.inj (hp.symm.trans hx)
    exact (hv.sbrk hx rfl hin (hf _ hp) he).1
  | fork hc hr he =>
    obtain ⟨hv, x, hx, rfl⟩ := h.run hr
    exact hv.fork hx rfl hc he
  | exec hargs hr he =>
    obtain ⟨hv, x, hx, rfl⟩ := h.run hr
    obtain ⟨prog, rfl⟩ := Option.isSome_iff_exists.1 hf
    exact hv.exec hx rfl hargs he

theorem boot_inv {mem : Nat → Store} {kpd kpt : Nat} {prog : Prog} (hargs : ∀ y ∈ args, UserAddr y.1)
    (he : boot mem kpd kpt p prog args = some u) : u.Inv := by
  unfold boot at he
  obtain ⟨⟨d, s₁⟩, h1, he⟩ := Option.bind_eq_some_iff.1 he
  obtain ⟨⟨k, s₂⟩, h2, he⟩ := Option.bind_eq_some_iff.1 he
  obtain ⟨s₃, h3, he⟩ := Option.bind_eq_some_iff.1 he
  cases he
  obtain ⟨L₁, -, -, -, hs₁, -⟩ := initPage_sound.vmAlloc h1
  obtain ⟨L₂, -, -, hs₂, -⟩ := hs₁.kalloc h2
  have hk := keeps_loadUser (Or.inr rfl) hs₂ hargs h3
  have hnone : (⟨initPage mem kpd kpt, fun _ => none⟩ : Mm).Dirs = fun _ => False :=
    funext fun d => propext ⟨fun ⟨_, _, hx, _⟩ => (by cases hx), False.elim⟩
  have h₀ : (⟨initPage mem kpd kpt, fun _ => none⟩ : Mm).Inv :=
    ⟨⟨_, _, hnone ▸ initPage_sound⟩, (fun _ _ _ _ hx => by cases hx), fun _ _ hx => by cases hx⟩
  have hstop : Break prog.stop := ⟨prog.above, prog.below⟩
  refine h₀.replace (y := ⟨d, k, 0, 0, pageUp prog.stop⟩) ⟨_, hk.sound⟩ (fun e => ?_) (by rw [hnone]; exact id)
    (fun _ _ _ _ hz => by cases hz) ⟨⟨hstop.pageUp.1, hstop.pageUp.2.1⟩, Or.inl rfl, fun h0 => absurd rfl h0,
      fun h0 => absurd rfl h0⟩
  constructor
  · rintro (hc | rfl)
    · exact hc.elim
    · exact Or.inl rfl
  · rintro (rfl | ⟨q, z, -, hz, -⟩)
    · exact Or.inr rfl
    · cases hz

/-- The memory of one process: its directory is page 512, where the pages of `P` are mapped, its kernel stack is
page 513. -/
structure Single (s : Vm) (mem : Nat → Store) (L : List Nat) (P : Finset Nat) : Prop where
  sound : Sound s (And (fun _ => False) 512) (And (fun _ => False) 513) L
  only : ∀ w, UserPage w → present (s.pte 512 (w / 1024) (w % 1024)) = true → w ∈ P
  mem : ∀ q, ¬ HeapPage q → s.mem q = mem q
  kernel : s.word 512 0 = makeEntry 101 3

section
variable {mem : Nat → Store} {P : Finset Nat} {prot : Nat}

theorem Single.mapPage (h : Single s mem L P) (w prot : Nat) (hv : UserPage w) (ho : prot.testBit 0 = true)
    (hprot : prot < 8) (hL : 2 ≤ L.length) :
    ∃ s' L', s.mapPage 512 (w * pgsize) prot = some s' ∧ Single s' mem L' (insert w P) ∧ L.length ≤ L'.length + 2 ∧
      s'.cr3 = s.cr3 := by
  have hd : And (fun _ => False) 512 512 := Or.inr rfl
  have hi : 32 ≤ addr2dir (w * pgsize) ∧ addr2dir (w * pgsize) < 1024 := by
    rw [addr2dir_page]
    exact hv.index.1
  obtain ⟨s', he⟩ := h.sound.mapPage_some hd hi ho hprot
    (le_trans (Nat.add_le_add (Bool.toNat_le _) (Bool.toNat_le _)) hL)
  obtain ⟨-, L', hM⟩ := h.sound.mapPage hd hi ho he
  rw [addr2dir_page, addr2tbl_page] at hM
  refine ⟨s', L', he, ⟨hM.sound, fun x hx hp => ?_, fun q hq => ?_, ?_⟩, ?_, hM.stays.cr3⟩
  · by_cases hxw : x = w
    · rw [hxw]
      exact Finset.mem_insert_self ..
    · rw [hM.pte 512 _ _ hd hx.index.1 hx.index.2 (by omega)] at hp
      exact Finset.mem_insert_of_mem (h.only x hx hp)
  · -- what is not in the heap is neither free nor held
    rw [hM.stays.mem q (fun hc => hq (h.sound.heap q hc)) (fun hc => hq (hc ▸ h.sound.dir_heap hd)) fun c hc =>
      hq (h.sound.own.range _ _ hc)]
    exact h.mem q hq
  · exact (h.sound.mapPage_word hd hd hi ho (by decide) he).trans h.kernel
  · have h1 := hM.used
    have h2 := Bool.toNat_le (!present (s.word 512 (w / 1024)))
    have h3 := Bool.toNat_le (!present (s.pte 512 (w / 1024) (w % 1024)))
    omega

theorem Single.poke {va : Nat} {b : UInt8} (h : Single s mem L P) (hva : UserAddr va) :
    Single (s.poke 512 va b) mem L P := by
  have hd : And (fun _ => False) 512 512 := Or.inr rfl
  obtain ⟨hs, hsame⟩ := h.sound.poke (b := b) hd hva
  refine ⟨hs, fun w hw hp => h.only w hw ?_, fun q hq => ?_, ?_⟩
  · rwa [hsame.pte 512 _ _ hd hw.index.1 hw.index.2] at hp
  · refine Eq.trans ?_ (h.mem q hq)
    unfold Vm.poke
    cases ht : s.translate 512 va with
    | none => rfl
    | some x =>
      refine setPage_ne ?_
      rintro rfl
      exact hq (h.sound.own.range _ _ (translate_holds hd hva ht))
  · refine Eq.trans ?_ h.kernel
    unfold Vm.poke
    cases ht : s.translate 512 va with
    | none => rfl
    | some x =>
      refine word_congr (setPage_ne fun hc => ?_)
      have hx := translate_holds (K := And (fun _ => False) 513) hd hva ht
      rw [← hc] at hx
      cases h.sound.own.inj _ (.dir 512) 512 hx ⟨hd, rfl⟩

theorem Single.pokes {ws : List (Nat × Nat × UInt8)} (h : Single s mem L P)
    (hws : ∀ x ∈ ws, x.1 = 512 ∧ UserAddr x.2.1) :
    Single (s.pokes ws) mem L P := by
  induction ws generalizing s with
  | nil => exact h
  | cons x ws ih =>
    obtain ⟨e, va, b⟩ := x
    obtain ⟨rfl, hva⟩ := hws _ List.mem_cons_self
    exact ih (h.poke hva) fun x hx => hws x (List.mem_cons_of_mem _ hx)

end

/-- The process forks. Its child has the same rights. -/
theorem Single.fork {mem : Nat → Store} {P : Finset Nat} (h : Single u.vm mem L P) (hL : 2 * P.card + 2 ≤ L.length)
    (hcr : u.vm.cr3 = 512) (hp : u.procs 1 = some x) (hx : x.pgdir = 512) (hfree : u.procs 2 = none) :
    ∃ u' d k, Step u (.fork 1 2) u' ∧ u'.procs 2 = some { x with pgdir := d, kstack := k, brk := 0 } ∧
      ∀ w, UserPage w → w < usrMem / pgsize → u'.vm.rights d w = u.vm.rights 512 w := by
  obtain ⟨d, L', rfl⟩ : ∃ d L', L = d :: L' := List.exists_cons_of_ne_nil fun hc => by
    rw [hc] at hL
    cases hL
  obtain ⟨s₁, h1⟩ := h.sound.vmAlloc_some
  obtain ⟨L₁, hL₁, hnd, -, hs₁, hempty, hsame₁, -, hcr₁, -⟩ := h.sound.vmAlloc h1
  obtain rfl := (List.cons.inj hL₁).2
  obtain ⟨k, L'', rfl⟩ : ∃ k L'', L' = k :: L'' := List.exists_cons_of_ne_nil fun hc => by
    rw [hc, List.length_singleton] at hL
    omega
  obtain ⟨s₂, h2⟩ := hs₁.kalloc_some
  obtain ⟨L₂, hL₂, -, hs₂, hsame₂, -, -, hcr₂, -⟩ := hs₁.kalloc h2
  obtain rfl := (List.cons.inj hL₂).2
  have hcr' : s₂.cr3 = 512 := hcr₂.trans (hcr₁.trans hcr)
  have hd : And (And (fun _ => False) 512) d d := Or.inr rfl
  have hc : And (And (fun _ => False) 512) d s₂.cr3 := by
    rw [hcr']
    exact Or.inl (Or.inr rfl)
  have hne : d ≠ s₂.cr3 := by
    rintro rfl
    exact hnd (Or.inr hcr')
  have hempty₂ : Empty s₂ d := fun i h4 h5 => by
    rw [hsame₂.pde d i hd ⟨h4, h5⟩]
    exact hempty i h4 h5
  have hpte : ∀ w, UserPage w → s₂.pte 512 (w / 1024) (w % 1024) = u.vm.pte 512 (w / 1024) (w % 1024) := fun w hw => by
    rw [hsame₂.pte 512 _ _ (Or.inl (Or.inr rfl)) hw.index.1 hw.index.2,
      hsame₁.pte 512 _ _ (Or.inr rfl) hw.index.1 hw.index.2]
  -- a page, and at most a table, for each page that is mapped
  have hsub : toCopy s₂ phyPage ((usrMem - phyMem) / pgsize) ⊆ P := fun w hw => by
    obtain ⟨h5, h6⟩ := Finset.mem_filter.1 hw
    obtain ⟨h7, h8⟩ := Finset.mem_Ico.1 h5
    rw [phyPage_end] at h8
    have huser : UserPage w := ⟨h7, lt_trans h8 (by decide)⟩
    rw [hcr', hpte w huser] at h6
    exact h.only w huser h6
  have hneed : pagesNeeded s₂ ≤ P.card + P.card := by
    have h5 := Finset.card_le_card hsub
    have h6 := Finset.card_image_le (s := toCopy s₂ phyPage ((usrMem - phyMem) / pgsize)) (f := (· / 1024))
    exact Nat.add_le_add h5 (le_trans h6 h5)
  have hlen : 2 * P.card + 2 ≤ L''.length + 1 + 1 := hL
  obtain ⟨s₃, L₃, h3, hi⟩ := hs₂.vmCopycurr hc hd hne hempty₂ (by omega)
  have hrun : u.run 1 = some u := by
    unfold run
    rw [hp, Option.map_some, hx, ← hcr]
  have hfork : u.sysFork 1 2 = some ({ u with vm := s₃ }.setProc 2 { x with pgdir := d, kstack := k, brk := 0 }) := by
    unfold sysFork
    rw [hp, Option.bind_eq_bind, Option.bind_some]
    exact Option.bind_eq_some_iff.2 ⟨_, h1, Option.bind_eq_some_iff.2 ⟨_, h2, Option.bind_eq_some_iff.2 ⟨_, h3, rfl⟩⟩⟩
  refine ⟨_, d, k, .fork hfree hrun hfork, setProc_procs.trans (if_pos rfl), fun w hw hlt => ?_⟩
  have haddr : UserAddr (w * pgsize) := by
    have h5 : 32768 ≤ w := hw.1
    have h6 : w < 786432 := hlt
    constructor
    · show 0x8000000 ≤ w * 4096
      omega
    · show w * 4096 < 0xc0000000
      omega
  have hcopy := (hi.copy hs₂ hc hd hne hempty₂).rights (w * pgsize) haddr
  rw [Nat.mul_div_cancel _ (by decide)] at hcopy
  refine hcopy.trans ?_
  rw [hs₂.rights_eq hc hw, h.sound.rights_eq (Or.inr rfl) hw, hcr', hpte w hw]

end Mm

end TinyOS
