/-
The break of a process, in its own memory and in its PCB: when both are in step, the heap is mapped.
-/
import TinyOS.Lib.Run
import TinyOS.Vm.Procs

namespace TinyOS

open TinyOS.Lib TinyOS.Vm

namespace Mm

variable {u u' : Mm} {D K : Nat → Prop} {L : List Nat} {s s' : Vm} {x y : Mproc} {p q c d e w a addr : Nat} {inc : Int}
  {args : List (Nat × UInt8)} {prog : Prog}

/-! ## Rights that stay -/

theorem rights_same (h : SameEntries s s' D) (hd : D d) (hw : UserPage w) : s'.rights d w = s.rights d w := by
  unfold rights
  rw [h.pte d _ _ hd hw.index.1 hw.index.2, h.pde d _ hd hw.index.1]

theorem or_seven {r : Nat} (h : r < 8) : r ||| 7 = 7 := by
  interval_cases r <;> rfl

theorem rights_lt : s.rights d w < 8 := by
  unfold rights
  split
  · exact Nat.mod_lt _ (by decide)
  · decide

/-- Address spaces that are not touched keep their rights. -/
structure Keeps (s s' : Vm) (D K : Nat → Prop) (d : Nat) : Prop where
  sound : ∃ L, Sound s' D K L
  cr3 : s'.cr3 = s.cr3
  rights : ∀ e w, D e → e ≠ d → UserPage w → s'.rights e w = s.rights e w

theorem Keeps.trans {s₁ : Vm} (h : Keeps s s₁ D K d) (h' : Keeps s₁ s' D K d) : Keeps s s' D K d :=
  ⟨h'.sound, h'.cr3.trans h.cr3, fun e w he hne hw => (h'.rights e w he hne hw).trans (h.rights e w he hne hw)⟩

theorem keeps_pokes {ws : List (Nat × Nat × UInt8)} (hd : D d) (h : Sound s D K L)
    (hws : ∀ x ∈ ws, x.1 = d ∧ UserAddr x.2.1) :
    Keeps s (s.pokes ws) D K d := by
  induction ws generalizing s with
  | nil => exact ⟨⟨L, h⟩, rfl, fun _ _ _ _ _ => rfl⟩
  | cons x ws ih =>
    obtain ⟨e, a, b⟩ := x
    obtain ⟨rfl, ha⟩ := hws _ List.mem_cons_self
    obtain ⟨h₁, hsame⟩ := h.poke (b := b) hd ha
    have hcr : (s.poke e a b).cr3 = s.cr3 := by
      unfold poke
      cases s.translate e a <;> rfl
    have h₂ : Keeps s (s.poke e a b) D K e := ⟨⟨L, h₁⟩, hcr, fun e' w he' _ hw => rights_same hsame he' hw⟩
    exact h₂.trans (ih h₁ fun x hx => hws x (List.mem_cons_of_mem _ hx))

theorem vmMap_start {va len prot : Nat} (he : s.vmMap d va len prot = some s') : phyMem ≤ va := by
  unfold vmMap at he
  simp only at he
  split at he
  · next hc =>
    have h1 : pageDown va = va / 4096 * 4096 := rfl
    have h2 : 0x8000000 ≤ pageDown va := hc.2.2.1
    show 0x8000000 ≤ va
    omega
  · cases he

theorem keeps_vmMap {va len prot : Nat} (hd : D d) (h : Sound s D K L) (he : s.vmMap d va len prot = some s') :
    Keeps s s' D K d := by
  obtain ⟨h1, h2, -, h4⟩ := h.rights_vmMap hd he
  exact ⟨h1, h2, fun e w he hne hw => by rw [h4 e w he hw, if_neg fun hc => hne hc.1]⟩

theorem segBytes_addr {g : Seg} (hva : phyMem ≤ g.vaddr) {x : Nat × Nat × UInt8} (hx : x ∈ Seg.bytes g d) :
    x.1 = d ∧ UserAddr x.2.1 := by
  unfold Seg.bytes at hx
  obtain ⟨q, hq, rfl⟩ := List.mem_map.1 hx
  have hlt := (List.mem_zipIdx hq).2.1
  rw [List.length_append, List.length_replicate] at hlt
  have hfits := g.fits
  have hbelow : g.vaddr + g.memsz ≤ 0xc0000000 - 4096 := g.below
  refine ⟨rfl, Nat.le_trans hva (Nat.le_add_right _ _), ?_⟩
  show g.vaddr + q.2 < 0xc0000000
  omega

theorem keeps_loadElf (hd : D d) (h : Sound s D K L) (he : s.loadElf d prog = some s') : Keeps s s' D K d := by
  unfold loadElf at he
  obtain ⟨s₁, h1, he⟩ := Option.bind_eq_some_iff.1 he
  -- by induction on the segments, each with the free list that the last one left
  have hsegs : ∀ (l : List Seg) (s : Vm) (L : List Nat), Sound s D K L → l.foldlM (loadSeg d) s = some s₁ →
      Keeps s s₁ D K d := by
    intro l
    induction l with
    | nil =>
      intro s L h he
      cases he
      exact ⟨⟨L, h⟩, rfl, fun _ _ _ _ _ => rfl⟩
    | cons g l ih =>
      intro s L h he
      rw [List.foldlM_cons] at he
      obtain ⟨s₂, h2, he⟩ := Option.bind_eq_some_iff.1 he
      unfold loadSeg at h2
      obtain ⟨s₃, h3, h2⟩ := Option.bind_eq_some_iff.1 h2
      cases h2
      have hk₃ := keeps_vmMap hd h h3
      obtain ⟨L₃, h₃⟩ := hk₃.sound
      have hk₂ := keeps_pokes hd h₃ fun x hx => segBytes_addr (vmMap_start h3) hx
      obtain ⟨L₂, h₂⟩ := hk₂.sound
      exact (hk₃.trans hk₂).trans (ih _ L₂ h₂ he)
  have hk := hsegs _ _ _ h h1
  obtain ⟨L₁, h₁⟩ := hk.sound
  exact hk.trans (keeps_vmMap hd h₁ he)

theorem keeps_loadUser (hd : D d) (h : Sound s D K L) (hargs : ∀ x ∈ args, UserAddr x.1)
    (he : s.loadUser d prog args = some s') :
    Keeps s s' D K d := by
  unfold loadUser at he
  obtain ⟨s₁, h1, he⟩ := Option.bind_eq_some_iff.1 he
  cases he
  have hk := keeps_loadElf hd h h1
  obtain ⟨L₁, h₁⟩ := hk.sound
  refine hk.trans (keeps_pokes hd h₁ fun x hx => ?_)
  obtain ⟨y, hy, rfl⟩ := List.mem_map.1 hx
  exact ⟨rfl, hargs y hy⟩

/-! ## `sys_brk` -/

/-- A break that programs have: at the end of a page, between the kernel's part and the stack. -/
def Break (b : Nat) : Prop := phyMem ≤ b ∧ b ≤ usrMem - pgsize

theorem Break.pageUp {b : Nat} (h : Break b) : Break (Vm.pageUp b) ∧ Vm.pageUp b % pgsize = 0 ∧ b ≤ Vm.pageUp b := by
  have h1 : 0x8000000 ≤ b := h.1
  have h2 : b ≤ 0xc0000000 - 4096 := h.2
  have h3 : Vm.pageUp b = (b + 4095) % 2 ^ 32 / 4096 * 4096 := rfl
  refine ⟨⟨?_, ?_⟩, ?_, ?_⟩
  · show 0x8000000 ≤ Vm.pageUp b
    omega
  · show Vm.pageUp b ≤ 0xc0000000 - 4096
    omega
  · show Vm.pageUp b % 4096 = 0
    omega
  · omega

theorem Break.pageUp_eq {b : Nat} (h : Break b) (ha : b % pgsize = 0) : Vm.pageUp b = b := by
  have h2 : b ≤ 0xc0000000 - 4096 := h.2
  have ha' : b % 4096 = 0 := ha
  show (b + 4095) % 2 ^ 32 / 4096 * 4096 = b
  omega

theorem inRange_break {b b' : Nat} (h' : Break b') (ha' : b' % pgsize = 0) (hle : b ≤ b') :
    InRange b (b' - b) w ↔ b / pgsize ≤ w ∧ w < b' / pgsize := by
  unfold InRange
  have hlt : b' < 2 ^ 32 := lt_of_le_of_lt h'.2 (by decide)
  rw [Nat.add_sub_cancel' hle, uint32_of_lt hlt, h'.pageUp_eq ha']

/-- The rights for a page after the break of the PCB moved from `b` to `b'`. -/
def moved (b b' w r : Nat) : Nat :=
  if b ≠ 0 ∧ b / pgsize ≤ w ∧ w < b' / pgsize then r ||| 7
  else if b' / pgsize ≤ w ∧ w < b / pgsize then 0 else r

theorem sysBrk_some (h : Sound u.vm D K L) (hp : u.procs p = some x) (hd : D x.pgdir) (hcr : u.vm.cr3 = x.pgdir)
    (hb : x.brk = 0 ∨ (Break x.brk ∧ x.brk % pgsize = 0)) (ha : Break addr) (he : u.sysBrk p addr = some u') :
    ∃ s', u' = { u with vm := s' }.setProc p { x with brk := pageUp addr } ∧ Keeps u.vm s' D K x.pgdir ∧
      ∀ w, UserPage w → s'.rights x.pgdir w = moved x.brk (pageUp addr) w (u.vm.rights x.pgdir w) := by
  obtain ⟨hnew, halign, -⟩ := ha.pageUp
  -- the first call only sets the break; later ones map, unmap or do nothing
  unfold sysBrk at he
  rw [hp] at he
  simp only [Option.bind_eq_bind, Option.bind_some, hcr] at he
  have hsame : Keeps u.vm u.vm D K x.pgdir := ⟨⟨L, h⟩, rfl, fun _ _ _ _ _ => rfl⟩
  split at he
  · next h0 =>
    cases he
    refine ⟨u.vm, rfl, hsame, fun w _ => ?_⟩
    unfold moved
    rw [if_neg (fun hc => hc.1 h0), if_neg]
    rw [h0, Nat.zero_div]
    omega
  next h0 =>
  obtain ⟨hbrk, hbal⟩ := hb.resolve_left h0
  split at he
  · next hlt =>
    obtain ⟨s', hm, he⟩ := Option.bind_eq_some_iff.1 he
    cases he
    obtain ⟨-, -, -, h4⟩ := h.rights_vmMap hd hm
    refine ⟨s', rfl, keeps_vmMap hd h hm, fun w hw => ?_⟩
    rw [h4 _ w hd hw]
    have hin := inRange_break (w := w) hnew halign hlt.le
    unfold moved
    by_cases hc : x.brk / pgsize ≤ w ∧ w < pageUp addr / pgsize
    · rw [if_pos ⟨rfl, hin.2 hc⟩, if_pos ⟨h0, hc⟩]
      rfl
    · rw [if_neg (fun h5 => hc (hin.1 h5.2)), if_neg (fun h5 => hc h5.2), if_neg]
      have := Nat.div_le_div_right (c := pgsize) hlt.le
      omega
  next hge =>
  split at he
  · next hlt =>
    obtain ⟨s', hm, he⟩ := Option.bind_eq_some_iff.1 he
    cases he
    obtain ⟨h1, h2, -, h4⟩ := h.rights_vmUnmap hd hnew.1 hm
    refine ⟨s', rfl, ⟨h1, h2, fun e w he hne hw => by rw [h4 e w he hw, if_neg fun hc => hne hc.1]⟩, fun w hw => ?_⟩
    rw [h4 _ w hd hw]
    have hin := inRange_break (w := w) hbrk hbal hlt.le
    unfold moved
    have hdiv := Nat.div_le_div_right (c := pgsize) hlt.le
    by_cases hc : pageUp addr / pgsize ≤ w ∧ w < x.brk / pgsize
    · rw [if_pos ⟨rfl, hin.2 hc⟩, if_neg (by omega), if_pos hc]
    · rw [if_neg (fun h5 => hc (hin.1 h5.2)), if_neg (by omega), if_neg hc]
  · next hle =>
    cases he
    have heq : x.brk = pageUp addr := by omega
    refine ⟨u.vm, ?_, hsame, fun w _ => ?_⟩
    · unfold setProc
      rw [← heq, ← hp, Function.update_eq_self]
    · unfold moved
      rw [← heq, if_neg (by omega), if_neg (by omega)]

end Mm

end TinyOS
