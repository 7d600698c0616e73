/-
The stack of a new program as `_start` reads it: its two arguments, the array of pointers and the strings.
-/
import TinyOS.Vm.Args

namespace TinyOS.Vm

open TinyOS.Lib

variable {s s' s₁ : Vm} {D K : Nat → Prop} {L L₁ : List Nat} {d q r w a o n v c j : Nat} {bs cs img str : List UInt8}
  {ws : List Nat} {argv : List (List UInt8)}

/-! ## Reading an address space -/

/-- Bytes at addresses that follow each other. -/
def Reads (s : Vm) (d a : Nat) (bs : List UInt8) : Prop := ∀ i (h : i < bs.length), s.peek d (a + i) = some bs[i]

def peekWord (s : Vm) (d a : Nat) : Option Nat := do
  return Store.wordOf [← s.peek d a, ← s.peek d (a + 1), ← s.peek d (a + 2), ← s.peek d (a + 3)]

theorem Reads.append (h : s.Reads d a (bs ++ cs)) : s.Reads d a bs ∧ s.Reads d (a + bs.length) cs := by
  constructor
  · intro i hi
    rw [h i (by rw [List.length_append]; omega), List.getElem_append_left hi]
  · intro i hi
    rw [Nat.add_assoc, h (bs.length + i) (by rw [List.length_append]; omega),
      List.getElem_append_right (Nat.le_add_right _ _)]
    simp

theorem Reads.word (h : s.Reads d a (le32 v)) (hv : v < 2 ^ 32) : s.peekWord d a = some v := by
  have h0 := h 0 (by simp)
  have h1 := h 1 (by simp)
  have h2 := h 2 (by simp)
  have h3 := h 3 (by simp)
  unfold peekWord
  rw [Nat.add_zero] at h0
  rw [h0, h1, h2, h3]
  exact congrArg some (Store.wordOf_le32 hv)

theorem Reads.words (h : s.Reads d a (ws.flatMap le32)) (hj : j < ws.length) (hw : ws[j] < 2 ^ 32) :
    s.peekWord d (a + 4 * j) = some ws[j] := by
  induction ws generalizing a j with
  | nil => cases hj
  | cons v ws ih =>
    rw [List.flatMap_cons] at h
    obtain ⟨hv, hws⟩ := h.append
    cases j with
    | zero => exact hv.word hw
    | succ j =>
      have hnext := ih hws (Nat.lt_of_succ_lt_succ hj) hw
      rw [Store.le32_length, Nat.add_assoc, Nat.add_comm 4, ← Nat.mul_succ] at hnext
      exact hnext

/-! ## The page of the stack -/

/-- The page at `USR_MEM - PGSIZE`. -/
def stackPage : Nat := usrMem / pgsize - 1

theorem stackPage_user : UserPage stackPage := by decide

/-- `vm_walk` with all rights, for a page that has them. -/
theorem Sound.walk_page (h : Sound s D K L) (hd : D d) (hw : UserPage w) (hv : s.view d w = some (q, 7)) :
    ∃ s₁ L₁, s.walk d (w * pgsize) 7 = some (q * pgsize, s₁) ∧ Sound s₁ D K L₁ ∧ s₁.view d w = some (q, 7) := by
  obtain ⟨hp, hf, hr⟩ := view_some.1 hv
  have hidx := hw.index
  have hdir : present (s.word d (w / 1024)) = true := by
    unfold pte at hp
    split at hp
    · assumption
    · cases hp
  have hi : 32 ≤ addr2dir (w * pgsize) ∧ addr2dir (w * pgsize) < 1024 := by
    rw [addr2dir_page]
    exact hidx.1
  obtain ⟨x, s₁, he⟩ : ∃ x s₁, s.walkpte d (w * pgsize) 7 = some (x, s₁) := h.walkpte_some rfl (by decide) (by
    rw [addr2dir_page, hdir]
    exact Nat.zero_le _)
  -- the table is there, so the walk adds rights to its entry at most
  obtain ⟨-, rfl, L₁, ht⟩ := h.walkpte hd hi rfl he
  rw [addr2dir_page] at ht
  have hpte : s₁.pte d (w / 1024) (w % 1024) = s.pte d (w / 1024) (w % 1024) := ht.set.pte d _ _ hd hidx.1 hidx.2
  have hword : s₁.word (pageFrame (s₁.word d (w / 1024))) (w % 1024) = s.pte d (w / 1024) (w % 1024) := by
    rw [← hpte, pte, if_pos ht.present]
  have hseven : s.pte d (w / 1024) (w % 1024) % 8 = 7 := by
    rw [← hr, h.rights_eq hd hw, if_pos hp]
  have hand : s.pte d (w / 1024) (w % 1024) &&& 7 = 7 := (Nat.and_two_pow_sub_one_eq_mod _ 3).trans hseven
  have hlow : ¬ w * pgsize < phyMem := by
    have h1 : 32768 ≤ w := hw.1
    show ¬ w * 4096 < 0x8000000
    omega
  refine ⟨s₁, L₁, ?_, ht.sound, ?_⟩
  · unfold walk
    rw [he, addr2dir_page, addr2tbl_page]
    simp only [Option.bind_eq_bind, Option.bind_some, hword, hand]
    rw [if_neg (by decide), if_neg hlow, if_neg (by simp), hf, Nat.mul_mod_left, Nat.or_zero]
  · refine view_some.2 ⟨?_, ?_, ?_⟩
    · rw [hpte, hp]
    · rw [hpte, hf]
    · rw [ht.sound.rights_eq hd hw, hpte, if_pos hp, hseven]

/-- After `load_elf` has mapped the page of the stack. -/
theorem Sound.stack_view (h : Sound s D K L) (hd : D d) (he : s.vmMap d (usrMem - pgsize) pgsize 7 = some s') :
    ∃ L' q, Sound s' D K L' ∧ s'.view d stackPage = some (q, 7) := by
  obtain ⟨L', ha⟩ := h.vmMap_added hd he
  have hR : InRange (usrMem - pgsize) pgsize stackPage := by decide
  cases hv : s.view d stackPage with
  | none =>
    obtain ⟨q, -, -, hq, -⟩ := ha.new stackPage stackPage_user hR hv
    exact ⟨L', q, ha.sound, hq⟩
  | some x =>
    obtain ⟨q, r⟩ := x
    obtain ⟨hq, -⟩ := ha.old stackPage q r stackPage_user hR hv
    have hr : r < 8 := by
      obtain ⟨hp, -, hr⟩ := view_some.1 hv
      rw [← hr, h.rights_eq hd stackPage_user, if_pos hp]
      exact Nat.mod_lt _ (by decide)
    have hseven : r ||| 7 = 7 := (Nat.or_comm r 7).trans (by interval_cases r <;> rfl)
    rw [hseven] at hq
    exact ⟨L', q, ha.sound, hq⟩

theorem view_heap (h : Sound s D K L) (hd : D d) (hw : UserPage w) (hv : s.view d w = some (q, r)) :
    1 ≤ q ∧ q < phyPage := by
  have hheap : HeapPage q := h.own.range _ q (view_holds hd hw hv)
  exact ⟨le_trans (by decide) hheap.1, hheap.2⟩

/-- The end of the page, at user addresses. -/
theorem OnPage.reads {x : ArgStack} (hon : OnPage s q x img) (h : Sound s D K L) (hd : D d)
    (hv : s.view d stackPage = some (q, r)) :
    x.vm.Reads d (usrMem - img.length) img := by
  intro i hi
  have hfits : img.length ≤ 4096 := hon.fits
  obtain ⟨hp, hf, -⟩ := view_some.1 hv
  -- every address of the image lies on the page of the stack
  have hdir : addr2dir (usrMem - img.length + i) = stackPage / 1024 := by
    show (0xc0000000 - img.length + i) / 2 ^ 22 = 786431 / 1024
    omega
  have htbl : addr2tbl (usrMem - img.length + i) = stackPage % 1024 := by
    show (0xc0000000 - img.length + i) / 2 ^ 12 % 1024 = 786431 % 1024
    omega
  have hoff : (usrMem - img.length + i) % pgsize = pgsize - img.length + i := by
    show (0xc0000000 - img.length + i) % 4096 = 4096 - img.length + i
    omega
  have hsame := (h.setPage (m := x.vm.mem q) (Or.inr ⟨_, _, _, view_holds hd stackPage_user hv⟩)).2
  have hpte : x.vm.pte d (stackPage / 1024) (stackPage % 1024) = s.pte d (stackPage / 1024) (stackPage % 1024) := by
    rw [hon.vm]
    exact hsame.pte d _ _ hd stackPage_user.index.1 stackPage_user.index.2
  have hbyte : x.vm.mem q (pgsize - img.length + i) = img[i] := by
    have hlt : i < ((x.vm.mem q).read (pgsize - img.length) img.length).length := by
      rw [Store.read_length]
      exact hi
    exact (Store.read_getElem hlt).symm.trans (List.getElem_of_eq hon.read hlt)
  unfold peek translate
  rw [hdir, htbl, hpte, hoff]
  simp only [hp, if_true, Option.map_some, hf, hbyte]

/-! ## The strings -/

theorem strings_suffix (img : List UInt8) (argv : List (List UInt8)) : ∃ pre, strings img argv = pre ++ img := by
  induction argv generalizing img with
  | nil => exact ⟨[], rfl⟩
  | cons str argv ih =>
    obtain ⟨pre, hpre⟩ := ih (str ++ [0] ++ img)
    refine ⟨pre ++ (str ++ [0]), ?_⟩
    rw [List.append_assoc pre]
    exact hpre

theorem Reads.strings (h : s.Reads d (usrMem - (strings img argv).length) (strings img argv))
    (hlen : (strings img argv).length ≤ usrMem) :
    List.Forall₂ (fun p str => s.Reads d p (str ++ [0])) (addrs img.length argv) argv := by
  induction argv generalizing img with
  | nil => exact .nil
  | cons str argv ih =>
    unfold Vm.strings at h hlen
    have hcount : (str ++ [0] ++ img).length = img.length + (str.length + 1) := by
      rw [List.length_append, List.length_append, List.length_singleton, Nat.add_comm]
    -- the strings after `str` are pushed below it, so they come first
    obtain ⟨pre, hpre⟩ := strings_suffix (str ++ [0] ++ img) argv
    have hrest := ih h hlen
    rw [hcount] at hrest
    refine .cons ?_ hrest
    rw [hpre] at h hlen
    have hstr := (h.append).2
    rw [List.length_append, hcount] at hstr hlen
    have haddr : usrMem - (pre.length + (img.length + (str.length + 1))) + pre.length = usrMem -
        (img.length + (str.length + 1)) := by
      omega
    rw [haddr] at hstr
    exact hstr.append.1

/-- The addresses of the strings and their sizes with the `NUL`. -/
def strSpans (ps : List Nat) (argv : List (List UInt8)) : List (Nat × Nat) :=
  ps.zip (argv.map fun str => str.length + 1)

theorem strSpans_inside (hc : c + argBytes argv ≤ usrMem) {x : Nat × Nat} (hx : x ∈ strSpans (addrs c argv) argv) :
    usrMem - (c + argBytes argv) ≤ x.1 ∧ x.1 + x.2 ≤ usrMem - c := by
  induction argv generalizing c with
  | nil => cases hx
  | cons str argv ih =>
    rw [argBytes_cons] at hc ⊢
    rcases List.mem_cons.1 hx with rfl | hx
    · show usrMem - _ ≤ usrMem - (c + (str.length + 1)) ∧ usrMem - (c + (str.length + 1)) +
        (str.length + 1) ≤ usrMem - c
      omega
    · have hrest := ih (c := c + (str.length + 1)) (by omega) hx
      omega

theorem strSpans_disjoint (hc : c + argBytes argv ≤ usrMem) :
    (strSpans (addrs c argv) argv).Pairwise fun x y => x.1 + x.2 ≤ y.1 ∨ y.1 + y.2 ≤ x.1 := by
  induction argv generalizing c with
  | nil => exact .nil
  | cons str argv ih =>
    rw [argBytes_cons] at hc
    refine .cons (fun y hy => Or.inr ?_) (ih (by omega))
    exact (strSpans_inside (by omega) hy).2

theorem addrs_lt {p : Nat} (hp : p ∈ addrs c argv) : p < usrMem := by
  induction argv generalizing c with
  | nil => cases hp
  | cons str argv ih =>
    rcases List.mem_cons.1 hp with rfl | hp
    · exact Nat.sub_lt (by decide) (by omega)
    · exact ih hp

theorem le_addrs {p : Nat} (hp : p ∈ addrs c argv) : usrMem - (c + argBytes argv) ≤ p := by
  induction argv generalizing c with
  | nil => cases hp
  | cons str argv ih =>
    rw [argBytes_cons]
    rcases List.mem_cons.1 hp with rfl | hp
    · exact Nat.sub_le_sub_left (by omega) _
    · have hrest := ih hp
      omega

/-! ## Main results -/

/-- The stack pointer with the arguments and the hole, the array of pointers, and the strings. -/
def spans (esp a : Nat) (ps : List Nat) (argv : List (List UInt8)) : List (Nat × Nat) :=
  (esp, 12) :: (a, 4 * (argv.length + 1)) :: strSpans ps argv

/-- What `_start(argc, argv)` reads from the stack pointer on, the array of pointers being at `a`. None of
the objects overlap. -/
structure Started (s : Vm) (d esp a : Nat) (ps : List Nat) (argv : List (List UInt8)) : Prop where
  argc : s.peekWord d (esp + 4) = some argv.length
  array : s.peekWord d (esp + 8) = some a
  aligned : a % 4 = 0
  pointers : ∀ i (h : i < ps.length), s.peekWord d (a + 4 * i) = some ps[i]
  last : s.peekWord d (a + 4 * ps.length) = some 0
  strings : List.Forall₂ (fun p str => s.Reads d p (str ++ [0])) ps argv
  inside : ∀ x ∈ spans esp a ps argv, usrMem - pgsize ≤ x.1 ∧ x.1 + x.2 ≤ usrMem
  disjoint : (spans esp a ps argv).Pairwise fun x y => x.1 + x.2 ≤ y.1 ∨ y.1 + y.2 ≤ x.1

theorem argBytes_le (argv : List (List UInt8)) : argBytes argv + 4 * (argv.length + 1) ≤ stackBytes argv := by
  unfold stackBytes
  omega

/-- The strings are above the array, and the array above the arguments. -/
theorem spans_inside (hb : stackBytes argv + 12 ≤ pgsize) {x : Nat × Nat}
    (hx : x ∈ spans (usrMem - (stackBytes argv + 12)) (usrMem - stackBytes argv) (addrs 0 argv) argv) :
    usrMem - pgsize ≤ x.1 ∧ x.1 + x.2 ≤ usrMem := by
  have hb' : stackBytes argv + 12 ≤ 4096 := hb
  have hle := argBytes_le argv
  unfold usrMem pgsize
  rcases List.mem_cons.1 hx with rfl | hx
  · show 0xc0000000 - 4096 ≤ 0xc0000000 - (stackBytes argv + 12) ∧ 0xc0000000 - (stackBytes argv + 12) + 12 ≤ 0xc0000000
    omega
  rcases List.mem_cons.1 hx with rfl | hx
  · show 0xc0000000 - 4096 ≤ 0xc0000000 - stackBytes argv ∧ 0xc0000000 - stackBytes argv +
      4 * (argv.length + 1) ≤ 0xc0000000
    omega
  · have hstr := strSpans_inside (show 0 + argBytes argv ≤ 0xc0000000 by omega) hx
    unfold usrMem at hstr
    omega

theorem spans_disjoint (hb : stackBytes argv + 12 ≤ pgsize) :
    (spans (usrMem - (stackBytes argv + 12)) (usrMem - stackBytes argv) (addrs 0 argv) argv).Pairwise
      fun x y => x.1 + x.2 ≤ y.1 ∨ y.1 + y.2 ≤ x.1 := by
  have hb' : stackBytes argv + 12 ≤ 4096 := hb
  have hle := argBytes_le argv
  have hfits : 0 + argBytes argv ≤ usrMem := show 0 + argBytes argv ≤ 0xc0000000 by omega
  have habove : ∀ y ∈ strSpans (addrs 0 argv) argv, usrMem - stackBytes argv + 4 * (argv.length + 1) ≤ y.1 := by
    intro y hy
    have hstr := strSpans_inside hfits hy
    unfold usrMem at hstr ⊢
    omega
  refine .cons (fun y hy => Or.inl ?_) (.cons (fun y hy => Or.inl (habove y hy)) (strSpans_disjoint hfits))
  have harray : usrMem - (stackBytes argv + 12) + 12 ≤ usrMem - stackBytes argv := by
    show 0xc0000000 - (stackBytes argv + 12) + 12 ≤ 0xc0000000 - stackBytes argv
    omega
  rcases List.mem_cons.1 hy with rfl | hy
  · exact harray
  · exact le_trans harray (le_trans (Nat.le_add_right _ _) (habove y hy))

/-- The page that `load_arg` has written. -/
theorem started {pad : List UInt8} (hp : Pads pad argv) (hn : argv.length ≤ maxArgsNum)
    (hb : stackBytes argv + 12 ≤ pgsize) (hr : s.Reads d (usrMem - (stackBytes argv + 8))
    (le32 argv.length ++ (le32 (usrMem - stackBytes argv) ++ arrayBytes pad argv))) :
    Started s d (usrMem - (stackBytes argv + 12)) (usrMem - stackBytes argv) (addrs 0 argv) argv := by
  have hb' : stackBytes argv + 12 ≤ 4096 := hb
  have hbytes : stackBytes argv = (argBytes argv + 3) / 4 * 4 + 4 * (argv.length + 1) := rfl
  obtain ⟨hargc, hr⟩ := hr.append
  obtain ⟨harray, hr⟩ := hr.append
  obtain ⟨hwords, hr⟩ := hr.append
  obtain ⟨-, hstrs⟩ := hr.append
  have hesp : usrMem - (stackBytes argv + 8) = usrMem - (stackBytes argv + 12) + 4 := by
    show 0xc0000000 - (stackBytes argv + 8) = 0xc0000000 - (stackBytes argv + 12) + 4
    omega
  -- from `esp` up: the return address, argc, argv, the array, the padding and the strings
  have ha : usrMem - (stackBytes argv + 12) + 4 + 4 + 4 = usrMem - stackBytes argv := by
    show 0xc0000000 - (stackBytes argv + 12) + 4 + 4 + 4 = 0xc0000000 - stackBytes argv
    omega
  simp only [Store.le32_length, hesp, ha] at hargc harray hwords hstrs
  have hlen : (addrs 0 argv).length = argv.length := addrs_length
  have hsize : (strings [] argv).length = argBytes argv := by
    rw [strings_length, List.length_nil, Nat.zero_add]
  have hcount : (addrs 0 argv ++ [0]).length = argv.length + 1 := by
    rw [List.length_append, hlen, List.length_singleton]
  have hpad : pad.length + argBytes argv = (argBytes argv + 3) / 4 * 4 := by
    rw [← hp, List.length_append, hsize]
  have hend : usrMem - stackBytes argv + (List.flatMap le32 (addrs 0 argv ++ [0])).length + pad.length =
      usrMem - (strings [] argv).length := by
    rw [Store.words_length, hcount, hsize]
    show 0xc0000000 - stackBytes argv + 4 * (argv.length + 1) + pad.length = 0xc0000000 - argBytes argv
    omega
  rw [hend] at hstrs
  refine ⟨?_, ?_, ?_, ?_, ?_, ?_, fun x hx => spans_inside hb hx, spans_disjoint hb⟩
  · exact hargc.word (lt_of_le_of_lt hn (by decide))
  · exact harray.word (lt_of_le_of_lt (Nat.sub_le _ _) (by decide))
  · show (0xc0000000 - stackBytes argv) % 4 = 0
    omega
  · intro i hi
    have hlt : i < (addrs 0 argv ++ [0]).length := by omega
    have hget : (addrs 0 argv ++ [0])[i] = (addrs 0 argv)[i] := List.getElem_append_left hi
    rw [← hget]
    refine hwords.words hlt ?_
    rw [hget]
    exact lt_trans (addrs_lt (List.getElem_mem hi)) (by decide)
  · have hlt : (addrs 0 argv).length < (addrs 0 argv ++ [0]).length := by omega
    have hget : (addrs 0 argv ++ [0])[(addrs 0 argv).length] = 0 := List.getElem_concat_length rfl _
    have hzero := hwords.words hlt (by rw [hget]; decide)
    rw [hget] at hzero
    exact hzero
  · refine hstrs.strings ?_
    rw [hsize]
    show argBytes argv ≤ 0xc0000000
    omega

/-- `argv` survives `exec`: the program starts with what it was given. -/
theorem argv_survives (h : Sound s D K L) (hd : D d) (he : s.vmMap d (usrMem - pgsize) pgsize 7 = some s')
    (hn : argv.length ≤ maxArgsNum) (hb : stackBytes argv + 12 ≤ pgsize) :
    ∃ esp a ps x, loadArg s' d argv = some (esp, a, x) ∧
    Started x.vm d esp a ps argv := by
  obtain ⟨L', q, h', hv⟩ := h.stack_view hd he
  obtain ⟨s₁, L₁, hw, h₁, hv₁⟩ := h'.walk_page hd stackPage_user hv
  obtain ⟨h1, h2⟩ := view_heap h' hd stackPage_user hv
  obtain ⟨pad, x, hp, -, hon, hx⟩ := loadArg_some h1 h2 hw hn (le_trans (Nat.add_le_add_left (by decide) _) hb)
  have hlen : (le32 argv.length ++ (le32 (usrMem - stackBytes argv) ++ arrayBytes pad argv)).length =
      stackBytes argv + 8 := by
    rw [List.length_append, List.length_append, Store.le32_length, Store.le32_length, arrayBytes_length hp]
    omega
  obtain ⟨hole, hhole, hon'⟩ := hon.skip h1 h2 (n := 4) (by rw [hlen]; exact hb)
  have hesp : (x.down 4).va = usrMem - (stackBytes argv + 12) := by
    rw [hon'.va_eq (List.append_ne_nil_of_left_ne_nil (List.ne_nil_of_length_pos (by omega)) _), List.length_append,
      hhole, hlen]
    congr 1
    omega
  have hr := hon.reads h₁ hd hv₁
  rw [hlen] at hr
  rw [hesp] at hx
  refine ⟨_, _, addrs 0 argv, _, hx, ?_⟩
  rw [ArgStack.down_vm]
  exact started hp hn hb hr

/-- A new directory with the page of the stack. -/
theorem fresh_stack : ∃ s₀ s L, Built s₀ (And (fun _ => False) 512) (fun _ => False) ∧
    Sound s₀ (And (fun _ => False) 512) (fun _ => False) L ∧ s₀.vmMap 512 (usrMem - pgsize) pgsize 7 = some s := by
  obtain ⟨s₀, hb, -, hs⟩ := fresh_dir
  obtain ⟨s, he⟩ : ∃ s, s₀.vmMap 512 (usrMem - pgsize) pgsize 7 = some s :=
    hs.vmMap_some (Or.inr rfl) rfl (by decide) (by decide)
    (by decide) (by
      rw [List.length_range']
      exact le_trans pagesFor_le (by decide))
  exact ⟨s₀, s, _, hb, hs, he⟩

theorem argv_survives_demo : ∃ s esp a ps x, loadArg s 512 [[97], [98, 99]] = some (esp, a, x) ∧
    Started x.vm 512 esp a ps [[97], [98, 99]] := by
  obtain ⟨s₀, s, L, -, hs, he⟩ := fresh_stack
  exact ⟨s, argv_survives hs (Or.inr rfl) he (by decide) (by decide)⟩

/-- The bytes written to are all on the page of the stack, and the pointers stored are addresses of it. -/
def Inside (s : Vm) (d a : Nat) (x : ArgStack) : Prop :=
  (∀ p ∈ x.log, (s.view d stackPage).map Prod.fst = some (p / pgsize)) ∧ ∀ p ∈ a :: x.argvVa,
    usrMem - pgsize ≤ p ∧ p < usrMem

/-- `load_arg` stays on the page of the stack exactly when the strings, the pointers and the two words fit. -/
theorem loadArg_inside (h : Sound s D K L) (hd : D d) (he : s.vmMap d (usrMem - pgsize) pgsize 7 = some s')
    (hn : argv.length ≤ maxArgsNum) :
    (∃ esp a x, loadArg s' d argv = some (esp, a, x) ∧ Inside s' d a x) ↔ stackBytes argv + 8 ≤ pgsize := by
  obtain ⟨L', q, h', hv⟩ := h.stack_view hd he
  obtain ⟨s₁, L₁, hw, h₁, hv₁⟩ := h'.walk_page hd stackPage_user hv
  obtain ⟨h1, h2⟩ := view_heap h' hd stackPage_user hv
  constructor
  · rintro ⟨esp, a, x, hx, hlog, -⟩
    rw [hv] at hlog
    exact loadArg_fits h1 h2 hw hn hx fun p hp => (Option.some.inj (hlog p hp)).symm
  · intro hb
    obtain ⟨pad, x, -, hva, hon, hx⟩ := loadArg_some h1 h2 hw hn hb
    refine ⟨_, _, _, hx, ?_, ?_⟩
    · rw [hv, ArgStack.down_log]
      intro p hp
      exact congrArg some (hon.log p hp).symm
    · rw [ArgStack.down_argvVa, hva]
      have hle := argBytes_le argv
      have hb' : stackBytes argv + 8 ≤ 4096 := hb
      intro p hp
      rcases List.mem_cons.1 hp with rfl | hp
      · show 0xc0000000 - 4096 ≤ 0xc0000000 - stackBytes argv ∧ 0xc0000000 - stackBytes argv < 0xc0000000
        omega
      · refine ⟨?_, addrs_lt hp⟩
        have hlow := le_addrs hp
        show 0xc0000000 - 4096 ≤ p
        unfold usrMem at hlow
        omega

theorem loadArg_inside_demo : ∃ s esp a x, loadArg s 512 [[97]] = some (esp, a, x) ∧ Inside s 512 a x := by
  obtain ⟨s₀, s, L, -, hs, he⟩ := fresh_stack
  exact ⟨s, (loadArg_inside hs (Or.inr rfl) he (by decide)).2 (by decide)⟩

/-! ## Beyond the page -/

theorem puts_low (bs : List UInt8) (h1 : pgsize ≤ a) (h2 : a + bs.length ≤ phyMem) : ∃ s', s.puts a bs = some s' := by
  induction bs generalizing s a with
  | nil => exact ⟨s, rfl⟩
  | cons b bs ih =>
    rw [List.length_cons] at h2
    have hlow : a + (bs.length + 1) ≤ 0x8000000 := h2
    have hput : s.put a b = some (s.store (a / pgsize) (a % pgsize) b) := by
      unfold put
      rw [if_neg (Nat.not_lt.2 h1), if_pos (show a < 0x8000000 by omega)]
    obtain ⟨s', hs'⟩ := ih (s := s.store (a / pgsize) (a % pgsize) b) (a := a + 1) (Nat.le_succ_of_le h1)
      (show a + 1 + bs.length ≤ 0x8000000 by omega)
    refine ⟨s', ?_⟩
    unfold puts
    rw [hput, uint32_of_lt (show a + 1 < 2 ^ 32 by omega)]
    exact hs'

namespace ArgStack

variable {x : ArgStack}

theorem down_low (h1 : n ≤ x.top) (h2 : x.top ≤ phyMem) : (x.down n).top = x.top - n :=
  usub32_of_le h1 (lt_of_le_of_lt h2 (by decide))

theorem write_low (bs : List UInt8) (h1 : pgsize + bs.length ≤ x.top) (h2 : x.top ≤ phyMem) :
    ∃ y, (x.down bs.length).write bs = some y ∧ y.top = x.top - bs.length ∧ y.argvVa = x.argvVa := by
  have htop := down_low (n := bs.length) (le_trans (Nat.le_add_left _ _) h1) h2
  obtain ⟨s', hs'⟩ := puts_low (s := (x.down bs.length).vm) (a := (x.down bs.length).top) bs
    (by rw [htop]; exact Nat.le_sub_of_add_le h1) (by rw [htop]; omega)
  exact ⟨_, write_eq hs', htop, down_argvVa (x := x) (n := bs.length)⟩

theorem pushStrings_low (argv : List (List UInt8)) (hn : x.argvVa.length + argv.length ≤ maxArgsNum)
    (h1 : pgsize + argBytes argv ≤ x.top) (h2 : x.top ≤ phyMem) :
    ∃ y, argv.foldlM pushString x = some y ∧ y.top = x.top - argBytes argv ∧
    y.argvVa.length = x.argvVa.length + argv.length := by
  induction argv generalizing x with
  | nil => exact ⟨x, rfl, rfl, rfl⟩
  | cons str argv ih =>
    rw [argBytes_cons] at h1 ⊢
    rw [List.length_cons] at hn ⊢
    have hlow : x.top ≤ 0x8000000 := h2
    have hlen : (str ++ [0]).length = str.length + 1 := List.length_append
    obtain ⟨y, hy, htop, hva⟩ := write_low (x := x) (str ++ [0]) (by rw [hlen]; omega) h2
    rw [hlen] at hy htop
    have hpush : x.pushString str = some { y with argvVa := y.argvVa ++ [y.va] } := by
      unfold pushString
      rw [if_pos (by omega), uint32_of_lt (by omega), hy]
      rfl
    have hcount : (y.argvVa ++ [y.va]).length = x.argvVa.length + 1 := by
      rw [hva, List.length_append, List.length_singleton]
    obtain ⟨z, hz, htop', hva'⟩ := ih (x := { y with argvVa := y.argvVa ++ [y.va] })
      (show (y.argvVa ++ [y.va]).length + argv.length ≤ maxArgsNum by omega)
      (show pgsize + argBytes argv ≤ y.top by omega) (show y.top ≤ phyMem by omega)
    have htop'' : z.top = y.top - argBytes argv := htop'
    have hva'' : z.argvVa.length = (y.argvVa ++ [y.va]).length + argv.length := hva'
    refine ⟨z, ?_, by omega, by omega⟩
    rw [List.foldlM_cons, hpush]
    exact hz

theorem pushWords_low {l : List Nat} (h1 : pgsize + 4 * l.length ≤ x.top) (h2 : x.top ≤ phyMem) :
    ∃ y, l.foldlM pushWord x = some y ∧ y.top = x.top - 4 * l.length := by
  induction l generalizing x with
  | nil => exact ⟨x, rfl, rfl⟩
  | cons v l ih =>
    rw [List.length_cons] at h1 ⊢
    obtain ⟨y, hy, htop, -⟩ := write_low (x := x) (le32 v) (by rw [Store.le32_length]; omega) h2
    rw [Store.le32_length] at hy htop
    obtain ⟨z, hz, htop'⟩ := ih (x := y) (by omega) (by omega)
    refine ⟨z, ?_, by omega⟩
    rw [List.foldlM_cons, show x.pushWord v = some y from hy]
    exact hz

end ArgStack

/-- Nothing stops `load_arg` above page 0. -/
theorem loadArg_low (h2 : q < phyPage)
    (hw : s.walk d (usrMem - pgsize) (pteP ||| pteW ||| pteU) = some (q * pgsize, s')) (hn : argv.length ≤ maxArgsNum)
    (hb : stackBytes argv + 8 ≤ q * pgsize) : ∃ r, loadArg s d argv = some r := by
  have hq : q < 32768 := h2
  have hb' : (argBytes argv + 3) / 4 * 4 + 4 * (argv.length + 1) + 8 ≤ q * 4096 := hb
  have htop : uint32 (q * pgsize + pgsize) = q * 4096 + 4096 := uint32_of_lt (show q * 4096 + 4096 < 2 ^ 32 by omega)
  obtain ⟨x₁, hx₁, htop₁, hva₁⟩ := ArgStack.pushStrings_low (x := ⟨s', uint32 (q * pgsize + pgsize), [], []⟩) argv
    (by simpa using hn) (by rw [htop]; show 4096 + argBytes argv ≤ q * 4096 + 4096; omega)
    (by rw [htop]; show q * 4096 + 4096 ≤ 0x8000000; omega)
  simp only [htop] at htop₁
  -- below the strings the top is rounded down to a word
  have hmod : x₁.top % pgsize % 4 = x₁.top % 4 := Nat.mod_mod_of_dvd _ (by decide)
  have htop₂ := ArgStack.down_low (x := x₁) (n := x₁.top % pgsize % 4) (by omega) (show x₁.top ≤ 0x8000000 by omega)
  generalize hx₂ : x₁.down (x₁.top % pgsize % 4) = x₂ at htop₂
  have hlen : (x₂.argvVa ++ [0]).reverse.length = argv.length + 1 := by
    rw [List.length_reverse, List.length_append, List.length_singleton, ← hx₂, ArgStack.down_argvVa, hva₁,
      List.length_nil, Nat.zero_add]
  obtain ⟨x₃, hx₃, htop₃⟩ := ArgStack.pushWords_low (x := x₂) (l := (x₂.argvVa ++ [0]).reverse)
    (by rw [hlen]; show 4096 + 4 * (argv.length + 1) ≤ x₂.top; omega) (show x₂.top ≤ 0x8000000 by omega)
  rw [hlen] at htop₃
  obtain ⟨x₄, hx₄, htop₄, -⟩ := ArgStack.write_low (x := x₃) (le32 x₃.va)
    (by rw [Store.le32_length]; show 4096 + 4 ≤ x₃.top; omega) (show x₃.top ≤ 0x8000000 by omega)
  rw [Store.le32_length] at hx₄ htop₄
  obtain ⟨x₅, hx₅, -, -⟩ := ArgStack.write_low (x := x₄) (le32 x₁.argvVa.length)
    (by rw [Store.le32_length]; show 4096 + 4 ≤ x₄.top; omega) (show x₄.top ≤ 0x8000000 by omega)
  rw [Store.le32_length] at hx₅
  rw [← hx₂] at hx₃
  refine ⟨((x₅.down 4).va, x₃.va, x₅.down 4), ?_⟩
  unfold loadArg
  refine Option.bind_eq_some_iff.2 ⟨_, hw, ?_⟩
  refine Option.bind_eq_some_iff.2 ⟨_, hx₁, ?_⟩
  refine Option.bind_eq_some_iff.2 ⟨_, hx₃, ?_⟩
  refine Option.bind_eq_some_iff.2 ⟨_, hx₄, ?_⟩
  exact Option.bind_eq_some_iff.2 ⟨_, hx₅, rfl⟩

/-- With a string of 4096 bytes `load_arg` completes, and has written to the page below. -/
theorem loadArg_overruns : ¬ ∀ (s s' : Vm) (D K : Nat → Prop) (d : Nat) (argv : List (List UInt8)), Built s D K → D d →
    s.vmMap d (usrMem - pgsize) pgsize 7 = some s' → argv.length ≤ maxArgsNum →
    loadArg s' d argv = none ∨ ∃ esp a x, loadArg s' d argv = some (esp, a, x) ∧ Inside s' d a x := by
  intro hall
  obtain ⟨s, s', L, hb, hs, he⟩ := fresh_stack
  obtain ⟨L', q, h', hv⟩ := hs.stack_view (Or.inr rfl) he
  obtain ⟨s₁, L₁, hw, -, -⟩ := h'.walk_page (Or.inr rfl) stackPage_user hv
  obtain ⟨h1, h2⟩ := view_heap h' (Or.inr rfl) stackPage_user hv
  have hheap : HeapPage q := h'.own.range _ q (view_holds (Or.inr rfl) stackPage_user hv)
  have hq : 512 ≤ q := hheap.1
  have hn : [List.replicate 4096 (65 : UInt8)].length ≤ maxArgsNum := by decide
  -- one argument of 4096 bytes is more than the page holds
  have hbytes : stackBytes [List.replicate 4096 65] = 4108 := by
    unfold stackBytes
    rw [argBytes_cons, List.length_replicate]
    rfl
  rcases hall s s' _ _ 512 [List.replicate 4096 65] hb (Or.inr rfl) he hn with hnone | ⟨esp, a, x, hx, hlog, -⟩
  · obtain ⟨r, hr⟩ := loadArg_low h2 hw hn (by rw [hbytes]; show 4108 + 8 ≤ q * 4096; omega)
    rw [hnone] at hr
    cases hr
  · rw [hv] at hlog
    have hfits := loadArg_fits h1 h2 hw hn hx fun p hp => (Option.some.inj (hlog p hp)).symm
    rw [hbytes] at hfits
    exact absurd hfits (by decide)

end TinyOS.Vm
