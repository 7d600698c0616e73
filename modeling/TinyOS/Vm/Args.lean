/-
`load_arg`: the strings, the array of pointers and the arguments of `_start` on the stack of a new
program, built downwards through the physical address of the page.
-/
import TinyOS.Vm.Put

namespace TinyOS.Vm

open TinyOS.Lib

variable {s s' : Vm} {D K : Nat → Prop} {L : List Nat} {d q a o n v c : Nat} {b : UInt8} {bs img str : List UInt8}
  {argv : List (List UInt8)}

/-- `MAX_ARGS_NUM`. -/
def maxArgsNum : Nat := 31

/-- `load_arg` at work: `stack_top`, the entries of `argv_va` so far, and the addresses written so far. -/
structure ArgStack where
  vm : Vm
  top : Nat
  argvVa : List Nat
  log : List Nat

namespace ArgStack

variable {x y z : ArgStack} {l : List Nat}

/-- `stack_top -= n`. -/
def down (x : ArgStack) (n : Nat) : ArgStack := { x with top := usub32 x.top n }

-- unfolded first: the kernel must not compare the tops
@[simp] theorem down_vm : (x.down n).vm = x.vm := by
  unfold down
  rfl

@[simp] theorem down_argvVa : (x.down n).argvVa = x.argvVa := by
  unfold down
  rfl

@[simp] theorem down_log : (x.down n).log = x.log := by
  unfold down
  rfl

/-- Bytes from `stack_top` on. -/
def write (x : ArgStack) (bs : List UInt8) : Option ArgStack := do
  return { x with vm := ← x.vm.puts x.top bs, log := x.log ++ (List.range bs.length).map fun i => uint32 (x.top + i) }

theorem write_eq (h : x.vm.puts x.top bs = some s') :
    x.write bs = some ⟨s', x.top, x.argvVa, x.log ++ (List.range bs.length).map fun i => uint32 (x.top + i)⟩ := by
  unfold write
  rw [h]
  rfl

/-- `USR_MEM - PGSIZE + ADDR2OFF(stack_top)`. -/
def va (x : ArgStack) : Nat := usrMem - pgsize + x.top % pgsize

/-- A turn of the loop over `argv`: `none` is the failed assertion, or a page fault. A string is given
without its `NUL`. -/
def pushString (x : ArgStack) (str : List UInt8) : Option ArgStack :=
  if x.argvVa.length < maxArgsNum then do
    let x ← (x.down (uint32 (str.length + 1))).write (str ++ [0])
    return { x with argvVa := x.argvVa ++ [x.va] }
  else none

def pushWord (x : ArgStack) (v : Nat) : Option ArgStack := (x.down 4).write (le32 v)

end ArgStack

/-- Besides the result there are `argv_va_addr` and what was done. The strings are in the caller's pages,
which are not those of `pgdir`. -/
def loadArg (s : Vm) (pgdir : Nat) (argv : List (List UInt8)) : Option (Nat × Nat × ArgStack) := do
  let (pa, s) ← s.walk pgdir (usrMem - pgsize) (pteP ||| pteW ||| pteU)
  let x ← argv.foldlM ArgStack.pushString ⟨s, uint32 (pa + pgsize), [], []⟩
  let argc := x.argvVa.length
  let x := x.down (x.top % pgsize % 4)
  let x ← (x.argvVa ++ [0]).reverse.foldlM ArgStack.pushWord x
  let argvVaAddr := x.va
  let x ← x.pushWord argvVaAddr
  let x ← x.pushWord argc
  let x := x.down 4
  return (x.va, argvVaAddr, x)

/-! ## What is on the page -/

/-- The page `q` ends with the bytes `img`, and `stack_top` is at the first of them; nothing but the page
changed. -/
structure OnPage (s : Vm) (q : Nat) (x : ArgStack) (img : List UInt8) : Prop where
  fits : img.length ≤ pgsize
  top : x.top = q * pgsize + (pgsize - img.length)
  read : (x.vm.mem q).read (pgsize - img.length) img.length = img
  vm : x.vm = s.setPage q (x.vm.mem q)
  log : ∀ a ∈ x.log, a / pgsize = q

namespace OnPage

open ArgStack

variable {x y z : ArgStack} {l : List Nat}

theorem down_top (h : OnPage s q x img) (h1 : 1 ≤ q) (h2 : q < phyPage) (hn : n ≤ 4096) :
    (x.down n).top = q * 4096 + (4096 - img.length) - n := by
  have hq : q < 32768 := h2
  have hfits : img.length ≤ 4096 := h.fits
  have htop : x.top = q * 4096 + (4096 - img.length) := h.top
  show usub32 x.top n = _
  rw [htop]
  exact usub32_of_le (by omega) (by omega)

/-- Bytes that fit are put before the others. -/
theorem write (bs : List UInt8) (h : OnPage s q x img) (h1 : 1 ≤ q) (h2 : q < phyPage)
    (hb : img.length + bs.length ≤ pgsize) :
    ∃ y, (x.down bs.length).write bs = some y ∧ OnPage s q y (bs ++ img) ∧ y.argvVa = x.argvVa := by
  have hq : q < 32768 := h2
  have hfits : bs.length + img.length ≤ 4096 := (Nat.add_comm _ _).trans_le hb
  have htop : (x.down bs.length).top = q * pgsize + (pgsize - (bs.length + img.length)) := by
    rw [h.down_top h1 h2 (by omega)]
    show q * 4096 + (4096 - img.length) - bs.length = q * 4096 + (4096 - (bs.length + img.length))
    omega
  have hsum : pgsize - (bs.length + img.length) + bs.length = pgsize - img.length := by
    show 4096 - (bs.length + img.length) + bs.length = 4096 - img.length
    omega
  obtain ⟨m, hm⟩ : ∃ m, (x.vm.mem q).write (pgsize - (bs.length + img.length)) bs = m := ⟨_, rfl⟩
  have hputs : (x.down bs.length).vm.puts (x.down bs.length).top bs = some (x.vm.setPage q m) := by
    rw [down_vm, htop, ← hm]
    exact puts_page h1 h2 (le_trans (le_of_eq hsum) (Nat.sub_le _ _))
  have hwrite := write_eq hputs
  rw [down_argvVa, down_log] at hwrite
  have hmem : (x.vm.setPage q m).mem q = m := setPage_self
  refine ⟨_, hwrite, ⟨?_, ?_, ?_, ?_, ?_⟩, rfl⟩
  · rw [List.length_append]
    exact hfits
  · rw [List.length_append]
    exact htop
  · show ((x.vm.setPage q m).mem q).read (pgsize - (bs ++ img).length) (bs ++ img).length = bs ++ img
    rw [hmem, ← hm, List.length_append, Store.read_append, Store.read_write_self, hsum,
      Store.read_write_of_disjoint (Or.inr (le_of_eq hsum)), h.read]
  · show x.vm.setPage q m = s.setPage q ((x.vm.setPage q m).mem q)
    rw [hmem]
    exact (congrArg (fun s => setPage s q m) h.vm).trans setPage_setPage
  · intro a ha
    rcases List.mem_append.1 ha with ha | ha
    · exact h.log a ha
    · obtain ⟨i, hi, rfl⟩ := List.mem_map.1 ha
      have hi' : i < bs.length := List.mem_range.1 hi
      rw [htop]
      show (q * 4096 + (4096 - (bs.length + img.length)) + i) % 2 ^ 32 / 4096 = q
      omega

/-- Bytes that do not fit are not all written to the page. -/
theorem write_fits (bs : List UInt8) (h : OnPage s q x img) (h1 : 1 ≤ q) (h2 : q < phyPage) (hne : bs ≠ [])
    (he : (x.down (uint32 bs.length)).write bs = some y) (hlog : ∀ a ∈ y.log, a / pgsize = q) :
    img.length + bs.length ≤ pgsize := by
  have hq : q < 32768 := h2
  have hfits : img.length ≤ 4096 := h.fits
  have htop : x.top = q * 4096 + (4096 - img.length) := h.top
  have hpos : 0 < bs.length := List.length_pos_of_ne_nil hne
  have hin : ∀ i < bs.length, uint32 ((x.down (uint32 bs.length)).top + i) / 4096 = q := by
    intro i hi
    refine hlog _ ?_
    obtain ⟨s', -, he⟩ := Option.bind_eq_some_iff.1 he
    cases he
    exact List.mem_append_right _ (List.mem_map.2 ⟨i, List.mem_range.2 hi, rfl⟩)
  -- the bytes follow each other, so there are not more than the page has
  have hfirst := hin 0 hpos
  have hlt : (x.down (uint32 bs.length)).top < 2 ^ 32 := Nat.mod_lt _ (by decide)
  generalize ht : (x.down (uint32 bs.length)).top = t at hin hfirst hlt
  have hlen : bs.length ≤ (q + 1) * 4096 - t := by
    by_contra hc
    have hout := hin ((q + 1) * 4096 - t) (by omega)
    unfold uint32 at hfirst hout
    omega
  have hsmall : bs.length ≤ 4096 := by
    unfold uint32 at hfirst
    omega
  have hdown : t = q * 4096 + (4096 - img.length) - bs.length := by
    rw [← ht, uint32_of_lt (by omega)]
    exact h.down_top h1 h2 hsmall
  unfold uint32 at hfirst
  show img.length + bs.length ≤ 4096
  omega

/-- The user address of `stack_top`. -/
theorem va_eq (h : OnPage s q x img) (h0 : img ≠ []) : x.va = usrMem - img.length := by
  have hfits : img.length ≤ 4096 := h.fits
  have hpos : 0 < img.length := List.length_pos_of_ne_nil h0
  have htop : x.top = q * 4096 + (4096 - img.length) := h.top
  unfold va
  rw [htop]
  show 0xc0000000 - 4096 + (q * 4096 + (4096 - img.length)) % 4096 = 0xc0000000 - img.length
  omega

/-- The bytes passed over are what was there. -/
theorem skip (h : OnPage s q x img) (h1 : 1 ≤ q) (h2 : q < phyPage) (hn : img.length + n ≤ pgsize) :
    ∃ pad, pad.length = n ∧ OnPage s q (x.down n) (pad ++ img) := by
  have hb : n + img.length ≤ 4096 := (Nat.add_comm _ _).trans_le hn
  have hsum : pgsize - (n + img.length) + n = pgsize - img.length := by
    show 4096 - (n + img.length) + n = 4096 - img.length
    omega
  refine ⟨(x.vm.mem q).read (pgsize - (n + img.length)) n, Store.read_length, ?_, ?_, ?_, ?_, ?_⟩
  · rw [List.length_append, Store.read_length]
    exact hb
  · rw [h.down_top h1 h2 (by omega), List.length_append, Store.read_length]
    show q * 4096 + (4096 - img.length) - n = q * 4096 + (4096 - (n + img.length))
    omega
  · rw [down_vm, List.length_append, Store.read_length, Store.read_append, hsum, h.read]
  · rw [down_vm]
    exact h.vm
  · rw [down_log]
    exact h.log

theorem align (h : OnPage s q x img) (h1 : 1 ≤ q) (h2 : q < phyPage) :
    ∃ pad, (pad ++ img).length = (img.length + 3) / 4 * 4 ∧ OnPage s q (x.down (x.top % pgsize % 4)) (pad ++ img) := by
  have hfits : img.length ≤ 4096 := h.fits
  have htop : x.top = q * 4096 + (4096 - img.length) := h.top
  obtain ⟨r, hr⟩ : ∃ r, (4096 - img.length) % 4 = r := ⟨_, rfl⟩
  have hmod : x.top % pgsize % 4 = r := by
    rw [htop]
    show (q * 4096 + (4096 - img.length)) % 4096 % 4 = r
    omega
  obtain ⟨pad, hpad, hon⟩ := h.skip h1 h2 (n := r) (show img.length + r ≤ 4096 by omega)
  rw [hmod]
  refine ⟨pad, ?_, hon⟩
  rw [List.length_append, hpad]
  omega

/-! ## The pushes -/

theorem pushString (str : List UInt8) (h : OnPage s q x img) (h1 : 1 ≤ q) (h2 : q < phyPage)
    (hn : x.argvVa.length < maxArgsNum) (hb : img.length + (str.length + 1) ≤ pgsize) :
    ∃ y, x.pushString str = some y ∧ OnPage s q y (str ++ [0] ++ img) ∧
      y.argvVa = x.argvVa ++ [usrMem - (img.length + (str.length + 1))] := by
  have hlen : (str ++ [0]).length = str.length + 1 := List.length_append
  have hsmall : str.length + 1 ≤ 4096 := le_trans (Nat.le_add_left _ _) hb
  obtain ⟨y, hy, hon, hva⟩ := h.write (str ++ [0]) h1 h2 (by rw [hlen]; exact hb)
  rw [hlen] at hy
  refine ⟨{ y with argvVa := y.argvVa ++ [y.va] }, ?_, ⟨hon.fits, hon.top, hon.read, hon.vm, hon.log⟩, ?_⟩
  · unfold ArgStack.pushString
    rw [if_pos hn, uint32_of_lt (by omega), hy]
    rfl
  · show y.argvVa ++ [y.va] = _
    rw [hva, hon.va_eq (by simp), List.length_append, hlen, Nat.add_comm]

theorem pushWord (h : OnPage s q x img) (h1 : 1 ≤ q) (h2 : q < phyPage) (hb : img.length + 4 ≤ pgsize) :
    ∃ y, x.pushWord v = some y ∧ OnPage s q y (le32 v ++ img) ∧ y.argvVa = x.argvVa := by
  unfold ArgStack.pushWord
  rw [← Store.le32_length v] at hb ⊢
  exact h.write (le32 v) h1 h2 hb

theorem pushString_fits (h : OnPage s q x img) (h1 : 1 ≤ q) (h2 : q < phyPage) (he : x.pushString str = some y)
    (hlog : ∀ a ∈ y.log, a / pgsize = q) : x.argvVa.length < maxArgsNum ∧ img.length + (str.length + 1) ≤ pgsize := by
  unfold ArgStack.pushString at he
  split at he
  · next hn =>
    obtain ⟨z, hz, he⟩ := Option.bind_eq_some_iff.1 he
    cases he
    have hlen : (str ++ [0]).length = str.length + 1 := List.length_append
    rw [← hlen] at hz ⊢
    exact ⟨hn, h.write_fits (str ++ [0]) h1 h2 (by simp) hz hlog⟩
  · cases he

theorem pushWord_fits (h : OnPage s q x img) (h1 : 1 ≤ q) (h2 : q < phyPage) (he : x.pushWord v = some y)
    (hlog : ∀ a ∈ y.log, a / pgsize = q) : img.length + 4 ≤ pgsize :=
  h.write_fits (le32 v) h1 h2 (by simp [le32]) he hlog

end OnPage

namespace ArgStack

variable {x y : ArgStack} {l : List Nat}

theorem write_log (he : x.write bs = some y) : x.log ⊆ y.log := by
  obtain ⟨s', -, he⟩ := Option.bind_eq_some_iff.1 he
  cases he
  exact List.subset_append_left _ _

theorem pushString_log (he : x.pushString str = some y) : x.log ⊆ y.log := by
  unfold pushString at he
  split at he
  · obtain ⟨z, hz, he⟩ := Option.bind_eq_some_iff.1 he
    cases he
    have hlog := write_log hz
    rwa [down_log] at hlog
  · cases he

theorem pushWord_log (he : x.pushWord v = some y) : x.log ⊆ y.log := by
  have hlog := write_log he
  rwa [down_log] at hlog

theorem foldlM_log {α : Type} {f : ArgStack → α → Option ArgStack} (hf : ∀ x a y, f x a = some y → x.log ⊆ y.log)
    {l : List α} (he : l.foldlM f x = some y) : x.log ⊆ y.log := by
  induction l generalizing x with
  | nil =>
    cases he
    exact fun _ ha => ha
  | cons a l ih =>
    rw [List.foldlM_cons] at he
    obtain ⟨z, hz, he⟩ := Option.bind_eq_some_iff.1 he
    exact List.Subset.trans (hf x a z hz) (ih he)

end ArgStack

/-! ## The loops -/

/-- The strings on the page, the last one first, before what is there. -/
def strings (img : List UInt8) : List (List UInt8) → List UInt8
  | [] => img
  | str :: argv => strings (str ++ [0] ++ img) argv

/-- The user addresses of the strings, when `c` bytes come behind them. -/
def addrs (c : Nat) : List (List UInt8) → List Nat
  | [] => []
  | str :: argv => (usrMem - (c + (str.length + 1))) :: addrs (c + (str.length + 1)) argv

/-- The bytes of the strings. -/
def argBytes (argv : List (List UInt8)) : Nat := (argv.map fun str => str.length + 1).sum

theorem argBytes_cons : argBytes (str :: argv) = str.length + 1 + argBytes argv := List.sum_cons

theorem strings_length : (strings img argv).length = img.length + argBytes argv := by
  induction argv generalizing img with
  | nil => rfl
  | cons str argv ih =>
    unfold strings
    rw [ih, argBytes_cons, List.length_append, List.length_append, List.length_singleton]
    omega

theorem addrs_length : (addrs c argv).length = argv.length := by
  induction argv generalizing c with
  | nil => rfl
  | cons str argv ih =>
    unfold addrs
    rw [List.length_cons, ih, List.length_cons]

namespace OnPage

open ArgStack

variable {x y z : ArgStack} {l : List Nat}

theorem pushStrings (argv : List (List UInt8)) (h : OnPage s q x img) (h1 : 1 ≤ q) (h2 : q < phyPage)
    (hn : x.argvVa.length + argv.length ≤ maxArgsNum) (hb : img.length + argBytes argv ≤ pgsize) :
    ∃ y, argv.foldlM ArgStack.pushString x = some y ∧
      OnPage s q y (strings img argv) ∧ y.argvVa = x.argvVa ++ addrs img.length argv := by
  induction argv generalizing x img with
  | nil => exact ⟨x, rfl, h, (List.append_nil _).symm⟩
  | cons str argv ih =>
    rw [argBytes_cons] at hb
    rw [List.length_cons] at hn
    obtain ⟨y, hy, hon, hva⟩ := h.pushString str h1 h2 (by omega) (le_trans (by omega) hb)
    have hlen : (str ++ [0] ++ img).length = img.length + (str.length + 1) := by
      rw [List.length_append, List.length_append, List.length_singleton]
      omega
    have hn' : y.argvVa.length + argv.length ≤ maxArgsNum := by
      rw [hva, List.length_append, List.length_singleton]
      omega
    obtain ⟨z, hz, hon', hva'⟩ := ih hon hn' (by rw [hlen]; omega)
    refine ⟨z, ?_, hon', ?_⟩
    · rw [List.foldlM_cons, hy]
      exact hz
    · rw [hva', hva, hlen, List.append_assoc]
      rfl

theorem pushStrings_fits (h : OnPage s q x img) (h1 : 1 ≤ q) (h2 : q < phyPage)
    (he : argv.foldlM ArgStack.pushString x = some y) (hlog : ∀ a ∈ y.log, a / pgsize = q) :
    img.length + argBytes argv ≤ pgsize := by
  induction argv generalizing x img with
  | nil => exact h.fits
  | cons str argv ih =>
    rw [List.foldlM_cons] at he
    obtain ⟨z, hz, he⟩ := Option.bind_eq_some_iff.1 he
    have hsub : z.log ⊆ y.log := foldlM_log (fun _ _ _ => pushString_log) he
    obtain ⟨hn, hb⟩ := h.pushString_fits h1 h2 hz fun a ha => hlog a (hsub ha)
    obtain ⟨z', hz', hon, -⟩ := h.pushString str h1 h2 hn hb
    cases hz.symm.trans hz'
    have hrest := ih hon he
    rw [List.length_append, List.length_append, List.length_singleton] at hrest
    rw [argBytes_cons]
    omega

theorem pushWords (h : OnPage s q x img) (h1 : 1 ≤ q) (h2 : q < phyPage) (hb : img.length + 4 * l.length ≤ pgsize) :
    ∃ y, l.foldlM ArgStack.pushWord x = some y ∧ OnPage s q y (l.reverse.flatMap le32 ++ img) ∧
    y.argvVa = x.argvVa := by
  induction l generalizing x img with
  | nil => exact ⟨x, rfl, h, rfl⟩
  | cons v l ih =>
    rw [List.length_cons] at hb
    obtain ⟨y, hy, hon, hva⟩ := h.pushWord h1 h2 (v := v) (le_trans (by omega) hb)
    have hlen : (le32 v ++ img).length = img.length + 4 := by
      rw [List.length_append, Store.le32_length, Nat.add_comm]
    obtain ⟨z, hz, hon', hva'⟩ := ih hon (by rw [hlen]; omega)
    refine ⟨z, ?_, ?_, hva'.trans hva⟩
    · rw [List.foldlM_cons, hy]
      exact hz
    · rw [List.reverse_cons, List.flatMap_append, List.flatMap_singleton, List.append_assoc]
      exact hon'

theorem pushWords_fits (h : OnPage s q x img) (h1 : 1 ≤ q) (h2 : q < phyPage)
    (he : l.foldlM ArgStack.pushWord x = some y) (hlog : ∀ a ∈ y.log, a / pgsize = q) :
    img.length + 4 * l.length ≤ pgsize := by
  induction l generalizing x img with
  | nil => exact h.fits
  | cons v l ih =>
    rw [List.foldlM_cons] at he
    obtain ⟨z, hz, he⟩ := Option.bind_eq_some_iff.1 he
    have hsub : z.log ⊆ y.log := foldlM_log (fun _ _ _ => pushWord_log) he
    have hb : img.length + 4 ≤ pgsize := h.pushWord_fits h1 h2 hz fun a ha => hlog a (hsub ha)
    obtain ⟨z', hz', hon, -⟩ := h.pushWord h1 h2 (v := v) hb
    cases hz.symm.trans hz'
    have hrest := ih hon he
    rw [List.length_append, Store.le32_length] at hrest
    rw [List.length_cons]
    omega

end OnPage

/-! ## The page -/

/-- The bytes of the strings, of the padding and of the pointers. -/
def stackBytes (argv : List (List UInt8)) : Nat := (argBytes argv + 3) / 4 * 4 + 4 * (argv.length + 1)

/-- The end of the page from the array of pointers on. -/
def arrayBytes (pad : List UInt8) (argv : List (List UInt8)) : List UInt8 :=
  (addrs 0 argv ++ [0]).flatMap le32 ++ (pad ++ strings [] argv)

/-- The padding is up to a multiple of 4. -/
def Pads (pad : List UInt8) (argv : List (List UInt8)) :
    Prop := (pad ++ strings [] argv).length = (argBytes argv + 3) / 4 * 4

theorem arrayBytes_length {pad : List UInt8} (h : Pads pad argv) : (arrayBytes pad argv).length = stackBytes argv := by
  unfold arrayBytes stackBytes
  rw [List.length_append, h, Store.words_length, List.length_append, addrs_length, List.length_singleton, Nat.add_comm]

theorem onPage_nil (h2 : q < phyPage) : OnPage s q ⟨s, uint32 (q * pgsize + pgsize), [], []⟩ [] where
  fits := Nat.zero_le _
  top := by
    have hq : q < 32768 := h2
    exact uint32_of_lt (show q * 4096 + 4096 < 2 ^ 32 by omega)
  read := rfl
  vm := by
    unfold setPage
    simp
  log a ha := by cases ha

theorem loadArg_some (h1 : 1 ≤ q) (h2 : q < phyPage)
    (hw : s.walk d (usrMem - pgsize) (pteP ||| pteW ||| pteU) = some (q * pgsize, s')) (hn : argv.length ≤ maxArgsNum)
    (hb : stackBytes argv + 8 ≤ pgsize) :
    ∃ pad x, Pads pad argv ∧ x.argvVa = addrs 0 argv ∧
      OnPage s' q x (le32 argv.length ++ (le32 (usrMem - stackBytes argv) ++ arrayBytes pad argv)) ∧
      loadArg s d argv = some ((x.down 4).va, usrMem - stackBytes argv, x.down 4) := by
  have hb' : (argBytes argv + 3) / 4 * 4 + 4 * (argv.length + 1) + 8 ≤ 4096 := hb
  obtain ⟨x₁, hx₁, hon₁, hva₁⟩ := (onPage_nil (s := s') h2).pushStrings argv h1 h2 (by
    rw [List.length_nil, Nat.zero_add]
    exact hn) (show 0 + argBytes argv ≤ 4096 by omega)
  have hva₁' : x₁.argvVa = addrs 0 argv := hva₁
  obtain ⟨pad, hpad, hon₂⟩ := hon₁.align h1 h2
  have hpads : Pads pad argv := by
    rw [strings_length, List.length_nil, Nat.zero_add] at hpad
    exact hpad
  generalize hx₂ : x₁.down (x₁.top % pgsize % 4) = x₂ at hon₂
  have hva₂ : x₂.argvVa = addrs 0 argv := by
    rw [← hx₂, ArgStack.down_argvVa, hva₁']
  have hlen : (addrs 0 argv ++ [0]).reverse.length = argv.length + 1 := by
    rw [List.length_reverse, List.length_append, addrs_length, List.length_singleton]
  obtain ⟨x₃, hx₃, hon₃, hva₃⟩ := hon₂.pushWords h1 h2 (l := (addrs 0 argv ++ [0]).reverse) (by
    rw [hpads, hlen]
    exact le_trans (Nat.le_add_right _ 8) hb)
  rw [List.reverse_reverse] at hon₃
  have hon₃' : OnPage s' q x₃ (arrayBytes pad argv) := hon₃
  have hlen₃ : (arrayBytes pad argv).length = stackBytes argv := arrayBytes_length hpads
  have hne : arrayBytes pad argv ≠ [] := by
    refine List.ne_nil_of_length_pos ?_
    rw [hlen₃]
    unfold stackBytes
    omega
  have hva : x₃.va = usrMem - stackBytes argv := by
    rw [hon₃'.va_eq hne, hlen₃]
  obtain ⟨x₄, hx₄, hon₄, hva₄⟩ := hon₃'.pushWord h1 h2 (v := usrMem - stackBytes argv) (by
    rw [hlen₃]
    exact le_trans (Nat.le_add_right _ 4) hb)
  obtain ⟨x₅, hx₅, hon₅, hva₅⟩ := hon₄.pushWord h1 h2 (v := argv.length) (by
    rw [List.length_append, Store.le32_length, hlen₃, Nat.add_comm 4, Nat.add_assoc]
    exact hb)
  refine ⟨pad, x₅, hpads, ?_, hon₅, ?_⟩
  · rw [hva₅, hva₄, hva₃, hva₂]
  · have hargc : x₁.argvVa.length = argv.length := by
      rw [hva₁', addrs_length]
    rw [← hva₂, ← hx₂] at hx₃
    rw [← hva] at hx₄ ⊢
    rw [← hargc] at hx₅
    unfold loadArg
    refine Option.bind_eq_some_iff.2 ⟨_, hw, ?_⟩
    refine Option.bind_eq_some_iff.2 ⟨_, hx₁, ?_⟩
    refine Option.bind_eq_some_iff.2 ⟨_, hx₃, ?_⟩
    refine Option.bind_eq_some_iff.2 ⟨_, hx₄, ?_⟩
    exact Option.bind_eq_some_iff.2 ⟨_, hx₅, rfl⟩

/-- The converse: the bytes of the strings are on the page, then those of the pointers, then the two words. -/
theorem loadArg_fits (h1 : 1 ≤ q) (h2 : q < phyPage)
    (hw : s.walk d (usrMem - pgsize) (pteP ||| pteW ||| pteU) = some (q * pgsize, s')) (hn : argv.length ≤ maxArgsNum)
    {x : ArgStack} (he : loadArg s d argv = some (o, a, x)) (hlog : ∀ a ∈ x.log, a / pgsize = q) :
    stackBytes argv + 8 ≤ pgsize := by
  unfold loadArg at he
  obtain ⟨r, hw', he⟩ := Option.bind_eq_some_iff.1 he
  cases hw.symm.trans hw'
  obtain ⟨x₁, hx₁, he⟩ := Option.bind_eq_some_iff.1 he
  obtain ⟨x₃, hx₃, he⟩ := Option.bind_eq_some_iff.1 he
  obtain ⟨x₄, hx₄, he⟩ := Option.bind_eq_some_iff.1 he
  obtain ⟨x₅, hx₅, he⟩ := Option.bind_eq_some_iff.1 he
  have hx : x₅.down 4 = x := (Prod.mk.inj (Prod.mk.inj (Option.some.inj he)).2).2
  rw [← hx, ArgStack.down_log] at hlog
  have hlog₄ : ∀ a ∈ x₄.log, a / pgsize = q := fun a ha => hlog a (ArgStack.pushWord_log hx₅ ha)
  have hlog₃ : ∀ a ∈ x₃.log, a / pgsize = q := fun a ha => hlog₄ a (ArgStack.pushWord_log hx₄ ha)
  have hlog₁ : ∀ a ∈ x₁.log, a / pgsize = q := by
    intro a ha
    refine hlog₃ a (ArgStack.foldlM_log (fun _ _ _ => ArgStack.pushWord_log) hx₃ ?_)
    rw [ArgStack.down_log]
    exact ha
  have hfits₁ := (onPage_nil (s := s') h2).pushStrings_fits h1 h2 hx₁ hlog₁
  obtain ⟨y₁, hy₁, hon₁, hva₁⟩ := (onPage_nil (s := s') h2).pushStrings argv h1 h2 (by
    rw [List.length_nil, Nat.zero_add]
    exact hn) hfits₁
  cases hx₁.symm.trans hy₁
  obtain ⟨pad, hpad, hon₂⟩ := hon₁.align h1 h2
  have hlen : ((x₁.down (x₁.top % pgsize % 4)).argvVa ++ [0]).reverse.length = argv.length + 1 := by
    rw [ArgStack.down_argvVa, hva₁, List.nil_append, List.length_reverse, List.length_append, addrs_length,
      List.length_singleton]
  obtain ⟨y₃, hy₃, hon₃, -⟩ := hon₂.pushWords h1 h2 (hon₂.pushWords_fits h1 h2 hx₃ hlog₃)
  cases hx₃.symm.trans hy₃
  have hfits₄ := hon₃.pushWord_fits h1 h2 hx₄ hlog₄
  obtain ⟨y₄, hy₄, hon₄, -⟩ := hon₃.pushWord h1 h2 (v := x₃.va) hfits₄
  cases hx₄.symm.trans hy₄
  have hfits₅ := hon₄.pushWord_fits h1 h2 hx₅ hlog
  rw [List.length_append, Store.le32_length, List.length_append, List.reverse_reverse, hpad, Store.words_length,
    ← List.length_reverse, hlen, strings_length, List.length_nil, Nat.zero_add] at hfits₅
  unfold stackBytes
  omega

end TinyOS.Vm
