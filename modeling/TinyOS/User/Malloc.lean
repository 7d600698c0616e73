/-
`malloc`, `free`, `morecore` and `sbrk` of user/ulib/stdlib.c, and the list of free blocks that they
keep: a cycle through `base` in the order of the addresses, where blocks that touch are joined.
-/
import TinyOS.Lib.Bytes
import TinyOS.Lib.Cycle
import TinyOS.Lib.Tiles
import TinyOS.Vm.Basic

namespace TinyOS.Malloc

open TinyOS.Lib

/-! ## The functions -/

/-- Where the linker puts `base` and `end`. -/
structure Layout where
  base : Nat
  stop : Nat
  base_pos : 0 < base
  base_stop : base + 8 ≤ stop
  stop_lt : stop + 4095 < 2 ^ 32

/-- The memory of a process, and the statics `freep` and `old_brk`. -/
structure Heap where
  mem : Store
  freep : Nat
  oldBrk : Nat

/-- The fields of the header at `p`. -/
def ptr (m : Store) (p : Nat) : Nat := m.word p
def size (m : Store) (p : Nat) : Nat := m.word (p + 4)
def setPtr (m : Store) (p v : Nat) : Store := m.setWord p v
def setSize (m : Store) (p v : Nat) : Store := m.setWord (p + 4) v

/-- `p + n` for a pointer to a header. -/
def ahead (p n : Nat) : Nat := uint32 (p + 8 * n)

/-- `(void *)-1`. -/
def minusOne : Nat := 2 ^ 32 - 1

/-- `sbrk`; `brk a` tells whether the system call grants the break `a`. Nothing is returned when the
assertion fails. -/
def sbrk (ly : Layout) (brk : Nat → Bool) (h : Heap) (increment : Nat) : Option (Nat × Heap) := do
  let h ← if h.oldBrk = 0 then
      if brk (Vm.pageUp ly.stop) then some { h with oldBrk := Vm.pageUp ly.stop } else none
    else some h
  if brk (uint32 (h.oldBrk + increment)) then
    return (h.oldBrk, { h with oldBrk := uint32 (h.oldBrk + increment) })
  else
    return (minusOne, h)

/-- The loop of `free` stops at `p`: `bp` belongs between `p` and the next block, or the list wraps
around at `p`. -/
def fits (m : Store) (bp p : Nat) : Bool :=
  (bp > p && bp < ptr m p) || (p ≥ ptr m p && (bp > p || bp < ptr m p))

/-- Put `q` behind `a`, or join it to `a` when they touch. -/
def attach (m : Store) (a q : Nat) : Store :=
  if ahead a (size m a) = q then
    let m := setSize m a (uint32 (size m a + size m q))
    setPtr m a (ptr m q)
  else setPtr m a q

def free (fuel : Nat) (h : Heap) (ap : Nat) : Option Heap :=
  let bp := usub32 ap 8
  (follow (ptr h.mem) (fits h.mem bp) fuel h.freep).map fun p =>
    let m := attach h.mem bp (ptr h.mem p)
    { h with mem := attach m p bp, freep := p }

/-- The units that `morecore` asks for. -/
def asked (nu : Nat) : Nat := if nu < 4096 then 4096 else nu

/-- `NULL` is 0. -/
def morecore (ly : Layout) (brk : Nat → Bool) (fuel : Nat) (h : Heap) (nu : Nat) : Option (Nat × Heap) := do
  let nu := asked nu
  let (p, h) ← sbrk ly brk h (uint32 (nu * 8))
  if p = minusOne then return (0, h)
  let h ← free fuel { h with mem := setSize h.mem p nu } (ahead p 1)
  return (h.freep, h)

/-- The block of `nunits` units taken out of the free block `p`, of which it is the end. -/
def carve (m : Store) (nunits prevp p : Nat) : Nat × Store :=
  if size m p = nunits then (p, setPtr m prevp (ptr m p))
  else
    let m := setSize m p (size m p - nunits)
    let p := ahead p (size m p)
    (p, setSize m p nunits)

/-- The loop of `malloc`. -/
def search (ly : Layout) (brk : Nat → Bool) (nunits : Nat) : Nat → Heap → Nat → Nat → Option (Nat × Heap)
  | 0, _, _, _ => none
  | fuel + 1, h, prevp, p =>
    if size h.mem p ≥ nunits then
      let (p, m) := carve h.mem nunits prevp p
      some (ahead p 1, { h with mem := m, freep := prevp })
    else if p = h.freep then do
      let (p, h) ← morecore ly brk fuel h nunits
      if p = 0 then return (0, h)
      search ly brk nunits fuel h p (ptr h.mem p)
    else search ly brk nunits fuel h p (ptr h.mem p)

/-- The first call makes `base` the only node of the list. -/
def Heap.start (ly : Layout) (h : Heap) : Heap :=
  if h.freep = 0 then { h with mem := setSize (setPtr h.mem ly.base ly.base) ly.base 0, freep := ly.base } else h

def units (nbytes : Nat) : Nat := uint32 (nbytes + 7) / 8 + 1

def malloc (ly : Layout) (brk : Nat → Bool) (fuel : Nat) (h : Heap) (nbytes : Nat) : Option (Nat × Heap) :=
  let h := h.start ly
  search ly brk (units nbytes) fuel h h.freep (ptr h.mem h.freep)

/-! ## More fuel -/

theorem free_mono {fuel p : Nat} {h h' : Heap} (he : free fuel h p = some h') : free (fuel + 1) h p = some h' := by
  simp only [free, Option.map_eq_some_iff] at he ⊢
  obtain ⟨q, hq, he⟩ := he
  exact ⟨q, follow_mono hq, he⟩

theorem morecore_mono {ly : Layout} {brk : Nat → Bool} {fuel n : Nat} {h : Heap} {r : Nat × Heap}
    (he : morecore ly brk fuel h n = some r) : morecore ly brk (fuel + 1) h n = some r := by
  simp only [morecore, Option.bind_eq_bind, Option.bind_eq_some_iff] at he ⊢
  obtain ⟨x, hs, he⟩ := he
  refine ⟨x, hs, ?_⟩
  split
  · next hp => rwa [if_pos hp] at he
  · next hp =>
    rw [if_neg hp] at he
    obtain ⟨h₂, hf, he⟩ := Option.bind_eq_some_iff.1 he
    exact Option.bind_eq_some_iff.2 ⟨h₂, free_mono hf, he⟩

theorem search_mono {ly : Layout} {brk : Nat → Bool} {n fuel p q : Nat} {h : Heap} {r : Nat × Heap}
    (he : search ly brk n fuel h p q = some r) : search ly brk n (fuel + 1) h p q = some r := by
  induction fuel generalizing h p q with
  | zero => cases he
  | succ fuel ih =>
    rw [search] at he ⊢
    split
    · next hs => rwa [if_pos hs] at he
    · next hs =>
      rw [if_neg hs] at he
      split
      · next hq =>
        rw [if_pos hq] at he
        obtain ⟨⟨p', h₁⟩, hm, he⟩ := Option.bind_eq_some_iff.1 he
        refine Option.bind_eq_some_iff.2 ⟨⟨p', h₁⟩, morecore_mono hm, ?_⟩
        dsimp only at he ⊢
        split
        · next h0 => rwa [if_pos h0] at he
        · next h0 =>
          rw [if_neg h0] at he
          exact ih he
      · next hq =>
        rw [if_neg hq] at he
        exact ih he

theorem search_le {ly : Layout} {brk : Nat → Bool} {n fuel k p q : Nat} {h : Heap} {r : Nat × Heap}
    (he : search ly brk n fuel h p q = some r) (hk : fuel ≤ k) : search ly brk n k h p q = some r := by
  induction hk with
  | refl => exact he
  | step _ ih => exact search_mono ih

theorem free_le {fuel k p : Nat} {h h' : Heap} (he : free fuel h p = some h') (hk : fuel ≤ k) :
    free k h p = some h' := by
  induction hk with
  | refl => exact he
  | step _ ih => exact free_mono ih

/-! ## Headers -/

variable {m m' : Store} {a b p q t v n : Nat}

/-- Two headers do not overlap. -/
def Apart (a b : Nat) : Prop := a + 8 ≤ b ∨ b + 8 ≤ a

theorem ptr_congr (h : ∀ i < 8, m' (a + i) = m (a + i)) : ptr m' a = ptr m a :=
  Store.word_congr fun i hi => h i (by omega)

theorem size_congr (h : ∀ i < 8, m' (a + i) = m (a + i)) : size m' a = size m a :=
  Store.word_congr fun i hi => by simpa only [Nat.add_assoc] using h (4 + i) (by omega)

theorem setPtr_out {x : Nat} (h : x < a ∨ a + 8 ≤ x) : setPtr m a v x = m x :=
  Store.write_out (by simp; omega)

theorem setSize_out {x : Nat} (h : x < a ∨ a + 8 ≤ x) : setSize m a v x = m x :=
  Store.write_out (by simp; omega)

theorem ptr_setPtr (hv : v < 2 ^ 32) : ptr (setPtr m a v) a = v := Store.word_setWord_self hv

theorem size_setSize (hv : v < 2 ^ 32) : size (setSize m a v) a = v := Store.word_setWord_self hv

@[simp] theorem size_setPtr : size (setPtr m a v) a = size m a :=
  Store.word_setWord_of_disjoint (Or.inr (by omega))

@[simp] theorem ptr_setSize : ptr (setSize m a v) a = ptr m a :=
  Store.word_setWord_of_disjoint (Or.inl (by omega))

theorem ptr_setSize_apart (h : Apart a b) : ptr (setSize m a v) b = ptr m b :=
  ptr_congr fun i hi => setSize_out (by unfold Apart at h; omega)

theorem ptr_lt : ptr m a < 2 ^ 32 := Store.word_lt

theorem size_lt : size m a < 2 ^ 32 := Store.word_lt

/-! ## Blocks -/

/-- A block of `size` units with its header at `addr`. -/
structure Block where
  addr : Nat
  size : Nat
deriving DecidableEq

namespace Block

def stop (b : Block) : Nat := b.addr + 8 * b.size

def bytes (b : Block) : Nat × Nat := (b.addr, b.stop)

@[simp] theorem bytes_fst (b : Block) : b.bytes.1 = b.addr := rfl

@[simp] theorem bytes_snd (b : Block) : b.bytes.2 = b.stop := rfl

/-- `a` lies before `b`, and does not touch it. -/
def Before (a b : Block) : Prop := a.addr + 8 ≤ b.addr ∧ a.stop < b.addr

end Block

/-- The blocks `ns`, one behind the other, and `t` behind the last one. -/
structure Chain (m : Store) (ns : List Block) (t : Nat) : Prop where
  path : Path (ptr m) (ns.map Block.addr) t
  sizes : ∀ b ∈ ns, size m b.addr = b.size

/-- The first address of a list of blocks before `t`. -/
def first (t : Nat) (ns : List Block) : Nat := (ns.map Block.addr).headD t

/-- `a` in front of a list of blocks, joined to the first one when they touch. -/
def absorb (a : Block) : List Block → List Block
  | [] => [a]
  | b :: r => if a.stop = b.addr then ⟨a.addr, a.size + b.size⟩ :: r else a :: b :: r

variable {ns l r live : List Block} {c d : Block}

@[simp] theorem first_nil : first t [] = t := rfl

@[simp] theorem first_cons : first t (c :: l) = c.addr := rfl

@[simp] theorem first_absorb : first t (absorb c r) = c.addr := by
  cases r with
  | nil => rfl
  | cons b r =>
    rw [absorb]
    split <;> rfl

theorem chain_append : Chain m (l ++ r) t ↔ Chain m l (first t r) ∧ Chain m r t := by
  constructor
  · rintro ⟨hp, hs⟩
    rw [List.map_append, path_append] at hp
    exact ⟨⟨hp.1, fun b hb => hs b (by simp [hb])⟩, ⟨hp.2, fun b hb => hs b (by simp [hb])⟩⟩
  · rintro ⟨⟨hp, hs⟩, hq, hs'⟩
    refine ⟨by rw [List.map_append, path_append]; exact ⟨hp, hq⟩, fun b hb => ?_⟩
    rcases List.mem_append.1 hb with hb | hb
    · exact hs b hb
    · exact hs' b hb

theorem chain_cons : Chain m (c :: r) t ↔ (ptr m c.addr = first t r ∧ size m c.addr = c.size) ∧ Chain m r t := by
  constructor
  · rintro ⟨⟨hn, hp⟩, hs⟩
    exact ⟨⟨hn, hs c List.mem_cons_self⟩, hp, fun b hb => hs b (List.mem_cons_of_mem c hb)⟩
  · rintro ⟨⟨hn, hc⟩, hp, hs⟩
    exact ⟨⟨hn, hp⟩, by simpa using ⟨hc, hs⟩⟩

/-- A chain is a matter of its headers. -/
theorem Chain.congr (h : Chain m ns t) (hm : ∀ b ∈ ns, ∀ i < 8, m' (b.addr + i) = m (b.addr + i)) : Chain m' ns t := by
  refine ⟨(path_congr fun a ha => ?_).2 h.path, fun b hb => (size_congr (hm b hb)).trans (h.sizes b hb)⟩
  obtain ⟨b, hb, rfl⟩ := List.mem_map.1 ha
  exact ptr_congr (hm b hb)

/-- `attach` writes to one header only. -/
theorem attach_out {x : Nat} (h : x < a ∨ a + 8 ≤ x) : attach m a q x = m x := by
  unfold attach
  split
  · rw [setPtr_out h, setSize_out h]
  · exact setPtr_out h

/-- What `attach` does to the list behind `a`. -/
theorem attach_chain (h : Chain m r t) (hc : size m c.addr = c.size) (ht : t < 2 ^ 32) (hlt : c.stop < 2 ^ 32)
    (hstop : r = [] → c.stop ≠ t) (hr : ∀ b ∈ r, c.addr + 8 ≤ b.addr ∧ b.stop < 2 ^ 32) :
    Chain (attach m c.addr (first t r)) (absorb c r) t := by
  have hout : ∀ b ∈ r, ∀ i < 8, attach m c.addr (first t r) (b.addr + i) = m (b.addr + i) := by
    intro b hb i _
    have := (hr b hb).1
    exact attach_out (by omega)
  have hahead : ahead c.addr (size m c.addr) = c.stop := by rw [hc]; exact uint32_of_lt hlt
  cases r with
  | nil =>
    have hne : ¬ ahead c.addr (size m c.addr) = first t [] := hahead ▸ hstop rfl
    refine chain_cons.2 ⟨⟨?_, ?_⟩, ⟨trivial, by simp⟩⟩ <;> rw [attach, if_neg hne]
    · exact ptr_setPtr ht
    · rw [size_setPtr, hc]
  | cons b r =>
    obtain ⟨⟨hn, hs⟩, hch⟩ := chain_cons.1 h
    have hb := hr b List.mem_cons_self
    unfold Block.stop at hb
    by_cases hj : c.stop = b.addr
    · have hsum : c.size + b.size < 2 ^ 32 := by
        unfold Block.stop at hj
        omega
      have hap : Apart c.addr b.addr := Or.inl hb.1
      rw [absorb, if_pos hj]
      refine chain_cons.2 ⟨⟨?_, ?_⟩, hch.congr fun d hd => hout d (List.mem_cons_of_mem b hd)⟩ <;>
        simp only [attach, hahead, first_cons, if_pos hj, ptr_setSize_apart hap]
      · rw [ptr_setPtr ptr_lt, hn]
      · rw [size_setPtr, size_setSize (uint32_lt _), hc, hs, uint32_of_lt hsum]
    · rw [absorb, if_neg hj]
      refine chain_cons.2 ⟨⟨?_, ?_⟩, h.congr hout⟩ <;> simp only [attach, hahead, first_cons, if_neg hj]
      · exact ptr_setPtr (by omega)
      · rw [size_setPtr, hc]

/-! ## The list with one more block -/

/-- The order, the sizes and the bytes of a list with `c` in front. -/
theorem absorb_order (h : r.Pairwise Block.Before) (hc : ∀ b ∈ r, c.addr + 8 ≤ b.addr ∧ c.stop ≤ b.addr) :
    (absorb c r).Pairwise Block.Before := by
  cases r with
  | nil => simp [absorb]
  | cons b r =>
    obtain ⟨hb, hr⟩ := List.pairwise_cons.1 h
    have hcb := hc b List.mem_cons_self
    rw [absorb]
    split
    · next hj =>
      refine List.pairwise_cons.2 ⟨fun d hd => ?_, hr⟩
      have := hb d hd
      simp only [Block.Before, Block.stop] at this hj ⊢
      omega
    · next hj =>
      refine List.pairwise_cons.2 ⟨fun d hd => ?_, h⟩
      rcases List.mem_cons.1 hd with rfl | hd
      · exact ⟨hcb.1, lt_of_le_of_ne hcb.2 hj⟩
      · have := hb d hd
        simp only [Block.Before, Block.stop] at this hcb ⊢
        omega

theorem addr_le_absorb (hc : ∀ b ∈ r, c.addr ≤ b.addr) (hd : d ∈ absorb c r) : c.addr ≤ d.addr := by
  cases r with
  | nil => simp [absorb] at hd; simp [hd]
  | cons b r =>
    rw [absorb] at hd
    split at hd <;> rcases List.mem_cons.1 hd with rfl | hd
    · exact le_rfl
    · exact hc d (List.mem_cons_of_mem b hd)
    · exact le_rfl
    · exact hc d hd

theorem absorb_full (hr : ∀ b ∈ r, 0 < b.size) (hd : d ∈ absorb c r) : d = c ∨ 0 < d.size := by
  cases r with
  | nil => simp [absorb] at hd; exact Or.inl hd
  | cons b r =>
    rw [absorb] at hd
    split at hd <;> rcases List.mem_cons.1 hd with rfl | hd
    · exact Or.inr (Nat.add_pos_right _ (hr b List.mem_cons_self))
    · exact Or.inr (hr d (List.mem_cons_of_mem b hd))
    · exact Or.inl rfl
    · exact Or.inr (hr d hd)

theorem absorb_stop {N : Nat} (hc : c.stop < N) (hr : ∀ b ∈ r, b.stop < N) (hd : d ∈ absorb c r) : d.stop < N := by
  cases r with
  | nil => simp [absorb] at hd; rwa [hd]
  | cons b r =>
    rw [absorb] at hd
    split at hd <;> rcases List.mem_cons.1 hd with rfl | hd
    · next hj =>
      have := hr b List.mem_cons_self
      simp only [Block.stop] at hj this ⊢
      omega
    · exact hr d (List.mem_cons_of_mem b hd)
    · exact hc
    · exact hr d hd

theorem exists_absorb (c : Block) (r : List Block) : ∃ e r', absorb c r = e :: r' ∧ e.addr = c.addr := by
  cases r with
  | nil => exact ⟨c, [], rfl, rfl⟩
  | cons b r =>
    rw [absorb]
    split
    · exact ⟨_, r, rfl, rfl⟩
    · exact ⟨c, b :: r, rfl, rfl⟩

theorem absorb_tiles {L : List (Nat × Nat)} {R : Set Nat} :
    Tiles ((absorb c r).map Block.bytes ++ L) R ↔ Tiles ((c :: r).map Block.bytes ++ L) R := by
  cases r with
  | nil => rfl
  | cons b r =>
    rw [absorb]
    split
    · next hj =>
      have h1 : (⟨c.addr, c.size + b.size⟩ : Block).bytes = (c.addr, b.stop) := by
        simp only [Block.bytes, Block.stop] at hj ⊢
        rw [← hj]
        congr 1
        omega
      have h2 : b.bytes = (c.stop, b.stop) := by rw [hj]; rfl
      simp only [List.map_cons, List.cons_append, h1, h2]
      exact Tiles.split_iff (Nat.le_add_right _ _) (hj ▸ Nat.le_add_right _ _)
    · rfl

/-- The loop of `free` stops only where the block belongs. -/
theorem fits_iff (h : Chain m (l ++ c :: r) t) (ho : (l ++ c :: r).Pairwise Block.Before)
    (ht : ∀ b ∈ l ++ c :: r, t ≤ b.addr) (hta : t < a) : fits m a c.addr = true ↔ c.addr < a ∧ ∀ b ∈ r, a < b.addr := by
  obtain ⟨⟨hn, -⟩, -⟩ := chain_cons.1 (chain_append.1 h).2
  obtain ⟨-, ho, -⟩ := List.pairwise_append.1 ho
  obtain ⟨hc, ho⟩ := List.pairwise_cons.1 ho
  simp only [fits, hn, Bool.or_eq_true, Bool.and_eq_true, decide_eq_true_eq]
  cases r with
  | nil =>
    have := ht c (by simp)
    simp only [first_nil, List.not_mem_nil]
    constructor
    · rintro (h | h)
      · omega
      · exact ⟨by omega, by simp⟩
    · rintro ⟨h, -⟩
      exact Or.inr ⟨this, Or.inl h⟩
  | cons b r =>
    have hb := (hc b List.mem_cons_self).1
    have hr : ∀ d ∈ r, b.addr < d.addr := by
      intro d hd
      have := ((List.pairwise_cons.1 ho).1 d hd).1
      omega
    simp only [first_cons, List.forall_mem_cons]
    constructor
    · rintro (h | h)
      · exact ⟨h.1, h.2, fun d hd => h.2.trans (hr d hd)⟩
      · omega
    · rintro ⟨h1, h2, -⟩
      exact Or.inl ⟨h1, h2⟩

theorem exists_fits (ho : (c :: r).Pairwise Block.Before) (hc : c.addr < a) (hne : ∀ b ∈ c :: r, b.addr ≠ a) :
    ∃ l₁ d l₂, c :: r = l₁ ++ d :: l₂ ∧ d.addr < a ∧ ∀ b ∈ l₂, a < b.addr := by
  induction r generalizing c with
  | nil => exact ⟨[], c, [], rfl, hc, by simp⟩
  | cons b r ih =>
    have hr := (List.pairwise_cons.1 ho).2
    rcases lt_or_gt_of_ne (hne b (by simp)) with hb | hb
    · obtain ⟨l₁, d, l₂, heq, hd, hl₂⟩ := ih hr hb fun e he => hne e (List.mem_cons_of_mem c he)
      exact ⟨c :: l₁, d, l₂, by rw [heq]; rfl, hd, hl₂⟩
    · refine ⟨[], c, b :: r, rfl, hc, fun e he => ?_⟩
      rcases List.mem_cons.1 he with rfl | he
      · exact hb
      · have := ((List.pairwise_cons.1 hr).1 e he).1
        omega

end TinyOS.Malloc
