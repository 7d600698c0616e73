/-
The invariant of the heap of user/ulib/stdlib.c, and what `free`, `sbrk` and `malloc` do to it: the
blocks of the free list and those of the program tile the memory that `sbrk` gave, and a free stretch
of it, however it came about, is one block.
-/
import TinyOS.User.Malloc

namespace TinyOS.Malloc

open TinyOS.Lib

variable {m : Store} {a b n q : Nat} {ns l r live : List Block} {c d p : Block}

/-! ## Memory after `free` and `malloc` -/

/-- Where the blocks of the new list begin. -/
theorem insert_le (hpc : p.addr < c.addr) (hcr : ∀ b ∈ r, c.addr < b.addr) :
    (∀ b ∈ absorb c r, c.addr ≤ b.addr) ∧ ∀ b ∈ absorb p (absorb c r), p.addr ≤ b.addr := by
  have h1 : ∀ b ∈ absorb c r, c.addr ≤ b.addr := fun b hb => addr_le_absorb (fun e he => (hcr e he).le) hb
  exact ⟨h1, fun b hb => addr_le_absorb (fun e he => hpc.le.trans (h1 e he)) hb⟩

/-- The memory that `free` leaves. -/
@[irreducible] def inserted (m : Store) (c p : Nat) : Store := attach (attach m c (ptr m p)) p c

theorem insert_out {x : Nat} (h1 : x < a ∨ a + 8 ≤ x) (h2 : x < q ∨ q + 8 ≤ x) : inserted m a q x = m x := by
  rw [inserted, attach_out h2, attach_out h1]

/-- The last `n` units of a block, and the rest of it. -/
def tail (p : Block) (n : Nat) : Block := ⟨p.addr + 8 * (p.size - n), n⟩
def rest (p : Block) (n : Nat) : Block := ⟨p.addr, p.size - n⟩

/-- The memory when a block is cut. -/
@[irreducible] def cut (m : Store) (p : Block) (n : Nat) : Store :=
  setSize (setSize m p.addr (p.size - n)) (tail p n).addr n

/-- The header of the end is within the block. -/
theorem tail_within (hn : 0 < n) (hnp : n < p.size) : p.addr + 8 ≤ (tail p n).addr ∧ (tail p n).addr + 8 ≤ p.stop ∧
    (rest p n).stop = (tail p n).addr ∧ (tail p n).stop = p.stop := by
  refine ⟨?_, ?_, ?_, ?_⟩ <;> simp only [tail, rest, Block.stop] <;> omega

theorem cut_out (hn : 0 < n) (hnp : n < p.size) {x : Nat} (hx : x < p.addr ∨ p.stop ≤ x) : cut m p n x = m x := by
  obtain ⟨h1, h2, -⟩ := tail_within hn hnp
  rw [cut, setSize_out (by omega), setSize_out (by omega)]

theorem cut_size (hn : 0 < n) (hnp : n < p.size) (hp : p.size < 2 ^ 32) :
    size (cut m p n) p.addr = p.size - n ∧ size (cut m p n) (tail p n).addr = n ∧
    ptr (cut m p n) p.addr = ptr m p.addr := by
  obtain ⟨h1, -⟩ := tail_within hn hnp
  have hout : ∀ i < 8, cut m p n (p.addr + i) = setSize m p.addr (p.size - n) (p.addr + i) := by
    intro i hi
    rw [cut, setSize_out (by omega)]
  refine ⟨?_, ?_, ?_⟩
  · rw [size_congr hout, size_setSize (by omega)]
  · rw [cut, size_setSize (by omega)]
  · rw [ptr_congr hout, ptr_setSize]

/-! ## The invariant -/

/-- The static `base`, a block without units. -/
def Layout.node (ly : Layout) : Block := ⟨ly.base, 0⟩

/-- Where the memory that `sbrk` has given ends. -/
def Heap.brk (ly : Layout) (h : Heap) : Nat := if h.oldBrk = 0 then Vm.pageUp ly.stop else h.oldBrk

/-- The free list is `ns`, beginning with `base`; together with the blocks `live` of the program its
blocks tile `arena`. -/
structure Good (ly : Layout) (h : Heap) (ns live : List Block) (arena : Set Nat) : Prop where
  head : ns.head? = some ly.node
  chain : Chain h.mem ns ly.base
  order : ns.Pairwise Block.Before
  freep : ∃ b ∈ ns, b.addr = h.freep
  full : ∀ b ∈ ns, b = ly.node ∨ 0 < b.size
  tiles : Tiles ((ns ++ live).map Block.bytes) arena
  heads : ∀ b ∈ live, size h.mem b.addr = b.size ∧ 0 < b.size
  arena : ∀ x ∈ arena, Vm.pageUp ly.stop ≤ x ∧ x < h.brk ly
  brk : Vm.pageUp ly.stop ≤ h.brk ly ∧ h.brk ly < 2 ^ 32

variable {ly : Layout} {h h' : Heap} {arena : Set Nat}

/-- `malloc` has handed out a block of `n` units at `v`, and has left the other blocks alone. -/
def Serves (ly : Layout) (h h' : Heap) (live : List Block) (arena : Set Nat) (n v : Nat) : Prop :=
  ∃ ns b, v = b.addr + 8 ∧ b.size = n ∧ Good ly h' ns (b :: live) arena ∧ ∀ d ∈ live, ∀ x ∈ span d.bytes,
    h'.mem x = h.mem x

theorem stop_le_pageUp (ly : Layout) : ly.stop ≤ Vm.pageUp ly.stop := by
  have h1 := ly.stop_lt
  unfold Vm.pageUp
  rw [uint32_of_lt h1]
  unfold Vm.pgsize
  omega

namespace Good

/-- A block with units lies above `base`, and below the break. -/
theorem bounds (g : Good ly h ns live arena) (hc : c ∈ ns ++ live) (h0 : 0 < c.size) :
    ly.base + 8 ≤ c.addr ∧ c.stop ≤ h.brk ly := by
  have hsub : span c.bytes ⊆ arena := g.tiles.subset (List.mem_map_of_mem hc)
  have h1 : c.addr ∈ arena := hsub ⟨le_rfl, by simp [Block.stop, h0]⟩
  have h2 : c.stop - 1 ∈ arena := hsub (by simp [Block.stop]; omega)
  have h3 := (g.arena _ h1).1
  have h4 := (g.arena _ h2).2
  have h5 := stop_le_pageUp ly
  have h6 := ly.base_stop
  omega

theorem base_le (g : Good ly h ns live arena) (hc : c ∈ ns) : ly.base ≤ c.addr := by
  rcases g.full c hc with rfl | h0
  · exact le_rfl
  · have := (g.bounds (List.mem_append_left live hc) h0).1
    omega

theorem base_lt (ly : Layout) : ly.base < 2 ^ 32 := by
  have h1 := ly.stop_lt
  have h2 := ly.base_stop
  omega

theorem stop_lt (g : Good ly h ns live arena) (hc : c ∈ ns ++ live) : c.stop < 2 ^ 32 := by
  have hpos : 0 < c.size → c.stop < 2 ^ 32 := fun h0 => lt_of_le_of_lt (g.bounds hc h0).2 g.brk.2
  rcases List.mem_append.1 hc with hc | hc
  · rcases g.full c hc with rfl | h0
    · exact base_lt ly
    · exact hpos h0
  · exact hpos (g.heads c hc).2

/-- The free blocks do not overlap with those of the program. -/
theorem apart (g : Good ly h ns live arena) (hc : c ∈ ns) (hd : d ∈ live) : Disjoint (span c.bytes) (span d.bytes) := by
  have ht := g.tiles.apart
  rw [List.map_append] at ht
  exact (List.pairwise_append.1 ht).2.2 _ (List.mem_map_of_mem hc) _ (List.mem_map_of_mem hd)

/-- Neither do their headers, nor that of `base`. -/
theorem head_apart (g : Good ly h ns live arena) (hc : c ∈ ns) (hd : d ∈ live) {x : Nat} (hx : x ∈ span d.bytes) :
    x < c.addr ∨ c.addr + 8 ≤ x := by
  have h0 := (g.heads d hd).2
  have h1 := (g.bounds (List.mem_append_right ns hd) h0).1
  obtain ⟨h2, h3⟩ := hx
  simp only [Block.bytes_fst, Block.bytes_snd] at h2 h3
  rcases g.full c hc with rfl | h0
  · simp only [Layout.node]
    omega
  · by_contra hn
    have hx' : x ∈ span c.bytes := by simp [Block.stop]; omega
    exact Set.disjoint_left.1 (g.apart hc hd) hx' ⟨h2, h3⟩

/-! ## `free` -/

theorem exists_node (g : Good ly h ns live arena) : ∃ fs, ns = ly.node :: fs := by
  have hd := g.head
  rcases ns with - | ⟨n₀, fs⟩
  · cases hd
  · exact ⟨fs, by simpa using hd⟩

/-- The loop of `free` ends at the block behind which `c` belongs. -/
theorem seek (g : Good ly h ns (c :: live) arena) : ∃ l p r, ns = l ++ p :: r ∧ p.addr < c.addr ∧
    (∀ b ∈ r, c.addr < b.addr) ∧
    ∀ fuel, ns.length ≤ fuel → follow (ptr h.mem) (fits h.mem c.addr) fuel h.freep = some p.addr := by
  have hc0 := (g.heads c List.mem_cons_self).2
  have hlo := (g.bounds (by simp) hc0).1
  have hne : ∀ b ∈ ns, b.addr ≠ c.addr := by
    intro b hb heq
    have := g.head_apart hb (d := c) (by simp) (x := c.addr) (by simp [Block.stop, hc0])
    omega
  have hfits : ∀ {l p r}, ns = l ++ p :: r →
      (fits h.mem c.addr p.addr = true ↔ p.addr < c.addr ∧ ∀ b ∈ r, c.addr < b.addr) := by
    rintro l p r rfl
    exact fits_iff g.chain g.order (fun b hb => g.base_le hb) (by omega)
  obtain ⟨fs, rfl⟩ := g.exists_node
  have hsome : ∃ a ∈ (ly.node :: fs).map Block.addr, fits h.mem c.addr a = true := by
    obtain ⟨l, p, r, heq, h1, h2⟩ := exists_fits g.order (a := c.addr) (by simp only [Layout.node]; omega) hne
    exact ⟨p.addr, List.mem_map_of_mem (by simp [heq]), (hfits heq).2 ⟨h1, h2⟩⟩
  obtain ⟨f, hf, hff⟩ := g.freep
  obtain ⟨a, ha, hstop, hrun⟩ := Path.follow_cycle (t := ly.base) g.chain.path (List.mem_map_of_mem hf) hsome
  obtain ⟨p, hp, rfl⟩ := List.mem_map.1 ha
  obtain ⟨l, r, heq⟩ := List.append_of_mem hp
  obtain ⟨h1, h2⟩ := (hfits heq).1 hstop
  refine ⟨l, p, r, heq, h1, h2, fun fuel hl => ?_⟩
  rw [← hff]
  exact hrun fuel (by simpa using hl)

/-- A block of the program between the free blocks around it. -/
theorem between (g : Good ly h (l ++ c :: r) (d :: live) arena) (hc : c.addr < d.addr) (hr : ∀ b ∈ r, d.addr < b.addr) :
    (c.addr + 8 ≤ d.addr ∧ c.stop ≤ d.addr) ∧ ∀ b ∈ r, d.addr + 8 ≤ b.addr ∧ d.stop ≤ b.addr := by
  have hd0 := (g.heads d List.mem_cons_self).2
  have hd : ∀ x, d.addr ≤ x → x < d.stop → x ∈ span d.bytes := fun x h1 h2 => ⟨h1, h2⟩
  constructor
  · have h1 := g.head_apart (c := c) (by simp) List.mem_cons_self (hd d.addr le_rfl (by simp [Block.stop, hd0]))
    refine ⟨by omega, ?_⟩
    by_contra hn
    have h2 : d.addr ∈ span c.bytes := ⟨hc.le, by simpa using hn⟩
    exact Set.disjoint_left.1 (g.apart (c := c) (by simp) List.mem_cons_self) h2
      (hd d.addr le_rfl (by simp [Block.stop, hd0]))
  · intro b hb
    have h1 := hr b hb
    have h2 : d.stop ≤ b.addr := by
      by_contra hn
      have := g.head_apart (c := b) (by simp [hb]) List.mem_cons_self (hd b.addr h1.le (by simpa using hn))
      omega
    refine ⟨?_, h2⟩
    unfold Block.stop at h2
    omega

/-- Two blocks of the program do not overlap. -/
theorem live_disjoint (g : Good ly h ns (c :: live) arena) (hd : d ∈ live) :
    Disjoint (span c.bytes) (span d.bytes) := by
  have ht := g.tiles.apart
  rw [List.map_append, List.map_cons] at ht
  exact (List.pairwise_cons.1 (List.pairwise_append.1 ht).2.1).1 _ (List.mem_map_of_mem hd)

theorem live_apart (g : Good ly h ns (c :: live) arena) (hd : d ∈ live) {x : Nat} (hx : x ∈ span d.bytes) :
    x < c.addr ∨ c.addr + 8 ≤ x := by
  have hc0 := (g.heads c List.mem_cons_self).2
  by_contra hn
  have hx' : x ∈ span c.bytes := by simp [Block.stop]; omega
  exact Set.disjoint_left.1 (g.live_disjoint hd) hx' hx

/-- The block is a tile of the free list instead of one of the program. -/
theorem insert_tiles (g : Good ly h (l ++ d :: r) (c :: live) arena) :
    Tiles ((l ++ absorb d (absorb c r) ++ live).map Block.bytes) arena := by
  have h1 : Tiles ((c :: r).map Block.bytes ++ d.bytes :: (l ++ live).map Block.bytes) arena := by
    refine g.tiles.perm (List.perm_iff_count.2 fun b => ?_)
    simp [List.count_cons]
    omega
  have h2 : Tiles ((d :: absorb c r).map Block.bytes ++ (l ++ live).map Block.bytes) arena :=
    (absorb_tiles.2 h1).perm (by simp)
  refine (absorb_tiles.2 h2).perm (List.perm_iff_count.2 fun b => ?_)
  simp
  omega

theorem insert_chain (g : Good ly h (l ++ p :: r) (c :: live) arena) (hpc : p.addr < c.addr)
    (hcr : ∀ b ∈ r, c.addr < b.addr) :
    Chain (inserted h.mem c.addr p.addr) (l ++ absorb p (absorb c r)) ly.base := by
  obtain ⟨hpc', hcr'⟩ := g.between hpc hcr
  have hclt := g.stop_lt (c := c) (by simp)
  have hc0 := (g.heads c List.mem_cons_self).2
  have hlo := (g.bounds (c := c) (by simp) hc0).1
  obtain ⟨hchl, hchp⟩ := chain_append.1 g.chain
  obtain ⟨⟨hnext, hsize⟩, hchr⟩ := chain_cons.1 hchp
  have hrc := (insert_le hpc hcr).1
  have hlp : ∀ b ∈ l, b.addr + 8 ≤ p.addr := fun b hb =>
    ((List.pairwise_append.1 g.order).2.2 b hb p List.mem_cons_self).1
  -- first `c` takes its place in front of `r`
  have hch₁ : Chain (attach h.mem c.addr (first ly.base r)) (absorb c r) ly.base := by
    refine attach_chain hchr (g.heads c List.mem_cons_self).1 (base_lt ly) hclt (fun _ => ?_)
      fun b hb => ⟨(hcr' b hb).1, g.stop_lt (by simp [hb])⟩
    unfold Block.stop
    omega
  -- then `p` in front of both
  have hsize₁ : size (attach h.mem c.addr (first ly.base r)) p.addr = p.size :=
    (size_congr fun i hi => attach_out (by omega)).trans hsize
  have hstop : ∀ b ∈ absorb c r, b.stop < 2 ^ 32 := fun b hb =>
    absorb_stop hclt (fun e he => g.stop_lt (by simp [he])) hb
  have hch₂ := attach_chain hch₁ hsize₁ (base_lt ly) (g.stop_lt (by simp)) (fun hn => ?_)
    fun b hb => ⟨hpc'.1.trans (hrc b hb), hstop b hb⟩
  · rw [first_absorb] at hch₂
    rw [inserted, hnext]
    refine chain_append.2 ⟨?_, hch₂⟩
    rw [first_absorb]
    exact hchl.congr fun b hb i hi => by
      have := hlp b hb
      rw [attach_out (by omega), attach_out (by omega)]
  · obtain ⟨e, r', he, -⟩ := exists_absorb c r
    simp [he] at hn

theorem insert_order (g : Good ly h (l ++ p :: r) (c :: live) arena) (hpc : p.addr < c.addr)
    (hcr : ∀ b ∈ r, c.addr < b.addr) :
    (l ++ absorb p (absorb c r)).Pairwise Block.Before := by
  obtain ⟨hpc', hcr'⟩ := g.between hpc hcr
  obtain ⟨hrc, hrp⟩ := insert_le hpc hcr
  obtain ⟨hl, hpr, hlp⟩ := List.pairwise_append.1 g.order
  have hr := (List.pairwise_cons.1 hpr).2
  refine List.pairwise_append.2 ⟨hl, absorb_order (absorb_order hr hcr') ?_, fun a ha b hb => ?_⟩
  · exact fun b hb => ⟨hpc'.1.trans (hrc b hb), hpc'.2.trans (hrc b hb)⟩
  · obtain ⟨h1, h2⟩ := hlp a ha p List.mem_cons_self
    have h3 := hrp b hb
    exact ⟨h1.trans h3, lt_of_lt_of_le h2 h3⟩

theorem insert_full (g : Good ly h (l ++ p :: r) (c :: live) arena) (hcr : ∀ b ∈ r, c.addr < b.addr)
    (hd : d ∈ l ++ absorb p (absorb c r)) : d = ly.node ∨ 0 < d.size := by
  have hc0 := (g.heads c List.mem_cons_self).2
  have hlo := (g.bounds (c := c) (by simp) hc0).1
  have hr : ∀ b ∈ r, 0 < b.size := by
    intro b hb
    refine (g.full b (by simp [hb])).resolve_left ?_
    rintro rfl
    have := hcr _ hb
    simp only [Layout.node] at this
    omega
  have hcr : ∀ b ∈ absorb c r, 0 < b.size := by
    intro b hb
    rcases absorb_full hr hb with rfl | h0
    · exact hc0
    · exact h0
  rcases List.mem_append.1 hd with hd | hd
  · exact g.full d (by simp [hd])
  · rcases absorb_full hcr hd with rfl | h0
    · exact g.full d (by simp)
    · exact Or.inr h0

theorem insert_head (g : Good ly h (l ++ p :: r) (c :: live) arena) :
    (l ++ absorb p (absorb c r)).head? = some ly.node := by
  have hlo := (g.bounds (c := c) (by simp) (g.heads c List.mem_cons_self).2).1
  have hd := g.head
  cases l with
  | nil =>
    obtain rfl : p = ly.node := by simpa using hd
    obtain ⟨e, r', he, hea⟩ := exists_absorb c r
    -- `base` has no units, so that nothing is joined to it
    have hne : ¬ ly.node.stop = e.addr := by
      simp only [Block.stop, Layout.node]
      omega
    rw [he, absorb, if_neg hne]
    rfl
  | cons n₀ l => simpa using hd

theorem header_eq (g : Good ly h ns (c :: live) arena) : usub32 (c.addr + 8) 8 = c.addr := by
  have hc0 := (g.heads c List.mem_cons_self).2
  have hclt := g.stop_lt (c := c) (by simp)
  unfold Block.stop at hclt
  rw [usub32_of_le (by omega) (by omega)]
  omega

theorem free (g : Good ly h ns (c :: live) arena) :
    ∃ ns' h', (∀ fuel, ns.length ≤ fuel → free fuel h (c.addr + 8) = some h') ∧
    Good ly h' ns' live arena ∧ h'.oldBrk = h.oldBrk ∧ ∀ d ∈ live, ∀ x ∈ span d.bytes, h'.mem x = h.mem x := by
  obtain ⟨l, p, r, rfl, hpc, hcr, hrun⟩ := g.seek
  have hlive : ∀ d ∈ live, ∀ x ∈ span d.bytes, inserted h.mem c.addr p.addr x = h.mem x := fun d hd x hx =>
    insert_out (g.live_apart hd hx) (g.head_apart (by simp) (List.mem_cons_of_mem c hd) hx)
  refine ⟨l ++ absorb p (absorb c r), ⟨inserted h.mem c.addr p.addr, p.addr, h.oldBrk⟩, ?_, ?_, rfl, hlive⟩
  · intro fuel hf
    simp only [Malloc.free, g.header_eq, hrun fuel hf, Option.map_some, inserted]
  · obtain ⟨e, r', he, hea⟩ := exists_absorb p (absorb c r)
    refine ⟨g.insert_head, g.insert_chain hpc hcr, g.insert_order hpc hcr, ⟨e, by simp [he], hea⟩,
      fun b hb => g.insert_full hcr hb, g.insert_tiles, fun d hd => ?_, g.arena, g.brk⟩
    obtain ⟨h1, h2⟩ := g.heads d (List.mem_cons_of_mem c hd)
    refine ⟨(size_congr fun i hi => hlive d hd _ ?_).trans h1, h2⟩
    simp [Block.stop]
    omega

/-! ## A block taken out of the list -/

/-- A whole block. -/
theorem takeWhole (g : Good ly h (l ++ c :: p :: r) live arena) (hp0 : 0 < p.size) :
    Good ly ⟨setPtr h.mem c.addr (first ly.base r), c.addr, h.oldBrk⟩ (l ++ c :: r) (p :: live) arena ∧
      ∀ d ∈ live, ∀ x ∈ span d.bytes, setPtr h.mem c.addr (first ly.base r) x = h.mem x := by
  obtain ⟨hl, hcr, hlc⟩ := List.pairwise_append.1 g.order
  obtain ⟨hc, hpr⟩ := List.pairwise_cons.1 hcr
  obtain ⟨hchl, hchc⟩ := chain_append.1 g.chain
  obtain ⟨⟨-, hsize⟩, hchp⟩ := chain_cons.1 hchc
  obtain ⟨⟨-, hsizep⟩, hchr⟩ := chain_cons.1 hchp
  have hfirst : first ly.base r < 2 ^ 32 := by
    rcases r with - | ⟨b, r⟩
    · exact base_lt ly
    · have := g.stop_lt (c := b) (by simp)
      unfold Block.stop at this
      exact lt_of_le_of_lt (Nat.le_add_right _ _) this
  have hlive : ∀ d ∈ live, ∀ x ∈ span d.bytes, setPtr h.mem c.addr (first ly.base r) x = h.mem x := fun d hd x hx =>
    setPtr_out (g.head_apart (by simp) hd hx)
  have hcp := hc p List.mem_cons_self
  refine ⟨⟨?_, ?_, ?_, ⟨c, by simp, rfl⟩, ?_, ?_, ?_, g.arena, g.brk⟩, hlive⟩
  · have := g.head
    cases l <;> simpa using this
  · refine chain_append.2 ⟨?_, chain_cons.2 ⟨⟨ptr_setPtr hfirst, size_setPtr.trans hsize⟩, ?_⟩⟩
    · exact hchl.congr fun b hb i hi => setPtr_out (by have := (hlc b hb c List.mem_cons_self).1; omega)
    · exact hchr.congr fun b hb i hi => setPtr_out (by have := (hc b (List.mem_cons_of_mem p hb)).1; omega)
  · exact g.order.sublist (by simp)
  · exact fun b hb => g.full b (by simp at hb ⊢; tauto)
  · refine g.tiles.perm (List.perm_iff_count.2 fun b => ?_)
    simp [List.count_cons]
    omega
  · intro d hd
    rcases List.mem_cons.1 hd with rfl | hd
    · exact ⟨(size_congr fun i hi => setPtr_out (by have := hcp.1; omega)).trans hsizep, hp0⟩
    · obtain ⟨h1, h2⟩ := g.heads d hd
      refine ⟨(size_congr fun i hi => hlive d hd _ ?_).trans h1, h2⟩
      simp [Block.stop]
      omega

theorem takeEnd (g : Good ly h (l ++ c :: p :: r) live arena) (hn : 0 < n) (hnp : n < p.size) :
    Good ly ⟨cut h.mem p n, c.addr, h.oldBrk⟩ (l ++ c :: rest p n :: r) (tail p n :: live) arena ∧
      ∀ d ∈ live, ∀ x ∈ span d.bytes, cut h.mem p n x = h.mem x := by
  obtain ⟨hl, hcr, hlc⟩ := List.pairwise_append.1 g.order
  obtain ⟨hc, hpr⟩ := List.pairwise_cons.1 hcr
  obtain ⟨hp, hr⟩ := List.pairwise_cons.1 hpr
  obtain ⟨hchl, hchc⟩ := chain_append.1 g.chain
  obtain ⟨⟨hnextc, hsizec⟩, hchp⟩ := chain_cons.1 hchc
  obtain ⟨⟨hnext, hsize⟩, hchr⟩ := chain_cons.1 hchp
  obtain ⟨h1, h2, h3, h4⟩ := tail_within hn hnp
  obtain ⟨hs1, hs2, hs3⟩ := cut_size (m := h.mem) hn hnp (hsize ▸ size_lt)
  have hcp := hc p List.mem_cons_self
  have hbefore : ∀ b ∈ l ++ [c], b.addr + 8 ≤ p.addr := by
    intro b hb
    rcases List.mem_append.1 hb with hb | hb
    · exact (hlc b hb p (by simp)).1
    · rw [List.mem_singleton.1 hb]
      exact hcp.1
  have hlive : ∀ d ∈ live, ∀ x ∈ span d.bytes, cut h.mem p n x = h.mem x := by
    intro d hd x hx
    refine cut_out hn hnp ?_
    by_contra hx'
    exact Set.disjoint_left.1 (g.apart (c := p) (by simp) hd) (by simp; omega) hx
  refine ⟨⟨?_, ?_, ?_, ⟨c, by simp, rfl⟩, ?_, ?_, ?_, g.arena, g.brk⟩, hlive⟩
  · have := g.head
    cases l <;> simpa using this
  · refine chain_append.2 ⟨?_, chain_cons.2 ⟨⟨?_, ?_⟩, chain_cons.2 ⟨⟨?_, hs1⟩, ?_⟩⟩⟩
    · exact hchl.congr fun b hb i hi => cut_out hn hnp (by have := hbefore b (by simp [hb]); omega)
    · exact (ptr_congr fun i hi => cut_out hn hnp (by have := hcp.1; omega)).trans hnextc
    · exact (size_congr fun i hi => cut_out hn hnp (by have := hcp.1; omega)).trans hsizec
    · exact hs3.trans hnext
    · exact hchr.congr fun b hb i hi => cut_out hn hnp (by have := (hp b hb).2; omega)
  · have hle : ∀ {b}, Block.Before p b → Block.Before (rest p n) b := by
      rintro b ⟨h5, h6⟩
      exact ⟨h5, by omega⟩
    refine List.pairwise_append.2 ⟨hl, List.pairwise_cons.2 ⟨?_, List.pairwise_cons.2 ⟨fun b hb => hle (hp b hb), hr⟩⟩,
      ?_⟩
    · intro b hb
      rcases List.mem_cons.1 hb with rfl | hb
      · exact hcp
      · exact hc b (List.mem_cons_of_mem p hb)
    · intro a ha b hb
      rcases List.mem_cons.1 hb with rfl | hb
      · exact hlc a ha _ List.mem_cons_self
      · rcases List.mem_cons.1 hb with rfl | hb
        · exact hlc a ha p (by simp)
        · exact hlc a ha b (by simp [hb])
  · intro b hb
    by_cases hbr : b = rest p n
    · exact Or.inr (by simp only [hbr, rest]; omega)
    · exact g.full b (by simp at hb ⊢; tauto)
  · have ht : Tiles ((p.addr, p.stop) :: (l ++ c :: r ++ live).map Block.bytes) arena := by
      refine g.tiles.perm (List.perm_iff_count.2 fun b => ?_)
      simp [List.count_cons, Block.bytes]
      omega
    rw [Tiles.split_iff (show p.addr ≤ (tail p n).addr by omega) (by omega)] at ht
    refine ht.perm (List.perm_iff_count.2 fun b => ?_)
    simp [List.count_cons, Block.bytes, h3, h4, show (rest p n).addr = p.addr from rfl]
    omega
  · intro d hd
    rcases List.mem_cons.1 hd with rfl | hd
    · exact ⟨hs2, hn⟩
    · obtain ⟨h5, h6⟩ := g.heads d hd
      refine ⟨(size_congr fun i hi => hlive d hd _ ?_).trans h5, h6⟩
      simp [Block.stop]
      omega

theorem carve (g : Good ly h (l ++ c :: p :: r) live arena) (hn : 0 < n) (hnp : n ≤ p.size) :
    ∃ b m', carve h.mem n c.addr p.addr = (b, m') ∧ Serves ly h ⟨m', c.addr, h.oldBrk⟩ live arena n (ahead b 1) := by
  obtain ⟨⟨-, hsizec⟩, hchp⟩ := chain_cons.1 (chain_append.1 g.chain).2
  obtain ⟨⟨hnext, hsize⟩, -⟩ := chain_cons.1 hchp
  have hlt := g.stop_lt (c := p) (by simp)
  rcases hnp.eq_or_lt with rfl | hnp
  · obtain ⟨g', hlive⟩ := g.takeWhole hn
    refine ⟨p.addr, _, by rw [Malloc.carve, if_pos hsize], _, p, ?_, rfl, hnext ▸ g', hnext ▸ hlive⟩
    unfold Block.stop at hlt
    exact uint32_of_lt (by omega)
  · obtain ⟨g', hlive⟩ := g.takeEnd hn hnp
    obtain ⟨h1, h2, -⟩ := tail_within hn hnp
    have hp : p.size < 2 ^ 32 := hsize ▸ size_lt
    have htail : ahead p.addr (p.size - n) = (tail p n).addr := uint32_of_lt (by simp only [tail] at h2; omega)
    refine ⟨(tail p n).addr, _, ?_, _, tail p n, uint32_of_lt (by omega), rfl, g', hlive⟩
    have hcut : size (setSize h.mem p.addr (p.size - n)) p.addr = p.size - n := size_setSize (by omega)
    rw [Malloc.carve, hsize, if_neg (by omega)]
    simp only [hcut, htail, cut]

end Good

/-- The loop of `malloc` goes on until there is a block that is large enough, or it is around. -/
theorem search_follow (ly : Layout) (brk : Nat → Bool) {k : Nat} (hf : follow (ptr h.mem) (fun a =>
      decide (n ≤ size h.mem (ptr h.mem a)) || decide (ptr h.mem a = h.freep)) k a = some b) :
    ∃ j < k, ∀ fuel, search ly brk n (j + fuel) h a (ptr h.mem a) = search ly brk n fuel h b (ptr h.mem b) := by
  induction k generalizing a with
  | zero => cases hf
  | succ k ih =>
    rw [follow] at hf
    split at hf
    · cases hf
      exact ⟨0, Nat.succ_pos k, fun fuel => by rw [Nat.zero_add]⟩
    · next hs =>
      obtain ⟨j, hj, hrun⟩ := ih hf
      refine ⟨j + 1, Nat.succ_lt_succ hj, fun fuel => ?_⟩
      simp only [Bool.or_eq_true, decide_eq_true_eq, not_or] at hs
      rw [Nat.add_right_comm, search, if_neg hs.1, if_neg hs.2, hrun]

namespace Good

theorem nodup (g : Good ly h ns live arena) : (ns.map Block.addr).Nodup := by
  refine (List.pairwise_map.2 (g.order.imp fun hab => ?_) : (ns.map Block.addr).Pairwise (· ≠ ·))
  have := hab.1
  omega

/-- Where one turn of the loop ends. -/
theorem turn (g : Good ly h ns live arena) (brk : Nat → Bool) (hn : 0 < n) :
    ∃ l c r, ns = l ++ c :: r ∧
      ((∃ p r', r = p :: r' ∧ n ≤ p.size) ∨ (ptr h.mem c.addr = h.freep ∧ ∀ b ∈ ns, b.size < n)) ∧
      ∃ j ≤ ns.length, ∀ fuel, search ly brk n (j + fuel) h h.freep (ptr h.mem h.freep) =
        search ly brk n fuel h c.addr (ptr h.mem c.addr) := by
  obtain ⟨fs, rfl⟩ := g.exists_node
  obtain ⟨f, hf, hff⟩ := g.freep
  obtain ⟨a, ha, hcase, hrun⟩ := Path.turn (t := ly.base) g.chain.path g.nodup
    (List.mem_map_of_mem hf) fun a => decide (n ≤ size h.mem a)
  obtain ⟨c, hc, rfl⟩ := List.mem_map.1 ha
  obtain ⟨l, r, heq⟩ := List.append_of_mem hc
  rw [hff] at hcase hrun
  have hnext : ptr h.mem c.addr = first ly.base r := ((chain_cons.1 (chain_append.1 (heq ▸ g.chain)).2).1).1
  have hsize : ∀ b ∈ ly.node :: fs, size h.mem b.addr = b.size := g.chain.sizes
  obtain ⟨j, hj, hs⟩ := search_follow ly brk (hrun _ le_rfl)
  refine ⟨l, c, r, heq, ?_, j, by simpa using hj.le, hs⟩
  rcases hcase with hgood | ⟨hback, hnone⟩
  · left
    rw [decide_eq_true_eq, hnext] at hgood
    rcases r with - | ⟨p, r⟩
    · have h0 := hsize ly.node List.mem_cons_self
      simp only [Layout.node] at h0
      rw [first_nil, h0] at hgood
      omega
    · refine ⟨p, r, rfl, ?_⟩
      rwa [first_cons, hsize p (by simp [heq])] at hgood
  · refine Or.inr ⟨hback, fun b hb => ?_⟩
    have := hnone b.addr (List.mem_map_of_mem hb)
    rw [hsize b hb] at this
    simpa using this

/-- A block of the free list is large enough. -/
theorem search_some (g : Good ly h ns live arena) (brk : Nat → Bool) (hn : 0 < n) (hbig : ∃ b ∈ ns, n ≤ b.size) :
    ∃ v h', (∀ fuel, ns.length < fuel → search ly brk n fuel h h.freep (ptr h.mem h.freep) = some (v, h')) ∧
      Serves ly h h' live arena n v ∧ h'.oldBrk = h.oldBrk := by
  obtain ⟨l, c, r, heq, hcase, j, hj, hs⟩ := g.turn brk hn
  obtain ⟨p, r', rfl, hp⟩ : ∃ p r', r = p :: r' ∧ n ≤ p.size := by
    rcases hcase with hp | ⟨-, hnone⟩
    · exact hp
    · obtain ⟨b, hb, hnb⟩ := hbig
      exact absurd hnb (not_le.2 (hnone b hb))
  subst heq
  obtain ⟨b, m', hcarve, hserve⟩ := g.carve hn hp
  refine ⟨_, _, fun fuel hf => ?_, hserve, rfl⟩
  obtain ⟨k, rfl⟩ : ∃ k, fuel = j + (k + 1) := ⟨fuel - j - 1, by omega⟩
  obtain ⟨⟨hnext, -⟩, hchp⟩ := chain_cons.1 (chain_append.1 g.chain).2
  rw [first_cons] at hnext
  rw [hs, hnext, search, if_pos (by rw [(chain_cons.1 hchp).1.2]; exact hp), hcarve]

/-- None is. -/
theorem search_none (g : Good ly h ns live arena) (brk : Nat → Bool) (hn : 0 < n) (hsmall : ∀ b ∈ ns, b.size < n) :
    ∃ j ≤ ns.length, ∀ fuel, search ly brk n (j + (fuel + 1)) h h.freep (ptr h.mem h.freep) =
      (do let (p, h) ← morecore ly brk fuel h n
          if p = 0 then return (0, h)
          search ly brk n fuel h p (ptr h.mem p)) := by
  obtain ⟨l, c, r, heq, hcase, j, hj, hs⟩ := g.turn brk hn
  obtain ⟨hback, hf⟩ : ptr h.mem c.addr = h.freep ∧ ¬ n ≤ size h.mem h.freep := by
    rcases hcase with ⟨p, r', rfl, hp⟩ | ⟨hback, -⟩
    · exact absurd hp (not_le.2 (hsmall p (by simp [heq])))
    · obtain ⟨f, hf, hff⟩ := g.freep
      refine ⟨hback, ?_⟩
      rw [← hff, g.chain.sizes f hf]
      exact not_le.2 (hsmall f hf)
  refine ⟨j, hj, fun fuel => ?_⟩
  rw [hs, hback, search, if_neg hf, if_pos rfl]

/-- Free memory without a gap is within one block of the list. -/
theorem within (g : Good ly h ns live arena) (lo hi : Nat) (hlt : lo < hi)
    (hfree : ∀ x, lo ≤ x → x < hi → x ∈ arena ∧ ∀ d ∈ live, x ∉ span d.bytes) :
    ∃ b ∈ ns, b.addr ≤ lo ∧ hi ≤ b.stop := by
  have hcov : ∀ x, lo ≤ x → x < hi → ∃ b ∈ ns.map Block.bytes, x ∈ span b := by
    intro x h1 h2
    obtain ⟨hx, hlive⟩ := hfree x h1 h2
    obtain ⟨b, hb, hxb⟩ := (g.tiles.cover x).1 hx
    rw [List.map_append] at hb
    rcases List.mem_append.1 hb with hb | hb
    · exact ⟨b, hb, hxb⟩
    · obtain ⟨d, hd, rfl⟩ := List.mem_map.1 hb
      exact absurd hxb (hlive d hd)
  obtain ⟨_, hmem, h1, h2⟩ := within_one (List.pairwise_map.2 (g.order.imp fun hab => hab.2)) hlt hcov
  obtain ⟨b, hb, rfl⟩ := List.mem_map.1 hmem
  exact ⟨b, hb, h1, h2⟩

/-! ## Memory from `sbrk` -/

/-- The memory above the break becomes a block of the program. -/
theorem grow (g : Good ly h ns live arena) (hn : 0 < n) (hlt : h.brk ly + 8 * n < 2 ^ 32) :
    Good ly ⟨setSize h.mem (h.brk ly) n, h.freep, h.brk ly + 8 * n⟩ ns (⟨h.brk ly, n⟩ :: live)
        (span (h.brk ly, h.brk ly + 8 * n) ∪ arena) ∧
      ∀ d ∈ live, ∀ x ∈ span d.bytes, setSize h.mem (h.brk ly) n x = h.mem x := by
  obtain ⟨hbrk, -⟩ := g.brk
  have hstop := stop_le_pageUp ly
  have hbase := ly.base_stop
  have hne : h.brk ly + 8 * n ≠ 0 := by omega
  have hout : ∀ x < h.brk ly, setSize h.mem (h.brk ly) n x = h.mem x := fun x hx => setSize_out (Or.inl hx)
  have hlive : ∀ d ∈ live, ∀ x ∈ span d.bytes, setSize h.mem (h.brk ly) n x = h.mem x := by
    intro d hd x hx
    have h1 := (g.bounds (List.mem_append_right ns hd) (g.heads d hd).2).2
    exact hout x (lt_of_lt_of_le hx.2 h1)
  refine ⟨⟨g.head, ?_, g.order, g.freep, g.full, ?_, ?_, ?_, ?_⟩, hlive⟩
  · refine g.chain.congr fun b hb i hi => hout _ ?_
    rcases g.full b hb with rfl | h0
    · simp only [Layout.node]
      omega
    · have := (g.bounds (List.mem_append_left live hb) h0).2
      unfold Block.stop at this
      omega
  · have hd : Disjoint (span (h.brk ly, h.brk ly + 8 * n)) arena := Set.disjoint_left.2 fun x hx hxa => by
      have h1 := (g.arena x hxa).2
      have h2 := hx.1
      simp only at h2
      omega
    refine (g.tiles.cons hd).perm (List.perm_iff_count.2 fun b => ?_)
    simp [List.count_cons, Block.bytes, Block.stop]
    omega
  · intro d hd
    rcases List.mem_cons.1 hd with rfl | hd
    · exact ⟨size_setSize (by omega), hn⟩
    · obtain ⟨h1, h2⟩ := g.heads d hd
      refine ⟨(size_congr fun i hi => hlive d hd _ ?_).trans h1, h2⟩
      simp [Block.stop]
      omega
  · rintro x (hx | hx)
    · obtain ⟨h1, h2⟩ := hx
      simp only at h1 h2
      rw [Heap.brk, if_neg hne]
      exact ⟨by omega, h2⟩
    · obtain ⟨h1, h2⟩ := g.arena x hx
      rw [Heap.brk, if_neg hne]
      exact ⟨h1, by simp only; omega⟩
  · rw [Heap.brk, if_neg hne]
    exact ⟨by simp only; omega, hlt⟩

/-- The call of `brk` in `sbrk`. -/
theorem sbrk_eq {brk : Nat → Bool} {inc : Nat} (hfirst : h.oldBrk = 0 → brk (Vm.pageUp ly.stop) = true) :
    sbrk ly brk h inc = some (if brk (uint32 (h.brk ly + inc)) then (h.brk ly,
      ⟨h.mem, h.freep, uint32 (h.brk ly + inc)⟩) else (minusOne, ⟨h.mem, h.freep, h.brk ly⟩)) := by
  unfold sbrk Heap.brk
  by_cases h0 : h.oldBrk = 0
  · simp only [h0, hfirst h0, if_true, Option.bind_eq_bind, Option.bind_some]
    split <;> rfl
  · simp only [if_neg h0, Option.bind_eq_bind, Option.bind_some]
    split <;> rfl

/-- The break grows, and the new memory is in the free list. -/
theorem morecore_some {brk : Nat → Bool} (g : Good ly h ns live arena)
    (hfirst : h.oldBrk = 0 → brk (Vm.pageUp ly.stop) = true) (hgrant : brk (uint32 (h.brk ly + 8 * asked n)) = true)
    (hlt : h.brk ly + 8 * asked n < 2 ^ 32) :
    ∃ ns' h', (∀ fuel, ns.length ≤ fuel → morecore ly brk fuel h n = some (h'.freep, h')) ∧
      Good ly h' ns' live (span (h.brk ly, h.brk ly + 8 * asked n) ∪ arena) ∧ h'.oldBrk = h.brk ly + 8 * asked n ∧
      (∃ b ∈ ns', n ≤ b.size) ∧ ∀ d ∈ live, ∀ x ∈ span d.bytes, h'.mem x = h.mem x := by
  have hn : n ≤ asked n ∧ 4096 ≤ asked n := by
    unfold asked
    split <;> omega
  obtain ⟨g₁, hlive₁⟩ := g.grow (n := asked n) (by omega) hlt
  obtain ⟨ns', h', hrun, g', hbrk', hlive'⟩ := g₁.free
  refine ⟨ns', h', fun fuel hf => ?_, g', hbrk', ?_, fun d hd x hx => (hlive' d hd x hx).trans (hlive₁ d hd x hx)⟩
  · have h1 : uint32 (asked n * 8) = 8 * asked n := by rw [uint32_of_lt (by omega), Nat.mul_comm]
    have h2 : uint32 (h.brk ly + 8 * asked n) = h.brk ly + 8 * asked n := uint32_of_lt hlt
    have h3 : ahead (h.brk ly) 1 = h.brk ly + 8 := uint32_of_lt (by omega)
    have h4 : ¬ h.brk ly = minusOne := by
      unfold minusOne
      omega
    rw [h2] at hgrant
    simp only [morecore, h1, sbrk_eq hfirst, h2, if_pos hgrant, Option.bind_eq_bind, Option.bind_some, if_neg h4, h3]
    rw [hrun fuel hf]
    rfl
  · -- the new block is within one block of the list, as no two of these touch
    obtain ⟨b, hb, h1, h2⟩ := g'.within (h.brk ly) (h.brk ly + 8 * asked n) (by omega) fun x h1 h2 => by
      refine ⟨Or.inl ⟨h1, h2⟩, fun d hd hx => ?_⟩
      have := (g.bounds (List.mem_append_right ns hd) (g.heads d hd).2).2
      have := hx.2
      simp only [Block.bytes_snd] at this
      omega
    refine ⟨b, hb, ?_⟩
    unfold Block.stop at h2
    omega

end Good

/-! ## `malloc` -/

theorem units_pos : 0 < units n := Nat.succ_pos _

/-- The largest request whose units, times 8, are a `uint32_t`. -/
theorem units_le (hn : n ≤ 2 ^ 32 - 16) : units n ≤ 2 ^ 29 - 1 ∧ n + 8 ≤ 8 * units n := by
  unfold units
  rw [uint32_of_lt (by omega)]
  omega

namespace Good

variable {brk : Nat → Bool}

/-- The first call has nothing but `base` in its list. -/
theorem first_call (hb : Vm.pageUp ly.stop ≤ h.brk ly ∧ h.brk ly < 2 ^ 32) (h0 : h.freep = 0) :
    Good ly (h.start ly) [ly.node] [] ∅ := by
  have hst : h.start ly = ⟨setSize (setPtr h.mem ly.base ly.base) ly.base 0, ly.base, h.oldBrk⟩ := if_pos h0
  rw [hst]
  refine ⟨rfl, ⟨⟨?_, trivial⟩, ?_⟩, by simp, ⟨ly.node, by simp, rfl⟩, by simp, ⟨by simp, ?_⟩, by simp, by simp, hb⟩
  · simp only [Layout.node, List.map_nil, List.headD_nil, ptr_setSize]
    exact ptr_setPtr (base_lt ly)
  · rintro b hb
    rw [List.mem_singleton.1 hb]
    exact size_setSize (by decide)
  · simp [Block.bytes, Block.stop, Layout.node]

/-- There is room: the break does not move. -/
theorem malloc_some (g : Good ly (h.start ly) ns live arena) (brk : Nat → Bool) (hbig : ∃ b ∈ ns, units n ≤ b.size) :
    ∃ v h', (∀ fuel, ns.length < fuel → malloc ly brk fuel h n = some (v, h')) ∧
      Serves ly (h.start ly) h' live arena (units n) v ∧ h'.oldBrk = (h.start ly).oldBrk :=
  g.search_some brk units_pos hbig

theorem freep_ne (g : Good ly h ns live arena) : h.freep ≠ 0 := by
  obtain ⟨b, hb, hf⟩ := g.freep
  have h1 := g.base_le hb
  have h2 := ly.base_pos
  omega

/-- There is none, and the break moves. -/
theorem malloc_grow (g : Good ly (h.start ly) ns live arena) (hsmall : ∀ b ∈ ns, b.size < units n)
    (hfirst : (h.start ly).oldBrk = 0 → brk (Vm.pageUp ly.stop) = true)
    (hgrant : brk (uint32 ((h.start ly).brk ly + 8 * asked (units n))) = true)
    (hlt : (h.start ly).brk ly + 8 * asked (units n) < 2 ^ 32) :
    ∃ N v h', (∀ fuel, N ≤ fuel → malloc ly brk fuel h n = some (v, h')) ∧
      Serves ly (h.start ly) h' live
        (span ((h.start ly).brk ly, (h.start ly).brk ly + 8 * asked (units n)) ∪ arena) (units n) v ∧
      h'.oldBrk = (h.start ly).brk ly + 8 * asked (units n) := by
  obtain ⟨j, hj, hs⟩ := g.search_none brk units_pos hsmall
  obtain ⟨ns₁, h₁, hrun₁, g₁, hbrk₁, hbig, hlive₁⟩ := g.morecore_some hfirst hgrant hlt
  obtain ⟨v, h', hrun', ⟨ns', b, hv, hb, g', hlive'⟩, hbrk'⟩ := g₁.search_some brk units_pos hbig
  refine ⟨j + (ns.length + ns₁.length + 2), v, h', fun fuel hf => ?_, ⟨ns', b, hv, hb, g', ?_⟩, hbrk'.trans hbrk₁⟩
  · obtain ⟨k, rfl⟩ : ∃ k, fuel = j + (k + 1) := ⟨fuel - j - 1, by omega⟩
    rw [malloc, hs, hrun₁ k (by omega)]
    simp only [Option.bind_eq_bind, Option.bind_some, if_neg g₁.freep_ne]
    exact hrun' k (by omega)
  · exact fun d hd x hx => (hlive' d hd x hx).trans (hlive₁ d hd x hx)

end Good

end TinyOS.Malloc
