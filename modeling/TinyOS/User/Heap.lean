/-
A program and its heap (user/ulib/stdlib.c): whatever it calls and writes, in any order, each block
that it got from `malloc` and did not free holds what the program wrote there last, blocks do not
overlap, and `malloc` asks for memory only when no free stretch of its memory is long enough.
-/
import TinyOS.Lib.Run
import TinyOS.User.Freelist

namespace TinyOS.Malloc

open TinyOS.Lib

/-- The heap, the blocks that the program has got, with the bytes that it believes to be there, and the
stretches of memory by which `malloc` has moved the break. -/
structure Sys where
  heap : Heap
  objs : Nat → Option (List UInt8)
  arena : List (Nat × Nat)

inductive Event where
  | malloc (n p : Nat)
  | free (p : Nat)
  | store (p o : Nat) (bs : List UInt8)
  | poke (a : Nat) (bs : List UInt8)
  | sbrk (increment : Nat)

namespace Sys

def owned (s : Sys) : Set Nat := { x | ∃ b ∈ s.arena, x ∈ span b }

/-- The byte belongs to a block of the program, or to its header. -/
def taken (s : Sys) (x : Nat) : Prop :=
  ∃ p bs, s.objs p = some bs ∧ p - 8 ≤ x ∧ x < p - 8 + 8 * size s.heap.mem (p - 8)

/-- There are `n` free units in a row. -/
def Room (s : Sys) (n : Nat) : Prop := ∃ a, ∀ x, a ≤ x → x < a + 8 * n → x ∈ s.owned ∧ ¬ s.taken x

/-- The arena when `malloc` leaves the heap `h`. -/
def extend (ly : Layout) (s : Sys) (h : Heap) : List (Nat × Nat) :=
  if h.brk ly = s.heap.brk ly then s.arena else (s.heap.brk ly, h.brk ly) :: s.arena

/-- The break that `malloc` asks for when it has no block of `n` bytes. -/
def want (ly : Layout) (s : Sys) (n : Nat) : Nat := s.heap.brk ly + 8 * asked (units n)

end Sys

/-- `sys_brk` returns 0, whatever it is asked for. -/
def granted : Nat → Bool := fun _ => true

/-- There is room for the request, or the break that it needs does not wrap around. -/
def Sane (ly : Layout) (s : Sys) (n : Nat) : Prop := s.Room (units n) ∨ s.want ly n < 2 ^ 32

/-- What a program may do: it asks for less than 2^32 - 15 bytes at a time, and for no more than there are
addresses, frees what it has, writes to its blocks within the bytes it asked for and to memory that is not the
heap's, and moves the break upwards only. -/
inductive Step (ly : Layout) (s : Sys) : Event → Sys → Prop
  | malloc {fuel n p : Nat} {h : Heap} : n ≤ 2 ^ 32 - 16 → Sane ly s n → malloc ly granted fuel s.heap n = some (p, h) →
      Step ly s (.malloc n p) ⟨h, Function.update s.objs p (some (h.mem.read p n)), s.extend ly h⟩
  | free {fuel p : Nat} {h : Heap} {bs : List UInt8} : s.objs p = some bs → free fuel s.heap p = some h →
      Step ly s (.free p) ⟨h, Function.update s.objs p none, s.arena⟩
  | store {p o : Nat} {bs cs : List UInt8} : s.objs p = some cs → o + bs.length ≤ cs.length →
      Step ly s (.store p o bs) ⟨{ s.heap with mem := s.heap.mem.write (p + o) bs },
        Function.update s.objs p (some (cs.take o ++ bs ++ cs.drop (o + bs.length))), s.arena⟩
  | poke {a : Nat} {bs : List UInt8} :
      (∀ x, a ≤ x → x < a + bs.length → x ∉ s.owned ∧ (x < ly.base ∨ ly.base + 8 ≤ x)) →
      Step ly s (.poke a bs) ⟨{ s.heap with mem := s.heap.mem.write a bs }, s.objs, s.arena⟩
  | sbrk {increment m : Nat} {h : Heap} : s.heap.brk ly + increment < 2 ^ 32 →
      sbrk ly granted s.heap increment = some (m, h) → Step ly s (.sbrk increment) ⟨h, s.objs, s.arena⟩

/-- Before the first call. -/
def Sys.boot (mem : Store) : Sys := ⟨⟨mem, 0, 0⟩, fun _ => none, []⟩

/-! ## The invariant -/

/-- The blocks of the free list's invariant are those of the program, and hold what it believes. -/
structure Held (mem : Store) (objs : Nat → Option (List UInt8)) (live : List Block) : Prop where
  holds : ∀ b ∈ live, ∃ bs, objs (b.addr + 8) = some bs ∧ bs.length + 8 ≤ 8 * b.size ∧
    mem.read (b.addr + 8) bs.length = bs
  block : ∀ p bs, objs p = some bs → ∃ b ∈ live, p = b.addr + 8

/-- Before the first call of `malloc` there are no blocks. -/
def Inv (ly : Layout) (s : Sys) : Prop :=
  ∃ ns live, Good ly (s.heap.start ly) ns live s.owned ∧ (live ≠ [] → s.heap.freep ≠ 0) ∧ Held s.heap.mem s.objs live

variable {ly : Layout} {s t : Sys} {h h' : Heap} {ns live : List Block} {c d : Block} {n p x : Nat}
  {bs cs : List UInt8} {mem mem' : Store} {objs : Nat → Option (List UInt8)} {arena : Set Nat}

theorem start_of_ne (h0 : h.freep ≠ 0) : h.start ly = h := if_neg h0

@[simp] theorem start_oldBrk : (h.start ly).oldBrk = h.oldBrk := by
  unfold Heap.start
  split <;> rfl

@[simp] theorem start_brk : (h.start ly).brk ly = h.brk ly := by
  unfold Heap.brk
  rw [start_oldBrk]

theorem Good.start (g : Good ly h ns live arena) : h.start ly = h := start_of_ne g.freep_ne

theorem Held.congr (hh : Held mem objs live) (hm : ∀ d ∈ live, ∀ x ∈ span d.bytes, mem' x = mem x) :
    Held mem' objs live := by
  refine ⟨fun b hb => ?_, hh.block⟩
  obtain ⟨bs, h1, h2, h3⟩ := hh.holds b hb
  refine ⟨bs, h1, h2, (Store.read_congr fun i hi => hm b hb _ ?_).trans h3⟩
  simp [Block.stop]
  omega

/-- The header of a block of the program, from the program's pointer. -/
theorem Good.addr_inj (g : Good ly h ns (c :: live) arena) (hd : d ∈ live) : d.addr ≠ c.addr := by
  have h0 := (g.heads d (List.mem_cons_of_mem c hd)).2
  have := g.live_apart hd (x := d.addr) (by simp [Block.stop, h0])
  omega

/-- One more block. -/
theorem Held.cons (hh : Held mem objs live) (g : Good ly h ns (c :: live) arena) (hn : n + 8 ≤ 8 * c.size) :
    Held mem (Function.update objs (c.addr + 8) (some (mem.read (c.addr + 8) n))) (c :: live) := by
  constructor
  · intro b hb
    rcases List.mem_cons.1 hb with rfl | hb
    · exact ⟨_, Function.update_self .., by simpa using hn, by simp⟩
    · obtain ⟨bs, h1, h2⟩ := hh.holds b hb
      have hne := g.addr_inj hb
      exact ⟨bs, by rw [Function.update_of_ne (by omega), h1], h2⟩
  · intro p bs hp
    by_cases hpc : p = c.addr + 8
    · exact ⟨c, List.mem_cons_self, hpc⟩
    · rw [Function.update_of_ne hpc] at hp
      obtain ⟨b, hb, hpb⟩ := hh.block p bs hp
      exact ⟨b, List.mem_cons_of_mem c hb, hpb⟩

/-- One block less. -/
theorem Held.uncons (hh : Held mem objs (c :: live)) (g : Good ly h ns (c :: live) arena) :
    Held mem (Function.update objs (c.addr + 8) none) live := by
  constructor
  · intro b hb
    obtain ⟨bs, h1, h2⟩ := hh.holds b (List.mem_cons_of_mem c hb)
    have hne := g.addr_inj hb
    exact ⟨bs, by rw [Function.update_of_ne (by omega), h1], h2⟩
  · intro p bs hp
    by_cases hpc : p = c.addr + 8
    · rw [hpc, Function.update_self] at hp
      cases hp
    · rw [Function.update_of_ne hpc] at hp
      obtain ⟨b, hb, hpb⟩ := hh.block p bs hp
      rcases List.mem_cons.1 hb with rfl | hb
      · exact absurd hpb hpc
      · exact ⟨b, hb, hpb⟩

theorem Held.perm {live' : List Block} (hh : Held mem objs live) (hp : live.Perm live') : Held mem objs live' :=
  ⟨fun b hb => hh.holds b (hp.mem_iff.2 hb), fun p bs h => by simpa only [hp.mem_iff] using hh.block p bs h⟩

theorem Good.perm {live' : List Block} (g : Good ly h ns live arena) (hp : live.Perm live') :
    Good ly h ns live' arena :=
  ⟨g.head, g.chain, g.order, g.freep, g.full, g.tiles.perm ((hp.append_left ns).map _), fun b hb =>
    g.heads b (hp.mem_iff.2 hb), g.arena, g.brk⟩

/-! ## Room -/

/-- What is taken are the blocks of the program. -/
theorem taken_iff (g : Good ly (s.heap.start ly) ns live arena) (h0 : live ≠ [] → s.heap.freep ≠ 0)
    (hh : Held s.heap.mem s.objs live) : s.taken x ↔ ∃ d ∈ live, x ∈ span d.bytes := by
  have hsize : ∀ b ∈ live, size s.heap.mem b.addr = b.size := by
    intro b hb
    have := (g.heads b hb).1
    rwa [start_of_ne (h0 (List.ne_nil_of_mem hb))] at this
  constructor
  · rintro ⟨p, bs, hp, h1, h2⟩
    obtain ⟨b, hb, rfl⟩ := hh.block p bs hp
    rw [Nat.add_sub_cancel] at h1 h2
    rw [hsize b hb] at h2
    exact ⟨b, hb, h1, h2⟩
  · rintro ⟨b, hb, h1, h2⟩
    obtain ⟨bs, hbs, -⟩ := hh.holds b hb
    refine ⟨b.addr + 8, bs, hbs, ?_⟩
    rw [Nat.add_sub_cancel, hsize b hb]
    exact ⟨h1, h2⟩

/-- Free units in a row are in one block of the free list. -/
theorem room_iff (g : Good ly (s.heap.start ly) ns live s.owned) (h0 : live ≠ [] → s.heap.freep ≠ 0)
    (hh : Held s.heap.mem s.objs live) (hn : 0 < n) : s.Room n ↔ ∃ b ∈ ns, n ≤ b.size := by
  constructor
  · rintro ⟨a, ha⟩
    obtain ⟨b, hb, h1, h2⟩ := g.within a (a + 8 * n) (by omega) fun x h1 h2 => by
      obtain ⟨hx, hnt⟩ := ha x h1 h2
      rw [taken_iff g h0 hh] at hnt
      exact ⟨hx, fun d hd hxd => hnt ⟨d, hd, hxd⟩⟩
    refine ⟨b, hb, ?_⟩
    unfold Block.stop at h2
    omega
  · rintro ⟨b, hb, hnb⟩
    refine ⟨b.addr, fun x h1 h2 => ?_⟩
    have hx : x ∈ span b.bytes := ⟨h1, by simp only [Block.bytes_snd, Block.stop]; omega⟩
    refine ⟨g.tiles.subset (List.mem_map_of_mem (List.mem_append_left live hb)) hx, ?_⟩
    rw [taken_iff g h0 hh]
    rintro ⟨d, hd, hxd⟩
    exact Set.disjoint_left.1 (g.apart hb hd) hx hxd

/-! ## The steps -/

theorem boot_inv {mem : Store} : Inv ly (Sys.boot mem) := by
  refine ⟨[ly.node], [], ?_, fun h => absurd rfl h, ⟨by simp, by simp [Sys.boot]⟩⟩
  have hb : Vm.pageUp ly.stop < 2 ^ 32 := by
    have := ly.stop_lt
    unfold Vm.pageUp
    rw [uint32_of_lt this]
    exact lt_of_le_of_lt (Nat.div_mul_le_self _ _) this
  have hempty : (Sys.boot mem).owned = ∅ := by simp [Sys.boot, Sys.owned]
  rw [hempty]
  exact Good.first_call ⟨le_rfl, hb⟩ rfl

/-- The blocks of the program keep their bytes from the state before. -/
theorem Held.frame (hh : Held s.heap.mem s.objs live) (h0 : live ≠ [] → s.heap.freep ≠ 0)
    (hm : ∀ d ∈ live, ∀ x ∈ span d.bytes, mem' x = (s.heap.start ly).mem x) : Held mem' s.objs live :=
  hh.congr fun d hd x hx => by rw [hm d hd x hx, start_of_ne (h0 (List.ne_nil_of_mem hd))]

/-- A block is handed out. -/
theorem served_inv {A : List (Nat × Nat)} (hh : Held s.heap.mem s.objs live) (h0 : live ≠ [] → s.heap.freep ≠ 0)
    (hn : n ≤ 2 ^ 32 - 16) (hserve : Serves ly (s.heap.start ly) h live arena (units n) p)
    (hA : arena = { x | ∃ b ∈ A, x ∈ span b }) :
    (p ≠ 0 ∧ s.objs p = none) ∧ Inv ly ⟨h, Function.update s.objs p (some (h.mem.read p n)), A⟩ := by
  obtain ⟨ns', b, rfl, hb, g, hframe⟩ := hserve
  have hnew : s.objs (b.addr + 8) = none := by
    by_contra hc
    obtain ⟨bs, hbs⟩ := Option.ne_none_iff_exists'.1 hc
    obtain ⟨d, hd, hdb⟩ := hh.block _ bs hbs
    have := g.addr_inj hd
    omega
  have hheld := (hh.frame h0 hframe).cons g (n := n) (by rw [hb]; exact (units_le hn).2)
  refine ⟨⟨Nat.succ_ne_zero _, hnew⟩, ns', b :: live, ?_, fun _ => g.freep_ne, hheld⟩
  rw [g.start, Sys.owned, ← hA]
  exact g

theorem malloc_unique {brk : Nat → Bool} {f₁ f₂ : Nat} {r₁ r₂ : Nat × Heap} (h₁ : malloc ly brk f₁ h n = some r₁)
    (h₂ : malloc ly brk f₂ h n = some r₂) :
    r₁ = r₂ := by
  have h₃ := search_le h₁ (le_max_left f₁ f₂)
  have h₄ := search_le h₂ (le_max_right f₁ f₂)
  exact Option.some.inj (h₃.symm.trans h₄)

/-- How a call of `malloc` ends: with a new block, from the memory there is or from new memory. -/
inductive Outcome (ly : Layout) (s : Sys) (n p : Nat) (h : Heap) : Prop
  | found : s.Room (units n) → h.brk ly = s.heap.brk ly → p ≠ 0 ∧ s.objs p = none → Outcome ly s n p h
  | grown : ¬ s.Room (units n) → h.brk ly = s.want ly n → p ≠ 0 ∧ s.objs p = none → Outcome ly s n p h

theorem Outcome.new (ho : Outcome ly s n p h) : p ≠ 0 ∧ s.objs p = none := by
  cases ho with
  | found _ _ hnew => exact hnew
  | grown _ _ hnew => exact hnew

/-- Where there is room `malloc` returns a block of it, and does not ask for memory. -/
theorem Inv.malloc_found (hi : Inv ly s) (hn : n ≤ 2 ^ 32 - 16) (hroom : s.Room (units n)) (brk : Nat → Bool) :
    ∃ fuel p h, malloc ly brk fuel s.heap n = some (p, h) ∧ Outcome ly s n p h ∧ h.brk ly = s.heap.brk ly ∧
      Inv ly ⟨h, Function.update s.objs p (some (h.mem.read p n)), s.extend ly h⟩ := by
  obtain ⟨ns, live, g, h0, hh⟩ := hi
  obtain ⟨p, h, hrun, hserve, hold⟩ := g.malloc_some brk ((room_iff g h0 hh units_pos).1 hroom)
  have hbrk : h.brk ly = s.heap.brk ly := by
    rw [← start_brk (h := s.heap), Heap.brk, Heap.brk, hold]
  obtain ⟨hp, hinv⟩ := served_inv (A := s.arena) hh h0 hn hserve rfl
  refine ⟨_, p, h, hrun _ (Nat.lt_succ_self _), .found hroom hbrk hp, hbrk, ?_⟩
  rwa [Sys.extend, if_pos hbrk]

/-- Where there is none it returns a block of the memory that it gets. -/
theorem Inv.malloc_grown (hi : Inv ly s) (hn : n ≤ 2 ^ 32 - 16) (hno : ¬ s.Room (units n))
    (hlt : s.want ly n < 2 ^ 32) :
    ∃ fuel p h, malloc ly granted fuel s.heap n = some (p, h) ∧ Outcome ly s n p h ∧
      Inv ly ⟨h, Function.update s.objs p (some (h.mem.read p n)), s.extend ly h⟩ := by
  obtain ⟨ns, live, g, h0, hh⟩ := hi
  have hsmall : ∀ b ∈ ns, b.size < units n := fun b hb => lt_of_not_ge fun hc =>
    hno ((room_iff g h0 hh units_pos).2 ⟨b, hb, hc⟩)
  have hwant : s.want ly n = (s.heap.start ly).brk ly + 8 * asked (units n) := by
    rw [start_brk]
    rfl
  rw [hwant] at hlt
  obtain ⟨N, p, h, hrun, hserve, hold⟩ := g.malloc_grow hsmall (fun _ => (rfl : granted _ = true)) rfl hlt
  have hasked : 0 < asked (units n) := by
    unfold asked
    split <;> omega
  have hbrk : h.brk ly = s.want ly n := by
    rw [Heap.brk, hold, hwant, if_neg (by omega)]
  have hne : ¬ h.brk ly = s.heap.brk ly := by
    rw [hbrk, hwant, start_brk]
    omega
  obtain ⟨hp, hinv⟩ := served_inv (A := s.extend ly h) hh h0 hn hserve (by
    rw [Sys.extend, if_neg hne, hbrk, hwant, start_brk]
    ext x
    simp [Sys.owned])
  exact ⟨N, p, h, hrun N le_rfl, .grown hno hbrk hp, hinv⟩

/-- `malloc` returns. -/
theorem Inv.malloc_total (hi : Inv ly s) (hn : n ≤ 2 ^ 32 - 16) (hs : Sane ly s n) :
    ∃ fuel p h, malloc ly granted fuel s.heap n = some (p, h) ∧ Outcome ly s n p h ∧
      Inv ly ⟨h, Function.update s.objs p (some (h.mem.read p n)), s.extend ly h⟩ := by
  by_cases hroom : s.Room (units n)
  · obtain ⟨fuel, p, h, he, hout, -, hinv⟩ := hi.malloc_found hn hroom granted
    exact ⟨fuel, p, h, he, hout, hinv⟩
  · exact hi.malloc_grown hn hroom (hs.resolve_left hroom)

theorem Inv.malloc {fuel : Nat} (hi : Inv ly s) (hn : n ≤ 2 ^ 32 - 16) (hs : Sane ly s n)
    (he : malloc ly granted fuel s.heap n = some (p, h)) : Outcome ly s n p h ∧
      Inv ly ⟨h, Function.update s.objs p (some (h.mem.read p n)), s.extend ly h⟩ := by
  obtain ⟨f, p', h', he', hout, hinv⟩ := hi.malloc_total hn hs
  obtain ⟨rfl, rfl⟩ := Prod.mk.inj (malloc_unique he he')
  exact ⟨hout, hinv⟩

/-- `free` returns. -/
theorem Inv.free_total (hi : Inv ly s) (hp : s.objs p = some bs) : ∃ fuel h, free fuel s.heap p = some h ∧
    Inv ly ⟨h, Function.update s.objs p none, s.arena⟩ := by
  obtain ⟨ns, live, g, h0, hh⟩ := hi
  obtain ⟨b, hb, rfl⟩ := hh.block p bs hp
  have hst : s.heap.start ly = s.heap := start_of_ne (h0 (List.ne_nil_of_mem hb))
  obtain ⟨l, r, rfl⟩ := List.append_of_mem hb
  have hperm : (l ++ b :: r).Perm (b :: (l ++ r)) := List.perm_middle
  rw [hst] at g
  obtain ⟨ns', h, hrun, g', -, hframe⟩ := (g.perm hperm).free
  refine ⟨_, h, hrun _ le_rfl, ns', l ++ r, ?_, fun _ => g'.freep_ne, ?_⟩
  · rw [g'.start]
    exact g'
  · exact ((hh.perm hperm).uncons (g.perm hperm)).congr hframe

theorem Inv.free {fuel : Nat} (hi : Inv ly s) (hp : s.objs p = some bs) (he : free fuel s.heap p = some h) :
    Inv ly ⟨h, Function.update s.objs p none, s.arena⟩ := by
  obtain ⟨f, h', he', hinv⟩ := hi.free_total hp
  have h₁ := free_le he (le_max_left fuel f)
  have h₂ := free_le he' (le_max_right fuel f)
  obtain rfl := Option.some.inj (h₁.symm.trans h₂)
  exact hinv

/-- A write that leaves the headers and the free blocks alone. -/
theorem Good.congr (g : Good ly h ns live arena)
    (hm : ∀ b ∈ ns ++ live, ∀ i < 8, mem' (b.addr + i) = h.mem (b.addr + i)) :
    Good ly { h with mem := mem' } ns live arena := by
  refine ⟨g.head, g.chain.congr fun b hb => hm b (List.mem_append_left live hb), g.order, g.freep, g.full, g.tiles,
    fun b hb => ?_, g.arena, g.brk⟩
  obtain ⟨h1, h2⟩ := g.heads b hb
  exact ⟨(size_congr (hm b (List.mem_append_right ns hb))).trans h1, h2⟩

/-- A byte that is written stays in place when the first call comes later. -/
theorem start_congr {a : Nat} (hm : mem' a = h.mem a) :
    (Heap.start ly { h with mem := mem' }).mem a = (h.start ly).mem a := by
  unfold Heap.start
  split
  · simp only [setSize, setPtr, Store.setWord, Store.write, hm]
  · exact hm

/-- A write to memory that is neither free nor a header. -/
theorem Good.write (g : Good ly (h.start ly) ns live arena)
    (hm : ∀ b ∈ ns ++ live, ∀ i < 8, mem' (b.addr + i) = h.mem (b.addr + i)) :
    Good ly (Heap.start ly { h with mem := mem' }) ns live arena := by
  have h1 : Heap.start ly { h with mem := mem' } =
      { h.start ly with mem := (Heap.start ly { h with mem := mem' }).mem } := by
    unfold Heap.start
    split <;> rfl
  rw [h1]
  exact g.congr fun b hb i hi => start_congr (hm b hb i hi)

theorem Inv.store {o : Nat} (hi : Inv ly s) (hp : s.objs p = some cs) (ho : o + bs.length ≤ cs.length) :
    Inv ly ⟨{ s.heap with mem := s.heap.mem.write (p + o) bs },
      Function.update s.objs p (some (cs.take o ++ bs ++ cs.drop (o + bs.length))), s.arena⟩ := by
  obtain ⟨ns, live, g, h0, hh⟩ := hi
  obtain ⟨b, hb, rfl⟩ := hh.block p cs hp
  obtain ⟨cs', hcs, hlen, hread⟩ := hh.holds b hb
  obtain rfl : cs = cs' := Option.some.inj (hp.symm.trans hcs)
  have hin : ∀ x, b.addr + 8 ≤ x → x < b.addr + 8 + cs.length → x ∈ span b.bytes := by
    intro x h1 h2
    simp [Block.stop]
    omega
  -- the other blocks of the program
  obtain ⟨l, r, rfl⟩ := List.append_of_mem hb
  have hperm : (l ++ b :: r).Perm (b :: (l ++ r)) := List.perm_middle
  have gp := g.perm hperm
  have hother : ∀ d ∈ l ++ r, ∀ x ∈ span d.bytes, s.heap.mem.write (b.addr + 8 + o) bs x = s.heap.mem x := by
    intro d hd x hx
    refine Store.write_out ?_
    by_contra hn
    exact Set.disjoint_left.1 (gp.live_disjoint hd) (hin x (by omega) (by omega)) hx
  have hheld := (((hh.perm hperm).uncons gp).congr hother).cons gp (n := cs.length) hlen
  rw [Function.update_idem, Store.read_write_within ho, hread] at hheld
  refine ⟨ns, b :: (l ++ r), gp.write fun d hd i hi => ?_, fun _ => h0 (List.ne_nil_of_mem hb), hheld⟩
  rcases List.mem_append.1 hd with hd | hd
  · refine Store.write_out ?_
    by_contra hn
    have := gp.head_apart hd List.mem_cons_self (hin (d.addr + i) (by omega) (by omega))
    omega
  · rcases List.mem_cons.1 hd with rfl | hd
    · exact Store.write_out (by omega)
    · have := (gp.heads d (List.mem_cons_of_mem b hd)).2
      exact hother d hd _ (by simp [Block.stop]; omega)

theorem Inv.poke {a : Nat} (hi : Inv ly s)
    (ha : ∀ x, a ≤ x → x < a + bs.length → x ∉ s.owned ∧ (x < ly.base ∨ ly.base + 8 ≤ x)) :
    Inv ly ⟨{ s.heap with mem := s.heap.mem.write a bs }, s.objs, s.arena⟩ := by
  obtain ⟨ns, live, g, h0, hh⟩ := hi
  have hout : ∀ x ∈ s.owned, s.heap.mem.write a bs x = s.heap.mem x := by
    intro x hx
    refine Store.write_out ?_
    by_contra hn
    exact (ha x (by omega) (by omega)).1 hx
  have hsub : ∀ b ∈ ns ++ live, span b.bytes ⊆ s.owned := fun b hb => g.tiles.subset (List.mem_map_of_mem hb)
  refine ⟨ns, live, g.write fun b hb i hi => ?_, h0, hh.congr fun d hd x hx =>
    hout x (hsub d (List.mem_append_right ns hd) hx)⟩
  have hpos : 0 < b.size → s.heap.mem.write a bs (b.addr + i) = s.heap.mem (b.addr + i) := fun h0 =>
    hout _ (hsub b hb (by simp [Block.stop]; omega))
  rcases List.mem_append.1 hb with hb | hb
  · rcases g.full b hb with rfl | h0
    · refine Store.write_out ?_
      by_contra hn
      have h1 := (ha (ly.node.addr + i) (by omega) (by omega)).2
      simp only [Layout.node] at h1
      omega
    · exact hpos h0
  · exact hpos (g.heads b hb).2

theorem Inv.sbrk {inc m : Nat} (hi : Inv ly s) (hlt : s.heap.brk ly + inc < 2 ^ 32)
    (he : sbrk ly granted s.heap inc = some (m, h)) :
    Inv ly ⟨h, s.objs, s.arena⟩ := by
  obtain ⟨ns, live, g, h0, hh⟩ := hi
  have hpos : 0 < s.heap.brk ly := by
    have h1 := g.brk.1
    have h2 := stop_le_pageUp ly
    have h3 := ly.base_stop
    rw [start_brk] at h1
    omega
  -- the break is where it was, or higher
  obtain ⟨b, hle, hb, rfl⟩ : ∃ b, s.heap.brk ly ≤ b ∧ b < 2 ^ 32 ∧ h = ⟨s.heap.mem, s.heap.freep, b⟩ := by
    rw [Good.sbrk_eq fun _ => (rfl : granted _ = true), uint32_of_lt hlt] at he
    cases he
    exact ⟨_, Nat.le_add_right _ _, hlt, rfl⟩
  have hst : Heap.start ly ⟨s.heap.mem, s.heap.freep, b⟩ = ⟨(s.heap.start ly).mem, (s.heap.start ly).freep, b⟩ := by
    unfold Heap.start
    split <;> rfl
  have hbrk : Heap.brk ly ⟨(s.heap.start ly).mem, (s.heap.start ly).freep, b⟩ = b := if_neg (by simp only; omega)
  refine ⟨ns, live, ?_, h0, hh⟩
  have hg := g.brk
  rw [start_brk] at hg
  rw [hst]
  refine ⟨g.head, g.chain, g.order, g.freep, g.full, g.tiles, g.heads, fun x hx => ?_, ?_⟩ <;> rw [hbrk]
  · obtain ⟨h1, h2⟩ := g.arena x hx
    rw [start_brk] at h2
    exact ⟨h1, by omega⟩
  · exact ⟨by omega, hb⟩

theorem Inv.step {e : Event} (hi : Inv ly s) (hs : Step ly s e t) : Inv ly t := by
  cases hs with
  | malloc hn hsane he => exact (hi.malloc hn hsane he).2
  | free hp he => exact hi.free hp he
  | store hp ho => exact hi.store hp ho
  | poke ha => exact hi.poke ha
  | sbrk hlt he => exact hi.sbrk hlt he

/-! ## Whole runs -/

theorem run_inv {es : List Event} (hr : Run (Step ly) (Sys.boot mem) es s) : Inv ly s :=
  hr.invariant (fun _ _ _ hi hs => hi.step hs) boot_inv

/-- After any run each block of the program holds the bytes that the program last wrote to it, no two
overlap, all are memory that `malloc` got from the system, and the next block will be a new one. -/
theorem blocks_intact {es : List Event} (hr : Run (Step ly) (Sys.boot mem) es s) :
    (∀ p bs, s.objs p = some bs → s.heap.mem.read p bs.length = bs ∧ ∀ x, p ≤ x → x < p + bs.length → x ∈ s.owned) ∧
    (∀ p q bs cs, s.objs p = some bs → s.objs q = some cs → p ≠ q → p + bs.length ≤ q ∨ q + cs.length ≤ p) ∧
    ∀ n p t, Step ly s (.malloc n p) t → p ≠ 0 ∧ s.objs p = none := by
  have hi := run_inv hr
  obtain ⟨ns, live, g, h0, hh⟩ := hi
  have hblock : ∀ p bs, s.objs p = some bs → ∃ b ∈ live, p = b.addr + 8 ∧ s.heap.mem.read p bs.length = bs ∧
      bs.length + 8 ≤ 8 * b.size := by
    intro p bs hp
    obtain ⟨b, hb, rfl⟩ := hh.block p bs hp
    obtain ⟨bs', h1, h2, h3⟩ := hh.holds b hb
    obtain rfl : bs = bs' := Option.some.inj (hp.symm.trans h1)
    exact ⟨b, hb, rfl, h3, h2⟩
  refine ⟨fun p bs hp => ?_, fun p q bs cs hp hq hne => ?_, fun n p t hs => ?_⟩
  · obtain ⟨b, hb, rfl, hread, hlen⟩ := hblock p bs hp
    refine ⟨hread, fun x h1 h2 => g.tiles.subset (List.mem_map_of_mem (List.mem_append_right ns hb)) ?_⟩
    simp [Block.stop]
    omega
  · obtain ⟨b, hb, rfl, -, hlen⟩ := hblock p bs hp
    obtain ⟨d, hd, rfl, -, hlen'⟩ := hblock q cs hq
    obtain ⟨l, r, rfl⟩ := List.append_of_mem hb
    have hperm : (l ++ b :: r).Perm (b :: (l ++ r)) := List.perm_middle
    have hdr : d ∈ l ++ r := by
      rcases List.mem_cons.1 (hperm.mem_iff.1 hd) with rfl | hd
      · exact absurd rfl hne
      · exact hd
    have hdis := (g.perm hperm).live_disjoint hdr
    by_contra hn
    -- the block that begins later would begin within the other one
    rcases le_total b.addr d.addr with hbd | hbd
    · have hx : d.addr ∈ span b.bytes := by simp [Block.stop]; omega
      exact Set.disjoint_left.1 hdis hx (by simp [Block.stop]; omega)
    · have hx : b.addr ∈ span d.bytes := by simp [Block.stop]; omega
      exact Set.disjoint_left.1 hdis (by simp [Block.stop]; omega) hx
  · cases hs with
    | malloc hn hsane he => exact (Inv.malloc ⟨ns, live, g, h0, hh⟩ hn hsane he).1.new

/-- After any run `malloc` and `free` return, `malloc` with a block, and it asks for memory only when there are
not as many free units in a row as the request needs. -/
theorem calls_return {es : List Event} (hr : Run (Step ly) (Sys.boot mem) es s) (hn : n ≤ 2 ^ 32 - 16)
    (hs : Sane ly s n) :
    (∃ fuel p h, malloc ly granted fuel s.heap n = some (p, h) ∧ Outcome ly s n p h) ∧
      ∀ p bs, s.objs p = some bs → ∃ fuel h, free fuel s.heap p = some h := by
  have hi := run_inv hr
  constructor
  · obtain ⟨fuel, p, h, he, hout, -⟩ := hi.malloc_total hn hs
    exact ⟨fuel, p, h, he, hout⟩
  · intro p bs hp
    obtain ⟨fuel, h, he, -⟩ := hi.free_total hp
    exact ⟨fuel, h, he⟩

/-- The break does not go back. -/
theorem Outcome.brk_le (ho : Outcome ly s n p h) : s.heap.brk ly ≤ h.brk ly := by
  cases ho with
  | found _ hb => exact hb.ge
  | grown _ hb => exact le_of_le_of_eq (Nat.le_add_right _ _) hb.symm

theorem free_brk {fuel : Nat} (he : free fuel h p = some h') : h'.brk ly = h.brk ly := by
  simp only [free, Option.map_eq_some_iff] at he
  obtain ⟨q, -, rfl⟩ := he
  simp only [Heap.brk]

theorem Inv.base_le_brk (hi : Inv ly s) : Vm.pageUp ly.stop ≤ s.heap.brk ly := by
  obtain ⟨ns, live, g, -⟩ := hi
  rw [← start_brk]
  exact g.brk.1

/-- Without calls of `sbrk` by the program the arena has no holes. -/
theorem arena_compact {es : List Event} (hr : Run (fun s e t => Step ly s e t ∧ ∀ i, e ≠ .sbrk i) (Sys.boot mem) es s) :
    Inv ly s ∧ ∀ x, x ∈ s.owned ↔ Vm.pageUp ly.stop ≤ x ∧ x < s.heap.brk ly := by
  refine hr.invariant (I := fun s => Inv ly s ∧ ∀ x, x ∈ s.owned ↔ Vm.pageUp ly.stop ≤ x ∧ x < s.heap.brk ly) ?_
    ⟨boot_inv, ?_⟩
  · rintro s e t ⟨hi, hx⟩ ⟨hs, hno⟩
    refine ⟨hi.step hs, ?_⟩
    cases hs with
    | malloc hn hsane he =>
      rename_i h
      have hbase := hi.base_le_brk
      have hle := (hi.malloc hn hsane he).1.brk_le
      intro x
      show (∃ b ∈ s.extend ly h, x ∈ span b) ↔ Vm.pageUp ly.stop ≤ x ∧ x < h.brk ly
      unfold Sys.extend
      split
      · next heq =>
        rw [heq]
        exact hx x
      · have hxs : (∃ b ∈ s.arena, x ∈ span b) ↔ Vm.pageUp ly.stop ≤ x ∧ x < s.heap.brk ly := hx x
        rw [List.exists_mem_cons_iff, hxs, mem_span]
        constructor
        · rintro (h1 | h1)
          · exact ⟨hbase.trans h1.1, h1.2⟩
          · exact ⟨h1.1, lt_of_lt_of_le h1.2 hle⟩
        · rintro ⟨h1, h2⟩
          rcases lt_or_ge x (s.heap.brk ly) with h3 | h3
          · exact Or.inr ⟨h1, h3⟩
          · exact Or.inl ⟨h3, h2⟩
    | free hp he =>
      intro x
      rw [free_brk he]
      exact hx x
    | store hp ho => exact hx
    | poke ha => exact hx
    | sbrk hlt he => exact absurd rfl (hno _)
  · intro x
    simp [Sys.boot, Sys.owned, Heap.brk]

/-- Nothing is lost: once a program that leaves `sbrk` to `malloc` has freed all its blocks, any request
that fits into the memory obtained so far is served from it. -/
theorem freed_reusable {es : List Event} (hr : Run (fun s e t => Step ly s e t ∧ ∀ i, e ≠ .sbrk i) (Sys.boot mem) es s)
    (hfree : ∀ p, s.objs p = none) (hn : n ≤ 2 ^ 32 - 16) (hfit : Vm.pageUp ly.stop + 8 * units n ≤ s.heap.brk ly)
    (brk : Nat → Bool) : ∃ fuel p h, malloc ly brk fuel s.heap n = some (p, h) ∧ p ≠ 0 ∧ h.brk ly = s.heap.brk ly := by
  obtain ⟨hi, hx⟩ := arena_compact hr
  have hroom : s.Room (units n) := by
    refine ⟨Vm.pageUp ly.stop, fun x h1 h2 => ⟨(hx x).2 ⟨h1, by omega⟩, ?_⟩⟩
    rintro ⟨p, bs, hp, -⟩
    rw [hfree p] at hp
    cases hp
  obtain ⟨fuel, p, h, he, hout, hb, -⟩ := hi.malloc_found hn hroom brk
  exact ⟨fuel, p, h, he, hout.new.1, hb⟩

/-! ## A run -/

/-- `base` at 0x8049000, and a page of other statics. -/
def layout : Layout := ⟨0x8049000, 0x804a000, by decide, by decide, by decide⟩

theorem layout_sane (mem : Store) : Sane layout (Sys.boot mem) 10 := by
  have hwant : (Sys.boot mem).want layout 10 = Vm.pageUp layout.stop + 8 * asked (units 10) := rfl
  refine Or.inr ?_
  rw [hwant]
  decide

/-- A program asks for 10 bytes. -/
theorem first_block (mem : Store) : ∃ p s bs, Step layout (Sys.boot mem) (.malloc 10 p) s ∧ p ≠ 0 ∧ bs.length = 10 ∧
    s.objs = Function.update (fun _ => none) p (some bs) ∧ s.heap.brk layout = Vm.pageUp layout.stop + 32768 := by
  obtain ⟨fuel, p, h, he, hout, -⟩ := (boot_inv : Inv layout (Sys.boot mem)).malloc_total (n := 10)
    (by decide) (layout_sane mem)
  obtain ⟨hp, hb⟩ : p ≠ 0 ∧ h.brk layout = (Sys.boot mem).want layout 10 := by
    cases hout with
    | found hroom =>
      obtain ⟨a, ha⟩ := hroom
      have := (ha a le_rfl (Nat.lt_add_of_pos_right (by decide))).1
      simp [Sys.boot, Sys.owned] at this
    | grown _ hb hnew => exact ⟨hnew.1, hb⟩
  exact ⟨p, _, h.mem.read p 10, .malloc (by decide : 10 ≤ 2 ^ 32 - 16) (layout_sane mem) he, hp, by simp, rfl, hb⟩

/-- It writes to the fourth of them. -/
theorem blocks_intact_stored : ∃ p t, Run (Step layout) (Sys.boot fun _ => 0) [.malloc 10 p, .store p 3 [7]] t ∧
    t.heap.mem (p + 3) = 7 := by
  obtain ⟨p, s, bs, hs, -, hlen, hobjs, -⟩ := first_block fun _ => 0
  have hp : s.objs p = some bs := by rw [hobjs, Function.update_self]
  have hr := (Run.single hs).append (Run.single (Step.store hp (show 3 + [7].length ≤ bs.length by rw [hlen]; decide)))
  refine ⟨p, _, hr, ?_⟩
  have hread := ((blocks_intact hr).1 p _ (Function.update_self ..)).1
  have h3 := congrArg (fun l : List UInt8 => l[3]?) hread
  simpa [hlen, Store.read] using h3

theorem calls_return_first : ∃ fuel p h, malloc layout granted fuel (Sys.boot fun _ => 0).heap 10 = some (p, h) ∧
    Outcome layout (Sys.boot fun _ => 0) 10 p h :=
  (calls_return .nil (by decide : 10 ≤ 2 ^ 32 - 16) (layout_sane _)).1

/-- It frees the block, and asks for 30000 bytes. -/
theorem freed_reusable_again : ∃ p s fuel q h,
    Run (fun s e t => Step layout s e t ∧ ∀ i, e ≠ .sbrk i) (Sys.boot fun _ => 0)
    [.malloc 10 p, .free p] s ∧ malloc layout (fun _ => false) fuel s.heap 30000 = some (q, h) ∧ q ≠ 0 := by
  obtain ⟨p, s, bs, hs, -, -, hobjs, hbrk⟩ := first_block fun _ => 0
  have hp : s.objs p = some bs := by rw [hobjs, Function.update_self]
  obtain ⟨fuel, h, he, -⟩ := (boot_inv.step hs).free_total hp
  have hr : Run (fun s e t => Step layout s e t ∧ ∀ i, e ≠ .sbrk i) (Sys.boot fun _ => 0)
      ([.malloc 10 p] ++ [.free p]) _ :=
    .snoc (.single ⟨hs, by simp⟩) ⟨.free hp he, by simp⟩
  have hfree : Function.update s.objs p none = fun _ => none := by
    rw [hobjs, Function.update_idem]
    exact Function.update_eq_self p _
  obtain ⟨f, q, h', hq, hne, -⟩ := freed_reusable hr (fun q => congrFun hfree q) (by decide : 30000 ≤ 2 ^ 32 - 16)
    (by rw [free_brk he, hbrk]; decide) fun _ => false
  exact ⟨p, _, f, q, h', hr, hq, hne⟩

end TinyOS.Malloc
