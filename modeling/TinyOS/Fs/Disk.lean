/-
The disk driver and its block cache (kernel/src/disk.c): sixteen direct-mapped slots in front of
the sectors of the disk, and that nothing behind `bread`, `bwrite` and `bzero` sees them.
-/
import TinyOS.Fs.Basic

namespace TinyOS

open TinyOS.Lib

namespace Disk

abbrev sectSize : Nat := 512
abbrev blkSize : Nat := sectSize * 8
abbrev bcacheNum : Nat := 16

/-- `bcache_t`. -/
structure Bcache where
  valid : Bool
  no : Nat
  buf : List UInt8

/-! ## Sectors -/

def readDisk (m : Store) (sect : Nat) : List UInt8 := m.read (sect * sectSize) sectSize

def writeDisk (m : Store) (buf : List UInt8) (sect : Nat) : Store := m.write (sect * sectSize) (buf.take sectSize)

/-- `n` rounds of the loop of `copy_from_disk`, from sector `sect` on. -/
def copyFromDiskLoop (m : Store) : (n sect : Nat) → List UInt8
  | 0, _ => []
  | n + 1, sect => readDisk m sect ++ copyFromDiskLoop m n (sect + 1)

/-- The sectors are read while the address is below the end of the buffer. -/
def copyFromDisk (m : Store) (nbytes diskOffset : Nat) : List UInt8 :=
  copyFromDiskLoop m ((nbytes + sectSize - 1) / sectSize) (diskOffset / sectSize)

/-- `n` rounds of the loop of `copy_to_disk`, from sector `sect` on. -/
def copyToDiskLoop : (n : Nat) → (m : Store) → (buf : List UInt8) → (sect : Nat) → Store
  | 0, m, _, _ => m
  | n + 1, m, buf, sect => copyToDiskLoop n (writeDisk m buf sect) (buf.drop sectSize) (sect + 1)

def copyToDisk (m : Store) (buf : List UInt8) (nbytes diskOffset : Nat) : Store :=
  copyToDiskLoop ((nbytes + sectSize - 1) / sectSize) m buf (diskOffset / sectSize)

end Disk

/-- The sectors and `blk_cache`. -/
structure Disk where
  sectors : Store
  blkCache : Nat → Disk.Bcache

namespace Disk

/-- The slot of block `no`, filled from the disk unless it holds that block. -/
def bgetcache (d : Disk) (no : Nat) : Disk :=
  let bc := d.blkCache (no % bcacheNum)
  if bc.valid = false ∨ bc.no ≠ no then
    ⟨d.sectors, Function.update d.blkCache (no % bcacheNum) ⟨true, no, copyFromDisk d.sectors blkSize (no * blkSize)⟩⟩
  else d

/-- The buffer of a slot changed and written back. -/
def putBuf (d : Disk) (no : Nat) (buf : List UInt8) : Disk :=
  ⟨copyToDisk d.sectors buf blkSize (no * blkSize),
    Function.update d.blkCache (no % bcacheNum) { d.blkCache (no % bcacheNum) with buf := buf }⟩

def bread (d : Disk) (size no off : Nat) : Option (List UInt8 × Disk) :=
  if uint32 (size + off) ≤ blkSize then
    let d := d.bgetcache no
    some (((d.blkCache (no % bcacheNum)).buf.drop off).take size, d)
  else none

def bwrite (d : Disk) (src : List UInt8) (no off : Nat) : Option Disk :=
  if uint32 (src.length + off) ≤ blkSize then
    let d := d.bgetcache no
    let buf := (d.blkCache (no % bcacheNum)).buf
    some (d.putBuf no (buf.take off ++ src ++ buf.drop (off + src.length)))
  else none

def bzero (d : Disk) (no : Nat) : Disk :=
  let d := d.bgetcache no
  d.putBuf no (List.replicate blkSize 0)

/-- Before the first call no slot is valid. -/
def init (m : Store) : Disk := ⟨m, fun _ => ⟨false, 0, List.replicate blkSize 0⟩⟩

/-! ## Calls -/

/-- A call of the driver. -/
inductive Call where
  | bread (size no off : Nat)
  | bwrite (src : List UInt8) (no off : Nat)
  | bzero (no : Nat)

/-- The blocks of the disk are numbered below 32768, and a call stays within one block. -/
def Call.Ok : Call → Prop
  | .bread size no off => no < 32768 ∧ off + size ≤ blkSize
  | .bwrite src no off => no < 32768 ∧ off + src.length ≤ blkSize
  | .bzero no => no < 32768

instance : (c : Call) → Decidable c.Ok
  | .bread _ _ _ => inferInstanceAs (Decidable (_ ∧ _))
  | .bwrite _ _ _ => inferInstanceAs (Decidable (_ ∧ _))
  | .bzero _ => inferInstanceAs (Decidable (_ < _))

/-- What a call delivers, and the disk behind it. -/
def call (d : Disk) : Call → Option (List UInt8 × Disk)
  | .bread size no off => d.bread size no off
  | .bwrite src no off => (d.bwrite src no off).map fun d => ([], d)
  | .bzero no => some ([], d.bzero no)

def calls : List Call → Disk → Option (List (List UInt8) × Disk)
  | [], d => some ([], d)
  | c :: cs, d => do
    let (r, d) ← d.call c
    let (rs, d) ← calls cs d
    return (r :: rs, d)

/-- The same call on an array of blocks without a cache. -/
def plain (m : Store) : Call → List UInt8 × Store
  | .bread size no off => (m.read (no * blkSize + off) size, m)
  | .bwrite src no off => ([], m.write (no * blkSize + off) src)
  | .bzero no => ([], m.fill (no * blkSize) blkSize 0)

def plains : List Call → Store → List (List UInt8) × Store
  | [], m => ([], m)
  | c :: cs, m => ((plain m c).1 :: (plains cs (plain m c).2).1, (plains cs (plain m c).2).2)

variable {d : Disk} {m : Store} {no off size n sect : Nat} {buf src : List UInt8}

/-! ## The sector loops -/

theorem copyFromDiskLoop_eq : ∀ {n sect : Nat}, copyFromDiskLoop m n sect = m.read (sect * sectSize) (n * sectSize)
  | 0, _ => by rw [Nat.zero_mul, Store.read_zero, copyFromDiskLoop]
  | n + 1, sect => by
    rw [copyFromDiskLoop, copyFromDiskLoop_eq, readDisk, Nat.add_one_mul n, Nat.add_comm (n * sectSize),
      Store.read_append, Nat.add_one_mul]

/-- Blocks start at sectors. -/
theorem sect_blk : no * blkSize / sectSize * sectSize = no * blkSize := by
  simp only [blkSize, sectSize]
  omega

theorem copyFromDisk_eq : copyFromDisk m blkSize (no * blkSize) = m.read (no * blkSize) blkSize := by
  unfold copyFromDisk
  rw [copyFromDiskLoop_eq, sect_blk]
  rfl

theorem copyToDiskLoop_eq : ∀ {n sect : Nat} {m : Store} {buf : List UInt8}, buf.length = n * sectSize →
    copyToDiskLoop n m buf sect = m.write (sect * sectSize) buf
  | 0, _, m, buf, h => by
    rw [Nat.zero_mul] at h
    rw [List.eq_nil_of_length_eq_zero h, Store.write_nil, copyToDiskLoop]
  | n + 1, sect, m, buf, h => by
    have hdrop : (buf.drop sectSize).length = n * sectSize := by
      rw [List.length_drop, h, Nat.add_one_mul, Nat.add_sub_cancel]
    have htake : (buf.take sectSize).length = sectSize := by
      rw [List.length_take, h]
      simp only [sectSize]
      omega
    rw [copyToDiskLoop, copyToDiskLoop_eq hdrop, writeDisk, Nat.add_one_mul]
    conv_rhs => rw [← List.take_append_drop sectSize buf]
    rw [Store.write_append, htake]

theorem copyToDisk_eq (h : buf.length = blkSize) :
    copyToDisk m buf blkSize (no * blkSize) = m.write (no * blkSize) buf := by
  unfold copyToDisk
  have hn : (blkSize + sectSize - 1) / sectSize = 8 := rfl
  rw [hn, copyToDiskLoop_eq (h.trans rfl), sect_blk]

/-! ## Coherence -/

/-- Every valid slot holds what the disk holds for its block. -/
def Coherent (d : Disk) : Prop :=
  ∀ i < bcacheNum, (d.blkCache i).valid = true →
    (d.blkCache i).no % bcacheNum = i ∧
      (d.blkCache i).buf = d.sectors.read ((d.blkCache i).no * blkSize) blkSize

theorem init_coherent : (init m).Coherent := fun _ _ h => by cases h

theorem slot_lt : no % bcacheNum < bcacheNum := Nat.mod_lt _ (by decide)

/-- After `bgetcache` the slot holds the block, the disk is as it was, and the cache is coherent. -/
theorem bgetcache_spec (no : Nat) (h : d.Coherent) :
    (d.bgetcache no).sectors = d.sectors ∧ (d.bgetcache no).Coherent ∧
      ((d.bgetcache no).blkCache (no % bcacheNum)).valid = true ∧
      ((d.bgetcache no).blkCache (no % bcacheNum)).no = no ∧
      ((d.bgetcache no).blkCache (no % bcacheNum)).buf = d.sectors.read (no * blkSize) blkSize := by
  unfold bgetcache
  by_cases hmiss : (d.blkCache (no % bcacheNum)).valid = false ∨ (d.blkCache (no % bcacheNum)).no ≠ no
  · rw [if_pos hmiss]
    simp only [Function.update_self, copyFromDisk_eq, and_true, true_and]
    -- the slot now holds block `no`, the others are as before
    intro i hi hv
    by_cases hin : i = no % bcacheNum
    · simp only [hin, Function.update_self, and_self]
    · simp only [Function.update_of_ne hin] at hv ⊢
      exact h i hi hv
  · rw [if_neg hmiss]
    push Not at hmiss
    obtain ⟨hv, hno⟩ := hmiss
    rw [ne_eq, Bool.not_eq_false] at hv
    have hbuf := (h _ slot_lt hv).2
    rw [hno] at hbuf
    exact ⟨rfl, h, hv, hno, hbuf⟩

/-- The buffer of the slot of a block changed and written back. -/
theorem putBuf_spec (buf : List UInt8) (h : d.Coherent) (hno : (d.blkCache (no % bcacheNum)).no = no)
    (hb : buf.length = blkSize) :
    (d.putBuf no buf).sectors = d.sectors.write (no * blkSize) buf ∧ (d.putBuf no buf).Coherent := by
  have hs : (d.putBuf no buf).sectors = d.sectors.write (no * blkSize) buf := copyToDisk_eq hb
  refine ⟨hs, fun i hi hv => ?_⟩
  rw [hs]
  by_cases hin : i = no % bcacheNum
  · simp only [putBuf, hin, Function.update_self, hno, true_and]
    rw [← hb, Store.read_write_self]
  · -- another slot holds another block, whose bytes are elsewhere
    simp only [putBuf, Function.update_of_ne hin] at hv ⊢
    obtain ⟨h1, h2⟩ := h i hi hv
    refine ⟨h1, h2.trans (Store.read_write_of_disjoint ?_).symm⟩
    have hne : (d.blkCache i).no ≠ no := fun hc => hin (by rw [← h1, hc])
    rw [hb]
    rcases Nat.lt_or_gt_of_ne hne with hlt | hlt
    · exact Or.inl (by simp only [blkSize, sectSize]; omega)
    · exact Or.inr (by simp only [blkSize, sectSize]; omega)

/-- Writing a block back with some of its bytes changed is writing these bytes. -/
theorem write_patched (h : off + src.length ≤ n) (a : Nat) :
    m.write a ((m.read a n).take off ++ src ++ (m.read a n).drop (off + src.length)) = m.write (a + off) src := by
  have hlen : ((m.read a n).take off ++ src ++ (m.read a n).drop (off + src.length)).length = n := by
    simp only [List.length_append, List.length_take, List.length_drop, Store.read_length]
    omega
  have htake : ((m.read a n).take off).length = off := by
    rw [List.length_take, Store.read_length]
    omega
  funext x
  by_cases hin : a ≤ x ∧ x < a + n
  · obtain ⟨k, rfl⟩ := Nat.exists_eq_add_of_le hin.1
    have hk : k < n := by omega
    rw [Store.write_add (by rw [hlen]; exact hk)]
    -- before, inside or behind the changed bytes
    by_cases h1 : k < off
    · rw [Store.write_out (Or.inl (by omega)), List.getElem_append_left (by rw [List.length_append, htake]; omega),
        List.getElem_append_left (by rw [htake]; exact h1), List.getElem_take, Store.read_getElem]
    · obtain ⟨l, rfl⟩ := Nat.exists_eq_add_of_le (Nat.le_of_not_lt h1)
      by_cases h2 : l < src.length
      · rw [← Nat.add_assoc a, Store.write_add h2,
          List.getElem_append_left (by rw [List.length_append, htake]; omega),
          List.getElem_append_right (by rw [htake]; omega)]
        simp only [htake, Nat.add_sub_cancel_left]
      · rw [Store.write_out (Or.inr (by omega)),
          List.getElem_append_right (by rw [List.length_append, htake]; omega), List.getElem_drop, Store.read_getElem]
        congr 1
        rw [List.length_append, htake]
        omega
  · rw [Store.write_out (by rw [hlen]; omega), Store.write_out (by omega)]

/-! ## The calls of the cached disk are those of the plain one -/

theorem bread_spec (no : Nat) (h : d.Coherent) (hs : off + size ≤ blkSize) :
    ∃ d', d.bread size no off = some (d.sectors.read (no * blkSize + off) size, d') ∧ d'.sectors = d.sectors ∧
      d'.Coherent := by
  obtain ⟨h1, h2, -, -, h5⟩ := bgetcache_spec no h
  unfold bread
  rw [if_pos (by rw [Nat.add_comm, uint32_of_lt (by simp only [blkSize, sectSize] at hs; omega)]; exact hs)]
  simp only [h5]
  rw [Store.read_drop_take hs]
  exact ⟨_, rfl, h1, h2⟩

theorem bwrite_spec (no : Nat) (h : d.Coherent) (hs : off + src.length ≤ blkSize) :
    ∃ d', d.bwrite src no off = some d' ∧ d'.sectors = d.sectors.write (no * blkSize + off) src ∧ d'.Coherent := by
  obtain ⟨h1, h2, -, h4, h5⟩ := bgetcache_spec no h
  unfold bwrite
  rw [if_pos (by rw [Nat.add_comm, uint32_of_lt (by simp only [blkSize, sectSize] at hs; omega)]; exact hs)]
  have hlen : ((d.sectors.read (no * blkSize) blkSize).take off ++ src ++
      (d.sectors.read (no * blkSize) blkSize).drop (off + src.length)).length = blkSize := by
    simp only [List.length_append, List.length_take, List.length_drop, Store.read_length]
    omega
  obtain ⟨h6, h7⟩ := putBuf_spec _ h2 h4 hlen
  simp only [h5]
  refine ⟨_, rfl, ?_, h7⟩
  rw [h6, h1, write_patched hs]

theorem bzero_spec (no : Nat) (h : d.Coherent) :
    (d.bzero no).sectors = d.sectors.fill (no * blkSize) blkSize 0 ∧ (d.bzero no).Coherent := by
  obtain ⟨h1, h2, -, h4, -⟩ := bgetcache_spec no h
  obtain ⟨h6, h7⟩ := putBuf_spec (List.replicate blkSize 0) h2 h4 List.length_replicate
  refine ⟨?_, h7⟩
  show ((d.bgetcache no).putBuf no _).sectors = _
  rw [h6, h1]
  funext x
  by_cases hx : no * blkSize ≤ x ∧ x < no * blkSize + blkSize
  · rw [Store.fill_in hx.1 hx.2, Store.write_in hx.1 (by rw [List.length_replicate]; exact hx.2)]
    simp
  · rw [Store.fill_out (by omega), Store.write_out (by rw [List.length_replicate]; omega)]

/-- One call: it delivers what the plain call delivers, and leaves the disk that the plain call leaves. -/
theorem call_spec {c : Call} (h : d.Coherent) (hc : c.Ok) :
    ∃ d', d.call c = some ((plain d.sectors c).1, d') ∧ d'.sectors = (plain d.sectors c).2 ∧ d'.Coherent := by
  cases c with
  | bread size no off => exact bread_spec _ h hc.2
  | bwrite src no off =>
    obtain ⟨d', h1, h2⟩ := bwrite_spec no h hc.2
    exact ⟨d', by rw [call, h1]; rfl, h2⟩
  | bzero no => exact ⟨_, rfl, bzero_spec no h⟩

theorem calls_spec : ∀ {cs : List Call} {d : Disk}, d.Coherent → (∀ c ∈ cs, c.Ok) →
    ∃ d', calls cs d = some ((plains cs d.sectors).1, d') ∧ d'.sectors = (plains cs d.sectors).2 ∧ d'.Coherent
  | [], d, h, _ => ⟨d, rfl, rfl, h⟩
  | c :: cs, d, h, hcs => by
    obtain ⟨d₁, h1, h2, h3⟩ := call_spec h (hcs c List.mem_cons_self)
    obtain ⟨d₂, h4, h5, h6⟩ := calls_spec h3 fun c' hc' => hcs c' (List.mem_cons_of_mem _ hc')
    rw [h2] at h4 h5
    exact ⟨d₂, by simp only [calls, h1, h4, Option.bind_eq_bind, Option.bind_some, Option.pure_def, plains], h5, h6⟩

/-- The block cache is invisible: from any disk, any calls deliver what they deliver on an array of
blocks without a cache, and leave the disk that they leave there. -/
theorem cache_invisible (m : Store) (cs : List Call) (hcs : ∀ c ∈ cs, c.Ok) :
    ∃ d, calls cs (init m) = some ((plains cs m).1, d) ∧ d.sectors = (plains cs m).2 ∧
      ∀ i < bcacheNum, (d.blkCache i).valid = true →
        (d.blkCache i).buf = d.sectors.read ((d.blkCache i).no * blkSize) blkSize := by
  obtain ⟨d, h1, h2, h3⟩ := calls_spec (d := init m) init_coherent hcs
  exact ⟨d, h1, h2, fun i hi hv => (h3 i hi hv).2⟩

/-- Blocks 0 and 16 share a slot: a byte of block 0 is there again after block 16 was read. -/
theorem cache_invisible_evict :
    ∃ d, calls [.bwrite [7] 0 5, .bread 1 16 0, .bread 1 0 5] (init fun _ => 0) = some ([[], [0], [7]], d) ∧
      d.sectors 5 = 7 := by
  obtain ⟨d, h1, h2, -⟩ := cache_invisible (fun _ => 0) [.bwrite [7] 0 5, .bread 1 16 0, .bread 1 0 5] fun c hc => by
    simp only [List.mem_cons, List.not_mem_nil, or_false] at hc
    rcases hc with rfl | rfl | rfl <;> decide
  exact ⟨d, h1, by rw [h2]; rfl⟩

/-! ## The disk that the file system works on -/

section Fs

variable {fs : Fs} (h : d.Coherent) (hd : d.sectors = fs.disk)

include h hd

/-- The file system reads and writes the disk behind the cache. -/
theorem bread_fs (hs : off + size ≤ blkSize) :
    ∃ bs d', fs.bread size no off = some bs ∧ d.bread size no off = some (bs, d') ∧ d'.sectors = fs.disk ∧
      d'.Coherent := by
  obtain ⟨d', h1, h2, h3⟩ := bread_spec no h hs
  have hle : uint32 (size + off) ≤ Fs.blkSize := by
    rw [uint32_of_lt (by simp only [blkSize, sectSize] at hs; omega), Nat.add_comm]
    exact hs
  exact ⟨_, d', if_pos hle, by rw [h1, hd]; rfl, h2.trans hd, h3⟩

theorem bwrite_fs (hs : off + src.length ≤ blkSize) :
    ∃ fs' d', fs.bwrite src no off = some fs' ∧ d.bwrite src no off = some d' ∧ d'.sectors = fs'.disk ∧
      d'.Coherent := by
  obtain ⟨d', h1, h2, h3⟩ := bwrite_spec no h hs
  have hle : uint32 (src.length + off) ≤ Fs.blkSize := by
    rw [uint32_of_lt (by simp only [blkSize, sectSize] at hs; omega), Nat.add_comm]
    exact hs
  exact ⟨_, d', if_pos hle, h1, by rw [h2, hd]; rfl, h3⟩

theorem bzero_fs : (d.bzero no).sectors = (fs.bzero no).disk ∧ (d.bzero no).Coherent := by
  obtain ⟨h1, h2⟩ := bzero_spec no h
  exact ⟨by rw [h1, hd]; rfl, h2⟩

end Fs

end Disk

end TinyOS
