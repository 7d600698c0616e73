/-
What stands where on a disk that mkfs laid out: the bitmap in block 33, the inode blocks 34 to 63,
data blocks from 64 on. Views of the raw bytes, and which writes a view does not see.
-/
import TinyOS.Fs.Basic
import TinyOS.Lib.Exact

namespace TinyOS.Fs

open TinyOS.Lib

/-- The super block that mkfs writes. -/
def Super.std : Super := ⟨33, 34, 1920, 1⟩

/-- The bitmap bit of block `b`. -/
def bit (m : Store) (b : Nat) : Bool := (m (33 * 4096 + b / 8)).toNat.testBit (b % 8)

/-- The on-disk inode `n`. -/
def node (m : Store) (n : Nat) : Dinode := Dinode.ofBytes (m.read (34 * 4096 + n * 64) 64)

/-- Entry `k` of the indirect block `b`. -/
def ent (m : Store) (b k : Nat) : Nat := m.word (b * 4096 + k * 4)

/-- The number of data block `k` of an inode, 0 when there is none. -/
def Dinode.blk (d : Dinode) (m : Store) (k : Nat) : Nat :=
  if k < 12 then d.addrs k
  else if k < 1036 then if d.addrs 12 = 0 then 0 else ent m (d.addrs 12) (k - 12)
  else 0

/-- The number of data block `k` of the on-disk inode `n`. -/
def blk (m : Store) (n k : Nat) : Nat := (node m n).blk m k

/-! ## Views and writes -/

variable {m m' : Store} {b c n k : Nat}

theorem bit_congr (h : m' (33 * 4096 + b / 8) = m (33 * 4096 + b / 8)) : bit m' b = bit m b := by
  unfold bit; rw [h]

theorem ent_congr (hk : k < 1024) (h : ∀ r < 4096, m' (b * 4096 + r) = m (b * 4096 + r)) : ent m' b k = ent m b k :=
  Store.word_congr fun i hi => by rw [Nat.add_assoc]; exact h _ (by omega)

theorem node_congr (h : ∀ i < 64, m' (34 * 4096 + n * 64 + i) = m (34 * 4096 + n * 64 + i)) :
    node m' n = node m n := by
  unfold node; rw [Store.read_congr h]

/-- An inode as `dinode_t` can hold it. -/
structure Dinode.Fits (d : Dinode) : Prop where
  type : d.type < 2 ^ 32
  device : d.device < 2 ^ 32
  size : d.size < 2 ^ 32
  addrs : ∀ i, d.addrs i < 2 ^ 32
  outside : ∀ i, 13 ≤ i → d.addrs i = 0

theorem node_eq (m : Store) (n : Nat) : node m n =
    ⟨m.word (34 * 4096 + n * 64 + 4 * 0), m.word (34 * 4096 + n * 64 + 4 * 1), m.word (34 * 4096 + n * 64 + 4 * 2),
      fun i => if i < 13 then m.word (34 * 4096 + n * 64 + 4 * (3 + i)) else 0⟩ := by
  have hw : ∀ j < 16, Store.wordOf ((m.read (34 * 4096 + n * 64) 64).drop (4 * j)) =
      m.word (34 * 4096 + n * 64 + 4 * j) := by
    intro j hj
    rw [← Store.wordOf_read (n := 64 - 4 * j) (by omega),
      ← Store.read_drop_take (a := 34 * 4096 + n * 64) (n := 64) (by omega), List.take_of_length_le (by simp)]
  ext i
  · exact hw 0 (by omega)
  · exact hw 1 (by omega)
  · exact hw 2 (by omega)
  · show (if i < 13 then Store.wordOf ((m.read (34 * 4096 + n * 64) 64).drop (12 + 4 * i)) else 0) =
      if i < 13 then m.word (34 * 4096 + n * 64 + 4 * (3 + i)) else 0
    split
    · rw [show 12 + 4 * i = 4 * (3 + i) by ring, hw (3 + i) (by omega)]
    · rfl

theorem node_fits : (node m n).Fits := by
  rw [node_eq]
  refine ⟨Store.word_lt, Store.word_lt, Store.word_lt, fun i => ?_, fun i hi => if_neg (by omega)⟩
  show (if i < 13 then _ else 0) < 2 ^ 32
  split
  · exact Store.word_lt
  · decide

theorem Dinode.bytes_length (d : Dinode) : d.bytes.length = 64 := by
  unfold bytes; rw [Store.words_length]; rfl

/-- An inode reads back as it was written. -/
theorem node_write {d : Dinode} (hd : d.Fits) : node (m.write (34 * 4096 + n * 64) d.bytes) n = d := by
  have hw : ∀ (j : Nat) (hj : j < 16) (v : Nat), (d.type :: d.device :: d.size :: (List.range 13).map d.addrs).get
      ⟨j, by simpa using hj⟩ = v → v < 2 ^ 32 →
      (m.write (34 * 4096 + n * 64) d.bytes).word (34 * 4096 + n * 64 + 4 * j) = v := by
    rintro j hj v rfl hv
    exact Store.word_write_words _ hv
  rw [node_eq]
  ext i
  · exact hw 0 (by decide) _ rfl hd.type
  · exact hw 1 (by decide) _ rfl hd.device
  · exact hw 2 (by decide) _ rfl hd.size
  · show (if i < 13 then _ else 0) = d.addrs i
    split
    · next hi => exact hw (3 + i) (by omega) _ (by simp [Nat.add_comm 3 i]) (hd.addrs i)
    · next hi => exact (hd.outside i (by omega)).symm

end TinyOS.Fs
