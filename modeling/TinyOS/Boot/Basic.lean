/-
The boot loader (boot/boot.c, boot/boot.h): the kernel is copied from the disk to a buffer, and its segments
from the buffer to where they belong. A store into the boot sector or the stack overwrites the loader, and
counts as a failure.
-/
import TinyOS.Load.Basic

namespace TinyOS.Boot

open TinyOS.Lib Ehdr Phdr

abbrev sectsize : Nat := 512

/-- Where `elf` points to. -/
abbrev elfBuf : Nat := 0x8000

/-- The bytes copied from the disk. -/
abbrev bufSize : Nat := 255 * sectsize

/-- What a pointer to a header points to. -/
def deref (m : Store) (a : Nat) : Store := fun i => m (a + i)

/-! ## boot.h -/

def readDisk (disk m : Store) (buf sect : Nat) : Store := m.write buf (disk.read (sect * sectsize) sectsize)

/-- `cur` goes up to `buf + nbytes` in steps of a sector. -/
def copyFromDisk (disk m : Store) (buf nbytes diskOffset : Nat) : Store :=
  (List.range ((nbytes + sectsize - 1) / sectsize)).foldl
    (fun m i => readDisk disk m (buf + i * sectsize) (diskOffset / sectsize + i)) m

/-- The boot sector, and the stack from the lowest address in use up to where `start.S` sets it. -/
def Reserved (low a : Nat) : Prop := (0x7c00 ≤ a ∧ a < 0x7e00) ∨ (low ≤ a ∧ a < 0x1ffffc)

instance (low a : Nat) : Decidable (Reserved low a) := inferInstanceAs (Decidable (_ ∨ _))

/-- How often `while (_dst < fi)` goes round, for `fi = _dst + size`. -/
def rounds (dst size : Nat) : Nat := uint32 (dst + size) - dst

def copyBytes (m : Store) (dst src : Nat) : (n : Nat) → Store
  | 0 => m
  | n + 1 => copyBytes (Function.update m dst (m (uint32 src))) (dst + 1) (src + 1) n

def memcpy (low : Nat) (m : Store) (dst src size : Nat) : Option Store :=
  if ∃ i < rounds dst size, Reserved low (dst + i) then none else some (copyBytes m dst src (rounds dst size))

def memset (low : Nat) (m : Store) (dst : Nat) (c : UInt8) (size : Nat) : Option Store :=
  if ∃ i < rounds dst size, Reserved low (dst + i) then none else some (m.fill dst (rounds dst size) c)

/-! ## boot.c -/

/-- A turn of the loop; `ph` is a pointer, and the header is read again after the data is copied. -/
def loadSegment (low : Nat) (m : Store) (ph : Nat) : Option Store :=
  if pType (deref m ph) = ptLoad then do
    let m ← memcpy low m (pVaddr (deref m ph)) (uint32 (elfBuf + pOffset (deref m ph))) (pFilesz (deref m ph))
    memset low m (uint32 (elfBuf + pOffset (deref m ph) + pFilesz (deref m ph))) 0
      (usub32 (pMemsz (deref m ph)) (pFilesz (deref m ph)))
  else some m

def loadSegments (low : Nat) : (n : Nat) → (m : Store) → (ph : Nat) → Option Store
  | 0, m, _ => some m
  | n + 1, m, ph => do loadSegments low n (← loadSegment low m ph) (ph + phdrSize)

/-- The address that is jumped to, and the memory then. -/
def loadKernel (low : Nat) (disk m : Store) : Option (Nat × Store) := do
  let m := copyFromDisk disk m elfBuf bufSize sectsize
  let ph := uint32 (elfBuf + ePhoff (deref m elfBuf))
  let eph := uint32 (ph + ePhnum (deref m elfBuf) * phdrSize)
  let m ← loadSegments low ((eph - ph) / phdrSize) m ph
  return (eEntry (deref m elfBuf), m)

/-! ## What the copies do -/

/-- A word determines its bytes. -/
theorem byte_of_word {m m' : Store} {o : Nat} (h : m.word o = m'.word o) : ∀ i < 4, m (o + i) = m' (o + i) := by
  have hlt : ∀ x : UInt8, x.toNat < 256 := UInt8.toNat_lt
  have h0 := hlt (m o)
  have h0' := hlt (m' o)
  have h1 := hlt (m (o + 1))
  have h1' := hlt (m' (o + 1))
  have h2 := hlt (m (o + 2))
  have h2' := hlt (m' (o + 2))
  unfold Store.word at h
  intro i hi
  apply UInt8.toNat_inj.1
  interval_cases i <;> (try rw [Nat.add_zero]) <;> omega

section
variable {m disk : Store} {dst src size n a low : Nat}

theorem rounds_eq (h : dst + size < 2 ^ 32) : rounds dst size = size := by
  unfold rounds
  rw [uint32_of_lt h]
  omega

theorem copyBytes_eq (hs : src + n ≤ 2 ^ 32) (hd : src + n ≤ dst ∨ dst + n ≤ src) :
    copyBytes m dst src n a = if dst ≤ a ∧ a < dst + n then m (src + (a - dst)) else m a := by
  induction n generalizing m dst src with
  | zero =>
    rw [if_neg (by omega)]
    rfl
  | succ n ih =>
    unfold copyBytes
    rw [ih (by omega) (by omega), uint32_of_lt (by omega)]
    by_cases h0 : a = dst
    · subst h0
      rw [if_neg (by omega), if_pos (by omega), Function.update_self, Nat.sub_self, Nat.add_zero]
    · by_cases h1 : dst ≤ a ∧ a < dst + (n + 1)
      · rw [if_pos (by omega), if_pos h1, Function.update_of_ne (by omega)]
        congr 1
        omega
      · rw [if_neg (by omega), if_neg h1, Function.update_of_ne h0]

theorem readDisk_apply (buf sect : Nat) : readDisk disk m buf sect a =
    if buf ≤ a ∧ a < buf + sectsize then disk (sect * sectsize + (a - buf)) else m a := by
  unfold readDisk
  split
  · next hin =>
    have hlt : a - buf < (disk.read (sect * sectsize) sectsize).length := by
      rw [Store.read_length]
      omega
    rw [Store.write_in hin.1 (by omega), List.getD_eq_getElem _ _ hlt, Store.read_getElem]
  · next hout => exact Store.write_out (by rw [Store.read_length]; omega)

/-- A range copied in two parts. -/
theorem two_parts (buf n o z : Nat) : (if buf + n ≤ a ∧ a < buf + n + z then disk (o + n + (a - (buf + n)))
      else if buf ≤ a ∧ a < buf + n then disk (o + (a - buf)) else m a) =
    if buf ≤ a ∧ a < buf + (n + z) then disk (o + (a - buf)) else m a := by
  by_cases hin : buf + n ≤ a ∧ a < buf + n + z
  · rw [if_pos hin, if_pos (by omega)]
    exact congrArg disk (by omega)
  · rw [if_neg hin]
    by_cases hold : buf ≤ a ∧ a < buf + n
    · rw [if_pos hold, if_pos (by omega)]
    · rw [if_neg hold, if_neg (by omega)]

theorem copyFromDisk_sectors (k buf sect : Nat) :
    (List.range k).foldl (fun m i => readDisk disk m (buf + i * sectsize) (sect + i)) m a =
      if buf ≤ a ∧ a < buf + k * sectsize then disk (sect * sectsize + (a - buf)) else m a := by
  induction k with
  | zero =>
    rw [if_neg (by omega)]
    rfl
  | succ k ih =>
    have hk : (k + 1) * sectsize = k * sectsize + sectsize := Nat.succ_mul k sectsize
    have hs : (sect + k) * sectsize = sect * sectsize + k * sectsize := Nat.add_mul sect k sectsize
    rw [List.range_succ, List.foldl_append, List.foldl_cons, List.foldl_nil, readDisk_apply, ih, hk, hs]
    exact two_parts buf (k * sectsize) (sect * sectsize) sectsize

/-- The buffer gets the bytes of the disk from sector 1 on. -/
theorem copyFromDisk_kernel : copyFromDisk disk m elfBuf bufSize sectsize a =
    if elfBuf ≤ a ∧ a < elfBuf + bufSize then disk (sectsize + (a - elfBuf)) else m a := by
  have : (List.range 255).foldl (fun m i => readDisk disk m (elfBuf + i * sectsize) (1 + i)) m a = _ :=
    copyFromDisk_sectors 255 elfBuf 1
  rw [Nat.one_mul] at this
  exact this

theorem memcpy_eq (ht : dst + size < 2 ^ 32) (hs : src + size ≤ 2 ^ 32)
    (hd : src + size ≤ dst ∨ dst + size ≤ src ∨ size = 0) (hr : ∀ i < size, ¬ Reserved low (dst + i)) :
    ∃ m', memcpy low m dst src size = some m' ∧
      ∀ a, m' a = if dst ≤ a ∧ a < dst + size then m (src + (a - dst)) else m a := by
  unfold memcpy
  rw [rounds_eq ht, if_neg (by rintro ⟨i, hi, hres⟩; exact hr i hi hres)]
  refine ⟨_, rfl, fun a => ?_⟩
  by_cases h0 : size = 0
  · subst h0
    rw [if_neg (by omega)]
    rfl
  · exact copyBytes_eq hs (by omega)

theorem memset_eq {c : UInt8} (ht : dst + size < 2 ^ 32) (hr : ∀ i < size, ¬ Reserved low (dst + i)) :
    memset low m dst c size = some (m.fill dst size c) := by
  unfold memset
  rw [rounds_eq ht, if_neg (by rintro ⟨i, hi, hres⟩; exact hr i hi hres)]

theorem memset_none {c : UInt8} {i : Nat} (ht : dst + size < 2 ^ 32) (hi : i < size) (hr : Reserved low (dst + i)) :
    memset low m dst c size = none := by
  unfold memset
  rw [rounds_eq ht, if_pos ⟨i, hi, hr⟩]

end

end TinyOS.Boot
