/-
The image builder (utils/mkfs.c): it lays out an empty file system behind the boot blocks and adds
files to the root directory. `none` stands for a panic, a failed assertion or a name that overruns
its buffer. Addresses are those of the whole disk, of which the image is the part from block 32 on.
-/
import TinyOS.Fs.Trunc

namespace TinyOS.Mkfs

open TinyOS.Lib TinyOS.Fs

abbrev blkOff : Nat := 32
abbrev bitmapBlk : Nat := blkOff + 1
abbrev inodeStart : Nat := blkOff + 2
abbrev dataStart : Nat := blkOff + 32
abbrev inodeCount : Nat := (dataStart - inodeStart) * iPerBlk

/-- The mapped image and the two static counters. -/
structure Img where
  img : Store
  nextBlk : Nat
  nextInode : Nat

namespace Img

/-- The address of block `no`. -/
def bget (no : Nat) : Option Nat := if no ≥ blkOff then some (no * blkSize) else none

def iaddr (no : Nat) : Nat := (no / iPerBlk + inodeStart) * blkSize + no % iPerBlk * 64

def iget (s : Img) (no : Nat) : Dinode := Dinode.ofBytes (s.img.read (iaddr no) 64)

/-- Assigning to fields of the inode that `iget` points to. -/
def iset (s : Img) (no : Nat) (d : Dinode) : Img := { s with img := s.img.write (iaddr no) d.bytes }

def balloc (s : Img) : Option (Nat × Img) :=
  if s.nextBlk ≥ blkNum then none
  else
    let a := bitmapBlk * blkSize + s.nextBlk / 8
    let byte := (s.img a).toNat ||| (1 <<< (s.nextBlk % 8))
    some (s.nextBlk, { s with img := s.img.write a [UInt8.ofNat byte], nextBlk := s.nextBlk + 1 })

def ialloc (s : Img) (type : Nat) : Option (Nat × Img) :=
  if s.nextInode ≥ inodeCount then none
  else some (s.nextInode,
    { s.iset s.nextInode { s.iget s.nextInode with type := type } with nextInode := s.nextInode + 1 })

/-- The address of data block `blkNo` of the inode `file`. -/
def iwalk (s : Img) (file blkNo : Nat) : Option (Nat × Img) :=
  if blkNo < nDirect then do
    let (blk, s) ←
      if (s.iget file).addrs blkNo = 0 then do
        let (blk, s) ← s.balloc
        pure (blk, s.iset file ((s.iget file).setAddr blkNo blk))
      else pure ((s.iget file).addrs blkNo, s)
    return (← bget blk, s)
  else if blkNo - nDirect < nIndirect then do
    let blkNo := blkNo - nDirect
    let (indirectBlk, s) ←
      if (s.iget file).addrs nDirect = 0 then do
        let (blk, s) ← s.balloc
        pure (blk, s.iset file ((s.iget file).setAddr nDirect blk))
      else pure ((s.iget file).addrs nDirect, s)
    let indirect ← bget indirectBlk
    let (blk, s) ←
      if s.img.word (indirect + blkNo * 4) = 0 then do
        let (blk, s) ← s.balloc
        pure (blk, { s with img := s.img.setWord (indirect + blkNo * 4) blk })
      else pure (s.img.word (indirect + blkNo * 4), s)
    return (← bget blk, s)
  else none

/-- The loop of `iappend`; every round appends at least one byte, so `fuel > buf.length` is enough. -/
def iappendLoop (file : Nat) : (fuel : Nat) → (s : Img) → (blkNo offset : Nat) → (buf : List UInt8) → Option Img
  | 0, _, _, _, _ => none
  | fuel + 1, s, blkNo, offset, buf => do
    if buf.length = 0 then return s
    let (blk, s) ← s.iwalk file blkNo
    let writeSize := min buf.length (blkSize - offset)
    let s := { s with img := s.img.write (blk + offset) (buf.take writeSize) }
    let s := s.iset file { s.iget file with size := uint32 ((s.iget file).size + writeSize) }
    iappendLoop file fuel s (blkNo + 1) 0 (buf.drop writeSize)

def iappend (s : Img) (file : Nat) (buf : List UInt8) : Option Img :=
  iappendLoop file (buf.length + 1) s ((s.iget file).size / blkSize) ((s.iget file).size % blkSize) buf

/-- An entry of the root directory; a longer name overruns the buffer. -/
def direntFor (inode : Nat) (name : List UInt8) : Option (List UInt8) :=
  if name.length < 28 then some (Dirent.bytes ⟨inode, strcpy Dirent.zero.name name⟩) else none

def rootNo (s : Img) : Nat := s.img.word (blkOff * blkSize + 12)

/-- The loop over the chunks that `fread` delivers. -/
def appendFile (file : Nat) : (fuel : Nat) → (s : Img) → (data : List UInt8) → Option Img
  | 0, _, _ => none
  | fuel + 1, s, data => do
    if data.length = 0 then return s
    let s ← s.iappend file (data.take blkSize)
    appendFile file fuel s (data.drop blkSize)

def addFile (s : Img) (name data : List UInt8) : Option Img := do
  let (inode, s) ← s.ialloc typeFile
  let dirent ← direntFor inode name
  let s ← s.iappend s.rootNo dirent
  appendFile inode (data.length + 1) s data

/-- `init_disk` up to the root inode: the super block without the root's number, the bitmap. -/
def initSuper (img : Store) : Store :=
  let img := img.setWord (blkOff * blkSize) bitmapBlk
  let img := img.setWord (blkOff * blkSize + 4) inodeStart
  let img := img.setWord (blkOff * blkSize + 8) inodeCount
  (img.setWord (bitmapBlk * blkSize + 4) 0xffffffff).setWord (bitmapBlk * blkSize) 0xffffffff

/-- The counters start at 64 and 1. -/
def initDisk (img : Store) : Option Img := do
  let (root, s) ← ialloc ⟨initSuper img, 64, 1⟩ typeDir
  let s := { s with img := s.img.setWord (blkOff * blkSize + 12) root }
  let s ← s.iappend s.rootNo (← direntFor s.rootNo dot)
  s.iappend s.rootNo (← direntFor s.rootNo dotdot)

end Img

/-- The mapped image file before `init_disk`: zero behind the boot blocks. -/
def truncated (boot : Store) : Store := fun a => if a < blkOff * blkSize then boot a else 0

/-- `main`; a file is given by its base name and its bytes, and there is at least one. -/
def mkfs (boot : Store) (files : List (List UInt8 × List UInt8)) : Option Store := do
  guard (files ≠ [])
  let s ← Img.initDisk (truncated boot)
  let s ← files.foldlM (fun s f => s.addFile f.1 f.2) s
  return s.img

/-- The name of a regular file. -/
def FileName (name : List UInt8) : Prop := name ≠ [] ∧ 0 ∉ name ∧ slash ∉ name ∧ name ≠ dot ∧ name ≠ dotdot

/-- The files of a small image: the program `sh`, an executable with one segment of a byte. -/
def shell : List (List UInt8 × List UInt8) :=
  [([115, 104], [0x464c457f, 0, 0, 0, 2 + 3 * 2 ^ 16, 1, 0x8048000, 52, 0, 0, 52 + 32 * 2 ^ 16, 1, 0,
    1, 0, 0x8048000, 0x8048000, 1, 1, 5, 4096].flatMap le32)]

theorem shell_name : ∀ f ∈ shell, FileName f.1 := fun f hf => by
  obtain rfl := List.mem_singleton.1 hf
  exact ⟨by simp, by simp, by simp [slash], by simp [dot], by simp [dotdot]⟩

theorem shell_nodup : (shell.map Prod.fst).Nodup := List.nodup_singleton _

end TinyOS.Mkfs
