/-
The disk file system (kernel/src/fs.c): on-disk structures, the block bitmap, the active inode
table, file data, directories and paths. A function returns `none` where the source fails an
assertion. The block cache of kernel/src/disk.c is left out here: blocks are read from and
written to the disk.
-/
import TinyOS.Lib.Bytes
import TinyOS.Lib.Word

namespace TinyOS.Fs

open TinyOS.Lib

abbrev blkSize : Nat := 4096
abbrev blkNum : Nat := 128 * 1024 * 1024 / 4096
abbrev nDirect : Nat := 12
abbrev nIndirect : Nat := 1024
abbrev iPerBlk : Nat := 64
abbrev superBlock : Nat := 32
abbrev inodeNum : Nat := 128
abbrev maxName : Nat := 27
abbrev direntSize : Nat := 32

abbrev typeNone : Nat := 0
abbrev typeFile : Nat := 1
abbrev typeDir : Nat := 2
abbrev typeDev : Nat := 3

/-! ## On-disk structures -/

/-- `sb_t`. -/
structure Super where
  bitmap : Nat
  istart : Nat
  inum : Nat
  root : Nat

/-- `dinode_t`; `addrs i` for `i < 12` are the direct addresses and `addrs 12` is the indirect one. -/
@[ext] structure Dinode where
  type : Nat
  device : Nat
  size : Nat
  addrs : Nat → Nat

namespace Dinode

def ofBytes (bs : List UInt8) : Dinode :=
  ⟨Store.wordOf bs, Store.wordOf (bs.drop 4), Store.wordOf (bs.drop 8),
    fun i => if i < 13 then Store.wordOf (bs.drop (12 + 4 * i)) else 0⟩

def bytes (d : Dinode) : List UInt8 :=
  (d.type :: d.device :: d.size :: (List.range 13).map d.addrs).flatMap le32

def zero : Dinode := ⟨0, 0, 0, fun _ => 0⟩

def setAddr (d : Dinode) (i v : Nat) : Dinode := { d with addrs := Function.update d.addrs i v }

end Dinode

/-- `dirent_t`: `name` is the 28-byte buffer. -/
structure Dirent where
  inode : Nat
  name : List UInt8

namespace Dirent

def ofBytes (bs : List UInt8) : Dirent := ⟨Store.wordOf bs, (bs.drop 4).take 28⟩

def bytes (d : Dirent) : List UInt8 := le32 d.inode ++ d.name

/-- A local `dirent_t`; what it holds behind a terminator is never read. -/
def zero : Dirent := ⟨0, List.replicate 28 0⟩

end Dirent

/-- The string in a buffer: what stands before its first NUL. -/
def cstr (bs : List UInt8) : List UInt8 := bs.takeWhile (· ≠ 0)

/-- `strcpy(dst, src)`. -/
def strcpy (dst src : List UInt8) : List UInt8 := cstr src ++ 0 :: dst.drop ((cstr src).length + 1)

/-- `struct inode`. -/
structure Inode where
  no : Nat
  ref : Int
  del : Bool
  dinode : Dinode

end Fs

/-- The super block in memory, the disk, and the active inode table. -/
structure Fs where
  sb : Fs.Super
  disk : Lib.Store
  inodes : Nat → Fs.Inode

namespace Fs

open TinyOS.Lib

def setInode (fs : Fs) (i : Nat) (x : Inode) : Fs := { fs with inodes := Function.update fs.inodes i x }

def setDinode (fs : Fs) (i : Nat) (d : Dinode) : Fs := fs.setInode i { fs.inodes i with dinode := d }

/-! ## Blocks -/

def bread (fs : Fs) (size no off : Nat) : Option (List UInt8) :=
  if uint32 (size + off) ≤ blkSize then some (fs.disk.read (no * blkSize + off) size) else none

def bwrite (fs : Fs) (src : List UInt8) (no off : Nat) : Option Fs :=
  if uint32 (src.length + off) ≤ blkSize then some { fs with disk := fs.disk.write (no * blkSize + off) src }
  else none

def bzero (fs : Fs) (no : Nat) : Fs := { fs with disk := fs.disk.fill (no * blkSize) blkSize 0 }

/-- The scan of `balloc` from word `i` on, `n` words before the end of the bitmap. -/
def ballocLoop (fs : Fs) : (n i : Nat) → Option (Nat × Fs)
  | 0, _ => none
  | n + 1, i => do
    let byte := Store.wordOf (← fs.bread 4 fs.sb.bitmap (i * 4))
    if byte ≠ 0xffffffff then
      match (List.range 32).find? fun j => byte &&& (1 <<< j) = 0 with
      | some j =>
        let fs := fs.bzero (32 * i + j)
        let fs ← fs.bwrite (le32 (byte ||| (1 <<< j))) fs.sb.bitmap (i * 4)
        return (32 * i + j, fs)
      | none => ballocLoop fs n (i + 1)
    else ballocLoop fs n (i + 1)

def balloc (fs : Fs) : Option (Nat × Fs) := ballocLoop fs (blkNum / 32) 0

/-- Only the low byte of the word `byte` of the source is read and written. -/
def bfree (fs : Fs) (blkno : Nat) : Option Fs := do
  if blkno < 64 then none
  let byte := ((← fs.bread 1 fs.sb.bitmap (blkno / 8)).getD 0 0).toNat
  let byte := byte &&& (0xffffffff ^^^ (1 <<< (blkno % 8)))
  fs.bwrite [UInt8.ofNat byte] fs.sb.bitmap (blkno / 8)

/-! ## On-disk inodes -/

def i2blkno (fs : Fs) (no : Nat) : Nat := fs.sb.istart + no / iPerBlk

def i2blkoff (no : Nat) : Nat := no % iPerBlk * 64

def diread (fs : Fs) (no : Nat) : Option Dinode := do
  return Dinode.ofBytes (← fs.bread 64 (fs.i2blkno no) (i2blkoff no))

def diwrite (fs : Fs) (di : Dinode) (no : Nat) : Option Fs := fs.bwrite di.bytes (fs.i2blkno no) (i2blkoff no)

/-- The scan of `dialloc` from inode `i` on, `n` inodes before the last. -/
def diallocLoop (fs : Fs) (type : Nat) : (n i : Nat) → Option (Nat × Fs)
  | 0, _ => none
  | n + 1, i => do
    let d ← fs.diread i
    if d.type = typeNone then return (i, ← fs.diwrite ⟨type, 0, 0, fun _ => 0⟩ i)
    else diallocLoop fs type n (i + 1)

def dialloc (fs : Fs) (type : Nat) : Option (Nat × Fs) := diallocLoop fs type (fs.sb.inum - 1) 1

def difree (fs : Fs) (no : Nat) : Option Fs := fs.diwrite Dinode.zero no

/-! ## The active inode table -/

def iget (fs : Fs) (no : Nat) : Option (Nat × Fs) :=
  match (List.range inodeNum).find? fun i => 0 < (fs.inodes i).ref ∧ (fs.inodes i).no = no with
  | some i => some (i, fs.setInode i { fs.inodes i with ref := (fs.inodes i).ref + 1 })
  | none =>
    match (List.range inodeNum).find? fun i => (fs.inodes i).ref = 0 with
    | some i => do return (i, fs.setInode i ⟨no, 1, false, ← fs.diread no⟩)
    | none => none

def iupdate (fs : Fs) (i : Nat) : Option Fs := fs.diwrite (fs.inodes i).dinode (fs.inodes i).no

def isize (fs : Fs) (i : Nat) : Nat := (fs.inodes i).dinode.size

def itype (fs : Fs) (i : Nat) : Nat := (fs.inodes i).dinode.type

def ino (fs : Fs) (i : Nat) : Nat := (fs.inodes i).no

def idevid (fs : Fs) (i : Nat) : Int := if fs.itype i = typeDev then (fs.inodes i).dinode.device else -1

/-! ## File data -/

def iwalk (fs : Fs) (i no : Nat) : Option (Nat × Fs) :=
  let dinode := (fs.inodes i).dinode
  if no < nDirect then do
    let blk := dinode.addrs no
    if blk = 0 then
      let (blk, fs) ← fs.balloc
      let fs ← (fs.setDinode i (dinode.setAddr no blk)).iupdate i
      return (blk, fs)
    else return (blk, fs)
  else if no - nDirect < nIndirect then do
    let no := no - nDirect
    let (indirectBlk, fs) ←
      if dinode.addrs nDirect = 0 then do
        let (blk, fs) ← fs.balloc
        let fs ← (fs.setDinode i (dinode.setAddr nDirect blk)).iupdate i
        pure (blk, fs)
      else pure (dinode.addrs nDirect, fs)
    let blk := Store.wordOf (← fs.bread 4 indirectBlk (no * 4))
    if blk = 0 then
      let (blk, fs) ← fs.balloc
      let fs ← fs.bwrite (le32 blk) indirectBlk (no * 4)
      return (blk, fs)
    else return (blk, fs)
  else none

/-- The copy loop of `iread`; every round copies at least one byte, so `fuel > len` is enough. -/
def ireadLoop (i : Nat) : (fuel : Nat) → (fs : Fs) → (no blkoff len : Nat) → Option (List UInt8 × Fs)
  | 0, _, _, _, _ => none
  | fuel + 1, fs, no, blkoff, len => do
    if len = 0 then return ([], fs)
    let (blkno, fs) ← fs.iwalk i no
    let readSize := min (blkSize - blkoff) len
    let bs ← fs.bread readSize blkno blkoff
    let (rest, fs) ← ireadLoop i fuel fs (no + 1) 0 (len - readSize)
    return (bs ++ rest, fs)

/-- The bytes delivered, `none` for the result -1. -/
def iread (fs : Fs) (i off len : Nat) : Option (Option (List UInt8) × Fs) :=
  let size := (fs.inodes i).dinode.size
  if off > size then some (none, fs)
  else do
    let len := if uint32 (off + len) > size then size - off else len
    let (bs, fs) ← ireadLoop i (len + 1) fs (off / blkSize) (off % blkSize) len
    return (some bs, fs)

/-- The copy loop of `iwrite`; every round copies at least one byte, so `fuel > buf.length` is enough. -/
def iwriteLoop (i : Nat) : (fuel : Nat) → (fs : Fs) → (no blkoff : Nat) → (buf : List UInt8) → Option Fs
  | 0, _, _, _, _ => none
  | fuel + 1, fs, no, blkoff, buf => do
    if buf.length = 0 then return fs
    let (blkno, fs) ← fs.iwalk i no
    let writeSize := min (blkSize - blkoff) buf.length
    let fs ← fs.bwrite (buf.take writeSize) blkno blkoff
    iwriteLoop i fuel fs (no + 1) 0 (buf.drop writeSize)

/-- The number of bytes written, `none` for the result -1. -/
def iwrite (fs : Fs) (i off : Nat) (buf : List UInt8) : Option (Option Nat × Fs) :=
  let dinode := (fs.inodes i).dinode
  if off > dinode.size then some (none, fs)
  else do
    let fs ←
      if uint32 (off + buf.length) > dinode.size then
        (fs.setDinode i { dinode with size := uint32 (off + buf.length) }).iupdate i
      else pure fs
    let fs ← iwriteLoop i (buf.length + 1) fs (off / blkSize) (off % blkSize) buf
    return (some buf.length, fs)

/-- One round of the first loop of `itrunc`. -/
def itruncDirect (i : Nat) (fs : Fs) (k : Nat) : Option Fs := do
  let dinode := (fs.inodes i).dinode
  if dinode.addrs k ≠ 0 then
    let fs ← fs.bfree (dinode.addrs k)
    return fs.setDinode i (dinode.setAddr k 0)
  else return fs

/-- One round of the second loop of `itrunc`, over the entries of the indirect block `blk`. -/
def itruncIndirect (blk : Nat) (fs : Fs) (k : Nat) : Option Fs := do
  let blkno := Store.wordOf (← fs.bread 4 blk (k * 4))
  if blkno ≠ 0 then fs.bfree blkno else return fs

def itrunc (fs : Fs) (i : Nat) : Option Fs := do
  let fs ← (List.range nDirect).foldlM (itruncDirect i) fs
  let dinode := (fs.inodes i).dinode
  let fs ←
    if dinode.addrs nDirect ≠ 0 then do
      let fs ← (List.range nIndirect).foldlM (itruncIndirect (dinode.addrs nDirect)) fs
      let fs ← fs.bfree (dinode.addrs nDirect)
      pure (fs.setDinode i (dinode.setAddr nDirect 0))
    else pure fs
  (fs.setDinode i { (fs.inodes i).dinode with size := 0 }).iupdate i

def idup (fs : Fs) (i : Nat) : Fs := fs.setInode i { fs.inodes i with ref := (fs.inodes i).ref + 1 }

def iclose (fs : Fs) (i : Nat) : Option Fs := do
  let fs ←
    if (fs.inodes i).ref = 1 ∧ (fs.inodes i).del then do
      let fs ← fs.itrunc i
      fs.difree (fs.inodes i).no
    else pure fs
  return fs.setInode i { fs.inodes i with ref := (fs.inodes i).ref - 1 }

/-! ## Paths and directories -/

/-- `'/'`. -/
abbrev slash : UInt8 := 47

/-- The name and the remaining path, `none` for the result NULL. Behind the end of the list the path
has its terminating NUL. -/
def skipelem (path : List UInt8) : Option (List UInt8 × List UInt8) :=
  let path := path.dropWhile (· = slash)
  if path.headD 0 = 0 then none
  else
    let s := path.takeWhile fun c => c ≠ slash ∧ c ≠ 0
    let path := path.dropWhile fun c => c ≠ slash ∧ c ≠ 0
    let name := if s.length ≥ maxName then s.take maxName else s
    some (name, path.dropWhile (· = slash))

/-- `"."`. -/
def dot : List UInt8 := [46]

/-- `".."`. -/
def dotdot : List UInt8 := [46, 46]

def idirinit (fs : Fs) (inode parent : Nat) : Option Fs := do
  if (fs.inodes inode).dinode.type ≠ typeDir then none
  if (fs.inodes parent).dinode.type ≠ typeDir then none
  if (fs.inodes inode).dinode.size ≠ 0 then none
  let dirent : Dirent := ⟨(fs.inodes inode).no, strcpy Dirent.zero.name dot⟩
  let (_, fs) ← fs.iwrite inode 0 dirent.bytes
  let dirent : Dirent := ⟨(fs.inodes parent).no, strcpy dirent.name dotdot⟩
  let (_, fs) ← fs.iwrite inode direntSize dirent.bytes
  return fs

/-- How the scan of a directory ends: at the entry of the name, or with the last entry read and the
offset for a new entry. -/
inductive Scan where
  | found (off inode : Nat)
  | missing (dirent : Dirent) (empty : Nat)

/-- The scan of `ilookup` from offset `i` on. A short read leaves the rest of `dirent` as it was. -/
def ilookupLoop (parent : Nat) (name : List UInt8) (size : Nat) :
    (fuel : Nat) → (fs : Fs) → (i : Nat) → (dirent : Dirent) → (empty : Nat) → Option (Scan × Fs)
  | 0, _, _, _, _ => none
  | fuel + 1, fs, i, dirent, empty => do
    if i ≥ size then return (.missing dirent empty, fs)
    let (r, fs) ← fs.iread parent i direntSize
    let bs := r.getD []
    let dirent := Dirent.ofBytes (bs ++ dirent.bytes.drop bs.length)
    if dirent.inode = 0 then
      ilookupLoop parent name size fuel fs (i + direntSize) dirent (if empty = size then i else empty)
    else if cstr dirent.name = cstr name then return (.found i dirent.inode, fs)
    else ilookupLoop parent name size fuel fs (i + direntSize) dirent empty

/-- The inode and the offset of its entry, `none` for the result NULL. -/
def ilookup (fs : Fs) (parent : Nat) (name : List UInt8) (type : Nat) : Option (Option (Nat × Nat) × Fs) := do
  if (fs.inodes parent).dinode.type ≠ typeDir then none
  let size := (fs.inodes parent).dinode.size
  let (r, fs) ← ilookupLoop parent name size (size / direntSize + 2) fs 0 Dirent.zero size
  match r with
  | .found off no =>
    let (inode, fs) ← fs.iget no
    return (some (inode, off), fs)
  | .missing dirent empty =>
    if type = typeNone then return (none, fs)
    let (ino, fs) ← fs.dialloc type
    let dirent : Dirent := ⟨ino, strcpy dirent.name name⟩
    let (_, fs) ← fs.iwrite parent empty dirent.bytes
    let (inode, fs) ← fs.iget ino
    let fs ← if type = typeDir then fs.idirinit inode parent else pure fs
    return (some (inode, empty), fs)

/-- The walk of `iopen_parent`; every round shortens the path, so `fuel > path.length` is enough. -/
def iopenParentLoop : (fuel : Nat) → (fs : Fs) → (ip : Nat) → (path : List UInt8) →
    Option (Option (Nat × List UInt8) × Fs)
  | 0, _, _, _ => none
  | fuel + 1, fs, ip, path =>
    match skipelem path with
    | none => do return (none, ← fs.iclose ip)
    | some (name, path) => do
      if (fs.inodes ip).dinode.type ≠ typeDir then return (none, ← fs.iclose ip)
      if path.headD 0 = 0 then return (some (ip, name), fs)
      let (next, fs) ← fs.ilookup ip name typeNone
      let fs ← fs.iclose ip
      match next with
      | none => return (none, fs)
      | some (next, _) => iopenParentLoop fuel fs next path

/-- The parent and the last name of the path, `none` for the result NULL; `cwd` is the slot of the
current process's working directory. -/
def iopenParent (fs : Fs) (cwd : Nat) (path : List UInt8) : Option (Option (Nat × List UInt8) × Fs) := do
  let (ip, fs) ← if path.headD 0 = slash then fs.iget fs.sb.root else pure (cwd, fs.idup cwd)
  iopenParentLoop (path.length + 1) fs ip path

/-- The slot of the inode, `none` for the result NULL. -/
def iopen (fs : Fs) (cwd : Nat) (path : List UInt8) (type : Nat) : Option (Option Nat × Fs) :=
  match skipelem path with
  | none =>
    if path.headD 0 = slash then do
      let (i, fs) ← fs.iget fs.sb.root
      return (some i, fs)
    else some (none, fs)
  | some _ => do
    let (r, fs) ← fs.iopenParent cwd path
    match r with
    | none => return (none, fs)
    | some (parent, name) =>
      let (inode, fs) ← fs.ilookup parent name type
      let fs ← fs.iclose parent
      return (inode.map Prod.fst, fs)

def iadddev (fs : Fs) (cwd : Nat) (name : List UInt8) (id : Nat) : Option Fs := do
  let (r, fs) ← fs.iopen cwd name typeDev
  let ip ← r
  let fs ← (fs.setDinode ip { (fs.inodes ip).dinode with device := id }).iupdate ip
  fs.iclose ip

/-- The scan of `idirempty` from offset `i` on. -/
def idiremptyLoop (inode size : Nat) : (fuel : Nat) → (fs : Fs) → (i : Nat) → (dirent : Dirent) →
    Option (Bool × Fs)
  | 0, _, _, _ => none
  | fuel + 1, fs, i, dirent => do
    if i ≥ size then return (true, fs)
    let (r, fs) ← fs.iread inode i direntSize
    let bs := r.getD []
    let dirent := Dirent.ofBytes (bs ++ dirent.bytes.drop bs.length)
    if dirent.inode ≠ 0 then return (false, fs)
    idiremptyLoop inode size fuel fs (i + direntSize) dirent

def idirempty (fs : Fs) (inode : Nat) : Option (Bool × Fs) := do
  if (fs.inodes inode).dinode.type ≠ typeDir then none
  let size := (fs.inodes inode).dinode.size
  idiremptyLoop inode size (size / direntSize + 2) fs (2 * direntSize) Dirent.zero

/-- Whether the file was removed (result 0, else -1). -/
def iremove (fs : Fs) (cwd : Nat) (path : List UInt8) : Option (Bool × Fs) := do
  let (r, fs) ← fs.iopenParent cwd path
  match r with
  | none => return (false, fs)
  | some (parent, name) =>
    if cstr name = dot ∨ cstr name = dotdot then return (false, ← fs.iclose parent)
    let (r, fs) ← fs.ilookup parent name typeNone
    match r with
    | none => return (false, ← fs.iclose parent)
    | some (inode, off) =>
      let (empty, fs) ← if fs.itype inode = typeDir then fs.idirempty inode else pure (true, fs)
      if ¬ empty then
        let fs ← fs.iclose inode
        return (false, ← fs.iclose parent)
      let fs := fs.setInode inode { fs.inodes inode with del := true }
      let (_, fs) ← fs.iwrite parent off (List.replicate direntSize 0)
      let fs ← fs.iclose inode
      return (true, ← fs.iclose parent)

/-- `init_fs`. -/
def initFs (disk : Store) (inodes : Nat → Inode) : Fs :=
  ⟨⟨disk.word (superBlock * blkSize), disk.word (superBlock * blkSize + 4), disk.word (superBlock * blkSize + 8),
    disk.word (superBlock * blkSize + 12)⟩, disk, inodes⟩

end Fs

end TinyOS
