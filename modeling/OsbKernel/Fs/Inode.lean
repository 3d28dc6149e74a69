import OsbKernel.Vm.UserMemory

/-!
# Inodes and their blocks

The lower half of `fs.c`: the block allocator, `bmap`, `itrunc`, `readi`, `writei` and the inodes
on the disk. A block is the array of its bytes, as `bread` returns it: its latest contents, on the
disk or not. The blocks given to `log_write` are recorded in order.
-/

namespace OsbKernel.Blocks

open Function Paging

def BSIZE : Nat := 1024

def NDIRECT : Nat := 12

instance instNeZeroAddrs : NeZero 13 := ⟨by decide⟩

theorem lt_of_direct {bn : Nat} (direct : bn < NDIRECT) : bn < 13 := Nat.lt_succ_of_lt direct

def NINDIRECT : Nat := BSIZE / 4

def MAXFILE : Nat := NDIRECT + NINDIRECT

/-- Inodes per block; `sizeof(struct dinode)` is 64. -/
def IPB : Nat := BSIZE / 64

def BPB : Nat := BSIZE * 8

abbrev Data := Nat → Byte

/-- The number in the `n` bytes from `k` on, lowest byte first. -/
def getNat (d : Data) (k : Nat) : Nat → Nat
  | 0 => 0
  | n + 1 => (d k).toNat + 256 * getNat d (k + 1) n

/-- The block with the number `v` in the `n` bytes from `k` on. -/
def putNat (d : Data) (k n v : Nat) : Data := fun j =>
  if k ≤ j ∧ j < k + n then BitVec.ofNat 8 (v / 256 ^ (j - k)) else d j

/-- The block with `bytes` from `k` on. -/
def putBytes (d : Data) (k : Nat) (bytes : List Byte) : Data := fun j =>
  if k ≤ j ∧ j < k + bytes.length then bytes.getD (j - k) 0 else d j

def getUint (d : Data) (i : Nat) : Nat := getNat d (4 * i) 4

def putUint (d : Data) (i v : Nat) : Data := putNat d (4 * i) 4 v

/-- The fields of `struct superblock` that place the blocks: inode blocks, then the free bit map,
then the data blocks. -/
structure Superblock where
  size : Nat
  nblocks : Nat
  ninodes : Nat
  inodestart : Nat
  bmapstart : Nat
  inodesFit : inodestart + ninodes / IPB < bmapstart
  bitmapFits : bmapstart + size / BPB < size - nblocks
  sizeFits : size < 2 ^ 32

def Superblock.dataStart (sb : Superblock) : Nat := sb.size - sb.nblocks

/-- What `bread` returns for each block, and the blocks given to `log_write`. -/
structure Store where
  data : Nat → Data
  logged : List Nat

def Store.setData (s : Store) (b : Nat) (d : Data) : Store := { s with data := update s.data b d }

/-- `log_write` of the buffer of a block. -/
def Store.logWrite (s : Store) (b : Nat) : Store := { s with logged := s.logged ++ [b] }

/-- `struct inode` without what is not on the disk. -/
@[ext]
structure Inode where
  inum : Nat
  type : Nat
  major : Nat
  minor : Nat
  nlink : Nat
  size : Nat
  addrs : Fin 13 → Nat

section Functions

variable (sb : Superblock)

def IBLOCK (i : Nat) : Nat := i / IPB + sb.inodestart

/-- Block of the free map that contains the bit for block `b`. -/
def BBLOCK (b : Nat) : Nat := b / BPB + sb.bmapstart

def bzero (s : Store) (bno : Nat) : Store := (s.setData bno fun _ => 0).logWrite bno

/-- `bp->data[bi/8] & m` is not zero. -/
def bitSet (d : Data) (bi : Nat) : Bool := d (bi / 8) &&& (1#8 <<< (bi % 8)) ≠ 0

def setBit (d : Data) (bi : Nat) : Data := update d (bi / 8) (d (bi / 8) ||| (1#8 <<< (bi % 8)))

def clearBit (d : Data) (bi : Nat) : Data := update d (bi / 8) (d (bi / 8) &&& ~~~(1#8 <<< (bi % 8)))

/-- The two loops of `balloc` as one over the block numbers from `b` on, with those that are
left. -/
def ballocLoop : Nat → Nat → Store → Except Fault (Nat × Store)
  | 0, _, _ => .error (.panic "balloc: out of blocks")
  | left + 1, b, s =>
    let bp := BBLOCK sb b
    if bitSet (s.data bp) (b % BPB) = false then
      .ok (b, bzero ((s.setData bp (setBit (s.data bp) (b % BPB))).logWrite bp) b)
    else ballocLoop left (b + 1) s

def balloc (s : Store) : Except Fault (Nat × Store) := ballocLoop sb sb.size 0 s

def bfree (s : Store) (b : Nat) : Except Fault Store :=
  let bp := BBLOCK sb b
  if bitSet (s.data bp) (b % BPB) = false then .error (.panic "freeing free block")
  else .ok ((s.setData bp (clearBit (s.data bp) (b % BPB))).logWrite bp)

/-- `struct dinode` number `q` of a block, as an inode. -/
def getDinode (inum : Nat) (d : Data) (q : Nat) : Inode where
  inum := inum
  type := getNat d (64 * q) 2
  major := getNat d (64 * q + 2) 2
  minor := getNat d (64 * q + 4) 2
  nlink := getNat d (64 * q + 6) 2
  size := getNat d (64 * q + 8) 4
  addrs := fun k => getNat d (64 * q + 12 + 4 * k) 4

/-- `memmove(dip->addrs, ip->addrs, sizeof(ip->addrs))` -/
def putAddrs (d : Data) (place : Nat) (addrs : Fin 13 → Nat) : Data := fun j =>
  if h : place ≤ j ∧ j < place + 4 * 13 then
    BitVec.ofNat 8 (addrs ⟨(j - place) / 4, by omega⟩ / 256 ^ ((j - place) % 4))
  else d j

def putDinode (d : Data) (q : Nat) (ip : Inode) : Data :=
  let d := putNat d (64 * q) 2 ip.type
  let d := putNat d (64 * q + 2) 2 ip.major
  let d := putNat d (64 * q + 4) 2 ip.minor
  let d := putNat d (64 * q + 6) 2 ip.nlink
  let d := putNat d (64 * q + 8) 4 ip.size
  putAddrs d (64 * q + 12) ip.addrs

def dinode (s : Store) (inum : Nat) : Inode :=
  getDinode inum (s.data (IBLOCK sb inum)) (inum % IPB)

/-- The loop of `ialloc` from inode `inum` on, with those that are left. -/
def iallocLoop (type : Nat) : Nat → Nat → Store → Except Fault (Nat × Store)
  | 0, _, _ => .error (.panic "ialloc: no inodes")
  | left + 1, inum, s =>
    let bp := IBLOCK sb inum
    if getNat (s.data bp) (64 * (inum % IPB)) 2 = 0 then
      let d := putNat (s.data bp) (64 * (inum % IPB)) 64 0
      let d := putNat d (64 * (inum % IPB)) 2 type
      .ok (inum, (s.setData bp d).logWrite bp)
    else iallocLoop type left (inum + 1) s

/-- `ialloc`; the result is the number of the inode. -/
def ialloc (s : Store) (type : Nat) : Except Fault (Nat × Store) :=
  iallocLoop sb type (sb.ninodes - 1) 1 s

def iupdate (s : Store) (ip : Inode) : Store :=
  let bp := IBLOCK sb ip.inum
  (s.setData bp (putDinode (s.data bp) (ip.inum % IPB) ip)).logWrite bp

/-- What `ilock` reads from the disk. -/
def ilock (s : Store) (inum : Nat) : Except Fault Inode :=
  let ip := dinode sb s inum
  if ip.type = 0 then .error (.panic "ilock: no type") else .ok ip

def Inode.setAddr (ip : Inode) (k : Fin 13) (b : Nat) : Inode :=
  { ip with addrs := update ip.addrs k b }

/-- `if((addr = ip->addrs[k]) == 0) ip->addrs[k] = addr = balloc(ip->dev)` -/
def addrOrAlloc (s : Store) (ip : Inode) (k : Fin 13) : Except Fault (Nat × Inode × Store) :=
  if ip.addrs k = 0 then do
    let (b, s) ← balloc sb s
    return (b, ip.setAddr k b, s)
  else .ok (ip.addrs k, ip, s)

/-- `if((addr = a[i]) == 0) { a[i] = addr = balloc(ip->dev); log_write(bp); }` in block `bp` -/
def entryOrAlloc (s : Store) (bp i : Nat) : Except Fault (Nat × Store) :=
  if getUint (s.data bp) i = 0 then do
    let (b, s) ← balloc sb s
    return (b, (s.setData bp (putUint (s.data bp) i b)).logWrite bp)
  else .ok (getUint (s.data bp) i, s)

def bmap (s : Store) (ip : Inode) (bn : Nat) : Except Fault (Nat × Inode × Store) :=
  if h : bn < NDIRECT then addrOrAlloc sb s ip ⟨bn, lt_of_direct h⟩
  else if bn - NDIRECT < NINDIRECT then do
    let (bp, ip, s) ← addrOrAlloc sb s ip 12
    let (b, s) ← entryOrAlloc sb s bp (bn - NDIRECT)
    return (b, ip, s)
  else .error (.panic "bmap: out of range")

/-- The loop of `itrunc` over the direct blocks. -/
def freeDirect : List (Fin 13) → Store → Inode → Except Fault (Inode × Store)
  | [], s, ip => .ok (ip, s)
  | k :: rest, s, ip =>
    if ip.addrs k = 0 then freeDirect rest s ip
    else do
      let s ← bfree sb s (ip.addrs k)
      freeDirect rest s (ip.setAddr k 0)

/-- The loop of `itrunc` over the entries of the indirect block. -/
def freeEntries (bp : Nat) : List Nat → Store → Except Fault Store
  | [], s => .ok s
  | j :: rest, s =>
    if getUint (s.data bp) j = 0 then freeEntries bp rest s
    else do
      let s ← bfree sb s (getUint (s.data bp) j)
      freeEntries bp rest s

def freeIndirect (s : Store) (ip : Inode) : Except Fault (Inode × Store) :=
  if ip.addrs 12 = 0 then .ok (ip, s)
  else do
    let s ← freeEntries sb (ip.addrs 12) (List.range NINDIRECT) s
    let s ← bfree sb s (ip.addrs 12)
    return (ip.setAddr 12 0, s)

def directs : List (Fin 13) := [0, 1, 2, 3, 4, 5, 6, 7, 8, 9, 10, 11]

def itrunc (s : Store) (ip : Inode) : Except Fault (Inode × Store) := do
  let (ip, s) ← freeDirect sb directs s ip
  let (ip, s) ← freeIndirect sb s ip
  let ip := { ip with size := 0 }
  return (ip, iupdate sb s ip)

/-- The branch of `iput` that frees an inode without links. -/
def iputFree (s : Store) (ip : Inode) : Except Fault Store := do
  let (ip, s) ← itrunc sb s ip
  return iupdate sb s { ip with type := 0 }

end Functions

section Copying

variable {K : Type} [Allocator K]

/-- The loop of `copyin` with the bytes that it has stored when it returns, and whether it
returns 0. -/
def copyinBytes (m : Paging.Machine K) (pagetable : Word) : Nat → Word → Nat → List Byte × Bool
  | 0, _, _ => ([], true)
  | rounds + 1, srcva, len =>
    if len = 0 then ([], true)
    else
      let va0 := PGROUNDDOWN srcva
      let pa0 := Paging.walkaddr m pagetable va0
      if pa0 = 0 then ([], false)
      else
        let offset := (srcva - va0).toNat
        let n := min (Paging.PGSIZE.toNat - offset) len
        let rest := copyinBytes m pagetable rounds (va0 + Paging.PGSIZE) (len - n)
        (readPage (m.mem pa0) offset n ++ rest.1, rest.2)

/-- Where the bytes of a write come from: `user_src` or a kernel address. -/
inductive Source (K : Type) where
  | user (m : Paging.Machine K) (pagetable src : Word)
  | kernel (mem : Word → Byte) (src : Word)

/-- `either_copyin(dst, user_src, src + tot, len)`: the bytes stored, and whether it returns 0. -/
def Source.eitherCopyin : Source K → Nat → Nat → List Byte × Bool
  | .user m pagetable src, tot, len => copyinBytes m pagetable len (src + BitVec.ofNat 64 tot) len
  | .kernel mem src, tot, len =>
    ((List.range len).map fun i => mem (src + BitVec.ofNat 64 (tot + i)), true)

inductive Dest (K : Type) where
  | user (m : Paging.Machine K) (pagetable dst : Word)
  | kernel (mem : Word → Byte) (dst : Word)

def storeBytes (mem : Word → Byte) (dst : Word) : List Byte → Word → Byte
  | [] => mem
  | b :: rest => storeBytes (update mem dst b) (dst + 1) rest

/-- `either_copyout(user_dst, dst + tot, src, len)`; the result says whether it returns 0. -/
def Dest.eitherCopyout : Dest K → Nat → List Byte → Bool × Dest K
  | .user m pagetable dst, tot, bytes =>
    let (copied, m) := Paging.copyout m pagetable (dst + BitVec.ofNat 64 tot) bytes
    (copied, .user m pagetable dst)
  | .kernel mem dst, tot, bytes => (true, .kernel (storeBytes mem (dst + BitVec.ofNat 64 tot) bytes) dst)

variable (sb : Superblock)

/-- The loop of `readi`, with the rounds that are left at most; `none` for -1. -/
def readiLoop : Nat → Store → Inode → Dest K → (off tot n : Nat) →
    Except Fault (Option Nat × Dest K × Inode × Store)
  | 0, s, ip, dst, _, tot, _ => .ok (some tot, dst, ip, s)
  | rounds + 1, s, ip, dst, off, tot, n =>
    if n ≤ tot then .ok (some tot, dst, ip, s)
    else do
      let (b, ip, s) ← bmap sb s ip (off / BSIZE)
      let m := min (n - tot) (BSIZE - off % BSIZE)
      match dst.eitherCopyout tot ((List.range' (off % BSIZE) m).map (s.data b)) with
      | (false, dst) => return (none, dst, ip, s)
      | (true, dst) => readiLoop rounds s ip dst (off + m) (tot + m) n

def readi (s : Store) (ip : Inode) (dst : Dest K) (off n : BitVec 32) :
    Except Fault (Option Nat × Dest K × Inode × Store) :=
  if ip.size < off.toNat ∨ off + n < off then .ok (some 0, dst, ip, s)
  else
    let n := if ip.size < (off + n).toNat then ip.size - off.toNat else n.toNat
    readiLoop sb n s ip dst off.toNat 0 n

/-- The loop of `writei`, with the rounds that are left at most; the results are `tot` and
`off`. -/
def writeiLoop (src : Source K) : Nat → Store → Inode → (off tot n : Nat) →
    Except Fault (Nat × Nat × Inode × Store)
  | 0, s, ip, off, tot, _ => .ok (tot, off, ip, s)
  | rounds + 1, s, ip, off, tot, n =>
    if n ≤ tot then .ok (tot, off, ip, s)
    else do
      let (b, ip, s) ← bmap sb s ip (off / BSIZE)
      let m := min (n - tot) (BSIZE - off % BSIZE)
      let (bytes, copied) := src.eitherCopyin tot m
      let s := s.setData b (putBytes (s.data b) (off % BSIZE) bytes)
      if copied = false then return (tot, off, ip, s)
      else writeiLoop src rounds (s.logWrite b) ip (off + m) (tot + m) n

/-- `writei`; the result is `none` for -1. -/
def writei (s : Store) (ip : Inode) (src : Source K) (off n : BitVec 32) :
    Except Fault (Option Nat × Inode × Store) :=
  if ip.size < off.toNat ∨ off + n < off then .ok (none, ip, s)
  else if MAXFILE * BSIZE < (off + n).toNat then .ok (none, ip, s)
  else do
    let (tot, off, ip, s) ← writeiLoop sb src n.toNat s ip off.toNat 0 n.toNat
    let ip := if ip.size < off then { ip with size := off } else ip
    return (some tot, ip, iupdate sb s ip)

end Copying

end OsbKernel.Blocks
