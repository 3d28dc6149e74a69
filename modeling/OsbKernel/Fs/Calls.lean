import OsbKernel.Fs.File
import OsbKernel.Lib.Program

/-!
# The file system calls

`namex`, `dirlookup` and `dirlink` of `fs.c`, the system calls of `sysfile.c`, the parts of `fork`
and `exit` that handle files, and `exec`, as programs over operations of the inode layer, the file
layer and memory management, which are not fixed here; `Vm/Exec` has `exec` on memory.
-/

namespace OsbKernel

open OpProgram

def ROOTINO : Ino := 1

def DIRSIZ : Nat := 14

def NDEV : Nat := 10

def MAXARG : Nat := 32

inductive InodeType where
  | free
  | T_DIR
  | T_FILE
  | T_DEVICE
  deriving DecidableEq, Repr

structure Inode where
  type : InodeType
  major : Int
  minor : Int
  nlink : Int
  size : Nat
  deriving DecidableEq, Repr

/-- The value that an `int` has after it is stored in a `short`. -/
def short (n : Int) : Int := n.bmod (2 ^ 16)

/-- A name in a directory entry: its bytes up to the first zero byte. -/
abbrev Name := List UInt8

/-- A path as `argstr` fetches it, without the final zero byte. -/
abbrev Path := List UInt8

/-- `struct dirent`: an inode number that fits in an `ushort`, and a name. -/
structure Dirent where
  inum : Ino
  name : Name
  deriving DecidableEq, Repr

/-- `struct elfhdr`, as far as `exec` reads it. -/
structure Elfhdr where
  magic : Nat
  phoff : Nat
  phnum : Nat

/-- `struct proghdr`, as far as `exec` reads it. -/
structure Proghdr where
  type : Nat
  off : Nat
  vaddr : Nat
  filesz : Nat
  memsz : Nat

inductive InodeOp where
  | beginOp
  | endOp
  | iget (inum : Ino)
  | idup (ip : Ino)
  | ilock (ip : Ino)
  | iunlock (ip : Ino)
  | iput (ip : Ino)
  | ialloc (type : InodeType)
  | fields (ip : Ino)
  | assign (ip : Ino) (d : Inode)
  | iupdate (ip : Ino)
  | itrunc (ip : Ino)
  | readDirent (dp : Ino) (slot : Nat)
  | writeDirent (dp : Ino) (slot : Nat) (de : Dirent)
  | readElf (ip : Ino)
  | readProghdr (ip : Ino) (off : Nat)
  | readSegment (ip : Ino) (off n : Nat)

abbrev InodeOp.Res : InodeOp → Type
  | ialloc _ => Ino
  | fields _ => Inode
  | readDirent _ _ => Option Dirent
  | writeDirent _ _ _ => Bool
  | readElf _ => Option Elfhdr
  | readProghdr _ _ => Option Proghdr
  | readSegment _ _ _ => Bool
  | _ => Unit

inductive MemOp where
  | copyout (va : Nat)
  | procPagetable
  | uvmalloc (oldsz newsz : Nat)
  | walkaddr (va : Nat)

inductive CallOp where
  | ino (o : InodeOp)
  | file (o : FileOp)
  | mem (o : MemOp)

abbrev CallOp.Res : CallOp → Type
  | ino o => o.Res
  | file o => o.Res
  | mem _ => Bool

abbrev Call := Prog CallOp.Res Fault

namespace Call

def ino (o : InodeOp) : Call o.Res := Prog.perform (CallOp.ino o)

def file (o : FileOp) : Call o.Res := Prog.perform (CallOp.file o)

def mem (o : MemOp) : Call Bool := Prog.perform (CallOp.mem o)

def kpanic {α : Type} (message : String) : Call α := .stop (.panic message)

end Call

open Call

def slash : UInt8 := 47

/-- The next path element and the path after it, without leading slashes. -/
def skipelem (path : Path) : Option (Name × Path) :=
  match path.dropWhile (· == slash) with
  | [] => none
  | c :: cs =>
    let elem := (c :: cs).takeWhile (· != slash)
    let rest := (c :: cs).dropWhile (· != slash)
    some (elem.take DIRSIZ, rest.dropWhile (· == slash))

/-- The elements that repeated calls of `skipelem` find, at most `n` of them. -/
def elemsUpTo : Nat → Path → List Name
  | 0, _ => []
  | n + 1, path =>
    match skipelem path with
    | none => []
    | some (name, rest) => name :: elemsUpTo n rest

def elems (path : Path) : List Name := elemsUpTo path.length path

def iunlockput (ip : Ino) : Call Unit := do
  ino (.iunlock ip)
  ino (.iput ip)

/-- The number of entries, the last one possibly cut, of a directory of `size` bytes. -/
def direntsIn (size : Nat) : Nat := (size + 15) / 16

/-- The loop of `dirlookup` over `n` entries from `slot` on. -/
def dirlookupLoop (dp : Ino) (name : Name) : Nat → Nat → Call (Option (Ino × Nat))
  | 0, _ => return none
  | n + 1, slot => do
    match ← ino (.readDirent dp slot) with
    | none => kpanic "dirlookup read"
    | some de =>
      if de.inum = 0 then dirlookupLoop dp name n (slot + 1)
      else if name = de.name then
        ino (.iget de.inum)
        return some (de.inum, slot)
      else dirlookupLoop dp name n (slot + 1)

/-- Look for a directory entry; the referenced inode and the index of the entry. -/
def dirlookup (dp : Ino) (name : Name) : Call (Option (Ino × Nat)) := do
  let d ← ino (.fields dp)
  if d.type ≠ .T_DIR then kpanic "dirlookup not DIR"
  else dirlookupLoop dp name (direntsIn d.size) 0

/-- The loop of `dirlink` that looks for an empty entry: its index, or the index
behind the last entry. -/
def emptyDirent (dp : Ino) : Nat → Nat → Call Nat
  | 0, slot => return slot
  | n + 1, slot => do
    match ← ino (.readDirent dp slot) with
    | none => kpanic "dirlink read"
    | some de => if de.inum = 0 then return slot else emptyDirent dp n (slot + 1)

/-- Write a new directory entry; whether the name was absent.  The inode number
is stored in an `ushort`. -/
def dirlink (dp : Ino) (name : Name) (inum : Ino) : Call Bool := do
  match ← dirlookup dp name with
  | some (ip, _) =>
    ino (.iput ip)
    return false
  | none =>
    let d ← ino (.fields dp)
    let slot ← emptyDirent dp (direntsIn d.size) 0
    match ← ino (.writeDirent dp slot ⟨inum % 2 ^ 16, name⟩) with
    | false => kpanic "dirlink"
    | true => return true

/-- The loop of `namex` from `ip` over the remaining elements. -/
def namexLoop (nameiparent : Bool) : List Name → Ino → Call (Option (Ino × Name))
  | [], ip => do
    if nameiparent then
      ino (.iput ip)
      return none
    else return some (ip, [])
  | name :: rest, ip => do
    ino (.ilock ip)
    let d ← ino (.fields ip)
    if d.type ≠ .T_DIR then
      iunlockput ip
      return none
    else if nameiparent && rest.isEmpty then
      -- Stop one level early.
      ino (.iunlock ip)
      return some (ip, name)
    else
      match ← dirlookup ip name with
      | none =>
        iunlockput ip
        return none
      | some (next, _) =>
        iunlockput ip
        namexLoop nameiparent rest next

def namexStart (path : Path) : Call Ino :=
  if path.head? = some slash then do
    ino (.iget ROOTINO)
    return ROOTINO
  else do
    let cwd ← file .cwd
    ino (.idup cwd)
    return cwd

def namex (path : Path) (nameiparent : Bool) : Call (Option (Ino × Name)) := do
  let ip ← namexStart path
  namexLoop nameiparent (elems path) ip

def namei (path : Path) : Call (Option Ino) := do
  let found ← namex path false
  return found.map Prod.fst

def nameiparent (path : Path) : Call (Option (Ino × Name)) := namex path true

/-- `fileclose`: `pipeclose`, or `iput` in a transaction of its own, after the last
reference. -/
def fileclose (f : FileId) : Call Unit := do
  match ← file (.dropFile f) with
  | none => return ()
  | some ff =>
    match ff.type with
    | .FD_PIPE => do
      let closed ← file (.pipeclose ff.pipe ff.writable)
      if closed then file (.kfree ff.pipe) else return ()
    | .FD_INODE => do
      ino .beginOp
      ino (.iput ff.ip)
      ino .endOp
    | .FD_DEVICE => do
      ino .beginOp
      ino (.iput ff.ip)
      ino .endOp
    | .FD_NONE => return ()

def argfd (n : Int) : Call (Option (Fd × FileId)) :=
  if h : 0 ≤ n ∧ n < NOFILE then do
    let fd : Fd := ⟨n.toNat, by omega⟩
    let f ← file (.ofile fd)
    return f.map fun f => (fd, f)
  else return none

def sysDup (n : Int) : Call Int := do
  match ← argfd n with
  | none => return -1
  | some (_, f) =>
    match ← file (.fdalloc f) with
    | none => return -1
    | some fd =>
      file (.filedup f)
      return (fd : Nat)

def sysClose (n : Int) : Call Int := do
  match ← argfd n with
  | none => return -1
  | some (fd, f) =>
    file (.setOfile fd none)
    fileclose f
    return 0

def pipealloc : Call (Option (FileId × FileId)) := do
  match ← file .filealloc with
  | none => return none
  | some f0 =>
    match ← file .filealloc with
    | none =>
      fileclose f0
      return none
    | some f1 =>
      match ← file .kalloc with
      | none =>
        fileclose f0
        fileclose f1
        return none
      | some pi =>
        file (.setPipe pi ⟨true, true⟩)
        let g0 ← file (.file f0)
        file (.setFile f0
          { g0 with type := .FD_PIPE, readable := true, writable := false, pipe := pi })
        let g1 ← file (.file f1)
        file (.setFile f1
          { g1 with type := .FD_PIPE, readable := false, writable := true, pipe := pi })
        return some (f0, f1)

/-- Close both ends of a pipe whose descriptors could not be handed out. -/
def closeEnds (rf wf : FileId) : Call Int := do
  fileclose rf
  fileclose wf
  return -1

def sysPipe (fdarray : Nat) : Call Int := do
  match ← pipealloc with
  | none => return -1
  | some (rf, wf) =>
    match ← file (.fdalloc rf) with
    | none => closeEnds rf wf
    | some fd0 =>
      match ← file (.fdalloc wf) with
      | none =>
        file (.setOfile fd0 none)
        closeEnds rf wf
      | some fd1 =>
        let first ← mem (.copyout fdarray)
        let second ← (if first then mem (.copyout (fdarray + 4)) else pure false : Call Bool)
        if second then return 0
        else
          file (.setOfile fd0 none)
          file (.setOfile fd1 none)
          closeEnds rf wf

/-- The loop of `fork` that hands the open files to the child. -/
def forkOfiles (np : Slot) : List Fd → Call Unit
  | [] => return ()
  | fd :: rest => do
    match ← file (.ofile fd) with
    | none => forkOfiles np rest
    | some f =>
      file (.filedup f)
      file (.childOfile np fd f)
      forkOfiles np rest

/-- What a `fork` that succeeds does to files: the child in slot `np` shares the
open files and the current directory. -/
def forkFiles (np : Slot) : Call Unit := do
  forkOfiles np (List.finRange NOFILE)
  let cwd ← file .cwd
  ino (.idup cwd)
  file (.childCwd np cwd)
  file (.spawn np)

/-- The loop of `exit` that closes the open files. -/
def exitOfiles : List Fd → Call Unit
  | [] => return ()
  | fd :: rest => do
    match ← file (.ofile fd) with
    | none => exitOfiles rest
    | some f =>
      fileclose f
      file (.setOfile fd none)
      exitOfiles rest

def exitFiles : Call Unit := do
  if ← file .initproc then kpanic "init exiting"
  else
    exitOfiles (List.finRange NOFILE)
    ino .beginOp
    let cwd ← file .cwd
    ino (.iput cwd)
    ino .endOp
    file (.setCwd none)
    file .die

def dot : Name := [46]

def dotdot : Name := [46, 46]

/-- Add `n` to the link count in memory and write the inode. -/
def addLinks (ip : Ino) (n : Int) : Call Unit := do
  let d ← ino (.fields ip)
  ino (.assign ip { d with nlink := short (d.nlink + n) })
  ino (.iupdate ip)

/-- The part of `sys_link` behind `bad`. -/
def sysLinkBad (ip : Ino) : Call Int := do
  ino (.ilock ip)
  addLinks ip (-1)
  iunlockput ip
  ino .endOp
  return -1

/-- Create the path `new` as a link to the same inode as `old`.  All inodes are
on one device. -/
def sysLink (old new : Option Path) : Call Int := do
  match old, new with
  | some old, some new =>
    ino .beginOp
    match ← namei old with
    | none =>
      ino .endOp
      return -1
    | some ip =>
      ino (.ilock ip)
      let d ← ino (.fields ip)
      if d.type = .T_DIR then
        iunlockput ip
        ino .endOp
        return -1
      else
        addLinks ip 1
        ino (.iunlock ip)
        match ← nameiparent new with
        | none => sysLinkBad ip
        | some (dp, name) =>
          ino (.ilock dp)
          let linked ← dirlink dp name ip
          iunlockput dp
          if linked then
            ino (.iput ip)
            ino .endOp
            return 0
          else sysLinkBad ip
  | _, _ => return -1

def isdiremptyLoop (dp : Ino) : Nat → Nat → Call Bool
  | 0, _ => return true
  | n + 1, slot => do
    match ← ino (.readDirent dp slot) with
    | none => kpanic "isdirempty: readi"
    | some de => if de.inum ≠ 0 then return false else isdiremptyLoop dp n (slot + 1)

def isdirempty (dp : Ino) : Call Bool := do
  let d ← ino (.fields dp)
  isdiremptyLoop dp (direntsIn d.size - 2) 2

/-- The part of `sys_unlink` behind `bad`. -/
def sysUnlinkBad (dp : Ino) : Call Int := do
  iunlockput dp
  ino .endOp
  return -1

/-- The part of `sys_unlink` that erases the entry. -/
def unlinkEntry (dp ip : Ino) (slot : Nat) (type : InodeType) : Call Int := do
  match ← ino (.writeDirent dp slot ⟨0, []⟩) with
  | false => kpanic "unlink: writei"
  | true =>
    (if type = .T_DIR then addLinks dp (-1) else pure () : Call Unit)
    iunlockput dp
    addLinks ip (-1)
    iunlockput ip
    ino .endOp
    return 0

def sysUnlink (path : Option Path) : Call Int := do
  match path with
  | none => return -1
  | some path =>
    ino .beginOp
    match ← nameiparent path with
    | none =>
      ino .endOp
      return -1
    | some (dp, name) =>
      ino (.ilock dp)
      if name = dot ∨ name = dotdot then sysUnlinkBad dp
      else
        match ← dirlookup dp name with
        | none => sysUnlinkBad dp
        | some (ip, slot) =>
          ino (.ilock ip)
          let d ← ino (.fields ip)
          if d.nlink < 1 then kpanic "unlink: nlink < 1"
          else if d.type = .T_DIR then
            if ← isdirempty ip then unlinkEntry dp ip slot d.type
            else
              iunlockput ip
              sysUnlinkBad dp
          else unlinkEntry dp ip slot d.type

/-- The part of `create` that fills a new directory. -/
def createDots (dp ip : Ino) : Call Unit := do
  addLinks dp 1
  let self ← dirlink ip dot ip
  let parent ← (if self then dirlink ip dotdot dp else pure false : Call Bool)
  if parent then return () else kpanic "create dots"

/-- The part of `create` that makes a new inode under a name that is absent. -/
def createNew (dp : Ino) (name : Name) (type : InodeType) (major minor : Int) : Call Ino := do
  let ip ← ino (.ialloc type)
  ino (.ilock ip)
  let d ← ino (.fields ip)
  ino (.assign ip { d with major := major, minor := minor, nlink := 1 })
  ino (.iupdate ip)
  (if type = .T_DIR then createDots dp ip else pure () : Call Unit)
  let linked ← dirlink dp name ip
  if linked then
    iunlockput dp
    return ip
  else kpanic "create: dirlink"

/-- Create, or with type `T_FILE` find, the inode of a path; it is returned locked. -/
def create (path : Path) (type : InodeType) (major minor : Int) : Call (Option Ino) := do
  match ← nameiparent path with
  | none => return none
  | some (dp, name) =>
    ino (.ilock dp)
    match ← dirlookup dp name with
    | some (ip, _) =>
      iunlockput dp
      ino (.ilock ip)
      let d ← ino (.fields ip)
      if type = .T_FILE ∧ (d.type = .T_FILE ∨ d.type = .T_DEVICE) then return some ip
      else
        iunlockput ip
        return none
    | none =>
      let ip ← createNew dp name type major minor
      return some ip

def O_RDONLY : BitVec 32 := 0x000
def O_WRONLY : BitVec 32 := 0x001
def O_RDWR : BitVec 32 := 0x002
def O_CREATE : BitVec 32 := 0x200
def O_TRUNC : BitVec 32 := 0x400

def hasFlag (omode flag : BitVec 32) : Bool := omode &&& flag != 0

/-- Release the locked inode of an `open` that fails. -/
def sysOpenFail (ip : Ino) : Call Int := do
  iunlockput ip
  ino .endOp
  return -1

/-- The first part of `sys_open`: the inode of the path, locked. -/
def openInode (path : Path) (omode : BitVec 32) : Call (Option Ino) := do
  if hasFlag omode O_CREATE then create path .T_FILE 0 0
  else
    match ← namei path with
    | none => return none
    | some ip =>
      ino (.ilock ip)
      let d ← ino (.fields ip)
      if d.type = .T_DIR ∧ omode ≠ O_RDONLY then
        iunlockput ip
        return none
      else return some ip

/-- The contents of the file structure that `sys_open` fills in. -/
def openedFile (g : File) (ip : Ino) (d : Inode) (omode : BitVec 32) : File :=
  let g := if d.type = .T_DEVICE then { g with type := .FD_DEVICE, major := d.major }
    else { g with type := .FD_INODE, off := 0 }
  { g with
    ip := ip
    readable := !hasFlag omode O_WRONLY
    writable := hasFlag omode O_WRONLY || hasFlag omode O_RDWR }

/-- The rest of `sys_open`: a file structure and a descriptor for the locked inode. -/
def openFile (ip : Ino) (omode : BitVec 32) : Call Int := do
  let d ← ino (.fields ip)
  if d.type = .T_DEVICE ∧ (d.major < 0 ∨ d.major ≥ NDEV) then sysOpenFail ip
  else
    match ← file .filealloc with
    | none => sysOpenFail ip
    | some f =>
      match ← file (.fdalloc f) with
      | none =>
        fileclose f
        sysOpenFail ip
      | some fd =>
        let g ← file (.file f)
        file (.setFile f (openedFile g ip d omode))
        (if hasFlag omode O_TRUNC ∧ d.type = .T_FILE then ino (.itrunc ip) else pure () :
          Call Unit)
        ino (.iunlock ip)
        ino .endOp
        return (fd : Nat)

def sysOpen (path : Option Path) (omode : BitVec 32) : Call Int := do
  match path with
  | none => return -1
  | some path =>
    ino .beginOp
    match ← openInode path omode with
    | none =>
      ino .endOp
      return -1
    | some ip => openFile ip omode

/-- The common part of `sys_mkdir` and `sys_mknod`. -/
def makeInode (path : Option Path) (type : InodeType) (major minor : Int) : Call Int := do
  ino .beginOp
  let made ← (match path with
    | none => pure none
    | some path => create path type major minor : Call (Option Ino))
  match made with
  | none =>
    ino .endOp
    return -1
  | some ip =>
    iunlockput ip
    ino .endOp
    return 0

def sysMkdir (path : Option Path) : Call Int := makeInode path .T_DIR 0 0

def sysMknod (path : Option Path) (major minor : Int) : Call Int :=
  makeInode path .T_DEVICE (short major) (short minor)

def sysChdir (path : Option Path) : Call Int := do
  ino .beginOp
  let found ← (match path with
    | none => pure none
    | some path => namei path : Call (Option Ino))
  match found with
  | none =>
    ino .endOp
    return -1
  | some ip =>
    ino (.ilock ip)
    let d ← ino (.fields ip)
    if d.type ≠ .T_DIR then
      iunlockput ip
      ino .endOp
      return -1
    else
      ino (.iunlock ip)
      let cwd ← file .cwd
      ino (.iput cwd)
      ino .endOp
      file (.setCwd (some ip))
      return 0

def ELF_MAGIC : Nat := 0x464C457F
def ELF_PROG_LOAD : Nat := 1

def proghdrSize : Nat := 56

/-- Load `n` pages of a segment of `sz` bytes, from byte `i` on; whether all were read. -/
def loadsegLoop (va : Nat) (ip : Ino) (offset sz : Nat) : Nat → Nat → Call Bool
  | 0, _ => return true
  | n + 1, i => do
    if ← mem (.walkaddr (va + i)) then
      if ← ino (.readSegment ip (offset + i) (min (sz - i) PGSIZE)) then
        loadsegLoop va ip offset sz n (i + PGSIZE)
      else return false
    else kpanic "loadseg: address should exist"

/-- Load a segment; its size is stored in an `uint`. -/
def loadseg (va : Nat) (ip : Ino) (offset sz : Nat) : Call Bool :=
  let sz := sz % 2 ^ 32
  loadsegLoop va ip offset sz ((sz + PGSIZE - 1) / PGSIZE) 0

def execSegment (ip : Ino) (ph : Proghdr) (sz : Nat) : Call (Option Nat) := do
  if ph.type ≠ ELF_PROG_LOAD then return some sz
  else if ph.memsz < ph.filesz then return none
  else if (ph.vaddr + ph.memsz) % 2 ^ 64 < ph.vaddr then return none
  else if ← mem (.uvmalloc sz (ph.vaddr + ph.memsz)) then
    if ph.vaddr % PGSIZE ≠ 0 then return none
    else if ← loadseg ph.vaddr ip ph.off ph.filesz then
      return some (max sz (ph.vaddr + ph.memsz))
    else return none
  else return none

/-- The loop of `exec` over the program headers. -/
def execSegments (ip : Ino) : Nat → Nat → Nat → Call (Option Nat)
  | 0, _, sz => return some sz
  | n + 1, off, sz => do
    match ← ino (.readProghdr ip off) with
    | none => return none
    | some ph =>
      match ← execSegment ip ph sz with
      | none => return none
      | some sz => execSegments ip n (off + proghdrSize) sz

/-- The part of `exec` that reads the file: the size of the image. -/
def execImage (ip : Ino) : Call (Option Nat) := do
  match ← ino (.readElf ip) with
  | none => return none
  | some elf =>
    if elf.magic ≠ ELF_MAGIC then return none
    else if ← mem .procPagetable then execSegments ip elf.phnum elf.phoff 0
    else return none

/-- The subtraction of the stack pointer, rounded down to a multiple of 16. -/
def pushBytes (sp n : Nat) : Nat :=
  let sp := (sp + 2 ^ 64 - n) % 2 ^ 64
  sp - sp % 16

/-- The loop of `exec` over the arguments: the stack pointer and the number of arguments. -/
def pushArgs (stackbase : Nat) : List (List UInt8) → Nat → Nat → Call (Option (Nat × Nat))
  | [], sp, argc => return some (sp, argc)
  | arg :: rest, sp, argc => do
    if argc ≥ MAXARG then return none
    else
      let sp := pushBytes sp (arg.length + 1)
      if sp < stackbase then return none
      else if ← mem (.copyout sp) then pushArgs stackbase rest sp (argc + 1)
      else return none

def pushArgv (stackbase sp argc : Nat) : Call Int := do
  if pushBytes sp ((argc + 1) * 8) < stackbase then return -1
  else if ← mem (.copyout (pushBytes sp ((argc + 1) * 8))) then return argc
  else return -1

/-- The part of `exec` after the file is closed: the stack; the number of arguments. -/
def execStack (argv : List (List UInt8)) (sz : Nat) : Call Int := do
  let sz := (sz + PGSIZE - 1) / PGSIZE * PGSIZE
  if ← mem (.uvmalloc sz (sz + 2 * PGSIZE)) then
    match ← pushArgs (sz + PGSIZE) argv (sz + 2 * PGSIZE) 0 with
    | none => return -1
    | some (sp, argc) => pushArgv (sz + PGSIZE) sp argc
  else return -1

def exec (path : Path) (argv : List (List UInt8)) : Call Int := do
  ino .beginOp
  match ← namei path with
  | none =>
    ino .endOp
    return -1
  | some ip =>
    ino (.ilock ip)
    let image ← execImage ip
    iunlockput ip
    ino .endOp
    match image with
    | none => return -1
    | some sz => execStack argv sz

end OsbKernel
