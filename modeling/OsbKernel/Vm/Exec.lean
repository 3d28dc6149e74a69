import OsbKernel.Vm.ProcMemory
import OsbKernel.Vm.UserMemory

/-!
# exec

`exec` and `loadseg` of `exec.c`, and `sys_exec` with the functions of `syscall.c` that fetch its
arguments. A file is the list of its bytes; `namei` finds it, or nothing. `elf` and `ph` are read
from the bytes that `readi` delivers, lowest byte first.
-/

namespace OsbKernel.Paging

def MAXARG : Nat := 32

def MAXPATH : Nat := 128

def ELF_MAGIC : BitVec 32 := 0x464C457F

def ELF_PROG_LOAD : BitVec 32 := 1

/-- `readi` into kernel memory: the bytes that it delivers. -/
def readi (file : List Byte) (off n : BitVec 32) : List Byte :=
  if file.length < off.toNat ∨ off + n < off then []
  else if file.length < (off + n).toNat then (file.drop off.toNat).take (file.length - off.toNat)
  else (file.drop off.toNat).take n.toNat

def ofBytes : List Byte → Nat
  | [] => 0
  | b :: rest => b.toNat + 256 * ofBytes rest

/-- A field of `w` bits at a place in a structure. -/
def field (w : Nat) (bytes : List Byte) (place : Nat) : BitVec w :=
  BitVec.ofNat w (ofBytes ((bytes.drop place).take (w / 8)))

/-- The fields of `struct elfhdr` that `exec` reads. -/
structure Elfhdr where
  magic : BitVec 32
  entry : Word
  phoff : Word
  phnum : BitVec 16

def sizeofElfhdr : BitVec 32 := 64

def Elfhdr.ofBytes (bytes : List Byte) : Elfhdr where
  magic := field 32 bytes 0
  entry := field 64 bytes 24
  phoff := field 64 bytes 32
  phnum := field 16 bytes 56

/-- The fields of `struct proghdr` that `exec` reads. -/
structure Proghdr where
  type : BitVec 32
  off : Word
  vaddr : Word
  filesz : Word
  memsz : Word

def sizeofProghdr : BitVec 32 := 56

def Proghdr.ofBytes (bytes : List Byte) : Proghdr where
  type := field 32 bytes 0
  off := field 64 bytes 8
  vaddr := field 64 bytes 16
  filesz := field 64 bytes 32
  memsz := field 64 bytes 40

section Functions

variable {K : Type} [Allocator K]

/-- The loop of `loadseg` with the number of rounds. -/
def loadsegLoop (pagetable va : Word) (file : List Byte) (offset sz : BitVec 32) :
    Nat → Machine K → BitVec 32 → Except Fault (Bool × Machine K)
  | 0, m, _ => .ok (true, m)
  | rounds + 1, m, i =>
    let pa := walkaddr m pagetable (va + i.setWidth 64)
    if pa = 0 then .error (.panic "loadseg: address should exist")
    else
      let n : BitVec 32 := if sz - i < 4096 then sz - i else 4096
      let bytes := readi file (offset + i) n
      let m := m.write pa 0 bytes
      if bytes.length ≠ n.toNat then .ok (false, m)
      else loadsegLoop pagetable va file offset sz rounds m (i + 4096)

/-- `loadseg`; the result says whether it returns 0. -/
def loadseg (m : Machine K) (pagetable va : Word) (file : List Byte) (offset sz : BitVec 32) :
    Except Fault (Bool × Machine K) :=
  loadsegLoop pagetable va file offset sz ((sz.toNat + 4095) / 4096) m 0

/-- What one program header of type `ELF_PROG_LOAD` makes of the size and of memory; the result
is `false` for `goto bad`. -/
def loadHeader (m : Machine K) (pagetable : Word) (file : List Byte) (sz : Word) (ph : Proghdr) :
    Except Fault (Bool × Word × Machine K) :=
  if ph.memsz < ph.filesz then .ok (false, sz, m)
  else if ph.vaddr + ph.memsz < ph.vaddr then .ok (false, sz, m)
  else do
    let (sz1, m) ← uvmalloc m pagetable sz (ph.vaddr + ph.memsz)
    if sz1 = 0 then return (false, sz, m)
    else if ph.vaddr % PGSIZE ≠ 0 then return (false, sz1, m)
    else
      let (loaded, m) ← loadseg m pagetable ph.vaddr file (ph.off.setWidth 32)
        (ph.filesz.setWidth 32)
      return (loaded, sz1, m)

/-- The loop of `exec` over the program headers, with the headers that are left. -/
def loadHeaders (pagetable : Word) (file : List Byte) :
    Nat → Machine K → BitVec 32 → Word → Except Fault (Bool × Word × Machine K)
  | 0, m, _, sz => .ok (true, sz, m)
  | left + 1, m, off, sz =>
    let bytes := readi file off sizeofProghdr
    if bytes.length ≠ sizeofProghdr.toNat then .ok (false, sz, m)
    else if (Proghdr.ofBytes bytes).type ≠ ELF_PROG_LOAD then
      loadHeaders pagetable file left m (off + sizeofProghdr) sz
    else do
      match ← loadHeader m pagetable file sz (Proghdr.ofBytes bytes) with
      | (false, sz, m) => return (false, sz, m)
      | (true, sz, m) => loadHeaders pagetable file left m (off + sizeofProghdr) sz

/-- `strlen` of a string that begins with a page and ends in it. -/
def strlen (page : Nat → Word) : Nat := ((readPage page 0 PGSIZE.toNat).takeWhile (· ≠ 0)).length

def wordBytes (w : Word) : List Byte := (List.range 8).map (getByte w)

/-- The loop over the argument strings.  `ustack` has the `argc` entries that are set; the result
is `none` for `goto bad`. -/
def pushStrings (pagetable stackbase : Word) :
    List Word → Machine K → Word → List Word → Option (Word × List Word) × Machine K
  | [], m, sp, ustack => (some (sp, ustack), m)
  | arg :: argv, m, sp, ustack =>
    if MAXARG ≤ ustack.length then (none, m)
    else
      let len := strlen (m.mem arg) + 1
      let sp := sp - BitVec.ofNat 64 len
      let sp := sp - sp % 16
      if sp < stackbase then (none, m)
      else
        match copyout m pagetable sp (readPage (m.mem arg) 0 len) with
        | (false, m) => (none, m)
        | (true, m) => pushStrings pagetable stackbase argv m sp (ustack ++ [sp])

/-- The strings and the array of pointers to them; the result is `argc` and `sp`. -/
def pushArgv (m : Machine K) (pagetable stackbase : Word) (argv : List Word) (sp : Word) :
    Except Fault (Option (Nat × Word) × Machine K) :=
  match pushStrings pagetable stackbase argv m sp [] with
  | (none, m) => .ok (none, m)
  | (some (sp, ustack), m) =>
    if MAXARG ≤ ustack.length then .error (.ustackIndex ustack.length)
    else
      let sp := sp - BitVec.ofNat 64 ((ustack.length + 1) * 8)
      let sp := sp - sp % 16
      if sp < stackbase then .ok (none, m)
      else
        match copyout m pagetable sp ((ustack ++ [0]).flatMap wordBytes) with
        | (false, m) => .ok (none, m)
        | (true, m) => .ok (some (ustack.length, sp), m)

/-- The fields of `struct proc` that `exec` uses. -/
structure Image where
  pagetable : Word
  sz : Word
  trapframe : Word
  name : List Byte
  deriving DecidableEq

/-- The words of `struct trapframe`. -/
def epcWord : Nat := 3

def spWord : Nat := 6

def a0Word : Nat := 14

def a1Word : Nat := 15

/-- `safestrcpy(s, t, n)` on the contents of `s`. -/
def safestrcpy (s t : List Byte) (n : Nat) : List Byte :=
  let copied := (t ++ [0]).take (n - 1)
  copied ++ [0] ++ s.drop (copied.length + 1)

def lastComponent : List Byte → List Byte → List Byte
  | [], last => last
  | c :: s, last => lastComponent s (if c = 0x2F then s else last)

/-- From the program headers to the finished stack.  The result is `argc` and `sp`, or `none` for
`goto bad`, with the variable `sz`. -/
def execBuild (m : Machine K) (pagetable : Word) (file : List Byte) (elf : Elfhdr)
    (argv : List Word) : Except Fault (Option (Nat × Word) × Word × Machine K) := do
  -- `int off = elf.phoff`
  match ← loadHeaders pagetable file elf.phnum.toNat m (elf.phoff.setWidth 32) 0 with
  | (false, sz, m) => return (none, sz, m)
  | (true, sz, m) =>
    let sz := PGROUNDUP sz
    let (sz1, m) ← uvmalloc m pagetable sz (sz + 2 * PGSIZE)
    if sz1 = 0 then return (none, sz, m)
    else
      let m ← uvmclear m pagetable (sz1 - 2 * PGSIZE)
      let (pushed, m) ← pushArgv m pagetable (sz1 - PGSIZE) argv sz1
      return (pushed, sz1, m)

/-- `exec(path, argv)`; the result is `none` for -1. -/
def exec (m : Machine K) (trampoline : Word) (p : Image) (namei : List Byte → Option (List Byte))
    (path : List Byte) (argv : List Word) : Except Fault (Option Nat × Image × Machine K) :=
  match namei path with
  | none => .ok (none, p, m)
  | some file =>
    let bytes := readi file 0 sizeofElfhdr
    let elf := Elfhdr.ofBytes bytes
    if bytes.length ≠ sizeofElfhdr.toNat then .ok (none, p, m)
    else if elf.magic ≠ ELF_MAGIC then .ok (none, p, m)
    else do
      match ← procPagetable m trampoline p.trapframe with
      | (none, m) => return (none, p, m)
      | (some pagetable, m) =>
        match ← execBuild m pagetable file elf argv with
        | (none, sz, m) =>
          let m ← procFreepagetable m pagetable sz
          return (none, p, m)
        | (some (argc, sp), sz, m) =>
          let m := m.store (p.trapframe, a1Word) sp
          let m := m.store (p.trapframe, epcWord) elf.entry
          let m := m.store (p.trapframe, spWord) sp
          let m ← procFreepagetable m p.pagetable p.sz
          return (some argc, { p with
            pagetable, sz, name := safestrcpy p.name (lastComponent path path) 16 }, m)

/-- `fetchaddr(addr, ip)`; the value stored at `ip`, or `none` for -1. -/
def fetchaddr (m : Machine K) (p : Image) (addr : Word) : Option Word :=
  if p.sz ≤ addr ∨ p.sz < addr + 8 then none
  else (copyin m p.pagetable addr 8).map fun bytes => field 64 bytes 0

/-- The loop of `sys_exec` with the entries of `argv` that are left; `argv` has those that are
set.  The result is `false` for `goto bad`. -/
def fetchArgv (p : Image) (uargv : Word) :
    Nat → Machine K → List Word → Except Fault (Bool × List Word × Machine K)
  | 0, m, argv => .ok (false, argv, m)
  | left + 1, m, argv =>
    match fetchaddr m p (uargv + BitVec.ofNat 64 (8 * argv.length)) with
    | none => .ok (false, argv, m)
    | some uarg =>
      if uarg = 0 then .ok (true, argv, m)
      else
        let (page, m) := m.kalloc
        if page = 0 then .ok (false, argv, m)
        else
          match copyinstr m p.pagetable uarg PGSIZE.toNat with
          | none => .error .endless
          | some r =>
            let m := m.write page 0 r.dst
            if r.gotNull then fetchArgv p uargv left m (argv ++ [page])
            else .ok (false, argv ++ [page], m)

def kfreeArgv : List Word → Machine K → Except Fault (Machine K)
  | [], m => .ok m
  | page :: argv, m => do
    let m ← m.kfree page
    kfreeArgv argv m

/-- `sys_exec`; the arguments are in the trapframe. -/
def sysExec (m : Machine K) (trampoline : Word) (p : Image)
    (namei : List Byte → Option (List Byte)) : Except Fault (Option Nat × Image × Machine K) :=
  match copyinstr m p.pagetable (m.load (p.trapframe, a0Word)) MAXPATH with
  | none => .error .endless
  | some path =>
    if path.gotNull = false then .ok (none, p, m)
    else do
      match ← fetchArgv p (m.load (p.trapframe, a1Word)) MAXARG m [] with
      | (false, argv, m) =>
        let m ← kfreeArgv argv m
        return (none, p, m)
      | (true, argv, m) =>
        let (ret, p, m) ← exec m trampoline p namei path.dst.dropLast argv
        let m ← kfreeArgv argv m
        return (ret, p, m)

end Functions

end OsbKernel.Paging
