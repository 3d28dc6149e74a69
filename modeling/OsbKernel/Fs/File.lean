import OsbKernel.Vm.AddressSpace

/-!
# Open files and pipes

The file table of `file.c`, the descriptor tables and current directories of the processes, and
the pipes of `pipe.c`. A log of the allocations and releases of pipe pages is kept beside the
state.
-/

namespace OsbKernel

open Function

abbrev NFILE : Nat := 100

instance nfile_neZero : NeZero NFILE := ⟨by decide⟩

abbrev FileId := Fin NFILE

abbrev Fd := Fin NOFILE

/-- A pointer to an in-memory inode: the inode table holds each inode once, so
that the inode number identifies the entry. -/
abbrev Ino := Nat

inductive FdType where
  | FD_NONE
  | FD_PIPE
  | FD_INODE
  | FD_DEVICE
  deriving DecidableEq, Repr

structure File where
  type : FdType
  ref : Nat
  readable : Bool
  writable : Bool
  pipe : Page
  ip : Ino
  off : Nat
  major : Int
  deriving DecidableEq, Repr

/-- The zero-initialised `struct file`. -/
def File.zero : File := ⟨.FD_NONE, 0, false, false, 0, 0, 0, 0⟩

/-- The two ends of a `struct pipe`. -/
structure Pipe where
  readopen : Bool
  writeopen : Bool
  deriving DecidableEq, Repr

def Pipe.close (pi : Pipe) (writable : Bool) : Pipe :=
  if writable then { pi with writeopen := false } else { pi with readopen := false }

inductive PipeEvent where
  | alloc (page : Page)
  | free (page : Page)
  deriving DecidableEq, Repr

/-- The file table, the part of each process that refers to files and inodes,
and the pages of pipes. -/
structure Files where
  file : FileId → File
  ofile : Slot → Fd → Option FileId
  cwd : Slot → Option Ino
  live : Slot → Bool
  initproc : Slot
  pipe : Page → Pipe
  kmem : Kmem
  pipeLog : List PipeEvent

namespace Files

def setFile (s : Files) (f : FileId) (g : File) : Files := { s with file := update s.file f g }

def setOfile (s : Files) (p : Slot) (fd : Fd) (f : Option FileId) : Files :=
  { s with ofile := update s.ofile p (update (s.ofile p) fd f) }

def setCwd (s : Files) (p : Slot) (ip : Option Ino) : Files :=
  { s with cwd := update s.cwd p ip }

def setLive (s : Files) (p : Slot) (b : Bool) : Files := { s with live := update s.live p b }

def setPipe (s : Files) (page : Page) (pi : Pipe) : Files :=
  { s with pipe := update s.pipe page pi }

def allocPipe (s : Files) : Option Page × Files :=
  match kalloc s.kmem with
  | none => (none, s)
  | some (page, m) => (some page, { s with kmem := m, pipeLog := .alloc page :: s.pipeLog })

def freePipe (s : Files) (page : Page) : Files :=
  { s with kmem := kfree s.kmem page, pipeLog := .free page :: s.pipeLog }

/-- The first table entry with reference count 0, with its count set to 1. -/
def filealloc (s : Files) : Option FileId × Files :=
  match (List.finRange NFILE).find? fun f => (s.file f).ref = 0 with
  | none => (none, s)
  | some f => (some f, s.setFile f { s.file f with ref := 1 })

def filedup (s : Files) (f : FileId) : Except Fault Files :=
  if (s.file f).ref < 1 then .error (.panic "filedup")
  else .ok (s.setFile f { s.file f with ref := (s.file f).ref + 1 })

/-- The part of `fileclose` under `ftable.lock`: one reference less; the old
contents of the entry when that was the last one. -/
def dropFile (s : Files) (f : FileId) : Except Fault (Option File × Files) :=
  if (s.file f).ref < 1 then .error (.panic "fileclose")
  else if (s.file f).ref - 1 > 0 then
    .ok (none, s.setFile f { s.file f with ref := (s.file f).ref - 1 })
  else
    .ok (some { s.file f with ref := 0 }, s.setFile f { s.file f with ref := 0, type := .FD_NONE })

/-- The first free descriptor of the process, pointed to the file. -/
def fdalloc (s : Files) (p : Slot) (f : FileId) : Option Fd × Files :=
  match (List.finRange NOFILE).find? fun fd => s.ofile p fd = none with
  | none => (none, s)
  | some fd => (some fd, s.setOfile p fd (some f))

def pipeclose (s : Files) (page : Page) (writable : Bool) : Bool × Files :=
  let pi := (s.pipe page).close writable
  (!pi.readopen && !pi.writeopen, s.setPipe page pi)

end Files

/-- The operations on files and processes that the system calls are made of. -/
inductive FileOp where
  | cwd
  | setCwd (ip : Option Ino)
  | filealloc
  | filedup (f : FileId)
  | dropFile (f : FileId)
  | file (f : FileId)
  | setFile (f : FileId) (g : File)
  | ofile (fd : Fd)
  | fdalloc (f : FileId)
  | setOfile (fd : Fd) (f : Option FileId)
  | kalloc
  | kfree (page : Page)
  | setPipe (page : Page) (pi : Pipe)
  | pipeclose (page : Page) (writable : Bool)
  | initproc
  | childOfile (np : Slot) (fd : Fd) (f : FileId)
  | childCwd (np : Slot) (ip : Ino)
  | spawn (np : Slot)
  | die

abbrev FileOp.Res : FileOp → Type
  | cwd => Ino
  | filealloc => Option FileId
  | dropFile _ => Option File
  | file _ => File
  | ofile _ => Option FileId
  | fdalloc _ => Option Fd
  | kalloc => Option Page
  | pipeclose _ _ => Bool
  | initproc => Bool
  | _ => Unit

/-- The file operations of process `p`. -/
def Files.exec (p : Slot) : (o : FileOp) → Files → Except Fault (o.Res × Files)
  | .cwd, s =>
    match s.cwd p with
    | none => .error .nullPointer
    | some ip => .ok (ip, s)
  | .setCwd ip, s => .ok ((), s.setCwd p ip)
  | .filealloc, s => .ok s.filealloc
  | .filedup f, s => (s.filedup f).map fun s' => ((), s')
  | .dropFile f, s => s.dropFile f
  | .file f, s => .ok (s.file f, s)
  | .setFile f g, s => .ok ((), s.setFile f g)
  | .ofile fd, s => .ok (s.ofile p fd, s)
  | .fdalloc f, s => .ok (s.fdalloc p f)
  | .setOfile fd f, s => .ok ((), s.setOfile p fd f)
  | .kalloc, s => .ok s.allocPipe
  | .kfree page, s => .ok ((), s.freePipe page)
  | .setPipe page pi, s => .ok ((), s.setPipe page pi)
  | .pipeclose page writable, s => .ok (s.pipeclose page writable)
  | .initproc, s => .ok (p == s.initproc, s)
  | .childOfile np fd f, s => .ok ((), s.setOfile np fd (some f))
  | .childCwd np ip, s => .ok ((), s.setCwd np (some ip))
  | .spawn np, s => .ok ((), s.setLive np true)
  | .die, s => .ok ((), s.setLive p false)

end OsbKernel
