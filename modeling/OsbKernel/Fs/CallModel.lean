import OsbKernel.Fs.Calls
import Mathlib.Data.List.Count

/-!
# System calls over an arbitrary inode layer

The file layer is executed; operations on inodes and memory may give any answer, which covers
whatever other processes do to inodes meanwhile. Each call leaves a trace of its inode operations.
-/

namespace OsbKernel

open OpProgram

inductive FsEvent where
  | beginOp
  | endOp
  | ref (ip : Ino)
  | put (ip : Ino)
  | lock (ip : Ino)
  | unlock (ip : Ino)
  | logWrite
  deriving DecidableEq, Repr

/-- The events of an operation, latest first.  A read goes through `bmap`, which
logs a block where the file has a hole. -/
def InodeOp.events : (o : InodeOp) → o.Res → List FsEvent
  | beginOp, _ => [.beginOp]
  | endOp, _ => [.endOp]
  | iget ip, _ => [.ref ip]
  | idup ip, _ => [.ref ip]
  | ilock ip, _ => [.lock ip]
  | iunlock ip, _ => [.unlock ip]
  | iput ip, _ => [.put ip]
  | ialloc _, ip => [.ref ip, .logWrite]
  | fields _, _ => []
  | assign _ _, _ => []
  | iupdate _, _ => [.logWrite]
  | itrunc _, _ => [.logWrite]
  | readDirent _ _, _ => [.logWrite]
  | writeDirent _ _ _, _ => [.logWrite]
  | readElf _, _ => [.logWrite]
  | readProghdr _ _, _ => [.logWrite]
  | readSegment _ _ _, _ => [.logWrite]

def held : List FsEvent → List Ino
  | [] => []
  | .lock ip :: past => ip :: held past
  | .unlock ip :: past => (held past).erase ip
  | _ :: past => held past

/-- The state of a system call: the files, and what the call did so far. -/
structure World where
  files : Files
  trace : List FsEvent

/-- The operation can be carried out: a process that locks an inode twice waits
for itself, and one that unlocks an inode it has not locked panics. -/
def InodeOp.Ready (w : World) : InodeOp → Prop
  | ilock ip => ip ∉ held w.trace
  | iunlock ip => ip ∈ held w.trace
  | _ => True

def World.note (w : World) (events : List FsEvent) : World :=
  { w with trace := events ++ w.trace }

/-- The operations of process `p`.  Runs in which the inode layer panics are not
followed. -/
def calls (p : Slot) : Model CallOp.Res Fault World where
  step w o r w' :=
    match o, r with
    | .ino o, r => o.Ready w ∧ w' = w.note (o.events r)
    | .file o, r => Files.exec p o w.files = .ok (r, w'.files) ∧ w'.trace = w.trace
    | .mem _, _ => w' = w
  stops w o e :=
    match o with
    | .ino _ => False
    | .file o => Files.exec p o w.files = .error e
    | .mem _ => False

section Rules

variable {p : Slot} {w : World} {β : Type} {Q : β → World → Prop} {E : Fault → Prop}

theorem sat_ino {o : InodeOp} {f : o.Res → Call β}
    (answers : ∀ r, o.Ready w → Sat (calls p) (f r) (w.note (o.events r)) Q E) :
    Sat (calls p) (Call.ino o >>= f) w Q E := by
  refine Sat.perform ?_ ?_
  · rintro e ⟨⟩
  · rintro r w' ⟨ready, rfl⟩
    exact answers r ready

variable {o : FileOp}

theorem sat_file {f : o.Res → Call β}
    (errors : ∀ e, Files.exec p o w.files = .error e → E e)
    (answers : ∀ r s, Files.exec p o w.files = .ok (r, s) → Sat (calls p) (f r) ⟨s, w.trace⟩ Q E) :
    Sat (calls p) (Call.file o >>= f) w Q E := by
  refine Sat.perform errors ?_
  rintro r ⟨s, trace⟩ ⟨executed, rfl⟩
  exact answers r s executed

theorem sat_file_ok {f : o.Res → Call β} {r : o.Res} {s : Files}
    (executes : Files.exec p o w.files = .ok (r, s))
    (rest : Sat (calls p) (f r) ⟨s, w.trace⟩ Q E) : Sat (calls p) (Call.file o >>= f) w Q E := by
  apply sat_file
  · intro e stopped
    rw [executes] at stopped
    cases stopped
  · intro r' s' executed
    rw [executes] at executed
    cases executed
    exact rest

theorem sat_mem {o : MemOp} {f : Bool → Call β} (answers : ∀ b, Sat (calls p) (f b) w Q E) :
    Sat (calls p) (Call.mem o >>= f) w Q E := by
  refine Sat.perform ?_ ?_
  · rintro e ⟨⟩
  · rintro b w' rfl
    exact answers b

theorem sat_mem_last {o : MemOp} {Q : Bool → World → Prop} (answers : ∀ b, Q b w) :
    Sat (calls p) (Call.mem o) w Q E := by
  constructor
  · rintro e ⟨⟩
  · rintro b w' rfl
    exact answers b

theorem sat_ino_last {o : InodeOp} {Q : o.Res → World → Prop}
    (answers : ∀ r, o.Ready w → Q r (w.note (o.events r))) :
    Sat (calls p) (Call.ino o) w Q E := by
  constructor
  · rintro e ⟨⟩
  · rintro r w' ⟨ready, rfl⟩
    exact answers r ready

theorem sat_file_last {Q : o.Res → World → Prop} {r : o.Res} {s : Files}
    (executes : Files.exec p o w.files = .ok (r, s)) (rest : Q r ⟨s, w.trace⟩) :
    Sat (calls p) (Call.file o) w Q E := by
  constructor
  · intro e stopped
    have same := executes.symm.trans stopped
    cases same
  · rintro r' ⟨s', trace⟩ ⟨executed, rfl⟩
    have same := executes.symm.trans executed
    cases same
    exact rest

end Rules

inductive SysCall where
  | open_ (path : Option Path) (omode : BitVec 32)
  | dup (fd : Int)
  | pipe (fdarray : Nat)
  | close (fd : Int)
  | link (old new : Option Path)
  | unlink (path : Option Path)
  | mkdir (path : Option Path)
  | mknod (path : Option Path) (major minor : Int)
  | chdir (path : Option Path)
  | exec (path : Path) (argv : List (List UInt8))
  | fork (np : Slot)
  | exit

def SysCall.prog : SysCall → Call Int
  | open_ path omode => sysOpen path omode
  | dup fd => sysDup fd
  | pipe fdarray => sysPipe fdarray
  | close fd => sysClose fd
  | link old new => sysLink old new
  | unlink path => sysUnlink path
  | mkdir path => sysMkdir path
  | mknod path major minor => sysMknod path major minor
  | chdir path => sysChdir path
  | exec path argv => OsbKernel.exec path argv
  | fork np => do
    forkFiles np
    return 0
  | exit => do
    exitFiles
    return 0

def SysCall.Possible (s : Files) : SysCall → Prop
  | fork np => s.live np = false
  | _ => True

/-- Process `p`, which has not exited, makes a system call that returns. -/
structure Called (s : Files) (p : Slot) (c : SysCall) (trace : List FsEvent) (s' : Files) :
    Prop where
  live : s.live p = true
  possible : c.Possible s
  returns : ∃ r, Runs (calls p) c.prog ⟨s, []⟩ r ⟨s', trace⟩

end OsbKernel
