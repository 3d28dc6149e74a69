import OsbKernel.Types
import OsbKernel.Lib.Writes

/-!
# The redo log

The functions of `log.c`. A block is the array of its words; the log's header block holds the
number of logged blocks and, behind it, their numbers. `cache` is what `bread` returns: a block's
latest contents, on the disk or not.

The machine runs `begin_op`, `log_write` and `end_op` for any number of processes. What `log.lock`
protects is one step, and so is each block write of `commit` and `recover_from_log`. The machine
may lose its memory before any step. `bread` always finds a buffer: the bound `NBUF` is left out,
although `LOGSIZE` pinned blocks take all buffers and make `bget` panic in `write_log`.
-/

namespace OsbKernel

open Function StoreWrites

abbrev MAXOPBLOCKS : Nat := 10

abbrev LOGSIZE : Nat := MAXOPBLOCKS * 3

abbrev Block := Fin 256 → Nat

def Block.word (b : Block) (i : Nat) : Nat := if h : i < 256 then b ⟨i, h⟩ else 0

abbrev Disk := Nat → Block

/-- `struct logheader` read from a block, as `block[0..n)`. -/
def getHeader (b : Block) : List Nat := (List.range (b.word 0)).map fun i => b.word (i + 1)

/-- `struct logheader` written over a block: the words behind `block[n]` stay. -/
def putHeader (b : Block) (blocks : List Nat) : Block := fun j =>
  match j.val with
  | 0 => blocks.length
  | i + 1 => blocks[i]?.getD (b j)

/-- A block that is neither the header of the log nor in its region. -/
def OutsideLog (start size b : Nat) : Prop := b ≠ start ∧ (b < start ∨ start + size ≤ b)

instance (start size b : Nat) : Decidable (OutsideLog start size b) :=
  inferInstanceAs (Decidable (_ ∧ _))

/-- `struct log`, with the blocks that it is about. -/
structure Log where
  start : Nat
  size : Nat
  outstanding : Nat
  committing : Bool
  lh : List Nat
  cache : Disk
  pins : Nat → Nat
  disk : Disk

namespace Log

variable (l : Log)

/-- `bwrite` of the buffer of a block. -/
def bwrite (b : Nat) : Log := { l with disk := update l.disk b (l.cache b) }

def setData (b : Nat) (data : Block) : Log := { l with cache := update l.cache b data }

def bpin (b : Nat) : Log := { l with pins := update l.pins b (l.pins b + 1) }

def bunpin (b : Nat) : Log := { l with pins := update l.pins b (l.pins b - 1) }

/-- One iteration of the loop of `install_trans`. -/
def installOne (recovering : Bool) (tail : Nat) : Log :=
  let b := l.lh.getD tail 0
  let l := (l.setData b (l.cache (l.start + tail + 1))).bwrite b
  if recovering then l else l.bunpin b

/-- `read_head`; it fails if the header has more entries than `log.lh.block`. -/
def readHead : Option Log :=
  if (l.cache l.start).word 0 ≤ LOGSIZE then
    some { l with lh := getHeader (l.cache l.start) }
  else none

def writeHead : Log :=
  (l.setData l.start (putHeader (l.cache l.start) l.lh)).bwrite l.start

def clearHead : Log := writeHead { l with lh := [] }

/-- One iteration of the loop of `write_log`. -/
def writeLogOne (tail : Nat) : Log :=
  let block := l.start + tail + 1
  (l.setData block (l.cache (l.lh.getD tail 0))).bwrite block

/-- `begin_op` would sleep: a commit is going on, or the operation might exhaust the log. -/
def beginWaits : Bool :=
  l.committing || decide (l.lh.length + (l.outstanding + 1) * MAXOPBLOCKS > LOGSIZE)

def beginOp : Log := { l with outstanding := l.outstanding + 1 }

/-- `end_op` up to the release of `log.lock`, and whether it has to commit. -/
def endOp : Except Fault (Log × Bool) :=
  let l := { l with outstanding := l.outstanding - 1 }
  if l.committing then .error (.panic "log.committing")
  else if l.outstanding = 0 then .ok ({ l with committing := true }, true)
  else .ok (l, false)

def logWrite (b : Nat) : Except Fault Log :=
  if l.lh.length ≥ LOGSIZE ∨ l.lh.length ≥ l.size - 1 then
    .error (.panic "too big a transaction")
  else if l.outstanding < 1 then .error (.panic "log_write outside of trans")
  else if b ∈ l.lh then .ok l
  else .ok { l.bpin b with lh := l.lh ++ [b] }

/-- The memory of a machine that starts, with `log.start` and `log.size` from the superblock. -/
def boot (start size : Nat) (disk : Disk) : Log where
  start := start
  size := size
  outstanding := 0
  committing := false
  lh := []
  cache := disk
  pins := fun _ => 0
  disk := disk

end Log

structure FsOp where
  id : Nat
  blocks : List Nat
  deriving DecidableEq, Repr

/-- Where a process stands: in `begin_op`, in a transaction, or in a stage of `commit`. -/
inductive LogPc where
  | outside
  | asleep
  | woken
  | inside (op : FsOp)
  | writeLog (tail : Nat)
  | writeHead
  | install (tail : Nat)
  | clearHead
  | finish
  deriving DecidableEq, Repr

inductive LogPhase where
  | up
  | readHead
  | install (tail : Nat)
  | clearHead
  deriving DecidableEq, Repr

abbrev Txn := List (Nat × Block)

/-- A commit that has reached the disk: the operations in it, and what it writes. -/
structure Commit where
  ops : List FsOp
  txn : Txn

/-- The log with the processes that use it; the last three fields are a record of what has
happened, which no function reads. -/
structure LogMachine (π : Type) where
  log : Log
  phase : LogPhase
  pc : π → LogPc
  nextOp : Nat
  group : List FsOp
  commits : List Commit

inductive LogAct (π : Type) where
  | beginOp (p : π)
  | write (p : π) (b : Nat) (data : Block)
  | endOp (p : π)
  | commit (p : π)
  | kill (p : π)
  | crash
  | recover

namespace LogMachine

variable {π : Type} [DecidableEq π] (m : LogMachine π)

def setPc (p : π) (pc : LogPc) : LogMachine π := { m with pc := update m.pc p pc }

def wakeup : LogMachine π :=
  { m with pc := fun q => if m.pc q = .asleep then .woken else m.pc q }

/-- What the log on the disk holds for the blocks of the header in memory. -/
def logged : Txn :=
  m.log.lh.zip ((List.range m.log.lh.length).map fun i => m.log.disk (m.log.start + i + 1))

/-- `begin_op` from its start or from its `sleep` on. -/
def begin (p : π) : Option (LogMachine π) :=
  if m.pc p = .outside ∨ m.pc p = .woken then
    if m.log.beginWaits then some (m.setPc p .asleep)
    else some ({ m with log := m.log.beginOp, nextOp := m.nextOp + 1 }.setPc p (.inside ⟨m.nextOp, []⟩))
  else none

/-- A change of a block and `log_write`. -/
def write (p : π) (b : Nat) (data : Block) : Option (LogMachine π) :=
  match m.pc p with
  | .inside op =>
    match (m.log.setData b data).logWrite b with
    | .ok l => some ({ m with log := l }.setPc p (.inside { op with blocks := op.blocks.insert b }))
    | .error _ => none
  | _ => none

/-- `end_op` up to the release of `log.lock`, and the test of `commit`. -/
def endOp (p : π) : Option (LogMachine π) :=
  match m.pc p with
  | .inside op =>
    match m.log.endOp with
    | .ok (l, true) =>
      some ({ m with log := l, group := m.group ++ [op] }.setPc p
        (if l.lh.length > 0 then .writeLog 0 else .finish))
    | .ok (l, false) =>
      some (({ m with log := l, group := m.group ++ [op] }.setPc p .outside).wakeup)
    | .error _ => none
  | _ => none

/-- A step of `commit`, or the end of `end_op`. -/
def commitStep (p : π) : Option (LogMachine π) :=
  match m.pc p with
  | .writeLog tail =>
    some ({ m with log := m.log.writeLogOne tail }.setPc p
      (if tail + 1 < m.log.lh.length then .writeLog (tail + 1) else .writeHead))
  | .writeHead =>
    some ({ m with
      log := m.log.writeHead, group := []
      commits := m.commits ++ [Commit.mk m.group m.logged] }.setPc p (.install 0))
  | .install tail =>
    some ({ m with log := m.log.installOne false tail }.setPc p
      (if tail + 1 < m.log.lh.length then .install (tail + 1) else .clearHead))
  | .clearHead => some ({ m with log := m.log.clearHead }.setPc p .finish)
  | .finish =>
    some (({ m with log := { m.log with committing := false }, group := [] }.setPc p
      .outside).wakeup)
  | _ => none

/-- `kill` of a process that sleeps in `begin_op`. -/
def kill (p : π) : Option (LogMachine π) :=
  if m.pc p = .asleep then some (m.setPc p .woken) else none

def crash : LogMachine π :=
  { m with
    log := .boot m.log.start m.log.size m.log.disk
    phase := .readHead, pc := fun _ => .outside, group := [] }

def recoverStep : Option (LogMachine π) :=
  match m.phase with
  | .up => none
  | .readHead =>
    m.log.readHead.map fun l =>
      { m with log := l, phase := if 0 < l.lh.length then .install 0 else .clearHead }
  | .install tail =>
    some { m with
      log := m.log.installOne true tail
      phase := if tail + 1 < m.log.lh.length then .install (tail + 1) else .clearHead }
  | .clearHead => some { m with log := m.log.clearHead, phase := .up }

def step : LogAct π → Option (LogMachine π)
  | .beginOp p => if m.phase = .up then m.begin p else none
  | .write p b data => if m.phase = .up then m.write p b data else none
  | .endOp p => if m.phase = .up then m.endOp p else none
  | .commit p => if m.phase = .up then m.commitStep p else none
  | .kill p => if m.phase = .up then m.kill p else none
  | .crash => some m.crash
  | .recover => m.recoverStep

def Home (b : Nat) : Prop := OutsideLog m.log.start m.log.size b

instance (b : Nat) : Decidable (m.Home b) := inferInstanceAs (Decidable (OutsideLog _ _ _))

def Allowed : LogAct π → Prop
  | .write _ b _ => m.Home b
  | _ => True

instance : DecidablePred m.Allowed
  | .write _ b _ => inferInstanceAs (Decidable (m.Home b))
  | .beginOp _ | .endOp _ | .commit _ | .kill _ | .crash | .recover => .isTrue trivial

def boot (start size : Nat) (disk : Disk) : LogMachine π where
  log := .boot start size disk
  phase := .readHead
  pc := fun _ => .outside
  nextOp := 0
  group := []
  commits := []

/-- The machine can be reached from a disk by actions that keep to their blocks. -/
inductive Reachable (start size : Nat) (disk : Disk) : LogMachine π → Prop where
  | boot : Reachable start size disk (boot start size disk)
  | step {m m' : LogMachine π} {act : LogAct π} (reached : Reachable start size disk m)
      (allowed : m.Allowed act) (stepped : m.step act = some m') : Reachable start size disk m'

end LogMachine

end OsbKernel
