import OsbKernel.Proc.Lists

/-!
# The process lists under concurrent calls

`add_proc_to_list` and `remove_proc_from_list` as several CPUs run them at the same time. A call
is a program counter with its local variables; one step is one `acquire` or `release` and the code
up to the next one. An `acquire` of a lock that another CPU holds is not enabled: the CPU spins.
`acquire` of a lock the CPU holds and `release` of one it does not hold are the panics of
`spinlock.c`.

`pick` is the part of `allocproc` and of the scheduler that reads the head of a list: it takes the
list lock and gives it back later.

The abstract contents of the lists change where a call takes effect: when it has locked the slot
it links or unlinks.
-/

namespace OsbKernel

open Function LinkedChain

/-- The locks of the lists: one per list, and the `stateLock` of each slot. -/
inductive ListLock where
  | list (l : ListId)
  | state (i : Slot)
  deriving DecidableEq, Repr

inductive LockOp where
  | acquire (k : ListLock)
  | release (k : ListLock)
  deriving DecidableEq, Repr

inductive ListCall where
  | add (l : ListId) (indexInProc : Slot)
  | remove (l : ListId) (indexInProc : Slot)
  | pick (l : ListId)
  deriving DecidableEq, Repr

/-- What a call is to do to the contents of the lists: append at the tail, or
delete and keep the order of the rest. -/
def ListCall.apply (C : ListId → List Slot) : ListCall → ListId → List Slot
  | .add l i => put C l i
  | .remove l i => drop C l i
  | .pick _ => C

/-- Where a call of `add_proc_to_list` is, by its next lock operation. -/
inductive AddPc where
  | acquireList
  | acquireOnly
  | releaseOnly
  | acquireFirst
  | acquireNext (curr next : Slot) (canRelease : Bool)
  | releaseCurr (curr next : Slot) (canRelease : Bool)
  | releaseEarly (curr : Slot) (next : Option Slot)
  | acquireNew (curr : Slot) (canRelease : Bool)
  | releaseNew (curr : Slot) (canRelease : Bool)
  | releaseLast (curr : Slot) (canRelease : Bool)
  | releaseList
  deriving DecidableEq, Repr

namespace AddPc

def loop (curr : Slot) (next : Option Slot) (canRelease : Bool) : AddPc :=
  match next with
  | some n => acquireNext curr n canRelease
  | none => acquireNew curr canRelease

def op (ls : Lists) (l : ListId) (i : Slot) : AddPc → Except Fault LockOp
  | acquireList => .ok (.acquire (.list l))
  | acquireOnly => .ok (.acquire (.state i))
  | releaseOnly => .ok (.release (.state i))
  | acquireFirst =>
    match ls.first l with
    | some f => .ok (.acquire (.state f))
    | none => .error .slotIndex
  | acquireNext _ next _ => .ok (.acquire (.state next))
  | releaseCurr curr _ _ => .ok (.release (.state curr))
  | releaseEarly _ _ => .ok (.release (.list l))
  | acquireNew _ _ => .ok (.acquire (.state i))
  | releaseNew _ _ => .ok (.release (.state i))
  | releaseLast curr _ => .ok (.release (.state curr))
  | releaseList => .ok (.release (.list l))

/-- The code between the lock operation and the next one; `none` returns. -/
def resume (ls : Lists) (l : ListId) (i : Slot) : AddPc → Except Fault (Lists × Option AddPc)
  | acquireList =>
    match ls.first l with
    | none => .ok ({ ls with first := update ls.first l (some i) }, some acquireOnly)
    | some _ => .ok (ls, some acquireFirst)
  | acquireOnly =>
    match ls.first l with
    | some f => .ok ({ ls with next := update ls.next f none }, some releaseOnly)
    | none => .error .slotIndex
  | releaseOnly => .ok (ls, some releaseList)
  | acquireFirst =>
    match ls.first l with
    | some f => .ok (ls, some (loop f (ls.next f) true))
    | none => .error .slotIndex
  | acquireNext curr next canRelease => .ok (ls, some (releaseCurr curr next canRelease))
  | releaseCurr _ next canRelease =>
    let curr := next
    let next := ls.next curr
    if canRelease then .ok (ls, some (releaseEarly curr next))
    else .ok (ls, some (loop curr next false))
  | releaseEarly curr next => .ok (ls, some (loop curr next false))
  | acquireNew curr canRelease =>
    .ok ({ ls with next := update (update ls.next curr (some i)) i none },
      some (releaseNew curr canRelease))
  | releaseNew curr canRelease => .ok (ls, some (releaseLast curr canRelease))
  | releaseLast _ canRelease => .ok (ls, if canRelease then some releaseList else none)
  | releaseList => .ok (ls, none)

end AddPc

/-- Where a call of `remove_proc_from_list` is, by its next lock operation. -/
inductive RemovePc where
  | acquireList
  | acquireHead
  | releaseHead
  | acquireFirst
  | acquireNext (prev : Option Slot) (curr next : Slot) (canRelease : Bool)
  | releasePrev (prev curr next : Slot) (canRelease : Bool)
  | releaseEarly (prev : Option Slot) (curr : Slot) (next : Option Slot)
  | acquireNode (prev : Option Slot) (curr : Slot) (canRelease : Bool)
  | releaseNode (prev : Option Slot) (curr : Slot) (canRelease : Bool)
  | releaseCurr (prev : Option Slot) (curr : Slot) (canRelease : Bool)
  | releaseLast (prev : Slot) (canRelease : Bool)
  | releaseList
  deriving DecidableEq, Repr

namespace RemovePc

/-- The test `while(next != indexInProc)`; the body starts by locking `proc[next]`. -/
def loop (i : Slot) (prev : Option Slot) (curr : Slot) (next : Option Slot) (canRelease : Bool) :
    Except Fault RemovePc :=
  match next with
  | none => .error .slotIndex
  | some n => .ok (if n = i then acquireNode prev curr canRelease
      else acquireNext prev curr n canRelease)

def op (ls : Lists) (l : ListId) (i : Slot) : RemovePc → Except Fault LockOp
  | acquireList => .ok (.acquire (.list l))
  | acquireHead => .ok (.acquire (.state i))
  | releaseHead => .ok (.release (.state i))
  | acquireFirst =>
    match ls.first l with
    | some f => .ok (.acquire (.state f))
    | none => .error .slotIndex
  | acquireNext _ _ next _ => .ok (.acquire (.state next))
  | releasePrev prev _ _ _ => .ok (.release (.state prev))
  | releaseEarly _ _ _ => .ok (.release (.list l))
  | acquireNode _ _ _ => .ok (.acquire (.state i))
  | releaseNode _ _ _ => .ok (.release (.state i))
  | releaseCurr _ curr _ => .ok (.release (.state curr))
  | releaseLast prev _ => .ok (.release (.state prev))
  | releaseList => .ok (.release (.list l))

/-- The end of the loop body: `prev = curr; curr = next; next = proc[curr].next_index_in_list`. -/
def advance (ls : Lists) (i : Slot) (curr next : Slot) (canRelease : Bool) :
    Except Fault RemovePc :=
  let prev := curr
  let curr := next
  let next := ls.next curr
  if canRelease then .ok (releaseEarly (some prev) curr next)
  else loop i (some prev) curr next false

/-- The code between the lock operation and the next one; `none` returns. -/
def resume (ls : Lists) (l : ListId) (i : Slot) :
    RemovePc → Except Fault (Lists × Option RemovePc)
  | acquireList =>
    match ls.first l with
    | none => .error (.panic "Trying to remove from an empty list")
    | some f => .ok (ls, some (if f = i then acquireHead else acquireFirst))
  | acquireHead =>
    match ls.first l with
    | some f =>
      .ok ({ first := update ls.first l (ls.next f), next := update ls.next i none },
        some releaseHead)
    | none => .error .slotIndex
  | releaseHead => .ok (ls, some releaseList)
  | acquireFirst =>
    match ls.first l with
    | some f => do return (ls, some (← loop i none f (ls.next f) true))
    | none => .error .slotIndex
  | acquireNext prev curr next canRelease =>
    match prev with
    | some prev => .ok (ls, some (releasePrev prev curr next canRelease))
    | none => do return (ls, some (← advance ls i curr next canRelease))
  | releasePrev _ curr next canRelease => do
    return (ls, some (← advance ls i curr next canRelease))
  | releaseEarly prev curr next => do return (ls, some (← loop i prev curr next false))
  | acquireNode prev curr canRelease =>
    .ok ({ ls with next := update (update ls.next curr (ls.next i)) i none },
      some (releaseNode prev curr canRelease))
  | releaseNode prev curr canRelease => .ok (ls, some (releaseCurr prev curr canRelease))
  | releaseCurr prev _ canRelease =>
    match prev with
    | some prev => .ok (ls, some (releaseLast prev canRelease))
    | none => .ok (ls, if canRelease then some releaseList else none)
  | releaseLast _ canRelease => .ok (ls, if canRelease then some releaseList else none)
  | releaseList => .ok (ls, none)

end RemovePc

inductive ListFrame where
  | add (l : ListId) (i : Slot) (pc : AddPc)
  | remove (l : ListId) (i : Slot) (pc : RemovePc)
  | pickAcquire (l : ListId)
  | pickRelease (l : ListId)
  deriving DecidableEq, Repr

namespace ListFrame

def start : ListCall → ListFrame
  | .add l i => .add l i .acquireList
  | .remove l i => .remove l i .acquireList
  | .pick l => .pickAcquire l

def call : ListFrame → ListCall
  | .add l i _ => .add l i
  | .remove l i _ => .remove l i
  | .pickAcquire l => .pick l
  | .pickRelease l => .pick l

def op (ls : Lists) : ListFrame → Except Fault LockOp
  | .add l i pc => pc.op ls l i
  | .remove l i pc => pc.op ls l i
  | .pickAcquire l => .ok (.acquire (.list l))
  | .pickRelease l => .ok (.release (.list l))

/-- The code behind the lock operation; `none` returns. -/
def resume (ls : Lists) : ListFrame → Except Fault (Lists × Option ListFrame)
  | .add l i pc => do
    let (ls, pc) ← pc.resume ls l i
    return (ls, pc.map (.add l i))
  | .remove l i pc => do
    let (ls, pc) ← pc.resume ls l i
    return (ls, pc.map (.remove l i))
  | .pickAcquire l => .ok (ls, some (.pickRelease l))
  | .pickRelease _ => .ok (ls, none)

def commits : ListFrame → Bool
  | .add _ _ .acquireOnly => true
  | .add _ _ (.acquireNew _ _) => true
  | .remove _ _ .acquireHead => true
  | .remove _ _ (.acquireNode _ _ _) => true
  | _ => false

end ListFrame

/-- The lists, their locks, the calls in progress and the CPUs that have
stopped, with the contents of the lists. -/
structure ListSys (κ : Type) where
  lists : Lists
  owner : ListLock → Option κ
  frame : κ → Option ListFrame
  stopped : κ → Option Fault
  contents : ListId → List Slot

namespace ListSys

variable {κ : Type} [DecidableEq κ]

def enter (s : ListSys κ) (c : κ) (call : ListCall) : ListSys κ :=
  { s with frame := update s.frame c (some (.start call)) }

def stop (s : ListSys κ) (c : κ) (f : Fault) : ListSys κ :=
  { s with stopped := update s.stopped c (some f) }

/-- Give a lock to `holder` and run the code behind the lock operation. -/
def proceed (s : ListSys κ) (c : κ) (f : ListFrame) (k : ListLock) (holder : Option κ) :
    ListSys κ :=
  match f.resume s.lists with
  | .error fault => s.stop c fault
  | .ok (ls, f') =>
    { lists := ls
      owner := update s.owner k holder
      frame := update s.frame c f'
      stopped := s.stopped
      contents := if f.commits then f.call.apply s.contents else s.contents }

/-- One step of the call on a CPU; `none` when there is no call, the CPU has
stopped, or it spins. -/
def advance (s : ListSys κ) (c : κ) : Option (ListSys κ) :=
  match s.stopped c, s.frame c with
  | none, some f =>
    match f.op s.lists with
    | .error fault => some (s.stop c fault)
    | .ok (.acquire k) =>
      match s.owner k with
      | none => some (s.proceed c f k (some c))
      | some c' => if c' = c then some (s.stop c (.panic "acquire")) else none
    | .ok (.release k) =>
      if s.owner k = some c then some (s.proceed c f k none)
      else some (s.stop c (.panic "release"))
  | _, _ => none

end ListSys

end OsbKernel
