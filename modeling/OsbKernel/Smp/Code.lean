import OsbKernel.Smp.Machine
import OsbKernel.Proc.Boot

/-!
# What the code at each place does

`procCode` is the code of a process thread and `schedCode` that of a scheduler, one clause per
place: which lock is taken or given back, which fields are written, which list function is called,
and where the thread is afterwards, all in one step with the lock operation.

Allocations of `fork` succeed here.
-/

namespace OsbKernel

open Function

inductive KOp where
  | skip
  | acquire (k : KLock)
  | release (k : KLock)
  deriving DecidableEq, Repr

structure Delta where
  op : KOp := .skip
  call : Option ListCall := none
  pcb : Option (Slot × Pcb) := none
  parent : Option (Slot × Option Slot) := none
  nextpid : Option Int := none
  count : Option Cpu := none
  cpuProc : Option (Option Slot) := none
  spawn : Option Slot := none
  events : List Event := []
  frames : List Frame

/-- What the code does next: a step of its own, or `swtch`, to the scheduler or
from it to a process. -/
inductive Move where
  | act (d : Delta)
  | swtch (target : Option Slot) (events : List Event) (frames : List Frame)

/-- Choices that the code does not make itself: what a user program or other kernel
code does, and when interrupts arrive. -/
inductive Act where
  | run
  | copyoutFails
  | fork
  | exit (status : Int)
  | wait (addr : Nat)
  | kill (pid : Int)
  | setcpu (cpuNum : Int)
  | acquire (n : Nat)
  | release (n : Nat)
  | sleep (chan : Chan) (n : Nat)
  | wakeup (chan : Chan)
  | call
  | ret
  | timer
  deriving DecidableEq, Repr

def Frame.looks : Frame → Bool
  | .forkLook => true
  | .schedLook => true
  | _ => false

def allSlots : List Slot := List.finRange NPROC

namespace Machine

variable (blncflg : Bool) (m : Machine) (c : Cpu)

/-- The call of `wakeup` that begins now is known by its place in the log. -/
def wakeupFrame (chan : Chan) : Frame := .wakeLoop m.log.length chan allSlots

def wakeupEvent (chan : Chan) : Event := .wakes m.log.length chan

def cpuIndex (i : Int) : Option Cpu := (cpuAt i).toOption

/-- The CPU on which `fork` puts the child of `p`. -/
def forkCpu (p : Slot) : Option Cpu :=
  cpuIndex (if blncflg then leastUsedCpu m.procCount else (m.pcb p).cpuNum)

/-- The CPU on which `wakeup` puts a process. -/
def wakeupCpu : Option Cpu :=
  cpuIndex (if blncflg then leastUsedCpu m.procCount else 0)

/-- The choice of a CPU by `leastUsedCpu` is stored and counted. -/
def placed (q : Pcb) (t : Cpu) : Pcb := if blncflg then { q with cpuNum := t } else q

def counted (t : Cpu) : Option Cpu := if blncflg then some t else none

/-- Kernel code outside `proc.c`, in any thread. -/
def otherCode (held : List Nat) (rest : List Frame) : Act → Option Move
  | .acquire n => some (.act { op := .acquire (.other n), frames := .code (n :: held) :: rest })
  | .release n =>
    if n ∈ held then
      some (.act { op := .release (.other n), frames := .code (held.erase n) :: rest })
    else none
  | .wakeup chan =>
    some (.act { events := [m.wakeupEvent chan], frames := m.wakeupFrame chan :: .code held :: rest })
  | .ret => if held = [] ∧ rest ≠ [] then some (.act { frames := rest }) else none
  | _ => none

def wakeCode (rest : List Frame) : Frame → Option Move
  | .wakeLoop n _ [] => some (.act { events := [.woken n], frames := rest })
  | .wakeLoop n chan (q :: todo) =>
    if m.cpuProc c = some q then some (.act { frames := .wakeLoop n chan todo :: rest })
    else if (m.pcb q).state = .SLEEPING ∧ (m.pcb q).chan = chan then
      some (.act {
        op := .acquire (.proc q)
        pcb := some (q, { m.pcb q with state := .RUNNABLE })
        call := some (.remove .sleepingList q)
        events := [.visits n q]
        frames := .wakeRemove n chan q todo :: rest })
    else
      some (.act {
        op := .acquire (.proc q)
        events := [.visits n q]
        frames := .wakeSkip n chan q todo :: rest })
  | .wakeRemove n chan q todo => do
    let t ← m.wakeupCpu blncflg
    return .act {
      pcb := some (q, placed blncflg (m.pcb q) t)
      count := counted blncflg t
      call := some (.add (.runnable t) q)
      frames := .wakeAdd n chan q t todo :: rest }
  | .wakeAdd n chan q _ todo =>
    some (.act { op := .release (.proc q), frames := .wakeLoop n chan todo :: rest })
  | .wakeSkip n chan q todo =>
    some (.act { op := .release (.proc q), frames := .wakeLoop n chan todo :: rest })
  | _ => none

/-- The system calls, which a process makes from the bottom of its stack, and what
other kernel code can do in a process. -/
def processCode (p : Slot) (held : List Nat) (rest : List Frame) : Act → Option Move
  | .fork =>
    if held = [] ∧ rest = [] then
      some (.act { call := some (.pick .unusedList), frames := [.forkLook] })
    else none
  | .exit status =>
    -- `exit` of init panics.
    if held = [] ∧ rest = [] ∧ m.initproc ≠ some p then
      some (.act { events := [.exits p (m.pcb p).pid status], frames := [.exitStart status] })
    else none
  | .wait addr => if held = [] ∧ rest = [] then some (.act { frames := [.waitStart addr] }) else none
  | .kill pid =>
    if held = [] ∧ rest = [] then some (.act { frames := [.killLoop pid allSlots] }) else none
  | .setcpu cpuNum =>
    if held = [] ∧ rest = [] then
      some (.act { pcb := some (p, { m.pcb p with cpuNum := cpuNum }), frames := [.code []] })
    else none
  | .sleep chan n =>
    -- `sched` panics when the thread holds more than `p->lock`.
    if held = [n] ∧ heldBy (some p) rest = [] then
      some (.act { frames := .sleepStart chan (.other n) :: .code held :: rest })
    else none
  | act => m.otherCode held rest act

def forkCode (p : Slot) (rest : List Frame) : Frame → Option Move
  | .forkLook =>
    if m.ls.frame c = some (.pickRelease .unusedList) then
      match m.ls.lists.first .unusedList with
      | none => some (.act { frames := .forkNone :: rest })
      | some np => some (.act { op := .acquire (.proc np), frames := .forkGot np :: rest })
    else none
  | .forkNone => some (.act { events := [.forked p (-1)], frames := .code [] :: rest })
  | .forkGot np =>
    some (.act {
      op := .acquire .pidLock
      nextpid := some (intSucc m.nextpid)
      events := [.allocpid m.nextpid]
      frames := .forkPid np m.nextpid :: rest })
  | .forkPid np pid =>
    some (.act {
      op := .release .pidLock
      pcb := some (np, { m.pcb np with pid := pid })
      call := some (.remove .unusedList np)
      frames := .forkRemove np :: rest })
  | .forkRemove np =>
    some (.act {
      op := .release (.proc np)
      pcb := some (np, { m.pcb np with state := .USED })
      spawn := some np
      frames := .forkLink np (m.pcb np).pid :: rest })
  | .forkLink np pid =>
    some (.act {
      op := .acquire .waitLock
      parent := some (np, some p)
      events := [.linked np pid p (m.pcb p).pid]
      frames := .forkLinked np pid :: rest })
  | .forkLinked np pid => some (.act { op := .release .waitLock, frames := .forkReady np pid :: rest })
  | .forkReady np pid => do
    let t ← m.forkCpu blncflg p
    return .act {
      op := .acquire (.proc np)
      pcb := some (np, placed blncflg { m.pcb np with state := .RUNNABLE } t)
      count := counted blncflg t
      call := some (.add (.runnable t) np)
      frames := .forkAdd np pid t :: rest }
  | .forkAdd np pid _ =>
    some (.act {
      op := .release (.proc np)
      events := [.forked p pid]
      frames := .code [] :: rest })
  | _ => none

def exitCode (p : Slot) (rest : List Frame) : Frame → Option Move
  | .exitStart status =>
    some (.act { op := .acquire .waitLock, frames := .exitReparent status allSlots :: rest })
  | .exitReparent status (q :: todo) =>
    if m.parent q = some p then
      some (.act {
        parent := some (q, m.initproc)
        events := [m.wakeupEvent (Chan.ofProc m.initproc)]
        frames := m.wakeupFrame (Chan.ofProc m.initproc) :: .exitReparent status todo :: rest })
    else some (.act { frames := .exitReparent status todo :: rest })
  | .exitReparent status [] =>
    some (.act {
      events := [m.wakeupEvent (Chan.ofProc (m.parent p))]
      frames := m.wakeupFrame (Chan.ofProc (m.parent p)) :: .exitLock status :: rest })
  | .exitLock status =>
    some (.act {
      op := .acquire (.proc p)
      pcb := some (p, { m.pcb p with xstate := status, state := .ZOMBIE })
      call := some (.add .zombieList p)
      frames := .exitAdd :: rest })
  | .exitAdd => some (.act { op := .release .waitLock, frames := .exitSwitch :: rest })
  | .exitSwitch => some (.swtch none [] (.exitGone :: rest))
  | _ => none

def waitCode (p : Slot) (rest : List Frame) (act : Act) : Frame → Option Move
  | .waitStart addr =>
    some (.act { op := .acquire .waitLock, frames := .waitScan addr allSlots false :: rest })
  | .waitScan addr (np :: todo) havekids =>
    if m.parent np = some p then
      if (m.pcb np).state = .ZOMBIE then
        if act = .copyoutFails ∧ addr ≠ 0 then
          some (.act { op := .acquire (.proc np), frames := .waitFail np :: rest })
        else
          some (.act {
            op := .acquire (.proc np)
            call := some (.remove .zombieList np)
            frames := .waitRemove np (m.pcb np).pid (m.pcb np).xstate :: rest })
      else some (.act { op := .acquire (.proc np), frames := .waitSkip addr np todo :: rest })
    else some (.act { frames := .waitScan addr todo havekids :: rest })
  | .waitScan addr [] havekids =>
    if havekids = false ∨ (m.pcb p).killed = true then
      some (.act { op := .release .waitLock, frames := .code [] :: rest })
    else
      some (.act {
        frames := .sleepStart (.proc p) .waitLock :: .waitScan addr allSlots false :: rest })
  | .waitSkip addr np todo =>
    some (.act { op := .release (.proc np), frames := .waitScan addr todo true :: rest })
  | .waitFail np => some (.act { op := .release (.proc np), frames := .waitFailed np :: rest })
  | .waitFailed np =>
    some (.act {
      op := .release .waitLock
      events := [.waitFailed p np]
      frames := .code [] :: rest })
  | .waitRemove np pid status =>
    some (.act {
      pcb := some (np, { m.pcb np with
        pid := 0, chan := .null, killed := false, xstate := 0, state := .UNUSED })
      parent := some (np, none)
      call := some (.add .unusedList np)
      frames := .waitAdd np pid status :: rest })
  | .waitAdd np pid status =>
    some (.act { op := .release (.proc np), frames := .waitDone np pid status :: rest })
  | .waitDone np pid status =>
    some (.act {
      op := .release .waitLock
      events := [.waited p np pid status]
      frames := .code [] :: rest })
  | _ => none

def sleepCode (p : Slot) (rest : List Frame) : Frame → Option Move
  | .sleepStart chan lk =>
    some (.act {
      op := .acquire (.proc p)
      call := some (.add .sleepingList p)
      frames := .sleepAdd chan lk :: rest })
  | .sleepAdd chan lk =>
    some (.act {
      op := .release lk
      events := [.slept p chan lk]
      frames := .sleepSet chan lk :: rest })
  | .sleepSet chan lk =>
    some (.act {
      pcb := some (p, { m.pcb p with chan := chan, state := .SLEEPING })
      frames := .sleepSwitch chan lk :: rest })
  | .sleepSwitch _ lk => some (.swtch none [] (.sleepResume lk :: rest))
  | .sleepResume lk =>
    some (.act {
      op := .release (.proc p)
      pcb := some (p, { m.pcb p with chan := .null })
      frames := .sleepRelock lk :: rest })
  | .sleepRelock lk => some (.act { op := .acquire lk, frames := rest })
  | .yieldStart => do
    let t ← cpuIndex (m.pcb p).cpuNum
    return .act {
      op := .acquire (.proc p)
      pcb := some (p, { m.pcb p with state := .RUNNABLE })
      call := some (.add (.runnable t) p)
      frames := .yieldAdd t :: rest }
  | .yieldAdd _ => some (.swtch none [] (.yieldResume :: rest))
  | .yieldResume => some (.act { op := .release (.proc p), frames := rest })
  | .forkret => some (.act { op := .release (.proc p), frames := .code [] :: rest })
  | _ => none

def killCode (rest : List Frame) : Frame → Option Move
  | .killLoop _ [] => some (.act { frames := .code [] :: rest })
  | .killLoop pid (q :: todo) =>
    if (m.pcb q).pid = pid then
      if (m.pcb q).state = .SLEEPING then
        some (.act {
          op := .acquire (.proc q)
          pcb := some (q, { m.pcb q with killed := true })
          call := some (.remove .sleepingList q)
          frames := .killRemove q :: rest })
      else
        some (.act {
          op := .acquire (.proc q)
          pcb := some (q, { m.pcb q with killed := true })
          frames := .killDone q :: rest })
    else some (.act { op := .acquire (.proc q), frames := .killSkip pid q todo :: rest })
  | .killSkip pid q todo =>
    some (.act { op := .release (.proc q), frames := .killLoop pid todo :: rest })
  | .killRemove q => do
    let t ← cpuIndex (m.pcb q).cpuNum
    return .act {
      pcb := some (q, { m.pcb q with state := .RUNNABLE })
      call := some (.add (.runnable t) q)
      frames := .killAdd q t :: rest }
  | .killAdd q _ => some (.act { op := .release (.proc q), frames := .code [] :: rest })
  | .killDone q => some (.act { op := .release (.proc q), frames := .code [] :: rest })
  | _ => none

def schedulerCode (rest : List Frame) : Frame → Option Move
  | .schedIdle => some (.act { call := some (.pick (.runnable c)), frames := .schedLook :: rest })
  | .schedLook =>
    if m.ls.frame c = some (.pickRelease (.runnable c)) then
      match m.ls.lists.first (.runnable c) with
      | none => some (.act { frames := .schedNone :: rest })
      | some p => some (.act { op := .acquire (.proc p), frames := .schedGot p :: rest })
    else none
  | .schedNone => some (.act { frames := .schedIdle :: rest })
  | .schedGot p =>
    some (.act {
      pcb := some (p, { m.pcb p with state := .RUNNING })
      cpuProc := some (some p)
      call := some (.remove (.runnable c) p)
      events := [.dispatch c p]
      frames := .schedRemove p :: rest })
  | .schedRemove p => some (.swtch (some p) [.switch c p] (.schedBack p :: rest))
  | .schedBack p =>
    some (.act { op := .release (.proc p), cpuProc := some none, frames := .schedIdle :: rest })
  | _ => none

/-- The code of the thread of process `p`. -/
def procCode (p : Slot) (act : Act) : Frame → List Frame → Option Move
  | .code held, rest => m.processCode p held rest act
  | f, rest =>
    m.forkCode blncflg c p rest f <|> m.exitCode p rest f <|> m.waitCode p rest act f <|>
      m.sleepCode p rest f <|> m.killCode rest f <|> m.wakeCode blncflg c rest f

def schedCode (act : Act) : Frame → List Frame → Option Move
  | .code held, rest => m.otherCode held rest act
  | f, rest => m.schedulerCode c rest f <|> m.wakeCode blncflg c rest f

def move (act : Act) : Option Move :=
  match m.frames c with
  | [] => none
  | f :: rest =>
    match act with
    | .call =>
      if m.held c = [] ∧ m.ls.frame c = none then
        some (.act { frames := .code [] :: f :: rest })
      else none
    | .timer =>
      match m.cur c with
      | some p =>
        if m.held c = [] ∧ m.ls.frame c = none ∧ (m.pcb p).state = .RUNNING then
          some (.act { frames := .yieldStart :: f :: rest })
        else none
      | none => none
    | _ =>
      match m.cur c with
      | some p => m.procCode blncflg c p act f rest
      | none => m.schedCode blncflg c act f rest

def setAt {α β : Type} [DecidableEq α] (f : α → β) : Option (α × β) → α → β
  | some (a, b) => update f a b
  | none => f

/-- The frames of the thread that CPU `c` executes are replaced. -/
def setFrames (fs : List Frame) : Machine :=
  match m.cur c with
  | some p => { m with stack := update m.stack p fs }
  | none => { m with sched := update m.sched c fs }

/-- The locks after an operation; `none` when the CPU spins or panics. -/
def lockAfter : KOp → Option (KLock → Option Cpu)
  | .skip => some m.owner
  | .acquire k => if m.owner k = none then some (update m.owner k (some c)) else none
  | .release k => if m.owner k = some c then some (update m.owner k none) else none

/-- The state after a step that writes `d`. -/
def apply (d : Delta) (owner : KLock → Option Cpu) : Machine :=
  let m' := m.setFrames c d.frames
  { m' with
    ls := match d.call with
      | some call => m.ls.enter c call
      | none => m.ls
    owner := owner
    pcb := setAt m.pcb d.pcb
    parent := setAt m.parent d.parent
    nextpid := d.nextpid.getD m.nextpid
    procCount := setAt m.procCount (d.count.map fun t => (t, casIncrement (m.procCount t)))
    cpuProc := setAt m.cpuProc (d.cpuProc.map (c, ·))
    stack := setAt m'.stack (d.spawn.map (·, [.forkret]))
    log := m.log ++ d.events }

def swtch (target : Option Slot) (events : List Event) (fs : List Frame) : Machine :=
  { m.setFrames c fs with cur := update m.cur c target, log := m.log ++ events }

/-- The state after a step of the list call `g`. -/
def listStep (g : ListFrame) : Option Machine := do
  let ls ← m.ls.advance c
  return { m with ls := ls, log := m.log ++ if g.commits then [.effect g.call] else [] }

/-- The code reads the head of a list whose lock it has taken for that. -/
def looks : Bool :=
  match m.ls.frame c, m.frames c with
  | some (.pickRelease _), f :: _ => f.looks
  | _, _ => false

def codeStep (act : Act) : Option Machine :=
  match m.move blncflg c act with
  | some (.act d) => (m.lockAfter c d.op).map (m.apply c d)
  | some (.swtch target events fs) => some (m.swtch c target events fs)
  | none => none

/-- One step of a CPU; `none` when it spins or the choice is not possible. -/
def step (act : Act) : Option Machine :=
  match m.ls.frame c with
  | some g => if m.looks c then m.codeStep blncflg c act else m.listStep c g
  | none => m.codeStep blncflg c act

def Step (m' : Machine) : Prop := ∃ c act, m.step blncflg c act = some m'

end Machine

def Pcb.ofProc (q : Proc) : Pcb where
  state := q.state
  chan := q.chan
  killed := q.killed
  xstate := q.xstate
  pid := q.pid
  cpuNum := q.cpuNum

def Machine.start (s : Kernel) : Machine where
  ls :=
    { lists := s.lists
      owner := fun _ => none
      frame := fun _ => none
      stopped := fun _ => none
      contents := bootLists }
  owner _ := none
  pcb p := Pcb.ofProc (s.proc p)
  parent p := (s.proc p).parent
  nextpid := s.nextpid
  procCount := s.procCount
  cpuProc := s.cpuProc
  initproc := s.initproc
  cur _ := none
  stack := update (fun _ => []) 0 [.forkret]
  sched _ := [.schedIdle]
  log := [.effect (.add (.runnable 0) 0)]

inductive Machine.Reachable (blncflg : Bool) : Machine → Prop where
  | start {pages : List Page} {code : PageData} {s : Kernel}
      (booted : OsbKernel.boot pages code = .ok s) : Reachable blncflg (Machine.start s)
  | step {m m' : Machine} (reached : Reachable blncflg m) (stepped : m.Step blncflg m') :
      Reachable blncflg m'

end OsbKernel
