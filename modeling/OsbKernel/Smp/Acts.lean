import OsbKernel.Smp.Reachable

/-!
# The steps of the code one by one

`Acts` is the code of all threads as a relation, with one rule per branch of a
clause.  A property of runs looks at the rules that concern it.
-/

namespace OsbKernel

open Function
open scoped List

namespace Machine

/-- The thread `f :: rest` of CPU `c` writes `d`. -/
inductive Acts (blncflg : Bool) (m : Machine) (c : Cpu) : Frame → List Frame → Delta → Prop where
  | interrupt {f : Frame} {rest : List Frame} (held : m.held c = []) (idle : m.ls.frame c = none) :
      Acts blncflg m c f rest { frames := .code [] :: f :: rest }
  | timer {f : Frame} {rest : List Frame} {p : Slot} (here : m.cur c = some p)
      (held : m.held c = []) (idle : m.ls.frame c = none) (running : (m.pcb p).state = .RUNNING) :
      Acts blncflg m c f rest { frames := .yieldStart :: f :: rest }
  | acquire {held : List Nat} {rest : List Frame} {n : Nat} :
      Acts blncflg m c (.code held) rest
        { op := .acquire (.other n), frames := .code (n :: held) :: rest }
  | release {held : List Nat} {rest : List Frame} {n : Nat} (member : n ∈ held) :
      Acts blncflg m c (.code held) rest
        { op := .release (.other n), frames := .code (held.erase n) :: rest }
  | wakeup {held : List Nat} {rest : List Frame} {chan : Chan} :
      Acts blncflg m c (.code held) rest
        { events := [m.wakeupEvent chan], frames := m.wakeupFrame chan :: .code held :: rest }
  | ret {rest : List Frame} (more : rest ≠ []) : Acts blncflg m c (.code []) rest { frames := rest }
  | fork {p : Slot} (here : m.cur c = some p) :
      Acts blncflg m c (.code []) [] { call := some (.pick .unusedList), frames := [.forkLook] }
  | exit {p : Slot} {status : Int} (here : m.cur c = some p) (other : m.initproc ≠ some p) :
      Acts blncflg m c (.code []) []
        { events := [.exits p (m.pcb p).pid status], frames := [.exitStart status] }
  | wait {p : Slot} {addr : Nat} (here : m.cur c = some p) :
      Acts blncflg m c (.code []) [] { frames := [.waitStart addr] }
  | kill {p : Slot} {pid : Int} (here : m.cur c = some p) :
      Acts blncflg m c (.code []) [] { frames := [.killLoop pid allSlots] }
  | setcpu {p : Slot} {cpuNum : Int} (here : m.cur c = some p) :
      Acts blncflg m c (.code []) []
        { pcb := some (p, { m.pcb p with cpuNum := cpuNum }), frames := [.code []] }
  | sleep {p : Slot} {rest : List Frame} {chan : Chan} {n : Nat} (here : m.cur c = some p)
      (alone : heldBy (some p) rest = []) :
      Acts blncflg m c (.code [n]) rest
        { frames := .sleepStart chan (.other n) :: .code [n] :: rest }
  | forkEmpty {p : Slot} {rest : List Frame} (here : m.cur c = some p)
      (picks : m.ls.frame c = some (.pickRelease .unusedList))
      (none : m.ls.lists.first .unusedList = none) :
      Acts blncflg m c .forkLook rest { frames := .forkNone :: rest }
  | forkLook {p np : Slot} {rest : List Frame} (here : m.cur c = some p)
      (picks : m.ls.frame c = some (.pickRelease .unusedList))
      (head : m.ls.lists.first .unusedList = some np) :
      Acts blncflg m c .forkLook rest { op := .acquire (.proc np), frames := .forkGot np :: rest }
  | forkNone {p : Slot} {rest : List Frame} (here : m.cur c = some p) :
      Acts blncflg m c .forkNone rest { events := [.forked p (-1)], frames := .code [] :: rest }
  | forkGot {p np : Slot} {rest : List Frame} (here : m.cur c = some p) :
      Acts blncflg m c (.forkGot np) rest
        { op := .acquire .pidLock, nextpid := some (intSucc m.nextpid)
          events := [.allocpid m.nextpid], frames := .forkPid np m.nextpid :: rest }
  | forkPid {p np : Slot} {pid : Int} {rest : List Frame} (here : m.cur c = some p) :
      Acts blncflg m c (.forkPid np pid) rest
        { op := .release .pidLock, pcb := some (np, { m.pcb np with pid := pid })
          call := some (.remove .unusedList np), frames := .forkRemove np :: rest }
  | forkRemove {p np : Slot} {rest : List Frame} (here : m.cur c = some p) :
      Acts blncflg m c (.forkRemove np) rest
        { op := .release (.proc np), pcb := some (np, { m.pcb np with state := .USED })
          spawn := some np, frames := .forkLink np (m.pcb np).pid :: rest }
  | forkLink {p np : Slot} {pid : Int} {rest : List Frame} (here : m.cur c = some p) :
      Acts blncflg m c (.forkLink np pid) rest
        { op := .acquire .waitLock, parent := some (np, some p)
          events := [.linked np pid p (m.pcb p).pid], frames := .forkLinked np pid :: rest }
  | forkLinked {p np : Slot} {pid : Int} {rest : List Frame} (here : m.cur c = some p) :
      Acts blncflg m c (.forkLinked np pid) rest
        { op := .release .waitLock, frames := .forkReady np pid :: rest }
  | forkReady {p np : Slot} {pid : Int} {rest : List Frame} {t : Cpu} (here : m.cur c = some p)
      (target : m.forkCpu blncflg p = some t) :
      Acts blncflg m c (.forkReady np pid) rest
        { op := .acquire (.proc np)
          pcb := some (np, placed blncflg { m.pcb np with state := .RUNNABLE } t)
          count := counted blncflg t, call := some (.add (.runnable t) np)
          frames := .forkAdd np pid t :: rest }
  | forkAdd {p np : Slot} {pid : Int} {rest : List Frame} {t : Cpu} (here : m.cur c = some p) :
      Acts blncflg m c (.forkAdd np pid t) rest
        { op := .release (.proc np), events := [.forked p pid], frames := .code [] :: rest }
  | exitStart {p : Slot} {status : Int} {rest : List Frame} (here : m.cur c = some p) :
      Acts blncflg m c (.exitStart status) rest
        { op := .acquire .waitLock, frames := .exitReparent status allSlots :: rest }
  | reparent {p q : Slot} {status : Int} {todo : List Slot} {rest : List Frame}
      (here : m.cur c = some p) (child : m.parent q = some p) :
      Acts blncflg m c (.exitReparent status (q :: todo)) rest
        { parent := some (q, m.initproc), events := [m.wakeupEvent (Chan.ofProc m.initproc)]
          frames := m.wakeupFrame (Chan.ofProc m.initproc) :: .exitReparent status todo :: rest }
  | reparentSkip {p q : Slot} {status : Int} {todo : List Slot} {rest : List Frame}
      (here : m.cur c = some p) (other : m.parent q ≠ some p) :
      Acts blncflg m c (.exitReparent status (q :: todo)) rest
        { frames := .exitReparent status todo :: rest }
  | reparented {p : Slot} {status : Int} {rest : List Frame} (here : m.cur c = some p) :
      Acts blncflg m c (.exitReparent status []) rest
        { events := [m.wakeupEvent (Chan.ofProc (m.parent p))]
          frames := m.wakeupFrame (Chan.ofProc (m.parent p)) :: .exitLock status :: rest }
  | exitLock {p : Slot} {status : Int} {rest : List Frame} (here : m.cur c = some p) :
      Acts blncflg m c (.exitLock status) rest
        { op := .acquire (.proc p)
          pcb := some (p, { m.pcb p with xstate := status, state := .ZOMBIE })
          call := some (.add .zombieList p), frames := .exitAdd :: rest }
  | exitAdd {p : Slot} {rest : List Frame} (here : m.cur c = some p) :
      Acts blncflg m c .exitAdd rest { op := .release .waitLock, frames := .exitSwitch :: rest }
  | waitStart {p : Slot} {addr : Nat} {rest : List Frame} (here : m.cur c = some p) :
      Acts blncflg m c (.waitStart addr) rest
        { op := .acquire .waitLock, frames := .waitScan addr allSlots false :: rest }
  | scanOther {p np : Slot} {addr : Nat} {todo : List Slot} {havekids : Bool} {rest : List Frame}
      (here : m.cur c = some p) (other : m.parent np ≠ some p) :
      Acts blncflg m c (.waitScan addr (np :: todo) havekids) rest
        { frames := .waitScan addr todo havekids :: rest }
  | scanLive {p np : Slot} {addr : Nat} {todo : List Slot} {havekids : Bool} {rest : List Frame}
      (here : m.cur c = some p) (child : m.parent np = some p)
      (live : (m.pcb np).state ≠ .ZOMBIE) :
      Acts blncflg m c (.waitScan addr (np :: todo) havekids) rest
        { op := .acquire (.proc np), frames := .waitSkip addr np todo :: rest }
  | scanFail {p np : Slot} {addr : Nat} {todo : List Slot} {havekids : Bool} {rest : List Frame}
      (here : m.cur c = some p) (child : m.parent np = some p)
      (zombie : (m.pcb np).state = .ZOMBIE) (copies : addr ≠ 0) :
      Acts blncflg m c (.waitScan addr (np :: todo) havekids) rest
        { op := .acquire (.proc np), frames := .waitFail np :: rest }
  | scanFound {p np : Slot} {addr : Nat} {todo : List Slot} {havekids : Bool} {rest : List Frame}
      (here : m.cur c = some p) (child : m.parent np = some p)
      (zombie : (m.pcb np).state = .ZOMBIE) :
      Acts blncflg m c (.waitScan addr (np :: todo) havekids) rest
        { op := .acquire (.proc np), call := some (.remove .zombieList np)
          frames := .waitRemove np (m.pcb np).pid (m.pcb np).xstate :: rest }
  | scanGiveUp {p : Slot} {addr : Nat} {havekids : Bool} {rest : List Frame}
      (here : m.cur c = some p) (stops : havekids = false ∨ (m.pcb p).killed = true) :
      Acts blncflg m c (.waitScan addr [] havekids) rest
        { op := .release .waitLock, frames := .code [] :: rest }
  | scanSleep {p : Slot} {addr : Nat} {rest : List Frame} (here : m.cur c = some p) :
      Acts blncflg m c (.waitScan addr [] true) rest
        { frames := .sleepStart (.proc p) .waitLock :: .waitScan addr allSlots false :: rest }
  | waitSkip {p np : Slot} {addr : Nat} {todo : List Slot} {rest : List Frame}
      (here : m.cur c = some p) :
      Acts blncflg m c (.waitSkip addr np todo) rest
        { op := .release (.proc np), frames := .waitScan addr todo true :: rest }
  | waitFail {p np : Slot} {rest : List Frame} (here : m.cur c = some p) :
      Acts blncflg m c (.waitFail np) rest
        { op := .release (.proc np), frames := .waitFailed np :: rest }
  | waitFailed {p np : Slot} {rest : List Frame} (here : m.cur c = some p) :
      Acts blncflg m c (.waitFailed np) rest
        { op := .release .waitLock, events := [.waitFailed p np], frames := .code [] :: rest }
  | waitRemove {p np : Slot} {pid status : Int} {rest : List Frame} (here : m.cur c = some p) :
      Acts blncflg m c (.waitRemove np pid status) rest
        { pcb := some (np, { m.pcb np with
            pid := 0, chan := .null, killed := false, xstate := 0, state := .UNUSED })
          parent := some (np, none), call := some (.add .unusedList np)
          frames := .waitAdd np pid status :: rest }
  | waitAdd {p np : Slot} {pid status : Int} {rest : List Frame} (here : m.cur c = some p) :
      Acts blncflg m c (.waitAdd np pid status) rest
        { op := .release (.proc np), frames := .waitDone np pid status :: rest }
  | waitDone {p np : Slot} {pid status : Int} {rest : List Frame} (here : m.cur c = some p) :
      Acts blncflg m c (.waitDone np pid status) rest
        { op := .release .waitLock, events := [.waited p np pid status]
          frames := .code [] :: rest }
  | sleepStart {p : Slot} {chan : Chan} {lk : KLock} {rest : List Frame} (here : m.cur c = some p) :
      Acts blncflg m c (.sleepStart chan lk) rest
        { op := .acquire (.proc p), call := some (.add .sleepingList p)
          frames := .sleepAdd chan lk :: rest }
  | sleepAdd {p : Slot} {chan : Chan} {lk : KLock} {rest : List Frame} (here : m.cur c = some p) :
      Acts blncflg m c (.sleepAdd chan lk) rest
        { op := .release lk, events := [.slept p chan lk], frames := .sleepSet chan lk :: rest }
  | sleepSet {p : Slot} {chan : Chan} {lk : KLock} {rest : List Frame} (here : m.cur c = some p) :
      Acts blncflg m c (.sleepSet chan lk) rest
        { pcb := some (p, { m.pcb p with chan := chan, state := .SLEEPING })
          frames := .sleepSwitch chan lk :: rest }
  | sleepResume {p : Slot} {lk : KLock} {rest : List Frame} (here : m.cur c = some p) :
      Acts blncflg m c (.sleepResume lk) rest
        { op := .release (.proc p), pcb := some (p, { m.pcb p with chan := .null })
          frames := .sleepRelock lk :: rest }
  | sleepRelock {p : Slot} {lk : KLock} {rest : List Frame} (here : m.cur c = some p) :
      Acts blncflg m c (.sleepRelock lk) rest { op := .acquire lk, frames := rest }
  | yieldStart {p : Slot} {rest : List Frame} {t : Cpu} (here : m.cur c = some p)
      (target : cpuIndex (m.pcb p).cpuNum = some t) :
      Acts blncflg m c .yieldStart rest
        { op := .acquire (.proc p), pcb := some (p, { m.pcb p with state := .RUNNABLE })
          call := some (.add (.runnable t) p), frames := .yieldAdd t :: rest }
  | yieldResume {p : Slot} {rest : List Frame} (here : m.cur c = some p) :
      Acts blncflg m c .yieldResume rest { op := .release (.proc p), frames := rest }
  | forkret {p : Slot} {rest : List Frame} (here : m.cur c = some p) :
      Acts blncflg m c .forkret rest { op := .release (.proc p), frames := .code [] :: rest }
  | killNone {p : Slot} {pid : Int} {rest : List Frame} (here : m.cur c = some p) :
      Acts blncflg m c (.killLoop pid []) rest { frames := .code [] :: rest }
  | killSleeper {p q : Slot} {pid : Int} {todo : List Slot} {rest : List Frame}
      (here : m.cur c = some p) (found : (m.pcb q).pid = pid)
      (asleep : (m.pcb q).state = .SLEEPING) :
      Acts blncflg m c (.killLoop pid (q :: todo)) rest
        { op := .acquire (.proc q), pcb := some (q, { m.pcb q with killed := true })
          call := some (.remove .sleepingList q), frames := .killRemove q :: rest }
  | killOther {p q : Slot} {pid : Int} {todo : List Slot} {rest : List Frame}
      (here : m.cur c = some p) (found : (m.pcb q).pid = pid)
      (awake : (m.pcb q).state ≠ .SLEEPING) :
      Acts blncflg m c (.killLoop pid (q :: todo)) rest
        { op := .acquire (.proc q), pcb := some (q, { m.pcb q with killed := true })
          frames := .killDone q :: rest }
  | killLook {p q : Slot} {pid : Int} {todo : List Slot} {rest : List Frame}
      (here : m.cur c = some p) (other : (m.pcb q).pid ≠ pid) :
      Acts blncflg m c (.killLoop pid (q :: todo)) rest
        { op := .acquire (.proc q), frames := .killSkip pid q todo :: rest }
  | killSkip {p q : Slot} {pid : Int} {todo : List Slot} {rest : List Frame}
      (here : m.cur c = some p) :
      Acts blncflg m c (.killSkip pid q todo) rest
        { op := .release (.proc q), frames := .killLoop pid todo :: rest }
  | killRemove {p q : Slot} {rest : List Frame} {t : Cpu} (here : m.cur c = some p)
      (target : cpuIndex (m.pcb q).cpuNum = some t) :
      Acts blncflg m c (.killRemove q) rest
        { pcb := some (q, { m.pcb q with state := .RUNNABLE })
          call := some (.add (.runnable t) q), frames := .killAdd q t :: rest }
  | killAdd {p q : Slot} {rest : List Frame} {t : Cpu} (here : m.cur c = some p) :
      Acts blncflg m c (.killAdd q t) rest
        { op := .release (.proc q), frames := .code [] :: rest }
  | killDone {p q : Slot} {rest : List Frame} (here : m.cur c = some p) :
      Acts blncflg m c (.killDone q) rest
        { op := .release (.proc q), frames := .code [] :: rest }
  | schedIdle {rest : List Frame} (here : m.cur c = none) :
      Acts blncflg m c .schedIdle rest
        { call := some (.pick (.runnable c)), frames := .schedLook :: rest }
  | schedEmpty {rest : List Frame} (here : m.cur c = none)
      (picks : m.ls.frame c = some (.pickRelease (.runnable c)))
      (none : m.ls.lists.first (.runnable c) = none) :
      Acts blncflg m c .schedLook rest { frames := .schedNone :: rest }
  | schedLook {p : Slot} {rest : List Frame} (here : m.cur c = none)
      (picks : m.ls.frame c = some (.pickRelease (.runnable c)))
      (head : m.ls.lists.first (.runnable c) = some p) :
      Acts blncflg m c .schedLook rest { op := .acquire (.proc p), frames := .schedGot p :: rest }
  | schedNone {rest : List Frame} (here : m.cur c = none) :
      Acts blncflg m c .schedNone rest { frames := .schedIdle :: rest }
  | schedGot {p : Slot} {rest : List Frame} (here : m.cur c = none) :
      Acts blncflg m c (.schedGot p) rest
        { pcb := some (p, { m.pcb p with state := .RUNNING }), cpuProc := some (some p)
          call := some (.remove (.runnable c) p), events := [.dispatch c p]
          frames := .schedRemove p :: rest }
  | schedBack {p : Slot} {rest : List Frame} (here : m.cur c = none) :
      Acts blncflg m c (.schedBack p) rest
        { op := .release (.proc p), cpuProc := some none, frames := .schedIdle :: rest }
  | wakeReturn {n : Nat} {chan : Chan} {rest : List Frame} :
      Acts blncflg m c (.wakeLoop n chan []) rest { events := [.woken n], frames := rest }
  | wakeSelf {n : Nat} {chan : Chan} {q : Slot} {todo : List Slot} {rest : List Frame}
      (self : m.cpuProc c = some q) :
      Acts blncflg m c (.wakeLoop n chan (q :: todo)) rest
        { frames := .wakeLoop n chan todo :: rest }
  | wakeSleeper {n : Nat} {chan : Chan} {q : Slot} {todo : List Slot} {rest : List Frame}
      (other : m.cpuProc c ≠ some q) (asleep : (m.pcb q).state = .SLEEPING)
      (same : (m.pcb q).chan = chan) :
      Acts blncflg m c (.wakeLoop n chan (q :: todo)) rest
        { op := .acquire (.proc q), pcb := some (q, { m.pcb q with state := .RUNNABLE })
          call := some (.remove .sleepingList q), events := [.visits n q]
          frames := .wakeRemove n chan q todo :: rest }
  | wakeLook {n : Nat} {chan : Chan} {q : Slot} {todo : List Slot} {rest : List Frame}
      (other : m.cpuProc c ≠ some q)
      (awake : ¬ ((m.pcb q).state = .SLEEPING ∧ (m.pcb q).chan = chan)) :
      Acts blncflg m c (.wakeLoop n chan (q :: todo)) rest
        { op := .acquire (.proc q), events := [.visits n q]
          frames := .wakeSkip n chan q todo :: rest }
  | wakeRemove {n : Nat} {chan : Chan} {q : Slot} {todo : List Slot} {rest : List Frame} {t : Cpu}
      (target : m.wakeupCpu blncflg = some t) :
      Acts blncflg m c (.wakeRemove n chan q todo) rest
        { pcb := some (q, placed blncflg (m.pcb q) t), count := counted blncflg t
          call := some (.add (.runnable t) q), frames := .wakeAdd n chan q t todo :: rest }
  | wakeAdd {n : Nat} {chan : Chan} {q : Slot} {todo : List Slot} {rest : List Frame} {t : Cpu} :
      Acts blncflg m c (.wakeAdd n chan q t todo) rest
        { op := .release (.proc q), frames := .wakeLoop n chan todo :: rest }
  | wakeSkip {n : Nat} {chan : Chan} {q : Slot} {todo : List Slot} {rest : List Frame} :
      Acts blncflg m c (.wakeSkip n chan q todo) rest
        { op := .release (.proc q), frames := .wakeLoop n chan todo :: rest }

variable {blncflg : Bool} {m m' : Machine} {c : Cpu} {f : Frame} {rest : List Frame} {d : Delta}
  {act : Act} {p : Slot} {held : List Nat}

theorem acts_of_otherCode (act : Act) (moved : m.otherCode held rest act = some (.act d)) :
    Acts blncflg m c (.code held) rest d := by
  cases act with
  | acquire n =>
    cases moved
    exact .acquire
  | release n =>
    simp only [otherCode] at moved
    split_ifs at moved with member
    cases moved
    exact .release member
  | wakeup chan =>
    cases moved
    exact .wakeup
  | ret =>
    simp only [otherCode] at moved
    split_ifs at moved with done
    obtain ⟨rfl, more⟩ := done
    cases moved
    exact .ret more
  | _ => cases moved

theorem acts_of_processCode (here : m.cur c = some p)
    (moved : m.processCode p held rest act = some (.act d)) :
    Acts blncflg m c (.code held) rest d := by
  cases act with
  | fork =>
    obtain ⟨⟨rfl, rfl⟩, moved⟩ := Option.ite_none_right_eq_some.mp moved
    cases moved
    exact .fork here
  | exit status =>
    simp only [processCode] at moved
    split_ifs at moved with bottom
    obtain ⟨rfl, rfl, other⟩ := bottom
    cases moved
    exact .exit here other
  | wait addr =>
    obtain ⟨⟨rfl, rfl⟩, moved⟩ := Option.ite_none_right_eq_some.mp moved
    cases moved
    exact .wait here
  | kill pid =>
    obtain ⟨⟨rfl, rfl⟩, moved⟩ := Option.ite_none_right_eq_some.mp moved
    cases moved
    exact .kill here
  | setcpu cpuNum =>
    obtain ⟨⟨rfl, rfl⟩, moved⟩ := Option.ite_none_right_eq_some.mp moved
    cases moved
    exact .setcpu here
  | sleep chan n =>
    simp only [processCode] at moved
    split_ifs at moved with alone
    obtain ⟨rfl, none⟩ := alone
    cases moved
    exact .sleep here none
  | acquire n => exact acts_of_otherCode (.acquire n) moved
  | release n => exact acts_of_otherCode (.release n) moved
  | wakeup chan => exact acts_of_otherCode (.wakeup chan) moved
  | ret => exact acts_of_otherCode .ret moved
  | _ => cases moved

theorem acts_of_forkCode (here : m.cur c = some p)
    (moved : m.forkCode blncflg c p rest f = some (.act d)) : Acts blncflg m c f rest d := by
  cases f with
  | forkLook =>
    simp only [forkCode] at moved
    split_ifs at moved with picks
    split at moved
    · rename_i none
      cases moved
      exact .forkEmpty here picks none
    · rename_i np head
      cases moved
      exact .forkLook here picks head
  | forkReady np pid =>
    obtain ⟨t, target, moved⟩ := Option.bind_eq_some_iff.mp moved
    cases moved
    exact .forkReady here target
  | _ => cases moved <;> constructor <;> exact here

theorem acts_of_exitCode (here : m.cur c = some p)
    (moved : m.exitCode p rest f = some (.act d)) : Acts blncflg m c f rest d := by
  cases f with
  | exitReparent status todo =>
    cases todo with
    | nil =>
      cases moved
      exact .reparented here
    | cons q todo =>
      simp only [exitCode] at moved
      split_ifs at moved with child
      · cases moved
        exact .reparent here child
      · cases moved
        exact .reparentSkip here child
  | _ => cases moved <;> constructor <;> exact here

theorem acts_of_waitCode (here : m.cur c = some p)
    (moved : m.waitCode p rest act f = some (.act d)) : Acts blncflg m c f rest d := by
  cases f with
  | waitScan addr todo havekids =>
    cases todo with
    | nil =>
      simp only [waitCode] at moved
      split_ifs at moved with stops
      · cases moved
        exact .scanGiveUp here stops
      · cases moved
        cases havekids with
        | false => exact absurd (.inl rfl) stops
        | true => exact .scanSleep here
    | cons q todo =>
      simp only [waitCode] at moved
      split_ifs at moved with child zombie fails
      · cases moved
        exact .scanFail here child zombie fails.2
      · cases moved
        exact .scanFound here child zombie
      · cases moved
        exact .scanLive here child zombie
      · cases moved
        exact .scanOther here child
  | _ => cases moved <;> constructor <;> exact here

theorem acts_of_sleepCode (here : m.cur c = some p)
    (moved : m.sleepCode p rest f = some (.act d)) : Acts blncflg m c f rest d := by
  cases f with
  | yieldStart =>
    obtain ⟨t, target, moved⟩ := Option.bind_eq_some_iff.mp moved
    cases moved
    exact .yieldStart here target
  | _ => cases moved <;> constructor <;> exact here

theorem acts_of_killCode (here : m.cur c = some p)
    (moved : m.killCode rest f = some (.act d)) : Acts blncflg m c f rest d := by
  cases f with
  | killLoop pid todo =>
    cases todo with
    | nil =>
      cases moved
      exact .killNone here
    | cons q todo =>
      simp only [killCode] at moved
      split_ifs at moved with found asleep
      · cases moved
        exact .killSleeper here found asleep
      · cases moved
        exact .killOther here found asleep
      · cases moved
        exact .killLook here found
  | killRemove q =>
    obtain ⟨t, target, moved⟩ := Option.bind_eq_some_iff.mp moved
    cases moved
    exact .killRemove here target
  | _ => cases moved <;> constructor <;> exact here

theorem acts_of_schedulerCode (here : m.cur c = none)
    (moved : m.schedulerCode c rest f = some (.act d)) : Acts blncflg m c f rest d := by
  cases f with
  | schedLook =>
    simp only [schedulerCode] at moved
    split_ifs at moved with picks
    split at moved
    · rename_i none
      cases moved
      exact .schedEmpty here picks none
    · rename_i p head
      cases moved
      exact .schedLook here picks head
  | _ => cases moved <;> constructor <;> exact here

theorem acts_of_wakeCode (moved : m.wakeCode blncflg c rest f = some (.act d)) :
    Acts blncflg m c f rest d := by
  cases f with
  | wakeLoop n chan todo =>
    cases todo with
    | nil =>
      cases moved
      exact .wakeReturn
    | cons q todo =>
      simp only [wakeCode] at moved
      split_ifs at moved with self asleep
      · cases moved
        exact .wakeSelf self
      · cases moved
        exact .wakeSleeper self asleep.1 asleep.2
      · cases moved
        exact .wakeLook self asleep
  | wakeRemove n chan q todo =>
    obtain ⟨t, target, moved⟩ := Option.bind_eq_some_iff.mp moved
    cases moved
    exact .wakeRemove target
  | _ => cases moved <;> constructor

theorem Does.acts (does : Does blncflg m c f rest (.act d)) : Acts blncflg m c f rest d := by
  cases does with
  | interrupt held idle => exact .interrupt held idle
  | timer here held idle running => exact .timer here held idle running
  | process here code moved =>
    subst code
    exact acts_of_processCode here moved
  | other here code moved =>
    subst code
    exact acts_of_otherCode _ moved
  | fork here moved => exact acts_of_forkCode here moved
  | exit here moved => exact acts_of_exitCode here moved
  | wait here moved => exact acts_of_waitCode here moved
  | sleep here moved => exact acts_of_sleepCode here moved
  | kill here moved => exact acts_of_killCode here moved
  | sched here moved => exact acts_of_schedulerCode here moved
  | wake moved => exact acts_of_wakeCode moved

def advanced (m : Machine) (ls : ListSys Cpu) (events : List Event) : Machine :=
  { m with ls := ls, log := m.log ++ events }

section Advanced

variable {ls : ListSys Cpu} {events : List Event}

@[simp] theorem advanced_ls : (m.advanced ls events).ls = ls := rfl
@[simp] theorem advanced_log : (m.advanced ls events).log = m.log ++ events := rfl
@[simp] theorem advanced_sched : (m.advanced ls events).sched = m.sched := rfl
end Advanced

inductive Takes (blncflg : Bool) (m : Machine) (c : Cpu) : Machine → Prop where
  | list {g : ListFrame} {ls : ListSys Cpu} (calling : m.ls.frame c = some g)
      (advances : Advances m.ls ls c g) :
      Takes blncflg m c (m.advanced ls (if g.commits then [.effect g.call] else []))
  | act {f : Frame} {rest : List Frame} {d : Delta} {owner : KLock → Option Cpu}
      (top : m.frames c = f :: rest) (idle : f.looks = false → m.ls.frame c = none)
      (acts : Acts blncflg m c f rest d) (locked : m.lockAfter c d.op = some owner)
      (fits : Fits m c d owner) : Takes blncflg m c (m.apply c d owner)
  | switch {f : Frame} {rest : List Frame} {target : Option Slot} {events : List Event}
      {fs : List Frame} (top : m.frames c = f :: rest) (idle : f.looks = false → m.ls.frame c = none)
      (switches : Switches m c rest f target events fs) :
      Takes blncflg m c (m.swtch c target events fs)

theorem Inv.takes_of_step (inv : m.Inv) (stepped : m.step blncflg c act = some m') :
    Takes blncflg m c m' := by
  obtain ⟨g, ls, calling, advanced, rfl⟩ | ⟨f, rest, top, idle, ran⟩ := step_cases stepped
  · exact .list calling (inv.lists.advances calling advanced)
  · obtain ⟨d, owner, does, locked, rfl⟩ | ⟨target, events, fs, does, rfl⟩ := ran
    · exact .act top idle does.acts locked (inv.does_fits top idle does locked)
    · exact .switch top idle (switches_of_does does)

variable {target : Option Slot} {fs : List Frame}

theorem swtch_frames_other {events : List Event} {c' : Cpu}
    (inv : m.Inv) (other : c' ≠ c) : (m.swtch c target events fs).frames c' = m.frames c' := by
  have cur : (m.swtch c target events fs).cur c' = m.cur c' := update_of_ne other _ _
  rw [frames, frames, cur]
  cases here : m.cur c with
  | none =>
    cases m.cur c' with
    | none => simp [swtch, setFrames, here, update_of_ne other]
    | some q => simp [swtch, setFrames, here]
  | some p =>
    cases there : m.cur c' with
    | none => simp [swtch, setFrames, here]
    | some q =>
      have apart : q ≠ p := by
        rintro rfl
        exact other (inv.alone c' c q there here)
      simp [swtch, setFrames, here, update_of_ne apart]

/-- A switch resumes the scheduler behind its `swtch`, or a process that waits for it. -/
theorem Inv.swtch_top {events : List Event} (inv : m.Inv)
    (top : m.frames c = f :: rest) (switches : Switches m c rest f target events fs) :
    ∃ f' rest', (m.swtch c target events fs).frames c = f' :: rest' ∧
      (f'.Resumable ∨ ∃ p, f' = .schedBack p) := by
  have leaves : ∀ {q fs'}, m.cur c = some q → ∃ f' rest',
      (m.swtch c none [] fs').frames c = f' :: rest' ∧ (f'.Resumable ∨ ∃ p, f' = .schedBack p) := by
    intro q fs' here
    refine ⟨.schedBack q, [], ?_, .inr ⟨q, rfl⟩⟩
    rw [swtch_leave here, frames, leave_cur_self]
    exact inv.back c q here
  cases switches with
  | exit here | sleep here | yield here => exact leaves here
  | @sched p here =>
    have known := (inv.topOk top).hold _ rfl
    have state : (m.pcb p).state = .RUNNING := known.state _ rfl
    obtain ⟨_, _, f', rest', stack, resumable⟩ :=
      inv.parked p (known.away rfl (by simp)) (.inr (.inr (.inl state)))
    refine ⟨f', rest', ?_, .inl resumable⟩
    rw [swtch_resume here, frames, resume_cur_self]
    exact stack

theorem Reachable.induct {P : Machine → Prop} (reached : Reachable blncflg m)
    (start : ∀ {pages code s}, OsbKernel.boot pages code = .ok s → P (Machine.start s))
    (step : ∀ {m c m'}, Reachable blncflg m → m.Inv → P m → Takes blncflg m c m' → m'.Inv → P m') :
    P m := by
  induction reached with
  | start booted => exact start booted
  | step reached stepped ih =>
    obtain ⟨c, act, stepped⟩ := stepped
    exact step reached reached.inv ih (reached.inv.takes_of_step stepped)
      (reached.inv.step stepped)

end Machine

end OsbKernel
