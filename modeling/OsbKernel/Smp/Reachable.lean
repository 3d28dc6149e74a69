import OsbKernel.Smp.ForkSteps
import OsbKernel.Smp.ExitSteps
import OsbKernel.Smp.SleepSteps
import OsbKernel.Smp.SchedSteps
import OsbKernel.Proc.Runs

/-!
# Every reachable state has the invariant

`Does` lists what the code of a CPU can do next, and `step_cases` what a step can
be.  Every property of runs is an induction with these cases.
-/

namespace OsbKernel

open Function
open LinkedChain
open scoped List

namespace Machine

/-- What the thread `f :: rest` of CPU `c` can do next. -/
inductive Does (blncflg : Bool) (m : Machine) (c : Cpu) (f : Frame) (rest : List Frame) :
    Move → Prop where
  | interrupt (held : m.held c = []) (idle : m.ls.frame c = none) :
      Does blncflg m c f rest (.act { frames := .code [] :: f :: rest })
  | timer {p : Slot} (here : m.cur c = some p) (held : m.held c = []) (idle : m.ls.frame c = none)
      (running : (m.pcb p).state = .RUNNING) :
      Does blncflg m c f rest (.act { frames := .yieldStart :: f :: rest })
  | process {p : Slot} {held : List Nat} {act : Act} {mv : Move} (here : m.cur c = some p)
      (code : f = .code held) (moved : m.processCode p held rest act = some mv) :
      Does blncflg m c f rest mv
  | other {held : List Nat} {act : Act} {mv : Move} (here : m.cur c = none)
      (code : f = .code held) (moved : m.otherCode held rest act = some mv) :
      Does blncflg m c f rest mv
  | fork {p : Slot} {mv : Move} (here : m.cur c = some p)
      (moved : m.forkCode blncflg c p rest f = some mv) : Does blncflg m c f rest mv
  | exit {p : Slot} {mv : Move} (here : m.cur c = some p)
      (moved : m.exitCode p rest f = some mv) : Does blncflg m c f rest mv
  | wait {p : Slot} {act : Act} {mv : Move} (here : m.cur c = some p)
      (moved : m.waitCode p rest act f = some mv) : Does blncflg m c f rest mv
  | sleep {p : Slot} {mv : Move} (here : m.cur c = some p)
      (moved : m.sleepCode p rest f = some mv) : Does blncflg m c f rest mv
  | kill {p : Slot} {mv : Move} (here : m.cur c = some p)
      (moved : m.killCode rest f = some mv) : Does blncflg m c f rest mv
  | sched {mv : Move} (here : m.cur c = none) (moved : m.schedulerCode c rest f = some mv) :
      Does blncflg m c f rest mv
  | wake {mv : Move} (moved : m.wakeCode blncflg c rest f = some mv) : Does blncflg m c f rest mv

variable {blncflg : Bool} {m m' : Machine} {c : Cpu} {f : Frame} {rest : List Frame} {mv : Move}
  {act : Act} {p : Slot} {s : Kernel}

theorem does_of_procCode (here : m.cur c = some p)
    (moved : m.procCode blncflg c p act f rest = some mv) : Does blncflg m c f rest mv := by
  by_cases code : ∃ held, f = .code held
  · obtain ⟨held, rfl⟩ := code
    exact .process here rfl moved
  have moved : (m.forkCode blncflg c p rest f <|> m.exitCode p rest f <|> m.waitCode p rest act f <|>
      m.sleepCode p rest f <|> m.killCode rest f <|> m.wakeCode blncflg c rest f) = some mv := by
    cases f with
    | code held => exact absurd ⟨held, rfl⟩ code
    | _ => exact moved
  simp only [Option.orElse_eq_some] at moved
  obtain moved | ⟨_, moved | ⟨_, moved | ⟨_, moved | ⟨_, moved | ⟨_, moved⟩⟩⟩⟩⟩ := moved
  · exact .fork here moved
  · exact .exit here moved
  · exact .wait here moved
  · exact .sleep here moved
  · exact .kill here moved
  · exact .wake moved

theorem does_of_schedCode (here : m.cur c = none)
    (moved : m.schedCode blncflg c act f rest = some mv) : Does blncflg m c f rest mv := by
  by_cases code : ∃ held, f = .code held
  · obtain ⟨held, rfl⟩ := code
    exact .other here rfl moved
  have moved : (m.schedulerCode c rest f <|> m.wakeCode blncflg c rest f) = some mv := by
    cases f with
    | code held => exact absurd ⟨held, rfl⟩ code
    | _ => exact moved
  simp only [Option.orElse_eq_some] at moved
  obtain moved | ⟨_, moved⟩ := moved
  · exact .sched here moved
  · exact .wake moved

theorem does_of_move (moved : m.move blncflg c act = some mv) :
    ∃ f rest, m.frames c = f :: rest ∧ Does blncflg m c f rest mv := by
  cases top : m.frames c with
  | nil =>
    rw [move, top] at moved
    cases moved
  | cons f rest =>
    refine ⟨f, rest, rfl, ?_⟩
    rw [move, top] at moved
    simp only at moved
    split at moved
    · split_ifs at moved with free
      cases moved
      exact .interrupt free.1 free.2
    · split at moved
      · rename_i p here
        split_ifs at moved with free
        cases moved
        exact .timer here free.1 free.2.1 free.2.2
      · cases moved
    · split at moved
      · rename_i p here
        exact does_of_procCode here moved
      · rename_i here
        exact does_of_schedCode here moved

theorem step_cases (stepped : m.step blncflg c act = some m') :
    (∃ g ls, m.ls.frame c = some g ∧ m.ls.advance c = some ls ∧
      m' = { m with ls := ls, log := m.log ++ if g.commits then [.effect g.call] else [] }) ∨
    ∃ f rest, m.frames c = f :: rest ∧ (f.looks = false → m.ls.frame c = none) ∧
      ((∃ d owner, Does blncflg m c f rest (.act d) ∧ m.lockAfter c d.op = some owner ∧
          m' = m.apply c d owner) ∨
        ∃ target events fs, Does blncflg m c f rest (.swtch target events fs) ∧
          m' = m.swtch c target events fs) := by
  have code : ∀ {f rest}, m.frames c = f :: rest → m.codeStep blncflg c act = some m' →
      (∃ d owner, Does blncflg m c f rest (.act d) ∧ m.lockAfter c d.op = some owner ∧
          m' = m.apply c d owner) ∨
        ∃ target events fs, Does blncflg m c f rest (.swtch target events fs) ∧
          m' = m.swtch c target events fs := by
    intro f rest top ran
    rw [codeStep] at ran
    split at ran
    · rename_i d moved
      obtain ⟨f', rest', top', does⟩ := does_of_move moved
      rw [top] at top'
      cases top'
      obtain ⟨owner, locked, rfl⟩ := Option.map_eq_some_iff.mp ran
      exact .inl ⟨d, owner, does, locked, rfl⟩
    · rename_i target events fs moved
      obtain ⟨f', rest', top', does⟩ := does_of_move moved
      rw [top] at top'
      cases top'
      cases ran
      exact .inr ⟨target, events, fs, does, rfl⟩
    · cases ran
  have ran_frames : m.codeStep blncflg c act = some m' → ∃ f rest, m.frames c = f :: rest := by
    intro ran
    rw [codeStep] at ran
    split at ran
    · rename_i moved
      obtain ⟨f, rest, top, _⟩ := does_of_move moved
      exact ⟨f, rest, top⟩
    · rename_i moved
      obtain ⟨f, rest, top, _⟩ := does_of_move moved
      exact ⟨f, rest, top⟩
    · cases ran
  rw [step] at stepped
  cases calling : m.ls.frame c with
  | none =>
    rw [calling] at stepped
    obtain ⟨f, rest, top⟩ := ran_frames stepped
    exact .inr ⟨f, rest, top, fun _ => rfl, code top stepped⟩
  | some g =>
    rw [calling] at stepped
    simp only at stepped
    split_ifs at stepped with looking
    · obtain ⟨f, rest, top⟩ := ran_frames stepped
      refine .inr ⟨f, rest, top, fun apart => ?_, code top stepped⟩
      rw [looks, top] at looking
      split at looking
      · rename_i same
        cases same
        rw [looking] at apart
        cases apart
      · cases looking
    · obtain ⟨ls, advanced, same⟩ := Option.bind_eq_some_iff.mp stepped
      cases same
      exact .inl ⟨g, ls, rfl, advanced, rfl⟩

theorem Inv.does_fits {d : Delta} {owner : KLock → Option Cpu} (inv : m.Inv)
    (top : m.frames c = f :: rest) (idle : f.looks = false → m.ls.frame c = none)
    (does : Does blncflg m c f rest (.act d)) (locked : m.lockAfter c d.op = some owner) :
    Fits m c d owner := by
  cases does with
  | interrupt held idle =>
    exact inv.interrupted top held idle ⟨rfl, nofun, rfl, rfl, rfl⟩ rfl
      ⟨fun _ => rfl, fun _ _ => rfl, rfl, rfl, rfl⟩ trivial
  | timer here held idle running =>
    refine inv.interrupted top held idle ⟨rfl, nofun, rfl, rfl, rfl⟩ rfl
      ⟨fun _ => rfl, fun _ _ => rfl, rfl, rfl, rfl⟩ ⟨List.cons_ne_nil _ _, ?_⟩
    rw [← top]
    exact held
  | process here code moved =>
    subst code
    exact inv.process_fits here top (idle rfl) moved
  | other here code moved =>
    subst code
    exact inv.other_fits _ top (idle rfl) moved
  | fork here moved => exact inv.fork_fits here top idle moved locked
  | exit here moved => exact inv.exit_fits here top idle moved locked
  | wait here moved => exact inv.wait_fits here top idle moved locked
  | sleep here moved => exact inv.sleep_fits here top idle moved locked
  | kill here moved => exact inv.kill_fits here top idle moved locked
  | sched here moved => exact inv.sched_fits here top idle moved locked
  | wake moved => exact inv.wake_fits top idle moved locked

inductive Switches (m : Machine) (c : Cpu) (rest : List Frame) :
    Frame → Option Slot → List Event → List Frame → Prop where
  | exit {p : Slot} (here : m.cur c = some p) :
      Switches m c rest .exitSwitch none [] (.exitGone :: rest)
  | sleep {p : Slot} {chan : Chan} {lk : KLock} (here : m.cur c = some p) :
      Switches m c rest (.sleepSwitch chan lk) none [] (.sleepResume lk :: rest)
  | yield {p : Slot} {t : Cpu} (here : m.cur c = some p) :
      Switches m c rest (.yieldAdd t) none [] (.yieldResume :: rest)
  | sched {p : Slot} (here : m.cur c = none) :
      Switches m c rest (.schedRemove p) (some p) [.switch c p] (.schedBack p :: rest)

variable {target : Option Slot} {events : List Event} {fs : List Frame} {pages : List Page}

theorem switches_of_does (does : Does blncflg m c f rest (.swtch target events fs)) :
    Switches m c rest f target events fs := by
  cases does with
  | @process p held act _ here code moved =>
    cases act <;> simp [processCode, otherCode] at moved
  | @other held act _ here code moved => cases act <;> simp [otherCode] at moved
  | @fork p _ here moved =>
    cases f <;> simp [forkCode, Option.bind_eq_some_iff] at moved
    split at moved <;> simp at moved
  | @exit p _ here moved =>
    cases f with
    | exitSwitch =>
      cases moved
      exact .exit here
    | exitReparent status todo =>
      cases todo with
      | nil => cases moved
      | cons q todo =>
        simp only [exitCode] at moved
        split at moved <;> cases moved
    | _ => cases moved
  | @wait p act _ here moved =>
    cases f with
    | waitScan addr todo havekids =>
      cases todo with
      | nil =>
        simp only [waitCode] at moved
        split at moved <;> cases moved
      | cons q todo =>
        simp only [waitCode] at moved
        split_ifs at moved <;> cases moved
    | _ => cases moved
  | @sleep p _ here moved =>
    cases f with
    | sleepSwitch chan lk =>
      cases moved
      exact .sleep here
    | yieldAdd t =>
      cases moved
      exact .yield here
    | yieldStart => simp [sleepCode, Option.bind_eq_some_iff] at moved
    | _ => cases moved
  | @kill p _ here moved =>
    cases f with
    | killLoop pid todo =>
      cases todo with
      | nil => cases moved
      | cons q todo =>
        simp only [killCode] at moved
        split_ifs at moved <;> cases moved
    | killRemove q => simp [killCode, Option.bind_eq_some_iff] at moved
    | _ => cases moved
  | sched here moved =>
    cases f with
    | schedRemove p =>
      cases moved
      exact .sched here
    | schedLook =>
      simp only [schedulerCode] at moved
      split at moved
      · split at moved <;> cases moved
      · cases moved
    | _ => cases moved
  | wake moved =>
    cases f with
    | wakeLoop n chan todo =>
      cases todo with
      | nil => cases moved
      | cons q todo =>
        simp only [wakeCode] at moved
        split_ifs at moved <;> cases moved
    | wakeRemove n chan q todo => simp [wakeCode, Option.bind_eq_some_iff] at moved
    | _ => cases moved

theorem Inv.switches (inv : m.Inv)
    (top : m.frames c = f :: rest) (idle : f.looks = false → m.ls.frame c = none)
    (switches : Switches m c rest f target events fs) : (m.swtch c target events fs).Inv := by
  have ok := inv.topOk top
  have under := inv.shape_rest top
  cases switches with
  | @exit p here =>
    have bottom : rest = [] := inv.sits top
    have known := ok.hold ⟨p, true, some .ZOMBIE, .home⟩ (by rw [here]; rfl)
    have state : (m.pcb p).state = .ZOMBIE := known.state _ rfl
    rw [here] at under
    refine inv.swtchOut top here (idle rfl) ⟨bottom, under⟩ ?_ (known.home rfl) ?_ rfl
    · rw [bottom]
      rfl
    · rw [state]
      simp [ProcState.Waits]
  | @sleep p chan lk here =>
    have sits : heldBy (m.cur c) rest = [lk] := inv.sits top
    have known := ok.hold ⟨p, true, some .SLEEPING, .home⟩ (by rw [here]; rfl)
    rw [here] at under sits
    have locks : ∀ f : Frame, f.gaveUp = some lk →
        f.own (some p) = [.proc p] → heldBy (some p) (f :: rest) = [.proc p] := by
      intro f gave own
      rw [heldBy, gave, own]
      simp [sits]
    exact inv.swtchOut top here (idle rfl) ⟨sits, under⟩ (locks _ rfl rfl) (known.home rfl)
      (fun _ => ⟨trivial, locks _ rfl rfl⟩) rfl
  | @yield p t here =>
    obtain ⟨more, sits⟩ : rest ≠ [] ∧ heldBy (m.cur c) rest = [] := inv.sits top
    have known := ok.hold ⟨p, true, some .RUNNABLE, .call⟩ (by rw [here]; rfl)
    have state : (m.pcb p).state = .RUNNABLE := known.state _ rfl
    have listed : (ListCall.add (.runnable t) p).Post m.ls.contents :=
      inv.post top (idle rfl) (by rw [here]; rfl)
    rw [here] at under sits
    have locks : ∀ f : Frame, f.gaveUp = none →
        f.own (some p) = [.proc p] → heldBy (some p) (f :: rest) = [.proc p] := by
      intro f keeps own
      rw [heldBy_cons keeps, own, sits]
      rfl
    refine inv.swtchOut top here (idle rfl) ⟨⟨more, sits⟩, under⟩ (locks _ rfl rfl) ?_
      (fun _ => ⟨trivial, locks _ rfl rfl⟩) rfl
    unfold Home
    rw [state]
    exact ⟨t, listed⟩
  | @sched p here =>
    obtain ⟨_, bottom⟩ : m.cur c = none ∧ rest = [] := inv.sits top
    subst bottom
    exact inv.swtchIn here top (idle rfl)

theorem Inv.step (inv : m.Inv) (stepped : m.step blncflg c act = some m') : m'.Inv := by
  obtain ⟨g, ls, calling, advanced, rfl⟩ | ⟨f, rest, top, idle, ran⟩ := step_cases stepped
  · exact inv.listStep calling advanced
  · obtain ⟨d, owner, does, locked, rfl⟩ | ⟨target, events, fs, does, rfl⟩ := ran
    · exact inv.apply locked (inv.does_fits top idle does locked)
    · exact inv.switches top idle (switches_of_does does)

theorem start_pcb {lists : Lists} {page : Page} {pt : PageTable} {mem : Kmem}
    (i : Slot) : ((start (booted pages lists page pt mem)).pcb i).state =
      if i = 0 then .RUNNABLE else .UNUSED := by
  by_cases first : i = 0
  · subst first
    simp [start, Pcb.ofProc, booted, initProcess]
  · simp [start, Pcb.ofProc, booted, first, bss]

theorem mem_bootLists_zero : (0 : Slot) ∈ bootLists (.runnable 0) := by
  simp [bootLists, put]

theorem mem_bootLists_unused {i : Slot} (other : i ≠ 0) : i ∈ bootLists .unusedList := by
  rw [bootLists, mem_put_of_ne other, mem_drop_of_ne other]
  exact mem_procinitLists i

theorem start_inv {code : PageData} (ran : OsbKernel.boot pages code = .ok s) :
    (start s).Inv := by
  obtain ⟨lists, page, pt, mem, reads, rfl⟩ := boot_booted ran
  set m := start (booted pages lists page pt mem) with start_eq
  have frames : ∀ c, m.frames c = [.schedIdle] := fun _ => rfl
  have held : ∀ c, m.held c = [] := fun _ => rfl
  have fresh : ∀ i f, f ∈ m.stack i → f = .forkret := by
    intro i f member
    by_cases first : i = 0
    · subst first
      simpa [start_eq, start] using member
    · simp [start_eq, start, first] at member
  constructor
  case lists => exact ListInv.initial reads (fun _ => rfl) (fun _ => rfl) (fun _ => rfl)
  case owners =>
    intro c k
    exact ⟨nofun, nofun⟩
  case nodup => exact fun c => by simp [held]
  case shape => exact fun c => ⟨⟨rfl, rfl⟩, nofun, trivial⟩
  case top => exact fun c => ⟨_, _, frames c, rfl, nofun, nofun⟩
  case rest =>
    intro i _
    unfold Home
    rw [start_eq, start_pcb]
    by_cases first : i = 0
    · subst first
      exact ⟨0, mem_bootLists_zero⟩
    · simp only [first, if_false]
      exact mem_bootLists_unused first
  case alone => nofun
  case back => nofun
  case cpu =>
    rintro c f ⟨⟩
    rfl
  case parked =>
    intro i _ waits
    rw [start_eq, start_pcb] at waits
    by_cases first : i = 0
    · subst first
      have stack : m.stack 0 = [.forkret] := by
        simp [start_eq, start]
      exact parked_forkret stack
    · simp [first, ProcState.Waits] at waits
  case reserved =>
    rintro p np ⟨f, member, found⟩
    rw [fresh p f member] at found
    cases found
  case once =>
    rintro p q np ⟨f, member, found⟩
    rw [fresh p f member] at found
    cases found

def bootNext (x : Slot) : Option Slot :=
  if x = 0 then none else if inside : x.val + 1 < NPROC then some ⟨x.val + 1, inside⟩ else none

def first : Machine where
  ls :=
    { lists := ⟨fun l => (bootLists l).head?, bootNext⟩
      owner := fun _ => none
      frame := fun _ => none
      stopped := fun _ => none
      contents := bootLists }
  owner _ := none
  pcb p := if p = 0 then ⟨.RUNNABLE, .null, false, 0, 1, 0⟩ else ⟨.UNUSED, .null, false, 0, 0, 0⟩
  parent _ := none
  nextpid := 2
  procCount _ := 0
  cpuProc _ := none
  initproc := some 0
  cur _ := none
  stack := update (fun _ => []) 0 [.forkret]
  sched _ := [.schedIdle]
  log := [.effect (.add (.runnable 0) 0)]

theorem first_chain (l : ListId) : Chain bootNext (bootLists l).head? (bootLists l) := by
  cases l with
  | runnable c =>
    by_cases first : c = 0
    · subst first
      decide
    · have empty : bootLists (.runnable c) = [] := by
        simp [bootLists, put, drop, procinitLists, first]
      rw [empty]
      rfl
  | _ => decide +kernel

theorem start_eq_first {code : PageData}
    (ran : OsbKernel.boot pages code = .ok s) : start s = first := by
  obtain ⟨lists, page, pt, mem, reads, rfl⟩ := boot_booted ran
  have all : ∀ x, ∃ l, x ∈ bootLists l := by
    intro x
    by_cases zero : x = 0
    · exact ⟨.runnable 0, zero ▸ mem_bootLists_zero⟩
    · exact ⟨.unusedList, mem_bootLists_unused zero⟩
  obtain ⟨firsts, nexts⟩ := reads.determined ⟨first_chain, reads.disjoint⟩ all
  have same : (booted pages lists page pt mem).lists = first.ls.lists := by
    change lists = ⟨fun l => (bootLists l).head?, bootNext⟩
    rw [← firsts, ← nexts]
  have pcbs : ∀ i, Pcb.ofProc ((booted pages lists page pt mem).proc i) = first.pcb i := by
    intro i
    by_cases zero : i = 0
    · subst zero
      simp [Pcb.ofProc, booted, initProcess, first, allocated, bss]
    · simp [Pcb.ofProc, booted, zero, first, bss]
  have parents : ∀ i, ((booted pages lists page pt mem).proc i).parent = none := by
    intro i
    by_cases zero : i = 0
    · subst zero
      simp [booted, initProcess, allocated, bss]
    · simp [booted, zero, bss]
  simp only [start, same, pcbs, parents]
  rfl

theorem first_reachable (blncflg : Bool) : Reachable blncflg first := by
  obtain ⟨s, ran⟩ := boot_returns
  rw [← start_eq_first ran]
  exact .start ran

def run (blncflg : Bool) (m : Machine) : List (Cpu × Act) → Option Machine
  | [] => some m
  | (c, act) :: more => (m.step blncflg c act).bind fun m' => run blncflg m' more

theorem Reachable.run {choices : List (Cpu × Act)} (reached : Reachable blncflg m)
    (ran : m.run blncflg choices = some m') : Reachable blncflg m' := by
  induction choices generalizing m with
  | nil =>
    cases ran
    exact reached
  | cons choice more ih =>
    obtain ⟨c, act⟩ := choice
    obtain ⟨next, stepped, rest⟩ := Option.bind_eq_some_iff.mp ran
    exact ih (.step reached ⟨c, act, stepped⟩) rest

theorem Reachable.inv (reached : Reachable blncflg m) : m.Inv := by
  induction reached with
  | start booted => exact start_inv booted
  | step reached stepped ih =>
    obtain ⟨c, act, stepped⟩ := stepped
    exact ih.step stepped

end Machine

end OsbKernel
