import OsbKernel.Smp.Moves

/-!
# The steps of fork

`allocproc` takes the head of `unusedList` with the list lock held, gives it a pid and unlinks it.
From the release of `np->lock` to the end of `fork`, only this fork takes the slot out of the
state `USED`.
-/

namespace OsbKernel

open Function
open scoped List

namespace Machine

variable {m : Machine} {blncflg : Bool} {c : Cpu} {f : Frame} {rest : List Frame} {d : Delta}
  {owner : KLock → Option Cpu} {p np : Slot} {pid : Int}

theorem Inv.fork_got (inv : m.Inv) (here : m.cur c = some p) (top : m.frames c = .forkLook :: rest)
    (picks : m.ls.frame c = some (.pickRelease .unusedList))
    (head : m.ls.lists.first .unusedList = some np)
    (locked : m.lockAfter c (.acquire (.proc np)) = some owner) :
    Fits m c { op := .acquire (.proc np), frames := .forkGot np :: rest } owner := by
  have free := (lockAfter_acquire locked).1
  have home := inv.rest np free
  have listed := List.mem_of_mem_head? (inv.listed_of_head picks head)
  have state := (inv.state_of_listed home).1 listed
  have away : m.Away np := inv.away_of_free top nofun free (by rw [state]; nofun)
  refine inv.goes (.forkGot np) top ⟨rfl, nofun, rfl, rfl, rfl⟩ (show rest = [] from inv.sits top)
    rfl rfl (List.Perm.refl _) (.inl ⟨_, picks, rfl⟩) ?hold ?runs nofun (.inl rfl) ?bottom
  case hold =>
    rintro h ⟨⟩
    refine ⟨?_, fun _ => home, nofun, nofun, fun _ _ => away⟩
    rintro _ ⟨⟩
    exact state
  case runs => exact fun p' here' _ => inv.runs top nofun p' here'
  case bottom => simp [here]

theorem Inv.fork_pid {nextpid : Option Int} {events : List Event} (inv : m.Inv)
    (here : m.cur c = some p) (top : m.frames c = .forkGot np :: rest)
    (idle : m.ls.frame c = none) :
    Fits m c { op := .acquire .pidLock, nextpid := nextpid, events := events
               frames := .forkPid np pid :: rest } owner := by
  have ok := inv.topOk top
  exact inv.goes (.forkPid np pid) top ⟨rfl, nofun, rfl, rfl, rfl⟩ (show rest = [] from inv.sits top)
    rfl rfl (List.Perm.swap _ _ _) idle ok.hold ok.runs nofun (.inl rfl) (by simp [here])

theorem Inv.fork_remove (inv : m.Inv) (here : m.cur c = some p)
    (top : m.frames c = .forkPid np pid :: rest) (idle : m.ls.frame c = none)
    (locked : m.lockAfter c (.release .pidLock) = some owner) :
    Fits m c { op := .release .pidLock, pcb := some (np, { m.pcb np with pid := pid })
               call := some (.remove .unusedList np), frames := .forkRemove np :: rest } owner := by
  have ok := inv.topOk top
  have known := ok.hold _ rfl
  have state : (m.pcb np).state = .UNUSED := known.state _ rfl
  have away : m.Away np := known.away rfl nofun
  have listed : np ∈ m.ls.contents .unusedList := by
    have home := known.home rfl
    unfold Home at home
    rwa [state] at home
  suffices calls : Calls m c rest _ (.forkRemove np) np false .UNUSED (.remove .unusedList np) from
    calls.fits inv top locked
  constructor
  case delta => exact ⟨rfl, rfl, rfl⟩
  case frame => exact ⟨rfl, rfl, rfl⟩
  case concerns => rfl
  case writes => exact .inr ⟨_, rfl, state⟩
  case idle => exact idle
  case place => exact listed
  case sits => exact (show rest = [] from inv.sits top)
  case moves => exact moves_replace top rfl rfl (List.Perm.swap _ _ _)
  case lock => exact .inl (inv.owner_of_hold top rfl)
  case keeps => nofun
  case away => exact fun _ => away
  case runs => exact fun p' here' _ => ok.runs p' here' (by rintro h ⟨⟩; rfl)
  case thread => exact .inr fun waits => by rcases waits with h | h | h | h <;> cases h
  case used => exact .inl (by rw [state]; nofun)
  case cpu => rw [here]

theorem Inv.fork_link (inv : m.Inv) (here : m.cur c = some p)
    (top : m.frames c = .forkRemove np :: rest) (idle : m.ls.frame c = none) :
    Fits m c { op := .release (.proc np), pcb := some (np, { m.pcb np with state := .USED })
               spawn := some np, frames := .forkLink np pid :: rest } owner := by
  have ok := inv.topOk top
  have known := ok.hold _ rfl
  have state : (m.pcb np).state = .UNUSED := known.state _ rfl
  have away : m.Away np := known.away rfl (by simp)
  have off : m.Off np := inv.post top idle rfl
  have bottom : rest = [] := inv.sits top
  have apart : p ≠ np := by
    rintro rfl
    exact away c here
  constructor
  case shape => exact inv.shape_replace top bottom
  case moves => exact moves_replace top rfl rfl (List.Perm.refl _)
  case top =>
    refine ⟨_, _, rfl, ?_, (by rintro _ ⟨⟩), ?_⟩
    · exact inCall_apply rfl idle
    · intro p' here' _
      rw [apply_cur, here] at here'
      cases here'
      rw [off_apply, apply_pcb]
      simp only [setAt, update_of_ne apart]
      exact ok.runs p here (by rintro h ⟨⟩; rfl)
  case calls => simp
  case writes =>
    rintro i q ⟨⟩
    exact .inr ⟨.inl (inv.owner_of_hold top rfl), .inr away⟩
  case released =>
    rintro i ⟨⟩
    simp only [Home, apply_pcb, setAt, update_self]
    exact off_apply.mpr off
  case wakes =>
    rintro i q ⟨⟩ _ _
    exact .inr rfl
  case spawns =>
    rintro i ⟨⟩
    exact away
  case used =>
    rintro i q ⟨⟩ used
    exact .inl rfl
  case reserves =>
    rintro p' np' here' ⟨g, member, found⟩
    subst bottom
    rw [List.mem_singleton] at member
    subst member
    cases found
    exact .inr ⟨_, rfl, rfl, by rw [state]; simp⟩
  case cpu => rw [here]

theorem Inv.fork_add {q : Pcb} {t : Cpu} {count : Option Cpu} (inv : m.Inv)
    (here : m.cur c = some p) (top : m.frames c = .forkReady np pid :: rest)
    (idle : m.ls.frame c = none) (runnable : q.state = .RUNNABLE)
    (locked : m.lockAfter c (.acquire (.proc np)) = some owner) :
    Fits m c { op := .acquire (.proc np), pcb := some (np, q), count := count
               call := some (.add (.runnable t) np), frames := .forkAdd np pid t :: rest } owner := by
  have free := (lockAfter_acquire locked).1
  have stack := stack_of_frames here top
  have reserves : m.Reserves p np := ⟨_, by rw [stack]; exact List.mem_cons_self, rfl⟩
  have state : (m.pcb np).state = .USED := inv.reserved p np reserves
  have off : m.Off np := by
    have home := inv.rest np free
    unfold Home at home
    rwa [state] at home
  have bottom : rest = [] := inv.sits top
  have away : m.Away np := inv.away_of_free top nofun free (by rw [state]; nofun)
  suffices calls : Calls m c rest _ (.forkAdd np pid t) np false .RUNNABLE (.add (.runnable t) np)
    from calls.fits inv top locked
  constructor
  case delta => exact ⟨rfl, rfl, rfl⟩
  case frame => exact ⟨rfl, rfl, rfl⟩
  case concerns => rfl
  case writes => exact .inr ⟨_, rfl, runnable⟩
  case idle => exact idle
  case place => exact off
  case sits => exact bottom
  case moves => exact moves_replace top rfl rfl (List.Perm.refl _)
  case lock => exact .inr rfl
  case keeps => nofun
  case away => exact fun _ => away
  case runs => exact fun p' here' _ => inv.runs top nofun p' here'
  case thread => exact .inr fun _ => .inr (.inr (.inr state))
  case used =>
    refine .inr ⟨p, here, reserves, ?_⟩
    rw [bottom]
    nofun
  case cpu => rw [here]

theorem Inv.fork_fits (inv : m.Inv) (here : m.cur c = some p) (top : m.frames c = f :: rest)
    (idle : f.looks = false → m.ls.frame c = none)
    (moved : m.forkCode blncflg c p rest f = some (.act d))
    (locked : m.lockAfter c d.op = some owner) : Fits m c d owner := by
  have ok := inv.topOk top
  have notSched : ∀ {f' : Frame}, m.cur c = none → rest = [] → f'.running = f.running := by
    simp [here]
  cases f with
  | forkLook =>
    have bottom : rest = [] := inv.sits top
    simp only [forkCode] at moved
    split at moved
    · rename_i picks
      split at moved
      · cases moved
        exact inv.goes .forkNone top ⟨rfl, nofun, rfl, rfl, rfl⟩ bottom rfl rfl (List.Perm.refl _)
          (.inl ⟨_, picks, rfl⟩) nofun ok.runs nofun (.inl rfl) notSched
      · rename_i np head
        cases moved
        exact inv.fork_got here top picks head locked
    · cases moved
  | forkNone =>
    cases moved
    exact inv.goes (.code []) top ⟨rfl, nofun, rfl, rfl, rfl⟩ trivial rfl rfl (List.Perm.refl _)
      (idle rfl) nofun ok.runs nofun (.inl rfl) notSched
  | forkGot np =>
    cases moved
    exact inv.fork_pid here top (idle rfl)
  | forkPid np pid =>
    cases moved
    exact inv.fork_remove here top (idle rfl) locked
  | forkRemove np =>
    cases moved
    exact inv.fork_link here top (idle rfl)
  | forkLink np pid =>
    have bottom : rest = [] := inv.sits top
    cases moved
    exact inv.goes (.forkLinked np pid) top ⟨rfl, nofun, rfl, rfl, rfl⟩ bottom rfl rfl
      (List.Perm.refl _) (idle rfl) nofun ok.runs nofun (.inr rfl) notSched
  | forkLinked np pid =>
    have bottom : rest = [] := inv.sits top
    cases moved
    exact inv.goes (.forkReady np pid) top ⟨rfl, nofun, rfl, rfl, rfl⟩ bottom rfl rfl
      (List.Perm.refl _) (idle rfl) nofun ok.runs nofun (.inr rfl) notSched
  | forkReady np pid =>
    obtain ⟨t, _, moved⟩ := Option.bind_eq_some_iff.mp moved
    cases moved
    refine inv.fork_add here top (idle rfl) ?_ locked
    cases blncflg <;> rfl
  | forkAdd np pid t =>
    cases moved
    have known := ok.hold _ rfl
    have state : (m.pcb np).state = .RUNNABLE := known.state _ rfl
    have listed : np ∈ m.ls.contents (.runnable t) := inv.post top (idle rfl) rfl
    refine inv.goes (.code []) top ⟨rfl, nofun, rfl, rfl, rfl⟩ trivial rfl rfl (List.Perm.refl _)
      (idle rfl) nofun ?runs ?released (.inl rfl) notSched
    case runs => exact fun p' here' _ => ok.runs p' here' (by rintro h ⟨⟩; rfl)
    case released =>
      rintro i ⟨⟩
      unfold Home
      rw [state]
      exact ⟨t, listed⟩
  | _ => cases moved

end Machine

end OsbKernel
