import OsbKernel.Smp.Moves

/-!
# The steps of the scheduler and of other kernel code

The scheduler locks the head of its list while it holds the list, unlinks it and switches to it.
Other kernel code only takes locks of its own and calls functions of `proc.c`.
-/

namespace OsbKernel

open Function
open scoped List

namespace Machine

variable {m : Machine} {c : Cpu} {f : Frame} {rest : List Frame} {d : Delta} {act : Act}
  {owner : KLock → Option Cpu} {p : Slot} {held : List Nat}

theorem wakeupFrame_fresh {chan : Chan} : (m.wakeupFrame chan).Fresh :=
  ⟨fun _ => rfl, fun _ _ => rfl, rfl, rfl, rfl⟩

theorem Inv.other_fits (inv : m.Inv) (act : Act) (top : m.frames c = .code held :: rest)
    (idle : m.ls.frame c = none) (moved : m.otherCode held rest act = some (.act d)) :
    Fits m c d owner := by
  have ok := inv.topOk top
  cases act with
  | acquire n =>
    cases moved
    exact inv.goes (.code (n :: held)) top ⟨rfl, nofun, rfl, rfl, rfl⟩ trivial rfl rfl
      (List.Perm.refl _) idle nofun ok.runs nofun (.inl rfl) (fun _ _ => rfl)
  | release n =>
    simp only [otherCode] at moved
    split_ifs at moved with member
    cases moved
    exact inv.goes (.code (held.erase n)) top ⟨rfl, nofun, rfl, rfl, rfl⟩ trivial rfl rfl
      ((List.perm_cons_erase member).map KLock.other) idle nofun ok.runs nofun (.inl rfl)
      (fun _ _ => rfl)
  | wakeup chan =>
    cases moved
    exact inv.pushes (.code held) (m.wakeupFrame chan) top ⟨rfl, nofun, rfl, rfl, rfl⟩ rfl
      wakeupFrame_fresh trivial (List.cons_ne_nil _ _) idle rfl rfl (same_locks top rfl rfl rfl)
      (.inl rfl) (fun _ _ => rfl)
  | ret =>
    simp only [otherCode] at moved
    split_ifs at moved with done
    obtain ⟨rfl, more⟩ := done
    cases moved
    refine inv.pops top more rfl ⟨rfl, rfl, rfl, rfl⟩ ?_ idle (fun p here => ok.runs p here nofun)
      nofun
    rw [held_cons top rfl]
    exact List.Perm.refl _
  | _ => cases moved

theorem Inv.picks {f' : Frame} {l : ListId} (inv : m.Inv) (top : m.frames c = f :: rest)
    (idle : m.ls.frame c = none) (free : f.own (m.cur c) = [] ∧ f.gaveUp = none ∧ f.running = none)
    (delta : d.frames = f' :: rest ∧ d.pcb = none ∧ d.spawn = none ∧ d.cpuProc = none ∧
      d.call = some (.pick l) ∧ d.op = .skip)
    (frame : f'.call c (m.cur c) = some (.pick l) ∧ f'.own (m.cur c) = [] ∧ f'.gaveUp = none ∧
      f'.reserves = none ∧ f'.running = none)
    (sits : f'.Sits (m.cur c) rest) : Fits m c d owner := by
  obtain ⟨calls, free', keeps', fresh, bottom'⟩ := frame
  have nothing : ∀ {g : Frame}, g.own (m.cur c) = [] → g.hold (m.cur c) = none := by
    intro g none
    cases holds : g.hold (m.cur c) with
    | none => rfl
    | some h =>
      rw [Frame.own, holds] at none
      cases none
  suffices still : Still m c f rest d f' rest from still.fits inv top
  constructor
  case frames => exact delta.1
  case pcb => simp [delta.2.1]
  case spawn => exact delta.2.2.1
  case cpuProc => exact delta.2.2.2.1
  case shape => exact inv.shape_replace top sits
  case moves =>
    refine moves_replace top free.2.1 keeps' ?_
    rw [delta.2.2.2.2.2, free.1, free']
    exact List.Perm.refl _
  case calls => exact .inr ⟨l, delta.2.2.2.2.1, calls, idle⟩
  case hold =>
    rw [nothing free']
    simp
  case runs => exact fun p here _ => inv.runs top (by rw [nothing free.1]; simp) p here
  case released =>
    rw [delta.2.2.2.2.2]
    simp
  case reserves =>
    exact fun g member np found => ⟨g, List.mem_cons_of_mem f (mem_rest_of_reserves fresh member found), found⟩
  case bottom =>
    intro here
    by_cases more : rest = []
    · subst more
      simp [free.2.2, bottom']
    · exact bottom_cons more

theorem Inv.process_fits (inv : m.Inv) (here : m.cur c = some p)
    (top : m.frames c = .code held :: rest) (idle : m.ls.frame c = none)
    (moved : m.processCode p held rest act = some (.act d)) : Fits m c d owner := by
  have ok := inv.topOk top
  have notSched : ∀ {f' : Frame}, m.cur c = none → rest = [] →
      f'.running = (Frame.code held).running := by
    simp [here]
  cases act with
  | fork =>
    obtain ⟨⟨rfl, rfl⟩, moved⟩ := Option.ite_none_right_eq_some.mp moved
    cases moved
    exact inv.picks top idle ⟨rfl, rfl, rfl⟩ ⟨rfl, rfl, rfl, rfl, rfl, rfl⟩
      ⟨rfl, rfl, rfl, rfl, rfl⟩ rfl
  | exit status =>
    simp only [processCode] at moved
    split_ifs at moved with bottom
    obtain ⟨rfl, rfl, _⟩ := bottom
    cases moved
    exact inv.goes (.exitStart status) top ⟨rfl, nofun, rfl, rfl, rfl⟩ rfl rfl rfl
      (List.Perm.refl _) idle nofun ok.runs nofun (.inl rfl) notSched
  | wait addr =>
    obtain ⟨⟨rfl, rfl⟩, moved⟩ := Option.ite_none_right_eq_some.mp moved
    cases moved
    exact inv.goes (.waitStart addr) top ⟨rfl, nofun, rfl, rfl, rfl⟩ rfl rfl rfl
      (List.Perm.refl _) idle nofun ok.runs nofun (.inl rfl) notSched
  | kill pid =>
    obtain ⟨⟨rfl, rfl⟩, moved⟩ := Option.ite_none_right_eq_some.mp moved
    cases moved
    exact inv.goes (.killLoop pid allSlots) top ⟨rfl, nofun, rfl, rfl, rfl⟩ rfl rfl rfl
      (List.Perm.refl _) idle nofun ok.runs nofun (.inl rfl) notSched
  | setcpu cpuNum =>
    obtain ⟨⟨rfl, rfl⟩, moved⟩ := Option.ite_none_right_eq_some.mp moved
    cases moved
    refine inv.goes (.code []) top ⟨rfl, ?_, rfl, rfl, rfl⟩ trivial rfl rfl
      (List.Perm.refl _) idle nofun ok.runs nofun (.inl rfl) notSched
    rintro i q ⟨⟩
    exact ⟨rfl, rfl, rfl, rfl⟩
  | sleep chan n =>
    simp only [processCode] at moved
    split_ifs at moved with alone
    obtain ⟨rfl, none⟩ := alone
    rw [← here] at none
    cases moved
    refine inv.pushes (.code [n]) (.sleepStart chan (.other n)) top ⟨rfl, nofun, rfl, rfl, rfl⟩ rfl
      ⟨fun _ => rfl, fun _ _ => rfl, rfl, rfl, rfl⟩ trivial ?_ idle rfl rfl
      (same_locks top rfl rfl rfl) (.inl rfl) notSched
    rw [Frame.Sits, heldBy_cons rfl, none]
    rfl
  | acquire n => exact inv.other_fits (.acquire n) top idle moved
  | release n => exact inv.other_fits (.release n) top idle moved
  | wakeup chan => exact inv.other_fits (.wakeup chan) top idle moved
  | ret => exact inv.other_fits .ret top idle moved
  | _ => cases moved

theorem Inv.sched_got (inv : m.Inv) (top : m.frames c = .schedLook :: rest)
    (picks : m.ls.frame c = some (.pickRelease (.runnable c)))
    (head : m.ls.lists.first (.runnable c) = some p)
    (locked : m.lockAfter c (.acquire (.proc p)) = some owner) :
    Fits m c { op := .acquire (.proc p), frames := .schedGot p :: rest } owner := by
  have sits : m.cur c = none ∧ rest = [] := inv.sits top
  have free := (lockAfter_acquire locked).1
  have home := inv.rest p free
  have listed := List.mem_of_mem_head? (inv.listed_of_head picks head)
  have state := (inv.state_of_listed home).2 c listed
  have away : m.Away p := inv.away_of_free top nofun free (by rw [state]; nofun)
  refine inv.goes (.schedGot p) top ⟨rfl, nofun, rfl, rfl, rfl⟩ sits
    rfl rfl (List.Perm.refl _) (.inl ⟨_, picks, rfl⟩) ?hold ?runs nofun (.inl rfl) (fun _ _ => rfl)
  case hold =>
    rintro h ⟨⟩
    refine ⟨?_, nofun, nofun, fun _ => listed, fun _ _ => away⟩
    rintro _ ⟨⟩
    exact state
  case runs => exact fun p' here' _ => inv.runs top nofun p' here'

theorem Inv.sched_remove {events : List Event} (inv : m.Inv) (here : m.cur c = none)
    (top : m.frames c = .schedGot p :: rest) (idle : m.ls.frame c = none)
    (locked : m.lockAfter c .skip = some owner) :
    Fits m c { pcb := some (p, { m.pcb p with state := .RUNNING }), cpuProc := some (some p)
               call := some (.remove (.runnable c) p), events := events
               frames := .schedRemove p :: rest } owner := by
  have sits : m.cur c = none ∧ rest = [] := inv.sits top
  have known := (inv.topOk top).hold _ rfl
  have state : (m.pcb p).state = .RUNNABLE := known.state _ rfl
  suffices calls : Calls m c rest _ (.schedRemove p) p false .RUNNING (.remove (.runnable c) p) from
    calls.fits inv top locked
  constructor
  case delta => exact ⟨rfl, rfl, rfl⟩
  case frame => exact ⟨rfl, rfl, rfl⟩
  case concerns => rfl
  case writes => exact .inr ⟨_, rfl, rfl⟩
  case idle => exact idle
  case place => exact known.runnable rfl
  case sits => exact sits
  case moves => exact moves_replace top rfl rfl (List.Perm.refl _)
  case lock => exact .inl (inv.owner_of_hold top rfl)
  case keeps => nofun
  case away => exact fun _ => known.away rfl nofun
  case runs => simp [here]
  case thread => exact .inr fun _ => .inl state
  case used => exact .inl (by rw [state]; nofun)
  case cpu =>
    rw [here]
    exact .inl ⟨sits.2, rfl⟩

theorem Inv.sched_idle (inv : m.Inv) (here : m.cur c = none)
    (top : m.frames c = .schedBack p :: rest) (idle : m.ls.frame c = none) :
    Fits m c { op := .release (.proc p), cpuProc := some none
               frames := .schedIdle :: rest } owner := by
  have sits : m.cur c = none ∧ rest = [] := inv.sits top
  have known := (inv.topOk top).hold _ rfl
  constructor
  case shape => exact inv.shape_replace top sits
  case moves => exact moves_replace top rfl rfl (List.Perm.refl _)
  case top =>
    refine ⟨_, _, rfl, inCall_apply rfl idle, nofun, fun p' here' _ => ?_⟩
    rw [apply_cur, here] at here'
    cases here'
  case calls => nofun
  case writes => nofun
  case released =>
    rintro i ⟨⟩
    apply (home_apply (d := { op := .release (.proc p), cpuProc := some none, frames := _ }) ?_).mpr
    · exact known.home rfl
    · nofun
  case wakes => nofun
  case spawns => nofun
  case used => nofun
  case reserves => simp [here]
  case cpu =>
    rw [here]
    obtain ⟨_, rfl⟩ := sits
    rintro b ⟨⟩
    rfl

theorem Inv.sched_fits (inv : m.Inv) (here : m.cur c = none) (top : m.frames c = f :: rest)
    (idle : f.looks = false → m.ls.frame c = none)
    (moved : m.schedulerCode c rest f = some (.act d)) (locked : m.lockAfter c d.op = some owner) :
    Fits m c d owner := by
  have ok := inv.topOk top
  cases f with
  | schedIdle =>
    have sits : m.cur c = none ∧ rest = [] := inv.sits top
    cases moved
    exact inv.picks top (idle rfl) ⟨rfl, rfl, rfl⟩ ⟨rfl, rfl, rfl, rfl, rfl, rfl⟩
      ⟨rfl, rfl, rfl, rfl, rfl⟩ sits
  | schedLook =>
    have sits : m.cur c = none ∧ rest = [] := inv.sits top
    simp only [schedulerCode] at moved
    split at moved
    · rename_i picks
      split at moved
      · cases moved
        exact inv.goes .schedNone top ⟨rfl, nofun, rfl, rfl, rfl⟩ sits rfl rfl (List.Perm.refl _)
          (.inl ⟨_, picks, rfl⟩) nofun ok.runs nofun (.inl rfl) (fun _ _ => rfl)
      · rename_i p head
        cases moved
        exact inv.sched_got top picks head locked
    · cases moved
  | schedNone =>
    have sits : m.cur c = none ∧ rest = [] := inv.sits top
    cases moved
    exact inv.goes .schedIdle top ⟨rfl, nofun, rfl, rfl, rfl⟩ sits rfl rfl (List.Perm.refl _)
      (idle rfl) nofun ok.runs nofun (.inl rfl) (fun _ _ => rfl)
  | schedGot p =>
    cases moved
    exact inv.sched_remove here top (idle rfl) locked
  | schedRemove p => cases moved
  | schedBack p =>
    cases moved
    exact inv.sched_idle here top (idle rfl)
  | _ => cases moved

theorem Inv.interrupted {g : Frame} (inv : m.Inv) (top : m.frames c = f :: rest)
    (held : m.held c = []) (idle : m.ls.frame c = none) (plain : d.Plain m g (f :: rest))
    (skips : d.op = .skip) (fresh : g.Fresh) (sits : g.Sits (m.cur c) (f :: rest)) :
    Fits m c d owner := by
  have free : f.hold (m.cur c) = none := by
    cases holds : f.hold (m.cur c) with
    | none => rfl
    | some h =>
      have member := hold_mem_held top holds
      rw [held] at member
      cases member
  refine inv.pushes f g top plain skips fresh (inv.sits top) sits idle free free ?_ (.inr rfl)
    (fun _ _ => rfl)
  rw [Machine.held, top]

end Machine

end OsbKernel
