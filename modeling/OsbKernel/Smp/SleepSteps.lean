import OsbKernel.Smp.Moves

/-!
# The steps of sleep, yield, wakeup and kill

A process that gives up the CPU has put itself on a list, with its lock held; the scheduler
releases that lock. `wakeup` and `kill` move a sleeping process to a runnable list with its lock
held.
-/

namespace OsbKernel

open Function
open scoped List

namespace Machine

variable {m : Machine} {blncflg : Bool} {c : Cpu} {f : Frame} {rest : List Frame} {d : Delta}
  {owner : KLock → Option Cpu} {p q : Slot} {chan : Chan} {lk : KLock}

theorem running_of_hold (known : m.HoldOk c ⟨p, true, some .RUNNING, .home⟩) :
    (m.pcb p).state = .RUNNING ∧ m.Off p := by
  have state : (m.pcb p).state = .RUNNING := known.state _ rfl
  have home := known.home rfl
  unfold Home at home
  rw [state] at home
  exact ⟨state, home⟩

variable {f' : Frame} {st : ProcState}

theorem Inv.self_calls {call : ListCall} (inv : m.Inv)
    (here : m.cur c = some p) (top : m.frames c = f :: rest) (idle : m.ls.frame c = none)
    (free : f.hold (some p) = none)
    (delta : d.frames = f' :: rest ∧ d.spawn = none ∧ d.call = some call ∧ d.cpuProc = none)
    (frame : f'.call c (some p) = some call ∧ f'.hold (some p) = some ⟨p, true, some st, .call⟩ ∧
      f'.reserves = none)
    (adds : ∃ l, call = .add l p)
    (writes : (d.pcb = none ∧ st = .RUNNING) ∨ ∃ q, d.pcb = some (p, q) ∧ q.state = st)
    (sits : f'.Sits (some p) rest) (locks : f.gaveUp = none ∧ f'.gaveUp = none ∧
      f.locks = [] ∧ f'.locks = []) (acquires : d.op = .acquire (.proc p))
    (locked : m.lockAfter c d.op = some owner) : Fits m c d owner := by
  obtain ⟨state, off⟩ := inv.runs top (by rw [here, free]; simp) p here
  obtain ⟨l, rfl⟩ := adds
  suffices calls : Calls m c rest d f' p true st (.add l p) from calls.fits inv top locked
  constructor
  case delta => exact ⟨delta.1, delta.2.1, delta.2.2.1⟩
  case frame =>
    rw [here]
    exact frame
  case concerns => rfl
  case writes =>
    rcases writes with ⟨none, rfl⟩ | wrote
    · exact .inl ⟨none, state⟩
    · exact .inr wrote
  case idle => exact idle
  case place => exact off
  case sits =>
    rw [here]
    exact sits
  case moves =>
    refine moves_replace top locks.1 locks.2.1 ?_
    rw [acquires, here, Frame.own, Frame.own, free, frame.2.1, locks.2.2.1, locks.2.2.2]
    exact List.Perm.refl _
  case lock => exact .inr acquires
  case keeps =>
    rw [acquires]
    simp
  case away => simp
  case runs => simp
  case thread => exact .inl here
  case used => exact .inl (by rw [state]; simp)
  case cpu =>
    rw [here]
    exact delta.2.2.2

theorem Inv.sleep_set {events : List Event} (inv : m.Inv) (here : m.cur c = some p)
    (top : m.frames c = .sleepAdd chan lk :: rest) (idle : m.ls.frame c = none) :
    Fits m c { op := .release lk, events := events, frames := .sleepSet chan lk :: rest } owner := by
  have ok := inv.topOk top
  have known := ok.hold ⟨p, true, some .RUNNING, .call⟩ (by rw [here]; rfl)
  have listed : (ListCall.add .sleepingList p).Post m.ls.contents :=
    inv.post top idle (by rw [here]; rfl)
  have sits : heldBy (m.cur c) rest = [lk] := inv.sits top
  suffices still : Still m c (.sleepAdd chan lk) rest _ (.sleepSet chan lk) rest from
    still.fits inv top
  constructor
  case frames => rfl
  case pcb => simp
  case spawn => rfl
  case cpuProc => rfl
  case shape => exact inv.shape_replace top sits
  case moves =>
    rw [held_cons top rfl, heldBy]
    simp only [Frame.gaveUp]
    rw [sits, List.erase_cons_head, here]
    exact List.Perm.swap _ _ _
  case calls => exact .inl ⟨rfl, idle⟩
  case hold =>
    rw [here]
    rintro h ⟨⟩
    exact ⟨known.state, (by simp), fun _ => listed, (by simp), (by simp)⟩
  case runs =>
    rw [here]
    exact fun p' _ other => absurd (other _ rfl) (by simp)
  case released =>
    -- The caller holds no `p->lock`.
    rintro i ⟨⟩
    refine absurd ?_ (proc_notMem_heldBy (inv.shape_rest top).1 i)
    rw [sits]
    exact List.mem_singleton.mpr rfl
  case reserves =>
    exact fun g member np found => ⟨g, List.mem_cons_of_mem _ (mem_rest_of_reserves rfl member found), found⟩
  case bottom => simp [here]

theorem Inv.sleep_switch (inv : m.Inv) (here : m.cur c = some p)
    (top : m.frames c = .sleepSet chan lk :: rest) (idle : m.ls.frame c = none) :
    Fits m c { pcb := some (p, { m.pcb p with chan := chan, state := .SLEEPING })
               frames := .sleepSwitch chan lk :: rest } owner := by
  have ok := inv.topOk top
  have holds : Frame.hold (m.cur c) (.sleepSet chan lk) =
      some ⟨p, true, some .RUNNING, .sleeping⟩ := by
    rw [here]
    rfl
  have known := ok.hold _ holds
  have state : (m.pcb p).state = .RUNNING := known.state _ rfl
  have listed := known.sleeping rfl
  have sits : heldBy (m.cur c) rest = [lk] := inv.sits top
  constructor
  case shape => exact inv.shape_replace top sits
  case moves =>
    rw [held, top]
    simp only [heldBy, Frame.gaveUp, Frame.own, Frame.hold, Frame.locks, here]
    exact List.Perm.refl _
  case top =>
    refine ⟨_, _, rfl, ?_, ?_, ?_⟩
    · exact inCall_apply rfl idle
    · rw [apply_cur, here]
      rintro h ⟨⟩
      refine ⟨?_, fun _ => ?_, (by simp), (by simp), (by simp)⟩
      · rintro _ ⟨⟩
        simp [setAt]
      · simp only [Home, apply_pcb, setAt, update_self, apply_contents]
        exact listed
    · rw [apply_cur, here]
      exact fun p' _ other => absurd (other _ rfl) (by simp)
  case calls => simp
  case writes =>
    rintro i q ⟨⟩
    exact .inr ⟨.inl (inv.owner_of_hold top holds), .inl here⟩
  case released => simp
  case wakes =>
    rintro i q ⟨⟩ away
    exact absurd here (away c)
  case spawns => simp
  case used =>
    rintro i q ⟨⟩ used
    rw [state] at used
    cases used
  case reserves => exact fun p' np here' found => .inl (reserves_replace here' top rfl found)
  case cpu => rw [here]

theorem Inv.sleep_relock (inv : m.Inv) (here : m.cur c = some p)
    (top : m.frames c = .sleepResume lk :: rest) (idle : m.ls.frame c = none) :
    Fits m c { op := .release (.proc p), pcb := some (p, { m.pcb p with chan := .null })
               frames := .sleepRelock lk :: rest } owner := by
  have ok := inv.topOk top
  have holds : Frame.hold (m.cur c) (.sleepResume lk) = some ⟨p, true, some .RUNNING, .home⟩ := by
    rw [here]
    rfl
  have known := ok.hold _ holds
  obtain ⟨state, off⟩ := running_of_hold known
  have sits : heldBy (m.cur c) rest = [lk] := inv.sits top
  constructor
  case shape => exact inv.shape_replace top sits
  case moves =>
    rw [held, top]
    simp only [heldBy, Frame.gaveUp, Frame.own, Frame.hold, Frame.locks, here]
    exact List.Perm.refl _
  case top =>
    refine ⟨_, _, rfl, inCall_apply rfl idle, (by rintro _ ⟨⟩), ?_⟩
    intro p' here' _
    rw [apply_cur, here] at here'
    cases here'
    rw [off_apply, apply_pcb]
    simp only [setAt, update_self]
    exact ⟨state, off⟩
  case calls => simp
  case writes =>
    rintro i q ⟨⟩
    exact .inr ⟨.inl (inv.owner_of_hold top holds), .inl here⟩
  case released =>
    rintro i ⟨⟩
    simp only [Home, apply_pcb, setAt, update_self, state]
    exact off_apply.mpr off
  case wakes =>
    rintro i q ⟨⟩ away
    exact absurd here (away c)
  case spawns => simp
  case used =>
    rintro i q ⟨⟩ used
    rw [state] at used
    cases used
  case reserves => exact fun p' np here' found => .inl (reserves_replace here' top rfl found)
  case cpu => rw [here]

theorem Inv.sleep_fits (inv : m.Inv) (here : m.cur c = some p) (top : m.frames c = f :: rest)
    (idle : f.looks = false → m.ls.frame c = none)
    (moved : m.sleepCode p rest f = some (.act d)) (locked : m.lockAfter c d.op = some owner) :
    Fits m c d owner := by
  have ok := inv.topOk top
  cases f with
  | sleepStart chan lk =>
    have sits : heldBy (m.cur c) rest = [lk] := inv.sits top
    rw [here] at sits
    cases moved
    exact inv.self_calls here top (idle rfl) rfl ⟨rfl, rfl, rfl, rfl⟩ ⟨rfl, rfl, rfl⟩ ⟨_, rfl⟩
      (.inl ⟨rfl, rfl⟩) sits ⟨rfl, rfl, rfl, rfl⟩ rfl locked
  | sleepAdd chan lk =>
    cases moved
    exact inv.sleep_set here top (idle rfl)
  | sleepSet chan lk =>
    cases moved
    exact inv.sleep_switch here top (idle rfl)
  | sleepSwitch chan lk => cases moved
  | sleepResume lk =>
    cases moved
    exact inv.sleep_relock here top (idle rfl)
  | sleepRelock lk =>
    have sits : heldBy (m.cur c) rest = [lk] := inv.sits top
    have more : rest ≠ [] := by
      rintro rfl
      cases sits
    cases moved
    refine inv.pops top more rfl ⟨rfl, rfl, rfl, rfl⟩ ?_ (idle rfl)
      (fun p' here' => ok.runs p' here' (by rintro _ ⟨⟩)) (by simp)
    rw [held, top, sits]
    simp only [heldBy, Frame.gaveUp, Frame.own, Frame.hold, Frame.locks, sits]
    simp [KOp.Moves]
  | yieldStart =>
    obtain ⟨more, sits⟩ : rest ≠ [] ∧ heldBy (m.cur c) rest = [] := inv.sits top
    rw [here] at sits
    obtain ⟨t, _, moved⟩ := Option.bind_eq_some_iff.mp moved
    cases moved
    exact inv.self_calls here top (idle rfl) rfl ⟨rfl, rfl, rfl, rfl⟩ ⟨rfl, rfl, rfl⟩ ⟨_, rfl⟩
      (.inr ⟨_, rfl, rfl⟩) ⟨more, sits⟩ ⟨rfl, rfl, rfl, rfl⟩ rfl locked
  | yieldAdd t => cases moved
  | yieldResume =>
    obtain ⟨more, sits⟩ : rest ≠ [] ∧ heldBy (m.cur c) rest = [] := inv.sits top
    cases moved
    have known := ok.hold ⟨p, true, some .RUNNING, .home⟩ (by rw [here]; rfl)
    refine inv.pops top more rfl ⟨rfl, rfl, rfl, rfl⟩ ?_ (idle rfl) ?_ ?_
    · rw [held_cons top rfl, here]
      exact List.Perm.refl _
    · intro p' here'
      rw [here] at here'
      cases here'
      exact running_of_hold known
    · rintro i ⟨⟩
      exact known.home rfl
  | forkret =>
    cases moved
    have known := ok.hold ⟨p, true, some .RUNNING, .home⟩ (by rw [here]; rfl)
    refine inv.goes (.code []) top ⟨rfl, by simp, rfl, rfl, rfl⟩ trivial rfl rfl ?_ (idle rfl) (by rintro _ ⟨⟩)
      ?_ ?_ (.inl rfl) (by simp [here])
    · rw [here]
      exact List.Perm.refl _
    · intro p' here' _
      rw [here] at here'
      cases here'
      exact running_of_hold known
    · rintro i ⟨⟩
      exact known.home rfl
  | _ => cases moved

theorem Inv.takes (inv : m.Inv) (top : m.frames c = f :: rest)
    (idle : m.ls.frame c = none) (free : f.hold (m.cur c) = none)
    (asleep : (m.pcb q).state = .SLEEPING)
    (delta : d.frames = f' :: rest ∧ d.spawn = none ∧ d.call = some (.remove .sleepingList q) ∧
      d.cpuProc = none)
    (frame : f'.call c (m.cur c) = some (.remove .sleepingList q) ∧
      f'.hold (m.cur c) = some ⟨q, false, some st, .call⟩ ∧ f'.reserves = none)
    (writes : ∃ q', d.pcb = some (q, q') ∧ q'.state = st)
    (sits : f'.Sits (m.cur c) rest) (locks : f.gaveUp = none ∧ f'.gaveUp = none ∧
      f.locks = [] ∧ f'.locks = []) (acquires : d.op = .acquire (.proc q))
    (thread : m.cur c ≠ none ∨ rest ≠ []) (locked : m.lockAfter c d.op = some owner) :
    Fits m c d owner := by
  have open_ : m.owner (.proc q) = none := by
    rw [acquires] at locked
    exact (lockAfter_acquire locked).1
  have listed : q ∈ m.ls.contents .sleepingList := by
    have home := inv.rest q open_
    unfold Home at home
    rwa [asleep] at home
  suffices calls : Calls m c rest d f' q false st (.remove .sleepingList q) from
    calls.fits inv top locked
  constructor
  case delta => exact ⟨delta.1, delta.2.1, delta.2.2.1⟩
  case frame => exact frame
  case concerns => rfl
  case writes => exact .inr writes
  case idle => exact idle
  case place => exact listed
  case sits => exact sits
  case moves =>
    refine moves_replace top locks.1 locks.2.1 ?_
    rw [acquires, Frame.own, Frame.own, free, frame.2.1, locks.2.2.1, locks.2.2.2]
    exact List.Perm.refl _
  case lock => exact .inr acquires
  case keeps =>
    rw [acquires]
    simp
  case away => exact fun _ => inv.away_of_free top (by rw [free]; simp) open_ (by rw [asleep]; simp)
  case runs => exact fun p here _ => inv.runs top (by rw [free]; simp) p here
  case thread => exact .inr fun _ => .inr (.inl asleep)
  case used => exact .inl (by rw [asleep]; simp)
  case cpu =>
    cases here : m.cur c with
    | some p => exact delta.2.2.2
    | none => exact .inr ⟨thread.resolve_left (absurd here), delta.2.2.2⟩

theorem Inv.puts {t : Cpu} (inv : m.Inv)
    (top : m.frames c = f :: rest) (idle : m.ls.frame c = none)
    (before : f.call c (m.cur c) = some (.remove .sleepingList q) ∧
      f.hold (m.cur c) = some ⟨q, false, some st, .call⟩)
    (waits : st = .SLEEPING ∨ st = .RUNNABLE)
    (delta : d.frames = f' :: rest ∧ d.spawn = none ∧ d.call = some (.add (.runnable t) q) ∧
      d.cpuProc = none)
    (frame : f'.call c (m.cur c) = some (.add (.runnable t) q) ∧
      f'.hold (m.cur c) = some ⟨q, false, some .RUNNABLE, .call⟩ ∧ f'.reserves = none)
    (writes : ∃ q', d.pcb = some (q, q') ∧ q'.state = .RUNNABLE)
    (sits : f'.Sits (m.cur c) rest) (locks : f.gaveUp = none ∧ f'.gaveUp = none ∧
      f.locks = [] ∧ f'.locks = []) (skips : d.op = .skip)
    (thread : m.cur c ≠ none ∨ rest ≠ []) (locked : m.lockAfter c d.op = some owner) :
    Fits m c d owner := by
  have ok := inv.topOk top
  have known := ok.hold _ before.2
  have state : (m.pcb q).state = st := known.state st rfl
  have off : (ListCall.remove .sleepingList q).Post m.ls.contents := inv.post top idle before.1
  suffices calls : Calls m c rest d f' q false .RUNNABLE (.add (.runnable t) q) from
    calls.fits inv top locked
  constructor
  case delta => exact ⟨delta.1, delta.2.1, delta.2.2.1⟩
  case frame => exact frame
  case concerns => rfl
  case writes => exact .inr writes
  case idle => exact idle
  case place => exact off
  case sits => exact sits
  case moves =>
    refine moves_replace top locks.1 locks.2.1 ?_
    rw [skips, Frame.own, Frame.own, before.2, frame.2.1, locks.2.2.1, locks.2.2.2]
    exact List.Perm.refl _
  case lock => exact .inl (inv.owner_of_hold top before.2)
  case keeps =>
    rw [skips]
    simp
  case away => exact fun _ => known.away rfl (by simp)
  case runs =>
    intro p here _
    refine ok.runs p here ?_
    rw [before.2]
    rintro h ⟨⟩
    rfl
  case thread =>
    refine .inr fun _ => ?_
    rw [state]
    exact waits.elim (fun same => .inr (.inl same)) .inl
  case used =>
    rw [state]
    rcases waits with rfl | rfl <;> exact .inl (by simp)
  case cpu =>
    cases here : m.cur c with
    | some p => exact delta.2.2.2
    | none => exact .inr ⟨thread.resolve_left (absurd here), delta.2.2.2⟩

theorem Inv.visits (inv : m.Inv) (top : m.frames c = f :: rest)
    (idle : m.ls.frame c = none) (free : f.hold (m.cur c) = none)
    (plain : d.Plain m f' rest) (frame : f'.call c (m.cur c) = none ∧
      f'.hold (m.cur c) = some ⟨q, false, none, .home⟩ ∧ f'.reserves = none)
    (sits : f'.Sits (m.cur c) rest) (locks : f.gaveUp = none ∧ f'.gaveUp = none ∧
      f.locks = [] ∧ f'.locks = []) (acquires : d.op = .acquire (.proc q))
    (bottom : m.cur c = none → rest = [] → f'.running = f.running)
    (locked : m.lockAfter c d.op = some owner) : Fits m c d owner := by
  have open_ : m.owner (.proc q) = none := by
    rw [acquires] at locked
    exact (lockAfter_acquire locked).1
  refine inv.goes f' top plain sits locks.1 locks.2.1 ?moves ?waits ?hold
    (fun p here _ => inv.runs top (by rw [free]; simp) p here) ?released (.inl frame.2.2) bottom
  case moves =>
    rw [acquires, Frame.own, Frame.own, free, frame.2.1, locks.2.2.1, locks.2.2.2]
    exact List.Perm.refl _
  case waits =>
    rw [frame.1]
    exact idle
  case hold =>
    rw [frame.2.1]
    rintro h ⟨⟩
    exact inv.hold_visit open_
  case released =>
    rw [acquires]
    simp

theorem Inv.lets {h : Hold} (inv : m.Inv) (top : m.frames c = f :: rest)
    (idle : m.ls.frame c = none) (holds : f.hold (m.cur c) = some h ∧ h.mine = false)
    (home : m.Home h.slot) (plain : d.Plain m f' rest) (frame : f'.call c (m.cur c) = none ∧
      f'.hold (m.cur c) = none ∧ f'.reserves = none)
    (sits : f'.Sits (m.cur c) rest) (locks : f.gaveUp = none ∧ f'.gaveUp = none ∧
      f.locks = [] ∧ f'.locks = []) (releases : d.op = .release (.proc h.slot))
    (bottom : m.cur c = none → rest = [] → f'.running = f.running) : Fits m c d owner := by
  have ok := inv.topOk top
  refine inv.goes f' top plain sits locks.1 locks.2.1 ?moves ?waits ?hold ?runs ?released
    (.inl frame.2.2) bottom
  case moves =>
    rw [releases, Frame.own, Frame.own, holds.1, frame.2.1, locks.2.2.1, locks.2.2.2]
    exact List.Perm.refl _
  case waits =>
    rw [frame.1]
    exact idle
  case hold =>
    rw [frame.2.1]
    simp
  case runs =>
    intro p here _
    refine ok.runs p here ?_
    rw [holds.1]
    rintro h' ⟨⟩
    exact holds.2
  case released =>
    rw [releases]
    rintro i ⟨⟩
    exact home

theorem Inv.home_put {t : Cpu} (inv : m.Inv) (top : m.frames c = f :: rest)
    (idle : m.ls.frame c = none) (calls : f.call c (m.cur c) = some (.add (.runnable t) q))
    (holds : f.hold (m.cur c) = some ⟨q, false, some .RUNNABLE, .call⟩) : m.Home q := by
  have state : (m.pcb q).state = .RUNNABLE := ((inv.topOk top).hold _ holds).state _ rfl
  have listed : (ListCall.add (.runnable t) q).Post m.ls.contents := inv.post top idle calls
  unfold Home
  rw [state]
  exact ⟨t, listed⟩

theorem Inv.kill_fits (inv : m.Inv) (here : m.cur c = some p) (top : m.frames c = f :: rest)
    (idle : f.looks = false → m.ls.frame c = none)
    (moved : m.killCode rest f = some (.act d)) (locked : m.lockAfter c d.op = some owner) :
    Fits m c d owner := by
  have ok := inv.topOk top
  have thread : m.cur c ≠ none ∨ rest ≠ [] := .inl (by rw [here]; nofun)
  have notSched : ∀ {f' : Frame}, m.cur c = none → rest = [] → f'.running = f.running := by
    simp [here]
  cases f with
  | killLoop pid todo =>
    have bottom : rest = [] := inv.sits top
    cases todo with
    | nil =>
      cases moved
      exact inv.goes (.code []) top ⟨rfl, nofun, rfl, rfl, rfl⟩ trivial rfl rfl
        (List.Perm.refl _) (idle rfl) nofun ok.runs nofun (.inl rfl) notSched
    | cons q todo =>
      simp only [killCode] at moved
      split_ifs at moved with found asleep
      · cases moved
        exact inv.takes top (idle rfl) rfl asleep ⟨rfl, rfl, rfl, rfl⟩ ⟨rfl, rfl, rfl⟩
          ⟨_, rfl, asleep⟩ bottom ⟨rfl, rfl, rfl, rfl⟩ rfl thread locked
      · cases moved
        refine inv.visits top (idle rfl) rfl ⟨rfl, ?_, rfl, rfl, rfl⟩ ⟨rfl, rfl, rfl⟩ bottom
          ⟨rfl, rfl, rfl, rfl⟩ rfl notSched locked
        rintro i q' ⟨⟩
        exact ⟨rfl, rfl, rfl, rfl⟩
      · cases moved
        exact inv.visits top (idle rfl) rfl ⟨rfl, nofun, rfl, rfl, rfl⟩ ⟨rfl, rfl, rfl⟩ bottom
          ⟨rfl, rfl, rfl, rfl⟩ rfl notSched locked
  | killSkip pid q todo =>
    have bottom : rest = [] := inv.sits top
    cases moved
    exact inv.lets top (idle rfl) ⟨rfl, rfl⟩ ((ok.hold _ rfl).home rfl) ⟨rfl, nofun, rfl, rfl, rfl⟩
      ⟨rfl, rfl, rfl⟩ bottom ⟨rfl, rfl, rfl, rfl⟩ rfl notSched
  | killRemove q =>
    have bottom : rest = [] := inv.sits top
    obtain ⟨t, _, moved⟩ := Option.bind_eq_some_iff.mp moved
    cases moved
    exact inv.puts top (idle rfl) ⟨rfl, rfl⟩ (.inl rfl) ⟨rfl, rfl, rfl, rfl⟩ ⟨rfl, rfl, rfl⟩
      ⟨_, rfl, rfl⟩ bottom ⟨rfl, rfl, rfl, rfl⟩ rfl thread locked
  | killAdd q t =>
    cases moved
    exact inv.lets top (idle rfl) ⟨rfl, rfl⟩ (inv.home_put top (idle rfl) rfl rfl)
      ⟨rfl, nofun, rfl, rfl, rfl⟩ ⟨rfl, rfl, rfl⟩ trivial ⟨rfl, rfl, rfl, rfl⟩ rfl notSched
  | killDone q =>
    cases moved
    exact inv.lets top (idle rfl) ⟨rfl, rfl⟩ ((ok.hold _ rfl).home rfl) ⟨rfl, nofun, rfl, rfl, rfl⟩
      ⟨rfl, rfl, rfl⟩ trivial ⟨rfl, rfl, rfl, rfl⟩ rfl notSched
  | _ => cases moved

theorem Inv.wake_fits (inv : m.Inv) (top : m.frames c = f :: rest)
    (idle : f.looks = false → m.ls.frame c = none)
    (moved : m.wakeCode blncflg c rest f = some (.act d))
    (locked : m.lockAfter c d.op = some owner) : Fits m c d owner := by
  have ok := inv.topOk top
  cases f with
  | wakeLoop n chan todo =>
    have more : rest ≠ [] := inv.sits top
    cases todo with
    | nil =>
      cases moved
      refine inv.pops top more rfl ⟨rfl, rfl, rfl, rfl⟩ ?_ (idle rfl)
        (fun p here => ok.runs p here nofun) nofun
      rw [held_cons top rfl]
      exact List.Perm.refl _
    | cons q todo =>
      simp only [wakeCode] at moved
      split_ifs at moved with self asleep
      · cases moved
        exact inv.goes (.wakeLoop n chan todo) top ⟨rfl, nofun, rfl, rfl, rfl⟩ more rfl rfl
          (List.Perm.refl _) (idle rfl) nofun ok.runs nofun (.inl rfl) (fun _ _ => rfl)
      · cases moved
        exact inv.takes top (idle rfl) rfl asleep.1 ⟨rfl, rfl, rfl, rfl⟩ ⟨rfl, rfl, rfl⟩
          ⟨_, rfl, rfl⟩ more ⟨rfl, rfl, rfl, rfl⟩ rfl (.inr more) locked
      · cases moved
        exact inv.visits top (idle rfl) rfl ⟨rfl, nofun, rfl, rfl, rfl⟩ ⟨rfl, rfl, rfl⟩ more
          ⟨rfl, rfl, rfl, rfl⟩ rfl (fun _ _ => rfl) locked
  | wakeRemove n chan q todo =>
    have more : rest ≠ [] := inv.sits top
    have state : (m.pcb q).state = .RUNNABLE := (ok.hold _ rfl).state _ rfl
    obtain ⟨t, _, moved⟩ := Option.bind_eq_some_iff.mp moved
    cases moved
    refine inv.puts top (idle rfl) ⟨rfl, rfl⟩ (.inr rfl) ⟨rfl, rfl, rfl, rfl⟩ ⟨rfl, rfl, rfl⟩
      ⟨_, rfl, ?_⟩ more ⟨rfl, rfl, rfl, rfl⟩ rfl (.inr more) locked
    rw [placed]
    split <;> exact state
  | wakeAdd n chan q t todo =>
    have more : rest ≠ [] := inv.sits top
    cases moved
    exact inv.lets top (idle rfl) ⟨rfl, rfl⟩ (inv.home_put top (idle rfl) rfl rfl)
      ⟨rfl, nofun, rfl, rfl, rfl⟩ ⟨rfl, rfl, rfl⟩ more ⟨rfl, rfl, rfl, rfl⟩ rfl (fun _ _ => rfl)
  | wakeSkip n chan q todo =>
    have more : rest ≠ [] := inv.sits top
    cases moved
    exact inv.lets top (idle rfl) ⟨rfl, rfl⟩ ((ok.hold _ rfl).home rfl) ⟨rfl, nofun, rfl, rfl, rfl⟩
      ⟨rfl, rfl, rfl⟩ more ⟨rfl, rfl, rfl, rfl⟩ rfl (fun _ _ => rfl)
  | _ => cases moved

end Machine

end OsbKernel
