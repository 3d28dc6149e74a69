import OsbKernel.Smp.Moves

/-!
# The steps of exit and wait

`exit` holds `wait_lock` from the first child it hands to init until it is on `zombieList`; `wait`
holds it while it looks for a zombie, and frees the zombie with its lock held throughout.
-/

namespace OsbKernel

open Function
open scoped List

namespace Machine

variable {m : Machine} {c : Cpu} {f : Frame} {rest : List Frame} {d : Delta} {act : Act}
  {owner : KLock → Option Cpu} {p np : Slot} {pid status : Int}

theorem Inv.exit_add (inv : m.Inv) (here : m.cur c = some p)
    (top : m.frames c = .exitLock status :: rest) (idle : m.ls.frame c = none)
    (locked : m.lockAfter c (.acquire (.proc p)) = some owner) :
    Fits m c { op := .acquire (.proc p)
               pcb := some (p, { m.pcb p with xstate := status, state := .ZOMBIE })
               call := some (.add .zombieList p), frames := .exitAdd :: rest } owner := by
  have bottom : rest = [] := inv.sits top
  obtain ⟨state, off⟩ := inv.runs top nofun p here
  suffices calls : Calls m c rest _ .exitAdd p true .ZOMBIE (.add .zombieList p) from
    calls.fits inv top locked
  constructor
  case delta => exact ⟨rfl, rfl, rfl⟩
  case frame =>
    rw [here]
    exact ⟨rfl, rfl, rfl⟩
  case concerns => rfl
  case writes => exact .inr ⟨_, rfl, rfl⟩
  case idle => exact idle
  case place => exact off
  case sits => exact bottom
  case moves =>
    refine moves_replace top rfl rfl ?_
    rw [here]
    exact List.Perm.refl _
  case lock => exact .inr rfl
  case keeps => nofun
  case away => nofun
  case runs => nofun
  case thread => exact .inl here
  case used => exact .inl (by rw [state]; nofun)
  case cpu => rw [here]

theorem Inv.exit_fits (inv : m.Inv) (here : m.cur c = some p) (top : m.frames c = f :: rest)
    (idle : f.looks = false → m.ls.frame c = none)
    (moved : m.exitCode p rest f = some (.act d)) (locked : m.lockAfter c d.op = some owner) :
    Fits m c d owner := by
  have ok := inv.topOk top
  have notSched : ∀ {f' : Frame}, m.cur c = none → rest = [] → f'.running = f.running := by
    simp [here]
  have fresh : ∀ {chan}, (m.wakeupFrame chan).Fresh :=
    ⟨fun _ => rfl, fun _ _ => rfl, rfl, rfl, rfl⟩
  cases f with
  | exitStart status =>
    have bottom : rest = [] := inv.sits top
    cases moved
    exact inv.goes (.exitReparent status allSlots) top ⟨rfl, nofun, rfl, rfl, rfl⟩ bottom rfl rfl
      (List.Perm.refl _) (idle rfl) nofun ok.runs nofun (.inl rfl) notSched
  | exitReparent status todo =>
    have bottom : rest = [] := inv.sits top
    cases todo with
    | nil =>
      cases moved
      exact inv.pushes (.exitLock status) (m.wakeupFrame (Chan.ofProc (m.parent p))) top
        ⟨rfl, nofun, rfl, rfl, rfl⟩ rfl fresh bottom nofun (idle rfl) rfl rfl
        (same_locks top rfl rfl rfl) (.inl rfl) notSched
    | cons q todo =>
      simp only [exitCode] at moved
      split at moved
      · cases moved
        exact inv.pushes (.exitReparent status todo) (m.wakeupFrame (Chan.ofProc m.initproc)) top
          ⟨rfl, nofun, rfl, rfl, rfl⟩ rfl fresh bottom nofun (idle rfl) rfl rfl
          (same_locks top rfl rfl rfl) (.inl rfl) notSched
      · cases moved
        exact inv.goes (.exitReparent status todo) top ⟨rfl, nofun, rfl, rfl, rfl⟩ bottom rfl rfl
          (List.Perm.refl _) (idle rfl) nofun ok.runs nofun (.inl rfl) notSched
  | exitLock status =>
    cases moved
    exact inv.exit_add here top (idle rfl) locked
  | exitAdd =>
    have bottom : rest = [] := inv.sits top
    cases moved
    have known := ok.hold ⟨p, true, some .ZOMBIE, .call⟩ (by rw [here]; rfl)
    have state : (m.pcb p).state = .ZOMBIE := known.state _ rfl
    have listed : (ListCall.add .zombieList p).Post m.ls.contents :=
      inv.post top (idle rfl) (by rw [here]; rfl)
    refine inv.goes .exitSwitch top ⟨rfl, nofun, rfl, rfl, rfl⟩ bottom rfl rfl ?moves
      (idle rfl) ?hold ?runs nofun (.inl rfl) notSched
    case moves =>
      rw [here]
      exact List.Perm.swap _ _ _
    case hold =>
      rw [here]
      rintro h ⟨⟩
      refine ⟨known.state, fun _ => ?_, nofun, nofun, nofun⟩
      unfold Home
      rw [state]
      exact listed
    case runs =>
      rw [here]
      exact fun p' _ other => absurd (other _ rfl) (by simp)
  | _ => cases moved

theorem Inv.wait_remove {addr : Nat} {todo : List Slot} {havekids : Bool} (inv : m.Inv)
    (here : m.cur c = some p) (top : m.frames c = .waitScan addr (np :: todo) havekids :: rest)
    (idle : m.ls.frame c = none) (zombie : (m.pcb np).state = .ZOMBIE)
    (locked : m.lockAfter c (.acquire (.proc np)) = some owner) :
    Fits m c { op := .acquire (.proc np), call := some (.remove .zombieList np)
               frames := .waitRemove np pid status :: rest } owner := by
  have bottom : rest = [] := inv.sits top
  have free := (lockAfter_acquire locked).1
  have listed : np ∈ m.ls.contents .zombieList := by
    have home := inv.rest np free
    unfold Home at home
    rwa [zombie] at home
  suffices calls : Calls m c rest _ (.waitRemove np pid status) np false .ZOMBIE
    (.remove .zombieList np) from calls.fits inv top locked
  constructor
  case delta => exact ⟨rfl, rfl, rfl⟩
  case frame => exact ⟨rfl, rfl, rfl⟩
  case concerns => rfl
  case writes => exact .inl ⟨rfl, zombie⟩
  case idle => exact idle
  case place => exact listed
  case sits => exact bottom
  case moves => exact moves_replace top rfl rfl (List.Perm.refl _)
  case lock => exact .inr rfl
  case keeps => nofun
  case away => exact fun _ => inv.away_of_free top nofun free (by rw [zombie]; nofun)
  case runs => exact fun p' here' _ => inv.runs top nofun p' here'
  case thread => exact .inr fun waits => by rcases waits with h | h | h | h <;> cases h
  case used => exact .inl (by rw [zombie]; nofun)
  case cpu => rw [here]

theorem Inv.wait_add {q : Pcb} {parent : Option (Slot × Option Slot)} (inv : m.Inv)
    (here : m.cur c = some p) (top : m.frames c = .waitRemove np pid status :: rest)
    (idle : m.ls.frame c = none) (cleared : q.state = .UNUSED)
    (locked : m.lockAfter c .skip = some owner) :
    Fits m c { pcb := some (np, q), parent := parent, call := some (.add .unusedList np)
               frames := .waitAdd np pid status :: rest } owner := by
  have bottom : rest = [] := inv.sits top
  have ok := inv.topOk top
  have known := ok.hold _ rfl
  have zombie : (m.pcb np).state = .ZOMBIE := known.state _ rfl
  suffices calls : Calls m c rest _ (.waitAdd np pid status) np false .UNUSED
    (.add .unusedList np) from calls.fits inv top locked
  constructor
  case delta => exact ⟨rfl, rfl, rfl⟩
  case frame => exact ⟨rfl, rfl, rfl⟩
  case concerns => rfl
  case writes => exact .inr ⟨_, rfl, cleared⟩
  case idle => exact idle
  case place => exact inv.post top idle rfl
  case sits => exact bottom
  case moves => exact moves_replace top rfl rfl (List.Perm.refl _)
  case lock => exact .inl (inv.owner_of_hold top rfl)
  case keeps => nofun
  case away => exact fun _ => known.away rfl nofun
  case runs => exact fun p' here' _ => ok.runs p' here' (by rintro h ⟨⟩; rfl)
  case thread => exact .inr fun waits => by rcases waits with h | h | h | h <;> cases h
  case used => exact .inl (by rw [zombie]; nofun)
  case cpu => rw [here]

theorem Inv.wait_fits (inv : m.Inv) (here : m.cur c = some p) (top : m.frames c = f :: rest)
    (idle : f.looks = false → m.ls.frame c = none)
    (moved : m.waitCode p rest act f = some (.act d)) (locked : m.lockAfter c d.op = some owner) :
    Fits m c d owner := by
  have ok := inv.topOk top
  have notSched : ∀ {f' : Frame}, m.cur c = none → rest = [] → f'.running = f.running := by
    simp [here]
  cases f with
  | waitStart addr =>
    have bottom : rest = [] := inv.sits top
    cases moved
    exact inv.goes (.waitScan addr allSlots false) top ⟨rfl, nofun, rfl, rfl, rfl⟩ bottom rfl rfl
      (List.Perm.refl _) (idle rfl) nofun ok.runs nofun (.inl rfl) notSched
  | waitScan addr todo havekids =>
    have bottom : rest = [] := inv.sits top
    cases todo with
    | nil =>
      simp only [waitCode] at moved
      split at moved
      · cases moved
        exact inv.goes (.code []) top ⟨rfl, nofun, rfl, rfl, rfl⟩ trivial rfl rfl
          (List.Perm.refl _) (idle rfl) nofun ok.runs nofun (.inl rfl) notSched
      · cases moved
        subst bottom
        exact inv.pushes (.waitScan addr allSlots false) (.sleepStart (.proc p) .waitLock) top
          ⟨rfl, nofun, rfl, rfl, rfl⟩ rfl ⟨fun _ => rfl, fun _ _ => rfl, rfl, rfl, rfl⟩
          (show [] = [] from rfl) (show heldBy _ _ = _ from rfl) (idle rfl) rfl rfl
          (same_locks top rfl rfl rfl) (.inl rfl) notSched
    | cons np todo =>
      simp only [waitCode] at moved
      split at moved
      · split at moved
        · rename_i zombie
          split at moved
          · cases moved
            have free := (lockAfter_acquire locked).1
            refine inv.goes (.waitFail np) top ⟨rfl, nofun, rfl, rfl, rfl⟩ bottom rfl rfl
              (List.Perm.refl _) (idle rfl) ?_ (fun p' here' _ => ok.runs p' here' nofun)
              nofun (.inl rfl) notSched
            rintro h ⟨⟩
            refine ⟨?_, fun _ => inv.rest np free, nofun, nofun, fun _ _ => ?_⟩
            · rintro _ ⟨⟩
              exact zombie
            · exact inv.away_of_free top nofun free (by rw [zombie]; nofun)
          · cases moved
            exact inv.wait_remove here top (idle rfl) zombie locked
        · cases moved
          refine inv.goes (.waitSkip addr np todo) top ⟨rfl, nofun, rfl, rfl, rfl⟩ bottom rfl rfl
            (List.Perm.refl _) (idle rfl) ?_ (fun p' here' _ => ok.runs p' here' nofun)
            nofun (.inl rfl) notSched
          rintro h ⟨⟩
          exact inv.hold_visit (lockAfter_acquire locked).1
      · cases moved
        exact inv.goes (.waitScan addr todo havekids) top ⟨rfl, nofun, rfl, rfl, rfl⟩ bottom rfl
          rfl (List.Perm.refl _) (idle rfl) nofun ok.runs nofun (.inl rfl) notSched
  | waitSkip addr np todo =>
    have bottom : rest = [] := inv.sits top
    cases moved
    refine inv.goes (.waitScan addr todo true) top ⟨rfl, nofun, rfl, rfl, rfl⟩ bottom rfl rfl
      (List.Perm.refl _) (idle rfl) nofun
      (fun p' here' _ => ok.runs p' here' (by rintro h ⟨⟩; rfl)) ?_ (.inl rfl) notSched
    rintro i ⟨⟩
    exact (ok.hold _ rfl).home rfl
  | waitFail np =>
    have bottom : rest = [] := inv.sits top
    cases moved
    refine inv.goes (.waitFailed np) top ⟨rfl, nofun, rfl, rfl, rfl⟩ bottom rfl rfl
      (List.Perm.refl _) (idle rfl) nofun
      (fun p' here' _ => ok.runs p' here' (by rintro h ⟨⟩; rfl)) ?_ (.inl rfl) notSched
    rintro i ⟨⟩
    exact (ok.hold _ rfl).home rfl
  | waitFailed np | waitDone np pid status =>
    cases moved
    exact inv.goes (.code []) top ⟨rfl, nofun, rfl, rfl, rfl⟩ trivial rfl rfl
      (List.Perm.refl _) (idle rfl) nofun ok.runs nofun (.inl rfl) notSched
  | waitRemove np pid status =>
    cases moved
    exact inv.wait_add here top (idle rfl) rfl locked
  | waitAdd np pid status =>
    have bottom : rest = [] := inv.sits top
    cases moved
    have known := ok.hold _ rfl
    have state : (m.pcb np).state = .UNUSED := known.state _ rfl
    have listed : np ∈ m.ls.contents .unusedList := inv.post top (idle rfl) rfl
    refine inv.goes (.waitDone np pid status) top ⟨rfl, nofun, rfl, rfl, rfl⟩ bottom rfl rfl
      (List.Perm.refl _) (idle rfl) nofun
      (fun p' here' _ => ok.runs p' here' (by rintro h ⟨⟩; rfl)) ?_ (.inl rfl) notSched
    rintro i ⟨⟩
    unfold Home
    rw [state]
    exact listed
  | _ => cases moved

end Machine

end OsbKernel
