import OsbKernel.Ipc.Pipe

/-!
# Processes that sleep on a pipe

A process sleeps on `&pi->nread` only while the pipe is empty, and on `&pi->nwrite` only while it
is full: whoever changes that holds `pi->lock` and owes a `wakeup` before giving it back.
`pipewrite` leaves the debt unpaid when it finds its process killed after it has stored bytes.
-/

namespace OsbKernel.PipeMachine

open Function

variable {nproc : Nat}

/-- The process holds `pi->lock` there. -/
def Pc.holds : Pc nproc → Bool
  | pipewrite _ _ => true
  | piperead _ => true
  | copy _ _ => true
  | wakeup _ _ _ => true
  | sleepLock _ _ => true
  | sleepUnlock _ _ => true
  | release _ => true
  | _ => false

def Cond (s : State nproc) : Chan → Prop
  | .nread => s.nread = s.nwrite ∧ s.writeopen = true
  | .nwrite => s.nwrite = s.nread + BitVec.ofNat 32 PIPESIZE ∧ s.readopen = true

/-- The process is `SLEEPING` on the channel, or has released `pi->lock` and is about to be. -/
def Sleepy (s : State nproc) (p : Fin nproc) (c : Chan) : Prop :=
  s.asleep p = some c ∨ ∃ call, s.pc p = .sleepSet c call

/-- The owner of `pi->lock`, at the given place, will still call `wakeup` for `q`. -/
def Owes (s : State nproc) (q : Fin nproc) : Chan → Pc nproc → Prop
  | c, .wakeup c' todo _ => c' = c ∧ q ∈ todo
  | .nread, .pipewrite _ _ => s.readopen = true ∧ s.writeopen = true
  | .nwrite, .copy _ _ => True
  | _, _ => False

def Ready (s : State nproc) : Pc nproc → Prop
  | .wakeup _ _ (.sleepWrite _ _) => Cond s .nwrite
  | .sleepLock c _ => Cond s c
  | .sleepUnlock c _ => Cond s c
  | _ => True

structure SleepOk (s : State nproc) : Prop where
  holder : ∀ p, (s.pc p).holds = true ↔ s.lock = some p
  parked : ∀ p c, s.asleep p = some c → ∃ call, s.pc p = .sched call ∨ s.pc p = .parked call
  ready : ∀ p, Ready s (s.pc p)
  served : ∀ p c, Sleepy s p c → Cond s c ∨ ∃ h, s.lock = some h ∧ Owes s p c (s.pc h)

section Invariant

variable {s s' : State nproc} {p q : Fin nproc} {c : Chan}

@[simp] theorem goto_pc_self (place : Pc nproc) : (s.goto p place).pc p = place :=
  update_self _ _ _

variable {place : Pc nproc} {todo : List (Fin nproc)}

theorem goto_pc_of_ne (other : q ≠ p) : (s.goto p place).pc q = s.pc q :=
  update_of_ne other _ _

theorem ready_of_not_holds (free : place.holds = false) : Ready s place := by
  cases place with
  | wakeup c todo after => cases free
  | sleepLock c call => cases free
  | sleepUnlock c call => cases free
  | _ => trivial

theorem SleepOk.holder_awake (ok : SleepOk s) (holds : (s.pc p).holds = true) : ¬ Sleepy s p c := by
  rintro (asleep | ⟨call, place⟩)
  · obtain ⟨call, place | place⟩ := ok.parked p c asleep
    · rw [place] at holds
      cases holds
    · rw [place] at holds
      cases holds
  · rw [place] at holds
    cases holds

theorem SleepOk.cond_of_not_owes (ok : SleepOk s) (sleepy : Sleepy s q c)
    (none : ∀ h, s.lock = some h → ¬ Owes s q c (s.pc h)) : Cond s c := by
  rcases ok.served q c sleepy with reason | ⟨h, owner, owes⟩
  · exact reason
  · exact absurd owes (none h owner)

structure Holding (s : State nproc) (p : Fin nproc) (place : Pc nproc) (s' : State nproc) :
    Prop where
  pc : s'.pc = update s.pc p place
  asleep : s'.asleep = s.asleep
  lock : s'.lock = s.lock
  before : (s.pc p).holds = true
  after : place.holds = true

theorem Holding.sleepy (holding : Holding s p place s') (sleepy : Sleepy s' q c) :
    Sleepy s q c := by
  rcases sleepy with asleep | ⟨call, there⟩
  · left
    rw [← holding.asleep]
    exact asleep
  · right
    by_cases same : q = p
    · subst same
      rw [holding.pc, update_self] at there
      have holds := holding.after
      rw [there] at holds
      cases holds
    · rw [holding.pc, update_of_ne same] at there
      exact ⟨call, there⟩

/-- The invariant after such a step: what the sleepers were served by before must serve
them afterwards. -/
theorem SleepOk.holding (ok : SleepOk s) (holding : Holding s p place s')
    (ready : Ready s' place)
    (served : ∀ q c, Sleepy s q c → Cond s c ∨ Owes s q c (s.pc p) →
      Cond s' c ∨ Owes s' q c place) : SleepOk s' := by
  have owner := (ok.holder p).mp holding.before
  have here : s'.pc p = place := by rw [holding.pc, update_self]
  have there : ∀ x, x ≠ p → s'.pc x = s.pc x := fun x other => by
    rw [holding.pc, update_of_ne other]
  have others : ∀ x, x ≠ p → (s.pc x).holds = false := by
    intro x other
    cases holds : (s.pc x).holds with
    | false => rfl
    | true =>
      have owner' := (ok.holder x).mp holds
      rw [owner] at owner'
      exact absurd (Option.some.inj owner').symm other
  refine ⟨?_, ?_, ?_, ?_⟩
  · intro x
    rw [holding.lock]
    by_cases same : x = p
    · subst same
      rw [here, holding.after]
      simp [owner]
    · rw [there x same]
      exact ok.holder x
  · intro x c asleep
    rw [holding.asleep] at asleep
    have other : x ≠ p := by
      rintro rfl
      exact ok.holder_awake holding.before (.inl asleep)
    rw [there x other]
    exact ok.parked x c asleep
  · intro x
    by_cases same : x = p
    · subst same
      rw [here]
      exact ready
    · rw [there x same]
      exact ready_of_not_holds (others x same)
  · intro q c sleepy
    have before : Cond s c ∨ Owes s q c (s.pc p) := by
      rcases ok.served q c (holding.sleepy sleepy) with reason | ⟨h, owner', owes⟩
      · exact .inl reason
      · rw [owner] at owner'
        cases owner'
        exact .inr owes
    rcases served q c (holding.sleepy sleepy) before with reason | owes
    · exact .inl reason
    · refine .inr ⟨p, holding.lock.trans owner, ?_⟩
      rw [here]
      exact owes

theorem goto_holding (before : (s.pc p).holds = true)
    (after : place.holds = true) : Holding s p place (s.goto p place) :=
  ⟨rfl, rfl, rfl, before, after⟩

variable {after : After} {n i : Int} {chan : Chan} {byte : Option UInt8}

theorem owes_wake (q : Fin nproc) (s : State nproc) (c : Chan) :
    Owes s q c (.wakeup c (List.finRange nproc) after) :=
  ⟨rfl, List.mem_finRange q⟩

/-- `pipewrite` finds its process killed and returns. -/
structure KilledExit (s : State nproc) (p : Fin nproc) : Prop where
  loop : ∃ n i, s.pc p = .pipewrite n i ∧ i < n
  readopen : s.readopen = true
  killed : s.killed p = true

/-- A `pipewrite` that returns now strands nobody. -/
def StrandsNobody (s : State nproc) : Prop := s.nread = s.nwrite ∨ ∀ q, ¬ Sleepy s q .nread

theorem store_serves {ch : UInt8} (readopen : s.readopen = true)
    (room : s.nwrite ≠ s.nread + BitVec.ofNat 32 PIPESIZE)
    (before : Cond s c ∨ Owes s q c (.pipewrite n i)) :
    Cond ((s.store ch).goto p (.pipewrite n (i + 1))) c ∨
      Owes ((s.store ch).goto p (.pipewrite n (i + 1))) q c (.pipewrite n (i + 1)) := by
  cases c with
  | nread =>
    rcases before with reason | owes
    · exact .inr ⟨readopen, reason.2⟩
    · exact .inr owes
  | nwrite =>
    rcases before with reason | owes
    · exact absurd reason.1 room
    · exact owes.elim

theorem SleepOk.pipewrite_wake (ok : SleepOk s)
    (place : s.pc p = .pipewrite n i)
    (ready : Ready (s.wake p .nread after) (.wakeup .nread (List.finRange nproc) after)) :
    SleepOk (s.wake p .nread after) := by
  refine ok.holding (goto_holding (by rw [place]; rfl) rfl) ready ?_
  intro q c _ before
  rw [place] at before
  cases c with
  | nread => exact .inr (owes_wake q _ _)
  | nwrite =>
    rcases before with reason | owes
    · exact .inl reason
    · exact owes.elim

theorem SleepOk.pipewrite (ok : SleepOk s) (place : s.pc p = .pipewrite n i)
    (exits : KilledExit s p → StrandsNobody s) (byte : Option UInt8) :
    SleepOk (s.pipewrite p n i byte) := by
  have holds : (s.pc p).holds = true := by rw [place]; rfl
  unfold State.pipewrite
  split
  · rename_i more
    split
    · rename_i leaves
      refine ok.holding (goto_holding holds rfl) trivial ?_
      intro q c sleepy before
      rw [place] at before
      rcases before with reason | owes
      · exact .inl reason
      · cases c with
        | nwrite => exact owes.elim
        | nread =>
          -- a debt means that this call has stored bytes, so the read end was open
          have killed : s.killed p = true := by
            rcases leaves with closed | killed
            · rw [owes.1] at closed
              cases closed
            · exact killed
          rcases exits ⟨⟨n, i, place, more⟩, owes.1, killed⟩ with empty | nobody
          · exact .inl ⟨empty, owes.2⟩
          · exact absurd sleepy (nobody q)
    · rename_i stays
      have readopen : s.readopen = true := by
        cases open_ : s.readopen with
        | true => rfl
        | false => exact absurd (.inl open_) stays
      split
      · rename_i full
        exact ok.pipewrite_wake place ⟨full, readopen⟩
      · rename_i room
        cases byte with
        | none => exact ok.pipewrite_wake place trivial
        | some ch =>
          refine ok.holding ⟨rfl, rfl, rfl, holds, rfl⟩ trivial ?_
          intro q c _ before
          rw [place] at before
          exact store_serves readopen room before
  · exact ok.pipewrite_wake place trivial

theorem SleepOk.piperead (ok : SleepOk s) (place : s.pc p = .piperead n) :
    SleepOk (s.piperead p n) := by
  have holds : (s.pc p).holds = true := by rw [place]; rfl
  have reasons : ∀ q c, Cond s c ∨ Owes s q c (s.pc p) → Cond s c := by
    intro q c before
    rw [place] at before
    rcases before with reason | owes
    · exact reason
    · cases c <;> exact owes.elim
  unfold State.piperead
  split
  · rename_i empty
    split
    · exact ok.holding (goto_holding holds rfl) trivial fun q c _ before =>
        .inl (reasons q c before)
    · exact ok.holding (goto_holding holds rfl) empty fun q c _ before =>
        .inl (reasons q c before)
  · exact ok.holding (goto_holding holds rfl) trivial fun q c _ before =>
      .inl (reasons q c before)

theorem SleepOk.copy_wake {r : Int} (ok : SleepOk s) (place : s.pc p = .copy n i) :
    SleepOk (s.wake p .nwrite (.release r)) := by
  refine ok.holding (goto_holding (by rw [place]; rfl) rfl) trivial ?_
  intro q c _ before
  rw [place] at before
  cases c with
  | nwrite => exact .inr (owes_wake q _ _)
  | nread =>
    rcases before with reason | owes
    · exact .inl reason
    · exact owes.elim

theorem SleepOk.copy (ok : SleepOk s) (place : s.pc p = .copy n i) (copied : Bool) :
    SleepOk (s.copy p n i copied) := by
  have holds : (s.pc p).holds = true := by rw [place]; rfl
  unfold State.copy
  split
  · split
    · exact ok.copy_wake place
    · rename_i some
      -- no reader can be asleep while there are bytes
      have noReader : ∀ q, Cond s .nread ∨ Owes s q .nread (s.pc p) → False := by
        intro q before
        rw [place] at before
        rcases before with reason | owes
        · exact some reason.1
        · exact owes
      split
      · refine ok.holding ⟨rfl, rfl, rfl, holds, rfl⟩ trivial ?_
        intro q c _ before
        cases c with
        | nread => exact (noReader q before).elim
        | nwrite => exact .inr trivial
      · refine ok.holding ⟨rfl, rfl, rfl, holds, rfl⟩ trivial ?_
        intro q c _ before
        cases c with
        | nread => exact (noReader q before).elim
        | nwrite => exact .inr (owes_wake q _ _)
  · exact ok.copy_wake place

theorem SleepOk.rouse (ok : SleepOk s) (q : Fin nproc) :
    SleepOk { s with asleep := update s.asleep q none } := by
  have fewer : ∀ x c, update s.asleep q none x = some c → s.asleep x = some c := by
    intro x c asleep
    by_cases same : x = q
    · rw [same, update_self] at asleep
      cases asleep
    · rwa [update_of_ne same] at asleep
  refine ⟨ok.holder, fun x c asleep => ok.parked x c (fewer x c asleep), ok.ready, ?_⟩
  intro x c sleepy
  apply ok.served x c
  rcases sleepy with asleep | there
  · exact .inl (fewer x c asleep)
  · exact .inr there

theorem SleepOk.visited (ok : SleepOk s)
    (place : s.pc p = .wakeup chan (q :: todo) after) (awake : ¬ Sleepy s q chan) :
    SleepOk (s.goto p (.wakeup chan todo after)) := by
  have ready := ok.ready p
  rw [place] at ready
  refine ok.holding (goto_holding (by rw [place]; rfl) rfl) ?_ ?_
  · cases after with
    | sleepWrite n i => exact ready
    | release r => trivial
  · intro x c sleepy before
    rw [place] at before
    rcases before with reason | ⟨same, listed⟩
    · exact .inl reason
    · subst same
      cases listed with
      | head => exact absurd sleepy awake
      | tail _ later => exact .inr ⟨rfl, later⟩

theorem SleepOk.woken (ok : SleepOk s)
    (place : s.pc p = .wakeup chan [] after) : SleepOk (s.goto p after.pc) := by
  have ready := ok.ready p
  rw [place] at ready
  refine ok.holding (goto_holding (by rw [place]; rfl) (by cases after <;> rfl)) ?_ ?_
  · cases after with
    | sleepWrite n i => exact ready
    | release r => trivial
  · intro x c _ before
    rw [place] at before
    rcases before with reason | ⟨_, listed⟩
    · exact .inl reason
    · cases listed

theorem SleepOk.wakeup (ok : SleepOk s)
    (place : s.pc p = .wakeup chan todo after) (stepped : s.wakeup p chan after todo = some s') :
    SleepOk s' := by
  cases todo with
  | nil =>
    cases stepped
    exact ok.woken place
  | cons q todo =>
    simp only [State.wakeup] at stepped
    split at stepped
    · rename_i self
      cases stepped
      subst self
      exact ok.visited place (ok.holder_awake (by rw [place]; rfl))
    · split at stepped
      · cases stepped
      · rename_i unlocked
        have noSet : ∀ c call, s.pc q ≠ .sleepSet c call := by
          intro c call there
          rw [there] at unlocked
          exact unlocked rfl
        split at stepped
        · cases stepped
          refine (ok.rouse q).visited place ?_
          rintro (asleep | ⟨call, there⟩)
          · simp only [update_self] at asleep
            cases asleep
          · exact noSet _ call there
        · rename_i awake
          cases stepped
          refine ok.visited place ?_
          rintro (asleep | ⟨call, there⟩)
          · exact awake asleep
          · exact noSet _ call there

theorem SleepOk.unlock (ok : SleepOk s) (holds : (s.pc p).holds = true)
    (owesNot : ∀ q c, ¬ Owes s q c (s.pc p)) (free : place.holds = false)
    (sleeps : ∀ c call, place = .sleepSet c call → Cond s c) :
    SleepOk ({ s with lock := none }.goto p place) := by
  have owner := (ok.holder p).mp holds
  have reasons : ∀ q c, Sleepy s q c → Cond s c := by
    intro q c sleepy
    refine ok.cond_of_not_owes sleepy fun h owner' => ?_
    rw [owner] at owner'
    cases owner'
    exact owesNot q c
  refine ⟨?_, ?_, ?_, ?_⟩
  · intro x
    by_cases same : x = p
    · subst same
      rw [goto_pc_self, free]
      simp [State.goto]
    · rw [goto_pc_of_ne same]
      constructor
      · intro holds'
        have owner' := (ok.holder x).mp holds'
        rw [owner] at owner'
        exact absurd (Option.some.inj owner').symm same
      · intro owner'
        cases owner'
  · intro x c asleep
    have other : x ≠ p := by
      rintro rfl
      exact ok.holder_awake holds (.inl asleep)
    rw [goto_pc_of_ne other]
    exact ok.parked x c asleep
  · intro x
    by_cases same : x = p
    · subst same
      rw [goto_pc_self]
      exact ready_of_not_holds free
    · rw [goto_pc_of_ne same]
      exact ok.ready x
  · intro q c sleepy
    left
    rcases sleepy with asleep | ⟨call, there⟩
    · exact reasons q c (.inl asleep)
    · by_cases same : q = p
      · subst same
        rw [goto_pc_self] at there
        exact sleeps c call there
      · rw [goto_pc_of_ne same] at there
        exact reasons q c (.inr ⟨call, there⟩)

theorem SleepOk.lock (ok : SleepOk s) (free : s.lock = none)
    (awake : ∀ call, s.pc p ≠ .sched call ∧ s.pc p ≠ .parked call)
    (pc : s'.pc = update s.pc p place) (asleep : s'.asleep = s.asleep) (lock : s'.lock = some p)
    (holds : place.holds = true) (ready : Ready s' place)
    (served : ∀ q c, Cond s c → Cond s' c ∨ Owes s' q c place) : SleepOk s' := by
  have here : s'.pc p = place := by rw [pc, update_self]
  have there : ∀ x, x ≠ p → s'.pc x = s.pc x := fun x other => by rw [pc, update_of_ne other]
  have nobody : ∀ x, (s.pc x).holds = false := by
    intro x
    cases holds' : (s.pc x).holds with
    | false => rfl
    | true =>
      have owner := (ok.holder x).mp holds'
      rw [free] at owner
      cases owner
  refine ⟨?_, ?_, ?_, ?_⟩
  · intro x
    rw [lock]
    by_cases same : x = p
    · subst same
      simp [here, holds]
    · rw [there x same, nobody x]
      simp [@eq_comm _ p x, same]
  · intro x c down
    rw [asleep] at down
    obtain ⟨call, where_⟩ := ok.parked x c down
    have other : x ≠ p := by
      rintro rfl
      rcases where_ with place | place
      · exact (awake call).1 place
      · exact (awake call).2 place
    exact ⟨call, by rw [there x other]; exact where_⟩
  · intro x
    by_cases same : x = p
    · subst same
      rw [here]
      exact ready
    · rw [there x same]
      exact ready_of_not_holds (nobody x)
  · intro q c sleepy
    have before : Sleepy s q c := by
      rcases sleepy with down | ⟨call, set⟩
      · exact .inl (asleep ▸ down)
      · by_cases same : q = p
        · subst same
          rw [here] at set
          rw [set] at holds
          cases holds
        · exact .inr ⟨call, (there q same) ▸ set⟩
    have reason := ok.cond_of_not_owes before fun h owner => by
      rw [free] at owner
      cases owner
    rcases served q c reason with reason' | owes
    · exact .inl reason'
    · exact .inr ⟨p, lock, by rw [here]; exact owes⟩

theorem SleepOk.aside (ok : SleepOk s) (before : (s.pc p).holds = false)
    (after : place.holds = false) (quiet : ∀ c call, place ≠ .sleepSet c call)
    (parked : ∀ c, s.asleep p = some c → ∃ call, place = .sched call ∨ place = .parked call) :
    SleepOk (s.goto p place) := by
  refine ⟨?_, ?_, ?_, ?_⟩
  · intro x
    by_cases same : x = p
    · subst same
      rw [goto_pc_self, after, ← before]
      exact ok.holder x
    · rw [goto_pc_of_ne same]
      exact ok.holder x
  · intro x c asleep
    by_cases same : x = p
    · subst same
      rw [goto_pc_self]
      exact parked c asleep
    · rw [goto_pc_of_ne same]
      exact ok.parked x c asleep
  · intro x
    by_cases same : x = p
    · subst same
      rw [goto_pc_self]
      exact ready_of_not_holds after
    · rw [goto_pc_of_ne same]
      exact ok.ready x
  · intro q c sleepy
    have old : Sleepy s q c := by
      rcases sleepy with asleep | ⟨call, there⟩
      · exact .inl asleep
      · by_cases same : q = p
        · subst same
          rw [goto_pc_self] at there
          exact absurd there (quiet c call)
        · rw [goto_pc_of_ne same] at there
          exact .inr ⟨call, there⟩
    rcases ok.served q c old with reason | ⟨h, owner, owes⟩
    · exact .inl reason
    · refine .inr ⟨h, owner, ?_⟩
      have other : h ≠ p := by
        rintro rfl
        rw [(ok.holder h).mpr owner] at before
        cases before
      rw [goto_pc_of_ne other]
      exact owes

theorem SleepOk.sleepSet {call : Call} (ok : SleepOk s)
    (place : s.pc p = .sleepSet chan call) :
    SleepOk ({ s with asleep := update s.asleep p (some chan) }.goto p (.sched call)) := by
  have before : (s.pc p).holds = false := by rw [place]; rfl
  refine ⟨?_, ?_, ?_, ?_⟩
  · intro x
    by_cases same : x = p
    · subst same
      rw [goto_pc_self, show (Pc.sched call : Pc nproc).holds = (s.pc x).holds from before.symm]
      exact ok.holder x
    · rw [goto_pc_of_ne same]
      exact ok.holder x
  · intro x c asleep
    by_cases same : x = p
    · subst same
      exact ⟨call, .inl (goto_pc_self _)⟩
    · rw [goto_pc_of_ne same]
      have old : s.asleep x = some c := by
        rw [← asleep]
        exact (update_of_ne same _ _).symm
      exact ok.parked x c old
  · intro x
    by_cases same : x = p
    · subst same
      rw [goto_pc_self]
      trivial
    · rw [goto_pc_of_ne same]
      exact ok.ready x
  · intro q c sleepy
    have old : Sleepy s q c := by
      by_cases same : q = p
      · subst same
        rcases sleepy with asleep | ⟨call', there⟩
        · have known : some chan = some c := by
            rw [← asleep]
            exact (update_self q (some chan) s.asleep).symm
          cases known
          exact .inr ⟨call, place⟩
        · rw [goto_pc_self] at there
          cases there
      · rcases sleepy with asleep | ⟨call', there⟩
        · left
          rw [← asleep]
          exact (update_of_ne same _ _).symm
        · rw [goto_pc_of_ne same] at there
          exact .inr ⟨call', there⟩
    rcases ok.served q c old with reason | ⟨h, owner, owes⟩
    · exact .inl reason
    · refine .inr ⟨h, owner, ?_⟩
      have other : h ≠ p := by
        rintro rfl
        rw [(ok.holder h).mpr owner] at before
        cases before
      rw [goto_pc_of_ne other]
      exact owes

theorem SleepOk.run {copied : Bool} (ok : SleepOk s)
    (exits : KilledExit s p → StrandsNobody s) (stepped : s.run p byte copied = some s') :
    SleepOk s' := by
  unfold State.run at stepped
  split at stepped
  · cases stepped
  · rename_i call place
    split at stepped <;> cases stepped
    rename_i free
    refine ok.lock (p := p) free (by simp [place]) rfl rfl rfl (by cases call <;> rfl) ?_
      fun q c reason => .inl reason
    cases call with
    | pipewrite n i => trivial
    | piperead n => trivial
  · rename_i writable place
    split at stepped <;> cases stepped
    rename_i free
    cases writable with
    | true =>
      refine ok.lock (p := p) free (by simp [place]) rfl rfl rfl rfl trivial ?_
      intro q c reason
      cases c with
      | nread => exact .inr (owes_wake q _ _)
      | nwrite => exact .inl reason
    | false =>
      refine ok.lock (p := p) free (by simp [place]) rfl rfl rfl rfl trivial ?_
      intro q c reason
      cases c with
      | nread => exact .inl reason
      | nwrite => exact .inr (owes_wake q _ _)
  · rename_i n i place
    cases stepped
    exact ok.pipewrite place exits byte
  · rename_i n place
    cases stepped
    exact ok.piperead place
  · rename_i n i place
    cases stepped
    exact ok.copy place copied
  · rename_i chan todo after place
    exact ok.wakeup place stepped
  · rename_i chan call place
    cases stepped
    have ready := ok.ready p
    rw [place] at ready
    refine ok.holding (goto_holding (by rw [place]; rfl) rfl) ready ?_
    intro q c _ before
    rw [place] at before
    rcases before with reason | owes
    · exact .inl reason
    · cases c <;> exact owes.elim
  · rename_i chan call place
    cases stepped
    have ready := ok.ready p
    rw [place] at ready
    refine ok.unlock (by rw [place]; rfl) ?_ rfl ?_
    · intro q c
      rw [place]
      cases c <;> exact id
    · intro c call' same
      cases same
      exact ready
  · rename_i chan call place
    cases stepped
    exact ok.sleepSet place
  · rename_i call place
    cases stepped
    exact ok.aside (by rw [place]; rfl) rfl (by simp) fun c _ => ⟨call, .inr rfl⟩
  · rename_i call place
    split at stepped <;> cases stepped
    rename_i awake
    refine ok.aside (by rw [place]; rfl) rfl (by simp) ?_
    intro c asleep
    rw [awake] at asleep
    cases asleep
  · rename_i r place
    cases stepped
    refine ok.unlock (by rw [place]; rfl) ?_ rfl (by simp)
    intro q c
    rw [place]
    cases c <;> exact id

theorem SleepOk.start (ok : SleepOk s) (free : place.holds = false)
    (quiet : ∀ c call, place ≠ .sleepSet c call) (stepped : s.start p place = some s') :
    SleepOk s' := by
  unfold State.start at stepped
  split at stepped <;> cases stepped
  rename_i outside
  refine ok.aside (by rw [outside]; rfl) free quiet ?_
  intro c asleep
  obtain ⟨call, there | there⟩ := ok.parked p c asleep
  · rw [outside] at there
    cases there
  · rw [outside] at there
    cases there

/-- The step is not a `pipewrite` that returns because its process was killed, or it
strands nobody. -/
def ExitOk (s : State nproc) : Act nproc → Prop
  | .run p _ _ => KilledExit s p → StrandsNobody s
  | _ => True

theorem SleepOk.step {a : Act nproc} (ok : SleepOk s) (exits : ExitOk s a)
    (stepped : step s a = some s') : SleepOk s' := by
  cases a with
  | pipewrite p count | piperead p count | pipeclose p writable =>
    exact ok.start rfl (by simp) stepped
  | run p byte copied => exact ok.run exits stepped
  | kill p =>
    simp only [PipeMachine.step] at stepped
    split at stepped <;> cases stepped
    have roused := ok.rouse p
    exact ⟨roused.holder, roused.parked, roused.ready, roused.served⟩

end Invariant

/-- The runs in which no `pipewrite` that was killed strands a reader. -/
inductive ReachableOk : State nproc → Prop where
  | initial (data : Nat → UInt8) (killed : Fin nproc → Bool) : ReachableOk (initial data killed)
  | step {s s' : State nproc} (a : Act nproc) (reached : ReachableOk s) (exits : ExitOk s a)
      (stepped : step s a = some s') : ReachableOk s'

/-- While `pi->lock` is free, every sleeper has a reason to sleep. -/
def Served (s : State nproc) : Prop :=
  s.lock = none → ∀ p,
    (s.asleep p = some .nread → s.nread = s.nwrite ∧ s.writeopen = true) ∧
    (s.asleep p = some .nwrite →
      s.nwrite = s.nread + BitVec.ofNat 32 PIPESIZE ∧ s.readopen = true)

/-- Nothing happens but that locks are given back and processes in `sleep` fall asleep. -/
inductive Drains : State nproc → State nproc → Prop where
  | refl (s : State nproc) : Drains s s
  | step {s₁ s₂ s₃ : State nproc} (p : Fin nproc) (drains : Drains s₁ s₂)
      (place : (∃ r, s₂.pc p = .release r) ∨ ∃ c call, s₂.pc p = .sleepSet c call)
      (stepped : step s₂ (.run p none true) = some s₃) : Drains s₁ s₃

section Runs

variable {s s' : State nproc} {p : Fin nproc}

theorem ReachableOk.sleepOk (reached : ReachableOk s) : SleepOk s := by
  induction reached with
  | initial data killed =>
    refine ⟨?_, ?_, ?_, ?_⟩
    · simp [PipeMachine.initial, Pc.holds]
    · intro p c asleep
      cases asleep
    · intro p
      trivial
    · rintro p c (asleep | ⟨call, there⟩)
      · cases asleep
      · cases there
  | step a _ exits stepped ih => exact ih.step exits stepped

theorem SleepOk.isServed (ok : SleepOk s) : Served s := by
  intro free p
  have reason : ∀ c, s.asleep p = some c → Cond s c := by
    intro c asleep
    refine ok.cond_of_not_owes (.inl asleep) fun h owner => ?_
    rw [free] at owner
    cases owner
  exact ⟨reason .nread, reason .nwrite⟩

theorem Drains.reachableOk (drains : Drains s s') (reached : ReachableOk s) : ReachableOk s' := by
  induction drains with
  | refl => exact reached
  | step p _ place stepped ih =>
    refine .step _ ih ?_ stepped
    rintro ⟨⟨n, i, there, _⟩, _, _⟩
    rcases place with ⟨r, here⟩ | ⟨c, call, here⟩
    · rw [there] at here
      cases here
    · rw [there] at here
      cases here

theorem KilledExit.stepped {copied : Bool} (exits : KilledExit s p)
    (stepped : step s (.run p byte copied) = some s') : s' = s.goto p (.release (-1)) := by
  obtain ⟨⟨n, i, place, more⟩, _, killed⟩ := exits
  simp only [step, State.run, place] at stepped
  cases stepped
  unfold State.pipewrite
  rw [if_pos more, if_pos (.inr killed)]

theorem strands_of_served (reached : ReachableOk s) (exits : KilledExit s p)
    (served : ∀ s'', Drains (s.goto p (.release (-1))) s'' → Served s'') : StrandsNobody s := by
  by_cases empty : s.nread = s.nwrite
  · exact .inl empty
  · right
    intro q sleepy
    obtain ⟨n, i, place, _⟩ := exits.loop
    have other : q ≠ p := by
      rintro rfl
      exact reached.sleepOk.holder_awake (by rw [place]; rfl) sleepy
    have released : step (s.goto p (.release (-1))) (.run p none true) =
        some ({ s.goto p (.release (-1)) with lock := none }.goto p .outside) := by
      simp only [step, State.run, goto_pc_self]
    have first : Drains (s.goto p (.release (-1))) _ :=
      .step p (.refl _) (.inl ⟨-1, goto_pc_self _⟩) released
    rcases sleepy with asleep | ⟨call, set⟩
    · exact empty ((served _ first rfl q).1 asleep).1
    · -- the reader falls asleep without looking again
      have there : ({ s.goto p (.release (-1)) with lock := none }.goto p .outside).pc q =
          .sleepSet .nread call := by
        rw [goto_pc_of_ne other]
        exact (goto_pc_of_ne other).trans set
      have fell : step ({ s.goto p (.release (-1)) with lock := none }.goto p .outside)
          (.run q none true) = some (State.goto { ({ s.goto p (.release (-1)) with
            lock := none }.goto p .outside) with asleep := update s.asleep q (some .nread) }
            q (.sched call)) := by
        simp only [step, State.run, there]
        rfl
      have second := Drains.step q first (.inr ⟨.nread, call, there⟩) fell
      have down : update s.asleep q (some Chan.nread) q = some Chan.nread := update_self _ _ _
      exact empty ((served _ second rfl q).1 down).1

/-- In the runs in which every `pipewrite` that returns because its process was killed
finds the pipe empty or no reader asleep, no process sleeps on a pipe that could serve
it; and a `pipewrite` that does not find that leaves a reader asleep for nothing. -/
theorem pipe_sleepers_served (reached : ReachableOk s) :
    Served s ∧ ∀ (p : Fin nproc) (byte : Option UInt8) (copied : Bool) (s' : State nproc),
      KilledExit s p → step s (.run p byte copied) = some s' →
      (StrandsNobody s ↔ ∀ s'', Drains s' s'' → Served s'') := by
  refine ⟨reached.sleepOk.isServed, ?_⟩
  intro p byte copied s' exits stepped
  constructor
  · intro strands s'' drains
    have next := ReachableOk.step (.run p byte copied) reached (fun _ => strands) stepped
    exact (drains.reachableOk next).sleepOk.isServed
  · intro served
    rw [exits.stepped stepped] at served
    exact strands_of_served reached exits served

end Runs

theorem ReachableOk.calm {s s' : State nproc} {p : Fin nproc} (reached : ReachableOk s)
    (alive : s.killed p = false) (stepped : PipeMachine.step s (.run p none true) = some s') :
    ReachableOk s' := by
  refine .step _ reached ?_ stepped
  intro exits
  have killed := exits.killed
  rw [alive] at killed
  cases killed

/-- Process 1 sleeps on an empty pipe. -/
theorem pipe_sleepers_served_reader : ∃ s : State 2, ReachableOk s ∧ s.lock = none ∧
    s.asleep 1 = some .nread ∧ Served s := by
  have start : ReachableOk (initial (fun _ => 0) fun _ => false : State 2) := .initial _ _
  have called := ReachableOk.step (.piperead 1 1) start trivial rfl
  have locked := called.calm (p := 1) rfl rfl
  have waits := locked.calm (p := 1) rfl rfl
  have unlocks := waits.calm (p := 1) rfl rfl
  have sets := unlocks.calm (p := 1) rfl rfl
  have sleeps := sets.calm (p := 1) rfl rfl
  exact ⟨_, sleeps, rfl, rfl, (pipe_sleepers_served sleeps).1⟩

/-- Process 1 waits for bytes; process 0 writes one, is killed in the middle of its call, and
returns: the byte is there, the lock is free, and process 1 sleeps. -/
theorem killed_writer_strands_reader : ∃ s : State 2, Reachable s ∧ s.lock = none ∧
    s.asleep 1 = some .nread ∧ s.nwrite = s.nread + 1 ∧ ¬ Served s := by
  have ran : (runs (initial (fun _ => 0) fun _ => false : State 2)
      [.piperead 1 1, .run 1 none true, .run 1 none true, .run 1 none true, .run 1 none true,
        .run 1 none true, .run 1 none true,
        .pipewrite 0 2, .run 0 none true, .run 0 (some 5) true, .kill 0, .run 0 none true,
        .run 0 none true]).isSome := by decide
  obtain ⟨s, ran⟩ := Option.isSome_iff_exists.mp ran
  have reached := Reachable.runs _ (.initial _ _) ran
  have facts := congrArg (Option.map fun s => (s.lock, s.asleep 1, s.nwrite, s.nread)) ran
  have known : (none, some Chan.nread, 1, 0) = (s.lock, s.asleep 1, s.nwrite, s.nread) :=
    Option.some.inj (Eq.trans rfl facts)
  simp only [Prod.mk.injEq] at known
  obtain ⟨lock, asleep, nwrite, nread⟩ := known
  refine ⟨s, reached, lock.symm, asleep.symm, ?_, ?_⟩
  · rw [← nwrite, ← nread]
    rfl
  · intro served
    have same := ((served lock.symm 1).1 asleep.symm).1
    rw [← nwrite, ← nread] at same
    cases same

end OsbKernel.PipeMachine
