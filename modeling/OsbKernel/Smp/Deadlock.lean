import OsbKernel.Smp.Acts

/-!
# Waiting for the locks of the process table

The locks are taken in the order `wait_lock`, `p->lock`, `pid_lock` or a list lock, `stateLock`,
except that `allocproc` and the scheduler lock the first slot of a list while they hold the list.
That is harmless as long as the CPU that has locked the slot does not wait, which holds for slots
on a runnable list. For one on `unusedList`, that CPU may be in `allocproc` itself, with the slot
still to be removed, and then the two wait for each other.
-/

namespace OsbKernel

open Function LinkedChain
open scoped List

inductive TableLock where
  | wait
  | pid
  | proc (p : Slot)
  | list (k : ListLock)
  deriving DecidableEq, Repr

def TableLock.kernel : TableLock → Option KLock
  | .wait => some .waitLock
  | .pid => some .pidLock
  | .proc p => some (.proc p)
  | .list _ => none

def TableLock.rank : TableLock → Nat
  | .wait => 0
  | .proc _ => 1
  | .pid => 2
  | .list _ => 2

def TableLock.Before (C : ListId → List Slot) (k k' : TableLock) : Prop :=
  k.rank < k'.rank ∨ ∃ l l', k = .list l ∧ k' = .list l' ∧ ListLock.Before C l l'

section Order

variable {C : ListId → List Slot} {ls : Lists} {heads : ListId → Option Slot} {k k₁ k₂ k₃ : TableLock}

theorem TableLock.Before.irrefl (family : Family heads ls.next C) : ¬ Before C k k := by
  rintro (less | ⟨l, l', rfl, same, before⟩)
  · exact Nat.lt_irrefl _ less
  · cases same
    exact ListLock.Before.irrefl family before

theorem TableLock.Before.trans (family : Family heads ls.next C) (left : Before C k₁ k₂)
    (right : Before C k₂ k₃) : Before C k₁ k₃ := by
  rcases left with less | ⟨l₁, l₂, rfl, rfl, before⟩
  · rcases right with less' | ⟨l₂, l₃, rfl, rfl, _⟩
    · exact .inl (Nat.lt_trans less less')
    · exact .inl less
  · rcases right with less | ⟨l₂', l₃, same, rfl, before'⟩
    · exact .inl less
    · cases same
      exact .inr ⟨l₁, l₃, rfl, rfl, before.trans family before'⟩

end Order

namespace Machine

def holder (m : Machine) : TableLock → Option Cpu
  | .wait => m.owner .waitLock
  | .pid => m.owner .pidLock
  | .proc p => m.owner (.proc p)
  | .list k => m.ls.owner k

/-- The next thing that CPU `c` can do is to acquire a lock. -/
def Wants (blncflg : Bool) (m : Machine) (c : Cpu) : TableLock → Prop
  | .list k => ∃ g, m.ls.frame c = some g ∧ m.looks c = false ∧ g.op m.ls.lists = .ok (.acquire k)
  | k => (m.ls.frame c = none ∨ m.looks c = true) ∧
      ∃ act d, m.move blncflg c act = some (.act d) ∧ ∃ lk, k.kernel = some lk ∧ d.op = .acquire lk

/-- CPU `c` spins in `acquire` for a lock that CPU `c'` holds. -/
def Blocked (blncflg : Bool) (m : Machine) (c : Cpu) (k : TableLock) (c' : Cpu) : Prop :=
  m.Wants blncflg c k ∧ m.holder k = some c'

/-- CPU `c` waits for itself through others. -/
def Deadlocked (blncflg : Bool) (m : Machine) (c : Cpu) : Prop :=
  Relation.TransGen (WaitGraph.Waits (m.Blocked blncflg)) c c

variable {blncflg : Bool} {m m' : Machine} {a b c c' : Cpu} {f : Frame} {rest : List Frame}
  {d : Delta} {i p : Slot} {k k' : TableLock} {lk : KLock}

variable {self : Option Slot}

theorem pid_notMem_heldBy (free : ∀ g ∈ rest, g.hold self = none) :
    .pidLock ∉ heldBy self rest := by
  refine notMem_heldBy fun g member => ?_
  have nothing := free g member
  rw [Frame.own, nothing]
  cases g <;> simp [Frame.locks, Frame.hold] at nothing ⊢

theorem mem_heldBy_cons (member : lk ∈ heldBy self (f :: rest)) :
    lk ∈ f.own self ∨ lk ∈ heldBy self rest := by
  rw [heldBy, List.mem_append] at member
  rcases member with own | more
  · exact .inl own
  · cases gave : f.gaveUp with
    | none =>
      rw [gave] at more
      exact .inr more
    | some lk' =>
      rw [gave] at more
      exact .inr (List.mem_of_mem_erase more)

theorem Inv.hold_of_owner (inv : m.Inv) (top : m.frames c = f :: rest)
    (owned : m.owner (.proc i) = some c) : ∃ h, f.hold (m.cur c) = some h ∧ h.slot = i := by
  have member := (inv.owners c _).mp owned
  rw [held, top] at member
  rcases mem_heldBy_cons member with own | more
  · rw [Frame.own, List.mem_append] at own
    rcases own with own | locks
    · cases holds : f.hold (m.cur c) with
      | none => simp [holds] at own
      | some h =>
        refine ⟨h, rfl, ?_⟩
        simpa [holds, eq_comm] using own
    · exact absurd locks (proc_notMem_locks f i)
  · exact absurd more (proc_notMem_heldBy (inv.shape_rest top).1 i)

theorem Inv.forkPid_of_owner (inv : m.Inv) (top : m.frames c = f :: rest)
    (owned : m.owner .pidLock = some c) : ∃ np pid, f = .forkPid np pid := by
  have member := (inv.owners c _).mp owned
  rw [held, top] at member
  rcases mem_heldBy_cons member with own | more
  · rw [Frame.own, List.mem_append] at own
    rcases own with own | locks
    · cases holds : f.hold (m.cur c) <;> simp [holds] at own
    · cases f with
      | forkPid np pid => exact ⟨np, pid, rfl⟩
      | _ => simp [Frame.locks] at locks
  · exact absurd more (pid_notMem_heldBy (inv.shape_rest top).1)

theorem Acts.acquires (inv : m.Inv) (top : m.frames c = f :: rest) (acts : Acts blncflg m c f rest d)
    (op : d.op = .acquire lk) :
    (lk = .waitLock → m.held c = [] ∧ f.looks = false) ∧
    (lk = .pidLock → ∃ np, f = .forkGot np) ∧
    (∀ i, lk = .proc i → f.hold (m.cur c) = none ∧ ∀ np pid, f ≠ .forkPid np pid) ∧
    (f.hold (m.cur c) ≠ none → ∃ np, f = .forkGot np) := by
  have sits := inv.sits top
  have empty : rest = [] → f.own (m.cur c) = [] → f.gaveUp = none → m.held c = [] := by
    rintro rfl own keeps
    rw [held_cons top keeps, own]
    rfl
  cases acts with
  | forkGot =>
    cases op
    exact ⟨(by simp), fun _ => ⟨_, rfl⟩, (by simp), fun _ => ⟨_, rfl⟩⟩
  | forkLink | exitStart | waitStart =>
    cases op
    exact ⟨fun _ => ⟨empty sits rfl rfl, rfl⟩, (by simp), (by simp), fun holds => absurd rfl holds⟩
  | sleepRelock =>
    cases op
    have below : heldBy (m.cur c) rest = [lk] := sits
    have under := (inv.shape_rest top).1
    refine ⟨fun _ => ⟨?_, rfl⟩, ?_, fun _ _ => ⟨rfl, (by simp)⟩, fun holds => absurd rfl holds⟩
    · rw [held, top, heldBy]
      simp [Frame.gaveUp, Frame.own, Frame.hold, Frame.locks, below]
    · rintro rfl
      refine absurd ?_ (pid_notMem_heldBy under)
      rw [below]
      exact List.mem_singleton.mpr rfl
  | _ =>
    cases op <;> exact ⟨(by simp), (by simp), fun _ _ => ⟨rfl, (by simp)⟩, fun holds => absurd rfl holds⟩

/-- The CPU is in `allocproc`, behind the `release` of `unusedList.lock` or about to
come to it, and its slot is still on the list. -/
def InWindow (m : Machine) (c : Cpu) : Prop :=
  ∃ f rest, m.frames c = f :: rest ∧
    ((∃ np, f = .forkGot np) ∨ (∃ np pid, f = .forkPid np pid) ∨
      ∃ np, f = .forkRemove np ∧ doneOf (m.ls.frame c) = false)

/-- While a CPU holds `unusedList.lock` to pick a slot, no other one is in the window. -/
def Exclusive (m : Machine) : Prop :=
  ∀ b c, b ≠ c → m.ls.frame b = some (.pickRelease .unusedList) → ¬ m.InWindow c

theorem acts_of_wants {k : TableLock} (wants : m.Wants blncflg c k) (lk : KLock)
    (kernel : k.kernel = some lk) :
    ∃ f rest d, m.frames c = f :: rest ∧ (f.looks = false → m.ls.frame c = none) ∧
      Acts blncflg m c f rest d ∧ d.op = .acquire lk := by
  have moves : (m.ls.frame c = none ∨ m.looks c = true) ∧ ∃ act d,
      m.move blncflg c act = some (.act d) ∧ ∃ lk, k.kernel = some lk ∧ d.op = .acquire lk := by
    cases k with
    | list k => cases kernel
    | _ => exact wants
  obtain ⟨place, act, d, moved, lk', same, op⟩ := moves
  rw [kernel] at same
  cases same
  obtain ⟨f, rest, top, does⟩ := does_of_move moved
  refine ⟨f, rest, d, top, fun apart => ?_, does.acts, op⟩
  rcases place with idle | looking
  · exact idle
  · rw [looks, top] at looking
    split at looking
    · rename_i same
      cases same
      rw [looking] at apart
      cases apart
    · cases looking

/-- A slot on a list that another CPU reads is locked by a CPU that does not spin,
unless that is in the window of `allocproc`. -/
theorem Inv.not_blocked_of_picked (inv : m.Inv) (exclusive : m.Exclusive)
    (top : m.frames b = f :: rest) (looks : f.looks = true) {l : ListId}
    (picks : m.ls.frame b = some (.pickRelease l)) (listed : i ∈ m.ls.contents l)
    (owned : m.owner (.proc i) = some c) : ¬ WaitGraph.IsBlocked (m.Blocked blncflg) c := by
  obtain ⟨f', rest', top', ok⟩ := inv.top c
  obtain ⟨h, holds, rfl⟩ := inv.hold_of_owner top' owned
  have apart : b ≠ c := by
    rintro rfl
    rw [top] at top'
    cases top'
    cases f <;> simp [Frame.looks, Frame.hold] at looks holds
  have only : ∀ {l'}, h.slot ∈ m.ls.contents l' → l' = l :=
    fun there => inv.lists.family.disjoint there listed
  have which : l = .unusedList ∨ l = .runnable b := by
    have calls := inv.calling top picks
    cases f <;> simp [Frame.looks] at looks
    · exact .inl (by simpa [Frame.call, ListFrame.call, eq_comm] using calls)
    · exact .inr (by simpa [Frame.call, ListFrame.call, eq_comm] using calls)
  have window : l = .unusedList → ¬ m.InWindow c := by
    rintro rfl
    exact exclusive b c apart picks
  have notGot : ∀ np, f' ≠ .forkGot np := by
    rintro np rfl
    have known := ok.hold _ rfl
    have state : (m.pcb np).state = .UNUSED := known.state _ rfl
    have home := known.home rfl
    unfold Home at home
    rw [state] at home
    cases holds
    exact window (only home).symm ⟨_, _, top', .inl ⟨np, rfl⟩⟩
  have notSched : ∀ q, f' ≠ .schedGot q := by
    rintro q rfl
    have there := (ok.hold _ rfl).runnable rfl
    cases holds
    cases only there
    rcases which with other | same
    · cases other
    · cases same
      exact apart rfl
  rintro ⟨k, e, wants, _⟩
  have notKernel : ∀ lk, k.kernel = some lk → False := by
    intro lk kernel
    obtain ⟨f₁, rest₁, d, top₁, _, acts, op⟩ := acts_of_wants wants lk kernel
    rw [top'] at top₁
    cases top₁
    obtain ⟨np, got⟩ := (acts.acquires inv top' op).2.2.2 (by rw [holds]; simp)
    exact notGot np got
  cases k with
  | wait | pid | proc j => exact notKernel _ rfl
  | list k =>
    obtain ⟨g, there, _, op⟩ := wants
    have pending := ListFrame.done_of_acquire op
    have pre := (inv.lists.frames c g there).pre pending
    have calls := inv.calling top' there
    cases call : g.call with
    | pick l' =>
      rw [call] at calls
      cases f' with
      | forkGot np => exact notGot np rfl
      | schedGot q => exact notSched q rfl
      | _ => cases self : m.cur c <;> simp [Frame.call, Frame.hold, self] at calls holds
    | add l' j =>
      rw [call] at calls pre
      obtain ⟨h', holds', same, _⟩ := Frame.hold_of_call calls rfl
      rw [holds] at holds'
      cases holds'
      subst same
      exact pre l listed
    | remove l' j =>
      rw [call] at calls pre
      obtain ⟨h', holds', same, _⟩ := Frame.hold_of_call calls rfl
      rw [holds] at holds'
      cases holds'
      subst same
      cases only pre
      cases f' with
      | forkRemove np =>
        cases calls
        exact window rfl ⟨_, _, top', .inr (.inr ⟨_, rfl, by rw [there]; exact pending⟩)⟩
      | schedRemove q =>
        cases calls
        rcases which with other | same
        · cases other
        · cases same
          exact apart rfl
      | _ =>
        cases self : m.cur c <;> simp [Frame.call, self] at calls <;>
          (obtain ⟨rfl, _⟩ := calls; rcases which with other | other <;> cases other)

theorem Acts.picks (acts : Acts blncflg m c f rest d) (op : d.op = .acquire lk)
    (looks : f.looks = true) : ∃ l j, m.ls.frame c = some (.pickRelease l) ∧
      m.ls.lists.first l = some j ∧ lk = .proc j := by
  cases acts with
  | forkLook here picks head | schedLook here picks head =>
    cases op
    exact ⟨_, _, picks, head, rfl⟩
  | interrupt => cases op
  | timer => cases op
  | forkEmpty => cases op
  | schedEmpty => cases op
  | _ => cases looks

/-- A CPU that spins for a `stateLock` holds no lock that is held by a CPU that spins
outside the order. -/
theorem Inv.list_before (inv : m.Inv) {k k' : ListLock} {g : ListFrame}
    (there : m.ls.frame b = some g) (wants : g.op m.ls.lists = .ok (.acquire k'))
    (owned : m.ls.owner k = some b) (owned' : m.ls.owner k' = some c)
    (onward : WaitGraph.IsBlocked (m.Blocked blncflg) c) :
    ListLock.Before m.ls.contents k k' := by
  obtain ⟨g', same, held⟩ := (inv.lists.owners b k).mp owned
  rw [there] at same
  cases same
  rcases (inv.lists.frames b g there).before inv.lists.family wants held with before | ⟨i, rfl, off⟩
  · exact before
  -- The slot is on no list, so a CPU that spins does not hold its `stateLock`.
  obtain ⟨k, e, spins, _⟩ := onward
  obtain ⟨g', there', held'⟩ := (inv.lists.owners c _).mp owned'
  have notKernel : ∀ lk, k.kernel = some lk → False := by
    intro lk kernel
    obtain ⟨f, rest, d, _, idle, acts, op⟩ := acts_of_wants spins lk kernel
    cases looks : f.looks with
    | false =>
      rw [idle looks] at there'
      cases there'
    | true =>
      obtain ⟨l, j, picks, _⟩ := acts.picks op looks
      rw [picks] at there'
      cases there'
      simp [ListFrame.holds] at held'
  cases k with
  | wait | pid | proc j => exact (notKernel _ rfl).elim
  | list k =>
    obtain ⟨g₁, same, _, op⟩ := spins
    rw [there'] at same
    cases same
    obtain ⟨l, listed⟩ := (inv.lists.frames c g' there').listed op held'
    exact absurd listed (off l)

theorem Inv.blocked_before (inv : m.Inv) (exclusive : m.Exclusive)
    (left : m.Blocked blncflg a k b) (right : m.Blocked blncflg b k' c)
    (onward : WaitGraph.IsBlocked (m.Blocked blncflg) c) :
    TableLock.Before m.ls.contents k k' := by
  obtain ⟨_, owned⟩ := left
  obtain ⟨wants, owned'⟩ := right
  have listHeld : ∀ {l}, k = .list l → m.ls.frame b = none → False := by
    rintro l rfl idle
    obtain ⟨g, there, _⟩ := (inv.lists.owners b l).mp owned
    rw [idle] at there
    cases there
  cases k' with
  | wait =>
    obtain ⟨f, rest, d, top, idle, acts, op⟩ := acts_of_wants wants _ rfl
    obtain ⟨none, plain⟩ := (acts.acquires inv top op).1 rfl
    have nothing : ∀ lk, m.owner lk ≠ some b := by
      intro lk mine
      have member := (inv.owners b lk).mp mine
      rw [none] at member
      cases member
    cases k with
    | wait | pid | proc i => exact absurd owned (nothing _)
    | list l => exact (listHeld rfl (idle plain)).elim
  | pid =>
    obtain ⟨f, rest, d, top, idle, acts, op⟩ := acts_of_wants wants _ rfl
    obtain ⟨np, rfl⟩ := (acts.acquires inv top op).2.1 rfl
    cases k with
    | wait => exact .inl (by decide)
    | proc i => exact .inl (show 1 < 2 by decide)
    | pid =>
      obtain ⟨_, _, same⟩ := inv.forkPid_of_owner top owned
      cases same
    | list l => exact (listHeld rfl (idle rfl)).elim
  | proc j =>
    obtain ⟨f, rest, d, top, idle, acts, op⟩ := acts_of_wants wants _ rfl
    obtain ⟨free, notPid⟩ := (acts.acquires inv top op).2.2.1 j rfl
    cases k with
    | wait => exact .inl (show 0 < 1 by decide)
    | proc i =>
      obtain ⟨h, holds, _⟩ := inv.hold_of_owner top owned
      rw [free] at holds
      cases holds
    | pid =>
      obtain ⟨np, pid, same⟩ := inv.forkPid_of_owner top owned
      exact absurd same (notPid np pid)
    | list l =>
      cases looks : f.looks with
      | false => exact (listHeld rfl (idle looks)).elim
      | true =>
        obtain ⟨l', i, picks, head, same⟩ := acts.picks op looks
        cases same
        have listed := List.mem_of_mem_head? (inv.listed_of_head picks head)
        exact absurd onward
          (inv.not_blocked_of_picked exclusive top looks picks listed owned')
  | list l' =>
    obtain ⟨g, there, _, op⟩ := wants
    cases k with
    | wait => exact .inl (show 0 < 2 by decide)
    | proc i => exact .inl (show 1 < 2 by decide)
    | pid =>
      obtain ⟨f, rest, top, _⟩ := inv.top b
      obtain ⟨np, pid, rfl⟩ := inv.forkPid_of_owner top owned
      have calls := inv.calling top there
      cases calls
    | list l => exact .inr ⟨l, l', rfl, rfl, inv.list_before there op owned owned' onward⟩

theorem Inv.not_deadlocked (inv : m.Inv) (exclusive : m.Exclusive) (c : Cpu) :
    ¬ m.Deadlocked blncflg c :=
  WaitGraph.no_cycle (fun _ => TableLock.Before.irrefl inv.lists.family)
    (fun _ _ _ => TableLock.Before.trans inv.lists.family)
    (fun _ _ _ _ _ => inv.blocked_before exclusive)

/-- When `allocproc` takes `unusedList.lock`, no other CPU is in the window. -/
def TakesTurn (m : Machine) (c : Cpu) : Prop :=
  m.ls.frame c = some (.pickAcquire .unusedList) → ∀ b, b ≠ c → ¬ m.InWindow b

inductive OrderlyReachable (blncflg : Bool) : Machine → Prop where
  | start {pages : List Page} {code : PageData} {s : Kernel}
      (booted : OsbKernel.boot pages code = .ok s) : OrderlyReachable blncflg (Machine.start s)
  | step {m m' : Machine} {c : Cpu} {act : Act} (reached : OrderlyReachable blncflg m)
      (turn : m.TakesTurn c) (stepped : m.step blncflg c act = some m') :
      OrderlyReachable blncflg m'

theorem OrderlyReachable.reachable (reached : OrderlyReachable blncflg m) :
    Reachable blncflg m := by
  induction reached with
  | start booted => exact .start booted
  | step _ _ stepped ih => exact .step ih ⟨_, _, stepped⟩

theorem Exclusive.list {g : ListFrame} {ls : ListSys Cpu} (exclusive : m.Exclusive) (inv : m.Inv)
    (turn : m.TakesTurn c) (calling : m.ls.frame c = some g) (advances : Advances m.ls ls c g)
    (events : List Event) : (m.advanced ls events).Exclusive := by
  have before : ∀ b, (m.advanced ls events).InWindow b → m.InWindow b := by
    rintro b ⟨f, rest, top, place⟩
    refine ⟨f, rest, top, ?_⟩
    rcases place with got | pid | ⟨np, rfl, pending⟩
    · exact .inl got
    · exact .inr (.inl pid)
    · refine .inr (.inr ⟨np, rfl, ?_⟩)
      by_cases self : b = c
      · subst self
        have call : some (.remove .unusedList np) = some g.call := inv.calling top calling
        have concerns : g.call.index ≠ none := by
          rw [← Option.some.inj call]
          nofun
        rw [advanced_ls, advances.done concerns, Bool.or_eq_false_iff] at pending
        rw [calling]
        exact pending.1
      · rw [advanced_ls, advances.others b self] at pending
        exact pending
  intro b d apart picks window
  have window := before d window
  by_cases self : b = c
  · subst self
    have call := advances.call _ picks
    cases g with
    | pickAcquire l =>
      cases call
      exact turn calling d (Ne.symm apart) window
    | pickRelease l =>
      cases call
      exact exclusive b d apart calling window
    | add l i pc => cases call
    | remove l i pc => cases call
  · rw [advanced_ls, advances.others b self] at picks
    exact exclusive b d apart picks window

/-- A step of the code brings its CPU into the window only with `unusedList.lock` held. -/
theorem Acts.window (inv : m.Inv) (top : m.frames c = f :: rest) (acts : Acts blncflg m c f rest d)
    {f' : Frame} {rest' : List Frame} (frames : d.frames = f' :: rest')
    (place : (∃ np, f' = .forkGot np) ∨ (∃ np pid, f' = .forkPid np pid) ∨ ∃ np, f' = .forkRemove np) :
    m.InWindow c ∨ m.ls.frame c = some (.pickRelease .unusedList) := by
  have under := (inv.shape_rest top).1
  have popped : d.frames = rest → False := by
    intro same
    have free := under f' (by rw [← same, frames]; exact List.mem_cons_self)
    rcases place with ⟨np, rfl⟩ | ⟨np, pid, rfl⟩ | ⟨np, rfl⟩ <;> cases free
  cases acts with
  | forkLook here picks head => exact .inr picks
  | forkGot => exact .inl ⟨_, _, top, .inl ⟨_, rfl⟩⟩
  | forkPid => exact .inl ⟨_, _, top, .inr (.inl ⟨_, _, rfl⟩)⟩
  | ret | wakeReturn | sleepRelock | yieldResume => exact (popped rfl).elim
  | _ =>
    cases frames
    rcases place with ⟨np, same⟩ | ⟨np, pid, same⟩ | ⟨np, same⟩ <;> cases same

theorem Exclusive.apply {owner : KLock → Option Cpu} (exclusive : m.Exclusive) (inv : m.Inv)
    (top : m.frames c = f :: rest) (acts : Acts blncflg m c f rest d)
    (locked : m.lockAfter c d.op = some owner) (fits : Fits m c d owner) :
    (m.apply c d owner).Exclusive := by
  intro b e apart picks window
  have picks' : m.ls.frame b = some (.pickRelease .unusedList) := by
    by_cases self : b = c
    · subst self
      rw [apply_call_self] at picks
      cases calls : d.call with
      | none =>
        rw [calls] at picks
        exact picks
      | some call =>
        rw [calls] at picks
        cases call <;> cases picks
    · rwa [apply_call_other self] at picks
  by_cases self : e = c
  · subst self
    obtain ⟨f', rest', frames, place⟩ := window
    rw [fits.frames_self] at frames
    have place : (∃ np, f' = .forkGot np) ∨ (∃ np pid, f' = .forkPid np pid) ∨
        ∃ np, f' = .forkRemove np := by
      rcases place with got | pid | ⟨np, same, _⟩
      · exact .inl got
      · exact .inr (.inl pid)
      · exact .inr (.inr ⟨np, same⟩)
    rcases acts.window inv top frames place with before | mine
    · exact exclusive b e apart picks' before
    · -- Both would hold `unusedList.lock`.
      have left := (inv.lists.owners b (.list .unusedList)).mpr ⟨_, picks', List.mem_singleton.mpr rfl⟩
      have right := (inv.lists.owners e (.list .unusedList)).mpr ⟨_, mine, List.mem_singleton.mpr rfl⟩
      rw [left] at right
      exact apart (Option.some.inj right)
  · obtain ⟨f', rest', frames, place⟩ := window
    have quiet := fits.quiet inv locked self
    rw [quiet.frames] at frames
    rw [quiet.call] at place
    exact exclusive b e apart picks' ⟨f', rest', frames, place⟩

theorem Exclusive.switch {target : Option Slot} {events : List Event} {fs : List Frame}
    (exclusive : m.Exclusive) (inv : m.Inv) (top : m.frames c = f :: rest)
    (switches : Switches m c rest f target events fs) : (m.swtch c target events fs).Exclusive := by
  have lists : (m.swtch c target events fs).ls = m.ls := by
    simp only [swtch, setFrames]
    split <;> rfl
  intro b e apart picks window
  rw [lists] at picks
  obtain ⟨f', rest', frames, place⟩ := window
  by_cases self : e = c
  · subst self
    obtain ⟨f₁, rest₁, frames₁, resumed⟩ := inv.swtch_top top switches
    rw [frames] at frames₁
    cases frames₁
    rcases place with ⟨np, rfl⟩ | ⟨np, pid, rfl⟩ | ⟨np, rfl, _⟩ <;>
      rcases resumed with resumable | ⟨p, same⟩ <;> first | cases resumable | cases same
  · rw [swtch_frames_other inv self] at frames
    rw [lists] at place
    exact exclusive b e apart picks ⟨f', rest', frames, place⟩

theorem OrderlyReachable.exclusive (reached : OrderlyReachable blncflg m) : m.Exclusive := by
  induction reached with
  | start booted => nofun
  | step reached turn stepped ih =>
    have inv := reached.reachable.inv
    cases inv.takes_of_step stepped with
    | list calling advances => exact ih.list inv turn calling advances _
    | act top idle acts locked fits => exact ih.apply inv top acts locked fits
    | switch top idle switches => exact ih.switch inv top switches

/-- In every state of every run in which `allocproc` takes `unusedList.lock` only while
no other CPU has picked a free slot that is still on the list, no CPU waits in a cycle. -/
theorem no_deadlock_of_turns (reached : OrderlyReachable blncflg m) (c : Cpu) :
    ¬ m.Deadlocked blncflg c :=
  reached.reachable.inv.not_deadlocked reached.exclusive c

instance (m : Machine) (c : Cpu) : Decidable (m.InWindow c) :=
  decidable_of_iff
    ((m.frames c).head?.any fun
      | .forkGot _ | .forkPid _ _ => true
      | .forkRemove _ => !doneOf (m.ls.frame c)
      | _ => false) <| by
    rw [InWindow]
    cases m.frames c with
    | nil => simp
    | cons f rest => cases f <;> simp

instance (m : Machine) (c : Cpu) : Decidable (m.TakesTurn c) :=
  inferInstanceAs (Decidable (_ → _))

/-- `run`, with no answer when a step is out of turn. -/
def runInTurn (blncflg : Bool) (m : Machine) : List (Cpu × Act) → Option Machine
  | [] => some m
  | (c, act) :: more =>
    if m.TakesTurn c then (m.step blncflg c act).bind fun m' => runInTurn blncflg m' more
    else none

theorem OrderlyReachable.run {choices : List (Cpu × Act)} (reached : OrderlyReachable blncflg m)
    (ran : m.runInTurn blncflg choices = some m') : OrderlyReachable blncflg m' := by
  induction choices generalizing m with
  | nil =>
    cases ran
    exact reached
  | cons choice more ih =>
    obtain ⟨c, act⟩ := choice
    rw [runInTurn] at ran
    split at ran
    · next turn =>
      obtain ⟨next, stepped, rest⟩ := Option.bind_eq_some_iff.mp ran
      exact ih (.step reached turn stepped) rest
    · cases ran

/-- Init makes a child on CPU 1, and then both fork: CPU 0 has taken slot 2 off the list and
still holds its lock when CPU 1 takes `unusedList.lock`. -/
theorem no_deadlock_of_turns_forks : ∃ m, OrderlyReachable false m ∧
    m.owner (.proc 2) = some 0 ∧ m.ls.owner (.list .unusedList) = some 1 ∧
      ¬ m.Deadlocked false 0 := by
  have ran : (first.runInTurn false
      (List.replicate 11 (0, .run) ++ [(0, .setcpu 1), (0, .fork)] ++ List.replicate 18 (0, .run) ++
        List.replicate 11 (1, .run) ++ [(0, .fork)] ++ List.replicate 9 (0, .run) ++
        [(1, .fork), (1, .run)])).map (fun m =>
      (m.owner (.proc 2), m.ls.owner (.list .unusedList))) = some (some 0, some 1) := by
    decide +kernel
  obtain ⟨m, found, now⟩ := Option.map_eq_some_iff.mp ran
  obtain ⟨slot, list⟩ := Prod.mk.inj now
  obtain ⟨s, booted⟩ := boot_returns
  have reached : OrderlyReachable false m :=
    OrderlyReachable.run (start_eq_first booted ▸ .start booted) found
  exact ⟨m, reached, slot, list, no_deadlock_of_turns reached 0⟩

/-- Init makes a child on CPU 1; then both fork.  CPU 0 has locked slot 2 and given
`unusedList.lock` back when CPU 1 takes that lock and finds slot 2 at the head. -/
def twoForks : List (Cpu × Act) :=
  List.replicate 11 (0, .run) ++ [(0, .setcpu 1), (0, .fork)] ++ List.replicate 18 (0, .run) ++
    List.replicate 11 (1, .run) ++ [(0, .fork)] ++ List.replicate 3 (0, .run) ++
    [(1, .fork), (1, .run), (0, .run), (0, .run)]

def nextOp (m : Machine) (c : Cpu) : Option KOp :=
  match m.move false c .run with
  | some (.act d) => some d.op
  | _ => none

/-- CPU 0 spins for `unusedList.lock`, which CPU 1 holds, and CPU 1 for the lock of
slot 2, which CPU 0 holds. -/
theorem two_forks_deadlock : ∃ m, Reachable false m ∧ m.Deadlocked false 0 := by
  have ran : (first.run false twoForks).map (fun m =>
      (m.ls.frame 0, m.nextOp 1, m.ls.owner (.list .unusedList), m.owner (.proc 2))) =
      some (some (.remove .unusedList 2 .acquireList), some (.acquire (.proc 2)), some 1,
        some 0) := by
    decide +kernel
  have looking : (first.run false twoForks).map (fun m => (m.looks 0, m.looks 1)) =
      some (false, true) := by
    decide +kernel
  obtain ⟨m, found, now⟩ := Option.map_eq_some_iff.mp ran
  rw [found] at looking
  simp only [Option.map_some, Option.some.injEq, Prod.mk.injEq] at now looking
  obtain ⟨call, op, holder₁, holder₀⟩ := now
  obtain ⟨looks₀, looks₁⟩ := looking
  refine ⟨m, (first_reachable false).run found, ?_⟩
  have left : m.Blocked false 0 (.list (.list .unusedList)) 1 :=
    ⟨⟨_, call, looks₀, rfl⟩, holder₁⟩
  have right : m.Blocked false 1 (.proc 2) 0 := by
    refine ⟨⟨.inr looks₁, .run, ?_⟩, holder₀⟩
    rw [nextOp] at op
    split at op
    · rename_i d moved
      exact ⟨d, moved, _, rfl, Option.some.inj op⟩
    · cases op
  exact .tail (.single ⟨_, left⟩) ⟨_, right⟩

end Machine

end OsbKernel
