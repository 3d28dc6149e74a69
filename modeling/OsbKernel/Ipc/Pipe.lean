import OsbKernel.Lib.Ring
import OsbKernel.Types

/-!
# One pipe and the processes that use it

`piperead`, `pipewrite` and `pipeclose` of `pipe.c` on one pipe, for any number of processes. A
step is one round of a loop with `pi->lock` held, one slot of a `wakeup`, or one stage of `sleep`:
while `sleep` holds `p->lock`, neither `wakeup` nor `kill` can look at the process. Whether
`copyin` and `copyout` succeed is part of the step. `kill` may come at any moment.

The bytes put into the pipe and taken out of it are recorded; no function reads the records.
-/

namespace OsbKernel.PipeMachine

open Function FreeRing

abbrev PIPESIZE : Nat := 512

/-- The addresses `&pi->nread` and `&pi->nwrite`. -/
inductive Chan where
  | nread
  | nwrite
  deriving DecidableEq, Repr

/-- A call of `pipewrite` or `piperead` with the variables it needs behind `acquire`. -/
inductive Call where
  | pipewrite (n i : Int)
  | piperead (n : Int)
  deriving DecidableEq, Repr

/-- What a process does behind its call of `wakeup`. -/
inductive After where
  | sleepWrite (n i : Int)
  | release (r : Int)
  deriving DecidableEq, Repr

/-- Where a process stands: in a loop of `pipewrite` or `piperead` (`copy` is the second one), in
`wakeup` with the slots left to look at, or in a stage of `sleep`. -/
inductive Pc (nproc : Nat) where
  | outside
  | acquire (call : Call)
  | pipeclose (writable : Bool)
  | pipewrite (n i : Int)
  | piperead (n : Int)
  | copy (n i : Int)
  | wakeup (chan : Chan) (todo : List (Fin nproc)) (after : After)
  | sleepLock (chan : Chan) (call : Call)
  | sleepUnlock (chan : Chan) (call : Call)
  | sleepSet (chan : Chan) (call : Call)
  | sched (call : Call)
  | parked (call : Call)
  | release (r : Int)
  deriving DecidableEq, Repr

def Call.pc {nproc : Nat} : Call → Pc nproc
  | .pipewrite n i => .pipewrite n i
  | .piperead n => .piperead n

def After.pc {nproc : Nat} : After → Pc nproc
  | .sleepWrite n i => .sleepLock .nwrite (.pipewrite n i)
  | .release r => .release r

/-- The process holds its own `p->lock`. -/
def Pc.plocked {nproc : Nat} : Pc nproc → Bool
  | sleepUnlock _ _ => true
  | sleepSet _ _ => true
  | sched _ => true
  | _ => false

/-- `struct pipe`, and what it needs to know of the processes. -/
structure State (nproc : Nat) where
  data : Nat → UInt8
  nread : BitVec 32
  nwrite : BitVec 32
  readopen : Bool
  writeopen : Bool
  lock : Option (Fin nproc)
  pc : Fin nproc → Pc nproc
  asleep : Fin nproc → Option Chan
  killed : Fin nproc → Bool
  put : List UInt8
  taken : List UInt8

variable {nproc : Nat}

namespace State

/-- Process `p` goes to another place. -/
def goto (s : State nproc) (p : Fin nproc) (place : Pc nproc) : State nproc := { s with pc := update s.pc p place }

/-- `wakeup(chan)`, and what follows. -/
def wake (s : State nproc) (p : Fin nproc) (chan : Chan) (after : After) : State nproc :=
  s.goto p (.wakeup chan (List.finRange nproc) after)

def store (s : State nproc) (ch : UInt8) : State nproc :=
  { s with
    data := update s.data (s.nwrite.toNat % PIPESIZE) ch
    nwrite := s.nwrite + 1
    put := s.put ++ [ch] }

def take (s : State nproc) : State nproc :=
  { s with nread := s.nread + 1, taken := s.taken ++ [s.data (s.nread.toNat % PIPESIZE)] }

/-- One round of the loop of `pipewrite`; `byte` is what `copyin` delivers. -/
def pipewrite (s : State nproc) (p : Fin nproc) (n i : Int) (byte : Option UInt8) : State nproc :=
  if i < n then
    if s.readopen = false ∨ s.killed p = true then s.goto p (.release (-1))
    else if s.nwrite = s.nread + BitVec.ofNat 32 PIPESIZE then s.wake p .nread (.sleepWrite n i)
    else
      match byte with
      | none => s.wake p .nread (.release i)
      | some ch => (s.store ch).goto p (.pipewrite n (i + 1))
  else s.wake p .nread (.release i)

/-- One round of the first loop of `piperead`. -/
def piperead (s : State nproc) (p : Fin nproc) (n : Int) : State nproc :=
  if s.nread = s.nwrite ∧ s.writeopen = true then
    if s.killed p = true then s.goto p (.release (-1))
    else s.goto p (.sleepLock .nread (.piperead n))
  else s.goto p (.copy n 0)

/-- One round of the second loop of `piperead`; `copied` is whether `copyout` succeeds. -/
def copy (s : State nproc) (p : Fin nproc) (n i : Int) (copied : Bool) : State nproc :=
  if i < n then
    if s.nread = s.nwrite then s.wake p .nwrite (.release i)
    else if copied then s.take.goto p (.copy n (i + 1))
    else s.take.wake p .nwrite (.release i)
  else s.wake p .nwrite (.release i)

def wakeup (s : State nproc) (p : Fin nproc) (chan : Chan) (after : After) :
    List (Fin nproc) → Option (State nproc)
  | [] => some (s.goto p after.pc)
  | q :: todo =>
    if q = p then some (s.goto p (.wakeup chan todo after))
    else if (s.pc q).plocked then none
    else if s.asleep q = some chan then
      some ({ s with asleep := update s.asleep q none }.goto p (.wakeup chan todo after))
    else some (s.goto p (.wakeup chan todo after))

/-- `pipeclose` with the lock just taken. -/
def pipeclose (s : State nproc) (p : Fin nproc) (writable : Bool) : State nproc :=
  if writable then { s with writeopen := false }.wake p .nread (.release 0)
  else { s with readopen := false }.wake p .nwrite (.release 0)

def run (s : State nproc) (p : Fin nproc) (byte : Option UInt8) (copied : Bool) : Option (State nproc) :=
  match s.pc p with
  | .outside => none
  | .acquire call =>
    if s.lock = none then some ({ s with lock := some p }.goto p call.pc) else none
  | .pipeclose writable =>
    if s.lock = none then some ({ s with lock := some p }.pipeclose p writable) else none
  | .pipewrite n i => some (s.pipewrite p n i byte)
  | .piperead n => some (s.piperead p n)
  | .copy n i => some (s.copy p n i copied)
  | .wakeup chan todo after => s.wakeup p chan after todo
  | .sleepLock chan call => some (s.goto p (.sleepUnlock chan call))
  | .sleepUnlock chan call => some ({ s with lock := none }.goto p (.sleepSet chan call))
  | .sleepSet chan call =>
    some ({ s with asleep := update s.asleep p (some chan) }.goto p (.sched call))
  | .sched call => some (s.goto p (.parked call))
  | .parked call => if s.asleep p = none then some (s.goto p (.acquire call)) else none
  | .release _ => some ({ s with lock := none }.goto p .outside)

end State

inductive Act (nproc : Nat) where
  | pipewrite (p : Fin nproc) (count : Int)
  | piperead (p : Fin nproc) (count : Int)
  | pipeclose (p : Fin nproc) (writable : Bool)
  | run (p : Fin nproc) (byte : Option UInt8) (copied : Bool)
  | kill (p : Fin nproc)
  deriving DecidableEq, Repr

def State.start (s : State nproc) (p : Fin nproc) (place : Pc nproc) : Option (State nproc) :=
  if s.pc p = .outside then some (s.goto p place) else none

def step (s : State nproc) : Act nproc → Option (State nproc)
  | .pipewrite p count => s.start p (.acquire (.pipewrite count 0))
  | .piperead p count => s.start p (.acquire (.piperead count))
  | .pipeclose p writable => s.start p (.pipeclose writable)
  | .run p byte copied => s.run p byte copied
  | .kill p =>
    if (s.pc p).plocked then none
    else some { s with killed := update s.killed p true, asleep := update s.asleep p none }

/-- The pipe as `pipealloc` leaves it; the data is what was in the page. -/
def initial (data : Nat → UInt8) (killed : Fin nproc → Bool) : State nproc where
  data := data
  nread := 0
  nwrite := 0
  readopen := true
  writeopen := true
  lock := none
  pc _ := .outside
  asleep _ := none
  killed := killed
  put := []
  taken := []

inductive Reachable : State nproc → Prop where
  | initial (data : Nat → UInt8) (killed : Fin nproc → Bool) : Reachable (initial data killed)
  | step {s s' : State nproc} (a : Act nproc) (reached : Reachable s) (stepped : step s a = some s') :
      Reachable s'

/-- The part of the state that the ring consists of, with the two records. -/
def State.ring (s : State nproc) :
    (Nat → UInt8) × BitVec 32 × BitVec 32 × List UInt8 × List UInt8 :=
  (s.data, s.nread, s.nwrite, s.put, s.taken)

inductive RingMove (s : State nproc) (s' : State nproc) : Prop where
  | same (ring : s'.ring = s.ring)
  | stored (ch : UInt8) (room : s.nwrite ≠ s.nread + BitVec.ofNat 32 PIPESIZE)
      (ring : s'.ring = (s.store ch).ring)
  | took (some : s.nread ≠ s.nwrite) (ring : s'.ring = s.take.ring)

section Ring

variable {s s' : State nproc} {p : Fin nproc} {a : Act nproc}

theorem pipewrite_ring (n i : Int) (byte : Option UInt8) : RingMove s (s.pipewrite p n i byte) := by
  unfold State.pipewrite
  split
  · split
    · exact .same rfl
    · split
      · exact .same rfl
      · rename_i room
        cases byte with
        | none => exact .same rfl
        | some ch => exact .stored ch room rfl
  · exact .same rfl

theorem piperead_ring (n : Int) : RingMove s (s.piperead p n) := by
  unfold State.piperead
  split
  · split
    · exact .same rfl
    · exact .same rfl
  · exact .same rfl

theorem copy_ring (n i : Int) (copied : Bool) : RingMove s (s.copy p n i copied) := by
  unfold State.copy
  split
  · split
    · exact .same rfl
    · rename_i some
      split
      · exact .took some rfl
      · exact .took some rfl
  · exact .same rfl

theorem wakeup_ring {chan : Chan} {after : After} {todo : List (Fin nproc)}
    (stepped : s.wakeup p chan after todo = some s') : RingMove s s' := by
  cases todo with
  | nil =>
    cases stepped
    exact .same rfl
  | cons q todo =>
    simp only [State.wakeup] at stepped
    split at stepped
    · cases stepped
      exact .same rfl
    · split at stepped
      · cases stepped
      · split at stepped <;> cases stepped <;> exact .same rfl

theorem run_ring {byte : Option UInt8} {copied : Bool} (stepped : s.run p byte copied = some s') :
    RingMove s s' := by
  unfold State.run at stepped
  split at stepped
  · cases stepped
  · split at stepped <;> cases stepped
    exact .same rfl
  · split at stepped <;> cases stepped
    unfold State.pipeclose
    split
    · exact .same rfl
    · exact .same rfl
  · cases stepped
    exact pipewrite_ring _ _ _
  · cases stepped
    exact piperead_ring _
  · cases stepped
    exact copy_ring _ _ _
  · exact wakeup_ring stepped
  · cases stepped
    exact .same rfl
  · cases stepped
    exact .same rfl
  · cases stepped
    exact .same rfl
  · cases stepped
    exact .same rfl
  · split at stepped <;> cases stepped
    exact .same rfl
  · cases stepped
    exact .same rfl

theorem start_ring {place : Pc nproc} (stepped : s.start p place = some s') : RingMove s s' := by
  unfold State.start at stepped
  split at stepped <;> cases stepped
  exact .same rfl

theorem step_ring (stepped : step s a = some s') : RingMove s s' := by
  cases a with
  | pipewrite p count | piperead p count | pipeclose p writable => exact start_ring stepped
  | run p byte copied => exact run_ring stepped
  | kill p =>
    simp only [step] at stepped
    split at stepped <;> cases stepped
    exact .same rfl

/-- The ring holds the bytes that were written and not yet taken out. -/
structure RingOk (s : State nproc) : Prop where
  nread : s.nread = BitVec.ofNat 32 s.taken.length
  nwrite : s.nwrite = BitVec.ofNat 32 s.put.length
  window : Window PIPESIZE s.data s.put s.taken.length
  order : s.taken <+: s.put

theorem RingOk.congr (ok : RingOk s) (ring : s'.ring = s.ring) : RingOk s' := by
  simp only [State.ring, Prod.mk.injEq] at ring
  obtain ⟨data, nread, nwrite, put, taken⟩ := ring
  refine ⟨?_, ?_, ?_, ?_⟩
  · rw [nread, taken]
    exact ok.nread
  · rw [nwrite, put]
    exact ok.nwrite
  · rw [data, put, taken]
    exact ok.window
  · rw [put, taken]
    exact ok.order

theorem pipesize_dvd : PIPESIZE ∣ 2 ^ 32 := ⟨2 ^ 23, by decide⟩

theorem RingOk.near (ok : RingOk s) :
    s.taken.length ≤ s.put.length ∧ s.put.length - s.taken.length < 2 ^ 32 := by
  have below := ok.window.below
  have fits := ok.window.fits
  refine ⟨below, ?_⟩
  simp only [PIPESIZE] at fits
  omega

theorem RingOk.full_iff (ok : RingOk s) :
    s.nwrite = s.nread + BitVec.ofNat 32 PIPESIZE ↔ s.put.length = s.taken.length + PIPESIZE := by
  have below := ok.window.below
  have fits := ok.window.fits
  have size : PIPESIZE < 2 ^ 32 := by decide
  rw [ok.nwrite, ok.nread, BitVec.ofNat_add_ofNat]
  constructor
  · intro same
    exact ((counter_inj fits (by omega)).mp same.symm).symm
  · intro same
    rw [same]

theorem RingOk.empty_iff (ok : RingOk s) : s.nread = s.nwrite ↔ s.put.length = s.taken.length := by
  rw [ok.nwrite, ok.nread, eq_comm]
  exact counter_inj ok.near.1 ok.near.2

theorem RingOk.store (ok : RingOk s) (ch : UInt8)
    (room : s.nwrite ≠ s.nread + BitVec.ofNat 32 PIPESIZE) : RingOk (s.store ch) := by
  have notFull : s.put.length < s.taken.length + PIPESIZE := by
    have fits := ok.window.fits
    have other := mt ok.full_iff.mpr room
    omega
  have cell : s.nwrite.toNat % PIPESIZE = s.put.length % PIPESIZE := by
    rw [ok.nwrite, counter_mod pipesize_dvd]
  refine ⟨ok.nread, ?_, ?_, ?_⟩
  · simp only [State.store, ok.nwrite, counter_succ, List.length_append, List.length_singleton]
  · simp only [State.store, cell]
    exact ok.window.push notFull ch
  · exact ok.order.trans (List.prefix_append _ _)

theorem RingOk.take (ok : RingOk s) (some : s.nread ≠ s.nwrite) : RingOk s.take := by
  have more : s.taken.length < s.put.length := by
    have below := ok.window.below
    have other := mt ok.empty_iff.mpr some
    omega
  have byte : s.data (s.nread.toNat % PIPESIZE) = s.put[s.taken.length] := by
    rw [ok.nread, counter_mod pipesize_dvd]
    exact ok.window.oldest more
  refine ⟨?_, ok.nwrite, ?_, ?_⟩
  · simp only [State.take, ok.nread, counter_succ, List.length_append, List.length_singleton]
  · simp only [State.take, List.length_append, List.length_singleton]
    exact ok.window.pop more
  · simp only [State.take, byte]
    obtain ⟨rest, whole⟩ := ok.order
    cases rest with
    | nil =>
      rw [List.append_nil] at whole
      rw [whole] at more
      exact absurd more (Nat.lt_irrefl _)
    | cons first rest =>
      refine ⟨rest, ?_⟩
      have here : s.put[s.taken.length] = first := by
        simp [← whole]
      rw [here, List.append_assoc]
      exact whole

theorem RingOk.step (ok : RingOk s) (stepped : step s a = some s') : RingOk s' := by
  cases step_ring stepped with
  | same ring => exact ok.congr ring
  | stored ch room ring => exact (ok.store ch room).congr ring
  | took some ring => exact (ok.take some).congr ring

theorem Reachable.ringOk (reached : Reachable s) : RingOk s := by
  induction reached with
  | initial data killed => exact ⟨rfl, rfl, Window.empty data, List.prefix_rfl⟩
  | step a _ stepped ih => exact ih.step stepped

structure Fifo (s : State nproc) : Prop where
  count : (s.nwrite - s.nread).toNat ≤ PIPESIZE
  unread : s.put.drop s.taken.length = (List.range (s.nwrite - s.nread).toNat).map
    fun k => s.data ((s.nread + BitVec.ofNat 32 k).toNat % PIPESIZE)
  order : s.taken <+: s.put

/-- In every interleaving of reads, writes, closes and kills a pipe loses and
reorders nothing. -/
theorem pipe_fifo (reached : Reachable s) : Fifo s := by
  have ok := reached.ringOk
  have distance : (s.nwrite - s.nread).toNat = s.put.length - s.taken.length := by
    rw [ok.nwrite, ok.nread]
    exact counter_sub ok.near.1 ok.near.2
  refine ⟨?_, ?_, ok.order⟩
  · have fits := ok.window.fits
    omega
  · rw [distance, ok.window.contents]
    apply List.map_congr_left
    intro k _
    rw [ok.nread, BitVec.ofNat_add_ofNat, counter_mod pipesize_dvd]

end Ring

def runs (s : State nproc) : List (Act nproc) → Option (State nproc)
  | [] => some s
  | a :: rest => (step s a).bind (runs · rest)

theorem Reachable.runs {s s' : State nproc} (acts : List (Act nproc)) (reached : Reachable s)
    (ran : runs s acts = some s') : Reachable s' := by
  induction acts generalizing s with
  | nil =>
    cases ran
    exact reached
  | cons a rest ih =>
    obtain ⟨middle, stepped, more⟩ := Option.bind_eq_some_iff.mp ran
    exact ih (.step a reached stepped) more

/-- Process 0 writes two bytes, process 1 reads one of them. -/
theorem pipe_fifo_two : ∃ s : State 2, Reachable s ∧ s.put = [5, 6] ∧ s.taken = [5] ∧ Fifo s := by
  have ran : (runs (initial (fun _ => 0) fun _ => false : State 2)
      [.pipewrite 0 2, .run 0 none true, .run 0 (some 5) true, .run 0 (some 6) true,
        .run 0 none true, .run 0 none true, .run 0 none true, .run 0 none true, .run 0 none true,
        .piperead 1 1, .run 1 none true, .run 1 none true, .run 1 none true]).isSome := by decide
  obtain ⟨s, ran⟩ := Option.isSome_iff_exists.mp ran
  have contents := congrArg (Option.map fun s => (s.put, s.taken)) ran
  have known : ([5, 6], [5]) = (s.put, s.taken) := Option.some.inj (Eq.trans rfl contents)
  have reached := Reachable.runs _ (.initial _ _) ran
  exact ⟨s, reached, (congrArg Prod.fst known).symm, (congrArg Prod.snd known).symm,
    pipe_fifo reached⟩

end OsbKernel.PipeMachine
