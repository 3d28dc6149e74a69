import OsbKernel.Types

/-!
# The loop that increments `procCount`

`do{}while(cas(&cpus[i].procCount, cpus[i].procCount, cpus[i].procCount+1))` of `fork` and
`wakeup`, run by any number of CPUs on one counter. The loads of the two arguments, `lr.w` and
`sc.w` are separate steps. `cas` compares and replaces the low word of the `uint64`.
-/

namespace OsbKernel.CasLoop

open Function

inductive Pc where
  | outside
  | head
  | loaded (expected : BitVec 64)
  | called (expected newval : BitVec 32)
  | linked (expected newval : BitVec 32)
  deriving DecidableEq, Repr

/-- A loop that ended, with the counter before and after its last `cas`. -/
structure Exit (ι : Type) where
  cpu : ι
  before : BitVec 64
  after : BitVec 64

/-- The counter, the reservations of `lr.w`, and where the CPUs are. -/
structure State (ι : Type) where
  procCount : BitVec 64
  reserved : ι → Bool
  pc : ι → Pc
  exited : List (Exit ι)

inductive Act where
  | enter
  | load
  | lr
  | sc (stores : Bool)
  | lose
  deriving DecidableEq, Repr

/-- The low word in memory, which is also what a `uint64` becomes as an `int` argument. -/
def lowWord (x : BitVec 64) : BitVec 32 := x.setWidth 32

def storeLow (x : BitVec 64) (w : BitVec 32) : BitVec 64 := x.extractLsb' 32 32 ++ w

variable {ι : Type} [DecidableEq ι]

def State.goto (s : State ι) (i : ι) (place : Pc) : State ι := { s with pc := update s.pc i place }

def step (s : State ι) (i : ι) : Act → Option (State ι)
  | .enter =>
    match s.pc i with
    | .outside => some (s.goto i .head)
    | _ => none
  | .load =>
    match s.pc i with
    | .head => some (s.goto i (.loaded s.procCount))
    | .loaded expected =>
      some (s.goto i (.called (lowWord expected) (lowWord (s.procCount + 1))))
    | _ => none
  | .lr =>
    match s.pc i with
    | .called expected newval =>
      let s := { s with reserved := update s.reserved i true }
      -- `bne t0, a1, fail`: the loop is tried again
      if lowWord s.procCount = expected then some (s.goto i (.linked expected newval))
      else some (s.goto i .head)
    | _ => none
  | .sc stores =>
    match s.pc i with
    | .linked _ newval =>
      if stores then
        if s.reserved i then
          -- the store ends the reservations of all CPUs
          some
            { procCount := storeLow s.procCount newval
              reserved := fun _ => false
              pc := update s.pc i .outside
              exited := ⟨i, s.procCount, storeLow s.procCount newval⟩ :: s.exited }
        else none
      else some { s.goto i .head with reserved := update s.reserved i false }
    | _ => none
  | .lose => some { s with reserved := update s.reserved i false }

def start (initial : BitVec 64) : State ι := ⟨initial, fun _ => false, fun _ => .outside, []⟩

inductive Reachable (initial : BitVec 64) : State ι → Prop where
  | start : Reachable initial (start initial)
  | step {s s' : State ι} {i : ι} {a : Act} (reached : Reachable initial s)
      (stepped : step s i a = some s') : Reachable initial s'

/-- The arguments of `cas` were loaded when the counter was `a` and then `b`. -/
def Loaded (now : Nat) (expected newval : BitVec 32) : Prop :=
  ∃ a b, a ≤ b ∧ b ≤ now ∧ expected = BitVec.ofNat 32 a ∧ newval = BitVec.ofNat 32 (b + 1)

/-- What a CPU in the loop knows when the counter is `now`. -/
def Seen (now : Nat) (reserved : Bool) : Pc → Prop
  | .outside => True
  | .head => True
  | .loaded expected => expected.toNat ≤ now
  | .called expected newval => Loaded now expected newval
  | .linked expected newval =>
    Loaded now expected newval ∧ (reserved = true → expected = BitVec.ofNat 32 now)

/-- The counter is exact, and what the CPUs have seen are earlier values of it. -/
structure Inv (initial : BitVec 64) (s : State ι) : Prop where
  count : s.procCount.toNat = initial.toNat + s.exited.length
  seen : ∀ i, Seen s.procCount.toNat (s.reserved i) (s.pc i)
  exits : ∀ e ∈ s.exited, e.after.toNat = e.before.toNat + 1

variable {now : Nat} {place : Pc}

theorem Loaded.mono {later : Nat} {expected newval : BitVec 32} (le : now ≤ later)
    (loaded : Loaded now expected newval) : Loaded later expected newval := by
  obtain ⟨a, b, ordered, past, rest⟩ := loaded
  exact ⟨a, b, ordered, past.trans le, rest⟩

theorem Seen.weaken {later : Nat} {reserved : Bool} (le : now ≤ later)
    (seen : Seen now reserved place) : Seen later false place := by
  cases place with
  | outside => trivial
  | head => trivial
  | loaded expected => exact Nat.le_trans seen le
  | called expected newval => exact seen.mono le
  | linked expected newval => exact ⟨seen.1.mono le, by simp⟩

theorem lowWord_eq (x : BitVec 64) : lowWord x = BitVec.ofNat 32 x.toNat := by
  apply BitVec.eq_of_toNat_eq
  simp [lowWord]

theorem lowWord_succ (x : BitVec 64) : lowWord (x + 1) = BitVec.ofNat 32 (x.toNat + 1) := by
  apply BitVec.eq_of_toNat_eq
  simp [lowWord]

theorem storeLow_toNat {x : BitVec 64} {n : Nat} (small : x.toNat < 2 ^ 32) (fits : n < 2 ^ 32) :
    (storeLow x (BitVec.ofNat 32 n)).toNat = n := by
  have high : x.toNat >>> 32 = 0 := by
    rw [Nat.shiftRight_eq_div_pow]
    exact Nat.div_eq_of_lt small
  refine (BitVec.toNat_append (x.extractLsb' 32 32) (BitVec.ofNat 32 n)).trans ?_
  rw [BitVec.extractLsb'_toNat, high, BitVec.toNat_ofNat, Nat.mod_eq_of_lt fits]
  simp

theorem ofNat_inj_of_lt {a b : Nat} (ha : a < 2 ^ 32) (hb : b < 2 ^ 32)
    (same : BitVec.ofNat 32 a = BitVec.ofNat 32 b) : a = b := by
  have equal := congrArg BitVec.toNat same
  rwa [BitVec.toNat_ofNat, BitVec.toNat_ofNat, Nat.mod_eq_of_lt ha, Nat.mod_eq_of_lt hb] at equal

theorem Seen.newval {expected newval : BitVec 32} (few : now < 2 ^ 32)
    (seen : Seen now true (.linked expected newval)) : newval = BitVec.ofNat 32 (now + 1) := by
  obtain ⟨⟨a, b, ordered, past, first, second⟩, held⟩ := seen
  have same : a = now := ofNat_inj_of_lt (by omega) few (first.symm.trans (held rfl))
  have between : b = now := by omega
  rw [second, between]

/-- CPU `i` moves without touching the counter, and knows afterwards what it should. -/
structure Quiet (s : State ι) (i : ι) (s' : State ι) : Prop where
  count : s'.procCount = s.procCount
  exited : s'.exited = s.exited
  places : ∀ j, j ≠ i → s'.pc j = s.pc j
  reservations : ∀ j, j ≠ i → s'.reserved j = s.reserved j
  self : Seen s.procCount.toNat (s.reserved i) (s.pc i) →
    Seen s.procCount.toNat (s'.reserved i) (s'.pc i)

/-- CPU `i` stores into the counter while its reservation holds. -/
structure Stores (s : State ι) (i : ι) (s' : State ι) : Prop where
  stores : ∃ expected newval, s.pc i = .linked expected newval ∧ s.reserved i = true ∧
    s' = { procCount := storeLow s.procCount newval
           reserved := fun _ => false
           pc := update s.pc i .outside
           exited := ⟨i, s.procCount, storeLow s.procCount newval⟩ :: s.exited }

section Steps

variable {initial : BitVec 64} {s s' : State ι} {i : ι} {a : Act}

theorem Quiet.goto (self : Seen s.procCount.toNat (s.reserved i) (s.pc i) →
    Seen s.procCount.toNat (s.reserved i) place) : Quiet s i (s.goto i place) := by
  refine ⟨rfl, rfl, fun j other => update_of_ne other _ _, fun _ _ => rfl, ?_⟩
  intro known
  have here : (s.goto i place).pc i = place := update_self _ _ _
  rw [here]
  exact self known

theorem Quiet.reserve {reserved : Bool}
    (self : Seen s.procCount.toNat (s.reserved i) (s.pc i) →
      Seen s.procCount.toNat reserved place) :
    Quiet s i { s.goto i place with reserved := update s.reserved i reserved } := by
  refine ⟨rfl, rfl, fun j other => update_of_ne other _ _, fun j other => update_of_ne other _ _, ?_⟩
  intro known
  have here : (s.goto i place).pc i = place := update_self _ _ _
  simp only [here, update_self]
  exact self known

theorem step_cases (stepped : step s i a = some s') : Quiet s i s' ∨ Stores s i s' := by
  cases a with
  | enter =>
    simp only [step] at stepped
    split at stepped <;> cases stepped
    exact .inl (.goto fun _ => trivial)
  | load =>
    simp only [step] at stepped
    split at stepped
    · cases stepped
      exact .inl (.goto fun _ => Nat.le_refl _)
    · rename_i expected place
      cases stepped
      refine .inl (.goto fun known => ?_)
      rw [place] at known
      exact ⟨expected.toNat, s.procCount.toNat, known, Nat.le_refl _, lowWord_eq _,
        lowWord_succ _⟩
    · cases stepped
  | lr =>
    simp only [step] at stepped
    split at stepped
    · rename_i expected newval place
      split at stepped
      · rename_i equal
        cases stepped
        refine .inl (.reserve fun known => ?_)
        rw [place] at known
        exact ⟨known, fun _ => equal.symm.trans (lowWord_eq _)⟩
      · cases stepped
        exact .inl (.reserve fun _ => trivial)
    · cases stepped
  | sc stores =>
    simp only [step] at stepped
    split at stepped
    · rename_i expected newval place
      split at stepped
      · split at stepped
        · rename_i reserved
          cases stepped
          exact .inr ⟨expected, newval, place, reserved, rfl⟩
        · cases stepped
      · cases stepped
        exact .inl (.reserve fun _ => trivial)
    · cases stepped
  | lose =>
    cases stepped
    refine .inl ⟨rfl, rfl, fun _ _ => rfl, fun j other => update_of_ne other _ _, ?_⟩
    intro known
    simp only [update_self]
    exact known.weaken (Nat.le_refl _)

theorem step_exited (stepped : step s i a = some s') : s.exited.length ≤ s'.exited.length := by
  rcases step_cases stepped with quiet | ⟨_, _, _, _, rfl⟩
  · rw [quiet.exited]
  · exact Nat.le_succ _

theorem Inv.quiet (inv : Inv initial s) (quiet : Quiet s i s') : Inv initial s' := by
  refine ⟨?_, ?_, ?_⟩
  · rw [quiet.count, quiet.exited]
    exact inv.count
  · intro j
    rw [quiet.count]
    by_cases same : j = i
    · rw [same]
      exact quiet.self (inv.seen i)
    · rw [quiet.places j same, quiet.reservations j same]
      exact inv.seen j
  · rw [quiet.exited]
    exact inv.exits

theorem Inv.stores (inv : Inv initial s) (stores : Stores s i s')
    (few : initial.toNat + s'.exited.length < 2 ^ 32) : Inv initial s' := by
  obtain ⟨expected, newval, place, reserved, rfl⟩ := stores
  have count := inv.count
  simp only [List.length_cons] at few
  have seen := inv.seen i
  rw [place, reserved] at seen
  have one : (storeLow s.procCount newval).toNat = s.procCount.toNat + 1 := by
    rw [seen.newval (by omega)]
    exact storeLow_toNat (by omega) (by omega)
  refine ⟨?_, ?_, ?_⟩
  · simp only [List.length_cons]
    omega
  · intro j
    by_cases same : j = i
    · rw [same]
      simp only [update_self]
      trivial
    · simp only [update_of_ne same]
      exact (inv.seen j).weaken (by omega)
  · intro e listed
    cases listed with
    | head => exact one
    | tail _ earlier => exact inv.exits e earlier

theorem Reachable.inv (reached : Reachable initial s)
    (few : initial.toNat + s.exited.length < 2 ^ 32) : Inv initial s := by
  induction reached with
  | start => exact ⟨rfl, fun _ => trivial, by simp [CasLoop.start]⟩
  | step _ stepped ih =>
    have earlier := ih (by have grown := step_exited stepped; omega)
    rcases step_cases stepped with quiet | stores
    · exact earlier.quiet quiet
    · exact earlier.stores stores few

/-- No increment is lost: while fewer than `2 ^ 32` increments have been made, those
before the run included, each loop that ended has raised the counter by exactly one
at its last `cas`, and the counter has grown by the number of loops that ended. -/
theorem increments_exact (reached : Reachable initial s)
    (few : initial.toNat + s.exited.length < 2 ^ 32) :
    (∀ e ∈ s.exited, e.after.toNat = e.before.toNat + 1) ∧
      s.procCount.toNat = initial.toNat + s.exited.length :=
  ⟨(reached.inv few).exits, (reached.inv few).count⟩

end Steps

def run (s : State ι) : List (ι × Act) → Option (State ι)
  | [] => some s
  | (i, a) :: rest => (step s i a).bind (run · rest)

theorem Reachable.run {initial : BitVec 64} {s s' : State ι} (acts : List (ι × Act))
    (reached : Reachable initial s) (ran : run s acts = some s') : Reachable initial s' := by
  induction acts generalizing s with
  | nil =>
    cases ran
    exact reached
  | cons act rest ih =>
    obtain ⟨middle, stepped, more⟩ := Option.bind_eq_some_iff.mp ran
    exact ih (.step reached stepped) more

/-- Two CPUs load the same value; the second `sc.w` fails, and its loop goes round again. -/
theorem increments_exact_race : ∃ s : State Bool, Reachable 0 s ∧ s.exited.length = 2 ∧
    s.procCount.toNat = 2 := by
  have ran : (run (start 0 : State Bool)
      [(false, .enter), (false, .load), (true, .enter), (true, .load), (false, .load),
        (true, .load), (false, .lr), (true, .lr), (false, .sc true), (true, .sc false),
        (true, .load), (true, .load), (true, .lr), (true, .sc true)]).isSome := by decide
  obtain ⟨s, ran⟩ := Option.isSome_iff_exists.mp ran
  have two : s.exited.length = 2 := by
    have known := congrArg (Option.map fun s => s.exited.length) ran
    exact (Option.some.inj (known.symm.trans rfl))
  have reached := Reachable.run _ .start ran
  refine ⟨s, reached, two, ?_⟩
  have exact_ := (increments_exact reached (by rw [two]; decide)).2
  rw [two] at exact_
  exact exact_

end OsbKernel.CasLoop
