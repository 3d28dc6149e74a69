import Mathlib.Data.Nat.Find
import OsbKernel.Ipc.Pipe
import OsbKernel.Vm.UserCopy

/-!
# What `piperead` delivers

`piperead` with the page table of the reader.  `pi->lock` is held throughout the copy loop, so a
call works on one state of the pipe from the end of its waiting on.
-/

namespace OsbKernel.PipeRead

open Paging PartialMap

variable {K : Type} [Allocator K]

abbrev PIPESIZE : Nat := 512

structure Pipe where
  data : Nat → Byte
  nread : BitVec 32
  nwrite : BitVec 32
  readopen : Bool
  writeopen : Bool

/-- The second loop of `piperead` from `i` on, with the rounds that are left. -/
def copyLoop (pagetable addr : Word) : Nat → Nat → Pipe → Paging.Machine K → Nat × Pipe × Paging.Machine K
  | 0, i, pi, m => (i, pi, m)
  | left + 1, i, pi, m =>
    if pi.nread = pi.nwrite then (i, pi, m)
    else
      let ch := pi.data (pi.nread.toNat % PIPESIZE)
      let pi := { pi with nread := pi.nread + 1 }
      let (copied, m) := Paging.copyout m pagetable (addr + BitVec.ofNat 64 i) [ch]
      if copied = false then (i, pi, m) else copyLoop pagetable addr left (i + 1) pi m

/-- `piperead`; the result is `none` when it goes to sleep. -/
def piperead (m : Paging.Machine K) (pagetable : Word) (pi : Pipe) (addr : Word) (killed : Bool) (n : Int) :
    Option (Int × Pipe × Paging.Machine K) :=
  if pi.nread = pi.nwrite ∧ pi.writeopen = true then
    if killed = true then some (-1, pi, m) else none
  else
    let (i, pi, m) := copyLoop pagetable addr n.toNat 0 pi m
    some (i, pi, m)

def Pipe.unread (pi : Pipe) : Nat := (pi.nwrite - pi.nread).toNat

/-- The `r` oldest bytes in the pipe. -/
def Pipe.oldest (pi : Pipe) (r : Nat) : List Byte :=
  (List.range r).map fun k => pi.data ((pi.nread + BitVec.ofNat 32 k).toNat % PIPESIZE)

def Pipe.advance (pi : Pipe) (r : Nat) : Pipe := { pi with nread := pi.nread + BitVec.ofNat 32 r }

variable {m : Paging.Machine K} {pt addr : Word} {pi : Pipe}

theorem unread_zero : pi.unread = 0 ↔ pi.nread = pi.nwrite := by
  unfold Pipe.unread
  constructor
  · intro none
    rw [BitVec.toNat_sub] at none
    apply BitVec.eq_of_toNat_eq
    omega
  · intro same
    rw [same, BitVec.sub_self]
    rfl

theorem unread_advance (some : pi.nread ≠ pi.nwrite) : (pi.advance 1).unread = pi.unread - 1 := by
  have more : pi.unread ≠ 0 := fun none => some (unread_zero.mp none)
  unfold Pipe.unread at more ⊢
  change (pi.nwrite - (pi.nread + 1)).toNat = _
  have one : (1 : BitVec 32).toNat = 1 := rfl
  rw [BitVec.toNat_sub] at more
  rw [BitVec.toNat_sub, BitVec.toNat_sub, BitVec.toNat_add, one]
  omega

theorem advance_advance (pi : Pipe) (r : Nat) : (pi.advance 1).advance r = pi.advance (r + 1) := by
  unfold Pipe.advance
  rw [BitVec.add_assoc, ← BitVec.ofNat_add, Nat.add_comm]

theorem oldest_succ (pi : Pipe) (r : Nat) :
    pi.oldest (r + 1) = pi.data (pi.nread.toNat % PIPESIZE) :: (pi.advance 1).oldest r := by
  unfold Pipe.oldest
  rw [List.range_succ_eq_map, List.map_cons, List.map_map]
  congr 1
  · rw [BitVec.add_zero]
  · refine List.map_congr_left fun k _ => ?_
    change pi.data _ = pi.data ((pi.nread + 1 + BitVec.ofNat 32 k).toNat % PIPESIZE)
    congr 3
    rw [BitVec.add_assoc]
    congr 1
    change BitVec.ofNat 32 (k + 1) = BitVec.ofNat 32 1 + BitVec.ofNat 32 k
    rw [← BitVec.ofNat_add, Nat.add_comm]

theorem copyout_byte (separate : Separate m pt) (va : Word) (ch : Byte) :
    (userMem m pt va.toNat = none ∧ (Paging.copyout m pt va [ch]).1 = false) ∨
      (userMem m pt va.toNat ≠ none ∧ (Paging.copyout m pt va [ch]).1 = true ∧
        Separate (Paging.copyout m pt va [ch]).2 pt ∧
        userMem (Paging.copyout m pt va [ch]).2 pt = overwrite (userMem m pt) va.toNat [ch]) := by
  obtain ⟨k, copies⟩ := copyout_copies separate va [ch]
  by_cases whole : k = 1
  · have copied := copies.copied
    rw [whole] at copied
    refine .inr ⟨?_, copies.returns.mpr whole, Separate.congr separate (copied.tables separate), copied.userMem⟩
    have mapped := copies.returns_iff.mp (copies.returns.mpr whole) 0 Nat.zero_lt_one
    exact mapped
  · have bound := copies.bound
    change k ≤ 1 at bound
    obtain rfl : k = 0 := by omega
    refine .inl ⟨copies.stopped Nat.zero_lt_one, Bool.eq_false_of_not_eq_true fun returned => ?_⟩
    exact Nat.zero_ne_one (copies.returns.mp returned)

def Mapped (m : Paging.Machine K) (pt addr : Word) (i count : Nat) : Prop :=
  ∀ k < count, userMem m pt (addr + BitVec.ofNat 64 (i + k)).toNat ≠ none

theorem Mapped.first {i count : Nat} (mapped : Mapped m pt addr i count) (some : 0 < count) :
    userMem m pt (addr + BitVec.ofNat 64 i).toNat ≠ none := by
  have known := mapped 0 some
  exact known

theorem Mapped.rest {m' : Paging.Machine K} {a i count : Nat} {ch : Byte} (mapped : Mapped m pt addr i (count + 1))
    (copied : userMem m' pt = overwrite (userMem m pt) a [ch]) :
    Mapped m' pt addr (i + 1) count := by
  intro k inside
  have known := mapped (k + 1) (by omega)
  rw [← Nat.add_assoc, Nat.add_right_comm] at known
  rw [copied]
  by_cases here : a ≤ (addr + BitVec.ofNat 64 (i + 1 + k)).toNat ∧
      (addr + BitVec.ofNat 64 (i + 1 + k)).toNat < a + [ch].length
  · rw [overwrite_inside here.1 here.2, List.getElem?_eq_getElem (by omega)]
    exact Option.some_ne_none _
  · rw [overwrite_outside (by omega)]
    exact known

theorem copyLoop_empty (left i : Nat) (m : Paging.Machine K) (empty : pi.nread = pi.nwrite) :
    copyLoop pt addr left i pi m = (i, pi, m) := by
  cases left with
  | zero => rfl
  | succ left => exact if_pos empty

theorem copyLoop_round (left i : Nat) (m : Paging.Machine K) (some : pi.nread ≠ pi.nwrite) :
    copyLoop pt addr (left + 1) i pi m =
      let copied := Paging.copyout m pt (addr + BitVec.ofNat 64 i) [pi.data (pi.nread.toNat % PIPESIZE)]
      if copied.1 = false then (i, pi.advance 1, copied.2)
      else copyLoop pt addr left (i + 1) (pi.advance 1) copied.2 := if_neg some

theorem advance_zero (pi : Pipe) : pi.advance 0 = pi := by
  unfold Pipe.advance
  rw [BitVec.add_zero]

theorem copyLoop_delivers (left i : Nat) (separate : Separate m pt)
    (mapped : Mapped m pt addr i (min left pi.unread)) :
    ∃ m', copyLoop pt addr left i pi m =
        (i + min left pi.unread, pi.advance (min left pi.unread), m') ∧
      userMem m' pt = overwrite (userMem m pt) (addr + BitVec.ofNat 64 i).toNat
        (pi.oldest (min left pi.unread)) := by
  induction left generalizing i pi m with
  | zero =>
    rw [Nat.zero_min, advance_zero]
    exact ⟨m, rfl, overwrite_nil.symm⟩
  | succ left ih =>
    by_cases empty : pi.nread = pi.nwrite
    · rw [unread_zero.mpr empty, Nat.min_zero, advance_zero, copyLoop_empty _ _ _ empty]
      exact ⟨m, rfl, overwrite_nil.symm⟩
    · have more : pi.unread ≠ 0 := fun none => empty (unread_zero.mp none)
      have count : min (left + 1) pi.unread = min left (pi.advance 1).unread + 1 := by
        rw [unread_advance empty]
        omega
      rw [count] at mapped ⊢
      have first := mapped.first (Nat.succ_pos _)
      rw [copyLoop_round left i m empty]
      rcases copyout_byte separate (addr + BitVec.ofNat 64 i) (pi.data (pi.nread.toNat % PIPESIZE)) with
        ⟨missing, -⟩ | ⟨-, returned, separate', copied⟩
      · exact absurd missing first
      · dsimp only
        rw [returned, if_neg Bool.noConfusion]
        obtain ⟨m', ran, laid⟩ := ih (i + 1) separate' (mapped.rest copied)
        refine ⟨m', ?_, ?_⟩
        · rw [ran, advance_advance, Nat.add_assoc, Nat.add_comm 1]
        · have low : (addr + BitVec.ofNat 64 i).toNat < 2 ^ 38 := by
            by_contra high
            exact first (userMem_outside (Nat.le_of_not_lt high))
          have next : (addr + BitVec.ofNat 64 (i + 1)).toNat = (addr + BitVec.ofNat 64 i).toNat + 1 := by
            rw [BitVec.toNat_add, BitVec.toNat_ofNat] at low ⊢
            rw [BitVec.toNat_add, BitVec.toNat_ofNat]
            omega
          rw [laid, copied, next, overwrite_cons, oldest_succ]

/-- The loop stops at the first address that is not mapped, and the byte for it is lost. -/
theorem copyLoop_loses (left i : Nat) (separate : Separate m pt) {k : Nat}
    (inside : k < min left pi.unread) (mapped : Mapped m pt addr i k)
    (missing : userMem m pt (addr + BitVec.ofNat 64 (i + k)).toNat = none) :
    ∃ m', copyLoop pt addr left i pi m = (i + k, pi.advance (k + 1), m') := by
  induction left generalizing i pi m k with
  | zero => omega
  | succ left ih =>
    have some : pi.nread ≠ pi.nwrite := by
      intro empty
      rw [unread_zero.mpr empty] at inside
      omega
    rw [copyLoop_round left i m some]
    rcases copyout_byte separate (addr + BitVec.ofNat 64 i) (pi.data (pi.nread.toNat % PIPESIZE)) with
      ⟨absent, failed⟩ | ⟨present, returned, separate', copied⟩
    · have first : k = 0 := by
        by_contra later
        exact mapped.first (Nat.pos_of_ne_zero later) absent
      dsimp only
      rw [failed, if_pos rfl, first]
      exact ⟨_, rfl⟩
    · cases k with
      | zero => exact absurd missing present
      | succ k =>
        dsimp only
        rw [returned, if_neg Bool.noConfusion]
        have count : k < min left (pi.advance 1).unread := by
          rw [unread_advance some]
          omega
        have place : i + (k + 1) = i + 1 + k := by omega
        rw [place] at missing
        have still : userMem (Paging.copyout m pt (addr + BitVec.ofNat 64 i)
            [pi.data (pi.nread.toNat % PIPESIZE)]).2 pt
              (addr + BitVec.ofNat 64 (i + 1 + k)).toNat = none := by
          rw [copied, overwrite_outside, missing]
          by_contra inside
          have same : (addr + BitVec.ofNat 64 (i + 1 + k)).toNat = (addr + BitVec.ofNat 64 i).toNat := by
            rw [List.length_singleton] at inside
            omega
          rw [same] at missing
          exact present missing
        obtain ⟨m', ran⟩ := ih (i + 1) separate' count (mapped.rest copied) still
        refine ⟨m', ?_⟩
        rw [ran, advance_advance, place]

/-- `piperead` takes out of the pipe exactly what it delivers, if and only if every byte that it has
is read to an address that is mapped. -/
theorem piperead_delivers_iff (m : Paging.Machine K) (pagetable : Word) (separate : Separate m pagetable)
    (pi : Pipe) (addr : Word) (killed : Bool) (n r : Int) (pi' : Pipe) (m' : Paging.Machine K)
    (ran : piperead m pagetable pi addr killed n = some (r, pi', m')) (ok : 0 ≤ r) :
    (pi' = pi.advance r.toNat ∧ r.toNat ≤ pi.unread ∧
      userMem m' pagetable = overwrite (userMem m pagetable) addr.toNat (pi.oldest r.toNat)) ↔
    ∀ k < min n.toNat pi.unread, userMem m pagetable (addr + BitVec.ofNat 64 k).toNat ≠ none := by
  have entered : ¬ (pi.nread = pi.nwrite ∧ pi.writeopen = true) := by
    intro waiting
    unfold piperead at ran
    rw [if_pos waiting] at ran
    by_cases dead : killed = true
    · rw [if_pos dead] at ran
      cases ran
      exact absurd ok (by decide)
    · rw [if_neg dead] at ran
      cases ran
  have result : copyLoop pagetable addr n.toNat 0 pi m = (r.toNat, pi', m') := by
    unfold piperead at ran
    rw [if_neg entered] at ran
    cases ran
    rfl
  have start : addr + BitVec.ofNat 64 0 = addr := BitVec.add_zero addr
  constructor
  · rintro ⟨advanced, -, -⟩
    by_contra lost
    rw [not_forall] at lost
    obtain ⟨k, inside, missing, before⟩ : ∃ k, k < min n.toNat pi.unread ∧
        userMem m pagetable (addr + BitVec.ofNat 64 k).toNat = none ∧
        ∀ j < k, userMem m pagetable (addr + BitVec.ofNat 64 j).toNat ≠ none := by
      have some : ∃ k, k < min n.toNat pi.unread ∧
          userMem m pagetable (addr + BitVec.ofNat 64 k).toNat = none := by
        obtain ⟨k, unmapped⟩ := lost
        rw [Classical.not_imp, not_not] at unmapped
        exact ⟨k, unmapped⟩
      obtain ⟨inside, missing⟩ := Nat.find_spec some
      refine ⟨Nat.find some, inside, missing, fun j less absent => ?_⟩
      exact Nat.find_min some less ⟨Nat.lt_trans less inside, absent⟩
    have mapped : Mapped m pagetable addr 0 k := fun j less => by
      rw [Nat.zero_add]
      exact before j less
    obtain ⟨m'', loop⟩ := copyLoop_loses n.toNat 0 separate inside mapped
      (by rw [Nat.zero_add]; exact missing)
    rw [result, Nat.zero_add] at loop
    obtain ⟨count, rest⟩ := Prod.mk.inj loop
    obtain ⟨pipe, -⟩ := Prod.mk.inj rest
    rw [advanced, count] at pipe
    have nread := congrArg (fun pi => pi.nread.toNat) pipe
    change (pi.nread + BitVec.ofNat 32 k).toNat = (pi.nread + BitVec.ofNat 32 (k + 1)).toNat at nread
    rw [BitVec.toNat_add, BitVec.toNat_add, BitVec.toNat_ofNat, BitVec.toNat_ofNat] at nread
    omega
  · intro mapped
    obtain ⟨m'', loop, laid⟩ := copyLoop_delivers n.toNat 0 separate
      (fun k inside => by rw [Nat.zero_add]; exact mapped k inside)
    rw [result] at loop
    rw [start] at laid
    obtain ⟨count, rest⟩ := Prod.mk.inj loop
    obtain ⟨rfl, rfl⟩ := Prod.mk.inj rest
    rw [Nat.zero_add] at count
    rw [count]
    exact ⟨rfl, Nat.min_le_right _ _, laid⟩

def twoBytes : Pipe := ⟨fun k => if k = 0 then 7 else 8, 0, 2, true, true⟩

theorem piperead_delivers_iff_twoBytes :
    ∃ pi' m', piperead (onePage 0x4000) 0x1000 twoBytes 5 false 2 = some (2, pi', m') ∧
      ((pi' = twoBytes.advance 2 ∧ 2 ≤ twoBytes.unread ∧
        userMem m' 0x1000 = overwrite (userMem (onePage 0x4000) 0x1000) 5 (twoBytes.oldest 2)) ↔
      ∀ k < min 2 twoBytes.unread,
        userMem (onePage 0x4000) 0x1000 ((5 : Word) + BitVec.ofNat 64 k).toNat ≠ none) := by
  have returned : (piperead (onePage 0x4000) 0x1000 twoBytes 5 false 2).map (·.1) = some 2 := by
    decide +kernel
  cases ran : piperead (onePage 0x4000) 0x1000 twoBytes 5 false 2 with
  | none =>
    rw [ran] at returned
    cases returned
  | some result =>
    obtain ⟨r, pi', m'⟩ := result
    rw [ran] at returned
    obtain rfl : r = 2 := Option.some.inj returned
    exact ⟨pi', m', rfl, piperead_delivers_iff (onePage 0x4000) 0x1000 (firstPages_separate (by decide)) twoBytes 5 false
      2 2 pi' m' ran (by decide)⟩

/-- The second byte goes beyond the last mapped page: `piperead` returns 1 and has taken two bytes
out of the pipe. -/
theorem piperead_loses_a_byte :
    (piperead (onePage 0x4000) 0x1000 twoBytes 4095 false 2).map
        (fun result => (result.1, result.2.1.nread, userMem result.2.2 0x1000 4095)) =
      some (1, 2, some 7) := by
  decide +kernel

section Machine

open PipeMachine

variable {nproc : Nat} {s : State nproc} {p : Fin nproc} {n : Int}

/-- The pipe in a state of the machine. -/
def Pipe.of (s : State nproc) : Pipe :=
  ⟨fun a => (s.data a).toBitVec, s.nread, s.nwrite, s.readopen, s.writeopen⟩

/-- Steps of `p` alone. -/
def Runs (p : Fin nproc) : State nproc → State nproc → Prop :=
  Relation.ReflTransGen fun s s' => ∃ copied, s.run p none copied = some s'

theorem run_copy {i : Int} (place : s.pc p = .copy n i) (copied : Bool) :
    s.run p none copied = some (s.copy p n i copied) := by
  rw [State.run, place]

theorem copyLoop_runs (left i : Nat) (m : Paging.Machine K) (rounds : n.toNat = i + left)
    (place : s.pc p = .copy n i) :
    ∃ s', Runs p s s' ∧ Pipe.of s' = (copyLoop pt addr left i (Pipe.of s) m).2.1 ∧
      s'.pc p = .wakeup .nwrite (List.finRange nproc)
        (.release (copyLoop pt addr left i (Pipe.of s) m).1) := by
  induction left generalizing i s m with
  | zero =>
    have ran := run_copy place true
    rw [State.copy, if_neg (by omega)] at ran
    exact ⟨_, .single ⟨true, ran⟩, rfl, Function.update_self ..⟩
  | succ left ih =>
    have inside : (i : Int) < n := by omega
    by_cases empty : s.nread = s.nwrite
    · have ran := run_copy place true
      rw [State.copy, if_pos inside, if_pos empty] at ran
      rw [copyLoop_empty (left + 1) i m empty]
      exact ⟨_, .single ⟨true, ran⟩, rfl, Function.update_self ..⟩
    · rw [copyLoop_round left i m empty]
      dsimp only
      split
      · have ran := run_copy place false
        rw [State.copy, if_pos inside, if_neg empty, if_neg Bool.noConfusion] at ran
        exact ⟨_, .single ⟨false, ran⟩, rfl, Function.update_self ..⟩
      · have ran := run_copy place true
        rw [State.copy, if_pos inside, if_neg empty, if_pos rfl] at ran
        obtain ⟨s', runs, pipe, there⟩ := ih (s := s.take.goto p (.copy n (i + 1))) (i + 1) _
          (by omega) (Function.update_self ..)
        exact ⟨s', .head ⟨true, ran⟩ runs, pipe, there⟩

/-- `piperead` is what the reader does in the machine, from the loop that waits on. -/
theorem piperead_runs (place : s.pc p = .piperead n) :
    match piperead m pt (Pipe.of s) addr (s.killed p) n with
    | none => s.run p none true = some (s.goto p (.sleepLock .nread (.piperead n)))
    | some (r, pi, _) => ∃ s', Runs p s s' ∧ Pipe.of s' = pi ∧
        (s'.pc p = .release r ∨ s'.pc p = .wakeup .nwrite (List.finRange nproc) (.release r)) := by
  have ran : s.run p none true = some (s.piperead p n) := by rw [State.run, place]
  unfold State.piperead at ran
  unfold piperead
  by_cases waits : (Pipe.of s).nread = (Pipe.of s).nwrite ∧ (Pipe.of s).writeopen = true
  · replace ran := ran.trans (congrArg some (if_pos waits))
    rw [if_pos waits]
    by_cases dead : s.killed p = true
    · rw [if_pos dead] at ran ⊢
      exact ⟨_, .single ⟨true, ran⟩, rfl, .inl (Function.update_self ..)⟩
    · rw [if_neg dead] at ran ⊢
      exact ran
  · replace ran := ran.trans (congrArg some (if_neg waits))
    rw [if_neg waits]
    obtain ⟨s', runs, pipe, there⟩ := copyLoop_runs (s := s.goto p (.copy n 0)) n.toNat 0 m
      (Nat.zero_add _).symm (Function.update_self ..)
    exact ⟨s', .head ⟨true, ran⟩ runs, pipe, .inr there⟩

end Machine

end OsbKernel.PipeRead
