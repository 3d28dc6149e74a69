import OsbKernel.Proc.Runs

/-!
# The process lists partition the process table

In every state of every run the lists are finite chains without duplicates and common slots, and
the state of a slot says which list it is on. `remove_proc_from_list` always faults on a list
without its slot, and no operation raises such a fault as long as its allocations succeed.
-/

namespace OsbKernel

open Function LinkedChain

variable {aff : Prop} {blncflg : Bool} {s : Kernel} {L : ListId → List Slot} {p : Slot}

/-- The slot that `k` hops along `next_index_in_list` lead to. -/
def Lists.follow (ls : Lists) (l : ListId) : Nat → Option Slot
  | 0 => ls.first l
  | k + 1 => (ls.follow l k).bind ls.next

def Lists.Contains (ls : Lists) (l : ListId) (i : Slot) : Prop := ∃ k, ls.follow l k = some i

/-- The traversal of `remove_proc_from_list` finds only slots that the links lead to. -/
theorem Lists.slotBefore_absent {ls : Lists} {l : ListId} {i curr : Slot} (hops k : Nat)
    (here : ls.follow l k = some curr) (absent : ¬ ls.Contains l i) :
    ∃ f : Fault, f.OfLists ∧ slotBefore ls.next i hops curr = .error f := by
  induction hops generalizing curr k with
  | zero => exact ⟨.endless, trivial, rfl⟩
  | succ hops ih =>
    cases link : ls.next curr with
    | none => exact ⟨.slotIndex, trivial, by simp only [slotBefore, link]⟩
    | some n =>
      have there : ls.follow l (k + 1) = some n := by simp [follow, here, link]
      have apart : n ≠ i := by
        rintro rfl
        exact absent ⟨k + 1, there⟩
      simp only [slotBefore, link, if_neg apart]
      exact ih (k + 1) there

theorem Lists.removeProcFromList_absent {ls : Lists} {l : ListId} {i : Slot}
    (absent : ¬ ls.Contains l i) :
    ∃ f : Fault, f.OfLists ∧ ls.removeProcFromList l i = .error f := by
  unfold removeProcFromList
  cases head : ls.first l with
  | none => exact ⟨.panic "Trying to remove from an empty list", rfl, rfl⟩
  | some f =>
    have apart : f ≠ i := by
      rintro rfl
      exact absent ⟨0, head⟩
    obtain ⟨fault, listed, stopped⟩ := slotBefore_absent NPROC 0 head absent
    exact ⟨fault, listed, by simp only [if_neg apart, stopped]⟩

/-- Every list is a finite chain without duplicates, no slot is on two lists,
and a slot is on the list of its state. -/
structure Partition (s : Kernel) (L : ListId → List Slot) : Prop where
  chain : ∀ l, Chain s.lists.next (s.lists.first l) (L l)
  nodup : ∀ l, (L l).Nodup
  disjoint : ∀ l l' p, p ∈ L l → p ∈ L l' → l = l'
  unused : ∀ p, p ∈ L .unusedList ↔ (s.proc p).state = .UNUSED
  zombie : ∀ p, p ∈ L .zombieList ↔ (s.proc p).state = .ZOMBIE
  sleeping : ∀ p, p ∈ L .sleepingList ↔ (s.proc p).state = .SLEEPING
  runnable : ∀ p, (∃! c, p ∈ L (.runnable c)) ↔ (s.proc p).state = .RUNNABLE
  busy : ∀ p, (s.proc p).state = .USED ∨ (s.proc p).state = .RUNNING → ∀ l, p ∉ L l

theorem Inv.partition (inv : Inv aff s L) : Partition s L where
  chain := Family.chain inv.reads
  nodup := Family.nodup inv.reads
  disjoint _ _ _ := Family.disjoint inv.reads
  unused p := by
    refine ⟨inv.state_of_listed, fun state => ?_⟩
    have placed := (inv.slots p).placed
    rwa [state] at placed
  zombie p := ⟨inv.state_of_listed, inv.listed_zombie⟩
  sleeping p := ⟨inv.state_of_listed, inv.listed_sleeping⟩
  runnable p := by
    refine ⟨fun ⟨c, listed, _⟩ => inv.state_of_listed listed, fun state => ?_⟩
    have placed := (inv.slots p).placed
    rw [state] at placed
    obtain ⟨c, listed⟩ := placed
    refine ⟨c, listed, fun c' listed' => ?_⟩
    exact ListId.runnable.inj (Family.disjoint inv.reads listed' listed)
  busy p state := by
    have placed := (inv.slots p).placed
    rcases state with state | state <;> rw [state] at placed <;> exact placed

/-- The process lists partition the table in every state of every run, and no
operation whose allocations succeed removes a slot from a list without it. -/
theorem reachable_partition (reached : Reachable blncflg s) :
    (∃ L, Partition s L) ∧
    (∀ (ls : Lists) l i, ¬ ls.Contains l i →
      ∃ f : Fault, f.OfLists ∧ ls.removeProcFromList l i = .error f) ∧
    ∀ op : Op, op.Valid → AllocationsSucceed s op →
      ∀ f, step blncflg s op = .error f → ¬ f.OfLists := by
  obtain ⟨L, inv⟩ := reachable_inv reached
  refine ⟨⟨L, inv.partition⟩, fun _ _ _ => Lists.removeProcFromList_absent, ?_⟩
  intro op valid allocations f stopped
  have sound : Sound False id (step blncflg s op) :=
    step_sound inv valid allocations False.elim
  rw [stopped] at sound
  exact sound

/-- Init has forked two children and sleeps; the first one has exited. -/
theorem reachable_partition_family : ∃ s, Reachable false s ∧ (s.proc 0).state = .SLEEPING ∧
    (s.proc 1).state = .ZOMBIE ∧ (s.proc 2).state = .RUNNABLE ∧ ∃ L, Partition s L := by
  have ran : (bootRun false (fun _ => Op.Valid) 21
      [.dispatch 0, .fork 0, .fork 0, .sleep 0 (.object 7), .dispatch 0, .exit 0 3]).map (fun s =>
      ((s.proc 0).state, (s.proc 1).state, (s.proc 2).state)) =
      some (.SLEEPING, .ZOMBIE, .RUNNABLE) := by
    decide +kernel
  obtain ⟨s, found, now⟩ := Option.map_eq_some_iff.mp ran
  simp only [Prod.mk.injEq] at now
  have reached := reachable_bootRun found
  exact ⟨s, reached, now.1, now.2.1, now.2.2, (reachable_partition reached).1⟩

end OsbKernel
