import OsbKernel.Proc.Table

/-!
# The load balancer

With `BLNCFLG` on, `fork` and `wakeup` ask `leastUsedCpu` where to put a
process and count the placement there.  `leastUsedCpu` returns the smallest
counter value, and its callers use that value as an index.
-/

namespace OsbKernel

open Function

theorem leastUsedLoop_le_start (counts : List Nat) (least : Nat) :
    leastUsedLoop counts least ≤ least := by
  induction counts generalizing least with
  | nil => exact Nat.le_refl _
  | cons count rest ih =>
    refine Nat.le_trans (ih _) ?_
    split <;> omega

theorem leastUsedLoop_le_of_mem {counts : List Nat} {count : Nat} (listed : count ∈ counts)
    (least : Nat) : leastUsedLoop counts least ≤ count := by
  induction counts generalizing least with
  | nil => cases listed
  | cons first rest ih =>
    rcases List.mem_cons.mp listed with rfl | later
    · refine Nat.le_trans (leastUsedLoop_le_start rest _) ?_
      split <;> omega
    · exact ih later _

theorem leastUsedLoop_cases (counts : List Nat) (least : Nat) :
    leastUsedLoop counts least = least ∨ leastUsedLoop counts least ∈ counts := by
  induction counts generalizing least with
  | nil => exact .inl rfl
  | cons first rest ih =>
    rcases ih (if least > first then first else least) with start | later
    · unfold leastUsedLoop
      rw [start]
      split
      · exact .inr List.mem_cons_self
      · exact .inl rfl
    · exact .inr (List.mem_cons_of_mem first later)

theorem leastUsedCpu_le (procCount : Cpu → Nat) (c : Cpu) :
    leastUsedCpu procCount ≤ procCount c :=
  leastUsedLoop_le_of_mem (List.mem_map_of_mem (List.mem_finRange c)) _

theorem leastUsedCpu_cases (procCount : Cpu → Nat) :
    leastUsedCpu procCount = NPROC ∨ ∃ c, procCount c = leastUsedCpu procCount := by
  rcases leastUsedLoop_cases ((List.finRange NCPU).map procCount) NPROC with start | listed
  · exact .inl start
  · obtain ⟨c, _, value⟩ := List.mem_map.mp listed
    exact .inr ⟨c, value⟩

theorem leastUsedCpu_eq_zero {procCount : Cpu → Nat} {c : Cpu} (idle : procCount c = 0) :
    leastUsedCpu procCount = 0 := by
  have bound := leastUsedCpu_le procCount c
  omega

/-- The returned number is the index of a CPU none is less used than. -/
def PicksLeastUsed (procCount : Cpu → Nat) : Prop :=
  ∃ i : Cpu, (i : Nat) = leastUsedCpu procCount ∧ ∀ j, procCount i ≤ procCount j

theorem picksLeastUsed_iff (procCount : Cpu → Nat) :
    PicksLeastUsed procCount ↔ ∃ i : Cpu, procCount i = i ∧ ∀ j, (i : Nat) ≤ procCount j := by
  constructor
  · rintro ⟨i, index, least⟩
    have below := leastUsedCpu_le procCount
    rcases leastUsedCpu_cases procCount with all | ⟨c, value⟩
    · have bound : (i : Nat) < 64 := Nat.lt_trans i.isLt (by decide)
      rw [all] at index
      exact absurd index (Nat.ne_of_lt bound)
    · refine ⟨i, ?_, fun j => index ▸ below j⟩
      have upper := least c
      have lower := below i
      omega
  · rintro ⟨i, own, least⟩
    refine ⟨i, ?_, fun j => own ▸ least j⟩
    have upper := leastUsedCpu_le procCount i
    rcases leastUsedCpu_cases procCount with all | ⟨c, value⟩
    · have bound : (i : Nat) < NPROC := Nat.lt_trans i.isLt (by decide)
      omega
    · have lower := least c
      omega

/-- One placement of `fork` or `wakeup`: count it on the CPU that
`leastUsedCpu` names. -/
def placement (procCount : Cpu → Nat) : Except Fault (Cpu → Nat) := do
  let c ← cpuAt (leastUsedCpu procCount)
  return update procCount c (casIncrement (procCount c))

def placements : Nat → (Cpu → Nat) → Except Fault (Cpu → Nat)
  | 0, procCount => .ok procCount
  | n + 1, procCount => do
    let procCount ← placements n procCount
    placement procCount

theorem countPlacement_leastUsed (s : Kernel) :
    s.countPlacement (leastUsedCpu s.procCount) =
      (placement s.procCount).map s.setProcCount := by
  unfold Kernel.countPlacement placement
  cases cpuAt (leastUsedCpu s.procCount) <;> rfl

def Balanced (procCount : Cpu → Nat) : Prop := ∀ i j, procCount i ≤ procCount j + 1

/-- The counters after `n` placements: all of them went to CPU 0. -/
def onFirstCpu (n : Nat) : Cpu → Nat := update (fun _ => 0) 0 (n % 2 ^ 32)

@[simp] theorem onFirstCpu_zero (n : Nat) : onFirstCpu n 0 = n % 2 ^ 32 :=
  update_self _ _ _

theorem onFirstCpu_of_ne (n : Nat) {c : Cpu} (other : c ≠ 0) : onFirstCpu n c = 0 :=
  update_of_ne other _ _

theorem casIncrement_mod (n : Nat) : casIncrement (n % 2 ^ 32) = (n + 1) % 2 ^ 32 := by
  simp only [casIncrement, cas, if_true]
  omega

theorem leastUsedCpu_onFirstCpu (n : Nat) : leastUsedCpu (onFirstCpu n) = 0 :=
  leastUsedCpu_eq_zero (onFirstCpu_of_ne n (c := 1) (by decide))

theorem placement_onFirstCpu (n : Nat) :
    placement (onFirstCpu n) = .ok (onFirstCpu (n + 1)) := by
  unfold placement
  rw [leastUsedCpu_onFirstCpu]
  have index : cpuAt ((0 : Nat) : Int) = .ok 0 := cpuAt_cast 0
  rw [index]
  simp only [onFirstCpu, bind, Except.bind, pure, Except.pure, update_self, update_idem,
    casIncrement_mod]

theorem placements_zero (n : Nat) : placements n (fun _ => 0) = .ok (onFirstCpu n) := by
  induction n with
  | zero => simp [placements, onFirstCpu]
  | succ n ih =>
    simp only [placements, ih, bind, Except.bind]
    exact placement_onFirstCpu n

theorem balanced_onFirstCpu_iff (n : Nat) : Balanced (onFirstCpu n) ↔ n % 2 ^ 32 ≤ 1 := by
  constructor
  · intro balanced
    have apart := balanced 0 1
    rw [onFirstCpu_zero, onFirstCpu_of_ne n (by decide)] at apart
    omega
  · intro few i j
    by_cases first : i = 0
    · subst first
      rw [onFirstCpu_zero]
      omega
    · rw [onFirstCpu_of_ne n first]
      exact Nat.zero_le _

/-- `leastUsedCpu` names a least used CPU exactly when some CPU's counter equals
its own index and no counter is smaller; and the counters stay balanced exactly
while at most one placement has been made, up to the wrap of the 32-bit word
that `cas` increments. -/
theorem leastUsedCpu_exact (procCount : Cpu → Nat) (n : Nat) :
    (PicksLeastUsed procCount ↔
      ∃ i : Cpu, procCount i = i ∧ ∀ j, (i : Nat) ≤ procCount j) ∧
    (∃ counters, placements n (fun _ => 0) = .ok counters ∧
      (Balanced counters ↔ n % 2 ^ 32 ≤ 1)) :=
  ⟨picksLeastUsed_iff procCount, _, placements_zero n, balanced_onFirstCpu_iff n⟩

/-- After two placements CPU 0 has been chosen twice although seven CPUs are idle. -/
theorem leastUsedCpu_second_placement :
    ∃ procCount, placements 2 (fun _ => 0) = .ok procCount ∧
      ¬ PicksLeastUsed procCount ∧ ¬ Balanced procCount := by
  refine ⟨_, placements_zero 2, ?_, ?_⟩
  · rw [picksLeastUsed_iff]
    rintro ⟨i, own, least⟩
    have idle := least 1
    have zero : i = 0 := Fin.ext (Nat.le_zero.mp idle)
    subst zero
    simp at own
  · rw [balanced_onFirstCpu_iff]
    decide

end OsbKernel
