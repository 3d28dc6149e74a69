import Mathlib.Algebra.Group.Int.Defs
import Mathlib.Algebra.GroupWithZero.Nat
import Mathlib.Data.Fin.Basic

/-!
# Parameters and elementary types

The limits of `param.h`, the enumeration of process states, the names of the
process lists, and the ways in which kernel code can stop instead of returning.
-/

namespace OsbKernel

abbrev NPROC : Nat := 64

abbrev NCPU : Nat := 8

abbrev NOFILE : Nat := 16

instance nproc_neZero : NeZero NPROC := ⟨by decide⟩

instance ncpu_neZero : NeZero NCPU := ⟨by decide⟩

instance nofile_neZero : NeZero NOFILE := ⟨by decide⟩

/-- A process-table slot; the pointer `&proc[i]` and the field
`index_in_proc` are both this index. -/
abbrev Slot := Fin NPROC

abbrev Cpu := Fin NCPU

inductive ProcState where
  | UNUSED
  | USED
  | SLEEPING
  | RUNNABLE
  | RUNNING
  | ZOMBIE
  deriving DecidableEq, Repr

/-- The lists that are threaded through `next_index_in_list`. -/
inductive ListId where
  | unusedList
  | zombieList
  | sleepingList
  | runnable (c : Cpu)
  deriving DecidableEq, Repr

/-- Sleep channels: the null pointer, the address of a process slot, or the
address of some other kernel object. -/
inductive Chan where
  | null
  | proc (p : Slot)
  | object (n : Nat)
  deriving DecidableEq, Repr

def Chan.ofProc : Option Slot → Chan
  | none => .null
  | some p => .proc p

inductive Fault where
  | panic (message : String)
  | slotIndex
  | cpuIndex (i : Int)
  | nullPointer
  | endless
  | ustackIndex (i : Nat)
  deriving DecidableEq, Repr

/-- The faults of a list function that is called on a list without its slot. -/
def Fault.OfLists : Fault → Prop
  | .panic message => message = "Trying to remove from an empty list"
  | .slotIndex => True
  | .endless => True
  | _ => False

def cpuAt (i : Int) : Except Fault Cpu :=
  if h : 0 ≤ i ∧ i < NCPU then .ok ⟨i.toNat, by omega⟩ else .error (.cpuIndex i)

theorem cpuAt_of_range {i : Int} (low : 0 ≤ i) (high : i < NCPU) :
    ∃ c : Cpu, cpuAt i = .ok c ∧ (c : Int) = i := by
  refine ⟨⟨i.toNat, by omega⟩, ?_, by simp [low]⟩
  simp only [cpuAt, dif_pos (And.intro low high)]

theorem cpuAt_cast (c : Cpu) : cpuAt (c : Int) = .ok c := by
  have range : 0 ≤ ((c : Nat) : Int) ∧ ((c : Nat) : Int) < NCPU := by omega
  rw [cpuAt, dif_pos range]
  rfl

end OsbKernel
