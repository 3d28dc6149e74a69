import OsbKernel.User.MallocRuns
import OsbKernel.Vm.GrowProc

/-!
# `malloc` over the kernel's `sbrk`

`sbrk` takes an `int`, so a request of `2 ^ 31` bytes or more reaches the kernel as a negative
number, as 0 or as 16, while `malloc` takes the answer for a region of the size it wanted.
-/

namespace OsbKernel.Umalloc

open Function Paging LawfulAllocator RamAllocator

section Unguarded

variable {σ : Type} {os : Os σ} {h h' : Heap} {s : σ} {rounds ap nunits : Nat} {mapped : Nat → Bool}

end Unguarded

/-- A process's memory and size, as `sys_sbrk` finds them. -/
structure Process (L : Layout) where
  m : Paging.Machine (Failing (Paging.Kmem L))
  pagetable : Word
  sz : Word

variable {L : Layout}

/-- `sys_sbrk`: the old size goes through an `int`. -/
def sysSbrk (s : Process L) (n : Int) : Option Nat × Process L :=
  let addr : BitVec 32 := s.sz.setWidth 32
  match growproc s.m s.pagetable s.sz (BitVec.ofInt 32 n) with
  | .ok (some sz, m') => (some (addr.signExtend 64).toNat, { s with m := m', sz := sz })
  | .ok (none, m') => (none, { s with m := m' })
  | .error _ => (none, s)

/-- The kernel under a process: the bytes it can use are those that are mapped for the user. -/
def kernel : Os (Process L) where
  sbrk := sysSbrk
  mapped s x := (userMem s.m s.pagetable x).isSome

section

variable {s : Process L} {S : Set Word} {trampoline trapframe : Word} {base : Nat} {h : Heap}
  {nodes live : List Nat} {mem : Nat → Prop} {nbytes : BitVec 32}
  (owns : Owns s.m S) (space : Space s.m trampoline trapframe s.pagetable s.sz)
  (apart : ∀ x ∈ footprint s.m.mem s.pagetable s.sz, x ∉ S)
  (ok : Ok base (start base h) [] nodes live mem)
  (low : base + 16 ≤ s.sz.toNat) (inside : ∀ x, mem x → x < s.sz.toNat)
  (user : ∀ x, mem x ∨ base ≤ x ∧ x < base + 16 ∨ x + 1 = s.sz.toNat →
    userMem s.m s.pagetable x ≠ none)

include owns space apart ok low inside user

end

end OsbKernel.Umalloc
