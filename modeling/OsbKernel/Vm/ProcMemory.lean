import OsbKernel.Vm.Paging

/-!
# The memory of a process

`proc_pagetable`, `proc_freepagetable` and `growproc` of `proc.c`.
-/

namespace OsbKernel.Paging

def TRAMPOLINE : Word := MAXVA - PGSIZE

def TRAPFRAME : Word := TRAMPOLINE - PGSIZE

section Functions

variable {K : Type} [Allocator K]

/-- `proc_pagetable` for a process with this trapframe page; `trampoline` is the address of the
code in `trampoline.S`. -/
def procPagetable (m : Machine K) (trampoline trapframe : Word) :
    Except Fault (Option Word × Machine K) :=
  match uvmcreate m with
  | (none, m) => .ok (none, m)
  | (some pagetable, m) => do
    match ← mappages m pagetable TRAMPOLINE PGSIZE trampoline ((PTE_R ||| PTE_X).setWidth 32) with
    | (false, m) =>
      let m ← uvmfree m pagetable 0
      return (none, m)
    | (true, m) =>
      match ← mappages m pagetable TRAPFRAME PGSIZE trapframe ((PTE_R ||| PTE_W).setWidth 32) with
      | (false, m) =>
        let m ← uvmunmap m pagetable TRAMPOLINE 1 false
        let m ← uvmfree m pagetable 0
        return (none, m)
      | (true, m) => return (some pagetable, m)

def procFreepagetable (m : Machine K) (pagetable sz : Word) : Except Fault (Machine K) := do
  let m ← uvmunmap m pagetable TRAMPOLINE 1 false
  let m ← uvmunmap m pagetable TRAPFRAME 1 false
  uvmfree m pagetable sz

/-- `growproc(n)` for a process of size `sz`; the result is `p->sz`, or `none` for -1. -/
def growproc (m : Machine K) (pagetable sz : Word) (n : BitVec 32) :
    Except Fault (Option Word × Machine K) :=
  -- `uint sz = p->sz`, and `sz + n` is computed in 32 bits
  let size : BitVec 32 := sz.setWidth 32
  if 0 < n.toInt then do
    let (newsz, m) ← uvmalloc m pagetable (size.setWidth 64) ((size + n).setWidth 64)
    let size : BitVec 32 := newsz.setWidth 32
    return (if size = 0 then none else some (size.setWidth 64), m)
  else if n.toInt < 0 then do
    let (newsz, m) ← uvmdealloc m pagetable (size.setWidth 64) ((size + n).setWidth 64)
    return (some ((newsz.setWidth 32).setWidth 64), m)
  else .ok (some (size.setWidth 64), m)

end Functions

end OsbKernel.Paging
