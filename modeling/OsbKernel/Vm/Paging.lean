import OsbKernel.Types

/-!
# Page tables in physical memory

`walk` and the functions of `vm.c` over it, on the 64-bit words of physical memory, which is read
and written by the page-aligned address of a page and the index of a word in it. The allocator is
a parameter: some results are about any allocator, others about the free list of `kalloc.c`.
-/

namespace OsbKernel.Paging

open Function

abbrev Word := BitVec 64

abbrev Memory := Word → Nat → Word

def PGSIZE : Word := 4096

def PGROUNDUP (sz : Word) : Word := (sz + PGSIZE - 1) &&& ~~~(PGSIZE - 1)

def PGROUNDDOWN (a : Word) : Word := a &&& ~~~(PGSIZE - 1)

def PTE_V : Word := 1 <<< 0

def PTE_R : Word := 1 <<< 1

def PTE_W : Word := 1 <<< 2

def PTE_X : Word := 1 <<< 3

def PTE_U : Word := 1 <<< 4

def PA2PTE (pa : Word) : Word := (pa >>> 12) <<< 10

def PTE2PA (pte : Word) : Word := (pte >>> 10) <<< 12

def PTE_FLAGS (pte : Word) : Word := pte &&& 0x3FF

def PXSHIFT (level : Nat) : Nat := 12 + 9 * level

def PX (level : Nat) (va : Word) : Nat := ((va >>> PXSHIFT level) &&& 0x1FF).toNat

def MAXVA : Word := 1 <<< (9 + 9 + 9 + 12 - 1)

class Allocator (K : Type) where
  kalloc : Memory → K → Word × Memory × K
  kfree : Memory → K → Word → Except Fault (Memory × K)

structure Machine (K : Type) where
  mem : Memory
  kmem : K

abbrev PtePtr := Word × Nat

section Functions

variable {K : Type} [Allocator K]

namespace Machine

def kalloc (m : Machine K) : Word × Machine K :=
  let (page, mem, kmem) := Allocator.kalloc m.mem m.kmem
  (page, ⟨mem, kmem⟩)

def kfree (m : Machine K) (pa : Word) : Except Fault (Machine K) :=
  (Allocator.kfree m.mem m.kmem pa).map fun (mem, kmem) => ⟨mem, kmem⟩

def kfreeIf (m : Machine K) (doFree : Bool) (pa : Word) : Except Fault (Machine K) :=
  if doFree then m.kfree pa else .ok m

omit [Allocator K]

def load (m : Machine K) (pte : PtePtr) : Word := m.mem pte.1 pte.2

def store (m : Machine K) (pte : PtePtr) (w : Word) : Machine K :=
  { m with mem := update m.mem pte.1 (update (m.mem pte.1) pte.2 w) }

def clear (m : Machine K) (page : Word) : Machine K :=
  { m with mem := update m.mem page fun _ => 0 }

def copy (m : Machine K) (dst src : Word) : Machine K :=
  { m with mem := update m.mem dst (m.mem src) }

end Machine

/-- The loop of `walk`, from the given level on. -/
def walkLoop (va : Word) (alloc : Bool) : Nat → Machine K → Word → Option Word × Machine K
  | 0, m, pagetable => (some pagetable, m)
  | level + 1, m, pagetable =>
    let pte := (pagetable, PX (level + 1) va)
    if m.load pte &&& PTE_V ≠ 0 then walkLoop va alloc level m (PTE2PA (m.load pte))
    else if !alloc then (none, m)
    else
      let (page, m) := m.kalloc
      if page = 0 then (none, m)
      else walkLoop va alloc level ((m.clear page).store pte (PA2PTE page ||| PTE_V)) page

def walk (m : Machine K) (pagetable va : Word) (alloc : Bool) :
    Except Fault (Option PtePtr × Machine K) :=
  if MAXVA ≤ va then .error (.panic "walk")
  else
    let (table, m) := walkLoop va alloc 2 m pagetable
    .ok (table.map fun page => (page, PX 0 va), m)

def walkaddr (m : Machine K) (pagetable va : Word) : Word :=
  if MAXVA ≤ va then 0
  else
    match (walkLoop va false 2 m pagetable).1 with
    | none => 0
    | some page =>
      let pte := m.load (page, PX 0 va)
      if pte &&& PTE_V = 0 then 0 else if pte &&& PTE_U = 0 then 0 else PTE2PA pte

/-- The loop of `mappages`.  The fuel is the number of pages from `a` to `MAXVA`, where `walk`
panics. -/
def mappagesLoop (pagetable last : Word) (perm : BitVec 32) :
    Nat → Machine K → Word → Word → Except Fault (Bool × Machine K)
  | 0, _, _, _ => .error (.panic "walk")
  | fuel + 1, m, a, pa => do
    match ← walk m pagetable a true with
    | (none, m) => return (false, m)
    | (some pte, m) =>
      if m.load pte &&& PTE_V ≠ 0 then .error (.panic "mappages: remap")
      else
        let m := m.store pte (PA2PTE pa ||| perm.signExtend 64 ||| PTE_V)
        if a = last then return (true, m)
        else mappagesLoop pagetable last perm fuel m (a + PGSIZE) (pa + PGSIZE)

/-- `mappages`; the result says whether it returns 0. -/
def mappages (m : Machine K) (pagetable va size pa : Word) (perm : BitVec 32) :
    Except Fault (Bool × Machine K) :=
  if size = 0 then .error (.panic "mappages: size")
  else
    let a := PGROUNDDOWN va
    mappagesLoop pagetable (PGROUNDDOWN (va + size - 1)) perm
      ((MAXVA.toNat - a.toNat) / PGSIZE.toNat) m a pa

/-- The loop of `uvmunmap` with the number of rounds. -/
def uvmunmapLoop (pagetable : Word) (doFree : Bool) : Nat → Machine K → Word → Except Fault (Machine K)
  | 0, m, _ => .ok m
  | rounds + 1, m, a => do
    match ← walk m pagetable a false with
    | (none, _) => .error (.panic "uvmunmap: walk")
    | (some pte, m) =>
      if m.load pte &&& PTE_V = 0 then .error (.panic "uvmunmap: not mapped")
      else if PTE_FLAGS (m.load pte) = PTE_V then .error (.panic "uvmunmap: not a leaf")
      else
        let m ← m.kfreeIf doFree (PTE2PA (m.load pte))
        uvmunmapLoop pagetable doFree rounds (m.store pte 0) (a + PGSIZE)

def uvmunmap (m : Machine K) (pagetable va npages : Word) (doFree : Bool) :
    Except Fault (Machine K) :=
  if va % PGSIZE ≠ 0 then .error (.panic "uvmunmap: not aligned")
  else
    uvmunmapLoop pagetable doFree
      (((va + npages * PGSIZE).toNat - va.toNat) / PGSIZE.toNat) m va

/-- An empty page table; `none` when there is no memory. -/
def uvmcreate (m : Machine K) : Option Word × Machine K :=
  let (pagetable, m) := m.kalloc
  if pagetable = 0 then (none, m) else (some pagetable, m.clear pagetable)

def uvmdealloc (m : Machine K) (pagetable oldsz newsz : Word) : Except Fault (Word × Machine K) :=
  if oldsz ≤ newsz then .ok (oldsz, m)
  else if PGROUNDUP newsz < PGROUNDUP oldsz then do
    let npages : BitVec 32 := ((PGROUNDUP oldsz - PGROUNDUP newsz) / PGSIZE).setWidth 32
    let m ← uvmunmap m pagetable (PGROUNDUP newsz) (npages.signExtend 64) true
    return (newsz, m)
  else .ok (newsz, m)

/-- The loop of `uvmalloc` with the number of rounds. -/
def uvmallocLoop (pagetable oldsz newsz : Word) :
    Nat → Machine K → Word → Except Fault (Word × Machine K)
  | 0, m, _ => .ok (newsz, m)
  | rounds + 1, m, a => do
    let (mem, m) := m.kalloc
    if mem = 0 then
      let (_, m) ← uvmdealloc m pagetable a oldsz
      return (0, m)
    else
      match ← mappages (m.clear mem) pagetable a PGSIZE mem
          ((PTE_W ||| PTE_X ||| PTE_R ||| PTE_U).setWidth 32) with
      | (false, m) =>
        let m ← m.kfree mem
        let (_, m) ← uvmdealloc m pagetable a oldsz
        return (0, m)
      | (true, m) => uvmallocLoop pagetable oldsz newsz rounds m (a + PGSIZE)

def uvmalloc (m : Machine K) (pagetable oldsz newsz : Word) : Except Fault (Word × Machine K) :=
  if newsz < oldsz then .ok (oldsz, m)
  else
    let oldsz := PGROUNDUP oldsz
    uvmallocLoop pagetable oldsz newsz
      ((newsz.toNat - oldsz.toNat + PGSIZE.toNat - 1) / PGSIZE.toNat) m oldsz

/-- The loop of `uvmcopy` with the number of rounds. -/
def uvmcopyLoop (old new : Word) : Nat → Machine K → Word → Except Fault (Bool × Machine K)
  | 0, m, _ => .ok (true, m)
  | rounds + 1, m, i => do
    match ← walk m old i false with
    | (none, _) => .error (.panic "uvmcopy: pte should exist")
    | (some pte, m) =>
      let entry := m.load pte
      if entry &&& PTE_V = 0 then .error (.panic "uvmcopy: page not present")
      else
        let (mem, m) := m.kalloc
        if mem = 0 then
          let m ← uvmunmap m new 0 (i / PGSIZE) true
          return (false, m)
        else
          match ← mappages (m.copy mem (PTE2PA entry)) new i PGSIZE mem
              ((PTE_FLAGS entry).setWidth 32) with
          | (false, m) =>
            let m ← m.kfree mem
            let m ← uvmunmap m new 0 (i / PGSIZE) true
            return (false, m)
          | (true, m) => uvmcopyLoop old new rounds m (i + PGSIZE)

/-- `uvmcopy`; the result says whether it returns 0. -/
def uvmcopy (m : Machine K) (old new sz : Word) : Except Fault (Bool × Machine K) :=
  uvmcopyLoop old new ((sz.toNat + PGSIZE.toNat - 1) / PGSIZE.toNat) m 0

def uvmclear (m : Machine K) (pagetable va : Word) : Except Fault (Machine K) := do
  match ← walk m pagetable va false with
  | (none, _) => .error (.panic "uvmclear")
  | (some pte, m) => return m.store pte (m.load pte &&& ~~~PTE_U)

/-- The loop of `freewalk` over the entries, with what it does to a lower-level table. -/
def freewalkLoop (visit : Machine K → Word → Except Fault (Machine K)) (pagetable : Word) :
    List Nat → Machine K → Except Fault (Machine K)
  | [], m => .ok m
  | i :: rest, m =>
    let pte := m.load (pagetable, i)
    if pte &&& PTE_V ≠ 0 ∧ pte &&& (PTE_R ||| PTE_W ||| PTE_X) = 0 then do
      let m ← visit m (PTE2PA pte)
      freewalkLoop visit pagetable rest (m.store (pagetable, i) 0)
    else if pte &&& PTE_V ≠ 0 then .error (.panic "freewalk: leaf")
    else freewalkLoop visit pagetable rest m

/-- `freewalk` with a bound on the depth of its recursion. -/
def freewalk : Nat → Machine K → Word → Except Fault (Machine K)
  | 0, _, _ => .error .endless
  | depth + 1, m, pagetable => do
    let m ← freewalkLoop (freewalk depth) pagetable (List.range 512) m
    m.kfree pagetable

/-- `if(sz > 0) uvmunmap(pagetable, 0, PGROUNDUP(sz)/PGSIZE, 1)` -/
def uvmfreePages (m : Machine K) (pagetable sz : Word) : Except Fault (Machine K) :=
  if 0 < sz then uvmunmap m pagetable 0 (PGROUNDUP sz / PGSIZE) true else .ok m

def uvmfree (m : Machine K) (pagetable sz : Word) : Except Fault (Machine K) := do
  let m ← uvmfreePages m pagetable sz
  freewalk 3 m pagetable

end Functions

end OsbKernel.Paging
