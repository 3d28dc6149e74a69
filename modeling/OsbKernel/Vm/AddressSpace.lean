import OsbKernel.Types
import OsbKernel.Lib.ExceptBind

/-!
# Page allocator and user address spaces

The part of `kalloc.c` and `vm.c` that process creation uses. A page table is kept as the tree it
is: its root page, the level-1 and level-0 table pages by the address bits that select them, and
the leaf entries by virtual page number. A leaf owns the bytes of the page it maps, so that an
address space is a value; page numbers are kept for the allocator.  `Vm/Paging` has the functions on
the words of physical memory.
-/

namespace OsbKernel

open Function

abbrev Page := Nat

abbrev PageData := Nat → UInt8

def PGSIZE : Nat := 4096
def MAXVA : Nat := 2 ^ 38
def TRAMPOLINE : Nat := MAXVA - PGSIZE
def TRAPFRAME : Nat := TRAMPOLINE - PGSIZE

def PTE_V : Nat := 1
def PTE_R : Nat := 2
def PTE_W : Nat := 4
def PTE_X : Nat := 8
def PTE_U : Nat := 16

/-- The nine address bits that index a page-table page of the given level. -/
def PX (level va : Nat) : Nat := va >>> (12 + 9 * level) &&& 0x1FF

structure Kmem where
  freelist : List Page

/-- Take the first free page; the null pointer when there is none. -/
def kalloc (m : Kmem) : Option (Page × Kmem) :=
  match m.freelist with
  | [] => none
  | r :: rest => some (r, { m with freelist := rest })

def kfree (m : Kmem) (page : Page) : Kmem :=
  { m with freelist := page :: m.freelist }

/-- A leaf entry: the mapped page, its flag bits, and the bytes of the page. -/
structure Pte where
  page : Page
  flags : Nat
  data : PageData

structure PageTable where
  root : Page
  mid : Nat → Option Page
  low : Nat × Nat → Option Page
  leaf : Nat → Option Pte

/-- The result of a function that may allocate: whether it succeeded, with the
page table and the allocator afterwards. -/
abbrev VmResult := Bool × PageTable × Kmem

/-- Find, or with `alloc` create, the page-table pages that lead to the entry
of `va`.  A failure keeps the pages created so far. -/
def walk (pt : PageTable) (m : Kmem) (va : Nat) (alloc : Bool) : Except Fault VmResult :=
  if MAXVA ≤ va then .error (.panic "walk") else
  let level1 : VmResult :=
    match pt.mid (PX 2 va) with
    | some _ => (true, pt, m)
    | none =>
      match alloc, kalloc m with
      | true, some (page, m) =>
        (true, { pt with mid := update pt.mid (PX 2 va) (some page) }, m)
      | _, _ => (false, pt, m)
  if level1.1 = false then .ok level1 else
  let pt := level1.2.1
  let m := level1.2.2
  match pt.low (PX 2 va, PX 1 va) with
  | some _ => .ok (true, pt, m)
  | none =>
    match alloc, kalloc m with
    | true, some (page, m) =>
      .ok (true, { pt with low := update pt.low (PX 2 va, PX 1 va) (some page) }, m)
    | _, _ => .ok (false, pt, m)

/-- `mappages` for one page, the size every caller in the process code asks for. -/
def mappages (pt : PageTable) (m : Kmem) (va : Nat) (entry : Pte) : Except Fault VmResult := do
  let (found, pt, m) ← walk pt m (va / PGSIZE * PGSIZE) true
  if found = false then return (false, pt, m)
  if (pt.leaf (va / PGSIZE)).isSome then .error (.panic "mappages: remap")
  return (true, { pt with
    leaf := update pt.leaf (va / PGSIZE) (some { entry with flags := entry.flags ||| PTE_V }) }, m)

def uvmunmapPage (doFree : Bool) (state : PageTable × Kmem) (vpn : Nat) :
    Except Fault (PageTable × Kmem) := do
  let (pt, m) := state
  let (found, _, _) ← walk pt m (vpn * PGSIZE) false
  if found = false then .error (.panic "uvmunmap: walk")
  match pt.leaf vpn with
  | none => .error (.panic "uvmunmap: not mapped")
  | some entry =>
    if entry.flags = PTE_V then .error (.panic "uvmunmap: not a leaf")
    return ({ pt with leaf := update pt.leaf vpn none },
      if doFree then kfree m entry.page else m)

/-- Remove the mappings of `npages` pages from the page-aligned `va` on. -/
def uvmunmap (pt : PageTable) (m : Kmem) (va npages : Nat) (doFree : Bool) :
    Except Fault (PageTable × Kmem) :=
  if va % PGSIZE ≠ 0 then .error (.panic "uvmunmap: not aligned")
  else ((List.range npages).map (va / PGSIZE + ·)).foldlM (uvmunmapPage doFree) (pt, m)

def uvmcreate (m : Kmem) : Option (PageTable × Kmem) :=
  match kalloc m with
  | none => none
  | some (page, m) =>
    some ({ root := page, mid := fun _ => none, low := fun _ => none, leaf := fun _ => none }, m)

def freewalkLow (pt : PageTable) (i : Nat) (m : Kmem) (j : Nat) : Except Fault Kmem :=
  match pt.low (i, j) with
  | none => .ok m
  | some page =>
    if (List.range 512).any fun k => (pt.leaf ((i * 512 + j) * 512 + k)).isSome then
      .error (.panic "freewalk: leaf")
    else .ok (kfree m page)

def freewalkMid (pt : PageTable) (m : Kmem) (i : Nat) : Except Fault Kmem :=
  match pt.mid i with
  | none => .ok m
  | some page => do
    let m ← (List.range 512).foldlM (freewalkLow pt i) m
    return kfree m page

def freewalk (pt : PageTable) (m : Kmem) : Except Fault Kmem := do
  let m ← (List.range 512).foldlM (freewalkMid pt) m
  return kfree m pt.root

/-- The number of pages below a size, `PGROUNDUP(sz)/PGSIZE`. -/
def pagesBelow (sz : Nat) : Nat := (sz + PGSIZE - 1) / PGSIZE

def uvmfree (pt : PageTable) (m : Kmem) (sz : Nat) : Except Fault Kmem := do
  if sz > 0 then
    let (pt, m) ← uvmunmap pt m 0 (pagesBelow sz) true
    freewalk pt m
  else freewalk pt m

/-- The loop of `uvmcopy` with `remaining` pages to go, at page `i`. -/
def uvmcopyLoop (old : PageTable) : Nat → Nat → PageTable → Kmem → Except Fault VmResult
  | 0, _, new, m => .ok (true, new, m)
  | remaining + 1, i, new, m => do
    let (found, _, _) ← walk old m (i * PGSIZE) false
    if found = false then .error (.panic "uvmcopy: pte should exist")
    match old.leaf i with
    | none => .error (.panic "uvmcopy: page not present")
    | some entry =>
      match kalloc m with
      | none =>
        let (new, m) ← uvmunmap new m 0 i true
        return (false, new, m)
      | some (mem, m) =>
        let (mapped, new, m) ← mappages new m (i * PGSIZE) { entry with page := mem }
        if mapped = false then
          let (new, m) ← uvmunmap new (kfree m mem) 0 i true
          return (false, new, m)
        uvmcopyLoop old remaining (i + 1) new m

/-- Copy a parent's memory into a child's page table, pages and all. -/
def uvmcopy (old new : PageTable) (m : Kmem) (sz : Nat) : Except Fault VmResult :=
  uvmcopyLoop old (pagesBelow sz) 0 new m

/-- The user page at a virtual address, if it is mapped for the user. -/
def walkaddr (pt : PageTable) (va : Nat) : Option Pte :=
  if MAXVA ≤ va then none else
  if pt.mid (PX 2 va) = none ∨ pt.low (PX 2 va, PX 1 va) = none then none else
  match pt.leaf (va / PGSIZE) with
  | some entry => if entry.flags &&& PTE_U = 0 then none else some entry
  | none => none

def PageData.write (data : PageData) (offset : Nat) (bytes : List UInt8) : PageData :=
  fun k => if offset ≤ k then (bytes[k - offset]?).getD (data k) else data k

/-- `copyout` with a bound on the number of pages it may still touch. -/
def copyoutLoop : Nat → PageTable → Nat → List UInt8 → Bool × PageTable
  | 0, pt, _, src => (src.isEmpty, pt)
  | fuel + 1, pt, dstva, src =>
    if src.isEmpty then (true, pt) else
    let va0 := dstva / PGSIZE * PGSIZE
    match walkaddr pt va0 with
    | none => (false, pt)
    | some entry =>
      let n := min (PGSIZE - (dstva - va0)) src.length
      let entry := { entry with data := entry.data.write (dstva - va0) (src.take n) }
      copyoutLoop fuel { pt with leaf := update pt.leaf (dstva / PGSIZE) (some entry) }
        ((va0 + PGSIZE) % 2 ^ 64) (src.drop n)

/-- Copy bytes to a user address; every round writes at least one byte. -/
def copyout (pt : PageTable) (dstva : Nat) (src : List UInt8) : Bool × PageTable :=
  copyoutLoop src.length pt dstva src

section Copy

open ExceptBind

variable {m m' : Kmem}

theorem walk_leaf {pt pt' : PageTable} {va : Nat} {alloc found : Bool}
    (walked : walk pt m va alloc = .ok (found, pt', m')) : pt'.leaf = pt.leaf := by
  unfold walk at walked
  dsimp only at walked
  repeat' split at walked
  all_goals first | cases walked; rfl | cases walked

theorem mappages_leaf {pt pt' : PageTable} {va : Nat} {entry : Pte}
    (mapped : mappages pt m va entry = .ok (true, pt', m')) :
    pt'.leaf = update pt.leaf (va / PGSIZE)
      (some { entry with flags := entry.flags ||| PTE_V }) := by
  obtain ⟨⟨found, pt₁, m₁⟩, walked, rest⟩ := bind_ok mapped
  dsimp only at rest
  split at rest
  · cases rest
  · split at rest
    · cases rest
    · cases rest
      rw [walk_leaf walked]

/-- A page of the copy holds the bytes of the page it was copied from. -/
def Copied (old new : PageTable) (i : Nat) : Prop :=
  ∃ e e', old.leaf i = some e ∧ new.leaf i = some e' ∧ e'.data = e.data

theorem uvmcopyLoop_copied {old new new' : PageTable} {remaining i : Nat}
    (copied : uvmcopyLoop old remaining i new m = .ok (true, new', m')) :
    (∀ j, i ≤ j → j < i + remaining → Copied old new' j) ∧
      ∀ j, j < i → new'.leaf j = new.leaf j := by
  induction remaining generalizing i new m with
  | zero =>
    cases copied
    exact ⟨fun j low high => absurd high (by omega), fun _ _ => rfl⟩
  | succ remaining ih =>
    obtain ⟨⟨found, _, _⟩, _, rest⟩ := bind_ok copied
    dsimp only at rest
    split at rest
    · cases rest
    · cases page : old.leaf i with
      | none =>
        rw [page] at rest
        cases rest
      | some entry =>
        rw [page] at rest
        cases frame : kalloc m with
        | none =>
          rw [frame] at rest
          obtain ⟨_, _, stopped⟩ := bind_ok rest
          cases stopped
        | some result =>
          obtain ⟨mem, m₁⟩ := result
          rw [frame] at rest
          obtain ⟨⟨mapped, new₁, m₂⟩, maps, more⟩ := bind_ok rest
          split at more
          · obtain ⟨_, _, stopped⟩ := bind_ok more
            cases stopped
          · rename_i done
            have isTrue : mapped = true := by simpa using done
            subst isTrue
            have leaf := mappages_leaf maps
            rw [Nat.mul_div_cancel i (by decide : 0 < PGSIZE)] at leaf
            obtain ⟨later, earlier⟩ := ih more
            refine ⟨fun j low high => ?_, fun j low => ?_⟩
            · by_cases here : j = i
              · subst here
                refine ⟨entry, ⟨mem, entry.flags ||| PTE_V, entry.data⟩, page, ?_, rfl⟩
                rw [earlier j (by omega), leaf, update_self]
              · exact later j (by omega) (by omega)
            · rw [earlier j (by omega), leaf, update_of_ne (by omega)]

theorem uvmcopy_copied {old new new' : PageTable} {sz : Nat}
    (copied : uvmcopy old new m sz = .ok (true, new', m')) {i : Nat} (below : i < pagesBelow sz) :
    Copied old new' i :=
  (uvmcopyLoop_copied copied).1 i (Nat.zero_le i) (by omega)

end Copy

/-! ## Faults

The address-space functions panic with texts of their own.  None of their
faults is one that the process lists raise. -/

section Faults

open ExceptBind

theorem stopsIn_panic {α : Type} {m : String}
    (other : m ≠ "Trying to remove from an empty list") :
    StopsIn (fun f => ¬ f.OfLists) (.error (.panic m) : Except Fault α) :=
  StopsIn.error other

theorem walk_stopsIn (pt : PageTable) (m : Kmem) (va : Nat) (alloc : Bool) :
    StopsIn (fun f => ¬ f.OfLists) (walk pt m va alloc) := by
  unfold walk
  split
  · exact stopsIn_panic (by decide)
  · dsimp only
    repeat' (first | exact StopsIn.ok _ | split)

theorem mappages_stopsIn (pt : PageTable) (m : Kmem) (va : Nat) (entry : Pte) :
    StopsIn (fun f => ¬ f.OfLists) (mappages pt m va entry) := by
  refine (walk_stopsIn _ _ _ _).bind fun r => ?_
  repeat' (first | exact StopsIn.ok _ | exact stopsIn_panic (by decide) | split)

theorem uvmunmap_stopsIn (pt : PageTable) (m : Kmem) (va npages : Nat) (doFree : Bool) :
    StopsIn (fun f => ¬ f.OfLists) (uvmunmap pt m va npages doFree) := by
  unfold uvmunmap
  split
  · exact stopsIn_panic (by decide)
  · refine StopsIn.foldlM (fun state vpn => ?_) _ _
    refine (walk_stopsIn _ _ _ _).bind fun r => ?_
    repeat' (first | exact StopsIn.ok _ | exact stopsIn_panic (by decide) | split)

theorem freewalkMid_stopsIn (pt : PageTable) (m : Kmem) (i : Nat) :
    StopsIn (fun f => ¬ f.OfLists) (freewalkMid pt m i) := by
  unfold freewalkMid
  generalize List.range 512 = indices
  split
  · exact StopsIn.ok _
  · refine (StopsIn.foldlM (fun m j => ?_) indices m).bind fun _ => StopsIn.ok _
    unfold freewalkLow
    split
    · exact StopsIn.ok _
    · split
      · exact stopsIn_panic (by decide)
      · exact StopsIn.ok _

theorem freewalk_stopsIn (pt : PageTable) (m : Kmem) :
    StopsIn (fun f => ¬ f.OfLists) (freewalk pt m) := by
  unfold freewalk
  generalize List.range 512 = indices
  exact (StopsIn.foldlM (freewalkMid_stopsIn pt) indices m).bind fun _ => StopsIn.ok _

theorem uvmfree_stopsIn (pt : PageTable) (m : Kmem) (sz : Nat) :
    StopsIn (fun f => ¬ f.OfLists) (uvmfree pt m sz) := by
  unfold uvmfree
  split
  · exact (uvmunmap_stopsIn _ _ _ _ _).bind fun r => freewalk_stopsIn _ _
  · exact freewalk_stopsIn _ _

theorem uvmcopy_stopsIn (old new : PageTable) (m : Kmem) (sz : Nat) :
    StopsIn (fun f => ¬ f.OfLists) (uvmcopy old new m sz) := by
  unfold uvmcopy
  generalize pagesBelow sz = remaining
  generalize 0 = i
  induction remaining generalizing i new m with
  | zero => exact StopsIn.ok _
  | succ remaining ih =>
    refine (walk_stopsIn _ _ _ _).bind fun r => ?_
    dsimp only
    split
    · exact stopsIn_panic (m := "uvmcopy: pte should exist") (by decide)
    · split
      · exact stopsIn_panic (by decide)
      · split
        · exact (uvmunmap_stopsIn _ _ _ _ _).bind fun _ => StopsIn.ok _
        · refine (mappages_stopsIn _ _ _ _).bind fun mapped => ?_
          split
          · exact (uvmunmap_stopsIn _ _ _ _ _).bind fun _ => StopsIn.ok _
          · exact ih _ _ _

end Faults

end OsbKernel
