import OsbKernel.Vm.PagingWalk

/-!
# Two allocators

The free list of `kalloc.c`, threaded through the free pages themselves, and an allocator that
answers each call as it is told to, with a page not in use or with 0. Both keep the laws that the
page-table functions need.
-/

namespace OsbKernel.Paging

open Function

def KERNBASE : Word := 0x80000000

def PHYSTOP : Word := KERNBASE + 128 * 1024 * 1024

/-- The address `end` behind the kernel. -/
structure Layout where
  kernelEnd : Word
  above : KERNBASE ≤ kernelEnd

structure Kmem (L : Layout) where
  freelist : Word

/-- A word of `memset(pa, 1, PGSIZE)`. -/
def junkFreed : Word := 0x0101010101010101

/-- A word of `memset(r, 5, PGSIZE)`. -/
def junkTaken : Word := 0x0505050505050505

instance kmemAllocator (L : Layout) : Allocator (Kmem L) where
  kalloc mem k :=
    let r := k.freelist
    if r = 0 then (0, mem, k)
    else (r, update mem r fun _ => junkTaken, ⟨mem r 0⟩)
  kfree mem k pa :=
    if pa % PGSIZE ≠ 0 ∨ pa < L.kernelEnd ∨ PHYSTOP ≤ pa then .error (.panic "kfree")
    else
      .ok (update mem pa (update (fun _ => junkFreed) 0 k.freelist), ⟨pa⟩)

def Links (mem : Memory) : Word → List Word → Prop
  | head, [] => head = 0
  | head, p :: rest => head = p ∧ Links mem (mem p 0) rest

structure RamPage (L : Layout) (page : Word) : Prop where
  aligned : page.toNat % 4096 = 0
  low : L.kernelEnd ≤ page
  high : page < PHYSTOP

theorem Links.congr {mem mem' : Memory} {head : Word} {l : List Word} (links : Links mem head l)
    (same : ∀ x ∈ l, mem' x = mem x) : Links mem' head l := by
  induction l generalizing head with
  | nil => exact links
  | cons p rest ih =>
    refine ⟨links.1, ?_⟩
    rw [same p List.mem_cons_self]
    exact ih links.2 fun x listed => same x (List.mem_cons_of_mem _ listed)

structure FreeList {L : Layout} (m : Machine (Kmem L)) (l : List Word) : Prop where
  links : Links m.mem m.kmem.freelist l
  nodup : l.Nodup
  ram : ∀ x ∈ l, RamPage L x

theorem ramPage_ne_zero {L : Layout} {page : Word} (ram : RamPage L page) : page ≠ 0 := by
  rintro rfl
  have low := BitVec.le_def.mp ram.low
  have base := BitVec.le_def.mp L.above
  have value : KERNBASE.toNat = 0x80000000 := rfl
  have zero : (0 : Word).toNat = 0 := rfl
  omega

section FreeList

variable {L : Layout} {m m' : Machine (Kmem L)} {l : List Word} {p : Word}

theorem kmem_kalloc (head : m.kmem.freelist = p) (nonzero : p ≠ 0) :
    m.kalloc = (p, ⟨update m.mem p fun _ => junkTaken, ⟨m.mem p 0⟩⟩) := by
  unfold Machine.kalloc
  simp only [Allocator.kalloc, head]
  rw [if_neg nonzero]

theorem FreeList.null (list : FreeList m l) (null : m.kalloc.1 = 0) : m.kalloc.2 = m ∧ l = [] := by
  cases l with
  | nil =>
    have head : m.kmem.freelist = 0 := list.links
    refine ⟨?_, rfl⟩
    simp [Machine.kalloc, Allocator.kalloc, head]
  | cons p rest =>
    have head : m.kmem.freelist = p := list.links.1
    have nonzero := ramPage_ne_zero (list.ram p List.mem_cons_self)
    have taken : m.kalloc.1 = p := by rw [kmem_kalloc head nonzero]
    exact absurd (taken.symm.trans null) nonzero

theorem FreeList.taken (list : FreeList m l) (got : m.kalloc.1 ≠ 0) :
    ∃ rest, l = m.kalloc.1 :: rest ∧ FreeList m.kalloc.2 rest ∧
      ∀ x, x ≠ m.kalloc.1 → m.kalloc.2.mem x = m.mem x := by
  cases l with
  | nil =>
    have head : m.kmem.freelist = 0 := list.links
    exact absurd (by simp [Machine.kalloc, Allocator.kalloc, head]) got
  | cons p rest =>
    have head : m.kmem.freelist = p := list.links.1
    have nonzero := ramPage_ne_zero (list.ram p List.mem_cons_self)
    rw [kmem_kalloc head nonzero]
    obtain ⟨absent, nodup⟩ := List.nodup_cons.mp list.nodup
    refine ⟨rest, rfl, ⟨?_, nodup, ?_⟩, fun x other => update_of_ne other _ _⟩
    · refine list.links.2.congr fun x listed => update_of_ne ?_ _ _
      rintro rfl
      exact absent listed
    · exact fun x listed => list.ram x (List.mem_cons_of_mem _ listed)

theorem FreeList.freed (list : FreeList m l) (absent : p ∉ l) (ran : m.kfree p = .ok m') :
    FreeList m' (p :: l) ∧ ∀ x, x ≠ p → m'.mem x = m.mem x := by
  unfold Machine.kfree at ran
  simp only [Allocator.kfree] at ran
  split at ran
  · cases ran
  · rename_i inside
    cases ran
    rw [not_or, not_or, not_not] at inside
    obtain ⟨aligned, low, high⟩ := inside
    have others : ∀ x, x ≠ p → update m.mem p (update (fun _ => junkFreed) 0 m.kmem.freelist) x =
        m.mem x := fun x other => update_of_ne other _ _
    refine ⟨⟨⟨rfl, ?_⟩, List.nodup_cons.mpr ⟨absent, list.nodup⟩, ?_⟩, others⟩
    · change Links (update m.mem p (update (fun _ => junkFreed) 0 m.kmem.freelist))
        (update m.mem p (update (fun _ => junkFreed) 0 m.kmem.freelist) p 0) l
      rw [update_self, update_self]
      refine list.links.congr fun x listed => others x ?_
      rintro rfl
      exact absent listed
    · intro x listed
      rcases List.mem_cons.mp listed with rfl | old
      · refine ⟨?_, BitVec.not_lt.mp low, BitVec.not_le.mp high⟩
        have known := congrArg BitVec.toNat aligned
        rwa [BitVec.toNat_umod] at known
      · exact list.ram x old

end FreeList

instance kmemLawful (L : Layout) : LawfulAllocator (Kmem L) where
  Owns m S := ∃ l, FreeList m l ∧ S = {x | x ∈ l}
  kalloc_null := by
    rintro m S ⟨l, list, rfl⟩ null
    obtain ⟨same, -⟩ := list.null null
    rw [same]
    exact ⟨⟨l, list, rfl⟩, rfl⟩
  kalloc_page := by
    rintro m S ⟨l, list, rfl⟩ got
    obtain ⟨rest, split, list', others⟩ := list.taken got
    have first : m.kalloc.1 ∈ l := by
      rw [split]
      exact List.mem_cons_self
    refine ⟨first, (list.ram _ first).aligned, ⟨rest, list', ?_⟩, others⟩
    have absent : m.kalloc.1 ∉ rest := by
      have nodup := list.nodup
      rw [split, List.nodup_cons] at nodup
      exact nodup.1
    ext x
    change x ∈ l ∧ x ≠ m.kalloc.1 ↔ x ∈ rest
    rw [split, List.mem_cons]
    constructor
    · rintro ⟨rfl | later, other⟩
      · exact absurd rfl other
      · exact later
    · intro later
      refine ⟨.inr later, ?_⟩
      rintro rfl
      exact absent later
  kfree_ok := by
    rintro m m' S p ⟨l, list, rfl⟩ absent ran
    obtain ⟨list', others⟩ := list.freed absent ran
    refine ⟨⟨p :: l, list', ?_⟩, others⟩
    ext x
    simp
  write := by
    rintro m m' S ⟨l, list, rfl⟩ kmem same
    refine ⟨l, ⟨?_, list.nodup, list.ram⟩, rfl⟩
    rw [kmem]
    exact list.links.congr same

/-- The answers to the next calls of `kalloc`, and the pages in use.  An answer counts if it is a
page below 2^56 that is not in use; otherwise, and behind the last one, `kalloc` returns 0. -/
structure Supply where
  answers : List Word
  inUse : List Word

/-- A page that `kalloc` may hand out. -/
def Supply.Fresh (k : Supply) (a : Word) : Prop :=
  a ≠ 0 ∧ a.toNat % 4096 = 0 ∧ a.toNat < 2 ^ 56 ∧ a ∉ k.inUse

instance supplyFreshDecidable (k : Supply) (a : Word) : Decidable (k.Fresh a) :=
  inferInstanceAs (Decidable (_ ∧ _))

instance supplyAllocator : Allocator Supply where
  kalloc mem k :=
    match k.answers with
    | [] => (0, mem, k)
    | a :: rest =>
      if k.Fresh a then (a, mem, ⟨rest, a :: k.inUse⟩) else (0, mem, { k with answers := rest })
  kfree mem k pa := .ok (update mem pa fun _ => junkFreed, { k with inUse := k.inUse.filter (· ≠ pa) })

section Supply

variable {m : Machine Supply}

theorem supply_kalloc : (m.kalloc.1 = 0 ∧ m.kalloc.2.kmem.inUse = m.kmem.inUse ∧
      m.kalloc.2.mem = m.mem) ∨
    (m.kmem.Fresh m.kalloc.1 ∧ m.kalloc.2.kmem.inUse = m.kalloc.1 :: m.kmem.inUse ∧
      m.kalloc.2.mem = m.mem) := by
  unfold Machine.kalloc
  simp only [Allocator.kalloc]
  split
  · exact .inl ⟨rfl, rfl, rfl⟩
  · split
    · rename_i fresh
      exact .inr ⟨fresh, rfl, rfl⟩
    · exact .inl ⟨rfl, rfl, rfl⟩

end Supply

instance supplyLawful : LawfulAllocator Supply where
  Owns m S := S = {x | x ∉ m.kmem.inUse}
  kalloc_null := by
    rintro m S rfl null
    rcases supply_kalloc (m := m) with ⟨-, inUse, mem⟩ | ⟨fresh, -, -⟩
    · rw [inUse]
      exact ⟨rfl, mem⟩
    · exact absurd null fresh.1
  kalloc_page := by
    rintro m S rfl got
    rcases supply_kalloc (m := m) with ⟨null, -, -⟩ | ⟨fresh, inUse, mem⟩
    · exact absurd null got
    · refine ⟨fresh.2.2.2, fresh.2.1, ?_, fun x _ => by rw [mem]⟩
      rw [inUse]
      ext x
      change x ∉ m.kmem.inUse ∧ x ≠ m.kalloc.1 ↔ x ∉ m.kalloc.1 :: m.kmem.inUse
      rw [List.mem_cons, not_or, and_comm]
  kfree_ok := by
    rintro m m' S p rfl - ran
    cases ran
    refine ⟨?_, fun x other => update_of_ne other _ _⟩
    ext x
    change x = p ∨ x ∉ m.kmem.inUse ↔ x ∉ m.kmem.inUse.filter (· ≠ p)
    rw [List.mem_filter, not_and]
    constructor
    · rintro (rfl | absent) listed
      · simp
      · exact absurd listed absent
    · intro known
      by_cases here : x = p
      · exact .inl here
      · exact .inr fun listed => known listed (by simp [here])
  write := by
    rintro m m' S rfl kmem -
    rw [kmem]

end OsbKernel.Paging
