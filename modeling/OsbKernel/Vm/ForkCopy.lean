import OsbKernel.Vm.GrowProc

/-!
# Copying an address space

`uvmcopy` gives the child its own copy of every page of the parent, or leaves nothing.  After it,
what is copied out to one of the two address spaces does not show in the other.
-/

namespace OsbKernel.Paging

open Function FreeRadix ExceptBind LawfulAllocator RamAllocator PartialMap

section Isolated

variable {K : Type} [Allocator K] {m : Machine K} {a b : Word}

structure Isolated (m : Machine K) (a b : Word) : Prop where
  left : Separate m a
  right : Separate m b
  pages : ∀ v w, userPage m a v ≠ 0 → userPage m a v ≠ userPage m b w
  leftTables : ∀ v, userPage m a v ≠ 0 → userPage m a v ∉ tables m.mem b
  rightTables : ∀ v, userPage m b v ≠ 0 → userPage m b v ∉ tables m.mem a

theorem Isolated.symm (isolated : Isolated m a b) : Isolated m b a := by
  refine ⟨isolated.right, isolated.left, ?_, isolated.rightTables, isolated.leftTables⟩
  intro v w user same
  exact isolated.pages w v (by rw [← same]; exact user) same.symm

theorem Isolated.copyout (isolated : Isolated m a b) (va : Word) (src : List Byte) :
    userMem (copyout m a va src).2 b = userMem m b ∧ Isolated (copyout m a va src).2 a b := by
  obtain ⟨k, copies⟩ := copyout_copies isolated.left va src
  have copied := copies.copied
  have sameA := copied.tables isolated.left
  have other : ∀ x, (∀ v, userPage m a v ≠ 0 → userPage m a v ≠ x) →
      (Paging.copyout m a va src).2.mem x = m.mem x :=
    fun x away => copied.other x fun i inside => away _ (copied.mapped i inside)
  have sameB : ∀ x ∈ tables m.mem b, (Paging.copyout m a va src).2.mem x = m.mem x := by
    intro x table
    refine other x fun v user equal => isolated.leftTables v user ?_
    rw [equal]
    exact table
  have pagesA := userPage_congr sameA
  have pagesB := userPage_congr sameB
  have shapeA : tables (Paging.copyout m a va src).2.mem a = tables m.mem a := Format.nodes_congr sameA
  have shapeB : tables (Paging.copyout m a va src).2.mem b = tables m.mem b := Format.nodes_congr sameB
  refine ⟨?_, isolated.left.congr sameA, isolated.right.congr sameB, ?_, ?_, ?_⟩
  · funext x
    by_cases absent : userPage m b (x / 4096) = 0
    · rw [userMem_none absent, userMem_none (by rw [pagesB]; exact absent)]
    · rw [userMem_some absent, userMem_some (by rw [pagesB]; exact absent), pagesB,
        other _ fun v user => isolated.pages v _ user]
  · rw [pagesA, pagesB]
    exact isolated.pages
  · rw [pagesA, shapeB]
    exact isolated.leftTables
  · rw [pagesB, shapeA]
    exact isolated.rightTables

/-- Several calls of `copyout`, to the first page table or to the second. -/
def copyouts (a b : Word) : List (Bool × Word × List Byte) → Machine K → Machine K
  | [], m => m
  | (first, va, src) :: rest, m =>
    copyouts a b rest (copyout m (if first then a else b) va src).2

theorem Isolated.copyouts (isolated : Isolated m a b) (calls : List (Bool × Word × List Byte)) :
    Isolated (copyouts a b calls m) a b := by
  induction calls generalizing m with
  | nil => exact isolated
  | cons call calls ih =>
    obtain ⟨first, va, src⟩ := call
    cases first with
    | true => exact ih (isolated.copyout va src).2
    | false => exact ih (isolated.symm.copyout va src).2.symm

end Isolated

section Spaces

variable {K : Type} [Allocator K] [LawfulAllocator K] [RamAllocator K] {m m' : Machine K}
  {S : Set Word} {trampoline trapframe trapframe' old new sz sz' : Word}

theorem pagesFrom_injective {entries : Nat → Option Word} {count u w : Nat} {pte pte' : Word}
    (nodup : (pagesFrom entries 0 count).Nodup) (below : u < count) (below' : w < count)
    (first : entries u = some pte) (second : entries w = some pte') (same : PTE2PA pte = PTE2PA pte') :
    u = w := by
  have ordered : ∀ {u w : Nat} {pte pte' : Word}, u < w → w < count → entries u = some pte →
      entries w = some pte' → PTE2PA pte ≠ PTE2PA pte' := by
    intro u w pte pte' less high first second equal
    have split := pagesFrom_append entries 0 (u + 1) (count - (u + 1))
    rw [Nat.zero_add, Nat.add_sub_cancel' (by omega : u + 1 ≤ count)] at split
    rw [split] at nodup
    refine (List.nodup_append.mp nodup).2.2 _ (mem_pagesFrom (Nat.zero_le u) (by omega) first) _
      (mem_pagesFrom (by omega : u + 1 ≤ w) (by omega) second) equal
  rcases Nat.lt_trichotomy u w with less | equal | more
  · exact absurd same (ordered less below' first second)
  · exact equal
  · exact absurd same.symm (ordered more below second first)

theorem Space.userPage (space : Space m trampoline trapframe old sz) {v : Nat}
    (user : userPage m old v ≠ 0) :
    v < pagesBelow sz ∧ ∃ pte, pteAt m.mem old v = some pte ∧ Paging.userPage m old v = PTE2PA pte := by
  have inside : v < pagesBelow sz := by
    by_contra above
    have none := space.userMem_above (by omega : pagesBelow sz * 4096 ≤ v * 4096)
    have page : v * 4096 / 4096 = v := by omega
    exact userMem_ne_none.mpr (by rw [page]; exact user) none
  obtain ⟨pte, entry, -⟩ := space.user v inside
  refine ⟨inside, pte, entry, ?_⟩
  have limit := userPage_inside user
  rw [userPage_entry limit, entry] at user ⊢
  by_cases flag : pte &&& PTE_U = 0
  · exact absurd (if_pos flag) user
  · exact if_neg flag

theorem Space.userPage_mem (space : Space m trampoline trapframe old sz) {v : Nat}
    (user : Paging.userPage m old v ≠ 0) :
    Paging.userPage m old v ∈ pagesFrom (pteAt m.mem old) 0 (pagesBelow sz) := by
  obtain ⟨inside, pte, entry, page⟩ := space.userPage user
  rw [page]
  exact mem_pagesFrom (Nat.zero_le v) (by omega) entry

theorem Space.separate (space : Space m trampoline trapframe old sz) : Separate m old := by
  obtain ⟨-, nodup, away⟩ := List.nodup_append.mp space.nodup
  refine ⟨?_, ?_⟩
  · intro v w user same
    obtain ⟨inside, pte, entry, page⟩ := space.userPage user
    obtain ⟨inside', pte', entry', page'⟩ := space.userPage (same ▸ user : Paging.userPage m old w ≠ 0)
    exact pagesFrom_injective nodup inside inside' entry entry' (by rw [← page, ← page', same])
  · intro v user table
    exact away _ table _ (space.userPage_mem user) rfl

theorem Space.isolated (space : Space m trampoline trapframe old sz)
    (space' : Space m trampoline trapframe' new sz')
    (disjoint : ∀ x ∈ footprint m.mem old sz, x ∉ footprint m.mem new sz') : Isolated m old new := by
  refine ⟨space.separate, space'.separate, ?_, ?_, ?_⟩
  · intro v w user same
    have member := space.userPage_mem user
    refine disjoint _ (List.mem_append_right _ member) ?_
    rw [same] at user ⊢
    exact List.mem_append_right _ (space'.userPage_mem user)
  · intro v user table
    exact disjoint _ (List.mem_append_right _ (space.userPage_mem user)) (List.mem_append_left _ table)
  · intro v user table
    exact disjoint _ (List.mem_append_left _ table) (List.mem_append_right _ (space'.userPage_mem user))

def PagesCopied (m m' : Machine K) (S : Set Word) (old new sz : Word) : Prop :=
  ∀ u < pagesBelow sz, ∃ pte pte', pteAt m.mem old u = some pte ∧ pteAt m'.mem new u = some pte' ∧
    PTE_FLAGS pte' = PTE_FLAGS pte ∧ PTE2PA pte' ∈ S ∧ m'.mem (PTE2PA pte') = m.mem (PTE2PA pte)

theorem Filled.pagesCopied {added data : List Word}
    (filled : Filled m m' S new 0 (flagsAt (pteAt m.mem old)) added data)
    (copied : Copied m m' S new (fun u => PTE2PA ((pteAt m.mem old u).getD 0)) data)
    (parent : Space m trampoline trapframe old sz) (count : data.length = pagesBelow sz)
    (apart : ∀ x ∈ Paging.footprint m.mem old sz, x ∉ S)
    (away : ∀ x ∈ Paging.footprint m.mem old sz, x ∉ tables m.mem new) :
    PagesCopied m m' S old new sz := by
  intro u below
  obtain ⟨pte, entry, -⟩ := parent.user u below
  have inside := filled.inside
  have index : u < data.length := by omega
  have listed : data.getD u 0 ∈ data := by
    rw [List.getD_eq_getElem _ _ index]
    exact List.getElem_mem index
  have flags : flagsAt (pteAt m.mem old) u = PTE_FLAGS pte := by
    rw [flagsAt, entry, Option.getD_some]
  have small : (flagsAt (pteAt m.mem old) u).toNat < 1024 := pte_flags_small _
  have member : PTE2PA pte ∈ Paging.footprint m.mem old sz :=
    List.mem_append_right _ (mem_pagesFrom (Nat.zero_le u) (by omega) entry)
  have page : PTE2PA (packPte data (flagsAt (pteAt m.mem old)) u) = data.getD u 0 := by
    rw [packPte, pte2pa_pte small, pgrounddown_of_aligned (filled.aligned _ listed)]
  refine ⟨pte, packPte data (flagsAt (pteAt m.mem old)) u, entry, ?_, ?_, ?_, ?_⟩
  · rw [filled.grants.entries u (by omega), bindPages, if_pos (by omega), Nat.sub_zero]
  · rw [packPte, pte_flags_pte small, flags]
  · rw [page]
    exact filled.grants.fresh _ (List.mem_append_right _ listed)
  · have content := copied u index
    simp only [entry, Option.getD_some] at content
    rw [page]
    exact content (apart _ member) (away _ member)

theorem uvmcopy_space (owns : Owns m S) (parent : Space m trampoline trapframe old sz)
    (child : Space m trampoline trapframe' new 0) (apart : ∀ x ∈ footprint m.mem old sz, x ∉ S)
    (apart' : ∀ x ∈ footprint m.mem new 0, x ∉ S)
    (disjoint : ∀ x ∈ footprint m.mem old sz, x ∉ footprint m.mem new 0) :
    ∃ result m', uvmcopy m old new sz = .ok (result, m') ∧
      ((result = true ∧ Space m' trampoline trapframe' new sz ∧
          (∃ S', Exchange m m' S S' (footprint m.mem new 0) (footprint m'.mem new sz)) ∧
          PagesCopied m m' S old new sz) ∨
        (result = false ∧ Space m' trampoline trapframe' new 0 ∧
          ∃ S', Exchange m m' S S' (footprint m.mem new 0) (footprint m'.mem new 0))) := by
  have ok := child.tableOk apart'
  have ok' := parent.tableOk apart
  have size := parent.size
  have top : VPNS = 2 ^ 26 := rfl
  have zero : pagesBelow 0 = 0 := rfl
  have away : ∀ x ∈ footprint m.mem old sz, x ∉ tables m.mem new :=
    fun x listed table => disjoint x listed (List.mem_append_left _ table)
  have leaves : ∀ u < pagesBelow sz, Leaf K false (pteAt m.mem old u) := by
    intro u below
    obtain ⟨pte, entry, flags, -⟩ := parent.leaf below
    exact ⟨pte, entry, flags, fun known => absurd known Bool.false_ne_true⟩
  obtain ⟨result, m', ran⟩ := uvmcopy_some owns ok ok'
    (fun x table => away x (List.mem_append_left _ table)) (by omega : pagesBelow sz ≤ VPNS) leaves
    (fun u below => child.gap u (by rw [zero]; exact Nat.zero_le u) (by omega))
  refine ⟨result, m', ran, ?_⟩
  rcases uvmcopy_cases owns ok ok' (fun x table => away x (List.mem_append_left _ table)) ran with
    ⟨done, added, data, count, filled, copied, -⟩ | ⟨failed, unchanged⟩
  · have pages := filled.pagesCopied copied parent count apart away
    have small : ∀ i, (flagsAt (pteAt m.mem old) i).toNat < 1024 := fun _ => pte_flags_small _
    have same : ∀ u < pagesBelow sz,
        flagsAt (pteAt m'.mem new) u = flagsAt (pteAt m.mem old) u := by
      intro u below
      obtain ⟨pte, pte', entry, entry', flags, -⟩ := pages u below
      rw [flagsAt, flagsAt, entry, entry', Option.getD_some, Option.getD_some, flags]
    obtain ⟨space, exchange⟩ := filled.space owns child apart'
      (by rw [zero, count, Nat.zero_add] : pagesBelow 0 + data.length = pagesBelow sz) (by omega) small (by
        intro i below
        obtain ⟨pte, entry, flags⟩ := parent.user i (by omega)
        rw [flagsAt, entry, Option.getD_some]
        exact flags) (by
        intro u below w below' first second
        rw [same u below] at first
        rw [same w below'] at second
        exact parent.guard u below w below' first second)
    exact .inl ⟨done, space, ⟨_, exchange⟩, pages⟩
  · obtain ⟨added, filled⟩ := unchanged.filled (by omega : pagesBelow 0 ≤ VPNS)
    obtain ⟨space, exchange⟩ := filled.space owns child apart' rfl (by decide) (fun _ => by decide)
      (fun _ _ => .inl rfl) (filled.single child rfl (by decide))
    exact .inr ⟨failed, space, _, exchange⟩

/-- What `uvmcopy` is for, when it returns 0: copies that are the child's own. -/
structure CopiedInIsolation (m m' : Machine K) (S : Set Word) (old new sz : Word) : Prop where
  pages : PagesCopied m m' S old new sz
  own : ∀ u < pagesBelow sz, ∀ w < pagesBelow sz, ∀ pte pte', pteAt m'.mem old u = some pte →
    pteAt m'.mem new w = some pte' → PTE2PA pte ≠ PTE2PA pte'
  parent : pteAt m'.mem old = pteAt m.mem old ∧ userMem m' old = userMem m old
  later : ∀ calls va src,
    userMem (copyout (copyouts old new calls m') old va src).2 new =
        userMem (copyouts old new calls m') new ∧
      userMem (copyout (copyouts old new calls m') new va src).2 old =
        userMem (copyouts old new calls m') old

/-- What `uvmcopy` leaves when it returns -1. -/
structure CopyUndone (m m' : Machine K) (S : Set Word) (old new sz : Word) : Prop where
  entries : ∀ u < pagesBelow sz, pteAt m'.mem new u = none
  freed : ∃ S', Owns m' S' ∧ ∀ x ∈ S, x ∈ S' ∨ x ∈ tables m'.mem new
  parent : pteAt m'.mem old = pteAt m.mem old ∧ userMem m' old = userMem m old

theorem Space.untouched (space : Space m trampoline trapframe old sz)
    (same : ∀ x ∈ footprint m.mem old sz, m'.mem x = m.mem x) :
    pteAt m'.mem old = pteAt m.mem old ∧ userMem m' old = userMem m old := by
  have tables : ∀ x ∈ tables m.mem old, m'.mem x = m.mem x :=
    fun x table => same x (List.mem_append_left _ table)
  have entries : pteAt m'.mem old = pteAt m.mem old := by
    funext v
    exact pteAt_congr tables v
  have pages := userPage_congr tables
  refine ⟨entries, ?_⟩
  funext a
  by_cases absent : Paging.userPage m old (a / 4096) = 0
  · rw [userMem_none absent, userMem_none (by rw [pages]; exact absent)]
  · rw [userMem_some absent, userMem_some (by rw [pages]; exact absent), pages,
      same _ (List.mem_append_right _ (space.userPage_mem absent))]

/-- `uvmcopy` copies memory faithfully and in isolation, or undoes what it has done; it does the
latter exactly if a `kalloc` of the call returned 0. -/
theorem uvmcopy_faithful {L : Layout} {m : Machine (Failing (Kmem L))} (owns : Owns m S)
    (parent : Space m trampoline trapframe old sz) (child : Space m trampoline trapframe' new 0)
    (apart : ∀ x ∈ footprint m.mem old sz, x ∉ S) (apart' : ∀ x ∈ footprint m.mem new 0, x ∉ S)
    (disjoint : ∀ x ∈ footprint m.mem old sz, x ∉ footprint m.mem new 0) :
    ∃ result m', uvmcopy m old new sz = .ok (result, m') ∧
      (result = false ↔ m.kmem.refused < m'.kmem.refused) ∧
      (result = true → CopiedInIsolation m m' S old new sz) ∧
      (result = false → CopyUndone m m' S old new sz) := by
  obtain ⟨result, m', ran, outcome⟩ := uvmcopy_space owns parent child apart apart' disjoint
  have refused := uvmcopyLoop_refused ran
  have size := parent.size
  have top : VPNS = 2 ^ 26 := rfl
  have zero : pagesBelow 0 = 0 := rfl
  refine ⟨result, m', ran, by cases result <;> simp [refused], ?_⟩
  rcases outcome with ⟨rfl, space, ⟨S', exchange⟩, pages⟩ | ⟨rfl, space, S', exchange⟩
  · refine ⟨fun _ => ?_, fun impossible => absurd impossible.symm Bool.false_ne_true⟩
    have same : ∀ x ∈ footprint m.mem old sz, m'.mem x = m.mem x :=
      fun x listed => exchange.frame x (apart x listed) (disjoint x listed)
    have untouched := parent.untouched same
    obtain ⟨parent', shape⟩ := parent.congr fun x table => same x (List.mem_append_left _ table)
    have disjoint' : ∀ x ∈ footprint m'.mem old sz, x ∉ footprint m'.mem new sz := by
      intro x listed member
      rw [shape] at listed
      rcases (exchange.conserve x).mp (.inr member) with free | mine
      · exact apart x listed free
      · exact disjoint x listed mine
    have isolated := parent'.isolated space disjoint'
    refine ⟨pages, ?_, untouched, fun calls va src => ?_⟩
    · intro u below w below' pte pte' first second equal
      refine disjoint' _ (List.mem_append_right _ (mem_pagesFrom (Nat.zero_le u) (by omega) first)) ?_
      rw [equal]
      exact List.mem_append_right _ (mem_pagesFrom (Nat.zero_le w) (by omega) second)
    · have still := isolated.copyouts calls
      exact ⟨(still.copyout va src).1, (still.symm.copyout va src).1⟩
  · refine ⟨fun impossible => absurd impossible Bool.false_ne_true, fun _ => ?_⟩
    refine ⟨fun u below => space.gap u (by rw [zero]; exact Nat.zero_le u) (by omega),
      ⟨S', exchange.owns, fun x free => ?_⟩, parent.untouched fun x listed =>
        exchange.frame x (apart x listed) (disjoint x listed)⟩
    refine ((exchange.conserve x).mpr (.inl free)).imp_right fun mine => ?_
    have shape : footprint m'.mem new 0 = tables m'.mem new := List.append_nil _
    rwa [shape] at mine

end Spaces

theorem smallFork_spaces : ∃ (m : Machine (Failing (Kmem smallLayout))) (S : Set Word)
    (old new : Word), Owns m S ∧ Space m 0x80000000 0x80001000 old 4096 ∧
      Space m 0x80000000 0x80002000 new 0 ∧ (∀ x ∈ footprint m.mem old 4096, x ∉ S) ∧
      (∀ x ∈ footprint m.mem new 0, x ∉ S) ∧
      (∀ x ∈ footprint m.mem old 4096, x ∉ footprint m.mem new 0) ∧
      ((uvmcopy m old new 4096).toOption.map Prod.fst) = some true := by
  have values : ((smallProcess >>= fun r => procPagetable r.2.2 0x80000000 0x80002000 >>= fun made =>
      .ok (made.1.isSome, (uvmcopy made.2 (r.1.getD 0) (made.1.getD 0) 4096).toOption.map
        Prod.fst)).toOption) = some (true, some true) := by
    decide +kernel
  obtain ⟨m, S, old, made, owns, space, apart⟩ := smallProcess_space
  obtain ⟨result, m', ran, outcome⟩ := procPagetable_space owns 0x80000000 0x80002000
  rw [bind_eq made, bind_eq ran] at values
  rcases outcome with ⟨rfl, -⟩ | ⟨new, S', rfl, space', exchange⟩
  · cases congrArg (Option.map Prod.fst) values
  · have same : ∀ x ∈ footprint m.mem old 4096, m'.mem x = m.mem x :=
      fun x listed => exchange.frame x (apart x listed) List.not_mem_nil
    obtain ⟨space'', shape⟩ := space.congr fun x table => same x (List.mem_append_left _ table)
    have away : ∀ x ∈ footprint m.mem old 4096, ¬ (x ∈ S' ∨ x ∈ footprint m'.mem new 0) := by
      intro x listed
      rw [exchange.conserve, not_or]
      exact ⟨apart x listed, List.not_mem_nil⟩
    rw [← shape] at away
    exact ⟨m', S', old, new, exchange.owns, space'', space',
      fun x listed free => away x listed (.inl free), exchange.apart,
      fun x listed member => away x listed (.inr member), congrArg Prod.snd (Option.some.inj values)⟩

/-- A process of one page is copied. -/
theorem uvmcopy_faithful_small : ∃ (m m' : Machine (Failing (Kmem smallLayout))) (S : Set Word)
    (old new : Word), uvmcopy m old new 4096 = .ok (true, m') ∧
      CopiedInIsolation m m' S old new 4096 := by
  obtain ⟨m, S, old, new, owns, parent, child, apart, apart', disjoint, value⟩ := smallFork_spaces
  obtain ⟨result, m', ran, -, copied, -⟩ := uvmcopy_faithful owns parent child apart apart' disjoint
  rw [ran] at value
  cases value
  exact ⟨m, m', S, old, new, ran, copied rfl⟩

end OsbKernel.Paging
