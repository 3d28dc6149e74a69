import OsbKernel.Vm.Allocators
import OsbKernel.Vm.PagingGrow

/-!
# Page tables as finite maps

Any number of page tables in one memory, changed by any sequence of calls.  Their pages
form trees without sharing, and what `walk` finds is a finite map that each call changes
exactly where it says.
-/

namespace OsbKernel.Paging

open Function FreeRadix ExceptBind LawfulAllocator

section Evolves

variable {K : Type} [Allocator K] [LawfulAllocator K] {m m' : Machine K} {S S' : Set Word}
  {t t' : Word} {added data freed : List Word} {entries : Nat → Option Word} {roots : List Word}

/-- The page tables do not share pages with each other or with the allocator. -/
structure TablesOk (m : Machine K) (S : Set Word) (roots : List Word) : Prop where
  owns : Owns m S
  nodup : (roots.flatMap (tables m.mem)).Nodup
  apart : ∀ x ∈ roots.flatMap (tables m.mem), x ∉ S

/-- What a call on one page table does to the memory of the others. -/
structure Evolves (m m' : Machine K) (S S' : Set Word) (t : Word) (added freed : List Word) : Prop where
  owns : Owns m' S'
  tables : (Paging.tables m'.mem t).Perm (added ++ Paging.tables m.mem t)
  nodup : added.Nodup
  fresh : ∀ x ∈ added, x ∈ S ∧ x ∉ S'
  shrinks : ∀ x ∈ S', x ∈ S ∨ x ∈ freed
  frame : ∀ x, x ∉ Paging.tables m.mem t → x ∉ S → x ∉ freed → m'.mem x = m.mem x

theorem Grants.evolves (grants : Grants m m' S t added data entries) :
    Evolves m m' S (S \ {x | x ∈ added ++ data}) t added [] := by
  refine ⟨grants.owns, grants.tables, (List.nodup_append.mp grants.nodup).1, ?_, ?_, ?_⟩
  · intro x new
    have listed := List.mem_append_left data new
    exact ⟨grants.fresh x listed, fun inside => inside.2 listed⟩
  · exact fun x inside => .inl inside.1
  · exact fun x outside notFree _ => grants.frame x outside notFree

theorem Unmaps.evolves (unmaps : Unmaps m m' S t freed entries) :
    Evolves m m' S (S ∪ {x | x ∈ freed}) t [] freed := by
  refine ⟨unmaps.owns, unmaps.tables, List.nodup_nil, ?_, fun x inside => inside, ?_⟩
  · intro x new
    cases new
  · exact fun x outside _ kept => unmaps.frame x outside kept

theorem TablesOk.table (ok : TablesOk m S roots) (member : t ∈ roots) : TableOk m S t := by
  have nodup := List.nodup_flatMap.mp ok.nodup
  exact ⟨nodup.1 t member, fun x listed => ok.apart x (List.mem_flatMap.mpr ⟨t, member, listed⟩)⟩

theorem TablesOk.same (ok : TablesOk m S roots) (member : t ∈ roots) (member' : t' ∈ roots) {x : Word}
    (listed : x ∈ tables m.mem t) (listed' : x ∈ tables m.mem t') : t = t' := by
  by_contra other
  obtain ⟨-, apart⟩ := List.nodup_flatMap.mp ok.nodup
  rw [List.pairwise_iff_getElem] at apart
  obtain ⟨i, below, rfl⟩ := List.getElem_of_mem member
  obtain ⟨j, below', rfl⟩ := List.getElem_of_mem member'
  rcases Nat.lt_trichotomy i j with less | same | more
  · exact apart i j below below' less listed listed'
  · subst same
    exact other rfl
  · exact apart j i below' below more listed' listed

theorem Evolves.other (evolves : Evolves m m' S S' t added freed) (ok : TablesOk m S roots)
    (member : t ∈ roots) (away : ∀ x ∈ freed, x ∉ roots.flatMap (Paging.tables m.mem))
    (member' : t' ∈ roots)
    (differ : t' ≠ t) :
    Paging.tables m'.mem t' = Paging.tables m.mem t' ∧ pteAt m'.mem t' = pteAt m.mem t' := by
  have kept : ∀ x ∈ Paging.tables m.mem t', m'.mem x = m.mem x := by
    intro x listed
    have known : x ∈ roots.flatMap (Paging.tables m.mem) := List.mem_flatMap.mpr ⟨t', member', listed⟩
    refine evolves.frame x ?_ (ok.apart x known) fun gone => away x gone known
    exact fun mine => differ (ok.same member' member listed mine)
  refine ⟨Format.nodes_congr kept, ?_⟩
  funext v
  exact Format.lookup_congr (indices_lt v) kept

theorem TablesOk.evolve (ok : TablesOk m S roots) (evolves : Evolves m m' S S' t added freed)
    (member : t ∈ roots) (away : ∀ x ∈ freed, x ∉ roots.flatMap (tables m.mem)) :
    TablesOk m' S' roots := by
  obtain ⟨single, apart⟩ := List.nodup_flatMap.mp ok.nodup
  have pages : ∀ t' ∈ roots, ∀ x ∈ Paging.tables m'.mem t',
      x ∈ Paging.tables m.mem t' ∨ (t' = t ∧ x ∈ added) := by
    intro t' member' x listed
    by_cases same : t' = t
    · rw [same] at listed ⊢
      rcases List.mem_append.mp (evolves.tables.mem_iff.mp listed) with new | old
      · exact .inr ⟨rfl, new⟩
      · exact .inl old
    · rw [(evolves.other ok member away member' same).1] at listed
      exact .inl listed
  have old : ∀ t' ∈ roots, ∀ x ∈ Paging.tables m.mem t', x ∉ S ∧ x ∉ S' := by
    intro t' member' x listed
    have known : x ∈ roots.flatMap (Paging.tables m.mem) := List.mem_flatMap.mpr ⟨t', member', listed⟩
    refine ⟨ok.apart x known, fun inside => ?_⟩
    rcases evolves.shrinks x inside with before | gone
    · exact ok.apart x known before
    · exact away x gone known
  refine ⟨evolves.owns, List.nodup_flatMap.mpr ⟨?_, ?_⟩, ?_⟩
  · intro t' member'
    by_cases same : t' = t
    · rw [same, evolves.tables.nodup_iff]
      refine List.nodup_append.mpr ⟨evolves.nodup, single t member, ?_⟩
      rintro x new _ listed rfl
      exact (old t member x listed).1 (evolves.fresh x new).1
    · rw [(evolves.other ok member away member' same).1]
      exact single t' member'
  · refine apart.imp_of_mem ?_
    intro t₁ t₂ member₁ member₂ disjoint x first second
    rcases pages t₁ member₁ x first with old₁ | ⟨same₁, new₁⟩
    · rcases pages t₂ member₂ x second with old₂ | ⟨-, new₂⟩
      · exact disjoint old₁ old₂
      · exact (old t₁ member₁ x old₁).1 (evolves.fresh x new₂).1
    · rcases pages t₂ member₂ x second with old₂ | ⟨same₂, -⟩
      · exact (old t₂ member₂ x old₂).1 (evolves.fresh x new₁).1
      · rw [same₁, same₂] at disjoint
        exact disjoint (Format.self_mem_nodes _) (Format.self_mem_nodes _)
  · intro x listed
    obtain ⟨t', member', inside⟩ := List.mem_flatMap.mp listed
    rcases pages t' member' x inside with before | ⟨-, new⟩
    · exact (old t' member' x before).2
    · exact (evolves.fresh x new).2

omit [Allocator K] [LawfulAllocator K] in
theorem tables_clear {p : Word} : tables (m.clear p).mem p = [p] ∧ pteAt (m.clear p).mem p = fun _ => none := by
  have empty : ∀ k, format.valid ((m.clear p).mem p k) = false := by
    intro k
    rw [clear_mem_self]
    exact invalid_iff.mpr zero_invalid
  refine ⟨Format.nodes_of_empty empty, ?_⟩
  funext v
  exact Format.lookup_of_empty empty

theorem TablesOk.create (ok : TablesOk m S roots) :
    ∃ S', TablesOk (uvmcreate m).2 S' ((uvmcreate m).1.toList ++ roots) := by
  unfold uvmcreate
  simp only
  split
  · rename_i null
    obtain ⟨owns, mem⟩ := kalloc_null ok.owns null
    refine ⟨S, owns, ?_, ?_⟩
    · change (roots.flatMap (tables m.kalloc.2.mem)).Nodup
      rw [mem]
      exact ok.nodup
    · rw [mem]
      exact ok.apart
  · rename_i got
    have took := took_clear ok.owns got
    have others : roots.flatMap (tables (m.kalloc.2.clear m.kalloc.1).mem) =
        roots.flatMap (tables m.mem) :=
      List.flatMap_congr fun t member => (took.table (ok.table member)).2.1
    have pages : (m.kalloc.1 :: roots).flatMap (tables (m.kalloc.2.clear m.kalloc.1).mem) =
        m.kalloc.1 :: roots.flatMap (tables m.mem) := by
      rw [List.flatMap_cons, tables_clear.1, others]
      rfl
    refine ⟨S \ {m.kalloc.1}, took.owns, ?_, ?_⟩
    · change ((m.kalloc.1 :: roots).flatMap _).Nodup
      rw [pages]
      exact List.nodup_cons.mpr ⟨fun listed => ok.apart _ listed took.had, ok.nodup⟩
    · change ∀ x ∈ (m.kalloc.1 :: roots).flatMap _, _
      rw [pages]
      intro x listed inside
      rcases List.mem_cons.mp listed with here | old
      · exact inside.2 here
      · exact ok.apart x old inside.1

end Evolves

inductive Call where
  | uvmcreate
  | walk (t va : Word) (alloc : Bool)
  | mappages (t va size pa : Word) (perm : BitVec 32)
  | uvmunmap (t va npages : Word) (doFree : Bool)
  | uvmalloc (t oldsz newsz : Word)
  | uvmdealloc (t oldsz newsz : Word)
  | uvmcopy (old new sz : Word)
  | uvmclear (t va : Word)
  deriving DecidableEq

structure World where
  machine : Machine Supply
  roots : List Word

namespace World

def tables (w : World) : List Word := w.roots.flatMap (Paging.tables w.machine.mem)

/-- The pages that `kalloc` may return. -/
def free (w : World) : Set Word := {x | x ∉ w.machine.kmem.inUse}

def exec (w : World) : Call → Except Fault World
  | .uvmcreate =>
    let (t, m) := Paging.uvmcreate w.machine
    .ok ⟨m, t.toList ++ w.roots⟩
  | .walk t va alloc => (Paging.walk w.machine t va alloc).map fun r => ⟨r.2, w.roots⟩
  | .mappages t va size pa perm =>
    (Paging.mappages w.machine t va size pa perm).map fun r => ⟨r.2, w.roots⟩
  | .uvmunmap t va npages doFree =>
    (Paging.uvmunmap w.machine t va npages doFree).map fun m => ⟨m, w.roots⟩
  | .uvmalloc t oldsz newsz =>
    (Paging.uvmalloc w.machine t oldsz newsz).map fun r => ⟨r.2, w.roots⟩
  | .uvmdealloc t oldsz newsz =>
    (Paging.uvmdealloc w.machine t oldsz newsz).map fun r => ⟨r.2, w.roots⟩
  | .uvmcopy old new sz => (Paging.uvmcopy w.machine old new sz).map fun r => ⟨r.2, w.roots⟩
  | .uvmclear t va => (Paging.uvmclear w.machine t va).map fun m => ⟨m, w.roots⟩

/-- The call is about a page table of the memory, and addresses below `MAXVA`. -/
def Within (w : World) : Call → Prop
  | .uvmcreate => True
  | .walk t va _ => t ∈ w.roots ∧ va < MAXVA
  | .mappages t va size _ _ => t ∈ w.roots ∧ va.toNat + size.toNat ≤ MAXVA.toNat
  | .uvmunmap t va npages _ => t ∈ w.roots ∧ va.toNat + npages.toNat * 4096 ≤ MAXVA.toNat
  | .uvmalloc t oldsz newsz => t ∈ w.roots ∧ oldsz ≤ MAXVA ∧ newsz ≤ MAXVA
  | .uvmdealloc t oldsz newsz => t ∈ w.roots ∧ oldsz ≤ MAXVA ∧ newsz ≤ MAXVA
  | .uvmcopy old new sz => old ∈ w.roots ∧ new ∈ w.roots ∧ sz ≤ MAXVA
  | .uvmclear t va => t ∈ w.roots ∧ va < MAXVA

def frees (w : World) : Call → List Word
  | .uvmunmap t va npages doFree =>
    released doFree (pagesFrom (pteAt w.machine.mem t) (vpn va) npages.toNat)
  | .uvmdealloc t oldsz newsz =>
    pagesFrom (pteAt w.machine.mem t) (pagesBelow newsz) (pagesBelow oldsz - pagesBelow newsz)
  | _ => []

/-- The call frees pages in use, each of them once, and no page-table page.  Only the last is
about the page tables; without the others `kfree` would put a page on the free list twice, and the
allocator's part of the invariant would end there. -/
def Clean (w : World) (c : Call) : Prop := Releasable w.free w.tables (w.frees c)

end World

/-- The memories that calls with the property `allowed` lead to. -/
inductive ReachedBy (allowed : World → Call → Prop) : World → Prop where
  | initial (mem : Memory) (kmem : Supply) : ReachedBy allowed ⟨⟨mem, kmem⟩, []⟩
  | call {w w' : World} (c : Call) (reached : ReachedBy allowed w) (within : w.Within c)
      (ok : allowed w c) (ran : w.exec c = .ok w') : ReachedBy allowed w'

section Runs

variable {w w' : World} {c : Call} {m m' : Machine Supply} {t : Word}

/-- Page tables that are in order, with what `kalloc` has. -/
def World.Ok (w : World) : Prop := TablesOk w.machine w.free w.roots

variable {added : List Word}

theorem World.Ok.evolve {S' : Set Word} {freed : List Word} (ok : w.Ok)
    (evolves : Evolves w.machine m' w.free S' t added freed) (member : t ∈ w.roots)
    (away : ∀ x ∈ freed, x ∉ w.tables) : World.Ok ⟨m', w.roots⟩ := by
  have kept := TablesOk.evolve ok evolves member away
  have same : S' = {x | x ∉ m'.kmem.inUse} := kept.owns
  rw [same] at kept
  exact kept

theorem World.Ok.table (ok : w.Ok) (member : t ∈ w.roots) : TableOk w.machine w.free t :=
  TablesOk.table ok member

theorem Releasable.sub {S : Set Word} {tables tables' pages : List Word}
    (able : Releasable S tables pages) (sub : tables' ⊆ tables) : Releasable S tables' pages :=
  ⟨able.nodup, able.taken, fun x listed member => able.away x listed (sub member)⟩

theorem World.tables_subset (member : t ∈ w.roots) : Paging.tables w.machine.mem t ⊆ w.tables :=
  fun _ listed => List.mem_flatMap.mpr ⟨t, member, listed⟩

theorem World.Ok.create (ok : w.Ok) (ran : w.exec .uvmcreate = .ok w') : w'.Ok := by
  obtain ⟨S', kept⟩ := TablesOk.create ok
  have next : w' = ⟨(Paging.uvmcreate w.machine).2,
      (Paging.uvmcreate w.machine).1.toList ++ w.roots⟩ := (Except.ok.inj ran).symm
  have same : S' = {x | x ∉ (Paging.uvmcreate w.machine).2.kmem.inUse} := kept.owns
  rw [same] at kept
  rw [next]
  exact kept

theorem walkLoop_existing {va leaf pt : Word} {level : Nat}
    (found : format.find m.mem (indices (vpn va)) level pt = some leaf) :
    walkLoop va true level m pt = (some leaf, m) := by
  induction level generalizing pt with
  | zero =>
    cases found
    rfl
  | succ level ih =>
    cases valid : format.valid (m.mem pt (indices (vpn va) (level + 1))) with
    | false =>
      rw [Format.find_succ_of_invalid valid] at found
      cases found
    | true =>
      rw [Format.find_succ_of_valid valid] at found
      unfold walkLoop
      simp only [PX_eq, Machine.load]
      rw [if_pos (valid_iff.mp valid)]
      exact ih found

variable {perm : BitVec 32} {allowed : World → Call → Prop}

theorem mappages_remap {v : Nat} {pte pa : Word} {result : Bool} (inside : v < VPNS)
    (bound : pteAt m.mem t v = some pte)
    (mapped : mappages m t (pageAddr v) PGSIZE pa perm = .ok (result, m')) : False := by
  obtain ⟨leaf, found, entry⟩ := Option.bind_eq_some_iff.mp bound
  have page := vpn_pageAddr (Nat.le_of_lt inside)
  unfold mappages at mapped
  split at mapped
  · cases mapped
  · simp only [pgrounddown_pageAddr (pageAddr v), page] at mapped
    generalize (MAXVA.toNat - (pageAddr v).toNat) / PGSIZE.toNat = fuel at mapped
    cases fuel with
    | zero => cases mapped
    | succ fuel =>
      obtain ⟨⟨found', m₁⟩, walked, rest⟩ := bind_ok mapped
      unfold walk at walked
      split at walked
      · cases walked
      · rw [walkLoop_existing (by rw [page]; exact found), PX_eq, page] at walked
        cases walked
        have valid : m.load (leaf, indices v 0) &&& PTE_V ≠ 0 := by
          intro invalid
          change format.entry (m.load (leaf, indices v 0)) = some pte at entry
          rw [entry_invalid invalid] at entry
          cases entry
        simp only [Option.map_some] at rest
        rw [if_pos valid] at rest
        cases rest

theorem uvmcopy_self {S : Set Word} {sz : Word} {result : Bool} (owns : Owns m S)
    (ok : TableOk m S t) (ran : uvmcopy m t t sz = .ok (result, m')) : Unchanged m m' S t := by
  unfold uvmcopy at ran
  generalize (sz.toNat + PGSIZE.toNat - 1) / PGSIZE.toNat = rounds at ran
  cases rounds with
  | zero =>
    cases ran
    exact ⟨[], (Changes.refl owns t).grants⟩
  | succ rounds =>
    obtain ⟨⟨found, m₁⟩, walked, rest⟩ := bind_ok ran
    obtain ⟨rfl, -, known⟩ := walk_find walked
    cases found with
    | none => cases rest
    | some pte =>
      obtain ⟨leaf, found, point⟩ := Option.map_eq_some_iff.mp known.symm
      simp only at rest
      split at rest
      · cases rest
      · rename_i valid
        rw [← point] at valid rest
        have bound := load_found found
        rw [entry_valid valid] at bound
        split at rest
        · rename_i null
          obtain ⟨m₂, unmapped, rest⟩ := bind_ok rest
          cases rest
          cases unmapped
          exact ⟨[], kalloc_null_grants owns null t⟩
        · rename_i got
          obtain ⟨⟨result', m₂⟩, mapped, -⟩ := bind_ok rest
          have took := took_copy owns got (PTE2PA (m₁.load (leaf, indices (vpn 0) 0)))
          have same := (took.table ok).2.2
          have still : pteAt (m₁.kalloc.2.copy m₁.kalloc.1
              (PTE2PA (m₁.load (leaf, indices (vpn 0) 0)))).mem t 0 =
              some (m₁.load (leaf, indices (vpn 0) 0)) := by
            rw [same]
            exact bound
          exact (mappages_remap (v := 0) (by decide) still mapped).elim

theorem World.Ok.evolves (ok : w.Ok) (within : w.Within c) (clean : w.Clean c)
    (other : c ≠ .uvmcreate) (ran : w.exec c = .ok w') :
    w'.roots = w.roots ∧ ∃ t ∈ w.roots, ∃ S' added,
      Evolves w.machine w'.machine w.free S' t added (w.frees c) := by
  have owns : Owns w.machine w.free := TablesOk.owns ok
  cases c with
  | uvmcreate => exact absurd rfl other
  | walk t va alloc =>
    obtain ⟨⟨found, m⟩, walked, rfl⟩ := map_ok ran
    refine ⟨rfl, t, within.1, ?_⟩
    cases alloc with
    | false =>
      obtain ⟨rfl, -, -⟩ := walk_find walked
      exact ⟨_, _, (Changes.refl owns t).grants.evolves⟩
    | true =>
      obtain ⟨-, added, changes, -⟩ := walk_alloc owns (ok.table within.1) walked
      exact ⟨_, _, changes.grants.evolves⟩
  | mappages t va size pa perm =>
    obtain ⟨⟨result, m⟩, mapped, rfl⟩ := map_ok ran
    obtain ⟨added, count, changes, -, -⟩ := mappages_changes owns (ok.table within.1) within.2 mapped
    exact ⟨rfl, t, within.1, _, _, changes.grants.evolves⟩
  | uvmunmap t va npages doFree =>
    obtain ⟨m, unmapped, rfl⟩ := map_ok ran
    have able := Releasable.sub clean (World.tables_subset within.1)
    obtain ⟨unmaps, -⟩ := uvmunmap_unmaps owns (ok.table within.1) within.2 able unmapped
    exact ⟨rfl, t, within.1, _, _, unmaps.evolves⟩
  | uvmalloc t oldsz newsz =>
    obtain ⟨⟨size, m⟩, grown, rfl⟩ := map_ok ran
    refine ⟨rfl, t, within.1, ?_⟩
    rcases uvmalloc_cases owns (ok.table within.1) (BitVec.le_def.mp within.2.1) grown with
      ⟨-, -, rfl⟩ | ⟨-, -, added, data, -, filled, -⟩ | ⟨-, -, added, grants⟩
    · exact ⟨_, _, (Changes.refl owns t).grants.evolves⟩
    · exact ⟨_, _, filled.grants.evolves⟩
    · exact ⟨_, _, grants.evolves⟩
  | uvmdealloc t oldsz newsz =>
    obtain ⟨⟨size, m⟩, shrunk, rfl⟩ := map_ok ran
    have able := Releasable.sub clean (World.tables_subset within.1)
    obtain ⟨unmaps, -⟩ :=
      uvmdealloc_unmaps owns (ok.table within.1) (BitVec.le_def.mp within.2.1) able shrunk
    exact ⟨rfl, t, within.1, _, _, unmaps.evolves⟩
  | uvmcopy old new sz =>
    obtain ⟨⟨result, m⟩, copied, rfl⟩ := map_ok ran
    refine ⟨rfl, new, within.2.1, ?_⟩
    by_cases same : old = new
    · subst same
      obtain ⟨added, grants⟩ := uvmcopy_self owns (ok.table within.1) copied
      exact ⟨_, _, grants.evolves⟩
    · have apart : ∀ x ∈ Paging.tables w.machine.mem old, x ∉ Paging.tables w.machine.mem new :=
        fun x first second => same (TablesOk.same ok within.1 within.2.1 first second)
      rcases uvmcopy_cases owns (ok.table within.2.1) (ok.table within.1) apart copied with
        ⟨-, added, data, -, filled, -⟩ | ⟨-, added, grants⟩
      · exact ⟨_, _, filled.grants.evolves⟩
      · exact ⟨_, _, grants.evolves⟩
  | uvmclear t va =>
    obtain ⟨m, cleared, rfl⟩ := map_ok ran
    have changes := uvmclear_changes owns (ok.table within.1) cleared
    exact ⟨rfl, t, within.1, _, _, changes.grants.evolves⟩

theorem World.Ok.exec (ok : w.Ok) (within : w.Within c) (clean : w.Clean c)
    (ran : w.exec c = .ok w') : w'.Ok := by
  by_cases create : c = .uvmcreate
  · subst create
    exact ok.create ran
  · obtain ⟨roots, t, member, S', added, evolves⟩ := ok.evolves within clean create ran
    have kept := ok.evolve evolves member clean.away
    rw [← roots] at kept
    exact kept

theorem ReachedBy.ok (reached : ReachedBy World.Clean w) : w.Ok := by
  induction reached with
  | initial mem kmem =>
    refine ⟨rfl, List.nodup_nil, fun x listed => ?_⟩
    cases listed
  | call c reached within clean ran ih => exact ih.exec within clean ran

def decodePte (pte : Word) : Word × Word := (PTE2PA pte, PTE_FLAGS pte)

def lookup (m : Machine Supply) (t va : Word) : Option (Word × Word) :=
  match walk m t va false with
  | .ok (some pte, m) => if m.load pte &&& PTE_V ≠ 0 then some (decodePte (m.load pte)) else none
  | _ => none

theorem lookup_eq (m : Machine Supply) (t va : Word) :
    lookup m t va = if MAXVA ≤ va then none else (pteAt m.mem t (vpn va)).map decodePte := by
  unfold lookup walk
  by_cases outside : MAXVA ≤ va
  · rw [if_pos outside, if_pos outside]
  · rw [if_neg outside, if_neg outside, walkLoop_find]
    unfold pteAt Format.lookup
    cases found : format.find m.mem (indices (vpn va)) 2 t with
    | none => rfl
    | some leaf =>
      change (if m.mem leaf (PX 0 va) &&& PTE_V ≠ 0 then _ else none) =
        (format.entry (m.mem leaf (indices (vpn va) 0))).map decodePte
      rw [PX_eq]
      by_cases valid : m.mem leaf (indices (vpn va) 0) &&& PTE_V = 0
      · rw [entry_invalid valid, if_neg (not_not.mpr valid)]
        rfl
      · rw [entry_valid valid, if_pos valid]
        rfl

theorem lookup_congr (same : ∀ v, v < VPNS → pteAt m'.mem t v = pteAt m.mem t v) (va : Word) :
    lookup m' t va = lookup m t va := by
  rw [lookup_eq, lookup_eq]
  by_cases outside : MAXVA ≤ va
  · rw [if_pos outside, if_pos outside]
  · rw [if_neg outside, if_neg outside, same _ (vpn_lt outside)]

theorem lookup_below {va : Word} (below : va < MAXVA) :
    lookup m t va = (pteAt m.mem t (vpn va)).map decodePte := by
  rw [lookup_eq, if_neg (BitVec.not_le.mpr below)]

theorem decodePte_mapped {pa : Word} (flags : perm.toNat < 1024) (i : Nat) :
    decodePte (mappedPte pa perm i) = (PGROUNDDOWN pa + pageAddr i, perm.setWidth 64 ||| PTE_V) := by
  have positive : perm.msb = false := by
    rw [BitVec.msb_eq_false_iff_two_mul_lt]
    omega
  have small : (perm.setWidth 64 ||| PTE_V).toNat < 1024 := by
    refine or_small ?_ (by decide)
    rw [BitVec.toNat_setWidth]
    omega
  have packed : mappedPte pa perm i = PA2PTE (pa + pageAddr i) ||| (perm.setWidth 64 ||| PTE_V) := by
    rw [mappedPte, BitVec.signExtend_eq_setWidth_of_msb_false positive, BitVec.or_assoc]
  have page : PGROUNDDOWN (pa + pageAddr i) = PGROUNDDOWN pa + pageAddr i := by
    apply BitVec.eq_of_toNat_eq
    rw [pgrounddown_toNat, BitVec.toNat_add, BitVec.toNat_add, pgrounddown_toNat, pageAddr,
      BitVec.toNat_ofNat]
    omega
  rw [packed, decodePte, pte2pa_pte small, pte_flags_pte small, page]

/-- The pages of the addresses from `va` to `va + size`. -/
def Covers (va size va' : Word) : Prop :=
  vpn va ≤ vpn va' ∧ vpn va' ≤ (va.toNat + size.toNat - 1) / 4096

instance coversDecidable (va size va' : Word) : Decidable (Covers va size va') :=
  inferInstanceAs (Decidable (_ ∧ _))

structure MapSpec (w : World) : Prop where
  tree : w.tables.Nodup
  pages : ∀ t ∈ w.roots, ∀ va va', vpn va = vpn va' → va < MAXVA → va' < MAXVA →
    lookup w.machine t va = lookup w.machine t va'
  finite : ∀ t ∈ w.roots, ∀ va, MAXVA ≤ va → lookup w.machine t va = none
  walk : ∀ t ∈ w.roots, ∀ va alloc found m', Paging.walk w.machine t va alloc = .ok (found, m') →
    ∀ t' ∈ w.roots, ∀ va', lookup m' t' va' = lookup w.machine t' va'
  maps : ∀ t ∈ w.roots, ∀ va size pa perm m', va.toNat + size.toNat ≤ MAXVA.toNat →
    perm.toNat < 1024 → mappages w.machine t va size pa perm = .ok (true, m') →
    (∀ va' < MAXVA, lookup m' t va' =
      if Covers va size va' then
        some (PGROUNDDOWN pa + pageAddr (vpn va' - vpn va), perm.setWidth 64 ||| PTE_V)
      else lookup w.machine t va') ∧
    ∀ t' ∈ w.roots, t' ≠ t → ∀ va', lookup m' t' va' = lookup w.machine t' va'
  fails : ∀ t ∈ w.roots, ∀ va size pa perm m', va.toNat + size.toNat ≤ MAXVA.toNat →
    vpn va = (va.toNat + size.toNat - 1) / 4096 →
    mappages w.machine t va size pa perm = .ok (false, m') →
    ∀ t' ∈ w.roots, ∀ va', lookup m' t' va' = lookup w.machine t' va'
  unmaps : ∀ t ∈ w.roots, ∀ va npages doFree m', va.toNat + npages.toNat * 4096 ≤ MAXVA.toNat →
    w.Clean (.uvmunmap t va npages doFree) → uvmunmap w.machine t va npages doFree = .ok m' →
    (∀ va' < MAXVA, if vpn va ≤ vpn va' ∧ vpn va' < vpn va + npages.toNat
      then lookup m' t va' = none ∧ lookup w.machine t va' ≠ none
      else lookup m' t va' = lookup w.machine t va') ∧
    ∀ t' ∈ w.roots, t' ≠ t → ∀ va', lookup m' t' va' = lookup w.machine t' va'

theorem World.Ok.others {S' : Set Word} {freed : List Word} (ok : w.Ok)
    (evolves : Evolves w.machine m' w.free S' t added freed) (member : t ∈ w.roots)
    (away : ∀ x ∈ freed, x ∉ w.tables) :
    ∀ t' ∈ w.roots, t' ≠ t → ∀ va', lookup m' t' va' = lookup w.machine t' va' := by
  intro t' member' differ va'
  refine lookup_congr (fun v _ => ?_) va'
  rw [(evolves.other ok member away member' differ).2]

theorem World.Ok.unchanged {data : List Word} {entries : Nat → Option Word} (ok : w.Ok)
    (grants : Grants w.machine m' w.free t added data entries) (member : t ∈ w.roots)
    (same : entries = pteAt w.machine.mem t) :
    ∀ t' ∈ w.roots, ∀ va', lookup m' t' va' = lookup w.machine t' va' := by
  intro t' member' va'
  by_cases here : t' = t
  · rw [here]
    refine lookup_congr (fun v inside => ?_) va'
    rw [grants.entries v inside, same]
  · exact ok.others grants.evolves member (fun x gone => by cases gone) t' member' here va'

/-- Page tables refine finite maps, as long as no call frees a page-table page or a page that
is not in use. -/
theorem page_tables_refine_maps (reached : ReachedBy World.Clean w) : MapSpec w := by
  have ok := reached.ok
  have owns : Owns w.machine w.free := TablesOk.owns ok
  refine ⟨TablesOk.nodup ok, ?_, ?_, ?_, ?_, ?_, ?_⟩
  · intro t _ va va' same below below'
    rw [lookup_below below, lookup_below below', same]
  · intro t _ va outside
    rw [lookup_eq, if_pos outside]
  · intro t member va alloc found m' walked
    cases alloc with
    | false =>
      obtain ⟨rfl, -, -⟩ := walk_find walked
      exact fun _ _ _ => rfl
    | true =>
      obtain ⟨-, added, changes, -⟩ := walk_alloc owns (ok.table member) walked
      exact ok.unchanged changes.grants member rfl
  · intro t member va size pa perm m' inside flags mapped
    obtain ⟨added, count, changes, bound, -⟩ := mappages_changes owns (ok.table member) inside mapped
    refine ⟨fun va' below => ?_, ok.others changes.grants.evolves member fun x gone => by cases gone⟩
    have exact_count : count = covering va size := bound
    rw [lookup_below below, lookup_below below, changes.entries _ (vpn_lt (BitVec.not_le.mpr below)),
      exact_count, bindPages]
    have same : (vpn va ≤ vpn va' ∧ vpn va' < vpn va + covering va size) ↔ Covers va size va' := by
      unfold Covers covering
      omega
    by_cases covered : Covers va size va'
    · rw [if_pos (same.mpr covered), if_pos covered, Option.map_some, decodePte_mapped flags]
    · rw [if_neg (fun range => covered (same.mp range)), if_neg covered]
  · intro t member va size pa perm m' inside one failed
    obtain ⟨added, count, changes, bound, -⟩ := mappages_changes owns (ok.table member) inside failed
    have none : count = 0 := by
      change count < covering va size at bound
      unfold covering at bound
      omega
    rw [none, bindPages_zero] at changes
    exact ok.unchanged changes.grants member rfl
  · intro t member va npages doFree m' inside clean unmapped
    have able := Releasable.sub clean (World.tables_subset member)
    obtain ⟨unmaps, bound⟩ := uvmunmap_unmaps owns (ok.table member) inside able unmapped
    refine ⟨fun va' below => ?_, ok.others unmaps.evolves member clean.away⟩
    rw [lookup_below below, lookup_below below, unmaps.entries _ (vpn_lt (BitVec.not_le.mpr below)),
      unbindPages]
    by_cases range : vpn va ≤ vpn va' ∧ vpn va' < vpn va + npages.toNat
    · rw [if_pos range, if_pos range]
      refine ⟨rfl, fun unbound => ?_⟩
      have known := bound _ range.1 range.2
      rw [Option.map_eq_none_iff.mp unbound] at known
      cases known
    · rw [if_neg range, if_neg range]

end Runs

theorem ReachedBy.calls {w w' : World} {calls : List Call}
    (reached : ReachedBy allowed w)
    (may : ∀ c ∈ calls, ∀ w' : World, w'.roots = w.roots → w'.Within c ∧ allowed w' c)
    (fixed : ∀ c ∈ calls, c ≠ .uvmcreate) (ran : calls.foldlM World.exec w = .ok w') :
    ReachedBy allowed w' ∧ w'.roots = w.roots := by
  induction calls generalizing w with
  | nil =>
    cases ran
    exact ⟨reached, rfl⟩
  | cons c rest ih =>
    obtain ⟨w₁, first, later⟩ := bind_ok ran
    obtain ⟨within, ok⟩ := may c List.mem_cons_self w rfl
    have roots : w₁.roots = w.roots := by
      cases c with
      | uvmcreate => exact absurd rfl (fixed _ List.mem_cons_self)
      | _ =>
        obtain ⟨_, _, rfl⟩ := map_ok first
        rfl
    obtain ⟨final, same⟩ := ih (.call c reached within ok first)
      (fun c' listed w' known => may c' (List.mem_cons_of_mem _ listed) w' (known.trans roots))
      (fun c' listed => fixed c' (List.mem_cons_of_mem _ listed)) later
    exact ⟨final, same.trans roots⟩

def oneTable (answers : List Word) : World :=
  ⟨(uvmcreate (⟨fun _ _ => 0, ⟨answers, []⟩⟩ : Machine Supply)).2,
    (uvmcreate (⟨fun _ _ => 0, ⟨answers, []⟩⟩ : Machine Supply)).1.toList⟩

theorem reachedBy_oneTable (answers : List Word)
    (ok : ∀ w, allowed w .uvmcreate) : ReachedBy allowed (oneTable answers) :=
  .call .uvmcreate (.initial (fun _ _ => 0) ⟨answers, []⟩) trivial (ok _) (by
    simp [World.exec, oneTable])

theorem clean_of_frees {w : World} {c : Call} (none : w.frees c = []) : w.Clean c := by
  unfold World.Clean
  rw [none]
  refine ⟨List.nodup_nil, ?_, ?_⟩
  · intro x listed
    cases listed
  · intro x listed
    cases listed

/-- Two pages are mapped, at addresses that are not aligned. -/
theorem page_tables_refine_maps_two : ∃ w, ReachedBy World.Clean w ∧ MapSpec w ∧
    lookup w.machine 0x1000 0x5fff = some (0x9000, 0x7) ∧
    lookup w.machine 0x1000 0x6000 = some (0xA000, 0x7) ∧ lookup w.machine 0x1000 0x7000 = none := by
  let calls : List Call := [.mappages 0x1000 0x5800 0x1000 0x9000 0x6]
  let start := oneTable [0x1000, 0x2000, 0x3000]
  have roots : start.roots = [0x1000] := by decide +kernel
  have known : ((calls.foldlM World.exec start).toOption.map fun w =>
      (lookup w.machine 0x1000 0x5fff, lookup w.machine 0x1000 0x6000,
        lookup w.machine 0x1000 0x7000)) =
      some (some (0x9000, 0x7), some (0xA000, 0x7), none) := by
    decide +kernel
  cases ran : calls.foldlM World.exec start with
  | error fault =>
    rw [ran] at known
    cases known
  | ok w =>
    obtain ⟨reached, -⟩ := ReachedBy.calls
      (reachedBy_oneTable [0x1000, 0x2000, 0x3000] fun w => clean_of_frees rfl) (by
        intro c listed w' same
        rw [List.mem_singleton.mp listed]
        refine ⟨⟨?_, by decide⟩, clean_of_frees rfl⟩
        rw [same, roots]
        exact List.mem_cons_self) (by
        intro c listed
        rw [List.mem_singleton.mp listed]
        simp) ran
    rw [ran] at known
    have values := Option.some.inj known
    exact ⟨w, reached, page_tables_refine_maps reached, congrArg Prod.fst values,
      congrArg (fun v => v.2.1) values, congrArg (fun v => v.2.2) values⟩

/-- Two calls that do not act on the map as one would expect: `mappages` with a `perm` that has
more than flag bits binds another physical page, and `uvmunmap` that frees a page-table page
removes other bindings. -/
theorem page_tables_unclean_calls :
    (∃ w m', ReachedBy (fun _ _ => True) w ∧ 0x1000 ∈ w.roots ∧
      mappages w.machine 0x1000 0 PGSIZE 0x8000 0x402 = .ok (true, m') ∧
      lookup m' 0x1000 0 = some (0x9000, 0x3)) ∧
    ∃ w m', ReachedBy (fun _ _ => True) w ∧ 0x1000 ∈ w.roots ∧
      lookup w.machine 0x1000 0x1000 = some (0x9000, 0x3) ∧
      uvmunmap w.machine 0x1000 0 1 true = .ok m' ∧ lookup m' 0x1000 0x1000 ≠ some (0x9000, 0x3) := by
  let start := oneTable [0x1000, 0x2000, 0x3000]
  have roots : start.roots = [0x1000] := by decide +kernel
  have reached : ReachedBy (fun _ _ => True) start := reachedBy_oneTable _ fun _ => trivial
  constructor
  · have known : ((mappages start.machine 0x1000 0 PGSIZE 0x8000 0x402).toOption.map fun r =>
        (r.1, lookup r.2 0x1000 0)) = some (true, some (0x9000, 0x3)) := by
      decide +kernel
    cases ran : mappages start.machine 0x1000 0 PGSIZE 0x8000 0x402 with
    | error fault =>
      rw [ran] at known
      cases known
    | ok r =>
      rw [ran] at known
      have values := Option.some.inj known
      have result : r.1 = true := congrArg Prod.fst values
      refine ⟨start, r.2, reached, by rw [roots]; exact List.mem_cons_self, ?_,
        congrArg Prod.snd values⟩
      rw [ran, ← result]
  · let calls : List Call :=
      [.mappages 0x1000 0 PGSIZE 0x1000 0x2, .mappages 0x1000 0x1000 PGSIZE 0x9000 0x2]
    have known : ((calls.foldlM World.exec start).toOption.map fun w =>
        (lookup w.machine 0x1000 0x1000, (uvmunmap w.machine 0x1000 0 1 true).toOption.map fun m =>
          decide (lookup m 0x1000 0x1000 = some (0x9000, 0x3)))) =
        some (some (0x9000, 0x3), some false) := by
      decide +kernel
    cases ran : calls.foldlM World.exec start with
    | error fault =>
      rw [ran] at known
      cases known
    | ok w =>
      obtain ⟨reached', same⟩ := reached.calls (by
        intro c listed w' same
        refine ⟨?_, trivial⟩
        have member : 0x1000 ∈ w'.roots := by
          rw [same, roots]
          exact List.mem_cons_self
        rcases List.mem_cons.mp listed with rfl | later
        · exact ⟨member, by decide⟩
        · rw [List.mem_singleton.mp later]
          exact ⟨member, by decide⟩) (by
        intro c listed
        rcases List.mem_cons.mp listed with rfl | later
        · simp
        · rw [List.mem_singleton.mp later]
          simp) ran
      rw [ran] at known
      have values := Option.some.inj known
      have before : lookup w.machine 0x1000 0x1000 = some (0x9000, 0x3) := congrArg Prod.fst values
      have after := congrArg Prod.snd values
      cases freed : uvmunmap w.machine 0x1000 0 1 true with
      | error fault =>
        simp only [freed] at after
        cases after
      | ok m' =>
        simp only [freed] at after
        have differs := Option.some.inj after
        exact ⟨w, m', reached', by rw [same, roots]; exact List.mem_cons_self, before, freed,
          of_decide_eq_false differs⟩

end OsbKernel.Paging
