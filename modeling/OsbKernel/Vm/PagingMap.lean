import OsbKernel.Vm.PagingWalk

/-!
# Mapping and unmapping pages

`mappages`, `uvmunmap` and `uvmclear` as operations on the map from page numbers to entries. Each
statement also says which page-table pages were added, what the allocator has afterwards, and
which memory was not written.
-/

namespace OsbKernel.Paging

open Function FreeRadix ExceptBind LawfulAllocator

variable {K : Type} [Allocator K] [LawfulAllocator K] {m m' m'' : Machine K} {S : Set Word}
  {pt va : Word} {added added' : List Word} {entries entries' : Nat → Option Word} {v : Nat}

/-- A page table whose pages are not shared, and do not belong to the allocator. -/
structure TableOk (m : Machine K) (S : Set Word) (pt : Word) : Prop where
  nodup : (tables m.mem pt).Nodup
  apart : ∀ x ∈ tables m.mem pt, x ∉ S

/-- The table gets the pages `added` from the allocator, and has then these entries. -/
structure Changes (m m' : Machine K) (S : Set Word) (pt : Word) (added : List Word)
    (entries : Nat → Option Word) : Prop where
  tables : (tables m'.mem pt).Perm (added ++ tables m.mem pt)
  owns : Owns m' (S \ {x | x ∈ added})
  nodup : added.Nodup
  fresh : ∀ x ∈ added, x ∈ S
  frame : ∀ x, x ∉ Paging.tables m.mem pt → x ∉ added → m'.mem x = m.mem x
  entries : ∀ v, v < VPNS → pteAt m'.mem pt v = entries v
  tidy : Tidy m.mem pt → Tidy m'.mem pt

theorem Changes.refl (owns : Owns m S) (pt : Word) :
    Changes m m S pt [] (pteAt m.mem pt) := by
  refine ⟨List.Perm.refl _, ?_, List.nodup_nil, ?_, fun _ _ _ => rfl, fun _ _ => rfl, id⟩
  · simpa using owns
  · intro x listed
    cases listed

theorem Changes.trans (first : Changes m m' S pt added entries)
    (second : Changes m' m'' (S \ {x | x ∈ added}) pt added' entries') :
    Changes m m'' S pt (added' ++ added) entries' := by
  obtain ⟨nodup, fresh⟩ := fresh_append first.nodup first.fresh second.nodup second.fresh
  refine ⟨?_, ?_, nodup, fresh, ?_, second.entries, fun tidy => second.tidy (first.tidy tidy)⟩
  · rw [List.append_assoc]
    exact second.tables.trans (first.tables.append_left added')
  · rw [diff_append]
    exact second.owns
  · intro x outside new
    rw [List.mem_append, not_or] at new
    have still : x ∉ Paging.tables m'.mem pt := by
      rw [first.tables.mem_iff, List.mem_append, not_or]
      exact ⟨new.2, outside⟩
    rw [second.frame x still new.1, first.frame x outside new.2]

theorem Changes.congr (changes : Changes m m' S pt added entries)
    (same : ∀ v, v < VPNS → entries v = entries' v) : Changes m m' S pt added entries' :=
  ⟨changes.tables, changes.owns, changes.nodup, changes.fresh, changes.frame,
    fun v inside => (changes.entries v inside).trans (same v inside), changes.tidy⟩

theorem Changes.still (changes : Changes m m' S pt [] entries) (ok : TableOk m S pt) :
    Owns m' S ∧ TableOk m' S pt ∧
      (Paging.tables m'.mem pt).Perm (Paging.tables m.mem pt) := by
  have same : S \ {x | x ∈ ([] : List Word)} = S := by simp
  have owns := changes.owns
  rw [same] at owns
  refine ⟨owns, ⟨?_, ?_⟩, changes.tables⟩
  · rw [changes.tables.nodup_iff]
    exact ok.nodup
  · intro x listed
    exact ok.apart x (changes.tables.mem_iff.mp listed)

theorem Changes.tableOk (changes : Changes m m' S pt added entries)
    (ok : TableOk m S pt) : TableOk m' (S \ {x | x ∈ added}) pt := by
  constructor
  · rw [changes.tables.nodup_iff]
    refine List.nodup_append.mpr ⟨changes.nodup, ok.nodup, ?_⟩
    rintro x new _ old rfl
    exact ok.apart x old (changes.fresh x new)
  · intro x listed
    rcases List.mem_append.mp (changes.tables.mem_iff.mp listed) with new | old
    · exact fun inside => inside.2 new
    · exact fun inside => ok.apart x old inside.1

theorem walk_alloc {found : Option PtePtr} (owns : Owns m S) (ok : TableOk m S pt)
    (walked : walk m pt va true = .ok (found, m')) :
    vpn va < VPNS ∧ ∃ added, Changes m m' S pt added (pteAt m.mem pt) ∧
      ∀ pte, found = some pte →
        format.find m'.mem (indices (vpn va)) 2 pt = some pte.1 ∧ pte.2 = indices (vpn va) 0 := by
  unfold walk at walked
  split at walked
  · cases walked
  · rename_i below
    have arrives : Arrives va m S 2 pt (walkLoop va true 2 m pt) :=
      walkLoop_alloc owns ok.nodup ok.apart
    obtain ⟨added, grown, arrived⟩ := arrives
    rw [PX_eq] at walked
    cases walked
    refine ⟨vpn_lt below, added, ?_, ?_⟩
    · exact ⟨grown.grows.nodes, grown.owns, grown.nodup, grown.fresh, grown.grows.frame,
        fun v _ => grown.grows.lookup _ (indices_lt v), grown.tidy⟩
    · intro pte found
      obtain ⟨leaf, known, rfl⟩ := Option.map_eq_some_iff.mp found
      exact ⟨arrived leaf known, rfl⟩

theorem Changes.store {leaf w : Word} (owns : Owns m S) (ok : TableOk m S pt)
    (inside : v < VPNS) (found : format.find m.mem (indices v) 2 pt = some leaf) :
    Changes m (m.store (leaf, indices v 0) w) S pt []
      (update (pteAt m.mem pt) v (format.entry w)) := by
  have member : leaf ∈ Paging.tables m.mem pt := Format.find_mem_nodes (indices_lt v) found
  have others : ∀ x, x ≠ leaf → (m.store (leaf, indices v 0) w).mem x = m.mem x :=
    fun x other => store_mem_of_ne other
  have cell : (m.store (leaf, indices v 0) w).mem leaf (indices v 0) = w := by
    rw [store_mem_self]
    exact update_self _ _ _
  have elsewhere : ∀ u, u < 2 ^ 27 → u ≠ v →
      pteAt (m.store (leaf, indices v 0) w).mem pt u = pteAt m.mem pt u := by
    intro u below other
    obtain ⟨k, low, differ⟩ := indices_differ (by unfold VPNS at inside; omega) below other
    refine Format.lookup_write_of_ne ok.nodup (indices_lt v) found others ?_ (indices_lt u) low differ
    intro k other
    rw [store_mem_self]
    exact update_of_ne other _ _
  refine ⟨?_, ?_, List.nodup_nil, ?_, ?_, ?_, fun tidy => ?_⟩
  · have shape := Format.nodes_write ok.nodup (indices_lt v) found others
    change (format.nodes _ 2 pt).Perm _
    rw [shape]
    exact List.Perm.refl _
  · have same : S \ {x | x ∈ ([] : List Word)} = S := by simp
    rw [same]
    refine write owns rfl fun x inS => others x ?_
    rintro rfl
    exact ok.apart x member inS
  · intro x listed
    cases listed
  · intro x outside _
    refine others x ?_
    rintro rfl
    exact outside member
  · intro u below
    by_cases here : u = v
    · rw [here, update_self, pteAt, Format.lookup_write ok.nodup (indices_lt v) found others, cell]
    · rw [update_of_ne here]
      exact elsewhere u (by unfold VPNS at below; omega) here
  · refine ⟨Format.linked_write ok.nodup (indices_lt v) found others tidy.linked, ?_⟩
    intro u low high
    exact (elsewhere u high (by omega)).trans (tidy.upper u low high)

omit [Allocator K] [LawfulAllocator K] in
theorem load_found {leaf : Word} (found : format.find m.mem (indices v) 2 pt = some leaf) :
    pteAt m.mem pt v = format.entry (m.load (leaf, indices v 0)) := by
  unfold pteAt Format.lookup
  rw [found]
  rfl

theorem entry_valid {w : Word} (valid : w &&& PTE_V ≠ 0) : format.entry w = some w :=
  if_pos (valid_iff.mpr valid)

theorem entry_invalid {w : Word} (invalid : w &&& PTE_V = 0) : format.entry w = none := by
  unfold Format.entry
  rw [invalid_iff.mpr invalid]
  rfl

/-- The entry that `mappages` writes for the page `i` pages behind the first. -/
def mappedPte (pa : Word) (perm : BitVec 32) (i : Nat) : Word :=
  PA2PTE (pa + pageAddr i) ||| perm.signExtend 64 ||| PTE_V

theorem entry_mappedPte (pa : Word) (perm : BitVec 32) (i : Nat) :
    format.entry (mappedPte pa perm i) = some (mappedPte pa perm i) :=
  entry_valid (valid_or _)

theorem mappedPte_zero (pa : Word) (perm : BitVec 32) :
    mappedPte pa perm 0 = PA2PTE pa ||| perm.signExtend 64 ||| PTE_V := by
  have zero : pa + pageAddr 0 = pa := BitVec.add_zero pa
  rw [mappedPte, zero]

theorem mappedPte_succ (pa : Word) (perm : BitVec 32) (i : Nat) :
    mappedPte (pa + PGSIZE) perm i = mappedPte pa perm (i + 1) := by
  rw [mappedPte, mappedPte, ← pageAddr_succ, BitVec.add_assoc, BitVec.add_comm PGSIZE]

/-- The entries after `count` pages from `v` on are mapped. -/
def bindPages (entries : Nat → Option Word) (v count : Nat) (pte : Nat → Word) (u : Nat) :
    Option Word :=
  if v ≤ u ∧ u < v + count then some (pte (u - v)) else entries u

theorem bindPages_cons (entries : Nat → Option Word) (v count : Nat) (pte : Nat → Word) :
    bindPages (update entries v (some (pte 0))) (v + 1) count (fun i => pte (i + 1)) =
      bindPages entries v (count + 1) pte := by
  funext u
  unfold bindPages
  by_cases later : v + 1 ≤ u ∧ u < v + 1 + count
  · rw [if_pos later, if_pos (by omega)]
    have index : u - (v + 1) + 1 = u - v := by omega
    change some (pte (u - (v + 1) + 1)) = _
    rw [index]
  · rw [if_neg later]
    by_cases here : u = v
    · rw [here, update_self, if_pos (by omega), Nat.sub_self]
    · rw [update_of_ne here, if_neg (by omega)]

theorem bindPages_zero (entries : Nat → Option Word) (v : Nat) (pte : Nat → Word) :
    bindPages entries v 0 pte = entries := by
  funext u
  exact if_neg (by omega)

theorem map_page {pte : PtePtr} {w : Word} (owns : Owns m S) (ok : TableOk m S pt)
    (inside : v < VPNS) (walked : walk m pt (pageAddr v) true = .ok (some pte, m'))
    (unmapped : ¬ m'.load pte &&& PTE_V ≠ 0) :
    ∃ added, Changes m (m'.store pte w) S pt added
      (update (pteAt m.mem pt) v (format.entry w)) ∧ pteAt m.mem pt v = none := by
  obtain ⟨-, added, changes, found⟩ := walk_alloc owns ok walked
  obtain ⟨leaf, index⟩ := found pte rfl
  rw [vpn_pageAddr (Nat.le_of_lt inside)] at leaf index
  have point : pte = (pte.1, indices v 0) := Prod.ext rfl index
  rw [point] at unmapped ⊢
  have free := load_found leaf
  rw [entry_invalid (not_not.mp unmapped), changes.entries v inside] at free
  refine ⟨[] ++ added, ?_, free⟩
  refine (changes.trans (Changes.store changes.owns (changes.tableOk ok) inside leaf)).congr ?_
  intro u below
  by_cases here : u = v
  · rw [here, update_self, update_self]
  · rw [update_of_ne here, update_of_ne here, changes.entries u below]

theorem mappagesLoop_changes {last : Nat} {perm : BitVec 32} {fuel : Nat} {a pa : Word}
    {result : Bool} (owns : Owns m S) (ok : TableOk m S pt) (here : a = pageAddr v)
    (inside : v < VPNS) (below : last < VPNS) (ordered : v ≤ last)
    (mapped : mappagesLoop pt (pageAddr last) perm fuel m a pa = .ok (result, m')) :
    ∃ added count, Changes m m' S pt added
        (bindPages (pteAt m.mem pt) v count (mappedPte pa perm)) ∧
      (if result then v + count = last + 1 else v + count ≤ last) ∧
      ∀ u, v ≤ u → u < v + count → pteAt m.mem pt u = none := by
  induction fuel generalizing m S a pa v with
  | zero => cases mapped
  | succ fuel ih =>
    rw [here] at mapped
    obtain ⟨⟨found, m₁⟩, walked, rest⟩ := bind_ok mapped
    cases found with
    | none =>
      cases rest
      obtain ⟨-, added, changes, -⟩ := walk_alloc owns ok walked
      refine ⟨added, 0, ?_, ordered, fun u low high => by omega⟩
      rw [bindPages_zero]
      exact changes
    | some pte =>
      simp only at rest
      split at rest
      · cases rest
      · rename_i unmapped
        obtain ⟨added, changes, free⟩ :=
          map_page (w := mappedPte pa perm 0) owns ok inside walked unmapped
        rw [← mappedPte_zero] at rest
        rw [entry_mappedPte] at changes
        split at rest
        · rename_i final
          cases rest
          have same : v = last := by
            have equal := congrArg vpn final
            rwa [vpn_pageAddr (Nat.le_of_lt inside), vpn_pageAddr (Nat.le_of_lt below)] at equal
          refine ⟨added, 1, ?_, by simp [same], ?_⟩
          · have one := bindPages_cons (pteAt m.mem pt) v 0 (mappedPte pa perm)
            rw [bindPages_zero] at one
            rw [← one]
            exact changes
          · intro u low high
            have only : u = v := by omega
            rw [only]
            exact free
        · rename_i more
          have next : v + 1 ≤ last := by
            refine Nat.lt_of_le_of_ne ordered fun same => more ?_
            rw [same]
          obtain ⟨added', count, later, bound, unbound⟩ := ih changes.owns (changes.tableOk ok)
            (pageAddr_succ v) (by omega) next rest
          refine ⟨added' ++ added, count + 1, ?_, ?_, ?_⟩
          · refine (changes.trans later).congr fun u small => ?_
            rw [← bindPages_cons]
            unfold bindPages
            rw [changes.entries u small]
            simp only [mappedPte_succ]
          · cases result with
            | false =>
              change v + 1 + count ≤ last at bound
              change v + (count + 1) ≤ last
              omega
            | true =>
              change v + 1 + count = last + 1 at bound
              change v + (count + 1) = last + 1
              omega
          · intro u low high
            by_cases first : u = v
            · rw [first]
              exact free
            · have known := unbound u (by omega) (by omega)
              have small : u < VPNS := by
                cases result with
                | false =>
                  change v + 1 + count ≤ last at bound
                  omega
                | true =>
                  change v + 1 + count = last + 1 at bound
                  omega
              rwa [changes.entries u small, update_of_ne first] at known

/-- The number of pages that cover the addresses from `va` to `va + size`. -/
def covering (va size : Word) : Nat := (va.toNat + size.toNat - 1) / 4096 + 1 - vpn va

theorem mappages_changes {size pa : Word} {perm : BitVec 32} {result : Bool} (owns : Owns m S)
    (ok : TableOk m S pt) (inside : va.toNat + size.toNat ≤ 2 ^ 38)
    (mapped : mappages m pt va size pa perm = .ok (result, m')) :
    ∃ added count, Changes m m' S pt added
        (bindPages (pteAt m.mem pt) (vpn va) count (mappedPte pa perm)) ∧
      (if result then count = covering va size else count < covering va size) ∧
      ∀ u, vpn va ≤ u → u < vpn va + count → pteAt m.mem pt u = none := by
  unfold mappages at mapped
  split at mapped
  · cases mapped
  · rename_i nonempty
    have positive : 0 < size.toNat := by
      rcases Nat.eq_zero_or_pos size.toNat with zero | positive
      · exact absurd (BitVec.eq_of_toNat_eq zero) nonempty
      · exact positive
    have final : (va + size - 1).toNat = va.toNat + size.toNat - 1 := by
      rw [BitVec.toNat_sub, BitVec.toNat_add]
      have one : (1 : Word).toNat = 1 := rfl
      omega
    have last : vpn (va + size - 1) = (va.toNat + size.toNat - 1) / 4096 := by
      rw [vpn, final]
    have ends : vpn (va + size - 1) < VPNS := by
      unfold VPNS
      omega
    have ordered : vpn va ≤ vpn (va + size - 1) := by
      exact Nat.div_le_div_right (by omega)
    simp only [pgrounddown_pageAddr] at mapped
    obtain ⟨added, count, changes, bound, unbound⟩ :=
      mappagesLoop_changes owns ok rfl (by omega) ends ordered mapped
    refine ⟨added, count, changes, ?_, unbound⟩
    unfold covering
    cases result with
    | false =>
      change vpn va + count ≤ _ at bound
      change count < _
      omega
    | true =>
      change vpn va + count = _ at bound
      change count = _
      omega

/-- The physical pages of `count` entries from `v` on. -/
def pagesFrom (entries : Nat → Option Word) (v count : Nat) : List Word :=
  (List.range' v count).filterMap fun u => (entries u).map PTE2PA

/-- Pages that can go back to the allocator: each of them once, none that it has, and no
page-table page. -/
structure Releasable (S : Set Word) (tables pages : List Word) : Prop where
  nodup : pages.Nodup
  taken : ∀ x ∈ pages, x ∉ S
  away : ∀ x ∈ pages, x ∉ tables

theorem union_singleton (S : Set Word) (p : Word) : S ∪ {x | x ∈ [p]} = insert p S := by
  ext x
  simp [or_comm]

/-- The table keeps its pages, the allocator gets the pages `freed`. -/
structure Unmaps (m m' : Machine K) (S : Set Word) (pt : Word) (freed : List Word)
    (entries : Nat → Option Word) : Prop where
  tables : (Paging.tables m'.mem pt).Perm (Paging.tables m.mem pt)
  owns : Owns m' (S ∪ {x | x ∈ freed})
  frame : ∀ x, x ∉ Paging.tables m.mem pt → x ∉ freed → m'.mem x = m.mem x
  entries : ∀ v, v < VPNS → pteAt m'.mem pt v = entries v
  tidy : Tidy m.mem pt → Tidy m'.mem pt

omit [Allocator K] [LawfulAllocator K] in
theorem TableOk.outside (ok : TableOk m S pt) (S' : Set Word)
    (same : ∀ x ∈ tables m.mem pt, m'.mem x = m.mem x)
    (apart : ∀ x ∈ tables m.mem pt, x ∉ S') :
    TableOk m' S' pt ∧ tables m'.mem pt = tables m.mem pt ∧
      pteAt m'.mem pt = pteAt m.mem pt := by
  have shape : tables m'.mem pt = tables m.mem pt := Format.nodes_congr same
  refine ⟨⟨?_, ?_⟩, shape, ?_⟩
  · rw [shape]
    exact ok.nodup
  · rw [shape]
    exact apart
  · funext v
    exact Format.lookup_congr (indices_lt v) same

theorem pagesFrom_succ (entries : Nat → Option Word) (v count : Nat) {pte : Word}
    (bound : entries v = some pte) :
    pagesFrom entries v (count + 1) = PTE2PA pte :: pagesFrom entries (v + 1) count := by
  unfold pagesFrom
  rw [List.range'_succ, List.filterMap_cons, bound]
  rfl

theorem pagesFrom_congr {v count : Nat} (same : ∀ u, v ≤ u → u < v + count → entries u = entries' u) :
    pagesFrom entries v count = pagesFrom entries' v count := by
  refine List.filterMap_congr fun u listed => ?_
  rw [List.mem_range'_1] at listed
  rw [same u listed.1 listed.2]

/-- The entries without `count` pages from `v` on. -/
def unbindPages (entries : Nat → Option Word) (v count u : Nat) : Option Word :=
  if v ≤ u ∧ u < v + count then none else entries u

theorem unbindPages_zero (entries : Nat → Option Word) (v : Nat) : unbindPages entries v 0 = entries := by
  funext u
  exact if_neg (by omega)

theorem unbindPages_cons (entries : Nat → Option Word) (v count : Nat) :
    unbindPages (update entries v none) (v + 1) count = unbindPages entries v (count + 1) := by
  funext u
  unfold unbindPages
  by_cases later : v + 1 ≤ u ∧ u < v + 1 + count
  · rw [if_pos later, if_pos (by omega)]
  · rw [if_neg later]
    by_cases here : u = v
    · rw [here, update_self, if_pos (by omega)]
    · rw [update_of_ne here, if_neg (by omega)]

theorem Unmaps.trans {freed freed' : List Word} (first : Unmaps m m' S pt freed entries)
    (second : Unmaps m' m'' (S ∪ {x | x ∈ freed}) pt freed' entries') :
    Unmaps m m'' S pt (freed ++ freed') entries' := by
  refine ⟨second.tables.trans first.tables, ?_, ?_, second.entries,
    fun tidy => second.tidy (first.tidy tidy)⟩
  · have same : S ∪ {x | x ∈ freed ++ freed'} = S ∪ {x | x ∈ freed} ∪ {x | x ∈ freed'} := by
      ext x
      simp [or_assoc]
    rw [same]
    exact second.owns
  · intro x outside kept
    rw [List.mem_append, not_or] at kept
    have still : x ∉ Paging.tables m'.mem pt := by rwa [first.tables.mem_iff]
    rw [second.frame x still kept.2, first.frame x outside kept.1]

theorem Unmaps.tableOk {freed : List Word} (unmaps : Unmaps m m' S pt freed entries)
    (ok : TableOk m S pt) (away : ∀ x ∈ freed, x ∉ Paging.tables m.mem pt) :
    TableOk m' (S ∪ {x | x ∈ freed}) pt := by
  constructor
  · rw [unmaps.tables.nodup_iff]
    exact ok.nodup
  · intro x listed member
    have old := unmaps.tables.mem_iff.mp listed
    rcases member with inS | gone
    · exact ok.apart x old inS
    · exact away x gone old

/-- The pages that `uvmunmap` frees. -/
def released (doFree : Bool) (pages : List Word) : List Word := if doFree then pages else []

theorem released_cons (doFree : Bool) (p : Word) (pages : List Word) :
    released doFree [p] ++ released doFree pages = released doFree (p :: pages) := by
  cases doFree <;> rfl

theorem Releasable.left {pages pages' tables : List Word} (able : Releasable S tables (pages ++ pages')) :
    Releasable S tables pages :=
  ⟨(List.nodup_append.mp able.nodup).1, fun x listed => able.taken x (List.mem_append_left _ listed),
    fun x listed => able.away x (List.mem_append_left _ listed)⟩

theorem Releasable.right {pages pages' tables : List Word}
    (able : Releasable S tables (pages ++ pages')) : Releasable (S ∪ {x | x ∈ pages}) tables pages' := by
  obtain ⟨-, nodup, apart⟩ := List.nodup_append.mp able.nodup
  refine ⟨nodup, ?_, fun x listed => able.away x (List.mem_append_right _ listed)⟩
  intro x listed member
  rcases member with inS | gone
  · exact able.taken x (List.mem_append_right _ listed) inS
  · exact apart x gone x listed rfl

theorem Releasable.perm {pages tables tables' : List Word} (able : Releasable S tables pages)
    (same : tables'.Perm tables) : Releasable S tables' pages :=
  ⟨able.nodup, able.taken, fun x listed member => able.away x listed (same.mem_iff.mp member)⟩

theorem release_page {doFree : Bool} {p : Word} (owns : Owns m S)
    (able : Releasable S (tables m.mem pt) (released doFree [p])) (freed : m.kfreeIf doFree p = .ok m') :
    Unmaps m m' S pt (released doFree [p]) (pteAt m.mem pt) ∧
      ∀ x ∈ tables m.mem pt, m'.mem x = m.mem x := by
  cases doFree with
  | false =>
    cases freed
    refine ⟨⟨List.Perm.refl _, ?_, fun _ _ _ => rfl, fun _ _ => rfl, id⟩, fun _ _ => rfl⟩
    simpa [released] using owns
  | true =>
    obtain ⟨owns', others⟩ := kfree_ok owns (able.taken p List.mem_cons_self) freed
    have kept : ∀ x ∈ tables m.mem pt, m'.mem x = m.mem x := by
      intro x listed
      refine others x ?_
      rintro rfl
      exact able.away x List.mem_cons_self listed
    refine ⟨⟨?_, ?_, ?_, ?_, fun tidy => tidy.congr kept⟩, kept⟩
    · rw [tables, Format.nodes_congr kept]
      exact List.Perm.refl _
    · have same : S ∪ {x | x ∈ released true [p]} = insert p S := union_singleton S p
      rw [same]
      exact owns'
    · intro x _ other
      refine others x fun equal => other ?_
      rw [equal]
      exact List.mem_cons_self
    · intro u _
      exact Format.lookup_congr (indices_lt u) kept

theorem unmap_page {doFree : Bool} {leaf p : Word} (owns : Owns m S) (ok : TableOk m S pt)
    (inside : v < VPNS) (found : format.find m.mem (indices v) 2 pt = some leaf)
    (able : Releasable S (tables m.mem pt) (released doFree [p])) (freed : m.kfreeIf doFree p = .ok m') :
    Unmaps m (m'.store (leaf, indices v 0) 0) S pt (released doFree [p])
      (update (pteAt m.mem pt) v none) := by
  obtain ⟨first, kept⟩ := release_page owns able freed
  have ok' := first.tableOk ok able.away
  have path : format.find m'.mem (indices v) 2 pt = some leaf :=
    (Format.find_congr (indices_lt v) kept).trans found
  have stored := Changes.store (w := 0) first.owns ok' inside path
  obtain ⟨owns'', -, shape⟩ := stored.still ok'
  have second : Unmaps m' (m'.store (leaf, indices v 0) 0) (S ∪ {x | x ∈ released doFree [p]}) pt
      [] (update (pteAt m'.mem pt) v none) := by
    refine ⟨shape, ?_, fun x outside _ => stored.frame x outside List.not_mem_nil, stored.entries,
      stored.tidy⟩
    simpa using owns''
  have both := first.trans second
  rw [List.append_nil] at both
  refine ⟨both.tables, both.owns, both.frame, fun u below => ?_, both.tidy⟩
  rw [both.entries u below]
  by_cases here : u = v
  · rw [here, update_self, update_self]
  · rw [update_of_ne here, update_of_ne here, first.entries u below]

theorem uvmunmapLoop_unmaps {doFree : Bool} {rounds : Nat} {a : Word} (owns : Owns m S)
    (ok : TableOk m S pt) (here : a = pageAddr v) (inside : v + rounds ≤ VPNS)
    (able : Releasable S (tables m.mem pt)
      (released doFree (pagesFrom (pteAt m.mem pt) v rounds)))
    (unmapped : uvmunmapLoop pt doFree rounds m a = .ok m') :
    Unmaps m m' S pt (released doFree (pagesFrom (pteAt m.mem pt) v rounds))
        (unbindPages (pteAt m.mem pt) v rounds) ∧
      ∀ u, v ≤ u → u < v + rounds → (pteAt m.mem pt u).isSome = true := by
  induction rounds generalizing m S v a with
  | zero =>
    cases unmapped
    refine ⟨⟨List.Perm.refl _, ?_, fun _ _ _ => rfl, ?_, id⟩, fun u low high => by omega⟩
    · cases doFree <;> simpa [released, pagesFrom] using owns
    · intro u _
      rw [unbindPages_zero]
  | succ rounds ih =>
    rw [here] at unmapped
    obtain ⟨⟨found, m₁⟩, walked, rest⟩ := bind_ok unmapped
    obtain ⟨rfl, -, known⟩ := walk_find walked
    rw [vpn_pageAddr (by omega)] at known
    cases found with
    | none => cases rest
    | some pte =>
      obtain ⟨leaf, found, point⟩ := Option.map_eq_some_iff.mp known.symm
      simp only at rest
      split at rest
      · cases rest
      · rename_i valid
        split at rest
        · cases rest
        · obtain ⟨m₂, freed, rest⟩ := bind_ok rest
          rw [← point] at valid freed rest
          have bound := load_found found
          rw [entry_valid valid] at bound
          rw [pagesFrom_succ _ _ _ bound, ← released_cons] at able ⊢
          have first := unmap_page owns ok (by omega) found able.left freed
          have ok₂ := first.tableOk ok able.left.away
          have left : ∀ u, v + 1 ≤ u → u < v + 1 + rounds →
              pteAt (m₂.store (leaf, indices v 0) 0).mem pt u = pteAt m₁.mem pt u := by
            intro u low high
            rw [first.entries u (by omega), update_of_ne (by omega)]
          have pages := pagesFrom_congr left
          have second := ih first.owns ok₂ (pageAddr_succ v) (by omega) (by
            rw [pages]
            exact able.right.perm first.tables) rest
          obtain ⟨unmaps, mapped⟩ := second
          rw [pages] at unmaps
          have both := first.trans unmaps
          refine ⟨⟨both.tables, both.owns, both.frame, fun u below => ?_, both.tidy⟩, ?_⟩
          · rw [both.entries u below, ← unbindPages_cons]
            unfold unbindPages
            rw [first.entries u below]
          · intro u low high
            by_cases now : u = v
            · rw [now, bound]
              rfl
            · have later := mapped u (by omega) (by omega)
              rwa [left u (by omega) (by omega)] at later

theorem uvmunmap_range {npages : Word} (aligned : va.toNat % 4096 = 0)
    (inside : va.toNat + npages.toNat * 4096 ≤ 2 ^ 38) :
    ((va + npages * PGSIZE).toNat - va.toNat) / PGSIZE.toNat = npages.toNat ∧
      va = pageAddr (vpn va) ∧ vpn va + npages.toNat ≤ VPNS := by
  refine ⟨?_, ?_, ?_⟩
  · rw [BitVec.toNat_add, BitVec.toNat_mul, pgsize_toNat]
    omega
  · rw [← pgrounddown_pageAddr, pgrounddown_of_aligned aligned]
  · unfold vpn VPNS
    omega

theorem uvmunmap_unmaps {npages : Word} {doFree : Bool} (owns : Owns m S)
    (ok : TableOk m S pt) (inside : va.toNat + npages.toNat * 4096 ≤ 2 ^ 38)
    (able : Releasable S (tables m.mem pt)
      (released doFree (pagesFrom (pteAt m.mem pt) (vpn va) npages.toNat)))
    (unmapped : uvmunmap m pt va npages doFree = .ok m') :
    Unmaps m m' S pt
        (released doFree (pagesFrom (pteAt m.mem pt) (vpn va) npages.toNat))
        (unbindPages (pteAt m.mem pt) (vpn va) npages.toNat) ∧
      ∀ u, vpn va ≤ u → u < vpn va + npages.toNat → (pteAt m.mem pt u).isSome = true := by
  unfold uvmunmap at unmapped
  split at unmapped
  · cases unmapped
  · rename_i aligned
    have zero : va.toNat % 4096 = 0 := by
      have known := congrArg BitVec.toNat (not_not.mp aligned)
      rwa [BitVec.toNat_umod, pgsize_toNat] at known
    obtain ⟨rounds, start, top⟩ := uvmunmap_range zero inside
    rw [rounds] at unmapped
    exact uvmunmapLoop_unmaps owns ok start top able unmapped

theorem clear_user_valid (w : Word) : w &&& ~~~PTE_U &&& PTE_V = w &&& PTE_V := by
  have bits : ~~~PTE_U &&& PTE_V = PTE_V := by decide
  rw [BitVec.and_assoc, bits]

theorem uvmclear_changes (owns : Owns m S) (ok : TableOk m S pt)
    (cleared : uvmclear m pt va = .ok m') :
    Changes m m' S pt [] (update (pteAt m.mem pt) (vpn va)
      ((pteAt m.mem pt (vpn va)).map (· &&& ~~~PTE_U))) := by
  obtain ⟨⟨found, m₁⟩, walked, rest⟩ := bind_ok cleared
  obtain ⟨rfl, inside, known⟩ := walk_find walked
  cases found with
  | none => cases rest
  | some pte =>
    obtain ⟨leaf, found, rfl⟩ := Option.map_eq_some_iff.mp known.symm
    cases rest
    have stored := Changes.store (w := m₁.load (leaf, indices (vpn va) 0) &&& ~~~PTE_U) owns ok inside
      found
    have entry : format.entry (m₁.load (leaf, indices (vpn va) 0) &&& ~~~PTE_U) =
        (pteAt m₁.mem pt (vpn va)).map (· &&& ~~~PTE_U) := by
      rw [load_found found]
      by_cases valid : m₁.load (leaf, indices (vpn va) 0) &&& PTE_V = 0
      · rw [entry_invalid valid, entry_invalid (by rw [clear_user_valid]; exact valid)]
        rfl
      · rw [entry_valid valid, entry_valid (by rw [clear_user_valid]; exact valid)]
        rfl
    rw [entry] at stored
    exact stored

theorem pagesBelow_mono {a b : Word} (ordered : a.toNat ≤ b.toNat) : pagesBelow a ≤ pagesBelow b :=
  Nat.div_le_div_right (by omega)

theorem pagesBelow_le {a : Word} (below : a.toNat ≤ 2 ^ 38) : pagesBelow a ≤ VPNS := by
  unfold pagesBelow VPNS
  omega

theorem Unmaps.refl (owns : Owns m S) (pt : Word) (v : Nat) :
    Unmaps m m S pt (pagesFrom (pteAt m.mem pt) v 0)
      (unbindPages (pteAt m.mem pt) v 0) := by
  refine ⟨List.Perm.refl _, ?_, fun _ _ _ => rfl, ?_, id⟩
  · simpa [pagesFrom] using owns
  · intro u _
    rw [unbindPages_zero]

theorem npages_toNat {lo hi : Nat} (ordered : lo ≤ hi) (below : hi ≤ VPNS) :
    ((((pageAddr hi - pageAddr lo) / PGSIZE).setWidth 32).signExtend 64).toNat = hi - lo := by
  have bound : VPNS = 2 ^ 26 := rfl
  have difference : ((pageAddr hi - pageAddr lo) / PGSIZE).toNat = hi - lo := by
    rw [BitVec.toNat_udiv, BitVec.toNat_sub, pageAddr_toNat below, pageAddr_toNat (by omega),
      pgsize_toNat]
    omega
  have narrow : (((pageAddr hi - pageAddr lo) / PGSIZE).setWidth 32).toNat = hi - lo := by
    rw [BitVec.toNat_setWidth, difference]
    omega
  have positive : (((pageAddr hi - pageAddr lo) / PGSIZE).setWidth 32).msb = false := by
    rw [BitVec.msb_eq_false_iff_two_mul_lt, narrow]
    omega
  rw [BitVec.signExtend_eq_setWidth_of_msb_false positive, BitVec.toNat_setWidth, narrow]
  omega

theorem uvmdealloc_unmaps {oldsz newsz size : Word} (owns : Owns m S) (ok : TableOk m S pt)
    (inside : oldsz.toNat ≤ 2 ^ 38)
    (able : Releasable S (tables m.mem pt)
      (pagesFrom (pteAt m.mem pt) (pagesBelow newsz) (pagesBelow oldsz - pagesBelow newsz)))
    (ran : uvmdealloc m pt oldsz newsz = .ok (size, m')) :
    Unmaps m m' S pt
        (pagesFrom (pteAt m.mem pt) (pagesBelow newsz) (pagesBelow oldsz - pagesBelow newsz))
        (unbindPages (pteAt m.mem pt) (pagesBelow newsz)
          (pagesBelow oldsz - pagesBelow newsz)) ∧
      size = if oldsz ≤ newsz then oldsz else newsz := by
  unfold uvmdealloc at ran
  split at ran
  · rename_i larger
    cases ran
    have none : pagesBelow oldsz - pagesBelow newsz = 0 := by
      have mono := pagesBelow_mono (BitVec.le_def.mp larger)
      omega
    rw [none, if_pos larger]
    exact ⟨Unmaps.refl owns _ _, rfl⟩
  · rename_i smaller
    have less : newsz.toNat < oldsz.toNat := by
      rw [BitVec.le_def] at smaller
      omega
    have mono := pagesBelow_mono (Nat.le_of_lt less)
    have top := pagesBelow_le inside
    rw [if_neg smaller]
    rw [pgroundup_pageAddr inside, pgroundup_pageAddr (by omega)] at ran
    split at ran
    · obtain ⟨m₁, unmapped, rest⟩ := bind_ok ran
      cases rest
      have count := npages_toNat mono top
      have page := vpn_pageAddr (v := pagesBelow newsz) (by omega)
      have unmaps := uvmunmap_unmaps owns ok ?_ ?_ unmapped
      · rw [count, page] at unmaps
        exact ⟨unmaps.1, rfl⟩
      · rw [count, pageAddr_toNat (by omega)]
        unfold VPNS at top
        omega
      · rw [count, page]
        exact able
    · rename_i same
      cases ran
      have none : pagesBelow oldsz - pagesBelow newsz = 0 := by
        rw [BitVec.lt_def, pageAddr_toNat top, pageAddr_toNat (by omega)] at same
        omega
      rw [none]
      exact ⟨Unmaps.refl owns _ _, rfl⟩

end OsbKernel.Paging
