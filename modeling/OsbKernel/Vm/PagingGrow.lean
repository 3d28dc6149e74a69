import OsbKernel.Vm.PagingMap
import Mathlib.Data.List.GetD

/-!
# Growing and copying address spaces

`uvmalloc` and `uvmcopy` take pages one by one and map them.  When memory runs out they
give back what they have taken, and the map is as before; only page-table pages stay.
-/

namespace OsbKernel.Paging

open Function FreeRadix ExceptBind LawfulAllocator

variable {K : Type} [Allocator K] [LawfulAllocator K] {m m' m'' : Machine K} {S : Set Word}
  {pt page : Word} {added added' data data' : List Word}
  {entries entries' : Nat → Option Word} {v : Nat}

/-- The table gets the page-table pages `added` and maps the pages `data`, all of them from the
allocator. -/
structure Grants (m m' : Machine K) (S : Set Word) (pt : Word) (added data : List Word)
    (entries : Nat → Option Word) : Prop where
  tables : (Paging.tables m'.mem pt).Perm (added ++ Paging.tables m.mem pt)
  owns : Owns m' (S \ {x | x ∈ added ++ data})
  nodup : (added ++ data).Nodup
  fresh : ∀ x ∈ added ++ data, x ∈ S
  frame : ∀ x, x ∉ Paging.tables m.mem pt → x ∉ S → m'.mem x = m.mem x
  entries : ∀ v, v < VPNS → pteAt m'.mem pt v = entries v
  tidy : Tidy m.mem pt → Tidy m'.mem pt

theorem Changes.grants (changes : Changes m m' S pt added entries) :
    Grants m m' S pt added [] entries := by
  refine ⟨changes.tables, ?_, ?_, ?_, ?_, changes.entries, changes.tidy⟩
  · rw [List.append_nil]
    exact changes.owns
  · rw [List.append_nil]
    exact changes.nodup
  · rw [List.append_nil]
    exact changes.fresh
  · intro x outside notFree
    exact changes.frame x outside fun new => notFree (changes.fresh x new)

theorem Grants.tableOk (grants : Grants m m' S pt added data entries)
    (ok : TableOk m S pt) : TableOk m' (S \ {x | x ∈ added ++ data}) pt := by
  constructor
  · rw [grants.tables.nodup_iff]
    refine List.nodup_append.mpr ⟨(List.nodup_append.mp grants.nodup).1, ok.nodup, ?_⟩
    rintro x new _ old rfl
    exact ok.apart x old (grants.fresh x (List.mem_append_left _ new))
  · intro x listed inside
    rcases List.mem_append.mp (grants.tables.mem_iff.mp listed) with new | old
    · exact inside.2 (List.mem_append_left _ new)
    · exact ok.apart x old inside.1

theorem granted_perm (added added' data data' : List Word) :
    ((added' ++ added) ++ (data ++ data')).Perm ((added' ++ data') ++ (added ++ data)) := by
  rw [List.append_assoc, List.append_assoc]
  refine List.Perm.append_left added' ?_
  rw [← List.append_assoc added]
  exact List.perm_append_comm

theorem Grants.trans (first : Grants m m' S pt added data entries)
    (second : Grants m' m'' (S \ {x | x ∈ added ++ data}) pt added' data' entries') :
    Grants m m'' S pt (added' ++ added) (data ++ data') entries' := by
  have perm := granted_perm added added' data data'
  obtain ⟨nodup, fresh⟩ := fresh_append first.nodup first.fresh second.nodup second.fresh
  refine ⟨?_, ?_, perm.nodup_iff.mpr nodup, fun x listed => fresh x (perm.mem_iff.mp listed), ?_,
    second.entries, fun tidy => second.tidy (first.tidy tidy)⟩
  · rw [List.append_assoc]
    exact second.tables.trans (first.tables.append_left added')
  · have same : S \ {x | x ∈ (added' ++ added) ++ (data ++ data')} =
        (S \ {x | x ∈ added ++ data}) \ {x | x ∈ added' ++ data'} := by
      rw [← diff_append]
      ext x
      simp only [Set.mem_sdiff, Set.mem_ofPred_eq, perm.mem_iff]
    rw [same]
    exact second.owns
  · intro x outside notFree
    have still : x ∉ Paging.tables m'.mem pt := by
      rw [first.tables.mem_iff, List.mem_append, not_or]
      exact ⟨fun new => notFree (first.fresh x (List.mem_append_left _ new)), outside⟩
    rw [second.frame x still fun inside => notFree inside.1, first.frame x outside notFree]

structure Took (m m' : Machine K) (S : Set Word) (page : Word) : Prop where
  had : page ∈ S
  aligned : page.toNat % 4096 = 0
  owns : Owns m' (S \ {page})
  others : ∀ x, x ≠ page → m'.mem x = m.mem x

theorem took_clear (owns : Owns m S) (got : m.kalloc.1 ≠ 0) :
    Took m (m.kalloc.2.clear m.kalloc.1) S m.kalloc.1 := by
  obtain ⟨had, aligned, owns', others⟩ := kalloc_page owns got
  refine ⟨had, aligned, write owns' rfl fun x inside => clear_mem_of_ne inside.2, ?_⟩
  intro x other
  rw [clear_mem_of_ne other, others x other]

theorem took_copy (owns : Owns m S) (got : m.kalloc.1 ≠ 0) (src : Word) :
    Took m (m.kalloc.2.copy m.kalloc.1 src) S m.kalloc.1 := by
  obtain ⟨had, aligned, owns', others⟩ := kalloc_page owns got
  refine ⟨had, aligned, write owns' rfl fun x inside => update_of_ne inside.2 _ _, ?_⟩
  intro x other
  exact (update_of_ne other _ _).trans (others x other)

theorem Took.table (took : Took m m' S page) (ok : TableOk m S pt) :
    TableOk m' (S \ {page}) pt ∧ tables m'.mem pt = tables m.mem pt ∧
      pteAt m'.mem pt = pteAt m.mem pt := by
  refine ok.outside (S \ {page}) ?_ fun x listed inside => ok.apart x listed inside.1
  intro x listed
  refine took.others x ?_
  rintro rfl
  exact ok.apart x listed took.had

theorem Took.tidy (took : Took m m' S page) (ok : TableOk m S pt)
    (tidy : Tidy m.mem pt) : Tidy m'.mem pt := by
  refine tidy.congr fun x listed => took.others x ?_
  rintro rfl
  exact ok.apart x listed took.had

theorem covering_page (inside : v < VPNS) : covering (pageAddr v) PGSIZE = 1 := by
  unfold covering
  rw [vpn_pageAddr (Nat.le_of_lt inside), pageAddr_toNat (Nat.le_of_lt inside), pgsize_toNat]
  omega

variable {perm : BitVec 32} {result : Bool} {p new : Word} {src : Nat → Word}

theorem mappages_page {pa : Word} (owns : Owns m S)
    (ok : TableOk m S pt) (inside : v < VPNS)
    (mapped : mappages m pt (pageAddr v) PGSIZE pa perm = .ok (result, m')) :
    ∃ added, Changes m m' S pt added (if result
        then update (pteAt m.mem pt) v (some (mappedPte pa perm 0))
        else pteAt m.mem pt) ∧
      (result = true → pteAt m.mem pt v = none) := by
  have fits : (pageAddr v).toNat + PGSIZE.toNat ≤ 2 ^ 38 := by
    rw [pageAddr_toNat (Nat.le_of_lt inside), pgsize_toNat]
    unfold VPNS at inside
    omega
  obtain ⟨added, count, changes, bound, unbound⟩ := mappages_changes owns ok fits mapped
  rw [covering_page inside] at bound
  rw [vpn_pageAddr (Nat.le_of_lt inside)] at changes unbound
  refine ⟨added, ?_, ?_⟩
  · cases result with
    | false =>
      have none : count = 0 := Nat.lt_one_iff.mp bound
      rw [none, bindPages_zero] at changes
      exact changes
    | true =>
      have one : count = 1 := bound
      rw [one, ← bindPages_cons, bindPages_zero] at changes
      exact changes
  · intro known
    subst known
    have one : count = 1 := bound
    exact unbound v (Nat.le_refl v) (by omega)

theorem diff_diff (S : Set Word) (page : Word) (added : List Word) :
    (S \ {page}) \ {x | x ∈ added} = S \ {x | x ∈ added ++ [page]} := by
  ext x
  simp only [Set.mem_sdiff, Set.mem_singleton_iff, Set.mem_ofPred_eq, List.mem_append,
    List.mem_singleton, not_or]
  constructor
  · rintro ⟨⟨inS, other⟩, old⟩
    exact ⟨inS, old, other⟩
  · rintro ⟨inS, old, other⟩
    exact ⟨⟨inS, other⟩, old⟩

theorem Took.grants (took : Took m m' S page) (ok : TableOk m S pt)
    (inside : v < VPNS)
    (mapped : mappages m' pt (pageAddr v) PGSIZE page perm = .ok (true, m'')) :
    ∃ added, Grants m m'' S pt added [page]
        (update (pteAt m.mem pt) v (some (mappedPte page perm 0))) ∧
      pteAt m.mem pt v = none ∧ m''.mem page = m'.mem page := by
  obtain ⟨ok', shape, same⟩ := took.table ok
  obtain ⟨added, changes, free⟩ := mappages_page took.owns ok' inside mapped
  rw [same] at changes free
  refine ⟨added, ⟨?_, ?_, ?_, ?_, ?_, changes.entries,
    fun tidy => changes.tidy (took.tidy ok tidy)⟩, free rfl, ?_⟩
  · rw [← shape]
    exact changes.tables
  · rw [← diff_diff]
    exact changes.owns
  · refine List.nodup_append.mpr ⟨changes.nodup, List.nodup_singleton page, ?_⟩
    rintro x new _ listed rfl
    exact (changes.fresh x new).2 (List.mem_singleton.mp listed)
  · intro x listed
    rcases List.mem_append.mp listed with new | here
    · exact (changes.fresh x new).1
    · rw [List.mem_singleton.mp here]
      exact took.had
  · intro x outside notFree
    rw [changes.frame x (by rwa [shape]) fun new => notFree (changes.fresh x new).1]
    refine took.others x ?_
    rintro rfl
    exact notFree took.had
  · refine changes.frame page ?_ fun new => (changes.fresh page new).2 rfl
    rw [shape]
    exact fun listed => ok.apart page listed took.had

theorem Took.returns {m₃ : Machine K} (took : Took m m' S page)
    (ok : TableOk m S pt) (inside : v < VPNS)
    (failed : mappages m' pt (pageAddr v) PGSIZE page perm = .ok (false, m''))
    (freed : m''.kfree page = .ok m₃) :
    ∃ added, Grants m m₃ S pt added [] (pteAt m.mem pt) := by
  obtain ⟨ok', shape, same⟩ := took.table ok
  obtain ⟨added, changes, -⟩ := mappages_page took.owns ok' inside failed
  rw [same] at changes
  have other : page ∉ added := fun new => (changes.fresh page new).2 rfl
  have away : page ∉ tables m''.mem pt := by
    rw [changes.tables.mem_iff, List.mem_append, not_or, shape]
    exact ⟨other, fun old => ok.apart page old took.had⟩
  have freed' : m''.kfreeIf true page = .ok m₃ := freed
  have able : Releasable ((S \ {page}) \ {x | x ∈ added}) (tables m''.mem pt)
      (released true [page]) := by
    refine ⟨List.nodup_singleton page, ?_, ?_⟩
    · intro x listed inside
      rw [List.mem_singleton.mp listed] at inside
      exact inside.1.2 rfl
    · intro x listed
      rw [List.mem_singleton.mp listed]
      exact away
  obtain ⟨back, -⟩ := release_page changes.owns able freed'
  refine ⟨added, ?_, ?_, ?_, ?_, ?_, ?_,
    fun tidy => back.tidy (changes.tidy (took.tidy ok tidy))⟩
  · rw [← shape]
    exact back.tables.trans changes.tables
  · rw [List.append_nil]
    refine cast (congrArg (Owns m₃) ?_) back.owns
    ext x
    change ((x ∈ S ∧ x ≠ page) ∧ x ∉ added) ∨ x ∈ [page] ↔ x ∈ S ∧ x ∉ added
    rw [List.mem_singleton]
    constructor
    · rintro (⟨⟨inS, -⟩, old⟩ | rfl)
      · exact ⟨inS, old⟩
      · exact ⟨took.had, other⟩
    · rintro ⟨inS, old⟩
      by_cases here : x = page
      · exact .inr here
      · exact .inl ⟨⟨inS, here⟩, old⟩
  · rw [List.append_nil]
    exact changes.nodup
  · rw [List.append_nil]
    exact fun x new => (changes.fresh x new).1
  · intro x outside notFree
    have notNew : x ∉ added := fun new => notFree (changes.fresh x new).1
    have differ : x ≠ page := by
      rintro rfl
      exact notFree took.had
    have still : x ∉ tables m''.mem pt := by
      rw [changes.tables.mem_iff, List.mem_append, not_or, shape]
      exact ⟨notNew, outside⟩
    have notBack : x ∉ released true [page] := fun listed => differ (List.mem_singleton.mp listed)
    have before : x ∉ tables m'.mem pt := by
      rw [shape]
      exact outside
    rw [back.frame x still notBack, changes.frame x before notNew, took.others x differ]
  · intro u below
    rw [back.entries u below]
    exact changes.entries u below

def packPte (data : List Word) (flags : Nat → Word) (i : Nat) : Word :=
  PA2PTE (data.getD i 0) ||| flags i

/-- The state of a loop that has mapped the pages `data` from page number `lo` on. -/
structure Filled (m₀ m : Machine K) (S : Set Word) (pt : Word) (lo : Nat) (flags : Nat → Word)
    (added data : List Word) : Prop where
  grants : Grants m₀ m S pt added data
    (bindPages (pteAt m₀.mem pt) lo data.length (packPte data flags))
  aligned : ∀ x ∈ data, x.toNat % 4096 = 0
  inside : lo + data.length ≤ VPNS
  free : ∀ u, lo ≤ u → u < lo + data.length → pteAt m₀.mem pt u = none

section Filled

variable {m₀ : Machine K} {lo : Nat} {flags : Nat → Word}

theorem Filled.start (owns : Owns m S) (pt : Word) {lo : Nat} (inside : lo ≤ VPNS)
    (flags : Nat → Word) : Filled m m S pt lo flags [] [] := by
  refine ⟨?_, ?_, inside, fun u low high => ?_⟩
  · have none := bindPages_zero (pteAt m.mem pt) lo (packPte [] flags)
    change Grants m m S pt [] [] (bindPages _ lo 0 _)
    rw [none]
    exact (Changes.refl owns pt).grants
  · intro x listed
    cases listed
  · change u < lo + 0 at high
    omega

theorem packPte_append (data : List Word) (p : Word) (flags : Nat → Word) {i : Nat}
    (below : i < data.length) : packPte (data ++ [p]) flags i = packPte data flags i := by
  unfold packPte
  rw [List.getD_append _ _ _ _ below]

theorem packPte_last (data : List Word) (p : Word) (flags : Nat → Word) :
    packPte (data ++ [p]) flags data.length = PA2PTE p ||| flags data.length := by
  unfold packPte
  rw [List.getD_append_right _ _ _ _ (Nat.le_refl _), Nat.sub_self]
  rfl

theorem Filled.extend (filled : Filled m₀ m S pt lo flags added data)
    (grants : Grants m m' (S \ {x | x ∈ added ++ data}) pt added' [p]
      (update (pteAt m.mem pt) (lo + data.length) (some (PA2PTE p ||| flags data.length))))
    (free : pteAt m.mem pt (lo + data.length) = none)
    (inside : lo + data.length < VPNS) (aligned : p.toNat % 4096 = 0) :
    Filled m₀ m' S pt lo flags (added' ++ added) (data ++ [p]) := by
  have both := filled.grants.trans grants
  have length : (data ++ [p]).length = data.length + 1 := by
    rw [List.length_append]
    rfl
  refine ⟨⟨both.tables, both.owns, both.nodup, both.fresh, both.frame, ?_, both.tidy⟩, ?_, ?_, ?_⟩
  · intro u below
    rw [both.entries u below, length]
    by_cases here : u = lo + data.length
    · rw [here, update_self, bindPages, if_pos (by omega), Nat.add_sub_cancel_left, packPte_last]
    · rw [update_of_ne here, filled.grants.entries u below]
      unfold bindPages
      by_cases old : lo ≤ u ∧ u < lo + data.length
      · rw [if_pos old, if_pos (by omega), packPte_append _ _ _ (by omega)]
      · rw [if_neg old, if_neg (by omega)]
  · intro x listed
    rcases List.mem_append.mp listed with old | new
    · exact filled.aligned x old
    · rw [List.mem_singleton.mp new]
      exact aligned
  · rw [length]
    exact inside
  · intro u low high
    by_cases here : u = lo + data.length
    · rw [here]
      rw [filled.grants.entries _ inside, bindPages, if_neg (by omega)] at free
      exact free
    · exact filled.free u low (by omega)

theorem Filled.keep (filled : Filled m₀ m S pt lo flags added data)
    (grants : Grants m m' (S \ {x | x ∈ added ++ data}) pt added' []
      (pteAt m.mem pt)) : Filled m₀ m' S pt lo flags (added' ++ added) data := by
  have both := filled.grants.trans grants
  rw [List.append_nil] at both
  refine ⟨⟨both.tables, both.owns, both.nodup, both.fresh, both.frame, fun u below => ?_, both.tidy⟩,
    filled.aligned, filled.inside, filled.free⟩
  rw [both.entries u below, filled.grants.entries u below]

theorem Filled.pages (filled : Filled m₀ m S pt lo flags added data)
    (small : ∀ i, (flags i).toNat < 1024) :
    pagesFrom (pteAt m.mem pt) lo data.length = data := by
  have read : ∀ u ∈ List.range' lo data.length,
      (pteAt m.mem pt u).map PTE2PA = some (data.getD (u - lo) 0) := by
    intro u listed
    rw [List.mem_range'_1] at listed
    have index : u - lo < data.length := by omega
    have below := filled.inside
    rw [filled.grants.entries u (by omega), bindPages, if_pos listed, Option.map_some, packPte,
      pte2pa_pte (small _), pgrounddown_of_aligned]
    refine filled.aligned _ ?_
    rw [List.getD_eq_getElem _ _ index]
    exact List.getElem_mem index
  unfold pagesFrom
  rw [List.filterMap_congr read]
  refine List.ext_getElem ?_ ?_
  · simp
  · intro i first second
    simp [List.getElem_range', List.getElem?_eq_getElem second]

theorem Filled.releasable (filled : Filled m₀ m S pt lo flags added data)
    (ok : TableOk m₀ S pt) :
    Releasable (S \ {x | x ∈ added ++ data}) (tables m.mem pt) data := by
  obtain ⟨-, nodup, apart⟩ := List.nodup_append.mp filled.grants.nodup
  refine ⟨nodup, ?_, ?_⟩
  · intro x listed inside
    exact inside.2 (List.mem_append_right _ listed)
  · intro x listed
    rw [filled.grants.tables.mem_iff, List.mem_append, not_or]
    refine ⟨fun new => apart x new x listed rfl, fun old => ?_⟩
    exact ok.apart x old (filled.grants.fresh x (List.mem_append_right _ listed))

theorem Filled.unwind (filled : Filled m₀ m S pt lo flags added data)
    (unmaps : Unmaps m m' (S \ {x | x ∈ added ++ data}) pt data
      (unbindPages (pteAt m.mem pt) lo data.length)) :
    Grants m₀ m' S pt added [] (pteAt m₀.mem pt) := by
  obtain ⟨nodup, -, apart⟩ := List.nodup_append.mp filled.grants.nodup
  refine ⟨unmaps.tables.trans filled.grants.tables, ?_, ?_, ?_, ?_, ?_,
    fun tidy => unmaps.tidy (filled.grants.tidy tidy)⟩
  · rw [List.append_nil]
    refine cast (congrArg (Owns m') ?_) unmaps.owns
    ext x
    change (x ∈ S ∧ x ∉ added ++ data) ∨ x ∈ data ↔ x ∈ S ∧ x ∉ added
    rw [List.mem_append, not_or]
    constructor
    · rintro (⟨inS, old, -⟩ | back)
      · exact ⟨inS, old⟩
      · exact ⟨filled.grants.fresh x (List.mem_append_right _ back),
          fun new => apart x new x back rfl⟩
    · rintro ⟨inS, old⟩
      by_cases back : x ∈ data
      · exact .inr back
      · exact .inl ⟨inS, old, back⟩
  · rw [List.append_nil]
    exact nodup
  · rw [List.append_nil]
    exact fun x new => filled.grants.fresh x (List.mem_append_left _ new)
  · intro x outside notFree
    have still : x ∉ tables m.mem pt := by
      rw [filled.grants.tables.mem_iff, List.mem_append, not_or]
      exact ⟨fun new => notFree (filled.grants.fresh x (List.mem_append_left _ new)), outside⟩
    have notBack : x ∉ data := fun back =>
      notFree (filled.grants.fresh x (List.mem_append_right _ back))
    rw [unmaps.frame x still notBack, filled.grants.frame x outside notFree]
  · intro u below
    rw [unmaps.entries u below]
    unfold unbindPages
    by_cases range : lo ≤ u ∧ u < lo + data.length
    · rw [if_pos range, filled.free u range.1 range.2]
    · rw [if_neg range, filled.grants.entries u below, bindPages, if_neg range]

end Filled

/-- The flags of the pages that `uvmalloc` maps. -/
def userFlags : Word := PTE_W ||| PTE_X ||| PTE_R ||| PTE_U ||| PTE_V

theorem mappedPte_page (pa : Word) (perm : BitVec 32) :
    mappedPte pa perm 0 = PA2PTE pa ||| (perm.signExtend 64 ||| PTE_V) := by
  rw [mappedPte_zero, BitVec.or_assoc]

theorem userFlags_eq :
    ((PTE_W ||| PTE_X ||| PTE_R ||| PTE_U).setWidth 32).signExtend 64 ||| PTE_V = userFlags := by
  decide

omit [LawfulAllocator K] in
theorem mappages_inside {pa : Word} (small : v < 2 ^ 52)
    (mapped : mappages m pt (pageAddr v) PGSIZE pa perm = .ok (result, m')) : v < VPNS := by
  by_contra outside
  have address : (pageAddr v).toNat = v * 4096 := by
    rw [pageAddr, BitVec.toNat_ofNat]
    omega
  have rounds : (MAXVA.toNat - (PGROUNDDOWN (pageAddr v)).toNat) / PGSIZE.toNat = 0 := by
    rw [pgrounddown_toNat, address, maxva_toNat, pgsize_toNat]
    unfold VPNS at outside
    omega
  unfold mappages at mapped
  split at mapped
  · cases mapped
  · simp only [rounds] at mapped
    cases mapped

/-- What `uvmalloc` and `uvmcopy` leave when they fail. -/
def Unchanged (m m' : Machine K) (S : Set Word) (pt : Word) : Prop :=
  ∃ added, Grants m m' S pt added [] (pteAt m.mem pt)

theorem kalloc_null_grants (owns : Owns m S) (null : m.kalloc.1 = 0) (pt : Word) :
    Grants m m.kalloc.2 S pt [] [] (pteAt m.mem pt) := by
  obtain ⟨owns', mem⟩ := kalloc_null owns null
  refine ⟨?_, ?_, List.nodup_nil, ?_, ?_, ?_, ?_⟩
  · rw [mem]
    exact List.Perm.refl _
  · simpa using owns'
  · intro x listed
    cases listed
  · intro x _ _
    rw [mem]
  · intro u _
    rw [mem]
  · rw [mem]
    exact id

section Loops

variable {m₀ : Machine K} {lo : Nat} {flags : Nat → Word} {newsz size : Word}

theorem pagesBelow_pageAddr (below : v ≤ VPNS) : pagesBelow (pageAddr v) = v := by
  unfold pagesBelow
  rw [pageAddr_toNat below]
  omega

theorem Filled.dealloc (filled : Filled m₀ m S pt lo flags added data)
    (ok : TableOk m₀ S pt) (small : ∀ i, (flags i).toNat < 1024)
    (ran : uvmdealloc m pt (pageAddr (lo + data.length)) (pageAddr lo) = .ok (size, m')) :
    Unchanged m₀ m' S pt := by
  have inside := filled.inside
  have high := pagesBelow_pageAddr inside
  have low := pagesBelow_pageAddr (v := lo) (by omega)
  have count : pagesBelow (pageAddr (lo + data.length)) - pagesBelow (pageAddr lo) = data.length := by
    rw [high, low, Nat.add_sub_cancel_left]
  have pages := filled.pages small
  obtain ⟨unmaps, -⟩ := uvmdealloc_unmaps filled.grants.owns (filled.grants.tableOk ok) (by
    rw [pageAddr_toNat inside]
    unfold VPNS at inside
    omega) (by
    rw [count, low, pages]
    exact filled.releasable ok) ran
  rw [count, low, pages] at unmaps
  exact ⟨added, filled.unwind unmaps⟩

def Zeroed (m : Machine K) (data : List Word) : Prop := ∀ x ∈ data, m.mem x = fun _ => 0

theorem Zeroed.extend (zeroed : Zeroed m data)
    (filled : Filled m₀ m S pt lo flags added data) (ok : TableOk m₀ S pt)
    (frame : ∀ x, x ∉ tables m.mem pt → x ∉ S \ {x | x ∈ added ++ data} → m'.mem x = m.mem x)
    (last : m'.mem p = fun _ => 0) : Zeroed m' (data ++ [p]) := by
  have able := filled.releasable ok
  intro x listed
  rcases List.mem_append.mp listed with old | new
  · rw [frame x (able.away x old) (able.taken x old)]
    exact zeroed x old
  · rw [List.mem_singleton.mp new]
    exact last

theorem uvmallocLoop_filled {rounds : Nat} {a : Word} (ok : TableOk m₀ S pt)
    (filled : Filled m₀ m S pt lo (fun _ => userFlags) added data) (zeroed : Zeroed m data)
    (here : a = pageAddr (lo + data.length)) (small : lo + data.length + rounds ≤ 2 ^ 52)
    (ran : uvmallocLoop pt (pageAddr lo) newsz rounds m a = .ok (size, m')) :
    (size = newsz ∧ ∃ added' data', data'.length = data.length + rounds ∧
      Filled m₀ m' S pt lo (fun _ => userFlags) added' data' ∧ Zeroed m' data') ∨
    (size = 0 ∧ Unchanged m₀ m' S pt) := by
  induction rounds generalizing m added data a with
  | zero =>
    cases ran
    exact .inl ⟨rfl, added, data, rfl, filled, zeroed⟩
  | succ rounds ih =>
    have owns := filled.grants.owns
    have table := filled.grants.tableOk ok
    have bits : userFlags.toNat < 1024 := by decide
    rw [here] at ran
    unfold uvmallocLoop at ran
    simp only at ran
    split at ran
    · rename_i null
      obtain ⟨⟨size', m₁⟩, dealloc, rest⟩ := bind_ok ran
      cases rest
      have kept := filled.keep (kalloc_null_grants owns null pt)
      exact .inr ⟨rfl, kept.dealloc ok (fun _ => bits) dealloc⟩
    · rename_i got
      have took := took_clear owns got
      obtain ⟨⟨result, m₁⟩, mapped, rest⟩ := bind_ok ran
      have inside : lo + data.length < VPNS := mappages_inside (by omega) mapped
      cases result with
      | false =>
        obtain ⟨m₂, freed, rest⟩ := bind_ok rest
        obtain ⟨⟨size', m₃⟩, dealloc, rest⟩ := bind_ok rest
        cases rest
        obtain ⟨added', grants⟩ := took.returns table inside mapped freed
        exact .inr ⟨rfl, (filled.keep grants).dealloc ok (fun _ => bits) dealloc⟩
      | true =>
        obtain ⟨added', grants, free, kept⟩ := took.grants table inside mapped
        rw [mappedPte_page, userFlags_eq] at grants
        rw [clear_mem_self] at kept
        have zeroed' := zeroed.extend filled ok grants.frame kept
        have more := filled.extend grants free inside took.aligned
        have length : (data ++ [m.kalloc.1]).length = data.length + 1 := by
          rw [List.length_append]
          rfl
        have next := ih more zeroed' (by rw [pageAddr_succ, length, Nat.add_assoc])
          (by rw [length]; omega) rest
        refine next.imp_left ?_
        rintro ⟨same, added'', data'', total, final, zeroed''⟩
        exact ⟨same, added'', data'', by rw [total, length]; omega, final, zeroed''⟩

theorem uvmalloc_cases {oldsz : Word} (owns : Owns m S) (ok : TableOk m S pt)
    (inside : oldsz.toNat ≤ 2 ^ 38) (ran : uvmalloc m pt oldsz newsz = .ok (size, m')) :
    (newsz < oldsz ∧ size = oldsz ∧ m' = m) ∨
    (oldsz ≤ newsz ∧ size = newsz ∧ ∃ added data,
      data.length = pagesBelow newsz - pagesBelow oldsz ∧
        Filled m m' S pt (pagesBelow oldsz) (fun _ => userFlags) added data ∧ Zeroed m' data) ∨
    (oldsz ≤ newsz ∧ size = 0 ∧ Unchanged m m' S pt) := by
  unfold uvmalloc at ran
  split at ran
  · rename_i smaller
    cases ran
    exact .inl ⟨smaller, rfl, rfl⟩
  · rename_i larger
    have ordered : oldsz ≤ newsz := BitVec.not_lt.mp larger
    have low := pagesBelow_le inside
    simp only [pgroundup_pageAddr inside] at ran
    have rounds : (newsz.toNat - (pageAddr (pagesBelow oldsz)).toNat + PGSIZE.toNat - 1) /
        PGSIZE.toNat = pagesBelow newsz - pagesBelow oldsz := by
      rw [pageAddr_toNat low, pgsize_toNat]
      unfold pagesBelow
      omega
    rw [rounds] at ran
    have small : pagesBelow oldsz + 0 + (pagesBelow newsz - pagesBelow oldsz) ≤ 2 ^ 52 := by
      unfold pagesBelow VPNS at *
      omega
    have nothing : Zeroed m [] := fun x listed => by cases listed
    rcases uvmallocLoop_filled ok (Filled.start owns pt low _) nothing rfl small ran with
      ⟨same, added, data, length, filled, zeroed⟩ | ⟨zero, unchanged⟩
    · refine .inr (.inl ⟨ordered, same, added, data, ?_, filled, zeroed⟩)
      rw [length]
      exact Nat.zero_add _
    · exact .inr (.inr ⟨ordered, zero, unchanged⟩)

theorem Filled.unmap (filled : Filled m₀ m S pt 0 flags added data)
    (ok : TableOk m₀ S pt) (small : ∀ i, (flags i).toNat < 1024)
    (ran : uvmunmap m pt 0 (pageAddr data.length / PGSIZE) true = .ok m') :
    Unchanged m₀ m' S pt := by
  have inside : data.length ≤ VPNS := by
    have bound := filled.inside
    omega
  have count : (pageAddr data.length / PGSIZE).toNat = data.length := by
    rw [BitVec.toNat_udiv, pageAddr_toNat inside, pgsize_toNat]
    omega
  have pages := filled.pages small
  have start : vpn 0 = 0 := rfl
  obtain ⟨unmaps, -⟩ := uvmunmap_unmaps filled.grants.owns (filled.grants.tableOk ok) (by
    rw [count]
    unfold VPNS at inside
    change 0 + data.length * 4096 ≤ _
    omega) (by
    rw [count, start, pages]
    exact filled.releasable ok) ran
  rw [count, start, pages] at unmaps
  exact ⟨added, filled.unwind unmaps⟩

def flagsAt (entries : Nat → Option Word) (u : Nat) : Word := PTE_FLAGS ((entries u).getD 0)

theorem pte_flags_small (pte : Word) : (PTE_FLAGS pte).toNat < 1024 := by
  have mask : (0x3FF : Word).toNat = 2 ^ 10 - 1 := rfl
  rw [PTE_FLAGS, BitVec.toNat_and, mask, Nat.and_two_pow_sub_one_eq_mod]
  omega

theorem pte_flags_valid (pte : Word) : PTE_FLAGS pte &&& PTE_V = pte &&& PTE_V := by
  have bits : (0x3FF : Word) &&& PTE_V = PTE_V := by decide
  rw [PTE_FLAGS, BitVec.and_assoc, bits]

theorem valid_bits : ∀ i < 64, PTE_V.getLsbD i = decide (i = 0) := by decide

theorem or_valid {w : Word} (valid : w &&& PTE_V ≠ 0) : w ||| PTE_V = w := by
  have bit : w.getLsbD 0 = true := by
    by_contra clear
    refine valid (BitVec.eq_of_getLsbD_eq fun i inside => ?_)
    rw [BitVec.getLsbD_and, valid_bits i inside]
    by_cases low : i = 0
    · rw [low, Bool.eq_false_iff.mpr clear]
      rfl
    · simp [low]
  refine BitVec.eq_of_getLsbD_eq fun i inside => ?_
  rw [BitVec.getLsbD_or, valid_bits i inside]
  by_cases low : i = 0
  · rw [low, bit]
    rfl
  · simp [low]

theorem copied_flags {pte : Word} (valid : pte &&& PTE_V ≠ 0) :
    ((PTE_FLAGS pte).setWidth 32).signExtend 64 ||| PTE_V = PTE_FLAGS pte := by
  have bound := pte_flags_small pte
  have narrow : ((PTE_FLAGS pte).setWidth 32).toNat = (PTE_FLAGS pte).toNat := by
    rw [BitVec.toNat_setWidth]
    omega
  have positive : ((PTE_FLAGS pte).setWidth 32).msb = false := by
    rw [BitVec.msb_eq_false_iff_two_mul_lt, narrow]
    omega
  have wide : ((PTE_FLAGS pte).setWidth 32).signExtend 64 = PTE_FLAGS pte := by
    apply BitVec.eq_of_toNat_eq
    rw [BitVec.signExtend_eq_setWidth_of_msb_false positive, BitVec.toNat_setWidth, narrow]
    omega
  rw [wide]
  exact or_valid (by rw [pte_flags_valid]; exact valid)

/-- The pages have the contents of the pages `src`, where the loop does not write to those. -/
def Copied (m₀ m : Machine K) (S : Set Word) (new : Word) (src : Nat → Word) (data : List Word) : Prop :=
  ∀ i, i < data.length → src i ∉ S → src i ∉ tables m₀.mem new →
    m.mem (data.getD i 0) = m₀.mem (src i)

theorem Copied.later (copied : Copied m₀ m S new src data)
    (filled : Filled m₀ m S new 0 flags added data) (ok : TableOk m₀ S new)
    (frame : ∀ x, x ∉ tables m.mem new → x ∉ S \ {x | x ∈ added ++ data} → m'.mem x = m.mem x) :
    Copied m₀ m' S new src data := by
  intro i below taken away
  have able := filled.releasable ok
  have listed : data.getD i 0 ∈ data := by
    rw [List.getD_eq_getElem _ _ below]
    exact List.getElem_mem below
  rw [frame _ (able.away _ listed) (able.taken _ listed)]
  exact copied i below taken away

omit [Allocator K] [LawfulAllocator K] in
theorem Copied.extend (copied : Copied m₀ m S new src data)
    (last : src data.length ∉ S → src data.length ∉ tables m₀.mem new →
      m.mem p = m₀.mem (src data.length)) : Copied m₀ m S new src (data ++ [p]) := by
  intro i below taken away
  rw [List.length_append] at below
  change i < data.length + 1 at below
  by_cases here : i = data.length
  · rw [here] at taken away ⊢
    rw [List.getD_append_right _ _ _ _ (Nat.le_refl _), Nat.sub_self]
    exact last taken away
  · have old : i < data.length := by omega
    rw [List.getD_append _ _ _ _ old]
    exact copied i old taken away

theorem Grants.other {other : Word} (grants : Grants m₀ m S pt added data entries)
    (ok : TableOk m₀ S other)
    (apart : ∀ x ∈ Paging.tables m₀.mem other, x ∉ Paging.tables m₀.mem pt) :
    TableOk m (S \ {x | x ∈ added ++ data}) other ∧
      Paging.tables m.mem other = Paging.tables m₀.mem other ∧ pteAt m.mem other = pteAt m₀.mem other :=
  ok.outside _ (fun x listed => grants.frame x (apart x listed) (ok.apart x listed))
    fun x listed inside => ok.apart x listed inside.1

theorem Filled.copyPage {old w : Word}
    (filled : Filled m₀ m S new 0 (flagsAt (pteAt m₀.mem old)) added data)
    (copied : Copied m₀ m S new (fun u => PTE2PA ((pteAt m₀.mem old u).getD 0)) data)
    (ok : TableOk m₀ S new) (entry : pteAt m₀.mem old data.length = some w)
    (valid : w &&& PTE_V ≠ 0) (got : m.kalloc.1 ≠ 0) (below : 0 + data.length < VPNS)
    (mapped : mappages (m.kalloc.2.copy m.kalloc.1 (PTE2PA w)) new (pageAddr (0 + data.length)) PGSIZE
      m.kalloc.1 ((PTE_FLAGS w).setWidth 32) = .ok (true, m')) :
    ∃ added', Filled m₀ m' S new 0 (flagsAt (pteAt m₀.mem old)) (added' ++ added)
        (data ++ [m.kalloc.1]) ∧
      Copied m₀ m' S new (fun u => PTE2PA ((pteAt m₀.mem old u).getD 0)) (data ++ [m.kalloc.1]) := by
  have owns := filled.grants.owns
  have took := took_copy owns got (PTE2PA w)
  obtain ⟨added', grants, free, kept⟩ := took.grants (filled.grants.tableOk ok) below mapped
  have flags : flagsAt (pteAt m₀.mem old) data.length = PTE_FLAGS w := by
    rw [flagsAt, entry, Option.getD_some]
  rw [mappedPte_page, copied_flags valid, ← flags] at grants
  refine ⟨added', filled.extend grants free below took.aligned, ?_⟩
  refine (copied.later filled ok grants.frame).extend fun taken away => ?_
  have source : PTE2PA ((pteAt m₀.mem old data.length).getD 0) = PTE2PA w := by
    rw [entry, Option.getD_some]
  rw [source] at taken away ⊢
  have differ : PTE2PA w ≠ m.kalloc.1 := by
    intro equal
    rw [equal] at taken
    exact taken took.had.1
  obtain ⟨-, -, -, others⟩ := kalloc_page owns got
  have filling : (m.kalloc.2.copy m.kalloc.1 (PTE2PA w)).mem m.kalloc.1 =
      m.kalloc.2.mem (PTE2PA w) := update_self _ _ _
  rw [kept, filling, others _ differ, filled.grants.frame _ away taken]

theorem uvmcopyLoop_filled {old i : Word} {rounds : Nat} (ok : TableOk m₀ S new)
    (parent : TableOk m₀ S old) (apart : ∀ x ∈ tables m₀.mem old, x ∉ tables m₀.mem new)
    (filled : Filled m₀ m S new 0 (flagsAt (pteAt m₀.mem old)) added data)
    (copied : Copied m₀ m S new (fun u => PTE2PA ((pteAt m₀.mem old u).getD 0)) data)
    (here : i = pageAddr data.length)
    (ran : uvmcopyLoop old new rounds m i = .ok (result, m')) :
    (result = true ∧ ∃ added' data', data'.length = data.length + rounds ∧
      Filled m₀ m' S new 0 (flagsAt (pteAt m₀.mem old)) added' data' ∧
      Copied m₀ m' S new (fun u => PTE2PA ((pteAt m₀.mem old u).getD 0)) data' ∧
      ∀ u, data.length ≤ u → u < data'.length → (pteAt m₀.mem old u).isSome = true) ∨
    (result = false ∧ Unchanged m₀ m' S new) := by
  induction rounds generalizing m added data i with
  | zero =>
    cases ran
    exact .inl ⟨rfl, added, data, rfl, filled, copied, fun u low high => by omega⟩
  | succ rounds ih =>
    have owns := filled.grants.owns
    have table := filled.grants.tableOk ok
    have top : data.length ≤ VPNS := by
      have bound := filled.inside
      omega
    have bits : ∀ i, (flagsAt (pteAt m₀.mem old) i).toNat < 1024 := fun _ => pte_flags_small _
    obtain ⟨-, -, same⟩ := filled.grants.other parent apart
    rw [here] at ran
    obtain ⟨⟨found, m₁⟩, walked, rest⟩ := bind_ok ran
    obtain ⟨rfl, inside, known⟩ := walk_find walked
    rw [vpn_pageAddr top] at inside known
    cases found with
    | none => cases rest
    | some pte =>
      obtain ⟨leaf, found, point⟩ := Option.map_eq_some_iff.mp known.symm
      simp only at rest
      split at rest
      · cases rest
      · rename_i valid
        rw [← point] at valid rest
        have entry := load_found found
        rw [entry_valid valid, same] at entry
        split at rest
        · rename_i null
          obtain ⟨m₂, unmapped, rest⟩ := bind_ok rest
          cases rest
          have kept := filled.keep (kalloc_null_grants owns null new)
          exact .inr ⟨rfl, kept.unmap ok bits unmapped⟩
        · rename_i got
          have took := took_copy owns got (PTE2PA (m₁.load (leaf, indices data.length 0)))
          obtain ⟨⟨result', m₂⟩, mapped, rest⟩ := bind_ok rest
          have below : 0 + data.length < VPNS := by omega
          have address : pageAddr data.length = pageAddr (0 + data.length) := by rw [Nat.zero_add]
          rw [address] at mapped
          cases result' with
          | false =>
            obtain ⟨m₃, freed, rest⟩ := bind_ok rest
            obtain ⟨m₄, unmapped, rest⟩ := bind_ok rest
            cases rest
            obtain ⟨added', grants⟩ := took.returns table below mapped freed
            exact .inr ⟨rfl, (filled.keep grants).unmap ok bits unmapped⟩
          | true =>
            obtain ⟨added', more, contents⟩ := filled.copyPage copied ok entry valid got below mapped
            have length : (data ++ [m₁.kalloc.1]).length = data.length + 1 := by
              rw [List.length_append]
              rfl
            have next := ih more contents (by rw [pageAddr_succ, length]) rest
            refine next.imp_left ?_
            rintro ⟨done, added'', data'', total, final, same', mapped'⟩
            refine ⟨done, added'', data'', by rw [total, length]; omega, final, same', ?_⟩
            intro u low high
            by_cases now : u = data.length
            · rw [now, entry]
              rfl
            · exact mapped' u (by rw [length]; omega) high

theorem uvmcopy_cases {old sz : Word} (owns : Owns m S) (ok : TableOk m S new)
    (parent : TableOk m S old) (apart : ∀ x ∈ tables m.mem old, x ∉ tables m.mem new)
    (ran : uvmcopy m old new sz = .ok (result, m')) :
    (result = true ∧ ∃ added data, data.length = pagesBelow sz ∧
      Filled m m' S new 0 (flagsAt (pteAt m.mem old)) added data ∧
      Copied m m' S new (fun u => PTE2PA ((pteAt m.mem old u).getD 0)) data ∧
      ∀ u, u < pagesBelow sz → (pteAt m.mem old u).isSome = true) ∨
    (result = false ∧ Unchanged m m' S new) := by
  have rounds : (sz.toNat + PGSIZE.toNat - 1) / PGSIZE.toNat = pagesBelow sz := by
    rw [pgsize_toNat]
    unfold pagesBelow
    omega
  unfold uvmcopy at ran
  have start := Filled.start owns new (Nat.zero_le VPNS) (flagsAt (pteAt m.mem old))
  have nothing : Copied m m S new (fun u => PTE2PA ((pteAt m.mem old u).getD 0)) [] :=
    fun i below => by cases below
  refine (uvmcopyLoop_filled ok parent apart start nothing rfl ran).imp_left ?_
  rintro ⟨done, added, data, length, filled, copied, mapped⟩
  have total : data.length = pagesBelow sz := length.trans (Nat.zero_add _)
  refine ⟨done, added, data, total, filled, copied, fun u below => ?_⟩
  exact mapped u (Nat.zero_le u) (by rw [total]; exact below)

end Loops

end OsbKernel.Paging
