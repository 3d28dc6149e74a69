import OsbKernel.Vm.FreeRange
import OsbKernel.Vm.Spaces

/-!
# Making and freeing address spaces

`proc_pagetable` makes an address space without user pages, or takes nothing;
`proc_freepagetable` gives back all pages of an address space.
-/

namespace OsbKernel.Paging

open Function FreeRadix ExceptBind LawfulAllocator RamAllocator

variable {K : Type} [Allocator K] [LawfulAllocator K] [RamAllocator K] {m m' : Machine K}
  {S : Set Word} {trampoline trapframe pt sz : Word} {v : Nat}

theorem trampoline_pageAddr : TRAMPOLINE = pageAddr (VPNS - 1) := by decide

theorem trapframe_pageAddr : TRAPFRAME = pageAddr (VPNS - 2) := by decide

theorem unmap_one (owns : Owns m S) (ok : TableOk m S pt) (below : v < VPNS)
    (leaf : Leaf K false (pteAt m.mem pt v)) :
    ∃ m', uvmunmap m pt (pageAddr v) 1 false = .ok m' ∧
      Unmaps m m' S pt [] (update (pteAt m.mem pt) v none) := by
  have address := pageAddr_toNat below.le
  have number := vpn_pageAddr below.le
  have one : (1 : Word).toNat = 1 := rfl
  have inside : (pageAddr v).toNat + (1 : Word).toNat * 4096 ≤ 2 ^ 38 := by
    unfold VPNS at below
    omega
  have able : Releasable S (tables m.mem pt)
      (released false (pagesFrom (pteAt m.mem pt) (vpn (pageAddr v)) (1 : Word).toNat)) :=
    ⟨List.nodup_nil, fun _ listed => absurd listed List.not_mem_nil,
      fun _ listed => absurd listed List.not_mem_nil⟩
  have returns : ∃ m', uvmunmap m pt (pageAddr v) 1 false = .ok m' := by
    refine uvmunmap_some owns ok (by rw [address]; omega) inside able ?_
    intro u low high
    have only : u = v := by omega
    rw [only]
    exact leaf
  obtain ⟨m', ran⟩ := returns
  obtain ⟨unmaps, -⟩ := uvmunmap_unmaps owns ok inside able ran
  refine ⟨m', ran, unmaps.tables, unmaps.owns, unmaps.frame, fun u small => ?_, unmaps.tidy⟩
  rw [unmaps.entries u small, unbindPages]
  by_cases here : u = v
  · rw [here, update_self, if_pos (by omega)]
  · rw [update_of_ne here, if_neg (by omega)]

theorem indices_join {path : Nat → Nat} (inside : ∀ k, path k < 512) :
    ∀ k ≤ 2, indices (path 0 + 512 * path 1 + 512 ^ 2 * path 2) k = path k := by
  intro k below
  have low := inside 0
  have mid := inside 1
  have high := inside 2
  obtain rfl | rfl | rfl : k = 0 ∨ k = 1 ∨ k = 2 := by omega
  all_goals
    unfold indices
    omega

theorem freewalk_table (owns : Owns m S) (ok : TableOk m S pt) (tidy : Tidy m.mem pt)
    (ram : ∀ x ∈ tables m.mem pt, Ram K x)
    (none : ∀ u < VPNS, pteAt m.mem pt u = none) :
    ∃ m', freewalk 3 m pt = .ok m' ∧ Freed m m' S (tables m.mem pt) := by
  refine freewalk_frees owns ok.nodup ok.apart ram tidy.linked (Format.bare_of_lookup ?_)
  intro path inside
  have number := indices_join inside
  have low := inside 0
  have mid := inside 1
  have high := inside 2
  change _ < 512 at low mid high
  have known : pteAt m.mem pt (path 0 + 512 * path 1 + 512 ^ 2 * path 2) = .none := by
    by_cases below : path 0 + 512 * path 1 + 512 ^ 2 * path 2 < VPNS
    · exact none _ below
    · exact tidy.upper _ (Nat.not_lt.mp below) (by omega)
  rw [← known]
  exact Format.lookup_path fun k below => (number k below).symm

theorem uvmfree_space (owns : Owns m S) (ok : TableOk m S pt) (tidy : Tidy m.mem pt)
    (ram : ∀ x ∈ tables m.mem pt, Ram K x) (small : sz.toNat ≤ 2 ^ 38)
    (able : Releasable S (tables m.mem pt)
      (pagesFrom (pteAt m.mem pt) 0 (pagesBelow sz)))
    (leaves : ∀ u < pagesBelow sz, Leaf K true (pteAt m.mem pt u))
    (none : ∀ u < VPNS, pagesBelow sz ≤ u → pteAt m.mem pt u = none) :
    ∃ m', uvmfree m pt sz = .ok m' ∧ Freed m m' S (footprint m.mem pt sz) := by
  have high := pagesBelow_le small
  have pages : ∃ m₁, uvmfreePages m pt sz = .ok m₁ ∧
      Unmaps m m₁ S pt (pagesFrom (pteAt m.mem pt) 0 (pagesBelow sz))
        (unbindPages (pteAt m.mem pt) 0 (pagesBelow sz)) := by
    unfold uvmfreePages
    by_cases positive : 0 < sz
    · rw [if_pos positive, pgroundup_pageAddr small]
      have count : (pageAddr (pagesBelow sz) / PGSIZE).toNat = pagesBelow sz := by
        rw [BitVec.toNat_udiv, pageAddr_toNat high, pgsize_toNat]
        omega
      have start : vpn 0 = 0 := rfl
      have inside : (0 : Word).toNat + (pageAddr (pagesBelow sz) / PGSIZE).toNat * 4096 ≤ 2 ^ 38 := by
        rw [count]
        unfold VPNS at high
        change 0 + pagesBelow sz * 4096 ≤ _
        omega
      have able' : Releasable S (tables m.mem pt) (released true
          (pagesFrom (pteAt m.mem pt) (vpn 0) (pageAddr (pagesBelow sz) / PGSIZE).toNat)) := by
        rw [start, count]
        exact able
      have returns : ∃ m₁, uvmunmap m pt 0 (pageAddr (pagesBelow sz) / PGSIZE) true =
          .ok m₁ := by
        refine uvmunmap_some owns ok rfl inside able' ?_
        intro u _ below
        rw [start, count] at below
        exact leaves u (by omega)
      obtain ⟨m₁, ran⟩ := returns
      obtain ⟨unmaps, -⟩ := uvmunmap_unmaps owns ok inside able' ran
      rw [start, count] at unmaps
      exact ⟨m₁, ran, unmaps⟩
    · have zero : pagesBelow sz = 0 := by
        change ¬ 0 < sz.toNat at positive
        unfold pagesBelow
        omega
      rw [if_neg positive, zero]
      exact ⟨m, rfl, Unmaps.refl owns pt 0⟩
  obtain ⟨m₁, ran, unmaps⟩ := pages
  have walked := freewalk_table unmaps.owns (unmaps.tableOk ok able.away) (unmaps.tidy tidy)
    (fun x listed => ram x (unmaps.tables.mem_iff.mp listed)) (by
      intro u below
      rw [unmaps.entries u below, unbindPages]
      by_cases gone : 0 ≤ u ∧ u < 0 + pagesBelow sz
      · rw [if_pos gone]
      · rw [if_neg gone]
        exact none u below (by omega))
  obtain ⟨m₂, freed, done⟩ := walked
  refine ⟨m₂, ?_, ?_, ?_⟩
  · unfold uvmfree
    rw [bind_eq ran]
    exact freed
  · refine cast (congrArg (Owns m₂) ?_) done.owns
    ext x
    simp only [footprint, Set.mem_union, Set.mem_ofPred_eq, List.mem_append, unmaps.tables.mem_iff]
    rw [or_assoc, or_comm (b := x ∈ tables m.mem pt)]
  · intro x kept
    rw [footprint, List.mem_append, not_or] at kept
    rw [done.frame x fun listed => kept.1 (unmaps.tables.mem_iff.mp listed),
      unmaps.frame x kept.1 kept.2]

omit [RamAllocator K] in
theorem Freed.exchange {pages : List Word} (freed : Freed m m' S pages) :
    Exchange m m' S (S ∪ {x | x ∈ pages}) pages [] := by
  refine ⟨freed.owns, ?_, fun x listed => absurd listed List.not_mem_nil,
    fun x _ notOwned => freed.frame x notOwned⟩
  simp

theorem procFreepagetable_space (owns : Owns m S)
    (space : Space m trampoline trapframe pt sz)
    (apart : ∀ x ∈ footprint m.mem pt sz, x ∉ S) :
    ∃ m', procFreepagetable m pt sz = .ok m' ∧
      Exchange m m' S (S ∪ {x | x ∈ footprint m.mem pt sz}) (footprint m.mem pt sz) [] := by
  have ok := space.tableOk apart
  have able := space.releasable apart
  have size := space.size
  have top : VPNS = 2 ^ 26 := rfl
  have same : S ∪ {x | x ∈ ([] : List Word)} = S := by simp
  obtain ⟨m₁, first, code⟩ := unmap_one owns ok (by omega : VPNS - 1 < VPNS)
    ⟨_, space.code, by rw [trampolinePte, pte_flags_pte (by decide)]; decide, fun known => absurd known Bool.false_ne_true⟩
  have owns₁ := code.owns
  have ok₁ := code.tableOk ok fun x listed => absurd listed List.not_mem_nil
  rw [same] at owns₁ ok₁
  have entry : pteAt m₁.mem pt (VPNS - 2) = some (trapframePte trapframe) := by
    rw [code.entries _ (by omega), update_of_ne (by omega), space.frame]
  obtain ⟨m₂, second, frame⟩ := unmap_one owns₁ ok₁ (by omega : VPNS - 2 < VPNS)
    ⟨_, entry, by rw [trapframePte, pte_flags_pte (by decide)]; decide, fun known => absurd known Bool.false_ne_true⟩
  have owns₂ := frame.owns
  have ok₂ := frame.tableOk ok₁ fun x listed => absurd listed List.not_mem_nil
  rw [same] at owns₂ ok₂
  have shape := frame.tables.trans code.tables
  have low : ∀ u < VPNS, u < VPNS - 2 → pteAt m₂.mem pt u = pteAt m.mem pt u := by
    intro u below outside
    rw [frame.entries u below, update_of_ne (by omega), code.entries u below, update_of_ne (by omega)]
  have data : pagesFrom (pteAt m₂.mem pt) 0 (pagesBelow sz) =
      pagesFrom (pteAt m.mem pt) 0 (pagesBelow sz) :=
    pagesFrom_congr fun u _ high => low u (by omega) (by omega)
  have pages : (footprint m₂.mem pt sz).Perm (footprint m.mem pt sz) := by
    rw [footprint, footprint, data]
    exact shape.append_right _
  have freed := uvmfree_space owns₂ ok₂ (frame.tidy (code.tidy space.tidy))
    (fun x listed => space.ram x (List.mem_append_left _ (shape.mem_iff.mp listed)))
    (by unfold pagesBelow at size; omega : sz.toNat ≤ 2 ^ 38) (by
      rw [data]
      exact able.perm shape) (by
      intro u below
      rw [low u (by omega) (by omega)]
      exact space.leaf below) (by
      intro u below above
      by_cases outside : u < VPNS - 2
      · rw [low u below outside]
        exact space.gap u above outside
      · obtain rfl | rfl : u = VPNS - 2 ∨ u = VPNS - 1 := by omega
        · rw [frame.entries _ below, update_self]
        · rw [frame.entries _ below, update_of_ne (by omega), code.entries _ below, update_self])
  obtain ⟨m₃, third, done⟩ := freed
  refine ⟨m₃, ?_, ?_⟩
  · unfold procFreepagetable
    rw [trampoline_pageAddr, trapframe_pageAddr, bind_eq first, bind_eq second]
    exact third
  · have exchange := done.exchange
    refine ⟨?_, ?_, fun x listed => absurd listed List.not_mem_nil, ?_⟩
    · refine cast (congrArg (Owns m₃) ?_) exchange.owns
      ext x
      simp only [Set.mem_union, Set.mem_ofPred_eq, pages.mem_iff]
    · simp
    · intro x _ notOwned
      have away : x ∉ tables m.mem pt := fun table => notOwned (List.mem_append_left _ table)
      rw [done.frame x fun listed => notOwned (pages.mem_iff.mp listed),
        frame.frame x (fun table => away (code.tables.mem_iff.mp table)) List.not_mem_nil,
        code.frame x away List.not_mem_nil]

omit [RamAllocator K] in
theorem uvmcreate_empty (owns : Owns m S) {pt : Word}
    (made : (uvmcreate m).1 = some pt) :
    let m' := (uvmcreate m).2
    pt ∈ S ∧ Owns m' (S \ {pt}) ∧ (∀ x, x ≠ pt → m'.mem x = m.mem x) ∧
      tables m'.mem pt = [pt] ∧ Tidy m'.mem pt ∧
      ∀ v, pteAt m'.mem pt v = none := by
  unfold uvmcreate at made ⊢
  by_cases null : m.kalloc.1 = 0
  · simp only [if_pos null] at made
    cases made
  · simp only [if_neg null] at made ⊢
    cases made
    have took := took_clear owns null
    have empty : ∀ k, format.valid ((m.kalloc.2.clear m.kalloc.1).mem m.kalloc.1 k) = false := by
      intro k
      rw [clear_mem_self]
      exact invalid_iff.mpr zero_invalid
    have none : ∀ v, pteAt (m.kalloc.2.clear m.kalloc.1).mem m.kalloc.1 v = none :=
      fun v => Format.lookup_of_empty empty
    exact ⟨took.had, took.owns, took.others, Format.nodes_of_empty empty,
      ⟨Format.linked_of_empty empty, fun v _ _ => none v⟩, none⟩

omit [RamAllocator K] in
theorem uvmcreate_null (owns : Owns m S) (failed : (uvmcreate m).1 = none) :
    Owns (uvmcreate m).2 S ∧ (uvmcreate m).2.mem = m.mem := by
  unfold uvmcreate at failed ⊢
  by_cases null : m.kalloc.1 = 0
  · simp only [if_pos null]
    exact kalloc_null owns null
  · simp only [if_neg null] at failed
    cases failed

omit [RamAllocator K] in
theorem Changes.exchange {added : List Word} {entries : Nat → Option Word}
    (changes : Changes m m' S pt added entries) (ok : TableOk m S pt) :
    Exchange m m' S (S \ {x | x ∈ added}) (Paging.tables m.mem pt)
      (Paging.tables m'.mem pt) := by
  refine ⟨changes.owns, ?_, (changes.tableOk ok).apart, ?_⟩
  · intro x
    rw [changes.tables.mem_iff, List.mem_append]
    constructor
    · rintro (free | new | old)
      · exact .inl free.1
      · exact .inl (changes.fresh x new)
      · exact .inr old
    · rintro (free | old)
      · by_cases new : x ∈ added
        · exact .inr (.inl new)
        · exact .inl ⟨free, new⟩
      · exact .inr (.inr old)
  · intro x notFree notTable
    exact changes.frame x notTable fun new => notFree (changes.fresh x new)

omit [RamAllocator K] in
theorem Unmaps.exchange {entries : Nat → Option Word}
    (unmaps : Unmaps m m' S pt [] entries) (ok : TableOk m S pt) :
    Exchange m m' S S (Paging.tables m.mem pt) (Paging.tables m'.mem pt) := by
  have same : S ∪ {x | x ∈ ([] : List Word)} = S := by simp
  have owns := unmaps.owns
  have ok' := unmaps.tableOk ok fun x listed => absurd listed List.not_mem_nil
  rw [same] at owns ok'
  refine ⟨owns, fun x => ?_, ok'.apart, fun x _ notTable => unmaps.frame x notTable List.not_mem_nil⟩
  rw [unmaps.tables.mem_iff]

/-- A page table on the way to an address space: its pages were free before. -/
structure Young (m m' : Machine K) (S S' : Set Word) (pt : Word)
    (entries : Nat → Option Word) : Prop where
  exchange : Exchange m m' S S' [] (tables m'.mem pt)
  ok : TableOk m' S' pt
  tidy : Tidy m'.mem pt
  entries : ∀ v < VPNS, pteAt m'.mem pt v = entries v

variable {S' : Set Word} {entries : Nat → Option Word}

omit [RamAllocator K] in
theorem Young.mappages (young : Young m m' S S' pt entries) (below : v < VPNS)
    (free : entries v = none) (pa : Word) (perm : BitVec 32) :
    ∃ result m'' S'', Paging.mappages m' pt (pageAddr v) PGSIZE pa perm = .ok (result, m'') ∧
      Young m m'' S S'' pt
        (if result then update entries v (some (mappedPte pa perm 0)) else entries) := by
  have owns := young.exchange.owns
  obtain ⟨result, m'', ran⟩ := mappages_some owns young.ok below
    (by rw [young.entries v below]; exact free) pa perm
  obtain ⟨added, changes, -⟩ := mappages_page owns young.ok below ran
  refine ⟨result, m'', _, ran, young.exchange.trans (changes.exchange young.ok),
    changes.tableOk young.ok, changes.tidy young.tidy, fun u small => ?_⟩
  rw [changes.entries u small]
  cases result with
  | false => exact young.entries u small
  | true =>
    simp only [if_true]
    by_cases here : u = v
    · rw [here, update_self, update_self]
    · rw [update_of_ne here, update_of_ne here, young.entries u small]

theorem Young.uvmfree (owns : Owns m S) (young : Young m m' S S' pt entries)
    (none : ∀ v < VPNS, entries v = none) :
    ∃ m'', Paging.uvmfree m' pt 0 = .ok m'' ∧ Exchange m m'' S S [] [] := by
  have zero : pagesBelow 0 = 0 := rfl
  have nothing : pagesFrom (pteAt m'.mem pt) 0 (pagesBelow 0) = [] := rfl
  have shape : footprint m'.mem pt 0 = tables m'.mem pt := by
    rw [footprint, nothing, List.append_nil]
  have freed := uvmfree_space young.exchange.owns young.ok young.tidy
    (fun x listed => by
      rcases (young.exchange.conserve x).mp (.inr listed) with free | impossible
      · exact owned owns free
      · exact absurd impossible List.not_mem_nil)
    (by decide : (0 : Word).toNat ≤ 2 ^ 38)
    (by
      exact ⟨List.nodup_nil, fun _ listed => absurd listed List.not_mem_nil,
        fun _ listed => absurd listed List.not_mem_nil⟩)
    (fun u below => absurd below (by rw [zero]; exact Nat.not_lt_zero u))
    (fun u below _ => by rw [young.entries u below]; exact none u below)
  obtain ⟨m'', ran, done⟩ := freed
  rw [shape] at done
  have exchange := young.exchange.trans done.exchange
  have same := exchange.nothing
  rw [same] at exchange
  exact ⟨m'', ran, exchange⟩

theorem Young.unmap (young : Young m m' S S' pt (update (fun _ => none) (VPNS - 1)
      (some (trampolinePte trampoline)))) :
    ∃ m'', uvmunmap m' pt (pageAddr (VPNS - 1)) 1 false = .ok m'' ∧
      Young m m'' S S' pt fun _ => none := by
  have below : VPNS - 1 < VPNS := by decide
  have entry : pteAt m'.mem pt (VPNS - 1) = some (trampolinePte trampoline) := by
    rw [young.entries _ below, update_self]
  obtain ⟨m'', ran, unmaps⟩ := unmap_one young.exchange.owns young.ok below
    ⟨_, entry, by rw [trampolinePte, pte_flags_pte (by decide)]; decide, fun known => absurd known Bool.false_ne_true⟩
  have exchange := unmaps.exchange young.ok
  refine ⟨m'', ran, young.exchange.trans exchange, ⟨?_, exchange.apart⟩, unmaps.tidy young.tidy, ?_⟩
  · rw [unmaps.tables.nodup_iff]
    exact young.ok.nodup
  · intro u small
    rw [unmaps.entries u small]
    by_cases here : u = VPNS - 1
    · rw [here, update_self]
    · rw [update_of_ne here, young.entries u small, update_of_ne here]

theorem Young.space (owns : Owns m S) (young : Young m m' S S' pt
      (update (update (fun _ => none) (VPNS - 1) (some (trampolinePte trampoline))) (VPNS - 2)
        (some (trapframePte trapframe)))) :
    Space m' trampoline trapframe pt 0 ∧ Exchange m m' S S' [] (footprint m'.mem pt 0) := by
  have top : VPNS = 2 ^ 26 := rfl
  have zero : pagesBelow 0 = 0 := rfl
  have nothing : pagesFrom (pteAt m'.mem pt) 0 (pagesBelow 0) = [] := rfl
  have shape : footprint m'.mem pt 0 = tables m'.mem pt := by
    rw [footprint, nothing, List.append_nil]
  have none : ∀ u, ¬ u < pagesBelow 0 := fun u below => Nat.not_lt_zero u (zero ▸ below)
  refine ⟨⟨young.tidy, ?_, ?_, fun u below => absurd below (none u),
    fun u below => absurd below (none u), ?_, ?_, ?_⟩, ?_⟩
  · rw [shape]
    exact young.ok.nodup
  · rw [shape]
    intro x listed
    rcases (young.exchange.conserve x).mp (.inr listed) with free | impossible
    · exact owned owns free
    · exact absurd impossible List.not_mem_nil
  · intro u _ high
    rw [young.entries u (by omega), update_of_ne (by omega), update_of_ne (by omega)]
  · rw [young.entries _ (by omega), update_self]
  · rw [young.entries _ (by omega), update_of_ne (by omega), update_self]
  · rw [shape]
    exact young.exchange

theorem trampoline_mapped (pa : Word) :
    mappedPte pa ((PTE_R ||| PTE_X).setWidth 32) 0 = trampolinePte pa := by
  have flags : ((PTE_R ||| PTE_X).setWidth 32 : BitVec 32).signExtend 64 ||| PTE_V =
      PTE_R ||| PTE_X ||| PTE_V := by decide
  rw [mappedPte_page, flags, trampolinePte]

theorem trapframe_mapped (pa : Word) :
    mappedPte pa ((PTE_R ||| PTE_W).setWidth 32) 0 = trapframePte pa := by
  have flags : ((PTE_R ||| PTE_W).setWidth 32 : BitVec 32).signExtend 64 ||| PTE_V =
      PTE_R ||| PTE_W ||| PTE_V := by decide
  rw [mappedPte_page, flags, trapframePte]

theorem procPagetable_space (owns : Owns m S) (trampoline trapframe : Word) :
    ∃ result m', procPagetable m trampoline trapframe = .ok (result, m') ∧
      ((result = none ∧ Exchange m m' S S [] []) ∨
        ∃ pt S', result = some pt ∧ Space m' trampoline trapframe pt 0 ∧
          Exchange m m' S S' [] (footprint m'.mem pt 0)) := by
  have top : VPNS = 2 ^ 26 := rfl
  unfold procPagetable
  rw [trampoline_pageAddr, trapframe_pageAddr]
  cases made : uvmcreate m with
  | mk created m₁ =>
    cases created with
    | none =>
      have null := uvmcreate_null owns (congrArg Prod.fst made)
      rw [made] at null
      refine ⟨none, m₁, rfl, .inl ⟨rfl, null.1, fun _ => Iff.rfl, ?_, ?_⟩⟩
      · exact fun _ listed => absurd listed List.not_mem_nil
      · exact fun x _ _ => congrFun null.2 x
    | some pt =>
      have empty := uvmcreate_empty owns (congrArg Prod.fst made)
      rw [made] at empty
      obtain ⟨had, owns₁, others, shape, tidy, none⟩ := empty
      have young : Young m m₁ S (S \ {pt}) pt fun _ => .none := by
        refine ⟨⟨owns₁, ?_, ?_, ?_⟩, ⟨?_, ?_⟩, tidy, fun v _ => none v⟩
        · intro x
          rw [shape, List.mem_singleton]
          constructor
          · rintro (free | rfl)
            · exact .inl free.1
            · exact .inl had
          · rintro (free | impossible)
            · by_cases here : x = pt
              · exact .inr here
              · exact .inl ⟨free, here⟩
            · exact absurd impossible List.not_mem_nil
        · intro x listed
          rw [shape, List.mem_singleton] at listed
          exact fun free => free.2 listed
        · intro x notFree _
          refine others x ?_
          rintro rfl
          exact notFree had
        · rw [shape]
          exact List.nodup_singleton _
        · intro x listed
          rw [shape, List.mem_singleton] at listed
          exact fun free => free.2 listed
      obtain ⟨result, m₂, S₂, ran, young₂⟩ := young.mappages (by omega : VPNS - 1 < VPNS) rfl
        trampoline ((PTE_R ||| PTE_X).setWidth 32)
      dsimp only
      rw [bind_eq ran]
      cases result with
      | false =>
        obtain ⟨m₃, freed, exchange⟩ := young₂.uvmfree owns fun _ _ => rfl
        refine ⟨.none, m₃, ?_, .inl ⟨rfl, exchange⟩⟩
        dsimp only
        rw [bind_eq freed]
        rfl
      | true =>
        rw [if_pos rfl, trampoline_mapped] at young₂
        obtain ⟨result, m₃, S₃, ran', young₃⟩ := young₂.mappages (by omega : VPNS - 2 < VPNS)
          (by rw [update_of_ne (by omega)]) trapframe ((PTE_R ||| PTE_W).setWidth 32)
        dsimp only
        rw [bind_eq ran']
        cases result with
        | false =>
          obtain ⟨m₄, unmapped, young₄⟩ := young₃.unmap
          obtain ⟨m₅, freed, exchange⟩ := young₄.uvmfree owns fun _ _ => rfl
          refine ⟨.none, m₅, ?_, .inl ⟨rfl, exchange⟩⟩
          dsimp only
          rw [bind_eq unmapped, bind_eq freed]
          rfl
        | true =>
          rw [if_pos rfl, trapframe_mapped] at young₃
          obtain ⟨space, exchange⟩ := young₃.space owns
          exact ⟨some pt, m₃, rfl, .inr ⟨pt, S₃, rfl, space, exchange⟩⟩

def smallLayout : Layout := ⟨PHYSTOP - 16 * 4096, by decide⟩

/-- Two kernel pages hold the strings `echo` and `hi`. -/
def smallMemory : Memory := fun page word =>
  if word ≠ 0 then 0 else if page = 0x80002000 then 0x6f686365 else if page = 0x80003000 then 0x6968
  else 0

def smallProcess : Except Fault (Option Word × Word × Machine (Failing (Kmem smallLayout))) := do
  let m ← kinit smallLayout smallMemory []
  let (pt, m) ← procPagetable m 0x80000000 0x80001000
  let (size, m) ← uvmalloc m (pt.getD 0) 0 4096
  return (pt, size, m)

theorem smallProcess_space : ∃ (m : Machine (Failing (Kmem smallLayout))) (S : Set Word)
    (pt : Word), smallProcess = .ok (some pt, 4096, m) ∧ Owns m S ∧
      Space m 0x80000000 0x80001000 pt 4096 ∧
      ∀ x ∈ footprint m.mem pt 4096, x ∉ S := by
  have values : (smallProcess.toOption.map fun r => (r.1.isSome, r.2.1)) = some (true, 4096) := by
    decide +kernel
  obtain ⟨m₀, booted, owns₀⟩ := kinit_owns smallLayout smallMemory [] (by decide)
  obtain ⟨result, m₁, made, outcome⟩ := procPagetable_space owns₀ 0x80000000 0x80001000
  have first : smallProcess = uvmalloc m₁ (result.getD 0) 0 4096 >>= fun grown =>
      .ok (result, grown.1, grown.2) := by
    unfold smallProcess
    rw [bind_eq booted, bind_eq made]
    rfl
  rcases outcome with ⟨rfl, -⟩ | ⟨pt, S₁, rfl, space, exchange⟩
  · rw [first] at values
    cases grown : uvmalloc m₁ ((none : Option Word).getD 0) 0 4096 with
    | error fault | ok answer =>
      rw [grown] at values
      cases values
  · obtain ⟨size, m₂, ran, cases⟩ := uvmalloc_space exchange.owns space exchange.apart 4096
    have second : smallProcess = .ok (some pt, size, m₂) := by
      rw [first, Option.getD_some, bind_eq ran]
    rw [second] at values
    have known : size = 4096 := congrArg Prod.snd (Option.some.inj values)
    rcases cases with ⟨less, -, -⟩ | ⟨-, -, space', ⟨S₂, exchange'⟩, -⟩ | ⟨-, zero, -⟩
    · exact absurd less (by decide)
    · rw [known] at second
      exact ⟨m₂, S₂, pt, second, exchange'.owns, space', exchange'.apart⟩
    · rw [zero] at known
      exact absurd known (by decide)

end OsbKernel.Paging
