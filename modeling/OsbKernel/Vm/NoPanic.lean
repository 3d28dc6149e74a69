import OsbKernel.Vm.Ram

/-!
# The functions of `vm.c` return

Over memory of bounded size, mapping unmapped pages and unmapping mapped ones never panics.
-/

namespace OsbKernel.Paging

open Function FreeRadix ExceptBind LawfulAllocator RamAllocator

variable {K : Type} [Allocator K] [LawfulAllocator K] [RamAllocator K] {m m' m₀ : Machine K}
  {S : Set Word} {pt va : Word} {added data : List Word} {v lo : Nat} {flags : Nat → Word}

omit [LawfulAllocator K] [RamAllocator K] in
theorem walk_some (m : Machine K) (pt : Word) (below : vpn va < VPNS) (alloc : Bool) :
    ∃ found m', walk m pt va alloc = .ok (found, m') := by
  have inside : ¬ MAXVA ≤ va := by
    rw [BitVec.le_def, maxva_toNat]
    unfold vpn VPNS at below
    omega
  unfold walk
  rw [if_neg inside]
  exact ⟨_, _, rfl⟩

omit [LawfulAllocator K] [RamAllocator K] in
theorem walk_entry {pte : Word} (below : v < VPNS) (known : pteAt m.mem pt v = some pte) :
    ∃ leaf, format.find m.mem (indices v) 2 pt = some leaf ∧
      m.load (leaf, indices v 0) = pte ∧ pte &&& PTE_V ≠ 0 ∧
      walk m pt (pageAddr v) false = .ok (some (leaf, indices v 0), m) := by
  obtain ⟨found, m', walked⟩ := walk_some m pt
    (by rw [vpn_pageAddr below.le]; exact below : vpn (pageAddr v) < VPNS) false
  obtain ⟨rfl, -, shape⟩ := walk_find walked
  rw [vpn_pageAddr below.le] at shape
  cases path : format.find m'.mem (indices v) 2 pt with
  | none =>
    unfold pteAt Format.lookup at known
    rw [path] at known
    cases known
  | some leaf =>
    rw [path] at shape
    have entry := load_found path
    rw [known] at entry
    by_cases valid : m'.load (leaf, indices v 0) &&& PTE_V = 0
    · rw [entry_invalid valid] at entry
      cases entry
    · rw [entry_valid valid] at entry
      have same := Option.some.inj entry
      refine ⟨leaf, rfl, same.symm, by rw [same]; exact valid, ?_⟩
      rw [walked, shape]
      rfl

omit [LawfulAllocator K] [RamAllocator K] in
theorem pageAddr_last (below : v < VPNS) : PGROUNDDOWN (pageAddr v + PGSIZE - 1) = pageAddr v := by
  rw [pgrounddown_pageAddr]
  congr 1
  have address := pageAddr_toNat below.le
  have one : (1 : Word).toNat = 1 := rfl
  rw [vpn, BitVec.toNat_sub, BitVec.toNat_add, address, pgsize_toNat, one]
  omega

omit [RamAllocator K] in
theorem mappages_some (owns : Owns m S) (ok : TableOk m S pt) (below : v < VPNS)
    (free : pteAt m.mem pt v = none) (pa : Word) (perm : BitVec 32) :
    ∃ result m', mappages m pt (pageAddr v) PGSIZE pa perm = .ok (result, m') := by
  have start : PGROUNDDOWN (pageAddr v) = pageAddr v := by
    rw [pgrounddown_pageAddr, vpn_pageAddr below.le]
  have rounds : ∃ fuel, (MAXVA.toNat - (pageAddr v).toNat) / PGSIZE.toNat = fuel + 1 := by
    refine ⟨(MAXVA.toNat - (pageAddr v).toNat) / PGSIZE.toNat - 1, ?_⟩
    rw [maxva_toNat, pageAddr_toNat below.le, pgsize_toNat]
    unfold VPNS at below
    omega
  obtain ⟨fuel, rounds⟩ := rounds
  obtain ⟨found, m₁, walked⟩ := walk_some m pt
    (by rw [vpn_pageAddr below.le]; exact below : vpn (pageAddr v) < VPNS) true
  have nonempty : ¬ PGSIZE = 0 := by decide
  unfold mappages
  simp only [start, pageAddr_last below, rounds]
  unfold mappagesLoop
  rw [walked]
  obtain ⟨-, added, changes, arrived⟩ := walk_alloc owns ok walked
  cases found with
  | none => exact ⟨_, _, rfl⟩
  | some pte =>
    obtain ⟨path, index⟩ := arrived pte rfl
    rw [vpn_pageAddr below.le] at path index
    have point : pte = (pte.1, indices v 0) := Prod.ext rfl index
    have entry := load_found path
    rw [changes.entries v below, free, ← point] at entry
    have invalid : ¬ m₁.load pte &&& PTE_V ≠ 0 := by
      intro valid
      rw [entry_valid valid] at entry
      cases entry
    refine ⟨true, m₁.store pte (PA2PTE pa ||| perm.signExtend 64 ||| PTE_V), ?_⟩
    change (if m₁.load pte &&& PTE_V ≠ 0 then _ else _) = _
    rw [if_neg invalid, if_pos rfl]
    rfl

/-- An entry for a page that `uvmunmap` can take away. -/
def Leaf (K : Type) [Allocator K] [LawfulAllocator K] [RamAllocator K] (doFree : Bool)
    (entry : Option Word) : Prop :=
  ∃ pte, entry = some pte ∧ PTE_FLAGS pte ≠ PTE_V ∧ (doFree = true → Ram K (PTE2PA pte))

variable {doFree : Bool} {rounds : Nat} {newsz : Word}

theorem kfreeIf_some {p : Word} (ram : doFree = true → Ram K p) :
    ∃ m', m.kfreeIf doFree p = .ok m' := by
  cases doFree with
  | false => exact ⟨m, rfl⟩
  | true => exact kfree_some m (ram rfl)

theorem uvmunmapLoop_some {a : Word} (owns : Owns m S)
    (ok : TableOk m S pt) (here : a = pageAddr v) (inside : v + rounds ≤ VPNS)
    (able : Releasable S (tables m.mem pt)
      (released doFree (pagesFrom (pteAt m.mem pt) v rounds)))
    (leaves : ∀ u, v ≤ u → u < v + rounds → Leaf K doFree (pteAt m.mem pt u)) :
    ∃ m', uvmunmapLoop pt doFree rounds m a = .ok m' := by
  induction rounds generalizing m S v a with
  | zero => exact ⟨m, rfl⟩
  | succ rounds ih =>
    obtain ⟨pte, entry, leaf, ram⟩ := leaves v (Nat.le_refl v) (by omega)
    obtain ⟨table, path, load, valid, walked⟩ := walk_entry (by omega : v < VPNS) entry
    obtain ⟨m₁, freed⟩ := kfreeIf_some (m := m) ram
    rw [pagesFrom_succ _ _ _ entry, ← released_cons] at able
    have first := unmap_page owns ok (by omega) path able.left freed
    have left : ∀ u, v + 1 ≤ u → u < v + 1 + rounds →
        pteAt (m₁.store (table, indices v 0) 0).mem pt u = pteAt m.mem pt u := by
      intro u low high
      rw [first.entries u (by omega), update_of_ne (by omega)]
    obtain ⟨m₂, rest⟩ := ih first.owns (first.tableOk ok able.left.away) (pageAddr_succ v)
      (by omega) (by
        rw [pagesFrom_congr left]
        exact able.right.perm first.tables) (by
        intro u low high
        rw [left u low high]
        exact leaves u (by omega) (by omega))
    refine ⟨m₂, ?_⟩
    unfold uvmunmapLoop
    rw [here, walked]
    change (if m.load (table, indices v 0) &&& PTE_V = 0 then _ else _) = _
    rw [load, if_neg valid, if_neg leaf, freed]
    exact rest

theorem uvmunmap_some {npages : Word} (owns : Owns m S)
    (ok : TableOk m S pt) (aligned : va.toNat % 4096 = 0)
    (inside : va.toNat + npages.toNat * 4096 ≤ 2 ^ 38)
    (able : Releasable S (tables m.mem pt)
      (released doFree (pagesFrom (pteAt m.mem pt) (vpn va) npages.toNat)))
    (leaves : ∀ u, vpn va ≤ u → u < vpn va + npages.toNat →
      Leaf K doFree (pteAt m.mem pt u)) :
    ∃ m', uvmunmap m pt va npages doFree = .ok m' := by
  have zero : ¬ va % PGSIZE ≠ 0 := by
    rw [not_not]
    apply BitVec.eq_of_toNat_eq
    exact aligned
  obtain ⟨rounds, start, top⟩ := uvmunmap_range aligned inside
  unfold uvmunmap
  rw [if_neg zero, rounds]
  exact uvmunmapLoop_some owns ok start top able leaves

theorem uvmdealloc_some {oldsz : Word} (owns : Owns m S) (ok : TableOk m S pt)
    (inside : oldsz.toNat ≤ 2 ^ 38)
    (able : Releasable S (tables m.mem pt)
      (pagesFrom (pteAt m.mem pt) (pagesBelow newsz) (pagesBelow oldsz - pagesBelow newsz)))
    (leaves : ∀ u, pagesBelow newsz ≤ u → u < pagesBelow oldsz →
      Leaf K true (pteAt m.mem pt u)) :
    ∃ size m', uvmdealloc m pt oldsz newsz = .ok (size, m') := by
  unfold uvmdealloc
  by_cases larger : oldsz ≤ newsz
  · rw [if_pos larger]
    exact ⟨_, _, rfl⟩
  · have less : newsz.toNat < oldsz.toNat := BitVec.lt_def.mp (BitVec.not_le.mp larger)
    have high := pagesBelow_le inside
    have low := pagesBelow_mono (Nat.le_of_lt less)
    rw [if_neg larger, pgroundup_pageAddr inside, pgroundup_pageAddr (by omega : newsz.toNat ≤ 2 ^ 38)]
    by_cases fewer : pageAddr (pagesBelow newsz) < pageAddr (pagesBelow oldsz)
    · rw [if_pos fewer]
      have count := npages_toNat low high
      have number := vpn_pageAddr (low.trans high)
      have address := pageAddr_toNat (low.trans high)
      have returns : ∃ m', uvmunmap m pt (pageAddr (pagesBelow newsz))
          ((((pageAddr (pagesBelow oldsz) - pageAddr (pagesBelow newsz)) / PGSIZE).setWidth 32
            ).signExtend 64) true = .ok m' := by
        refine uvmunmap_some owns ok (by rw [address]; omega) ?_ (by rw [number, count]; exact able) ?_
        · unfold VPNS at high
          omega
        · intro u lower upper
          rw [number] at lower upper
          exact leaves u lower (by omega)
      obtain ⟨m', unmapped⟩ := returns
      refine ⟨newsz, m', ?_⟩
      dsimp only
      rw [unmapped]
      rfl
    · rw [if_neg fewer]
      exact ⟨_, _, rfl⟩

theorem Filled.leaves (filled : Filled m₀ m S pt lo flags added data) (owns : Owns m₀ S)
    (small : ∀ i < data.length, (flags i).toNat < 1024)
    (leaf : ∀ i < data.length, flags i ≠ PTE_V) {u : Nat} (low : lo ≤ u)
    (high : u < lo + data.length) : Leaf K true (pteAt m.mem pt u) := by
  have below := filled.inside
  have index : u - lo < data.length := by omega
  have listed : data.getD (u - lo) 0 ∈ data := by
    rw [List.getD_eq_getElem _ _ index]
    exact List.getElem_mem index
  refine ⟨packPte data flags (u - lo), ?_, ?_, fun _ => ?_⟩
  · rw [filled.grants.entries u (by omega), bindPages, if_pos ⟨low, high⟩]
  · rw [packPte, pte_flags_pte (small _ index)]
    exact leaf _ index
  · rw [packPte, pte2pa_pte (small _ index), pgrounddown_of_aligned (filled.aligned _ listed)]
    exact owned owns (filled.grants.fresh _ (List.mem_append_right _ listed))

theorem Filled.room {p : Word} (filled : Filled m₀ m S pt lo flags added data)
    (owns : Owns m₀ S) (had : p ∈ S \ {x | x ∈ added ++ data}) : data.length < 2 ^ 15 := by
  have nodup : (p :: data).Nodup := by
    refine List.nodup_cons.mpr ⟨fun listed => had.2 (List.mem_append_right _ listed), ?_⟩
    exact (List.nodup_append.mp filled.grants.nodup).2.1
  have short : (p :: data).length ≤ 2 ^ 15 := by
    refine bound nodup (K := K) fun x listed => ?_
    rcases List.mem_cons.mp listed with rfl | old
    · exact owned owns had.1
    · exact owned owns (filled.grants.fresh x (List.mem_append_right _ old))
  exact short

theorem Filled.dealloc_some (filled : Filled m₀ m S pt lo (fun _ => userFlags) added data)
    (owns : Owns m₀ S) (ok : TableOk m₀ S pt) :
    ∃ size m', uvmdealloc m pt (pageAddr (lo + data.length)) (pageAddr lo) =
      .ok (size, m') := by
  have inside := filled.inside
  have high := pagesBelow_pageAddr inside
  have low : pagesBelow (pageAddr lo) = lo := pagesBelow_pageAddr (by omega)
  have bits : userFlags.toNat < 1024 := by decide
  refine uvmdealloc_some filled.grants.owns (filled.grants.tableOk ok) ?_ ?_ ?_
  · rw [pageAddr_toNat inside]
    unfold VPNS at inside
    omega
  · rw [high, low, Nat.add_sub_cancel_left, filled.pages fun _ => bits]
    exact filled.releasable ok
  · intro u lower upper
    rw [low] at lower
    rw [high] at upper
    exact filled.leaves owns (fun _ _ => bits) (fun _ _ => by decide) lower upper

theorem uvmallocLoop_some {a : Word} (owns₀ : Owns m₀ S)
    (ok : TableOk m₀ S pt) (fits : lo + 2 ^ 15 ≤ VPNS)
    (free : ∀ u, lo ≤ u → u < lo + 2 ^ 15 → pteAt m₀.mem pt u = none)
    (filled : Filled m₀ m S pt lo (fun _ => userFlags) added data)
    (here : a = pageAddr (lo + data.length)) :
    ∃ size m', uvmallocLoop pt (pageAddr lo) newsz rounds m a = .ok (size, m') := by
  induction rounds generalizing m added data a with
  | zero => exact ⟨_, _, rfl⟩
  | succ rounds ih =>
    have owns := filled.grants.owns
    have table := filled.grants.tableOk ok
    unfold uvmallocLoop
    rw [here]
    dsimp only
    by_cases null : m.kalloc.1 = 0
    · rw [if_pos null]
      have kept := filled.keep (kalloc_null_grants owns null pt)
      obtain ⟨size, m₁, returned⟩ := kept.dealloc_some owns₀ ok
      rw [returned]
      exact ⟨_, _, rfl⟩
    · rw [if_neg null]
      have took := took_clear owns null
      have room := filled.room owns₀ took.had
      have inside : lo + data.length < VPNS := by omega
      obtain ⟨ok₁, shape, same⟩ := took.table table
      have unmapped : pteAt (m.kalloc.2.clear m.kalloc.1).mem pt (lo + data.length) = none := by
        rw [same, filled.grants.entries _ inside, bindPages, if_neg (by omega)]
        exact free _ (by omega) (by omega)
      obtain ⟨result, m₁, mapped⟩ := mappages_some took.owns ok₁ inside unmapped m.kalloc.1
        ((PTE_W ||| PTE_X ||| PTE_R ||| PTE_U).setWidth 32)
      rw [mapped]
      cases result with
      | false =>
        obtain ⟨m₂, freed⟩ := kfree_some m₁ (owned owns took.had)
        obtain ⟨added', grants⟩ := took.returns table inside mapped freed
        obtain ⟨size, m₃, returned⟩ := (filled.keep grants).dealloc_some owns₀ ok
        refine ⟨0, m₃, ?_⟩
        change (m₁.kfree m.kalloc.1 >>= _) = _
        rw [freed]
        change (uvmdealloc m₂ pt _ _ >>= _) = _
        rw [returned]
        rfl
      | true =>
        obtain ⟨added', grants, known, -⟩ := took.grants table inside mapped
        rw [mappedPte_page, userFlags_eq] at grants
        have more := filled.extend grants known inside took.aligned
        refine ih more ?_
        rw [pageAddr_succ, List.length_append, List.length_singleton, Nat.add_assoc]

/-- `uvmalloc` of a part of the address space that is free as far as memory reaches. -/
theorem uvmalloc_some {oldsz : Word} (owns : Owns m S) (ok : TableOk m S pt)
    (fits : pagesBelow oldsz + 2 ^ 15 ≤ VPNS)
    (free : ∀ u, pagesBelow oldsz ≤ u → u < pagesBelow oldsz + 2 ^ 15 →
      pteAt m.mem pt u = none) :
    ∃ size m', uvmalloc m pt oldsz newsz = .ok (size, m') := by
  unfold uvmalloc
  by_cases smaller : newsz < oldsz
  · rw [if_pos smaller]
    exact ⟨_, _, rfl⟩
  · have inside : oldsz.toNat ≤ 2 ^ 38 := by
      unfold pagesBelow VPNS at fits
      omega
    rw [if_neg smaller]
    rw [pgroundup_pageAddr inside]
    exact uvmallocLoop_some owns ok fits free
      (Filled.start owns pt (by omega) fun _ => userFlags) rfl

theorem Filled.unmap_some (filled : Filled m₀ m S pt 0 flags added data)
    (owns : Owns m₀ S) (ok : TableOk m₀ S pt) (small : ∀ i, (flags i).toNat < 1024)
    (leaf : ∀ i < data.length, flags i ≠ PTE_V) :
    ∃ m', uvmunmap m pt 0 (pageAddr data.length / PGSIZE) true = .ok m' := by
  have inside : data.length ≤ VPNS := by
    have within := filled.inside
    omega
  have count : (pageAddr data.length / PGSIZE).toNat = data.length := by
    rw [BitVec.toNat_udiv, pageAddr_toNat inside, pgsize_toNat]
    omega
  have start : vpn 0 = 0 := rfl
  refine uvmunmap_some filled.grants.owns (filled.grants.tableOk ok) rfl ?_ ?_ ?_
  · rw [count]
    unfold VPNS at inside
    change 0 + data.length * 4096 ≤ _
    omega
  · rw [count, start, filled.pages small]
    exact filled.releasable ok
  · intro u low high
    rw [count] at high
    exact filled.leaves owns (fun i _ => small i) leaf low high

theorem uvmcopyLoop_some {old new i : Word} {total : Nat} (owns₀ : Owns m₀ S)
    (ok : TableOk m₀ S new) (parent : TableOk m₀ S old)
    (apart : ∀ x ∈ tables m₀.mem old, x ∉ tables m₀.mem new) (fits : total ≤ VPNS)
    (leaves : ∀ u < total, Leaf K false (pteAt m₀.mem old u))
    (free : ∀ u < total, pteAt m₀.mem new u = none)
    (filled : Filled m₀ m S new 0 (flagsAt (pteAt m₀.mem old)) added data)
    (here : i = pageAddr data.length) (left : data.length + rounds = total) :
    ∃ result m', uvmcopyLoop old new rounds m i = .ok (result, m') := by
  induction rounds generalizing m added data i with
  | zero => exact ⟨_, _, rfl⟩
  | succ rounds ih =>
    have owns := filled.grants.owns
    have table := filled.grants.tableOk ok
    have bits : ∀ i, (flagsAt (pteAt m₀.mem old) i).toNat < 1024 := fun _ => pte_flags_small _
    have proper : ∀ i < data.length, flagsAt (pteAt m₀.mem old) i ≠ PTE_V := by
      intro i below
      obtain ⟨pte, entry, leaf, -⟩ := leaves i (by omega)
      rw [flagsAt, entry]
      exact leaf
    obtain ⟨-, -, same⟩ := filled.grants.other parent apart
    obtain ⟨pte, entry, leaf, -⟩ := leaves data.length (by omega)
    rw [← same] at entry
    obtain ⟨place, path, load, valid, walked⟩ := walk_entry (by omega : data.length < VPNS) entry
    unfold uvmcopyLoop
    rw [here, walked]
    simp only [bind, Except.bind, load]
    rw [if_neg valid]
    by_cases null : m.kalloc.1 = 0
    · rw [if_pos null]
      have kept := filled.keep (kalloc_null_grants owns null new)
      obtain ⟨m₁, returned⟩ := kept.unmap_some owns₀ ok bits proper
      rw [returned]
      exact ⟨_, _, rfl⟩
    · rw [if_neg null]
      have took := took_copy owns null (PTE2PA pte)
      obtain ⟨ok₁, shape, same₁⟩ := took.table table
      have address : pageAddr data.length = pageAddr (0 + data.length) := by rw [Nat.zero_add]
      have inside : 0 + data.length < VPNS := by omega
      have unmapped :
          pteAt (m.kalloc.2.copy m.kalloc.1 (PTE2PA pte)).mem new (0 + data.length) = none := by
        rw [same₁, filled.grants.entries _ inside, bindPages, if_neg (by omega)]
        exact free _ (by omega)
      obtain ⟨result, m₁, mapped⟩ := mappages_some took.owns ok₁ inside unmapped m.kalloc.1
        ((PTE_FLAGS pte).setWidth 32)
      have mapped' := mapped
      rw [← address] at mapped'
      rw [mapped']
      cases result with
      | false =>
        obtain ⟨m₂, freed⟩ := kfree_some m₁ (owned owns took.had)
        obtain ⟨added', grants⟩ := took.returns table inside mapped freed
        obtain ⟨m₃, returned⟩ := (filled.keep grants).unmap_some owns₀ ok bits proper
        refine ⟨false, m₃, ?_⟩
        simp only [freed, returned]
        rfl
      | true =>
        obtain ⟨added', grants, known, -⟩ := took.grants table inside mapped
        rw [same] at entry
        have flags : flagsAt (pteAt m₀.mem old) data.length = PTE_FLAGS pte := by
          rw [flagsAt, entry, Option.getD_some]
        rw [mappedPte_page, copied_flags valid, ← flags] at grants
        have length : (data ++ [m.kalloc.1]).length = data.length + 1 := by
          rw [List.length_append, List.length_singleton]
        refine ih (filled.extend grants known inside took.aligned) ?_ ?_
        · rw [pageAddr_succ, length]
        · omega

theorem uvmcopy_some {old new sz : Word} (owns : Owns m S) (ok : TableOk m S new)
    (parent : TableOk m S old) (apart : ∀ x ∈ tables m.mem old, x ∉ tables m.mem new)
    (fits : pagesBelow sz ≤ VPNS)
    (leaves : ∀ u < pagesBelow sz, Leaf K false (pteAt m.mem old u))
    (free : ∀ u < pagesBelow sz, pteAt m.mem new u = none) :
    ∃ result m', uvmcopy m old new sz = .ok (result, m') := by
  have rounds : (sz.toNat + PGSIZE.toNat - 1) / PGSIZE.toNat = pagesBelow sz := by
    rw [pgsize_toNat]
    unfold pagesBelow
    omega
  unfold uvmcopy
  exact uvmcopyLoop_some owns ok parent apart fits leaves free
    (Filled.start owns new (Nat.zero_le VPNS) _) rfl (Nat.zero_add _)

end OsbKernel.Paging
