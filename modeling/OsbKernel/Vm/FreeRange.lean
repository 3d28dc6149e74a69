import OsbKernel.Vm.Ram

/-!
# The pages at boot

`kinit` hands the memory between the kernel and `PHYSTOP` to the allocator, page by page.
-/

namespace OsbKernel.Paging

open Function ExceptBind LawfulAllocator RamAllocator

section Functions

variable {K : Type} [Allocator K]

/-- The loop of `freerange` with the number of rounds. -/
def freerangeLoop : Nat → Machine K → Word → Except Fault (Machine K)
  | 0, m, _ => .ok m
  | rounds + 1, m, p => do
    let m ← m.kfree p
    freerangeLoop rounds m (p + PGSIZE)

def freerange (m : Machine K) (paStart paEnd : Word) : Except Fault (Machine K) :=
  let p := PGROUNDUP paStart
  freerangeLoop ((paEnd.toNat - p.toNat) / PGSIZE.toNat) m p

end Functions

/-- `kinit`, from the memory that the machine starts with. -/
def kinit (L : Layout) (mem : Memory) (fails : List Bool) :
    Except Fault (Machine (Failing (Kmem L))) :=
  freerange ⟨mem, ⟨⟨0⟩, fails, 0⟩⟩ L.kernelEnd PHYSTOP

section FreeRange

variable {K : Type} [Allocator K] [LawfulAllocator K] [RamAllocator K] {m : Machine K} {S : Set Word}

theorem freerangeLoop_frees {rounds v : Nat} (owns : Owns m S) (inside : v + rounds ≤ VPNS)
    (ram : ∀ u, v ≤ u → u < v + rounds → Ram K (pageAddr u))
    (absent : ∀ u, v ≤ u → u < v + rounds → pageAddr u ∉ S) :
    ∃ m', freerangeLoop rounds m (pageAddr v) = .ok m' ∧
      Owns m' (S ∪ {x | ∃ u, v ≤ u ∧ u < v + rounds ∧ x = pageAddr u}) := by
  induction rounds generalizing m S v with
  | zero =>
    refine ⟨m, rfl, ?_⟩
    have none : S ∪ {x | ∃ u, v ≤ u ∧ u < v + 0 ∧ x = pageAddr u} = S := by
      ext x
      constructor
      · rintro (free | ⟨u, low, high, -⟩)
        · exact free
        · omega
      · exact .inl
    rw [none]
    exact owns
  | succ rounds ih =>
    obtain ⟨m₁, freed⟩ := kfree_some m (ram v (Nat.le_refl v) (by omega))
    obtain ⟨owns₁, -⟩ := kfree_ok owns (absent v (Nat.le_refl v) (by omega)) freed
    obtain ⟨m₂, rest, owns₂⟩ := ih owns₁ (by omega : v + 1 + rounds ≤ VPNS)
      (fun u low high => ram u (by omega) (by omega)) (by
        intro u low high
        rintro (here | free)
        · have equal := congrArg vpn here
          rw [vpn_pageAddr (by omega), vpn_pageAddr (by omega)] at equal
          omega
        · exact absent u (by omega) (by omega) free)
    refine ⟨m₂, ?_, ?_⟩
    · unfold freerangeLoop
      rw [bind_eq freed, pageAddr_succ]
      exact rest
    · refine cast (congrArg (Owns m₂) ?_) owns₂
      ext x
      constructor
      · rintro ((rfl | free) | ⟨u, low, high, rfl⟩)
        · exact .inr ⟨v, Nat.le_refl v, by omega, rfl⟩
        · exact .inl free
        · exact .inr ⟨u, by omega, by omega, rfl⟩
      · rintro (free | ⟨u, low, high, rfl⟩)
        · exact .inl (.inr free)
        · by_cases here : u = v
          · rw [here]
            exact .inl (.inl rfl)
          · exact .inr ⟨u, by omega, by omega, rfl⟩

end FreeRange

theorem kinit_owns (L : Layout) (mem : Memory) (fails : List Bool) (small : L.kernelEnd ≤ PHYSTOP) :
    ∃ m, kinit L mem fails = .ok m ∧ Owns m {x | RamPage L x} := by
  have high := BitVec.le_def.mp small
  have last : PHYSTOP.toNat = 2 ^ 31 + 2 ^ 27 := rfl
  have page := pgroundup_pageAddr (by omega : L.kernelEnd.toNat ≤ 2 ^ 38)
  have below := pagesBelow_le (by omega : L.kernelEnd.toNat ≤ 2 ^ 38)
  have start : pagesBelow L.kernelEnd = (L.kernelEnd.toNat + 4095) / 4096 := rfl
  have top : VPNS = 2 ^ 26 := rfl
  have rounds : (PHYSTOP.toNat - (pageAddr (pagesBelow L.kernelEnd)).toNat) / PGSIZE.toNat =
      2 ^ 19 + 2 ^ 15 - pagesBelow L.kernelEnd := by
    rw [pageAddr_toNat below, pgsize_toNat, last]
    omega
  have empty : Owns (⟨mem, ⟨⟨0⟩, fails, 0⟩⟩ : Machine (Failing (Kmem L))) ∅ := by
    refine ⟨[], ⟨rfl, List.nodup_nil, fun x listed => absurd listed List.not_mem_nil⟩, ?_⟩
    ext x
    simp
  have ram : ∀ u, pagesBelow L.kernelEnd ≤ u →
      u < pagesBelow L.kernelEnd + (2 ^ 19 + 2 ^ 15 - pagesBelow L.kernelEnd) →
      RamPage L (pageAddr u) := by
    intro u above under
    have address := pageAddr_toNat (by omega : u ≤ VPNS)
    refine ⟨by rw [address]; omega, ?_, ?_⟩
    · rw [BitVec.le_def, address]
      omega
    · rw [BitVec.lt_def, address, last]
      omega
  obtain ⟨m, ran, owns⟩ := freerangeLoop_frees empty (by omega) ram fun u _ _ => Set.notMem_empty _
  refine ⟨m, ?_, ?_⟩
  · unfold kinit freerange
    dsimp only
    rw [page, rounds]
    exact ran
  · refine cast (congrArg (Owns m) ?_) owns
    ext x
    constructor
    · rintro (impossible | ⟨u, above, under, rfl⟩)
      · exact absurd impossible (Set.notMem_empty _)
      · exact ram u above under
    · intro managed
      have aligned := managed.aligned
      have lower := BitVec.le_def.mp managed.low
      have upper := BitVec.lt_def.mp managed.high
      refine .inr ⟨x.toNat / 4096, by omega, by omega, ?_⟩
      apply BitVec.eq_of_toNat_eq
      rw [pageAddr_toNat (by omega)]
      omega

end OsbKernel.Paging
