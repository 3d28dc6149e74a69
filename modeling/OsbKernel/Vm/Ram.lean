import OsbKernel.Vm.Allocators
import OsbKernel.Vm.PagingGrow

/-!
# Memory of bounded size

Allocators over the 128 MB of RAM, all of whose pages can be given back: the free list, and the
free list where any `kalloc` may find it empty because other code holds the rest. Over them the
functions of `vm.c` come to an end without a panic.
-/

namespace OsbKernel.Paging

open Function FreeRadix ExceptBind LawfulAllocator

/-- An allocator of at most 32768 pages, which takes them all back. -/
class RamAllocator (K : Type) [Allocator K] [LawfulAllocator K] where
  Ram : Word → Prop
  owned : ∀ {m : Machine K} {S : Set Word} {p : Word}, Owns m S → p ∈ S → Ram p
  kfree_some : ∀ (m : Machine K) {p : Word}, Ram p → ∃ m', m.kfree p = .ok m'
  aligned : ∀ {p : Word}, Ram p → p.toNat % 4096 = 0
  nonzero : ∀ {p : Word}, Ram p → p ≠ 0
  bound : ∀ {l : List Word}, l.Nodup → (∀ p ∈ l, Ram p) → l.length ≤ 2 ^ 15

theorem ramPage_bound {L : Layout} {l : List Word} (nodup : l.Nodup) (ram : ∀ p ∈ l, RamPage L p) :
    l.length ≤ 2 ^ 15 := by
  have listed : l ⊆ (List.range (2 ^ 15)).map fun i => pageAddr (2 ^ 19 + i) := by
    intro p known
    have page := ram p known
    have low := BitVec.le_def.mp page.low
    have base := BitVec.le_def.mp L.above
    have high := BitVec.lt_def.mp page.high
    have aligned := page.aligned
    have first : KERNBASE.toNat = 2 ^ 31 := rfl
    have last : PHYSTOP.toNat = 2 ^ 31 + 2 ^ 27 := rfl
    refine List.mem_map.mpr ⟨p.toNat / 4096 - 2 ^ 19, List.mem_range.mpr (by omega), ?_⟩
    apply BitVec.eq_of_toNat_eq
    rw [pageAddr_toNat (by unfold VPNS; omega)]
    omega
  have short := (List.subperm_of_subset nodup listed).length_le
  rw [List.length_map, List.length_range] at short
  exact short

instance kmemRam (L : Layout) : RamAllocator (Kmem L) where
  Ram := RamPage L
  owned := by
    rintro m S p ⟨l, list, rfl⟩ listed
    exact list.ram p listed
  kfree_some := by
    intro m p page
    have inside : ¬ (p % PGSIZE ≠ 0 ∨ p < L.kernelEnd ∨ PHYSTOP ≤ p) := by
      rw [not_or, not_or, not_not]
      refine ⟨?_, BitVec.not_lt.mpr page.low, BitVec.not_le.mpr page.high⟩
      apply BitVec.eq_of_toNat_eq
      rw [BitVec.toNat_umod, pgsize_toNat]
      exact page.aligned
    refine ⟨⟨update m.mem p (update (fun _ => junkFreed) 0 m.kmem.freelist), ⟨p⟩⟩, ?_⟩
    unfold Machine.kfree
    simp only [Allocator.kfree]
    rw [if_neg inside]
    rfl
  aligned := RamPage.aligned
  nonzero := ramPage_ne_zero
  bound := ramPage_bound

/-- An allocator, which of the next calls of `kalloc` return 0 in any case, and how many have
returned 0 so far. -/
structure Failing (K : Type) where
  inner : K
  fails : List Bool
  refused : Nat

instance failingAllocator (K : Type) [Allocator K] : Allocator (Failing K) where
  kalloc mem k :=
    match k.fails with
    | true :: rest => (0, mem, ⟨k.inner, rest, k.refused + 1⟩)
    | fails =>
      let answer := Allocator.kalloc mem k.inner
      (answer.1, answer.2.1, ⟨answer.2.2, fails.tail, k.refused + (decide (answer.1 = 0)).toNat⟩)
  kfree mem k pa :=
    (Allocator.kfree mem k.inner pa).map fun answer => (answer.1, { k with inner := answer.2 })

section Failing

variable {K : Type} [Allocator K]

def Machine.inner {K : Type} (m : Machine (Failing K)) : Machine K := ⟨m.mem, m.kmem.inner⟩

theorem failing_kalloc (m : Machine (Failing K)) :
    (m.kalloc.1 = 0 ∧ m.kalloc.2.inner = m.inner) ∨
      (m.kalloc.1 = m.inner.kalloc.1 ∧ m.kalloc.2.inner = m.inner.kalloc.2) := by
  unfold Machine.kalloc
  simp only [Allocator.kalloc]
  split
  · exact .inl ⟨rfl, rfl⟩
  · exact .inr ⟨rfl, rfl⟩

theorem failing_kfree (m : Machine (Failing K)) (p : Word) :
    m.kfree p = (m.inner.kfree p).map fun m' => ⟨m'.mem, { m.kmem with inner := m'.kmem }⟩ := by
  change ((Allocator.kfree m.mem m.kmem.inner p).map _).map _ =
    ((Allocator.kfree m.mem m.kmem.inner p).map _).map _
  cases Allocator.kfree m.mem m.kmem.inner p <;> rfl

variable [LawfulAllocator K]

instance failingLawful : LawfulAllocator (Failing K) where
  Owns m S := Owns m.inner S
  kalloc_null := by
    intro m S owns null
    rcases failing_kalloc m with ⟨_, same⟩ | ⟨answer, same⟩
    · have mem : m.kalloc.2.inner.mem = m.inner.mem := by rw [same]
      refine ⟨?_, mem⟩
      rw [same]
      exact owns
    · rw [answer] at null
      obtain ⟨owns', mem⟩ := kalloc_null owns null
      have mem' : m.kalloc.2.inner.mem = m.inner.mem := by rw [same, mem]
      refine ⟨?_, mem'⟩
      rw [same]
      exact owns'
  kalloc_page := by
    intro m S owns got
    rcases failing_kalloc m with ⟨null, _⟩ | ⟨answer, same⟩
    · exact absurd null got
    · rw [answer] at got ⊢
      obtain ⟨had, aligned, owns', others⟩ := kalloc_page owns got
      refine ⟨had, aligned, by rw [same]; exact owns', fun x other => ?_⟩
      have mem : m.kalloc.2.inner.mem x = m.inner.kalloc.2.mem x := by rw [same]
      exact mem.trans (others x other)
  kfree_ok := by
    intro m m' S p owns absent freed
    rw [failing_kfree] at freed
    obtain ⟨m₁, ran, rfl⟩ := map_ok freed
    exact kfree_ok owns absent ran
  write := by
    intro m m' S owns kmem same
    exact write owns (congrArg Failing.inner kmem) same

instance failingRam [RamAllocator K] : RamAllocator (Failing K) where
  Ram := RamAllocator.Ram K
  owned := by
    intro m S p owns member
    exact RamAllocator.owned (m := m.inner) owns member
  kfree_some := by
    intro m p ram
    obtain ⟨m', freed⟩ := RamAllocator.kfree_some m.inner ram
    refine ⟨⟨m'.mem, { m.kmem with inner := m'.kmem }⟩, ?_⟩
    rw [failing_kfree, freed]
    rfl
  aligned := RamAllocator.aligned
  nonzero := RamAllocator.nonzero
  bound := RamAllocator.bound

end Failing

section Refused

variable {K : Type} [Allocator K] {m m' : Machine (Failing K)} {pt : Word} {result : Bool}

theorem kalloc_refused (m : Machine (Failing K)) :
    m.kalloc.2.kmem.refused = m.kmem.refused + (decide (m.kalloc.1 = 0)).toNat := by
  obtain ⟨mem, inner, - | ⟨- | -, rest⟩, refused⟩ := m <;> rfl

theorem kfreeIf_refused {doFree : Bool} {page : Word} (freed : m.kfreeIf doFree page = .ok m') :
    m'.kmem.refused = m.kmem.refused := by
  unfold Machine.kfreeIf at freed
  split at freed
  · rw [failing_kfree] at freed
    obtain ⟨m₁, -, rfl⟩ := map_ok freed
    rfl
  · cases freed
    rfl

theorem walkLoop_refused (va : Word) (level : Nat) (m : Machine (Failing K)) (pt : Word) :
    (walkLoop va true level m pt).2.kmem.refused =
      m.kmem.refused + (walkLoop va true level m pt).1.isNone.toNat := by
  induction level generalizing m pt with
  | zero => rfl
  | succ level ih =>
    have count := kalloc_refused m
    unfold walkLoop
    dsimp only
    split
    · exact ih _ _
    · rw [if_neg (by decide)]
      split
      · next null =>
        rw [count, decide_eq_true null]
        rfl
      · next got =>
        rw [decide_eq_false got] at count
        exact (ih _ _).trans (congrArg (· + _) count)

theorem mappagesLoop_refused {last a pa : Word} {perm : BitVec 32} {fuel : Nat}
    (ran : mappagesLoop pt last perm fuel m a pa = .ok (result, m')) :
    m'.kmem.refused = m.kmem.refused + (!result).toNat := by
  induction fuel generalizing m a pa with
  | zero => cases ran
  | succ fuel ih =>
    obtain ⟨⟨found, m₁⟩, walked, rest⟩ := bind_ok ran
    have count := walkLoop_refused a 2 m pt
    unfold walk at walked
    split at walked
    · cases walked
    generalize walkLoop a true 2 m pt = walked' at *
    obtain ⟨- | page, m₂⟩ := walked' <;> cases walked
    · cases rest
      exact count
    · simp only [Option.map_some] at rest
      split at rest
      · cases rest
      split at rest
      · cases rest
        exact count
      · exact (ih rest).trans (congrArg (· + _) count)

theorem uvmunmapLoop_refused {doFree : Bool} {rounds : Nat} {a : Word}
    (ran : uvmunmapLoop pt doFree rounds m a = .ok m') :
    m'.kmem.refused = m.kmem.refused := by
  induction rounds generalizing m a with
  | zero =>
    cases ran
    rfl
  | succ rounds ih =>
    obtain ⟨⟨found, m₁⟩, walked, rest⟩ := bind_ok ran
    obtain ⟨rfl, -⟩ := walk_find walked
    cases found with
    | none => cases rest
    | some pte =>
      simp only at rest
      split at rest
      · cases rest
      split at rest
      · cases rest
      obtain ⟨m₂, freed, rest⟩ := bind_ok rest
      have same : m₂.kmem.refused = m₁.kmem.refused := kfreeIf_refused freed
      exact (ih rest).trans same

theorem uvmunmap_refused {va npages : Word} {doFree : Bool}
    (ran : uvmunmap m pt va npages doFree = .ok m') : m'.kmem.refused = m.kmem.refused := by
  unfold uvmunmap at ran
  split at ran
  · cases ran
  · exact uvmunmapLoop_refused ran

/-- `uvmcopy` gives up when `kalloc` returns 0, and only then. -/
theorem uvmcopyLoop_refused {old new i : Word} {rounds : Nat}
    (ran : uvmcopyLoop old new rounds m i = .ok (result, m')) :
    m'.kmem.refused = m.kmem.refused + (!result).toNat := by
  induction rounds generalizing m i with
  | zero =>
    cases ran
    rfl
  | succ rounds ih =>
    obtain ⟨⟨found, m₁⟩, walked, rest⟩ := bind_ok ran
    obtain ⟨rfl, -⟩ := walk_find walked
    cases found with
    | none => cases rest
    | some pte =>
      have count := kalloc_refused m₁
      simp only at rest
      split at rest
      · cases rest
      split at rest
      · next null =>
        obtain ⟨m₂, unmapped, rest⟩ := bind_ok rest
        cases rest
        rw [uvmunmap_refused unmapped, count, decide_eq_true null]
        rfl
      · next got =>
        rw [decide_eq_false got] at count
        obtain ⟨⟨fits, m₂⟩, mapped, rest⟩ := bind_ok rest
        have step := mappagesLoop_refused mapped
        cases fits with
        | false =>
          obtain ⟨m₃, freed, rest⟩ := bind_ok rest
          obtain ⟨m₄, unmapped, rest⟩ := bind_ok rest
          cases rest
          have kept : m₃.kmem.refused = m₂.kmem.refused :=
            @kfreeIf_refused _ _ m₂ m₃ true _ freed
          rw [uvmunmap_refused unmapped, kept, step]
          exact congrArg (· + 1) count
        | true =>
          rw [ih rest, step]
          exact congrArg (· + _) count

end Refused

end OsbKernel.Paging
