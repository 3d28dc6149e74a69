import OsbKernel.Lib.ExceptBind
import OsbKernel.Vm.PagingBits

/-!
# What `walk` does to a page table

The laws of an allocator, and `walk` over any allocator that keeps them: it adds pages that
the allocator had, and changes no entry.
-/

namespace OsbKernel.Paging

open Function FreeRadix

/-- An allocator that hands out the pages it has, and writes to no others. -/
class LawfulAllocator (K : Type) [Allocator K] where
  Owns : Machine K → Set Word → Prop
  kalloc_null : ∀ {m S}, Owns m S → m.kalloc.1 = 0 → Owns m.kalloc.2 S ∧ m.kalloc.2.mem = m.mem
  kalloc_page : ∀ {m S}, Owns m S → m.kalloc.1 ≠ 0 →
    m.kalloc.1 ∈ S ∧ m.kalloc.1.toNat % 4096 = 0 ∧ Owns m.kalloc.2 (S \ {m.kalloc.1}) ∧
      ∀ x, x ≠ m.kalloc.1 → m.kalloc.2.mem x = m.mem x
  kfree_ok : ∀ {m m' : Machine K} {S p}, Owns m S → p ∉ S → m.kfree p = .ok m' →
    Owns m' (insert p S) ∧ ∀ x, x ≠ p → m'.mem x = m.mem x
  write : ∀ {m m' : Machine K} {S}, Owns m S → m'.kmem = m.kmem → (∀ x ∈ S, m'.mem x = m.mem x) →
    Owns m' S

variable {K : Type} {m m' : Machine K} {pt page va : Word} {pte : PtePtr} {w : Word}

@[simp] theorem store_mem_of_ne {x : Word} (other : x ≠ pte.1) : (m.store pte w).mem x = m.mem x :=
  update_of_ne other _ _

theorem store_mem_self : (m.store pte w).mem pte.1 = update (m.mem pte.1) pte.2 w :=
  update_self _ _ _

@[simp] theorem clear_mem_of_ne {x : Word} (other : x ≠ page) : (m.clear page).mem x = m.mem x :=
  update_of_ne other _ _

theorem clear_mem_self : (m.clear page).mem page = fun _ => 0 := update_self _ _ _

section Walk

variable [Allocator K]

theorem walkLoop_find (va : Word) (level : Nat) (m : Machine K) (pt : Word) :
    walkLoop va false level m pt =
      (format.find m.mem (indices (vpn va)) level pt, m) := by
  induction level generalizing pt with
  | zero => rfl
  | succ level ih =>
    unfold walkLoop Format.find
    rw [PX_eq]
    change (if m.mem pt _ &&& PTE_V ≠ 0 then _ else _) = (if _ then _ else _, m)
    by_cases valid : m.mem pt (indices (vpn va) (level + 1)) &&& PTE_V ≠ 0
    · rw [if_pos valid, if_pos (valid_iff.mpr valid)]
      exact ih _
    · have invalid : ¬ format.valid (m.mem pt (indices (vpn va) (level + 1))) = true :=
        fun known => valid (valid_iff.mp known)
      rw [if_neg valid, if_neg invalid]
      rfl

theorem walk_find {found : Option PtePtr} (walked : walk m pt va false = .ok (found, m')) :
    m' = m ∧ vpn va < VPNS ∧
      found = (format.find m.mem (indices (vpn va)) 2 pt).map
        fun page => (page, indices (vpn va) 0) := by
  unfold walk at walked
  split at walked
  · cases walked
  · rename_i below
    rw [walkLoop_find, PX_eq] at walked
    cases walked
    exact ⟨rfl, vpn_lt below, rfl⟩

variable [LawfulAllocator K]

open LawfulAllocator

/-- What `walk` with allocation has done. -/
structure Walked (m m' : Machine K) (S : Set Word) (level : Nat) (pt : Word)
    (added : List Word) : Prop where
  grows : Format.Grows format m.mem m'.mem added level pt
  owns : Owns m' (S \ {x | x ∈ added})
  nodup : added.Nodup
  fresh : ∀ x ∈ added, x ∈ S

variable {S : Set Word} {added : List Word} {level : Nat}

theorem Walked.tidy (walked : Walked m m' S 2 pt added) (tidy : Tidy m.mem pt) :
    Tidy m'.mem pt :=
  ⟨walked.grows.linked tidy.linked,
    fun v low high => (walked.grows.lookup _ (indices_lt v)).trans (tidy.upper v low high)⟩

theorem Walked.refl (owns : Owns m' S) (mem : m'.mem = m.mem) (level : Nat)
    (pt : Word) : Walked m m' S level pt [] := by
  refine ⟨?_, ?_, List.nodup_nil, ?_⟩
  · rw [mem]
    exact Format.Grows.refl _ _ _ _
  · simpa using owns
  · intro x listed
    cases listed

theorem link_valid (page : Word) : format.valid (PA2PTE page ||| PTE_V) = true :=
  valid_iff.mpr (valid_or _)

theorem link_ptr {page : Word} (aligned : page.toNat % 4096 = 0) :
    format.ptr (PA2PTE page ||| PTE_V) = page :=
  (pte2pa_pte (by decide)).trans (pgrounddown_of_aligned aligned)

theorem link_link (page : Word) : format.link (PA2PTE page ||| PTE_V) := by
  apply BitVec.eq_of_getLsbD_eq
  intro i below
  have mask : ∀ i < 64, (PTE_R ||| PTE_W ||| PTE_X).getLsbD i = decide (1 ≤ i ∧ i < 4) := by decide
  have valid : ∀ i < 64, PTE_V.getLsbD i = decide (i = 0) := by decide
  rw [BitVec.getLsbD_and, BitVec.getLsbD_or, mask i below, valid i below, PA2PTE,
    BitVec.getLsbD_shiftLeft]
  by_cases flag : 1 ≤ i ∧ i < 4
  · have low : i < 10 := by omega
    have high : i ≠ 0 := by omega
    simp [low, high]
  · simp [flag]

theorem Walked.attach {i : Nat} (owns : Owns m S) (inside : i < format.width)
    (nodup : (format.nodes m.mem (level + 1) pt).Nodup)
    (apart : ∀ x ∈ format.nodes m.mem (level + 1) pt, x ∉ S)
    (invalid : format.valid (m.mem pt i) = false) (got : m.kalloc.1 ≠ 0) :
    Walked m ((m.kalloc.2.clear m.kalloc.1).store (pt, i) (PA2PTE m.kalloc.1 ||| PTE_V)) S
      (level + 1) pt [m.kalloc.1] := by
  obtain ⟨had, aligned, owns', others⟩ := kalloc_page owns got
  generalize m.kalloc.1 = p at *
  generalize m.kalloc.2 = m₁ at *
  have fresh : p ∉ format.nodes m.mem (level + 1) pt := fun listed => apart p listed had
  have other : pt ≠ p := by
    rintro rfl
    exact fresh (Format.self_mem_nodes _)
  have top : (m₁.clear p).mem pt = m.mem pt := by
    rw [clear_mem_of_ne other, others pt other]
  refine ⟨?_, ?_, List.nodup_singleton p, ?_⟩
  · refine Format.Grows.attach fresh inside nodup invalid ?_ ?_ ?_ ?_ ?_ ?_
    · rw [store_mem_self, update_self]
      exact link_valid p
    · rw [store_mem_self, update_self]
      exact link_link p
    · rw [store_mem_self, update_self]
      exact link_ptr aligned
    · intro k differ
      rw [store_mem_self, update_of_ne differ]
      exact congrFun top k
    · intro k
      rw [store_mem_of_ne other.symm, clear_mem_self]
      exact invalid_iff.mpr zero_invalid
    · intro x notTop notNew
      rw [store_mem_of_ne notTop, clear_mem_of_ne notNew]
      exact others x notNew
  · have same : S \ {x | x ∈ [p]} = S \ {p} := by
      ext x
      simp
    rw [same]
    refine write owns' rfl ?_
    rintro x ⟨inS, notNew⟩
    have notTop : x ≠ pt := by
      rintro rfl
      exact apart x (Format.self_mem_nodes _) inS
    rw [store_mem_of_ne notTop, clear_mem_of_ne notNew]
  · intro x listed
    rw [List.mem_singleton.mp listed]
    exact had

theorem diff_append (S : Set Word) (added added' : List Word) :
    S \ {x | x ∈ added' ++ added} = (S \ {x | x ∈ added}) \ {x | x ∈ added'} := by
  ext x
  simp only [Set.mem_sdiff, Set.mem_ofPred_eq, List.mem_append, not_or]
  constructor
  · rintro ⟨inS, later, earlier⟩
    exact ⟨⟨inS, earlier⟩, later⟩
  · rintro ⟨⟨inS, earlier⟩, later⟩
    exact ⟨inS, later, earlier⟩

theorem fresh_append {added' : List Word} (nodup : added.Nodup) (fresh : ∀ x ∈ added, x ∈ S)
    (nodup' : added'.Nodup) (fresh' : ∀ x ∈ added', x ∈ S \ {x | x ∈ added}) :
    (added' ++ added).Nodup ∧ ∀ x ∈ added' ++ added, x ∈ S := by
  refine ⟨List.nodup_append.mpr ⟨nodup', nodup, ?_⟩, fun x listed => ?_⟩
  · rintro x later _ earlier rfl
    exact (fresh' x later).2 earlier
  · rcases List.mem_append.mp listed with later | earlier
    · exact (fresh' x later).1
    · exact fresh x earlier

theorem Walked.trans {m'' : Machine K} {added' : List Word}
    (first : Walked m m' S level pt added)
    (second : Walked m' m'' (S \ {x | x ∈ added}) level pt added') :
    Walked m m'' S level pt (added' ++ added) := by
  obtain ⟨nodup, fresh⟩ := fresh_append first.nodup first.fresh second.nodup second.fresh
  refine ⟨first.grows.trans second.grows, ?_, nodup, fresh⟩
  rw [diff_append]
  exact second.owns

theorem Walked.apart (walked : Walked m m' S level pt added)
    (nodup : (format.nodes m.mem level pt).Nodup)
    (apart : ∀ x ∈ format.nodes m.mem level pt, x ∉ S) :
    (format.nodes m'.mem level pt).Nodup ∧
      ∀ x ∈ format.nodes m'.mem level pt, x ∉ S \ {x | x ∈ added} := by
  constructor
  · rw [walked.grows.nodes.nodup_iff]
    refine List.nodup_append.mpr ⟨walked.nodup, nodup, ?_⟩
    rintro x new _ old rfl
    exact apart x old (walked.fresh x new)
  · intro x listed
    rcases List.mem_append.mp (walked.grows.nodes.mem_iff.mp listed) with new | old
    · exact fun inside => inside.2 new
    · exact fun inside => apart x old inside.1

/-- `walk` with allocation has come to the leaf table, if it returns one. -/
def Arrives (va : Word) (m : Machine K) (S : Set Word) (level : Nat) (pt : Word)
    (result : Option Word × Machine K) : Prop :=
  ∃ added, Walked m result.2 S level pt added ∧
    ∀ leaf, result.1 = some leaf →
      format.find result.2.mem (indices (vpn va)) level pt = some leaf

theorem Arrives.descend {result : Option Word × Machine K}
    (nodup : (format.nodes m.mem (level + 1) pt).Nodup)
    (apart : ∀ x ∈ format.nodes m.mem (level + 1) pt, x ∉ S)
    (valid : format.valid (m.mem pt (indices (vpn va) (level + 1))) = true)
    (below : Arrives va m S level (format.ptr (m.mem pt (indices (vpn va) (level + 1)))) result) :
    Arrives va m S (level + 1) pt result := by
  have inside : indices (vpn va) (level + 1) < format.width := indices_lt _ _
  obtain ⟨added, walked, found⟩ := below
  have fresh : ∀ x ∈ added, x ∉ format.nodes m.mem (level + 1) pt :=
    fun x new listed => apart x listed (walked.fresh x new)
  refine ⟨added, ⟨walked.grows.descend nodup inside valid fresh, walked.owns, walked.nodup,
    walked.fresh⟩, fun leaf known => ?_⟩
  have top := walked.grows.frame pt (fun listed => by
    refine Format.self_not_under nodup inside ?_
    rwa [Format.under_of_valid valid]) fun new => fresh _ new (Format.self_mem_nodes _)
  have here := congrFun top (indices (vpn va) (level + 1))
  rw [Format.find_succ_of_valid (by rw [here]; exact valid), here]
  exact found leaf known

theorem walkLoop_alloc (owns : Owns m S)
    (nodup : (format.nodes m.mem level pt).Nodup)
    (apart : ∀ x ∈ format.nodes m.mem level pt, x ∉ S) :
    Arrives va m S level pt (walkLoop va true level m pt) := by
  induction level generalizing m pt S with
  | zero =>
    refine ⟨[], Walked.refl owns rfl 0 pt, fun leaf found => ?_⟩
    cases found
    rfl
  | succ level ih =>
    have inside : indices (vpn va) (level + 1) < format.width := indices_lt _ _
    unfold walkLoop
    rw [PX_eq]
    simp only [Machine.load]
    by_cases valid : m.mem pt (indices (vpn va) (level + 1)) &&& PTE_V ≠ 0
    · have known := valid_iff.mpr valid
      have sub := Format.under_nodup nodup inside
      rw [Format.under_of_valid known] at sub
      rw [if_pos valid]
      refine Arrives.descend nodup apart known (ih owns sub fun x listed => ?_)
      refine apart x (Format.mem_nodes_of_under inside ?_)
      rwa [Format.under_of_valid known]
    · have invalid : format.valid (m.mem pt (indices (vpn va) (level + 1))) = false :=
        invalid_iff.mpr (not_not.mp valid)
      rw [if_neg valid]
      by_cases null : m.kalloc.1 = 0
      · obtain ⟨owns', mem⟩ := kalloc_null owns null
        rw [if_pos null]
        refine ⟨[], Walked.refl owns' mem _ _, fun leaf found => ?_⟩
        cases found
      · rw [if_neg null]
        have first := Walked.attach owns inside nodup apart invalid null
        obtain ⟨nodup₁, apart₁⟩ := first.apart nodup apart
        obtain ⟨-, aligned, -, -⟩ := kalloc_page owns null
        generalize m.kalloc.1 = p at *
        generalize m.kalloc.2 = m₁ at *
        -- the new table is the tree behind the new link
        have cell : ((m₁.clear p).store (pt, indices (vpn va) (level + 1))
            (PA2PTE p ||| PTE_V)).mem pt (indices (vpn va) (level + 1)) =
            PA2PTE p ||| PTE_V := by
          rw [store_mem_self]
          exact update_self _ _ _
        have linked : format.valid (((m₁.clear p).store (pt, indices (vpn va) (level + 1))
            (PA2PTE p ||| PTE_V)).mem pt (indices (vpn va) (level + 1))) = true := by
          rw [cell]
          exact link_valid p
        have sub := Format.under_nodup nodup₁ inside
        have listed := @Format.mem_nodes_of_under _ _ format
          ((m₁.clear p).store (pt, indices (vpn va) (level + 1)) (PA2PTE p ||| PTE_V)).mem level
          (indices (vpn va) (level + 1)) pt
        rw [Format.under_of_valid linked, cell, link_ptr aligned] at sub listed
        have second := ih first.owns sub fun x known => apart₁ x (listed inside known)
        have point := Arrives.descend nodup₁ apart₁ linked (by
          rw [cell, link_ptr aligned]
          exact second)
        obtain ⟨added, walked, found⟩ := point
        exact ⟨added ++ [p], first.trans walked, found⟩

end Walk

end OsbKernel.Paging
