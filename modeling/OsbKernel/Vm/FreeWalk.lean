import OsbKernel.Vm.NoPanic

/-!
# Freeing a page table

`freewalk` gives back all pages of a page table that has no entries left.
-/

namespace OsbKernel.Paging

open Function FreeRadix ExceptBind LawfulAllocator RamAllocator

variable {K : Type} [Allocator K] [LawfulAllocator K] [RamAllocator K] {m m' : Machine K}
  {S : Set Word} {pt : Word} {level : Nat}

/-- The machine after the pages `freed` have gone back. -/
structure Freed (m m' : Machine K) (S : Set Word) (freed : List Word) : Prop where
  owns : Owns m' (S ∪ {x | x ∈ freed})
  frame : ∀ x, x ∉ freed → m'.mem x = m.mem x

/-- What `freewalk` does to a table one level down, in any machine with the same table. -/
def Visits (visit : Machine K → Word → Except Fault (Machine K)) (m₀ : Machine K) (child : Word)
    (pages : List Word) : Prop :=
  ∀ m S, Owns m S → (∀ x ∈ pages, m.mem x = m₀.mem x) → (∀ x ∈ pages, x ∉ S) →
    ∃ m', visit m child = .ok m' ∧ Freed m m' S pages

variable {pages : List Word}

omit [RamAllocator K] in
theorem freewalk_round {i : Nat} (freed : Freed m m' S pages)
    (apart : pt ∉ S) (other : pt ∉ pages) :
    Owns (m'.store (pt, i) 0) (S ∪ {x | x ∈ pages}) ∧
      ∀ x, x ≠ pt → x ∉ pages → (m'.store (pt, i) 0).mem x = m.mem x := by
  constructor
  · refine write freed.owns rfl fun x member => store_mem_of_ne ?_
    rintro rfl
    rcases member with inS | gone
    · exact apart inS
    · exact other gone
  · intro x notTop kept
    rw [store_mem_of_ne notTop]
    exact freed.frame x kept

omit [RamAllocator K] in
theorem freewalkLoop_frees (m₀ : Machine K) {visit : Machine K → Word → Except Fault (Machine K)}
    {under : Nat → List Word} {cells : List Nat} (owns : Owns m S) (apart : pt ∉ S)
    (same : ∀ i ∈ cells, m.mem pt i = m₀.mem pt i ∧ ∀ x ∈ under i, m.mem x = m₀.mem x)
    (away : ∀ i ∈ cells, pt ∉ under i ∧ ∀ x ∈ under i, x ∉ S)
    (disjoint : cells.Pairwise fun i j => ∀ x ∈ under i, x ∉ under j)
    (invalid : ∀ i ∈ cells, format.valid (m₀.mem pt i) = false → under i = [])
    (valid : ∀ i ∈ cells, format.valid (m₀.mem pt i) = true →
      format.link (m₀.mem pt i) ∧ Visits visit m₀ (format.ptr (m₀.mem pt i)) (under i))
    (nodup : cells.Nodup) :
    ∃ m', freewalkLoop visit pt cells m = .ok m' ∧
      Owns m' (S ∪ {x | x ∈ cells.flatMap under}) ∧
      ∀ x, x ≠ pt → x ∉ cells.flatMap under → m'.mem x = m.mem x := by
  induction cells generalizing m S with
  | nil =>
    refine ⟨m, rfl, ?_, fun _ _ _ => rfl⟩
    simpa using owns
  | cons i cells ih =>
    obtain ⟨cell, pages⟩ := same i List.mem_cons_self
    obtain ⟨other, taken⟩ := away i List.mem_cons_self
    obtain ⟨first, later⟩ := List.pairwise_cons.mp disjoint
    obtain ⟨once, nodup'⟩ := List.nodup_cons.mp nodup
    unfold freewalkLoop
    simp only [Machine.load, cell]
    cases known : format.valid (m₀.mem pt i) with
    | false =>
      have clear : ¬ m₀.mem pt i &&& PTE_V ≠ 0 := not_not.mpr (invalid_iff.mp known)
      rw [if_neg (fun both => clear both.1), if_neg clear, List.flatMap_cons,
        invalid i List.mem_cons_self known, List.nil_append]
      exact ih owns apart (fun j listed => same j (List.mem_cons_of_mem _ listed))
        (fun j listed => away j (List.mem_cons_of_mem _ listed)) later
        (fun j listed => invalid j (List.mem_cons_of_mem _ listed))
        (fun j listed => valid j (List.mem_cons_of_mem _ listed)) nodup'
    | true =>
      obtain ⟨link, visits⟩ := valid i List.mem_cons_self known
      obtain ⟨m₁, visited, freed⟩ := visits m S owns pages taken
      obtain ⟨owns₁, frame₁⟩ := freewalk_round (i := i) freed apart other
      rw [if_pos ⟨valid_iff.mp known, link⟩]
      have visited' : visit m (PTE2PA (m₀.mem pt i)) = .ok m₁ := visited
      have next := ih owns₁ (by
        rintro (inS | gone)
        · exact apart inS
        · exact other gone) (by
        intro j listed
        obtain ⟨cell', pages'⟩ := same j (List.mem_cons_of_mem _ listed)
        have differ : j ≠ i := by
          rintro rfl
          exact once listed
        refine ⟨?_, ?_⟩
        · rw [store_mem_self, update_of_ne differ, freed.frame _ other]
          exact cell'
        · intro x member
          obtain ⟨other', -⟩ := away j (List.mem_cons_of_mem _ listed)
          rw [frame₁ x (by rintro rfl; exact other' member) fun both => first j listed x both member]
          exact pages' x member) (by
        intro j listed
        obtain ⟨other', taken'⟩ := away j (List.mem_cons_of_mem _ listed)
        refine ⟨other', fun x member => ?_⟩
        rintro (inS | gone)
        · exact taken' x member inS
        · exact first j listed x gone member) later
        (fun j listed => invalid j (List.mem_cons_of_mem _ listed))
        (fun j listed => valid j (List.mem_cons_of_mem _ listed)) nodup'
      obtain ⟨m₂, ran, owns₂, frame₂⟩ := next
      refine ⟨m₂, ?_, ?_, ?_⟩
      · rw [visited']
        exact ran
      · rw [List.flatMap_cons]
        have sets : S ∪ {x | x ∈ under i ++ cells.flatMap under} =
            S ∪ {x | x ∈ under i} ∪ {x | x ∈ cells.flatMap under} := by
          ext x
          simp [or_assoc]
        rw [sets]
        exact owns₂
      · intro x notTop kept
        rw [List.flatMap_cons, List.mem_append, not_or] at kept
        rw [frame₂ x notTop kept.2, frame₁ x notTop kept.1]

theorem freewalk_top {depth : Nat} (apart : pt ∉ S)
    (other : pt ∉ pages) (ram : Ram K pt)
    (loop : ∃ m', freewalkLoop (freewalk depth) pt (List.range 512) m = .ok m' ∧
      Owns m' (S ∪ {x | x ∈ pages}) ∧
      ∀ x, x ≠ pt → x ∉ pages → m'.mem x = m.mem x) :
    ∃ m', freewalk (depth + 1) m pt = .ok m' ∧ Freed m m' S (pt :: pages) := by
  obtain ⟨m₁, ran, owns, frame⟩ := loop
  obtain ⟨m₂, freed⟩ := kfree_some m₁ ram
  have absent : pt ∉ S ∪ {x | x ∈ pages} := by
    rintro (inS | gone)
    · exact apart inS
    · exact other gone
  obtain ⟨owns', others⟩ := kfree_ok owns absent freed
  refine ⟨m₂, ?_, ?_, ?_⟩
  · have unfolded : freewalk (depth + 1) m pt =
        freewalkLoop (freewalk depth) pt (List.range 512) m >>= fun m => m.kfree pt := rfl
    rw [unfolded, ran]
    exact freed
  · have sets : S ∪ {x | x ∈ pt :: pages} = insert pt (S ∪ {x | x ∈ pages}) := by
      ext x
      simp only [Set.mem_union, Set.mem_ofPred_eq, List.mem_cons, Set.mem_insert_iff]
      exact or_left_comm
    rw [sets]
    exact owns'
  · intro x kept
    rw [List.mem_cons, not_or] at kept
    rw [others x kept.1, frame x kept.1 kept.2]

theorem freewalk_frees (owns : Owns m S) (nodup : (format.nodes m.mem level pt).Nodup)
    (apart : ∀ x ∈ format.nodes m.mem level pt, x ∉ S)
    (ram : ∀ x ∈ format.nodes m.mem level pt, Ram K x)
    (linked : format.Linked m.mem level pt) (bare : format.Bare m.mem level pt) :
    ∃ m', freewalk (level + 1) m pt = .ok m' ∧
      Freed m m' S (format.nodes m.mem level pt) := by
  induction level generalizing m S pt with
  | zero =>
    have top : pt ∈ format.nodes m.mem 0 pt := List.mem_cons_self
    refine freewalk_top (apart _ top) List.not_mem_nil (ram _ top) ?_
    have none : (List.range 512).flatMap (fun _ => ([] : List Word)) = [] := by simp
    rw [← none]
    refine freewalkLoop_frees m owns (apart _ top) ?_ ?_ ?_ (fun _ _ _ => rfl) ?_ List.nodup_range
    · exact fun _ _ => ⟨rfl, fun _ listed => absurd listed List.not_mem_nil⟩
    · exact fun _ _ => ⟨List.not_mem_nil, fun _ listed => absurd listed List.not_mem_nil⟩
    · exact List.pairwise_of_forall fun _ _ _ listed => absurd listed List.not_mem_nil
    · intro i listed valid
      rw [bare i (List.mem_range.mp listed)] at valid
      cases valid
  | succ level ih =>
    have top : pt ∈ format.nodes m.mem (level + 1) pt := Format.self_mem_nodes _
    refine freewalk_top (apart _ top) ?_ (ram _ top) ?_
    · intro listed
      obtain ⟨i, inside, member⟩ := List.mem_flatMap.mp listed
      exact Format.self_not_under nodup (List.mem_range.mp inside) member
    · refine freewalkLoop_frees m owns (apart _ top) (fun _ _ => ⟨rfl, fun _ _ => rfl⟩) ?_ ?_
        (fun i _ invalid => Format.under_of_invalid invalid) ?_ List.nodup_range
      · intro i listed
        have inside := List.mem_range.mp listed
        exact ⟨Format.self_not_under nodup inside,
          fun x member => apart x (Format.mem_nodes_of_under inside member)⟩
      · refine List.Pairwise.imp_of_mem ?_ List.nodup_range
        intro i j first second differ x member both
        exact differ (Format.under_apart nodup (List.mem_range.mp first) (List.mem_range.mp second)
          member both)
      · intro i listed valid
        have inside := List.mem_range.mp listed
        obtain ⟨link, sub⟩ := linked i inside valid
        refine ⟨link, ?_⟩
        have distinct := Format.under_nodup nodup inside
        have part : ∀ x ∈ format.nodes m.mem level (format.ptr (m.mem pt i)),
            x ∈ format.nodes m.mem (level + 1) pt := by
          intro x member
          refine Format.mem_nodes_of_under inside ?_
          rwa [Format.under_of_valid valid]
        change Visits _ _ _ (format.under m.mem level (m.mem pt i))
        rw [Format.under_of_valid valid] at distinct ⊢
        -- the subtree is the same in every machine that the loop can be in
        intro m₁ S₁ owns₁ same taken
        have shape := Format.nodes_congr same
        have result := ih owns₁ (by rw [shape]; exact distinct) (by rw [shape]; exact taken)
          (by rw [shape]; exact fun x member => ram x (part x member))
          (Format.linked_congr same sub) (Format.bare_congr same (bare i inside valid))
        rw [shape] at result
        exact result

end OsbKernel.Paging
