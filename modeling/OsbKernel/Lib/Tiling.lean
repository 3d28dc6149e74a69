import Mathlib.Algebra.GroupWithZero.Nat
import Mathlib.Data.List.Chain
import Mathlib.Data.List.Perm.Basic
import Mathlib.Data.List.Pairwise

/-!
# Memory cut into blocks, and chains of links

A block is a start and a length. Blocks tile a memory when they do not overlap and the cells in
them are the memory's. `find` is a loop that follows links until a test stops it.
-/

namespace OsbKernel.Tiling

def Apart (b c : Nat × Nat) : Prop := b.1 + b.2 ≤ c.1 ∨ c.1 + c.2 ≤ b.1

instance : Std.Symm Apart := ⟨fun _ _ => Or.symm⟩

/-- The blocks do not overlap, and together they are `mem`. -/
structure Tiles (blocks : List (Nat × Nat)) (mem : Nat → Prop) : Prop where
  apart : blocks.Pairwise Apart
  covers : ∀ x, mem x ↔ ∃ b ∈ blocks, b.1 ≤ x ∧ x < b.1 + b.2

variable {blocks others : List (Nat × Nat)} {mem : Nat → Prop} {a n k : Nat}

theorem Tiles.perm (tiles : Tiles blocks mem) (same : blocks.Perm others) : Tiles others mem where
  apart := (same.pairwise_iff Or.symm).mp tiles.apart
  covers x := by
    rw [tiles.covers]
    simp only [same.mem_iff]

theorem Tiles.end_le (tiles : Tiles blocks mem) {b c : Nat × Nat} (here : b ∈ blocks)
    (there : c ∈ blocks) (less : b.1 < c.1) : b.1 + b.2 ≤ c.1 := by
  have different : b ≠ c := fun same => Nat.ne_of_lt less (congrArg Prod.fst same)
  have separate := tiles.apart.forall here there different
  exact separate.resolve_right (by omega)

theorem Tiles.inside (tiles : Tiles blocks mem) (here : (a, n) ∈ blocks) {x : Nat} (low : a ≤ x)
    (high : x < a + n) : mem x :=
  (tiles.covers x).mpr ⟨(a, n), here, low, high⟩

theorem Tiles.split (tiles : Tiles ((a, n + k) :: blocks) mem) :
    Tiles ((a, n) :: (a + n, k) :: blocks) mem := by
  obtain ⟨separate, rest⟩ := List.pairwise_cons.mp tiles.apart
  refine ⟨List.pairwise_cons.mpr ⟨?_, List.pairwise_cons.mpr ⟨?_, rest⟩⟩, ?_⟩
  · intro c member
    rcases List.mem_cons.mp member with rfl | member
    · exact .inl (Nat.le_refl _)
    · have known := separate c member
      simp only [Apart] at known ⊢
      omega
  · intro c member
    have known := separate c member
    simp only [Apart] at known ⊢
    omega
  · intro x
    rw [tiles.covers]
    simp only [List.exists_mem_cons_iff]
    rw [← or_assoc]
    apply or_congr_left
    omega

theorem Tiles.join (tiles : Tiles ((a, n) :: (a + n, k) :: blocks) mem)
    (filled : ∀ c ∈ blocks, c.1 = a + n → 0 < c.2) : Tiles ((a, n + k) :: blocks) mem := by
  obtain ⟨first, rest⟩ := List.pairwise_cons.mp tiles.apart
  obtain ⟨second, rest⟩ := List.pairwise_cons.mp rest
  refine ⟨List.pairwise_cons.mpr ⟨?_, rest⟩, ?_⟩
  · intro c member
    have low := first c (List.mem_cons_of_mem _ member)
    have high := second c member
    have some := filled c member
    simp only [Apart] at low high ⊢
    omega
  · intro x
    rw [tiles.covers]
    simp only [List.exists_mem_cons_iff]
    rw [← or_assoc]
    apply or_congr_left
    omega

theorem Tiles.extend (tiles : Tiles blocks mem) (above : ∀ b ∈ blocks, b.1 + b.2 ≤ a) :
    Tiles ((a, n) :: blocks) (fun x => mem x ∨ a ≤ x ∧ x < a + n) := by
  refine ⟨List.pairwise_cons.mpr ⟨fun b member => .inr (above b member), tiles.apart⟩, ?_⟩
  intro x
  rw [List.exists_mem_cons_iff, tiles.covers, or_comm]

theorem length_le_sum (regions : List (Nat × Nat))
    (inside : ∀ x, a ≤ x → x < a + n → ∃ r ∈ regions, r.1 ≤ x ∧ x < r.1 + r.2) :
    n ≤ (regions.map Prod.snd).sum := by
  have cells : List.range' a n ⊆ regions.flatMap fun r => List.range' r.1 r.2 := by
    intro x member
    rw [List.mem_range'_1] at member
    obtain ⟨r, known, within⟩ := inside x member.1 member.2
    exact List.mem_flatMap.mpr ⟨r, known, List.mem_range'_1.mpr within⟩
  have shorter := (List.subperm_of_subset List.nodup_range' cells).length_le
  simpa only [List.length_flatMap, List.length_range'] using shorter

/-- Follow the links from `a` until the test stops, for so many rounds. -/
def find (next : Nat → Nat) (stop : Nat → Bool) : Nat → Nat → Option Nat
  | 0, _ => none
  | rounds + 1, a => if stop a then some a else find next stop rounds (next a)

variable {next : Nat → Nat} {stop : Nat → Bool}

theorem find_add {rounds a y : Nat} (found : find next stop rounds a = some y) (k : Nat) :
    find next stop (rounds + k) a = some y := by
  induction rounds generalizing a with
  | zero => cases found
  | succ rounds ih =>
    rw [Nat.add_right_comm]
    rw [find] at found ⊢
    split at found
    · next here => rwa [if_pos here]
    · next on =>
      rw [if_neg on]
      exact ih found

theorem find_chain (l : List Nat) {a : Nat}
    (links : (a :: l).IsChain fun a b => next a = b) (stops : ∃ y ∈ a :: l, stop y) :
    ∃ y ∈ a :: l, stop y ∧ ∀ rounds, l.length < rounds → find next stop rounds a = some y := by
  by_cases here : stop a
  · refine ⟨a, List.mem_cons_self, here, ?_⟩
    rintro (- | rounds) enough
    · omega
    · exact if_pos here
  obtain ⟨y, member, now⟩ := stops
  rcases List.mem_cons.mp member with rfl | member
  · exact absurd now here
  match l, links, member with
  | b :: l, links, member =>
    obtain ⟨link, links⟩ := List.isChain_cons_cons.mp links
    obtain ⟨y, member, now, found⟩ := find_chain l links ⟨y, member, now⟩
    refine ⟨y, List.mem_cons_of_mem _ member, now, ?_⟩
    rintro (- | rounds) enough
    · omega
    · rw [find, if_neg here, link]
      exact found rounds (Nat.lt_of_succ_lt_succ enough)

/-- Whether a chain holds up to `z` does not depend on what the relation says from `z` on. -/
theorem chain_imp {R S : Nat → Nat → Prop} {l : List Nat} {z : Nat} (links : (l ++ [z]).IsChain R)
    (same : ∀ a ∈ l, ∀ b, R a b → S a b) : (l ++ [z]).IsChain S := by
  rw [List.isChain_append] at links ⊢
  obtain ⟨inner, last, ends⟩ := links
  refine ⟨inner.imp_of_mem_imp fun a b known _ => same a known b, .singleton z, ?_⟩
  exact fun a final b found => same a (List.mem_of_getLast? final) b (ends a final b found)

theorem chain_from {l : List Nat} {base f : Nat} (first : l.head? = some base)
    (links : (l ++ [base]).IsChain fun a b => next a = b) (member : f ∈ l) :
    ∃ m, (f :: (m ++ [f])).IsChain (fun a b => next a = b) ∧ (f :: m).Perm l := by
  obtain ⟨pre, post, rfl⟩ := List.append_of_mem member
  rw [List.append_assoc, List.cons_append] at links
  obtain ⟨low, high⟩ := List.isChain_split.mp links
  refine ⟨post ++ pre, ?_, (@List.perm_append_comm _ (f :: post) pre)⟩
  cases pre with
  | nil =>
    obtain rfl : f = base := Option.some.inj first
    rwa [List.append_nil]
  | cons b pre =>
    obtain rfl : b = base := Option.some.inj first
    rw [List.append_assoc, ← List.cons_append]
    exact List.isChain_split.mpr ⟨high, low⟩

end OsbKernel.Tiling
