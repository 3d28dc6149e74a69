import OsbKernel.User.Malloc
import Mathlib.Logic.Relation

/-!
# Every run of `malloc` and `free`

The states a program reaches by calling `malloc` and `free` and writing to the blocks it holds,
when `sbrk` only ever hands out fresh memory.
-/

namespace OsbKernel.Umalloc

open Tiling Function

/-- The memory `sbrk` handed out: start and length. -/
def regions (calls : List (Nat × Option Nat)) : List (Nat × Nat) :=
  calls.filterMap fun c => c.2.map (·, c.1)

def Got (calls : List (Nat × Option Nat)) (x : Nat) : Prop :=
  ∃ r ∈ regions calls, r.1 ≤ x ∧ x < r.1 + r.2

/-- Every request fits in an `int`, and all memory together counts less than `2 ^ 32` headers. -/
def Within (calls : List (Nat × Option Nat)) : Prop :=
  (∀ c ∈ calls, c.1 < 2 ^ 31) ∧ ((regions calls).map Prod.snd).sum < 2 ^ 36

variable {calls : List (Nat × Option Nat)} {ap nunits : Nat} {nodes live : List Nat}
    {mem : Nat → Prop}

theorem Within.small (within : Within calls) :
    Small (Got calls) := by
  intro a n inside
  have bound := length_le_sum (regions calls) inside
  have total := within.2
  omega

theorem Within.of_append {more : List (Nat × Option Nat)} (within : Within (calls ++ more)) :
    Within calls := by
  refine ⟨fun c member => within.1 c (List.mem_append_left _ member), ?_⟩
  have total := within.2
  rw [regions, List.filterMap_append, List.map_append, List.sum_append] at total
  exact Nat.lt_of_le_of_lt (Nat.le_add_right _ _) total

/-- `live` holds the headers of the blocks in use; the program's pointers are 16 above. -/
structure State (σ : Type) where
  heap : Heap
  env : σ
  live : List Nat

section

variable {σ : Type} (os : Os σ) (base : Nat)

/-- `sbrk` of a size that is not negative fails, or hands out mapped memory above all before it;
what was mapped stays so. -/
def Fresh (top : σ → Nat) : Prop :=
  ∀ s k, 0 ≤ k → match os.sbrk s k with
    | (none, s') => top s ≤ top s' ∧ ∀ x, os.mapped s x → os.mapped s' x
    | (some a, s') => (top s ≤ a ∧ a + k.toNat ≤ top s') ∧
      ∀ x, os.mapped s x ∨ a ≤ x ∧ x < a + k.toNat → os.mapped s' x

/-- A call returns, or the program writes inside the blocks it holds. -/
inductive Step : State σ → State σ → Prop
  | malloc {st : State σ} {rounds p : Nat} {nbytes : BitVec 32} {h' : Heap} {s' : σ} :
    malloc os rounds base nbytes st.heap st.env = some (p, h', s') →
    Step st ⟨h', s', if p = 0 then st.live else (p - 16) :: st.live⟩
  | free {st : State σ} {rounds a : Nat} {rest : List Nat} {h' : Heap} :
    st.live.Perm (a :: rest) → free (os.mapped st.env) rounds st.heap (a + 16) = some h' →
    Step st ⟨h', st.env, rest⟩
  | write {st : State σ} {ptr size : Nat → Nat} :
    (∀ a, (∀ b ∈ st.live, a ≤ b ∨ b + 16 * st.heap.size b ≤ a) →
      ptr a = st.heap.ptr a ∧ size a = st.heap.size a) →
    Step st { st with heap := { st.heap with ptr := ptr, size := size } }

end

section Rounds

variable {σ : Type} {os : Os σ} {h h' : Heap} {s s' : σ} {rounds : Nat} {mapped : Nat → Bool}

theorem free_calls (ran : free mapped rounds h ap = some h') : h'.calls = h.calls := by
  simp only [free, Option.bind_eq_bind, Option.bind_eq_some_iff] at ran
  obtain ⟨p, -, ran⟩ := ran
  split at ran
  · cases ran
    simp only [joinLower, joinUpper]
    split <;> split <;> rfl
  · cases ran

theorem free_add (ran : free mapped rounds h ap = some h') (k : Nat) :
    free mapped (rounds + k) h ap = some h' := by
  simp only [free, Option.bind_eq_bind, Option.bind_eq_some_iff] at ran ⊢
  obtain ⟨p, found, same⟩ := ran
  exact ⟨p, find_add found k, same⟩

theorem morecore_add {nu : Nat} {r : Bool × Heap × σ} (k : Nat)
    (ran : morecore os rounds nu h s = some r) :
    morecore os (rounds + k) nu h s = some r ∧ r.2.1.calls = h.calls ++
      [(coreUnits nu * 16, (os.sbrk s (BitVec.ofNat 32 (coreUnits nu * 16)).toInt).1)] := by
  simp only [morecore] at ran ⊢
  split at ran
  · next reply =>
    rw [reply] at ran ⊢
    cases ran
    exact ⟨rfl, rfl⟩
  · next hp reply =>
    rw [reply] at ran ⊢
    split at ran
    · next able =>
      simp only [able, if_true, Option.bind_eq_bind, Option.bind_eq_some_iff,
        Option.some.injEq] at ran ⊢
      obtain ⟨h'', freed, rfl⟩ := ran
      exact ⟨⟨h'', free_add freed k, rfl⟩, free_calls freed⟩
    · cases ran

variable {r : Nat × Heap × σ} {st : State σ}

theorem search_add {prevp p : Nat} (ran : search os nunits rounds h s prevp p = some r) (k : Nat) :
    search os nunits (rounds + k) h s prevp p = some r ∧ ∃ more, r.2.1.calls = h.calls ++ more := by
  induction rounds generalizing h s prevp p with
  | zero => cases ran
  | succ rounds ih =>
    rw [Nat.add_right_comm]
    rw [search] at ran ⊢
    split at ran
    · cases ran
    next able =>
    rw [if_neg able]
    split at ran
    · next fits =>
      rw [if_pos fits]
      refine ⟨ran, [], ?_⟩
      split at ran
      · cases ran
        simp only [take]
        split <;> exact (List.append_nil _).symm
      · cases ran
    · next misses =>
      rw [if_neg misses]
      split at ran
      · next last =>
        rw [if_pos last]
        simp only [Option.bind_eq_bind, Option.bind_eq_some_iff] at ran ⊢
        obtain ⟨core, grown, ran⟩ := ran
        obtain ⟨again, calls⟩ := morecore_add k grown
        split at ran
        · next more =>
          obtain ⟨ran, added, same⟩ := ih ran
          rw [calls, List.append_assoc] at same
          exact ⟨⟨core, again, by rwa [if_pos more]⟩, _, same⟩
        · next less =>
          cases ran
          exact ⟨⟨core, again, if_neg less⟩, _, calls⟩
      · next other =>
        rw [if_neg other]
        exact ih ran

end Rounds

variable {σ : Type} {os : Os σ} {top : σ → Nat} {base : Nat}

theorem Ok.apart {h : Heap} {a b : Nat}
    (ok : Ok base h [] nodes (b :: live) mem) (member : a ∈ live) : Apart (h.extent b) (h.extent a) := by
  have distinct := ok.nodup
  refine ok.tiles.apart.forall (List.mem_map_of_mem (by simp))
    (List.mem_map_of_mem (by simp [member])) fun same => ?_
  have again : b = a := congrArg Prod.fst same
  grind

theorem Ok.sorted {h : Heap}
    (ok : Ok base h [] nodes live mem) : nodes.Pairwise fun a b => a + 16 * h.size a < b := by
  have : Trans (fun a b => a + 16 * h.size a < b) (fun a b => a + 16 * h.size a < b)
      (fun a b => a + 16 * h.size a < b) := ⟨by omega⟩
  refine List.isChain_iff_pairwise.mp (ok.chain.left_of_append.imp_of_mem_tail_imp ?_)
  rintro a b - member ⟨-, wraps | sorted | ⟨⟨⟩, -⟩⟩
  · obtain ⟨l, rfl⟩ := List.head?_eq_some_iff.mp ok.first
    exact absurd (wraps ▸ member) (@Ok.after_ne base h [] live [] l mem base ok)
  · exact sorted

theorem Ok.freep_ne {h : Heap}
    (ok : Ok base h [] nodes live mem) (positive : 0 < base) : h.freep ≠ 0 := by
  intro zero
  have member := ok.freep
  rw [zero] at member
  have above := ok.blocks 0 (List.mem_append_left _ member)
  omega

theorem start_calls (base : Nat) (h : Heap) : (start base h).calls = h.calls := by
  unfold start
  split <;> rfl

theorem start_ok {h : Heap} (new : h.freep = 0) :
    Ok base (start base h) [] [base] [] fun _ => False := by
  rw [start, if_pos new]
  exact {
    first := rfl
    chain := List.isChain_pair.mpr ⟨update_self .., .inl rfl⟩
    header := update_self ..
    freep := List.mem_cons_self
    nodup := List.pairwise_singleton _ _
    blocks := fun a member different => absurd (List.mem_singleton.mp member) different
    tiles := ⟨List.pairwise_singleton _ _, fun x => by simp [Heap.extent]⟩ }

/-- What holds between the calls: the list, the blocks and how far the memory goes. -/
structure Inv (os : Os σ) (base : Nat) (top : σ → Nat) (st : State σ) : Prop where
  ok : ∃ nodes, Ok base (start base st.heap) [] nodes st.live (Got st.heap.calls)
  unused : st.heap.freep = 0 → st.live = []
  low : base < top st.env
  below : ∀ x, Got st.heap.calls x → x < top st.env
  mapped : Mapped (os.mapped st.env) base (Got st.heap.calls)

theorem Inv.of_ok (positive : 0 < base)
    (ok : Ok base st.heap [] nodes st.live (Got st.heap.calls)) (low : base < top st.env)
    (below : ∀ x, Got st.heap.calls x → x < top st.env)
    (mapped : Mapped (os.mapped st.env) base (Got st.heap.calls)) : Inv os base top st where
  ok := ⟨nodes, by rwa [start, if_neg (ok.freep_ne positive)]⟩
  unused := fun zero => absurd zero (ok.freep_ne positive)
  low := low
  below := below
  mapped := mapped

theorem toInt_request {k : Nat} (small : k < 2 ^ 31) : (BitVec.ofNat 32 k).toInt = k := by
  have narrow : k % 2 ^ 32 = k := Nat.mod_eq_of_lt (by omega)
  rw [BitVec.toInt_eq_toNat_of_lt] <;> rw [BitVec.toNat_ofNat, narrow]
  omega

theorem got_append (calls : List (Nat × Option Nat)) (k a : Nat) :
    Got (calls ++ [(k, some a)]) = fun x => Got calls x ∨ a ≤ x ∧ x < a + k := by
  have added : regions (calls ++ [(k, some a)]) = regions calls ++ [(a, k)] := by simp [regions]
  funext x
  simp only [Got, added, List.mem_append, List.mem_singleton, or_and_right, exists_or,
    exists_eq_left]

theorem Inv.malloc (nbytes : BitVec 32) (fresh : Fresh os top)
    (positive : 0 < base) (inv : Inv os base top st)
    (ok : Ok base (start base st.heap) [] nodes st.live (Got st.heap.calls))
    (allowed : (∀ y ∈ nodes, (start base st.heap).size y < unitsFor nbytes) →
      Within (st.heap.calls ++ [(coreUnits (unitsFor nbytes) * 16,
        (os.sbrk st.env (BitVec.ofNat 32 (coreUnits (unitsFor nbytes) * 16)).toInt).1)])) :
    ∃ p h' s' N, (∀ rounds, N ≤ rounds →
        malloc os rounds base nbytes st.heap st.env = some (p, h', s')) ∧
      Inv os base top ⟨h', s', if p = 0 then st.live else (p - 16) :: st.live⟩ ∧
      (p = 0 → ∃ k, h'.calls = st.heap.calls ++ [(k, none)]) ∧
      (p ≠ 0 → nbytes.toNat ≤ 16 * (h'.size (p - 16) - 1) ∧ ∀ b ∈ st.live,
        h'.size b = (start base st.heap).size b ∧ Apart (h'.extent (p - 16)) (h'.extent b)) := by
  have units : nbytes.toNat ≤ 16 * (unitsFor nbytes - 1) ∧ 0 < unitsFor nbytes := by
    have bound := nbytes.isLt
    unfold unitsFor
    omega
  have below := inv.below
  have all := inv.mapped
  simp only [Umalloc.malloc, ok.reach all _ (List.mem_append_left _ ok.freep), if_true]
  generalize unitsFor nbytes = nunits at *
  rw [← start_calls base st.heap]
  rw [← start_calls base st.heap] at ok allowed below all
  generalize start base st.heap = h at *
  by_cases misses : ∀ y ∈ nodes, h.size y < nunits
  · have within := allowed misses
    have narrow := toInt_request (within.1 _ (List.mem_append_right _ List.mem_cons_self))
    have answer := fresh st.env (coreUnits nunits * 16 : Nat) (Int.natCast_nonneg _)
    rw [narrow] at within
    rcases reply : os.sbrk st.env (coreUnits nunits * 16 : Nat) with ⟨- | hp, s'⟩
    · rw [reply] at answer
      refine ⟨0, { h with calls := h.calls ++ [(coreUnits nunits * 16, none)] }, s', nodes.length,
        fun rounds enough => ?_, ?_, fun _ => ⟨_, rfl⟩, fun absurd => (absurd rfl).elim⟩
      · obtain ⟨more, rfl⟩ : ∃ more, rounds = more + nodes.length :=
          ⟨rounds - nodes.length, by omega⟩
        exact ok.search_fails os nunits st.env all misses (narrow ▸ reply) more
      · have same : Got (h.calls ++ [(coreUnits nunits * 16, none)]) = Got h.calls := by
          funext x
          simp [Got, regions]
        refine Inv.of_ok positive (?_ : Ok base _ [] nodes _ _) (Nat.lt_of_lt_of_le inv.low answer.1) ?_ ?_
        · exact { ok with tiles := same ▸ ok.tiles }
        · exact fun x got => Nat.lt_of_lt_of_le (below x (same ▸ got)) answer.1
        · exact fun x got => answer.2 x (all x (same ▸ got))
    · rw [reply] at answer within
      obtain ⟨⟨least, most⟩, keeps⟩ := answer
      have size : (coreUnits nunits * 16 : Int).toNat = coreUnits nunits * 16 := by omega
      have small := within.small
      have low := Nat.lt_of_lt_of_le inv.low least
      have reach := ok.end_le_of low fun x got => Nat.lt_of_lt_of_le (below x got) least
      rw [got_append, Nat.mul_comm] at small
      have all' : Mapped (os.mapped s') base fun x => Got h.calls x ∨ hp ≤ x ∧
          x < hp + 16 * coreUnits nunits := by
        rintro x ((old | new) | static)
        · exact keeps x (.inl (all x (.inl old)))
        · exact keeps x (.inr (by omega))
        · exact keeps x (.inl (all x (.inr static)))
      obtain ⟨h', nodes', b, place, ok', same, calls, kept, N, found⟩ := ok.search_grows os nunits
        st.env all units.2 misses (narrow ▸ reply) reach low small all'
      refine ⟨b + 16, h', s', N, found, ?_, fun zero => by omega, fun _ => ⟨?_, fun a member => ?_⟩⟩
      · rw [if_neg (by omega)]
        rw [← Nat.mul_comm (coreUnits nunits), ← got_append, ← calls] at ok' all'
        refine Inv.of_ok positive ok' (by dsimp only; omega) (fun x got => ?_) all'
        rw [calls, got_append] at got
        rcases got with old | new
        · have bound := below x old
          dsimp only
          omega
        · dsimp only
          omega
      · rw [Nat.add_sub_cancel, same]
        exact units.1
      · exact ⟨kept a member, ok'.apart member⟩
  · obtain ⟨h', nodes', q, b, -, -, place, ok', same, calls, kept, found⟩ :=
      ok.search_fits os nunits st.env all units.2 (by simpa using misses)
    refine ⟨b + 16, h', st.env, nodes.length, found, ?_, fun zero => by omega,
      fun _ => ⟨?_, fun a member => ?_⟩⟩
    · rw [if_neg (by omega)]
      rw [← calls] at ok' below all
      exact Inv.of_ok positive ok' inv.low below all
    · rw [Nat.add_sub_cancel, same]
      exact units.1
    · exact ⟨kept a member, ok'.apart member⟩

theorem Ok.congr {h h' : Heap}
    (ok : Ok base h [] nodes live mem) (freep : h'.freep = h.freep)
    (same : ∀ a ∈ nodes ++ live, h'.ptr a = h.ptr a ∧ h'.size a = h.size a) :
    Ok base h' [] nodes live mem where
  first := ok.first
  chain := by
    refine chain_imp ok.chain fun a member b next => ?_
    rwa [Heap.Next, (same a (by simp [member])).1, (same a (by simp [member])).2]
  header := (same base (List.mem_append_left _ ok.base_mem)).2.trans ok.header
  freep := freep ▸ ok.freep
  nodup := ok.nodup
  blocks := fun a member different => (same a member).2 ▸ ok.blocks a member different
  tiles := by
    rw [map_extent_congr fun a member => (same a member).2]
    exact ok.tiles

theorem Ok.search_asks {h h' : Heap} {s s' : σ}
    {rounds p : Nat} (ok : Ok base h [] nodes live mem) (all : Mapped (os.mapped s) base mem)
    (misses : ∀ y ∈ nodes, h.size y < nunits)
    (ran : search os nunits rounds h s h.freep (h.ptr h.freep) = some (p, h', s')) :
    ∃ more, h'.calls = h.calls ++ [(coreUnits nunits * 16,
      (os.sbrk s (BitVec.ofNat 32 (coreUnits nunits * 16)).toInt).1)] ++ more := by
  have longer := (search_add ran nodes.length).1
  rw [ok.search_misses os nunits s all misses, Option.bind_eq_some_iff] at longer
  obtain ⟨core, grown, ran⟩ := longer
  rw [← (morecore_add 0 grown).2]
  split at ran
  · exact (search_add ran 0).2
  · cases ran
    exact ⟨[], (List.append_nil _).symm⟩

theorem Inv.step {st' : State σ} (fresh : Fresh os top) (positive : 0 < base)
    (inv : Inv os base top st) (step : Step os base st st') (within : Within st'.heap.calls) :
    Inv os base top st' := by
  obtain ⟨nodes, ok⟩ := inv.ok
  cases step with
  | @malloc rounds p nbytes h' s' ran =>
    have near := ok.reach inv.mapped _ (List.mem_append_left _ ok.freep)
    simp only [Umalloc.malloc, near, if_true] at ran
    obtain ⟨p₁, h₁, s₁, N, returns, inv', -⟩ := inv.malloc nbytes fresh positive ok
      fun misses => by
        obtain ⟨more, calls⟩ := ok.search_asks inv.mapped misses ran
        rw [calls, start_calls] at within
        exact within.of_append
    have longer := returns _ (Nat.le_add_left N rounds)
    simp only [Umalloc.malloc, near, if_true] at longer
    cases longer.symm.trans (search_add ran N).1
    exact inv'
  | @free rounds a rest h' perm ran =>
    have used : st.heap.freep ≠ 0 := fun zero => by simp [inv.unused zero] at perm
    rw [start, if_neg used] at ok
    have calls := free_calls ran
    have small := within.small
    rw [calls] at small
    obtain ⟨h₁, nodes', ok', -, -, -, returns⟩ := (ok.perm perm).free small inv.mapped
    have longer := free_add ran nodes.length
    cases (returns _ (Nat.le_add_left _ rounds)).symm.trans longer
    rw [← calls] at ok'
    exact Inv.of_ok positive ok' inv.low (calls ▸ inv.below) (calls ▸ inv.mapped)
  | @write ptr size same =>
    by_cases unused : st.heap.freep = 0
    · obtain rfl : ptr = st.heap.ptr := funext fun a => (same a (by simp [inv.unused unused])).1
      obtain rfl : size = st.heap.size := funext fun a => (same a (by simp [inv.unused unused])).2
      exact inv
    · rw [start, if_neg unused] at ok
      refine Inv.of_ok positive (ok.congr rfl fun a member => ?_) inv.low inv.below inv.mapped
      refine same a fun b known => ?_
      by_cases less : b < a
      · exact .inr (ok.end_le (List.mem_append_right _ known) member less)
      · exact .inl (Nat.le_of_not_lt less)

/-- In every run whose calls to `sbrk` keep within the limits: the free list is circular from
`base`, sorted and coalesced, free and live blocks tile the memory obtained, and every call
returns, `malloc` with 0 only if `sbrk` failed. -/
theorem heap_kept (fresh : Fresh os top) (positive : 0 < base) {h : Heap} (new : h.freep = 0)
    (none : h.calls = []) {s : σ} (low : base < top s)
    (static : ∀ x, base ≤ x ∧ x < base + 16 → os.mapped s x) {st : State σ}
    (run : Relation.ReflTransGen (fun a b => Step os base a b ∧ Within b.heap.calls)
      ⟨h, s, []⟩ st) :
    ∃ nodes, Ok base (start base st.heap) [] nodes st.live (Got st.heap.calls) ∧
      nodes.Pairwise (fun a b => a + 16 * (start base st.heap).size a < b) ∧
      (∀ nbytes, ((∀ y ∈ nodes, (start base st.heap).size y < unitsFor nbytes) →
          Within (st.heap.calls ++ [(coreUnits (unitsFor nbytes) * 16,
            (os.sbrk st.env (BitVec.ofNat 32 (coreUnits (unitsFor nbytes) * 16)).toInt).1)])) →
        ∃ p h' s' N, (∀ rounds, N ≤ rounds →
            malloc os rounds base nbytes st.heap st.env = some (p, h', s')) ∧
          (p = 0 → ∃ k, h'.calls = st.heap.calls ++ [(k, Option.none)]) ∧
          (p ≠ 0 → nbytes.toNat ≤ 16 * (h'.size (p - 16) - 1) ∧ ∀ b ∈ st.live,
            h'.size b = (start base st.heap).size b ∧
              Apart (h'.extent (p - 16)) (h'.extent b))) ∧
      ∀ a ∈ st.live, ∃ h' N, ∀ rounds, N ≤ rounds →
        free (os.mapped st.env) rounds st.heap (a + 16) = some h' := by
  have kept : Inv os base top st ∧ Within st.heap.calls := by
    induction run with
    | refl =>
      have nothing : Got h.calls = fun _ => False := by
        funext x
        simp [Got, regions, none]
      refine ⟨⟨⟨[base], ?_⟩, fun _ => rfl, low, ?_, ?_⟩, by simp [Within, regions, none]⟩ <;>
        rw [nothing]
      · exact start_ok new
      · exact fun _ => False.elim
      · exact fun x known => static x (known.resolve_left id)
    | tail _ step ih => exact ⟨ih.1.step fresh positive step.1 step.2, step.2⟩
  obtain ⟨inv, within⟩ := kept
  obtain ⟨nodes, ok⟩ := inv.ok
  refine ⟨nodes, ok, ?_, ?_, ?_⟩
  · exact ok.sorted
  · intro nbytes allowed
    obtain ⟨p, h', s', N, returns, -, facts⟩ := inv.malloc nbytes fresh positive ok allowed
    exact ⟨p, h', s', N, returns, facts⟩
  · intro a member
    have used : st.heap.freep ≠ 0 := fun zero => by simp [inv.unused zero] at member
    rw [start, if_neg used] at ok
    obtain ⟨h', -, -, -, -, -, returns⟩ :=
      (ok.perm (List.perm_cons_erase member)).free within.small inv.mapped
    exact ⟨h', _, returns⟩

/-- An `sbrk` that never fails; its state is the end of the memory, all of which is mapped. -/
def growing : Os Nat where
  sbrk top k := (some top, top + k.toNat)
  mapped top x := x < top

theorem growing_fresh : Fresh growing id := by
  intro top k _
  refine ⟨⟨Nat.le_refl _, Nat.le_refl _⟩, fun x known => ?_⟩
  simp only [growing, decide_eq_true_eq] at known ⊢
  omega

/-- A call of a program with `base` at 16: `malloc` of so many bytes, or `free` of a block. -/
def call (st : State Nat) : BitVec 32 ⊕ Nat → Option (State Nat)
  | .inl nbytes => (malloc growing 9 16 nbytes st.heap st.env).map fun r =>
    ⟨r.2.1, r.2.2, if r.1 = 0 then st.live else (r.1 - 16) :: st.live⟩
  | .inr a => if a ∈ st.live then
    (free (growing.mapped st.env) 9 st.heap (a + 16)).map (⟨·, st.env, st.live.erase a⟩) else none

def program (limit : List (Nat × Option Nat) → Bool) :
    List (BitVec 32 ⊕ Nat) → State Nat → Option (State Nat)
  | [], st => some st
  | op :: ops, st =>
    (call st op).bind fun st' => if limit st'.heap.calls then program limit ops st' else none

theorem program_runs {limit : List (Nat × Option Nat) → Bool} (ops : List (BitVec 32 ⊕ Nat))
    {st st' : State Nat} (ran : program limit ops st = some st') :
    Relation.ReflTransGen (fun a b => Step growing 16 a b ∧ limit b.heap.calls) st st' := by
  induction ops generalizing st with
  | nil => exact Option.some.inj ran ▸ .refl
  | cons op ops ih =>
    rw [program, Option.bind_eq_some_iff] at ran
    obtain ⟨next, ran, rest⟩ := ran
    split at rest
    · next fine =>
      refine .head ⟨?_, fine⟩ (ih rest)
      cases op with
      | inl nbytes =>
        obtain ⟨⟨p, h', s'⟩, done, rfl⟩ := Option.map_eq_some_iff.mp ran
        exact .malloc done
      | inr a =>
        rw [call] at ran
        split at ran
        · next member =>
          obtain ⟨h', done, rfl⟩ := Option.map_eq_some_iff.mp ran
          exact .free (List.perm_cons_erase member) done
        · cases ran
    · cases rest

def unused : State Nat := ⟨⟨fun _ => 0, fun _ => 0, 0, []⟩, 32, []⟩

instance (calls : List (Nat × Option Nat)) : Decidable (Within calls) :=
  inferInstanceAs (Decidable (_ ∧ _))

/-- Two blocks taken and one given back. -/
theorem heap_kept_freed : ∃ st : State Nat, st.live = [64016] ∧
    ∃ nodes, Ok 16 (start 16 st.heap) [] nodes st.live (Got st.heap.calls) := by
  have ran : (program (fun calls => decide (Within calls))
      [.inl 1000, .inl 500, .inr 64544] unused).map (·.live) = some [64016] := by decide +kernel
  obtain ⟨st, ran, live⟩ := Option.map_eq_some_iff.mp ran
  have run : Relation.ReflTransGen (fun a b => Step growing 16 a b ∧ Within b.heap.calls) unused st :=
    Relation.ReflTransGen.mono (fun _ _ step => ⟨step.1, of_decide_eq_true step.2⟩) _ _
      (program_runs _ ran)
  obtain ⟨nodes, ok, -⟩ := heap_kept (h := unused.heap) growing_fresh (by decide) rfl rfl
    (show 16 < id 32 by decide) (by simp +decide [growing]) run
  exact ⟨st, live, nodes, ok⟩

/-- 33 blocks of `2 ^ 27 - 1` units each, given back in order: the size of the block they become
does not fit in 32 bits, and most of the memory is in no block. -/
def overflowing : List (BitVec 32 ⊕ Nat) :=
  List.replicate 33 (.inl (BitVec.ofNat 32 (2 ^ 31 - 32))) ++
    (List.range 33).map fun i => .inr (32 + i * (2 ^ 31 - 16))

theorem heap_overflows : Fresh growing id ∧ ∃ st : State Nat,
    Relation.ReflTransGen (fun a b => Step growing 16 a b ∧
      decide (∀ c ∈ b.heap.calls, c.1 < 2 ^ 31)) unused st ∧
    ¬ ∃ nodes, Ok 16 (start 16 st.heap) [] nodes st.live (Got st.heap.calls) := by
  have ran : (program (fun calls => decide (∀ c ∈ calls, c.1 < 2 ^ 31)) overflowing unused).map
      (fun st => (st.live, st.heap.freep, st.heap.ptr 16, st.heap.ptr 32, st.heap.size 32,
        decide ((2 ^ 31 - 16, some 32) ∈ st.heap.calls))) =
      some ([], 32, 32, 16, 2 ^ 27 - 33, true) := by decide +kernel
  obtain ⟨st, ran, facts⟩ := Option.map_eq_some_iff.mp ran
  refine ⟨growing_fresh, st, program_runs _ ran, ?_⟩
  simp only [Prod.mk.injEq, decide_eq_true_eq] at facts
  obtain ⟨live, freep, fromBase, toBase, size, called⟩ := facts
  rintro ⟨nodes, ok⟩
  rw [start, if_neg (by omega), live] at ok
  obtain ⟨tail, rfl⟩ := List.head?_eq_some_iff.mp ok.first
  match tail with
  | [] =>
    have link := @Ok.link 16 st.heap [] [] [] _ _ 16 ok 16 rfl
    omega
  | [a] =>
    obtain rfl : 32 = a := fromBase.symm.trans (@Ok.link 16 st.heap [] [] [] _ _ 16 ok a rfl)
    have got := (ok.tiles.covers (32 + 16 * (2 ^ 27 - 33))).mp
      ⟨(32, 2 ^ 31 - 16), List.mem_filterMap.mpr ⟨_, called, rfl⟩, by decide, by decide⟩
    have header := ok.header
    simp [Heap.extent] at got
    omega
  | a :: b :: tail =>
    obtain rfl : 32 = a := fromBase.symm.trans (@Ok.link 16 st.heap [] [] [] _ _ 16 ok a rfl)
    have back := @Ok.link 16 st.heap [] [] [16] _ _ _ ok b rfl
    have sorted := ok.sorted
    simp only [List.pairwise_cons] at sorted
    have less := sorted.2.1 b List.mem_cons_self
    omega

end OsbKernel.Umalloc
