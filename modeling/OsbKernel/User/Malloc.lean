import OsbKernel.Lib.Tiling

/-!
# The user-level allocator

`free`, `morecore` and `malloc` of `umalloc.c` work on a circular list of free blocks, sorted by
address, that starts at the static header `base`. A header is named by its address and takes 16
bytes; sizes are counted in headers, in 32 bits. The kernel is a parameter: its `sbrk`, and which
bytes of the process are mapped. A call that reaches for a header that is not mapped is killed.
-/

namespace OsbKernel.Umalloc

open Tiling Function

/-- The headers' two fields by address, `freep` (0 before the first `malloc`), and the calls made
to `sbrk`: the bytes asked for and the answer. -/
structure Heap where
  ptr : Nat → Nat
  size : Nat → Nat
  freep : Nat
  calls : List (Nat × Option Nat)

/-- The kernel as the program sees it: `sbrk`, and whether a byte can be read and written. -/
structure Os (σ : Type) where
  sbrk : σ → Int → Option Nat × σ
  mapped : σ → Nat → Bool

/-- Whether the two fields of the header at `a` can be read and written. -/
def reach (mapped : Nat → Bool) (a : Nat) : Bool := (List.range 12).all fun i => mapped (a + i)

/-- The test that ends the loop of `free`: `bp` belongs after `p`. -/
def stops (h : Heap) (bp p : Nat) : Bool :=
  p < bp ∧ bp < h.ptr p ∨ h.ptr p ≤ p ∧ (p < bp ∨ bp < h.ptr p)

/-- `free` joins the block to the one above it, or links it there. -/
def joinUpper (h : Heap) (bp p : Nat) : Heap :=
  if bp + 16 * h.size bp = h.ptr p then
    { h with
      size := update h.size bp ((h.size bp + h.size (h.ptr p)) % 2 ^ 32)
      ptr := update h.ptr bp (h.ptr (h.ptr p)) }
  else { h with ptr := update h.ptr bp (h.ptr p) }

/-- `free` joins the block to the one below it, or links it there. -/
def joinLower (h : Heap) (bp p : Nat) : Heap :=
  if p + 16 * h.size p = bp then
    { h with
      size := update h.size p ((h.size p + h.size bp) % 2 ^ 32)
      ptr := update h.ptr p (h.ptr bp) }
  else { h with ptr := update h.ptr p bp }

/-- `none` when the program is killed, or comes to no end in so many rounds. -/
def free (mapped : Nat → Bool) (rounds : Nat) (h : Heap) (ap : Nat) : Option Heap := do
  let bp := ap - 16
  let p ← find h.ptr (fun p => !reach mapped p || stops h bp p) rounds h.freep
  if reach mapped p ∧ reach mapped bp ∧ (bp + 16 * h.size bp = h.ptr p → reach mapped (h.ptr p)) then
    some { joinLower (joinUpper h bp p) bp p with freep := p }
  else none

/-- How many units `morecore` asks for. -/
def coreUnits (nu : Nat) : Nat := if nu < 4096 then 4096 else nu

/-- What `malloc` does with a block that is large enough: unlink it, or cut its tail off. -/
def take (h : Heap) (nunits prevp p : Nat) : Nat × Heap :=
  if h.size p = nunits then
    (p + 16, { h with ptr := update h.ptr prevp (h.ptr p), freep := prevp })
  else
    let rest := h.size p - nunits
    (p + 16 * rest + 16, { h with
      size := update (update h.size p rest) (p + 16 * rest) nunits
      freep := prevp })

/-- The header besides `p`'s that `take` writes. -/
def takeHeader (h : Heap) (nunits prevp p : Nat) : Nat :=
  if h.size p = nunits then prevp else p + 16 * (h.size p - nunits)

def unitsFor (nbytes : BitVec 32) : Nat := ((nbytes.toNat + 16 - 1) / 16 + 1) % 2 ^ 32

section

variable {σ : Type} (os : Os σ)

def morecore (rounds nu : Nat) (h : Heap) (s : σ) : Option (Bool × Heap × σ) :=
  let bytes := coreUnits nu * 16
  let (reply, s') := os.sbrk s (BitVec.ofNat 32 bytes).toInt
  let h' := { h with calls := h.calls ++ [(bytes, reply)] }
  match reply with
  | none => some (false, h', s')
  | some hp =>
    if reach (os.mapped s') hp then do
      let h'' ← free (os.mapped s') rounds { h' with size := update h.size hp (coreUnits nu) } (hp + 16)
      some (true, h'', s')
    else none

def search (nunits : Nat) : Nat → Heap → σ → Nat → Nat → Option (Nat × Heap × σ)
  | 0, _, _, _, _ => none
  | rounds + 1, h, s, prevp, p =>
    if !reach (os.mapped s) p then none
    else if nunits ≤ h.size p then
      if reach (os.mapped s) (takeHeader h nunits prevp p) then
        some ((take h nunits prevp p).1, (take h nunits prevp p).2, s)
      else none
    else if p = h.freep then do
      let (more, h', s') ← morecore os rounds nunits h s
      if more then search nunits rounds h' s' h'.freep (h'.ptr h'.freep) else some (0, h', s')
    else search nunits rounds h s p (h.ptr p)

/-- The first call makes the list: `base` alone. -/
def start (base : Nat) (h : Heap) : Heap :=
  if h.freep = 0 then
    { h with ptr := update h.ptr base base, size := update h.size base 0, freep := base }
  else h

def malloc (rounds base : Nat) (nbytes : BitVec 32) (h : Heap) (s : σ) :
    Option (Nat × Heap × σ) :=
  let h := start base h
  if reach (os.mapped s) h.freep then
    search os (unitsFor nbytes) rounds h s h.freep (h.ptr h.freep)
  else none

end

def Heap.extent (h : Heap) (a : Nat) : Nat × Nat := (a, 16 * h.size a)

/-- The link from `a` to `b`: upwards past the end of `a`'s block, or from the last node back to
`base`. The nodes in `touching` may end where the next one starts. -/
def Heap.Next (h : Heap) (base : Nat) (touching : List Nat) (a b : Nat) : Prop :=
  h.ptr a = b ∧ (b = base ∨ a + 16 * h.size a < b ∨ a ∈ touching ∧ a + 16 * h.size a = b)

/-- The free list is `nodes`, from `base` on and back to it; free and live blocks tile `mem`. -/
structure Ok (base : Nat) (h : Heap) (touching nodes live : List Nat) (mem : Nat → Prop) :
    Prop where
  first : nodes.head? = some base
  chain : (nodes ++ [base]).IsChain (h.Next base touching)
  header : h.size base = 0
  freep : h.freep ∈ nodes
  nodup : (nodes ++ live).Nodup
  blocks : ∀ a ∈ nodes ++ live, a ≠ base → base < a ∧ 0 < h.size a
  tiles : Tiles ((nodes ++ live).map h.extent) mem

/-- The heap's bytes and the header at `base` are mapped. -/
def Mapped (mapped : Nat → Bool) (base : Nat) (mem : Nat → Prop) : Prop :=
  ∀ x, mem x ∨ base ≤ x ∧ x < base + 16 → mapped x

/-- Every run of bytes in `mem` counts less than `2 ^ 32` headers. -/
def Small (mem : Nat → Prop) : Prop :=
  ∀ a n, (∀ x, a ≤ x → x < a + 16 * n → mem x) → n < 2 ^ 32

variable {base : Nat} {h h' : Heap} {touching nodes live pre post : List Nat} {mem : Nat → Prop}
  {p bp : Nat} {mapped : Nat → Bool}

theorem Ok.base_mem (ok : Ok base h touching nodes live mem) : base ∈ nodes :=
  List.mem_of_mem_head? ok.first

theorem Ok.live_ne (ok : Ok base h touching nodes (bp :: live) mem) : bp ≠ base :=
  fun same => (List.nodup_append.mp ok.nodup).2.2 base ok.base_mem bp List.mem_cons_self same.symm

theorem Ok.after_ne (ok : Ok base h touching (pre ++ p :: post) live mem) : base ∉ post := by
  have distinct := ok.nodup
  have first := ok.first
  cases pre <;> grind

variable {a : Nat} {l : List Nat}

theorem Ok.end_le (ok : Ok base h touching nodes live mem) {b : Nat} (here : a ∈ nodes ++ live)
    (there : b ∈ nodes ++ live) (less : a < b) : a + 16 * h.size a ≤ b :=
  ok.tiles.end_le (List.mem_map_of_mem here) (List.mem_map_of_mem there) less

theorem Ok.end_le_of (ok : Ok base h touching nodes live mem) {z : Nat} (low : base < z)
    (inside : ∀ x, mem x → x < z) : ∀ a ∈ nodes ++ live, a + 16 * h.size a ≤ z := by
  intro a member
  by_cases same : a = base
  · rw [same, ok.header]
    exact low.le
  · have filled := (ok.blocks a member same).2
    have last := inside _ (ok.tiles.inside (List.mem_map_of_mem member)
      (show a ≤ a + 16 * h.size a - 1 by omega) (by omega))
    omega

theorem Ok.reach (ok : Ok base h touching nodes live mem) (all : Mapped mapped base mem) :
    ∀ a ∈ nodes ++ live, reach mapped a := by
  intro a member
  simp only [Umalloc.reach, List.all_eq_true, List.mem_range]
  intro i small
  apply all
  by_cases same : a = base
  · exact .inr (by omega)
  · have filled := (ok.blocks a member same).2
    exact .inl (ok.tiles.inside (List.mem_map_of_mem member) (by omega) (by omega))

theorem map_extent_congr (same : ∀ a ∈ l, h'.size a = h.size a) :
    l.map h'.extent = l.map h.extent :=
  List.map_congr_left fun a member => congrArg (fun n => (a, 16 * n)) (same a member)

theorem Ok.cut (ok : Ok base h touching (pre ++ p :: post) live mem) :
    (pre ++ [p]).IsChain (h.Next base touching) ∧
      (∀ y ∈ (post ++ [base]).head?, h.Next base touching p y) ∧
      (post ++ [base]).IsChain (h.Next base touching) := by
  have chain := ok.chain
  rw [List.append_assoc, List.cons_append] at chain
  obtain ⟨low, high⟩ := List.isChain_split.mp chain
  exact ⟨low, List.isChain_cons.mp high⟩

theorem Ok.link (ok : Ok base h touching (pre ++ p :: post) live mem) :
    ∀ y ∈ (post ++ [base]).head?, h.ptr p = y :=
  fun y found => (ok.cut.2.1 y found).1

theorem chain_of {m : List Nat} (low : (l ++ [p]).IsChain (h.Next base touching))
    (high : (m ++ [base]).IsChain (h.Next base touching)) {touching' : List Nat}
    (same : ∀ a ∈ l ++ m, ∀ b, h.Next base touching a b → h'.Next base touching' a b)
    (here : ∀ y ∈ (m ++ [base]).head?, h'.Next base touching' p y) :
    (l ++ p :: m ++ [base]).IsChain (h'.Next base touching') := by
  rw [List.append_assoc, List.cons_append]
  refine List.isChain_split.mpr ⟨?_, List.isChain_cons.mpr ⟨here, ?_⟩⟩
  · exact chain_imp low fun a member => same a (List.mem_append_left _ member)
  · exact chain_imp high fun a member => same a (List.mem_append_right _ member)

theorem Ok.next_mem (ok : Ok base h touching nodes live mem) (member : p ∈ nodes) :
    h.ptr p ∈ nodes := by
  obtain ⟨pre, post, rfl⟩ := List.append_of_mem member
  cases post with
  | nil =>
    rw [ok.link base rfl]
    exact ok.base_mem
  | cons y post =>
    rw [ok.link y rfl]
    simp

theorem Ok.walk (ok : Ok base h touching nodes live mem) : ∃ m, (h.freep :: m).Perm nodes ∧
    (h.freep :: (m ++ [h.freep])).IsChain (fun a b => h.ptr a = b) := by
  obtain ⟨m, links, perm⟩ := chain_from ok.first (ok.chain.imp fun _ _ => And.left) ok.freep
  exact ⟨m, perm, links⟩

theorem Ok.stops_iff (ok : Ok base h [] (pre ++ p :: post) (bp :: live) mem) :
    stops h bp p ↔ p < bp ∧ ∀ q ∈ post.head?, bp < q := by
  have above := (ok.blocks bp (by simp) ok.live_ne).1
  have low : base ≤ p := by
    by_cases same : p = base
    · exact same.ge
    · exact (ok.blocks p (by simp) same).1.le
  unfold stops
  rw [decide_eq_true_iff]
  cases post with
  | nil =>
    rw [ok.link base rfl]
    simp only [List.head?_nil, Option.not_mem_none, false_implies, implies_true, and_true]
    omega
  | cons q post =>
    obtain ⟨link, wraps | sorted | touches⟩ := ok.cut.2.1 q rfl
    · exact absurd wraps fun same => ok.after_ne (same ▸ List.mem_cons_self)
    · rw [link]
      simp only [List.head?_cons, Option.mem_def, Option.some.injEq, forall_eq']
      omega
    · exact nomatch touches.1

theorem exists_gap (l : List Nat) (a : Nat) (low : a < bp) (other : bp ∉ l) :
    ∃ pre p post, a :: l = pre ++ p :: post ∧ p < bp ∧ ∀ q ∈ post.head?, bp < q := by
  induction l generalizing a with
  | nil => exact ⟨[], a, [], rfl, low, fun q found => nomatch found⟩
  | cons b l ih =>
    by_cases below : b < bp
    · obtain ⟨pre, p, post, same, facts⟩ := ih b below fun member => other (.tail _ member)
      exact ⟨a :: pre, p, post, congrArg (a :: ·) same, facts⟩
    · refine ⟨[], a, b :: l, rfl, low, ?_⟩
      rintro q ⟨⟩
      have different : bp ≠ b := fun same => other (same ▸ List.mem_cons_self)
      omega

theorem Ok.finds (ok : Ok base h [] nodes (bp :: live) mem) (all : Mapped mapped base mem) :
    ∃ pre p post, nodes = pre ++ p :: post ∧ p < bp ∧ (∀ q ∈ post.head?, bp < q) ∧
      ∀ rounds, nodes.length ≤ rounds →
        find h.ptr (fun p => !Umalloc.reach mapped p || stops h bp p) rounds h.freep = some p := by
  obtain ⟨m, perm, links⟩ := ok.walk
  have near := ok.reach all
  have exists_stop : ∃ y ∈ h.freep :: m, !Umalloc.reach mapped y || stops h bp y := by
    obtain ⟨l, same⟩ : ∃ l, nodes = base :: l := List.head?_eq_some_iff.mp ok.first
    have other : bp ∉ l := fun member => (List.nodup_append.mp ok.nodup).2.2 bp
      (same ▸ List.mem_cons_of_mem _ member) bp List.mem_cons_self rfl
    obtain ⟨pre, p, post, split, facts⟩ :=
      exists_gap l base (ok.blocks bp (by simp) ok.live_ne).1 other
    rw [same, split] at ok
    refine ⟨p, perm.mem_iff.mpr ?_, Bool.or_eq_true_iff.mpr (.inr (ok.stops_iff.mpr facts))⟩
    rw [same, split]
    exact List.mem_append_right _ List.mem_cons_self
  obtain ⟨y, member, stop, found⟩ := find_chain m (List.IsChain.left_of_append links) exists_stop
  obtain ⟨pre, post, rfl⟩ := List.append_of_mem (perm.mem_iff.mp member)
  rw [near y (by simp), Bool.not_true, Bool.false_or] at stop
  obtain ⟨below, beyond⟩ := ok.stops_iff.mp stop
  refine ⟨pre, y, post, rfl, below, beyond, fun rounds enough => found rounds ?_⟩
  rw [← perm.length_eq] at enough
  exact enough

/-- The block is linked into the list after `p`. -/
def linkIn (h : Heap) (bp p : Nat) : Heap :=
  { h with ptr := update (update h.ptr bp (h.ptr p)) p bp, freep := p }

/-- The block at `a` is joined to the next one if that is where it ends. -/
def settle (h : Heap) (a : Nat) : Heap :=
  if a + 16 * h.size a = h.ptr a then
    { h with
      size := update h.size a ((h.size a + h.size (h.ptr a)) % 2 ^ 32)
      ptr := update h.ptr a (h.ptr (h.ptr a)) }
  else h

@[simp] theorem settle_calls (h : Heap) (a : Nat) : (settle h a).calls = h.calls := by
  unfold settle
  split <;> rfl

@[simp] theorem settle_freep (h : Heap) (a : Nat) : (settle h a).freep = h.freep := by
  unfold settle
  split <;> rfl

theorem joins_eq (other : p ≠ bp) (next : h.ptr p ≠ bp)
    (gap : bp + 16 * h.size bp = h.ptr p → h.ptr p ≠ p) :
    { joinLower (joinUpper h bp p) bp p with freep := p } =
      settle (settle (linkIn h bp p) bp) p := by
  by_cases adjacent : bp + 16 * h.size bp = h.ptr p
  · have far := gap adjacent
    by_cases touches : p + 16 * h.size p = bp <;>
      simp [joinLower, joinUpper, settle, linkIn, other, other.symm, next, far, adjacent, touches] <;>
      grind
  · by_cases touches : p + 16 * h.size p = bp <;>
      simp [joinLower, joinUpper, settle, linkIn, other.symm, adjacent, touches]

theorem Ok.linked (ok : Ok base h [] (pre ++ p :: post) (bp :: live) mem) (below : p < bp)
    (beyond : ∀ q ∈ post.head?, bp < q) :
    Ok base (linkIn h bp p) [bp, p] (pre ++ p :: bp :: post) live mem := by
  have distinct := ok.nodup
  obtain ⟨low, link, high⟩ := ok.cut
  have perm : (pre ++ p :: post ++ bp :: live).Perm (pre ++ p :: bp :: post ++ live) := by grind
  have reaches := ok.end_le (a := p) (b := bp) (by simp) (by simp) below
  have ptr : ∀ a, a ≠ p → a ≠ bp → (linkIn h bp p).ptr a = h.ptr a := fun a one two =>
    (update_of_ne one _ _).trans (update_of_ne two _ _)
  have same : ∀ a ∈ pre ++ post, ∀ b, h.Next base [] a b →
      (linkIn h bp p).Next base [bp, p] a b := by
    rintro a member b ⟨links, wraps | sorted | touches⟩
    · exact ⟨(ptr a (by grind) (by grind)).trans links, .inl wraps⟩
    · exact ⟨(ptr a (by grind) (by grind)).trans links, .inr (.inl sorted)⟩
    · exact nomatch touches.1
  exact {
    first := by
      have first := ok.first
      cases pre <;> exact first
    chain := by
      rw [List.append_assoc, List.cons_append, List.cons_append]
      refine List.isChain_split.mpr ⟨?_, List.isChain_cons_cons.mpr ⟨⟨update_self .., ?_⟩,
        List.isChain_cons.mpr ⟨fun y found => ⟨?_, ?_⟩, ?_⟩⟩⟩
      · exact chain_imp low fun a member => same a (List.mem_append_left _ member)
      · have touching : p ∈ [bp, p] := by simp
        exact .inr (reaches.lt_or_eq.imp_right fun equal => ⟨touching, equal⟩)
      · exact (update_of_ne (by grind) _ _).trans ((update_self ..).trans (link y found).1)
      · cases post with
        | nil => exact .inl (Option.some.inj found).symm
        | cons q post =>
          have bound := ok.end_le (a := bp) (b := y) (by simp)
            (by simp [← Option.some.inj found]) (beyond y found)
          exact .inr (bound.lt_or_eq.imp_right fun equal => ⟨List.mem_cons_self, equal⟩)
      · exact chain_imp high fun a member => same a (List.mem_append_right _ member)
    header := ok.header
    freep := List.mem_append_right _ List.mem_cons_self
    nodup := perm.nodup distinct
    blocks := fun a member => ok.blocks a (perm.mem_iff.mpr member)
    tiles := ok.tiles.perm (perm.map _) }

theorem join_tiles {rest : List Nat} {b : Nat} (tiles : Tiles (l.map h.extent) mem)
    (small : Small mem) (nodup : l.Nodup) (perm : l.Perm (a :: b :: rest))
    (adjacent : a + 16 * h.size a = b)
    (size : h'.size = update h.size a ((h.size a + h.size b) % 2 ^ 32)) :
    h'.size a = h.size a + h.size b ∧ Tiles ((a :: rest).map h'.extent) mem := by
  have distinct := perm.nodup nodup
  have joined : Tiles ((a, 16 * h.size a + 16 * h.size b) :: rest.map h.extent) mem := by
    have apart := tiles.perm (perm.map h.extent)
    refine Tiles.join (by rwa [adjacent]) ?_
    intro c member same
    obtain ⟨d, known, rfl⟩ := List.mem_map.mp member
    have again : d = b := same.trans adjacent
    exact absurd known (by grind)
  have units : h.size a + h.size b < 2 ^ 32 :=
    small a _ fun x low high => joined.inside List.mem_cons_self low (by omega)
  have here : h'.size a = h.size a + h.size b := by
    rw [size, update_self, Nat.mod_eq_of_lt units]
  refine ⟨here, ?_⟩
  rw [List.map_cons, map_extent_congr, Heap.extent, here, Nat.mul_add]
  · exact joined
  · intro d member
    rw [size]
    exact update_of_ne (by grind) _ _

theorem Ok.settled (pre : List Nat)
    (ok : Ok base h (a :: touching) (pre ++ a :: post) live mem) (small : Small mem)
    (freep : h.freep ∈ pre ++ [a]) (proper : h.ptr a = base → base < a)
    (loose : ∀ b ∈ post, b ∉ touching) :
    ∃ post', Ok base (settle h a) touching (pre ++ a :: post') live mem ∧
      (∀ b, b ≠ a → (settle h a).size b = h.size b) ∧
      (a + 16 * h.size a ≠ h.ptr a ∧ post' = post ∨ a + 16 * h.size a = h.ptr a ∧
        post = h.ptr a :: post' ∧ (settle h a).size a = h.size a + h.size (h.ptr a)) := by
  have distinct := ok.nodup
  obtain ⟨low, link, high⟩ := ok.cut
  by_cases adjacent : a + 16 * h.size a = h.ptr a
  · cases post with
    | nil =>
      have wraps := ok.link base rfl
      have above := proper wraps
      omega
    | cons b post =>
    have next : h.ptr a = b := ok.link b rfl
    rw [next] at adjacent
    have shape : settle h a = { h with
        size := update h.size a ((h.size a + h.size b) % 2 ^ 32)
        ptr := update h.ptr a (h.ptr b) } := by
      rw [settle, next, if_pos adjacent]
    have perm : (pre ++ a :: b :: post ++ live).Perm (a :: b :: (pre ++ post ++ live)) := by grind
    obtain ⟨units, tiles⟩ := join_tiles ok.tiles small distinct perm adjacent
      (congrArg Heap.size shape)
    have size : ∀ c, c ≠ a → (settle h a).size c = h.size c := by
      rw [shape]
      exact fun c other => update_of_ne other _ _
    have ptr : ∀ c, c ≠ a → (settle h a).ptr c = h.ptr c := by
      rw [shape]
      exact fun c other => update_of_ne other _ _
    have past : (settle h a).ptr a = h.ptr b := by
      rw [shape]
      exact update_self ..
    have other : base ≠ a := by
      rintro rfl
      have header := ok.header
      have after := ok.after_ne
      grind
    obtain ⟨blink, high⟩ := List.isChain_cons.mp high
    refine ⟨post, ?_, size, .inr ⟨next ▸ adjacent, by rw [next], next ▸ units⟩⟩
    exact {
      first := by
        have first := ok.first
        cases pre <;> exact first
      chain := by
        refine chain_of low high ?_ ?_
        · rintro c member d ⟨links, order⟩
          have different : c ≠ a := by grind
          refine ⟨(ptr c different).trans links, ?_⟩
          rw [size c different]
          exact order.imp_right (Or.imp_right fun touches =>
            ⟨List.mem_of_ne_of_mem different touches.1, touches.2⟩)
        · intro y found
          obtain ⟨links, order⟩ := blink y found
          refine ⟨past.trans links, order.imp_right fun order => ?_⟩
          have far : b ∉ a :: touching := by grind
          have sorted := order.resolve_right fun touches => far touches.1
          exact .inl (by rw [units]; omega)
      header := (size base other).trans ok.header
      freep := by
        rw [settle_freep]
        grind
      nodup := by grind
      blocks := by
        intro c member different
        have known := ok.blocks c (by grind) different
        refine ⟨known.1, ?_⟩
        by_cases same : c = a
        · subst same
          rw [units]
          omega
        · rw [size c same]
          exact known.2
      tiles := tiles.perm (List.Perm.map _ (by grind)) }
  · rw [settle, if_neg adjacent]
    refine ⟨post, { ok with chain := ?_ }, fun _ _ => rfl, .inl ⟨adjacent, rfl⟩⟩
    refine chain_of low high ?_ ?_
    · rintro c member d ⟨links, order⟩
      have different : c ≠ a := by grind
      exact ⟨links, order.imp_right (Or.imp_right fun touches =>
        ⟨List.mem_of_ne_of_mem different touches.1, touches.2⟩)⟩
    · intro y found
      obtain ⟨links, order⟩ := link y found
      refine ⟨links, order.imp_right (Or.imp_right fun touches => ?_)⟩
      exact absurd (touches.2.trans links.symm) adjacent

/-- `free` terminates and puts the block back into the list: on its own, or joined to the blocks
that it touches. -/
theorem Ok.free (ok : Ok base h [] nodes (bp :: live) mem) (small : Small mem)
    (all : Mapped mapped base mem) :
    ∃ h' nodes', Ok base h' [] nodes' live mem ∧ h'.calls = h.calls ∧
      (∀ a ∈ live, h'.size a = h.size a) ∧
      ((∀ a ∈ nodes, a < bp) → ∃ z ∈ nodes', h.size bp ≤ h'.size z ∧
        z + 16 * h'.size z = bp + 16 * h.size bp ∧
        ∀ a ∈ nodes', a ≠ z → a ∈ nodes ∧ h'.size a = h.size a) ∧
      ∀ rounds, nodes.length ≤ rounds → Umalloc.free mapped rounds h (bp + 16) = some h' := by
  obtain ⟨pre, p, post, rfl, below, beyond, found⟩ := ok.finds all
  have near := ok.reach all
  have distinct := ok.nodup
  have above := (ok.blocks bp (by simp) ok.live_ne).1
  have linked := ok.next_mem (p := p) (by simp)
  have next : h.ptr p ≠ bp := by
    grind
  have ok₁ := ok.linked below beyond
  obtain ⟨post', ok₂, size₁, joined₁⟩ := Ok.settled (pre ++ [p]) (by simpa using ok₁) small
    (by simp [linkIn]) (fun _ => above) (by grind)
  have ptr : (settle (linkIn h bp p) bp).ptr p = bp := by
    unfold settle
    split <;> simp [linkIn, below.ne]
  obtain ⟨post'', ok₃, size₂, joined₂⟩ := Ok.settled pre (by simpa using ok₂) small
    (by simp [linkIn]) (fun wraps => by omega) (fun _ _ => List.not_mem_nil)
  refine ⟨_, _, ok₃, by simp [linkIn], fun a member => ?_, fun top => ?_, fun rounds enough => ?_⟩
  · rw [size₂ a (by grind), size₁ a (by grind), linkIn]
  · have last : post = [] := by
      cases post with
      | nil => rfl
      | cons q post =>
        have less := top q (by simp)
        have more := beyond q rfl
        omega
    subst last
    obtain ⟨gap, rfl⟩ | ⟨-, impossible, -⟩ := joined₁
    · rw [show settle (linkIn h bp p) bp = linkIn h bp p from if_neg gap]
        at size₂ joined₂ ptr ⊢
      rw [ptr, show (linkIn h bp p).size = h.size from rfl] at joined₂
      obtain ⟨apart, rfl⟩ | ⟨touches, same, size⟩ := joined₂
      · have size := size₂ bp below.ne'
        refine ⟨bp, by simp, size.ge, by rw [size]; rfl, fun a member other => ⟨by grind, ?_⟩⟩
        by_cases last : a = p
        · rw [last, settle, if_neg (by rwa [ptr])]
          rfl
        · exact size₂ a last
      · cases same
        refine ⟨p, by simp, by omega, by omega, fun a member other => ⟨member, size₂ a other⟩⟩
    · cases impossible
  · rw [Umalloc.free, Nat.add_sub_cancel, found rounds enough, ← joins_eq below.ne next (by omega)]
    exact if_pos ⟨near p (by simp), near bp (by simp), fun _ => near _ (List.mem_append_left _ linked)⟩

theorem Ok.taken {q nunits : Nat} (ok : Ok base h [] nodes live mem) (member : q ∈ nodes)
    (positive : 0 < nunits) (fits : nunits ≤ h.size (h.ptr q)) :
    ∃ nodes' b, b = h.ptr q + 16 * (h.size (h.ptr q) - nunits) ∧
      (take h nunits q (h.ptr q)).1 = b + 16 ∧ (take h nunits q (h.ptr q)).2.size b = nunits ∧
      (take h nunits q (h.ptr q)).2.calls = h.calls ∧
      (∀ a ∈ live, (take h nunits q (h.ptr q)).2.size a = h.size a) ∧
      Ok base (take h nunits q (h.ptr q)).2 [] nodes' (b :: live) mem := by
  obtain ⟨pre, post, rfl⟩ := List.append_of_mem member
  have other : h.ptr q ≠ base := by
    intro same
    rw [same, ok.header] at fits
    omega
  cases post with
  | nil => exact absurd (ok.link base rfl) other
  | cons y post =>
  have linked : h.ptr q = y := ok.link y rfl
  rw [linked] at fits other ⊢
  have distinct := ok.nodup
  have known := ok.blocks y (by simp) other
  by_cases exactly : h.size y = nunits
  · have shape : take h nunits q y =
        (y + 16, { h with ptr := update h.ptr q (h.ptr y), freep := q }) := if_pos exactly
    obtain ⟨low, qlink, high⟩ := ok.cut
    obtain ⟨ylink, high⟩ := List.isChain_cons.mp high
    rw [shape]
    refine ⟨pre ++ q :: post, y, by omega, rfl, exactly, rfl, fun _ _ => rfl, ?_⟩
    have perm : (pre ++ q :: y :: post ++ live).Perm (pre ++ q :: post ++ y :: live) := by grind
    exact {
      first := by
        have first := ok.first
        cases pre <;> exact first
      chain := by
        refine chain_of low high ?_ ?_
        · exact fun a member b link => ⟨(update_of_ne (by grind) _ _).trans link.1, link.2⟩
        · intro z found
          have before := ((qlink y rfl).2.resolve_left other).resolve_right fun touches =>
            nomatch touches.1
          refine ⟨(update_self ..).trans (ylink z found).1, (ylink z found).2.imp_right ?_⟩
          rintro (after | ⟨⟨⟩, -⟩)
          exact .inl (by dsimp only; omega)
      header := ok.header
      freep := List.mem_append_right _ List.mem_cons_self
      nodup := perm.nodup distinct
      blocks := fun a member => ok.blocks a (perm.mem_iff.mpr member)
      tiles := ok.tiles.perm (perm.map _) }
  · obtain ⟨rest, units⟩ : ∃ rest, h.size y = rest + nunits := ⟨_, (Nat.sub_add_cancel fits).symm⟩
    obtain ⟨b, place⟩ : ∃ b, b = y + 16 * rest := ⟨_, rfl⟩
    have shape : take h nunits q y =
        (b + 16, { h with size := update (update h.size y rest) b nunits, freep := q }) := by
      rw [take, if_neg exactly, units, Nat.add_sub_cancel, place]
    have fresh : b ∉ pre ++ q :: y :: post ++ live := by
      intro member
      have beyond := ok.end_le (a := y) (by simp) member (by omega)
      omega
    have size : ∀ a ∈ pre ++ q :: y :: post ++ live, a ≠ y →
        update (update h.size y rest) b nunits a = h.size a := fun a member different =>
      (update_of_ne (ne_of_mem_of_not_mem member fresh) _ _).trans (update_of_ne different _ _)
    have here : update (update h.size y rest) b nunits y = rest :=
      (update_of_ne (by omega) _ _).trans (update_self ..)
    have less : ∀ a ∈ pre ++ q :: y :: post ++ live,
        update (update h.size y rest) b nunits a ≤ h.size a := by
      intro a member
      by_cases same : a = y
      · rw [same, here]
        omega
      · exact (size a member same).le
    rw [shape]
    refine ⟨pre ++ q :: y :: post, b, by omega, rfl, update_self .., rfl,
      fun a member => size a (List.mem_append_right _ member) (by grind), ?_⟩
    exact {
      first := ok.first
      chain := by
        refine chain_imp ok.chain ?_
        rintro a member c ⟨link, wraps | sorted | ⟨⟨⟩, -⟩⟩
        · exact ⟨link, .inl wraps⟩
        · have shrunk := less a (List.mem_append_left _ member)
          exact ⟨link, .inr (.inl (by dsimp only; omega))⟩
      header := (size base (List.mem_append_left _ ok.base_mem) other.symm).trans ok.header
      freep := List.mem_append_right _ List.mem_cons_self
      nodup := by grind
      blocks := by
        intro a member different
        by_cases new : a = b
        · subst new
          simp only [update_self]
          omega
        · have old : a ∈ pre ++ q :: y :: post ++ live := by grind
          by_cases same : a = y
          · subst same
            simp only [here]
            omega
          · simp only [size a old same]
            exact ok.blocks a old different
      tiles := by
        have whole := ok.tiles.perm (List.Perm.map _
          (show List.Perm _ (y :: (pre ++ q :: post ++ live)) by grind))
        rw [List.map_cons, Heap.extent, units, Nat.mul_add] at whole
        have cut := whole.split
        refine Tiles.perm ?_ (List.Perm.map _
          (show (y :: b :: (pre ++ q :: post ++ live)).Perm _ by grind))
        rw [List.map_cons, List.map_cons, map_extent_congr (h := h)]
        · simpa only [Heap.extent, here, update_self, ← place] using cut
        · exact fun a member => size a (by grind) (by grind) }

theorem Ok.perm {live' : List Nat} (ok : Ok base h [] nodes live mem) (same : live.Perm live') :
    Ok base h [] nodes live' mem :=
  { ok with
    nodup := (same.append_left nodes).nodup ok.nodup
    blocks := fun a member => ok.blocks a ((same.append_left nodes).mem_iff.mpr member)
    tiles := ok.tiles.perm ((same.append_left nodes).map _) }

section Search

variable {σ : Type} (os : Os σ) (nunits : Nat) (s : σ)

/-- The loop of `malloc` takes the first block that is large enough, or comes to `freep`. -/
theorem search_walk (l : List Nat) (a : Nat)
    (links : (a :: (l ++ [h.freep])).IsChain fun a b => h.ptr a = b) (others : h.freep ∉ l)
    (near : ∀ y ∈ l ++ [h.freep], reach (os.mapped s) y) :
    (∃ q ∈ a :: l, nunits ≤ h.size (h.ptr q) ∧ (reach (os.mapped s) (takeHeader h nunits q (h.ptr q)) →
      ∀ rounds, l.length < rounds → search os nunits rounds h s a (h.ptr a) =
        some ((take h nunits q (h.ptr q)).1, (take h nunits q (h.ptr q)).2, s))) ∨
    (∀ y ∈ l ++ [h.freep], h.size y < nunits) ∧ ∃ q, ∀ rounds,
      search os nunits (rounds + l.length) h s a (h.ptr a) =
        search os nunits rounds h s q h.freep := by
  have here : ¬ (!reach (os.mapped s) (h.ptr a)) = true := by
    have first : h.ptr a ∈ l ++ [h.freep] := by
      cases l <;> simp [(List.isChain_cons_cons.mp links).1]
    simp [near _ first]
  by_cases fits : nunits ≤ h.size (h.ptr a)
  · refine .inl ⟨a, List.mem_cons_self, fits, fun able => ?_⟩
    rintro (- | rounds) enough
    · omega
    · rw [search, if_neg here, if_pos fits, if_pos able]
  match l, links, others, near with
  | [], links, _, _ =>
    have link : h.ptr a = h.freep := (List.isChain_cons_cons.mp links).1
    refine .inr ⟨?_, a, fun rounds => by rw [link]; rfl⟩
    simpa [← link] using fits
  | b :: l, links, others, near =>
    obtain ⟨link, links⟩ := List.isChain_cons_cons.mp links
    have different : h.ptr a ≠ h.freep := fun same => others (by simp [← same, link])
    have step : ∀ rounds, search os nunits (rounds + 1) h s a (h.ptr a) =
        search os nunits rounds h s b (h.ptr b) := by
      intro rounds
      rw [search, if_neg here, if_neg fits, if_neg different, link]
    rcases search_walk l b links (fun member => others (.tail _ member))
      (fun y member => near y (.tail _ member)) with ⟨q, member, large, found⟩ | ⟨none, q, arrives⟩
    · refine .inl ⟨q, .tail _ member, large, fun able => ?_⟩
      rintro (- | rounds) enough
      · omega
      · rw [step, found able rounds (Nat.lt_of_succ_lt_succ enough)]
    · refine .inr ⟨?_, q, fun rounds => (step _).trans (arrives rounds)⟩
      rw [link] at fits
      exact List.forall_mem_cons.mpr ⟨by omega, none⟩

theorem Ok.walk_reach {m : List Nat} (ok : Ok base h [] nodes live mem) (all : Mapped mapped base mem)
    (perm : (h.freep :: m).Perm nodes) : ∀ y ∈ m ++ [h.freep], Umalloc.reach mapped y := by
  intro y member
  refine ok.reach all y (List.mem_append_left _ (perm.mem_iff.mp ?_))
  simpa [or_comm] using member

theorem Ok.search_fits (ok : Ok base h [] nodes live mem) (all : Mapped (os.mapped s) base mem)
    (positive : 0 < nunits) (fits : ∃ y ∈ nodes, nunits ≤ h.size y) :
    ∃ h' nodes' q b, q ∈ nodes ∧ nunits ≤ h.size (h.ptr q) ∧
      b = h.ptr q + 16 * (h.size (h.ptr q) - nunits) ∧
      Ok base h' [] nodes' (b :: live) mem ∧ h'.size b = nunits ∧ h'.calls = h.calls ∧
      (∀ a ∈ live, h'.size a = h.size a) ∧ ∀ rounds, nodes.length ≤ rounds →
        search os nunits rounds h s h.freep (h.ptr h.freep) = some (b + 16, h', s) := by
  obtain ⟨m, perm, links⟩ := ok.walk
  have distinct := perm.symm.nodup (List.nodup_append.mp ok.nodup).1
  rcases search_walk os nunits s m h.freep links (List.nodup_cons.mp distinct).1
    (ok.walk_reach all perm) with ⟨q, member, large, found⟩ | ⟨none, -⟩
  · have known := perm.mem_iff.mp member
    obtain ⟨nodes', b, place, pointer, size, calls, kept, ok'⟩ := ok.taken known positive large
    refine ⟨_, nodes', q, b, known, large, place, ok', size, calls, kept, fun rounds enough => ?_⟩
    rw [← perm.length_eq] at enough
    have able : Umalloc.reach (os.mapped s) (takeHeader h nunits q (h.ptr q)) := by
      unfold takeHeader
      split
      · exact ok.reach all q (List.mem_append_left _ known)
      · rw [← place]
        exact ok'.reach all b (by simp)
    rw [found able rounds enough, pointer]
  · obtain ⟨y, member, large⟩ := fits
    have less := none y (by simpa [or_comm] using perm.mem_iff.mpr member)
    omega

theorem Ok.search_misses (ok : Ok base h [] nodes live mem) (all : Mapped (os.mapped s) base mem)
    (none : ∀ y ∈ nodes, h.size y < nunits) (rounds : Nat) :
    search os nunits (rounds + nodes.length) h s h.freep (h.ptr h.freep) =
      (morecore os rounds nunits h s).bind fun r =>
        if r.1 then search os nunits rounds r.2.1 r.2.2 r.2.1.freep (r.2.1.ptr r.2.1.freep)
        else some (0, r.2.1, r.2.2) := by
  obtain ⟨m, perm, links⟩ := ok.walk
  have distinct := perm.symm.nodup (List.nodup_append.mp ok.nodup).1
  rcases search_walk os nunits s m h.freep links (List.nodup_cons.mp distinct).1
    (ok.walk_reach all perm) with ⟨q, member, large, -⟩ | ⟨-, q, arrives⟩
  · have less := none _ (ok.next_mem (perm.mem_iff.mp member))
    omega
  · have less := none h.freep ok.freep
    rw [← perm.length_eq, List.length_cons, ← Nat.add_assoc, Nat.add_right_comm, arrives, search,
      if_neg (by simp [ok.reach all _ (List.mem_append_left _ ok.freep)]), if_neg (by omega), if_pos rfl]
    rfl

theorem Ok.extend {hp nu : Nat} (ok : Ok base h [] nodes live mem) (positive : 0 < nu)
    (above : ∀ a ∈ nodes ++ live, a + 16 * h.size a ≤ hp) (higher : base < hp)
    (calls : List (Nat × Option Nat)) :
    Ok base { h with size := update h.size hp nu, calls := calls } [] nodes (hp :: live)
      fun x => mem x ∨ hp ≤ x ∧ x < hp + 16 * nu := by
  have fresh : ∀ a ∈ nodes ++ live, a ≠ hp := by
    rintro a member rfl
    by_cases same : a = base
    · omega
    · have filled := (ok.blocks a member same).2
      have bound := above a member
      omega
  have size : ∀ a ∈ nodes ++ live, update h.size hp nu a = h.size a :=
    fun a member => update_of_ne (fresh a member) _ _
  have perm : (hp :: (nodes ++ live)).Perm (nodes ++ hp :: live) := List.perm_middle.symm
  exact {
    first := ok.first
    chain := by
      refine chain_imp ok.chain fun a member b next => ?_
      simpa only [Heap.Next, size a (List.mem_append_left _ member)] using next
    header := (size base (List.mem_append_left _ ok.base_mem)).trans ok.header
    freep := ok.freep
    nodup := perm.nodup (List.nodup_cons.mpr ⟨fun member => fresh hp member rfl, ok.nodup⟩)
    blocks := by
      intro a member different
      rcases List.mem_cons.mp (perm.mem_iff.mpr member) with rfl | old
      · simpa only [update_self] using And.intro higher positive
      · simpa only [size a old] using ok.blocks a old different
    tiles := by
      refine Tiles.perm ?_ (perm.map _)
      rw [List.map_cons, map_extent_congr size]
      simp only [Heap.extent, update_self]
      refine ok.tiles.extend fun b member => ?_
      obtain ⟨a, known, rfl⟩ := List.mem_map.mp member
      exact above a known }

theorem Ok.search_fails {s' : σ} (ok : Ok base h [] nodes live mem)
    (all : Mapped (os.mapped s) base mem) (none : ∀ y ∈ nodes, h.size y < nunits)
    (reply : os.sbrk s (BitVec.ofNat 32 (coreUnits nunits * 16)).toInt = (.none, s')) (rounds : Nat) :
    search os nunits (rounds + nodes.length) h s h.freep (h.ptr h.freep) =
      some (0, { h with calls := h.calls ++ [(coreUnits nunits * 16, .none)] }, s') := by
  rw [ok.search_misses os nunits s all none, morecore, reply]
  rfl

/-- When `sbrk` answers with memory above all blocks, the block is cut from the end of it. -/
theorem Ok.search_grows {hp : Nat} {s' : σ} (ok : Ok base h [] nodes live mem)
    (all : Mapped (os.mapped s) base mem) (positive : 0 < nunits)
    (none : ∀ y ∈ nodes, h.size y < nunits)
    (reply : os.sbrk s (BitVec.ofNat 32 (coreUnits nunits * 16)).toInt = (some hp, s'))
    (above : ∀ a ∈ nodes ++ live, a + 16 * h.size a ≤ hp) (higher : base < hp)
    (small : Small fun x => mem x ∨ hp ≤ x ∧ x < hp + 16 * coreUnits nunits)
    (all' : Mapped (os.mapped s') base fun x => mem x ∨ hp ≤ x ∧ x < hp + 16 * coreUnits nunits) :
    ∃ h' nodes' b, b = hp + 16 * (coreUnits nunits - nunits) ∧
      Ok base h' [] nodes' (b :: live) (fun x => mem x ∨ hp ≤ x ∧ x < hp + 16 * coreUnits nunits) ∧
      h'.size b = nunits ∧ h'.calls = h.calls ++ [(coreUnits nunits * 16, some hp)] ∧
      (∀ a ∈ live, h'.size a = h.size a) ∧ ∃ N, ∀ rounds, N ≤ rounds →
        search os nunits rounds h s h.freep (h.ptr h.freep) = some (b + 16, h', s') := by
  have enough : nunits ≤ coreUnits nunits := by
    unfold coreUnits
    split <;> omega
  have top : ∀ a ∈ nodes, a < hp := by
    intro a member
    have bound := above a (List.mem_append_left _ member)
    by_cases same : a = base
    · omega
    · have filled := (ok.blocks a (List.mem_append_left _ member) same).2
      omega
  have ok₁ := ok.extend (show 0 < coreUnits nunits by omega) above higher
    (h.calls ++ [(coreUnits nunits * 16, some hp)])
  obtain ⟨h₂, nodes₂, ok₂, calls, kept, last, frees⟩ := ok₁.free small all'
  obtain ⟨z, member, large, ends, others⟩ := last top
  simp only [update_self] at large ends
  obtain ⟨h', nodes', q, b, known, fits, place, ok', size, calls', kept', found⟩ :=
    ok₂.search_fits os nunits s' all' positive ⟨z, member, enough.trans large⟩
  have chosen : h₂.ptr q = z := by
    by_contra different
    obtain ⟨old, same⟩ := others _ (ok₂.next_mem known) different
    have less := none _ old
    rw [same.trans (update_of_ne (Nat.ne_of_lt (top _ old)) _ _)] at fits
    omega
  have distinct := ok₁.nodup
  refine ⟨h', nodes', b, ?_, ok', size, calls'.trans calls, fun a known =>
    ((kept' a known).trans (kept a known)).trans (update_of_ne (by grind) _ _),
    nodes₂.length + nodes.length + nodes.length, fun rounds most => ?_⟩
  · rw [chosen] at place fits
    omega
  · obtain ⟨more, rfl⟩ : ∃ more, rounds = more + nodes.length := ⟨rounds - nodes.length, by omega⟩
    rw [ok.search_misses os nunits s all none, morecore, reply]
    simp only [ok₁.reach all' hp (by simp), frees more (by omega), Option.bind_eq_bind, Option.bind_some, if_true]
    exact found more (by omega)

end Search

end OsbKernel.Umalloc
