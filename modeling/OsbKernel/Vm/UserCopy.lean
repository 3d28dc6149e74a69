import OsbKernel.Vm.Allocators
import OsbKernel.Vm.UserMemory

/-!
# The copy functions over flat user memory

`copyin` delivers the bytes that stand in user memory, `copyout` lays its bytes over it and
`copyinstr` reads one string, for every address, length and page table.
-/

namespace OsbKernel.Paging

open Function FreeRadix PartialMap

variable {K : Type} [Allocator K] {m m' m'' : Machine K} {pt : Word}

/-- The answer of `copyin`: the bytes that stand in user memory, or none when one is missing. -/
def Delivers (m : Machine K) (pt : Word) (a len : Nat) (result : Option (List Byte)) : Prop :=
  (∃ bytes, result = some bytes ∧ bytes.length = len ∧ Holds (userMem m pt) a bytes) ∨
    (result = none ∧ ∃ i < len, userMem m pt (a + i) = none)

theorem delivers_nothing (a : Nat) : Delivers m pt a 0 (some []) :=
  .inl ⟨[], rfl, rfl, holds_nil⟩

theorem copyinLoop_nothing (rounds : Nat) (srcva : Word) :
    copyinLoop m pt rounds srcva 0 = some [] := by
  cases rounds with
  | zero => rfl
  | succ rounds => exact if_pos rfl

variable {rounds a n k max : Nat} {srcva page : Word} {bytes src : List Byte} {r : CopyStr}
    {mem : Nat → Option Byte}

theorem copyinLoop_round {len : Nat} (some : len ≠ 0) :
    copyinLoop m pt (rounds + 1) srcva len =
      if userPage m pt (srcva.toNat / 4096) = 0 then none
      else
        (copyinLoop m pt rounds (PGROUNDDOWN srcva + PGSIZE)
            (len - min (4096 - srcva.toNat % 4096) len)).map
          (readPage (m.mem (userPage m pt (srcva.toNat / 4096))) (srcva.toNat % 4096)
            (min (4096 - srcva.toNat % 4096) len) ++ ·) := by
  rw [copyinLoop, if_neg some]
  dsimp only
  rw [walkaddr_round, offset_toNat, pgsize_toNat]

theorem readPage_holds (user : userPage m pt (a / 4096) ≠ 0)
    (inside : a % 4096 + n ≤ 4096) :
    Holds (userMem m pt) a
      (readPage (m.mem (userPage m pt (a / 4096))) (a % 4096) n) := by
  intro i below
  rw [readPage_length] at below
  rw [readPage_getElem? _ _ below, userMem_chunk user (by omega)]

theorem Delivers.prepend {len : Nat} {first : List Byte} {rest : Option (List Byte)}
    (holds : Holds (userMem m pt) a first) (length : first.length = n) (part : n ≤ len)
    (delivers : Delivers m pt (a + n) (len - n) rest) :
    Delivers m pt a len (rest.map (first ++ ·)) := by
  rcases delivers with ⟨bytes, rfl, size, later⟩ | ⟨rfl, i, below, absent⟩
  · refine .inl ⟨first ++ bytes, rfl, ?_, ?_⟩
    · rw [List.length_append]
      omega
    · exact holds.append (by rw [length]; exact later)
  · refine .inr ⟨rfl, n + i, by omega, ?_⟩
    rw [← Nat.add_assoc]
    exact absent

theorem copyinLoop_delivers {len : Nat} (enough : len ≤ rounds) (srcva : Word) :
    Delivers m pt srcva.toNat len (copyinLoop m pt rounds srcva len) := by
  induction rounds generalizing srcva len with
  | zero =>
    obtain rfl : len = 0 := Nat.le_zero.mp enough
    exact delivers_nothing _
  | succ rounds ih =>
    by_cases none : len = 0
    · subst none
      exact delivers_nothing _
    · rw [copyinLoop_round none]
      by_cases absent : userPage m pt (srcva.toNat / 4096) = 0
      · rw [if_pos absent]
        exact .inr ⟨rfl, 0, by omega, userMem_none absent⟩
      · rw [if_neg absent]
        refine (Delivers.prepend (readPage_holds absent (by omega)) (readPage_length _ _ _)
          (Nat.min_le_right _ _) ?_)
        by_cases last : len - min (4096 - srcva.toNat % 4096) len = 0
        · rw [last, copyinLoop_nothing]
          exact delivers_nothing _
        · have next := next_toNat srcva (userPage_inside absent)
          have place : (PGROUNDDOWN srcva + PGSIZE).toNat =
              srcva.toNat + min (4096 - srcva.toNat % 4096) len := by omega
          rw [← place]
          exact ih (by omega) _

theorem copyin_delivers (m : Machine K) (pt srcva : Word) (len : Nat) :
    Delivers m pt srcva.toNat len (copyin m pt srcva len) :=
  copyinLoop_delivers (Nat.le_refl _) _

/-- User pages are distinct pages, apart from the page-table pages. -/
structure Separate (m : Machine K) (pt : Word) : Prop where
  distinct : ∀ v w, userPage m pt v ≠ 0 →
    userPage m pt v = userPage m pt w → v = w
  apart : ∀ v, userPage m pt v ≠ 0 → userPage m pt v ∉ tables m.mem pt

/-- `bytes` have been laid over user memory from address `a` on, and nothing else changed. -/
structure CopiedOut (m m' : Machine K) (pt : Word) (a : Nat) (bytes : List Byte) : Prop where
  kmem : m'.kmem = m.kmem
  mapped : ∀ i < bytes.length, userPage m pt ((a + i) / 4096) ≠ 0
  userMem : userMem m' pt = overwrite (userMem m pt) a bytes
  other : ∀ x, (∀ i < bytes.length, userPage m pt ((a + i) / 4096) ≠ x) → m'.mem x = m.mem x

omit [Allocator K] in
theorem pteAt_congr (same : ∀ x ∈ tables m.mem pt, m'.mem x = m.mem x) (v : Nat) :
    pteAt m'.mem pt v = pteAt m.mem pt v :=
  Format.lookup_congr (indices_lt v) same

theorem userPage_congr (same : ∀ x ∈ tables m.mem pt, m'.mem x = m.mem x) :
    userPage m' pt = userPage m pt := by
  funext v
  by_cases below : v < VPNS
  · rw [userPage_entry below, userPage_entry below, pteAt_congr same]
  · rw [userPage_outside (Nat.not_lt.mp below), userPage_outside (Nat.not_lt.mp below)]

theorem Separate.congr (separate : Separate m pt)
    (same : ∀ x ∈ tables m.mem pt, m'.mem x = m.mem x) : Separate m' pt := by
  have pages := userPage_congr same
  have nodes : tables m'.mem pt = tables m.mem pt := Format.nodes_congr same
  refine ⟨?_, ?_⟩
  · rw [pages]
    exact separate.distinct
  · rw [pages, nodes]
    exact separate.apart

theorem CopiedOut.tables (copied : CopiedOut m m' pt a bytes)
    (separate : Separate m pt) : ∀ x ∈ Paging.tables m.mem pt, m'.mem x = m.mem x := by
  intro x table
  refine copied.other x ?_
  intro i inside same
  exact separate.apart _ (copied.mapped i inside) (same ▸ table)

theorem CopiedOut.nothing (m : Machine K) (pt : Word) (a : Nat) :
    CopiedOut m m pt a [] :=
  ⟨rfl, fun _ inside => absurd inside (Nat.not_lt_zero _), overwrite_nil.symm, fun _ _ => rfl⟩

theorem CopiedOut.trans {more : List Byte} (separate : Separate m pt)
    (first : CopiedOut m m' pt a bytes)
    (second : CopiedOut m' m'' pt (a + bytes.length) more) :
    CopiedOut m m'' pt a (bytes ++ more) := by
  have pages := userPage_congr (first.tables separate)
  have pageOf : ∀ i < bytes.length + more.length, bytes.length ≤ i →
      userPage m' pt ((a + bytes.length + (i - bytes.length)) / 4096) =
        userPage m pt ((a + i) / 4096) := by
    intro i _ beyond
    rw [pages]
    congr 2
    omega
  refine ⟨second.kmem.trans first.kmem, ?_, ?_, ?_⟩
  · intro i inside
    rw [List.length_append] at inside
    by_cases left : i < bytes.length
    · exact first.mapped i left
    · rw [← pageOf i inside (by omega)]
      exact second.mapped (i - bytes.length) (by omega)
  · rw [second.userMem, first.userMem, overwrite_append]
  · intro x outside
    rw [List.length_append] at outside
    have unchanged : m'.mem x = m.mem x :=
      first.other x fun i inside => outside i (by omega)
    rw [← unchanged]
    refine second.other x ?_
    intro i inside
    have there := outside (bytes.length + i) (by omega)
    rw [← pageOf _ (by omega) (by omega), Nat.add_sub_cancel_left] at there
    exact there

theorem write_copied (separate : Separate m pt)
    (user : userPage m pt (a / 4096) ≠ 0) (inside : a % 4096 + bytes.length ≤ 4096) :
    CopiedOut m (m.write (userPage m pt (a / 4096)) (a % 4096) bytes) pt a bytes := by
  have page : ∀ i < bytes.length, (a + i) / 4096 = a / 4096 := by
    omega
  have same : ∀ x ∈ Paging.tables m.mem pt,
      (m.write (userPage m pt (a / 4096)) (a % 4096) bytes).mem x = m.mem x := by
    intro x table
    refine write_mem_of_ne ?_ _ _
    rintro rfl
    exact separate.apart _ user table
  have pages := userPage_congr same
  refine ⟨rfl, ?_, ?_, ?_⟩
  · intro i below
    rw [page i below]
    exact user
  · funext x
    by_cases here : x / 4096 = a / 4096
    · have content := congrFun
        (pageByte_writePage (m.mem (userPage m pt (a / 4096))) (a % 4096) bytes) (x % 4096)
      rw [userMem_some (by rw [pages, here]; exact user), pages, here, write_mem_self]
      refine content.trans ?_
      by_cases written : a ≤ x ∧ x < a + bytes.length
      · rw [overwrite_inside written.1 written.2, overwrite_inside (by omega) (by omega)]
        congr 1
        omega
      · rw [overwrite_outside (by omega), overwrite_outside (by omega),
          userMem_some (by rw [here]; exact user), here]
    · have outside : x < a ∨ a + bytes.length ≤ x := by omega
      rw [overwrite_outside outside]
      by_cases absent : userPage m pt (x / 4096) = 0
      · rw [userMem_none absent, userMem_none (by rw [pages]; exact absent)]
      · have different : userPage m pt (x / 4096) ≠ userPage m pt (a / 4096) :=
          fun equal => here (separate.distinct _ _ absent equal)
        rw [userMem_some absent, userMem_some (by rw [pages]; exact absent), pages,
          write_mem_of_ne different]
  · intro x outside
    cases bytes with
    | nil =>
      by_cases equal : x = userPage m pt (a / 4096)
      · subst equal
        exact update_self _ _ _
      · exact update_of_ne equal _ _
    | cons b bytes => exact update_of_ne (fun equal => outside 0 (by simp) equal.symm) _ _

/-- What `copyout` of `src` to address `a` does: it lays the first `k` bytes over user memory,
all of them when it returns 0, else up to a missing byte. -/
structure CopiesOut (m : Machine K) (pt : Word) (a : Nat) (src : List Byte)
    (result : Bool × Machine K) (k : Nat) : Prop where
  bound : k ≤ src.length
  returns : result.1 = true ↔ k = src.length
  stopped : k < src.length → userMem m pt (a + k) = none
  copied : CopiedOut m result.2 pt a (src.take k)

theorem copiesOut_nothing (m : Machine K) (pt : Word) (a : Nat) :
    CopiesOut m pt a [] (true, m) 0 :=
  ⟨Nat.le_refl _, by simp, fun short => absurd short (Nat.lt_irrefl _), .nothing m pt a⟩

theorem copyoutLoop_nothing (rounds : Nat) (m : Machine K) (dstva : Word) :
    copyoutLoop pt rounds m dstva [] = (true, m) := by
  cases rounds with
  | zero => rfl
  | succ rounds => exact if_pos rfl

theorem copyoutLoop_round {dstva : Word} (some : src ≠ []) :
    copyoutLoop pt (rounds + 1) m dstva src =
      if userPage m pt (dstva.toNat / 4096) = 0 then (false, m)
      else
        copyoutLoop pt rounds
          (m.write (userPage m pt (dstva.toNat / 4096)) (dstva.toNat % 4096)
            (src.take (min (4096 - dstva.toNat % 4096) src.length)))
          (PGROUNDDOWN dstva + PGSIZE) (src.drop (min (4096 - dstva.toNat % 4096) src.length)) := by
  rw [copyoutLoop, if_neg some]
  dsimp only
  rw [walkaddr_round, offset_toNat, pgsize_toNat]

variable {result : Bool × Machine K}

theorem CopiesOut.prepend (separate : Separate m pt) (part : n ≤ src.length)
    (first : CopiedOut m m' pt a (src.take n))
    (rest : CopiesOut m' pt (a + n) (src.drop n) result k) :
    CopiesOut m pt a src result (n + k) := by
  have length : (src.take n).length = n := by
    rw [List.length_take]
    omega
  have bound := rest.bound
  have returns := rest.returns
  have stopped := rest.stopped
  have copied := rest.copied
  rw [List.length_drop] at bound returns stopped
  refine ⟨by omega, returns.trans (by omega), ?_, ?_⟩
  · intro short
    have missing := stopped (by omega)
    rw [first.userMem, overwrite_outside (by omega), Nat.add_assoc] at missing
    exact missing
  · have joined := first.trans separate (by rw [length]; exact copied)
    rw [List.take_add]
    exact joined

theorem copyoutLoop_copies (enough : src.length ≤ rounds)
    (separate : Separate m pt) (dstva : Word) :
    ∃ k, CopiesOut m pt dstva.toNat src (copyoutLoop pt rounds m dstva src) k := by
  induction rounds generalizing m dstva src with
  | zero =>
    obtain rfl : src = [] := List.length_eq_zero_iff.mp (Nat.le_zero.mp enough)
    exact ⟨0, copiesOut_nothing m pt _⟩
  | succ rounds ih =>
    by_cases none : src = []
    · subst none
      exact ⟨0, copiesOut_nothing m pt _⟩
    · have positive : 0 < src.length := List.length_pos_of_ne_nil none
      rw [copyoutLoop_round none]
      by_cases absent : userPage m pt (dstva.toNat / 4096) = 0
      · rw [if_pos absent]
        refine ⟨0, Nat.zero_le _, ?_, fun _ => userMem_none absent, .nothing m pt _⟩
        exact iff_of_false Bool.false_ne_true (by omega)
      · rw [if_neg absent]
        generalize size : min (4096 - dstva.toNat % 4096) src.length = n
        have part : n ≤ src.length := by omega
        have length : (src.take n).length = n := by
          rw [List.length_take]
          omega
        have left : (src.drop n).length = src.length - n := List.length_drop
        have first := write_copied separate absent (by rw [length]; omega : _ + (src.take n).length ≤ _)
        have separate' := separate.congr (first.tables separate)
        by_cases last : src.drop n = []
        · rw [last, copyoutLoop_nothing]
          refine ⟨n + 0, .prepend separate part first ?_⟩
          rw [last]
          exact copiesOut_nothing _ pt _
        · have more : 0 < (src.drop n).length := List.length_pos_of_ne_nil last
          have next := next_toNat dstva (userPage_inside absent)
          have place : (PGROUNDDOWN dstva + PGSIZE).toNat = dstva.toNat + n := by omega
          obtain ⟨k, rest⟩ := ih (by omega : (src.drop n).length ≤ rounds) separate'
            (PGROUNDDOWN dstva + PGSIZE)
          rw [place] at rest
          exact ⟨n + k, .prepend separate part first rest⟩

theorem copyout_copies (separate : Separate m pt) (dstva : Word) (src : List Byte) :
    ∃ k, CopiesOut m pt dstva.toNat src (copyout m pt dstva src) k :=
  copyoutLoop_copies (Nat.le_refl _) separate dstva

theorem CopiesOut.returns_iff (copies : CopiesOut m pt a src result k) :
    result.1 = true ↔ ∀ i < src.length, userMem m pt (a + i) ≠ none := by
  have length : (src.take k).length = k := by
    rw [List.length_take]
    have bound := copies.bound
    omega
  constructor
  · intro zero i inside
    have whole := copies.returns.mp zero
    exact userMem_ne_none.mpr (copies.copied.mapped i (by omega))
  · intro mapped
    by_contra failed
    have short : k < src.length := by
      have bound := copies.bound
      have other : k ≠ src.length := fun whole => failed (copies.returns.mpr whole)
      omega
    exact mapped k short (copies.stopped short)

theorem userMem_outside (above : 2 ^ 38 ≤ a) : userMem m pt a = none := by
  refine userMem_none (userPage_outside ?_)
  unfold VPNS
  omega

theorem CopiesOut.changed {x : Nat}
    (copies : CopiesOut m pt a src result k)
    (changed : userMem result.2 pt x ≠ userMem m pt x) :
    a ≤ x ∧ x < a + src.length ∧
      ∀ y, a ≤ y → y / 4096 ≤ x / 4096 → userMem m pt y ≠ none := by
  have length : (src.take k).length = k := by
    rw [List.length_take]
    have bound := copies.bound
    omega
  have bound := copies.bound
  have inside : a ≤ x ∧ x < a + k := by
    by_contra outside
    rw [copies.copied.userMem, overwrite_outside (by omega)] at changed
    exact changed rfl
  refine ⟨inside.1, by omega, ?_⟩
  intro y low high
  have mapped := copies.copied.mapped (min y x - a) (by omega)
  have page : (a + (min y x - a)) / 4096 = y / 4096 := by omega
  rw [page] at mapped
  exact userMem_ne_none.mpr mapped

/-- `copyout` and `copyin` act on flat user memory: a range is accepted exactly when all of it is
mapped, and then its bytes are replaced or delivered. -/
theorem copy_agrees_with_user_memory (m : Machine K) (pt va : Word) (src : List Byte)
    (len : Nat) (separate : Separate m pt) :
    ((copyout m pt va src).1 = true ↔
      ∀ i < src.length, userMem m pt (va.toNat + i) ≠ none) ∧
    (2 ^ 64 < va.toNat + src.length → (copyout m pt va src).1 = false) ∧
    ((copyout m pt va src).1 = true →
      userMem (copyout m pt va src).2 pt =
        overwrite (userMem m pt) va.toNat src ∧
      copyin (copyout m pt va src).2 pt va src.length = some src) ∧
    ((copyout m pt va src).1 = false →
      ∀ x, userMem (copyout m pt va src).2 pt x ≠ userMem m pt x →
        va.toNat ≤ x ∧ x < va.toNat + src.length ∧
          ∀ y, va.toNat ≤ y → y / 4096 ≤ x / 4096 → userMem m pt y ≠ none) ∧
    ((copyin m pt va len).isSome = true ↔
      ∀ i < len, userMem m pt (va.toNat + i) ≠ none) ∧
    (2 ^ 64 < va.toNat + len → copyin m pt va len = none) ∧
    ∀ bytes, copyin m pt va len = some bytes →
      bytes.length = len ∧ Holds (userMem m pt) va.toNat bytes := by
  obtain ⟨k, copies⟩ := copyout_copies separate va src
  have delivers := copyin_delivers m pt va len
  refine ⟨copies.returns_iff, ?_, ?_, ?_, ?_, ?_, ?_⟩
  · intro wraps
    rw [← Bool.not_eq_true, copies.returns_iff]
    intro mapped
    exact mapped (src.length - 1) (by omega) (userMem_outside (by omega))
  · intro zero
    have whole := copies.returns.mp zero
    have laid := copies.copied.userMem
    rw [whole, List.take_length] at laid
    refine ⟨laid, ?_⟩
    have stands : Holds (userMem (copyout m pt va src).2 pt) va.toNat src := by
      rw [laid]
      exact holds_overwrite _ _ _
    rcases copyin_delivers (copyout m pt va src).2 pt va src.length with
      ⟨bytes, answer, length, holds⟩ | ⟨_, i, inside, missing⟩
    · rw [answer, holds.unique stands length]
    · exact absurd missing (stands.some inside)
  · intro _ x changed
    exact copies.changed changed
  · rcases delivers with ⟨bytes, answer, length, holds⟩ | ⟨answer, i, inside, missing⟩
    · rw [answer]
      exact iff_of_true rfl fun i inside => holds.some (by omega)
    · rw [answer]
      exact iff_of_false Bool.false_ne_true fun mapped => mapped i inside missing
  · intro wraps
    rcases delivers with ⟨bytes, answer, length, holds⟩ | ⟨answer, _⟩
    · exact absurd (userMem_outside (by omega)) (holds.some (by omega : len - 1 < bytes.length))
    · exact answer
  · intro bytes given
    rcases delivers with ⟨bytes', answer, length, holds⟩ | ⟨answer, _⟩
    · rw [answer] at given
      cases given
      exact ⟨length, holds⟩
    · rw [answer] at given
      cases given

/-- A page table at `0x1000` that maps the first `n` pages to physical pages from `page` on. -/
def firstPages (n : Nat) (page : Word) : Machine Supply where
  kmem := ⟨[], []⟩
  mem := fun table i =>
    if table = 0x3000 then
      if i < n then PA2PTE (page + 4096 * BitVec.ofNat 64 i) ||| (PTE_V ||| PTE_R ||| PTE_W ||| PTE_U)
      else 0
    else if i ≠ 0 then 0
    else if table = 0x1000 then PA2PTE 0x2000 ||| PTE_V
    else if table = 0x2000 then PA2PTE 0x3000 ||| PTE_V
    else 0

def onePage (page : Word) : Machine Supply := firstPages 1 page

theorem firstPages_table {n i : Nat} {table next : Word}
    (link : (table, next) = (0x1000, 0x2000) ∨ (table, next) = (0x2000, 0x3000)) :
    (firstPages n page).mem table i = if i ≠ 0 then 0 else PA2PTE next ||| PTE_V := by
  rcases link with same | same <;> cases same <;> simp [firstPages]

theorem firstPages_lookup {n l : Nat} {path : Nat → Nat} {table next : Word}
    (link : (table, next) = (0x1000, 0x2000) ∨ (table, next) = (0x2000, 0x3000)) :
    format.lookup (firstPages n page).mem path (l + 1) table =
      if path (l + 1) ≠ 0 then none else format.lookup (firstPages n page).mem path l next := by
  have entry : (firstPages n page).mem table (path (l + 1)) = _ := firstPages_table link
  split
  · next nonzero =>
    rw [if_pos nonzero] at entry
    exact Format.lookup_succ_of_invalid (by rw [entry]; rfl)
  · next zero =>
    rw [if_neg zero] at entry
    rw [Format.lookup_succ_of_valid (by rw [entry]; rcases link with same | same <;> cases same <;> decide),
      entry]
    rcases link with same | same <;> cases same <;> rfl

theorem firstPages_pteAt {n v : Nat} (inside : v < VPNS) (beyond : n ≤ v) :
    pteAt (firstPages n page).mem 0x1000 v = none := by
  rw [pteAt, firstPages_lookup (.inl rfl)]
  split
  · rfl
  · next top =>
    rw [firstPages_lookup (.inr rfl)]
    split
    · rfl
    · next middle =>
      have low : indices v 0 = v := by
        simp only [indices, VPNS] at top middle inside ⊢
        omega
      have zero : (firstPages n page).mem 0x3000 v = 0 := if_neg (Nat.not_lt.mpr beyond)
      rw [Format.lookup, Format.find, Option.bind_some, low, zero]
      rfl

theorem firstPages_userPage {n v : Nat} (user : userPage (firstPages n page) 0x1000 v ≠ 0) :
    v < n := by
  have inside := userPage_inside user
  by_contra beyond
  rw [userPage_entry inside, firstPages_pteAt inside (Nat.not_lt.mp beyond)] at user
  exact user rfl

theorem firstPages_separate {n : Nat} (few : n ≤ 2) : Separate (firstPages n 0x4000) 0x1000 := by
  have distinct : ∀ n ≤ 2, ∀ v < n, ∀ w < n, userPage (firstPages n 0x4000) 0x1000 v =
      userPage (firstPages n 0x4000) 0x1000 w → v = w := by
    decide +kernel
  have apart : ∀ n ≤ 2, ∀ v < n, userPage (firstPages n 0x4000) 0x1000 v ∉
      tables (firstPages n 0x4000).mem 0x1000 := by
    decide +kernel
  refine ⟨fun v w user same => ?_, fun v user => apart n few v (firstPages_userPage user)⟩
  exact distinct n few v (firstPages_userPage user) w
    (firstPages_userPage (same ▸ user : userPage _ 0x1000 w ≠ 0)) same

/-- Four bytes are copied out over a page boundary and in again. -/
theorem copy_agrees_with_user_memory_bytes :
    (copyout (firstPages 2 0x4000) 0x1000 4094 [7, 8, 9, 10]).1 = true ∧
      copyin (copyout (firstPages 2 0x4000) 0x1000 4094 [7, 8, 9, 10]).2 0x1000 4094 4 =
        some [7, 8, 9, 10] := by
  have whole := copy_agrees_with_user_memory (firstPages 2 0x4000) 0x1000 4094 [7, 8, 9, 10] 0
    (firstPages_separate le_rfl)
  have zero : (copyout (firstPages 2 0x4000) 0x1000 4094 [7, 8, 9, 10]).1 = true := by decide +kernel
  exact ⟨zero, (whole.2.2.1 zero).2⟩

/-- A user page that is also the page table's own leaf: a byte copied out takes away the
mapping. -/
theorem copyout_into_page_table :
    (∀ v w, userPage (onePage 0x3000) 0x1000 v ≠ 0 →
      userPage (onePage 0x3000) 0x1000 v = userPage (onePage 0x3000) 0x1000 w → v = w) ∧
    (copyout (onePage 0x3000) 0x1000 0 [0]).1 = true ∧
    userMem (copyout (onePage 0x3000) 0x1000 0 [0]).2 0x1000 ≠
      overwrite (userMem (onePage 0x3000) 0x1000) 0 [0] := by
  refine ⟨?_, by decide +kernel, ?_⟩
  · intro v w user same
    have user' : userPage _ 0x1000 w ≠ 0 := same ▸ user
    rw [Nat.lt_one_iff.mp (firstPages_userPage user), Nat.lt_one_iff.mp (firstPages_userPage user')]
  · intro laid
    have lost : userMem (copyout (onePage 0x3000) 0x1000 0 [0]).2 0x1000 0 = none := by
      decide +kernel
    rw [laid] at lost
    cases lost

/-- A string of `k` bytes and its NUL stand from address `a` on. -/
def StringAt (mem : Nat → Option Byte) (a k : Nat) : Prop :=
  (∀ i < k, ∃ b, mem (a + i) = some b ∧ b ≠ 0) ∧ mem (a + k) = some 0

theorem copyChars_reads (page : Nat → Word) (va0 : Word) (offset n : Nat) :
    let chars := copyChars page va0 offset n
    chars.1.map Prod.snd = readPage page offset chars.1.length ∧
    chars.1.map Prod.fst =
      (List.range' offset chars.1.length).map (fun i => va0 + BitVec.ofNat 64 i) ∧
    ∃ s : List Byte, 0 ∉ s ∧
      ((chars.2 = true ∧ chars.1.map Prod.snd = s ++ [0] ∧ s.length < n) ∨
        (chars.2 = false ∧ chars.1.map Prod.snd = s ∧ s.length = n)) := by
  induction n generalizing offset with
  | zero => exact ⟨rfl, rfl, [], List.not_mem_nil, .inr ⟨rfl, rfl, rfl⟩⟩
  | succ n ih =>
    obtain ⟨bytes, addresses, s, clean, ends⟩ := ih (offset + 1)
    rw [copyChars]
    by_cases null : pageByte page offset = 0
    · rw [if_pos null]
      refine ⟨?_, rfl, [], List.not_mem_nil, .inl ⟨rfl, rfl, Nat.succ_pos n⟩⟩
      change [(0 : Byte)] = [pageByte page offset]
      rw [null]
    · rw [if_neg null]
      refine ⟨?_, ?_, pageByte page offset :: s, ?_, ?_⟩
      · rw [List.map_cons, bytes]
        rfl
      · rw [List.map_cons, addresses]
        rfl
      · rw [List.mem_cons, not_or]
        exact ⟨fun zero => null zero.symm, clean⟩
      · rcases ends with ⟨got, whole, short⟩ | ⟨got, whole, full⟩
        · refine .inl ⟨got, ?_, Nat.succ_lt_succ short⟩
          rw [List.map_cons, whole]
          rfl
        · refine .inr ⟨got, ?_, congrArg Nat.succ full⟩
          rw [List.map_cons, whole]

/-- What `copyinstr` has read and written when it returns. -/
structure ReadsString (m : Machine K) (pt : Word) (a max : Nat) (r : CopyStr) : Prop where
  holds : Holds (userMem m pt) a r.dst
  read : ∀ i x, r.read[i]? = some x → x.toNat = a + i
  bound : r.dst.length ≤ max
  ends : ∃ s : List Byte, 0 ∉ s ∧ ((r.gotNull = true ∧ r.dst = s ++ [0]) ∨
    (r.gotNull = false ∧ r.dst = s ∧ (s.length = max ∨ userMem m pt (a + s.length) = none)))
  walked : ∀ p ∈ r.walked, a / 4096 ≤ vpn p ∧ vpn p * 4096 < a + max

theorem readsString_nothing (a : Nat) : ReadsString m pt a 0 ⟨[], [], false⟩ :=
  ⟨holds_nil, fun _ _ found => (by cases found), Nat.le_refl _,
    ⟨[], List.not_mem_nil, .inr ⟨rfl, rfl, .inl rfl⟩⟩, fun _ listed => (by cases listed)⟩

theorem copyinstrLoop_nothing (rounds : Nat) (srcva : Word) :
    copyinstrLoop m pt rounds srcva 0 = some ⟨[], [], false⟩ := by
  cases rounds with
  | zero => rfl
  | succ rounds => exact if_pos rfl

theorem copyinstrLoop_round (some : max ≠ 0) :
    copyinstrLoop m pt (rounds + 1) srcva max =
      if userPage m pt (srcva.toNat / 4096) = 0 then .some ⟨[], [PGROUNDDOWN srcva], false⟩
      else
        let n := min (4096 - srcva.toNat % 4096) max
        let chars := copyChars (m.mem (userPage m pt (srcva.toNat / 4096)))
          (PGROUNDDOWN srcva) (srcva.toNat % 4096) n
        if chars.2 then .some ⟨chars.1, [PGROUNDDOWN srcva], true⟩
        else
          (copyinstrLoop m pt rounds (PGROUNDDOWN srcva + PGSIZE) (max - n)).map fun rest =>
            ⟨chars.1 ++ rest.copied, PGROUNDDOWN srcva :: rest.walked, rest.gotNull⟩ := by
  rw [copyinstrLoop, if_neg some]
  dsimp only
  rw [walkaddr_round, offset_toNat, pgsize_toNat]

theorem copyChars_user
    (user : userPage m pt (srcva.toNat / 4096) ≠ 0) (part : srcva.toNat % 4096 + n ≤ 4096) :
    let chars := copyChars (m.mem (userPage m pt (srcva.toNat / 4096)))
      (PGROUNDDOWN srcva) (srcva.toNat % 4096) n
    Holds (userMem m pt) srcva.toNat (chars.1.map Prod.snd) ∧
    (∀ i x, (chars.1.map Prod.fst)[i]? = some x → x.toNat = srcva.toNat + i) ∧
    chars.1.length ≤ n := by
  obtain ⟨bytes, addresses, s, _, ends⟩ := copyChars_reads
    (m.mem (userPage m pt (srcva.toNat / 4096))) (PGROUNDDOWN srcva) (srcva.toNat % 4096) n
  intro chars
  have length : chars.1.length ≤ n := by
    have whole : (chars.1.map Prod.snd).length = chars.1.length := List.length_map _
    rcases ends with ⟨_, shape, short⟩ | ⟨_, shape, full⟩
    · rw [shape, List.length_append, List.length_singleton] at whole
      omega
    · rw [shape] at whole
      omega
  refine ⟨?_, ?_, length⟩
  · rw [bytes]
    refine readPage_holds user ?_
    change _ + chars.1.length ≤ _
    omega
  · intro i x found
    rw [addresses, List.getElem?_map] at found
    have inside : i < chars.1.length := by
      by_contra beyond
      rw [List.getElem?_eq_none (by rw [List.length_range']; exact Nat.not_lt.mp beyond)] at found
      cases found
    rw [List.getElem?_range' inside, Nat.one_mul] at found
    cases found
    have below := userPage_inside user
    unfold VPNS at below
    rw [BitVec.toNat_add, BitVec.toNat_ofNat, pgrounddown_toNat]
    omega

theorem ReadsString.prepend {first : List (Word × Byte)} {va0 : Word}
    (holds : Holds (userMem m pt) a (first.map Prod.snd))
    (read : ∀ i x, (first.map Prod.fst)[i]? = some x → x.toNat = a + i)
    (clean : 0 ∉ first.map Prod.snd) (length : first.length = n) (part : n ≤ max) (some : max ≠ 0)
    (page : vpn va0 = a / 4096) (rest : ReadsString m pt (a + n) (max - n) r) :
    ReadsString m pt a max ⟨first ++ r.copied, va0 :: r.walked, r.gotNull⟩ := by
  have dst : CopyStr.dst ⟨first ++ r.copied, va0 :: r.walked, r.gotNull⟩ =
      first.map Prod.snd ++ r.dst := List.map_append
  have bytes : (first.map Prod.snd).length = n := by rw [List.length_map, length]
  have addresses : (first.map Prod.fst).length = n := by rw [List.length_map, length]
  refine ⟨?_, ?_, ?_, ?_, ?_⟩
  · rw [dst]
    exact holds.append (by rw [bytes]; exact rest.holds)
  · intro i x found
    have reads : CopyStr.read ⟨first ++ r.copied, va0 :: r.walked, r.gotNull⟩ =
        first.map Prod.fst ++ r.read := List.map_append
    rw [reads] at found
    by_cases early : i < n
    · rw [List.getElem?_append_left (by omega)] at found
      exact read i x found
    · rw [List.getElem?_append_right (by omega), addresses] at found
      have later := rest.read _ x found
      omega
  · have bound := rest.bound
    rw [dst, List.length_append]
    omega
  · obtain ⟨s, clean', ends⟩ := rest.ends
    refine ⟨first.map Prod.snd ++ s, ?_, ?_⟩
    · rw [List.mem_append, not_or]
      exact ⟨clean, clean'⟩
    · rw [dst, List.length_append, bytes, ← Nat.add_assoc]
      rcases ends with ⟨got, shape⟩ | ⟨got, shape, stop⟩
      · exact .inl ⟨got, by rw [shape, List.append_assoc]⟩
      · refine .inr ⟨got, by rw [shape], ?_⟩
        rcases stop with full | missing
        · exact .inl (by omega)
        · exact .inr missing
  · intro p listed
    rcases List.mem_cons.mp listed with rfl | later
    · omega
    · have walked := rest.walked p later
      omega

theorem copyinstrLoop_reads (enough : max ≤ rounds) (srcva : Word) :
    ∃ r, copyinstrLoop m pt rounds srcva max = some r ∧
      ReadsString m pt srcva.toNat max r := by
  induction rounds generalizing srcva max with
  | zero =>
    obtain rfl : max = 0 := Nat.le_zero.mp enough
    exact ⟨_, rfl, readsString_nothing _⟩
  | succ rounds ih =>
    by_cases none : max = 0
    · subst none
      exact ⟨_, copyinstrLoop_nothing _ _, readsString_nothing _⟩
    · have number : vpn (PGROUNDDOWN srcva) = srcva.toNat / 4096 := by
        rw [vpn, pgrounddown_toNat]
        omega
      have page : ∀ p ∈ [PGROUNDDOWN srcva],
          srcva.toNat / 4096 ≤ vpn p ∧ vpn p * 4096 < srcva.toNat + max := by
        intro p listed
        rw [List.mem_singleton.mp listed, number]
        omega
      rw [copyinstrLoop_round none]
      by_cases absent : userPage m pt (srcva.toNat / 4096) = 0
      · rw [if_pos absent]
        refine ⟨_, rfl, holds_nil, fun _ _ found => (by cases found), Nat.zero_le _, ?_, page⟩
        exact ⟨[], List.not_mem_nil, .inr ⟨rfl, rfl, .inr (userMem_none absent)⟩⟩
      · rw [if_neg absent]
        dsimp only
        generalize size : min (4096 - srcva.toNat % 4096) max = n
        obtain ⟨holds, read, length⟩ := copyChars_user absent (by omega : _ + n ≤ 4096)
        obtain ⟨_, _, s, clean, ends⟩ := copyChars_reads
          (m.mem (userPage m pt (srcva.toNat / 4096))) (PGROUNDDOWN srcva)
          (srcva.toNat % 4096) n
        rcases ends with ⟨got, shape, _⟩ | ⟨got, shape, full⟩
        · rw [got, if_pos rfl]
          refine ⟨_, rfl, holds, read, ?_, ⟨s, clean, .inl ⟨rfl, shape⟩⟩, page⟩
          rw [CopyStr.dst, List.length_map]
          exact length.trans (by omega)
        · rw [got, if_neg Bool.false_ne_true]
          have exactly : (copyChars (m.mem (userPage m pt (srcva.toNat / 4096)))
              (PGROUNDDOWN srcva) (srcva.toNat % 4096) n).1.length = n := by
            rw [← List.length_map Prod.snd, shape, full]
          have next : ∃ r, copyinstrLoop m pt rounds (PGROUNDDOWN srcva + PGSIZE) (max - n) =
              some r ∧ ReadsString m pt (srcva.toNat + n) (max - n) r := by
            by_cases last : max - n = 0
            · rw [last]
              exact ⟨_, copyinstrLoop_nothing _ _, readsString_nothing _⟩
            · have there := next_toNat srcva (userPage_inside absent)
              have place : (PGROUNDDOWN srcva + PGSIZE).toNat = srcva.toNat + n := by omega
              rw [← place]
              exact ih (by omega) _
          obtain ⟨r, answer, rest⟩ := next
          rw [answer]
          exact ⟨_, rfl, rest.prepend holds read (by rw [shape]; exact clean) exactly (by omega) none
            number⟩

theorem StringAt.unique {k' : Nat} (first : StringAt mem a k)
    (second : StringAt mem a k') : k = k' := by
  have later : ∀ {j j'}, StringAt mem a j → StringAt mem a j' → ¬ j < j' := by
    intro j j' left right before
    obtain ⟨b, found, nonzero⟩ := right.1 j before
    rw [left.2] at found
    cases found
    exact nonzero rfl
  have low := later first second
  have high := later second first
  omega

theorem holds_nonzero {i : Nat} {s more : List Byte}
    (holds : Holds mem a (s ++ more)) (clean : 0 ∉ s) (inside : i < s.length) :
    ∃ b, mem (a + i) = some b ∧ b ≠ 0 := by
  refine ⟨s[i], ?_, ?_⟩
  · rw [holds i (by rw [List.length_append]; omega), List.getElem?_append_left inside,
      List.getElem?_eq_getElem inside]
  · intro zero
    exact clean (zero ▸ List.getElem_mem inside)

theorem ReadsString.returns (reads : ReadsString m pt a max r) :
    (r.gotNull = true ∧ ∃ k, r.dst.length = k + 1 ∧ StringAt (userMem m pt) a k) ∨
      (r.gotNull = false ∧ ∀ k < max, ¬ StringAt (userMem m pt) a k) := by
  obtain ⟨s, clean, ends⟩ := reads.ends
  have holds := reads.holds
  rcases ends with ⟨got, shape⟩ | ⟨got, shape, stop⟩
  · rw [shape] at holds
    refine .inl ⟨got, s.length, by rw [shape, List.length_append]; rfl, ?_, ?_⟩
    · intro i inside
      exact holds_nonzero holds clean inside
    · rw [holds s.length (by simp), List.getElem?_append_right (Nat.le_refl _), Nat.sub_self]
      rfl
  · rw [shape, ← List.append_nil s] at holds
    refine .inr ⟨got, ?_⟩
    intro k below string
    by_cases inside : k < s.length
    · obtain ⟨b, found, nonzero⟩ := holds_nonzero holds clean inside
      rw [string.2] at found
      cases found
      exact nonzero rfl
    · rcases stop with full | missing
      · omega
      · by_cases last : k = s.length
        · subst last
          rw [string.2] at missing
          cases missing
        · obtain ⟨b, found, _⟩ := string.1 s.length (by omega)
          rw [missing] at found
          cases found

theorem ReadsString.before (reads : ReadsString m pt a max r)
    {x : Word} (read : x ∈ r.read) :
    a ≤ x.toNat ∧ x.toNat < a + max ∧
      ∀ y, a ≤ y → y < x.toNat → userMem m pt y ≠ some 0 := by
  obtain ⟨i, found⟩ := List.mem_iff_getElem?.mp read
  have place := reads.read i x found
  have inside : i < r.dst.length := by
    have below := List.getElem?_eq_some_iff.mp found
    have length : r.read.length = r.dst.length := by
      rw [CopyStr.read, CopyStr.dst, List.length_map, List.length_map]
    exact length ▸ below.1
  have bound := reads.bound
  refine ⟨by omega, by omega, ?_⟩
  intro y low high zero
  obtain ⟨s, clean, ends⟩ := reads.ends
  have holds := reads.holds
  have prefixed : ∃ more, r.dst = s ++ more ∧ more.length ≤ 1 := by
    rcases ends with ⟨_, shape⟩ | ⟨_, shape, _⟩
    · exact ⟨[0], shape, Nat.le_refl _⟩
    · exact ⟨[], by rw [shape, List.append_nil], Nat.zero_le _⟩
  obtain ⟨more, shape, short⟩ := prefixed
  rw [shape, List.length_append] at inside
  rw [shape] at holds
  obtain ⟨b, byte, nonzero⟩ := holds_nonzero holds clean (by omega : y - a < s.length)
  rw [Nat.add_sub_cancel' low, zero] at byte
  cases byte
  exact nonzero rfl

/-- `copyinstr` reads exactly one string of at most `max` bytes, its NUL included, and comes to
an end. -/
theorem copyinstr_reads_one_string (m : Machine K) (pt srcva : Word) (max : Nat) :
    ∃ r, copyinstr m pt srcva max = some r ∧
      (r.gotNull = true ↔ ∃ k < max, StringAt (userMem m pt) srcva.toNat k) ∧
      (∀ k < max, StringAt (userMem m pt) srcva.toNat k →
        r.dst.length = k + 1 ∧ Holds (userMem m pt) srcva.toNat r.dst) ∧
      r.dst.length ≤ max ∧
      (∀ x ∈ r.read, srcva.toNat ≤ x.toNat ∧ x.toNat < srcva.toNat + max ∧
        ∀ y, srcva.toNat ≤ y → y < x.toNat → userMem m pt y ≠ some 0) ∧
      ∀ p ∈ r.walked, p.toNat / 4096 ≤ (srcva.toNat + max - 1) / 4096 := by
  have ended : ∃ r, copyinstr m pt srcva max = some r ∧
      ReadsString m pt srcva.toNat max r := copyinstrLoop_reads (Nat.le_refl max) srcva
  obtain ⟨r, answer, reads⟩ := ended
  have bound := reads.bound
  refine ⟨r, answer, ?_, ?_, bound, fun x read => reads.before read, ?_⟩
  · rcases reads.returns with ⟨got, k, length, string⟩ | ⟨got, without⟩
    · exact iff_of_true got ⟨k, by omega, string⟩
    · rw [got]
      exact iff_of_false Bool.false_ne_true fun ⟨k, below, string⟩ => without k below string
  · intro k below string
    rcases reads.returns with ⟨_, k', length, string'⟩ | ⟨_, without⟩
    · rw [string.unique string']
      exact ⟨length, reads.holds⟩
    · exact absurd string (without k below)
  · intro p listed
    have walked := reads.walked p listed
    unfold vpn at walked
    omega

end OsbKernel.Paging
