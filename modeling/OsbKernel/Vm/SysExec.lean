import OsbKernel.Vm.ExecOutcome

/-!
# sys_exec

The argument pages of `sys_exec`, and the whole system call.
-/

namespace OsbKernel.Paging

open Function FreeRadix ExceptBind LawfulAllocator RamAllocator PartialMap

theorem readPage_written (page : Nat → Word) (bytes : List Byte) :
    readPage (writePage page 0 bytes) 0 bytes.length = bytes := by
  apply List.ext_getElem?
  intro i
  by_cases inside : i < bytes.length
  · have content := congrFun (pageByte_writePage page 0 bytes) i
    rw [overwrite_inside (Nat.zero_le i) (by omega), Nat.sub_zero] at content
    rw [readPage_getElem? _ _ inside, Nat.zero_add, ← content]
  · rw [List.getElem?_eq_none (by rw [readPage_length]; omega), List.getElem?_eq_none (by omega)]

section Pages

variable {K : Type} [Allocator K] [LawfulAllocator K] [RamAllocator K] {m₀ m m' : Machine K}
  {S S' : Set Word} {trampoline : Word} {p p' : Image}

variable {argv : List Word} {strings : List (List Byte)}

omit [Allocator K] [LawfulAllocator K] [RamAllocator K] in
theorem argPages_congr (args : List.Forall₂ (ArgPage m S) argv strings) (used : ∀ x ∈ argv, x ∉ S')
    (same : ∀ x ∈ argv, m'.mem x = m.mem x) : List.Forall₂ (ArgPage m' S') argv strings := by
  induction args with
  | nil => exact .nil
  | @cons arg s argv strings page args ih =>
    rw [List.forall_mem_cons] at used same
    refine .cons ⟨used.1, page.nonzero, page.short, ?_⟩ (ih used.2 same.2)
    rw [same.1]
    exact page.begins

theorem kfreeArgv_frees (owns : Owns m S) (nodup : argv.Nodup)
    (apart : ∀ x ∈ argv, x ∉ S) (ram : ∀ x ∈ argv, Ram K x) :
    ∃ m', kfreeArgv argv m = .ok m' ∧ Freed m m' S argv := by
  induction argv generalizing m S with
  | nil => exact ⟨m, rfl, by simpa using owns, fun _ _ => rfl⟩
  | cons page argv ih =>
    obtain ⟨m₁, freed⟩ := kfree_some m (ram page List.mem_cons_self)
    obtain ⟨owns₁, others⟩ := kfree_ok owns (apart page List.mem_cons_self) freed
    obtain ⟨fresh, rest⟩ := List.nodup_cons.mp nodup
    obtain ⟨m₂, ran, done⟩ := ih owns₁ rest (by
      rintro x listed (rfl | free)
      · exact fresh listed
      · exact apart x (List.mem_cons_of_mem _ listed) free)
      (fun x listed => ram x (List.mem_cons_of_mem _ listed))
    refine ⟨m₂, ?_, ?_, ?_⟩
    · rw [kfreeArgv, bind_eq freed]
      exact ran
    · refine cast (congrArg (Owns m₂) ?_) done.owns
      ext x
      simp only [Set.mem_union, Set.mem_insert_iff, Set.mem_ofPred_eq, List.mem_cons]
      tauto
    · intro x outside
      rw [List.mem_cons, not_or] at outside
      rw [done.frame x outside.2, others x outside.1]

/-- The argument pages are the only pages that `sys_exec` has taken. -/
structure Fetched (m₀ m : Machine K) (S : Set Word) (argv : List Word) : Prop where
  exchange : ∃ S', Exchange m₀ m S S' [] argv
  nodup : argv.Nodup

omit [RamAllocator K] in
theorem Fetched.fetch (fetched : Fetched m₀ m S argv) (got : m.kalloc.1 ≠ 0)
    (bytes : List Byte) :
    Fetched m₀ (m.kalloc.2.write m.kalloc.1 0 bytes) S (argv ++ [m.kalloc.1]) ∧
      ∀ x ∈ argv, (m.kalloc.2.write m.kalloc.1 0 bytes).mem x = m.mem x := by
  obtain ⟨S', exchange⟩ := fetched.exchange
  obtain ⟨free, -, owns, others⟩ := kalloc_page exchange.owns got
  generalize m.kalloc.1 = page at *
  generalize m.kalloc.2 = m₁ at *
  have kept : ∀ x, x ≠ page → (m₁.write page 0 bytes).mem x = m.mem x := by
    intro x other
    rw [write_mem_of_ne other, others x other]
  have fresh : page ∉ argv := fun listed => exchange.apart page listed free
  refine ⟨⟨⟨_, write owns rfl fun x member => ?_, ?_, ?_, ?_⟩, ?_⟩, ?_⟩
  · exact write_mem_of_ne member.2 _ _
  · intro x
    rw [← exchange.conserve, List.mem_append, List.mem_singleton]
    constructor
    · rintro (⟨member, -⟩ | listed | rfl)
      · exact .inl member
      · exact .inr listed
      · exact .inl free
    · rintro (member | listed)
      · by_cases same : x = page
        · exact .inr (.inr same)
        · exact .inl ⟨member, same⟩
      · exact .inr (.inl listed)
  · intro x listed member
    rcases List.mem_append.mp listed with earlier | here
    · exact exchange.apart x earlier member.1
    · exact member.2 (List.mem_singleton.mp here)
  · intro x used notListed
    have other : x ≠ page := by
      rintro rfl
      rcases (exchange.conserve x).mp (.inl free) with old | impossible
      · exact used old
      · exact absurd impossible List.not_mem_nil
    rw [kept x other, exchange.frame x used notListed]
  · refine List.nodup_append.mpr ⟨fetched.nodup, List.nodup_singleton _, ?_⟩
    rintro x listed _ here rfl
    exact fresh (List.mem_singleton.mp here ▸ listed)
  · intro x listed
    exact kept x fun same => fresh (same ▸ listed)

/-- The strings of the argument pages, which are all taken from `S`. -/
def Strings (m : Machine K) (argv : List Word) (strings : List (List Byte)) : Prop :=
  List.Forall₂ (ArgPage m ∅) argv strings

omit [RamAllocator K] in
theorem fetchArgv_fetches {left : Nat} (uargv : Word)
    (fetched : Fetched m₀ m S argv) (args : Strings m argv strings)
    (count : argv.length + left = MAXARG) :
    ∃ r argv' m', fetchArgv p uargv left m argv = .ok (r, argv', m') ∧ Fetched m₀ m' S argv' ∧
      (r = true → ∃ strings', Strings m' argv' strings' ∧ strings'.length < MAXARG) := by
  have never : ∀ {P : Prop}, false = true → P := fun impossible => absurd impossible Bool.false_ne_true
  induction left generalizing m argv strings with
  | zero => exact ⟨false, argv, m, rfl, fetched, never⟩
  | succ left ih =>
    rw [fetchArgv]
    cases word : fetchaddr m p (uargv + BitVec.ofNat 64 (8 * argv.length)) with
    | none => exact ⟨false, argv, m, rfl, fetched, never⟩
    | some uarg =>
      dsimp only
      by_cases last : uarg = 0
      · rw [if_pos last]
        have length := args.length_eq
        exact ⟨true, argv, m, rfl, fetched, fun _ => ⟨strings, args, by omega⟩⟩
      · rw [if_neg last]
        by_cases null : m.kalloc.1 = 0
        · rw [if_pos null]
          refine ⟨false, argv, m.kalloc.2, rfl, ⟨?_, fetched.nodup⟩, never⟩
          obtain ⟨S', exchange⟩ := fetched.exchange
          obtain ⟨owns, same⟩ := kalloc_null exchange.owns null
          refine ⟨S', owns, exchange.conserve, exchange.apart, fun x used listed => ?_⟩
          rw [same]
          exact exchange.frame x used listed
        · rw [if_neg null]
          have ended : ∃ r, copyinstr m.kalloc.2 p.pagetable uarg PGSIZE.toNat = some r ∧
              ReadsString m.kalloc.2 p.pagetable uarg.toNat PGSIZE.toNat r :=
            copyinstrLoop_reads (Nat.le_refl PGSIZE.toNat) uarg
          obtain ⟨r, ran, reads⟩ := ended
          obtain ⟨fetched₁, kept⟩ := fetched.fetch null r.dst
          rw [ran]
          dsimp only
          by_cases got : r.gotNull = true
          · rw [if_pos got]
            have size := reads.bound
            obtain ⟨s, clean, ends⟩ := reads.ends
            rcases ends with ⟨-, shape⟩ | ⟨without, -⟩
            · have length : r.dst.length = s.length + 1 := by
                rw [shape, List.length_append]
                rfl
              have page : ArgPage (m.kalloc.2.write m.kalloc.1 0 r.dst) ∅ m.kalloc.1 s := by
                refine ⟨Set.notMem_empty _, fun b listed zero => clean (zero ▸ listed), ?_, ?_⟩
                · rw [pgsize_toNat] at size
                  omega
                · rw [write_mem_self, ← length, readPage_written, shape]
              have args₁ : Strings (m.kalloc.2.write m.kalloc.1 0 r.dst) (argv ++ [m.kalloc.1])
                  (strings ++ [s]) :=
                List.rel_append (argPages_congr args (fun _ _ => Set.notMem_empty _) kept)
                  (.cons page .nil)
              exact ih fetched₁ args₁ (by rw [List.length_append, List.length_singleton]; omega)
            · rw [without] at got
              exact never got
          · rw [if_neg got]
            exact ⟨false, _, _, rfl, fetched₁, never⟩

theorem ProcOk.congr (ok : ProcOk m S trampoline p) (fewer : S' ⊆ S)
    (same : ∀ x, x ∉ S → m'.mem x = m.mem x) :
    ProcOk m' S' trampoline p ∧
      footprint m'.mem p.pagetable p.sz = footprint m.mem p.pagetable p.sz := by
  obtain ⟨space, shape⟩ := ok.space.congr fun x table =>
    same x (ok.apart x (List.mem_append_left _ table))
  refine ⟨⟨space, ?_, fun free => ok.frame (fewer free), ?_⟩, shape⟩
  · rw [shape]
    exact fun x listed free => ok.apart x listed (fewer free)
  · rw [shape]
    exact ok.away

theorem Fetched.undo (fetched : Fetched m₀ m S argv) (owns₀ : Owns m₀ S) :
    ∃ m', kfreeArgv argv m = .ok m' ∧ Nothing m₀ m' S p p := by
  obtain ⟨S', exchange⟩ := fetched.exchange
  have inside : ∀ x ∈ argv, x ∈ S := by
    intro x listed
    rcases (exchange.conserve x).mp (.inr listed) with free | impossible
    · exact free
    · exact absurd impossible List.not_mem_nil
  obtain ⟨m', freed, done⟩ := kfreeArgv_frees exchange.owns fetched.nodup exchange.apart
    fun x listed => owned owns₀ (inside x listed)
  have total := exchange.trans done.exchange
  have same := total.nothing
  rw [same] at total
  exact ⟨m', freed, rfl, total.owns, fun x used => total.frame x used List.not_mem_nil⟩

theorem Fetched.replaced (fetched : Fetched m₀ m S argv) (owns₀ : Owns m₀ S)
    (ok : ProcOk m₀ S trampoline p) {S' : Set Word} (exchange : Exchange m₀ m S S' [] argv)
    (replaced : Replaced m m' S' trampoline p p') :
    ∃ m'', kfreeArgv argv m' = .ok m'' ∧ Replaced m₀ m'' S trampoline p p' := by
  have left := exchange.left
  have fewer : S' ⊆ S := by
    rw [left]
    exact fun x free => free.1
  obtain ⟨-, shape⟩ := ok.congr fewer fun x used => exchange.frame x used List.not_mem_nil
  obtain ⟨space, taken, owns, frame, trapframe⟩ := replaced
  rw [shape] at owns frame
  have inside : ∀ x ∈ argv, x ∈ S := by
    intro x listed
    rcases (exchange.conserve x).mp (.inr listed) with free | impossible
    · exact free
    · exact absurd impossible List.not_mem_nil
  obtain ⟨m'', freed, done⟩ := kfreeArgv_frees owns fetched.nodup (by
      rintro x listed (free | old)
      · exact exchange.apart x listed free.1
      · exact ok.apart x old (inside x listed))
    fun x listed => owned owns₀ (inside x listed)
  have new : ∀ x ∈ footprint m'.mem p'.pagetable p'.sz, m''.mem x = m'.mem x := by
    intro x listed
    exact done.frame x fun mine => exchange.apart x mine (taken x listed)
  obtain ⟨space', shape'⟩ := space.congr fun x table => new x (List.mem_append_left _ table)
  refine ⟨m'', freed, space', ?_, ?_, ?_, trapframe⟩
  · rw [shape']
    exact fun x listed => fewer (taken x listed)
  · rw [shape']
    refine cast (congrArg (Owns m'') ?_) done.owns
    ext x
    have conserve := exchange.conserve x
    have apart := exchange.apart x
    have mine := taken x
    simp only [Set.mem_union, Set.mem_sdiff, Set.mem_ofPred_eq, List.not_mem_nil, or_false] at *
    tauto
  · intro x used notOld other
    have notListed : x ∉ argv := fun listed => used (inside x listed)
    rw [done.frame x notListed, frame x (fun free => used (fewer free)) notOld other,
      exchange.frame x used List.not_mem_nil]

/-- `sys_exec` fails and leaves everything as it was, or replaces the address space. -/
theorem sysExec_outcome (namei : List Byte → Option (List Byte)) (owns : Owns m S)
    (ok : ProcOk m S trampoline p) :
    ∃ ret p' m', sysExec m trampoline p namei = .ok (ret, p', m') ∧
      ((ret = none ∧ Nothing m m' S p p') ∨
        ∃ argc, ret = some argc ∧ Replaced m m' S trampoline p p') := by
  have ended : ∃ r, copyinstr m p.pagetable (m.load (p.trapframe, a0Word)) MAXPATH = some r ∧
      ReadsString m p.pagetable (m.load (p.trapframe, a0Word)).toNat MAXPATH r :=
    copyinstrLoop_reads (Nat.le_refl MAXPATH) _
  obtain ⟨path, ran, -⟩ := ended
  unfold sysExec
  rw [ran]
  dsimp only
  by_cases bad : path.gotNull = false
  · rw [if_pos bad]
    exact ⟨none, p, m, rfl, .inl ⟨rfl, rfl, owns, fun _ _ => rfl⟩⟩
  · rw [if_neg bad]
    have start : Fetched m m S [] :=
      ⟨⟨S, .refl owns fun x listed => absurd listed List.not_mem_nil⟩, List.nodup_nil⟩
    obtain ⟨r, argv, m₁, fetches, fetched, args⟩ := fetchArgv_fetches (p := p)
      (m.load (p.trapframe, a1Word)) start List.Forall₂.nil (Nat.zero_add MAXARG)
    rw [bind_eq fetches]
    cases r with
    | false =>
      obtain ⟨m₂, freed, nothing⟩ := fetched.undo owns
      refine ⟨none, p, m₂, ?_, .inl ⟨rfl, nothing⟩⟩
      dsimp only
      rw [bind_eq freed]
      rfl
    | true =>
      obtain ⟨strings, args, few⟩ := args rfl
      obtain ⟨S₁, exchange⟩ := fetched.exchange
      have fewer : S₁ ⊆ S := by
        rw [exchange.left]
        exact fun x free => free.1
      obtain ⟨ok₁, shape⟩ := ok.congr fewer fun x used => exchange.frame x used List.not_mem_nil
      have args₁ := argPages_congr args exchange.apart fun _ _ => rfl
      obtain ⟨ret, p', m₂, executed, outcome⟩ := exec_outcome namei path.dst.dropLast
        exchange.owns ok₁ args₁ few
      dsimp only
      rw [bind_eq executed]
      rcases outcome with ⟨rfl, rfl, owns₂, frame⟩ | ⟨argc, -, -, rfl, -, replaced, -, -⟩
      · have still : Fetched m m₂ S argv := by
          refine ⟨⟨S₁, owns₂, exchange.conserve, exchange.apart, fun x used _ => ?_⟩, fetched.nodup⟩
          rw [frame x fun free => used (fewer free), exchange.frame x used List.not_mem_nil]
        obtain ⟨m₃, freed, nothing⟩ := still.undo owns
        refine ⟨none, _, m₃, ?_, .inl ⟨rfl, nothing⟩⟩
        rw [bind_eq freed]
        rfl
      · obtain ⟨m₃, freed, replaced'⟩ := fetched.replaced owns ok exchange replaced
        refine ⟨some argc, p', m₃, ?_, .inr ⟨argc, rfl, replaced'⟩⟩
        rw [bind_eq freed]
        rfl

end Pages

end OsbKernel.Paging
