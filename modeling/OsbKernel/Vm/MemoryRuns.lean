import OsbKernel.Vm.GrowProc
import OsbKernel.Vm.SysExec
import OsbKernel.Vm.ForkCopy
import OsbKernel.Lib.Ownership

/-!
# Who owns which page

The pages that `kinit` put on the free list go to the kernel, to pipes and to processes, and come
back. Each system call is an exchange between the free list and one owner, so between system calls
every page has exactly one owner, and each process the shape of its address space.

The process lists are left out: a `fork` that fails returns here, where `freeproc` would still
call `remove_proc_from_list`, which stops the kernel.
-/

namespace OsbKernel.Paging

open Function LawfulAllocator RamAllocator ExceptBind Ownership

section Functions

variable {K : Type} [Allocator K]

/-- `allocproc`, as far as it uses memory. -/
def allocproc (m : Machine K) (trampoline : Word) : Except Fault (Option Image × Machine K) :=
  let (trapframe, m) := m.kalloc
  if trapframe = 0 then .ok (none, m)
  else do
    match ← procPagetable m trampoline trapframe with
    | (none, m) =>
      let m ← m.kfree trapframe
      return (none, m)
    | (some pagetable, m) => return (some ⟨pagetable, 0, trapframe, []⟩, m)

/-- `freeproc` of a process, as far as it uses memory. -/
def freeproc (m : Machine K) (p : Image) : Except Fault (Machine K) := do
  let m ← m.kfree p.trapframe
  procFreepagetable m p.pagetable p.sz

/-- `fork`, as far as it uses memory. -/
def fork (m : Machine K) (trampoline : Word) (p : Image) :
    Except Fault (Option Image × Machine K) := do
  match ← allocproc m trampoline with
  | (none, m) => return (none, m)
  | (some np, m) =>
    match ← uvmcopy m p.pagetable np.pagetable p.sz with
    | (false, m) =>
      let m ← freeproc m np
      return (none, m)
    | (true, m) =>
      -- `*(np->trapframe) = *(p->trapframe)` copies 36 words
      let frame := fun i => if i < 36 then m.mem p.trapframe i else m.mem np.trapframe i
      return (some { np with sz := p.sz, name := p.name },
        { m with mem := update m.mem np.trapframe (update frame a0Word 0) })

end Functions

/-- What the kernel uses a single page for: its page table and stacks, or an open pipe. -/
inductive PageUse
  | kernel
  | pipe
  deriving DecidableEq

inductive Tenant
  | free
  | page (use : PageUse) (page : Word)
  | proc (p : Image)
  deriving DecidableEq

def Tenant.pages (mem : Memory) : Tenant → List Word
  | .free => []
  | .page _ x => [x]
  | .proc p => p.trapframe :: footprint mem p.pagetable p.sz

def Tenant.tables (mem : Memory) : Tenant → List Word
  | .proc p => Paging.tables mem p.pagetable
  | _ => []

structure Owners (K : Type) where
  machine : Machine K
  tenant : Nat → Tenant

def Owners.pages {K : Type} (s : Owners K) (i : Nat) : List Word :=
  (s.tenant i).pages s.machine.mem

/-- What the kernel and the processes do to memory. -/
inductive MemoryCall
  | kalloc (use : PageUse) (i : Nat)
  | allocproc (i : Nat)
  | fork (i j : Nat)
  | sbrk (i : Nat) (n : BitVec 32)
  | exec (i : Nat) (namei : List Byte → Option (List Byte))
  | wait (i : Nat)
  | close (i : Nat)
  | write (i : Nat) (page : Word) (words : Nat → Word)

/-- The owner whose pages change. -/
def MemoryCall.owner : MemoryCall → Nat
  | .kalloc _ i | .allocproc i | .fork _ i | .sbrk i _ | .exec i _ | .wait i | .close i
  | .write i _ _ => i

section Functions

variable {K : Type} [Allocator K] (trampoline : Word) (s : Owners K)

/-- The call, if it is one that the tenant can make. -/
def Owners.call : MemoryCall → Except Fault (Owners K)
  | .kalloc use i => match s.tenant i with
    | .free =>
      let (page, m) := s.machine.kalloc
      .ok ⟨m, update s.tenant i (if page = 0 then .free else .page use page)⟩
    | _ => .ok s
  | .allocproc i => match s.tenant i with
    | .free => do
      let (p, m) ← allocproc s.machine trampoline
      return ⟨m, update s.tenant i (p.elim .free .proc)⟩
    | _ => .ok s
  | .fork i j => match s.tenant i, s.tenant j with
    | .proc p, .free => do
      let (np, m) ← fork s.machine trampoline p
      return ⟨m, update s.tenant j (np.elim .free .proc)⟩
    | _, _ => .ok s
  | .sbrk i n => match s.tenant i with
    | .proc p => do
      let (size, m) ← growproc s.machine p.pagetable p.sz n
      return ⟨m, update s.tenant i (.proc { p with sz := size.getD p.sz })⟩
    | _ => .ok s
  | .exec i namei => match s.tenant i with
    | .proc p => do
      let (_, p, m) ← sysExec s.machine trampoline p namei
      return ⟨m, update s.tenant i (.proc p)⟩
    | _ => .ok s
  | .wait i => match s.tenant i with
    | .proc p => do
      let m ← freeproc s.machine p
      return ⟨m, update s.tenant i .free⟩
    | _ => .ok s
  | .close i => match s.tenant i with
    | .page .pipe page => do
      let m ← s.machine.kfree page
      return ⟨m, update s.tenant i .free⟩
    | _ => .ok s
  | .write i page words =>
    if page ∈ s.pages i ∧ page ∉ (s.tenant i).tables s.machine.mem then
      .ok { s with machine.mem := update s.machine.mem page words }
    else .ok s

def Owners.run (calls : List MemoryCall) : Except Fault (Owners K) :=
  calls.foldlM (Owners.call trampoline) s

end Functions

variable {K : Type} [Allocator K] [LawfulAllocator K] [RamAllocator K] {m m' : Machine K}
  {S S' : Set Word} {trampoline : Word} {P P' : List Word} {x : Word} {p q : Image} {t : Tenant}

structure Tenant.Ok (m : Machine K) (trampoline : Word) (t : Tenant) : Prop where
  nodup : (t.pages m.mem).Nodup
  space : ∀ p, t = .proc p → Space m trampoline p.trapframe p.pagetable p.sz

theorem Tenant.Ok.none (m : Machine K) (trampoline : Word) : Tenant.free.Ok m trampoline :=
  ⟨List.nodup_nil, nofun⟩

theorem Tenant.Ok.procOk (ok : (Tenant.proc p).Ok m trampoline)
    (apart : ∀ x ∈ (Tenant.proc p).pages m.mem, x ∉ S) : ProcOk m S trampoline p :=
  ⟨ok.space p rfl, (List.forall_mem_cons.mp apart).2, (List.forall_mem_cons.mp apart).1,
    (List.nodup_cons.mp ok.nodup).1⟩

section Exchanges

omit [RamAllocator K] in
/-- A page that an exchange is not about stays where it is. -/
theorem Exchange.cons (exchange : Exchange m m' S S' P P') (used : x ∉ S) (away : x ∉ P) :
    Exchange m m' S S' (x :: P) (x :: P') ∧ x ∉ P' := by
  have outside : ¬ (x ∈ S' ∨ x ∈ P') := by
    rw [exchange.conserve]
    exact not_or.mpr ⟨used, away⟩
  rw [not_or] at outside
  refine ⟨⟨exchange.owns, fun y => ?_, List.forall_mem_cons.mpr ⟨outside.1, exchange.apart⟩, ?_⟩,
    outside.2⟩
  · rw [List.mem_cons, List.mem_cons, or_left_comm, exchange.conserve, or_left_comm]
  · exact fun y free other => exchange.frame y free fun mine => other (.tail _ mine)

theorem Exchange.proc (exchange : Exchange m m' S S' P (footprint m'.mem q.pagetable q.sz))
    (space : Space m' trampoline q.trapframe q.pagetable q.sz) (used : q.trapframe ∉ S)
    (away : q.trapframe ∉ P) :
    Exchange m m' S S' (q.trapframe :: P) ((Tenant.proc q).pages m'.mem) ∧
      (Tenant.proc q).Ok m' trampoline := by
  obtain ⟨whole, outside⟩ := exchange.cons used away
  exact ⟨whole, List.nodup_cons.mpr ⟨outside, space.nodup⟩, fun _ known => Tenant.proc.inj known ▸ space⟩

omit [RamAllocator K] in
theorem kalloc_exchange (owns : Owns m S) : m.kalloc.1 = 0 ∧ Exchange m m.kalloc.2 S S [] [] ∨
    m.kalloc.1 ≠ 0 ∧ m.kalloc.1 ∈ S ∧
      Exchange m m.kalloc.2 S (S \ {m.kalloc.1}) [] [m.kalloc.1] := by
  by_cases null : m.kalloc.1 = 0
  · obtain ⟨owns', same⟩ := kalloc_null owns null
    exact .inl ⟨null, owns', fun _ => Iff.rfl, fun _ none => (nomatch none), fun _ _ _ => by rw [same]⟩
  · obtain ⟨member, -, owns', frame⟩ := kalloc_page owns null
    refine .inr ⟨null, member, owns', fun x => ?_, fun x mine free => free.2 ?_, fun x used _ => ?_⟩
    · by_cases same : x = m.kalloc.1
      · simp [same, member]
      · simp [same]
    · simpa using mine
    · exact frame x fun same => used (same ▸ member)

theorem kfree_exchange (owns : Owns m S) (apart : ∀ y ∈ x :: P, y ∉ S) (away : x ∉ P)
    (ram : Ram K x) : ∃ m', m.kfree x = .ok m' ∧ (∀ y, y ≠ x → m'.mem y = m.mem y) ∧
      Exchange m m' S (insert x S) (x :: P) P := by
  obtain ⟨m', ran⟩ := kfree_some m ram
  obtain ⟨used, others⟩ := List.forall_mem_cons.mp apart
  obtain ⟨owns', frame⟩ := kfree_ok owns used ran
  refine ⟨m', ran, frame, owns', fun y => ?_, fun y mine free => ?_, fun y _ other => frame y ?_⟩
  · rw [Set.mem_insert_iff, List.mem_cons, or_assoc, or_left_comm]
  · exact free.elim (fun same => away (same ▸ mine)) (others y mine)
  · exact fun same => other (same ▸ List.mem_cons_self)

theorem allocproc_exchange (owns : Owns m S) (trampoline : Word) :
    ∃ r m' S', allocproc m trampoline = .ok (r, m') ∧
      Exchange m m' S S' [] (Tenant.pages m'.mem (r.elim .free .proc)) ∧
      Tenant.Ok m' trampoline (r.elim .free .proc) ∧
      ∀ p, r = some p → p.sz = 0 ∧ Ram K p.trapframe := by
  unfold allocproc
  rcases kalloc_exchange owns with ⟨null, exchange⟩ | ⟨page, member, exchange⟩
  · exact ⟨none, _, S, if_pos null, exchange, .none .., nofun⟩
  · obtain ⟨r, m₁, ran, outcome⟩ := procPagetable_space exchange.owns trampoline m.kalloc.1
    have used : m.kalloc.1 ∉ S \ {m.kalloc.1} := exchange.apart _ List.mem_cons_self
    have ram := owned owns member
    dsimp only
    rw [if_neg page, bind_eq ran]
    rcases outcome with ⟨rfl, nothing⟩ | ⟨pt, S₁, rfl, space, gained⟩
    · obtain ⟨still, away⟩ := nothing.cons used List.not_mem_nil
      obtain ⟨m₂, freed, -, back⟩ := kfree_exchange still.owns still.apart away ram
      exact ⟨none, m₂, _, bind_eq freed _, exchange.trans (still.trans back), .none .., nofun⟩
    · obtain ⟨whole, ok⟩ := Exchange.proc (q := ⟨pt, 0, m.kalloc.1, []⟩) gained space used
        List.not_mem_nil
      refine ⟨some ⟨pt, 0, m.kalloc.1, []⟩, m₁, S₁, rfl, exchange.trans whole, ok, ?_⟩
      rintro _ ⟨⟩
      exact ⟨rfl, ram⟩

theorem freeproc_exchange (owns : Owns m S) (ok : ProcOk m S trampoline p) (ram : Ram K p.trapframe) :
    ∃ m' S', freeproc m p = .ok m' ∧ Exchange m m' S S' ((Tenant.proc p).pages m.mem) [] := by
  obtain ⟨m₁, ran, frame, first⟩ := kfree_exchange owns
    (List.forall_mem_cons.mpr ⟨ok.frame, ok.apart⟩) ok.away ram
  obtain ⟨space, shape⟩ := ok.space.congr fun x table =>
    frame x (ne_of_mem_of_not_mem (List.mem_append_left _ table) ok.away)
  rw [← shape] at first
  obtain ⟨m₂, freed, second⟩ := procFreepagetable_space first.owns space first.apart
  rw [freeproc, bind_eq ran]
  rw [shape] at first second
  exact ⟨m₂, _, freed, first.trans second⟩

theorem ProcOk.unchanged (ok : ProcOk m S trampoline p) (nothing : Nothing m m' S p q) :
    Exchange m m' S S ((Tenant.proc p).pages m.mem) ((Tenant.proc q).pages m'.mem) ∧
      (Tenant.proc q).Ok m' trampoline := by
  obtain ⟨rfl, owns, frame⟩ := nothing
  obtain ⟨space, shape⟩ := ok.space.congr fun x table =>
    frame x (ok.apart x (List.mem_append_left _ table))
  refine Exchange.proc ?_ space ok.frame ok.away
  rw [shape]
  exact ⟨owns, fun _ => Iff.rfl, ok.apart, fun x used _ => frame x used⟩

theorem ProcOk.replaced (ok : ProcOk m S trampoline p) (replaced : Replaced m m' S trampoline p q) :
    ∃ S', Exchange m m' S S' ((Tenant.proc p).pages m.mem) ((Tenant.proc q).pages m'.mem) ∧
      (Tenant.proc q).Ok m' trampoline := by
  have ⟨space, taken, owns, frame, same⟩ := replaced
  rw [← same] at space frame
  have ⟨_, apart, used, away⟩ := ok
  rw [← same] at used away
  refine ⟨_, ⟨owns, fun x => ?_, List.forall_mem_cons.mpr ⟨?_, fun x new => ?_⟩, fun x free other => ?_⟩,
    List.nodup_cons.mpr ⟨fun mine => used (taken _ mine), space.nodup⟩,
    fun _ known => Tenant.proc.inj known ▸ space⟩
  · have member := taken x
    simp only [Tenant.pages, Set.mem_union, Set.mem_sdiff, Set.mem_ofPred_eq, List.mem_cons, same]
    tauto
  · exact not_or.mpr ⟨fun free => used free.1, away⟩
  · exact not_or.mpr ⟨fun free => free.2 new, fun old => apart x old (taken x new)⟩
  · exact frame x free (fun mine => other (.tail _ mine))
      fun here => other (here.trans same ▸ List.mem_cons_self)

/-- A page in use that holds no page table may be written to. -/
theorem Tenant.Ok.write (ok : t.Ok m trampoline) (owns : Owns m S)
    (apart : ∀ y ∈ t.pages m.mem, y ∉ S) (words : Nat → Word) (mine : x ∈ t.pages m.mem)
    (data : x ∉ t.tables m.mem) :
    Exchange m { m with mem := update m.mem x words } S S (t.pages m.mem)
        (t.pages (update m.mem x words)) ∧
      t.Ok { m with mem := update m.mem x words } trampoline := by
  have same : t.pages (update m.mem x words) = t.pages m.mem ∧ ∀ p, t = .proc p →
      Space { m with mem := update m.mem x words } trampoline p.trapframe p.pagetable p.sz := by
    cases t with
    | proc p =>
      obtain ⟨space, shape⟩ : Space { m with mem := update m.mem x words } .. ∧ _ :=
        (ok.space p rfl).congr fun _ table => update_of_ne (ne_of_mem_of_not_mem table data) _ _
      exact ⟨congrArg (p.trapframe :: ·) shape, fun _ known => Tenant.proc.inj known ▸ space⟩
    | _ => exact ⟨rfl, nofun⟩
  refine ⟨?_, by rw [same.1]; exact ok.nodup, same.2⟩
  rw [same.1]
  exact ⟨LawfulAllocator.write owns rfl fun _ free =>
      update_of_ne (ne_of_mem_of_not_mem free (apart x mine)) _ _,
    fun _ => Iff.rfl, apart, fun _ _ other => update_of_ne (ne_of_mem_of_not_mem mine other).symm _ _⟩

theorem Space.leaves {trapframe pt sz : Word}
    (space : Space m trampoline trapframe pt sz) (u : Nat) (below : u < VPNS) :
    (pteAt m.mem pt u).isSome ↔ u < pagesBelow sz ∨ u = VPNS - 2 ∨ u = VPNS - 1 := by
  have size := space.size
  have top : VPNS = 2 ^ 26 := rfl
  constructor
  · intro leaf
    by_contra other
    rw [space.gap u (by omega) (by omega)] at leaf
    cases leaf
  · rintro (low | rfl | rfl)
    · obtain ⟨pte, entry, -⟩ := space.user u low
      rw [entry]
      rfl
    · rw [space.frame]
      rfl
    · rw [space.code]
      rfl

theorem Space.walkaddr_mem {trapframe pt sz : Word}
    (space : Space m trampoline trapframe pt sz) (va : Word)
    (found : walkaddr m pt va ≠ 0) :
    walkaddr m pt va ∈ pagesFrom (pteAt m.mem pt) 0 (pagesBelow sz) := by
  have inside : vpn va < VPNS := by
    by_contra outside
    exact found (walkaddr_outside (Nat.not_lt.mp outside))
  rw [walkaddr_entry inside, ← userPage_entry inside] at found ⊢
  exact space.userPage_mem found

theorem fork_exchange (owns : Owns m S) (ok : ProcOk m S trampoline p) :
    ∃ r m' S', fork m trampoline p = .ok (r, m') ∧
      Exchange m m' S S' [] (Tenant.pages m'.mem (r.elim .free .proc)) ∧
      Tenant.Ok m' trampoline (r.elim .free .proc) := by
  obtain ⟨r, m₁, S₁, ran, gained, made, new⟩ := allocproc_exchange owns trampoline
  rw [fork, bind_eq ran]
  cases r with
  | none => exact ⟨none, m₁, S₁, rfl, gained, made⟩
  | some np =>
  obtain ⟨pt, _, trapframe, name⟩ := np
  obtain ⟨rfl, ram⟩ := new _ rfl
  have child := made.procOk gained.apart
  have old : ∀ x ∈ footprint m.mem p.pagetable p.sz, x ∉ S₁ ∧
      x ∉ trapframe :: footprint m₁.mem pt 0 := by
    intro x his
    rw [← not_or]
    exact fun mine => ((gained.conserve x).mp mine).elim (ok.apart x his) List.not_mem_nil
  obtain ⟨parent, shape⟩ := ok.space.congr fun x table =>
    gained.frame x (ok.apart x (List.mem_append_left _ table)) List.not_mem_nil
  rw [← shape] at old
  obtain ⟨copied, m₂, copies, outcome⟩ := uvmcopy_space gained.owns parent child.space
    (fun x his => (old x his).1) child.apart fun x his mine => (old x his).2 (.tail _ mine)
  dsimp only
  rw [bind_eq copies]
  rcases outcome with ⟨rfl, space, ⟨S₂, exchange⟩, -⟩ | ⟨rfl, space, S₂, exchange⟩
  · obtain ⟨whole, made⟩ := Exchange.proc (q := ⟨pt, p.sz, trapframe, p.name⟩) exchange
      space child.frame child.away
    obtain ⟨written, still⟩ := made.write whole.owns whole.apart (update (fun i => if i < 36 then
      m₂.mem p.trapframe i else m₂.mem trapframe i) a0Word 0) List.mem_cons_self
      fun table => (made.procOk whole.apart).away (List.mem_append_left _ table)
    exact ⟨_, _, S₂, rfl, gained.trans (whole.trans written), still⟩
  · obtain ⟨whole, made⟩ := Exchange.proc (q := ⟨pt, 0, trapframe, name⟩) exchange space
      child.frame child.away
    obtain ⟨m₃, S₃, freed, back⟩ := freeproc_exchange whole.owns (made.procOk whole.apart) ram
    exact ⟨none, m₃, S₃, bind_eq freed _, gained.trans (whole.trans back), .none ..⟩

end Exchanges

/-- A state between the calls: the pages in `S` are free, every other page has one owner. -/
structure Owners.Ok (trampoline : Word) (s : Owners K) (S : Set Word) : Prop where
  owns : Owns s.machine S
  tenants : ∀ i, (s.tenant i).Ok s.machine trampoline
  shared : Shared (Ram K) (· ∈ S) s.pages

/-- Pages are exchanged with the owner `i` only. -/
structure Owners.Turn (trampoline : Word) (s s' : Owners K) (S S' : Set Word) (i : Nat) : Prop where
  ok : s'.Ok trampoline S'
  exchange : Exchange s.machine s'.machine S S' (s.pages i) (s'.pages i)
  others : ∀ j, j ≠ i → s'.tenant j = s.tenant j ∧ s'.pages j = s.pages j

variable {s s' : Owners K} {i : Nat}

/-- An exchange of pages with one owner leaves all other owners as they were. -/
theorem Owners.Ok.change (ok : s.Ok trampoline S) (had : s.pages i = P)
    (exchange : Exchange s.machine m' S S' P (t.pages m'.mem)) (new : t.Ok m' trampoline) :
    Owners.Turn trampoline s ⟨m', update s.tenant i t⟩ S S' i := by
  subst had
  have here : Owners.pages ⟨m', update s.tenant i t⟩ i = t.pages m'.mem :=
    congrArg (Tenant.pages m'.mem) (update_self ..)
  have kept : ∀ j, j ≠ i → (s.tenant j).pages m'.mem = s.pages j ∧
      (s.tenant j).Ok m' trampoline := by
    intro j other
    have frame : ∀ x ∈ s.pages j, m'.mem x = s.machine.mem x := fun x mine =>
      exchange.frame x (ok.shared.apart j x mine) fun his =>
        other (ok.shared.exclusive j i x mine his)
    have old := ok.tenants j
    unfold Owners.pages at frame ⊢
    cases held : s.tenant j with
    | proc p =>
      rw [held] at frame old
      obtain ⟨space, shape⟩ := (old.space p rfl).congr fun x table =>
        frame x (.tail _ (List.mem_append_left _ table))
      have same := congrArg (p.trapframe :: ·) shape
      exact ⟨same, (congrArg List.Nodup same).mpr old.nodup,
        fun _ known => Tenant.proc.inj known ▸ space⟩
    | _ =>
      rw [held] at old
      exact ⟨rfl, old.nodup, nofun⟩
  have tenants : ∀ j, (update s.tenant i t j).Ok m' trampoline := by
    intro j
    by_cases same : j = i
    · rw [same, update_self]
      exact new
    · rw [update_of_ne same]
      exact (kept j same).2
  have pages : ∀ j, j ≠ i → Owners.pages ⟨m', update s.tenant i t⟩ j = s.pages j := fun j other =>
    (congrArg (Tenant.pages m'.mem) (update_of_ne other _ _)).trans (kept j other).1
  refine ⟨⟨exchange.owns, tenants, ok.shared.change i pages ?_ (fun x => ?_) ?_⟩, ?_,
    fun j other => ⟨update_of_ne other _ _, pages j other⟩⟩
  · exact here ▸ new.nodup
  · rw [here]
    exact exchange.conserve x
  · exact here ▸ exchange.apart
  · rw [here]
    exact exchange

theorem Owners.Ok.proc (ok : s.Ok trampoline S) (held : s.tenant i = .proc p) :
    s.pages i = (Tenant.proc p).pages s.machine.mem ∧ ProcOk s.machine S trampoline p ∧
      Ram K p.trapframe := by
  have whole : s.pages i = (Tenant.proc p).pages s.machine.mem := by rw [Owners.pages, held]
  have apart := ok.shared.apart i
  have tenant := ok.tenants i
  have ram := (ok.shared.total p.trapframe).mpr (.inr ⟨i, whole ▸ List.mem_cons_self⟩)
  rw [whole] at apart
  rw [held] at tenant
  exact ⟨whole, tenant.procOk apart, ram⟩

/-- Every call comes to an end without a panic and keeps the ownership exact. -/
theorem Owners.Ok.call (ok : s.Ok trampoline S) (c : MemoryCall) :
    ∃ s' S', s.call trampoline c = .ok s' ∧ Owners.Turn trampoline s s' S S' c.owner := by
  have stay : ∃ s' S', (.ok s : Except Fault _) = .ok s' ∧
      Owners.Turn trampoline s s' S S' c.owner :=
    ⟨s, S, rfl, ok, .refl ok.owns (ok.shared.apart _), fun _ _ => ⟨rfl, rfl⟩⟩
  have empty : ∀ {i}, s.tenant i = .free → s.pages i = [] := fun held => by
    rw [Owners.pages, held, Tenant.pages]
  unfold Owners.call
  cases c with
  | kalloc use i =>
    dsimp only
    split
    · next held =>
      rcases kalloc_exchange ok.owns with ⟨null, exchange⟩ | ⟨page, -, exchange⟩
      · rw [if_pos null]
        exact ⟨_, S, rfl, ok.change (empty held) exchange (.none ..)⟩
      · rw [if_neg page]
        exact ⟨_, _, rfl, ok.change (empty held) exchange ⟨List.nodup_singleton _, nofun⟩⟩
    · exact stay
  | allocproc i =>
    dsimp only
    split
    · next held =>
      obtain ⟨r, m', S', ran, exchange, made, -⟩ := allocproc_exchange ok.owns trampoline
      rw [bind_eq ran]
      exact ⟨_, S', rfl, ok.change (empty held) exchange made⟩
    · exact stay
  | fork i j =>
    dsimp only
    split
    · next p parent held =>
      obtain ⟨r, m', S', ran, exchange, made⟩ := fork_exchange ok.owns (ok.proc parent).2.1
      rw [bind_eq ran]
      exact ⟨_, S', rfl, ok.change (empty held) exchange made⟩
    · exact stay
  | sbrk i n =>
    dsimp only
    split
    · next p held =>
      obtain ⟨whole, here, -⟩ := ok.proc held
      obtain ⟨r, m', ran, outcome⟩ := growproc_outcome ok.owns here.space here.apart n
      obtain ⟨S', exchange⟩ := outcome.exchange
      obtain ⟨exchange, made⟩ := Exchange.proc (q := { p with sz := r.getD p.sz }) exchange
        outcome.space here.frame here.away
      rw [bind_eq ran]
      exact ⟨_, S', rfl, ok.change whole exchange made⟩
    · exact stay
  | exec i namei =>
    dsimp only
    split
    · next p held =>
      obtain ⟨whole, here, -⟩ := ok.proc held
      obtain ⟨ret, q, m', ran, outcome⟩ := sysExec_outcome namei ok.owns here
      rw [bind_eq ran]
      rcases outcome with ⟨-, nothing⟩ | ⟨argc, -, replaced⟩
      · obtain ⟨exchange, made⟩ := here.unchanged nothing
        exact ⟨_, S, rfl, ok.change whole exchange made⟩
      · obtain ⟨S', exchange, made⟩ := here.replaced replaced
        exact ⟨_, S', rfl, ok.change whole exchange made⟩
    · exact stay
  | wait i =>
    dsimp only
    split
    · next p held =>
      obtain ⟨whole, here, ram⟩ := ok.proc held
      obtain ⟨m', S', ran, exchange⟩ := freeproc_exchange ok.owns here ram
      rw [bind_eq ran]
      exact ⟨_, S', rfl, ok.change whole exchange (.none ..)⟩
    · exact stay
  | close i =>
    dsimp only
    split
    · next page held =>
      have whole : s.pages i = [page] := by rw [Owners.pages, held, Tenant.pages]
      obtain ⟨m', ran, -, exchange⟩ := kfree_exchange ok.owns (whole ▸ ok.shared.apart i)
        List.not_mem_nil ((ok.shared.total page).mpr (.inr ⟨i, whole ▸ List.mem_cons_self⟩))
      rw [bind_eq ran]
      exact ⟨_, _, rfl, ok.change whole exchange (.none ..)⟩
    · exact stay
  | write i page words =>
    dsimp only
    split
    · next known =>
      obtain ⟨exchange, made⟩ := (ok.tenants i).write ok.owns (ok.shared.apart i) words known.1 known.2
      refine ⟨_, S, rfl, ?_⟩
      rw [← update_eq_self i s.tenant]
      exact ok.change rfl exchange made
    · exact stay

/-- The turns of one owner, one after the other. -/
theorem Owners.Ok.turns (ok : s.Ok trampoline S) (calls : List MemoryCall)
    (mine : ∀ c ∈ calls, c.owner = i) :
    ∃ s' S', s.run trampoline calls = .ok s' ∧ Owners.Turn trampoline s s' S S' i := by
  induction calls generalizing s S with
  | nil => exact ⟨s, S, rfl, ok, .refl ok.owns (ok.shared.apart i), fun _ _ => ⟨rfl, rfl⟩⟩
  | cons c rest ih =>
    obtain ⟨first, rest⟩ := List.forall_mem_cons.mp mine
    obtain ⟨s₁, S₁, called, turn⟩ := ok.call c
    obtain ⟨s', S', ran, turns⟩ := ih turn.ok rest
    rw [first] at turn
    refine ⟨s', S', (bind_eq called _).trans ran, turns.ok, turn.exchange.trans turns.exchange, ?_⟩
    exact fun j other => ⟨(turns.others j other).1.trans (turn.others j other).1,
      (turns.others j other).2.trans (turn.others j other).2⟩

theorem Owners.Ok.run (ok : s.Ok trampoline S) (calls : List MemoryCall) :
    ∃ s' S', s.run trampoline calls = .ok s' ∧ s'.Ok trampoline S' := by
  induction calls generalizing s S with
  | nil => exact ⟨s, S, rfl, ok⟩
  | cons c rest ih =>
    obtain ⟨s₁, S₁, called, turn⟩ := ok.call c
    obtain ⟨s', S', ran, ok'⟩ := ih turn.ok
    exact ⟨s', S', (bind_eq called _).trans ran, ok'⟩

section Boot

/-- The state after `kinit` and these calls. -/
def bootRun (L : Layout) (mem : Memory) (fails : List Bool) (trampoline : Word)
    (calls : List MemoryCall) : Except Fault (Owners (Failing (Kmem L))) := do
  let m ← kinit L mem fails
  Owners.run trampoline ⟨m, fun _ => .free⟩ calls

variable {L : Layout} (small : L.kernelEnd ≤ PHYSTOP) (mem : Memory) (fails : List Bool)
  (trampoline : Word) (calls : List MemoryCall)
include small

theorem bootRun_ok : ∃ s S, bootRun L mem fails trampoline calls = .ok s ∧ s.Ok trampoline S := by
  obtain ⟨m, booted, owns⟩ := kinit_owns L mem fails small
  have start : Owners.Ok trampoline ⟨m, fun _ => .free⟩ {x | RamPage L x} :=
    ⟨owns, fun _ => .none .., fun _ => List.nodup_nil, fun _ _ _ held => (nomatch held),
      fun _ _ held => (nomatch held), fun _ => (or_iff_left fun ⟨_, held⟩ => nomatch held).symm⟩
  obtain ⟨s, S, ran, ok⟩ := start.run calls
  exact ⟨s, S, (bind_eq booted _).trans ran, ok⟩

/-- No page is lost, freed twice or shared, whatever the processes do after `kinit` and whichever
calls of `kalloc` fail: it is on the free list or with one owner, who has it in one place. -/
theorem pages_partitioned : ∃ s free, bootRun L mem fails trampoline calls = .ok s ∧
    FreeList s.machine.inner free ∧ Shared (RamPage L) (· ∈ free) s.pages := by
  obtain ⟨s, S, ran, ok⟩ := bootRun_ok small mem fails trampoline calls
  obtain ⟨free, list, rfl⟩ := ok.owns
  exact ⟨s, free, ran, list, ok.shared⟩

def forking : List MemoryCall := [.allocproc 0, .sbrk 0 4096, .fork 0 1, .exec 1 fun _ => none]

omit small in
theorem pages_partitioned_forking : ∃ s free,
    bootRun smallLayout (fun _ _ => 0) [] 0x80000000 forking = .ok s ∧
      FreeList s.machine.inner free ∧ Shared (RamPage smallLayout) (· ∈ free) s.pages :=
  pages_partitioned (by decide) (fun _ _ => 0) [] 0x80000000 forking

/-- What stays when owner `i` has given its pages back: the free pages, and what the others have. -/
structure GivenBack (s s' : Owners (Failing (Kmem L))) (i : Nat) : Prop where
  free : ∃ l l', FreeList s.machine.inner l ∧ FreeList s'.machine.inner l' ∧ l'.Perm l
  tenants : ∀ j, j ≠ i → s'.tenant j = s.tenant j ∧ s'.pages j = s.pages j
  contents : ∀ j, j ≠ i → ∀ x ∈ s.pages j, s'.machine.mem x = s.machine.mem x

/-- Whatever one owner does from the time it gets pages until it has none again, the same pages
are free afterwards, and the other owners have what they had, with the same contents. -/
theorem memory_given_back (i : Nat) (own : List MemoryCall) (mine : ∀ c ∈ own, c.owner = i) :
    ∃ s s', bootRun L mem fails trampoline calls = .ok s ∧ s.run trampoline own = .ok s' ∧
      (s.tenant i = .free → s'.tenant i = .free → GivenBack s s' i) := by
  obtain ⟨s, S, ran, ok⟩ := bootRun_ok small mem fails trampoline calls
  obtain ⟨s', S', went, turn⟩ := ok.turns own mine
  refine ⟨s, s', ran, went, fun before after => ?_⟩
  have exchange := turn.exchange
  rw [Owners.pages, Owners.pages, before, after] at exchange
  obtain ⟨l, list, rfl⟩ := ok.owns
  obtain ⟨l', list', rfl⟩ := exchange.owns
  refine ⟨⟨l, l', list, list', ?_⟩, turn.others, fun j other x held => ?_⟩
  · refine (List.perm_ext_iff_of_nodup list'.nodup list.nodup).mpr fun x => ?_
    simpa [Tenant.pages] using exchange.conserve x
  · exact exchange.frame x (ok.shared.apart j x held) List.not_mem_nil

omit small in
theorem memory_given_back_forked : ∃ s s',
    bootRun smallLayout (fun _ _ => 0) [] 0x80000000 [.allocproc 0, .sbrk 0 4096] = .ok s ∧
      s.run 0x80000000 [.fork 0 1, .wait 1] = .ok s' ∧ GivenBack s s' 1 := by
  obtain ⟨s, s', booted, went, back⟩ := memory_given_back (L := smallLayout) (by decide)
    (fun _ _ => 0) [] 0x80000000 [.allocproc 0, .sbrk 0 4096] 1 [.fork 0 1, .wait 1]
    (by simp [MemoryCall.owner])
  have free : (bootRun smallLayout (fun _ _ => 0) [] 0x80000000 [.allocproc 0, .sbrk 0 4096]).bind
      (fun s => (s.run 0x80000000 [.fork 0 1, .wait 1]).map fun s' => (s.tenant 1, s'.tenant 1)) =
      .ok (.free, .free) := by
    decide +kernel
  simp only [booted, Except.bind, went, Except.map, Except.ok.injEq, Prod.mk.injEq] at free
  exact ⟨s, s', booted, went, back free.1 free.2⟩

/-- In every run after `kinit` no memory function panics, and each process has an address space
with leaf entries for its memory, the trapframe and the trampoline only; the user sees the first.
-/
theorem spaces_shaped : ∃ s, bootRun L mem fails trampoline calls = .ok s ∧
    ∀ i p, s.tenant i = .proc p →
      Space s.machine trampoline p.trapframe p.pagetable p.sz ∧ p.sz < TRAPFRAME ∧
      (∀ u < VPNS, (pteAt s.machine.mem p.pagetable u).isSome ↔
        u < pagesBelow p.sz ∨ u = VPNS - 2 ∨ u = VPNS - 1) ∧
      ∀ va, walkaddr s.machine p.pagetable va ≠ 0 →
        walkaddr s.machine p.pagetable va ≠ p.trapframe ∧
        walkaddr s.machine p.pagetable va ∈
          pagesFrom (pteAt s.machine.mem p.pagetable) 0 (pagesBelow p.sz) := by
  obtain ⟨s, S, ran, ok⟩ := bootRun_ok small mem fails trampoline calls
  refine ⟨s, ran, fun i p held => ?_⟩
  obtain ⟨-, here, -⟩ := ok.proc held
  have user := here.space.walkaddr_mem
  refine ⟨here.space, ?_, here.space.leaves, fun va found => ⟨?_, user va found⟩⟩
  · have size := here.space.size_toNat.1
    have top : TRAPFRAME.toNat = (VPNS - 2) * 4096 := rfl
    rw [BitVec.lt_def, top]
    unfold VPNS
    omega
  · exact ne_of_mem_of_not_mem (List.mem_append_right _ (user va found)) here.away

omit small in
theorem spaces_shaped_forking : ∃ s p,
    bootRun smallLayout (fun _ _ => 0) [] 0x80000000 forking = .ok s ∧ s.tenant 1 = .proc p ∧
      p.sz = 4096 ∧ Space s.machine 0x80000000 p.trapframe p.pagetable p.sz := by
  obtain ⟨s, ran, shaped⟩ := spaces_shaped (L := smallLayout) (by decide) (fun _ _ => 0) []
    0x80000000 forking
  have child : (bootRun smallLayout (fun _ _ => 0) [] 0x80000000 forking).map (fun s =>
      match s.tenant 1 with | .proc p => p.sz | _ => 0) = .ok 4096 := by
    decide +kernel
  simp only [ran, Except.map, Except.ok.injEq] at child
  cases held : s.tenant 1 with
  | proc p =>
    rw [held] at child
    exact ⟨s, p, ran, held, child, (shaped 1 p held).1⟩
  | _ =>
    rw [held] at child
    cases child

end Boot

end OsbKernel.Paging
