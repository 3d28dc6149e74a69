import OsbKernel.Vm.Exec
import OsbKernel.Vm.ForkCopy

/-!
# Loading a program

The address space that `exec` builds, and the bytes that the loop over the program headers puts
into it.
-/

namespace OsbKernel.Paging

open Function FreeRadix ExceptBind LawfulAllocator RamAllocator PartialMap

theorem readi_length (file : List Byte) (off n : BitVec 32) : (readi file off n).length ≤ n.toNat := by
  unfold readi
  by_cases outside : file.length < off.toNat ∨ off + n < off
  · rw [if_pos outside]
    exact Nat.zero_le _
  · rw [if_neg outside]
    by_cases beyond : file.length < (off + n).toNat
    · rw [if_pos beyond, List.length_take, List.length_drop]
      have wrap := BitVec.toNat_add off n
      omega
    · rw [if_neg beyond, List.length_take]
      exact Nat.min_le_left _ _

theorem readi_full {file : List Byte} {off n : BitVec 32} (some : 0 < n.toNat)
    (full : (readi file off n).length = n.toNat) :
    off.toNat + n.toNat ≤ file.length ∧ off.toNat + n.toNat < 2 ^ 32 ∧
      readi file off n = (file.drop off.toNat).take n.toNat := by
  unfold readi at full ⊢
  by_cases outside : file.length < off.toNat ∨ off + n < off
  · rw [if_pos outside, List.length_nil] at full
    omega
  · rw [if_neg outside] at full ⊢
    rw [not_or, BitVec.not_lt, BitVec.le_def] at outside
    have wrap := BitVec.toNat_add off n
    by_cases beyond : file.length < (off + n).toNat
    · rw [if_pos beyond, List.length_take, List.length_drop] at full
      omega
    · rw [if_neg beyond] at full ⊢
      exact ⟨by omega, by omega, rfl⟩

section Loadseg

variable {K : Type} [Allocator K] {m : Machine K} {pt va : Word} {file : List Byte}
  {offset sz : BitVec 32}

theorem take_drop_split (file : List Byte) (o n left : Nat) (less : n ≤ left) :
    (file.drop o).take left = (file.drop o).take n ++ (file.drop (o + n)).take (left - n) := by
  have split := List.take_add (l := file.drop o) (i := n) (j := left - n)
  rw [Nat.add_sub_cancel' less, List.drop_drop] at split
  exact split

theorem loadsegLoop_round {rounds : Nat} {i : BitVec 32}
    (user : userPage m pt ((va.toNat + i.toNat) / 4096) ≠ 0)
    (aligned : (va.toNat + i.toNat) % 4096 = 0) (inside : va.toNat + i.toNat < 2 ^ 64) :
    loadsegLoop pt va file offset sz (rounds + 1) m i =
      let n : BitVec 32 := if sz - i < 4096 then sz - i else 4096
      let bytes := readi file (offset + i) n
      let m' := m.write (userPage m pt ((va.toNat + i.toNat) / 4096)) 0 bytes
      if bytes.length ≠ n.toNat then .ok (false, m')
      else loadsegLoop pt va file offset sz rounds m' (i + 4096) := by
  have place : (va + i.setWidth 64).toNat = va.toNat + i.toNat := by
    have bound := i.isLt
    rw [BitVec.toNat_add, BitVec.toNat_setWidth]
    omega
  have page : walkaddr m pt (va + i.setWidth 64) =
      userPage m pt ((va.toNat + i.toNat) / 4096) := by
    have down := pgrounddown_of_aligned (by rw [place]; exact aligned : (va + i.setWidth 64).toNat % 4096 = 0)
    rw [← place, ← walkaddr_round, down]
  rw [loadsegLoop]
  dsimp only
  rw [page, if_neg user]

/-- `loadseg` lays bytes over mapped user memory, all bytes of the segment when it returns 0. -/
theorem loadsegLoop_copies {rounds : Nat} {i : BitVec 32} (file : List Byte)
    (separate : Separate m pt) (count : rounds = (sz.toNat - i.toNat + 4095) / 4096) (round : i.toNat % 4096 = 0)
    (aligned : va.toNat % 4096 = 0) (low : sz.toNat ≤ 2 ^ 31) (high : va.toNat ≤ 2 ^ 38)
    (mapped : ∀ j < sz.toNat, userPage m pt ((va.toNat + j) / 4096) ≠ 0) :
    ∃ r m' bytes, loadsegLoop pt va file offset sz rounds m i = .ok (r, m') ∧
      CopiedOut m m' pt (va.toNat + i.toNat) bytes ∧
      (r = true → bytes = (file.drop (offset + i).toNat).take (sz.toNat - i.toNat) ∧
        bytes.length = sz.toNat - i.toNat) := by
  induction rounds generalizing m i with
  | zero =>
    have nothing : sz.toNat - i.toNat = 0 := by omega
    refine ⟨true, m, [], rfl, .nothing _ _ _, fun _ => ?_⟩
    rw [nothing]
    exact ⟨List.take_zero.symm, rfl⟩
  | succ rounds ih =>
    have less : i.toNat < sz.toNat := by omega
    have user := mapped i.toNat less
    have start : (va.toNat + i.toNat) % 4096 = 0 := by omega
    have chunk : ((if sz - i < 4096 then sz - i else 4096 : BitVec 32)).toNat =
        min (sz.toNat - i.toNat) 4096 := by
      have minus : (sz - i).toNat = sz.toNat - i.toNat := BitVec.toNat_sub_of_le (by
        rw [BitVec.le_def]
        omega)
      have size : (4096 : BitVec 32).toNat = 4096 := rfl
      by_cases small : sz - i < 4096
      · rw [if_pos small, minus]
        rw [BitVec.lt_def] at small
        omega
      · rw [if_neg small, size]
        rw [BitVec.not_lt, BitVec.le_def] at small
        omega
    rw [loadsegLoop_round user start (by omega)]
    generalize (if sz - i < 4096 then sz - i else 4096 : BitVec 32) = n at chunk
    have short := readi_length file (offset + i) n
    have fits : (va.toNat + i.toNat) % 4096 + (readi file (offset + i) n).length ≤ 4096 := by omega
    have copied := write_copied separate user fits
    rw [start] at copied
    by_cases partly : (readi file (offset + i) n).length ≠ n.toNat
    · rw [if_pos partly]
      exact ⟨false, _, _, rfl, copied, fun impossible => absurd impossible Bool.false_ne_true⟩
    · rw [if_neg partly]
      have whole := not_not.mp partly
      obtain ⟨-, nowrap, bytes⟩ := readi_full (by omega) whole
      have same := userPage_congr (copied.tables separate)
      by_cases done : sz.toNat ≤ i.toNat + 4096
      · have last : rounds = 0 := by omega
        subst last
        refine ⟨true, _, _, rfl, copied, fun _ => ?_⟩
        rw [whole, bytes, chunk]
        exact ⟨by rw [Nat.min_eq_left (by omega)], by omega⟩
      · have next : (i + 4096).toNat = i.toNat + 4096 := by
          have size : (4096 : BitVec 32).toNat = 4096 := rfl
          rw [BitVec.toNat_add, size]
          omega
        have full : n.toNat = 4096 := by omega
        obtain ⟨r, m', more, ran, after, loaded⟩ := ih (i := i + 4096)
          (separate.congr (copied.tables separate)) (by omega) (by omega) (by
            intro j inside
            rw [same]
            exact mapped j inside)
        have place : va.toNat + (i + 4096).toNat =
            va.toNat + i.toNat + (readi file (offset + i) n).length := by omega
        rw [place] at after
        refine ⟨r, m', _, ran, copied.trans separate after, fun success => ?_⟩
        obtain ⟨rest, length⟩ := loaded success
        have further : (offset + (i + 4096)).toNat = (offset + i).toNat + 4096 := by
          have size : (4096 : BitVec 32).toNat = 4096 := rfl
          rw [← BitVec.add_assoc, BitVec.toNat_add, size]
          omega
        refine ⟨?_, ?_⟩
        · rw [rest, bytes, full, further, next,
            take_drop_split file _ 4096 (sz.toNat - i.toNat) (by omega), Nat.sub_sub]
        · rw [List.length_append, whole, length]
          omega

end Loadseg

section Building

variable {K : Type} [Allocator K] [LawfulAllocator K] [RamAllocator K] {m₀ m m' : Machine K}
  {S : Set Word} {trampoline trapframe pt sz : Word}

/-- An address space whose pages have all come from the free pages `S` of an earlier state. -/
structure Building (m₀ m : Machine K) (S : Set Word) (trampoline trapframe pt sz : Word) :
    Prop where
  space : Space m trampoline trapframe pt sz
  exchange : ∃ S', Exchange m₀ m S S' [] (footprint m.mem pt sz)

variable {a : Nat} {bytes : List Byte} {image : Nat → Option Byte}

section Building

variable (building : Building m₀ m S trampoline trapframe pt sz)

include building

theorem Building.taken : ∀ x ∈ footprint m.mem pt sz, x ∈ S := by
  obtain ⟨S', exchange⟩ := building.exchange
  intro x listed
  rcases (exchange.conserve x).mp (.inr listed) with free | impossible
  · exact free
  · exact absurd impossible List.not_mem_nil

theorem Building.frame {x : Word} (used : x ∉ S) : m.mem x = m₀.mem x := by
  obtain ⟨S', exchange⟩ := building.exchange
  exact exchange.frame x used List.not_mem_nil

theorem Building.free :
    ∃ m', procFreepagetable m pt sz = .ok m' ∧ Exchange m₀ m' S S [] [] := by
  obtain ⟨S', exchange⟩ := building.exchange
  obtain ⟨m', freed, returned⟩ := procFreepagetable_space exchange.owns building.space exchange.apart
  have total := exchange.trans returned
  have same := total.nothing
  rw [same] at total
  exact ⟨m', freed, total⟩

theorem Building.copied (copied : CopiedOut m m' pt a bytes) :
    Building m₀ m' S trampoline trapframe pt sz := by
  obtain ⟨S', exchange⟩ := building.exchange
  have separate := building.space.separate
  obtain ⟨space', shape⟩ := building.space.congr (copied.tables separate)
  have outside : ∀ x, x ∉ footprint m.mem pt sz → m'.mem x = m.mem x := by
    intro x away
    refine copied.other x fun i inside same => away ?_
    rw [← same]
    exact List.mem_append_right _ (building.space.userPage_mem (copied.mapped i inside))
  refine ⟨space', S', ?_, ?_, ?_, ?_⟩
  · exact write exchange.owns copied.kmem fun x free =>
      outside x fun listed => exchange.apart x listed free
  · rw [shape]
    exact exchange.conserve
  · rw [shape]
    exact exchange.apart
  · intro x used _
    rw [outside x fun listed => used (building.taken x listed)]
    exact exchange.frame x used List.not_mem_nil

theorem Building.resize {newsz : Word} (same : pagesBelow newsz = pagesBelow sz) :
    Building m₀ m S trampoline trapframe pt newsz := by
  have shape : footprint m.mem pt newsz = footprint m.mem pt sz := by
    rw [footprint, footprint, same]
  obtain ⟨⟨tidy, nodup, ram, user, guard, gap, frame, code⟩, exchange⟩ := building
  rw [← shape] at nodup ram exchange
  rw [← same] at user guard gap
  exact ⟨⟨tidy, nodup, ram, user, guard, gap, frame, code⟩, exchange⟩

theorem Building.uvmalloc (newsz : Word) :
    ∃ size m', uvmalloc m pt sz newsz = .ok (size, m') ∧
      ((newsz < sz ∧ size = sz ∧ m' = m) ∨
        (sz ≤ newsz ∧ size = newsz ∧ Building m₀ m' S trampoline trapframe pt newsz ∧
          Grown m m' pt (pagesBelow sz) (pagesBelow newsz)) ∨
        (sz ≤ newsz ∧ size = 0 ∧ Building m₀ m' S trampoline trapframe pt sz)) := by
  obtain ⟨S', exchange⟩ := building.exchange
  obtain ⟨size, m', ran, outcome⟩ := uvmalloc_space exchange.owns building.space exchange.apart newsz
  refine ⟨size, m', ran, ?_⟩
  rcases outcome with smaller | ⟨larger, grew, space', ⟨S'', exchange'⟩, grown⟩ |
    ⟨larger, failed, space', ⟨S'', exchange'⟩, -⟩
  · exact .inl smaller
  · exact .inr (.inl ⟨larger, grew, ⟨space', S'', exchange.trans exchange'⟩, grown⟩)
  · exact .inr (.inr ⟨larger, failed, space', S'', exchange.trans exchange'⟩)

end Building

/-- The pages below page number `n` show these bytes to the user. -/
def Shows (m : Machine K) (pt : Word) (n : Nat) (image : Nat → Option Byte) : Prop :=
  ∀ a < n * 4096, userMem m pt a = image a

omit [LawfulAllocator K] [RamAllocator K] in
theorem Shows.copied {n : Nat}
    (shows : Shows m pt n image) (copied : CopiedOut m m' pt a bytes) :
    Shows m' pt n (overwrite image a bytes) := by
  intro x below
  rw [copied.userMem]
  by_cases written : a ≤ x ∧ x < a + bytes.length
  · rw [overwrite_inside written.1 written.2, overwrite_inside written.1 written.2]
  · rw [overwrite_outside (by omega), overwrite_outside (by omega), shows x below]

/-- The bytes of the file that a header places at `vaddr`; `readi` takes a 32-bit offset. -/
def segment (file : List Byte) (ph : Proghdr) : List Byte :=
  (file.drop (ph.off.toNat % 2 ^ 32)).take ph.filesz.toNat

/-- User memory shows the image, which has only zeros above the size. -/
structure Loaded (m : Machine K) (pt sz : Word) (image : Nat → Option Byte) : Prop where
  shows : Shows m pt (pagesBelow sz) image
  above : ∀ a, pagesBelow sz * 4096 ≤ a → image a = some 0
  total : ∀ a, image a ≠ none

theorem Loaded.grown {newsz : Word} (loaded : Loaded m pt sz image)
    (space : Space m' trampoline trapframe pt newsz) (larger : sz ≤ newsz)
    (grown : Grown m m' pt (pagesBelow sz) (pagesBelow newsz)) :
    Loaded m' pt newsz image := by
  have size := space.size
  have top : VPNS = 2 ^ 26 := rfl
  have mono := pagesBelow_mono (BitVec.le_def.mp larger)
  refine ⟨?_, fun a high => loaded.above a (le_trans (Nat.mul_le_mul_right 4096 mono) high),
    loaded.total⟩
  intro a below
  by_cases old : a < pagesBelow sz * 4096
  · rw [(grown.keeps (by omega)).userMem old, loaded.shows a old]
  · rw [loaded.above a (Nat.le_of_not_lt old)]
    refine grown.zeros (by omega) ?_ (Nat.le_of_not_lt old) below
    exact fun u pte _ high entry => space.page_nonzero high entry

omit [LawfulAllocator K] [RamAllocator K] in
theorem Loaded.copied
    (loaded : Loaded m pt sz image) (copied : CopiedOut m m' pt a bytes)
    (inside : a + bytes.length ≤ pagesBelow sz * 4096) :
    Loaded m' pt sz (overwrite image a bytes) := by
  refine ⟨loaded.shows.copied copied, ?_, ?_⟩
  · intro x high
    rw [overwrite_outside (by omega), loaded.above x high]
  · intro x
    by_cases written : a ≤ x ∧ x < a + bytes.length
    · rw [overwrite_inside written.1 written.2, List.getElem?_eq_getElem (by omega)]
      exact Option.some_ne_none _
    · rw [overwrite_outside (by omega)]
      exact loaded.total x

theorem pagesBelow_covers (sz : Word) : sz.toNat ≤ pagesBelow sz * 4096 := by
  unfold pagesBelow
  omega

omit [LawfulAllocator K] [RamAllocator K] in
theorem Loaded.mapped (loaded : Loaded m pt sz image)
    (below : a < sz.toNat) : userPage m pt (a / 4096) ≠ 0 := by
  have covers := pagesBelow_covers sz
  rw [← userMem_ne_none, loaded.shows a (by omega)]
  exact loaded.total a

theorem Loaded.loadseg {ph : Proghdr} (file : List Byte)
    (building : Building m₀ m S trampoline trapframe pt sz)
    (loaded : Loaded m pt sz image) (aligned : ph.vaddr.toNat % 4096 = 0)
    (fits : ph.vaddr.toNat + ph.filesz.toNat ≤ sz.toNat) :
    ∃ r m', loadseg m pt ph.vaddr file (ph.off.setWidth 32) (ph.filesz.setWidth 32) =
        .ok (r, m') ∧ Building m₀ m' S trampoline trapframe pt sz ∧
      (r = true → (segment file ph).length = ph.filesz.toNat ∧
        Loaded m' pt sz (overwrite image ph.vaddr.toNat (segment file ph))) := by
  have covers := pagesBelow_covers sz
  have small := building.space.size_toNat.1
  have length : (ph.filesz.setWidth 32 : BitVec 32).toNat = ph.filesz.toNat := by
    rw [BitVec.toNat_setWidth]
    omega
  have zero : (0 : BitVec 32).toNat = 0 := rfl
  have count : (ph.filesz.toNat + 4095) / 4096 =
      ((ph.filesz.setWidth 32 : BitVec 32).toNat - (0 : BitVec 32).toNat + 4095) / 4096 := by
    rw [length, zero, Nat.sub_zero]
  obtain ⟨r, m', bytes, ran, copied, whole⟩ := loadsegLoop_copies file
    building.space.separate count rfl aligned (by omega) (by omega) (by
      intro j inside
      exact loaded.mapped (by omega))
  refine ⟨r, m', ?_, building.copied copied, fun success => ?_⟩
  · rw [Paging.loadseg, length]
    exact ran
  · obtain ⟨read, full⟩ := whole success
    have start : (ph.off.setWidth 32 + 0 : BitVec 32).toNat = ph.off.toNat % 2 ^ 32 := by
      change (ph.off.setWidth 32 + 0#32 : BitVec 32).toNat = _
      rw [BitVec.add_zero, BitVec.toNat_setWidth]
    rw [start, length, zero, Nat.sub_zero] at read
    rw [length, zero, Nat.sub_zero] at full
    have same : bytes = segment file ph := read
    rw [same] at full copied
    rw [zero, Nat.add_zero] at copied
    exact ⟨full, loaded.copied copied (by omega)⟩

/-- What one header does: the size grows to its end, and its bytes are laid over the image. -/
theorem Loaded.loadHeader (file : List Byte) (ph : Proghdr)
    (building : Building m₀ m S trampoline trapframe pt sz)
    (loaded : Loaded m pt sz image) :
    ∃ r sz' m', loadHeader m pt file sz ph = .ok (r, sz', m') ∧
      Building m₀ m' S trampoline trapframe pt sz' ∧
      (r = true → sz'.toNat = max sz.toNat (ph.vaddr.toNat + ph.memsz.toNat) ∧
        (segment file ph).length = ph.filesz.toNat ∧
        Loaded m' pt sz' (overwrite image ph.vaddr.toNat (segment file ph))) := by
  have never : ∀ {P : Prop}, false = true → P := fun impossible => absurd impossible Bool.false_ne_true
  unfold Paging.loadHeader
  by_cases short : ph.memsz < ph.filesz
  · rw [if_pos short]
    exact ⟨false, sz, m, rfl, building, never⟩
  · rw [if_neg short]
    by_cases wraps : ph.vaddr + ph.memsz < ph.vaddr
    · rw [if_pos wraps]
      exact ⟨false, sz, m, rfl, building, never⟩
    · rw [if_neg wraps]
      have target : (ph.vaddr + ph.memsz).toNat = ph.vaddr.toNat + ph.memsz.toNat := by
        have sum := BitVec.toNat_add ph.vaddr ph.memsz
        have bound := ph.vaddr.isLt
        have bound' := ph.memsz.isLt
        rw [BitVec.not_lt, BitVec.le_def] at wraps
        omega
      obtain ⟨size, m₁, ran, outcome⟩ := building.uvmalloc (ph.vaddr + ph.memsz)
      rw [bind_eq ran]
      dsimp only
      by_cases failed : size = 0
      · rw [if_pos failed]
        rcases outcome with ⟨-, -, rfl⟩ | ⟨larger, rfl, grew, -⟩ | ⟨-, -, same⟩
        · exact ⟨false, sz, _, rfl, building, never⟩
        · have empty : sz = ph.vaddr + ph.memsz := by
            rw [failed] at larger ⊢
            exact BitVec.le_zero_iff.mp larger
          rw [← empty] at grew
          exact ⟨false, sz, m₁, rfl, grew, never⟩
        · exact ⟨false, sz, m₁, rfl, same, never⟩
      · rw [if_neg failed]
        have grew : Building m₀ m₁ S trampoline trapframe pt size ∧
            Loaded m₁ pt size image ∧
            size.toNat = max sz.toNat (ph.vaddr.toNat + ph.memsz.toNat) := by
          rw [← target]
          rcases outcome with ⟨smaller, rfl, rfl⟩ | ⟨larger, rfl, grew, grown⟩ | ⟨-, zero, -⟩
          · rw [BitVec.lt_def] at smaller
            exact ⟨building, loaded, by omega⟩
          · refine ⟨grew, loaded.grown grew.space larger grown, ?_⟩
            rw [BitVec.le_def] at larger
            omega
          · exact absurd zero failed
        obtain ⟨building₁, loaded₁, total⟩ := grew
        by_cases odd : ph.vaddr % PGSIZE ≠ 0
        · rw [if_pos odd]
          exact ⟨false, size, m₁, rfl, building₁, never⟩
        · rw [if_neg odd]
          have aligned : ph.vaddr.toNat % 4096 = 0 := by
            have known := congrArg BitVec.toNat (not_not.mp odd)
            rwa [BitVec.toNat_umod, pgsize_toNat] at known
          rw [BitVec.not_lt, BitVec.le_def] at short
          obtain ⟨r, m₂, ran', building₂, loaded₂⟩ := loaded₁.loadseg file building₁ aligned
            (by omega : ph.vaddr.toNat + ph.filesz.toNat ≤ size.toNat)
          refine ⟨r, size, m₂, ?_, building₂, fun success => ⟨total, loaded₂ success⟩⟩
          rw [bind_eq ran']
          rfl

/-- The program headers from file offset `off` on. -/
def programHeaders (file : List Byte) : Nat → BitVec 32 → List Proghdr
  | 0, _ => []
  | left + 1, off =>
    Proghdr.ofBytes (readi file off sizeofProghdr) :: programHeaders file left (off + sizeofProghdr)

def loadableHeaders (file : List Byte) (left : Nat) (off : BitVec 32) : List Proghdr :=
  (programHeaders file left off).filter fun ph => ph.type = ELF_PROG_LOAD

/-- The image with the bytes of these headers laid over it, in their order. -/
def overlay (file : List Byte) (image : Nat → Option Byte) (phs : List Proghdr) : Nat → Option Byte :=
  phs.foldl (fun image ph => overwrite image ph.vaddr.toNat (segment file ph)) image

/-- The largest end of these headers, at least `top`. -/
def imageTop (top : Nat) (phs : List Proghdr) : Nat :=
  phs.foldl (fun top ph => max top (ph.vaddr.toNat + ph.memsz.toNat)) top

theorem Loaded.loadHeaders (file : List Byte) (left : Nat)
    (off : BitVec 32) (building : Building m₀ m S trampoline trapframe pt sz)
    (loaded : Loaded m pt sz image) :
    ∃ r sz' m', loadHeaders pt file left m off sz = .ok (r, sz', m') ∧
      Building m₀ m' S trampoline trapframe pt sz' ∧
      (r = true → sz'.toNat = imageTop sz.toNat (loadableHeaders file left off) ∧
        (∀ ph ∈ loadableHeaders file left off, (segment file ph).length = ph.filesz.toNat) ∧
        Loaded m' pt sz' (overlay file image (loadableHeaders file left off))) := by
  have never : ∀ {P : Prop}, false = true → P := fun impossible => absurd impossible Bool.false_ne_true
  induction left generalizing m off sz image with
  | zero =>
    exact ⟨true, sz, m, rfl, building, fun _ =>
      ⟨rfl, fun ph listed => absurd listed List.not_mem_nil, loaded⟩⟩
  | succ left ih =>
    unfold Paging.loadHeaders
    dsimp only
    by_cases short : (readi file off sizeofProghdr).length ≠ sizeofProghdr.toNat
    · rw [if_pos short]
      exact ⟨false, sz, m, rfl, building, never⟩
    · rw [if_neg short]
      have headers : loadableHeaders file (left + 1) off =
          (Proghdr.ofBytes (readi file off sizeofProghdr) ::
            programHeaders file left (off + sizeofProghdr)).filter
              fun ph => ph.type = ELF_PROG_LOAD := rfl
      generalize Proghdr.ofBytes (readi file off sizeofProghdr) = ph at headers ⊢
      by_cases other : ph.type ≠ ELF_PROG_LOAD
      · rw [if_pos other, headers, List.filter_cons_of_neg (by simpa using other)]
        exact ih (off + sizeofProghdr) building loaded
      · rw [if_neg other, headers, List.filter_cons_of_pos (by simpa using other)]
        obtain ⟨r, sz₁, m₁, ran, building₁, one⟩ := loaded.loadHeader file ph building
        rw [bind_eq ran]
        cases r with
        | false => exact ⟨false, sz₁, m₁, rfl, building₁, never⟩
        | true =>
          obtain ⟨size, length, loaded₁⟩ := one rfl
          obtain ⟨r, sz₂, m₂, ran', building₂, rest⟩ := ih (off + sizeofProghdr) building₁ loaded₁
          refine ⟨r, sz₂, m₂, ran', building₂, fun success => ?_⟩
          obtain ⟨top, lengths, loaded₂⟩ := rest success
          refine ⟨?_, List.forall_mem_cons.mpr ⟨length, lengths⟩, loaded₂⟩
          rw [top, size]
          rfl

end Building

end OsbKernel.Paging
