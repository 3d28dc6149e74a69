import Mathlib.Data.Fintype.Sum
import OsbKernel.Fs.FileContents
import OsbKernel.Vm.Exec

/-!
# Files as arrays of bytes

`readi` and `writei` on a disk whose files do not share blocks, and what is left of a write that
fails part-way.
-/

namespace OsbKernel.Blocks

open Function Paging ExceptBind Ownership PartialMap

variable {sb : Superblock} {lost : Nat → Prop} {s s' : Store} {i : Nat}

/-- The block pointers of the inodes are disjoint and name data blocks that are marked in use, all
other blocks are marked, and no file lacks a block below its end.  There may be blocks that are
marked though no pointer names them. -/
structure Disk (sb : Superblock) (s : Store) : Prop where
  distinct : ∀ i j slot slot', Live sb (dinode sb s) i → Live sb (dinode sb s) j →
    ptr s.data (dinode sb s i) slot ≠ 0 →
    ptr s.data (dinode sb s i) slot = ptr s.data (dinode sb s j) slot' → i = j ∧ slot = slot'
  used : ∀ i slot, Live sb (dinode sb s) i → ptr s.data (dinode sb s i) slot ≠ 0 →
    InUse sb s (ptr s.data (dinode sb s i) slot)
  reserved : ∀ b < sb.dataStart, bit sb s b = true
  full : ∀ i, Live sb (dinode sb s) i → Full s.data (dinode sb s i)

def Leaked (sb : Superblock) (s : Store) (b : Nat) : Prop :=
  InUse sb s b ∧ ∀ x, owners sb s.data (dinode sb s) x ≠ some b

theorem owners_some {view : Nat → Inode} {x : Nat × Slot} {b : Nat}
    (held : owners sb s.data view x = some b) :
    Live sb view x.1 ∧ ptr s.data (view x.1) x.2 = b ∧ b ≠ 0 := by
  unfold owners at held
  by_cases live : Live sb view x.1
  · rw [if_pos live, nonzero_eq_some] at held
    exact ⟨live, held.1, held.1 ▸ held.2⟩
  · rw [if_neg live] at held
    cases held

theorem Disk.sound (disk : Disk sb s) : Sound sb (Leaked sb s) s (dinode sb s) := by
  refine ⟨⟨?_, ?_⟩, fun b leaked => leaked.1, disk.reserved⟩
  · rintro ⟨i, slot⟩ ⟨j, slot'⟩ b first second
    obtain ⟨live, place, nonnull⟩ := owners_some first
    obtain ⟨live', place', -⟩ := owners_some second
    have same := disk.distinct i j slot slot' live live' (place ▸ nonnull) (place.trans place'.symm)
    rw [same.1, same.2]
  · intro b
    constructor
    · rintro ⟨inUse, kept⟩
      by_contra unowned
      exact kept ⟨inUse, fun x held => unowned ⟨x, held⟩⟩
    · rintro ⟨⟨i, slot⟩, held⟩
      obtain ⟨live, rfl, nonnull⟩ := owners_some held
      exact ⟨disk.used i slot live nonnull, fun leaked => leaked.2 _ held⟩

theorem Sound.disk (sound : Sound sb lost s (dinode sb s))
    (full : ∀ i, Live sb (dinode sb s) i → Full s.data (dinode sb s i)) : Disk sb s :=
  ⟨fun _ _ _ _ live live' points same => sound.distinct live live' points same,
    fun _ _ live points => sound.ptr_used live points, sound.reserved, full⟩

theorem Wrote.disk {off r : Nat} {stored : List Byte} (wrote : Wrote sb lost s s' i off r stored)
    (disk : Disk sb s) (live : Live sb (dinode sb s) i) (start : off ≤ (dinode sb s i).size)
    (enough : r ≤ stored.length) : Disk sb s' := by
  refine wrote.sound.disk fun j alive => ?_
  by_cases here : j = i
  · subst here
    exact wrote.full (disk.full j live) start enough
  · have same := wrote.others j here alive.1
    have before : Live sb (dinode sb s) j := ⟨alive.1, by rw [← same]; exact alive.2⟩
    intro bn inside
    have block : bn * BSIZE / BSIZE = bn := Nat.mul_div_cancel _ (by decide)
    rw [same] at inside
    have present := (disk.full j before).byte inside
    rw [← wrote.files j here before, fileByte_ne_none, block] at present
    exact present

/-- Two inodes and six data blocks; the bytes of a file are in the first data block. -/
def smallSuper : Superblock := ⟨10, 6, 2, 2, 3, by decide, by decide, by decide⟩

def smallInode : Inode := ⟨1, 2, 0, 0, 1, 10, fun k => if k = 0 then 4 else 0⟩

def smallStore : Store where
  data := fun b =>
    if b = 2 then putDinode (fun _ => 0) 1 smallInode
    else if b = 3 then fun j => if j = 0 then 0x1f else 0
    else fun _ => 1
  logged := []

theorem small_dinode : dinode smallSuper smallStore 1 = smallInode := by
  have fits : smallInode.Fits := by
    refine ⟨by decide, by decide, by decide, by decide, by decide, fun k => ?_⟩
    change (if k = 0 then 4 else 0) < 2 ^ 32
    split <;> decide
  exact getDinode_putDinode fits

theorem small_live {j : Nat} (live : Live smallSuper (dinode smallSuper smallStore) j) : j = 1 := by
  obtain ⟨inside, type⟩ := live
  change j < 2 at inside
  have other : j ≠ 0 := by
    rintro rfl
    exact type (by decide +kernel)
  omega

theorem small_ptr {slot : Slot} (points : ptr smallStore.data smallInode slot ≠ 0) : slot = .inl 0 := by
  cases slot with
  | inl k =>
    by_cases first : k = 0
    · rw [first]
    · exact absurd (if_neg first) points
  | inr j => exact absurd (ptr_absent rfl j) points

theorem small_disk : Disk smallSuper smallStore := by
  refine ⟨?_, ?_, by decide +kernel, ?_⟩
  · intro i j slot slot' live live' points same
    obtain rfl := small_live live
    obtain rfl := small_live live'
    rw [same] at points
    have first := small_ptr (small_dinode ▸ points)
    rw [← same] at points
    exact ⟨rfl, (small_ptr (small_dinode ▸ points)).trans first.symm⟩
  · intro i slot live points
    obtain rfl := small_live live
    rw [small_dinode] at points ⊢
    rw [small_ptr points]
    exact ⟨by decide, by decide, by decide +kernel⟩
  · intro i live bn inside
    obtain rfl := small_live live
    change bn * 1024 < 10 at inside
    obtain rfl : bn = 0 := by omega
    decide

section Calls

variable {K : Type} [Allocator K] {src : Source K} {off n r : Nat} {stored : List Byte}

/-- The first `n` bytes of a source. -/
def Source.bytes (src : Source K) (n : Nat) : List Byte :=
  (List.range n).map fun k => (src.byte k).getD 0

theorem Source.take_bytes (holds : Holds src.byte 0 stored) (enough : r ≤ stored.length) :
    stored.take r = src.bytes r := by
  apply List.ext_getElem?
  intro k
  unfold Source.bytes
  rw [List.getElem?_map]
  by_cases inside : k < r
  · have known := holds k (by omega)
    rw [Nat.zero_add, List.getElem?_eq_getElem (by omega)] at known
    rw [List.getElem?_take_of_lt inside, List.getElem?_range inside, Option.map_some, known,
      List.getElem?_eq_getElem (by omega)]
    rfl
  · rw [List.getElem?_eq_none (by rw [List.length_take]; omega),
      List.getElem?_eq_none (by rw [List.length_range]; omega)]
    rfl

theorem WriteRun.enough (run : WriteRun src off 0 n r stored) : r ≤ stored.length := by
  by_cases partly : r < n
  · have chunk := (run.short partly).1
    omega
  · have bound := run.high
    have whole := run.whole (by omega)
    omega

theorem WriteRun.complete (run : WriteRun src off 0 n r stored)
    (present : ∀ k < n, src.byte k ≠ none) : r = n := by
  have bound := run.high
  by_contra short
  obtain ⟨-, inside, missing, -⟩ := run.short (by omega)
  exact present _ inside missing

/-- The bytes of the source that stand in one block of the file with the first missing one, and lie
below the end of the file, are those of the file. -/
def Clean (src : Source K) (s : Store) (ip : Inode) (off n : Nat) : Prop :=
  ∀ e < n, src.byte e = none → (∀ k < e, src.byte k ≠ none) →
    ∀ k < e, (off + k) / BSIZE = (off + e) / BSIZE → off + k < ip.size →
      fileByte s ip (off + k) = src.byte k

theorem WriteRun.chunk_iff (run : WriteRun src off 0 n r stored) (partly : r < n) {k : Nat}
    (before : k < stored.length) : r ≤ k ↔ (off + k) / BSIZE = (off + stored.length) / BSIZE := by
  obtain ⟨first, -, -, last, start⟩ := run.short partly
  unfold BSIZE at *
  omega

theorem WriteRun.clean_iff (run : WriteRun src off 0 n r stored) (s : Store) (ip : Inode) :
    (∀ k, r ≤ k → k < stored.length → off + k < ip.size → fileByte s ip (off + k) = stored[k]?) ↔
      Clean src s ip off n := by
  have byte : ∀ k < stored.length, src.byte k = stored[k]? := by
    intro k inside
    have known := run.holds k inside
    rw [Nat.zero_add] at known
    exact known
  by_cases partly : r < n
  · obtain ⟨-, inside, missing, -⟩ := run.short partly
    rw [Nat.zero_add] at inside missing
    have present : ∀ k < stored.length, src.byte k ≠ none := by
      intro k small
      rw [byte k small, List.getElem?_eq_getElem small]
      exact Option.some_ne_none _
    constructor
    · intro kept e _ none others k small block below
      obtain rfl : e = stored.length := by
        rcases Nat.lt_trichotomy e stored.length with less | same | more
        · exact absurd none (present e less)
        · exact same
        · exact absurd missing (others _ more)
      rw [byte k small]
      exact kept k ((run.chunk_iff partly small).mpr block) small below
    · intro clean k low small below
      rw [← byte k small]
      exact clean _ inside missing present k small ((run.chunk_iff partly small).mp low) below
  · have bound := run.high
    have whole := run.whole (by omega)
    refine iff_of_true (fun k low small _ => ?_) (fun e inside none _ => ?_)
    · omega
    · rw [byte e (by omega), List.getElem?_eq_getElem (by omega)] at none
      cases none

theorem fileBytes_contents (s : Store) (ip : Inode) (off n : Nat) (start : off ≤ ip.size) :
    fileBytes s ip off (min n (ip.size - off)) = ((contents s ip).drop off).take n := by
  have split : contents s ip = fileBytes s ip 0 off ++ fileBytes s ip off (ip.size - off) := by
    have joined := fileBytes_append s ip 0 off (ip.size - off)
    rw [Nat.add_sub_cancel' start, Nat.zero_add] at joined
    exact joined
  rw [split, List.drop_left' (length_fileBytes s ip 0 off)]
  by_cases shorter : n ≤ ip.size - off
  · have joined := fileBytes_append s ip off n (ip.size - off - n)
    rw [Nat.add_sub_cancel' shorter] at joined
    rw [Nat.min_eq_left shorter, joined, List.take_left' (length_fileBytes s ip off n)]
  · rw [Nat.min_eq_right (by omega), List.take_of_length_le (by rw [length_fileBytes]; omega)]

/-- The reads that `readi` answers with 0. -/
def Empty (ip : Inode) (off n : BitVec 32) : Prop :=
  ip.size < off.toNat ∨ 2 ^ 32 ≤ off.toNat + n.toNat

instance (ip : Inode) (off n : BitVec 32) : Decidable (Empty ip off n) :=
  inferInstanceAs (Decidable (_ ∨ _))

variable {off n : BitVec 32} {ip : Inode}

theorem readi_empty (dst : Dest K) (empty : Empty ip off n) :
    readi sb s ip dst off n = .ok (some 0, dst, ip, s) := by
  refine if_pos ?_
  rw [wraps_iff]
  exact empty

theorem range_of_not_empty (some : ¬ Empty ip off n) :
    off.toNat ≤ ip.size ∧ (off + n).toNat = off.toNat + n.toNat := by
  unfold Empty at some
  exact ⟨by omega, Nat.mod_eq_of_lt (by omega)⟩

theorem readi_loop (dst : Dest K) (some : ¬ Empty ip off n) :
    readi sb s ip dst off n = readiLoop sb (min n.toNat (ip.size - off.toNat)) s ip dst off.toNat 0
      (min n.toNat (ip.size - off.toNat)) := by
  obtain ⟨start, total⟩ := range_of_not_empty some
  have entered : ¬ (ip.size < off.toNat ∨ off + n < off) := by
    rw [wraps_iff]
    exact some
  have count : (if ip.size < (off + n).toNat then ip.size - off.toNat else n.toNat) =
      min n.toNat (ip.size - off.toNat) := by
    rw [total]
    by_cases long : ip.size < off.toNat + n.toNat
    · rw [if_pos long]
      omega
    · rw [if_neg long]
      omega
  unfold readi
  rw [if_neg entered, count]

theorem Full.within (full : Full s.data ip) {off n : Nat} (start : off ≤ ip.size) (pos : Nat)
    (high : pos < off + (min n (ip.size - off) - 0)) : blockAt s.data ip (pos / BSIZE) ≠ 0 :=
  fileByte_ne_none.mp (full.byte (by omega))

theorem readi_delivers {dst : Dest K} (full : Full s.data ip) (some : ¬ Empty ip off n) (ok : dst.Ok)
    (mapped : ∀ k < min n.toNat (ip.size - off.toNat), dst.view (dst.addr + k) ≠ none) :
    ∃ dst', readi sb s ip dst off n =
        .ok (Option.some (min n.toNat (ip.size - off.toNat)), dst', ip, s) ∧
      Laid dst dst' dst.addr (((contents s ip).drop off.toNat).take n.toNat) := by
  have start := (range_of_not_empty some).1
  rw [readi_loop dst some]
  obtain ⟨dst', ran, laid⟩ := readiLoop_lays (Nat.le_add_left _ _) (Nat.zero_le _) ok
    (by rw [Nat.add_zero, Nat.sub_zero]; exact mapped) fun pos _ high => full.within start pos high
  rw [Nat.add_zero, Nat.sub_zero, fileBytes_contents s ip _ _ start] at laid
  exact ⟨dst', ran, laid⟩

theorem readi_bytes_empty (empty : Empty ip off n) : Paging.readi (contents s ip) off n = [] := by
  refine if_pos ?_
  rw [length_contents, wraps_iff]
  exact empty

theorem readi_bytes (some : ¬ Empty ip off n) :
    Paging.readi (contents s ip) off n = ((contents s ip).drop off.toNat).take n.toNat := by
  obtain ⟨start, total⟩ := range_of_not_empty some
  unfold Paging.readi
  rw [if_neg (by rw [length_contents, wraps_iff]; exact some), total, length_contents]
  split
  · rw [List.take_of_length_le (by rw [List.length_drop, length_contents]),
      List.take_of_length_le (by rw [List.length_drop, length_contents]; omega)]
  · rfl

/-- `exec` reads an inode as the list of its bytes. -/
theorem readi_kernel (full : Full s.data ip) (mem : Word → Byte) (dst : Word)
    (fits : dst.toNat + n.toNat ≤ 2 ^ 64) :
    ∃ dst', readi sb s ip (.kernel mem dst : Dest K) off n =
        .ok (some (Paging.readi (contents s ip) off n).length, dst', ip, s) ∧
      Laid (.kernel mem dst) dst' dst.toNat (Paging.readi (contents s ip) off n) := by
  by_cases empty : Empty ip off n
  · rw [readi_bytes_empty empty]
    exact ⟨_, readi_empty _ empty, trivial, rfl, overwrite_nil.symm⟩
  · have ok : (.kernel mem dst : Dest K).Ok := trivial
    obtain ⟨dst', ran, laid⟩ := readi_delivers full empty ok fun k inside => by
      change kernelMem mem (dst.toNat + k) ≠ none
      rw [kernelMem, if_pos (by omega)]
      exact Option.some_ne_none _
    rw [readi_bytes empty, List.length_take, List.length_drop, length_contents]
    exact ⟨dst', ran, laid⟩

/-- A write that returns `r` has replaced the `r` bytes from `off` on and nothing else, exactly when
the other bytes of its last chunk are those that were in the file. -/
theorem write_replaces_what_it_returns_iff (sb : Superblock) (s : Store) (disk : Disk sb s) (i : Nat)
    (live : Live sb (dinode sb s) i) (m : Paging.Machine K) (pt src : Word) (off n : BitVec 32)
    (r : Nat) (ip' : Inode) (s' : Store)
    (ran : writei sb s (dinode sb s i) (.user m pt src) off n = .ok (some r, ip', s')) :
    (ip' = dinode sb s' i ∧
      contents s' (dinode sb s' i) = splice (contents s (dinode sb s i)) off.toNat
        ((Source.user m pt src).bytes r) ∧
      (dinode sb s' i).size = max (dinode sb s i).size (off.toNat + r)) ↔
    Clean (.user m pt src) s (dinode sb s i) off.toNat n.toNat := by
  have accepted : ¬ Rejected (dinode sb s i) off n := by
    intro rejected
    rw [writei_rejected _ rejected] at ran
    cases ran
  have start : off.toNat ≤ (dinode sb s i).size :=
    Nat.le_of_not_lt fun beyond => accepted (.inl beyond)
  rcases writei_accepted (.user m pt src) disk.sound live accepted with
    ⟨failed, -⟩ | ⟨r', s'', stored, ran', run, wrote⟩
  · rw [failed] at ran
    cases ran
  · obtain ⟨rfl, rfl, rfl⟩ : r' = r ∧ dinode sb s'' i = ip' ∧ s'' = s' := by
      rw [ran'] at ran
      cases ran
      exact ⟨rfl, rfl, rfl⟩
    have size : (dinode sb s'' i).size = max (dinode sb s i).size (off.toNat + r') := by
      rw [wrote.inode]
    rw [← Source.take_bytes run.holds run.enough, ← run.clean_iff,
      ← wrote.contents_iff (disk.full i live) start run.enough]
    exact ⟨fun known => known.2.1, fun known => ⟨rfl, known, size⟩⟩

/-- The source of which three bytes are mapped. -/
theorem write_replaces_what_it_returns_iff_small :
    ∃ ip' s', writei smallSuper smallStore (dinode smallSuper smallStore 1)
        (.user (onePage 0x4000) 0x1000 4093) 0 5 = .ok (some 0, ip', s') ∧
      ((ip' = dinode smallSuper s' 1 ∧
        contents s' (dinode smallSuper s' 1) =
          splice (contents smallStore (dinode smallSuper smallStore 1)) 0
            ((Source.user (onePage 0x4000) 0x1000 4093).bytes 0) ∧
        (dinode smallSuper s' 1).size = max (dinode smallSuper smallStore 1).size (0 + 0)) ↔
      Clean (.user (onePage 0x4000) 0x1000 4093) smallStore (dinode smallSuper smallStore 1) 0 5) := by
  have returned : (writei smallSuper smallStore (dinode smallSuper smallStore 1)
      (.user (onePage 0x4000) 0x1000 4093) 0 5).toOption.map (·.1) = some (some 0) := by
    decide +kernel
  cases ran : writei smallSuper smallStore (dinode smallSuper smallStore 1)
      (.user (onePage 0x4000) 0x1000 4093) 0 5 with
  | error fault =>
    rw [ran] at returned
    cases returned
  | ok result =>
    obtain ⟨r, ip', s'⟩ := result
    rw [ran] at returned
    obtain rfl : r = some 0 := Option.some.inj returned
    exact ⟨ip', s', rfl, write_replaces_what_it_returns_iff smallSuper smallStore small_disk 1
      (by decide +kernel) (onePage 0x4000) 0x1000 4093 0 5 0 ip' s' ran⟩

/-- Five bytes from a user range of which three are mapped: `writei` returns 0, and a later `readi`
finds three bytes changed. -/
theorem failed_write_changes_bytes :
    Disk smallSuper smallStore ∧ Live smallSuper (dinode smallSuper smallStore) 1 ∧
    contents smallStore (dinode smallSuper smallStore 1) = [1, 1, 1, 1, 1, 1, 1, 1, 1, 1] ∧
    (writei smallSuper smallStore (dinode smallSuper smallStore 1)
        (.user (onePage 0x4000) 0x1000 4093) 0 5).toOption.map (fun w =>
      (w.1, (readi smallSuper w.2.2 w.2.1 (.kernel (fun _ => 9) 0 : Dest Supply) 0 10).toOption.map
        fun q => (q.1, (List.range 10).map q.2.1.view))) =
      some (some 0, some (some 10, [0, 0, 0, 1, 1, 1, 1, 1, 1, 1].map some)) := by
  exact ⟨small_disk, by decide +kernel, by decide +kernel, by decide +kernel⟩

end Calls

end OsbKernel.Blocks
