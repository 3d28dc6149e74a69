import OsbKernel.Fs.Truncate

/-!
# Consistent disks

The blocks in use are exactly those that the inodes name.  `ialloc`, `writei`, `readi`, `itrunc` and
the freeing branch of `iput` keep a disk consistent, in any order.
-/

namespace OsbKernel.Blocks

open Function Paging ExceptBind Ownership

variable {sb : Superblock} {s s' : Store} {i : Nat} {ip : Inode}

/-- The panic of `ialloc` when all inodes are in use. -/
def noInodes : Fault := .panic "ialloc: no inodes"

/-- The panic of `ilock` on a free inode. -/
def noType : Fault := .panic "ilock: no type"

structure Taken (sb : Superblock) (s s' : Store) (i type : Nat) : Prop where
  free : (dinode sb s i).type = 0
  inode : dinode sb s' i = ⟨i, type % 2 ^ 16, 0, 0, 0, 0, fun _ => 0⟩
  others : ∀ j, j ≠ i → dinode sb s' j = dinode sb s j
  data : ∀ x, x ≠ IBLOCK sb i → s'.data x = s.data x

theorem getDinode_fresh (d : Data) (q inum type : Nat) :
    getDinode inum (putNat (putNat d (64 * q) 64 0) (64 * q) 2 type) q =
      ⟨inum, type % 2 ^ 16, 0, 0, 0, 0, fun _ => 0⟩ := by
  have zero : ∀ k n, 64 * q + 2 ≤ k → k + n ≤ 64 * q + 64 →
      getNat (putNat (putNat d (64 * q) 64 0) (64 * q) 2 type) k n = 0 := by
    intro k n low high
    refine getNat_zero fun j first last => ?_
    rw [putNat_outside (by omega), putNat_inside (by omega) (by omega), Nat.zero_div]
    rfl
  apply Inode.ext
  · rfl
  · exact getNat_putNat _ _ 2 type
  · exact zero _ _ (by omega) (by omega)
  · exact zero _ _ (by omega) (by omega)
  · exact zero _ _ (by omega) (by omega)
  · exact zero _ _ (by omega) (by omega)
  · funext k
    exact zero _ _ (by omega) (by omega)

theorem iallocLoop_cases (type left inum : Nat) (s : Store) :
    iallocLoop sb type left inum s = .error noInodes ∨
      ∃ i s', iallocLoop sb type left inum s = .ok (i, s') ∧ inum ≤ i ∧ i < inum + left ∧
        Taken sb s s' i type := by
  induction left generalizing inum with
  | zero => exact .inl rfl
  | succ left ih =>
    rw [iallocLoop]
    by_cases free : getNat (s.data (IBLOCK sb inum)) (64 * (inum % IPB)) 2 = 0
    · rw [if_pos free]
      refine .inr ⟨inum, _, rfl, Nat.le_refl _, by omega, free, ?_, ?_, ?_⟩
      · refine Eq.trans ?_ (getDinode_fresh (s.data (IBLOCK sb inum)) (inum % IPB) inum type)
        exact congrArg (getDinode inum · (inum % IPB)) (update_self _ _ _)
      · intro j other
        refine dinode_other other (fun x block => update_of_ne block _ _) fun k outside => ?_
        refine (congrFun (update_self _ _ _) k).trans ?_
        rw [putNat_outside (by omega), putNat_outside (by omega)]
      · exact fun x block => update_of_ne block _ _
    · rw [if_neg free]
      refine (ih (inum + 1)).imp_right ?_
      rintro ⟨i, s', ran, low, high, taken⟩
      exact ⟨i, s', ran, by omega, by omega, taken⟩

theorem ialloc_cases (s : Store) (type : Nat) :
    ialloc sb s type = .error noInodes ∨
      ∃ i s', ialloc sb s type = .ok (i, s') ∧ i < sb.ninodes ∧ Taken sb s s' i type := by
  refine (iallocLoop_cases type (sb.ninodes - 1) 1 s).imp_right ?_
  rintro ⟨i, s', ran, low, high, taken⟩
  exact ⟨i, s', ran, by omega, taken⟩

theorem Taken.sound {lost : Nat → Prop} {type : Nat} (taken : Taken sb s s' i type)
    (sound : Sound sb lost s (dinode sb s)) (inside : i < sb.ninodes) :
    Sound sb lost s' (dinode sb s') := by
  have high : ∀ x, sb.bmapstart ≤ x → s'.data x = s.data x := by
    intro x above
    have block := iblock_low inside
    exact taken.data x (by omega)
  refine (sound.high high).tied.sound ?_
  rintro ⟨j, slot⟩
  by_cases here : j = i
  · subst here
    have dead : ¬ Live sb (dinode sb s) j := fun live => live.2 taken.free
    have none : owners sb s'.data (dinode sb s) (j, slot) = none := if_neg dead
    rw [none]
    by_cases live : Live sb (dinode sb s') j
    · rw [owners_live live, taken.inode, ptr_zero fun _ => rfl, nonzero_zero]
    · exact if_neg live
  · have same := taken.others j here
    have lives : Live sb (dinode sb s') j ↔ Live sb (dinode sb s) j := by
      unfold Live
      rw [same]
    by_cases live : Live sb (dinode sb s) j
    · rw [owners_live (lives.mpr live), owners_live live, same]
    · exact (if_neg fun also => live (lives.mp also)).trans (if_neg live).symm

/-- The block pointers of the allocated inodes are distinct data blocks, a data block is marked
exactly when a pointer names it, all other blocks are marked, and files have all blocks below their
ends. -/
structure Consistent (sb : Superblock) (s : Store) : Prop where
  distinct : ∀ i j slot slot', Live sb (dinode sb s) i → Live sb (dinode sb s) j →
    ptr s.data (dinode sb s i) slot ≠ 0 →
    ptr s.data (dinode sb s i) slot = ptr s.data (dinode sb s j) slot' → i = j ∧ slot = slot'
  data : ∀ i slot, Live sb (dinode sb s) i → ptr s.data (dinode sb s i) slot ≠ 0 →
    sb.dataStart ≤ ptr s.data (dinode sb s i) slot ∧ ptr s.data (dinode sb s i) slot < sb.size
  bitmap : ∀ b, sb.dataStart ≤ b → b < sb.size → (bit sb s b = true ↔
    ∃ i slot, Live sb (dinode sb s) i ∧ ptr s.data (dinode sb s i) slot = b)
  reserved : ∀ b < sb.dataStart, bit sb s b = true
  full : ∀ i, Live sb (dinode sb s) i → Full s.data (dinode sb s i)

def NoneLost (_ : Nat) : Prop := False

theorem Consistent.sound (consistent : Consistent sb s) : Sound sb NoneLost s (dinode sb s) := by
  have used : ∀ i slot, Live sb (dinode sb s) i → ptr s.data (dinode sb s i) slot ≠ 0 →
      InUse sb s (ptr s.data (dinode sb s i) slot) := by
    intro i slot live points
    obtain ⟨low, high⟩ := consistent.data i slot live points
    exact ⟨low, high, (consistent.bitmap _ low high).mpr ⟨i, slot, live, rfl⟩⟩
  have disk : Disk sb s :=
    ⟨consistent.distinct, used, consistent.reserved, consistent.full⟩
  refine ⟨⟨disk.sound.owned.distinct, fun b => ?_⟩, fun _ spare => spare.elim, consistent.reserved⟩
  constructor
  · rintro ⟨⟨low, high, marked⟩, -⟩
    obtain ⟨i, slot, live, rfl⟩ := (consistent.bitmap b low high).mp marked
    have start := bmap_low sb
    refine ⟨(i, slot), ?_⟩
    rw [owners_live live]
    exact nonzero_eq_some.mpr ⟨rfl, by omega⟩
  · rintro ⟨⟨i, slot⟩, held⟩
    obtain ⟨live, rfl, nonnull⟩ := owners_some held
    exact ⟨used i slot live nonnull, id⟩

theorem Sound.consistent (sound : Sound sb NoneLost s (dinode sb s))
    (full : ∀ i, Live sb (dinode sb s) i → Full s.data (dinode sb s i)) : Consistent sb s := by
  refine ⟨fun _ _ _ _ live live' points same => sound.distinct live live' points same, ?_, ?_,
    sound.reserved, full⟩
  · intro i slot live points
    have used := sound.ptr_used live points
    exact ⟨used.1, used.2.1⟩
  · intro b low high
    constructor
    · intro marked
      obtain ⟨⟨i, slot⟩, held⟩ := (sound.owned.used_iff b).mp ⟨⟨low, high, marked⟩, id⟩
      obtain ⟨live, place, -⟩ := owners_some held
      exact ⟨i, slot, live, place⟩
    · rintro ⟨i, slot, live, rfl⟩
      have start := bmap_low sb
      exact (sound.ptr_used live (by omega)).2.2

theorem Consistent.disk (consistent : Consistent sb s) : Disk sb s :=
  consistent.sound.disk consistent.full

theorem Full.kept (full : Full s.data ip)
    (same : ip.addrs 12 ≠ 0 → s'.data (ip.addrs 12) = s.data (ip.addrs 12)) : Full s'.data ip := by
  intro bn inside
  have before := full bn inside
  obtain ⟨slot, found, -⟩ := blockAt_slot before
  rw [blockAt_of_slot found] at before ⊢
  rw [ptr_congr same]
  exact before

theorem Full.zero (size : ip.size = 0) : Full s.data ip := by
  intro bn inside
  omega

theorem Taken.consistent {type : Nat} (taken : Taken sb s s' i type) (consistent : Consistent sb s)
    (inside : i < sb.ninodes) : Consistent sb s' := by
  refine (taken.sound consistent.sound inside).consistent fun j live => ?_
  by_cases here : j = i
  · rw [here, taken.inode]
    exact .zero rfl
  · have same := taken.others j here
    rw [same]
    have before : Live sb (dinode sb s) j := ⟨live.1, by rw [← same]; exact live.2⟩
    refine (consistent.full j before).kept fun points => taken.data _ ?_
    have used := (consistent.data j (.inl 12) before points).1
    have block := iblock_low inside
    have low := bmap_low sb
    change sb.dataStart ≤ (dinode sb s j).addrs 12 at used
    omega

theorem Emptied.consistent (emptied : Emptied sb NoneLost s s' i ip) (consistent : Consistent sb s)
    (size : ip.size = 0) : Consistent sb s' := by
  refine emptied.sound.consistent fun j live => ?_
  by_cases here : j = i
  · rw [here, emptied.inode]
    exact .zero size
  · have same := emptied.others j here live.1
    rw [same]
    have before : Live sb (dinode sb s) j := ⟨live.1, by rw [← same]; exact live.2⟩
    exact (consistent.full j before).kept fun points =>
      emptied.data _ (consistent.data j (.inl 12) before points).1

theorem Wrote.consistent {off r : Nat} {stored : List Byte}
    (wrote : Wrote sb NoneLost s s' i off r stored) (consistent : Consistent sb s)
    (live : Live sb (dinode sb s) i) (start : off ≤ (dinode sb s i).size)
    (enough : r ≤ stored.length) : Consistent sb s' :=
  wrote.sound.consistent (wrote.disk consistent.disk live start enough).full

section Operations

variable {K : Type} [Allocator K]

inductive InodeOp (K : Type) (sb : Superblock) where
  | ialloc (type : Nat)
  | writei (inum : Fin sb.ninodes) (src : Source K) (off n : BitVec 32)
  | readi (inum : Fin sb.ninodes) (dst : Dest K) (off n : BitVec 32)
  | itrunc (inum : Fin sb.ninodes)
  | iputFree (inum : Fin sb.ninodes)

/-- The store after an operation; the inode is the one that `ilock` finds. -/
def InodeOp.run (s : Store) : InodeOp K sb → Except Fault Store
  | .ialloc type => do
    let (_, s) ← Blocks.ialloc sb s type
    return s
  | .writei inum src off n => do
    let ip ← ilock sb s inum
    let (_, _, s) ← Blocks.writei sb s ip src off n
    return s
  | .readi inum dst off n => do
    let ip ← ilock sb s inum
    let (_, _, _, s) ← Blocks.readi sb s ip dst off n
    return s
  | .itrunc inum => do
    let ip ← ilock sb s inum
    let (_, s) ← Blocks.itrunc sb s ip
    return s
  | .iputFree inum => do
    let ip ← ilock sb s inum
    Blocks.iputFree sb s ip

theorem ilock_cases (s : Store) (inum : Fin sb.ninodes) :
    ilock sb s inum = .error noType ∨
      (ilock sb s inum = .ok (dinode sb s inum) ∧ Live sb (dinode sb s) inum) := by
  by_cases free : (dinode sb s inum).type = 0
  · exact .inl (if_pos free)
  · exact .inr ⟨if_neg free, inum.isLt, free⟩

theorem readi_keeps (full : Full s.data ip) (dst : Dest K) (off n : BitVec 32) :
    ∃ r dst', readi sb s ip dst off n = .ok (r, dst', ip, s) := by
  by_cases empty : Empty ip off n
  · exact ⟨_, _, readi_empty dst empty⟩
  · have start : off.toNat ≤ ip.size := Nat.le_of_not_lt fun beyond => empty (.inl beyond)
    rw [readi_loop dst empty]
    exact readiLoop_keeps dst fun pos _ high => full.within start pos high

/-- The faults that an operation on a consistent disk may stop with. -/
def Expected (fault : Fault) : Prop := fault = outOfBlocks ∨ fault = noInodes ∨ fault = noType

theorem InodeOp.run_consistent (op : InodeOp K sb) (consistent : Consistent sb s) :
    (∃ fault, op.run s = .error fault ∧ Expected fault) ∨ ∃ s', op.run s = .ok s' ∧ Consistent sb s' := by
  have stopped : ∀ {inum : Fin sb.ninodes} (rest : Inode → Except Fault Store),
      ilock sb s inum = .error noType →
      ∃ fault, (ilock sb s inum >>= rest) = .error fault ∧ Expected fault := by
    intro inum rest failed
    rw [failed]
    exact ⟨noType, rfl, .inr (.inr rfl)⟩
  cases op with
  | ialloc type =>
    rcases ialloc_cases s type with failed | ⟨i, s', ran, inside, taken⟩
    · refine .inl ⟨noInodes, ?_, .inr (.inl rfl)⟩
      rw [InodeOp.run, failed]
      rfl
    · refine .inr ⟨s', ?_, taken.consistent consistent inside⟩
      rw [InodeOp.run, bind_eq ran]
      rfl
  | writei inum src off n =>
    rcases ilock_cases s inum with failed | ⟨locked, live⟩
    · exact .inl (stopped _ failed)
    · rw [InodeOp.run, bind_eq locked]
      by_cases rejected : Rejected (dinode sb s inum) off n
      · rw [bind_eq (writei_rejected src rejected)]
        exact .inr ⟨s, rfl, consistent⟩
      · obtain ⟨start, -, -⟩ := accepted_bounds rejected
        rcases writei_accepted src consistent.sound live rejected with
          ⟨failed, -⟩ | ⟨r, s', stored, ran, run, wrote⟩
        · refine .inl ⟨outOfBlocks, ?_, .inl rfl⟩
          rw [failed]
          rfl
        · rw [bind_eq ran]
          exact .inr ⟨s', rfl, wrote.consistent consistent live start run.enough⟩
  | readi inum dst off n =>
    rcases ilock_cases s inum with failed | ⟨locked, live⟩
    · exact .inl (stopped _ failed)
    · obtain ⟨r, dst', ran⟩ := readi_keeps (consistent.full _ live) dst off n
      rw [InodeOp.run, bind_eq locked, bind_eq ran]
      exact .inr ⟨s, rfl, consistent⟩
  | itrunc inum =>
    rcases ilock_cases s inum with failed | ⟨locked, live⟩
    · exact .inl (stopped _ failed)
    · obtain ⟨s', ran, emptied⟩ := itrunc_empties consistent.sound live
      rw [InodeOp.run, bind_eq locked, bind_eq ran]
      exact .inr ⟨s', rfl, emptied.consistent consistent rfl⟩
  | iputFree inum =>
    rcases ilock_cases s inum with failed | ⟨locked, live⟩
    · exact .inl (stopped _ failed)
    · obtain ⟨s', ran, emptied⟩ := iputFree_empties consistent.sound live
      rw [InodeOp.run, bind_eq locked, ran]
      exact .inr ⟨s', rfl, emptied.consistent consistent rfl⟩

def runOps (s : Store) : List (InodeOp K sb) → Except Fault Store
  | [] => .ok s
  | op :: rest => op.run s >>= fun s => runOps s rest

/-- Block allocation is exact: consistency is kept by every sequence of operations, no block is
freed twice, and `readi` leaves the store alone in every state that is reached. -/
theorem block_allocation_exact (sb : Superblock) (s : Store) (consistent : Consistent sb s)
    (ops : List (InodeOp K sb)) :
    (∃ fault, runOps s ops = .error fault ∧ Expected fault) ∨
      ∃ s', runOps s ops = .ok s' ∧ Consistent sb s' ∧
        ∀ inum dst off n, Live sb (dinode sb s') inum →
          ∃ r dst' ip', readi sb s' (dinode sb s' inum) (dst : Dest K) off n = .ok (r, dst', ip', s') := by
  induction ops generalizing s with
  | nil =>
    refine .inr ⟨s, rfl, consistent, fun inum dst off n live => ?_⟩
    obtain ⟨r, dst', ran⟩ := readi_keeps (consistent.full inum live) dst off n
    exact ⟨r, dst', _, ran⟩
  | cons op rest ih =>
    rcases op.run_consistent consistent with ⟨fault, failed, expected⟩ | ⟨s', ran, kept⟩
    · refine .inl ⟨fault, ?_, expected⟩
      rw [runOps, failed]
      rfl
    · rw [runOps, bind_eq ran]
      exact ih s' kept

end Operations

theorem small_consistent : Consistent smallSuper smallStore := by
  refine ⟨small_disk.distinct, fun i slot live points => ?_, ?_, small_disk.reserved, small_disk.full⟩
  · have used := small_disk.used i slot live points
    exact ⟨used.1, used.2.1⟩
  · intro b low high
    constructor
    · intro marked
      have only : ∀ b < 10, 4 ≤ b → bit smallSuper smallStore b = true → b = 4 := by decide +kernel
      have first : b = 4 := only b high low marked
      refine ⟨1, .inl 0, by decide +kernel, ?_⟩
      rw [small_dinode, first]
      rfl
    · rintro ⟨i, slot, live, rfl⟩
      have start := bmap_low smallSuper
      exact (small_disk.used i slot live (by omega)).2.2

/-- A write that grows the file into a second block, and the end of the file. -/
def smallOps : List (InodeOp Supply smallSuper) :=
  [.writei ⟨1, by decide⟩ (.kernel (fun _ => 7) 0) 10 1020, .itrunc ⟨1, by decide⟩,
    .iputFree ⟨1, by decide⟩]

theorem block_allocation_exact_small :
    (runOps smallStore smallOps).toOption.map (fun s => (List.range 10).map (bit smallSuper s)) =
        some [true, true, true, true, false, false, false, false, false, false] ∧
    ((∃ fault, runOps smallStore smallOps = .error fault ∧ Expected fault) ∨
      ∃ s', runOps smallStore smallOps = .ok s' ∧ Consistent smallSuper s' ∧
        ∀ inum dst off n, Live smallSuper (dinode smallSuper s') inum →
          ∃ r dst' ip', readi smallSuper s' (dinode smallSuper s' inum) (dst : Dest Supply) off n =
            .ok (r, dst', ip', s')) :=
  ⟨by decide +kernel, block_allocation_exact smallSuper smallStore small_consistent smallOps⟩

end OsbKernel.Blocks
