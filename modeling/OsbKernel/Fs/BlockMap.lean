import Mathlib.Data.Fintype.Sum
import OsbKernel.Fs.BlockOwners

/-!
# Allocating blocks

`balloc` takes a block that nobody owns, and `bmap` gives it to a slot of the inode.
-/

namespace OsbKernel.Blocks

open Function Paging ExceptBind Ownership

variable {sb : Superblock} {lost : Nat → Prop} {s s' s'' : Store} {view : Nat → Inode} {i b : Nat}
  {ip ip' ip'' : Inode}

/-- The panic of `balloc` on a full disk. -/
def outOfBlocks : Fault := .panic "balloc: out of blocks"

/-- The number of blocks that the free map shows as free. -/
def freeBlocks (sb : Superblock) (s : Store) : Nat :=
  {b ∈ Finset.range sb.size | bit sb s b = false}.card

/-- The slots among `P` for which the inode has no block. -/
def missing (P : Finset Slot) (data : Nat → Data) (ip : Inode) : Finset Slot :=
  {slot ∈ P | ptr data ip slot = 0}

/-- As many blocks have been taken as slots among `P` have been filled. -/
def Spent (sb : Superblock) (P : Finset Slot) (s s' : Store) (ip ip' : Inode) : Prop :=
  freeBlocks sb s' + (missing P s.data ip).card = freeBlocks sb s + (missing P s'.data ip').card

/-- `balloc` has marked block `b` and filled it with zeros. -/
structure Allocated (sb : Superblock) (s s' : Store) (b : Nat) : Prop where
  inside : b < sb.size
  free : bit sb s b = false
  store : s' = bzero ((s.setData (BBLOCK sb b)
    (setBit (s.data (BBLOCK sb b)) (b % BPB))).logWrite (BBLOCK sb b)) b

theorem ballocLoop_cases (s : Store) {left start : Nat} (inside : start + left ≤ sb.size) :
    ballocLoop sb left start s = .error outOfBlocks ∧
        (∀ b, start ≤ b → b < start + left → bit sb s b = true) ∨
      ∃ b s', ballocLoop sb left start s = .ok (b, s') ∧ Allocated sb s s' b := by
  induction left generalizing start with
  | zero => exact .inl ⟨rfl, fun b low high => absurd low (Nat.not_le_of_lt high)⟩
  | succ left ih =>
    rw [ballocLoop]
    by_cases free : bitSet (s.data (BBLOCK sb start)) (start % BPB) = false
    · rw [if_pos free]
      exact .inr ⟨start, _, rfl, by omega, free, rfl⟩
    · rw [if_neg free]
      refine (ih (by omega)).imp_left ?_
      rintro ⟨failed, marked⟩
      refine ⟨failed, fun b low high => ?_⟩
      by_cases first : b = start
      · rw [first]
        exact Bool.eq_true_of_not_eq_false free
      · exact marked b (by omega) (by omega)

theorem balloc_cases (sb : Superblock) (s : Store) :
    balloc sb s = .error outOfBlocks ∧ freeBlocks sb s = 0 ∨
      ∃ b s', balloc sb s = .ok (b, s') ∧ Allocated sb s s' b := by
  refine (ballocLoop_cases s (by omega)).imp_left ?_
  rintro ⟨failed, marked⟩
  refine ⟨failed, Finset.card_eq_zero.mpr (Finset.filter_eq_empty_iff.mpr fun b inside => ?_)⟩
  rw [marked b (Nat.zero_le b) (by have := Finset.mem_range.mp inside; omega)]
  exact fun impossible => nomatch impossible

theorem Allocated.zero (allocated : Allocated sb s s' b) : s'.data b = fun _ => 0 := by
  rw [allocated.store]
  exact update_self _ _ _

variable {x bn : Nat} {data : Nat → Data}

theorem Allocated.other (allocated : Allocated sb s s' b) (other : x ≠ b)
    (unmarked : x ≠ BBLOCK sb b) : s'.data x = s.data x := by
  rw [allocated.store]
  exact (update_of_ne other _ _).trans (update_of_ne unmarked _ _)

theorem Allocated.high (allocated : Allocated sb s s' b) (sound : Sound sb lost s view) :
    sb.dataStart ≤ b := by
  by_contra low
  have marked := sound.reserved b (Nat.lt_of_not_le low)
  rw [allocated.free] at marked
  exact Bool.false_ne_true marked

theorem Allocated.bit (allocated : Allocated sb s s' b) (high : sb.dataStart ≤ b)
    (inside : x < sb.size) : bit sb s' x = (decide (x = b) || bit sb s x) := by
  have low := bblock_low inside
  have apart : BBLOCK sb x ≠ b := by omega
  by_cases page : BBLOCK sb x = BBLOCK sb b
  · have content : s'.data (BBLOCK sb x) = setBit (s.data (BBLOCK sb x)) (b % BPB) := by
      rw [allocated.store]
      refine (update_of_ne apart _ _).trans ?_
      rw [page]
      exact update_self _ _ _
    rw [Blocks.bit, content, bitSet_setBit, decide_eq_decide.mpr (bblock_mod_iff page)]
    rfl
  · have other : x ≠ b := fun equal => page (by rw [equal])
    rw [bit_congr (allocated.other apart page), decide_eq_false other, Bool.false_or]

theorem Allocated.freeBlocks (allocated : Allocated sb s s' b) (high : sb.dataStart ≤ b) :
    freeBlocks sb s' + 1 = Blocks.freeBlocks sb s := by
  have erased : {x ∈ Finset.range sb.size | Blocks.bit sb s' x = false} =
      {x ∈ Finset.range sb.size | Blocks.bit sb s x = false}.erase b := by
    ext x
    simp only [Finset.mem_filter, Finset.mem_erase, Finset.mem_range]
    by_cases inside : x < sb.size
    · simp [inside, allocated.bit high inside]
    · simp [inside]
  rw [Blocks.freeBlocks, erased]
  exact Finset.card_erase_add_one
    (Finset.mem_filter.mpr ⟨Finset.mem_range.mpr allocated.inside, allocated.free⟩)

theorem freeBlocks_congr (marks : ∀ x < sb.size, Blocks.bit sb s' x = Blocks.bit sb s x) :
    freeBlocks sb s' = freeBlocks sb s := by
  unfold freeBlocks
  congr 1
  exact Finset.filter_congr fun x inside => by rw [marks x (Finset.mem_range.mp inside)]

theorem spent_of_same {P : Finset Slot} (marks : ∀ x < sb.size, Blocks.bit sb s' x = Blocks.bit sb s x)
    (pointers : ∀ slot, ptr s'.data ip' slot = ptr s.data ip slot) : Spent sb P s s' ip ip' := by
  have same : missing P s'.data ip' = missing P s.data ip :=
    Finset.filter_congr fun slot _ => by rw [pointers slot]
  rw [Spent, freeBlocks_congr marks, same]

theorem Allocated.spent {s₁ : Store} {slot : Slot} {P : Finset Slot} (allocated : Allocated sb s s₁ b)
    (high : sb.dataStart ≤ b) (marks : ∀ x < sb.size, Blocks.bit sb s' x = Blocks.bit sb s₁ x)
    (empty : ptr s.data ip slot = 0) (here : ptr s'.data ip' slot ≠ 0)
    (elsewhere : ∀ slot', slot' ≠ slot → ptr s'.data ip' slot' = ptr s.data ip slot')
    (wanted : slot ∈ P) : Spent sb P s s' ip ip' := by
  have erased : missing P s'.data ip' = (missing P s.data ip).erase slot := by
    ext slot'
    by_cases place : slot' = slot
    · simp [missing, place, here]
    · simp [missing, place, elsewhere slot' place]
  have member : slot ∈ missing P s.data ip := Finset.mem_filter.mpr ⟨wanted, empty⟩
  have fewer := Finset.card_erase_add_one member
  have taken := allocated.freeBlocks high
  rw [Spent, freeBlocks_congr marks, erased]
  omega

theorem Allocated.inUse (allocated : Allocated sb s s' b) (high : sb.dataStart ≤ b) (x : Nat) :
    InUse sb s' x ↔ x = b ∨ InUse sb s x := by
  constructor
  · rintro ⟨low, inside, marked⟩
    rw [allocated.bit high inside, Bool.or_eq_true] at marked
    exact marked.imp of_decide_eq_true fun before => ⟨low, inside, before⟩
  · rintro (rfl | ⟨low, inside, marked⟩)
    · exact ⟨high, allocated.inside, by rw [allocated.bit high allocated.inside, decide_eq_true rfl]; rfl⟩
    · exact ⟨low, inside, by rw [allocated.bit high inside, marked, Bool.or_true]⟩

theorem Allocated.kept (allocated : Allocated sb s s' b) (used : InUse sb s x) :
    s'.data x = s.data x := by
  refine allocated.other ?_ ?_
  · rintro rfl
    have marked := used.2.2
    rw [allocated.free] at marked
    exact Bool.false_ne_true marked
  · have low := bblock_low allocated.inside
    have high := used.1
    omega

theorem Allocated.reserved (allocated : Allocated sb s s' b) (sound : Sound sb lost s view)
    (low : x < sb.dataStart) : Blocks.bit sb s' x = true := by
  have small : sb.dataStart ≤ sb.size := Nat.sub_le _ _
  rw [allocated.bit (allocated.high sound) (by omega), sound.reserved x low, Bool.or_true]

/-- Inode `i` has got blocks: what it had is kept, new data blocks are filled with zeros, and the
blocks of other inodes and all blocks below the free map are as before. -/
structure Extends (sb : Superblock) (lost : Nat → Prop) (s s' : Store) (view : Nat → Inode) (i : Nat) (ip' : Inode) :
    Prop where
  sound : Sound sb lost s' (update view i ip')
  same : ip' = { view i with addrs := ip'.addrs }
  fits : (∀ k, (view i).addrs k < 2 ^ 32) → ∀ k, ip'.addrs k < 2 ^ 32
  kept : ∀ slot, ptr s.data (view i) slot ≠ 0 → ptr s'.data ip' slot = ptr s.data (view i) slot
  bytes : ∀ slot, slot ≠ .inl 12 → ptr s.data (view i) slot ≠ 0 →
    s'.data (ptr s.data (view i) slot) = s.data (ptr s.data (view i) slot)
  fresh : ∀ slot, slot ≠ .inl 12 → ptr s.data (view i) slot = 0 → ptr s'.data ip' slot ≠ 0 →
    s'.data (ptr s'.data ip' slot) = fun _ => 0
  others : ∀ j, j ≠ i → Live sb view j → ∀ slot, ptr s.data (view j) slot ≠ 0 →
    s'.data (ptr s.data (view j) slot) = s.data (ptr s.data (view j) slot)
  low : ∀ x < sb.bmapstart, s'.data x = s.data x

theorem Extends.refl (sound : Sound sb lost s view) (i : Nat) : Extends sb lost s s view i (view i) := by
  refine ⟨?_, rfl, id, fun _ _ => rfl, fun _ _ _ => rfl, ?_, fun _ _ _ _ _ => rfl, fun _ _ => rfl⟩
  · rw [update_eq_self]
    exact sound
  · intro slot _ zero points
    exact absurd zero points

theorem live_update (same : ip' = { view i with addrs := ip'.addrs }) {j : Nat} :
    Live sb (update view i ip') j ↔ Live sb view j := by
  unfold Live
  by_cases here : j = i
  · subst here
    rw [update_self, same]
  · rw [update_of_ne here]

theorem Extends.live (extended : Extends sb lost s s' view i ip') {j : Nat} :
    Live sb (update view i ip') j ↔ Live sb view j :=
  live_update extended.same

/-- The blocks of the other inodes are kept by two steps, if each keeps them. -/
theorem others_trans (same : ip' = { view i with addrs := ip'.addrs })
    (first : ∀ j, j ≠ i → Live sb view j → ∀ slot, ptr s.data (view j) slot ≠ 0 →
      s'.data (ptr s.data (view j) slot) = s.data (ptr s.data (view j) slot))
    (second : ∀ j, j ≠ i → Live sb (update view i ip') j → ∀ slot,
      ptr s'.data (update view i ip' j) slot ≠ 0 →
      s''.data (ptr s'.data (update view i ip' j) slot) = s'.data (ptr s'.data (update view i ip' j) slot)) :
    ∀ j, j ≠ i → Live sb view j → ∀ slot, ptr s.data (view j) slot ≠ 0 →
      s''.data (ptr s.data (view j) slot) = s.data (ptr s.data (view j) slot) := by
  intro j other live slot points
  have now : ptr s'.data (view j) slot = ptr s.data (view j) slot := by
    refine ptr_congr fun indirect => ?_
    exact first j other live (.inl 12) indirect
  have still := second j other ((live_update same).mpr live) slot (by
    rw [update_of_ne other, now]
    exact points)
  rw [update_of_ne other, now] at still
  rw [still, first j other live slot points]

theorem Extends.trans (first : Extends sb lost s s' view i ip')
    (second : Extends sb lost s' s'' (update view i ip') i ip'') : Extends sb lost s s'' view i ip'' := by
  obtain ⟨sound, same, fits, kept, bytes, fresh, others, low⟩ := second
  rw [update_self] at same fits kept bytes fresh
  rw [update_idem] at sound
  refine ⟨sound, ?_, fun known => fits (first.fits known), ?_, ?_, ?_,
    others_trans first.same first.others others, ?_⟩
  · rw [same, first.same]
  · intro slot points
    have now := first.kept slot points
    rw [kept slot (by rw [now]; exact points), now]
  · intro slot data points
    have now := first.kept slot points
    have still := bytes slot data (by rw [now]; exact points)
    rw [now] at still
    rw [still, first.bytes slot data points]
  · intro slot data zero points
    by_cases middle : ptr s'.data ip' slot = 0
    · exact fresh slot data middle points
    · rw [kept slot middle, bytes slot data middle, first.fresh slot data zero middle]
  · intro x below
    rw [low x below, first.low x below]

/-- The block that `balloc` has returned goes to an empty slot.  Only the indirect block of the
inode may be written on the way. -/
theorem Allocated.extends {s₁ : Store} {slot : Slot} (allocated : Allocated sb s s₁ b)
    (sound : Sound sb lost s view) (live : Live sb view i) (empty : ptr s.data (view i) slot = 0)
    (same : ip' = { view i with addrs := ip'.addrs })
    (fits : (∀ k, (view i).addrs k < 2 ^ 32) → ∀ k, ip'.addrs k < 2 ^ 32)
    (here : ptr s'.data ip' slot = b)
    (elsewhere : ∀ slot', slot' ≠ slot → ptr s'.data ip' slot' = ptr s.data (view i) slot')
    (stores : ∀ x, s'.data x = s₁.data x ∨ x = (view i).addrs 12 ∧ x ≠ 0) :
    Extends sb lost s s' view i ip' := by
  have high := allocated.high sound
  have start : 0 < sb.dataStart := Nat.lt_of_le_of_lt (Nat.zero_le _) (bmap_low sb)
  have indirect : (view i).addrs 12 ≠ 0 → InUse sb s ((view i).addrs 12) :=
    fun points => sound.ptr_used live (show ptr s.data (view i) (.inl 12) ≠ 0 from points)
  have used : ∀ x, InUse sb s x → x ≠ (view i).addrs 12 → s'.data x = s.data x := by
    intro x inUse other
    rcases stores x with kept | ⟨equal, -⟩
    · rw [kept, allocated.kept inUse]
    · exact absurd equal other
  have below : ∀ x, x < sb.dataStart → s'.data x = s₁.data x := by
    intro x lower
    rcases stores x with kept | ⟨equal, nonnull⟩
    · exact kept
    · have upper := (indirect (equal ▸ nonnull)).1
      omega
  have others : ∀ j, j ≠ i → Live sb view j → ∀ slot', ptr s.data (view j) slot' ≠ 0 →
      s'.data (ptr s.data (view j) slot') = s.data (ptr s.data (view j) slot') := by
    intro j other alive slot' points
    refine used _ (sound.ptr_used alive points) fun equal => ?_
    have shared : ptr s.data (view j) slot' = ptr s.data (view i) (.inl 12) := equal
    exact other (sound.distinct alive live points shared).1
  have pointers : ∀ x, owners sb s'.data (update view i ip') x =
      update (owners sb s.data view) (i, slot) (some b) x := by
    rintro ⟨j, slot'⟩
    by_cases inode : j = i
    · subst inode
      rw [owners_live ((live_update same).mpr live), update_self]
      by_cases place : slot' = slot
      · subst place
        rw [update_self, here]
        exact nonzero_eq_some.mpr ⟨rfl, by omega⟩
      · have differ : (j, slot') ≠ (j, slot) := fun equal => place (Prod.mk.inj equal).2
        rw [update_of_ne differ, owners_live live, elsewhere slot' place]
    · have differ : (j, slot') ≠ (i, slot) := fun equal => inode (Prod.mk.inj equal).1
      have lives : Live sb (update view i ip') j ↔ Live sb view j := live_update same
      rw [update_of_ne differ]
      by_cases alive : Live sb view j
      · rw [owners_live (lives.mpr alive), owners_live alive, update_of_ne inode]
        congr 1
        exact ptr_congr fun points => others j inode alive (.inl 12) points
      · exact (if_neg fun also => alive (lives.mp also)).trans (if_neg alive).symm
  have marks : ∀ x < sb.size, Blocks.bit sb s' x = Blocks.bit sb s₁ x :=
    fun x inside => bit_congr (below _ (bblock_low inside))
  have uses : ∀ x, InUse sb s' x ↔ x = b ∨ InUse sb s x := by
    intro x
    rw [← allocated.inUse high]
    unfold InUse
    refine and_congr_right fun _ => and_congr_right fun inside => ?_
    rw [marks x inside]
  have free : ¬ InUse sb s b := by
    intro inUse
    have marked := inUse.2.2
    rw [allocated.free] at marked
    exact Bool.false_ne_true marked
  have small : sb.dataStart ≤ sb.size := Nat.sub_le _ _
  have null : owners sb s.data view (i, slot) = none := by
    rw [owners_live live, empty]
    exact nonzero_zero
  have owned : ∀ x, InUse sb s' x ∧ ¬ lost x ↔ x = b ∨ InUse sb s x ∧ ¬ lost x := by
    intro x
    rw [uses, or_and_right, and_iff_left_of_imp]
    rintro rfl spare
    exact free (sound.spare x spare)
  have kept : ∀ x, lost x → InUse sb s' x := fun x spare => (uses x).mpr (.inr (sound.spare x spare))
  refine ⟨⟨(sound.owned.assign null (fun held => free held.1) owned).congr pointers fun _ => Iff.rfl, kept,
    ?_⟩, same, fits, ?_, ?_, ?_, others, ?_⟩
  · intro x lower
    rw [marks x (by omega)]
    exact allocated.reserved sound lower
  · intro slot' points
    exact elsewhere slot' fun equal => points (equal ▸ empty)
  · intro slot' data points
    refine used _ (sound.ptr_used live points) fun equal => ?_
    have shared : ptr s.data (view i) slot' = ptr s.data (view i) (.inl 12) := equal
    exact data (sound.distinct live live points shared).2
  · intro slot' data zero points
    have place : slot' = slot := by
      by_contra other
      rw [elsewhere slot' other] at points
      exact points zero
    rw [place, here]
    rcases stores b with kept | ⟨equal, nonnull⟩
    · rw [kept, allocated.zero]
    · exact absurd (equal ▸ indirect (equal ▸ nonnull)) free
  · intro x lower
    have top := bmap_low sb
    have page := bblock_high sb b
    rw [below x (by omega), allocated.other (by omega) (by omega)]

@[simp] theorem setAddr_self (ip : Inode) (k : Fin 13) (b : Nat) : (ip.setAddr k b).addrs k = b :=
  update_self _ _ _

@[simp] theorem setAddr_of_ne (ip : Inode) {k k' : Fin 13} (other : k' ≠ k) (b : Nat) :
    (ip.setAddr k b).addrs k' = ip.addrs k' :=
  update_of_ne other _ _

theorem addrOrAlloc_present {k : Fin 13} (points : ip.addrs k ≠ 0) :
    addrOrAlloc sb s ip k = .ok (ip.addrs k, ip, s) := if_neg points

theorem entryOrAlloc_present {bp j : Nat} (points : getUint (s.data bp) j ≠ 0) :
    entryOrAlloc sb s bp j = .ok (getUint (s.data bp) j, s) := if_neg points

theorem short_of_empty {P : Finset Slot} {slot : Slot} (none : freeBlocks sb s = 0) (wanted : slot ∈ P)
    (empty : ptr s.data ip slot = 0) : freeBlocks sb s < (missing P s.data ip).card := by
  rw [none]
  exact Finset.card_pos.mpr ⟨slot, Finset.mem_filter.mpr ⟨wanted, empty⟩⟩

variable {P : Finset Slot}

theorem addrOrAlloc_cases (sound : Sound sb lost s view) (live : Live sb view i) (k : Fin 13)
    (wanted : .inl k ∈ P) :
    addrOrAlloc sb s (view i) k = .error outOfBlocks ∧
        freeBlocks sb s < (missing P s.data (view i)).card ∨
      ∃ b ip' s', addrOrAlloc sb s (view i) k = .ok (b, ip', s') ∧ Extends sb lost s s' view i ip' ∧
        Spent sb P s s' (view i) ip' ∧ b = ip'.addrs k ∧ b ≠ 0 := by
  by_cases empty : (view i).addrs k = 0
  · have round : addrOrAlloc sb s (view i) k =
        (balloc sb s >>= fun r => .ok (r.1, (view i).setAddr k r.1, r.2)) := if_pos empty
    rw [round]
    have null : ptr s.data (view i) (.inl k) = 0 := empty
    rcases balloc_cases sb s with ⟨failed, none⟩ | ⟨b, s', ran, allocated⟩
    · rw [failed]
      exact .inl ⟨rfl, short_of_empty none wanted null⟩
    · rw [bind_eq ran]
      have high := allocated.high sound
      have start := bmap_low sb
      have value := setAddr_self (view i) k b
      have elsewhere : ∀ slot', slot' ≠ .inl k →
          ptr s'.data ((view i).setAddr k b) slot' = ptr s.data (view i) slot' := by
        intro slot' other
        cases slot' with
        | inl k' => exact setAddr_of_ne _ (fun same => other (congrArg _ same)) b
        | inr j =>
          by_cases indirect : k = 12
          · subst indirect
            rw [ptr_absent empty, ptr_entry (by rw [value]; omega), value, allocated.zero]
            exact getUint_zero j
          · have still : ((view i).setAddr k b).addrs 12 = (view i).addrs 12 :=
              setAddr_of_ne _ (fun same => indirect same.symm) b
            by_cases none : (view i).addrs 12 = 0
            · rw [ptr_absent none, ptr_absent (still.trans none)]
            · have inUse := sound.ptr_used live
                (show ptr s.data (view i) (.inl 12) ≠ 0 from none)
              rw [ptr_entry none, ptr_entry (by rw [still]; exact none), still]
              exact congrArg (getUint · j) (allocated.kept inUse)
      refine .inr ⟨b, _, s', rfl, ?_, allocated.spent high (fun _ _ => rfl) null ?_ elsewhere wanted,
        value.symm, by omega⟩
      · refine allocated.extends sound live null rfl ?_ value elsewhere fun x => .inl rfl
        intro small k'
        have inside := allocated.inside
        have fits := sb.sizeFits
        by_cases here : k' = k
        · rw [here, value]
          omega
        · rw [setAddr_of_ne _ here]
          exact small k'
      · change ((view i).setAddr k b).addrs k ≠ 0
        omega
  · rw [addrOrAlloc_present empty]
    exact .inr ⟨_, view i, s, rfl, .refl sound i, rfl, rfl, empty⟩

theorem entryOrAlloc_cases (sound : Sound sb lost s view) (live : Live sb view i)
    (indirect : (view i).addrs 12 ≠ 0) (j : Fin 256) (wanted : .inr j ∈ P) :
    entryOrAlloc sb s ((view i).addrs 12) j = .error outOfBlocks ∧
        freeBlocks sb s < (missing P s.data (view i)).card ∨
      ∃ b s', entryOrAlloc sb s ((view i).addrs 12) j = .ok (b, s') ∧
        Extends sb lost s s' view i (view i) ∧ Spent sb P s s' (view i) (view i) ∧
        b = ptr s'.data (view i) (.inr j) ∧ b ≠ 0 := by
  by_cases empty : getUint (s.data ((view i).addrs 12)) j = 0
  · have round : entryOrAlloc sb s ((view i).addrs 12) j = (balloc sb s >>= fun r =>
        .ok (r.1, (r.2.setData ((view i).addrs 12) (putUint (r.2.data ((view i).addrs 12)) j r.1)).logWrite
          ((view i).addrs 12))) := if_pos empty
    rw [round]
    have null : ptr s.data (view i) (.inr j) = 0 := (ptr_entry indirect j).trans empty
    rcases balloc_cases sb s with ⟨failed, none⟩ | ⟨b, s₁, ran, allocated⟩
    · rw [failed]
      exact .inl ⟨rfl, short_of_empty none wanted null⟩
    · rw [bind_eq ran]
      have high := allocated.high sound
      have start := bmap_low sb
      have inside := allocated.inside
      have fits := sb.sizeFits
      have inUse : InUse sb s ((view i).addrs 12) :=
        sound.ptr_used live (show ptr s.data (view i) (.inl 12) ≠ 0 from indirect)
      have content : ((s₁.setData ((view i).addrs 12)
          (putUint (s₁.data ((view i).addrs 12)) j b)).logWrite ((view i).addrs 12)).data
            ((view i).addrs 12) = putUint (s.data ((view i).addrs 12)) j b := by
        refine (update_self _ _ _).trans ?_
        rw [allocated.kept inUse]
      have value : ptr ((s₁.setData ((view i).addrs 12)
          (putUint (s₁.data ((view i).addrs 12)) j b)).logWrite ((view i).addrs 12)).data (view i)
            (.inr j) = b := by
        rw [ptr_entry indirect, content, getUint_putUint (by omega)]
      have elsewhere : ∀ slot', slot' ≠ .inr j → ptr ((s₁.setData ((view i).addrs 12)
          (putUint (s₁.data ((view i).addrs 12)) j b)).logWrite ((view i).addrs 12)).data (view i)
            slot' = ptr s.data (view i) slot' := by
        intro slot' other
        cases slot' with
        | inl k => rfl
        | inr j' =>
          have differ : j'.val ≠ j.val := fun same => other (congrArg _ (Fin.ext same))
          rw [ptr_entry indirect, ptr_entry indirect, content, getUint_putUint_of_ne differ]
      refine .inr ⟨b, _, rfl, allocated.extends sound live null rfl id value elsewhere ?_,
        allocated.spent high ?_ null (by rw [value]; omega) elsewhere wanted, value.symm, by omega⟩
      · intro x
        by_cases here : x = (view i).addrs 12
        · exact .inr ⟨here, by rw [here]; exact indirect⟩
        · exact .inl (update_of_ne here _ _)
      · intro x small
        refine bit_congr (update_of_ne ?_ _ _)
        have below := bblock_low small
        have above := inUse.1
        omega
  · rw [entryOrAlloc_present empty]
    exact .inr ⟨_, s, rfl, .refl sound i, rfl, (ptr_entry indirect j).symm, empty⟩

theorem blockAt_direct (direct : bn < NDIRECT) :
    blockAt data ip bn = ip.addrs ⟨bn, lt_of_direct direct⟩ := by
  unfold blockAt slotOf
  rw [dif_pos direct]
  rfl

theorem blockAt_indirect (direct : ¬ bn < NDIRECT)
    (inside : bn - NDIRECT < 256) :
    blockAt data ip bn = ptr data ip (.inr ⟨bn - NDIRECT, inside⟩) := by
  unfold blockAt slotOf
  rw [dif_neg direct, dif_pos inside]

theorem blockAt_outside (outside : MAXFILE ≤ bn) :
    blockAt data ip bn = 0 := by
  have limit : MAXFILE = NDIRECT + 256 := rfl
  unfold blockAt slotOf
  rw [dif_neg (by omega), dif_neg (by omega)]

theorem bmap_present (points : blockAt s.data ip bn ≠ 0) :
    bmap sb s ip bn = .ok (blockAt s.data ip bn, ip, s) := by
  have limit : MAXFILE = NDIRECT + 256 := rfl
  have inside : bn < MAXFILE := by
    by_contra outside
    exact points (blockAt_outside (Nat.le_of_not_lt outside))
  unfold bmap
  by_cases direct : bn < NDIRECT
  · rw [dif_pos direct]
    rw [blockAt_direct direct] at points ⊢
    exact addrOrAlloc_present points
  · have entry : bn - NDIRECT < NINDIRECT := by
      change bn - NDIRECT < 256
      omega
    rw [dif_neg direct, if_pos entry]
    rw [blockAt_indirect direct entry] at points ⊢
    have indirect : ip.addrs 12 ≠ 0 := fun none => points (ptr_absent none _)
    rw [ptr_entry indirect] at points ⊢
    have present : entryOrAlloc sb s (ip.addrs 12) (bn - NDIRECT) =
        .ok (getUint (s.data (ip.addrs 12)) (bn - NDIRECT), s) := entryOrAlloc_present points
    rw [bind_eq (addrOrAlloc_present indirect)]
    dsimp only
    rw [bind_eq present]
    rfl

theorem Spent.short (spent : Spent sb P s s' ip ip')
    (short : freeBlocks sb s' < (missing P s'.data ip').card) :
    freeBlocks sb s < (missing P s.data ip).card := by
  unfold Spent at spent
  omega

/-- The slots that block `bn` of a file needs: its own, and the indirect block. -/
def Needs (bn : Nat) (slot : Slot) : Prop := slotOf bn = some slot ∨ NDIRECT ≤ bn ∧ slot = .inl 12

/-- `bmap` gives block `bn` of the file, and extends the inode when the file has none. -/
theorem bmap_cases (sound : Sound sb lost s view) (live : Live sb view i)
    (inside : bn < MAXFILE) (wanted : ∀ slot, Needs bn slot → slot ∈ P) :
    (bmap sb s (view i) bn = .error outOfBlocks ∧
        freeBlocks sb s < (missing P s.data (view i)).card) ∨
      ∃ ip' s', bmap sb s (view i) bn = .ok (blockAt s'.data ip' bn, ip', s') ∧
        Extends sb lost s s' view i ip' ∧ Spent sb P s s' (view i) ip' ∧ blockAt s'.data ip' bn ≠ 0 := by
  have limit : MAXFILE = NDIRECT + 256 := rfl
  unfold bmap
  by_cases direct : bn < NDIRECT
  · rw [dif_pos direct]
    rcases addrOrAlloc_cases sound live ⟨bn, _⟩ (wanted _ (.inl (dif_pos direct))) with
      failed | ⟨b, ip', s', ran, extended, spent, rfl, nonnull⟩
    · exact .inl failed
    · rw [ran]
      exact .inr ⟨ip', s', by rw [blockAt_direct direct], extended, spent,
        by rw [blockAt_direct direct]; exact nonnull⟩
  · have entry : bn - NDIRECT < NINDIRECT := by
      change bn - NDIRECT < 256
      omega
    rw [dif_neg direct, if_pos entry]
    rcases addrOrAlloc_cases sound live 12 (wanted _ (.inr ⟨Nat.le_of_not_lt direct, rfl⟩)) with
      ⟨failed, short⟩ | ⟨bp, ip₁, s₁, ran, first, spent, rfl, nonnull⟩
    · rw [failed]
      exact .inl ⟨rfl, short⟩
    · rw [bind_eq ran]
      have alive := first.live.mpr live
      have again := entryOrAlloc_cases first.sound alive (by rw [update_self]; exact nonnull)
        ⟨bn - NDIRECT, entry⟩ (wanted _ (.inl ((dif_neg direct).trans (dif_pos entry))))
      rw [update_self] at again
      rcases again with ⟨failed, short⟩ | ⟨b, s₂, ran', second, spent', rfl, nonnull'⟩
      · dsimp only
        rw [failed]
        exact .inl ⟨rfl, spent.short short⟩
      · refine .inr ⟨ip₁, s₂, ?_, first.trans second, ?_, by rw [blockAt_indirect direct entry]; exact nonnull'⟩
        · dsimp only
          rw [bind_eq ran', blockAt_indirect direct entry]
          rfl
        · unfold Spent at *
          omega

end OsbKernel.Blocks
