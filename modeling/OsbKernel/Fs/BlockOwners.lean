import OsbKernel.Fs.InodeBits
import OsbKernel.Lib.Ownership

/-!
# Who owns a block

The block pointers of the inodes, and the invariant that ties them to the free map: a data block is
marked in use exactly when one pointer of one inode names it.
-/

namespace OsbKernel.Blocks

open Function Paging ExceptBind Ownership

/-- A place for a block pointer: an entry of `addrs`, or of the indirect block. -/
abbrev Slot := Fin 13 ⊕ Fin 256

def ptr (data : Nat → Data) (ip : Inode) : Slot → Nat
  | .inl k => ip.addrs k
  | .inr j => if ip.addrs 12 = 0 then 0 else getUint (data (ip.addrs 12)) j

/-- The slot of block `bn` of a file. -/
def slotOf (bn : Nat) : Option Slot :=
  if h : bn < NDIRECT then some (.inl ⟨bn, lt_of_direct h⟩)
  else if h : bn - NDIRECT < 256 then some (.inr ⟨bn - NDIRECT, h⟩)
  else none

/-- The disk block of block `bn` of a file, 0 when there is none. -/
def blockAt (data : Nat → Data) (ip : Inode) (bn : Nat) : Nat :=
  match slotOf bn with
  | none => 0
  | some slot => ptr data ip slot

def nonzero (b : Nat) : Option Nat := if b = 0 then none else some b

theorem nonzero_eq_some {b x : Nat} : nonzero b = some x ↔ b = x ∧ b ≠ 0 := by
  unfold nonzero
  by_cases zero : b = 0
  · rw [if_pos zero]
    exact ⟨fun impossible => absurd impossible.symm (Option.some_ne_none x),
      fun known => absurd zero known.2⟩
  · rw [if_neg zero]
    exact ⟨fun same => ⟨Option.some.inj same, zero⟩, fun known => congrArg some known.1⟩

theorem nonzero_zero : nonzero 0 = none := if_pos rfl

section Owners

variable (sb : Superblock)

def Live (view : Nat → Inode) (i : Nat) : Prop := i < sb.ninodes ∧ (view i).type ≠ 0

instance (view : Nat → Inode) (i : Nat) : Decidable (Live sb view i) :=
  inferInstanceAs (Decidable (_ ∧ _))

/-- The block that a slot of an inode owns.  `view` has the current inodes, in memory or on the
disk. -/
def owners (data : Nat → Data) (view : Nat → Inode) (x : Nat × Slot) : Option Nat :=
  if Live sb view x.1 then nonzero (ptr data (view x.1) x.2) else none

def bit (s : Store) (b : Nat) : Bool := bitSet (s.data (BBLOCK sb b)) (b % BPB)

def InUse (s : Store) (b : Nat) : Prop := sb.dataStart ≤ b ∧ b < sb.size ∧ bit sb s b = true

/-- Data blocks in use are owned once, apart from the blocks `lost` that are marked though no pointer
names them; all other blocks are marked. -/
structure Sound (lost : Nat → Prop) (s : Store) (view : Nat → Inode) : Prop where
  owned : Exact (owners sb s.data view) (fun b => InUse sb s b ∧ ¬ lost b)
  spare : ∀ b, lost b → InUse sb s b
  reserved : ∀ b < sb.dataStart, bit sb s b = true

end Owners

section Facts

variable {sb : Superblock} {lost : Nat → Prop} {s s' : Store} {view view' : Nat → Inode}
  {i j b : Nat} {ip : Inode} {slot : Slot}

theorem bblock_low (inside : b < sb.size) : BBLOCK sb b < sb.dataStart := by
  have fits := sb.bitmapFits
  have page : b / BPB ≤ sb.size / BPB := Nat.div_le_div_right inside.le
  unfold BBLOCK Superblock.dataStart
  omega

theorem bblock_high (sb : Superblock) (b : Nat) : sb.bmapstart ≤ BBLOCK sb b := Nat.le_add_left _ _

theorem bblock_mod_iff {x : Nat} (page : BBLOCK sb x = BBLOCK sb b) : x % BPB = b % BPB ↔ x = b := by
  have whole := Nat.div_add_mod x BPB
  have whole' := Nat.div_add_mod b BPB
  have number : x / BPB = b / BPB := by
    unfold BBLOCK at page
    omega
  rw [number] at whole
  omega

theorem iblock_low (inside : i < sb.ninodes) : IBLOCK sb i < sb.bmapstart := by
  have fits := sb.inodesFit
  have page : i / IPB ≤ sb.ninodes / IPB := Nat.div_le_div_right inside.le
  unfold IBLOCK
  omega

theorem bmap_low (sb : Superblock) : sb.bmapstart < sb.dataStart :=
  Nat.lt_of_le_of_lt (Nat.le_add_right _ _) sb.bitmapFits

theorem owners_live (live : Live sb view i) :
    owners sb s.data view (i, slot) = nonzero (ptr s.data (view i) slot) := if_pos live

theorem Sound.ptr_used (sound : Sound sb lost s view) (live : Live sb view i)
    (points : ptr s.data (view i) slot ≠ 0) : InUse sb s (ptr s.data (view i) slot) := by
  have held : owners sb s.data view (i, slot) = some (ptr s.data (view i) slot) := by
    rw [owners_live live]
    exact nonzero_eq_some.mpr ⟨rfl, points⟩
  exact (sound.owned.held_used held).1

theorem Sound.distinct (sound : Sound sb lost s view) (live : Live sb view i) (live' : Live sb view j)
    {slot' : Slot} (points : ptr s.data (view i) slot ≠ 0)
    (same : ptr s.data (view i) slot = ptr s.data (view j) slot') : i = j ∧ slot = slot' := by
  have first : owners sb s.data view (i, slot) = some (ptr s.data (view i) slot) := by
    rw [owners_live live]
    exact nonzero_eq_some.mpr ⟨rfl, points⟩
  have second : owners sb s.data view (j, slot') = some (ptr s.data (view i) slot) := by
    rw [owners_live live']
    exact nonzero_eq_some.mpr ⟨same.symm, by rw [← same]; exact points⟩
  exact Prod.mk.inj (sound.owned.distinct first second)

variable {data : Nat → Data}

theorem ptr_absent (none : ip.addrs 12 = 0) (j : Fin 256) :
    ptr data ip (.inr j) = 0 := if_pos none

theorem ptr_entry (some : ip.addrs 12 ≠ 0) (j : Fin 256) :
    ptr data ip (.inr j) = getUint (data (ip.addrs 12)) j := if_neg some

theorem ptr_congr {data' : Nat → Data}
    (same : ip.addrs 12 ≠ 0 → data' (ip.addrs 12) = data (ip.addrs 12)) :
    ptr data' ip slot = ptr data ip slot := by
  cases slot with
  | inl k => rfl
  | inr j =>
    by_cases none : ip.addrs 12 = 0
    · rw [ptr_absent none, ptr_absent none]
    · rw [ptr_entry none, ptr_entry none, same none]

theorem owners_congr {data' : Nat → Data} (views : ∀ i < sb.ninodes, view' i = view i)
    (same : ∀ i, Live sb view i → (view i).addrs 12 ≠ 0 →
      data' ((view i).addrs 12) = data ((view i).addrs 12)) (x : Nat × Slot) :
    owners sb data' view' x = owners sb data view x := by
  obtain ⟨i, slot⟩ := x
  unfold owners
  by_cases inside : i < sb.ninodes
  · have known := views i inside
    have lives : Live sb view' i ↔ Live sb view i := by
      unfold Live
      rw [known]
    by_cases live : Live sb view i
    · rw [if_pos live, if_pos (lives.mpr live)]
      rw [known, ptr_congr (same i live)]
    · rw [if_neg live, if_neg fun also => live (lives.mp also)]
  · rw [if_neg fun live => inside live.1, if_neg fun live => inside live.1]

theorem Sound.congr (sound : Sound sb lost s view) (views : ∀ i < sb.ninodes, view' i = view i)
    (bits : ∀ b < sb.size, bit sb s' b = bit sb s b)
    (same : ∀ i, Live sb view i → (view i).addrs 12 ≠ 0 →
      s'.data ((view i).addrs 12) = s.data ((view i).addrs 12)) : Sound sb lost s' view' := by
  have small : sb.dataStart ≤ sb.size := Nat.sub_le _ _
  have uses : ∀ b, InUse sb s' b ↔ InUse sb s b := by
    intro b
    refine and_congr_right fun _ => and_congr_right fun high => ?_
    rw [bits b high]
  refine ⟨sound.owned.congr (owners_congr views same) fun b => and_congr_left' (uses b),
    fun b spare => (uses b).mpr (sound.spare b spare), ?_⟩
  · intro b low
    rw [bits b (by omega)]
    exact sound.reserved b low

theorem bit_congr (same : s'.data (BBLOCK sb b) = s.data (BBLOCK sb b)) : bit sb s' b = bit sb s b := by
  unfold bit
  rw [same]

end Facts

end OsbKernel.Blocks
