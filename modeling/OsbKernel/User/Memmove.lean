import OsbKernel.Vm.UserMemory

/-!
# The two versions of `memmove`

`kernel/string.c` copies backward only when the destination overlaps the source from above;
`user/ulib.c` copies backward whenever the source is not above the destination.
-/

namespace OsbKernel

open Function Paging

def copyUp (mem : Word → Byte) (d s : Word) : Nat → Word → Byte
  | 0 => mem
  | n + 1 => copyUp (update mem d (mem s)) (d + 1) (s + 1) n

def copyDown (mem : Word → Byte) (d s : Word) : Nat → Word → Byte
  | 0 => mem
  | n + 1 => copyDown (update mem (d - 1) (mem (s - 1))) (d - 1) (s - 1) n

/-- `memmove` of the kernel: the memory, and the result. -/
def Kernel.memmove (mem : Word → Byte) (dst src : Word) (n : BitVec 32) : (Word → Byte) × Word :=
  if n = 0 then (mem, dst)
  else if src < dst ∧ dst < src + n.setWidth 64 then
    (copyDown mem (dst + n.setWidth 64) (src + n.setWidth 64) n.toNat, dst)
  else (copyUp mem dst src n.toNat, dst)

/-- `memmove` of the user library, whose `n` is an `int`. -/
def Ulib.memmove (mem : Word → Byte) (vdst vsrc : Word) (n : BitVec 32) : (Word → Byte) × Word :=
  if vdst < vsrc then (copyUp mem vdst vsrc n.toInt.toNat, vdst)
  else (copyDown mem (vdst + n.signExtend 64) (vsrc + n.signExtend 64) n.toInt.toNat, vdst)

/-- The `n` bytes at `dst` are those that were at `src`, and all other bytes are as before. -/
structure Moved (mem mem' : Word → Byte) (dst src : Word) (n : Nat) : Prop where
  moved : ∀ i < n, mem' (dst + BitVec.ofNat 64 i) = mem (src + BitVec.ofNat 64 i)
  kept : ∀ a, (∀ i < n, a ≠ dst + BitVec.ofNat 64 i) → mem' a = mem a

variable {mem : Word → Byte} {d s : Word} {n : Nat}

theorem step_up (p : Word) (i : Nat) : p + 1 + BitVec.ofNat 64 i = p + BitVec.ofNat 64 (i + 1) := by
  rw [Nat.add_comm i 1, BitVec.ofNat_add, ← BitVec.add_assoc]
  rfl

def Apart (p q : Word) (n : Nat) : Prop :=
  ∀ i j, i < j → j < n → p + BitVec.ofNat 64 i ≠ q + BitVec.ofNat 64 j

/-- Copying upward is right when the destination does not run into the rest of the source. -/
theorem copyUp_moves (apart : Apart d s n) (small : n ≤ 2 ^ 64) :
    Moved mem (copyUp mem d s n) d s n := by
  induction n generalizing mem d s with
  | zero => exact ⟨fun _ inside => absurd inside (Nat.not_lt_zero _), fun _ _ => rfl⟩
  | succ n ih =>
    have zero : ∀ p : Word, p + BitVec.ofNat 64 0 = p := BitVec.add_zero
    have later : Apart (d + 1) (s + 1) n := by
      intro i j less inside
      rw [step_up, step_up]
      exact apart (i + 1) (j + 1) (by omega) (by omega)
    obtain ⟨moved, kept⟩ : Moved (update mem d (mem s)) _ (d + 1) (s + 1) n := ih later (by omega)
    refine ⟨?_, ?_⟩
    · intro i inside
      cases i with
      | zero =>
        rw [zero, zero, copyUp, kept, update_self]
        intro i small same
        rw [step_up] at same
        have value := congrArg BitVec.toNat same
        rw [BitVec.toNat_add, BitVec.toNat_ofNat] at value
        omega
      | succ i =>
        rw [copyUp, ← step_up, moved i (by omega), step_up, update_of_ne]
        have other := apart 0 (i + 1) (by omega) inside
        rw [zero] at other
        exact other.symm
    · intro a outside
      have first := outside 0 (by omega)
      rw [zero] at first
      rw [copyUp, kept, update_of_ne first]
      intro i inside
      rw [step_up]
      exact outside (i + 1) (by omega)

/-- Copying downward is right when the source does not run into the rest of the destination. -/
theorem copyDown_moves (apart : Apart s d n) (small : n ≤ 2 ^ 64) :
    Moved mem (copyDown mem (d + BitVec.ofNat 64 n) (s + BitVec.ofNat 64 n) n) d s n := by
  induction n generalizing mem with
  | zero => exact ⟨fun _ inside => absurd inside (Nat.not_lt_zero _), fun _ _ => rfl⟩
  | succ n ih =>
    have back : ∀ p : Word, p + BitVec.ofNat 64 (n + 1) - 1 = p + BitVec.ofNat 64 n := by
      intro p
      rw [BitVec.ofNat_add, ← BitVec.add_assoc]
      exact BitVec.add_sub_cancel _ _
    have earlier : Apart s d n := fun i j less inside => apart i j less (by omega)
    obtain ⟨moved, kept⟩ : Moved (update mem (d + BitVec.ofNat 64 n) (mem (s + BitVec.ofNat 64 n))) _ d s n :=
      ih earlier (by omega)
    rw [copyDown, back, back]
    refine ⟨?_, ?_⟩
    · intro i inside
      by_cases last : i = n
      · rw [last, kept, update_self]
        intro j below same
        have value := congrArg BitVec.toNat same
        rw [BitVec.toNat_add, BitVec.toNat_add, BitVec.toNat_ofNat, BitVec.toNat_ofNat] at value
        omega
      · rw [moved i (by omega), update_of_ne]
        exact apart i n (by omega) (by omega)
    · intro a outside
      rw [kept a fun i inside => outside i (by omega), update_of_ne (outside n (by omega))]

theorem apart_of_le {p q : Word} (order : p ≤ q) (room : q.toNat + n ≤ 2 ^ 64) : Apart p q n := by
  intro i j less inside same
  have value := congrArg BitVec.toNat same
  rw [BitVec.le_def] at order
  rw [BitVec.toNat_add, BitVec.toNat_add, BitVec.toNat_ofNat, BitVec.toNat_ofNat] at value
  omega

theorem apart_of_gap {p q : Word} (gap : q.toNat + n ≤ p.toNat) : Apart p q n := by
  intro i j less inside same
  have value := congrArg BitVec.toNat same
  rw [BitVec.toNat_add, BitVec.toNat_add, BitVec.toNat_ofNat, BitVec.toNat_ofNat] at value
  omega

theorem Kernel.memmove_moves (mem : Word → Byte) (dst src : Word) (n : BitVec 32)
    (srcRoom : src.toNat + n.toNat ≤ 2 ^ 64) (dstRoom : dst.toNat + n.toNat ≤ 2 ^ 64) :
    Moved mem (Kernel.memmove mem dst src n).1 dst src n.toNat := by
  have width : n.setWidth 64 = BitVec.ofNat 64 n.toNat :=
    BitVec.eq_of_toNat_eq (by rw [BitVec.toNat_setWidth, BitVec.toNat_ofNat])
  unfold Kernel.memmove
  by_cases none : n = 0
  · rw [if_pos none, none]
    exact ⟨fun _ inside => absurd inside (Nat.not_lt_zero _), fun _ _ => rfl⟩
  · rw [if_neg none]
    by_cases overlap : src < dst ∧ dst < src + n.setWidth 64
    · rw [if_pos overlap, width]
      exact copyDown_moves (apart_of_le (BitVec.le_of_lt overlap.1) dstRoom) (by omega)
    · rw [if_neg overlap]
      refine copyUp_moves ?_ (by omega)
      by_cases above : src < dst
      · have gap : ¬ dst < src + n.setWidth 64 := fun inside => overlap ⟨above, inside⟩
        rw [BitVec.lt_def] at above gap
        rw [width, BitVec.toNat_add, BitVec.toNat_ofNat] at gap
        exact apart_of_gap (by omega)
      · exact apart_of_le (BitVec.not_lt.mp above) srcRoom

theorem Ulib.memmove_moves (mem : Word → Byte) (dst src : Word) (n : BitVec 32) (sign : 0 ≤ n.toInt)
    (srcRoom : src.toNat + n.toNat ≤ 2 ^ 64) (dstRoom : dst.toNat + n.toNat ≤ 2 ^ 64) :
    Moved mem (Ulib.memmove mem dst src n).1 dst src n.toNat := by
  have value : n.toInt = n.toNat := by
    rw [BitVec.toInt_eq_toNat_cond] at sign ⊢
    split at sign
    · rw [if_pos ‹_›]
    · omega
  have width : n.signExtend 64 = BitVec.ofNat 64 n.toNat := by
    rw [BitVec.signExtend, value, BitVec.ofInt_natCast]
  unfold Ulib.memmove
  rw [value, Int.toNat_natCast]
  by_cases above : dst < src
  · rw [if_pos above]
    exact copyUp_moves (apart_of_le (BitVec.le_of_lt above) srcRoom) (by omega)
  · rw [if_neg above, width]
    exact copyDown_moves (apart_of_le (BitVec.not_lt.mp above) dstRoom) (by omega)

theorem Moved.unique {mem' mem'' : Word → Byte} {dst src : Word} (first : Moved mem mem' dst src n)
    (second : Moved mem mem'' dst src n) : mem' = mem'' := by
  funext a
  by_cases inside : ∃ i < n, a = dst + BitVec.ofNat 64 i
  · obtain ⟨i, small, rfl⟩ := inside
    rw [first.moved i small, second.moved i small]
  · have outside : ∀ i < n, a ≠ dst + BitVec.ofNat 64 i := fun i small same => inside ⟨i, small, same⟩
    rw [first.kept a outside, second.kept a outside]

theorem Kernel.memmove_result (mem : Word → Byte) (dst src : Word) (n : BitVec 32) :
    (Kernel.memmove mem dst src n).2 = dst := by
  unfold Kernel.memmove
  split
  · rfl
  · split <;> rfl

theorem Ulib.memmove_result (mem : Word → Byte) (dst src : Word) (n : BitVec 32) :
    (Ulib.memmove mem dst src n).2 = dst := by
  unfold Ulib.memmove
  split <;> rfl

/-- Both versions of `memmove` move the bytes whatever the overlap, and agree. -/
theorem memmove_overlap_safe (mem : Word → Byte) (dst src : Word) (n : BitVec 32)
    (srcRoom : src.toNat + n.toNat ≤ 2 ^ 64) (dstRoom : dst.toNat + n.toNat ≤ 2 ^ 64) :
    Moved mem (Kernel.memmove mem dst src n).1 dst src n.toNat ∧
      (0 ≤ n.toInt → Moved mem (Ulib.memmove mem dst src n).1 dst src n.toNat ∧
        Ulib.memmove mem dst src n = Kernel.memmove mem dst src n) := by
  have kernel := Kernel.memmove_moves mem dst src n srcRoom dstRoom
  refine ⟨kernel, fun sign => ?_⟩
  have user := Ulib.memmove_moves mem dst src n sign srcRoom dstRoom
  exact ⟨user, Prod.ext (user.unique kernel) ((Ulib.memmove_result mem dst src n).trans
    (Kernel.memmove_result mem dst src n).symm)⟩

/-- Three bytes move up by one. -/
theorem memmove_overlap_safe_three :
    Moved (fun a => a.setWidth 8) (Kernel.memmove (fun a => a.setWidth 8) 6 5 3).1 6 5 3 ∧
      Ulib.memmove (fun a => a.setWidth 8) 6 5 3 = Kernel.memmove (fun a => a.setWidth 8) 6 5 3 := by
  have both := memmove_overlap_safe (fun a => a.setWidth 8) 6 5 3 (by decide) (by decide)
  exact ⟨both.1, (both.2 (by decide)).2⟩

end OsbKernel
