import OsbKernel.Fs.Inode
import OsbKernel.Vm.UserCopy

/-!
# `either_copyin` and `either_copyout`

The bytes that a write gets from its source up to the first one that is missing, and the bytes that
a read lays over its destination.
-/

namespace OsbKernel.Blocks

open Function Paging PartialMap

variable {K : Type} [Allocator K] {m : Paging.Machine K} {pt : Word}

/-- The bytes that stand in a map from `a` on, at most `len` of them, up to the first one that is
missing; the flag says that none is. -/
structure Fetches (mem : Nat → Option Byte) (a len : Nat) (r : List Byte × Bool) : Prop where
  bound : r.1.length ≤ len
  holds : Holds mem a r.1
  returns : r.2 = true ↔ r.1.length = len
  stopped : r.1.length < len → mem (a + r.1.length) = none

theorem fetches_nothing (mem : Nat → Option Byte) (a : Nat) : Fetches mem a 0 ([], true) :=
  ⟨Nat.le_refl _, holds_nil, iff_of_true rfl rfl, fun less => absurd less (Nat.lt_irrefl _)⟩

theorem Fetches.prepend {mem : Nat → Option Byte} {a n len : Nat} {first : List Byte}
    {rest : List Byte × Bool} (holds : Holds mem a first) (length : first.length = n) (part : n ≤ len)
    (fetches : Fetches mem (a + n) (len - n) rest) :
    Fetches mem a len (first ++ rest.1, rest.2) := by
  have total : (first ++ rest.1).length = n + rest.1.length := by rw [List.length_append, length]
  have bound := fetches.bound
  refine ⟨?_, holds.append (by rw [length]; exact fetches.holds), ?_, ?_⟩
  · change (first ++ rest.1).length ≤ len
    omega
  · rw [fetches.returns, total]
    omega
  · rw [total, ← Nat.add_assoc]
    exact fun less => fetches.stopped (by omega)

theorem copyinBytes_nothing (rounds : Nat) (srcva : Word) :
    copyinBytes m pt rounds srcva 0 = ([], true) := by
  cases rounds with
  | zero => rfl
  | succ rounds => exact if_pos rfl

theorem copyinBytes_round {rounds len : Nat} {srcva : Word} (some : len ≠ 0) :
    copyinBytes m pt (rounds + 1) srcva len =
      if userPage m pt (srcva.toNat / 4096) = 0 then ([], false)
      else
        (readPage (m.mem (userPage m pt (srcva.toNat / 4096))) (srcva.toNat % 4096)
            (min (4096 - srcva.toNat % 4096) len) ++
          (copyinBytes m pt rounds (PGROUNDDOWN srcva + Paging.PGSIZE)
            (len - min (4096 - srcva.toNat % 4096) len)).1,
        (copyinBytes m pt rounds (PGROUNDDOWN srcva + Paging.PGSIZE)
          (len - min (4096 - srcva.toNat % 4096) len)).2) := by
  rw [copyinBytes, if_neg some]
  dsimp only
  rw [walkaddr_round, offset_toNat, pgsize_toNat]

theorem copyinBytes_fetches {rounds len : Nat} (enough : len ≤ rounds) (srcva : Word) :
    Fetches (userMem m pt) srcva.toNat len (copyinBytes m pt rounds srcva len) := by
  induction rounds generalizing srcva len with
  | zero =>
    obtain rfl : len = 0 := Nat.le_zero.mp enough
    exact fetches_nothing _ _
  | succ rounds ih =>
    by_cases none : len = 0
    · subst none
      exact fetches_nothing _ _
    · rw [copyinBytes_round none]
      by_cases absent : userPage m pt (srcva.toNat / 4096) = 0
      · rw [if_pos absent]
        refine ⟨Nat.zero_le _, holds_nil, iff_of_false Bool.false_ne_true (Ne.symm none), fun _ => ?_⟩
        exact userMem_none absent
      · rw [if_neg absent]
        refine Fetches.prepend (readPage_holds absent (by omega)) (readPage_length _ _ _)
          (Nat.min_le_right _ _) ?_
        by_cases last : len - min (4096 - srcva.toNat % 4096) len = 0
        · rw [last, copyinBytes_nothing]
          exact fetches_nothing _ _
        · have next := next_toNat srcva (userPage_inside absent)
          have place : (PGROUNDDOWN srcva + Paging.PGSIZE).toNat =
              srcva.toNat + min (4096 - srcva.toNat % 4096) len := by omega
          rw [← place]
          exact ih (by omega) _

/-- Byte `pos` of the source, if it can be read. -/
def Source.byte : Source K → Nat → Option Byte
  | .user m pagetable src, pos => userMem m pagetable (src + BitVec.ofNat 64 pos).toNat
  | .kernel mem src, pos => some (mem (src + BitVec.ofNat 64 pos))

theorem user_place {src : Word} {tot j : Nat}
    (mapped : ∀ i < j, userMem m pt ((src + BitVec.ofNat 64 tot).toNat + i) ≠ none) :
    (src + BitVec.ofNat 64 (tot + j)).toNat = (src + BitVec.ofNat 64 tot).toNat + j := by
  have sum : src + BitVec.ofNat 64 (tot + j) = src + BitVec.ofNat 64 tot + BitVec.ofNat 64 j := by
    rw [BitVec.ofNat_add, BitVec.add_assoc]
  cases j with
  | zero => rfl
  | succ j =>
    have low : (src + BitVec.ofNat 64 tot).toNat + j < 2 ^ 38 := by
      by_contra high
      exact mapped j (Nat.lt_succ_self j) (userMem_outside (by omega))
    rw [sum, BitVec.toNat_add, BitVec.toNat_ofNat]
    omega

/-- `either_copyin` stores the bytes of the source up to the first one that is missing. -/
theorem eitherCopyin_fetches (src : Source K) (tot len : Nat) :
    Fetches src.byte tot len (src.eitherCopyin tot len) := by
  cases src with
  | user m pt src =>
    have fetches : Fetches (userMem m pt) (src + BitVec.ofNat 64 tot).toNat len
        (copyinBytes m pt len (src + BitVec.ofNat 64 tot) len) :=
      copyinBytes_fetches (Nat.le_refl len) _
    change Fetches _ tot len (copyinBytes m pt len (src + BitVec.ofNat 64 tot) len)
    have before : ∀ i < (copyinBytes m pt len (src + BitVec.ofNat 64 tot) len).1.length,
        userMem m pt ((src + BitVec.ofNat 64 tot).toNat + i) ≠ none :=
      fun i inside => fetches.holds.some inside
    refine ⟨fetches.bound, ?_, fetches.returns, fun less => ?_⟩
    · intro j inside
      change userMem m pt (src + BitVec.ofNat 64 (tot + j)).toNat = _
      rw [user_place fun i below => before i (Nat.lt_trans below inside)]
      exact fetches.holds j inside
    · change userMem m pt (src + BitVec.ofNat 64 (tot + _)).toNat = _
      rw [user_place before]
      exact fetches.stopped less
  | kernel mem src =>
    have length : ((List.range len).map fun i => mem (src + BitVec.ofNat 64 (tot + i))).length = len := by
      rw [List.length_map, List.length_range]
    change Fetches _ tot len ((List.range len).map fun i => mem (src + BitVec.ofNat 64 (tot + i)), true)
    refine ⟨length.le, ?_, iff_of_true rfl length, fun less => ?_⟩
    · intro j inside
      rw [List.getElem?_map, List.getElem?_range (length ▸ inside)]
      rfl
    · exact absurd less (by rw [length]; exact Nat.lt_irrefl _)

def kernelMem (mem : Word → Byte) (a : Nat) : Option Byte :=
  if a < 2 ^ 64 then some (mem (BitVec.ofNat 64 a)) else none

def Dest.view : Dest K → Nat → Option Byte
  | .user m pagetable _ => userMem m pagetable
  | .kernel mem _ => kernelMem mem

def Dest.addr : Dest K → Nat
  | .user _ _ dst => dst.toNat
  | .kernel _ dst => dst.toNat

def Dest.Ok : Dest K → Prop
  | .user m pagetable _ => Separate m pagetable
  | .kernel _ _ => True

/-- `bytes` have been laid over the destination at `a`. -/
structure Laid (dst dst' : Dest K) (a : Nat) (bytes : List Byte) : Prop where
  ok : dst'.Ok
  addr : dst'.addr = dst.addr
  view : dst'.view = overwrite dst.view a bytes

theorem Laid.trans {dst dst' dst'' : Dest K} {a : Nat} {bytes more : List Byte}
    (first : Laid dst dst' a bytes) (second : Laid dst' dst'' (a + bytes.length) more) :
    Laid dst dst'' a (bytes ++ more) := by
  refine ⟨second.ok, second.addr.trans first.addr, ?_⟩
  rw [second.view, first.view, overwrite_append]

omit [Allocator K] in
theorem kernelMem_update (mem : Word → Byte) (dst : Word) (b : Byte) :
    kernelMem (update mem dst b) = overwrite (kernelMem mem) dst.toNat [b] := by
  have bound := dst.isLt
  funext a
  by_cases here : a = dst.toNat
  · rw [here, overwrite_inside (Nat.le_refl _) (by simp), Nat.sub_self, kernelMem, if_pos bound,
      BitVec.ofNat_toNat, BitVec.setWidth_eq, update_self]
    rfl
  · rw [overwrite_outside (by simp only [List.length_singleton]; omega), kernelMem, kernelMem]
    by_cases inside : a < 2 ^ 64
    · have other : BitVec.ofNat 64 a ≠ dst := by
        rintro rfl
        rw [BitVec.toNat_ofNat] at here
        omega
      rw [if_pos inside, if_pos inside, update_of_ne other]
    · rw [if_neg inside, if_neg inside]

omit [Allocator K] in
theorem kernelMem_storeBytes (mem : Word → Byte) (dst : Word) (bytes : List Byte)
    (inside : dst.toNat + bytes.length ≤ 2 ^ 64) :
    kernelMem (storeBytes mem dst bytes) = overwrite (kernelMem mem) dst.toNat bytes := by
  induction bytes generalizing mem dst with
  | nil => rw [overwrite_nil, storeBytes]
  | cons b rest ih =>
    rw [List.length_cons] at inside
    cases rest with
    | nil => exact kernelMem_update mem dst b
    | cons c rest =>
      rw [List.length_cons] at inside
      have next : (dst + 1).toNat = dst.toNat + 1 := by
        have one : (1 : Word).toNat = 1 := rfl
        rw [BitVec.toNat_add, one]
        omega
      rw [storeBytes, ih _ _ (by rw [List.length_cons]; omega), kernelMem_update, next, overwrite_cons]

theorem eitherCopyout_lays {dst : Dest K} {tot : Nat} {bytes : List Byte} (ok : dst.Ok)
    (some : bytes ≠ []) (mapped : ∀ i < bytes.length, dst.view (dst.addr + tot + i) ≠ none) :
    ∃ dst', dst.eitherCopyout tot bytes = (true, dst') ∧ Laid dst dst' (dst.addr + tot) bytes := by
  have first := mapped 0 (List.length_pos_iff.mpr some)
  cases dst with
  | user m pt dst =>
    have place : (dst + BitVec.ofNat 64 tot).toNat = dst.toNat + tot := by
      have low : dst.toNat + tot < 2 ^ 38 := by
        by_contra high
        exact first (userMem_outside (Nat.le_of_not_lt high))
      rw [BitVec.toNat_add, BitVec.toNat_ofNat]
      omega
    obtain ⟨k, copies⟩ := copyout_copies ok (dst + BitVec.ofNat 64 tot) bytes
    rw [place] at copies
    have all : k = bytes.length := by
      by_contra fewer
      have short : k < bytes.length := Nat.lt_of_le_of_ne copies.bound fewer
      exact mapped k short (copies.stopped short)
    have returned := copies.returns.mpr all
    have copied := copies.copied
    rw [all, List.take_length] at copied
    refine ⟨.user (Paging.copyout m pt (dst + BitVec.ofNat 64 tot) bytes).2 pt dst, ?_, ?_, rfl,
      copied.userMem⟩
    · unfold Dest.eitherCopyout
      dsimp only
      rw [returned]
    · exact Separate.congr ok (copied.tables ok)
  | kernel mem dst =>
    have size := List.length_pos_iff.mpr some
    have last : dst.toNat + tot + bytes.length ≤ 2 ^ 64 := by
      by_contra beyond
      refine mapped (bytes.length - 1) (by omega) (if_neg ?_)
      change ¬ dst.toNat + tot + (bytes.length - 1) < 2 ^ 64
      omega
    have place : (dst + BitVec.ofNat 64 tot).toNat = dst.toNat + tot := by
      rw [BitVec.toNat_add, BitVec.toNat_ofNat]
      omega
    refine ⟨.kernel (storeBytes mem (dst + BitVec.ofNat 64 tot) bytes) dst, rfl, trivial, rfl, ?_⟩
    change kernelMem _ = overwrite (kernelMem mem) (dst.toNat + tot) bytes
    rw [kernelMem_storeBytes _ _ _ (by omega), place]

end OsbKernel.Blocks
