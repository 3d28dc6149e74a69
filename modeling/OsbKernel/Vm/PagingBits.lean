import OsbKernel.Lib.RadixTree
import OsbKernel.Vm.Paging
import Mathlib.Algebra.Order.Ring.Nat

/-!
# Address and entry bits

The macros of `riscv.h` as arithmetic on page numbers, and the page-table tree as a radix
tree whose cells are page-table entries.
-/

namespace OsbKernel.Paging

open FreeRadix

theorem pgsize_toNat : PGSIZE.toNat = 4096 := rfl

theorem maxva_toNat : MAXVA.toNat = 2 ^ 38 := rfl

def vpn (a : Word) : Nat := a.toNat / 4096

/-- The number of pages below `MAXVA`. -/
def VPNS : Nat := 2 ^ 26

def pageAddr (v : Nat) : Word := BitVec.ofNat 64 (v * 4096)

theorem vpn_lt {a : Word} (below : ¬ MAXVA ≤ a) : vpn a < VPNS := by
  rw [BitVec.le_def, maxva_toNat] at below
  unfold vpn VPNS
  omega

variable {v : Nat} {pa flags : Word}

theorem pageAddr_toNat (below : v ≤ VPNS) : (pageAddr v).toNat = v * 4096 := by
  unfold VPNS at below
  rw [pageAddr, BitVec.toNat_ofNat]
  omega

theorem vpn_pageAddr (below : v ≤ VPNS) : vpn (pageAddr v) = v := by
  rw [vpn, pageAddr_toNat below]
  omega

theorem pageAddr_succ (v : Nat) : pageAddr v + PGSIZE = pageAddr (v + 1) := by
  apply BitVec.eq_of_toNat_eq
  rw [BitVec.toNat_add, pageAddr, pageAddr, BitVec.toNat_ofNat, BitVec.toNat_ofNat, pgsize_toNat]
  omega

theorem mask_bits : ∀ i < 64, (~~~(PGSIZE - 1)).getLsbD i = decide (12 ≤ i) := by decide

theorem pgrounddown_eq (a : Word) : PGROUNDDOWN a = (a >>> 12) <<< 12 := by
  refine BitVec.eq_of_getLsbD_eq fun i inside => ?_
  rw [PGROUNDDOWN, BitVec.getLsbD_and, mask_bits i inside, BitVec.getLsbD_shiftLeft,
    BitVec.getLsbD_ushiftRight]
  by_cases low : i < 12
  · simp [low, Nat.not_le.mpr low]
  · have high : 12 ≤ i := by omega
    simp [low, high, inside]

theorem pgrounddown_toNat (a : Word) : (PGROUNDDOWN a).toNat = a.toNat / 4096 * 4096 := by
  rw [pgrounddown_eq, BitVec.toNat_shiftLeft, BitVec.toNat_ushiftRight, Nat.shiftRight_eq_div_pow,
    Nat.shiftLeft_eq]
  omega

theorem pgrounddown_pageAddr (a : Word) : PGROUNDDOWN a = pageAddr (vpn a) := by
  apply BitVec.eq_of_toNat_eq
  rw [pgrounddown_toNat, pageAddr, BitVec.toNat_ofNat, vpn]
  omega

def pagesBelow (sz : Word) : Nat := (sz.toNat + 4095) / 4096

theorem pgroundup_pageAddr {sz : Word} (below : sz.toNat ≤ 2 ^ 38) :
    PGROUNDUP sz = pageAddr (pagesBelow sz) := by
  have same : PGROUNDUP sz = PGROUNDDOWN (sz + PGSIZE - 1) := rfl
  rw [same, pgrounddown_pageAddr, vpn, pagesBelow]
  have sum : (sz + PGSIZE - 1).toNat = sz.toNat + 4095 := by
    rw [BitVec.toNat_sub, BitVec.toNat_add, pgsize_toNat]
    have one : (1 : Word).toNat = 1 := rfl
    omega
  rw [sum]

theorem pa2pte_toNat (pa : Word) : (PA2PTE pa).toNat = pa.toNat / 4096 * 1024 := by
  rw [PA2PTE, BitVec.toNat_shiftLeft, BitVec.toNat_ushiftRight, Nat.shiftRight_eq_div_pow,
    Nat.shiftLeft_eq]
  omega

theorem pte_toNat (small : flags.toNat < 1024) :
    (PA2PTE pa ||| flags).toNat = pa.toNat / 4096 * 1024 + flags.toNat := by
  have packed := Nat.shiftLeft_add_eq_or_of_lt (i := 10) (b := flags.toNat) small (pa.toNat / 4096)
  rw [Nat.shiftLeft_eq] at packed
  rw [BitVec.toNat_or, pa2pte_toNat]
  exact packed.symm

theorem pte2pa_pte (small : flags.toNat < 1024) :
    PTE2PA (PA2PTE pa ||| flags) = PGROUNDDOWN pa := by
  apply BitVec.eq_of_toNat_eq
  rw [PTE2PA, BitVec.toNat_shiftLeft, BitVec.toNat_ushiftRight, Nat.shiftRight_eq_div_pow,
    Nat.shiftLeft_eq, pte_toNat small, pgrounddown_toNat]
  omega

theorem pte_flags_pte (small : flags.toNat < 1024) :
    PTE_FLAGS (PA2PTE pa ||| flags) = flags := by
  apply BitVec.eq_of_toNat_eq
  have mask : (0x3FF : Word).toNat = 2 ^ 10 - 1 := rfl
  rw [PTE_FLAGS, BitVec.toNat_and, mask, Nat.and_two_pow_sub_one_eq_mod, pte_toNat small]
  omega

theorem pgrounddown_of_aligned (aligned : pa.toNat % 4096 = 0) : PGROUNDDOWN pa = pa := by
  apply BitVec.eq_of_toNat_eq
  rw [pgrounddown_toNat]
  omega

theorem or_small {a b : Word} (small : a.toNat < 1024) (small' : b.toNat < 1024) :
    (a ||| b).toNat < 1024 := by
  exact Nat.or_lt_two_pow (n := 10) small small'

theorem valid_or (a : Word) : (a ||| PTE_V) &&& PTE_V ≠ 0 := by
  intro zero
  have bit := congrArg (fun w : Word => w.getLsbD 0) zero
  simp only [BitVec.getLsbD_and, BitVec.getLsbD_or] at bit
  have one : PTE_V.getLsbD 0 = true := by decide
  rw [one] at bit
  simp at bit

theorem zero_invalid : (0 : Word) &&& PTE_V = 0 := by decide

def format : Format Word Word where
  valid pte := decide (pte &&& PTE_V ≠ 0)
  ptr := PTE2PA
  width := 512
  link pte := pte &&& (PTE_R ||| PTE_W ||| PTE_X) = 0

def indices (v level : Nat) : Nat := v / 512 ^ level % 512

def tables (mem : Memory) (pt : Word) : List Word := format.nodes mem 2 pt

def pteAt (mem : Memory) (pt : Word) (v : Nat) : Option Word :=
  format.lookup mem (indices v) 2 pt

theorem PX_eq (level : Nat) (va : Word) : PX level va = indices (vpn va) level := by
  have mask : (0x1FF : Word).toNat = 2 ^ 9 - 1 := rfl
  have power : 2 ^ (12 + 9 * level) = 4096 * 512 ^ level := by
    rw [Nat.pow_add, Nat.pow_mul]
  rw [PX, PXSHIFT, BitVec.toNat_and, BitVec.toNat_ushiftRight, Nat.shiftRight_eq_div_pow, mask,
    Nat.and_two_pow_sub_one_eq_mod, power, ← Nat.div_div_eq_div_mul]
  rfl

theorem indices_lt (v level : Nat) : indices v level < format.width :=
  Nat.mod_lt _ (by decide)

theorem indices_differ {w : Nat} (inside : v < 2 ^ 27) (inside' : w < 2 ^ 27) (differ : w ≠ v) :
    ∃ k, k ≤ 2 ∧ indices w k ≠ indices v k := by
  by_contra all
  have agree : ∀ k, k ≤ 2 → indices w k = indices v k := by
    intro k below
    by_contra other
    exact all ⟨k, below, other⟩
  have low := agree 0 (by omega)
  have mid := agree 1 (by omega)
  have high := agree 2 (by omega)
  unfold indices at low mid high
  omega

/-- A table whose inner entries are links, with nothing above `MAXVA`. -/
structure Tidy (mem : Memory) (pt : Word) : Prop where
  linked : format.Linked mem 2 pt
  upper : ∀ v, VPNS ≤ v → v < 2 ^ 27 → pteAt mem pt v = none

theorem Tidy.congr {mem mem' : Memory} {pt : Word} (tidy : Tidy mem pt)
    (same : ∀ x ∈ tables mem pt, mem' x = mem x) : Tidy mem' pt := by
  refine ⟨Format.linked_congr same tidy.linked, ?_⟩
  intro v low high
  exact (Format.lookup_congr (indices_lt v) same).trans (tidy.upper v low high)

theorem valid_iff {pte : Word} : format.valid pte = true ↔ pte &&& PTE_V ≠ 0 := decide_eq_true_iff

theorem invalid_iff {pte : Word} : format.valid pte = false ↔ pte &&& PTE_V = 0 := by
  rw [← Bool.not_eq_true, valid_iff, not_not]

end OsbKernel.Paging
