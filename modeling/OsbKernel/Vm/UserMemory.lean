import OsbKernel.Lib.Overwrite
import OsbKernel.Vm.PagingMap

/-!
# Copying to and from user memory

`copyout`, `copyin` and `copyinstr` over the bytes of physical memory. A word holds its bytes from
the lowest up. The kernel's buffers are lists of bytes; each round of a loop handles the part of
the range in one page.
-/

namespace OsbKernel.Paging

open Function FreeRadix PartialMap

abbrev Byte := BitVec 8

def getByte (w : Word) (j : Nat) : Byte := (w >>> (8 * j)).setWidth 8

def setByte (w : Word) (j : Nat) (b : Byte) : Word :=
  (w &&& ~~~((0xff : Word) <<< (8 * j))) ||| (b.setWidth 64 <<< (8 * j))

def pageByte (page : Nat → Word) (k : Nat) : Byte := getByte (page (k / 8)) (k % 8)

def setPageByte (page : Nat → Word) (k : Nat) (b : Byte) : Nat → Word :=
  update page (k / 8) (setByte (page (k / 8)) (k % 8) b)

/-- The bytes of a page from `offset` on, replaced. -/
def writePage (page : Nat → Word) : Nat → List Byte → Nat → Word
  | _, [] => page
  | offset, b :: rest => writePage (setPageByte page offset b) (offset + 1) rest

/-- `len` bytes of a page from `offset` on. -/
def readPage (page : Nat → Word) (offset len : Nat) : List Byte :=
  (List.range' offset len).map (pageByte page)

def Machine.write {K : Type} (m : Machine K) (page : Word) (offset : Nat) (bytes : List Byte) :
    Machine K :=
  { m with mem := update m.mem page (writePage (m.mem page) offset bytes) }

section Functions

variable {K : Type} [Allocator K]

/-- The loop of `copyout`, with the rounds that are left at most.  The result says whether it
returns 0. -/
def copyoutLoop (pagetable : Word) : Nat → Machine K → Word → List Byte → Bool × Machine K
  | 0, m, _, _ => (true, m)
  | rounds + 1, m, dstva, src =>
    if src = [] then (true, m)
    else
      let va0 := PGROUNDDOWN dstva
      let pa0 := walkaddr m pagetable va0
      if pa0 = 0 then (false, m)
      else
        let offset := (dstva - va0).toNat
        let n := min (PGSIZE.toNat - offset) src.length
        copyoutLoop pagetable rounds (m.write pa0 offset (src.take n)) (va0 + PGSIZE) (src.drop n)

/-- `copyout(pagetable, dstva, src, len)` with the `len` bytes of `src`; a round copies at
least one of them. -/
def copyout (m : Machine K) (pagetable dstva : Word) (src : List Byte) : Bool × Machine K :=
  copyoutLoop pagetable src.length m dstva src

/-- The loop of `copyin`, with the rounds that are left at most. -/
def copyinLoop (m : Machine K) (pagetable : Word) : Nat → Word → Nat → Option (List Byte)
  | 0, _, _ => some []
  | rounds + 1, srcva, len =>
    if len = 0 then some []
    else
      let va0 := PGROUNDDOWN srcva
      let pa0 := walkaddr m pagetable va0
      if pa0 = 0 then none
      else
        let offset := (srcva - va0).toNat
        let n := min (PGSIZE.toNat - offset) len
        (copyinLoop m pagetable rounds (va0 + PGSIZE) (len - n)).map
          (readPage (m.mem pa0) offset n ++ ·)

/-- The bytes that `copyin` delivers, or `none` for -1. -/
def copyin (m : Machine K) (pagetable srcva : Word) (len : Nat) : Option (List Byte) :=
  copyinLoop m pagetable len srcva len

/-- What `copyinstr` does: for each byte its user address and the value written to `dst`, the
addresses given to `walkaddr`, and `got_null`. -/
structure CopyStr where
  copied : List (Word × Byte)
  walked : List Word
  gotNull : Bool
  deriving DecidableEq

def CopyStr.dst (r : CopyStr) : List Byte := r.copied.map Prod.snd

def CopyStr.read (r : CopyStr) : List Word := r.copied.map Prod.fst

/-- The inner loop of `copyinstr` over the page of `va0`. -/
def copyChars (page : Nat → Word) (va0 : Word) : Nat → Nat → List (Word × Byte) × Bool
  | _, 0 => ([], false)
  | offset, n + 1 =>
    if pageByte page offset = 0 then ([(va0 + BitVec.ofNat 64 offset, 0)], true)
    else
      let rest := copyChars page va0 (offset + 1) n
      ((va0 + BitVec.ofNat 64 offset, pageByte page offset) :: rest.1, rest.2)

/-- The loop of `copyinstr`; `none` when it has not come to an end in so many rounds. -/
def copyinstrLoop (m : Machine K) (pagetable : Word) : Nat → Word → Nat → Option CopyStr
  | 0, _, max => if max = 0 then some ⟨[], [], false⟩ else none
  | rounds + 1, srcva, max =>
    if max = 0 then some ⟨[], [], false⟩
    else
      let va0 := PGROUNDDOWN srcva
      let pa0 := walkaddr m pagetable va0
      if pa0 = 0 then some ⟨[], [va0], false⟩
      else
        let offset := (srcva - va0).toNat
        let n := min (PGSIZE.toNat - offset) max
        let chars := copyChars (m.mem pa0) va0 offset n
        if chars.2 then some ⟨chars.1, [va0], true⟩
        else
          (copyinstrLoop m pagetable rounds (va0 + PGSIZE) (max - n)).map fun rest =>
            ⟨chars.1 ++ rest.copied, va0 :: rest.walked, rest.gotNull⟩

/-- `copyinstr(pagetable, dst, srcva, max)`. -/
def copyinstr (m : Machine K) (pagetable srcva : Word) (max : Nat) : Option CopyStr :=
  copyinstrLoop m pagetable max srcva max

end Functions

theorem getByte_getLsbD (w : Word) (j : Nat) {k : Nat} (inside : k < 8) :
    (getByte w j).getLsbD k = w.getLsbD (8 * j + k) := by
  rw [getByte, BitVec.getLsbD_setWidth, BitVec.getLsbD_ushiftRight]
  simp [inside]

theorem ones_getLsbD : ∀ k < 64, (0xff : Word).getLsbD k = decide (k < 8) := by decide

theorem setByte_getLsbD (w : Word) (i : Nat) (b : Byte) {k : Nat} (inside : k < 64) :
    (setByte w i b).getLsbD k =
      if 8 * i ≤ k ∧ k < 8 * i + 8 then b.getLsbD (k - 8 * i) else w.getLsbD k := by
  rw [setByte, BitVec.getLsbD_or, BitVec.getLsbD_and, BitVec.getLsbD_not, BitVec.getLsbD_shiftLeft,
    BitVec.getLsbD_shiftLeft, ones_getLsbD _ (by omega), BitVec.getLsbD_setWidth]
  by_cases low : k < 8 * i
  · simp [low, inside]
  · by_cases high : k < 8 * i + 8
    · rw [if_pos (by omega)]
      have offset : k - 8 * i < 8 := by omega
      simp [low, inside, offset, show k - 8 * i < 64 by omega]
    · rw [if_neg (by omega)]
      have offset : ¬ k - 8 * i < 8 := by omega
      have outside : b.getLsbD (k - 8 * i) = false := BitVec.getLsbD_of_ge _ _ (by omega)
      simp [low, inside, offset, outside]

theorem getByte_setByte (w : Word) (b : Byte) {i j : Nat} (inside : i < 8) (inside' : j < 8) :
    getByte (setByte w i b) j = if j = i then b else getByte w j := by
  apply BitVec.eq_of_getLsbD_eq
  intro k below
  rw [getByte_getLsbD _ _ below, setByte_getLsbD _ _ _ (by omega)]
  by_cases same : j = i
  · subst same
    rw [if_pos (by omega), if_pos rfl, Nat.add_sub_cancel_left]
  · rw [if_neg (by omega), if_neg same, getByte_getLsbD _ _ below]

theorem pageByte_setPageByte (page : Nat → Word) (k j : Nat) (b : Byte) :
    pageByte (setPageByte page k b) j = if j = k then b else pageByte page j := by
  unfold pageByte setPageByte
  by_cases word : j / 8 = k / 8
  · rw [word, update_self, getByte_setByte _ _ (Nat.mod_lt _ (by decide)) (Nat.mod_lt _ (by decide))]
    by_cases same : j = k
    · rw [if_pos same, if_pos (by rw [same])]
    · rw [if_neg same, if_neg (by omega)]
  · rw [update_of_ne word, if_neg (fun same => word (by rw [same]))]

theorem pageByte_writePage (page : Nat → Word) (offset : Nat) (bytes : List Byte) :
    (fun k => some (pageByte (writePage page offset bytes) k)) =
      overwrite (fun k => some (pageByte page k)) offset bytes := by
  induction bytes generalizing page offset with
  | nil => rw [overwrite_nil, writePage]
  | cons b bytes ih =>
    rw [writePage, ih, ← overwrite_cons]
    congr 1
    funext k
    rw [pageByte_setPageByte]
    by_cases same : k = offset
    · subst same
      rw [if_pos rfl, overwrite_inside (Nat.le_refl _) (by simp), Nat.sub_self]
      rfl
    · rw [if_neg same, overwrite_outside (by simp only [List.length_singleton]; omega)]

theorem readPage_length (page : Nat → Word) (offset len : Nat) :
    (readPage page offset len).length = len := by
  rw [readPage, List.length_map, List.length_range']

theorem readPage_getElem? (page : Nat → Word) (offset : Nat) {len i : Nat} (inside : i < len) :
    (readPage page offset len)[i]? = some (pageByte page (offset + i)) := by
  rw [readPage, List.getElem?_map, List.getElem?_range' inside, Nat.one_mul]
  rfl

@[simp] theorem write_mem_of_ne {K : Type} {m : Machine K} {page x : Word} (other : x ≠ page)
    (offset : Nat) (bytes : List Byte) : (m.write page offset bytes).mem x = m.mem x :=
  update_of_ne other _ _

theorem write_mem_self {K : Type} {m : Machine K} (page : Word) (offset : Nat) (bytes : List Byte) :
    (m.write page offset bytes).mem page = writePage (m.mem page) offset bytes :=
  update_self _ _ _

section UserMem

variable {K : Type} [Allocator K] {m m' : Machine K} {pt va : Word} {v : Nat}

def userPage (m : Machine K) (pagetable : Word) (v : Nat) : Word :=
  if v < VPNS then walkaddr m pagetable (pageAddr v) else 0

/-- User memory as a partial map of bytes, given by `walkaddr`. -/
def userMem (m : Machine K) (pagetable : Word) (a : Nat) : Option Byte :=
  if userPage m pagetable (a / 4096) = 0 then none
  else some (pageByte (m.mem (userPage m pagetable (a / 4096))) (a % 4096))

def userEntry : Option Word → Word
  | none => 0
  | some pte => if pte &&& PTE_U = 0 then 0 else PTE2PA pte

theorem walkaddr_entry (below : vpn va < VPNS) :
    walkaddr m pt va = userEntry (pteAt m.mem pt (vpn va)) := by
  have inside : ¬ MAXVA ≤ va := by
    rw [BitVec.le_def, maxva_toNat]
    unfold vpn VPNS at below
    omega
  unfold walkaddr
  rw [if_neg inside, walkLoop_find]
  cases found : format.find m.mem (indices (vpn va)) 2 pt with
  | none =>
    have absent : pteAt m.mem pt (vpn va) = none := by
      unfold pteAt Format.lookup
      rw [found]
      rfl
    rw [absent]
    rfl
  | some leaf =>
    rw [load_found found, PX_eq]
    by_cases valid : m.load (leaf, indices (vpn va) 0) &&& PTE_V = 0
    · rw [entry_invalid valid]
      exact if_pos valid
    · rw [entry_valid valid]
      exact if_neg valid

theorem walkaddr_outside (outside : VPNS ≤ vpn va) : walkaddr m pt va = 0 := by
  have above : MAXVA ≤ va := by
    rw [BitVec.le_def, maxva_toNat]
    unfold vpn VPNS at outside
    omega
  exact if_pos above

theorem userPage_entry (below : v < VPNS) :
    userPage m pt v = userEntry (pteAt m.mem pt v) := by
  rw [userPage, if_pos below, walkaddr_entry (by rw [vpn_pageAddr below.le]; exact below),
    vpn_pageAddr below.le]

theorem userPage_outside (outside : VPNS ≤ v) : userPage m pt v = 0 :=
  if_neg (Nat.not_lt.mpr outside)

theorem userPage_inside (user : userPage m pt v ≠ 0) : v < VPNS := by
  by_contra outside
  exact user (userPage_outside (Nat.not_lt.mp outside))

theorem walkaddr_round (va : Word) :
    walkaddr m pt (PGROUNDDOWN va) = userPage m pt (va.toNat / 4096) := by
  have number : vpn (PGROUNDDOWN va) = va.toNat / 4096 := by
    rw [vpn, pgrounddown_toNat]
    omega
  by_cases below : va.toNat / 4096 < VPNS
  · rw [walkaddr_entry (by rw [number]; exact below), number, userPage_entry below]
  · rw [walkaddr_outside (by rw [number]; exact Nat.not_lt.mp below),
      userPage_outside (Nat.not_lt.mp below)]

theorem offset_toNat (va : Word) : (va - PGROUNDDOWN va).toNat = va.toNat % 4096 := by
  have down := pgrounddown_toNat va
  rw [BitVec.toNat_sub, down]
  omega

theorem next_toNat (va : Word) (below : va.toNat / 4096 < VPNS) :
    (PGROUNDDOWN va + PGSIZE).toNat = va.toNat / 4096 * 4096 + 4096 := by
  rw [BitVec.toNat_add, pgrounddown_toNat, pgsize_toNat]
  unfold VPNS at below
  omega

variable {a : Nat}

theorem userMem_none (absent : userPage m pt (a / 4096) = 0) :
    userMem m pt a = none := if_pos absent

theorem userMem_some (user : userPage m pt (a / 4096) ≠ 0) :
    userMem m pt a = some (pageByte (m.mem (userPage m pt (a / 4096))) (a % 4096)) :=
  if_neg user

theorem userMem_ne_none :
    userMem m pt a ≠ none ↔ userPage m pt (a / 4096) ≠ 0 := by
  constructor
  · intro mapped absent
    exact mapped (userMem_none absent)
  · intro user
    rw [userMem_some user]
    exact Option.some_ne_none _

theorem userMem_chunk {i : Nat} (user : userPage m pt (a / 4096) ≠ 0)
    (inside : a % 4096 + i < 4096) :
    userMem m pt (a + i) =
      some (pageByte (m.mem (userPage m pt (a / 4096))) (a % 4096 + i)) := by
  have page : (a + i) / 4096 = a / 4096 := by omega
  have place : (a + i) % 4096 = a % 4096 + i := by omega
  rw [userMem_some (by rw [page]; exact user), page, place]

end UserMem

end OsbKernel.Paging
