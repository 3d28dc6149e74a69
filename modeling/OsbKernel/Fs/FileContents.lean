import OsbKernel.Fs.WriteRead

/-!
# The contents of files

What `writei` and `readi` do to the contents of all files, as lists of bytes.
-/

namespace OsbKernel.Blocks

open Function Paging ExceptBind Ownership PartialMap

variable {sb : Superblock} {lost : Nat → Prop} {s s' : Store} {view : Nat → Inode} {i : Nat}
  {ip ip' : Inode}

theorem iupdate_data {x : Nat} (other : x ≠ IBLOCK sb ip.inum) :
    (iupdate sb s ip).data x = s.data x := update_of_ne other _ _

theorem dinode_other {j : Nat} (other : j ≠ i)
    (blocks : ∀ x, x ≠ IBLOCK sb i → s'.data x = s.data x)
    (bytes : ∀ k, k < 64 * (i % IPB) ∨ 64 * (i % IPB) + 64 ≤ k →
      s'.data (IBLOCK sb i) k = s.data (IBLOCK sb i) k) : dinode sb s' j = dinode sb s j := by
  unfold dinode
  by_cases block : IBLOCK sb j = IBLOCK sb i
  · have apart : j % IPB ≠ i % IPB := by
      intro same
      have whole := Nat.div_add_mod j IPB
      have whole' := Nat.div_add_mod i IPB
      have number : j / IPB = i / IPB := by
        unfold IBLOCK at block
        omega
      rw [number, same] at whole
      omega
    rw [block]
    exact getDinode_congr j fun k low high => bytes k (by omega)
  · rw [blocks _ block]

theorem dinode_iupdate (s : Store) (fits : ip.Fits) :
    dinode sb (iupdate sb s ip) = update (dinode sb s) ip.inum ip := by
  funext j
  have content : (iupdate sb s ip).data (IBLOCK sb ip.inum) =
      putDinode (s.data (IBLOCK sb ip.inum)) (ip.inum % IPB) ip := update_self _ _ _
  by_cases here : j = ip.inum
  · rw [here, update_self, dinode, content]
    exact getDinode_putDinode fits
  · rw [update_of_ne here]
    refine dinode_other here (fun x block => iupdate_data block) fun k outside => ?_
    rw [content, putDinode_outside outside]

theorem Sound.high (sound : Sound sb lost s view)
    (same : ∀ x, sb.bmapstart ≤ x → s'.data x = s.data x) : Sound sb lost s' view := by
  refine sound.congr (fun _ _ => rfl) (fun b _ => bit_congr (same _ (bblock_high sb b))) ?_
  intro j live points
  have used := sound.ptr_used live (show ptr s.data (view j) (.inl 12) ≠ 0 from points)
  exact same _ (Nat.le_trans (bmap_low sb).le used.1)

variable {data : Nat → Data} {stored : List Byte} {pos : Nat}

theorem ptr_addrs {slot : Slot} (same : ip'.addrs = ip.addrs) :
    ptr data ip' slot = ptr data ip slot := by
  unfold ptr
  rw [same]

theorem blockAt_addrs (same : ip'.addrs = ip.addrs) (bn : Nat) :
    blockAt data ip' bn = blockAt data ip bn := by
  unfold blockAt
  cases slotOf bn with
  | none => rfl
  | some slot => exact ptr_addrs same

theorem fileByte_addrs (s : Store) (same : ip'.addrs = ip.addrs) : fileByte s ip' = fileByte s ip := by
  funext pos
  unfold fileByte
  rw [blockAt_addrs same]

theorem Sound.inodes {view' : Nat → Inode} (sound : Sound sb lost s view)
    (types : ∀ j < sb.ninodes, (view' j).type = (view j).type)
    (addrs : ∀ j < sb.ninodes, (view' j).addrs = (view j).addrs) : Sound sb lost s view' := by
  refine ⟨sound.owned.congr ?_ fun _ => Iff.rfl, sound.spare, sound.reserved⟩
  rintro ⟨j, slot⟩
  have lives : Live sb view' j ↔ Live sb view j :=
    and_congr_right fun inside => by rw [types j inside]
  by_cases live : Live sb view j
  · rw [owners_live (lives.mpr live), owners_live live, ptr_addrs (addrs j live.1)]
  · exact (if_neg fun also => live (lives.mp also)).trans (if_neg live).symm

theorem fileByte_congr (same : ∀ slot, ptr s.data ip slot ≠ 0 →
      s'.data (ptr s.data ip slot) = s.data (ptr s.data ip slot)) (pos : Nat) :
    fileByte s' ip pos = fileByte s ip pos := by
  have pointers : ∀ slot, ptr s'.data ip slot = ptr s.data ip slot :=
    fun slot => ptr_congr (same (.inl 12))
  by_cases absent : blockAt s.data ip (pos / BSIZE) = 0
  · have still : blockAt s'.data ip (pos / BSIZE) = 0 := by
      rw [← absent]
      unfold blockAt
      cases slotOf (pos / BSIZE) with
      | none => rfl
      | some slot => exact pointers slot
    rw [fileByte_none absent, fileByte_none still]
  · obtain ⟨slot, found, -⟩ := blockAt_slot absent
    have before : blockAt s.data ip (pos / BSIZE) = ptr s.data ip slot := blockAt_of_slot found
    have after : blockAt s'.data ip (pos / BSIZE) = ptr s.data ip slot := by
      rw [blockAt_of_slot found, pointers]
    rw [before] at absent
    rw [fileByte_some (by rw [after]; exact absent), fileByte_some (by rw [before]; exact absent),
      before, after, same slot absent]

/-- The writes that `writei` refuses: they start beyond the end, wrap around or end beyond the
largest file. -/
def Rejected (ip : Inode) (off n : BitVec 32) : Prop :=
  ip.size < off.toNat ∨ 2 ^ 32 ≤ off.toNat + n.toNat ∨ MAXFILE * BSIZE < off.toNat + n.toNat

instance (ip : Inode) (off n : BitVec 32) : Decidable (Rejected ip off n) :=
  inferInstanceAs (Decidable (_ ∨ _))

theorem wraps_iff (off n : BitVec 32) : off + n < off ↔ 2 ^ 32 ≤ off.toNat + n.toNat := by
  rw [BitVec.lt_def, BitVec.toNat_add]
  omega

/-- A write of `stored` at `off` to file `i`, which has grown up to `off + r` if that is more. -/
structure Wrote (sb : Superblock) (lost : Nat → Prop) (s s' : Store) (i off r : Nat)
    (stored : List Byte) : Prop where
  sound : Sound sb lost s' (dinode sb s')
  inode : dinode sb s' i = { dinode sb s i with
    size := max (dinode sb s i).size (off + r), addrs := (dinode sb s' i).addrs }
  others : ∀ j, j ≠ i → j < sb.ninodes → dinode sb s' j = dinode sb s j
  bytes : ∀ pos, fileByte s (dinode sb s i) pos ≠ none ∨ off ≤ pos ∧ pos < off + stored.length →
    fileByte s' (dinode sb s' i) pos = overwrite (fileByte s (dinode sb s i)) off stored pos
  files : ∀ j, j ≠ i → Live sb (dinode sb s) j → ∀ pos,
    fileByte s' (dinode sb s' j) pos = fileByte s (dinode sb s j) pos

theorem Writes.wrote {off r : Nat}
    (writes : Writes sb lost s s' (dinode sb s) i ip' off stored)
    (sound : Sound sb lost s (dinode sb s)) (live : Live sb (dinode sb s) i)
    (small : off + r < 2 ^ 32) (grown : ip = { ip' with size := max ip'.size (off + r) }) :
    Wrote sb lost s (iupdate sb s' ip) i off r stored ∧ dinode sb (iupdate sb s' ip) i = ip := by
  have fixed : ip' = { dinode sb s i with addrs := ip'.addrs } := writes.same
  have inum : ip.inum = i := by
    rw [grown, fixed]
    rfl
  have whole : ip = { dinode sb s i with
      size := max (dinode sb s i).size (off + r), addrs := ip'.addrs } := by
    rw [grown, fixed]
  have addrs : ip.addrs = ip'.addrs := by rw [grown]
  have before : (dinode sb s i).Fits := getDinode_fits _ _ _
  have fits : ip.Fits := by
    rw [grown, fixed]
    exact ⟨before.type, before.major, before.minor, before.nlink,
      Nat.max_lt.mpr ⟨before.size, small⟩, writes.fits before.addrs⟩
  have low : ∀ j < sb.ninodes, dinode sb s' j = dinode sb s j := by
    intro j inside
    unfold dinode
    rw [writes.low _ (iblock_low inside)]
  have here : dinode sb (iupdate sb s' ip) i = ip := by
    rw [dinode_iupdate s' fits, inum, update_self]
  have others : ∀ j, j ≠ i → j < sb.ninodes → dinode sb (iupdate sb s' ip) j = dinode sb s j := by
    intro j other inside
    rw [dinode_iupdate s' fits, inum, update_of_ne other, low j inside]
  have high : ∀ x, sb.bmapstart ≤ x → (iupdate sb s' ip).data x = s'.data x := by
    intro x above
    have block := iblock_low live.1
    refine iupdate_data ?_
    rw [inum]
    omega
  have data : ∀ x, InUse sb s' x ∨ InUse sb s x → (iupdate sb s' ip).data x = s'.data x := by
    intro x inUse
    have above : sb.dataStart ≤ x := inUse.elim (·.1) (·.1)
    exact high x (Nat.le_trans (bmap_low sb).le above)
  have alive : Live sb (update (dinode sb s) i ip') i := writes.live.mpr live
  have kept : ∀ pos, fileByte (iupdate sb s' ip) ip pos = fileByte s' ip' pos := by
    intro pos
    rw [fileByte_addrs _ addrs]
    refine fileByte_congr (fun slot points => data _ (.inl ?_)) pos
    have used : ptr s'.data (update (dinode sb s) i ip' i) slot ≠ 0 → _ := writes.sound.ptr_used alive
    rw [update_self] at used
    exact used points
  refine ⟨⟨?_, ?_, others, ?_, ?_⟩, here⟩
  · refine (writes.sound.high high).inodes ?_ ?_
    · intro j inside
      by_cases place : j = i
      · rw [place, here, update_self, grown]
      · rw [others j place inside, update_of_ne place]
    · intro j inside
      by_cases place : j = i
      · rw [place, here, update_self, addrs]
      · rw [others j place inside, update_of_ne place]
  · rw [here, addrs]
    exact whole
  · intro pos mapped
    rw [here, kept, writes.bytes pos mapped]
  · intro j other live' pos
    rw [others j other live'.1]
    refine fileByte_congr (fun slot points => ?_) pos
    rw [data _ (.inr (sound.ptr_used live' points)), writes.others j other live' slot points]

section Calls

variable {K : Type} [Allocator K] {off n : BitVec 32}

theorem writei_rejected (src : Source K) (rejected : Rejected ip off n) :
    writei sb s ip src off n = .ok (none, ip, s) := by
  unfold writei
  by_cases start : ip.size < off.toNat ∨ off + n < off
  · exact if_pos start
  · rw [if_neg start]
    rw [not_or, wraps_iff] at start
    have sum : (off + n).toNat = off.toNat + n.toNat := by
      exact Nat.mod_eq_of_lt (Nat.lt_of_not_le start.2)
    refine if_pos ?_
    rw [sum]
    exact (rejected.resolve_left start.1).resolve_left start.2

theorem accepted_bounds (accepted : ¬ Rejected ip off n) : off.toNat ≤ ip.size ∧
    off.toNat + n.toNat < 2 ^ 32 ∧ off.toNat + n.toNat ≤ MAXFILE * BSIZE := by
  unfold Rejected at accepted
  rw [not_or, not_or, Nat.not_lt, Nat.not_le, Nat.not_lt] at accepted
  exact accepted

theorem writei_loop (src : Source K) (accepted : ¬ Rejected ip off n) :
    writei sb s ip src off n =
      (writeiLoop sb src n.toNat s ip off.toNat 0 n.toNat >>= fun (tot, off, ip, s) =>
        .ok (some tot, { ip with size := max ip.size off },
          iupdate sb s { ip with size := max ip.size off })) := by
  obtain ⟨start, sum, inside⟩ := accepted_bounds accepted
  have total : (off + n).toNat = off.toNat + n.toNat := by
    rw [BitVec.toNat_add]
    exact Nat.mod_eq_of_lt sum
  have entered : ¬ (ip.size < off.toNat ∨ off + n < off) := by
    rw [wraps_iff]
    omega
  have grown : ∀ (ip : Inode) (off : Nat), (if ip.size < off then { ip with size := off } else ip) =
      { ip with size := max ip.size off } := by
    intro ip off
    by_cases longer : ip.size < off
    · rw [if_pos longer, Nat.max_eq_right longer.le]
    · rw [if_neg longer, Nat.max_eq_left (Nat.le_of_not_lt longer)]
  unfold writei
  rw [if_neg entered, total, if_neg (Nat.not_lt.mpr inside)]
  congr 1
  funext result
  dsimp only
  rw [grown]
  rfl

/-- The blocks of a file that a slot serves. -/
def serves : Slot → Nat × Nat
  | .inl k => if k = 12 then (NDIRECT, MAXFILE) else (k, k + 1)
  | .inr j => (NDIRECT + j, NDIRECT + j + 1)

/-- The slots that `n` bytes from `off` on need. -/
def needs (off n : Nat) : Finset Slot :=
  {slot | 0 < n ∧ off < (serves slot).2 * BSIZE ∧ (serves slot).1 * BSIZE < off + n}

theorem mem_needs {off n : Nat} {slot : Slot} (inside : off + n ≤ MAXFILE * BSIZE) (low : off ≤ pos)
    (high : pos < off + n) (needed : Needs (pos / BSIZE) slot) : slot ∈ needs off n := by
  have served : (serves slot).1 ≤ pos / BSIZE ∧ pos / BSIZE < (serves slot).2 := by
    have limit : MAXFILE = NDIRECT + 256 := rfl
    have top : pos / BSIZE < MAXFILE := Nat.div_lt_of_lt_mul (by rw [Nat.mul_comm]; omega)
    rcases needed with own | ⟨indirect, rfl⟩
    · unfold slotOf at own
      split at own
      · next direct =>
        cases own
        rw [serves, if_neg fun same => absurd (congrArg Fin.val same) (Nat.ne_of_lt direct)]
        exact ⟨Nat.le_refl _, Nat.lt_succ_self _⟩
      split at own
      · cases own
        dsimp only [serves]
        omega
      · cases own
    · exact ⟨indirect, top⟩
  simp only [needs, Finset.mem_filter, Finset.mem_univ, true_and]
  unfold BSIZE at *
  omega

/-- A write that is not refused stores the bytes of the source up to the first one that is
missing, or the free map has too few blocks for it. -/
theorem writei_accepted (src : Source K) (sound : Sound sb lost s (dinode sb s))
    (live : Live sb (dinode sb s) i) (accepted : ¬ Rejected (dinode sb s i) off n) :
    (writei sb s (dinode sb s i) src off n = .error outOfBlocks ∧ freeBlocks sb s <
        (missing (needs off.toNat n.toNat) s.data (dinode sb s i)).card) ∨
      ∃ r s' stored, writei sb s (dinode sb s i) src off n = .ok (some r, dinode sb s' i, s') ∧
        WriteRun src off.toNat 0 n.toNat r stored ∧ Wrote sb lost s s' i off.toNat r stored := by
  obtain ⟨-, sum, inside⟩ := accepted_bounds accepted
  rw [writei_loop src accepted]
  rcases writeiLoop_writes src sound live (Nat.le_add_left n.toNat 0) (Nat.zero_le _)
      (by rw [Nat.sub_zero]; exact inside) (fun pos low high _ => mem_needs inside low high) with
      ⟨failed, short⟩ | ⟨r, ip', s', stored, ran, writes, run⟩
  · rw [failed]
    exact .inl ⟨rfl, short⟩
  · rw [bind_eq ran, Nat.sub_zero]
    have bound := run.high
    obtain ⟨wrote, inode⟩ := writes.wrote sound live (by omega : off.toNat + r < 2 ^ 32) rfl
    refine .inr ⟨r, _, stored, ?_, run, wrote⟩
    rw [inode]

end Calls

def Full (data : Nat → Data) (ip : Inode) : Prop := ∀ bn, bn * BSIZE < ip.size → blockAt data ip bn ≠ 0

/-- The contents of a file are its first `size` bytes. -/
def contents (s : Store) (ip : Inode) : List Byte := fileBytes s ip 0 ip.size

theorem length_contents (s : Store) (ip : Inode) : (contents s ip).length = ip.size :=
  length_fileBytes s ip 0 ip.size

theorem Full.byte (full : Full s.data ip) (inside : pos < ip.size) :
    fileByte s ip pos ≠ none :=
  fileByte_ne_none.mpr (full _ (Nat.lt_of_le_of_lt (Nat.div_mul_le_self pos BSIZE) inside))

theorem getElem?_contents (full : Full s.data ip) (inside : pos < ip.size) :
    (contents s ip)[pos]? = fileByte s ip pos := by
  unfold contents fileBytes
  rw [List.getElem?_map, List.getElem?_range' inside, Option.map_some, Nat.one_mul, Nat.zero_add]
  cases known : fileByte s ip pos with
  | none => exact absurd known (full.byte inside)
  | some b => rfl

theorem getElem?_contents_outside (outside : ip.size ≤ pos) :
    (contents s ip)[pos]? = none :=
  List.getElem?_eq_none (by rw [length_contents]; exact outside)

theorem Wrote.full {off r : Nat} (wrote : Wrote sb lost s s' i off r stored)
    (full : Full s.data (dinode sb s i)) (start : off ≤ (dinode sb s i).size)
    (enough : r ≤ stored.length) : Full s'.data (dinode sb s' i) := by
  intro bn inside
  rw [wrote.inode] at inside
  change bn * BSIZE < max (dinode sb s i).size (off + r) at inside
  have block : bn * BSIZE / BSIZE = bn := Nat.mul_div_cancel _ (by decide)
  have present : fileByte s' (dinode sb s' i) (bn * BSIZE) ≠ none := by
    by_cases written : off ≤ bn * BSIZE ∧ bn * BSIZE < off + stored.length
    · rw [wrote.bytes _ (.inr written), overwrite_inside written.1 written.2,
        List.getElem?_eq_getElem (by omega)]
      exact Option.some_ne_none _
    · have known := full.byte (show bn * BSIZE < (dinode sb s i).size by omega)
      rw [wrote.bytes _ (.inl known), overwrite_outside (by omega)]
      exact known
  rw [fileByte_ne_none, block] at present
  exact present

/-- The contents have the bytes up to `off + r` replaced and no others, exactly when the bytes that
have been stored beyond are those that were there. -/
theorem Wrote.contents_iff {off r : Nat} (wrote : Wrote sb lost s s' i off r stored)
    (full : Full s.data (dinode sb s i)) (start : off ≤ (dinode sb s i).size)
    (enough : r ≤ stored.length) :
    contents s' (dinode sb s' i) = splice (contents s (dinode sb s i)) off (stored.take r) ↔
      ∀ k, r ≤ k → k < stored.length → off + k < (dinode sb s i).size →
        fileByte s (dinode sb s i) (off + k) = stored[k]? := by
  have size : (dinode sb s' i).size = max (dinode sb s i).size (off + r) := by rw [wrote.inode]
  have part : (stored.take r).length = r := List.length_take_of_le enough
  have before := length_contents s (dinode sb s i)
  have after : ∀ pos, pos < (dinode sb s' i).size → (contents s' (dinode sb s' i))[pos]? =
      overwrite (fileByte s (dinode sb s i)) off stored pos := by
    intro pos inside
    rw [getElem?_contents (wrote.full full start enough) inside]
    refine wrote.bytes pos ?_
    by_cases old : pos < (dinode sb s i).size
    · exact .inl (full.byte old)
    · exact .inr (by omega)
  constructor
  · intro same k low high inside
    have value := after (off + k) (by omega)
    rw [same, getElem?_splice (by omega), overwrite_outside (by omega), getElem?_contents full inside,
      overwrite_inside (by omega) (by omega), Nat.add_sub_cancel_left] at value
    exact value
  · intro clean
    apply List.ext_getElem?
    intro pos
    rw [getElem?_splice (by omega)]
    by_cases inside : pos < (dinode sb s' i).size
    · rw [after pos inside]
      by_cases written : off ≤ pos ∧ pos < off + r
      · rw [overwrite_inside written.1 (by omega), overwrite_inside written.1 (by omega),
          List.getElem?_take_of_lt (by omega)]
      · have old : pos < (dinode sb s i).size := by omega
        have kept : overwrite (fun x => (contents s (dinode sb s i))[x]?) off (stored.take r) pos =
            (contents s (dinode sb s i))[pos]? := overwrite_outside (by omega)
        rw [kept, getElem?_contents full old]
        by_cases beyond : off + r ≤ pos ∧ pos < off + stored.length
        · have value := clean (pos - off) (by omega) (by omega) (by omega)
          rw [Nat.add_sub_cancel' (by omega)] at value
          rw [overwrite_inside (by omega) beyond.2, value]
        · rw [overwrite_outside (by omega)]
    · rw [getElem?_contents_outside (by omega), overwrite_outside (by omega),
        getElem?_contents_outside (by omega)]

end OsbKernel.Blocks
