import OsbKernel.Fs.BlockMap
import OsbKernel.Vm.UserCopy

/-!
# The bytes of a file

A file as a partial map of bytes through its block pointers, and what the loop of `writei` does to
this map.
-/

namespace OsbKernel.Blocks

open Function Paging ExceptBind Ownership PartialMap

variable {sb : Superblock} {lost : Nat → Prop} {s s' s'' : Store} {view : Nat → Inode} {i b : Nat}
  {ip ip' ip'' : Inode}

/-- Byte `pos` of a file, if the file has a block for it. -/
def fileByte (s : Store) (ip : Inode) (pos : Nat) : Option Byte :=
  if blockAt s.data ip (pos / BSIZE) = 0 then none
  else some (s.data (blockAt s.data ip (pos / BSIZE)) (pos % BSIZE))

variable {pos bn off j : Nat} {data : Nat → Data} {bytes : List Byte}

theorem fileByte_none (none : blockAt s.data ip (pos / BSIZE) = 0) :
    fileByte s ip pos = .none := if_pos none

theorem fileByte_some (points : blockAt s.data ip (pos / BSIZE) ≠ 0) :
    fileByte s ip pos = some (s.data (blockAt s.data ip (pos / BSIZE)) (pos % BSIZE)) := if_neg points

theorem fileByte_ne_none :
    fileByte s ip pos ≠ none ↔ blockAt s.data ip (pos / BSIZE) ≠ 0 := by
  constructor
  · intro byte none
    exact byte (fileByte_none none)
  · intro points
    rw [fileByte_some points]
    exact Option.some_ne_none _

theorem blockAt_slot (points : blockAt data ip bn ≠ 0) :
    ∃ slot, slotOf bn = some slot ∧ slot ≠ .inl 12 := by
  by_cases direct : bn < NDIRECT
  · refine ⟨_, dif_pos direct, fun same => ?_⟩
    have index := congrArg Fin.val (Sum.inl.inj same)
    change bn = 12 at index
    unfold NDIRECT at direct
    omega
  · by_cases inside : bn - NDIRECT < 256
    · refine ⟨_, (dif_neg direct).trans (dif_pos inside), fun same => ?_⟩
      cases same
    · have limit : MAXFILE = NDIRECT + 256 := rfl
      exact absurd (blockAt_outside (by omega)) points

theorem blockAt_of_slot {slot : Slot} (known : slotOf bn = some slot) :
    blockAt data ip bn = ptr data ip slot := by
  unfold blockAt
  rw [known]

theorem slotOf_injective {bn' : Nat} {slot : Slot} (first : slotOf bn = some slot)
    (second : slotOf bn' = some slot) : bn = bn' := by
  unfold slotOf at first second
  by_cases direct : bn < NDIRECT
  · rw [dif_pos direct] at first
    by_cases direct' : bn' < NDIRECT
    · rw [dif_pos direct'] at second
      exact congrArg Fin.val (Sum.inl.inj (Option.some.inj (first.trans second.symm)))
    · rw [dif_neg direct'] at second
      by_cases inside' : bn' - NDIRECT < 256
      · rw [dif_pos inside'] at second
        cases first.trans second.symm
      · rw [dif_neg inside'] at second
        cases second
  · rw [dif_neg direct] at first
    by_cases inside : bn - NDIRECT < 256
    · rw [dif_pos inside] at first
      by_cases direct' : bn' < NDIRECT
      · rw [dif_pos direct'] at second
        cases first.trans second.symm
      · rw [dif_neg direct'] at second
        by_cases inside' : bn' - NDIRECT < 256
        · rw [dif_pos inside'] at second
          have index := congrArg Fin.val (Sum.inr.inj (Option.some.inj (first.trans second.symm)))
          change bn - NDIRECT = bn' - NDIRECT at index
          omega
        · rw [dif_neg inside'] at second
          cases second
    · rw [dif_neg inside] at first
      cases first

/-- `bytes` have been laid over the file from `off` on; the inode may have got blocks for them. -/
structure Writes (sb : Superblock) (lost : Nat → Prop) (s s' : Store) (view : Nat → Inode) (i : Nat) (ip' : Inode)
    (off : Nat) (bytes : List Byte) : Prop where
  sound : Sound sb lost s' (update view i ip')
  same : ip' = { view i with addrs := ip'.addrs }
  fits : (∀ k, (view i).addrs k < 2 ^ 32) → ∀ k, ip'.addrs k < 2 ^ 32
  bytes : ∀ pos, fileByte s (view i) pos ≠ none ∨ off ≤ pos ∧ pos < off + bytes.length →
    fileByte s' ip' pos = overwrite (fileByte s (view i)) off bytes pos
  others : ∀ j, j ≠ i → Live sb view j → ∀ slot, ptr s.data (view j) slot ≠ 0 →
    s'.data (ptr s.data (view j) slot) = s.data (ptr s.data (view j) slot)
  low : ∀ x < sb.bmapstart, s'.data x = s.data x

theorem Extends.writes (extended : Extends sb lost s s' view i ip') (off : Nat) :
    Writes sb lost s s' view i ip' off [] := by
  refine ⟨extended.sound, extended.same, extended.fits, ?_, extended.others, extended.low⟩
  intro pos mapped
  have known : fileByte s (view i) pos ≠ none := by
    rcases mapped with known | ⟨low, high⟩
    · exact known
    · change pos < off + 0 at high
      omega
  have points := fileByte_ne_none.mp known
  obtain ⟨slot, found, data⟩ := blockAt_slot points
  have before : blockAt s.data (view i) (pos / BSIZE) = ptr s.data (view i) slot :=
    blockAt_of_slot found
  rw [before] at points
  have after : blockAt s'.data ip' (pos / BSIZE) = blockAt s.data (view i) (pos / BSIZE) := by
    rw [blockAt_of_slot found, before, extended.kept slot points]
  rw [overwrite_nil, fileByte_some (by rw [after, before]; exact points),
    fileByte_some (by rw [before]; exact points), after, before, extended.bytes slot data points]

theorem Writes.live (writes : Writes sb lost s s' view i ip' off bytes) :
    Live sb (update view i ip') j ↔ Live sb view j :=
  live_update writes.same

theorem Writes.trans {more : List Byte} (first : Writes sb lost s s' view i ip' off bytes)
    (second : Writes sb lost s' s'' (update view i ip') i ip'' (off + bytes.length) more) :
    Writes sb lost s s'' view i ip'' off (bytes ++ more) := by
  obtain ⟨sound, same, fits, written, others, low⟩ := second
  rw [update_self] at same fits written
  rw [update_idem] at sound
  refine ⟨sound, ?_, fun known => fits (first.fits known), ?_,
    others_trans first.same first.others others, ?_⟩
  · rw [same, first.same]
  · intro pos mapped
    rw [List.length_append] at mapped
    rw [← overwrite_append]
    by_cases later : off + bytes.length ≤ pos ∧ pos < off + bytes.length + more.length
    · rw [written pos (.inr later), overwrite_inside later.1 later.2, overwrite_inside later.1 later.2]
    · have before := first.bytes pos (mapped.imp_right fun range => ⟨range.1, by omega⟩)
      have present : fileByte s' ip' pos ≠ none := by
        rw [before]
        by_cases inside : off ≤ pos ∧ pos < off + bytes.length
        · rw [overwrite_inside inside.1 inside.2, List.getElem?_eq_getElem (by omega)]
          exact Option.some_ne_none _
        · rw [overwrite_outside (by omega)]
          rcases mapped with known | range
          · exact known
          · omega
      rw [written pos (.inl present), overwrite_outside (by omega), overwrite_outside (by omega), before]
  · intro x below
    rw [low x below, first.low x below]

theorem putBytes_inside {d : Data} {k : Nat} (low : k ≤ j)
    (high : j < k + bytes.length) : some (putBytes d k bytes j) = bytes[j - k]? := by
  unfold putBytes
  rw [if_pos ⟨low, high⟩, List.getD_eq_getElem?_getD, List.getElem?_eq_getElem (by omega)]
  rfl

theorem putBytes_outside {d : Data} {k : Nat}
    (outside : j < k ∨ k + bytes.length ≤ j) : putBytes d k bytes j = d j := if_neg (by omega)

theorem setData_writes (sound : Sound sb lost s view)
    (live : Live sb view i) (points : blockAt s.data (view i) (off / BSIZE) ≠ 0)
    (inside : off % BSIZE + bytes.length ≤ BSIZE)
    (stored : s'.data = update s.data (blockAt s.data (view i) (off / BSIZE))
      (putBytes (s.data (blockAt s.data (view i) (off / BSIZE))) (off % BSIZE) bytes)) :
    Writes sb lost s s' view i (view i) off bytes ∧ ∀ P, Spent sb P s s' (view i) (view i) := by
  obtain ⟨slot, found, data⟩ := blockAt_slot points
  have place : blockAt s.data (view i) (off / BSIZE) = ptr s.data (view i) slot :=
    blockAt_of_slot found
  rw [place] at points stored
  have inUse := sound.ptr_used live points
  have others : ∀ x, x ≠ ptr s.data (view i) slot → s'.data x = s.data x := by
    intro x other
    rw [stored, update_of_ne other]
  -- the block is no indirect block, so all pointers are kept
  have indirect : ∀ j, Live sb view j → (view j).addrs 12 ≠ 0 →
      s'.data ((view j).addrs 12) = s.data ((view j).addrs 12) := by
    intro j alive nonnull
    refine others _ fun same => data ?_
    have shared : ptr s.data (view i) slot = ptr s.data (view j) (.inl 12) := same.symm
    exact (sound.distinct live alive points shared).2
  have pointers : ∀ slot', ptr s'.data (view i) slot' = ptr s.data (view i) slot' :=
    fun slot' => ptr_congr (indirect i live)
  have blocks : ∀ bn, blockAt s'.data (view i) bn = blockAt s.data (view i) bn := by
    intro bn
    unfold blockAt
    cases slotOf bn with
    | none => rfl
    | some slot' => exact pointers slot'
  have marks : ∀ x < sb.size, bit sb s' x = bit sb s x := by
    intro x small
    refine bit_congr (others _ ?_)
    have low := bblock_low small
    have high := inUse.1
    omega
  refine ⟨⟨?_, rfl, id, ?_, ?_, ?_⟩, fun P => spent_of_same marks pointers⟩
  · rw [update_eq_self]
    exact sound.congr (fun _ _ => rfl) marks indirect
  · intro pos _
    by_cases here : pos / BSIZE = off / BSIZE
    · have spot : blockAt s.data (view i) (pos / BSIZE) = ptr s.data (view i) slot := by
        rw [here, place]
      have whole := Nat.div_add_mod pos BSIZE
      have whole' := Nat.div_add_mod off BSIZE
      rw [here] at whole
      rw [fileByte_some (by rw [blocks, spot]; exact points), blocks, spot, stored, update_self]
      by_cases written : off ≤ pos ∧ pos < off + bytes.length
      · rw [putBytes_inside (by omega) (by omega), overwrite_inside written.1 written.2]
        congr 1
        omega
      · rw [putBytes_outside (by omega), overwrite_outside (by omega),
          fileByte_some (by rw [spot]; exact points), spot]
    · have outside : pos < off ∨ off + bytes.length ≤ pos := by
        by_contra within
        apply here
        have whole := Nat.div_add_mod off BSIZE
        refine Nat.div_eq_of_lt_le ?_ ?_
        · rw [Nat.mul_comm]
          omega
        · rw [Nat.succ_mul, Nat.mul_comm]
          omega
      rw [overwrite_outside outside]
      by_cases absent : blockAt s.data (view i) (pos / BSIZE) = 0
      · rw [fileByte_none absent, fileByte_none ((blocks _).trans absent)]
      · obtain ⟨slot', found', -⟩ := blockAt_slot absent
        have spot : blockAt s.data (view i) (pos / BSIZE) = ptr s.data (view i) slot' :=
          blockAt_of_slot found'
        have differ : ptr s.data (view i) slot' ≠ ptr s.data (view i) slot := by
          intro same
          have equal := (sound.distinct live live points same.symm).2
          rw [← equal] at found'
          exact here (slotOf_injective found' found)
        rw [fileByte_some absent, fileByte_some (by rw [blocks]; exact absent), blocks, spot,
          others _ differ]
  · intro j other alive slot' nonnull
    refine others _ fun same => ?_
    exact other (sound.distinct alive live nonnull same).1
  · intro x below
    refine others x fun same => ?_
    have high := inUse.1
    have top := bmap_low sb
    omega

end OsbKernel.Blocks
