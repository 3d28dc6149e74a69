import OsbKernel.Fs.FileArray

/-!
# Freeing blocks

`bfree` gives back a block, and `itrunc` all blocks of a file. The entries of the indirect block
stay when their blocks are freed, so the owners are followed apart from the pointers until the
indirect block is gone.
-/

namespace OsbKernel.Blocks

open Function Paging ExceptBind Ownership

variable {sb : Superblock} {lost : Nat → Prop} {s s' : Store} {view : Nat → Inode} {i b : Nat}
  {ip : Inode} {own : Nat × Slot → Option Nat}

/-- `bfree` has cleared the bit of block `b`. -/
structure Freed (sb : Superblock) (s s' : Store) (b : Nat) : Prop where
  store : s' = (s.setData (BBLOCK sb b) (clearBit (s.data (BBLOCK sb b)) (b % BPB))).logWrite (BBLOCK sb b)

theorem bfree_frees (inUse : InUse sb s b) : ∃ s', bfree sb s b = .ok s' ∧ Freed sb s s' b := by
  refine ⟨_, if_neg ?_, ⟨rfl⟩⟩
  have marked : bitSet (s.data (BBLOCK sb b)) (b % BPB) = true := inUse.2.2
  rw [marked]
  exact Bool.noConfusion

theorem Freed.other (freed : Freed sb s s' b) {x : Nat} (other : x ≠ BBLOCK sb b) :
    s'.data x = s.data x := by
  rw [freed.store]
  exact update_of_ne other _ _

theorem Freed.bit (freed : Freed sb s s' b) (x : Nat) :
    bit sb s' x = (!decide (x = b) && bit sb s x) := by
  by_cases page : BBLOCK sb x = BBLOCK sb b
  · have content : s'.data (BBLOCK sb x) = clearBit (s.data (BBLOCK sb x)) (b % BPB) := by
      rw [freed.store, page]
      exact update_self _ _ _
    rw [Blocks.bit, content, bitSet_clearBit, decide_eq_decide.mpr (bblock_mod_iff page)]
    rfl
  · have other : x ≠ b := fun equal => page (by rw [equal])
    rw [bit_congr (freed.other page), decide_eq_false other, Bool.not_false, Bool.true_and]

theorem Freed.inUse (freed : Freed sb s s' b) (x : Nat) :
    InUse sb s' x ↔ InUse sb s x ∧ x ≠ b := by
  unfold InUse
  rw [freed.bit, Bool.and_eq_true, Bool.not_eq_true', decide_eq_false_iff_not]
  exact ⟨fun ⟨low, high, other, marked⟩ => ⟨⟨low, high, marked⟩, other⟩,
    fun ⟨⟨low, high, marked⟩, other⟩ => ⟨low, high, other, marked⟩⟩

/-- Data blocks in use are owned once by `own`, whatever the pointers are. -/
structure Tied (sb : Superblock) (lost : Nat → Prop) (s : Store) (own : Nat × Slot → Option Nat) :
    Prop where
  owned : Exact own (fun b => InUse sb s b ∧ ¬ lost b)
  spare : ∀ b, lost b → InUse sb s b
  reserved : ∀ b < sb.dataStart, bit sb s b = true

theorem Sound.tied (sound : Sound sb lost s view) : Tied sb lost s (owners sb s.data view) :=
  ⟨sound.owned, sound.spare, sound.reserved⟩

theorem Tied.sound (tied : Tied sb lost s own) (same : ∀ x, owners sb s.data view x = own x) :
    Sound sb lost s view :=
  ⟨tied.owned.congr same fun _ => Iff.rfl, tied.spare, tied.reserved⟩

variable {x : Nat × Slot} {slots : List Slot}

theorem Tied.release (tied : Tied sb lost s own) (held : own x = some b) :
    ∃ s', bfree sb s b = .ok s' ∧ Freed sb s s' b ∧ Tied sb lost s' (update own x none) := by
  have used := tied.owned.held_used held
  obtain ⟨s', ran, freed⟩ := bfree_frees used.1
  refine ⟨s', ran, freed, tied.owned.release held ?_, ?_, ?_⟩
  · intro y
    rw [freed.inUse]
    exact and_right_comm
  · intro y spare
    refine (freed.inUse y).mpr ⟨tied.spare y spare, ?_⟩
    rintro rfl
    exact used.2 spare
  · intro y low
    have other : y ≠ b := by
      have high := used.1.1
      omega
    rw [freed.bit, decide_eq_false other, tied.reserved y low]
    rfl

/-- The owners without the slots `slots` of inode `i`. -/
def clear (i : Nat) : List Slot → (Nat × Slot → Option Nat) → Nat × Slot → Option Nat
  | [], own => own
  | slot :: rest, own => clear i rest (update own (i, slot) none)

theorem clear_outside (outside : ¬ (x.1 = i ∧ x.2 ∈ slots)) :
    clear i slots own x = own x := by
  induction slots generalizing own with
  | nil => rfl
  | cons slot rest ih =>
    have other : x ≠ (i, slot) := by
      rintro rfl
      exact outside ⟨rfl, List.mem_cons_self⟩
    rw [clear, ih fun later => outside ⟨later.1, List.mem_cons_of_mem _ later.2⟩, update_of_ne other]

theorem clear_inside {slot : Slot} (inside : slot ∈ slots ∨ own (i, slot) = none) :
    clear i slots own (i, slot) = none := by
  induction slots generalizing own with
  | nil => exact inside.resolve_left List.not_mem_nil
  | cons first rest ih =>
    refine ih ?_
    by_cases here : slot = first
    · rw [here]
      exact .inr (update_self _ _ _)
    · rcases inside with mem | absent
      · exact .inl ((List.mem_cons.mp mem).resolve_left here)
      · refine .inr ?_
        rw [update_of_ne fun same => here (Prod.mk.inj same).2]
        exact absent

theorem clear_append (first second : List Slot) (own : Nat × Slot → Option Nat) :
    clear i (first ++ second) own = clear i second (clear i first own) := by
  induction first generalizing own with
  | nil => rfl
  | cons slot rest ih => exact ih _

def Outside (sb : Superblock) (s s' : Store) : Prop :=
  ∀ x, x < sb.bmapstart ∨ sb.dataStart ≤ x → s'.data x = s.data x

theorem Freed.outside (freed : Freed sb s s' b) (inside : b < sb.size) : Outside sb s s' := by
  intro x apart
  refine freed.other ?_
  have low := bblock_low inside
  have high := bblock_high sb b
  omega

theorem Outside.trans {s'' : Store} (first : Outside sb s s') (second : Outside sb s' s'') :
    Outside sb s s'' := fun x apart => (second x apart).trans (first x apart)

theorem freeDirect_frees (ks : List (Fin 13)) (nodup : ks.Nodup) (tied : Tied sb lost s own)
    (held : ∀ k ∈ ks, own (i, .inl k) = nonzero (ip.addrs k)) :
    ∃ ip' s', freeDirect sb ks s ip = .ok (ip', s') ∧ Tied sb lost s' (clear i (ks.map .inl) own) ∧
      Outside sb s s' ∧ ip' = { ip with addrs := fun k => if k ∈ ks then 0 else ip.addrs k } := by
  induction ks generalizing s ip own with
  | nil =>
    refine ⟨ip, s, rfl, tied, fun _ _ => rfl, ?_⟩
    simp only [List.not_mem_nil, if_false]
  | cons k rest ih =>
    rw [List.nodup_cons] at nodup
    have first := held k List.mem_cons_self
    by_cases empty : ip.addrs k = 0
    · rw [empty, nonzero_zero] at first
      have same : update own (i, .inl k) none = own := by
        rw [← first]
        exact update_eq_self _ _
      obtain ⟨ip', s', ran, tied', outside, inode⟩ :=
        ih nodup.2 tied fun k' mem => held k' (List.mem_cons_of_mem _ mem)
      refine ⟨ip', s', (if_pos empty).trans ran, ?_, outside, ?_⟩
      · rw [List.map_cons, clear, same]
        exact tied'
      · rw [inode]
        congr 1
        funext k'
        by_cases here : k' = k
        · rw [here, if_neg nodup.1, if_pos List.mem_cons_self, empty]
        · simp only [List.mem_cons, here, false_or]
    · have points : own (i, .inl k) = some (ip.addrs k) := first.trans (if_neg empty)
      obtain ⟨s₁, ran₁, freed, tied₁⟩ := tied.release points
      have inside := (tied.owned.held_used points).1.2.1
      have others : ∀ k' ∈ rest, update own (i, .inl k) none (i, .inl k') =
          nonzero ((ip.setAddr k 0).addrs k') := by
        intro k' mem
        have differ : k' ≠ k := fun same => nodup.1 (same ▸ mem)
        rw [update_of_ne fun same => differ (Sum.inl.inj (Prod.mk.inj same).2), setAddr_of_ne _ differ]
        exact held k' (List.mem_cons_of_mem _ mem)
      obtain ⟨ip', s', ran, tied', outside, inode⟩ := ih nodup.2 tied₁ others
      refine ⟨ip', s', ?_, tied', (freed.outside inside).trans outside, ?_⟩
      · rw [freeDirect, if_neg empty, bind_eq ran₁]
        exact ran
      · rw [inode]
        congr 1
        funext k'
        by_cases here : k' = k
        · rw [here, if_neg nodup.1, if_pos List.mem_cons_self, setAddr_self]
        · simp only [List.mem_cons, here, false_or, setAddr_of_ne _ here]

theorem freeEntries_frees (js : List (Fin 256)) {bp : Nat} (nodup : js.Nodup) (high : sb.dataStart ≤ bp)
    (tied : Tied sb lost s own)
    (held : ∀ j ∈ js, own (i, .inr j) = nonzero (getUint (s.data bp) j)) :
    ∃ s', freeEntries sb bp (js.map Fin.val) s = .ok s' ∧
      Tied sb lost s' (clear i (js.map .inr) own) ∧ Outside sb s s' := by
  induction js generalizing s own with
  | nil => exact ⟨s, rfl, tied, fun _ _ => rfl⟩
  | cons j rest ih =>
    rw [List.nodup_cons] at nodup
    have first := held j List.mem_cons_self
    by_cases empty : getUint (s.data bp) j = 0
    · rw [empty, nonzero_zero] at first
      have same : update own (i, .inr j) none = own := by
        rw [← first]
        exact update_eq_self _ _
      obtain ⟨s', ran, tied', outside⟩ :=
        ih nodup.2 tied fun j' mem => held j' (List.mem_cons_of_mem _ mem)
      refine ⟨s', (if_pos empty).trans ran, ?_, outside⟩
      rw [List.map_cons, clear, same]
      exact tied'
    · have points : own (i, .inr j) = some (getUint (s.data bp) j) := first.trans (if_neg empty)
      obtain ⟨s₁, ran₁, freed, tied₁⟩ := tied.release points
      have inside := (tied.owned.held_used points).1.2.1
      have others : ∀ j' ∈ rest, update own (i, .inr j) none (i, .inr j') =
          nonzero (getUint (s₁.data bp) j') := by
        intro j' mem
        have differ : j' ≠ j := fun same => nodup.1 (same ▸ mem)
        rw [update_of_ne fun same => differ (Sum.inr.inj (Prod.mk.inj same).2),
          freed.outside inside bp (.inr high)]
        exact held j' (List.mem_cons_of_mem _ mem)
      obtain ⟨s', ran, tied', outside⟩ := ih nodup.2 tied₁ others
      refine ⟨s', ?_, tied', (freed.outside inside).trans outside⟩
      rw [List.map_cons, freeEntries, if_neg empty, bind_eq ran₁]
      exact ran

def indirects : List Slot := (List.finRange 256).map .inr ++ [.inl 12]

theorem freeIndirect_frees (tied : Tied sb lost s own)
    (held : own (i, .inl 12) = nonzero (ip.addrs 12))
    (entries : ∀ j, own (i, .inr j) = nonzero (ptr s.data ip (.inr j))) :
    ∃ s', freeIndirect sb s ip = .ok (ip.setAddr 12 0, s') ∧
      Tied sb lost s' (clear i indirects own) ∧ Outside sb s s' := by
  by_cases none : ip.addrs 12 = 0
  · have same : ip.setAddr 12 0 = ip := by
      unfold Inode.setAddr
      rw [← none, update_eq_self]
    have kept : clear i indirects own = own := by
      funext x
      by_cases inside : x.1 = i ∧ x.2 ∈ indirects
      · obtain ⟨j, slot⟩ := x
        obtain ⟨rfl, mem⟩ := inside
        have empty : own (j, slot) = .none := by
          cases slot with
          | inl k =>
            have last : k = 12 := by
              rcases List.mem_append.mp mem with entry | last
              · obtain ⟨_, -, impossible⟩ := List.mem_map.mp entry
                cases impossible
              · exact Sum.inl.inj (List.mem_singleton.mp last)
            rw [last, held, none, nonzero_zero]
          | inr j' => rw [entries, ptr_absent none, nonzero_zero]
        rw [empty]
        exact clear_inside (.inl mem)
      · exact clear_outside inside
    refine ⟨s, ?_, by rw [kept]; exact tied, fun _ _ => rfl⟩
    rw [same]
    exact if_pos none
  · have points : own (i, .inl 12) = some (ip.addrs 12) := held.trans (if_neg none)
    have used := (tied.owned.held_used points).1
    obtain ⟨s₁, ran₁, tied₁, outside₁⟩ := freeEntries_frees (List.finRange 256)
      (List.nodup_finRange 256) used.1 tied fun j _ => by rw [entries, ptr_entry none]
    have still : clear i ((List.finRange 256).map .inr) own (i, .inl 12) = some (ip.addrs 12) := by
      rw [clear_outside ?_, points]
      rintro ⟨-, mem⟩
      obtain ⟨_, -, impossible⟩ := List.mem_map.mp mem
      cases impossible
    obtain ⟨s₂, ran₂, freed, tied₂⟩ := tied₁.release still
    have range : List.range NINDIRECT = (List.finRange 256).map Fin.val :=
      List.map_coe_finRange_eq_range.symm
    refine ⟨s₂, ?_, ?_, outside₁.trans (freed.outside used.2.1)⟩
    · rw [freeIndirect, if_neg none, range, bind_eq ran₁, bind_eq ran₂]
      rfl
    · rw [indirects, clear_append]
      exact tied₂

theorem ptr_zero {data : Nat → Data} {slot : Slot} (addrs : ∀ k, ip.addrs k = 0) :
    ptr data ip slot = 0 := by
  cases slot with
  | inl k => exact addrs k
  | inr j => exact ptr_absent (addrs 12) j

/-- Inode `i` has become `ip`, which has no blocks; the other files are as before. -/
structure Emptied (sb : Superblock) (lost : Nat → Prop) (s s' : Store) (i : Nat) (ip : Inode) : Prop where
  sound : Sound sb lost s' (dinode sb s')
  inode : dinode sb s' i = ip
  others : ∀ j, j ≠ i → j < sb.ninodes → dinode sb s' j = dinode sb s j
  data : ∀ x, sb.dataStart ≤ x → s'.data x = s.data x

theorem Tied.emptied (tied : Tied sb lost s' own) (sound : Sound sb lost s (dinode sb s))
    (outside : Outside sb s s') (gone : ∀ slot, own (i, slot) = none)
    (kept : ∀ j slot, j ≠ i → own (j, slot) = owners sb s.data (dinode sb s) (j, slot))
    (inside : i < sb.ninodes) (inum : ip.inum = i) (addrs : ∀ k, ip.addrs k = 0) (fits : ip.Fits) :
    Emptied sb lost s (iupdate sb s' ip) i ip := by
  have block := iblock_low inside
  have high : ∀ x, sb.bmapstart ≤ x → (iupdate sb s' ip).data x = s'.data x := by
    intro x above
    refine iupdate_data ?_
    rw [inum]
    omega
  have data : ∀ x, sb.dataStart ≤ x → (iupdate sb s' ip).data x = s.data x := by
    intro x above
    have low := bmap_low sb
    rw [high x (by omega), outside x (.inr above)]
  have here : dinode sb (iupdate sb s' ip) i = ip := by
    rw [dinode_iupdate s' fits, inum, update_self]
  have others : ∀ j, j ≠ i → j < sb.ninodes → dinode sb (iupdate sb s' ip) j = dinode sb s j := by
    intro j other below
    rw [dinode_iupdate s' fits, inum, update_of_ne other, dinode, dinode,
      outside _ (.inl (iblock_low below))]
  have marks : ∀ x, bit sb (iupdate sb s' ip) x = bit sb s' x :=
    fun x => bit_congr (high _ (bblock_high sb x))
  have uses : ∀ x, InUse sb (iupdate sb s' ip) x ↔ InUse sb s' x := by
    intro x
    unfold InUse
    rw [marks]
  have still : Tied sb lost (iupdate sb s' ip) own :=
    ⟨tied.owned.congr (fun _ => rfl) fun x => and_congr_left' (uses x),
      fun x spare => (uses x).mpr (tied.spare x spare),
      fun x low => (marks x).trans (tied.reserved x low)⟩
  refine ⟨still.sound ?_, here, others, data⟩
  rintro ⟨j, slot⟩
  by_cases place : j = i
  · subst place
    rw [gone]
    by_cases live : Live sb (dinode sb (iupdate sb s' ip)) j
    · rw [owners_live live, here]
      rw [ptr_zero addrs, nonzero_zero]
    · exact if_neg live
  · rw [kept j slot place]
    have lives : Live sb (dinode sb (iupdate sb s' ip)) j ↔ Live sb (dinode sb s) j :=
      and_congr_right fun below => by rw [others j place below]
    by_cases live : Live sb (dinode sb s) j
    · rw [owners_live (lives.mpr live), owners_live live, others j place live.1]
      congr 1
      refine ptr_congr fun points => data _ ?_
      exact (sound.ptr_used live (show ptr s.data (dinode sb s j) (.inl 12) ≠ 0 from points)).1
    · exact (if_neg fun also => live (lives.mp also)).trans (if_neg live).symm

theorem itrunc_empties (sound : Sound sb lost s (dinode sb s)) (live : Live sb (dinode sb s) i) :
    ∃ s', itrunc sb s (dinode sb s i) =
        .ok ({ dinode sb s i with size := 0, addrs := fun _ => 0 }, s') ∧
      Emptied sb lost s s' i { dinode sb s i with size := 0, addrs := fun _ => 0 } := by
  have own : ∀ slot, owners sb s.data (dinode sb s) (i, slot) =
      nonzero (ptr s.data (dinode sb s i) slot) := fun slot => owners_live live
  obtain ⟨ip₁, s₁, ran₁, tied₁, outside₁, inode₁⟩ :=
    freeDirect_frees directs (by decide) sound.tied fun k _ => own (.inl k)
  have last : ip₁.addrs 12 = (dinode sb s i).addrs 12 := by
    rw [inode₁]
    change (if (12 : Fin 13) ∈ directs then 0 else (dinode sb s i).addrs 12) = _
    exact if_neg (by decide)
  have apart : ∀ {slot : Slot}, (∀ k ∈ directs, slot ≠ .inl k) →
      clear i (directs.map .inl) (owners sb s.data (dinode sb s)) (i, slot) =
        nonzero (ptr s.data (dinode sb s i) slot) := by
    intro slot other
    rw [clear_outside ?_, own]
    rintro ⟨-, mem⟩
    obtain ⟨k, inside, same⟩ := List.mem_map.mp mem
    exact other k inside same.symm
  have held : clear i (directs.map .inl) (owners sb s.data (dinode sb s)) (i, .inl 12) =
      nonzero (ip₁.addrs 12) := by
    rw [apart (by decide), last]
    rfl
  have entries : ∀ j, clear i (directs.map .inl) (owners sb s.data (dinode sb s)) (i, .inr j) =
      nonzero (ptr s₁.data ip₁ (.inr j)) := by
    intro j
    rw [apart fun _ _ => Sum.inr_ne_inl]
    congr 1
    by_cases none : (dinode sb s i).addrs 12 = 0
    · rw [ptr_absent none, ptr_absent (last.trans none)]
    · have used := sound.ptr_used live (show ptr s.data (dinode sb s i) (.inl 12) ≠ 0 from none)
      rw [ptr_entry none, ptr_entry (by rw [last]; exact none), last]
      exact congrArg (getUint · j) (outside₁ _ (.inr used.1)).symm
  obtain ⟨s₂, ran₂, tied₂, outside₂⟩ := freeIndirect_frees tied₁ held entries
  have inode₂ : { ip₁.setAddr 12 0 with size := 0 } =
      ({ dinode sb s i with size := 0, addrs := fun _ => 0 } : Inode) := by
    rw [inode₁]
    refine Inode.ext rfl rfl rfl rfl rfl rfl (funext fun k => ?_)
    change update _ 12 0 k = 0
    by_cases indirect : k = 12
    · rw [indirect, update_self]
    · rw [update_of_ne indirect]
      refine if_pos ?_
      revert k
      decide
  have before : (dinode sb s i).Fits := getDinode_fits _ _ _
  refine ⟨_, ?_, tied₂.emptied sound (outside₁.trans outside₂) ?_ ?_ live.1 rfl (fun _ => rfl) ?_⟩
  · rw [itrunc, bind_eq ran₁]
    dsimp only
    rw [bind_eq ran₂]
    dsimp only
    rw [inode₂]
    rfl
  · intro slot
    cases slot with
    | inl k =>
      by_cases indirect : k = 12
      · exact clear_inside (.inl (List.mem_append_right _ (by rw [indirect]; exact List.mem_singleton_self _)))
      · refine clear_inside (.inr (clear_inside (.inl (List.mem_map_of_mem ?_))))
        revert k
        decide
    | inr j =>
      exact clear_inside (.inl (List.mem_append_left _ (List.mem_map_of_mem (List.mem_finRange j))))
  · intro j slot other
    rw [clear_outside fun inside => other inside.1, clear_outside fun inside => other inside.1]
  · have small : 0 < 2 ^ 32 := by decide
    exact ⟨before.type, before.major, before.minor, before.nlink, small, fun _ => small⟩

def freeInode (ip : Inode) : Inode := { ip with type := 0, size := 0, addrs := fun _ => 0 }

theorem Emptied.trans {s'' : Store} {ip' : Inode} (first : Emptied sb lost s s' i ip)
    (second : Emptied sb lost s' s'' i ip') : Emptied sb lost s s'' i ip' :=
  ⟨second.sound, second.inode,
    fun j other inside => (second.others j other inside).trans (first.others j other inside),
    fun x high => (second.data x high).trans (first.data x high)⟩

/-- `iput` of the last reference to a file without links frees its blocks and its inode. -/
theorem iputFree_empties (sound : Sound sb lost s (dinode sb s)) (live : Live sb (dinode sb s) i) :
    ∃ s', iputFree sb s (dinode sb s i) = .ok s' ∧
      Emptied sb lost s s' i (freeInode (dinode sb s i)) := by
  obtain ⟨s₁, ran, emptied⟩ := itrunc_empties sound live
  have gone : ∀ slot, owners sb s₁.data (dinode sb s₁) (i, slot) = none := by
    intro slot
    by_cases alive : Live sb (dinode sb s₁) i
    · rw [owners_live alive, emptied.inode]
      rw [ptr_zero fun _ => rfl, nonzero_zero]
    · exact if_neg alive
  have before : (dinode sb s i).Fits := getDinode_fits _ _ _
  have small : 0 < 2 ^ 32 := by decide
  have freed : Emptied sb lost s₁ (iupdate sb s₁ (freeInode (dinode sb s i))) i
      (freeInode (dinode sb s i)) :=
    emptied.sound.tied.emptied emptied.sound (fun _ _ => rfl) gone (fun _ _ _ => rfl) live.1 rfl
      (fun _ => rfl) ⟨show 0 < 2 ^ 16 by decide, before.major, before.minor, before.nlink, small,
        fun _ => small⟩
  refine ⟨_, ?_, emptied.trans freed⟩
  rw [iputFree, bind_eq ran]
  rfl

end OsbKernel.Blocks
