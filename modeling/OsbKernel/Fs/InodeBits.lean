import OsbKernel.Fs.Inode

/-!
# Numbers, bits and inodes in a block

What is read from a block after a number, a bit or an inode has been stored in it.
-/

namespace OsbKernel.Blocks

open Function Paging

variable {d : Data} {k n v j place q : Nat} {addrs : Fin 13 → Nat}

theorem getNat_congr {d' : Data} (same : ∀ j, k ≤ j → j < k + n → d' j = d j) :
    getNat d' k n = getNat d k n := by
  induction n generalizing k with
  | zero => rfl
  | succ n ih =>
    rw [getNat, getNat, same k (Nat.le_refl k) (by omega),
      ih fun j low high => same j (by omega) (by omega)]

theorem getNat_lt (d : Data) (k n : Nat) : getNat d k n < 256 ^ n := by
  induction n generalizing k with
  | zero => exact Nat.one_pos
  | succ n ih =>
    have rest := ih (k + 1)
    rw [getNat, Nat.pow_succ]
    omega

theorem getNat_zero (zero : ∀ j, k ≤ j → j < k + n → d j = 0) :
    getNat d k n = 0 := by
  induction n generalizing k with
  | zero => rfl
  | succ n ih =>
    rw [getNat, zero k (Nat.le_refl k) (by omega),
      ih fun j low high => zero j (by omega) (by omega)]
    rfl

theorem putNat_inside (low : k ≤ j) (high : j < k + n) :
    putNat d k n v j = BitVec.ofNat 8 (v / 256 ^ (j - k)) := if_pos ⟨low, high⟩

theorem putNat_outside (outside : j < k ∨ k + n ≤ j) :
    putNat d k n v j = d j := if_neg (by omega)

theorem getNat_putNat (d : Data) (k n v : Nat) : getNat (putNat d k n v) k n = v % 256 ^ n := by
  induction n generalizing d k v with
  | zero => rw [Nat.pow_zero, Nat.mod_one]; rfl
  | succ n ih =>
    have rest : getNat (putNat d k (n + 1) v) (k + 1) n =
        getNat (putNat d (k + 1) n (v / 256)) (k + 1) n := by
      refine getNat_congr fun j low high => ?_
      have index : j - k = j - (k + 1) + 1 := by omega
      rw [putNat_inside (by omega) (by omega), putNat_inside low high, index, Nat.pow_succ',
        Nat.div_div_eq_div_mul]
    have split : v % 256 ^ (n + 1) = v % 256 + 256 * (v / 256 % 256 ^ n) := by
      rw [Nat.pow_succ', Nat.mod_mul]
    rw [getNat, rest, ih, putNat_inside (Nat.le_refl k) (by omega), Nat.sub_self, Nat.pow_zero,
      Nat.div_one, BitVec.toNat_ofNat, split]

theorem getNat_putNat_of_lt (small : v < 256 ^ n) :
    getNat (putNat d k n v) k n = v := by
  rw [getNat_putNat, Nat.mod_eq_of_lt small]

theorem getNat_putNat_of_disjoint {k' n' : Nat} (apart : k' + n' ≤ k ∨ k + n ≤ k') :
    getNat (putNat d k n v) k' n' = getNat d k' n' :=
  getNat_congr fun _ _ _ => putNat_outside (by omega)

theorem getUint_putUint {i : Nat} (small : v < 2 ^ 32) : getUint (putUint d i v) i = v :=
  getNat_putNat_of_lt small

theorem getUint_putUint_of_ne {i : Nat} (other : j ≠ i) :
    getUint (putUint d i v) j = getUint d j :=
  getNat_putNat_of_disjoint (by omega)

theorem getUint_zero (j : Nat) : getUint (fun _ => 0) j = 0 := getNat_zero fun _ _ _ => rfl

theorem mask_getLsbD {r : Nat} (inside : r < 8) (i : Nat) :
    (1#8 <<< r).getLsbD i = decide (r = i) := by
  change (BitVec.twoPow 8 r).getLsbD i = _
  simp [inside]

theorem bitSet_eq (d : Data) (bi : Nat) : bitSet d bi = (d (bi / 8)).getLsbD (bi % 8) := by
  have inside : bi % 8 < 8 := Nat.mod_lt _ (by decide)
  have masked : d (bi / 8) &&& (1#8 <<< (bi % 8)) =
      if (d (bi / 8)).getLsbD (bi % 8) then 1#8 <<< (bi % 8) else 0#8 := BitVec.and_twoPow _ _
  have nonzero : 1#8 <<< (bi % 8) ≠ 0 := by
    intro zero
    have bit := congrArg (fun b : Byte => b.getLsbD (bi % 8)) zero
    simp only [mask_getLsbD inside] at bit
    simp at bit
  unfold bitSet
  rw [masked]
  cases (d (bi / 8)).getLsbD (bi % 8) with
  | false => simp
  | true => simpa using nonzero

theorem bitSet_setBit (d : Data) (bi bj : Nat) :
    bitSet (setBit d bi) bj = (decide (bj = bi) || bitSet d bj) := by
  have inside : bi % 8 < 8 := Nat.mod_lt _ (by decide)
  rw [bitSet_eq, bitSet_eq, setBit]
  by_cases byte : bj / 8 = bi / 8
  · rw [byte, update_self, BitVec.getLsbD_or, mask_getLsbD inside, Bool.or_comm]
    congr 1
    exact decide_eq_decide.mpr (by omega)
  · have other : bj ≠ bi := fun same => byte (by rw [same])
    rw [update_of_ne byte, decide_eq_false other, Bool.false_or]

theorem bitSet_clearBit (d : Data) (bi bj : Nat) :
    bitSet (clearBit d bi) bj = (!decide (bj = bi) && bitSet d bj) := by
  have inside : bi % 8 < 8 := Nat.mod_lt _ (by decide)
  have inside' : bj % 8 < 8 := Nat.mod_lt _ (by decide)
  rw [bitSet_eq, bitSet_eq, clearBit]
  by_cases byte : bj / 8 = bi / 8
  · rw [byte, update_self, BitVec.getLsbD_and, BitVec.getLsbD_not, mask_getLsbD inside,
      decide_eq_true inside', Bool.true_and, Bool.and_comm]
    congr 2
    exact decide_eq_decide.mpr (by omega)
  · have other : bj ≠ bi := fun same => byte (by rw [same])
    rw [update_of_ne byte, decide_eq_false other, Bool.not_false, Bool.true_and]

theorem putAddrs_inside (k : Fin 13) {r : Nat}
    (small : r < 4) :
    putAddrs d place addrs (place + 4 * k + r) = BitVec.ofNat 8 (addrs k / 256 ^ r) := by
  have range : place ≤ place + 4 * k.val + r ∧ place + 4 * k.val + r < place + 4 * 13 := by omega
  have index : (place + 4 * k.val + r - place) / 4 = k.val := by omega
  have rest : (place + 4 * k.val + r - place) % 4 = r := by omega
  rw [putAddrs, dif_pos range]
  simp only [index, rest]

theorem putAddrs_outside (outside : j < place ∨ place + 52 ≤ j) : putAddrs d place addrs j = d j :=
  dif_neg (by omega)

theorem getNat_putAddrs (k : Fin 13)
    (small : addrs k < 2 ^ 32) : getNat (putAddrs d place addrs) (place + 4 * k) 4 = addrs k := by
  have bytes : getNat (putAddrs d place addrs) (place + 4 * k) 4 =
      getNat (putNat d (place + 4 * k) 4 (addrs k)) (place + 4 * k) 4 := by
    refine getNat_congr fun j low high => ?_
    obtain ⟨r, rfl⟩ := Nat.exists_eq_add_of_le low
    rw [putAddrs_inside k (by omega), putNat_inside low high, Nat.add_sub_cancel_left]
  rw [bytes]
  exact getNat_putNat_of_lt small

theorem getNat_putAddrs_of_disjoint
    (apart : k + n ≤ place ∨ place + 52 ≤ k) : getNat (putAddrs d place addrs) k n = getNat d k n :=
  getNat_congr fun _ _ _ => putAddrs_outside (by omega)

structure Inode.Fits (ip : Inode) : Prop where
  type : ip.type < 2 ^ 16
  major : ip.major < 2 ^ 16
  minor : ip.minor < 2 ^ 16
  nlink : ip.nlink < 2 ^ 16
  size : ip.size < 2 ^ 32
  addrs : ∀ k, ip.addrs k < 2 ^ 32

theorem getDinode_fits (inum : Nat) (d : Data) (q : Nat) : (getDinode inum d q).Fits :=
  ⟨getNat_lt _ _ 2, getNat_lt _ _ 2, getNat_lt _ _ 2, getNat_lt _ _ 2, getNat_lt _ _ 4,
    fun _ => getNat_lt _ _ 4⟩

theorem getDinode_putDinode {ip : Inode} (fits : ip.Fits) :
    getDinode ip.inum (putDinode d q ip) q = ip := by
  apply Inode.ext
  · rfl
  · change getNat (putAddrs _ _ _) _ _ = _
    rw [getNat_putAddrs_of_disjoint (by omega), getNat_putNat_of_disjoint (by omega),
      getNat_putNat_of_disjoint (by omega), getNat_putNat_of_disjoint (by omega),
      getNat_putNat_of_disjoint (by omega), getNat_putNat_of_lt fits.type]
  · change getNat (putAddrs _ _ _) _ _ = _
    rw [getNat_putAddrs_of_disjoint (by omega), getNat_putNat_of_disjoint (by omega),
      getNat_putNat_of_disjoint (by omega), getNat_putNat_of_disjoint (by omega),
      getNat_putNat_of_lt fits.major]
  · change getNat (putAddrs _ _ _) _ _ = _
    rw [getNat_putAddrs_of_disjoint (by omega), getNat_putNat_of_disjoint (by omega),
      getNat_putNat_of_disjoint (by omega), getNat_putNat_of_lt fits.minor]
  · change getNat (putAddrs _ _ _) _ _ = _
    rw [getNat_putAddrs_of_disjoint (by omega), getNat_putNat_of_disjoint (by omega),
      getNat_putNat_of_lt fits.nlink]
  · change getNat (putAddrs _ _ _) _ _ = _
    rw [getNat_putAddrs_of_disjoint (by omega), getNat_putNat_of_lt fits.size]
  · funext k
    exact getNat_putAddrs k (fits.addrs k)

theorem putDinode_outside {ip : Inode} (outside : j < 64 * q ∨ 64 * q + 64 ≤ j) :
    putDinode d q ip j = d j := by
  rw [putDinode, putAddrs_outside (by omega), putNat_outside (by omega), putNat_outside (by omega),
    putNat_outside (by omega), putNat_outside (by omega), putNat_outside (by omega)]

theorem getDinode_congr {d' : Data} (inum : Nat)
    (same : ∀ j, 64 * q ≤ j → j < 64 * q + 64 → d' j = d j) :
    getDinode inum d' q = getDinode inum d q := by
  have part : ∀ k n, 64 * q ≤ k → k + n ≤ 64 * q + 64 → getNat d' k n = getNat d k n :=
    fun k n low high => getNat_congr fun j first last => same j (by omega) (by omega)
  apply Inode.ext
  · rfl
  · exact part _ _ (by omega) (by omega)
  · exact part _ _ (by omega) (by omega)
  · exact part _ _ (by omega) (by omega)
  · exact part _ _ (by omega) (by omega)
  · exact part _ _ (by omega) (by omega)
  · funext k
    exact part _ _ (by omega) (by omega)

end OsbKernel.Blocks
