import OsbKernel.Fs.FileArray
import OsbKernel.Fs.Log

/-!
# The transactions of `filewrite`

`filewrite` writes to an inode in several sections from `begin_op` to `end_op`.  The blocks that one
section gives to `log_write` are counted.
-/

namespace OsbKernel.Blocks

open Function Paging ExceptBind

section Model

variable {K : Type} [Allocator K] (sb : Superblock)

/-- The most that `filewrite` writes in one section. -/
def filewriteMax : Nat := (MAXOPBLOCKS - 1 - 1 - 2) / 2 * BSIZE

/-- A section from `begin_op` to `end_op`: the store and the inode at its start, and the blocks
given to `log_write`. -/
structure Section where
  store : Store
  ip : Inode
  logged : List Nat

def nextOff (off : BitVec 32) (r : Option Nat) : BitVec 32 := off + BitVec.ofNat 32 (r.getD 0)

/-- The loop of `filewrite` on an inode, with the rounds that are left at most: its sections, and
`i` and `f->off` at the end.  `between i` is what other processes do before the section at `i`. -/
def filewriteLoop (between : Nat → Store → Store) (inum : Nat) (m : Paging.Machine K) (pagetable addr : Word)
    (n : Int) : Nat → Nat → BitVec 32 → Store → List Section × Except Fault (Nat × BitVec 32)
  | 0, i, off, _ => ([], .ok (i, off))
  | rounds + 1, i, off, s =>
    if (i : Int) < n then
      let n1 := min (n - i).toNat filewriteMax
      let s := { between i s with logged := [] }
      match ilock sb s inum with
      | .error fault => ([], .error fault)
      | .ok ip =>
        match writei sb s ip (.user m pagetable (addr + BitVec.ofNat 64 i)) off (BitVec.ofNat 32 n1) with
        | .error fault => ([], .error fault)
        | .ok (r, _, s') =>
          if r = some n1 then
            let rest := filewriteLoop between inum m pagetable addr n rounds (i + n1) (nextOff off r) s'
            (⟨s, ip, s'.logged⟩ :: rest.1, rest.2)
          else ([⟨s, ip, s'.logged⟩], .ok (i, nextOff off r))
    else ([], .ok (i, off))

/-- `filewrite` on a writable file of type `FD_INODE`: its sections, and the result with the new
`f->off`. -/
def filewrite (between : Nat → Store → Store) (inum : Nat) (m : Paging.Machine K) (pagetable addr : Word)
    (off : BitVec 32) (n : Int) (s : Store) : List Section × Except Fault (Int × BitVec 32) :=
  let (sections, result) := filewriteLoop sb between inum m pagetable addr n n.toNat 0 off s
  (sections, result.map fun (i, off) => (if (i : Int) = n then n else -1, off))

end Model

variable {sb : Superblock} {s s' s'' : Store} {ip ip' ip'' : Inode} {b k : Nat}

/-- The indirect block of a file, and the block `page` of the free map if the indirect block is
new. -/
def Beside (ip ip' : Inode) (page b : Nat) : Prop :=
  ip'.addrs 12 ≠ 0 ∧ (b = ip'.addrs 12 ∨ ip.addrs 12 = 0 ∧ b = page)

/-- Apart from the indirect block and its bit, at most `n` blocks have been logged. -/
structure Logs (s s' : Store) (ip ip' : Inode) (n : Nat) : Prop where
  kept : ip.addrs 12 ≠ 0 → ip'.addrs 12 = ip.addrs 12
  logged : ∃ page, ∃ few : Finset Nat, few.card ≤ n ∧
    ∀ b ∈ s'.logged, b ∈ s.logged ∨ b ∈ few ∨ Beside ip ip' page b

theorem Logs.refl (s : Store) (ip : Inode) : Logs s s ip ip 0 :=
  ⟨fun _ => rfl, 0, ∅, Nat.le_refl 0, fun _ mem => .inl mem⟩

theorem Logs.mono {n n' : Nat} (logs : Logs s s' ip ip' n) (more : n ≤ n')
    (fewer : ∀ b ∈ s''.logged, b ∈ s'.logged) : Logs s s'' ip ip' n' := by
  obtain ⟨kept, page, few, count, within⟩ := logs
  exact ⟨kept, page, few, Nat.le_trans count more, fun b mem => within b (fewer b mem)⟩

theorem Logs.trans {n n' : Nat} (first : Logs s s' ip ip' n) (second : Logs s' s'' ip' ip'' n') :
    Logs s s'' ip ip'' (n + n') := by
  obtain ⟨kept, page, few, count, within⟩ := first
  obtain ⟨kept', page', few', count', within'⟩ := second
  refine ⟨?_, if ip'.addrs 12 = 0 then page' else page, few ∪ few', ?_, ?_⟩
  · intro present
    have middle := kept present
    rw [kept' (by rw [middle]; exact present), middle]
  · exact Nat.le_trans (Finset.card_union_le few few') (Nat.add_le_add count count')
  · intro b mem
    rcases within' b mem with before | held | ⟨present, beside⟩
    · rcases within b before with old | held | ⟨present, beside⟩
      · exact .inl old
      · exact .inr (.inl (Finset.mem_union_left _ held))
      · have later := kept' present
        rw [if_neg present]
        exact .inr (.inr ⟨by rw [later]; exact present, by rw [later]; exact beside⟩)
    · exact .inr (.inl (Finset.mem_union_right _ held))
    · refine .inr (.inr ⟨present, ?_⟩)
      rcases beside with same | ⟨absent, same⟩
      · exact .inl same
      · rw [if_pos absent]
        refine .inr ⟨?_, same⟩
        by_contra before
        exact before ((kept before).symm.trans absent)

theorem Allocated.logged (allocated : Allocated sb s s' b) :
    s'.logged = s.logged ++ [BBLOCK sb b, b] := by
  rw [allocated.store]
  exact List.append_assoc s.logged [BBLOCK sb b] [b]

theorem addrOrAlloc_inv {j : Fin 13} (ran : addrOrAlloc sb s ip j = .ok (b, ip', s')) :
    (b = ip.addrs j ∧ ip' = ip ∧ s' = s) ∨
      (ip.addrs j = 0 ∧ ip' = ip.setAddr j b ∧ Allocated sb s s' b) := by
  unfold addrOrAlloc at ran
  by_cases empty : ip.addrs j = 0
  · rw [if_pos empty] at ran
    rcases balloc_cases sb s with ⟨failed, -⟩ | ⟨b', s₁, found, allocated⟩
    · rw [failed] at ran
      cases ran
    · rw [bind_eq found] at ran
      cases ran
      exact .inr ⟨empty, rfl, allocated⟩
  · rw [if_neg empty] at ran
    cases ran
    exact .inl ⟨rfl, rfl, rfl⟩

theorem entryOrAlloc_inv {bp j : Nat} (ran : entryOrAlloc sb s bp j = .ok (b, s')) :
    s' = s ∨ ∃ s₁ data, Allocated sb s s₁ b ∧ s' = (s₁.setData bp data).logWrite bp := by
  unfold entryOrAlloc at ran
  by_cases empty : getUint (s.data bp) j = 0
  · rw [if_pos empty] at ran
    rcases balloc_cases sb s with ⟨failed, -⟩ | ⟨b', s₁, found, allocated⟩
    · rw [failed] at ran
      cases ran
    · rw [bind_eq found] at ran
      cases ran
      exact .inr ⟨s₁, _, allocated, rfl⟩
  · rw [if_neg empty] at ran
    cases ran
    exact .inl rfl

theorem logWrite_logs (s : Store) (ip : Inode) (b : Nat) (data : Data) :
    Logs s ((s.setData b data).logWrite b) ip ip 1 := by
  refine ⟨fun _ => rfl, 0, {b}, (Finset.card_singleton b).le, fun x mem => ?_⟩
  change x ∈ s.logged ++ [b] at mem
  rw [List.mem_append, List.mem_singleton] at mem
  exact mem.imp_right fun same => .inl (Finset.mem_singleton.mpr same)

theorem addrOrAlloc_logs {j : Fin 13} (ran : addrOrAlloc sb s ip j = .ok (b, ip', s')) (other : j ≠ 12)
    (data : Data) : Logs s ((s'.setData b data).logWrite b) ip ip' 2 := by
  rcases addrOrAlloc_inv ran with ⟨-, rfl, rfl⟩ | ⟨-, rfl, allocated⟩
  · exact (logWrite_logs _ _ b data).mono (Nat.le_succ 1) fun _ mem => mem
  · refine ⟨fun _ => setAddr_of_ne _ other.symm b, 0, {BBLOCK sb b, b}, Finset.card_le_two,
      fun x mem => ?_⟩
    change x ∈ s'.logged ++ [b] at mem
    rw [allocated.logged] at mem
    simp only [List.mem_append, List.mem_cons, List.not_mem_nil, or_false] at mem
    simp only [Finset.mem_insert, Finset.mem_singleton]
    rcases mem with (old | page | same) | same
    · exact .inl old
    · exact .inr (.inl (.inl page))
    · exact .inr (.inl (.inr same))
    · exact .inr (.inl (.inr same))

theorem indirect_logs (ran : addrOrAlloc sb s ip 12 = .ok (b, ip', s'))
    (present : ip'.addrs 12 ≠ 0) : b = ip'.addrs 12 ∧ Logs s s' ip ip' 0 := by
  rcases addrOrAlloc_inv ran with ⟨place, rfl, rfl⟩ | ⟨empty, rfl, allocated⟩
  · exact ⟨place, .refl _ _⟩
  · have place : (ip.setAddr 12 b).addrs 12 = b := setAddr_self ip 12 b
    refine ⟨place.symm, fun before => absurd empty before, BBLOCK sb b, ∅, Nat.le_refl 0, fun x mem => ?_⟩
    rw [allocated.logged] at mem
    simp only [List.mem_append, List.mem_cons, List.not_mem_nil, or_false] at mem
    refine mem.imp_right fun new => .inr ⟨present, ?_⟩
    exact new.symm.imp_right fun same => ⟨empty, same⟩

theorem entryOrAlloc_logs {j : Nat} (ran : entryOrAlloc sb s (ip.addrs 12) j = .ok (b, s'))
    (present : ip.addrs 12 ≠ 0) (data : Data) :
    Logs s ((s'.setData b data).logWrite b) ip ip 2 := by
  rcases entryOrAlloc_inv ran with rfl | ⟨s₁, data', allocated, rfl⟩
  · exact (logWrite_logs _ _ b data).mono (Nat.le_succ 1) fun _ mem => mem
  · refine ⟨fun _ => rfl, 0, {BBLOCK sb b, b}, Finset.card_le_two, fun x mem => ?_⟩
    change x ∈ s₁.logged ++ [ip.addrs 12] ++ [b] at mem
    rw [allocated.logged] at mem
    simp only [List.mem_append, List.mem_cons, List.not_mem_nil, or_false] at mem
    simp only [Finset.mem_insert, Finset.mem_singleton]
    rcases mem with ((old | page | same) | indirect) | same
    · exact .inl old
    · exact .inr (.inl (.inl page))
    · exact .inr (.inl (.inr same))
    · exact .inr (.inr ⟨present, .inl indirect⟩)
    · exact .inr (.inl (.inr same))

theorem bmap_logs {bn : Nat} (ran : bmap sb s ip bn = .ok (b, ip', s'))
    (points : blockAt s'.data ip' bn ≠ 0) (data : Data) :
    Logs s ((s'.setData b data).logWrite b) ip ip' 2 := by
  unfold bmap at ran
  by_cases direct : bn < NDIRECT
  · rw [dif_pos direct] at ran
    refine addrOrAlloc_logs ran ?_ data
    intro same
    have index := congrArg Fin.val same
    change bn = 12 at index
    unfold NDIRECT at direct
    omega
  · rw [dif_neg direct] at ran
    by_cases entry : bn - NDIRECT < NINDIRECT
    · rw [if_pos entry] at ran
      rw [blockAt_indirect direct entry] at points
      have present : ip'.addrs 12 ≠ 0 := fun none => points (ptr_absent none _)
      obtain ⟨⟨bp, ip₁, s₁⟩, first, ran⟩ := bind_ok ran
      obtain ⟨⟨b', s₂⟩, second, ran⟩ := bind_ok ran
      cases ran
      obtain ⟨rfl, logs⟩ := indirect_logs first present
      exact logs.trans (entryOrAlloc_logs second present data)
    · rw [if_neg entry] at ran
      cases ran

section Loop

variable {K : Type} [Allocator K] {src : Source K} {lost : Nat → Prop} {view : Nat → Inode}
  {i rounds off off' tot tot' n : Nat}

def chunkSize (off len : Nat) : Nat := min len (BSIZE - off % BSIZE)

/-- The number of blocks that `len` bytes from `off` on touch. -/
def blockCount (off len : Nat) : Nat :=
  if len = 0 then 0 else (off % BSIZE + len + (BSIZE - 1)) / BSIZE

theorem blockCount_chunk {len : Nat} (more : 0 < len) :
    blockCount off len = 1 + blockCount (off + chunkSize off len) (len - chunkSize off len) := by
  unfold blockCount chunkSize BSIZE
  rw [if_neg (by omega)]
  by_cases last : len - min len (1024 - off % 1024) = 0
  · rw [if_pos last]
    omega
  · rw [if_neg last]
    omega

/-- The store with `bytes` in block `b` from position `off` of the file on. -/
def putChunk (s : Store) (b off : Nat) (bytes : List Byte) : Store :=
  s.setData b (putBytes (s.data b) (off % BSIZE) bytes)

theorem Extends.putChunk {bytes : List Byte} (extended : Extends sb lost s s' view i ip')
    (live : Live sb view i) (points : blockAt s'.data ip' (off / BSIZE) ≠ 0)
    (inside : off % BSIZE + bytes.length ≤ BSIZE) :
    Writes sb lost s ((putChunk s' (blockAt s'.data ip' (off / BSIZE)) off bytes).logWrite
      (blockAt s'.data ip' (off / BSIZE))) view i ip' off bytes :=
  (extended.chunk live points inside rfl).1

theorem writeiLoop_round (more : tot < n)
    (ran : writeiLoop sb src (rounds + 1) s ip off tot n = .ok (tot', off', ip', s')) :
    ∃ b ip₁ s₁ bytes, bmap sb s ip (off / BSIZE) = .ok (b, ip₁, s₁) ∧
      bytes.length ≤ chunkSize off (n - tot) ∧
      ((ip' = ip₁ ∧ s' = putChunk s₁ b off bytes) ∨
        writeiLoop sb src rounds ((putChunk s₁ b off bytes).logWrite b) ip₁ (off + chunkSize off (n - tot))
          (tot + chunkSize off (n - tot)) n = .ok (tot', off', ip', s')) := by
  rw [writeiLoop, if_neg (Nat.not_le_of_lt more)] at ran
  obtain ⟨⟨b, ip₁, s₁⟩, mapped, ran⟩ := bind_ok ran
  dsimp only at ran
  have bound := (eitherCopyin_fetches src tot (min (n - tot) (BSIZE - off % BSIZE))).bound
  refine ⟨b, ip₁, s₁, _, mapped, bound, ?_⟩
  by_cases failed : (src.eitherCopyin tot (min (n - tot) (BSIZE - off % BSIZE))).2 = false
  · rw [if_pos failed] at ran
    cases ran
    exact .inl ⟨rfl, rfl⟩
  · rw [if_neg failed] at ran
    exact .inr ran

theorem writeiLoop_finished (done : n ≤ tot)
    (ran : writeiLoop sb src rounds s ip off tot n = .ok (tot', off', ip', s')) :
    ip' = ip ∧ s' = s := by
  cases rounds with
  | zero =>
    cases ran
    exact ⟨rfl, rfl⟩
  | succ rounds =>
    rw [writeiLoop, if_pos done] at ran
    cases ran
    exact ⟨rfl, rfl⟩

theorem writeiLoop_logs (sound : Sound sb lost s view) (live : Live sb view i)
    (inside : off + (n - tot) ≤ MAXFILE * BSIZE)
    (ran : writeiLoop sb src rounds s (view i) off tot n = .ok (tot', off', ip', s')) :
    Logs s s' (view i) ip' (2 * blockCount off (n - tot)) := by
  induction rounds generalizing s view off tot with
  | zero =>
    cases ran
    exact (Logs.refl _ _).mono (Nat.zero_le _) fun _ mem => mem
  | succ rounds ih =>
    by_cases more : tot < n
    · obtain ⟨b, ip₁, s₁, bytes, mapped, bound, next⟩ := writeiLoop_round more ran
      have small : off % BSIZE < BSIZE := Nat.mod_lt _ (by decide)
      have number : off / BSIZE < MAXFILE := by
        rw [Nat.div_lt_iff_lt_mul (by decide)]
        omega
      have size : chunkSize off (n - tot) = min (n - tot) (BSIZE - off % BSIZE) := rfl
      rcases bmap_cases sound live number fun _ _ => Finset.mem_univ _ with
        ⟨failed, -⟩ | ⟨ip₂, s₂, found, extended, -, points⟩
      · rw [failed] at mapped
        cases mapped
      · rw [found] at mapped
        cases mapped
        have logs : Logs s ((putChunk s₁ (blockAt s₁.data ip₁ (off / BSIZE)) off bytes).logWrite _)
            (view i) ip₁ 2 := bmap_logs found points _
        rw [blockCount_chunk (by omega), Nat.mul_add]
        rcases next with ⟨rfl, rfl⟩ | rest
        · exact logs.mono (Nat.le_add_right 2 _) fun b mem => List.mem_append_left _ mem
        · have writes := extended.putChunk live points
            (by omega : off % BSIZE + bytes.length ≤ BSIZE)
          have current : update view i ip₁ i = ip₁ := update_self _ _ _
          have room : off + chunkSize off (n - tot) + (n - (tot + chunkSize off (n - tot))) ≤
              MAXFILE * BSIZE := by omega
          have later := ih writes.sound (writes.live.mpr live) room (by rw [current]; exact rest)
          rw [current, ← Nat.sub_sub] at later
          exact logs.trans later
    · obtain ⟨rfl, rfl⟩ := writeiLoop_finished (Nat.le_of_not_lt more) ran
      exact (Logs.refl _ _).mono (Nat.zero_le _) fun _ mem => mem

/-- The first block of a write that starts inside a block is not new, so a write of `filewriteMax`
bytes logs seven blocks at most. -/
theorem writeiLoop_logs_max (sound : Sound sb lost s view) (live : Live sb view i)
    (full : Full s.data (view i)) (start : off ≤ (view i).size) (inside : off + n ≤ MAXFILE * BSIZE)
    (few : n ≤ filewriteMax)
    (ran : writeiLoop sb src rounds s (view i) off 0 n = .ok (tot', off', ip', s')) :
    Logs s s' (view i) ip' 7 := by
  have most : filewriteMax = 3072 := rfl
  have count : ∀ o, blockCount o n ≤ (o % BSIZE + n + (BSIZE - 1)) / BSIZE := by
    intro o
    unfold blockCount
    split
    · exact Nat.zero_le _
    · exact Nat.le_refl _
  by_cases aligned : off % BSIZE = 0
  · have blocks := count off
    rw [aligned] at blocks
    refine (writeiLoop_logs sound live (by omega) ran).mono ?_ fun _ mem => mem
    rw [Nat.sub_zero]
    unfold BSIZE at blocks
    omega
  · have present : blockAt s.data (view i) (off / BSIZE) ≠ 0 := by
      refine full _ ?_
      have whole := Nat.div_add_mod off BSIZE
      rw [Nat.mul_comm] at whole
      omega
    cases rounds with
    | zero =>
      cases ran
      exact (Logs.refl _ _).mono (Nat.zero_le _) fun _ mem => mem
    | succ rounds =>
      by_cases more : 0 < n
      · obtain ⟨b, ip₁, s₁, bytes, mapped, bound, next⟩ := writeiLoop_round more ran
        rw [bmap_present present] at mapped
        cases mapped
        have logs : Logs s ((putChunk s (blockAt s.data (view i) (off / BSIZE)) off bytes).logWrite _)
            (view i) (view i) 1 := logWrite_logs s (view i) _ _
        rcases next with ⟨rfl, rfl⟩ | rest
        · exact logs.mono (by decide) fun b mem => List.mem_append_left _ mem
        · have small : off % BSIZE < BSIZE := Nat.mod_lt _ (by decide)
          have size : chunkSize off (n - 0) = min (n - 0) (BSIZE - off % BSIZE) := rfl
          have sound' := ((Extends.refl sound i).putChunk live present
            (by omega : off % BSIZE + bytes.length ≤ BSIZE)).sound
          rw [update_eq_self] at sound'
          refine (logs.trans (writeiLoop_logs sound' live (by omega) rest)).mono ?_ fun _ mem => mem
          have blocks := count off
          have first : blockCount off n = _ := blockCount_chunk more
          rw [Nat.sub_zero, Nat.zero_add]
          unfold BSIZE at *
          omega
      · obtain ⟨rfl, rfl⟩ := writeiLoop_finished (Nat.le_of_not_lt more) ran
        exact (Logs.refl _ _).mono (Nat.zero_le _) fun _ mem => mem

theorem writei_logs {off n : BitVec 32} {r : Option Nat} (sound : Sound sb lost s (dinode sb s))
    (live : Live sb (dinode sb s) i) (full : Full s.data (dinode sb s i)) (few : n.toNat ≤ filewriteMax)
    (ran : writei sb s (dinode sb s i) src off n = .ok (r, ip', s')) :
    ∃ blocks : Finset Nat, blocks.card ≤ MAXOPBLOCKS ∧
      ∀ b ∈ s'.logged, b ∈ s.logged ∨ b ∈ blocks := by
  by_cases rejected : Rejected (dinode sb s i) off n
  · rw [writei_rejected src rejected] at ran
    cases ran
    exact ⟨∅, Nat.zero_le _, fun _ mem => .inl mem⟩
  · obtain ⟨start, -, inside⟩ := accepted_bounds rejected
    rw [writei_loop src rejected] at ran
    obtain ⟨⟨tot, off', ip₁, s₁⟩, loop, ran⟩ := bind_ok ran
    cases ran
    obtain ⟨-, page, blocks, count, within⟩ :=
      writeiLoop_logs_max sound live full start inside few loop
    refine ⟨insert (IBLOCK sb ip₁.inum) (insert page (insert (ip₁.addrs 12) blocks)), ?_, fun b mem => ?_⟩
    · have first := Finset.card_insert_le (ip₁.addrs 12) blocks
      have second := Finset.card_insert_le page (insert (ip₁.addrs 12) blocks)
      have third := Finset.card_insert_le (IBLOCK sb ip₁.inum) (insert page (insert (ip₁.addrs 12) blocks))
      change _ ≤ 10
      omega
    · rw [Finset.mem_insert, Finset.mem_insert, Finset.mem_insert]
      rcases List.mem_append.mp mem with mem | mem
      · rcases within b mem with old | held | ⟨-, indirect | ⟨-, free⟩⟩
        · exact .inl old
        · exact .inr (.inr (.inr (.inr held)))
        · exact .inr (.inr (.inr (.inl indirect)))
        · exact .inr (.inr (.inl free))
      · exact .inr (.inl (List.mem_singleton.mp mem))

end Loop

section Sections

variable {K : Type} [Allocator K]

/-- A section is a `writei` of at most `filewriteMax` bytes on what `ilock` has found. -/
structure IsSection (sb : Superblock) (between : Nat → Store → Store) (inum : Nat) (sec : Section) :
    Prop where
  store : ∃ i s, sec.store = { between i s with logged := [] }
  ip : sec.ip = dinode sb sec.store inum
  allocated : sec.ip.type ≠ 0
  write : ∃ (src : Source K) (off n : BitVec 32) (r : Option Nat) (ip' : Inode) (s' : Store),
    n.toNat ≤ filewriteMax ∧ writei sb sec.store sec.ip src off n = .ok (r, ip', s') ∧
    sec.logged = s'.logged

theorem ilock_ok {inum : Nat} (locked : ilock sb s inum = .ok ip) :
    ip = dinode sb s inum ∧ ip.type ≠ 0 := by
  unfold ilock at locked
  by_cases free : (dinode sb s inum).type = 0
  · rw [if_pos free] at locked
    cases locked
  · rw [if_neg free] at locked
    cases locked
    exact ⟨rfl, free⟩

theorem filewriteLoop_sections (sb : Superblock) (between : Nat → Store → Store) (inum : Nat)
    (m : Paging.Machine K) (pt addr : Word) (n : Int) (rounds i : Nat) (off : BitVec 32) (s : Store) :
    ∀ sec ∈ (filewriteLoop sb between inum m pt addr n rounds i off s).1,
      IsSection (K := K) sb between inum sec := by
  induction rounds generalizing i off s with
  | zero => exact fun sec mem => absurd mem List.not_mem_nil
  | succ rounds ih =>
    unfold filewriteLoop
    by_cases more : (i : Int) < n
    · rw [if_pos more]
      dsimp only
      cases locked : ilock sb { between i s with logged := [] } inum with
      | error fault => exact fun sec mem => absurd mem List.not_mem_nil
      | ok ip =>
        dsimp only
        obtain ⟨rfl, allocated⟩ := ilock_ok locked
        have few : (BitVec.ofNat 32 (min (n - i).toNat filewriteMax)).toNat ≤ filewriteMax := by
          exact Nat.le_trans (Nat.mod_le _ _) (Nat.min_le_right _ _)
        cases ran : writei sb { between i s with logged := [] }
            (dinode sb { between i s with logged := [] } inum)
            (.user m pt (addr + BitVec.ofNat 64 i)) off
            (BitVec.ofNat 32 (min (n - i).toNat filewriteMax)) with
        | error fault => exact fun sec mem => absurd mem List.not_mem_nil
        | ok result =>
          obtain ⟨r, ip', s'⟩ := result
          dsimp only
          have this : IsSection (K := K) sb between inum ⟨_, _, s'.logged⟩ :=
            ⟨⟨i, s, rfl⟩, rfl, allocated, _, _, _, r, ip', s', few, ran, rfl⟩
          by_cases whole : r = some (min (n - i).toNat filewriteMax)
          · rw [if_pos whole]
            intro sec mem
            rcases List.mem_cons.mp mem with rfl | later
            · exact this
            · exact ih _ _ _ sec later
          · rw [if_neg whole]
            intro sec mem
            rw [List.mem_singleton.mp mem]
            exact this
    · rw [if_neg more]
      exact fun sec mem => absurd mem List.not_mem_nil

/-- No section of `filewrite` logs more than `MAXOPBLOCKS` blocks. -/
theorem filewrite_fits_its_reservation (sb : Superblock) (between : Nat → Store → Store) (inum : Nat)
    (inside : inum < sb.ninodes) (m : Paging.Machine K) (pt addr : Word) (off : BitVec 32) (n : Int)
    (s : Store) : ∀ sec ∈ (filewrite sb between inum m pt addr off n s).1,
      (∃ lost, Sound sb lost sec.store (dinode sb sec.store)) → Full sec.store.data sec.ip →
      sec.logged.toFinset.card ≤ MAXOPBLOCKS := by
  rintro sec mem ⟨lost, sound⟩ full
  have found := filewriteLoop_sections sb between inum m pt addr n n.toNat 0 off s sec mem
  obtain ⟨⟨i, s, store⟩, ip, allocated, src, off, n, r, ip', s', few, ran, logged⟩ := found
  rw [ip] at allocated full ran
  obtain ⟨blocks, count, within⟩ := writei_logs sound ⟨inside, allocated⟩ full few ran
  refine Nat.le_trans (Finset.card_le_card fun b mem => ?_) count
  rw [List.mem_toFinset, logged] at mem
  refine (within b mem).resolve_left fun old => ?_
  rw [store] at old
  cases old

end Sections

/-- A write that gives the small file a second block is one section, which logs both data blocks,
the free map and the inode block. -/
theorem filewrite_fits_its_reservation_small :
    (filewrite smallSuper (fun _ _ => smallStore) 1 (onePage 0x4000) 0x1000 0 10 1016 smallStore).1.map
        (fun sec => (sec.ip.inum, sec.logged)) = [(1, [4, 3, 5, 5, 2])] ∧
    ∀ sec ∈ (filewrite smallSuper (fun _ _ => smallStore) 1 (onePage 0x4000) 0x1000 0 10 1016 smallStore).1,
      (∃ lost, Sound smallSuper lost sec.store (dinode smallSuper sec.store)) ∧
        Full sec.store.data sec.ip ∧ sec.logged.toFinset.card ≤ MAXOPBLOCKS := by
  refine ⟨by decide +kernel, fun sec mem => ?_⟩
  have live : Live smallSuper (dinode smallSuper smallStore) 1 := by decide +kernel
  have found := filewriteLoop_sections smallSuper (fun _ _ => smallStore) 1 (onePage 0x4000) 0x1000 0
    1016 1016 0 10 smallStore sec mem
  have store : sec.store = smallStore := found.store.elim fun _ known => known.elim fun _ same => same
  have sound : ∃ lost, Sound smallSuper lost sec.store (dinode smallSuper sec.store) := by
    rw [store]
    exact ⟨_, small_disk.sound⟩
  have full : Full sec.store.data sec.ip := by
    rw [found.ip, store]
    exact small_disk.full 1 live
  exact ⟨sound, full, filewrite_fits_its_reservation smallSuper (fun _ _ => smallStore) 1 (by decide)
    (onePage 0x4000) 0x1000 0 10 1016 smallStore sec mem sound full⟩

end OsbKernel.Blocks
