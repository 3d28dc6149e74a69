import OsbKernel.Fs.Copying
import OsbKernel.Fs.FileBytes

/-!
# `readi` and `writei`

What the loops of `writei` and `readi` do to the bytes of a file and of memory, also when a copy
fails in the middle of a chunk.
-/

namespace OsbKernel.Blocks

open Function Paging ExceptBind Ownership PartialMap

variable {K : Type} [Allocator K] {sb : Superblock} {lost : Nat → Prop} {s s' : Store} {view : Nat → Inode} {i : Nat}
  {ip ip' : Inode}

/-- How far a write gets.  The bytes `stored` are those of the source up to the first missing one;
the write stops at the start `tot'` of the chunk with that byte. -/
structure WriteRun (src : Source K) (off tot n tot' : Nat) (stored : List Byte) : Prop where
  low : tot ≤ tot'
  high : tot' ≤ n
  holds : Holds src.byte tot stored
  whole : tot' = n → stored.length = n - tot
  short : tot' < n → tot' ≤ tot + stored.length ∧ tot + stored.length < n ∧
    src.byte (tot + stored.length) = none ∧
    tot + stored.length < tot' + (BSIZE - (off + (tot' - tot)) % BSIZE) ∧
    (tot' = tot ∨ (off + (tot' - tot)) % BSIZE = 0)

theorem writeRun_done (src : Source K) (off n : Nat) : WriteRun src off n n n [] :=
  ⟨Nat.le_refl _, Nat.le_refl _, holds_nil, fun _ => (Nat.sub_self n).symm,
    fun less => absurd less (Nat.lt_irrefl _)⟩

variable {off tot n rounds : Nat}

theorem writeRun_stop {src : Source K} {r : List Byte × Bool} (less : tot < n)
    (fetches : Fetches src.byte tot (min (n - tot) (BSIZE - off % BSIZE)) r) (failed : r.2 = false) :
    WriteRun src off tot n tot r.1 := by
  have partly : r.1.length < min (n - tot) (BSIZE - off % BSIZE) := by
    refine Nat.lt_of_le_of_ne fetches.bound fun full => ?_
    rw [fetches.returns.mpr full] at failed
    exact Bool.false_ne_true failed.symm
  have place : off + (tot - tot) = off := by omega
  refine ⟨Nat.le_refl _, less.le, fetches.holds, fun same => absurd same less.ne, fun _ => ?_⟩
  rw [place]
  exact ⟨Nat.le_add_right _ _, by omega, fetches.stopped partly, by omega, .inl rfl⟩

theorem WriteRun.chunk {src : Source K} {m tot' : Nat} {bytes stored : List Byte}
    (less : tot < n) (size : m = min (n - tot) (BSIZE - off % BSIZE)) (length : bytes.length = m)
    (holds : Holds src.byte tot bytes) (rest : WriteRun src (off + m) (tot + m) n tot' stored) :
    WriteRun src off tot n tot' (bytes ++ stored) := by
  obtain ⟨low, high, later, whole, short⟩ := rest
  have total : (bytes ++ stored).length = m + stored.length := by rw [List.length_append, length]
  have place : off + m + (tot' - (tot + m)) = off + (tot' - tot) := by omega
  refine ⟨by omega, high, holds.append (by rw [length]; exact later), ?_, ?_⟩
  · intro done
    omega
  · intro partly
    obtain ⟨first, second, missing, chunk, start⟩ := short partly
    rw [place] at chunk start
    rw [total, ← Nat.add_assoc]
    refine ⟨first, second, missing, chunk, .inr ?_⟩
    rcases start with same | aligned
    · unfold BSIZE at *
      omega
    · exact aligned

theorem Extends.chunk {bytes : List Byte} {s₂ : Store}
    (extended : Extends sb lost s s' view i ip') (live : Live sb view i)
    (points : blockAt s'.data ip' (off / BSIZE) ≠ 0) (inside : off % BSIZE + bytes.length ≤ BSIZE)
    (stored : s₂.data = update s'.data (blockAt s'.data ip' (off / BSIZE))
      (putBytes (s'.data (blockAt s'.data ip' (off / BSIZE))) (off % BSIZE) bytes)) :
    Writes sb lost s s₂ view i ip' off bytes ∧ ∀ P, Spent sb P s' s₂ ip' ip' := by
  have current : update view i ip' i = ip' := update_self _ _ _
  have second := setData_writes extended.sound (extended.live.mpr live) (by rw [current]; exact points)
    inside (by rw [current]; exact stored)
  rw [current] at second
  exact second.imp_left (extended.writes off).trans

theorem writeiLoop_done (src : Source K) (rounds off n : Nat) (sound : Sound sb lost s view) (i : Nat) :
    ∃ tot' ip' s' stored,
      writeiLoop sb src rounds s (view i) off n n = .ok (tot', off + (tot' - n), ip', s') ∧
      Writes sb lost s s' view i ip' off stored ∧ WriteRun src off n n tot' stored := by
  refine ⟨n, view i, s, [], ?_, (Extends.refl sound i).writes off, writeRun_done src off n⟩
  rw [Nat.sub_self]
  cases rounds with
  | zero => rfl
  | succ rounds => exact if_pos (Nat.le_refl _)

theorem writeiLoop_writes (src : Source K) {P : Finset Slot} (sound : Sound sb lost s view)
    (live : Live sb view i) (enough : n ≤ tot + rounds) (order : tot ≤ n)
    (inside : off + (n - tot) ≤ MAXFILE * BSIZE)
    (wanted : ∀ pos, off ≤ pos → pos < off + (n - tot) → ∀ slot, Needs (pos / BSIZE) slot → slot ∈ P) :
    (writeiLoop sb src rounds s (view i) off tot n = .error outOfBlocks ∧
        freeBlocks sb s < (missing P s.data (view i)).card) ∨
      ∃ tot' ip' s' stored,
        writeiLoop sb src rounds s (view i) off tot n = .ok (tot', off + (tot' - tot), ip', s') ∧
        Writes sb lost s s' view i ip' off stored ∧ WriteRun src off tot n tot' stored := by
  induction rounds generalizing s view off tot with
  | zero =>
    obtain rfl : tot = n := by omega
    exact .inr (writeiLoop_done src 0 off tot sound i)
  | succ rounds ih =>
    by_cases last : n ≤ tot
    · obtain rfl : tot = n := by omega
      exact .inr (writeiLoop_done src _ off tot sound i)
    · have number : off / BSIZE < MAXFILE := by
        rw [Nat.div_lt_iff_lt_mul (by decide)]
        omega
      rw [writeiLoop, if_neg last]
      rcases bmap_cases sound live number (wanted off (Nat.le_refl _) (by omega)) with
        ⟨failed, short⟩ | ⟨ip₁, s₁, ran, extended, spent, points⟩
      · rw [failed]
        exact .inl ⟨rfl, short⟩
      · rw [bind_eq ran]
        dsimp only
        have fetches := eitherCopyin_fetches src tot (min (n - tot) (BSIZE - off % BSIZE))
        generalize src.eitherCopyin tot (min (n - tot) (BSIZE - off % BSIZE)) = r at fetches
        obtain ⟨bytes, copied⟩ := r
        have bound : bytes.length ≤ min (n - tot) (BSIZE - off % BSIZE) := fetches.bound
        have small : off % BSIZE < BSIZE := Nat.mod_lt _ (by decide)
        have current : update view i ip₁ i = ip₁ := update_self _ _ _
        have stores : ∀ s₂ : Store, s₂.data = update s₁.data (blockAt s₁.data ip₁ (off / BSIZE))
            (putBytes (s₁.data (blockAt s₁.data ip₁ (off / BSIZE))) (off % BSIZE) bytes) →
            Writes sb lost s s₂ view i ip₁ off bytes ∧ ∀ P, Spent sb P s₁ s₂ ip₁ ip₁ :=
          fun s₂ stored => extended.chunk live points (by omega) stored
        by_cases failed : copied = false
        · rw [if_pos failed]
          refine .inr ⟨tot, ip₁, s₁.setData _ _, bytes, ?_, (stores (s₁.setData _ _) rfl).1,
            writeRun_stop (by omega) fetches failed⟩
          rw [Nat.sub_self]
          rfl
        · rw [if_neg failed]
          have full : bytes.length = min (n - tot) (BSIZE - off % BSIZE) :=
            fetches.returns.mp (Bool.not_eq_false copied ▸ failed)
          obtain ⟨writes, stored⟩ :=
            stores ((s₁.setData _ _).logWrite (blockAt s₁.data ip₁ (off / BSIZE))) rfl
          have room : off + bytes.length + (n - (tot + bytes.length)) ≤ MAXFILE * BSIZE := by omega
          have again := ih writes.sound (writes.live.mpr live) (by omega) (by omega) room
            fun pos low high => wanted pos (by omega) (by omega)
          rw [current] at again
          rw [← full]
          refine again.imp (And.imp_right fun short => spent.short ((stored P).short short)) ?_
          rintro ⟨tot', ip', s', stored, rest, later, run⟩
          have low := run.low
          have place : off + bytes.length + (tot' - (tot + bytes.length)) = off + (tot' - tot) := by omega
          rw [place] at rest
          exact ⟨tot', ip', s', bytes ++ stored, rest, writes.trans later,
            run.chunk (by omega) full rfl fetches.holds⟩

/-- The bytes of a file from `off` on, `len` of them. -/
def fileBytes (s : Store) (ip : Inode) (off len : Nat) : List Byte :=
  (List.range' off len).map fun pos => (fileByte s ip pos).getD 0

theorem length_fileBytes (s : Store) (ip : Inode) (off len : Nat) :
    (fileBytes s ip off len).length = len := by
  unfold fileBytes
  rw [List.length_map, List.length_range']

theorem fileBytes_append (s : Store) (ip : Inode) (off m len : Nat) :
    fileBytes s ip off (m + len) = fileBytes s ip off m ++ fileBytes s ip (off + m) len := by
  unfold fileBytes
  rw [← List.map_append, List.range'_append_1]

theorem chunk_fileBytes {m : Nat} (points : blockAt s.data ip (off / BSIZE) ≠ 0)
    (inside : off % BSIZE + m ≤ BSIZE) :
    (List.range' (off % BSIZE) m).map (s.data (blockAt s.data ip (off / BSIZE))) =
      fileBytes s ip off m := by
  apply List.ext_getElem?
  intro k
  unfold fileBytes
  rw [List.getElem?_map, List.getElem?_map]
  by_cases small : k < m
  · have whole := Nat.div_add_mod off BSIZE
    have split : off + k = off % BSIZE + k + BSIZE * (off / BSIZE) := by omega
    have block : (off + k) / BSIZE = off / BSIZE := by
      rw [split, Nat.add_mul_div_left _ _ (by decide), Nat.div_eq_of_lt (by omega), Nat.zero_add]
    have rest : (off + k) % BSIZE = off % BSIZE + k := by
      rw [split, Nat.add_mul_mod_self_left, Nat.mod_eq_of_lt (by omega)]
    rw [List.getElem?_range' small, List.getElem?_range' small, Option.map_some, Option.map_some,
      Nat.one_mul, fileByte_some (by rw [block]; exact points), block, rest]
    rfl
  · rw [List.getElem?_eq_none (by rw [List.length_range']; omega),
      List.getElem?_eq_none (by rw [List.length_range']; omega)]
    rfl

variable {dst : Dest K}

theorem readiLoop_round (more : tot < n)
    (points : blockAt s.data ip (off / BSIZE) ≠ 0) :
    readiLoop sb (rounds + 1) s ip dst off tot n =
      match dst.eitherCopyout tot (fileBytes s ip off (min (n - tot) (BSIZE - off % BSIZE))) with
      | (false, dst) => .ok (none, dst, ip, s)
      | (true, dst) => readiLoop sb rounds s ip dst (off + min (n - tot) (BSIZE - off % BSIZE))
          (tot + min (n - tot) (BSIZE - off % BSIZE)) n := by
  have small : off % BSIZE < BSIZE := Nat.mod_lt _ (by decide)
  rw [readiLoop, if_neg (by omega), bind_eq (bmap_present points)]
  dsimp only
  rw [chunk_fileBytes points (by omega)]
  rfl

theorem readiLoop_keeps (dst : Dest K)
    (inside : ∀ pos, off ≤ pos → pos < off + (n - tot) → blockAt s.data ip (pos / BSIZE) ≠ 0) :
    ∃ r dst', readiLoop sb rounds s ip dst off tot n = .ok (r, dst', ip, s) := by
  induction rounds generalizing dst off tot with
  | zero => exact ⟨_, _, rfl⟩
  | succ rounds ih =>
    by_cases more : tot < n
    · rw [readiLoop_round more (inside off (Nat.le_refl _) (by omega))]
      obtain ⟨copied, dst'⟩ := dst.eitherCopyout tot _
      cases copied with
      | false => exact ⟨_, _, rfl⟩
      | true => exact ih dst' fun pos low high => inside pos (by omega) (by omega)
    · exact ⟨some tot, dst, if_pos (Nat.le_of_not_lt more)⟩

theorem readiLoop_done (s : Store) (ip : Inode) (dst : Dest K) (rounds off n : Nat) :
    readiLoop sb rounds s ip dst off n n = .ok (some n, dst, ip, s) := by
  cases rounds with
  | zero => rfl
  | succ rounds => exact if_pos (Nat.le_refl _)

theorem laid_nothing (ok : dst.Ok) (a : Nat) : Laid dst dst a [] :=
  ⟨ok, rfl, overwrite_nil.symm⟩

theorem readiLoop_lays (enough : n ≤ tot + rounds)
    (order : tot ≤ n) (ok : dst.Ok)
    (mapped : ∀ k < n - tot, dst.view (dst.addr + tot + k) ≠ none)
    (inside : ∀ pos, off ≤ pos → pos < off + (n - tot) → blockAt s.data ip (pos / BSIZE) ≠ 0) :
    ∃ dst', readiLoop sb rounds s ip dst off tot n = .ok (some n, dst', ip, s) ∧
      Laid dst dst' (dst.addr + tot) (fileBytes s ip off (n - tot)) := by
  induction rounds generalizing dst off tot with
  | zero =>
    obtain rfl : tot = n := by omega
    rw [Nat.sub_self]
    exact ⟨dst, readiLoop_done s ip dst 0 off tot, laid_nothing ok _⟩
  | succ rounds ih =>
    by_cases more : tot < n
    · rw [readiLoop_round more (inside off (Nat.le_refl _) (by omega))]
      have size : 0 < min (n - tot) (BSIZE - off % BSIZE) := by
        have small : off % BSIZE < BSIZE := Nat.mod_lt _ (by decide)
        omega
      have part : min (n - tot) (BSIZE - off % BSIZE) ≤ n - tot := Nat.min_le_left _ _
      generalize min (n - tot) (BSIZE - off % BSIZE) = m at size part
      have length := length_fileBytes s ip off m
      have some : fileBytes s ip off m ≠ [] := List.length_pos_iff.mp (by omega)
      obtain ⟨dst₁, copied, laid⟩ := eitherCopyout_lays ok some fun k small => mapped k (by omega)
      rw [copied]
      have place : dst₁.addr + (tot + m) = dst.addr + tot + m := by
        rw [laid.addr, Nat.add_assoc]
      have later : ∀ k < n - (tot + m), dst₁.view (dst₁.addr + (tot + m) + k) ≠ none := by
        intro k small
        rw [laid.view, place, overwrite_outside (by omega), Nat.add_assoc _ m k]
        exact mapped (m + k) (by omega)
      have present : ∀ pos, off + m ≤ pos → pos < off + m + (n - (tot + m)) →
          blockAt s.data ip (pos / BSIZE) ≠ 0 := fun pos low high => inside pos (by omega) (by omega)
      obtain ⟨dst₂, rest, laid'⟩ := ih (by omega) (by omega) laid.ok later present
      refine ⟨dst₂, rest, ?_⟩
      have joined := laid.trans (by rw [length, ← place]; exact laid')
      rw [← fileBytes_append] at joined
      rw [show n - tot = m + (n - (tot + m)) from by omega]
      exact joined
    · obtain rfl : tot = n := by omega
      rw [Nat.sub_self]
      exact ⟨dst, readiLoop_done s ip dst _ off tot, laid_nothing ok _⟩

end OsbKernel.Blocks
