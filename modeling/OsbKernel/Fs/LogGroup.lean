import OsbKernel.Fs.LogInvariant
import Mathlib.Algebra.BigOperators.Ring.Finset
import Mathlib.Algebra.Order.BigOperators.Group.Finset

/-!
# Group commit

One transaction gathers the operations that end before the last open one does.  An
operation is never split: all that it has logged is in the header when the commit
starts, and nothing is logged until the commit is over.
-/

namespace OsbKernel

open Function StoreWrites

namespace LogMachine

variable {π : Type} [DecidableEq π] {m m' : LogMachine π} {p q : π} {b : Nat} {op : FsOp}
  {start size : Nat} {disk : Disk} {act : LogAct π}

/-- A listed block is pinned once until it is installed, and no other block is pinned. -/
structure Pinned (m : LogMachine π) : Prop where
  one : m.phase = .up → ∀ b ∈ m.log.lh, (∀ p, b ∉ (m.pc p).unpinned m.log.lh) → m.log.pins b = 1
  none : ∀ b, m.phase ≠ .up ∨ b ∉ m.log.lh ∨ (∃ p, b ∈ (m.pc p).unpinned m.log.lh) →
    m.log.pins b = 0

theorem unpinned_of_quiet {pc : LogPc} (quiet : pc.commits = false) (lh : List Nat) :
    pc.unpinned lh = [] := by
  cases pc <;> first | rfl | cases quiet

variable {v : LogPc} {l : Log}

theorem Pinned.move (pinned : m.Pinned) (same : m'.phase = m.phase)
    (pc : m'.pc = update m.pc p v) (lh : m'.log.lh = m.log.lh) (pins : m'.log.pins = m.log.pins)
    (kept : v.unpinned m.log.lh = (m.pc p).unpinned m.log.lh) : m'.Pinned := by
  have unpinned : ∀ q, (m'.pc q).unpinned m.log.lh = (m.pc q).unpinned m.log.lh := by
    intro q
    rw [pc]
    by_cases here : q = p
    · rw [here, update_self, kept]
    · rw [update_of_ne here]
  constructor
  · intro up b listed held
    rw [pins]
    rw [lh] at listed held
    exact pinned.one (same ▸ up) b listed fun q => unpinned q ▸ held q
  · intro b away
    rw [pins]
    rw [same, lh] at away
    refine pinned.none b (away.imp_right fun away => away.imp_right ?_)
    rintro ⟨q, member⟩
    exact ⟨q, unpinned q ▸ member⟩

omit [DecidableEq π] in
theorem Pinned.wakeup (pinned : m.Pinned) : m.wakeup.Pinned := by
  have unpinned := wakeup_congr (LogPc.unpinned m.log.lh) rfl m
  constructor
  · intro up b listed held
    exact pinned.one up b listed fun q => unpinned q ▸ held q
  · intro b away
    refine pinned.none b (away.imp_right fun away => away.imp_right ?_)
    rintro ⟨q, member⟩
    exact ⟨q, unpinned q ▸ member⟩

omit [DecidableEq π] in
theorem Pinned.of_empty (empty : m.phase = .up → m.log.lh = []) (pins : ∀ b, m.log.pins b = 0) :
    m.Pinned := by
  constructor
  · intro up b listed
    rw [empty up] at listed
    cases listed
  · exact fun b _ => pins b

variable [Fintype π]

theorem Pinned.add {data : Block} (pinned : m.Pinned) (turns : m.Turns) (up : m.phase = .up)
    (here : m.pc p = .inside op) (fresh : b ∉ m.log.lh) :
    ({ m with log := { (m.log.setData b data).bpin b with lh := m.log.lh ++ [b] } }.setPc p
      (.inside { op with blocks := op.blocks.insert b })).Pinned := by
  have quiet := turns.quiet (turns.idle here)
  have unpinned : ∀ q lh, (m.pc q).unpinned lh = [] := fun q lh => unpinned_of_quiet (quiet q) lh
  have unpinned' : ∀ q lh, (update m.pc p
      (.inside { op with blocks := op.blocks.insert b }) q).unpinned lh = [] := by
    intro q lh
    by_cases mine : q = p
    · rw [mine, update_self]
      rfl
    · rw [update_of_ne mine]
      exact unpinned q lh
  have pins : ∀ x, update m.log.pins b (m.log.pins b + 1) x =
      if x = b then m.log.pins b + 1 else m.log.pins x := by
    intro x
    rw [update_apply]
  have free : m.log.pins b = 0 := pinned.none b (.inr (.inl fresh))
  constructor
  · intro _ x listed _
    change update m.log.pins b (m.log.pins b + 1) x = 1
    rw [pins]
    split_ifs with same
    · rw [free]
    · have before : x ∈ m.log.lh := by
        rcases List.mem_append.mp listed with before | now
        · exact before
        · exact absurd (List.mem_singleton.mp now) same
      refine pinned.one up x before fun q => ?_
      rw [unpinned]
      exact List.not_mem_nil
  · intro x away
    change update m.log.pins b (m.log.pins b + 1) x = 0
    have out : x ∉ m.log.lh ++ [b] := by
      rcases away with down | out | ⟨q, member⟩
      · exact absurd up down
      · exact out
      · rw [setPc_pc, unpinned'] at member
        cases member
    rw [List.mem_append, not_or, List.mem_singleton] at out
    rw [pins, if_neg out.2]
    exact pinned.none x (.inr (.inl out.1))

theorem Pinned.install {tail : Nat} (pinned : m.Pinned) (turns : m.Turns) (noted : m.Noted)
    (up : m.phase = .up) (here : m.pc p = .install tail) :
    ({ m with log := m.log.installOne false tail }.setPc p
      (if tail + 1 < m.log.lh.length then .install (tail + 1) else .clearHead)).Pinned := by
  obtain ⟨others, _⟩ := turns.others (p := p) (by rw [here]; rfl)
  have fits : tail < m.log.lh.length := noted.fits_of here
  have block : m.log.lh.getD tail 0 = m.log.lh[tail] := by simp [fits]
  have moved : (if tail + 1 < m.log.lh.length then LogPc.install (tail + 1)
      else .clearHead).unpinned m.log.lh = m.log.lh.take (tail + 1) := by
    split
    · rfl
    · change m.log.lh = _
      rw [List.take_of_length_le (by omega)]
  have unpinned : ∀ b, (∃ q, b ∈ (m.pc q).unpinned m.log.lh) ↔ b ∈ m.log.lh.take tail := by
    intro b
    constructor
    · rintro ⟨q, member⟩
      by_cases mine : q = p
      · rw [mine, here] at member
        exact member
      · rw [unpinned_of_quiet (others q mine)] at member
        cases member
    · intro member
      exact ⟨p, by rw [here]; exact member⟩
  have unpinned' : ∀ b, (∃ q, b ∈ (update m.pc p (if tail + 1 < m.log.lh.length then
      LogPc.install (tail + 1) else .clearHead) q).unpinned m.log.lh) ↔
        b ∈ m.log.lh.take (tail + 1) := by
    intro b
    constructor
    · rintro ⟨q, member⟩
      by_cases mine : q = p
      · rw [mine, update_self, moved] at member
        exact member
      · rw [update_of_ne mine, unpinned_of_quiet (others q mine)] at member
        cases member
    · intro member
      exact ⟨p, by rw [update_self, moved]; exact member⟩
  have nodup := noted.nodup up
  -- The block was pinned once, because it occurs once in the header.
  have first : m.log.lh[tail] ∉ m.log.lh.take tail := by
    intro member
    obtain ⟨i, inside, same⟩ := List.mem_iff_getElem.mp member
    rw [List.getElem_take] at same
    have := (nodup.getElem_inj_iff).mp same
    rw [List.length_take] at inside
    omega
  have once : m.log.pins m.log.lh[tail] = 1 := by
    refine pinned.one up _ (List.getElem_mem fits) fun q member => first ?_
    exact (unpinned _).mp ⟨q, member⟩
  have pins : ∀ x, (m.log.installOne false tail).pins x =
      if x = m.log.lh[tail] then 0 else m.log.pins x := by
    intro x
    simp only [Log.installOne, Log.setData, Log.bwrite, Log.bunpin, block, once]
    exact update_apply _ _ _ _
  constructor
  · intro _ x listed held
    change (m.log.installOne false tail).pins x = 1
    have out : x ∉ m.log.lh.take (tail + 1) := by
      intro member
      obtain ⟨q, member⟩ := (unpinned' x).mpr member
      exact held q member
    rw [List.take_succ_eq_append_getElem fits, List.mem_append, not_or, List.mem_singleton] at out
    rw [pins, if_neg out.2]
    refine pinned.one up x listed fun q member => out.1 ?_
    exact (unpinned x).mp ⟨q, member⟩
  · intro x away
    change (m.log.installOne false tail).pins x = 0
    rw [pins]
    split_ifs with same
    · rfl
    · refine pinned.none x (away.imp_right fun away => away.imp_right fun member => ?_)
      have inside := (unpinned' x).mp member
      rw [List.take_succ_eq_append_getElem fits, List.mem_append, List.mem_singleton] at inside
      exact (unpinned x).mpr (inside.resolve_right same)

theorem Pinned.step (pinned : m.Pinned) (turns : m.Turns) (noted : m.Noted) (takes : Takes m act m') :
    m'.Pinned := by
  have down : m.phase ≠ .up → ∀ b, m.log.pins b = 0 := fun down b => pinned.none b (.inl down)
  cases takes with
  | sleeps up ready | begins up ready =>
    refine pinned.move rfl rfl rfl rfl ?_
    rcases ready with here | here <;> rw [here] <;> rfl
  | absorbs up here | writesHead up here | killed up here =>
    exact pinned.move rfl rfl rfl rfl (by rw [here]; rfl)
  | adds up here room fresh => exact pinned.add turns up here fresh
  | leaves up here | finishes up here =>
    apply Pinned.wakeup
    exact pinned.move rfl rfl rfl rfl (by rw [here]; rfl)
  | starts up here | writesLog up here =>
    refine pinned.move rfl rfl rfl rfl ?_
    rw [here]
    split <;> rfl
  | installs up here => exact pinned.install turns noted up here
  | @clears p up here =>
    refine .of_empty (fun _ => rfl) fun b => ?_
    apply pinned.none
    by_cases listed : b ∈ m.log.lh
    · exact .inr (.inr ⟨p, by rw [here]; exact listed⟩)
    · exact .inr (.inl listed)
  | crashes => exact .of_empty nofun fun _ => rfl
  | reads phase =>
    refine .of_empty ?_ (down (by rw [phase]; nofun))
    split <;> nofun
  | @reinstalls tail phase =>
    refine .of_empty ?_ ?_
    · split <;> nofun
    · exact down (by rw [phase]; nofun)
  | reclears phase => exact .of_empty (fun _ => rfl) (down (by rw [phase]; nofun))

theorem Reachable.pinned (reached : Reachable start size disk m) : m.Pinned := by
  induction reached with
  | boot => exact .of_empty nofun fun _ => rfl
  | step reached allowed stepped ih =>
    exact ih.step reached.turns reached.noted (takes_of_step allowed stepped)

/-- Who sleeps in `begin_op` has a reason to. -/
def Sleepers (m : LogMachine π) : Prop := ∀ p, m.pc p = .asleep → m.log.beginWaits = true

theorem beginWaits_of_committing (committing : l.committing = true) :
    l.beginWaits = true := by
  rw [Log.beginWaits, committing]
  rfl

theorem beginWaits_mono {l' : Log} (committing : l'.committing = l.committing)
    (longer : l.lh.length ≤ l'.lh.length) (more : l.outstanding ≤ l'.outstanding)
    (waits : l.beginWaits = true) : l'.beginWaits = true := by
  rw [Log.beginWaits, Bool.or_eq_true, decide_eq_true_eq] at waits ⊢
  rw [committing]
  refine waits.imp_right fun full => ?_
  have : (l.outstanding + 1) * MAXOPBLOCKS ≤ (l'.outstanding + 1) * MAXOPBLOCKS :=
    Nat.mul_le_mul_right _ (by omega)
  omega

omit [Fintype π] in
theorem Sleepers.move (sleepers : m.Sleepers) (pc : m'.pc = update m.pc p v)
    (mine : v = .asleep → m'.log.beginWaits = true)
    (waits : m.log.beginWaits = true → m'.log.beginWaits = true) : m'.Sleepers := by
  intro q there
  rw [pc] at there
  by_cases here : q = p
  · rw [here, update_self] at there
    exact mine there
  · rw [update_of_ne here] at there
    exact waits (sleepers q there)

omit [DecidableEq π] [Fintype π] in
theorem sleepers_wakeup (m : LogMachine π) : m.wakeup.Sleepers := by
  intro q there
  rcases m.wakeup_pc q with ⟨_, after⟩ | ⟨before, after⟩
  · rw [after] at there
    cases there
  · rw [after] at there
    exact absurd there before

theorem Sleepers.step (sleepers : m.Sleepers) (turns : m.Turns) (takes : Takes m act m') :
    m'.Sleepers := by
  have committing : ∀ {p}, (m.pc p).commits = true → m.log.committing = true :=
    fun commits => turns.leader _ commits
  have down : m.phase ≠ .up → ∀ (m' : LogMachine π), m'.pc = m.pc → m'.Sleepers := by
    intro down m' pc q there
    rw [pc, turns.down down q] at there
    cases there
  cases takes with
  | sleeps up ready waits => exact sleepers.move rfl (fun _ => waits) id
  | begins up ready free =>
    refine sleepers.move rfl nofun (beginWaits_mono rfl (Nat.le_refl _) ?_)
    exact Nat.le_succ _
  | absorbs up here | writesHead up here | killed up here => exact sleepers.move rfl nofun id
  | adds up here room fresh =>
    refine sleepers.move rfl nofun (beginWaits_mono rfl ?_ (Nat.le_refl _))
    rw [setPc_log, List.length_append]
    exact Nat.le_add_right _ _
  | leaves | finishes => exact sleepers_wakeup _
  | starts => exact sleepers.move rfl (fun _ => rfl) fun _ => rfl
  | writesLog up here =>
    exact sleepers.move rfl (fun _ => beginWaits_of_committing (committing (by rw [here]; rfl))) id
  | @installs p tail up here =>
    have now : (m.log.installOne false tail).beginWaits = true :=
      beginWaits_of_committing (committing (p := p) (by rw [here]; rfl))
    exact sleepers.move rfl (fun _ => now) fun _ => now
  | @clears p up here =>
    have now : m.log.clearHead.beginWaits = true :=
      beginWaits_of_committing (committing (p := p) (by rw [here]; rfl))
    exact sleepers.move rfl nofun fun _ => now
  | crashes => exact nofun
  | reads phase | reinstalls phase | reclears phase => exact down (by rw [phase]; nofun) _ rfl

theorem Reachable.sleepers (reached : Reachable start size disk m) : m.Sleepers := by
  induction reached with
  | boot => exact nofun
  | step reached allowed stepped ih => exact ih.step reached.turns (takes_of_step allowed stepped)

def ended (m : LogMachine π) : List FsOp := m.commits.flatMap (·.ops) ++ m.group

/-- Every operation is told apart by its number and is in one place. -/
structure Numbered (m : LogMachine π) : Prop where
  nodup : (m.ended.map FsOp.id).Nodup
  below : ∀ op ∈ m.ended, op.id < m.nextOp
  inside : ∀ p op, m.pc p = .inside op → op.id < m.nextOp ∧ op.id ∉ m.ended.map FsOp.id
  apart : ∀ p q op op', m.pc p = .inside op → m.pc q = .inside op' → op.id = op'.id → p = q

omit [DecidableEq π] [Fintype π] in
theorem Numbered.fewer (numbered : m.Numbered) (sub : List.Sublist m'.ended m.ended)
    (next : m'.nextOp = m.nextOp)
    (inside : ∀ p op, m'.pc p = .inside op → ∃ op', m.pc p = .inside op' ∧ op'.id = op.id) :
    m'.Numbered := by
  constructor
  · exact numbered.nodup.sublist (sub.map _)
  · intro op member
    rw [next]
    exact numbered.below op (sub.subset member)
  · intro p op here
    obtain ⟨op', there, same⟩ := inside p op here
    obtain ⟨low, out⟩ := numbered.inside p op' there
    rw [next, ← same]
    exact ⟨low, fun member => out ((sub.map _).subset member)⟩
  · intro p q op₁ op₂ here there same
    obtain ⟨op₁', here', same₁⟩ := inside p op₁ here
    obtain ⟨op₂', there', same₂⟩ := inside q op₂ there
    exact numbered.apart p q op₁' op₂' here' there' (same₁.trans (same.trans same₂.symm))

omit [Fintype π] in
theorem inside_update (out : ∀ op, v ≠ .inside op) {pc : π → LogPc}
    (inside : update pc p v q = .inside op) : q ≠ p ∧ pc q = .inside op := by
  by_cases here : q = p
  · rw [here, update_self] at inside
    exact absurd inside (out op)
  · rw [update_of_ne here] at inside
    exact ⟨here, inside⟩

omit [DecidableEq π] [Fintype π] in
theorem Numbered.wakeup (numbered : m.Numbered) : m.wakeup.Numbered := by
  refine numbered.fewer (List.Sublist.refl _) rfl fun p op here => ?_
  rcases m.wakeup_pc p with ⟨_, after⟩ | ⟨_, after⟩
  · rw [after] at here
    cases here
  · rw [after] at here
    exact ⟨op, here, rfl⟩

omit [Fintype π] in
theorem Numbered.ends (numbered : m.Numbered) (here : m.pc p = .inside op)
    (out : ∀ op, v ≠ .inside op) (pc : m'.pc = update m.pc p v) (commits : m'.commits = m.commits)
    (group : m'.group = m.group ++ [op]) (next : m'.nextOp = m.nextOp) : m'.Numbered := by
  obtain ⟨low, fresh⟩ := numbered.inside p op here
  have ended : m'.ended = m.ended ++ [op] := by
    rw [LogMachine.ended, LogMachine.ended, commits, group, List.append_assoc]
  constructor
  · rw [ended, List.map_append]
    refine List.nodup_append.mpr ⟨numbered.nodup, List.nodup_singleton _, ?_⟩
    intro x member y now
    rw [List.mem_singleton.mp now]
    rintro rfl
    exact fresh member
  · intro op' member
    rw [next]
    rw [ended] at member
    rcases List.mem_append.mp member with member | now
    · exact numbered.below op' member
    · rw [List.mem_singleton.mp now]
      exact low
  · intro q op' there
    rw [pc] at there
    obtain ⟨other, there⟩ := inside_update out there
    obtain ⟨low', fresh'⟩ := numbered.inside q op' there
    rw [next, ended, List.map_append, List.mem_append, not_or]
    refine ⟨low', fresh', fun same => other ?_⟩
    exact numbered.apart q p op' op there here (List.mem_singleton.mp same)
  · intro q q' op₁ op₂ there there'
    rw [pc] at there there'
    exact numbered.apart q q' op₁ op₂ (inside_update out there).2 (inside_update out there').2

omit [Fintype π] in
theorem Numbered.step (numbered : m.Numbered) (takes : Takes m act m') : m'.Numbered := by
  have moves : ∀ {v : LogPc} {p q op}, (∀ op, v ≠ .inside op) → update m.pc p v q = .inside op →
      ∃ op', m.pc q = .inside op' ∧ op'.id = op.id :=
    fun out inside => ⟨_, (inside_update out inside).2, rfl⟩
  have logs : ∀ {p q op op'} {b : Nat}, m.pc p = .inside op →
      update m.pc p (.inside { op with blocks := op.blocks.insert b }) q = .inside op' →
      ∃ op₀, m.pc q = .inside op₀ ∧ op₀.id = op'.id := by
    intro p q op op' b here inside
    by_cases mine : q = p
    · rw [mine, update_self] at inside
      cases inside
      exact ⟨op, mine ▸ here, rfl⟩
    · rw [update_of_ne mine] at inside
      exact ⟨op', inside, rfl⟩
  cases takes with
  | sleeps | clears | killed =>
    exact numbered.fewer (.refl _) rfl fun q op inside => moves (by nofun) inside
  | @begins p up ready free =>
    have later : m.nextOp ∉ m.ended.map FsOp.id := by
      intro member
      obtain ⟨op, member, same⟩ := List.mem_map.mp member
      have := numbered.below op member
      omega
    have cases_ : ∀ {q op}, update m.pc p (.inside ⟨m.nextOp, []⟩) q = .inside op →
        (q = p ∧ op.id = m.nextOp) ∨ (m.pc q = .inside op ∧ op.id < m.nextOp) := by
      intro q op inside
      by_cases mine : q = p
      · rw [mine, update_self] at inside
        cases inside
        exact .inl ⟨mine, rfl⟩
      · rw [update_of_ne mine] at inside
        exact .inr ⟨inside, (numbered.inside q op inside).1⟩
    constructor
    · exact numbered.nodup
    · exact fun op member => Nat.lt_succ_of_lt (numbered.below op member)
    · intro q op inside
      rcases cases_ inside with ⟨_, same⟩ | ⟨there, low⟩
      · rw [same]
        exact ⟨Nat.lt_succ_self _, later⟩
      · exact ⟨Nat.lt_succ_of_lt low, (numbered.inside q op there).2⟩
    · intro q q' op op' inside inside' same
      rcases cases_ inside with ⟨mine, now⟩ | ⟨there, low⟩
      · rcases cases_ inside' with ⟨mine', _⟩ | ⟨_, low'⟩
        · exact mine.trans mine'.symm
        · omega
      · rcases cases_ inside' with ⟨_, now'⟩ | ⟨there', _⟩
        · omega
        · exact numbered.apart q q' op op' there there' same
  | absorbs up here | adds up here =>
    exact numbered.fewer (.refl _) rfl fun q op inside => logs here inside
  | leaves up here =>
    apply Numbered.wakeup
    exact numbered.ends here (by nofun) rfl rfl rfl rfl
  | starts up here =>
    refine numbered.ends here ?_ rfl rfl rfl rfl
    intro op same
    split at same <;> cases same
  | writesLog up here | installs up here =>
    refine numbered.fewer (.refl _) rfl fun q op inside => moves ?_ inside
    intro op same
    split at same <;> cases same
  | writesHead up here =>
    refine numbered.fewer ?_ rfl fun q op inside => moves (by nofun) inside
    change List.Sublist ((m.commits ++ [Commit.mk m.group m.logged]).flatMap (·.ops) ++ []) _
    simp [ended]
  | finishes =>
    apply Numbered.wakeup
    refine numbered.fewer ?_ rfl fun q op inside => moves (by nofun) inside
    change List.Sublist (m.commits.flatMap (·.ops) ++ []) _
    rw [List.append_nil]
    exact List.sublist_append_left _ _
  | crashes =>
    refine numbered.fewer ?_ rfl nofun
    simp [ended, crash]
  | reads | reinstalls | reclears =>
    exact numbered.fewer (.refl _) rfl fun q op inside => ⟨op, inside, rfl⟩

omit [Fintype π] in
theorem Reachable.numbered (reached : Reachable start size disk m) : m.Numbered := by
  induction reached with
  | boot => exact ⟨List.nodup_nil, nofun, nofun, nofun⟩
  | step reached allowed stepped ih => exact ih.step (takes_of_step allowed stepped)

theorem log_endOp_cache {l' : Log} {commits : Bool} (ended : l.endOp = .ok (l', commits)) :
    l'.cache = l.cache := by
  simp only [Log.endOp] at ended
  split_ifs at ended <;> cases ended <;> rfl

omit [Fintype π] in
/-- Home blocks change in the cache only where an operation writes them, while the machine is up. -/
theorem cache_same (noted : m.Noted) (copied : m.Copied)
    (stepped : m.step act = some m') (home : m.Home b)
    (other : ∀ p data, act ≠ .write p b data) (alive : act ≠ .crash) (done : act ≠ .recover) :
    m'.log.cache b = m.log.cache b := by
  cases act with
  | write p x data =>
    have apart : b ≠ x := by
      rintro rfl
      exact other p data rfl
    simp only [step] at stepped
    split_ifs at stepped with up
    rw [write] at stepped
    split at stepped
    · split at stepped
      · rename_i l wrote
        cases stepped
        rw [Log.logWrite] at wrote
        split_ifs at wrote <;> cases wrote <;> exact update_of_ne apart _ _
      · cases stepped
    · cases stepped
  | crash => exact absurd rfl alive
  | recover => exact absurd rfl done
  | commit p =>
    simp only [step] at stepped
    split_ifs at stepped with up
    obtain ⟨apart, region⟩ := home
    have fits := noted.fits p
    have small := (noted.small up).2
    rw [commitStep] at stepped
    split at stepped <;> rename_i here <;> cases stepped
    · rw [here] at fits
      change _ < _ at fits
      exact update_of_ne (by omega) _ _
    · exact update_of_ne apart _ _
    · rw [setPc_log, copied.installOne_cache noted here]
    · exact update_of_ne apart _ _
    · rfl
  | beginOp p =>
    simp only [step, begin] at stepped
    split_ifs at stepped <;> cases stepped <;> rfl
  | endOp p =>
    simp only [step] at stepped
    split_ifs at stepped with up
    rw [endOp] at stepped
    split at stepped
    · split at stepped
      · rename_i ended
        cases stepped
        exact congrFun (log_endOp_cache ended) b
      · rename_i ended
        cases stepped
        exact congrFun (log_endOp_cache ended) b
      · cases stepped
    · cases stepped
  | kill p =>
    simp only [step, kill] at stepped
    split_ifs at stepped
    cases stepped
    rfl

structure GroupCommit (m : LogMachine π) : Prop where
  alone : ∀ p, (m.pc p).commits = true → ∀ q op, m.pc q ≠ .inside op
  committing : m.log.committing = true → m.log.outstanding = 0
  ends : ∀ p op, m.pc p = .inside op → m.log.endOp ≠ .error (.panic "log.committing")
  listed : ∀ op, op ∈ m.group ∨ (∃ p, m.pc p = .inside op) → op.blocks ⊆ m.log.lh
  committed : ∀ k ∈ m.commits, ∀ op ∈ k.ops, op.blocks ⊆ k.txn.map Prod.fst
  once : (m.ended.map FsOp.id).Nodup
  whole : ∀ p m', m.pc p = .writeHead → m.step (.commit p) = some m' →
    m'.commits = m.commits ++ [⟨m.group, m.log.lh.map fun b => (b, m.log.cache b)⟩]
  latest : ∀ act m' b, m.step act = some m' → m.Home b → (∀ p data, act ≠ .write p b data) →
    act ≠ .crash → act ≠ .recover → m'.log.cache b = m.log.cache b
  nodup : m.phase = .up → m.log.lh.Nodup
  pinned : m.phase = .up → ∀ b ∈ m.log.lh,
    ((∀ p, b ∉ (m.pc p).unpinned m.log.lh) → m.log.pins b = 1) ∧
      ((∃ p, b ∈ (m.pc p).unpinned m.log.lh) → m.log.pins b = 0)
  asleep : ∀ p, m.pc p = .asleep → m.log.committing = true ∨
    m.log.lh.length + (m.log.outstanding + 1) * MAXOPBLOCKS > LOGSIZE

/-- Group commit never splits an operation. -/
theorem group_commit (reached : Reachable start size disk m) : m.GroupCommit := by
  have turns := reached.turns
  have noted := reached.noted
  constructor
  · exact fun p commits => (turns.others commits).2
  · exact turns.exclusive
  · intro p op here panics
    rw [Log.endOp] at panics
    simp only [turns.idle here, Bool.false_eq_true, if_false] at panics
    split_ifs at panics
  · rintro op (member | ⟨p, here⟩)
    · exact noted.group op member
    · exact noted.inside p op here
  · exact noted.commits
  · exact reached.numbered.nodup
  · intro p m' here stepped
    simp only [step] at stepped
    split_ifs at stepped with up
    simp only [commitStep, here] at stepped
    cases stepped
    rw [← reached.copied.logged_eq here]
    rfl
  · intro act m' b stepped home other alive done
    exact cache_same noted reached.copied stepped home other alive done
  · exact noted.nodup
  · intro up b listed
    exact ⟨reached.pinned.one up b listed, fun member => reached.pinned.none b (.inr (.inr member))⟩
  · intro p here
    have waits := reached.sleepers p here
    rw [Log.beginWaits, Bool.or_eq_true, decide_eq_true_eq] at waits
    exact waits

/-- One operation logs two blocks and commits up to the installation of the first. -/
def installFirst : List (LogAct Unit) :=
  [.recover, .recover, .beginOp (), .write () 100 fun _ => 7, .write () 101 fun _ => 8, .endOp (),
    .commit (), .commit (), .commit (), .commit ()]

theorem group_commit_installFirst : ∃ m : LogMachine Unit, Reachable 2 40 (fun _ _ => 0) m ∧
    m.log.pins 101 = 1 ∧ m.log.committing = true ∧ m.log.outstanding = 0 := by
  have ran : ((boot 2 40 fun _ _ => 0 : LogMachine Unit).run installFirst).map (fun m =>
      (m.phase, m.pc (), m.log.lh, m.log.committing)) =
      some (.up, .install 1, [100, 101], true) := by
    decide +kernel
  obtain ⟨m, found, now⟩ := Option.map_eq_some_iff.mp ran
  simp only [Prod.mk.injEq] at now
  obtain ⟨up, here, lh, committing⟩ := now
  have reached := Reachable.run .boot found
  have grouped := group_commit reached
  refine ⟨m, reached, ?_, committing, grouped.committing committing⟩
  refine (grouped.pinned up 101 (by rw [lh]; decide)).1 fun p => ?_
  rw [here, lh]
  decide

/-- While the transaction is installed, a block that is still listed holds no pin. -/
theorem listed_without_pin : ∃ m : LogMachine Unit, Reachable 2 40 (fun _ _ => 0) m ∧
    m.phase = .up ∧ 100 ∈ m.log.lh ∧ m.log.pins 100 = 0 := by
  have ran : ((boot 2 40 fun _ _ => 0 : LogMachine Unit).run installFirst).map (fun m =>
      (m.phase, m.log.lh, m.log.pins 100)) = some (.up, [100, 101], 0) := by
    decide +kernel
  obtain ⟨m, found, now⟩ := Option.map_eq_some_iff.mp ran
  simp only [Prod.mk.injEq] at now
  obtain ⟨up, lh, pins⟩ := now
  refine ⟨m, Reachable.run .boot found, up, ?_, pins⟩
  rw [lh]
  decide

/-- An operation logs at most `MAXOPBLOCKS` distinct blocks. -/
def Modest (m : LogMachine π) : LogAct π → Prop
  | .write p b _ =>
    match m.pc p with
    | .inside op => b ∈ op.blocks ∨ op.blocks.length < MAXOPBLOCKS
    | _ => True
  | _ => True

/-- The machine can be reached by operations that log at most `MAXOPBLOCKS` distinct blocks. -/
inductive ModestReachable (start size : Nat) (disk : Disk) : LogMachine π → Prop where
  | boot : ModestReachable start size disk (boot start size disk)
  | step {m m' : LogMachine π} {act : LogAct π} (reached : ModestReachable start size disk m)
      (allowed : m.Allowed act) (modest : m.Modest act) (stepped : m.step act = some m') :
      ModestReachable start size disk m'

omit [Fintype π] in
theorem ModestReachable.reachable (reached : ModestReachable start size disk m) :
    Reachable start size disk m := by
  induction reached with
  | boot => exact .boot
  | step _ allowed _ stepped ih => exact .step ih allowed stepped

def reserve : LogPc → Nat
  | .inside op => MAXOPBLOCKS - op.blocks.length
  | _ => 0

def Reserved (m : LogMachine π) : Prop := m.log.lh.length + ∑ p, reserve (m.pc p) ≤ LOGSIZE

theorem reserve_le (pc : LogPc) : reserve pc ≤ MAXOPBLOCKS * pc.active := by
  cases pc with
  | inside op =>
    change MAXOPBLOCKS - op.blocks.length ≤ MAXOPBLOCKS * 1
    omega
  | _ => exact Nat.zero_le _

omit [DecidableEq π] in
theorem Turns.reserve_le (turns : m.Turns) :
    ∑ p, reserve (m.pc p) ≤ MAXOPBLOCKS * m.log.outstanding := by
  rw [turns.outstanding, Finset.mul_sum]
  exact Finset.sum_le_sum fun p _ => LogMachine.reserve_le (m.pc p)

theorem Reserved.move (reserved : m.Reserved) (pc : m'.pc = update m.pc p v)
    (paid : m'.log.lh.length + reserve v ≤ m.log.lh.length + reserve (m.pc p)) : m'.Reserved := by
  have sum := sum_update reserve m.pc p v
  rw [Reserved] at reserved ⊢
  rw [pc]
  omega

omit [DecidableEq π] in
theorem Reserved.wakeup (reserved : m.Reserved) : m.wakeup.Reserved := by
  rw [Reserved, Finset.sum_congr rfl fun q _ => wakeup_congr reserve rfl m q]
  exact reserved

omit [DecidableEq π] in
theorem Reserved.of_outside (outside : ∀ p, m.pc p = .outside) (small : m.log.lh.length ≤ LOGSIZE) :
    m.Reserved := by
  rw [Reserved, Finset.sum_eq_zero]
  · exact small
  · intro q _
    rw [outside q]
    rfl

theorem Reserved.step (reserved : m.Reserved) (turns : m.Turns) (noted : m.Noted)
    (modest : m.Modest act) (takes : Takes m act m') : m'.Reserved := by
  have whole : m.log.lh.length ≤ LOGSIZE := by
    rw [Reserved] at reserved
    omega
  cases takes with
  | sleeps | writesHead | killed => exact reserved.move rfl (Nat.add_le_add_left (Nat.zero_le _) _)
  | @begins p up ready free =>
    rw [Log.beginWaits, Bool.or_eq_false_iff, decide_eq_false_iff_not] at free
    have bound := turns.reserve_le
    have sum := sum_update reserve m.pc p (.inside ⟨m.nextOp, []⟩)
    change _ = _ + MAXOPBLOCKS at sum
    change m.log.lh.length + ∑ q, reserve (update m.pc p (.inside ⟨m.nextOp, []⟩) q) ≤ LOGSIZE
    have asked : (m.log.outstanding + 1) * MAXOPBLOCKS =
        MAXOPBLOCKS * m.log.outstanding + MAXOPBLOCKS := by
      rw [Nat.add_mul, Nat.one_mul, Nat.mul_comm]
    omega
  | @absorbs p op b data up here room listed home =>
    refine reserved.move rfl (Nat.add_le_add_left ?_ _)
    rw [here]
    change MAXOPBLOCKS - (op.blocks.insert b).length ≤ MAXOPBLOCKS - op.blocks.length
    have : op.blocks.length ≤ (op.blocks.insert b).length := List.length_le_length_insert
    omega
  | @adds p op b data up here room fresh home =>
    have new : b ∉ op.blocks := fun member => fresh (noted.inside p op here member)
    rw [Modest, here] at modest
    have few : op.blocks.length < MAXOPBLOCKS := modest.resolve_left new
    refine reserved.move rfl ?_
    rw [here, setPc_log, List.length_append, List.length_singleton]
    change _ + 1 + (MAXOPBLOCKS - (op.blocks.insert b).length) ≤
      _ + (MAXOPBLOCKS - op.blocks.length)
    rw [List.length_insert_of_not_mem new]
    omega
  | leaves | finishes =>
    apply Reserved.wakeup
    exact reserved.move rfl (Nat.add_le_add_left (Nat.zero_le _) _)
  | starts | writesLog | installs =>
    refine reserved.move rfl (Nat.add_le_add_left ?_ _)
    split <;> exact Nat.zero_le _
  | clears => exact reserved.move rfl (Nat.zero_le _)
  | crashes => exact .of_outside (fun _ => rfl) (Nat.zero_le _)
  | reads phase small =>
    refine .of_outside (turns.down (by rw [phase]; simp)) ?_
    simp only [getHeader, List.length_map, List.length_range]
    exact small
  | reinstalls phase => exact .of_outside (turns.down (by rw [phase]; simp)) whole
  | reclears phase => exact .of_outside (turns.down (by rw [phase]; simp)) (Nat.zero_le _)

theorem ModestReachable.reserved (reached : ModestReachable start size disk m) : m.Reserved := by
  induction reached with
  | boot => exact .of_outside (fun _ => rfl) (Nat.zero_le _)
  | step reached allowed modest stepped ih =>
    exact ih.step reached.reachable.turns reached.reachable.noted modest
      (takes_of_step allowed stepped)

/-- An operation that is open or has ended since the last commit has logged the block. -/
def LoggedBy (m : LogMachine π) (b : Nat) : Prop :=
  (∃ op ∈ m.group, b ∈ op.blocks) ∨ ∃ p op, m.pc p = .inside op ∧ b ∈ op.blocks

/-- The header lists only what operations have logged since the last commit. -/
def Covered (m : LogMachine π) : Prop :=
  m.phase = .up → (∀ q, (m.pc q).installs = false) → ∀ b ∈ m.log.lh, m.LoggedBy b

omit [Fintype π] in
theorem LoggedBy.move (logged : m.LoggedBy b) (pc : m'.pc = update m.pc p v)
    (group : ∀ op ∈ m.group, op ∈ m'.group)
    (mine : ∀ op, m.pc p = .inside op → b ∈ op.blocks → m'.LoggedBy b) : m'.LoggedBy b := by
  rcases logged with ⟨op, member, logged⟩ | ⟨q, op, there, logged⟩
  · exact .inl ⟨op, group op member, logged⟩
  · by_cases here : q = p
    · rw [here] at there
      exact mine op there logged
    · refine .inr ⟨q, op, ?_, logged⟩
      rw [pc, update_of_ne here]
      exact there

omit [DecidableEq π] [Fintype π] in
theorem LoggedBy.wakeup (logged : m.LoggedBy b) : m.wakeup.LoggedBy b := by
  refine logged.imp_right ?_
  rintro ⟨q, op, there, logged⟩
  refine ⟨q, op, ?_, logged⟩
  rcases m.wakeup_pc q with ⟨before, _⟩ | ⟨_, after⟩
  · rw [there] at before
    cases before
  · exact after.trans there

omit [DecidableEq π] [Fintype π] in
theorem Covered.wakeup (covered : m.Covered) : m.wakeup.Covered := by
  intro up quiet b listed
  refine (covered up (fun q => ?_) b listed).wakeup
  exact (wakeup_congr LogPc.installs rfl m q).symm.trans (quiet q)

omit [Fintype π] in
theorem Covered.move (covered : m.Covered) (up : m.phase = .up)
    (pc : m'.pc = update m.pc p v) (before : (m.pc p).installs = false)
    (lh : ∀ b ∈ m'.log.lh, b ∈ m.log.lh ∨ m'.LoggedBy b)
    (keeps : ∀ b, m.LoggedBy b → m'.LoggedBy b) : m'.Covered := by
  intro _ quiet b member
  rcases lh b member with old | new
  · refine keeps b (covered up (fun q => ?_) b old)
    by_cases here : q = p
    · rw [here]
      exact before
    · have := quiet q
      rwa [pc, update_of_ne here] at this
  · exact new

omit [Fintype π] in
theorem Covered.step (covered : m.Covered) (noted : m.Noted) (takes : Takes m act m') :
    m'.Covered := by
  have out : ∀ {v : LogPc} {p}, (∀ op, m.pc p ≠ .inside op) → ∀ {m' : LogMachine π},
      m'.pc = update m.pc p v → m'.group = m.group → ∀ b, m.LoggedBy b → m'.LoggedBy b := by
    intro v p away m' pc group b logged
    exact logged.move pc (fun op member => group ▸ member) fun op here => absurd here (away op)
  have ends : ∀ {v : LogPc} {p op}, m.pc p = .inside op → ∀ {m' : LogMachine π},
      m'.pc = update m.pc p v → m'.group = m.group ++ [op] → ∀ b, m.LoggedBy b → m'.LoggedBy b := by
    intro v p op here m' pc group b logged
    refine logged.move pc (fun op' member => ?_) fun op' here' member => .inl ⟨op, ?_, ?_⟩
    · rw [group]
      exact List.mem_append_left _ member
    · rw [group]
      exact List.mem_append_right _ (List.mem_singleton.mpr rfl)
    · rw [here] at here'
      cases here'
      exact member
  have grows : ∀ {p op} {x : Nat}, m.pc p = .inside op → ∀ {m' : LogMachine π},
      m'.pc = update m.pc p (.inside { op with blocks := op.blocks.insert x }) →
      m'.group = m.group → m'.LoggedBy x ∧ ∀ b, m.LoggedBy b → m'.LoggedBy b := by
    intro p op x here m' pc group
    have now : m'.pc p = .inside { op with blocks := op.blocks.insert x } := by
      rw [pc, update_self]
    refine ⟨.inr ⟨p, _, now, List.mem_insert_self⟩, fun b logged => ?_⟩
    refine logged.move pc (fun op' member => group ▸ member) fun op' here' member => ?_
    rw [here] at here'
    cases here'
    exact .inr ⟨p, _, now, List.mem_insert_of_mem member⟩
  cases takes with
  | sleeps up ready | begins up ready =>
    refine covered.move up rfl ?_ (fun b member => .inl member) (out ?_ rfl rfl) <;>
      rcases ready with here | here <;> rw [here] <;> first | rfl | nofun
  | absorbs up here =>
    exact covered.move up rfl (by rw [here]; rfl) (fun b member => .inl member)
      (grows here (by rfl) (by rfl)).2
  | adds up here =>
    refine covered.move up rfl (by rw [here]; rfl) (fun x member => ?_)
      (grows here (by rfl) (by rfl)).2
    rcases List.mem_append.mp member with old | now
    · exact .inl old
    · rw [List.mem_singleton.mp now]
      exact .inr (grows here (by rfl) (by rfl)).1
  | leaves up here =>
    apply Covered.wakeup
    exact covered.move up rfl (by rw [here]; rfl) (fun b member => .inl member) (ends here rfl rfl)
  | starts up here =>
    exact covered.move up rfl (by rw [here]; rfl) (fun b member => .inl member) (ends here rfl rfl)
  | writesLog up here | killed up here =>
    exact covered.move up rfl (by rw [here]; rfl) (fun b member => .inl member)
      (out (by rw [here]; nofun) rfl rfl)
  | @writesHead p =>
    intro _ quiet
    have := quiet p
    rw [setPc_pc, update_self] at this
    cases this
  | @installs p =>
    intro _ quiet
    have := quiet p
    rw [setPc_pc, update_self] at this
    split at this <;> cases this
  | clears | reclears => exact fun _ _ => nofun
  | @finishes p up here =>
    have empty : m.log.lh = [] := noted.fits_of here
    intro _ _ b listed
    change b ∈ m.log.lh at listed
    rw [empty] at listed
    cases listed
  | crashes => exact nofun
  | reads =>
    intro up
    split at up <;> cases up
  | reinstalls =>
    intro up
    change (if _ then _ else _) = LogPhase.up at up
    split at up <;> cases up

theorem Reachable.covered (reached : Reachable start size disk m) : m.Covered := by
  induction reached with
  | boot => exact nofun
  | step reached allowed stepped ih => exact ih.step reached.noted (takes_of_step allowed stepped)

omit [Fintype π] in
theorem Takes.size_eq (takes : Takes m act m') : m'.log.size = m.log.size := by
  cases takes <;> rfl

omit [Fintype π] in
theorem Reachable.size_eq (reached : Reachable start size disk m) : m.log.size = size := by
  induction reached with
  | boot => rfl
  | step reached allowed stepped ih => exact (takes_of_step allowed stepped).size_eq.trans ih

/-- For operations that log at most `MAXOPBLOCKS` distinct blocks each, a call of `log_write` stays
clear of its first panic exactly if fewer than `min LOGSIZE (nlog - 1)` distinct blocks have been
logged since the last commit.  When `nlog` exceeds `LOGSIZE`, the panic strikes only blocks that
are listed already. -/
theorem log_write_fits_iff {data : Block} (wide : LOGSIZE ≤ size)
    (reached : ModestReachable start size disk m) (here : m.pc p = .inside op)
    (modest : b ∈ op.blocks ∨ op.blocks.length < MAXOPBLOCKS) :
    ((m.log.setData b data).logWrite b ≠ .error (.panic "too big a transaction") ↔
        m.log.lh.length < min LOGSIZE (size - 1)) ∧
      m.log.lh.Nodup ∧ (∀ x, x ∈ m.log.lh ↔ m.LoggedBy x) ∧
      (LOGSIZE < size → m.log.lh.length = LOGSIZE → b ∈ m.log.lh) := by
  have whole := reached.reachable
  have turns := whole.turns
  have noted := whole.noted
  have sized := whole.size_eq
  have up : m.phase = .up := by
    by_contra down
    rw [turns.down down p] at here
    cases here
  have quiet : ∀ q, (m.pc q).installs = false := fun q => turns.not_installs here
  refine ⟨?_, noted.nodup up, fun x => ⟨whole.covered up quiet x, ?_⟩, fun _ full => ?_⟩
  · rw [Log.logWrite]
    simp only [Log.setData, sized]
    split_ifs with full
    · exact ⟨fun fine => absurd rfl fine, fun few => by omega⟩
    all_goals exact ⟨fun _ => by omega, fun _ => by simp⟩
  · rintro (⟨op', member, logged⟩ | ⟨q, op', there, logged⟩)
    · exact noted.group op' member logged
    · exact noted.inside q op' there logged
  · -- All that is reserved has been used up, by this operation too.
    have reserved := reached.reserved
    have mine : reserve (m.pc p) ≤ ∑ q, reserve (m.pc q) :=
      Finset.single_le_sum (f := fun q => reserve (m.pc q)) (fun _ _ => Nat.zero_le _)
        (Finset.mem_univ p)
    rw [Reserved] at reserved
    rw [here] at mine
    change MAXOPBLOCKS - op.blocks.length ≤ _ at mine
    exact noted.inside p op here (modest.resolve_right (by omega))

instance (act : LogAct π) : Decidable (m.Modest act) :=
  match act with
  | .write p b _ =>
    match here : m.pc p with
    | .inside op => decidable_of_iff (b ∈ op.blocks ∨ op.blocks.length < MAXOPBLOCKS) (by
        rw [Modest, here])
    | .outside | .asleep | .woken | .writeLog _ | .writeHead | .install _ | .clearHead
    | .finish => .isTrue (by rw [Modest, here]; trivial)
  | .beginOp _ | .endOp _ | .commit _ | .kill _ | .crash | .recover => .isTrue trivial

def modestRun (m : LogMachine π) : List (LogAct π) → Option (LogMachine π)
  | [] => some m
  | act :: acts =>
    if m.Allowed act ∧ m.Modest act then (m.step act).bind (·.modestRun acts) else none

omit [Fintype π] in
theorem ModestReachable.run {acts : List (LogAct π)} (reached : ModestReachable start size disk m)
    (ran : m.modestRun acts = some m') : ModestReachable start size disk m' := by
  induction acts generalizing m with
  | nil =>
    cases ran
    exact reached
  | cons act acts ih =>
    rw [modestRun] at ran
    split_ifs at ran with fine
    obtain ⟨middle, stepped, rest⟩ := Option.bind_eq_some_iff.mp ran
    exact ih (.step reached fine.1 fine.2 stepped) rest

def threeOps (last : Nat) : List (LogAct (Fin 3)) :=
  [.recover, .recover, .beginOp 0, .beginOp 1, .beginOp 2] ++
    (List.range 10).map (fun i => .write 0 (100 + i) fun _ => 0) ++
    (List.range 10).map (fun i => .write 1 (110 + i) fun _ => 0) ++
    (List.range last).map (fun i => .write 2 (120 + i) fun _ => 0)

/-- The thirtieth block of three full operations fits if `nlog` exceeds `LOGSIZE`. -/
theorem log_write_fits_thirtieth : ∃ m : LogMachine (Fin 3),
    ModestReachable 2 (LOGSIZE + 1) (fun _ _ => 0) m ∧ m.log.lh.length = 29 ∧
      (m.log.setData 129 fun _ => 0).logWrite 129 ≠ .error (.panic "too big a transaction") := by
  have ran : ((boot 2 (LOGSIZE + 1) fun _ _ => 0 : LogMachine (Fin 3)).modestRun (threeOps 9)).map
      (fun m => (m.pc 2, m.log.lh.length)) =
      some (.inside ⟨2, [128, 127, 126, 125, 124, 123, 122, 121, 120]⟩, 29) := by
    decide +kernel
  obtain ⟨m, found, now⟩ := Option.map_eq_some_iff.mp ran
  simp only [Prod.mk.injEq] at now
  obtain ⟨here, listed⟩ := now
  have reached := ModestReachable.run .boot found
  refine ⟨m, reached, listed, ?_⟩
  refine (log_write_fits_iff (by decide) reached here (.inr (by decide))).1.mpr ?_
  rw [listed]
  decide

theorem logWrite_full (full : LOGSIZE ≤ l.lh.length ∨ l.size - 1 ≤ l.lh.length) :
    l.logWrite b = .error (.panic "too big a transaction") := by
  rw [Log.logWrite, if_pos full]

/-- Three operations with ten distinct blocks each reach the panic.  With `nlog = LOGSIZE` the last
new block is one too many.  With `nlog = LOGSIZE + 1` it is logged, but then a block that is listed
already cannot be logged again. -/
theorem log_write_panics :
    (∃ m : LogMachine (Fin 3), ModestReachable 2 LOGSIZE (fun _ _ => 0) m ∧
      m.pc 2 = .inside ⟨2, [128, 127, 126, 125, 124, 123, 122, 121, 120]⟩ ∧
      (m.log.setData 129 fun _ => 0).logWrite 129 = .error (.panic "too big a transaction")) ∧
    ∃ m : LogMachine (Fin 3), ModestReachable 2 (LOGSIZE + 1) (fun _ _ => 0) m ∧
      m.pc 2 = .inside ⟨2, [129, 128, 127, 126, 125, 124, 123, 122, 121, 120]⟩ ∧
      (m.log.setData 120 fun _ => 0).logWrite 120 = .error (.panic "too big a transaction") := by
  constructor
  · have ran : ((boot 2 LOGSIZE fun _ _ => 0 : LogMachine (Fin 3)).modestRun (threeOps 9)).map
        (fun m => (m.pc 2, m.log.lh.length, m.log.size)) =
        some (.inside ⟨2, [128, 127, 126, 125, 124, 123, 122, 121, 120]⟩, 29, 30) := by
      decide +kernel
    obtain ⟨m, found, now⟩ := Option.map_eq_some_iff.mp ran
    simp only [Prod.mk.injEq] at now
    obtain ⟨here, listed, sized⟩ := now
    refine ⟨m, ModestReachable.run .boot found, here, logWrite_full (.inr ?_)⟩
    change m.log.size - 1 ≤ m.log.lh.length
    omega
  · have ran : ((boot 2 (LOGSIZE + 1) fun _ _ => 0 : LogMachine (Fin 3)).modestRun (threeOps 10)).map
        (fun m => (m.pc 2, m.log.lh.length)) =
        some (.inside ⟨2, [129, 128, 127, 126, 125, 124, 123, 122, 121, 120]⟩, 30) := by
      decide +kernel
    obtain ⟨m, found, now⟩ := Option.map_eq_some_iff.mp ran
    simp only [Prod.mk.injEq] at now
    obtain ⟨here, listed⟩ := now
    refine ⟨m, ModestReachable.run .boot found, here, logWrite_full (.inl ?_)⟩
    change LOGSIZE ≤ m.log.lh.length
    rw [listed]
    decide

end LogMachine

end OsbKernel
