import OsbKernel.Fs.Log
import Mathlib.Algebra.BigOperators.Group.Finset.Basic
import Mathlib.Data.Fintype.Basic

/-!
# The invariant of the log

During a commit one process executes it and none is inside an operation. The blocks of the header
are distinct, each pinned once until it is installed, and include what the operations of the group
have logged.
-/

namespace OsbKernel

open Function StoreWrites

/-- The process is in `commit`, or behind it in `end_op`. -/
def LogPc.commits : LogPc → Bool
  | .writeLog _ => true
  | .writeHead => true
  | .install _ => true
  | .clearHead => true
  | .finish => true
  | _ => false

def LogPc.active : LogPc → Nat
  | .inside _ => 1
  | _ => 0

/-- The blocks that `install_trans` has unpinned. -/
def LogPc.unpinned (lh : List Nat) : LogPc → List Nat
  | .install tail => lh.take tail
  | .clearHead => lh
  | _ => []

/-- The commit has reached the disk, and its header is still there. -/
def LogPc.installs : LogPc → Bool
  | .install _ => true
  | .clearHead => true
  | _ => false

/-- What a place in `commit` says about the header. -/
def LogPc.Fits (lh : List Nat) : LogPc → Prop
  | .writeLog tail => tail < lh.length
  | .writeHead => 0 < lh.length
  | .install tail => tail < lh.length
  | .clearHead => 0 < lh.length
  | .finish => lh = []
  | _ => True

/-- The log blocks that `write_log` has written. -/
def LogPc.written (lh : List Nat) : LogPc → Nat
  | .writeLog tail => tail
  | .writeHead => lh.length
  | .install _ => lh.length
  | .clearHead => lh.length
  | _ => 0

theorem writeLogOne_fields (l : Log) (tail : Nat) :
    (l.writeLogOne tail).cache =
        update l.cache (l.start + tail + 1) (l.cache (l.lh.getD tail 0)) ∧
      (l.writeLogOne tail).disk =
        update l.disk (l.start + tail + 1) (l.cache (l.lh.getD tail 0)) := by
  simp [Log.writeLogOne, Log.setData, Log.bwrite]

theorem installOne_fields (l : Log) (recovering : Bool) (tail : Nat) :
    (l.installOne recovering tail).start = l.start ∧ (l.installOne recovering tail).size = l.size ∧
      (l.installOne recovering tail).lh = l.lh ∧
      (l.installOne recovering tail).cache =
        update l.cache (l.lh.getD tail 0) (l.cache (l.start + tail + 1)) ∧
      (l.installOne recovering tail).disk =
        update l.disk (l.lh.getD tail 0) (l.cache (l.start + tail + 1)) := by
  cases recovering <;> simp [Log.installOne, Log.setData, Log.bwrite, Log.bunpin]

namespace LogMachine

variable {π : Type} [DecidableEq π] {m m' : LogMachine π} {p q : π} {b : Nat} {op : FsOp}
  {act : LogAct π}

/-- The room that `log_write` asks for. -/
def Room (m : LogMachine π) : Prop :=
  m.log.lh.length < LOGSIZE ∧ m.log.lh.length < m.log.size - 1

inductive Takes (m : LogMachine π) : LogAct π → LogMachine π → Prop where
  | sleeps {p : π} (up : m.phase = .up) (ready : m.pc p = .outside ∨ m.pc p = .woken)
      (waits : m.log.beginWaits = true) : Takes m (.beginOp p) (m.setPc p .asleep)
  | begins {p : π} (up : m.phase = .up) (ready : m.pc p = .outside ∨ m.pc p = .woken)
      (free : m.log.beginWaits = false) :
      Takes m (.beginOp p) ({ m with log := m.log.beginOp, nextOp := m.nextOp + 1 }.setPc p
        (.inside ⟨m.nextOp, []⟩))
  | absorbs {p : π} {op : FsOp} {b : Nat} {data : Block} (up : m.phase = .up)
      (here : m.pc p = .inside op) (room : m.Room) (listed : b ∈ m.log.lh) (home : m.Home b) :
      Takes m (.write p b data) ({ m with log := m.log.setData b data }.setPc p
        (.inside { op with blocks := op.blocks.insert b }))
  | adds {p : π} {op : FsOp} {b : Nat} {data : Block} (up : m.phase = .up)
      (here : m.pc p = .inside op) (room : m.Room) (fresh : b ∉ m.log.lh) (home : m.Home b) :
      Takes m (.write p b data) ({ m with
        log := { (m.log.setData b data).bpin b with lh := m.log.lh ++ [b] } }.setPc p
        (.inside { op with blocks := op.blocks.insert b }))
  | leaves {p : π} {op : FsOp} (up : m.phase = .up) (here : m.pc p = .inside op)
      (idle : m.log.committing = false) (more : m.log.outstanding - 1 ≠ 0) :
      Takes m (.endOp p) (({ m with
        log := { m.log with outstanding := m.log.outstanding - 1 }
        group := m.group ++ [op] }.setPc p .outside).wakeup)
  | starts {p : π} {op : FsOp} (up : m.phase = .up) (here : m.pc p = .inside op)
      (idle : m.log.committing = false) (last : m.log.outstanding - 1 = 0) :
      Takes m (.endOp p) ({ m with
        log := { m.log with outstanding := m.log.outstanding - 1, committing := true }
        group := m.group ++ [op] }.setPc p
          (if m.log.lh.length > 0 then .writeLog 0 else .finish))
  | writesLog {p : π} {tail : Nat} (up : m.phase = .up) (here : m.pc p = .writeLog tail) :
      Takes m (.commit p) ({ m with log := m.log.writeLogOne tail }.setPc p
        (if tail + 1 < m.log.lh.length then .writeLog (tail + 1) else .writeHead))
  | writesHead {p : π} (up : m.phase = .up) (here : m.pc p = .writeHead) :
      Takes m (.commit p) ({ m with
        log := m.log.writeHead, group := []
        commits := m.commits ++ [Commit.mk m.group m.logged] }.setPc p (.install 0))
  | installs {p : π} {tail : Nat} (up : m.phase = .up) (here : m.pc p = .install tail) :
      Takes m (.commit p) ({ m with log := m.log.installOne false tail }.setPc p
        (if tail + 1 < m.log.lh.length then .install (tail + 1) else .clearHead))
  | clears {p : π} (up : m.phase = .up) (here : m.pc p = .clearHead) :
      Takes m (.commit p) ({ m with log := m.log.clearHead }.setPc p .finish)
  | finishes {p : π} (up : m.phase = .up) (here : m.pc p = .finish) :
      Takes m (.commit p) (({ m with log := { m.log with committing := false }, group := [] }.setPc p
        .outside).wakeup)
  | killed {p : π} (up : m.phase = .up) (here : m.pc p = .asleep) : Takes m (.kill p) (m.setPc p .woken)
  | crashes : Takes m .crash m.crash
  | reads (down : m.phase = .readHead) (small : (m.log.cache m.log.start).word 0 ≤ LOGSIZE) :
      Takes m .recover { m with
        log := { m.log with lh := getHeader (m.log.cache m.log.start) }
        phase := if 0 < (getHeader (m.log.cache m.log.start)).length then .install 0
          else .clearHead }
  | reinstalls {tail : Nat} (down : m.phase = .install tail) :
      Takes m .recover { m with
        log := m.log.installOne true tail
        phase := if tail + 1 < m.log.lh.length then .install (tail + 1) else .clearHead }
  | reclears (down : m.phase = .clearHead) :
      Takes m .recover { m with log := m.log.clearHead, phase := .up }

theorem takes_of_write {data : Block} (up : m.phase = .up) (home : m.Home b)
    (stepped : m.write p b data = some m') : Takes m (.write p b data) m' := by
  rw [write] at stepped
  split at stepped
  · rename_i op here
    split at stepped
    · rename_i l wrote
      cases stepped
      rw [Log.logWrite] at wrote
      split_ifs at wrote with full out listed
      · cases wrote
        exact .absorbs up here ⟨by simp only [Log.setData] at full; omega, by
          simp only [Log.setData] at full; omega⟩ listed home
      · cases wrote
        exact .adds up here ⟨by simp only [Log.setData] at full; omega, by
          simp only [Log.setData] at full; omega⟩ listed home
    · cases stepped
  · cases stepped

theorem takes_of_endOp (up : m.phase = .up) (stepped : m.endOp p = some m') : Takes m (.endOp p) m' := by
  rw [endOp] at stepped
  split at stepped
  · rename_i op here
    cases idle : m.log.committing with
    | true =>
      have stops : m.log.endOp = .error (.panic "log.committing") := by simp [Log.endOp, idle]
      rw [stops] at stepped
      cases stepped
    | false =>
      by_cases last : m.log.outstanding - 1 = 0
      · have ends : m.log.endOp = .ok ({ m.log with
            outstanding := m.log.outstanding - 1, committing := true }, true) := by
          simp [Log.endOp, idle, last]
        rw [ends] at stepped
        cases stepped
        exact .starts up here idle last
      · have ends : m.log.endOp = .ok ({ m.log with
            outstanding := m.log.outstanding - 1 }, false) := by
          simp [Log.endOp, idle, last]
        rw [ends] at stepped
        cases stepped
        exact .leaves up here idle last
  · cases stepped

theorem takes_of_step (allowed : m.Allowed act) (stepped : m.step act = some m') : Takes m act m' := by
  cases act with
  | beginOp p =>
    simp only [step, begin] at stepped
    split_ifs at stepped with up ready waits
    · cases stepped
      exact .sleeps up ready waits
    · cases stepped
      exact .begins up ready (Bool.eq_false_of_not_eq_true waits)
  | write p b data =>
    simp only [step] at stepped
    split_ifs at stepped with up
    exact takes_of_write up allowed stepped
  | endOp p =>
    simp only [step] at stepped
    split_ifs at stepped with up
    exact takes_of_endOp up stepped
  | commit p =>
    simp only [step] at stepped
    split_ifs at stepped with up
    rw [commitStep] at stepped
    split at stepped <;> rename_i here <;> cases stepped
    · exact .writesLog up here
    · exact .writesHead up here
    · exact .installs up here
    · exact .clears up here
    · exact .finishes up here
  | kill p =>
    simp only [step, kill] at stepped
    split_ifs at stepped with up here
    cases stepped
    exact .killed up here
  | crash =>
    cases stepped
    exact .crashes
  | recover =>
    simp only [step, recoverStep] at stepped
    split at stepped
    · cases stepped
    · rename_i down
      rw [Log.readHead] at stepped
      split_ifs at stepped with small
      · cases stepped
        exact .reads down small
      · cases stepped
    · rename_i tail down
      cases stepped
      exact .reinstalls down
    · rename_i down
      cases stepped
      exact .reclears down

@[simp] theorem setPc_log (m : LogMachine π) (v : LogPc) : (m.setPc p v).log = m.log := rfl
@[simp] theorem setPc_pc (m : LogMachine π) (v : LogPc) : (m.setPc p v).pc = update m.pc p v := rfl
omit [DecidableEq π] in
theorem wakeup_pc (m : LogMachine π) (q : π) :
    (m.pc q = .asleep ∧ m.wakeup.pc q = .woken) ∨ (m.pc q ≠ .asleep ∧ m.wakeup.pc q = m.pc q) := by
  by_cases here : m.pc q = .asleep
  · exact .inl ⟨here, if_pos here⟩
  · exact .inr ⟨here, if_neg here⟩

omit [DecidableEq π] in
theorem wakeup_congr {α : Type} (f : LogPc → α) (same : f .asleep = f .woken) (m : LogMachine π)
    (q : π) : f (m.wakeup.pc q) = f (m.pc q) := by
  rcases m.wakeup_pc q with ⟨before, after⟩ | ⟨_, after⟩
  · rw [after, before, same]
  · rw [after]

variable [Fintype π]

/-- One process executes the commit, and none is inside an operation meanwhile. -/
structure Turns (m : LogMachine π) : Prop where
  down : m.phase ≠ .up → ∀ p, m.pc p = .outside
  outstanding : m.log.outstanding = ∑ p, (m.pc p).active
  leader : ∀ p, (m.pc p).commits = true → m.log.committing = true
  led : m.log.committing = true → ∃ p, (m.pc p).commits = true
  alone : ∀ p q, (m.pc p).commits = true → (m.pc q).commits = true → p = q
  exclusive : m.log.committing = true → m.log.outstanding = 0

theorem sum_update (w : LogPc → Nat) (pc : π → LogPc) (p : π) (v : LogPc) :
    (∑ q, w (update pc p v q)) + w (pc p) = (∑ q, w (pc q)) + w v := by
  rw [← Finset.add_sum_erase _ _ (Finset.mem_univ p),
    ← Finset.add_sum_erase (a := p) _ (fun q => w (pc q)) (Finset.mem_univ p)]
  have others : ∑ q ∈ Finset.univ.erase p, w (update pc p v q) =
      ∑ q ∈ Finset.univ.erase p, w (pc q) := by
    apply Finset.sum_congr rfl
    intro q member
    rw [update_of_ne (Finset.ne_of_mem_erase member)]
  rw [others, update_self]
  omega

omit [DecidableEq π] in
theorem Turns.idle (turns : m.Turns) (here : m.pc p = .inside op) : m.log.committing = false := by
  cases committing : m.log.committing with
  | false => rfl
  | true =>
    have none := turns.outstanding
    rw [turns.exclusive committing] at none
    have outside := Finset.sum_eq_zero_iff.mp none.symm p (Finset.mem_univ p)
    rw [here] at outside
    cases outside

variable {v : LogPc} {tail : Nat}

theorem Turns.move (turns : m.Turns) (up : m'.phase = .up) (pc : m'.pc = update m.pc p v)
    (committing : m'.log.committing = m.log.committing)
    (count : m'.log.outstanding + (m.pc p).active = m.log.outstanding + v.active)
    (same : v.commits = (m.pc p).commits) (free : m.log.committing = true → v.active = 0) :
    m'.Turns := by
  have kept : ∀ q, (m'.pc q).commits = (m.pc q).commits := by
    intro q
    rw [pc]
    by_cases here : q = p
    · subst here
      rw [update_self, same]
    · rw [update_of_ne here]
  constructor
  · exact fun down => absurd up down
  · have sum := sum_update LogPc.active m.pc p v
    have before := turns.outstanding
    rw [pc]
    omega
  · intro q
    rw [kept, committing]
    exact turns.leader q
  · intro commits
    rw [committing] at commits
    obtain ⟨q, leads⟩ := turns.led commits
    exact ⟨q, (kept q).trans leads⟩
  · intro q q' leads leads'
    rw [kept] at leads leads'
    exact turns.alone q q' leads leads'
  · intro commits
    rw [committing] at commits
    have := turns.exclusive commits
    have := free commits
    omega

omit [DecidableEq π] in
theorem Turns.wakeup (turns : m.Turns) : m.wakeup.Turns := by
  have commits := wakeup_congr LogPc.commits rfl m
  constructor
  · intro down q
    rcases m.wakeup_pc q with ⟨before, _⟩ | ⟨_, after⟩
    · rw [turns.down down q] at before
      cases before
    · exact after.trans (turns.down down q)
  · rw [Finset.sum_congr rfl fun q _ => wakeup_congr LogPc.active rfl m q]
    exact turns.outstanding
  · intro q leads
    exact turns.leader q ((commits q).symm.trans leads)
  · intro committing
    obtain ⟨q, leads⟩ := turns.led committing
    exact ⟨q, (commits q).trans leads⟩
  · intro q q' leads leads'
    exact turns.alone q q' ((commits q).symm.trans leads) ((commits q').symm.trans leads')
  · exact turns.exclusive

omit [DecidableEq π] in
theorem Turns.of_outside (outside : ∀ p, m.pc p = .outside) (committing : m.log.committing = false)
    (outstanding : m.log.outstanding = 0) : m.Turns := by
  constructor
  · exact fun _ => outside
  · rw [outstanding, Finset.sum_eq_zero]
    intro q _
    rw [outside q]
    rfl
  · intro q leads
    rw [outside q] at leads
    cases leads
  · intro commits
    rw [committing] at commits
    cases commits
  · intro q q' leads
    rw [outside q] at leads
    cases leads
  · exact fun _ => outstanding

omit [DecidableEq π] in
theorem Turns.recovering (turns : m.Turns) (down : m.phase ≠ .up) :
    m.log.committing = false ∧ m.log.outstanding = 0 := by
  have outside := turns.down down
  constructor
  · cases committing : m.log.committing with
    | false => rfl
    | true =>
      obtain ⟨q, leads⟩ := turns.led committing
      rw [outside q] at leads
      cases leads
  · rw [turns.outstanding, Finset.sum_eq_zero]
    intro q _
    rw [outside q]
    rfl

omit [DecidableEq π] [Fintype π] in
theorem ready_active (ready : m.pc p = .outside ∨ m.pc p = .woken) :
    (m.pc p).active = 0 ∧ (m.pc p).commits = false := by
  rcases ready with here | here <;> rw [here] <;> exact ⟨rfl, rfl⟩

theorem Turns.step (turns : m.Turns) (takes : Takes m act m') : m'.Turns := by
  cases takes with
  | @sleeps p up ready waits =>
    obtain ⟨active, commits⟩ := ready_active ready
    exact turns.move up rfl rfl (by rw [active]; rfl) (by rw [commits]; rfl) fun _ => rfl
  | @begins p up ready free =>
    obtain ⟨active, commits⟩ := ready_active ready
    refine turns.move up rfl rfl (by rw [active]; rfl) (by rw [commits]; rfl) fun committing => ?_
    rw [Log.beginWaits, committing] at free
    cases free
  | absorbs up here room listed home | adds up here room fresh home =>
    refine turns.move up rfl rfl (by rw [here]; rfl) (by rw [here]; rfl) fun committing => ?_
    rw [turns.idle here] at committing
    cases committing
  | @leaves p op up here idle more =>
    apply Turns.wakeup
    refine turns.move up rfl rfl ?_ (by rw [here]; rfl) fun _ => rfl
    rw [here]
    change m.log.outstanding - 1 + 1 = m.log.outstanding + 0
    omega
  | @starts p op up here idle last =>
    have leads : ∀ {v : LogPc}, v = (if m.log.lh.length > 0 then .writeLog 0 else .finish) →
        v.commits = true ∧ v.active = 0 := by
      rintro v rfl
      split <;> exact ⟨rfl, rfl⟩
    have none : ∀ q, (m.pc q).commits = false := by
      intro q
      cases leads : (m.pc q).commits with
      | false => rfl
      | true =>
        have := turns.leader q leads
        rw [idle] at this
        cases this
    have sum := sum_update LogPc.active m.pc p
      (if m.log.lh.length > 0 then .writeLog 0 else .finish)
    rw [(leads rfl).2, here] at sum
    constructor
    · exact fun down => absurd up down
    · have := turns.outstanding
      change m.log.outstanding - 1 = ∑ q, (update m.pc p _ q).active
      change (∑ q, (update m.pc p _ q).active) + 1 = _ at sum
      omega
    · exact fun _ _ => rfl
    · intro _
      refine ⟨p, ?_⟩
      rw [setPc_pc, update_self]
      exact (leads rfl).1
    · have only : ∀ q, (update m.pc p
          (if m.log.lh.length > 0 then .writeLog 0 else .finish) q).commits = true → q = p := by
        intro q leads
        by_contra other
        rw [update_of_ne other, none q] at leads
        cases leads
      intro q q' leads leads'
      exact (only q leads).trans (only q' leads').symm
    · intro _
      exact last
  | writesLog up here | installs up here =>
    refine turns.move up rfl rfl ?_ ?_ fun _ => ?_ <;> (try rw [here]) <;> split <;> rfl
  | writesHead up here | clears up here | killed up here =>
    exact turns.move up rfl rfl (by rw [here]; rfl) (by rw [here]; rfl) fun _ => rfl
  | @finishes p up here =>
    apply Turns.wakeup
    have none : ∀ q, (update m.pc p .outside q).commits = false := by
      intro q
      by_cases same : q = p
      · rw [same, update_self]
        rfl
      · rw [update_of_ne same]
        cases leads : (m.pc q).commits with
        | false => rfl
        | true => exact absurd (turns.alone q p leads (by rw [here]; rfl)) same
    have sum := sum_update LogPc.active m.pc p .outside
    constructor
    · exact fun down => absurd up down
    · have := turns.outstanding
      rw [here] at sum
      exact this.trans sum.symm
    · intro q leads
      rw [setPc_pc, none q] at leads
      cases leads
    · intro commits
      cases commits
    · intro q q' leads
      rw [setPc_pc, none q] at leads
      cases leads
    · intro commits
      cases commits
  | crashes => exact .of_outside (fun _ => rfl) rfl rfl
  | reads down | reinstalls down | reclears down =>
    have apart : m.phase ≠ .up := by rw [down]; nofun
    obtain ⟨committing, outstanding⟩ := turns.recovering apart
    exact .of_outside (turns.down apart) committing outstanding

/-- The header says what the open operations and those of the group have logged, and a place in
`commit` fits it. -/
structure Noted (m : LogMachine π) : Prop where
  fits : ∀ p, (m.pc p).Fits m.log.lh
  closed : m.phase ≠ .up → m.group = []
  nodup : m.phase = .up → m.log.lh.Nodup
  home : m.phase = .up → ∀ b ∈ m.log.lh, m.Home b
  small : m.phase = .up → m.log.lh.length ≤ LOGSIZE ∧ m.log.lh.length ≤ m.log.size - 1
  inside : ∀ p op, m.pc p = .inside op → op.blocks ⊆ m.log.lh
  group : ∀ op ∈ m.group, op.blocks ⊆ m.log.lh
  drained : ∀ p, (m.pc p).installs = true → m.group = []
  commits : ∀ k ∈ m.commits, ∀ op ∈ k.ops, op.blocks ⊆ k.txn.map Prod.fst

omit [DecidableEq π] [Fintype π] in
theorem logged_fst (m : LogMachine π) : m.logged.map Prod.fst = m.log.lh := by
  rw [logged, List.map_fst_zip]
  simp

omit [DecidableEq π] [Fintype π] in
theorem Noted.fits_of (noted : m.Noted) (here : m.pc p = v) : v.Fits m.log.lh := by
  rw [← here]
  exact noted.fits p

omit [Fintype π] in
theorem Noted.move (noted : m.Noted) (up : m.phase = .up) (same : m'.phase = m.phase)
    (pc : m'.pc = update m.pc p v) (lh : m'.log.lh = m.log.lh) (start : m'.log.start = m.log.start) (size : m'.log.size = m.log.size)
    (commits : m'.commits = m.commits) (fits : v.Fits m.log.lh)
    (inside : ∀ op, v = .inside op → op.blocks ⊆ m.log.lh)
    (group : ∀ op ∈ m'.group, op.blocks ⊆ m.log.lh)
    (drained : ∀ q, (m'.pc q).installs = true → m'.group = []) : m'.Noted := by
  constructor
  · intro q
    rw [pc, lh]
    by_cases here : q = p
    · subst here
      rwa [update_self]
    · rw [update_of_ne here]
      exact noted.fits q
  · exact fun down => absurd (same.trans up) down
  · intro _
    rw [lh]
    exact noted.nodup up
  · intro _ b listed
    rw [lh] at listed
    rw [Home, start, size]
    exact noted.home up b listed
  · intro _
    rw [lh, size]
    exact noted.small up
  · intro q op there
    rw [pc] at there
    rw [lh]
    by_cases here : q = p
    · subst here
      rw [update_self] at there
      exact inside op there
    · rw [update_of_ne here] at there
      exact noted.inside q op there
  · intro op member
    rw [lh]
    exact group op member
  · exact drained
  · rw [commits]
    exact noted.commits

omit [DecidableEq π] [Fintype π] in
theorem Noted.wakeup (noted : m.Noted) : m.wakeup.Noted := by
  constructor
  · intro q
    rcases m.wakeup_pc q with ⟨_, after⟩ | ⟨_, after⟩
    · rw [after]
      trivial
    · rw [after]
      exact noted.fits q
  · exact noted.closed
  · exact noted.nodup
  · exact noted.home
  · exact noted.small
  · intro q op there
    rcases m.wakeup_pc q with ⟨_, after⟩ | ⟨_, after⟩
    · rw [after] at there
      cases there
    · rw [after] at there
      exact noted.inside q op there
  · exact noted.group
  · intro q installs
    exact noted.drained q ((wakeup_congr LogPc.installs rfl m q).symm.trans installs)
  · exact noted.commits

omit [DecidableEq π] [Fintype π] in
theorem Noted.of_outside (outside : ∀ p, m.pc p = .outside) (empty : m.phase = .up → m.log.lh = [])
    (group : m.group = [])
    (commits : ∀ k ∈ m.commits, ∀ op ∈ k.ops, op.blocks ⊆ k.txn.map Prod.fst) : m.Noted := by
  constructor
  · intro q
    rw [outside q]
    trivial
  · exact fun _ => group
  · intro up
    rw [empty up]
    exact List.nodup_nil
  · intro up b listed
    rw [empty up] at listed
    cases listed
  · intro up
    rw [empty up]
    exact ⟨Nat.zero_le _, Nat.zero_le _⟩
  · intro q op there
    rw [outside q] at there
    cases there
  · rw [group]
    nofun
  · exact fun _ _ => group
  · exact commits

omit [Fintype π] in
theorem Noted.clear (noted : m.Noted) (turns : ∀ q, q ≠ p → (m.pc q).commits = false)
    (closed : ∀ q op, m.pc q ≠ .inside op) (here : m.pc p = .clearHead) :
    ({ m with log := m.log.clearHead }.setPc p .finish).Noted := by
  have group : m.group = [] := noted.drained p (by rw [here]; rfl)
  have free : ∀ q, q ≠ p → (m.pc q).Fits [] := by
    intro q other
    have quiet := turns q other
    cases there : m.pc q with
    | writeLog | writeHead | install | clearHead =>
      rw [there] at quiet
      cases quiet
    | _ => trivial
  constructor
  · intro q
    by_cases same : q = p
    · subst same
      rw [setPc_pc, update_self]
      rfl
    · rw [setPc_pc, update_of_ne same]
      exact free q same
  · exact fun _ => group
  · exact fun _ => List.nodup_nil
  · intro _ b listed
    cases listed
  · exact fun _ => ⟨Nat.zero_le _, Nat.zero_le _⟩
  · intro q op there
    by_cases same : q = p
    · subst same
      rw [setPc_pc, update_self] at there
      cases there
    · rw [setPc_pc, update_of_ne same] at there
      exact absurd there (closed q op)
  · rw [group]
    nofun
  · exact fun _ _ => group
  · exact noted.commits

omit [DecidableEq π] in
theorem Turns.others (turns : m.Turns) (leads : (m.pc p).commits = true) :
    (∀ q, q ≠ p → (m.pc q).commits = false) ∧ ∀ q op, m.pc q ≠ .inside op := by
  constructor
  · intro q other
    cases commits : (m.pc q).commits with
    | false => rfl
    | true => exact absurd (turns.alone q p commits leads) other
  · intro q op there
    have := turns.idle there
    rw [turns.leader p leads] at this
    cases this

omit [Fintype π] in
theorem installs_update (moves : v.installs = false) {pc : π → LogPc}
    (installs : (update pc p v q).installs = true) : (pc q).installs = true := by
  by_cases here : q = p
  · rw [here, update_self, moves] at installs
    cases installs
  · rwa [update_of_ne here] at installs

omit [DecidableEq π] in
theorem Turns.not_installs (turns : m.Turns) (here : m.pc p = .inside op) :
    (m.pc q).installs = false := by
  have idle := turns.idle here
  cases there : m.pc q with
  | install tail | clearHead =>
    rw [turns.leader q (by rw [there]; rfl)] at idle
    cases idle
  | _ => rfl

omit [DecidableEq π] [Fintype π] in
theorem Noted.grown (noted : m.Noted) (here : m.pc p = .inside op) :
    ∀ op' ∈ m.group ++ [op], op'.blocks ⊆ m.log.lh := by
  intro op' member
  rcases List.mem_append.mp member with member | now
  · exact noted.group op' member
  · rw [List.mem_singleton.mp now]
    exact noted.inside p op here

theorem Noted.addBlock {b : Nat} {data : Block} (noted : m.Noted) (turns : m.Turns)
    (up : m.phase = .up) (here : m.pc p = .inside op) (room : m.Room) (fresh : b ∉ m.log.lh)
    (home : m.Home b) :
    ({ m with log := { (m.log.setData b data).bpin b with lh := m.log.lh ++ [b] } }.setPc p
      (.inside { op with blocks := op.blocks.insert b })).Noted := by
  have grows : m.log.lh ⊆ m.log.lh ++ [b] := List.subset_append_left _ _
  constructor
  · intro q
    by_cases same : q = p
    · rw [same, setPc_pc, update_self]
      trivial
    · rw [setPc_pc, update_of_ne same]
      have idle := turns.idle here
      cases there : m.pc q with
      | writeLog | writeHead | install | clearHead | finish =>
        rw [turns.leader q (by rw [there]; rfl)] at idle
        cases idle
      | _ => trivial
  · exact fun down => absurd up down
  · intro _
    refine List.nodup_append.mpr ⟨noted.nodup up, List.nodup_singleton b, ?_⟩
    intro x listed y now
    rw [List.mem_singleton.mp now]
    rintro rfl
    exact fresh listed
  · intro _ x listed
    rcases List.mem_append.mp listed with listed | now
    · exact noted.home up x listed
    · rw [List.mem_singleton.mp now]
      exact home
  · intro _
    obtain ⟨first, second⟩ := room
    simp only [setPc_log, List.length_append, List.length_singleton]
    exact ⟨first, by change _ ≤ m.log.size - 1; omega⟩
  · intro q op' there x member
    by_cases same : q = p
    · rw [same, setPc_pc, update_self] at there
      cases there
      rcases List.mem_insert_iff.mp member with rfl | member
      · exact List.mem_append_right _ (List.mem_singleton.mpr rfl)
      · exact grows (noted.inside p op here member)
    · rw [setPc_pc, update_of_ne same] at there
      exact grows (noted.inside q op' there member)
  · exact fun op' member x listed => grows (noted.group op' member listed)
  · intro q installs
    have := turns.not_installs (q := q) here
    rw [installs_update rfl installs] at this
    cases this
  · exact noted.commits

omit [Fintype π] in
theorem Noted.writeHead (noted : m.Noted) (here : m.pc p = .writeHead) :
    ({ m with log := m.log.writeHead, group := []
              commits := m.commits ++ [Commit.mk m.group m.logged] }.setPc p (.install 0)).Noted := by
  have fits := noted.fits_of here
  have moved : ∀ q, (update m.pc p (.install 0) q).Fits m.log.lh := by
    intro q
    by_cases same : q = p
    · rw [same, update_self]
      exact fits
    · rw [update_of_ne same]
      exact noted.fits q
  refine ⟨moved, fun _ => rfl, noted.nodup, noted.home, noted.small, ?_, nofun, fun _ _ => rfl, ?_⟩
  · intro q op' there
    by_cases same : q = p
    · rw [same, setPc_pc, update_self] at there
      cases there
    · rw [setPc_pc, update_of_ne same] at there
      exact noted.inside q op' there
  · intro k member op' inside
    rcases List.mem_append.mp member with member | now
    · exact noted.commits k member op' inside
    · rw [List.mem_singleton.mp now] at inside ⊢
      rw [logged_fst]
      exact noted.group op' inside

theorem Noted.step (noted : m.Noted) (turns : m.Turns) (takes : Takes m act m') : m'.Noted := by
  cases takes with
  | sleeps up ready waits | killed up here =>
    exact noted.move up rfl rfl rfl rfl rfl rfl trivial nofun noted.group fun q installs =>
      noted.drained q (installs_update rfl installs)
  | begins up ready free =>
    refine noted.move up rfl rfl rfl rfl rfl rfl trivial ?_ noted.group fun q installs =>
      noted.drained q (installs_update rfl installs)
    rintro op ⟨⟩
    exact List.nil_subset _
  | @absorbs p op b data up here room listed home =>
    refine noted.move up rfl rfl rfl rfl rfl rfl trivial ?_ noted.group fun q installs =>
      noted.drained q (installs_update rfl installs)
    rintro _ ⟨⟩ x member
    rcases List.mem_insert_iff.mp member with rfl | member
    · exact listed
    · exact noted.inside p op here member
  | adds up here room fresh home => exact noted.addBlock turns up here room fresh home
  | @leaves p op up here idle more =>
    apply Noted.wakeup
    refine noted.move up rfl rfl rfl rfl rfl rfl trivial nofun (noted.grown here) fun q installs => ?_
    have := turns.not_installs (q := q) here
    rw [installs_update rfl installs] at this
    cases this
  | @starts p op up here idle last =>
    refine noted.move up rfl rfl rfl rfl rfl rfl ?_ ?_ (noted.grown here) fun q installs => ?_
    · split
      · rename_i some
        exact some
      · exact List.eq_nil_of_length_eq_zero (by omega)
    · intro op' same
      split at same <;> cases same
    · have := turns.not_installs (q := q) here
      rw [installs_update (by split <;> rfl) installs] at this
      cases this
  | @writesLog p tail up here =>
    have fits := noted.fits_of here
    refine noted.move up rfl rfl rfl rfl rfl rfl ?_ ?_ noted.group fun q installs =>
      noted.drained q (installs_update (by split <;> rfl) installs)
    · split
      · rename_i more
        exact more
      · exact Nat.zero_lt_of_lt fits
    · intro op' same
      split at same <;> cases same
  | writesHead up here => exact noted.writeHead here
  | @installs p tail up here =>
    have fits := noted.fits_of here
    have empty : m.group = [] := noted.drained p (by rw [here]; rfl)
    refine noted.move up rfl rfl rfl rfl rfl rfl ?_ ?_ noted.group fun _ _ => empty
    · split
      · rename_i more
        exact more
      · exact Nat.zero_lt_of_lt fits
    · intro op' same
      split at same <;> cases same
  | @clears p up here =>
    obtain ⟨quiet, closed⟩ := turns.others (p := p) (by rw [here]; rfl)
    exact noted.clear quiet closed here
  | finishes up here =>
    apply Noted.wakeup
    exact noted.move up rfl rfl rfl rfl rfl rfl trivial nofun nofun fun _ _ => rfl
  | crashes => exact .of_outside (fun _ => rfl) nofun rfl noted.commits
  | reads down | reinstalls down =>
    have apart : m.phase ≠ .up := by rw [down]; nofun
    refine .of_outside (turns.down apart) ?_ (noted.closed apart) noted.commits
    intro up
    split at up <;> cases up
  | reclears down =>
    have apart : m.phase ≠ .up := by rw [down]; nofun
    exact .of_outside (turns.down apart) (fun _ => rfl) (noted.closed apart) noted.commits

omit [DecidableEq π] in
theorem Turns.quiet (turns : m.Turns) (idle : m.log.committing = false) (q : π) :
    (m.pc q).commits = false := by
  cases commits : (m.pc q).commits with
  | false => rfl
  | true =>
    rw [turns.leader q commits] at idle
    cases idle

omit [DecidableEq π] [Fintype π] in
theorem written_of_quiet {pc : LogPc} (quiet : pc.commits = false) (lh : List Nat) :
    pc.written lh = 0 := by
  cases pc <;> first | rfl | cases quiet

/-- The log blocks that `write_log` has written hold the latest contents of their blocks. -/
def Copied (m : LogMachine π) : Prop :=
  ∀ p i, i < (m.pc p).written m.log.lh →
    m.log.disk (m.log.start + i + 1) = m.log.cache (m.log.lh.getD i 0) ∧
      m.log.cache (m.log.start + i + 1) = m.log.disk (m.log.start + i + 1)

omit [DecidableEq π] [Fintype π] in
theorem Copied.of_quiet (quiet : ∀ q, (m.pc q).commits = false) : m.Copied := by
  intro q i early
  rw [written_of_quiet (quiet q)] at early
  cases early

omit [Fintype π] in
theorem Copied.move (copied : m.Copied) (pc : m'.pc = update m.pc p v)
    (written : v.written m.log.lh = 0) (start : m'.log.start = m.log.start)
    (lh : m'.log.lh = m.log.lh) (cache : m'.log.cache = m.log.cache)
    (disk : m'.log.disk = m.log.disk) : m'.Copied := by
  intro q i early
  rw [pc, lh] at early
  rw [start, lh, cache, disk]
  by_cases here : q = p
  · rw [here, update_self, written] at early
    cases early
  · rw [update_of_ne here] at early
    exact copied q i early

omit [DecidableEq π] [Fintype π] in
theorem Copied.wakeup (copied : m.Copied) : m.wakeup.Copied := by
  intro q i early
  have same := wakeup_congr (LogPc.written m.log.lh) rfl m q
  exact copied q i (same ▸ early)

omit [Fintype π] in
theorem Copied.of_leader_copied (others : ∀ q, q ≠ p → (m.pc q).commits = false)
    (pc : m'.pc = update m.pc p v) (copied : ∀ i, i < v.written m'.log.lh →
      m'.log.disk (m'.log.start + i + 1) = m'.log.cache (m'.log.lh.getD i 0) ∧
        m'.log.cache (m'.log.start + i + 1) = m'.log.disk (m'.log.start + i + 1)) : m'.Copied := by
  intro q i early
  rw [pc] at early
  by_cases here : q = p
  · rw [here, update_self] at early
    exact copied i early
  · rw [update_of_ne here, written_of_quiet (others q here)] at early
    cases early

omit [DecidableEq π] [Fintype π] in
theorem Noted.outside {i : Nat} (noted : m.Noted) (up : m.phase = .up) (inside : i < m.log.lh.length) :
    m.Home (m.log.lh.getD i 0) := by
  rw [List.getD_eq_getElem?_getD, List.getElem?_eq_getElem inside, Option.getD_some]
  exact noted.home up _ (List.getElem_mem inside)

theorem Copied.writeLog (copied : m.Copied) (turns : m.Turns) (noted : m.Noted)
    (up : m.phase = .up) (here : m.pc p = .writeLog tail) :
    ({ m with log := m.log.writeLogOne tail }.setPc p
      (if tail + 1 < m.log.lh.length then .writeLog (tail + 1) else .writeHead)).Copied := by
  obtain ⟨others, _⟩ := turns.others (p := p) (by rw [here]; rfl)
  have fits : tail < m.log.lh.length := noted.fits_of here
  have small := (noted.small up).2
  have before : ∀ i, i < tail → _ := fun i early => copied p i (by rw [here]; exact early)
  have block : ∀ i, i < m.log.lh.length → m.log.lh.getD i 0 ≠ m.log.start + tail + 1 := by
    intro i inside same
    obtain ⟨_, region⟩ := noted.outside up inside
    rw [same] at region
    omega
  have written : ∀ i, i < (if tail + 1 < m.log.lh.length then LogPc.writeLog (tail + 1)
      else .writeHead).written m.log.lh → i < tail + 1 := by
    intro i
    split
    · exact id
    · intro early
      change i < m.log.lh.length at early
      omega
  refine .of_leader_copied others rfl fun i early => ?_
  have low := written i early
  change (m.log.writeLogOne tail).disk (m.log.start + i + 1) =
      (m.log.writeLogOne tail).cache (m.log.lh.getD i 0) ∧
    (m.log.writeLogOne tail).cache (m.log.start + i + 1) =
      (m.log.writeLogOne tail).disk (m.log.start + i + 1)
  obtain ⟨cache, disk⟩ := writeLogOne_fields m.log tail
  rw [cache, disk, update_of_ne (block i (by omega))]
  by_cases now : i = tail
  · subst now
    rw [update_self, update_self]
    exact ⟨rfl, rfl⟩
  · rw [update_of_ne (by omega), update_of_ne (by omega)]
    exact before i (by omega)

theorem Copied.writeHead {commits : List Commit} (copied : m.Copied) (turns : m.Turns)
    (noted : m.Noted) (up : m.phase = .up) (here : m.pc p = .writeHead) :
    ({ m with log := m.log.writeHead, group := [], commits := commits }.setPc p
      (.install 0)).Copied := by
  obtain ⟨others, _⟩ := turns.others (p := p) (by rw [here]; rfl)
  refine .of_leader_copied others rfl fun i early => ?_
  change i < m.log.lh.length at early
  have before := copied p i (by rw [here]; exact early)
  obtain ⟨apart, _⟩ := noted.outside up early
  change m.log.writeHead.disk (m.log.start + i + 1) = m.log.writeHead.cache (m.log.lh.getD i 0) ∧
    m.log.writeHead.cache (m.log.start + i + 1) = m.log.writeHead.disk (m.log.start + i + 1)
  simp only [Log.writeHead, Log.setData, Log.bwrite]
  rw [update_of_ne (by omega), update_of_ne apart, update_of_ne (by omega)]
  exact before

omit [DecidableEq π] [Fintype π] in
theorem Copied.installOne_cache (copied : m.Copied) (noted : m.Noted)
    (here : m.pc p = .install tail) : (m.log.installOne false tail).cache = m.log.cache := by
  have fits : tail < m.log.lh.length := noted.fits_of here
  obtain ⟨first, second⟩ := copied p tail (by rw [here]; exact fits)
  rw [(installOne_fields m.log false tail).2.2.2.1, second, first, update_eq_self]

theorem Copied.install (copied : m.Copied) (turns : m.Turns) (noted : m.Noted)
    (up : m.phase = .up) (here : m.pc p = .install tail) :
    ({ m with log := m.log.installOne false tail }.setPc p
      (if tail + 1 < m.log.lh.length then .install (tail + 1) else .clearHead)).Copied := by
  obtain ⟨others, _⟩ := turns.others (p := p) (by rw [here]; rfl)
  have cache := copied.installOne_cache noted here
  obtain ⟨start, size, lh, _, disk⟩ := installOne_fields m.log false tail
  have small := (noted.small up).2
  have fits : tail < m.log.lh.length := noted.fits_of here
  obtain ⟨_, region⟩ := noted.outside up fits
  refine .of_leader_copied others rfl fun i early => ?_
  have inside : i < m.log.lh.length := by
    rw [setPc_log, lh] at early
    split at early <;> exact early
  have before := copied p i (by rw [here]; exact inside)
  rw [setPc_log, cache, lh, start, disk, update_of_ne (by omega)]
  exact before

theorem Copied.step (copied : m.Copied) (turns : m.Turns) (noted : m.Noted) (takes : Takes m act m') :
    m'.Copied := by
  have quiet : ∀ {v : LogPc} {p}, v.commits = false → (∀ q, (m.pc q).commits = false) →
      ∀ q, (update m.pc p v q).commits = false := by
    intro v p moves idle q
    by_cases here : q = p
    · rw [here, update_self]
      exact moves
    · rw [update_of_ne here]
      exact idle q
  have down : m.phase ≠ .up → ∀ q, (m.pc q).commits = false := by
    intro down q
    rw [turns.down down q]
    rfl
  cases takes with
  | sleeps | begins | killed => exact copied.move rfl rfl rfl rfl rfl rfl
  | absorbs up here | adds up here => exact .of_quiet (quiet rfl (turns.quiet (turns.idle here)))
  | leaves up here | finishes up here =>
    apply Copied.wakeup
    exact copied.move rfl rfl rfl rfl rfl rfl
  | starts up here idle last =>
    refine copied.move rfl ?_ rfl rfl rfl rfl
    split <;> rfl
  | writesLog up here => exact copied.writeLog turns noted up here
  | writesHead up here => exact copied.writeHead turns noted up here
  | installs up here => exact copied.install turns noted up here
  | @clears p up here =>
    exact .of_leader_copied (turns.others (p := p) (by rw [here]; rfl)).1 rfl nofun
  | crashes => exact .of_quiet fun _ => rfl
  | reads phase | reinstalls phase | reclears phase => exact .of_quiet (down (by rw [phase]; nofun))

variable {start size : Nat} {disk : Disk}

theorem Reachable.turns (reached : Reachable start size disk m) : m.Turns := by
  induction reached with
  | boot => exact .of_outside (fun _ => rfl) rfl rfl
  | step reached allowed stepped ih => exact ih.step (takes_of_step allowed stepped)

theorem Reachable.noted (reached : Reachable start size disk m) : m.Noted := by
  induction reached with
  | boot => exact .of_outside (fun _ => rfl) nofun rfl nofun
  | step reached allowed stepped ih => exact ih.step reached.turns (takes_of_step allowed stepped)

omit [DecidableEq π] [Fintype π] in
/-- The log holds the latest contents of the blocks when the header is about to be written. -/
theorem Copied.logged_eq (copied : m.Copied) (here : m.pc p = .writeHead) :
    m.logged = m.log.lh.map fun b => (b, m.log.cache b) := by
  apply List.ext_getElem
  · simp [logged]
  · intro i inside inside'
    have low : i < m.log.lh.length := by simpa using inside'
    have same := (copied p i (by rw [here]; exact low)).1
    simp [logged, low] at same ⊢
    exact same

omit [Fintype π] in
theorem Copied.commits (copied : m.Copied) (takes : Takes m act m') : m'.commits = m.commits ∨
    ∃ p, m.pc p = .writeHead ∧
      m'.commits = m.commits ++ [⟨m.group, m.log.lh.map fun b => (b, m.log.cache b)⟩] := by
  cases takes with
  | writesHead up here =>
    rw [← copied.logged_eq here]
    exact .inr ⟨_, here, rfl⟩
  | _ => exact .inl rfl

theorem Reachable.copied (reached : Reachable start size disk m) : m.Copied := by
  induction reached with
  | boot => exact .of_quiet fun _ => rfl
  | step reached allowed stepped ih =>
    exact ih.step reached.turns reached.noted (takes_of_step allowed stepped)

def run (m : LogMachine π) : List (LogAct π) → Option (LogMachine π)
  | [] => some m
  | act :: acts => if m.Allowed act then (m.step act).bind (·.run acts) else none

omit [Fintype π] in
theorem Reachable.run {acts : List (LogAct π)} (reached : Reachable start size disk m)
    (ran : m.run acts = some m') : Reachable start size disk m' := by
  induction acts generalizing m with
  | nil =>
    cases ran
    exact reached
  | cons act acts ih =>
    rw [LogMachine.run] at ran
    split_ifs at ran with allowed
    obtain ⟨middle, stepped, rest⟩ := Option.bind_eq_some_iff.mp ran
    exact ih (.step reached allowed stepped) rest

end LogMachine

end OsbKernel
