import OsbKernel.Fs.LogInvariant

/-!
# Crashes and recovery

A disk stands for what recovery would leave on it: the home blocks with the transaction of the
header written over them. The write of the header in `commit` changes that, by the whole
transaction; no other write of `commit` or `recover_from_log` does.
-/

namespace OsbKernel

open Function StoreWrites

theorem clearHead_disk (l : Log) :
    l.clearHead.disk = update l.disk l.start (putHeader (l.cache l.start) []) := by
  simp [Log.clearHead, Log.writeHead, Log.setData, Log.bwrite]

theorem writeHead_disk (l : Log) :
    l.writeHead.disk = update l.disk l.start (putHeader (l.cache l.start) l.lh) := by
  simp [Log.writeHead, Log.setData, Log.bwrite]

theorem word_putHeader_zero (b : Block) (blocks : List Nat) :
    (putHeader b blocks).word 0 = blocks.length := rfl

variable {blocks : List Nat} {pc : LogPc}

theorem word_putHeader_succ {b : Block} {i : Nat} (small : blocks.length ≤ LOGSIZE)
    (inside : i < blocks.length) : (putHeader b blocks).word (i + 1) = blocks[i] := by
  have fits : i + 1 < 256 := by
    have : LOGSIZE = 30 := rfl
    omega
  rw [Block.word, dif_pos fits]
  simp [putHeader, inside]

theorem getHeader_putHeader (b : Block) (small : blocks.length ≤ LOGSIZE) :
    getHeader (putHeader b blocks) = blocks := by
  apply List.ext_getElem
  · simp [getHeader, word_putHeader_zero]
  · intro i inside inside'
    simp only [getHeader, List.getElem_map, List.getElem_range]
    exact word_putHeader_succ small inside'

theorem length_getHeader (b : Block) : (getHeader b).length = b.word 0 := by
  simp [getHeader]

/-- The header of the disk holds a transaction, and the disk stands for `want`. -/
structure Durable (start size : Nat) (want : Disk) (txn : Txn) (disk : Disk) : Prop where
  header : getHeader (disk start) = txn.map Prod.fst
  small : txn.length ≤ LOGSIZE
  room : txn.length ≤ size - 1
  copies : ∀ i w, txn[i]? = some w → disk (start + i + 1) = w.2
  home : ∀ w ∈ txn, OutsideLog start size w.1
  distinct : (txn.map Prod.fst).Nodup
  stands : ∀ b, OutsideLog start size b → applyAll txn disk b = want b

namespace Durable

variable {start size : Nat} {want disk : Disk} {txn : Txn} {b : Nat} {v hb : Block}

theorem write_log (durable : Durable start size want [] disk) (low : start < b)
    (high : b < start + size) : Durable start size want [] (update disk b v) := by
  constructor
  · rw [update_of_ne (by omega)]
    exact durable.header
  · exact Nat.zero_le _
  · exact Nat.zero_le _
  · nofun
  · nofun
  · exact List.nodup_nil
  · intro b' outside
    have apart : b' ≠ b := by
      rintro rfl
      obtain ⟨_, region⟩ := outside
      omega
    rw [applyAll_nil, update_of_ne apart]
    exact durable.stands b' outside

theorem commit (durable : Durable start size want [] disk) (small : txn.length ≤ LOGSIZE)
    (room : txn.length ≤ size - 1) (copies : ∀ i w, txn[i]? = some w → disk (start + i + 1) = w.2)
    (home : ∀ w ∈ txn, OutsideLog start size w.1) (distinct : (txn.map Prod.fst).Nodup) :
    Durable start size (applyAll txn want) txn
      (update disk start (putHeader hb (txn.map Prod.fst))) := by
  constructor
  · rw [update_self]
    exact getHeader_putHeader hb (by rw [List.length_map]; exact small)
  · exact small
  · exact room
  · intro i w found
    rw [update_of_ne (by omega)]
    exact copies i w found
  · exact home
  · exact distinct
  · intro b outside
    apply applyAll_congr
    right
    rw [update_of_ne outside.1]
    exact durable.stands b outside

theorem install (durable : Durable start size want txn disk) (member : (b, v) ∈ txn) :
    Durable start size want txn (update disk b v) := by
  obtain ⟨apart, region⟩ := durable.home _ member
  constructor
  · rw [update_of_ne (Ne.symm apart)]
    exact durable.header
  · exact durable.small
  · exact durable.room
  · intro i w found
    have inside : i < txn.length := (List.getElem?_eq_some_iff.mp found).1
    have := durable.room
    rw [update_of_ne (by omega)]
    exact durable.copies i w found
  · exact durable.home
  · exact durable.distinct
  · rw [applyAll_update_of_mem (List.mem_map_of_mem member)]
    exact durable.stands

theorem clear (durable : Durable start size want txn disk) (installed : ∀ w ∈ txn, disk w.1 = w.2) :
    Durable start size want [] (update disk start (putHeader hb [])) := by
  constructor
  · rw [update_self]
    exact getHeader_putHeader hb (Nat.zero_le _)
  · exact Nat.zero_le _
  · exact Nat.zero_le _
  · nofun
  · nofun
  · exact List.nodup_nil
  · intro b outside
    rw [applyAll_nil, update_of_ne outside.1, ← durable.stands b outside,
      applyAll_of_holds installed]

end Durable

/-- `install_trans` has installed the first `tail` blocks of the transaction. -/
def Log.Installing (l : Log) (want : Disk) (tail : Nat) : Prop :=
  ∃ txn, Durable l.start l.size want txn l.disk ∧ l.lh = txn.map Prod.fst ∧
    (∀ i w, txn[i]? = some w → l.cache (l.start + i + 1) = w.2) ∧
    ∀ i w, i < tail → txn[i]? = some w → l.disk w.1 = w.2

section Install

variable {l : Log} {want : Disk} {tail : Nat} {recovering : Bool}

theorem Log.Installing.step (installing : l.Installing want tail) (inside : tail < l.lh.length) :
    (l.installOne recovering tail).Installing want (tail + 1) := by
  obtain ⟨txn, durable, lh, copies, installed⟩ := installing
  obtain ⟨start, size, lh', cache, disk⟩ := installOne_fields l recovering tail
  rw [lh, List.length_map] at inside
  have found : txn[tail]? = some txn[tail] := List.getElem?_eq_getElem inside
  have block : l.lh.getD tail 0 = txn[tail].1 := by
    simp [lh, inside]
  have data : l.cache (l.start + tail + 1) = txn[tail].2 := copies tail _ found
  refine ⟨txn, ?_, lh'.trans lh, ?_, ?_⟩
  · rw [start, size, disk, block, data]
    exact durable.install (List.getElem_mem inside)
  · intro i w there
    have low : i < txn.length := (List.getElem?_eq_some_iff.mp there).1
    have outside := durable.home _ (List.getElem_mem inside)
    obtain ⟨_, region⟩ := outside
    have := durable.room
    rw [start, cache, block, update_of_ne (by omega)]
    exact copies i w there
  · intro i w early there
    rw [disk, block, data]
    by_cases same : w.1 = txn[tail].1
    · rw [same, update_self]
      -- The blocks of a transaction are distinct, so this is the block just installed.
      have member : w ∈ txn := List.mem_of_getElem? there
      have unique := List.inj_on_of_nodup_map durable.distinct member (List.getElem_mem inside) same
      rw [unique]
    · rw [update_of_ne same]
      have apart : i ≠ tail := by
        rintro rfl
        rw [found] at there
        cases there
        exact same rfl
      exact installed i w (by omega) there

theorem Log.Installing.clear (installing : l.Installing want l.lh.length) :
    Durable l.start l.size want [] l.clearHead.disk := by
  obtain ⟨txn, durable, lh, _, installed⟩ := installing
  rw [clearHead_disk]
  refine durable.clear fun w member => ?_
  obtain ⟨i, inside, rfl⟩ := List.mem_iff_getElem.mp member
  exact installed i _ (by rw [lh, List.length_map]; exact inside) (List.getElem?_eq_getElem inside)

end Install

/-- The blocks that `install_trans` has installed in `commit`. -/
def LogPc.installed (lh : List Nat) : LogPc → Option Nat
  | .install tail => some tail
  | .clearHead => some lh.length
  | _ => none

/-- The blocks that `install_trans` has installed in `recover_from_log`. -/
def LogPhase.installed (lh : List Nat) : LogPhase → Option Nat
  | .install tail => some tail
  | .clearHead => some lh.length
  | _ => none

theorem LogPc.installs_of_installed {lh : List Nat} {n : Nat}
    (installed : pc.installed lh = some n) : pc.installs = true := by
  cases pc <;> first | rfl | cases installed

theorem LogPc.installed_of_installs (lh : List Nat) (installs : pc.installs = true) :
    ∃ n, pc.installed lh = some n := by
  cases pc <;> first | exact ⟨_, rfl⟩ | cases installs

namespace LogMachine

variable {π : Type} [DecidableEq π] {m m' : LogMachine π} {p q : π} {start size : Nat} {disk : Disk}
  {act : LogAct π}

def replay (m : LogMachine π) (disk : Disk) : Disk := applyAll (m.commits.flatMap (·.txn)) disk

/-- What the disk stands for in a state that has been reached from `disk`. -/
structure Stored (start size : Nat) (disk : Disk) (m : LogMachine π) : Prop where
  start_eq : m.log.start = start
  size_eq : m.log.size = size
  clear : m.phase = .up → (∀ p, (m.pc p).installs = false) →
    Durable start size (m.replay disk) [] m.log.disk
  installing : ∀ p n, (m.pc p).installed m.log.lh = some n → m.log.Installing (m.replay disk) n
  booting : m.phase = .readHead → m.log.cache = m.log.disk ∧
    ∃ txn, Durable start size (m.replay disk) txn m.log.disk
  recovering : ∀ n, m.phase.installed m.log.lh = some n → m.log.Installing (m.replay disk) n
  inside : ∀ tail, m.phase = .install tail → tail < m.log.lh.length

theorem commits_of_installs (installs : pc.installs = true) : pc.commits = true := by
  cases pc <;> first | rfl | cases installs

theorem installed_of_quiet (quiet : pc.commits = false) (lh : List Nat) :
    pc.installed lh = none := by
  cases pc <;> first | rfl | cases quiet

omit [DecidableEq π] in
theorem logged_getElem? {i : Nat} {w : Nat × Block} (found : m.logged[i]? = some w) :
    i < m.log.lh.length ∧ w.1 = m.log.lh.getD i 0 ∧ w.2 = m.log.disk (m.log.start + i + 1) := by
  obtain ⟨inside, same⟩ := List.getElem?_eq_some_iff.mp found
  have low : i < m.log.lh.length := by
    simp only [logged, List.length_zip, List.length_map, List.length_range, min_self] at inside
    exact inside
  subst same
  simp [logged, low]

omit [DecidableEq π] in
theorem length_logged (m : LogMachine π) : m.logged.length = m.log.lh.length := by
  simp [logged]

variable {v : LogPc}

section Stored

variable (stored : Stored start size disk m)

include stored

omit [DecidableEq π] in
theorem Stored.durable :
    ∃ txn, Durable start size (m.replay disk) txn m.log.disk := by
  have of_installing : ∀ {n}, m.log.Installing (m.replay disk) n →
      ∃ txn, Durable start size (m.replay disk) txn m.log.disk := by
    rintro n ⟨txn, durable, _⟩
    rw [stored.start_eq, stored.size_eq] at durable
    exact ⟨txn, durable⟩
  cases phase : m.phase with
  | up =>
    by_cases quiet : ∀ p, (m.pc p).installs = false
    · exact ⟨[], stored.clear phase quiet⟩
    · obtain ⟨p, installs⟩ := not_forall.mp quiet
      obtain ⟨n, installed⟩ :=
        LogPc.installed_of_installs m.log.lh (Bool.eq_true_of_not_eq_false installs)
      exact of_installing (stored.installing p n installed)
  | readHead => exact (stored.booting phase).2
  | install tail => exact of_installing (stored.recovering tail (by rw [phase]; rfl))
  | clearHead => exact of_installing (stored.recovering m.log.lh.length (by rw [phase]; rfl))

omit [DecidableEq π] in
theorem Stored.quiet (up : m.phase = .up)
    (same : m'.phase = m.phase) (started : m'.log.start = m.log.start) (sized : m'.log.size = m.log.size)
    (disks : m'.log.disk = m.log.disk) (commits : m'.commits = m.commits)
    (installs : ∀ q, (m'.pc q).installs = true →
      m'.pc q = m.pc q ∧ m'.log.lh = m.log.lh ∧ m'.log.cache = m.log.cache)
    (kept : ∀ q, (m.pc q).installs = true → (m'.pc q).installs = true) :
    Stored start size disk m' := by
  have replays : m'.replay disk = m.replay disk := by rw [replay, replay, commits]
  constructor
  · exact started.trans stored.start_eq
  · exact sized.trans stored.size_eq
  · intro _ none
    rw [replays, disks]
    refine stored.clear up fun q => ?_
    cases there : (m.pc q).installs with
    | false => rfl
    | true =>
      have := none q
      rw [kept q there] at this
      cases this
  · intro q n installed
    obtain ⟨there, lh, cache⟩ := installs q (LogPc.installs_of_installed installed)
    rw [there, lh] at installed
    have before := stored.installing q n installed
    rw [replays]
    rw [Log.Installing] at before ⊢
    rw [started, sized, disks, lh, cache]
    exact before
  · intro down
    rw [same, up] at down
    cases down
  · intro n installed
    rw [same, up] at installed
    cases installed
  · intro tail down
    rw [same, up] at down
    cases down

theorem Stored.moves (up : m.phase = .up) (same : m'.phase = m.phase) (pc : m'.pc = update m.pc p v)
    (before : (m.pc p).installs = false) (after : v.installs = false) (lh : m'.log.lh = m.log.lh) (cache : m'.log.cache = m.log.cache)
    (started : m'.log.start = m.log.start) (sized : m'.log.size = m.log.size)
    (disks : m'.log.disk = m.log.disk) (commits : m'.commits = m.commits) :
    Stored start size disk m' := by
  refine stored.quiet up same started sized disks commits ?_ ?_
  · intro q installs
    rw [pc] at installs ⊢
    by_cases here : q = p
    · rw [here, update_self, after] at installs
      cases installs
    · rw [update_of_ne here]
      exact ⟨rfl, lh, cache⟩
  · intro q installs
    rw [pc]
    by_cases here : q = p
    · rw [here, before] at installs
      cases installs
    · rwa [update_of_ne here]

omit [DecidableEq π] in
theorem Stored.wakeup : Stored start size disk m.wakeup := by
  constructor
  · exact stored.start_eq
  · exact stored.size_eq
  · intro up none
    refine stored.clear up fun q => ?_
    exact (wakeup_congr LogPc.installs rfl m q).symm.trans (none q)
  · intro q n installed
    have same := wakeup_congr (LogPc.installed m.log.lh) rfl m q
    exact stored.installing q n (same.symm.trans installed)
  · exact stored.booting
  · exact stored.recovering
  · exact stored.inside

theorem Stored.writes (up : m.phase = .up)
    (same : m'.phase = m.phase) (pc : m'.pc = update m.pc p v) (quiet : v.commits = false)
    (idle : ∀ q, (m.pc q).commits = false)
    (started : m'.log.start = m.log.start) (sized : m'.log.size = m.log.size)
    (disks : m'.log.disk = m.log.disk) (commits : m'.commits = m.commits) :
    Stored start size disk m' := by
  have none : ∀ pc : LogPc, pc.commits = false → pc.installs = false := by
    intro pc quiet
    cases pc <;> first | rfl | cases quiet
  have quiet' : ∀ q, (m'.pc q).commits = false := by
    intro q
    rw [pc]
    by_cases here : q = p
    · rw [here, update_self]
      exact quiet
    · rw [update_of_ne here]
      exact idle q
  refine stored.quiet up same started sized disks commits ?_ ?_
  · intro q installs
    rw [none _ (quiet' q)] at installs
    cases installs
  · intro q installs
    rw [none _ (idle q)] at installs
    cases installs

variable [Fintype π]

omit [Fintype π] in
theorem Stored.leads (others : ∀ q, q ≠ p → (m.pc q).commits = false) (pc : m'.pc = update m.pc p v)
    (up : m'.phase = .up) (started : m'.log.start = m.log.start) (sized : m'.log.size = m.log.size)
    (clear : v.installs = false → Durable start size (m'.replay disk) [] m'.log.disk)
    (installing : ∀ n, v.installed m'.log.lh = some n → m'.log.Installing (m'.replay disk) n) :
    Stored start size disk m' := by
  constructor
  · exact started.trans stored.start_eq
  · exact sized.trans stored.size_eq
  · intro _ none
    have := none p
    rw [pc, update_self] at this
    exact clear this
  · intro q n installed
    rw [pc] at installed
    by_cases here : q = p
    · rw [here, update_self] at installed
      exact installing n installed
    · rw [update_of_ne here, installed_of_quiet (others q here)] at installed
      cases installed
  · intro down
    rw [up] at down
    cases down
  · intro n installed
    rw [up] at installed
    cases installed
  · intro tail down
    rw [up] at down
    cases down

omit [DecidableEq π] [Fintype π] in
theorem Stored.clear_of_leader (up : m.phase = .up)
    (others : ∀ q, q ≠ p → (m.pc q).commits = false) (here : (m.pc p).installs = false) :
    Durable start size (m.replay disk) [] m.log.disk := by
  refine stored.clear up fun q => ?_
  by_cases same : q = p
  · rw [same]
    exact here
  · cases installs : (m.pc q).installs with
    | false => rfl
    | true =>
      have := others q same
      rw [commits_of_installs installs] at this
      cases this

theorem Stored.writeLog {tail : Nat} (turns : m.Turns)
    (noted : m.Noted) (up : m.phase = .up) (here : m.pc p = .writeLog tail) :
    Stored start size disk ({ m with log := m.log.writeLogOne tail }.setPc p
      (if tail + 1 < m.log.lh.length then .writeLog (tail + 1) else .writeHead)) := by
  obtain ⟨others, _⟩ := turns.others (p := p) (by rw [here]; rfl)
  have fits : tail < m.log.lh.length := noted.fits_of here
  have small := (noted.small up).2
  have started := stored.start_eq
  have durable := stored.clear_of_leader up others (by rw [here]; rfl)
  refine stored.leads others rfl up rfl rfl ?_ ?_
  · intro _
    change Durable start size _ [] (m.log.writeLogOne tail).disk
    rw [(writeLogOne_fields m.log tail).2, started]
    exact durable.write_log (by omega) (by rw [stored.size_eq] at small; omega)
  · intro n installed
    split at installed <;> cases installed

theorem Stored.writeHead (turns : m.Turns) (noted : m.Noted)
    (copied : m.Copied) (up : m.phase = .up) (here : m.pc p = .writeHead) :
    Stored start size disk ({ m with
      log := m.log.writeHead, group := []
      commits := m.commits ++ [Commit.mk m.group m.logged] }.setPc p (.install 0)) := by
  obtain ⟨others, _⟩ := turns.others (p := p) (by rw [here]; rfl)
  have durable := stored.clear_of_leader up others (by rw [here]; rfl)
  obtain ⟨small, room⟩ := noted.small up
  rw [stored.size_eq] at room
  have started := stored.start_eq
  have home : ∀ w ∈ m.logged, OutsideLog start size w.1 := by
    intro w member
    have listed : w.1 ∈ m.log.lh := by
      rw [← logged_fst]
      exact List.mem_map_of_mem member
    have := noted.home up _ listed
    rwa [Home, started, stored.size_eq] at this
  have copies : ∀ i w, m.logged[i]? = some w → m.log.disk (start + i + 1) = w.2 := by
    intro i w found
    rw [← started]
    exact (logged_getElem? found).2.2.symm
  have committed : Durable start size (applyAll m.logged (m.replay disk)) m.logged
      (update m.log.disk start (putHeader (m.log.cache m.log.start) (m.logged.map Prod.fst))) :=
    durable.commit (by rw [length_logged]; exact small) (by rw [length_logged]; exact room) copies
      home (by rw [logged_fst]; exact noted.nodup up)
  rw [logged_fst] at committed
  have replays : applyAll ((m.commits ++ [Commit.mk m.group m.logged]).flatMap (·.txn)) disk =
      applyAll m.logged (m.replay disk) := by
    rw [List.flatMap_append, applyAll_append, replay]
    simp
  refine stored.leads others rfl up rfl rfl (by simp [LogPc.installs]) ?_
  rintro n ⟨⟩
  refine ⟨m.logged, ?_, (logged_fst m).symm, ?_, (by simp)⟩
  · change Durable m.log.start m.log.size (applyAll ((m.commits ++
      [Commit.mk m.group m.logged]).flatMap (·.txn)) disk) _ m.log.writeHead.disk
    rw [replays, writeHead_disk, started, stored.size_eq]
    rw [started] at committed
    exact committed
  · intro i w found
    obtain ⟨inside, _, _⟩ := logged_getElem? found
    have same := (copied p i (by rw [here]; exact inside)).2
    change m.log.writeHead.cache (m.log.start + i + 1) = w.2
    rw [started] at same ⊢
    have cache : m.log.writeHead.cache (start + i + 1) = m.log.cache (start + i + 1) := by
      simp only [Log.writeHead, Log.setData, Log.bwrite]
      rw [started]
      exact update_of_ne (by omega) _ _
    rw [cache, same]
    exact copies i w found

omit [DecidableEq π] [Fintype π] in
theorem Stored.recovers (outside : ∀ p, m'.pc p = .outside)
    (started : m'.log.start = m.log.start) (sized : m'.log.size = m.log.size)
    (clear : m'.phase = .up → Durable start size (m'.replay disk) [] m'.log.disk)
    (later : m'.phase ≠ .readHead)
    (recovering : ∀ n, m'.phase.installed m'.log.lh = some n → m'.log.Installing (m'.replay disk) n)
    (inside : ∀ tail, m'.phase = .install tail → tail < m'.log.lh.length) :
    Stored start size disk m' := by
  constructor
  · exact started.trans stored.start_eq
  · exact sized.trans stored.size_eq
  · exact fun up _ => clear up
  · intro q n installed
    rw [outside q] at installed
    cases installed
  · exact fun down => absurd down later
  · exact recovering
  · exact inside

theorem Stored.install {tail : Nat} (turns : m.Turns)
    (noted : m.Noted) (up : m.phase = .up) (here : m.pc p = .install tail) :
    Stored start size disk ({ m with log := m.log.installOne false tail }.setPc p
      (if tail + 1 < m.log.lh.length then .install (tail + 1) else .clearHead)) := by
  obtain ⟨others, _⟩ := turns.others (p := p) (by rw [here]; rfl)
  have fits : tail < m.log.lh.length := noted.fits_of here
  have installing := stored.installing p tail (by rw [here]; rfl)
  obtain ⟨started, sized, lh, _⟩ := installOne_fields m.log false tail
  refine stored.leads others rfl up started sized ?_ ?_
  · intro quiet
    split at quiet <;> cases quiet
  · intro n installed
    change LogPc.installed (m.log.installOne false tail).lh _ = some n at installed
    have done : n = tail + 1 := by
      split at installed
      · cases installed
        rfl
      · cases installed
        rw [lh]
        omega
    rw [done]
    exact installing.step fits

theorem Stored.readHead (turns : m.Turns)
    (down : m.phase = .readHead) : Stored start size disk { m with
      log := { m.log with lh := getHeader (m.log.cache m.log.start) }
      phase := if 0 < (getHeader (m.log.cache m.log.start)).length then .install 0
        else .clearHead } := by
  obtain ⟨cache, txn, durable⟩ := stored.booting down
  have outside := turns.down (by rw [down]; nofun)
  have header : getHeader (m.log.cache m.log.start) = txn.map Prod.fst := by
    rw [cache, stored.start_eq]
    exact durable.header
  have installing : ({ m.log with lh := getHeader (m.log.cache m.log.start) } : Log).Installing
      (m.replay disk) 0 := by
    refine ⟨txn, ?_, header, ?_, nofun⟩
    · rw [stored.start_eq, stored.size_eq]
      exact durable
    · intro i w found
      rw [cache, stored.start_eq]
      exact durable.copies i w found
  refine stored.recovers outside rfl rfl ?_ ?_ ?_ ?_
  · intro up
    split at up <;> cases up
  · split <;> nofun
  · intro n installed
    have none : n = 0 := by
      split at installed
      · cases installed
        rfl
      · cases installed
        change (getHeader (m.log.cache m.log.start)).length = 0
        omega
    rw [none]
    exact installing
  · intro tail
    split
    · rintro ⟨⟩
      assumption
    · nofun

theorem Stored.reinstall {tail : Nat} (turns : m.Turns)
    (down : m.phase = .install tail) : Stored start size disk { m with
      log := m.log.installOne true tail
      phase := if tail + 1 < m.log.lh.length then .install (tail + 1) else .clearHead } := by
  have outside := turns.down (by rw [down]; nofun)
  have fits := stored.inside tail down
  have installing := stored.recovering tail (by rw [down]; rfl)
  obtain ⟨started, sized, lh, _⟩ := installOne_fields m.log true tail
  refine stored.recovers outside started sized ?_ ?_ ?_ ?_
  · intro up
    split at up <;> cases up
  · split <;> nofun
  · intro n installed
    have done : n = tail + 1 := by
      split at installed
      · cases installed
        rfl
      · cases installed
        rw [lh]
        omega
    rw [done]
    exact installing.step fits
  · intro tail'
    split
    · rintro ⟨⟩
      assumption
    · nofun

theorem Stored.step (turns : m.Turns) (noted : m.Noted)
    (copied : m.Copied) (takes : Takes m act m') : Stored start size disk m' := by
  cases takes with
  | sleeps up ready waits | begins up ready free =>
    refine stored.moves up rfl rfl ?_ rfl rfl rfl rfl rfl rfl rfl
    rcases ready with here | here <;> rw [here] <;> rfl
  | absorbs up here room listed home | adds up here room fresh home =>
    exact stored.writes up rfl rfl rfl (turns.quiet (turns.idle here)) rfl rfl rfl rfl
  | leaves up here idle more | finishes up here =>
    apply Stored.wakeup
    exact stored.moves up rfl rfl (by rw [here]; rfl) rfl rfl rfl rfl rfl rfl rfl
  | starts up here idle last =>
    refine stored.moves up rfl rfl (by rw [here]; rfl) ?_ rfl rfl rfl rfl rfl rfl
    split <;> rfl
  | writesLog up here => exact stored.writeLog turns noted up here
  | writesHead up here => exact stored.writeHead turns noted copied up here
  | installs up here => exact stored.install turns noted up here
  | @clears p up here =>
    obtain ⟨others, _⟩ := turns.others (p := p) (by rw [here]; rfl)
    have installing := stored.installing p _ (by rw [here]; rfl)
    refine stored.leads others rfl up rfl rfl ?_ nofun
    intro _
    have clear := installing.clear
    rw [stored.start_eq, stored.size_eq] at clear
    exact clear
  | killed up here =>
    exact stored.moves up rfl rfl (by rw [here]; rfl) rfl rfl rfl rfl rfl rfl rfl
  | crashes =>
    refine ⟨stored.start_eq, stored.size_eq, nofun, nofun, ?_, nofun, nofun⟩
    exact fun _ => ⟨rfl, stored.durable⟩
  | reads down small => exact stored.readHead turns down
  | reinstalls down => exact stored.reinstall turns down
  | reclears down =>
    have outside := turns.down (by rw [down]; nofun)
    have installing := stored.recovering _ (by rw [down]; rfl)
    refine stored.recovers outside rfl rfl ?_ nofun nofun nofun
    intro _
    have clear := installing.clear
    rw [stored.start_eq, stored.size_eq] at clear
    exact clear

end Stored

variable [Fintype π]

theorem durable_of_clear (clear : (disk start).word 0 = 0) : Durable start size disk [] disk := by
  have header : getHeader (disk start) = [] := by
    rw [getHeader, clear]
    rfl
  exact ⟨header, Nat.zero_le _, Nat.zero_le _, nofun, nofun, List.nodup_nil, fun _ _ => rfl⟩

theorem Reachable.stored (clear : (disk start).word 0 = 0) (reached : Reachable start size disk m) :
    Stored start size disk m := by
  induction reached with
  | boot =>
    refine ⟨rfl, rfl, nofun, nofun, ?_, nofun, nofun⟩
    exact fun _ => ⟨rfl, [], durable_of_clear clear⟩
  | step reached allowed stepped ih =>
    exact ih.step reached.turns reached.noted reached.copied (takes_of_step allowed stepped)

def Recovers : LogMachine π → LogMachine π → Prop :=
  Relation.ReflTransGen fun m m' => m.step .recover = some m'

/-- The disk holds the home blocks as the commits have left them, and its header is clear. -/
def Settled (start size : Nat) (disk : Disk) (m : LogMachine π) : Prop :=
  (∀ b, OutsideLog start size b → m.log.disk b = m.replay disk b) ∧ (m.log.disk start).word 0 = 0

omit [DecidableEq π] [Fintype π] in
theorem settled_of_durable (durable : Durable start size (m.replay disk) [] m.log.disk) :
    Settled start size disk m := by
  refine ⟨durable.stands, ?_⟩
  rw [← length_getHeader, durable.header]
  rfl

omit [Fintype π] in
theorem Recovers.reachable (recovers : Recovers m m') (reached : Reachable start size disk m) :
    Reachable start size disk m' := by
  induction recovers with
  | refl => exact reached
  | tail _ stepped ih =>
    refine .step ih ?_ stepped
    trivial

omit [DecidableEq π] [Fintype π] in
theorem recoverStep_same (stepped : m.recoverStep = some m') :
    m'.commits = m.commits ∧ m'.log.committing = m.log.committing := by
  rw [recoverStep] at stepped
  split at stepped
  · cases stepped
  · obtain ⟨l, read, rfl⟩ := Option.map_eq_some_iff.mp stepped
    rw [Log.readHead] at read
    split_ifs at read
    cases read
    exact ⟨rfl, rfl⟩
  · cases stepped
    exact ⟨rfl, rfl⟩
  · cases stepped
    exact ⟨rfl, rfl⟩

omit [Fintype π] in
theorem Recovers.same (recovers : Recovers m m') :
    m'.commits = m.commits ∧ m'.log.committing = m.log.committing := by
  induction recovers with
  | refl => exact ⟨rfl, rfl⟩
  | tail _ stepped ih =>
    obtain ⟨commits, committing⟩ := recoverStep_same stepped
    exact ⟨commits.trans ih.1, committing.trans ih.2⟩

omit [Fintype π] in
theorem recovers_from_install (tail : Nat) (down : m.phase = .install tail) :
    ∃ m', Recovers m m' ∧ m'.phase = .up := by
  -- Induction on the blocks that are still to be installed.
  induction left : m.log.lh.length - tail generalizing m tail with
  | zero =>
    have stepped : m.step .recover = some { m with
        log := m.log.installOne true tail, phase := .clearHead } := by
      simp only [step, recoverStep, down]
      rw [if_neg (by omega)]
    exact ⟨_, .tail (.single stepped) rfl, rfl⟩
  | succ n ih =>
    by_cases more : tail + 1 < m.log.lh.length
    · have stepped : m.step .recover = some { m with
          log := m.log.installOne true tail, phase := .install (tail + 1) } := by
        simp only [step, recoverStep, down]
        rw [if_pos more]
      obtain ⟨m', recovers, up⟩ := ih (m := { m with
        log := m.log.installOne true tail, phase := .install (tail + 1) }) (tail + 1) rfl (by
          rw [(installOne_fields m.log true tail).2.2.1]
          omega)
      exact ⟨m', .head stepped recovers, up⟩
    · have stepped : m.step .recover = some { m with
          log := m.log.installOne true tail, phase := .clearHead } := by
        simp only [step, recoverStep, down]
        rw [if_neg more]
      exact ⟨_, .tail (.single stepped) rfl, rfl⟩

omit [Fintype π] in
theorem Stored.recovers_to_end (stored : Stored start size disk m) (down : m.phase ≠ .up) :
    ∃ m', Recovers m m' ∧ m'.phase = .up := by
  cases phase : m.phase with
  | up => exact absurd phase down
  | install tail => exact recovers_from_install tail phase
  | clearHead =>
    have stepped : m.step .recover = some { m with log := m.log.clearHead, phase := .up } := by
      simp only [LogMachine.step, recoverStep, phase]
    exact ⟨_, .single stepped, rfl⟩
  | readHead =>
    obtain ⟨cache, txn, durable⟩ := stored.booting phase
    have small : (m.log.cache m.log.start).word 0 ≤ LOGSIZE := by
      rw [cache, stored.start_eq, ← length_getHeader, durable.header, List.length_map]
      exact durable.small
    have stepped : m.step .recover = some { m with
        log := { m.log with lh := getHeader (m.log.cache m.log.start) }
        phase := if 0 < (getHeader (m.log.cache m.log.start)).length then .install 0
          else .clearHead } := by
      simp only [LogMachine.step, recoverStep, phase, Log.readHead]
      rw [if_pos small]
      rfl
    by_cases some : 0 < (getHeader (m.log.cache m.log.start)).length
    · rw [if_pos some] at stepped
      obtain ⟨m', recovers, up⟩ := recovers_from_install (m := { m with
        log := { m.log with lh := getHeader (m.log.cache m.log.start) }
        phase := .install 0 }) 0 rfl
      exact ⟨m', .head stepped recovers, up⟩
    · rw [if_neg some] at stepped
      exact ⟨_, .tail (.single stepped) rfl, rfl⟩

theorem Reachable.settled (clear : (disk start).word 0 = 0) (reached : Reachable start size disk m)
    (up : m.phase = .up) (idle : m.log.committing = false) : Settled start size disk m := by
  refine settled_of_durable ((reached.stored clear).clear up fun p => ?_)
  cases installs : (m.pc p).installs with
  | false => rfl
  | true =>
    have := reached.turns.quiet idle p
    rw [commits_of_installs installs] at this
    cases this

/-- From a disk with a clear header, whatever happens: outside of `commit` and of recovery the home
blocks are those of exactly the transactions whose header has reached the disk, and the header is
clear.  Recovery can always be completed, and whenever it is completed, this holds for the
transactions that had reached the disk before.  A transaction is the listed blocks with their
contents at the write of the header. -/
theorem crash_atomic (clear : (disk start).word 0 = 0) (reached : Reachable start size disk m) :
    (∀ act m', m.Allowed act → m.step act = some m' → m'.commits = m.commits ∨
      ∃ p, m.pc p = .writeHead ∧
        m'.commits = m.commits ++ [⟨m.group, m.log.lh.map fun b => (b, m.log.cache b)⟩]) ∧
      (m.phase = .up → m.log.committing = false → Settled start size disk m) ∧
      (m.phase ≠ .up → ∃ m', Recovers m m' ∧ m'.phase = .up) ∧
      ∀ m', m.phase ≠ .up → Recovers m m' → m'.phase = .up →
        m'.commits = m.commits ∧ Settled start size disk m' := by
  refine ⟨fun act m' allowed stepped => reached.copied.commits (takes_of_step allowed stepped),
    reached.settled clear, (reached.stored clear).recovers_to_end, ?_⟩
  intro m' down recovers up
  obtain ⟨commits, committing⟩ := recovers.same
  refine ⟨commits, (recovers.reachable reached).settled clear up ?_⟩
  rw [committing]
  exact (reached.turns.recovering down).1

/-- One block is logged; the machine crashes behind the write of the header, and again in the
middle of recovery. -/
def crashTwice : List (LogAct Unit) :=
  [.recover, .recover, .beginOp (), .write () 100 fun _ => 7, .endOp (), .commit (), .commit (),
    .crash, .recover, .crash, .recover, .recover]

/-- When recovery is completed after the second crash, the block is there. -/
theorem crash_atomic_twice : ∃ m m' : LogMachine Unit,
    Reachable 2 40 (fun _ _ => 0) m ∧ Recovers m m' ∧ m'.phase = .up ∧
      m'.log.disk 100 = m'.replay (fun _ _ => 0) 100 ∧ m'.replay (fun _ _ => 0) 100 = fun _ => 7 := by
  have ran : ((boot 2 40 fun _ _ => 0 : LogMachine Unit).run crashTwice).map (fun m =>
      (m.phase, m.commits.map (·.txn))) = some (.clearHead, [[(100, fun _ => 7)]]) := by
    decide +kernel
  obtain ⟨m, found, now⟩ := Option.map_eq_some_iff.mp ran
  simp only [Prod.mk.injEq] at now
  have reached := Reachable.run .boot found
  have down : m.phase ≠ .up := by
    rw [now.1]
    nofun
  obtain ⟨_, _, finishes, settles⟩ := crash_atomic rfl reached
  obtain ⟨m', recovers, up⟩ := finishes down
  obtain ⟨commits, settled, _⟩ := settles m' down recovers up
  have replays : m'.replay (fun _ _ => 0) 100 = fun _ => 7 := by
    rw [replay, commits, List.flatMap_def, now.2]
    rfl
  exact ⟨m, m', reached, recovers, up, settled 100 (by decide), replays⟩

end LogMachine

end OsbKernel
