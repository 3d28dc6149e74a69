import OsbKernel.Fs.QuietCalls

/-!
# Reference counts over runs of system calls

Each system call keeps the invariant of `FileRefs`, whether it succeeds or fails,
so that the reference counts are right between any two calls.
-/

namespace OsbKernel

open Function Tally OpProgram

namespace Files

variable {s s' : Files} {extra : FileId → Int} {p : Slot} {f f0 f1 : FileId} {fd : Fd}
variable {w : World} {β : Type} {Q : β → World → Prop} {E : Fault → Prop}

variable {next : Option FileId → Call β}

theorem sat_filealloc (full : Sat (calls p) (next none) w Q E)
    (found : ∀ f s', w.files.filealloc = (some f, s') →
      Sat (calls p) (next (some f)) ⟨s', w.trace⟩ Q E) :
    Sat (calls p) (Call.file .filealloc >>= next) w Q E := by
  rcases answer : w.files.filealloc with ⟨r, s'⟩
  refine sat_file_ok (congrArg Except.ok answer) ?_
  cases r with
  | none =>
    rw [filealloc_none answer]
    exact full
  | some f => exact found f s' answer

theorem fdalloc_some (found : s.fdalloc p f = (some fd, s')) :
    s.ofile p fd = none ∧ s' = s.setOfile p fd (some f) := by
  unfold fdalloc at found
  split at found
  · cases found
  · rename_i fd' first
    cases found
    have empty := List.find?_some first
    exact ⟨by simpa using empty, rfl⟩

theorem fdalloc_none (full : s.fdalloc p f = (none, s')) : s' = s := by
  unfold fdalloc at full
  split at full <;> cases full
  rfl

theorem sat_fdalloc {next : Option Fd → Call β} (full : Sat (calls p) (next none) w Q E)
    (found : ∀ fd, w.files.ofile p fd = none →
      Sat (calls p) (next (some fd)) ⟨w.files.setOfile p fd (some f), w.trace⟩ Q E) :
    Sat (calls p) (Call.file (.fdalloc f) >>= next) w Q E := by
  rcases answer : w.files.fdalloc p f with ⟨r, s'⟩
  refine sat_file_ok (congrArg Except.ok answer) ?_
  cases r with
  | none =>
    rw [fdalloc_none answer]
    exact full
  | some fd =>
    obtain ⟨empty, rfl⟩ := fdalloc_some answer
    exact found fd empty

theorem sat_kalloc {next : Option Page → Call β}
    (full : kalloc w.files.kmem = none → Sat (calls p) (next none) w Q E)
    (found : ∀ page m, kalloc w.files.kmem = some (page, m) →
      Sat (calls p) (next (some page))
        ⟨{ w.files with kmem := m, pipeLog := .alloc page :: w.files.pipeLog }, w.trace⟩ Q E) :
    Sat (calls p) (Call.file .kalloc >>= next) w Q E := by
  cases answer : kalloc w.files.kmem with
  | none =>
    refine sat_file_ok (r := none) (s := w.files) ?_ (full answer)
    simp only [exec, allocPipe, answer]
  | some taken =>
    obtain ⟨page, m⟩ := taken
    refine sat_file_ok ?_ (found page m answer)
    simp only [exec, allocPipe, answer]

theorem sat_ofile (rest : ∀ x, w.files.ofile p fd = x → Sat (calls p) (next x) w Q E) :
    Sat (calls p) (Call.file (.ofile fd) >>= next) w Q E :=
  sat_file_ok rfl (rest _ rfl)

theorem filedup_ok (used : 0 < (s.file f).ref) :
    exec p (.filedup f) s =
      .ok ((), s.setFile f { s.file f with ref := (s.file f).ref + 1 }) := by
  have present : ¬ (s.file f).ref < 1 := by omega
  simp only [exec, filedup]
  rw [if_neg present]
  rfl

theorem sat_cwd {next : Ino → Call β} (error : E .nullPointer)
    (rest : ∀ ip, w.files.cwd p = some ip → Sat (calls p) (next ip) w Q E) :
    Sat (calls p) (Call.file .cwd >>= next) w Q E := by
  cases answer : w.files.cwd p with
  | none =>
    apply sat_file
    · intro e stopped
      simp only [exec, answer] at stopped
      cases stopped
      exact error
    · intro r s executed
      simp only [exec, answer] at executed
      cases executed
  | some ip =>
    refine sat_file_ok (r := ip) (s := w.files) ?_ (rest ip answer)
    simp only [exec, answer]

/-- A file structure that has been allocated and not yet been filled in. -/
def Blank (s : Files) (f : FileId) : Prop := (s.file f).ref = 1 ∧ (s.file f).type = .FD_NONE

theorem Blank.notEnd (blank : s.Blank f) {page : Page} {writable : Bool} :
    ¬ s.EndOf page writable f := by
  rintro ⟨_, type, _⟩
  rw [blank.2] at type
  cases type

theorem filealloc_blank (ok : s.RefsOk extra) (found : s.filealloc = (some f, s')) :
    s'.Blank f := by
  obtain ⟨unused, rfl⟩ := filealloc_some found
  unfold Blank
  rw [file_setFile, if_pos rfl]
  exact ⟨rfl, ok.closed f unused⟩

theorem filealloc_twice (blank : s.Blank f0) (found : s.filealloc = (some f1, s')) :
    f0 ≠ f1 ∧ s'.Blank f0 := by
  obtain ⟨unused, rfl⟩ := filealloc_some found
  have apart : f0 ≠ f1 := by
    rintro rfl
    rw [blank.1] at unused
    cases unused
  refine ⟨apart, ?_⟩
  unfold Blank
  rw [file_setFile, if_neg apart]
  exact blank

/-- The state after `pipealloc` has succeeded. -/
def withPipe (s : Files) (m : Kmem) (page : Page) (f0 f1 : FileId) : Files :=
  let s := { s with kmem := m, pipeLog := .alloc page :: s.pipeLog }
  let s := s.setPipe page ⟨true, true⟩
  let s := s.setFile f0
    { s.file f0 with type := .FD_PIPE, readable := true, writable := false, pipe := page }
  s.setFile f1
    { s.file f1 with type := .FD_PIPE, readable := false, writable := true, pipe := page }

section WithPipe

variable {m : Kmem} {page : Page}

theorem withPipe_file (apart : f0 ≠ f1) (g : FileId) :
    (s.withPipe m page f0 f1).file g =
      if g = f1 then
        { s.file f1 with type := .FD_PIPE, readable := false, writable := true, pipe := page }
      else if g = f0 then
        { s.file f0 with type := .FD_PIPE, readable := true, writable := false, pipe := page }
      else s.file g := by
  unfold withPipe
  simp only [file_setFile, if_neg apart.symm]
  rfl

theorem endOf_withPipe (apart : f0 ≠ f1) (first : s.Blank f0) (second : s.Blank f1)
    (g : FileId) (q : Page) (side : Bool) :
    (s.withPipe m page f0 f1).EndOf q side g ↔
      (q = page ∧ g = if side then f1 else f0) ∨ s.EndOf q side g := by
  unfold EndOf
  rw [withPipe_file apart]
  by_cases isSecond : g = f1
  · subst isSecond
    cases side <;> simp [second.1, second.2, apart.symm, @eq_comm _ page q]
  · by_cases isFirst : g = f0
    · subst isFirst
      cases side <;> simp [first.1, first.2, apart, @eq_comm _ page q]
    · cases side <;> simp [isFirst, isSecond]

theorem CountsOk.withPipe (ok : s.CountsOk extra) (apart : f0 ≠ f1) (first : s.Blank f0)
    (second : s.Blank f1) : (s.withPipe m page f0 f1).CountsOk extra := by
  have refs : ∀ g, ((s.withPipe m page f0 f1).file g).ref = (s.file g).ref := by
    intro g
    rw [withPipe_file apart]
    split
    · rename_i same
      rw [same]
    · split
      · rename_i same
        rw [same]
      · rfl
  constructor
  · intro g
    rw [refs]
    exact ok.counts g
  · intro g unused
    rw [refs] at unused
    rw [withPipe_file apart]
    split
    · rename_i same
      rw [same, second.1] at unused
      cases unused
    · split
      · rename_i same
        rw [same, first.1] at unused
        cases unused
      · exact ok.closed g unused

theorem PipesOk.withPipe (ok : s.PipesOk) (apart : f0 ≠ f1) (first : s.Blank f0)
    (second : s.Blank f1) (taken : kalloc s.kmem = some (page, m)) :
    (s.withPipe m page f0 f1).PipesOk := by
  have list : s.kmem.freelist = page :: m.freelist := by
    unfold kalloc at taken
    split at taken
    · cases taken
    · rename_i r rest shape
      cases taken
      exact shape
  have nodup := ok.nodup
  rw [list] at nodup
  have dead : livePipe s.pipeLog page = false := ok.apart page (by rw [list]; exact List.mem_cons_self)
  have ends : ∀ g q side, (s.withPipe m page f0 f1).EndOf q side g ↔
      (q = page ∧ g = if side then f1 else f0) ∨ s.EndOf q side g :=
    endOf_withPipe apart first second
  have fresh : ∀ side g, ¬ s.EndOf page side g := by
    intro side g there
    rw [ok.used there] at dead
    cases dead
  have file : ∀ g, (s.withPipe m page f0 f1).file g = _ := withPipe_file apart
  have log : (s.withPipe m page f0 f1).pipeLog = .alloc page :: s.pipeLog := rfl
  have pipe : (s.withPipe m page f0 f1).pipe = update s.pipe page ⟨true, true⟩ := rfl
  have alive : ∀ {q}, livePipe (s.withPipe m page f0 f1).pipeLog q = true →
      q = page ∨ (q ≠ page ∧ livePipe s.pipeLog q = true) := by
    intro q live
    rw [log] at live
    unfold livePipe at live
    split at live
    · rename_i same
      exact .inl same.symm
    · rename_i other
      exact .inr ⟨fun same => other same.symm, live⟩
  constructor
  · exact ⟨dead, ok.once⟩
  · exact (List.nodup_cons.mp nodup).2
  · intro q listed
    have free : q ∈ m.freelist := listed
    rw [log]
    unfold livePipe
    split
    · rename_i same
      subst same
      exact absurd free (List.nodup_cons.mp nodup).1
    · exact ok.apart q (by rw [list]; exact List.mem_cons_of_mem _ free)
  · intro q side g there
    rw [log]
    unfold livePipe
    split
    · rfl
    · rename_i other
      rcases (ends g q side).mp there with ⟨same, _⟩ | before
      · exact absurd same.symm other
      · exact ok.used before
  · intro q side g there
    rw [file]
    rcases (ends g q side).mp there with ⟨_, new⟩ | before
    · cases side with
      | true =>
        subst new
        simp
      | false =>
        subst new
        simp [apart]
    · have old : g ≠ f1 ∧ g ≠ f0 := by
        constructor
        · rintro rfl
          exact second.notEnd before
        · rintro rfl
          exact first.notEnd before
      rw [if_neg old.1, if_neg old.2]
      exact ok.side before
  · intro q side g g' there too
    rcases (ends g q side).mp there with ⟨same, new⟩ | before
    · subst same
      rcases (ends g' q side).mp too with ⟨_, new'⟩ | before'
      · rw [new, new']
      · exact absurd before' (fresh _ _)
    · rcases (ends g' q side).mp too with ⟨same, _⟩ | before'
      · subst same
        exact absurd before (fresh _ _)
      · exact ok.single before before'
  · intro q live side
    rw [pipe]
    simp only [ends]
    rcases alive live with same | ⟨other, live⟩
    · subst same
      rw [update_self]
      constructor
      · exact fun _ => ⟨_, .inl ⟨rfl, rfl⟩⟩
      · intro _
        cases side <;> rfl
    · rw [update_of_ne other, ok.opened live side]
      simp [other]
  · intro q live
    rw [pipe]
    rcases alive live with same | ⟨other, live⟩
    · subst same
      rw [update_self]
      exact ⟨true, rfl⟩
    · rw [update_of_ne other]
      exact ok.ends live

end WithPipe

theorem sat_fileclose {next : Unit → Call β} (ok : w.files.RefsOk extra)
    (used : 0 < (w.files.file f).ref)
    (rest : ∀ w', Keeps w.files (bump extra f (-1)) w' → Sat (calls p) (next ()) w' Q NoFilePanic) :
    Sat (calls p) (fileclose f >>= next) w Q NoFilePanic :=
  (fileclose_keeps ok used).seq fun _ w' kept => rest w' kept

theorem RefsOk.used (ok : s.RefsOk extra) (inHand : 0 < extra f) : 0 < (s.file f).ref := by
  have counts := ok.counts f
  omega

theorem RefsOk.used_of_ofile (ok : s.RefsOk extra) (points : s.ofile p fd = some f)
    (owed : 0 ≤ extra f) : 0 < (s.file f).ref := by
  have counts := ok.counts f
  have some := refsTo_pos points
  omega

def noExtra : FileId → Int := fun _ => 0

def twoExtra (f0 f1 : FileId) : FileId → Int := bump (bump noExtra f0 1) f1 1

theorem twoExtra_pos (f0 f1 : FileId) : 0 < twoExtra f0 f1 f0 ∧ 0 < bump (twoExtra f0 f1) f0 (-1) f1 ∧
    bump (bump (twoExtra f0 f1) f0 (-1)) f1 (-1) = noExtra := by
  refine ⟨?_, ?_, ?_⟩
  · simp only [twoExtra, bump_apply, noExtra, if_true]
    split <;> simp
  · simp only [twoExtra, bump_apply, noExtra, if_true]
    split <;> simp
  · funext g
    simp only [twoExtra, bump_apply, noExtra]
    split <;> split <;> simp

theorem sat_closeBoth {c : Call β} (ok : w.files.RefsOk (twoExtra f0 f1))
    (rest : ∀ w', Keeps w.files noExtra w' → Sat (calls p) c w' Q NoFilePanic) :
    Sat (calls p) (do
      fileclose f0
      fileclose f1
      c) w Q NoFilePanic := by
  obtain ⟨first, second, none⟩ := twoExtra_pos f0 f1
  refine sat_fileclose ok (ok.used first) fun w' kept => ?_
  refine sat_fileclose kept.1 (kept.1.used second) fun w'' kept' => ?_
  rw [none] at kept'
  exact rest w'' ⟨kept'.1, kept.2.trans kept'.2⟩

/-- What `pipealloc` returns: nothing, or two ends whose references are in hand. -/
def MadePipe (s : Files) (r : Option (FileId × FileId)) (w : World) : Prop :=
  SameProcs s w.files ∧
    match r with
    | none => w.files.RefsOk noExtra
    | some (f0, f1) => w.files.RefsOk (twoExtra f0 f1)

theorem pipealloc_keeps (ok : w.files.RefsOk noExtra) :
    Sat (calls p) pipealloc w (MadePipe w.files) NoFilePanic := by
  refine sat_filealloc ⟨SameProcs.refl _, ok⟩ fun f0 s₁ found => ?_
  have ok₁ := ok.filealloc found
  have blank₁ := filealloc_blank ok found
  have procs₁ : SameProcs w.files s₁ := by
    obtain ⟨_, rfl⟩ := filealloc_some found
    exact ⟨rfl, rfl, rfl⟩
  refine sat_filealloc ?_ fun f1 s₂ found' => ?_
  · refine sat_fileclose ok₁ (by simp [blank₁.1]) fun w' kept => ?_
    rw [bump_cancel] at kept
    exact ⟨procs₁.trans kept.2, kept.1⟩
  · have ok₂ : s₂.RefsOk (twoExtra f0 f1) := ok₁.filealloc found'
    have blank₂ := filealloc_blank ok₁ found'
    obtain ⟨apart, blank₁'⟩ := filealloc_twice blank₁ found'
    have procs₂ : SameProcs w.files s₂ := by
      obtain ⟨_, rfl⟩ := filealloc_some found'
      exact procs₁.trans ⟨rfl, rfl, rfl⟩
    refine sat_kalloc (fun _ => ?_) fun page m taken => ?_
    · exact sat_closeBoth ok₂ fun w' kept => ⟨procs₂.trans kept.2, kept.1⟩
    · refine sat_file_ok rfl ?_
      refine sat_file_ok rfl ?_
      refine sat_file_ok rfl ?_
      refine sat_file_ok rfl ?_
      refine sat_file_ok rfl ?_
      refine ⟨⟨procs₂.ofile, procs₂.live, procs₂.initproc⟩, ?_⟩
      exact ⟨ok₂.toCountsOk.withPipe apart blank₁' blank₂,
        ok₂.pipes.withPipe apart blank₁' blank₂ taken⟩

structure Between (s : Files) : Prop where
  refs : s.RefsOk noExtra
  idle : s.Idle

theorem Idle.setOfile (idle : s.Idle) (live : s.live p = true) (fd : Fd) (x : Option FileId) :
    (s.setOfile p fd x).Idle := by
  intro q exited e
  have other : q ≠ p := by
    rintro rfl
    have alive : s.live q = false := exited
    rw [live] at alive
    cases alive
  have kept : (s.setOfile p fd x).ofile q e = s.ofile q e := by
    simp [Files.setOfile, other]
  rw [kept]
  exact idle q exited e

theorem SameProcs.idle (same : SameProcs s s') (idle : s.Idle) : s'.Idle := by
  intro q exited e
  rw [same.ofile]
  rw [same.live] at exited
  exact idle q exited e

abbrev KeepsBetween (p : Slot) (c : Call β) (w : World) : Prop :=
  Sat (calls p) c w (fun _ w' => w'.files.Between) NoFilePanic

theorem Quiet.between {c : Call β} (quiet : Quiet c) (between : w.files.Between) :
    KeepsBetween p c w :=
  (quiet.sat p w).mono
    (fun _ _ same => ⟨same.refsOk between.refs, same.toSameProcs.idle between.idle⟩)
    fun _ error => error

theorem sat_argfd {n : Int} {next : Option (Fd × FileId) → Call β}
    (bad : Sat (calls p) (next none) w Q E)
    (good : ∀ fd f, w.files.ofile p fd = some f → Sat (calls p) (next (some (fd, f))) w Q E) :
    Sat (calls p) (argfd n >>= next) w Q E := by
  apply Sat.bind
  unfold argfd
  split
  · refine sat_ofile fun x points => ?_
    cases x with
    | none => exact bad
    | some f => exact good _ f points
  · exact bad

theorem sysDup_keeps (between : w.files.Between) (live : w.files.live p = true) (n : Int) :
    KeepsBetween p (sysDup n) w := by
  refine sat_argfd between fun fd f points => ?_
  refine sat_fdalloc between fun fd' empty => ?_
  have used := between.refs.used_of_ofile points (Int.le_refl _)
  have installed := between.refs.install empty f
  have idle := between.idle.setOfile live fd' (some f)
  refine sat_file_ok (filedup_ok (s := w.files.setOfile p fd' (some f)) used) ?_
  have dup := installed.filedup (f := f) used
  rw [bump_cancel_neg] at dup
  exact ⟨dup, idle⟩

theorem sysClose_keeps (between : w.files.Between) (live : w.files.live p = true) (n : Int) :
    KeepsBetween p (sysClose n) w := by
  refine sat_argfd between fun fd f points => ?_
  refine sat_file_ok rfl ?_
  have cleared := between.refs.clear points
  refine sat_fileclose cleared (cleared.used ?_) fun w' kept => ?_
  · simp [bump_apply, noExtra]
  · rw [bump_cancel] at kept
    exact ⟨kept.1, kept.2.idle (between.idle.setOfile live fd none)⟩

theorem sysPipe_keeps (between : w.files.Between) (live : w.files.live p = true) (fdarray : Nat) :
    KeepsBetween p (sysPipe fdarray) w := by
  refine (pipealloc_keeps between.refs).seq fun r w₁ made => ?_
  obtain ⟨procs, ok⟩ := made
  have idle := procs.idle between.idle
  have live₁ : w₁.files.live p = true := by rw [procs.live, live]
  cases r with
  | none => exact ⟨ok, idle⟩
  | some ends =>
    obtain ⟨rf, wf⟩ := ends
    refine sat_fdalloc ?_ fun fd0 empty => ?_
    · exact sat_closeBoth ok fun w' kept => ⟨kept.1, kept.2.idle idle⟩
    have ok₂ := ok.install empty rf
    have idle₂ := idle.setOfile live₁ fd0 (some rf)
    have first : (w₁.files.setOfile p fd0 (some rf)).ofile p fd0 = some rf := by
      simp [Files.setOfile]
    refine sat_fdalloc ?_ fun fd1 empty' => ?_
    · refine sat_file_ok rfl ?_
      have back := ok₂.clear first
      rw [bump_cancel_neg] at back
      exact sat_closeBoth back fun w' kept =>
        ⟨kept.1, kept.2.idle (idle₂.setOfile live₁ fd0 none)⟩
    have ok₃ := ok₂.install empty' wf
    rw [(twoExtra_pos rf wf).2.2] at ok₃
    have idle₃ := idle₂.setOfile live₁ fd1 (some wf)
    have apart : fd0 ≠ fd1 := by
      rintro rfl
      rw [first] at empty'
      cases empty'
    refine sat_mem fun copied => ?_
    refine Sat.bind ?_
    have undo : Sat (calls p) (do
        Call.file (.setOfile fd0 none)
        Call.file (.setOfile fd1 none)
        closeEnds rf wf) ⟨(w₁.files.setOfile p fd0 (some rf)).setOfile p fd1 (some wf), w₁.trace⟩
        (fun _ w' => w'.files.Between) NoFilePanic := by
      refine sat_file_ok rfl ?_
      refine sat_file_ok rfl ?_
      have points₀ : ((w₁.files.setOfile p fd0 (some rf)).setOfile p fd1 (some wf)).ofile p fd0 =
          some rf := by simp [Files.setOfile, apart]
      have points₁ : (((w₁.files.setOfile p fd0 (some rf)).setOfile p fd1
          (some wf)).setOfile p fd0 none).ofile p fd1 = some wf := by
        simp [Files.setOfile, apart.symm]
      have cleared := (ok₃.clear points₀).clear points₁
      exact sat_closeBoth cleared fun w' kept =>
        ⟨kept.1, kept.2.idle ((idle₃.setOfile live₁ fd0 none).setOfile live₁ fd1 none)⟩
    cases copied with
    | false => exact undo
    | true =>
      refine sat_mem_last fun copied' => ?_
      cases copied' with
      | false => exact undo
      | true => exact ⟨ok₃, idle₃⟩

theorem RefsOk.openedFile (ok : s.RefsOk extra) (blank : (s.file f).ref ≠ 0)
    (type : (s.file f).type = .FD_NONE) (ip : Ino) (d : Inode) (omode : BitVec 32) :
    (s.setFile f (openedFile (s.file f) ip d omode)).RefsOk extra := by
  have ref : (OsbKernel.openedFile (s.file f) ip d omode).ref = (s.file f).ref := by
    unfold OsbKernel.openedFile
    split <;> rfl
  have filled : (OsbKernel.openedFile (s.file f) ip d omode).type ≠ .FD_PIPE := by
    unfold OsbKernel.openedFile
    split <;> simp
  have counts := ok.toCountsOk.setFile (f := f) (n := 0)
    (g := OsbKernel.openedFile (s.file f) ip d omode) (by rw [ref]; simp)
    (fun unused => absurd (ref ▸ unused) blank)
  have same : bump extra f 0 = extra := by
    funext g
    simp [bump_apply]
  rw [same] at counts
  refine ⟨counts, ok.pipes.setFile ?_ ?_⟩
  · simp [filled, type]
  · rintro ⟨_, pipe⟩
    exact absurd pipe filled

theorem openFile_keeps (between : w.files.Between) (live : w.files.live p = true) (ip : Ino)
    (omode : BitVec 32) :
    KeepsBetween p (openFile ip omode) w := by
  have fails : ∀ w' : World, w'.files.Between →
      KeepsBetween p (sysOpenFail ip) w' := by
    intro w' ok
    exact Quiet.between (.bind (.iunlockput _) fun _ => .bind (.ino _) fun _ => .pure _) ok
  refine sat_ino fun d _ => ?_
  split
  · exact fails _ between
  · refine sat_filealloc (fails _ between) fun f s₁ found => ?_
    have ok₁ := between.refs.filealloc found
    have blank := filealloc_blank between.refs found
    have procs₁ : SameProcs w.files s₁ := by
      obtain ⟨_, rfl⟩ := filealloc_some found
      exact ⟨rfl, rfl, rfl⟩
    have live₁ : s₁.live p = true := by rw [procs₁.live, live]
    refine sat_fdalloc ?_ fun fd empty => ?_
    · refine sat_fileclose ok₁ (by simp [blank.1]) fun w' kept => ?_
      rw [bump_cancel] at kept
      exact fails _ ⟨kept.1, (procs₁.trans kept.2).idle between.idle⟩
    · have ok₂ := ok₁.install empty f
      rw [bump_cancel] at ok₂
      have idle₂ := (procs₁.idle between.idle).setOfile live₁ fd (some f)
      refine sat_file_ok rfl ?_
      refine sat_file_ok rfl ?_
      have opened := ok₂.openedFile (f := f) (by simp [Files.setOfile, blank.1]) blank.2 ip d omode
      refine Quiet.between (.bind ?_ fun _ => .bind (.ino _) fun _ => .bind (.ino _) fun _ => .pure _)
        ⟨opened, idle₂⟩
      exact .ite (.ino _) (.pure _)

theorem sysOpen_keeps (between : w.files.Between) (live : w.files.live p = true)
    (path : Option Path) (omode : BitVec 32) :
    KeepsBetween p (sysOpen path omode) w := by
  cases path with
  | none => exact between
  | some path =>
    refine sat_ino fun _ _ => ?_
    refine ((Quiet.openInode path omode).sat p _).seq fun found w₁ same => ?_
    have between₁ : w₁.files.Between :=
      ⟨same.refsOk between.refs, same.toSameProcs.idle between.idle⟩
    cases found with
    | none => exact sat_ino fun _ _ => between₁
    | some ip => exact openFile_keeps between₁ (same.live ▸ live) ip omode

/-- The state while `fork` hands the files to the child in slot `np`, with the
descriptors in `todo` still to come. -/
structure Forking (np : Slot) (todo : List Fd) (s : Files) : Prop where
  refs : s.RefsOk noExtra
  idle : ∀ q, q ≠ np → s.live q = false → ∀ fd, s.ofile q fd = none
  empty : ∀ fd ∈ todo, s.ofile np fd = none

theorem forkOfiles_keeps {np : Slot} (fds : List Fd) (nodup : fds.Nodup)
    (forking : Forking np fds w.files) :
    Sat (calls p) (forkOfiles np fds) w (fun _ w' => Forking np [] w'.files) NoFilePanic := by
  induction fds generalizing w with
  | nil => exact forking
  | cons fd rest ih =>
    obtain ⟨fresh, nodup⟩ := List.nodup_cons.mp nodup
    refine sat_ofile fun x points => ?_
    cases x with
    | none =>
      refine ih nodup ⟨forking.refs, forking.idle, fun e listed => ?_⟩
      exact forking.empty e (List.mem_cons_of_mem fd listed)
    | some f =>
      have used := forking.refs.used_of_ofile points (Int.le_refl _)
      refine sat_file_ok (filedup_ok used) ?_
      refine sat_file_ok rfl ?_
      have dup := forking.refs.filedup used
      have given := dup.install (forking.empty fd List.mem_cons_self) f
      rw [bump_cancel] at given
      refine ih nodup ⟨given, ?_, ?_⟩
      · intro q other exited e
        simp only [Files.setOfile, update_of_ne other]
        exact forking.idle q other exited e
      · intro e listed
        have apart : e ≠ fd := by
          rintro rfl
          exact fresh listed
        simp only [Files.setOfile, update_self, update_of_ne apart]
        exact forking.empty e (List.mem_cons_of_mem fd listed)

theorem forkFiles_keeps {np : Slot} (between : w.files.Between) (free : w.files.live np = false) :
    KeepsBetween p (forkFiles np) w := by
  have start : Forking np (List.finRange NOFILE) w.files :=
    ⟨between.refs, fun q _ => between.idle q, fun fd _ => between.idle np free fd⟩
  refine (forkOfiles_keeps _ (List.nodup_finRange _) start).seq fun _ w₁ forked => ?_
  refine sat_cwd ⟨by simp, by simp⟩ fun ip _ => ?_
  refine sat_ino fun _ _ => ?_
  refine sat_file_ok rfl ?_
  refine sat_file_last rfl ⟨?_, ?_⟩
  · exact forked.refs.congr rfl rfl rfl rfl rfl
  · intro q exited fd
    have other : q ≠ np := by
      rintro rfl
      simp [Files.setLive] at exited
    simp only [Files.setLive, update_of_ne other] at exited
    exact forked.idle q other exited fd

/-- The state while `exit` closes the files of `p`, with the descriptors in
`todo` still to come. -/
structure Exiting (p : Slot) (todo : List Fd) (s : Files) : Prop extends s.Between where
  live : s.live p = true
  shut : ∀ fd, fd ∉ todo → s.ofile p fd = none

theorem exitOfiles_keeps (fds : List Fd) (exiting : Exiting p fds w.files) :
    Sat (calls p) (exitOfiles fds) w (fun _ w' => Exiting p [] w'.files) NoFilePanic := by
  induction fds generalizing w with
  | nil => exact exiting
  | cons fd rest ih =>
    refine sat_ofile fun x points => ?_
    cases x with
    | none =>
      refine ih ⟨exiting.toBetween, exiting.live, fun e rested => ?_⟩
      by_cases same : e = fd
      · rw [same, points]
      · exact exiting.shut e (by simp [same, rested])
    | some f =>
      have used := exiting.refs.used_of_ofile points (Int.le_refl _)
      refine sat_fileclose exiting.refs used fun w' kept => ?_
      refine sat_file_ok rfl ?_
      have points' : w'.files.ofile p fd = some f := by rw [kept.2.ofile, points]
      have live' : w'.files.live p = true := by rw [kept.2.live, exiting.live]
      have cleared := kept.1.clear points'
      rw [bump_cancel_neg] at cleared
      refine ih ⟨⟨cleared, (kept.2.idle exiting.idle).setOfile live' _ none⟩, live', ?_⟩
      intro e rested
      by_cases same : e = fd
      · subst same
        simp [Files.setOfile]
      · simp only [Files.setOfile, update_self, update_of_ne same, kept.2.ofile]
        exact exiting.shut e (by simp [same, rested])

theorem exitFiles_keeps (between : w.files.Between) (live : w.files.live p = true) :
    KeepsBetween p exitFiles w := by
  refine sat_file_ok rfl ?_
  split
  · exact ⟨by simp, by simp⟩
  · have start : Exiting p (List.finRange NOFILE) w.files :=
      ⟨between, live, fun fd rested => absurd (List.mem_finRange fd) rested⟩
    refine (exitOfiles_keeps _ start).seq fun _ w₁ exited => ?_
    refine sat_ino fun _ _ => ?_
    refine sat_cwd ⟨by simp, by simp⟩ fun ip _ => ?_
    refine sat_ino fun _ _ => ?_
    refine sat_ino fun _ _ => ?_
    refine sat_file_ok rfl ?_
    refine sat_file_last rfl ⟨?_, ?_⟩
    · exact exited.refs.congr rfl rfl rfl rfl rfl
    · intro q gone fd
      by_cases same : q = p
      · subst same
        exact exited.shut fd (by simp)
      · simp only [Files.setLive, update_of_ne same] at gone
        exact exited.idle q gone fd

theorem prog_keeps (between : w.files.Between) (live : w.files.live p = true) {c : SysCall}
    (possible : c.Possible w.files) :
    KeepsBetween p c.prog w := by
  cases c with
  | open_ path omode => exact sysOpen_keeps between live path omode
  | dup fd => exact sysDup_keeps between live fd
  | pipe fdarray => exact sysPipe_keeps between live fdarray
  | close fd => exact sysClose_keeps between live fd
  | link old new => exact Quiet.between (.sysLink old new) between
  | unlink path => exact Quiet.between (.sysUnlink path) between
  | mkdir path | mknod path major minor => exact Quiet.between (.makeInode path _ _ _) between
  | chdir path => exact Quiet.between (.sysChdir path) between
  | exec path argv => exact Quiet.between (.exec path argv) between
  | fork np => exact (forkFiles_keeps between possible).seq fun _ _ kept => kept
  | exit => exact (exitFiles_keeps between live).seq fun _ _ kept => kept

/-- The state after boot: one process, no open file, and the free pages. -/
def start (initproc : Slot) (pages : List Page) : Files where
  file _ := File.zero
  ofile _ _ := none
  cwd := update (fun _ => none) initproc (some ROOTINO)
  live := update (fun _ => false) initproc true
  initproc := initproc
  pipe _ := ⟨false, false⟩
  kmem := ⟨pages⟩
  pipeLog := []

/-- The states between the system calls of any processes in any order.  Other
kernel code may take and return pages as well, but not those of pipes. -/
inductive Reachable : Files → Prop where
  | start (initproc : Slot) (pages : List Page) (nodup : pages.Nodup) :
      Reachable (start initproc pages)
  | call {s s' : Files} {p : Slot} {c : SysCall} {trace : List FsEvent} (reached : Reachable s)
      (called : Called s p c trace s') : Reachable s'
  | memory {s : Files} (pages : List Page) (reached : Reachable s) (nodup : pages.Nodup)
      (others : ∀ page ∈ pages, livePipe s.pipeLog page = false) :
      Reachable { s with kmem := ⟨pages⟩ }

theorem start_between (initproc : Slot) {pages : List Page} (nodup : pages.Nodup) :
    (start initproc pages).Between := by
  have noEnd : ∀ page side f, ¬ (start initproc pages).EndOf page side f := by
    rintro page side f ⟨used, _⟩
    cases used
  refine ⟨⟨⟨?_, fun _ _ => rfl⟩, ⟨trivial, nodup, fun _ _ => rfl, ?_, ?_, ?_, ?_, ?_⟩⟩, fun _ _ _ => rfl⟩
  · intro f
    have none : (start initproc pages).refsTo f = 0 := tally_eq_zero (by simp [start])
    rw [none]
    rfl
  · intro page side f there
    exact absurd there (noEnd _ _ _)
  · intro page side f there
    exact absurd there (noEnd _ _ _)
  · intro page side f g there
    exact absurd there (noEnd _ _ _)
  · intro page live
    cases live
  · intro page live
    cases live

theorem Reachable.between (reached : Reachable s) : s.Between := by
  induction reached with
  | start initproc pages nodup => exact start_between initproc nodup
  | call _ called ih =>
    obtain ⟨r, ran⟩ := called.returns
    exact (prog_keeps ih called.live called.possible).runs ran
  | memory pages _ nodup others ih =>
    have pipes := ih.refs.pipes
    exact ⟨⟨ih.refs.toCountsOk.congr rfl rfl, ⟨pipes.once, nodup, others, pipes.used, pipes.side,
      pipes.single, pipes.opened, pipes.ends⟩⟩, ih.idle⟩

/-- An open file that is the read end of the pipe in `page`. -/
def ReadEnd (s : Files) (page : Page) (f : FileId) : Prop :=
  0 < (s.file f).ref ∧ (s.file f).type = .FD_PIPE ∧ (s.file f).pipe = page ∧
    (s.file f).readable = true

/-- An open file that is the write end of the pipe in `page`. -/
def WriteEnd (s : Files) (page : Page) (f : FileId) : Prop :=
  0 < (s.file f).ref ∧ (s.file f).type = .FD_PIPE ∧ (s.file f).pipe = page ∧
    (s.file f).writable = true

/-- What is exact between two system calls: the reference counts, the flags of the
pipes, and the allocation of their pages. -/
structure Exact (s : Files) : Prop where
  refs : ∀ f, (s.file f).ref = s.refsTo f
  closed : ∀ f, (s.file f).ref = 0 → (s.file f).type = .FD_NONE
  readopen : ∀ page, livePipe s.pipeLog page = true →
    ((s.pipe page).readopen = true ↔ ∃ f, s.ReadEnd page f)
  writeopen : ∀ page, livePipe s.pipeLog page = true →
    ((s.pipe page).writeopen = true ↔ ∃ f, s.WriteEnd page f)
  once : OnceEach s.pipeLog
  freed : ∀ page, (∀ f, ¬ s.ReadEnd page f ∧ ¬ s.WriteEnd page f) →
    s.pipeLog.count (.alloc page) = s.pipeLog.count (.free page)
  kept : ∀ page f, s.ReadEnd page f ∨ s.WriteEnd page f →
    s.pipeLog.count (.alloc page) = s.pipeLog.count (.free page) + 1

theorem PipesOk.readEnd_iff (ok : s.PipesOk) {page : Page} :
    s.ReadEnd page f ↔ s.EndOf page false f := by
  constructor
  · rintro ⟨used, type, pipe, readable⟩
    refine ⟨used, type, pipe, ?_⟩
    have here : s.EndOf page (s.file f).writable f := ⟨used, type, pipe, rfl⟩
    have side := ok.side here
    rw [readable] at side
    cases other : (s.file f).writable with
    | false => rfl
    | true =>
      rw [other] at side
      cases side
  · intro there
    exact ⟨there.1, there.2.1, there.2.2.1, ok.side there⟩

theorem Between.exact (between : s.Between) : s.Exact := by
  have pipes := between.refs.pipes
  have ends : ∀ page, (∃ f, s.ReadEnd page f ∨ s.WriteEnd page f) ↔
      livePipe s.pipeLog page = true := by
    intro page
    constructor
    · rintro ⟨f, read | write⟩
      · exact pipes.used (pipes.readEnd_iff.mp read)
      · exact pipes.used write
    · intro live
      obtain ⟨side, up⟩ := pipes.ends live
      obtain ⟨f, there⟩ := (pipes.opened live side).mp up
      cases side with
      | false => exact ⟨f, .inl (pipes.readEnd_iff.mpr there)⟩
      | true => exact ⟨f, .inr there⟩
  refine ⟨?_, between.refs.closed, ?_, ?_, pipes.once, ?_, ?_⟩
  · intro f
    have counts := between.refs.counts f
    simp only [noExtra] at counts
    omega
  · intro page live
    simp only [pipes.readEnd_iff]
    exact pipes.opened live false
  · intro page live
    exact pipes.opened live true
  · intro page shut
    have dead : livePipe s.pipeLog page = false := by
      cases live : livePipe s.pipeLog page with
      | false => rfl
      | true =>
        obtain ⟨f, read | write⟩ := (ends page).mpr live
        · exact absurd read (shut f).1
        · exact absurd write (shut f).2
    have count := pipes.once.count page
    rw [dead] at count
    exact count
  · intro page f open_
    have live := (ends page).mp ⟨f, open_⟩
    have count := pipes.once.count page
    rw [live] at count
    exact count

theorem runs_file {o : FileOp} {next : o.Res → Call β} {r : o.Res} {a : β} {w' : World}
    {trace : List FsEvent} (executes : Files.exec p o s = .ok (r, s'))
    (rest : Runs (calls p) (next r) ⟨s', trace⟩ a w') :
    Runs (calls p) (.op (.file o) next) ⟨s, trace⟩ a w' := by
  have answers : (calls p).step ⟨s, trace⟩ (.file o) r ⟨s', trace⟩ := ⟨executes, rfl⟩
  exact Runs.op answers rest

end Files

end OsbKernel
