import OsbKernel.Fs.CallModel
import OsbKernel.Lib.Tally
import Mathlib.Data.Fintype.Prod

/-!
# Reference counts of files, and the pages of pipes

The reference count of a file is the number of descriptors that point to it, and the flags of a
pipe say which ends are open. Inside a system call the count can be off by references that the
call holds or owes; the invariant names them.
-/

namespace OsbKernel

open Function Tally OpProgram

def livePipe : List PipeEvent → Page → Bool
  | [], _ => false
  | .alloc q :: past, page => if q = page then true else livePipe past page
  | .free q :: past, page => if q = page then false else livePipe past page

/-- Every page that is allocated was free, and every page that is freed was
allocated. -/
def OnceEach : List PipeEvent → Prop
  | [] => True
  | .alloc page :: past => livePipe past page = false ∧ OnceEach past
  | .free page :: past => livePipe past page = true ∧ OnceEach past

/-- A page has been freed once for each time it was allocated, except that the
last allocation may still be in use. -/
theorem OnceEach.count {log : List PipeEvent} (once : OnceEach log) (page : Page) :
    log.count (.alloc page) = log.count (.free page) + (if livePipe log page then 1 else 0) := by
  induction log with
  | nil => rfl
  | cons event past ih =>
    cases event with
    | alloc q | free q =>
      have earlier := ih once.2
      by_cases same : q = page
      · subst same
        simp [livePipe, once.1] at earlier ⊢
        exact earlier
      · simp [livePipe, same, earlier]

def Pipe.isOpen (pi : Pipe) (writable : Bool) : Bool :=
  if writable then pi.writeopen else pi.readopen

theorem Pipe.isOpen_close (pi : Pipe) (w w' : Bool) :
    (pi.close w).isOpen w' = if w' = w then false else pi.isOpen w' := by
  cases w <;> cases w' <;> simp [Pipe.close, Pipe.isOpen]

theorem Pipe.closed_iff (pi : Pipe) :
    (!pi.readopen && !pi.writeopen) = true ↔ ∀ w, pi.isOpen w = false := by
  simp [Pipe.isOpen]

namespace Files

/-- The file is open and refers to one end of the pipe in `page`. -/
def EndOf (s : Files) (page : Page) (writable : Bool) (f : FileId) : Prop :=
  0 < (s.file f).ref ∧ (s.file f).type = .FD_PIPE ∧ (s.file f).pipe = page ∧
    (s.file f).writable = writable

/-- The number of descriptors, over all processes, that point to the file. -/
def refsTo (s : Files) (f : FileId) : Nat :=
  tally (· = some f) fun x : Slot × Fd => s.ofile x.1 x.2

structure PipesOk (s : Files) : Prop where
  once : OnceEach s.pipeLog
  nodup : s.kmem.freelist.Nodup
  apart : ∀ page ∈ s.kmem.freelist, livePipe s.pipeLog page = false
  used : ∀ {page writable f}, s.EndOf page writable f → livePipe s.pipeLog page = true
  side : ∀ {page writable f}, s.EndOf page writable f → (s.file f).readable = !writable
  single : ∀ {page writable f g}, s.EndOf page writable f → s.EndOf page writable g → f = g
  opened : ∀ {page}, livePipe s.pipeLog page = true → ∀ writable,
    ((s.pipe page).isOpen writable = true ↔ ∃ f, s.EndOf page writable f)
  ends : ∀ {page}, livePipe s.pipeLog page = true → ∃ writable, (s.pipe page).isOpen writable = true

/-- The file table, where `extra` counts the references that are not descriptors. -/
structure CountsOk (s : Files) (extra : FileId → Int) : Prop where
  counts : ∀ f, ((s.file f).ref : Int) = s.refsTo f + extra f
  closed : ∀ f, (s.file f).ref = 0 → (s.file f).type = .FD_NONE

structure RefsOk (s : Files) (extra : FileId → Int) : Prop extends s.CountsOk extra where
  pipes : s.PipesOk

def Idle (s : Files) : Prop := ∀ p, s.live p = false → ∀ fd, s.ofile p fd = none

variable {s s' : Files} {extra : FileId → Int} {p : Slot} {f g : FileId} {fd : Fd}

theorem refsTo_setOfile (s : Files) (p : Slot) (fd : Fd) (x : Option FileId) (f : FileId) :
    (s.setOfile p fd x).refsTo f + (if s.ofile p fd = some f then 1 else 0) =
      s.refsTo f + (if x = some f then 1 else 0) := by
  have table : (fun y : Slot × Fd => (s.setOfile p fd x).ofile y.1 y.2) =
      update (fun y : Slot × Fd => s.ofile y.1 y.2) (p, fd) x := by
    funext ⟨q, e⟩
    by_cases slot : q = p
    · subst slot
      by_cases same : e = fd
      · subst same
        simp [setOfile]
      · simp [setOfile, same]
    · simp [setOfile, slot]
  unfold refsTo
  rw [table]
  exact tally_update (P := (· = some f)) (fun y : Slot × Fd => s.ofile y.1 y.2) (p, fd) x

theorem refsTo_pos (points : s.ofile p fd = some f) : 0 < s.refsTo f :=
  tally_pos_iff.mpr ⟨(p, fd), points⟩

theorem PipesOk.of_ends (ok : s.PipesOk)
    (same : ∀ page writable f, s'.EndOf page writable f ↔ s.EndOf page writable f)
    (readable : ∀ f, (s'.file f).readable = (s.file f).readable) (pipe : s'.pipe = s.pipe)
    (kmem : s'.kmem = s.kmem) (log : s'.pipeLog = s.pipeLog) : s'.PipesOk := by
  constructor
  · rw [log]
    exact ok.once
  · rw [kmem]
    exact ok.nodup
  · rw [kmem, log]
    exact ok.apart
  · intro page writable f here
    rw [log]
    exact ok.used ((same _ _ _).mp here)
  · intro page writable f here
    rw [readable]
    exact ok.side ((same _ _ _).mp here)
  · intro page writable f g here there
    exact ok.single ((same _ _ _).mp here) ((same _ _ _).mp there)
  · intro page live writable
    rw [pipe, ok.opened (log ▸ live)]
    simp only [same]
  · intro page live
    rw [pipe]
    exact ok.ends (log ▸ live)

theorem RefsOk.setOfile (ok : s.RefsOk extra) (x : Option FileId) {extra' : FileId → Int}
    (balance : ∀ g, extra' g + (if x = some g then 1 else 0) =
      extra g + (if s.ofile p fd = some g then 1 else 0)) :
    (s.setOfile p fd x).RefsOk extra' := by
  refine ⟨⟨?_, ok.closed⟩, ok.pipes.of_ends (fun _ _ _ => Iff.rfl) (fun _ => rfl) rfl rfl rfl⟩
  intro g
  have before := ok.counts g
  have moved := refsTo_setOfile s p fd x g
  have owed := balance g
  have table : ((s.setOfile p fd x).file g).ref = (s.file g).ref := rfl
  by_cases gives : x = some g <;> by_cases had : s.ofile p fd = some g
  · rw [if_pos gives, if_pos had] at owed moved
    omega
  · rw [if_pos gives, if_neg had] at owed moved
    omega
  · rw [if_neg gives, if_pos had] at owed moved
    omega
  · rw [if_neg gives, if_neg had] at owed moved
    omega

theorem RefsOk.clear (ok : s.RefsOk extra) (points : s.ofile p fd = some f) :
    (s.setOfile p fd none).RefsOk (bump extra f 1) := by
  apply ok.setOfile
  intro g
  simp only [bump_apply, points, Option.some.injEq, reduceCtorEq, if_false, eq_comm]
  split <;> omega

theorem RefsOk.install (ok : s.RefsOk extra) (empty : s.ofile p fd = none) (f : FileId) :
    (s.setOfile p fd (some f)).RefsOk (bump extra f (-1)) := by
  apply ok.setOfile
  intro g
  simp only [bump_apply, empty, Option.some.injEq, reduceCtorEq, if_false, eq_comm]
  split <;> omega

theorem file_setFile (s : Files) (f f' : FileId) (g : File) :
    (s.setFile f g).file f' = if f' = f then g else s.file f' := by
  by_cases same : f' = f
  · subst same
    simp [setFile]
  · simp [setFile, same]

theorem endOf_setFile (s : Files) (f f' : FileId) (g : File) (page : Page) (writable : Bool) :
    (s.setFile f g).EndOf page writable f' ↔
      if f' = f then 0 < g.ref ∧ g.type = .FD_PIPE ∧ g.pipe = page ∧ g.writable = writable
      else s.EndOf page writable f' := by
  unfold EndOf
  rw [file_setFile]
  split <;> rfl

theorem PipesOk.setFile (ok : s.PipesOk) {g : File}
    (same : (0 < g.ref ∧ g.type = .FD_PIPE) ↔ (0 < (s.file f).ref ∧ (s.file f).type = .FD_PIPE))
    (fields : 0 < g.ref ∧ g.type = .FD_PIPE → g.pipe = (s.file f).pipe ∧
      g.writable = (s.file f).writable ∧ g.readable = (s.file f).readable) :
    (s.setFile f g).PipesOk := by
  have ends : ∀ page writable f',
      (s.setFile f g).EndOf page writable f' ↔ s.EndOf page writable f' := by
    intro page writable f'
    rw [endOf_setFile]
    split
    · rename_i here
      subst here
      constructor
      · rintro ⟨open_, type, pipe, side⟩
        have kept := fields ⟨open_, type⟩
        exact ⟨(same.mp ⟨open_, type⟩).1, (same.mp ⟨open_, type⟩).2, kept.1 ▸ pipe,
          kept.2.1 ▸ side⟩
      · rintro ⟨open_, type, pipe, side⟩
        have kept := fields (same.mpr ⟨open_, type⟩)
        exact ⟨(same.mpr ⟨open_, type⟩).1, (same.mpr ⟨open_, type⟩).2, kept.1.trans pipe,
          kept.2.1.trans side⟩
    · rfl
  refine ⟨ok.once, ok.nodup, ok.apart, ?_, ?_, ?_, ?_, ok.ends⟩
  · intro page writable f' here
    exact ok.used ((ends _ _ _).mp here)
  · intro page writable f' here
    have before := ok.side ((ends _ _ _).mp here)
    rw [file_setFile]
    split
    · rename_i same'
      subst same'
      rw [endOf_setFile, if_pos rfl] at here
      exact (fields ⟨here.1, here.2.1⟩).2.2.trans before
    · exact before
  · intro page writable f' g' here there
    exact ok.single ((ends _ _ _).mp here) ((ends _ _ _).mp there)
  · intro page live writable
    simp only [ends]
    exact ok.opened live writable

theorem CountsOk.setFile (ok : s.CountsOk extra) {g : File} {n : Int}
    (count : (g.ref : Int) = (s.file f).ref + n) (none : g.ref = 0 → g.type = .FD_NONE) :
    (s.setFile f g).CountsOk (bump extra f n) := by
  constructor
  · intro f'
    have table : (s.setFile f g).refsTo f' = s.refsTo f' := rfl
    have before := ok.counts f'
    rw [file_setFile, table, bump_apply]
    split
    · rename_i here
      subst here
      omega
    · omega
  · intro f'
    rw [file_setFile]
    split
    · exact none
    · exact ok.closed f'

theorem filealloc_some (found : s.filealloc = (some f, s')) :
    (s.file f).ref = 0 ∧ s' = s.setFile f { s.file f with ref := 1 } := by
  unfold filealloc at found
  split at found
  · cases found
  · rename_i f' first
    cases found
    have unused := List.find?_some first
    exact ⟨by simpa using unused, rfl⟩

theorem filealloc_none (full : s.filealloc = (none, s')) : s' = s := by
  unfold filealloc at full
  split at full <;> cases full
  rfl

theorem RefsOk.filealloc (ok : s.RefsOk extra) (found : s.filealloc = (some f, s')) :
    s'.RefsOk (bump extra f 1) := by
  obtain ⟨unused, rfl⟩ := filealloc_some found
  have type := ok.closed f unused
  refine ⟨ok.toCountsOk.setFile ?_ ?_, ?_⟩
  · simp [unused]
  · simp
  · apply ok.pipes.setFile
    · simp [type]
    · simp [type]

theorem RefsOk.filedup (ok : s.RefsOk extra) (used : 0 < (s.file f).ref) :
    (s.setFile f { s.file f with ref := (s.file f).ref + 1 }).RefsOk (bump extra f 1) := by
  refine ⟨ok.toCountsOk.setFile ?_ ?_, ?_⟩
  · simp
  · simp
  · apply ok.pipes.setFile
    · simp [used]
    · simp

theorem RefsOk.dropShared (ok : s.RefsOk extra) (shared : 0 < (s.file f).ref - 1) :
    (s.setFile f { s.file f with ref := (s.file f).ref - 1 }).RefsOk (bump extra f (-1)) := by
  have used : 0 < (s.file f).ref := by omega
  refine ⟨ok.toCountsOk.setFile ?_ ?_, ?_⟩
  · simp only
    omega
  · simp only
    omega
  · apply ok.pipes.setFile
    · simp [used, shared]
    · simp

theorem CountsOk.dropLast (ok : s.CountsOk extra) (last : (s.file f).ref = 1) {g : File}
    (unused : g.ref = 0) (none : g.type = .FD_NONE) :
    (s.setFile f g).CountsOk (bump extra f (-1)) :=
  ok.setFile (by rw [last, unused]; rfl) fun _ => none

/-- The state after `f`, an end of the pipe in `page`, is closed for good. -/
def closedEnd (s : Files) (f : FileId) (g : File) (page : Page) (w : Bool) : Files :=
  let s := (s.setFile f g).setPipe page ((s.pipe page).close w)
  if !(s.pipe page).readopen && !(s.pipe page).writeopen then s.freePipe page else s

section ClosedEnd

variable {page : Page} {w : Bool}

theorem closedEnd_file (s : Files) (f : FileId) (g : File) (page : Page) (w : Bool) :
    (s.closedEnd f g page w).file = (s.setFile f g).file := by
  unfold closedEnd
  simp only
  split <;> rfl

theorem closedEnd_pipe (s : Files) (f : FileId) (g : File) (page : Page) (w : Bool) :
    (s.closedEnd f g page w).pipe = update s.pipe page ((s.pipe page).close w) := by
  unfold closedEnd
  simp only
  split <;> rfl

theorem closedEnd_cases (s : Files) (f : FileId) (g : File) (page : Page) (w : Bool) :
    ((s.pipe page).isOpen (!w) = false ∧
      (s.closedEnd f g page w).kmem.freelist = page :: s.kmem.freelist ∧
      (s.closedEnd f g page w).pipeLog = .free page :: s.pipeLog) ∨
    ((s.pipe page).isOpen (!w) = true ∧ (s.closedEnd f g page w).kmem = s.kmem ∧
      (s.closedEnd f g page w).pipeLog = s.pipeLog) := by
  unfold closedEnd
  simp only [setPipe, update_self]
  split
  · rename_i closed
    have other := (Pipe.closed_iff _).mp closed (!w)
    rw [Pipe.isOpen_close, if_neg (by cases w <;> simp)] at other
    exact .inl ⟨other, rfl, rfl⟩
  · rename_i open_
    refine .inr ⟨?_, rfl, rfl⟩
    rw [Pipe.closed_iff] at open_
    cases still : (s.pipe page).isOpen (!w) with
    | true => rfl
    | false =>
      refine absurd ?_ open_
      intro w'
      rw [Pipe.isOpen_close]
      split
      · rfl
      · have flipped : w' = !w := by
          cases w <;> cases w' <;> simp_all
        rw [flipped]
        exact still

theorem endOf_closedEnd {g : File} (unused : g.ref = 0) (s : Files) (f f' : FileId) (q : Page)
    (w' : Bool) :
    (s.closedEnd f g page w).EndOf q w' f' ↔ f' ≠ f ∧ s.EndOf q w' f' := by
  have ends : (s.closedEnd f g page w).EndOf q w' f' ↔ (s.setFile f g).EndOf q w' f' := by
    unfold EndOf
    rw [closedEnd_file]
  rw [ends, endOf_setFile]
  split
  · rename_i same
    simp [unused, same]
  · rename_i other
    simp [other]

theorem PipesOk.closedEnd (ok : s.PipesOk) (here : s.EndOf page w f) {g : File}
    (unused : g.ref = 0) : (s.closedEnd f g page w).PipesOk := by
  have ends : ∀ f' q w', (s.closedEnd f g page w).EndOf q w' f' ↔ f' ≠ f ∧ s.EndOf q w' f' :=
    endOf_closedEnd unused s f
  have live : livePipe s.pipeLog page = true := ok.used here
  -- An end that remains open is the other end of this pipe or belongs to another pipe.
  have remains : ∀ {q w' f'}, f' ≠ f → s.EndOf q w' f' → q = page → w' = !w := by
    intro q w' f' other there same
    subst same
    cases w <;> cases w' <;> first | rfl | exact absurd (ok.single there here) other
  have flags : ∀ q w', ((s.closedEnd f g page w).pipe q).isOpen w' =
      if q = page ∧ w' = w then false else (s.pipe q).isOpen w' := by
    intro q w'
    rw [closedEnd_pipe]
    by_cases same : q = page
    · subst same
      rw [update_self, Pipe.isOpen_close]
      simp
    · simp [same]
  have side : ∀ {q w' f'}, (s.closedEnd f g page w).EndOf q w' f' →
      ((s.closedEnd f g page w).file f').readable = !w' := by
    intro q w' f' there
    obtain ⟨other, before⟩ := (ends f' q w').mp there
    rw [closedEnd_file, file_setFile, if_neg other]
    exact ok.side before
  have single : ∀ {q w' f' g'}, (s.closedEnd f g page w).EndOf q w' f' →
      (s.closedEnd f g page w).EndOf q w' g' → f' = g' := by
    intro q w' f' g' there too
    exact ok.single ((ends _ _ _).mp there).2 ((ends _ _ _).mp too).2
  have opened : ∀ {q}, livePipe s.pipeLog q = true → ∀ w',
      (((s.closedEnd f g page w).pipe q).isOpen w' = true ↔
        ∃ f', (s.closedEnd f g page w).EndOf q w' f') := by
    intro q alive w'
    rw [flags]
    simp only [ends]
    split
    · rename_i same
      obtain ⟨rfl, rfl⟩ := same
      simp only [Bool.false_eq_true, false_iff, not_exists, not_and]
      intro f' other there
      exact other (ok.single there here)
    · rename_i different
      rw [ok.opened alive]
      constructor
      · rintro ⟨f', there⟩
        refine ⟨f', ?_, there⟩
        rintro rfl
        exact different ⟨there.2.2.1.symm.trans here.2.2.1, there.2.2.2.symm.trans here.2.2.2⟩
      · rintro ⟨f', _, there⟩
        exact ⟨f', there⟩
  rcases closedEnd_cases s f g page w with ⟨shut, free, log⟩ | ⟨open_, kmem, log⟩
  · have gone : ∀ {q w' f'}, (s.closedEnd f g page w).EndOf q w' f' → q ≠ page := by
      rintro q w' f' there rfl
      obtain ⟨other, before⟩ := (ends f' q w').mp there
      have flipped := remains other before rfl
      subst flipped
      rw [(ok.opened live (!w)).mpr ⟨f', before⟩] at shut
      cases shut
    refine ⟨?_, ?_, ?_, ?_, side, single, ?_, ?_⟩
    · rw [log]
      exact ⟨live, ok.once⟩
    · rw [free]
      refine List.nodup_cons.mpr ⟨?_, ok.nodup⟩
      intro listed
      rw [ok.apart page listed] at live
      cases live
    · rw [free, log]
      intro q listed
      unfold livePipe
      split
      · rfl
      · rename_i other
        rcases List.mem_cons.mp listed with same | before
        · exact absurd same.symm other
        · exact ok.apart q before
    · intro q w' f' there
      rw [log]
      unfold livePipe
      rw [if_neg (gone there).symm]
      exact ok.used ((ends _ _ _).mp there).2
    · intro q alive
      rw [log] at alive
      unfold livePipe at alive
      split at alive
      · cases alive
      · exact opened alive
    · intro q alive
      rw [log] at alive
      unfold livePipe at alive
      split at alive
      · cases alive
      · rename_i other
        obtain ⟨w', up⟩ := ok.ends alive
        refine ⟨w', ?_⟩
        rw [flags, if_neg (fun both => other both.1.symm)]
        exact up
  · refine ⟨log ▸ ok.once, kmem ▸ ok.nodup, ?_, ?_, side, single, ?_, ?_⟩
    · rw [kmem, log]
      exact ok.apart
    · intro q w' f' there
      rw [log]
      exact ok.used ((ends _ _ _).mp there).2
    · intro q alive
      exact opened (log ▸ alive)
    · intro q alive
      rw [log] at alive
      by_cases same : q = page
      · subst same
        refine ⟨!w, ?_⟩
        rw [flags, if_neg (by simp)]
        exact open_
      · obtain ⟨w', up⟩ := ok.ends alive
        refine ⟨w', ?_⟩
        rw [flags, if_neg (fun both => same both.1)]
        exact up

end ClosedEnd

theorem CountsOk.congr (ok : s.CountsOk extra) (file : s'.file = s.file)
    (ofile : s'.ofile = s.ofile) : s'.CountsOk extra := by
  have counts : ∀ f, s'.refsTo f = s.refsTo f := by
    intro f
    unfold refsTo
    rw [ofile]
  constructor
  · intro f
    rw [file, counts]
    exact ok.counts f
  · rw [file]
    exact ok.closed


structure SameProcs (s s' : Files) : Prop where
  ofile : s'.ofile = s.ofile
  live : s'.live = s.live
  initproc : s'.initproc = s.initproc

theorem SameProcs.refl (s : Files) : SameProcs s s := ⟨rfl, rfl, rfl⟩

theorem SameProcs.trans {s₁ s₂ s₃ : Files} (first : SameProcs s₁ s₂) (second : SameProcs s₂ s₃) :
    SameProcs s₁ s₃ :=
  ⟨second.ofile.trans first.ofile, second.live.trans first.live,
    second.initproc.trans first.initproc⟩

theorem SameProcs.closedEnd (s : Files) (f : FileId) (g : File) (page : Page) (w : Bool) :
    SameProcs s (s.closedEnd f g page w) := by
  unfold Files.closedEnd
  simp only
  split <;> exact ⟨rfl, rfl, rfl⟩

/-- Not the panics of `filedup` and `fileclose`. -/
def NoFilePanic (e : Fault) : Prop := e ≠ .panic "filedup" ∧ e ≠ .panic "fileclose"

/-- What a piece of code that keeps the processes leaves: the invariant, with
`extra` references in hand. -/
def Keeps (s : Files) (extra : FileId → Int) (w : World) : Prop :=
  w.files.RefsOk extra ∧ SameProcs s w.files

theorem keeps_iput (w : World) (ip : Ino) {extra : FileId → Int} (keeps : Keeps s extra w) :
    Sat (calls p) (do
      Call.ino .beginOp
      Call.ino (.iput ip)
      Call.ino .endOp) w (fun _ w' => Keeps s extra w') NoFilePanic := by
  refine sat_ino fun _ _ => ?_
  refine sat_ino fun _ _ => ?_
  exact sat_ino_last fun _ _ => keeps

theorem keeps_pipeclose {w : World} {g : File} {page : Page} {side : Bool}
    (keeps : Keeps s extra ⟨w.files.closedEnd f g page side, w.trace⟩) :
    Sat (calls p) (do
      let closed ← Call.file (.pipeclose page side)
      if closed then Call.file (.kfree page) else return ()) ⟨w.files.setFile f g, w.trace⟩
      (fun _ w' => Keeps s extra w') NoFilePanic := by
  refine sat_file_ok rfl ?_
  split
  · rename_i closed
    have state : w.files.closedEnd f g page side =
        ((w.files.setFile f g).setPipe page ((w.files.pipe page).close side)).freePipe page := by
      simp only [Files.closedEnd, setPipe, update_self]
      exact if_pos closed
    rw [state] at keeps
    exact sat_file_last rfl keeps
  · rename_i open_
    have state : w.files.closedEnd f g page side =
        (w.files.setFile f g).setPipe page ((w.files.pipe page).close side) := by
      simp only [Files.closedEnd, setPipe, update_self]
      exact if_neg open_
    rw [state] at keeps
    exact keeps

theorem dropFile_shared (shared : 0 < (s.file f).ref - 1) :
    s.dropFile f = .ok (none, s.setFile f { s.file f with ref := (s.file f).ref - 1 }) := by
  rw [dropFile, if_neg (by omega), if_pos shared]

theorem dropFile_last (last : (s.file f).ref = 1) :
    s.dropFile f = .ok (some { s.file f with ref := 0 },
      s.setFile f { s.file f with ref := 0, type := .FD_NONE }) := by
  rw [dropFile, if_neg (by omega), if_neg (by omega)]

theorem fileclose_keeps {w : World} (ok : w.files.RefsOk extra) (used : 0 < (w.files.file f).ref) :
    Sat (calls p) (fileclose f) w (fun _ w' => Keeps w.files (bump extra f (-1)) w')
      NoFilePanic := by
  by_cases shared : 0 < (w.files.file f).ref - 1
  · refine sat_file_ok (dropFile_shared shared) ?_
    exact ⟨ok.dropShared shared, ⟨rfl, rfl, rfl⟩⟩
  · have last : (w.files.file f).ref = 1 := by omega
    refine sat_file_ok (dropFile_last last) ?_
    have counts := ok.toCountsOk.dropLast last
      (g := { w.files.file f with ref := 0, type := .FD_NONE }) rfl rfl
    have plain : (w.files.file f).type ≠ .FD_PIPE →
        Keeps w.files (bump extra f (-1))
          ⟨w.files.setFile f { w.files.file f with ref := 0, type := .FD_NONE }, w.trace⟩ := by
      intro type
      refine ⟨⟨counts, ?_⟩, ⟨rfl, rfl, rfl⟩⟩
      apply ok.pipes.setFile
      · simp [type]
      · simp
    cases type : (w.files.file f).type with
    | FD_PIPE =>
      have here : w.files.EndOf (w.files.file f).pipe (w.files.file f).writable f :=
        ⟨used, type, rfl, rfl⟩
      simp only [type]
      apply keeps_pipeclose
      have procs := SameProcs.closedEnd w.files f
        { w.files.file f with ref := 0, type := .FD_NONE } (w.files.file f).pipe
        (w.files.file f).writable
      exact ⟨⟨counts.congr (closedEnd_file _ _ _ _ _) procs.ofile, ok.pipes.closedEnd here rfl⟩,
        procs⟩
    | FD_INODE | FD_DEVICE =>
      simp only [type]
      exact keeps_iput _ _ (plain (by simp [type]))
    | FD_NONE =>
      simp only [type]
      exact plain (by simp [type])

structure SameFiles (s s' : Files) : Prop extends SameProcs s s' where
  file : s'.file = s.file
  pipe : s'.pipe = s.pipe
  kmem : s'.kmem = s.kmem
  pipeLog : s'.pipeLog = s.pipeLog

theorem SameFiles.refl (s : Files) : SameFiles s s := ⟨SameProcs.refl s, rfl, rfl, rfl, rfl⟩

theorem SameFiles.trans {s₁ s₂ s₃ : Files} (first : SameFiles s₁ s₂) (second : SameFiles s₂ s₃) :
    SameFiles s₁ s₃ :=
  ⟨first.toSameProcs.trans second.toSameProcs, second.file.trans first.file,
    second.pipe.trans first.pipe, second.kmem.trans first.kmem,
    second.pipeLog.trans first.pipeLog⟩

theorem RefsOk.congr (ok : s.RefsOk extra) (file : s'.file = s.file) (ofile : s'.ofile = s.ofile)
    (pipe : s'.pipe = s.pipe) (kmem : s'.kmem = s.kmem) (log : s'.pipeLog = s.pipeLog) :
    s'.RefsOk extra := by
  refine ⟨ok.toCountsOk.congr file ofile, ok.pipes.of_ends ?_ ?_ pipe kmem log⟩
  · intro page writable f
    unfold EndOf
    rw [file]
  · intro f
    rw [file]

theorem SameFiles.refsOk (same : SameFiles s s') (ok : s.RefsOk extra) : s'.RefsOk extra :=
  ok.congr same.file same.ofile same.pipe same.kmem same.pipeLog

end Files

end OsbKernel
