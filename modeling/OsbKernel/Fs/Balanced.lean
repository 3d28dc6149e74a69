import OsbKernel.Fs.FileRuns

/-!
# System calls undo what they take

On every path through the system calls that use inodes, transactions are opened and closed in
turn, locks are released, blocks are logged and references dropped only inside a transaction, and
the references left are those of the current directory and of open files.
-/

namespace OsbKernel

open Function Tally OpProgram

def inOp : List FsEvent → Bool
  | [] => false
  | .beginOp :: _ => true
  | .endOp :: _ => false
  | _ :: past => inOp past

/-- Transactions are not nested, and blocks are logged and references dropped
only inside them. -/
def Disciplined : List FsEvent → Prop
  | [] => True
  | .beginOp :: past => inOp past = false ∧ Disciplined past
  | .endOp :: past => inOp past = true ∧ Disciplined past
  | .put _ :: past => inOp past = true ∧ Disciplined past
  | .logWrite :: past => inOp past = true ∧ Disciplined past
  | _ :: past => Disciplined past

def net : List FsEvent → Ino → Int
  | [] => fun _ => 0
  | .ref ip :: past => bump (net past) ip 1
  | .put ip :: past => bump (net past) ip (-1)
  | _ :: past => net past

variable {trace : List FsEvent} {o : InodeOp} {s₀ : Files} {g : File}

theorem Disciplined.count (disciplined : Disciplined trace) :
    trace.count .beginOp = trace.count .endOp + (if inOp trace then 1 else 0) := by
  induction trace with
  | nil => rfl
  | cons event past ih =>
    cases event with
    | beginOp =>
      have earlier := ih disciplined.2
      rw [disciplined.1] at earlier
      simp only [List.count_cons_self, inOp, if_true]
      rw [List.count_cons_of_ne (by simp), earlier]
      simp
    | endOp =>
      have earlier := ih disciplined.2
      rw [disciplined.1] at earlier
      simp only [List.count_cons_self, inOp]
      rw [List.count_cons_of_ne (by simp), earlier]
      simp
    | put ip | logWrite =>
      exact ih disciplined.2
    | ref ip | lock ip | unlock ip =>
      exact ih disciplined

/-- Where a call stands: the files, whether it is in a transaction, the locks it
holds, and the references it has taken. -/
structure At (files : Files) (inside : Bool) (locks : List Ino) (refs : Ino → Int) (w : World) :
    Prop where
  files : w.files = files
  disciplined : Disciplined w.trace
  inside : inOp w.trace = inside
  locks : held w.trace = locks
  refs : net w.trace = refs

section Steps

variable {s : Files} {inside : Bool} {locks : List Ino} {refs : Ino → Int} {w : World}
variable {p : Slot} {β : Type} {Q : β → World → Prop} {E : Fault → Prop} {ip : Ino}

theorem sat_logs {next : o.Res → Call β} (here : At s true locks refs w)
    (logs : ∀ r, o.events r = [] ∨ o.events r = [.logWrite])
    (rest : ∀ r w', At s true locks refs w' → Sat (calls p) (next r) w' Q E) :
    Sat (calls p) (Call.ino o >>= next) w Q E := by
  refine sat_ino fun r _ => rest r _ ?_
  rcases logs r with nothing | logged
  · rw [nothing]
    exact here
  · rw [logged]
    exact ⟨here.files, ⟨here.inside, here.disciplined⟩, here.inside, here.locks, here.refs⟩

theorem sat_silent {next : o.Res → Call β} (here : At s inside locks refs w)
    (silent : ∀ r, o.events r = [])
    (rest : ∀ r w', At s inside locks refs w' → Sat (calls p) (next r) w' Q E) :
    Sat (calls p) (Call.ino o >>= next) w Q E := by
  refine sat_ino fun r _ => rest r _ ?_
  rw [silent r]
  exact here

variable {next : Unit → Call β}

theorem sat_ilock (here : At s inside locks refs w)
    (rest : ∀ w', ip ∉ locks → At s inside (ip :: locks) refs w' → Sat (calls p) (next ()) w' Q E) :
    Sat (calls p) (Call.ino (.ilock ip) >>= next) w Q E := by
  refine sat_ino fun _ ready => rest _ ?_ ?_
  · rw [← here.locks]
    exact ready
  · exact ⟨here.files, here.disciplined, here.inside, congrArg _ here.locks, here.refs⟩

theorem sat_iunlock (here : At s inside locks refs w)
    (rest : ∀ w', At s inside (locks.erase ip) refs w' → Sat (calls p) (next ()) w' Q E) :
    Sat (calls p) (Call.ino (.iunlock ip) >>= next) w Q E := by
  refine sat_ino fun _ _ => rest _ ?_
  exact ⟨here.files, here.disciplined, here.inside, congrArg (List.erase · ip) here.locks,
    here.refs⟩

theorem sat_iput (here : At s true locks refs w)
    (rest : ∀ w', At s true locks (bump refs ip (-1)) w' → Sat (calls p) (next ()) w' Q E) :
    Sat (calls p) (Call.ino (.iput ip) >>= next) w Q E := by
  refine sat_ino fun _ _ => rest _ ?_
  exact ⟨here.files, ⟨here.inside, here.disciplined⟩, here.inside, here.locks,
    congrArg (bump · ip (-1)) here.refs⟩

theorem sat_iref {next : o.Res → Call β} (here : At s inside locks refs w)
    (takes : ∀ r, o.events r = [.ref ip])
    (rest : ∀ r w', At s inside locks (bump refs ip 1) w' → Sat (calls p) (next r) w' Q E) :
    Sat (calls p) (Call.ino o >>= next) w Q E := by
  refine sat_ino fun r _ => rest r _ ?_
  rw [takes r]
  exact ⟨here.files, here.disciplined, here.inside, here.locks, congrArg (bump · ip 1) here.refs⟩

theorem sat_ialloc {type : InodeType} {next : Ino → Call β} (here : At s true locks refs w)
    (rest : ∀ ip w', At s true locks (bump refs ip 1) w' → Sat (calls p) (next ip) w' Q E) :
    Sat (calls p) (Call.ino (.ialloc type) >>= next) w Q E := by
  refine sat_ino fun ip _ => rest ip _ ?_
  exact ⟨here.files, ⟨here.inside, here.disciplined⟩, here.inside, here.locks,
    congrArg (bump · ip 1) here.refs⟩

theorem sat_beginOp (here : At s false locks refs w)
    (rest : ∀ w', At s true locks refs w' → Sat (calls p) (next ()) w' Q E) :
    Sat (calls p) (Call.ino .beginOp >>= next) w Q E := by
  refine sat_ino fun _ _ => rest _ ?_
  exact ⟨here.files, ⟨here.inside, here.disciplined⟩, rfl, here.locks, here.refs⟩

theorem sat_endOp (here : At s true locks refs w)
    (rest : ∀ w', At s false locks refs w' → Sat (calls p) (next ()) w' Q E) :
    Sat (calls p) (Call.ino .endOp >>= next) w Q E := by
  refine sat_ino fun _ _ => rest _ ?_
  exact ⟨here.files, ⟨here.inside, here.disciplined⟩, rfl, here.locks, here.refs⟩

theorem sat_iunlockput (here : At s true locks refs w)
    (rest : ∀ w', At s true (locks.erase ip) (bump refs ip (-1)) w' →
      Sat (calls p) (next ()) w' Q E) :
    Sat (calls p) (iunlockput ip >>= next) w Q E := by
  apply Sat.bind
  refine sat_iunlock here fun w₁ here₁ => ?_
  refine sat_ino_last fun _ _ => rest _ ?_
  exact ⟨here₁.files, ⟨here₁.inside, here₁.disciplined⟩, here₁.inside, here₁.locks,
    congrArg (bump · ip (-1)) here₁.refs⟩

theorem sat_iunlockput_head (here : At s true (ip :: locks) (bump refs ip 1) w)
    (rest : ∀ w', At s true locks refs w' → Sat (calls p) (next ()) w' Q E) :
    Sat (calls p) (iunlockput ip >>= next) w Q E := by
  refine sat_iunlockput here fun w' here' => rest w' ?_
  rw [bump_cancel, List.erase_cons_head] at here'
  exact here'

end Steps

def anyStop : Fault → Prop := fun _ => True

def Took {α : Type} (s : Files) (locks : List Ino) (refs : Ino → Int) :
    Option (Ino × α) → World → Prop
  | none, w => At s true locks refs w
  | some found, w => At s true locks (bump refs found.1 1) w

section Lookup

variable {s : Files} {locks : List Ino} {refs : Ino → Int} {w : World} {p : Slot}

theorem dirlookupLoop_took (dp : Ino) (name : Name) (n slot : Nat) (here : At s true locks refs w) :
    Sat (calls p) (dirlookupLoop dp name n slot) w (Took s locks refs) anyStop := by
  induction n generalizing slot w with
  | zero => exact here
  | succ n ih =>
    refine sat_logs here (fun _ => .inr rfl) fun de w₁ here₁ => ?_
    cases de with
    | none => trivial
    | some de =>
      simp only
      split
      · exact ih _ here₁
      · split
        · exact sat_iref here₁ (fun _ => rfl) fun _ _ here₂ => here₂
        · exact ih _ here₁

theorem dirlookup_took (dp : Ino) (name : Name) (here : At s true locks refs w) :
    Sat (calls p) (dirlookup dp name) w (Took s locks refs) anyStop := by
  refine sat_silent here (fun _ => rfl) fun d w₁ here₁ => ?_
  split
  · trivial
  · exact dirlookupLoop_took _ _ _ _ here₁

theorem emptyDirent_at (dp : Ino) (n slot : Nat) (here : At s true locks refs w) :
    Sat (calls p) (emptyDirent dp n slot) w (fun _ => At s true locks refs) anyStop := by
  induction n generalizing slot w with
  | zero => exact here
  | succ n ih =>
    refine sat_logs here (fun _ => .inr rfl) fun de w₁ here₁ => ?_
    cases de with
    | none => trivial
    | some de =>
      simp only
      split
      · exact here₁
      · exact ih _ here₁

theorem dirlink_at (dp : Ino) (name : Name) (inum : Ino) (here : At s true locks refs w) :
    Sat (calls p) (dirlink dp name inum) w (fun _ => At s true locks refs) anyStop := by
  refine (dirlookup_took dp name here).seq fun found w₁ took => ?_
  cases found with
  | some found =>
    refine sat_iput took fun w₂ here₂ => ?_
    rw [bump_cancel] at here₂
    exact here₂
  | none =>
    refine sat_silent took (fun _ => rfl) fun d w₂ here₂ => ?_
    refine (emptyDirent_at _ _ _ here₂).seq fun slot w₃ here₃ => ?_
    refine sat_logs here₃ (fun _ => .inr rfl) fun written w₄ here₄ => ?_
    cases written with
    | false => trivial
    | true => exact here₄

/-- The walk of `namex`: the reference to where it stands becomes one to what it
finds. -/
theorem namexLoop_took (parent : Bool) (names : List Name) (ip : Ino)
    (here : At s true locks (bump refs ip 1) w) :
    Sat (calls p) (namexLoop parent names ip) w (Took s locks refs) anyStop := by
  induction names generalizing ip w with
  | nil =>
    unfold namexLoop
    split
    · refine sat_iput here fun w₁ here₁ => ?_
      rw [bump_cancel] at here₁
      exact here₁
    · exact here
  | cons name rest ih =>
    refine sat_ilock here fun w₁ _ here₁ => ?_
    refine sat_silent here₁ (fun _ => rfl) fun d w₂ here₂ => ?_
    split
    · exact sat_iunlockput_head here₂ fun _ here₃ => here₃
    · split
      · refine sat_iunlock here₂ fun w₃ here₃ => ?_
        rw [List.erase_cons_head] at here₃
        exact here₃
      · refine (dirlookup_took ip name here₂).seq fun found w₃ took => ?_
        cases found with
        | none =>
          exact sat_iunlockput_head took fun _ here₄ => here₄
        | some found =>
          refine sat_iunlockput took fun w₄ here₄ => ?_
          rw [bump_comm, bump_cancel, List.erase_cons_head] at here₄
          exact ih found.1 here₄

theorem namex_took (path : Path) (parent : Bool) (here : At s true locks refs w) :
    Sat (calls p) (namex path parent) w (Took s locks refs) anyStop := by
  refine Sat.bind ?_
  unfold namexStart
  split
  · refine sat_iref here (fun _ => rfl) fun _ w₁ here₁ => ?_
    exact namexLoop_took _ _ _ here₁
  · refine Files.sat_cwd trivial fun ip _ => ?_
    refine sat_iref here (fun _ => rfl) fun _ w₁ here₁ => ?_
    exact namexLoop_took _ _ _ here₁

theorem nameiparent_took (path : Path) (here : At s true locks refs w) :
    Sat (calls p) (nameiparent path) w (Took s locks refs) anyStop :=
  namex_took path true here

/-- The code returns nothing, or an inode with a reference to it, and some locks. -/
def TookIno (s : Files) (locks : Ino → List Ino) (refs : Ino → Int) : Option Ino → World → Prop
  | none, w => At s true [] refs w
  | some ip, w => At s true (locks ip) (bump refs ip 1) w

theorem namei_took (path : Path) (here : At s true [] refs w) :
    Sat (calls p) (namei path) w (TookIno s (fun _ => []) refs) anyStop := by
  refine (namex_took path false here).seq fun found w₁ took => ?_
  cases found with
  | none => exact took
  | some found => exact took

theorem addLinks_at (ip : Ino) (n : Int) (here : At s true locks refs w) :
    Sat (calls p) (addLinks ip n) w (fun _ => At s true locks refs) anyStop := by
  refine sat_silent here (fun _ => rfl) fun d w₁ here₁ => ?_
  refine sat_silent here₁ (fun _ => rfl) fun _ w₂ here₂ => ?_
  refine sat_ino_last fun _ _ => ?_
  exact ⟨here₂.files, ⟨here₂.inside, here₂.disciplined⟩, here₂.inside, here₂.locks, here₂.refs⟩

end Lookup

section Links

variable {s : Files} {refs : Ino → Int} {w : World} {p : Slot} {ip dp : Ino}

theorem erase_second {ip dp : Ino} (apart : ip ∉ [dp]) : [ip, dp].erase dp = [ip] := by
  have different : ip ≠ dp := by simpa using apart
  simp [different]

theorem sysLinkBad_at (here : At s true [] (bump refs ip 1) w) :
    Sat (calls p) (sysLinkBad ip) w (fun _ => At s false [] refs) anyStop := by
  refine sat_ilock here fun w₁ _ here₁ => ?_
  refine (addLinks_at _ _ here₁).seq fun _ w₂ here₂ => ?_
  refine sat_iunlockput_head here₂ fun w₃ here₃ => ?_
  exact sat_endOp here₃ fun _ here₄ => here₄

theorem sysLink_at (old new : Option Path) (here : At s false [] refs w) :
    Sat (calls p) (sysLink old new) w (fun _ => At s false [] refs) anyStop := by
  unfold sysLink
  split
  · refine sat_beginOp here fun w₁ here₁ => ?_
    refine (namei_took _ here₁).seq fun found w₂ took => ?_
    cases found with
    | none => exact sat_endOp took fun _ here₃ => here₃
    | some ip =>
      refine sat_ilock took fun w₃ _ here₃ => ?_
      refine sat_silent here₃ (fun _ => rfl) fun d w₄ here₄ => ?_
      split
      · refine sat_iunlockput_head here₄ fun w₅ here₅ => ?_
        exact sat_endOp here₅ fun _ here₆ => here₆
      · refine (addLinks_at _ _ here₄).seq fun _ w₅ here₅ => ?_
        refine sat_iunlock here₅ fun w₆ here₆ => ?_
        rw [List.erase_cons_head] at here₆
        refine (nameiparent_took _ here₆).seq fun parent w₇ took' => ?_
        cases parent with
        | none => exact sysLinkBad_at took'
        | some parent =>
          refine sat_ilock took' fun w₈ _ here₈ => ?_
          refine (dirlink_at _ _ _ here₈).seq fun linked w₉ here₉ => ?_
          refine sat_iunlockput_head here₉ fun w₁₀ here₁₀ => ?_
          split
          · refine sat_iput here₁₀ fun w₁₁ here₁₁ => ?_
            rw [bump_cancel] at here₁₁
            exact sat_endOp here₁₁ fun _ here₁₂ => here₁₂
          · exact sysLinkBad_at here₁₀
  · exact here

variable {locks : List Ino}

theorem isdiremptyLoop_at (dp : Ino) (n slot : Nat)
    (here : At s true locks refs w) :
    Sat (calls p) (isdiremptyLoop dp n slot) w (fun _ => At s true locks refs) anyStop := by
  induction n generalizing slot w with
  | zero => exact here
  | succ n ih =>
    refine sat_logs here (fun _ => .inr rfl) fun de w₁ here₁ => ?_
    cases de with
    | none => trivial
    | some de =>
      simp only
      split
      · exact here₁
      · exact ih _ here₁

theorem sysUnlinkBad_at (here : At s true [dp] (bump refs dp 1) w) :
    Sat (calls p) (sysUnlinkBad dp) w (fun _ => At s false [] refs) anyStop := by
  refine sat_iunlockput_head here fun w₁ here₁ => ?_
  exact sat_endOp here₁ fun _ here₂ => here₂

theorem unlinkEntry_at (slot : Nat) (type : InodeType) (apart : ip ∉ [dp])
    (here : At s true [ip, dp] (bump (bump refs dp 1) ip 1) w) :
    Sat (calls p) (unlinkEntry dp ip slot type) w (fun _ => At s false [] refs) anyStop := by
  refine sat_logs here (fun _ => .inr rfl) fun written w₁ here₁ => ?_
  cases written with
  | false => trivial
  | true =>
    have counted : Sat (calls p)
        (if type = .T_DIR then addLinks dp (-1) else pure () : Call Unit) w₁
        (fun _ => At s true [ip, dp] (bump (bump refs dp 1) ip 1)) anyStop := by
      split
      · exact addLinks_at _ _ here₁
      · exact here₁
    refine counted.seq fun _ w₂ here₂ => ?_
    refine sat_iunlockput here₂ fun w₃ here₃ => ?_
    rw [bump_comm, bump_cancel, erase_second apart] at here₃
    refine (addLinks_at _ _ here₃).seq fun _ w₄ here₄ => ?_
    refine sat_iunlockput_head here₄ fun w₅ here₅ => ?_
    exact sat_endOp here₅ fun _ here₆ => here₆

theorem sysUnlink_at (path : Option Path) (here : At s false [] refs w) :
    Sat (calls p) (sysUnlink path) w (fun _ => At s false [] refs) anyStop := by
  cases path with
  | none => exact here
  | some path =>
    refine sat_beginOp here fun w₁ here₁ => ?_
    refine (nameiparent_took _ here₁).seq fun parent w₂ took => ?_
    cases parent with
    | none => exact sat_endOp took fun _ here₃ => here₃
    | some parent =>
      refine sat_ilock took fun w₃ _ here₃ => ?_
      split
      · exact sysUnlinkBad_at here₃
      · refine (dirlookup_took _ _ here₃).seq fun found w₄ took' => ?_
        cases found with
        | none => exact sysUnlinkBad_at took'
        | some found =>
          refine sat_ilock took' fun w₅ apart here₅ => ?_
          refine sat_silent here₅ (fun _ => rfl) fun d w₆ here₆ => ?_
          split
          · trivial
          · split
            · refine Sat.seq (Q := fun _ => At s true [found.1, parent.1]
                (bump (bump refs parent.1 1) found.1 1)) ?_ fun empty w₇ here₇ => ?_
              · refine sat_silent here₆ (fun _ => rfl) fun e w₇ here₇ => ?_
                exact isdiremptyLoop_at _ _ _ here₇
              · split
                · exact unlinkEntry_at _ _ apart here₇
                · refine sat_iunlockput_head here₇ fun w₈ here₈ => ?_
                  exact sysUnlinkBad_at here₈
            · exact unlinkEntry_at _ _ apart here₆

theorem createDots_at (dp ip : Ino) (here : At s true locks refs w) :
    Sat (calls p) (createDots dp ip) w (fun _ => At s true locks refs) anyStop := by
  refine (addLinks_at _ _ here).seq fun _ w₁ here₁ => ?_
  refine (dirlink_at _ _ _ here₁).seq fun self w₂ here₂ => ?_
  have parent : Sat (calls p) (if self then dirlink ip dotdot dp else pure false : Call Bool) w₂
      (fun _ => At s true locks refs) anyStop := by
    split
    · exact dirlink_at _ _ _ here₂
    · exact here₂
  refine parent.seq fun linked w₃ here₃ => ?_
  split
  · exact here₃
  · trivial

theorem createNew_at (name : Name) (type : InodeType) (major minor : Int)
    (here : At s true [dp] (bump refs dp 1) w) :
    Sat (calls p) (createNew dp name type major minor) w
      (fun ip => At s true [ip] (bump refs ip 1)) anyStop := by
  refine sat_ialloc here fun ip w₁ here₁ => ?_
  refine sat_ilock here₁ fun w₂ apart here₂ => ?_
  refine sat_silent here₂ (fun _ => rfl) fun d w₃ here₃ => ?_
  refine sat_silent here₃ (fun _ => rfl) fun _ w₄ here₄ => ?_
  refine sat_logs here₄ (fun _ => .inr rfl) fun _ w₅ here₅ => ?_
  have dots : Sat (calls p) (if type = .T_DIR then createDots dp ip else pure () : Call Unit) w₅
      (fun _ => At s true [ip, dp] (bump (bump refs dp 1) ip 1)) anyStop := by
    split
    · exact createDots_at _ _ here₅
    · exact here₅
  refine dots.seq fun _ w₆ here₆ => ?_
  refine (dirlink_at _ _ _ here₆).seq fun linked w₇ here₇ => ?_
  split
  · refine sat_iunlockput here₇ fun w₈ here₈ => ?_
    rw [bump_comm, bump_cancel, erase_second apart] at here₈
    exact here₈
  · trivial

theorem create_took (path : Path) (type : InodeType) (major minor : Int)
    (here : At s true [] refs w) :
    Sat (calls p) (create path type major minor) w (TookIno s (fun ip => [ip]) refs) anyStop := by
  refine (nameiparent_took _ here).seq fun parent w₁ took => ?_
  cases parent with
  | none => exact took
  | some parent =>
    refine sat_ilock took fun w₂ _ here₂ => ?_
    refine (dirlookup_took _ _ here₂).seq fun found w₃ took' => ?_
    cases found with
    | some found =>
      refine sat_iunlockput took' fun w₄ here₄ => ?_
      rw [bump_comm, bump_cancel, List.erase_cons_head] at here₄
      refine sat_ilock here₄ fun w₅ _ here₅ => ?_
      refine sat_silent here₅ (fun _ => rfl) fun d w₆ here₆ => ?_
      split
      · exact here₆
      · exact sat_iunlockput_head here₆ fun _ here₇ => here₇
    | none => exact (createNew_at _ _ _ _ took').seq fun _ _ made => made

theorem makeInode_at (path : Option Path) (type : InodeType) (major minor : Int)
    (here : At s false [] refs w) :
    Sat (calls p) (makeInode path type major minor) w (fun _ => At s false [] refs) anyStop := by
  refine sat_beginOp here fun w₁ here₁ => ?_
  refine Sat.seq (Q := TookIno s (fun ip => [ip]) refs) ?_ fun made w₂ took => ?_
  · cases path with
    | none => exact here₁
    | some path => exact create_took _ _ _ _ here₁
  · cases made with
    | none => exact sat_endOp took fun _ here₃ => here₃
    | some ip =>
      refine sat_iunlockput_head took fun w₃ here₃ => ?_
      exact sat_endOp here₃ fun _ here₄ => here₄

theorem openInode_took (path : Path) (omode : BitVec 32) (here : At s true [] refs w) :
    Sat (calls p) (openInode path omode) w (TookIno s (fun ip => [ip]) refs) anyStop := by
  unfold openInode
  split
  · exact create_took _ _ _ _ here
  · refine (namei_took _ here).seq fun found w₁ took => ?_
    cases found with
    | none => exact took
    | some ip =>
      refine sat_ilock took fun w₂ _ here₂ => ?_
      refine sat_silent here₂ (fun _ => rfl) fun d w₃ here₃ => ?_
      split
      · exact sat_iunlockput_head here₃ fun _ here₄ => here₄
      · exact here₃

end Links

section Exec

variable {s : Files} {inside : Bool} {locks : List Ino} {refs : Ino → Int} {w : World} {p : Slot}

theorem loadsegLoop_at (va : Nat) (ip : Ino) (offset sz n i : Nat)
    (here : At s true locks refs w) :
    Sat (calls p) (loadsegLoop va ip offset sz n i) w (fun _ => At s true locks refs) anyStop := by
  induction n generalizing i w with
  | zero => exact here
  | succ n ih =>
    refine sat_mem fun mapped => ?_
    split
    · refine sat_logs here (fun _ => .inr rfl) fun read w₁ here₁ => ?_
      split
      · exact ih _ here₁
      · exact here₁
    · trivial

theorem execSegment_at (ip : Ino) (ph : Proghdr) (sz : Nat) (here : At s true locks refs w) :
    Sat (calls p) (execSegment ip ph sz) w (fun _ => At s true locks refs) anyStop := by
  unfold execSegment
  split
  · exact here
  · split
    · exact here
    · split
      · exact here
      · refine sat_mem fun grown => ?_
        split
        · split
          · exact here
          · refine (loadsegLoop_at _ _ _ _ _ _ here).seq fun loaded w₁ here₁ => ?_
            split
            · exact here₁
            · exact here₁
        · exact here

theorem execSegments_at (ip : Ino) (n off sz : Nat) (here : At s true locks refs w) :
    Sat (calls p) (execSegments ip n off sz) w (fun _ => At s true locks refs) anyStop := by
  induction n generalizing off sz w with
  | zero => exact here
  | succ n ih =>
    refine sat_logs here (fun _ => .inr rfl) fun ph w₁ here₁ => ?_
    cases ph with
    | none => exact here₁
    | some ph =>
      refine (execSegment_at _ _ _ here₁).seq fun grown w₂ here₂ => ?_
      cases grown with
      | none => exact here₂
      | some sz => exact ih _ _ here₂

theorem execImage_at (ip : Ino) (here : At s true locks refs w) :
    Sat (calls p) (execImage ip) w (fun _ => At s true locks refs) anyStop := by
  refine sat_logs here (fun _ => .inr rfl) fun elf w₁ here₁ => ?_
  cases elf with
  | none => exact here₁
  | some elf =>
    simp only
    split
    · exact here₁
    · refine sat_mem fun made => ?_
      split
      · exact execSegments_at _ _ _ _ here₁
      · exact here₁

theorem pushArgs_at (stackbase : Nat) (argv : List (List UInt8)) (sp argc : Nat)
    (here : At s inside locks refs w) :
    Sat (calls p) (pushArgs stackbase argv sp argc) w (fun _ => At s inside locks refs)
      anyStop := by
  induction argv generalizing sp argc with
  | nil => exact here
  | cons arg rest ih =>
    unfold pushArgs
    split
    · exact here
    · simp only
      split
      · exact here
      · refine sat_mem fun copied => ?_
        split
        · exact ih _ _
        · exact here

theorem pushArgv_at (stackbase sp argc : Nat) (here : At s inside locks refs w) :
    Sat (calls p) (pushArgv stackbase sp argc) w (fun _ => At s inside locks refs) anyStop := by
  unfold pushArgv
  split
  · exact here
  · refine sat_mem fun copied => ?_
    split
    · exact here
    · exact here

theorem execStack_at (argv : List (List UInt8)) (sz : Nat) (here : At s inside locks refs w) :
    Sat (calls p) (execStack argv sz) w (fun _ => At s inside locks refs) anyStop := by
  refine sat_mem fun grown => ?_
  split
  · refine (pushArgs_at _ _ _ _ here).seq fun pushed w₁ here₁ => ?_
    cases pushed with
    | none => exact here₁
    | some pushed => exact pushArgv_at _ _ _ here₁
  · exact here

theorem exec_at (path : Path) (argv : List (List UInt8)) (here : At s false [] refs w) :
    Sat (calls p) (exec path argv) w (fun _ => At s false [] refs) anyStop := by
  refine sat_beginOp here fun w₁ here₁ => ?_
  refine (namei_took _ here₁).seq fun found w₂ took => ?_
  cases found with
  | none => exact sat_endOp took fun _ here₃ => here₃
  | some ip =>
    refine sat_ilock took fun w₃ _ here₃ => ?_
    refine (execImage_at _ here₃).seq fun image w₄ here₄ => ?_
    refine sat_iunlockput_head here₄ fun w₅ here₅ => ?_
    refine sat_endOp here₅ fun w₆ here₆ => ?_
    cases image with
    | none => exact here₆
    | some sz => exact execStack_at _ _ here₆

end Exec

def File.Refers (ip : Ino) (g : File) : Prop :=
  0 < g.ref ∧ (g.type = .FD_INODE ∨ g.type = .FD_DEVICE) ∧ g.ip = ip

instance (ip : Ino) : DecidablePred (File.Refers ip) :=
  fun g => inferInstanceAs (Decidable (0 < g.ref ∧ (g.type = .FD_INODE ∨ g.type = .FD_DEVICE) ∧
    g.ip = ip))

namespace Files

def fileRefs (s : Files) (ip : Ino) : Nat := tally (File.Refers ip) s.file

/-- The references to the inode that the current directory of `p` and the open file
structures hold. -/
def inodeRefs (s : Files) (p : Slot) (ip : Ino) : Nat :=
  (if s.cwd p = some ip then 1 else 0) + s.fileRefs ip

theorem fileRefs_setFile (s : Files) (f : FileId) (g : File) (ip : Ino) :
    (s.setFile f g).fileRefs ip + (if (s.file f).Refers ip then 1 else 0) =
      s.fileRefs ip + (if g.Refers ip then 1 else 0) :=
  tally_update s.file f g

end Files

/-- What the call leaves behind, given what the files referred to before. -/
def Settles (p : Slot) (s : Files) (w : World) : Prop :=
  ∃ refs, At w.files false [] refs w ∧
    ∀ ip, refs ip = (w.files.inodeRefs p ip : Int) - s.inodeRefs p ip

section Files

variable {s : Files} {inside : Bool} {locks : List Ino} {refs : Ino → Int} {w : World} {p : Slot}
variable {f : FileId} {ip : Ino}

theorem At.settles (here : At s false [] (fun _ => 0) w) : Settles p s w := by
  refine ⟨fun _ => 0, here.files ▸ here, ?_⟩
  intro ip
  rw [here.files]
  exact (Int.sub_self _).symm

theorem sysChdir_settles (path : Option Path) (here : At s false [] (fun _ => 0) w) :
    Sat (calls p) (sysChdir path) w (fun _ => Settles p s) anyStop := by
  refine sat_beginOp here fun w₁ here₁ => ?_
  refine Sat.seq (Q := TookIno s (fun _ => []) (fun _ => 0)) ?_ fun found w₂ took => ?_
  · cases path with
    | none => exact here₁
    | some path => exact namei_took _ here₁
  · cases found with
    | none => exact sat_endOp took fun _ here₃ => here₃.settles
    | some ip =>
      refine sat_ilock took fun w₃ _ here₃ => ?_
      refine sat_silent here₃ (fun _ => rfl) fun d w₄ here₄ => ?_
      split
      · refine sat_iunlockput_head here₄ fun w₅ here₅ => ?_
        exact sat_endOp here₅ fun _ here₆ => here₆.settles
      · refine sat_iunlock here₄ fun w₅ here₅ => ?_
        rw [List.erase_cons_head] at here₅
        refine Files.sat_cwd trivial fun cwd current => ?_
        refine sat_iput here₅ fun w₆ here₆ => ?_
        refine sat_endOp here₆ fun w₇ here₇ => ?_
        refine sat_file_ok rfl ?_
        rw [here₅.files] at current
        refine ⟨_, ⟨rfl, here₇.disciplined, here₇.inside, here₇.locks, here₇.refs⟩, ?_⟩
        intro j
        have same : (w₇.files.setCwd p (some ip)).fileRefs j = s.fileRefs j := by
          rw [here₇.files]
          rfl
        have moved : (w₇.files.setCwd p (some ip)).cwd p = some ip := update_self _ _ _
        simp only [Files.inodeRefs, same, moved, bump_apply, current, Option.some.injEq,
          @eq_comm _ j]
        split <;> split <;> omega

/-- Where a call stands when the references it has taken are those the files have gained. -/
structure Owes (p : Slot) (s₀ s : Files) (refs : Ino → Int) : Prop where
  owes : ∀ ip, refs ip = (s.inodeRefs p ip : Int) - s₀.inodeRefs p ip

theorem Owes.settles (owes : Owes p s₀ s refs) (here : At s false [] refs w) :
    Settles p s₀ w := by
  refine ⟨refs, here.files ▸ here, ?_⟩
  intro ip
  rw [here.files]
  exact owes.owes ip

theorem Owes.setFile (owes : Owes p s₀ s refs)
    (same : ∀ ip, g.Refers ip ↔ (s.file f).Refers ip) : Owes p s₀ (s.setFile f g) refs := by
  constructor
  intro ip
  have counted := s.fileRefs_setFile f g ip
  simp only [same ip] at counted
  have before := owes.owes ip
  have cwd : (s.setFile f g).cwd p = s.cwd p := rfl
  simp only [Files.inodeRefs, cwd] at before ⊢
  omega

theorem File.Refers.iff (refers : g.Refers ip) {j : Ino} : g.Refers j ↔ j = ip := by
  constructor
  · intro there
    exact there.2.2.symm.trans refers.2.2
  · rintro rfl
    exact refers

theorem Owes.close (owes : Owes p s₀ s refs) (refers : (s.file f).Refers ip)
    (closed : ∀ j, ¬ g.Refers j) : Owes p s₀ (s.setFile f g) (bump refs ip (-1)) := by
  constructor
  intro j
  have counted := s.fileRefs_setFile f g j
  have before := owes.owes j
  have cwd : (s.setFile f g).cwd p = s.cwd p := rfl
  simp only [refers.iff, closed j, if_false] at counted
  simp only [Files.inodeRefs, cwd, bump_apply] at before ⊢
  by_cases hit : j = ip
  · rw [if_pos hit] at counted ⊢
    omega
  · rw [if_neg hit] at counted ⊢
    omega

theorem Owes.opened (owes : Owes p s₀ s refs)
    (blank : ∀ j, ¬ (s.file f).Refers j) (refers : g.Refers ip) :
    Owes p s₀ (s.setFile f g) (bump refs ip 1) := by
  constructor
  intro j
  have counted := s.fileRefs_setFile f g j
  have before := owes.owes j
  have cwd : (s.setFile f g).cwd p = s.cwd p := rfl
  simp only [refers.iff, blank j, if_false] at counted
  simp only [Files.inodeRefs, cwd, bump_apply] at before ⊢
  by_cases hit : j = ip
  · rw [if_pos hit] at counted ⊢
    omega
  · rw [if_neg hit] at counted ⊢
    omega

theorem Owes.congr {s' : Files} (owes : Owes p s₀ s refs) (file : s'.file = s.file)
    (cwd : s'.cwd = s.cwd) : Owes p s₀ s' refs := by
  constructor
  intro ip
  rw [owes.owes ip]
  simp only [Files.inodeRefs, Files.fileRefs, file, cwd]

theorem sat_dropFile {β : Type} {Q : β → World → Prop} {next : Option File → Call β}
    (shared : 1 < (w.files.file f).ref → Sat (calls p) (next none)
      ⟨w.files.setFile f { w.files.file f with ref := (w.files.file f).ref - 1 }, w.trace⟩ Q anyStop)
    (last : (w.files.file f).ref = 1 → Sat (calls p) (next (some { w.files.file f with ref := 0 }))
      ⟨w.files.setFile f { w.files.file f with ref := 0, type := .FD_NONE }, w.trace⟩ Q anyStop) :
    Sat (calls p) (Call.file (.dropFile f) >>= next) w Q anyStop := by
  rcases Nat.lt_trichotomy (w.files.file f).ref 1 with unused | one | more
  · refine sat_file (fun _ _ => trivial) fun r s' executed => ?_
    simp only [Files.exec, Files.dropFile] at executed
    rw [if_pos unused] at executed
    cases executed
  · exact sat_file_ok (Files.dropFile_last one) (last one)
  · exact sat_file_ok (Files.dropFile_shared (by omega)) (shared more)

/-- `fileclose` gives up the reference of a file structure in a transaction of its own. -/
theorem fileclose_settles (owes : Owes p s₀ s refs) (here : At s false [] refs w) :
    Sat (calls p) (fileclose f) w (fun _ => Settles p s₀) anyStop := by
  have files := here.files
  subst files
  refine sat_dropFile (fun more => ?_) fun one => ?_
  · refine (owes.setFile (f := f) ?_).settles ⟨rfl, here.disciplined, here.inside, here.locks, here.refs⟩
    intro ip
    exact and_congr_left fun _ => by simp only; omega
  · have ends : ∀ w₁ : World, At (w.files.setFile f
        { w.files.file f with ref := 0, type := .FD_NONE }) false [] refs w₁ →
        (w.files.file f).Refers (w.files.file f).ip →
        Sat (calls p) (do
          Call.ino .beginOp
          Call.ino (.iput (w.files.file f).ip)
          Call.ino .endOp) w₁ (fun _ => Settles p s₀) anyStop := by
      intro w₁ here₁ refers
      refine sat_beginOp here₁ fun w₂ here₂ => ?_
      refine sat_iput here₂ fun w₃ here₃ => ?_
      refine sat_ino_last fun _ _ => ?_
      refine (owes.close refers ?_).settles ⟨here₃.files, ⟨here₃.inside, here₃.disciplined⟩, rfl,
        here₃.locks, here₃.refs⟩
      rintro j ⟨used, _⟩
      cases used
    have gone : At (w.files.setFile f { w.files.file f with ref := 0, type := .FD_NONE }) false []
        refs ⟨w.files.setFile f { w.files.file f with ref := 0, type := .FD_NONE }, w.trace⟩ :=
      ⟨rfl, here.disciplined, here.inside, here.locks, here.refs⟩
    have unrelated : (∀ ip, ¬ (w.files.file f).Refers ip) → Owes p s₀
        (w.files.setFile f { w.files.file f with ref := 0, type := .FD_NONE }) refs := by
      intro none
      refine owes.setFile fun ip => ⟨?_, fun there => absurd there (none ip)⟩
      rintro ⟨used, _⟩
      cases used
    cases type : (w.files.file f).type with
    | FD_PIPE =>
      have owes₁ := unrelated (by simp [File.Refers, type])
      have closed : ∀ s', s'.file = _ → s'.cwd = _ → Settles p s₀ ⟨s', w.trace⟩ :=
        fun s' file cwd => Owes.settles (owes₁.congr file cwd)
          ⟨rfl, here.disciplined, here.inside, here.locks, here.refs⟩
      simp only [type]
      refine sat_file_ok rfl ?_
      split
      · exact sat_file_last rfl (closed _ rfl rfl)
      · exact closed _ rfl rfl
    | FD_INODE =>
      simp only [type]
      exact ends _ gone ⟨by omega, .inl type, rfl⟩
    | FD_DEVICE =>
      simp only [type]
      exact ends _ gone ⟨by omega, .inr type, rfl⟩
    | FD_NONE =>
      simp only [type]
      exact (unrelated (by simp [File.Refers, type])).settles gone

theorem sysClose_settles (n : Int) (here : At s false [] (fun _ => 0) w) :
    Sat (calls p) (sysClose n) w (fun _ => Settles p s) anyStop := by
  refine Files.sat_argfd here.settles fun fd f points => ?_
  refine sat_file_ok rfl ?_
  have files := here.files
  subst files
  refine Sat.seq (Q := fun _ => Settles p w.files) ?_ fun _ _ settled => settled
  have owes : Owes p w.files (w.files.setOfile p fd none) (fun _ => 0) :=
    ⟨fun ip => (Int.sub_self _).symm⟩
  exact fileclose_settles owes ⟨rfl, here.disciplined, here.inside, here.locks, here.refs⟩

theorem sysOpenFail_settles (owes : Owes p s₀ s refs)
    (here : At s true [ip] (bump refs ip 1) w) :
    Sat (calls p) (sysOpenFail ip) w (fun _ => Settles p s₀) anyStop := by
  refine sat_iunlockput_head here fun w₁ here₁ => ?_
  exact sat_endOp here₁ fun _ here₂ => owes.settles here₂

theorem sat_fileclose_blank {β : Type} {Q : β → World → Prop} {next : Unit → Call β}
    (blank : w.files.Blank f) (rest : Sat (calls p) (next ())
      ⟨w.files.setFile f { w.files.file f with ref := 0, type := .FD_NONE }, w.trace⟩ Q anyStop) :
    Sat (calls p) (fileclose f >>= next) w Q anyStop := by
  apply Sat.bind
  refine sat_dropFile (fun more => ?_) fun _ => ?_
  · have one := blank.1
    omega
  · simp only [blank.2]
    exact rest

theorem openedFile_refers (used : 0 < g.ref) (ip : Ino) (d : Inode) (omode : BitVec 32) :
    (openedFile g ip d omode).Refers ip := by
  unfold openedFile
  split
  · exact ⟨used, .inr rfl, rfl⟩
  · exact ⟨used, .inl rfl, rfl⟩

theorem Files.Blank.notRefers (blank : s.Blank f) (j : Ino) : ¬ (s.file f).Refers j := by
  rintro ⟨_, type, _⟩
  rw [blank.2] at type
  cases type with
  | inl inode => cases inode
  | inr device => cases device

theorem openedInode_settles (owes : Owes p s₀ s refs) (truncates : Prop)
    [Decidable truncates] {result : Int} (here : At s true [ip] refs w) :
    Sat (calls p) (do
      (if truncates then Call.ino (.itrunc ip) else pure () : Call Unit)
      Call.ino (.iunlock ip)
      Call.ino .endOp
      return result) w (fun _ => Settles p s₀) anyStop := by
  refine Sat.seq (Q := fun _ => At s true [ip] refs) ?_ fun _ w₁ here₁ => ?_
  · split
    · refine sat_ino_last fun _ _ => ?_
      exact ⟨here.files, ⟨here.inside, here.disciplined⟩, here.inside, here.locks, here.refs⟩
    · exact here
  · refine sat_iunlock here₁ fun w₂ here₂ => ?_
    rw [List.erase_cons_head] at here₂
    exact sat_endOp here₂ fun _ here₃ => owes.settles here₃

/-- `sys_open` once it has the inode: the reference goes to the file structure, or
is given back. -/
theorem openFile_settles (closed : ∀ f, (s.file f).ref = 0 → (s.file f).type = .FD_NONE)
    (omode : BitVec 32) (here : At s true [ip] (bump (fun _ => 0) ip 1) w) :
    Sat (calls p) (openFile ip omode) w (fun _ => Settles p s) anyStop := by
  have owes : Owes p s s (fun _ => 0) := ⟨fun ip => (Int.sub_self _).symm⟩
  refine sat_silent here (fun _ => rfl) fun d w₁ here₁ => ?_
  split
  · exact sysOpenFail_settles owes here₁
  · have files := here₁.files
    subst files
    refine Files.sat_filealloc (sysOpenFail_settles owes here₁) fun f s₁ found => ?_
    obtain ⟨unused, rfl⟩ := Files.filealloc_some found
    have blank : (w₁.files.setFile f { w₁.files.file f with ref := 1 }).Blank f := by
      unfold Files.Blank
      rw [Files.file_setFile, if_pos rfl]
      exact ⟨rfl, closed f unused⟩
    have owes₁ : Owes p w₁.files (w₁.files.setFile f { w₁.files.file f with ref := 1 })
        (fun _ => 0) := by
      refine owes.setFile fun j => ⟨?_, ?_⟩
      · intro there
        have none := blank.notRefers j
        rw [Files.file_setFile, if_pos rfl] at none
        exact absurd there none
      · rintro ⟨used, _⟩
        omega
    generalize w₁.files.setFile f { w₁.files.file f with ref := 1 } = s₁ at blank owes₁ ⊢
    refine Files.sat_fdalloc ?_ fun fd _ => ?_
    · refine sat_fileclose_blank blank ?_
      have owes₂ := owes₁.setFile (f := f) (g := { s₁.file f with ref := 0, type := .FD_NONE })
        fun j => ⟨by simp [File.Refers], fun there => absurd there (blank.notRefers j)⟩
      exact sysOpenFail_settles owes₂
        ⟨rfl, here₁.disciplined, here₁.inside, here₁.locks, here₁.refs⟩
    · refine sat_file_ok rfl ?_
      refine sat_file_ok rfl ?_
      have used : 0 < ((s₁.setOfile p fd (some f)).file f).ref := by
        have one : ((s₁.setOfile p fd (some f)).file f).ref = 1 := blank.1
        omega
      have moved : Owes p _ (s₁.setOfile p fd (some f)) _ := owes₁.congr rfl rfl
      have owes₂ := moved.opened (f := f) blank.notRefers (openedFile_refers used ip d omode)
      exact openedInode_settles owes₂ _
        ⟨rfl, here₁.disciplined, here₁.inside, here₁.locks, here₁.refs⟩

theorem sysOpen_settles (closed : ∀ f, (s.file f).ref = 0 → (s.file f).type = .FD_NONE)
    (path : Option Path) (omode : BitVec 32) (here : At s false [] (fun _ => 0) w) :
    Sat (calls p) (sysOpen path omode) w (fun _ => Settles p s) anyStop := by
  cases path with
  | none => exact here.settles
  | some path =>
    refine sat_beginOp here fun w₁ here₁ => ?_
    refine (openInode_took path omode here₁).seq fun found w₂ took => ?_
    cases found with
    | none => exact sat_endOp took fun _ here₃ => here₃.settles
    | some ip => exact openFile_settles closed omode took

end Files

def SysCall.UsesInodes : SysCall → Prop
  | open_ _ _ | close _ | link _ _ | unlink _ | mkdir _ | mknod _ _ _ | chdir _ | exec _ _ => True
  | dup _ | pipe _ | fork _ | exit => False

/-- What a call of `p` did, from the files `s` to the files `s'`. -/
structure CallBalanced (p : Slot) (s : Files) (trace : List FsEvent) (s' : Files) : Prop where
  ops : trace.count .beginOp = trace.count .endOp
  disciplined : Disciplined trace
  unlocked : held trace = []
  /-- The references taken and not dropped are those the current directory and the open
  files have gained. -/
  refs : ∀ ip, (trace.count (.ref ip) : Int) - trace.count (.put ip) =
    (s'.inodeRefs p ip : Int) - s.inodeRefs p ip

theorem net_eq_count (trace : List FsEvent) (ip : Ino) :
    net trace ip = (trace.count (.ref ip) : Int) - trace.count (.put ip) := by
  induction trace with
  | nil => rfl
  | cons event past ih =>
    cases event with
    | ref jp =>
      simp only [net, bump_apply, ih, List.count_cons, beq_iff_eq, FsEvent.ref.injEq,
        reduceCtorEq, if_false, @eq_comm _ ip]
      split
      · omega
      · simp
    | put jp =>
      simp only [net, bump_apply, ih, List.count_cons, beq_iff_eq, FsEvent.put.injEq,
        reduceCtorEq, if_false, @eq_comm _ ip]
      split
      · omega
      · simp
    | beginOp | endOp | lock jp | unlock jp | logWrite => simpa [net, List.count_cons] using ih

theorem Settles.balanced {p : Slot} {s s' : Files}
    (settled : Settles p s ⟨s', trace⟩) : CallBalanced p s trace s' := by
  obtain ⟨refs, here, owes⟩ := settled
  have counted := here.disciplined.count
  rw [here.inside] at counted
  refine ⟨counted, here.disciplined, here.locks, ?_⟩
  intro ip
  rw [← net_eq_count, here.refs]
  exact owes ip

theorem prog_settles {p : Slot} {s : Files} {c : SysCall} (uses : c.UsesInodes)
    (closed : ∀ f, (s.file f).ref = 0 → (s.file f).type = .FD_NONE) :
    Sat (calls p) c.prog ⟨s, []⟩ (fun _ => Settles p s) anyStop := by
  have here : At s false [] (fun _ => 0) ⟨s, []⟩ := ⟨rfl, trivial, rfl, rfl, rfl⟩
  cases c with
  | open_ path omode => exact sysOpen_settles closed path omode here
  | close fd => exact sysClose_settles fd here
  | link old new => exact (sysLink_at old new here).mono (fun _ _ => At.settles) fun _ h => h
  | unlink path => exact (sysUnlink_at path here).mono (fun _ _ => At.settles) fun _ h => h
  | mkdir path | mknod path major minor =>
    exact (makeInode_at path _ _ _ here).mono (fun _ _ => At.settles) fun _ h => h
  | chdir path => exact sysChdir_settles path here
  | exec path argv => exact (exec_at path argv here).mono (fun _ _ => At.settles) fun _ h => h
  | dup fd | pipe fdarray | fork np | exit => exact uses.elim

/-- Every system call that uses inodes is balanced on every path on which it returns. -/
theorem calls_balanced {p : Slot} {s s' : Files} {c : SysCall} {trace : List FsEvent}
    (reached : Files.Reachable s) (uses : c.UsesInodes) (called : Called s p c trace s') :
    CallBalanced p s trace s' := by
  obtain ⟨r, ran⟩ := called.returns
  have settled := (prog_settles uses reached.between.refs.closed).runs ran
  exact settled.balanced

theorem runs_ino {p : Slot} {β : Type} {next : o.Res → Call β} {a : β} {w w' : World}
    (r : o.Res) (ready : o.Ready w)
    (rest : Runs (calls p) (next r) (w.note (o.events r)) a w') :
    Runs (calls p) (.op (.ino o) next) w a w' := by
  have answers : (calls p).step w (.ino o) r (w.note (o.events r)) := ⟨ready, rfl⟩
  exact Runs.op answers rest

/-- The first process changes to the root directory. -/
theorem calls_balanced_chdir : ∃ trace s', .put ROOTINO ∈ trace ∧
    Called (Files.start 0 [7]) 0 (.chdir (some [47])) trace s' ∧
    CallBalanced 0 (Files.start 0 [7]) trace s' := by
  have called : Called (Files.start 0 [7]) 0 (.chdir (some [47]))
      [.endOp, .put ROOTINO, .unlock ROOTINO, .lock ROOTINO, .ref ROOTINO, .beginOp]
      ((Files.start 0 [7]).setCwd 0 (some ROOTINO)) := by
    refine ⟨by decide, trivial, 0, ?_⟩
    refine runs_ino () trivial ?_
    refine runs_ino () trivial ?_
    refine runs_ino () List.not_mem_nil ?_
    refine runs_ino (⟨.T_DIR, 0, 0, 1, 0⟩ : Inode) trivial ?_
    refine runs_ino () List.mem_cons_self ?_
    refine Files.runs_file rfl ?_
    refine runs_ino () trivial ?_
    refine runs_ino () trivial ?_
    refine Files.runs_file rfl ?_
    exact Runs.ret _ _
  refine ⟨_, _, ?_, called, ?_⟩
  · simp
  · exact calls_balanced (c := .chdir (some [47])) (.start 0 [7] (by decide)) trivial called

end OsbKernel
