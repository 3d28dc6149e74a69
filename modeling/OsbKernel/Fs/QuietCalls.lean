import OsbKernel.Fs.FileRefs

/-!
# Code that does not touch open files

Path lookup, the calls that change links, and `exec` use inodes, memory and the
current directory of the process, and leave open files and pipes as they are.
-/

namespace OsbKernel

open OpProgram

/-- The code uses inodes and memory, and of files only the current directory. -/
def Quiet {α : Type} : Call α → Prop
  | .ret _ => True
  | .stop e => Files.NoFilePanic e
  | .op (.ino _) next => ∀ r, Quiet (next r)
  | .op (.mem _) next => ∀ r, Quiet (next r)
  | .op (.file .cwd) next => ∀ r, Quiet (next r)
  | .op (.file (.setCwd _)) next => ∀ r, Quiet (next r)
  | .op (.file _) _ => False

namespace Quiet

variable {α β : Type}

theorem bind {c : Call α} {f : α → Call β} (first : Quiet c) (second : ∀ a, Quiet (f a)) :
    Quiet (c >>= f) := by
  induction c with
  | ret a => exact second a
  | stop e => exact first
  | op o next ih =>
    cases o with
    | ino o | mem o => exact fun r => ih r (first r)
    | file o =>
      cases o with
      | cwd | setCwd ip => exact fun r => ih r (first r)
      | _ => exact first.elim

theorem ino (o : InodeOp) : Quiet (Call.ino o) := fun _ => trivial

theorem mem (o : MemOp) : Quiet (Call.mem o) := fun _ => trivial

theorem pure (a : α) : Quiet (Pure.pure a : Call α) := trivial

theorem kpanic {message : String} (other : message ≠ "filedup" ∧ message ≠ "fileclose") :
    Quiet (Call.kpanic message : Call α) := by
  constructor
  · rintro ⟨⟩
    exact other.1 rfl
  · rintro ⟨⟩
    exact other.2 rfl

theorem ite {c : Prop} [Decidable c] {x y : Call α} (yes : Quiet x) (no : Quiet y) :
    Quiet (if c then x else y) := by
  split
  · exact yes
  · exact no

theorem sat {c : Call α} (quiet : Quiet c) (p : Slot) (w : World) :
    Sat (calls p) c w (fun _ w' => Files.SameFiles w.files w'.files) Files.NoFilePanic := by
  induction c generalizing w with
  | ret a => exact Files.SameFiles.refl _
  | stop e => exact quiet
  | op o next ih =>
    cases o with
    | ino o =>
      refine ⟨by rintro e ⟨⟩, ?_⟩
      rintro r w' ⟨_, rfl⟩
      exact ih r (quiet r) _
    | mem o =>
      refine ⟨by rintro e ⟨⟩, ?_⟩
      rintro r w' rfl
      exact ih r (quiet r) _
    | file o =>
      cases o with
      | cwd =>
        constructor
        · intro e stopped
          have ends : Files.exec p .cwd w.files = .error e := stopped
          simp only [Files.exec] at ends
          split at ends
          · cases ends
            exact ⟨by simp, by simp⟩
          · cases ends
        · rintro r ⟨s, trace⟩ ⟨executed, rfl⟩
          have returns : Files.exec p .cwd w.files = .ok (r, s) := executed
          simp only [Files.exec] at returns
          split at returns
          · cases returns
          · cases returns
            exact ih _ (quiet _) _
      | setCwd ip =>
        refine ⟨by rintro e ⟨⟩, ?_⟩
        rintro r ⟨s, trace⟩ ⟨executed, rfl⟩
        cases executed
        refine (ih () (quiet ()) _).mono (fun _ w' kept => ?_) fun _ error => error
        refine Files.SameFiles.trans ?_ kept
        exact ⟨⟨rfl, rfl, rfl⟩, rfl, rfl, rfl, rfl⟩
      | _ => exact quiet.elim

theorem iunlockput (ip : Ino) : Quiet (iunlockput ip) :=
  bind (ino _) fun _ => ino _

theorem dirlookupLoop (dp : Ino) (name : Name) (n slot : Nat) :
    Quiet (dirlookupLoop dp name n slot) := by
  induction n generalizing slot with
  | zero => exact pure _
  | succ n ih =>
    refine bind (ino _) fun de => ?_
    cases de with
    | none => exact kpanic (by simp)
    | some de =>
      simp only
      split
      · exact ih _
      · split
        · exact bind (ino _) fun _ => pure _
        · exact ih _

theorem dirlookup (dp : Ino) (name : Name) : Quiet (dirlookup dp name) := by
  refine bind (ino _) fun d => ?_
  split
  · exact kpanic (by simp)
  · exact dirlookupLoop _ _ _ _

theorem emptyDirent (dp : Ino) (n slot : Nat) : Quiet (emptyDirent dp n slot) := by
  induction n generalizing slot with
  | zero => exact pure _
  | succ n ih =>
    refine bind (ino _) fun de => ?_
    cases de with
    | none => exact kpanic (by simp)
    | some de =>
      simp only
      split
      · exact pure _
      · exact ih _

theorem dirlink (dp : Ino) (name : Name) (inum : Ino) : Quiet (dirlink dp name inum) := by
  refine bind (dirlookup dp name) fun found => ?_
  cases found with
  | some found => exact bind (ino _) fun _ => pure _
  | none =>
    refine bind (ino _) fun d => ?_
    refine bind (emptyDirent _ _ _) fun slot => ?_
    refine bind (ino _) fun written => ?_
    cases written with
    | false => exact kpanic (by simp)
    | true => exact pure _

theorem namexLoop (parent : Bool) (names : List Name) (ip : Ino) :
    Quiet (namexLoop parent names ip) := by
  induction names generalizing ip with
  | nil =>
    unfold OsbKernel.namexLoop
    split
    · exact bind (ino _) fun _ => pure _
    · exact pure _
  | cons name rest ih =>
    refine bind (ino _) fun _ => ?_
    refine bind (ino _) fun d => ?_
    split
    · exact bind (iunlockput _) fun _ => pure _
    · split
      · exact bind (ino _) fun _ => pure _
      · refine bind (dirlookup _ _) fun found => ?_
        cases found with
        | none => exact bind (iunlockput _) fun _ => pure _
        | some found => exact bind (iunlockput _) fun _ => ih _

theorem namex (path : Path) (parent : Bool) : Quiet (namex path parent) := by
  refine bind ?_ fun ip => namexLoop _ _ _
  unfold namexStart
  split
  · exact bind (ino _) fun _ => pure _
  · exact bind (c := Call.file .cwd) (fun _ => trivial) fun _ => bind (ino _) fun _ => pure _

theorem namei (path : Path) : Quiet (namei path) :=
  bind (namex path false) fun _ => pure _

theorem addLinks (ip : Ino) (n : Int) : Quiet (addLinks ip n) :=
  bind (ino _) fun _ => bind (ino _) fun _ => ino _

theorem sysLinkBad (ip : Ino) : Quiet (sysLinkBad ip) :=
  bind (ino _) fun _ => bind (addLinks _ _) fun _ => bind (iunlockput _) fun _ =>
    bind (ino _) fun _ => pure _

theorem sysLink (old new : Option Path) : Quiet (sysLink old new) := by
  unfold OsbKernel.sysLink
  split
  · refine bind (ino _) fun _ => ?_
    refine bind (namei _) fun found => ?_
    cases found with
    | none => exact bind (ino _) fun _ => pure _
    | some ip =>
      refine bind (ino _) fun _ => ?_
      refine bind (ino _) fun d => ?_
      split
      · exact bind (iunlockput _) fun _ => bind (ino _) fun _ => pure _
      · refine bind (addLinks _ _) fun _ => ?_
        refine bind (ino _) fun _ => ?_
        refine bind (namex _ true) fun parent => ?_
        cases parent with
        | none => exact sysLinkBad _
        | some parent =>
          refine bind (ino _) fun _ => ?_
          refine bind (dirlink _ _ _) fun linked => ?_
          refine bind (iunlockput _) fun _ => ?_
          split
          · exact bind (ino _) fun _ => bind (ino _) fun _ => pure _
          · exact sysLinkBad _
  · exact pure _

theorem isdiremptyLoop (dp : Ino) (n slot : Nat) : Quiet (isdiremptyLoop dp n slot) := by
  induction n generalizing slot with
  | zero => exact pure _
  | succ n ih =>
    refine bind (ino _) fun de => ?_
    cases de with
    | none => exact kpanic (by simp)
    | some de =>
      simp only
      split
      · exact pure _
      · exact ih _

theorem sysUnlinkBad (dp : Ino) : Quiet (sysUnlinkBad dp) :=
  bind (iunlockput _) fun _ => bind (ino _) fun _ => pure _

theorem unlinkEntry (dp ip : Ino) (slot : Nat) (type : InodeType) :
    Quiet (unlinkEntry dp ip slot type) := by
  refine bind (ino _) fun written => ?_
  cases written with
  | false => exact kpanic (by simp)
  | true =>
    refine bind ?_ fun _ => ?_
    · split
      · exact addLinks _ _
      · exact pure _
    · exact bind (iunlockput _) fun _ => bind (addLinks _ _) fun _ =>
        bind (iunlockput _) fun _ => bind (ino _) fun _ => pure _

theorem sysUnlink (path : Option Path) : Quiet (sysUnlink path) := by
  cases path with
  | none => exact pure _
  | some path =>
    refine bind (ino _) fun _ => ?_
    refine bind (namex _ true) fun parent => ?_
    cases parent with
    | none => exact bind (ino _) fun _ => pure _
    | some parent =>
      refine bind (ino _) fun _ => ?_
      split
      · exact sysUnlinkBad _
      · refine bind (dirlookup _ _) fun found => ?_
        cases found with
        | none => exact sysUnlinkBad _
        | some found =>
          refine bind (ino _) fun _ => ?_
          refine bind (ino _) fun d => ?_
          split
          · exact kpanic (by simp)
          · split
            · refine bind (bind (ino _) fun _ => isdiremptyLoop _ _ _) fun empty => ?_
              split
              · exact unlinkEntry _ _ _ _
              · exact bind (iunlockput _) fun _ => sysUnlinkBad _
            · exact unlinkEntry _ _ _ _

theorem createDots (dp ip : Ino) : Quiet (createDots dp ip) := by
  refine bind (addLinks _ _) fun _ => ?_
  refine bind (dirlink _ _ _) fun self => ?_
  refine bind ?_ fun parent => ?_
  · split
    · exact dirlink _ _ _
    · exact pure _
  · split
    · exact pure _
    · exact kpanic (by simp)

theorem createNew (dp : Ino) (name : Name) (type : InodeType) (major minor : Int) :
    Quiet (createNew dp name type major minor) := by
  refine bind (ino _) fun ip => ?_
  refine bind (ino _) fun _ => ?_
  refine bind (ino _) fun d => ?_
  refine bind (ino _) fun _ => ?_
  refine bind (ino _) fun _ => ?_
  refine bind ?_ fun _ => ?_
  · split
    · exact createDots _ _
    · exact pure _
  · refine bind (dirlink _ _ _) fun linked => ?_
    split
    · exact bind (iunlockput _) fun _ => pure _
    · exact kpanic (by simp)

theorem create (path : Path) (type : InodeType) (major minor : Int) :
    Quiet (create path type major minor) := by
  refine bind (namex _ true) fun parent => ?_
  cases parent with
  | none => exact pure _
  | some parent =>
    refine bind (ino _) fun _ => ?_
    refine bind (dirlookup _ _) fun found => ?_
    cases found with
    | some found =>
      refine bind (iunlockput _) fun _ => ?_
      refine bind (ino _) fun _ => ?_
      refine bind (ino _) fun d => ?_
      split
      · exact pure _
      · exact bind (iunlockput _) fun _ => pure _
    | none => exact bind (createNew _ _ _ _ _) fun _ => pure _

theorem openInode (path : Path) (omode : BitVec 32) : Quiet (openInode path omode) := by
  unfold OsbKernel.openInode
  split
  · exact create _ _ _ _
  · refine bind (namei _) fun found => ?_
    cases found with
    | none => exact pure _
    | some ip =>
      refine bind (ino _) fun _ => ?_
      refine bind (ino _) fun d => ?_
      split
      · exact bind (iunlockput _) fun _ => pure _
      · exact pure _

theorem makeInode (path : Option Path) (type : InodeType) (major minor : Int) :
    Quiet (makeInode path type major minor) := by
  refine bind (ino _) fun _ => ?_
  refine bind ?_ fun made => ?_
  · cases path with
    | none => exact pure _
    | some path => exact create _ _ _ _
  · cases made with
    | none => exact bind (ino _) fun _ => pure _
    | some ip => exact bind (iunlockput _) fun _ => bind (ino _) fun _ => pure _

theorem sysChdir (path : Option Path) : Quiet (sysChdir path) := by
  refine bind (ino _) fun _ => ?_
  refine bind ?_ fun found => ?_
  · cases path with
    | none => exact pure _
    | some path => exact namei _
  · cases found with
    | none => exact bind (ino _) fun _ => pure _
    | some ip =>
      refine bind (ino _) fun _ => ?_
      refine bind (ino _) fun d => ?_
      split
      · exact bind (iunlockput _) fun _ => bind (ino _) fun _ => pure _
      · refine bind (ino _) fun _ => ?_
        refine bind (c := Call.file .cwd) (fun _ => trivial) fun _ => ?_
        refine bind (ino _) fun _ => ?_
        refine bind (ino _) fun _ => ?_
        exact bind (c := Call.file (.setCwd (some ip))) (fun _ => trivial) fun _ => pure _

theorem loadsegLoop (va : Nat) (ip : Ino) (offset sz n i : Nat) :
    Quiet (loadsegLoop va ip offset sz n i) := by
  induction n generalizing i with
  | zero => exact pure _
  | succ n ih =>
    refine bind (mem _) fun mapped => ?_
    split
    · refine bind (ino _) fun read => ?_
      split
      · exact ih _
      · exact pure _
    · exact kpanic (by simp)

theorem execSegment (ip : Ino) (ph : Proghdr) (sz : Nat) : Quiet (execSegment ip ph sz) := by
  unfold OsbKernel.execSegment
  split
  · exact pure _
  · split
    · exact pure _
    · split
      · exact pure _
      · refine bind (mem _) fun grown => ?_
        split
        · split
          · exact pure _
          · refine bind (loadsegLoop _ _ _ _ _ _) fun loaded => ?_
            split
            · exact pure _
            · exact pure _
        · exact pure _

theorem execSegments (ip : Ino) (n off sz : Nat) : Quiet (execSegments ip n off sz) := by
  induction n generalizing off sz with
  | zero => exact pure _
  | succ n ih =>
    refine bind (ino _) fun ph => ?_
    cases ph with
    | none => exact pure _
    | some ph =>
      refine bind (execSegment _ _ _) fun grown => ?_
      cases grown with
      | none => exact pure _
      | some sz => exact ih _ _

theorem execImage (ip : Ino) : Quiet (execImage ip) := by
  refine bind (ino _) fun elf => ?_
  cases elf with
  | none => exact pure _
  | some elf =>
    simp only
    split
    · exact pure _
    · refine bind (mem _) fun made => ?_
      split
      · exact execSegments _ _ _ _
      · exact pure _

theorem pushArgs (stackbase : Nat) (argv : List (List UInt8)) (sp argc : Nat) :
    Quiet (pushArgs stackbase argv sp argc) := by
  induction argv generalizing sp argc with
  | nil => exact pure _
  | cons arg rest ih =>
    unfold OsbKernel.pushArgs
    split
    · exact pure _
    · simp only
      split
      · exact pure _
      · refine bind (mem _) fun copied => ?_
        split
        · exact ih _ _
        · exact pure _

theorem pushArgv (stackbase sp argc : Nat) : Quiet (pushArgv stackbase sp argc) := by
  unfold OsbKernel.pushArgv
  exact ite (pure _) (bind (mem _) fun _ => ite (pure _) (pure _))

theorem execStack (argv : List (List UInt8)) (sz : Nat) : Quiet (execStack argv sz) := by
  unfold OsbKernel.execStack
  refine bind (mem _) fun grown => ?_
  split
  · refine bind (pushArgs _ _ _ _) fun pushed => ?_
    cases pushed with
    | none => exact pure _
    | some pushed => exact pushArgv _ _ _
  · exact pure _

theorem exec (path : Path) (argv : List (List UInt8)) : Quiet (exec path argv) := by
  refine bind (ino _) fun _ => ?_
  refine bind (namei _) fun found => ?_
  cases found with
  | none => exact bind (ino _) fun _ => pure _
  | some ip =>
    refine bind (ino _) fun _ => ?_
    refine bind (execImage _) fun image => ?_
    refine bind (iunlockput _) fun _ => ?_
    refine bind (ino _) fun _ => ?_
    cases image with
    | none => exact pure _
    | some sz => exact execStack _ _

end Quiet

end OsbKernel
