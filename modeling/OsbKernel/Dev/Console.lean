import OsbKernel.Lib.Ring
import OsbKernel.Lib.Runs
import OsbKernel.Types

/-!
# The console line discipline

`consoleintr` and `consoleread` of `console.c`. The interrupt handler holds `cons.lock`
throughout; a reader holds it from `acquire` to its next `sleep` or its return, one step per round
of its loop. A sleeping reader may go on whenever the lock is free.

`Line` says what the three indices are for: committed characters, and the line being edited. What
readers take is recorded by call.
-/

namespace OsbKernel.Console

open Function FreeRing FreeRuns

abbrev INPUT_BUF : Nat := 128

/-- `C(x)`: the control character of a letter. -/
def ctrl (letter : UInt8) : UInt8 := letter - 64

/-- `C('P')`, which prints the process list. -/
def ctrlP : UInt8 := ctrl 80

def ctrlU : UInt8 := ctrl 85

def ctrlH : UInt8 := ctrl 72

def ctrlD : UInt8 := ctrl 68

def newline : UInt8 := 10

def carriageReturn : UInt8 := 13

def delete : UInt8 := 127

structure Cons where
  buf : Nat → UInt8
  r : BitVec 32
  w : BitVec 32
  e : BitVec 32

namespace Cons

/-- The loop of the kill-line character, with a bound on its rounds. -/
def killLine : Nat → Cons → Cons
  | 0, s => s
  | rounds + 1, s =>
    if s.e ≠ s.w ∧ s.buf ((s.e - 1).toNat % INPUT_BUF) ≠ newline then
      killLine rounds { s with e := s.e - 1 }
    else s

/-- A character is stored, and everything is committed at the end of a line. -/
def append (s : Cons) (c : UInt8) : Cons :=
  let s := { s with buf := update s.buf (s.e.toNat % INPUT_BUF) c, e := s.e + 1 }
  if c = newline ∨ c = ctrlD ∨ s.e = s.r + BitVec.ofNat 32 INPUT_BUF then { s with w := s.e } else s

def consoleintr (s : Cons) (c : UInt8) : Cons :=
  if c = ctrlP then s
  -- the loop makes at most as many rounds as there are characters to edit
  else if c = ctrlU then s.killLine (s.e - s.w).toNat
  else if c = ctrlH ∨ c = delete then
    if s.e ≠ s.w then { s with e := s.e - 1 } else s
  else if c ≠ 0 ∧ s.e - s.r < BitVec.ofNat 32 INPUT_BUF then
    s.append (if c = carriageReturn then newline else c)
  else s

end Cons

/-- The characters committed so far, and the line that is being edited. -/
structure Line where
  committed : List UInt8
  line : List UInt8

/-- What a character does, when readers have taken `taken` of the committed ones. -/
def Line.input (l : Line) (taken : Nat) (c : UInt8) : Line :=
  if c = ctrlP then l
  else if c = ctrlU then { l with line := [] }
  else if c = ctrlH ∨ c = delete then { l with line := l.line.dropLast }
  else if c ≠ 0 ∧ l.committed.length + l.line.length < taken + INPUT_BUF then
    let c := if c = carriageReturn then newline else c
    let line := l.line ++ [c]
    if c = newline ∨ c = ctrlD ∨ l.committed.length + line.length = taken + INPUT_BUF then
      ⟨l.committed ++ line, []⟩
    else { l with line }
  else l

/-- The indices and the buffer represent a line of which `taken` characters are consumed. -/
structure Represents (s : Cons) (l : Line) (taken : Nat) : Prop where
  r : s.r = BitVec.ofNat 32 taken
  w : s.w = BitVec.ofNat 32 l.committed.length
  e : s.e = BitVec.ofNat 32 (l.committed ++ l.line).length
  behind : taken ≤ l.committed.length
  window : Window INPUT_BUF s.buf (l.committed ++ l.line) taken
  open_ : newline ∉ l.line

namespace Represents

variable {s : Cons} {l : Line} {taken : Nat}

theorem inputBuf_dvd : INPUT_BUF ∣ 2 ^ 32 := ⟨2 ^ 25, by decide⟩

variable {c : UInt8} {line : List UInt8}

section Facts

variable (rep : Represents s l taken)

include rep

theorem near : taken ≤ l.committed.length + l.line.length ∧
      l.committed.length + l.line.length ≤ taken + INPUT_BUF := by
  have fits := rep.window.fits
  have behind := rep.behind
  rw [List.length_append] at fits
  exact ⟨by omega, fits⟩

theorem editing_iff : s.e ≠ s.w ↔ l.line ≠ [] := by
  have near := rep.near
  have size : INPUT_BUF < 2 ^ 32 := by decide
  have behind := rep.behind
  rw [rep.e, rep.w, List.length_append, ne_eq,
    counter_inj (Nat.le_add_right _ _) (by omega), ← List.length_pos_iff]
  omega

theorem pending : (s.e - s.r).toNat = l.committed.length + l.line.length - taken := by
  have near := rep.near
  have size : INPUT_BUF < 2 ^ 32 := by decide
  rw [rep.e, rep.r, List.length_append]
  exact counter_sub near.1 (by omega)

theorem room_iff :
    s.e - s.r < BitVec.ofNat 32 INPUT_BUF ↔
      l.committed.length + l.line.length < taken + INPUT_BUF := by
  have near := rep.near
  rw [BitVec.lt_def, rep.pending]
  have size : (BitVec.ofNat 32 INPUT_BUF).toNat = INPUT_BUF := by decide
  omega

theorem erase (last : l.line = line ++ [c]) :
    Represents { s with e := s.e - 1 } { l with line } taken := by
  have whole : l.committed ++ l.line = (l.committed ++ line) ++ [c] := by
    rw [last, List.append_assoc]
  refine ⟨rep.r, rep.w, ?_, rep.behind, ?_, ?_⟩
  · simp only [rep.e, whole, List.length_append, List.length_singleton]
    rw [← counter_succ, BitVec.add_sub_cancel]
  · have window := rep.window
    rw [whole] at window
    refine window.shorten ?_
    have behind := rep.behind
    rw [List.length_append]
    omega
  · intro there
    apply rep.open_
    rw [last]
    exact List.mem_append_left _ there

theorem lastChar (last : l.line = line ++ [c]) : s.buf ((s.e - 1).toNat % INPUT_BUF) = c := by
  have whole : l.committed ++ l.line = (l.committed ++ line) ++ [c] := by
    rw [last, List.append_assoc]
  have index : s.e - 1 = BitVec.ofNat 32 (l.committed ++ line).length := by
    rw [rep.e, whole, List.length_append, List.length_singleton, ← counter_succ,
      BitVec.add_sub_cancel]
  have window := rep.window
  rw [whole] at window
  rw [index, counter_mod inputBuf_dvd]
  have behind := rep.behind
  rw [window.holds _ (by rw [List.length_append]; omega) (by simp)]
  simp

theorem edited : (s.e - s.w).toNat = l.line.length := by
  have near := rep.near
  have size : INPUT_BUF < 2 ^ 32 := by decide
  have behind := rep.behind
  rw [rep.e, rep.w, List.length_append, counter_sub (Nat.le_add_right _ _) (by omega)]
  omega

end Facts

theorem killLine (rounds : Nat) (rep : Represents s l taken) (count : rounds = l.line.length) :
    Represents (s.killLine rounds) { l with line := [] } taken := by
  induction rounds generalizing s l with
  | zero =>
    have empty : l.line = [] := List.length_eq_zero_iff.mp count.symm
    rw [← empty]
    exact rep
  | succ rounds ih =>
    rcases List.eq_nil_or_concat l.line with empty | ⟨line, c, last⟩
    · rw [empty] at count
      cases count
    · rw [List.concat_eq_append] at last
      have inside : c ∈ l.line := by simp [last]
      have other : c ≠ newline := by
        rintro rfl
        exact rep.open_ inside
      have goes : s.e ≠ s.w ∧ s.buf ((s.e - 1).toNat % INPUT_BUF) ≠ newline := by
        rw [rep.editing_iff, rep.lastChar last]
        exact ⟨List.ne_nil_of_mem inside, other⟩
      rw [Cons.killLine, if_pos goes]
      refine ih (l := { l with line }) (rep.erase last) ?_
      rw [last, List.length_append] at count
      simpa using count

theorem append (rep : Represents s l taken) (c : UInt8)
    (room : l.committed.length + l.line.length < taken + INPUT_BUF) :
    Represents (s.append c)
      (if c = newline ∨ c = ctrlD ∨
          l.committed.length + (l.line ++ [c]).length = taken + INPUT_BUF then
        ⟨l.committed ++ (l.line ++ [c]), []⟩
      else { l with line := l.line ++ [c] }) taken := by
  have near := rep.near
  have size : INPUT_BUF < 2 ^ 32 := by decide
  have cell : s.e.toNat % INPUT_BUF = (l.committed ++ l.line).length % INPUT_BUF := by
    rw [rep.e, counter_mod inputBuf_dvd]
  have next : s.e + 1 = BitVec.ofNat 32 (l.committed ++ (l.line ++ [c])).length := by
    rw [rep.e, counter_succ, ← List.append_assoc]
    simp only [List.length_append, List.length_singleton]
  have window : Window INPUT_BUF (update s.buf (s.e.toNat % INPUT_BUF) c)
      (l.committed ++ (l.line ++ [c])) taken := by
    rw [cell, ← List.append_assoc]
    exact rep.window.push (by rw [List.length_append]; exact room) c
  have full : s.e + 1 = s.r + BitVec.ofNat 32 INPUT_BUF ↔
      l.committed.length + (l.line ++ [c]).length = taken + INPUT_BUF := by
    have count : (l.committed ++ (l.line ++ [c])).length =
        l.committed.length + (l.line ++ [c]).length := List.length_append
    have longer : (l.line ++ [c]).length = l.line.length + 1 := by simp
    rw [next, rep.r, BitVec.ofNat_add_ofNat, count]
    constructor
    · intro same
      exact ((counter_inj (by omega) (by omega)).mp same.symm).symm
    · intro same
      rw [same]
  simp only [Cons.append, full]
  split
  · refine ⟨rep.r, next, ?_, ?_, ?_, List.not_mem_nil⟩
    · simpa using next
    · simp only [List.length_append]
      omega
    · simpa using window
  · rename_i goesOn
    refine ⟨rep.r, rep.w, next, rep.behind, window, ?_⟩
    intro there
    rcases List.mem_append.mp there with old | new
    · exact rep.open_ old
    · exact goesOn (.inl (List.mem_singleton.mp new).symm)

theorem consoleintr (rep : Represents s l taken) (c : UInt8) :
    Represents (s.consoleintr c) (l.input taken c) taken := by
  unfold Cons.consoleintr Line.input
  split
  · exact rep
  · split
    · exact rep.killLine _ rep.edited
    · split
      · rcases List.eq_nil_or_concat l.line with empty | ⟨line, d, last⟩
        · have none : ¬ s.e ≠ s.w := fun editing => rep.editing_iff.mp editing empty
          rw [if_neg none, empty]
          rw [List.dropLast_nil, ← empty]
          exact rep
        · rw [List.concat_eq_append] at last
          have some : s.e ≠ s.w := rep.editing_iff.mpr (by simp [last])
          rw [if_pos some, last, List.dropLast_concat]
          exact rep.erase last
      · simp only [rep.room_iff]
        split
        · rename_i accepted
          exact rep.append _ accepted.2
        · exact rep

end Represents

/-- What a call of `consoleread` does; the calls are numbered. `lost` is a character whose copy to
the reader fails, and `returned` has the number of bytes asked for and the result. -/
inductive Event where
  | byte (call : Nat) (c : UInt8)
  | lost (call : Nat) (c : UInt8)
  | eof (call : Nat)
  | returned (call : Nat) (n : BitVec 32) (result : Int)
  | killed (call : Nat)
  deriving DecidableEq, Repr

def Event.char : Event → Option UInt8
  | byte _ c => some c
  | lost _ c => some c
  | eof _ => some ctrlD
  | _ => none

def Event.copied (k : Nat) : Event → Option UInt8
  | byte call c => if call = k then some c else none
  | _ => none

def chars (log : List Event) : List UInt8 := log.filterMap Event.char

def bytesOf (k : Nat) (log : List Event) : List UInt8 := log.filterMap (Event.copied k)

/-- Where a reader is: outside, waiting for the lock, or in its loop with the lock. -/
inductive Pc where
  | outside
  | acquire (call : Nat) (target n : BitVec 32)
  | loop (call : Nat) (target n : BitVec 32)
  deriving DecidableEq, Repr

structure State (nproc : Nat) where
  cons : Cons
  lock : Option (Fin nproc)
  pc : Fin nproc → Pc
  calls : Nat
  log : List Event
  lines : Line

variable {nproc : Nat}

def State.leave (s : State nproc) (p : Fin nproc) (cons : Cons) (events : List Event) :
    State nproc :=
  { s with cons, lock := none, pc := update s.pc p .outside, log := s.log ++ events }

/-- `target - n`, as the `int` that is returned. -/
def result (target n : BitVec 32) : Int := (target - n).toInt

/-- One round of the loop of `consoleread`: `killed` is `myproc()->killed`, `copied` whether
`either_copyout` succeeds. -/
def State.read (s : State nproc) (p : Fin nproc) (call : Nat) (target n : BitVec 32)
    (killed copied : Bool) : State nproc :=
  if (0#32).slt n then
    if s.cons.r = s.cons.w then
      if killed then s.leave p s.cons [.killed call]
      -- `sleep(&cons.r, &cons.lock)`
      else { s with lock := none, pc := update s.pc p (.acquire call target n) }
    else
      let c := s.cons.buf (s.cons.r.toNat % INPUT_BUF)
      let cons := { s.cons with r := s.cons.r + 1 }
      if c = ctrlD then
        if n < target then
          -- `cons.r--`: the character is left for the next call
          s.leave p { cons with r := cons.r - 1 } [.returned call target (result target n)]
        else s.leave p cons [.eof call, .returned call target (result target n)]
      else if copied = false then s.leave p cons [.lost call c, .returned call target (result target n)]
      else if c = newline then
        s.leave p cons [.byte call c, .returned call target (result target (n - 1))]
      else
        { s with
          cons
          pc := update s.pc p (.loop call target (n - 1))
          log := s.log ++ [.byte call c] }
  else s.leave p s.cons [.returned call target (result target n)]

inductive Act (nproc : Nat) where
  | consoleintr (c : UInt8)
  | consoleread (p : Fin nproc) (n : BitVec 32)
  | read (p : Fin nproc) (killed copied : Bool)
  deriving DecidableEq, Repr

def step (s : State nproc) : Act nproc → Option (State nproc)
  | .consoleintr c =>
    if s.lock = none then
      some { s with cons := s.cons.consoleintr c, lines := s.lines.input (chars s.log).length c }
    else none
  | .consoleread p n =>
    match s.pc p with
    | .outside => some { s with pc := update s.pc p (.acquire s.calls n n), calls := s.calls + 1 }
    | _ => none
  | .read p killed copied =>
    match s.pc p with
    | .outside => none
    | .acquire call target n =>
      if s.lock = none then
        some { s with lock := some p, pc := update s.pc p (.loop call target n) }
      else none
    | .loop call target n => some (s.read p call target n killed copied)

def initial (buf : Nat → UInt8) : State nproc :=
  ⟨⟨buf, 0, 0, 0⟩, none, fun _ => .outside, 0, [], ⟨[], []⟩⟩

inductive Reachable : State nproc → Prop where
  | initial (buf : Nat → UInt8) : Reachable (initial buf)
  | step {s s' : State nproc} (a : Act nproc) (reached : Reachable s)
      (stepped : step s a = some s') : Reachable s'

theorem Represents.consume {s : Cons} {l : Line} {taken : Nat} (rep : Represents s l taken)
    (some : s.r ≠ s.w) : ∃ inside : taken < l.committed.length,
      s.buf (s.r.toNat % INPUT_BUF) = l.committed[taken] ∧
      Represents { s with r := s.r + 1 } l (taken + 1) := by
  have behind := rep.behind
  have inside : taken < l.committed.length := by
    refine Nat.lt_of_le_of_ne behind fun same => some ?_
    rw [rep.r, rep.w, same]
  have longer : taken < (l.committed ++ l.line).length := by
    rw [List.length_append]
    omega
  refine ⟨inside, ?_, ?_⟩
  · rw [rep.r, counter_mod inputBuf_dvd, rep.window.oldest longer, List.getElem_append_left inside]
  · refine ⟨?_, rep.w, rep.e, inside, rep.window.pop longer, rep.open_⟩
    simp only [rep.r, counter_succ]

theorem prefix_snoc {taken committed : List UInt8} (before : taken <+: committed)
    (inside : taken.length < committed.length) :
    taken ++ [committed[taken.length]] <+: committed := by
  obtain ⟨rest, whole⟩ := before
  cases rest with
  | nil =>
    rw [List.append_nil] at whole
    rw [whole] at inside
    exact absurd inside (Nat.lt_irrefl _)
  | cons first rest =>
    refine ⟨rest, ?_⟩
    have here : committed[taken.length] = first := by simp [← whole]
    rw [here, List.append_assoc]
    exact whole

/-- The buffer represents the lines, and the characters taken are the first committed ones. -/
structure StreamOk (s : State nproc) : Prop where
  rep : Represents s.cons s.lines (chars s.log).length
  order : chars s.log <+: s.lines.committed

theorem StreamOk.idle {s s' : State nproc} (ok : StreamOk s) (cons : s'.cons = s.cons)
    (lines : s'.lines = s.lines) (log : chars s'.log = chars s.log) : StreamOk s' := by
  refine ⟨?_, ?_⟩
  · rw [cons, lines, log]
    exact ok.rep
  · rw [lines, log]
    exact ok.order

theorem StreamOk.consume {s s' : State nproc} (ok : StreamOk s) (some : s.cons.r ≠ s.cons.w)
    (cons : s'.cons = { s.cons with r := s.cons.r + 1 }) (lines : s'.lines = s.lines)
    (log : chars s'.log = chars s.log ++ [s.cons.buf (s.cons.r.toNat % INPUT_BUF)]) :
    StreamOk s' := by
  obtain ⟨inside, char, rep⟩ := ok.rep.consume some
  refine ⟨?_, ?_⟩
  · rw [cons, lines, log, List.length_append]
    exact rep
  · rw [lines, log, char]
    exact prefix_snoc ok.order inside

section Stream

variable {s s' : State nproc} {p : Fin nproc} {a : Act nproc}

theorem StreamOk.read (ok : StreamOk s) (call : Nat) (target n : BitVec 32) (killed copied : Bool) :
    StreamOk (s.read p call target n killed copied) := by
  unfold State.read
  split
  · split
    · split
      · refine ok.idle rfl rfl ?_
        simp [State.leave, chars, Event.char]
      · exact ok.idle rfl rfl rfl
    · rename_i some
      simp only
      split
      · rename_i isEof
        split
        · refine ok.idle ?_ rfl ?_
          · simp only [State.leave]
            rw [BitVec.add_sub_cancel]
          · simp [State.leave, chars, Event.char]
        · refine ok.consume some rfl rfl ?_
          rw [isEof]
          simp [State.leave, chars, Event.char]
      · split
        · refine ok.consume some rfl rfl ?_
          simp [State.leave, chars, Event.char]
        · split
          · refine ok.consume some rfl rfl ?_
            simp [State.leave, chars, Event.char]
          · refine ok.consume some rfl rfl ?_
            simp [chars, Event.char]
  · refine ok.idle rfl rfl ?_
    simp [State.leave, chars, Event.char]

theorem Line.input_committed (l : Line) (taken : Nat) (c : UInt8) :
    l.committed <+: (l.input taken c).committed := by
  unfold Line.input
  split
  · exact List.prefix_rfl
  · split
    · exact List.prefix_rfl
    · split
      · exact List.prefix_rfl
      · split
        · generalize (if c = carriageReturn then newline else c) = stored
          simp only
          split
          · exact List.prefix_append _ _
          · exact List.prefix_rfl
        · exact List.prefix_rfl

theorem StreamOk.step (ok : StreamOk s) (stepped : step s a = some s') : StreamOk s' := by
  cases a with
  | consoleintr c =>
    simp only [Console.step] at stepped
    split at stepped <;> cases stepped
    exact ⟨ok.rep.consoleintr c, ok.order.trans (s.lines.input_committed _ c)⟩
  | consoleread p n =>
    simp only [Console.step] at stepped
    split at stepped <;> cases stepped
    exact ok.idle rfl rfl rfl
  | read p killed copied =>
    simp only [Console.step] at stepped
    split at stepped
    · cases stepped
    · split at stepped <;> cases stepped
      exact ok.idle rfl rfl rfl
    · cases stepped
      exact ok.read _ _ _ _ _

theorem Reachable.streamOk (reached : Reachable s) : StreamOk s := by
  induction reached with
  | initial buf =>
    exact ⟨⟨rfl, rfl, rfl, Nat.le_refl 0, Window.empty buf, List.not_mem_nil⟩, List.prefix_rfl⟩
  | step a _ stepped ih => exact ih.step stepped

end Stream

def Event.call : Event → Nat
  | byte k _ => k
  | lost k _ => k
  | eof k => k
  | returned k _ _ => k
  | killed k => k

structure CallFacts (log : List Event) (k : Nat) : Prop where
  lines : newline ∉ (bytesOf k log).dropLast
  bytes : ctrlD ∉ bytesOf k log
  eofs : .eof k ∈ log → bytesOf k log = [] ∧ log.count (.eof k) = 1 ∧ ∃ n, .returned k n 0 ∈ log
  empty : ∀ n, .returned k n 0 ∈ log → (0#32).slt n → .eof k ∈ log ∨ ∃ c, .lost k c ∈ log
  results : ∀ n (r : Int), .returned k n r ∈ log → r = (bytesOf k log).length

/-- The bytes delivered are those between `target` and `n`. -/
structure Counted (log : List Event) (k : Nat) (target n : BitVec 32) : Prop where
  count : n.toNat + (bytesOf k log).length = target.toNat
  small : bytesOf k log ≠ [] → target.toNat < 2 ^ 31

structure Unfinished (log : List Event) (k : Nat) (target n : BitVec 32) : Prop
    extends Counted log k target n where
  line : newline ∉ bytesOf k log
  bytes : ctrlD ∉ bytesOf k log
  eof : .eof k ∉ log
  result : ∀ n r, .returned k n r ∉ log

theorem Unfinished.facts {log : List Event} {k : Nat} {target n : BitVec 32}
    (open_ : Unfinished log k target n) : CallFacts log k :=
  ⟨fun there => open_.line ((List.dropLast_subset _ there)), open_.bytes,
    fun there => absurd there open_.eof, fun n there => absurd there (open_.result n 0),
    fun n r there => absurd there (open_.result n r)⟩

def Active (s : State nproc) (p : Fin nproc) (k : Nat) (target n : BitVec 32) : Prop :=
  s.pc p = .acquire k target n ∨ s.pc p = .loop k target n

structure CallsOk (s : State nproc) : Prop where
  active : ∀ p k target n, Active s p k target n → k < s.calls ∧ Unfinished s.log k target n
  alone : ∀ p q k target n target' n', Active s p k target n → Active s q k target' n' → p = q
  fresh : ∀ e ∈ s.log, e.call < s.calls
  facts : ∀ k, CallFacts s.log k

section Calls

variable {log events : List Event} {k j : Nat} {target n : BitVec 32}

theorem bytesOf_append : bytesOf k (log ++ events) = bytesOf k log ++ bytesOf k events :=
  List.filterMap_append

theorem bytesOf_other (others : ∀ e ∈ events, e.call ≠ k) : bytesOf k (log ++ events) = bytesOf k log := by
  rw [bytesOf_append]
  have none : bytesOf k events = [] := by
    rw [bytesOf, List.filterMap_eq_nil_iff]
    intro e listed
    have other := others e listed
    cases e with
    | byte call c => exact if_neg other
    | _ => rfl
  rw [none, List.append_nil]

theorem mem_append_other {e : Event} (others : ∀ e ∈ events, e.call ≠ k) (call : e.call = k) :
    e ∈ log ++ events ↔ e ∈ log := by
  rw [List.mem_append, or_iff_left]
  intro there
  exact others e there call

theorem CallFacts.frame (facts : CallFacts log k) (others : ∀ e ∈ events, e.call ≠ k) :
    CallFacts (log ++ events) k := by
  have bytes : bytesOf k (log ++ events) = bytesOf k log := bytesOf_other others
  refine ⟨?_, ?_, ?_, ?_, ?_⟩
  · rw [bytes]
    exact facts.lines
  · rw [bytes]
    exact facts.bytes
  · intro there
    rw [mem_append_other others rfl] at there
    obtain ⟨none, once, n, returned⟩ := facts.eofs there
    rw [bytes, List.count_append, List.count_eq_zero_of_not_mem fun listed => others _ listed rfl]
    exact ⟨none, once, n, List.mem_append_left _ returned⟩
  · intro n there more
    rw [mem_append_other others rfl] at there
    exact (facts.empty n there more).imp (List.mem_append_left _)
      fun ⟨c, lost⟩ => ⟨c, List.mem_append_left _ lost⟩
  · intro n r there
    rw [mem_append_other others rfl] at there
    rw [bytes]
    exact facts.results n r there

theorem Unfinished.frame (open_ : Unfinished log k target n) (others : ∀ e ∈ events, e.call ≠ k) :
    Unfinished (log ++ events) k target n := by
  have bytes : bytesOf k (log ++ events) = bytesOf k log := bytesOf_other others
  refine ⟨⟨?_, ?_⟩, ?_, ?_, ?_, ?_⟩
  · rw [bytes]
    exact open_.count
  · rw [bytes]
    exact open_.small
  · rw [bytes]
    exact open_.line
  · rw [bytes]
    exact open_.bytes
  · rw [mem_append_other others rfl]
    exact open_.eof
  · intro n r
    rw [mem_append_other others rfl]
    exact open_.result n r

end Calls

section CallSteps

variable {s s' : State nproc} {p : Fin nproc} {a : Act nproc} {k : Nat} {target n : BitVec 32}

variable {events log : List Event}

theorem CallsOk.advance {place : Pc} (ok : CallsOk s)
    (active : Active s p k target n) (pc : s'.pc = update s.pc p place) (calls : s'.calls = s.calls)
    (log : s'.log = s.log ++ events) (own : ∀ e ∈ events, e.call = k)
    (facts : CallFacts (s.log ++ events) k)
    (stays : ∀ k' target' n', place = .acquire k' target' n' ∨ place = .loop k' target' n' →
      k' = k ∧ Unfinished (s.log ++ events) k target' n') : CallsOk s' := by
  have here : s'.pc p = place := by rw [pc, update_self]
  have there : ∀ q, q ≠ p → s'.pc q = s.pc q := fun q other => by rw [pc, update_of_ne other]
  have apart : ∀ {q k' target' n'}, q ≠ p → Active s q k' target' n' → k' ≠ k := by
    rintro q k' target' n' other active' rfl
    exact other (ok.alone q p _ _ _ _ _ active' active)
  refine ⟨?_, ?_, ?_, ?_⟩
  · intro q k' target' n' active'
    rw [calls, log]
    by_cases same : q = p
    · subst same
      rw [Active, here] at active'
      obtain ⟨rfl, open_⟩ := stays k' target' n' active'
      exact ⟨(ok.active _ _ _ _ active).1, open_⟩
    · rw [Active, there q same] at active'
      obtain ⟨less, open_⟩ := ok.active q k' target' n' active'
      refine ⟨less, open_.frame fun e listed => ?_⟩
      rw [own e listed]
      exact (apart same active').symm
  · intro q₁ q₂ k' t₁ n₁ t₂ n₂ active₁ active₂
    by_cases same₁ : q₁ = p <;> by_cases same₂ : q₂ = p
    · rw [same₁, same₂]
    · subst same₁
      rw [Active, here] at active₁
      rw [Active, there q₂ same₂] at active₂
      exact absurd (stays k' t₁ n₁ active₁).1 (apart same₂ active₂)
    · subst same₂
      rw [Active, here] at active₂
      rw [Active, there q₁ same₁] at active₁
      exact absurd (stays k' t₂ n₂ active₂).1 (apart same₁ active₁)
    · rw [Active, there q₁ same₁] at active₁
      rw [Active, there q₂ same₂] at active₂
      exact ok.alone _ _ _ _ _ _ _ active₁ active₂
  · intro e listed
    rw [calls]
    rw [log] at listed
    rcases List.mem_append.mp listed with old | new
    · exact ok.fresh e old
    · rw [own e new]
      exact (ok.active _ _ _ _ active).1
  · intro j
    rw [log]
    by_cases same : j = k
    · rw [same]
      exact facts
    · refine (ok.facts j).frame fun e listed => ?_
      rw [own e listed]
      exact Ne.symm same

theorem Counted.result_eq (counted : Counted log k target n) :
    result target n = (bytesOf k log).length := by
  have count := counted.count
  have difference : (target - n).toNat = (bytesOf k log).length := by
    rw [BitVec.toNat_sub]
    omega
  have small : (bytesOf k log).length < 2 ^ 31 := by
    rcases List.eq_nil_or_concat (bytesOf k log) with none | ⟨front, c, some⟩
    · rw [none]
      decide
    · have := counted.small (by simp [some])
      omega
  rw [result, BitVec.toInt_eq_toNat_cond, difference, if_pos (by omega)]

theorem Unfinished.close (open_ : Unfinished s.log k target n)
    (bytes : bytesOf k events = []) (eof : .eof k ∉ events)
    (results : ∀ t r, .returned k t r ∈ events → t = target ∧ r = Console.result target n)
    (empty : n = target → (0#32).slt target → (∀ t, .returned k t 0 ∉ events) ∨
      ∃ c, .lost k c ∈ events) : CallFacts (s.log ++ events) k := by
  have same : bytesOf k (s.log ++ events) = bytesOf k s.log := by
    rw [bytesOf_append, bytes, List.append_nil]
  refine ⟨?_, ?_, ?_, ?_, ?_⟩
  · rw [same]
    exact open_.facts.lines
  · rw [same]
    exact open_.bytes
  · intro there
    rcases List.mem_append.mp there with old | new
    · exact absurd old open_.eof
    · exact absurd new eof
  · intro t there more
    rcases List.mem_append.mp there with old | new
    · exact absurd old (open_.result t 0)
    · obtain ⟨rfl, zero⟩ := results t 0 new
      have all : n = t := by
        have count := open_.count
        rw [open_.toCounted.result_eq] at zero
        exact BitVec.eq_of_toNat_eq (by omega)
      obtain ⟨c, lost⟩ := (empty all more).resolve_left fun absent => absent t new
      exact .inr ⟨c, List.mem_append_right _ lost⟩
  · intro t r there
    rw [same, ← open_.toCounted.result_eq]
    rcases List.mem_append.mp there with old | new
    · exact absurd old (open_.result t r)
    · exact (results t r new).2

theorem Unfinished.endOfFile (open_ : Unfinished s.log k target n) (first : ¬ n < target) :
    CallFacts (s.log ++ [.eof k, .returned k target (Console.result target n)]) k := by
  have none : bytesOf k s.log = [] := by
    have count := open_.count
    rw [BitVec.lt_def] at first
    apply List.eq_nil_of_length_eq_zero
    omega
  have result := open_.toCounted.result_eq
  rw [none] at result
  have same : bytesOf k (s.log ++ [.eof k, .returned k target (Console.result target n)]) = [] := by
    rw [bytesOf_append, none]
    rfl
  refine ⟨?_, ?_, ?_, ?_, ?_⟩
  · rw [same]
    exact List.not_mem_nil
  · rw [same]
    exact List.not_mem_nil
  · intro _
    refine ⟨same, ?_, ?_⟩
    · rw [List.count_append, List.count_eq_zero_of_not_mem open_.eof]
      simp
    · exact ⟨target, by simp [result]⟩
  · intro t there more
    exact .inl (by simp)
  · intro t r there
    rw [same]
    rcases List.mem_append.mp there with old | new
    · exact absurd old (open_.result t r)
    · simp only [List.mem_cons, reduceCtorEq, Event.returned.injEq, List.not_mem_nil, or_false,
        false_or] at new
      rw [new.2.2, result]

theorem bytesOf_snoc :
    bytesOf k (log ++ [.byte k c]) = bytesOf k log ++ [c] := by
  simp [bytesOf, Event.copied]

theorem Counted.byte (counted : Counted log k target n)
    (more : (0#32).slt n = true) : Counted (log ++ [.byte k c]) k target (n - 1) := by
  have count := counted.count
  have positive : 0 < n.toNat ∧ n.toNat < 2 ^ 31 := by
    have zero : (0#32).toInt = 0 := rfl
    rw [BitVec.slt_eq_decide, decide_eq_true_iff, BitVec.toInt_eq_toNat_cond n, zero] at more
    split at more <;> omega
  have less : (n - 1).toNat = n.toNat - 1 := by
    have one : (1 : BitVec 32).toNat = 1 := rfl
    rw [BitVec.toNat_sub, one]
    omega
  refine ⟨?_, ?_⟩
  · rw [bytesOf_snoc, List.length_append, List.length_singleton, less]
    omega
  · intro _
    rcases List.eq_nil_or_concat (bytesOf k log) with none | ⟨front, d, some⟩
    · rw [none] at count
      simp only [List.length_nil] at count
      omega
    · exact counted.small (by simp [some])

theorem Unfinished.byte (open_ : Unfinished s.log k target n) (more : (0#32).slt n = true)
    (plain : c ≠ ctrlD) (inLine : c ≠ newline) :
    Unfinished (s.log ++ [.byte k c]) k target (n - 1) := by
  refine ⟨open_.toCounted.byte more, ?_, ?_, ?_, ?_⟩
  · simp [bytesOf_snoc, open_.line, Ne.symm inLine]
  · simp [bytesOf_snoc, open_.bytes, Ne.symm plain]
  · simp [open_.eof]
  · simp [open_.result]

theorem Unfinished.endOfLine (open_ : Unfinished s.log k target n) (more : (0#32).slt n = true) :
    CallFacts (s.log ++ [.byte k newline, .returned k target (Console.result target (n - 1))]) k := by
  have counted : Counted (s.log ++ [.byte k newline]) k target (n - 1) := open_.toCounted.byte more
  have bytes : bytesOf k (s.log ++ [.byte k newline, .returned k target (Console.result target (n - 1))])
      = bytesOf k s.log ++ [newline] := by
    simp [bytesOf, Event.copied]
  refine ⟨?_, ?_, ?_, ?_, ?_⟩
  · rw [bytes, List.dropLast_concat]
    exact open_.line
  · have other : ctrlD ≠ newline := by decide
    rw [bytes]
    simp [open_.bytes, other]
  · intro there
    simp [open_.eof] at there
  · intro t there _
    have zero : t = target ∧ (0 : Int) = Console.result target (n - 1) := by
      simpa [open_.result] using there
    rw [counted.result_eq, bytesOf_snoc, List.length_append, List.length_singleton] at zero
    exact absurd zero.2 (by omega)
  · rw [bytes, ← bytesOf_snoc, ← counted.result_eq]
    simp [open_.result]

theorem CallsOk.read (ok : CallsOk s) (place : s.pc p = .loop k target n) (killed copied : Bool) :
    CallsOk (s.read p k target n killed copied) := by
  have active : Active s p k target n := .inr place
  have open_ := (ok.active p k target n active).2
  have leaves : ∀ {cons : Cons} {events : List Event}, (∀ e ∈ events, e.call = k) →
      CallFacts (s.log ++ events) k → CallsOk (s.leave p cons events) := by
    intro cons events own facts
    refine ok.advance active rfl rfl rfl own facts ?_
    intro k' target' n' inside
    simp at inside
  unfold State.read
  split
  · rename_i more
    split
    · split
      · exact leaves (by simp [Event.call])
          (open_.close rfl (by simp) (by simp) fun _ _ => .inl (by simp))
      · refine ok.advance active rfl rfl (List.append_nil s.log).symm ?_ ?_ ?_
        · simp
        · rw [List.append_nil]
          exact open_.facts
        · intro k' target' n' inside
          simp only [Pc.acquire.injEq, reduceCtorEq, or_false] at inside
          obtain ⟨rfl, rfl, rfl⟩ := inside
          rw [List.append_nil]
          exact ⟨rfl, open_⟩
    · simp only
      split
      · split
        · rename_i later
          exact leaves (by simp [Event.call]) (open_.close rfl (by simp) (by simp)
            fun same _ => absurd (same ▸ later) (BitVec.lt_irrefl _))
        · rename_i first
          exact leaves (by simp [Event.call]) (open_.endOfFile first)
      · rename_i plain
        split
        · exact leaves (by simp [Event.call])
            (open_.close rfl (by simp) (by simp) fun _ _ => .inr (by simp))
        · split
          · rename_i isNewline
            rw [isNewline]
            exact leaves (by simp [Event.call]) (open_.endOfLine more)
          · rename_i inLine
            have next := open_.byte more plain inLine
            refine ok.advance active rfl rfl rfl
              (by simp [Event.call]) next.facts ?_
            intro k' target' n' inside
            simp only [Pc.loop.injEq, reduceCtorEq, false_or] at inside
            obtain ⟨rfl, rfl, rfl⟩ := inside
            exact ⟨rfl, next⟩
  · rename_i done
    exact leaves (by simp [Event.call]) (open_.close rfl (by simp) (by simp)
      fun same more => absurd (same ▸ more) done)

theorem CallsOk.enter (ok : CallsOk s) (pc : s'.pc = update s.pc p (.acquire s.calls n n))
    (calls : s'.calls = s.calls + 1) (log : s'.log = s.log) : CallsOk s' := by
  have silent : ∀ e ∈ s.log, e.call ≠ s.calls := fun e listed => Nat.ne_of_lt (ok.fresh e listed)
  have none : bytesOf s.calls s.log = [] := by
    have other : bytesOf s.calls ([] ++ s.log) = bytesOf s.calls [] := bytesOf_other silent
    rwa [List.nil_append] at other
  have opened : Unfinished s.log s.calls n n := by
    refine ⟨⟨?_, ?_⟩, ?_, ?_, ?_, ?_⟩
    · simp [none]
    · simp [none]
    · simp [none]
    · simp [none]
    · intro there
      exact silent _ there rfl
    · intro t r there
      exact silent _ there rfl
  have older : ∀ {q k' target' n'}, q ≠ p → Active s' q k' target' n' →
      Active s q k' target' n' := by
    intro q k' target' n' other active
    rwa [Active, pc, update_of_ne other] at active
  have newer : ∀ {k' target' n'}, Active s' p k' target' n' →
      k' = s.calls ∧ target' = n ∧ n' = n := by
    intro k' target' n' active
    rw [Active, pc, update_self] at active
    simp only [Pc.acquire.injEq, reduceCtorEq, or_false] at active
    obtain ⟨rfl, rfl, rfl⟩ := active
    exact ⟨rfl, rfl, rfl⟩
  refine ⟨?_, ?_, ?_, ?_⟩
  · intro q k' target' n' active
    rw [calls, log]
    by_cases same : q = p
    · subst same
      obtain ⟨rfl, rfl, rfl⟩ := newer active
      exact ⟨Nat.lt_succ_self _, opened⟩
    · obtain ⟨less, open_⟩ := ok.active q k' target' n' (older same active)
      exact ⟨Nat.lt_succ_of_lt less, open_⟩
  · intro q₁ q₂ k' t₁ n₁ t₂ n₂ active₁ active₂
    by_cases same₁ : q₁ = p <;> by_cases same₂ : q₂ = p
    · rw [same₁, same₂]
    · subst same₁
      have less := (ok.active _ _ _ _ (older same₂ active₂)).1
      exact absurd (newer active₁).1 (Nat.ne_of_lt less)
    · subst same₂
      have less := (ok.active _ _ _ _ (older same₁ active₁)).1
      exact absurd (newer active₂).1 (Nat.ne_of_lt less)
    · exact ok.alone _ _ _ _ _ _ _ (older same₁ active₁) (older same₂ active₂)
  · intro e listed
    rw [log] at listed
    rw [calls]
    exact Nat.lt_succ_of_lt (ok.fresh e listed)
  · rw [log]
    exact ok.facts

theorem CallsOk.step (ok : CallsOk s) (stepped : step s a = some s') : CallsOk s' := by
  cases a with
  | consoleintr c =>
    simp only [Console.step] at stepped
    split at stepped <;> cases stepped
    exact ⟨ok.active, ok.alone, ok.fresh, ok.facts⟩
  | consoleread p n =>
    simp only [Console.step] at stepped
    split at stepped <;> cases stepped
    exact ok.enter rfl rfl rfl
  | read p killed copied =>
    simp only [Console.step] at stepped
    split at stepped
    · cases stepped
    · rename_i k target n place
      split at stepped <;> cases stepped
      have open_ := (ok.active p k target n (.inl place)).2
      refine ok.advance (.inl place) rfl rfl (List.append_nil s.log).symm ?_ ?_ ?_
      · simp
      · rw [List.append_nil]
        exact open_.facts
      · intro k' target' n' inside
        simp only [Pc.loop.injEq, reduceCtorEq, false_or] at inside
        obtain ⟨rfl, rfl, rfl⟩ := inside
        rw [List.append_nil]
        exact ⟨rfl, open_⟩
    · rename_i k target n place
      cases stepped
      exact ok.read place killed copied

theorem Reachable.callsOk (reached : Reachable s) : CallsOk s := by
  induction reached with
  | initial buf =>
    refine ⟨?_, ?_, ?_, ?_⟩
    · intro p k target n active
      simp [Active, Console.initial] at active
    · intro p q k target n target' n' active
      simp [Active, Console.initial] at active
    · simp [Console.initial]
    · intro k
      refine ⟨?_, ?_, ?_, ?_, ?_⟩ <;> simp [Console.initial, bytesOf]
  | step a _ stepped ih => exact ih.step stepped

end CallSteps

/-- Only characters between `w` and `e` are removed. -/
structure Cons.Erases (s s' : Cons) : Prop where
  buf : s'.buf = s.buf
  r : s'.r = s.r
  w : s'.w = s.w
  e : (s'.e - s.w).toNat ≤ (s.e - s.w).toNat

theorem Cons.killLine_frame (rounds : Nat) (s : Cons) :
    (s.killLine rounds).buf = s.buf ∧ (s.killLine rounds).r = s.r ∧
      (s.killLine rounds).w = s.w := by
  induction rounds generalizing s with
  | zero => exact ⟨rfl, rfl, rfl⟩
  | succ rounds ih =>
    rw [Cons.killLine]
    split
    · exact ih _
    · exact ⟨rfl, rfl, rfl⟩

theorem Cons.consoleintr_frame (s : Cons) (edits : c = ctrlU ∨ c = ctrlH ∨ c = delete) :
    (s.consoleintr c).buf = s.buf ∧ (s.consoleintr c).r = s.r ∧ (s.consoleintr c).w = s.w := by
  have plain : c ≠ ctrlP := by
    rcases edits with rfl | rfl | rfl <;> decide
  rw [Cons.consoleintr, if_neg plain]
  split
  · exact s.killLine_frame _
  · rename_i other
    rw [if_pos (edits.resolve_left other)]
    split
    · exact ⟨rfl, rfl, rfl⟩
    · exact ⟨rfl, rfl, rfl⟩

theorem Line.input_edits (l : Line) (taken : Nat)
    (edits : c = ctrlU ∨ c = ctrlH ∨ c = delete) :
    (l.input taken c).committed = l.committed ∧
      (l.input taken c).line.length ≤ l.line.length := by
  have plain : c ≠ ctrlP := by
    rcases edits with rfl | rfl | rfl <;> decide
  rw [Line.input, if_neg plain]
  split
  · exact ⟨rfl, Nat.zero_le _⟩
  · rename_i other
    rw [if_pos (edits.resolve_left other)]
    exact ⟨rfl, by simp⟩

theorem Represents.erases {s : Cons} {l : Line} {taken : Nat} (rep : Represents s l taken)
    (edits : c = ctrlU ∨ c = ctrlH ∨ c = delete) : s.Erases (s.consoleintr c) := by
  obtain ⟨buf, r, w⟩ := s.consoleintr_frame edits
  refine ⟨buf, r, w, ?_⟩
  have after := (rep.consoleintr c).edited
  rw [w] at after
  rw [after, rep.edited]
  exact (l.input_edits taken edits).2

theorem Represents.order {s : Cons} {l : Line} {taken : Nat} (rep : Represents s l taken) :
    (s.w - s.r).toNat ≤ (s.e - s.r).toNat ∧ (s.e - s.r).toNat ≤ INPUT_BUF := by
  have near := rep.near
  have behind := rep.behind
  have size : INPUT_BUF < 2 ^ 32 := by decide
  have committed : (s.w - s.r).toNat = l.committed.length - taken := by
    rw [rep.w, rep.r]
    exact counter_sub behind (by omega)
  rw [committed, rep.pending]
  omega

def Event.delivered : Event → Option UInt8
  | byte _ c => some c
  | _ => none

def delivered (log : List Event) : List UInt8 := log.filterMap Event.delivered

/-- Without failed copies, the bytes delivered are the characters consumed but for `^D`. -/
theorem delivered_eq {log : List Event} (copies : ∀ k c, .lost k c ∉ log)
    (facts : ∀ k, CallFacts log k) : delivered log = (chars log).filter (· ≠ ctrlD) := by
  have plain : ∀ k c, .byte k c ∈ log → c ≠ ctrlD := by
    rintro k c there rfl
    refine (facts k).bytes ?_
    rw [bytesOf, List.mem_filterMap]
    exact ⟨_, there, if_pos rfl⟩
  clear facts
  induction log with
  | nil => rfl
  | cons e rest ih =>
    have rest_eq := ih (fun k c there => copies k c (List.mem_cons_of_mem _ there))
      fun k c there => plain k c (List.mem_cons_of_mem _ there)
    cases e with
    | byte k c =>
      have c_plain := plain k c List.mem_cons_self
      change c :: delivered rest = (c :: chars rest).filter _
      rw [List.filter_cons_of_pos (by simpa using c_plain), rest_eq]
    | lost k c => exact absurd List.mem_cons_self (copies k c)
    | eof k =>
      change delivered rest = (ctrlD :: chars rest).filter _
      rw [List.filter_cons_of_neg (by simp), rest_eq]
    | returned k result | killed k => exact rest_eq

/-- The order of the indices, what editing may remove, and what the calls return: the characters
consumed are the first committed ones, a newline or a `^D` ends a call, and a `^D` that is the first
pending character is consumed by the call that comes to it, which returns 0. -/
structure Discipline (s : State nproc) : Prop where
  order : (s.cons.w - s.cons.r).toNat ≤ (s.cons.e - s.cons.r).toNat ∧
    (s.cons.e - s.cons.r).toNat ≤ INPUT_BUF
  editing : ∀ c, c = ctrlU ∨ c = ctrlH ∨ c = delete → s.cons.Erases (s.cons.consoleintr c)
  stream : chars s.log <+: s.lines.committed
  bytes : (∀ k c, .lost k c ∉ s.log) → delivered s.log = (chars s.log).filter (· ≠ ctrlD)
  calls : ∀ k, CallFacts s.log k
  eof : ∀ p k target n killed copied, s.pc p = .loop k target n → (0#32).slt n →
    bytesOf k s.log = [] → s.lines.committed[(chars s.log).length]? = some ctrlD →
    ∃ s', step s (.read p killed copied) = some s' ∧ s'.log = s.log ++ [.eof k, .returned k target 0]

/-- A call that has delivered nothing and comes to a pending `^D` consumes it and returns 0. -/
theorem Reachable.eof {s : State nproc} (reached : Reachable s) {p : Fin nproc} {k : Nat}
    {target n : BitVec 32} (place : s.pc p = .loop k target n) (more : (0#32).slt n)
    (none : bytesOf k s.log = [])
    (first : s.lines.committed[(chars s.log).length]? = some ctrlD) (killed copied : Bool) :
    ∃ s', Console.step s (.read p killed copied) = some s' ∧
      s'.log = s.log ++ [.eof k, .returned k target 0] := by
  have open_ := (reached.callsOk.active p k target n (.inr place)).2
  have count := open_.count
  have result := open_.toCounted.result_eq
  rw [none] at count result
  have same : ¬ n < target := fun less => by
    rw [BitVec.lt_def] at less
    simp only [List.length_nil] at count
    omega
  obtain ⟨inside, found⟩ := List.getElem?_eq_some_iff.mp first
  have rep := reached.streamOk.rep
  have pending : s.cons.r ≠ s.cons.w := by
    have near := rep.near
    have size : INPUT_BUF < 2 ^ 32 := by decide
    rw [rep.r, rep.w, ne_eq, eq_comm, counter_inj rep.behind (by omega)]
    omega
  obtain ⟨_, char, -⟩ := rep.consume pending
  refine ⟨s.read p k target n killed copied, by simp only [Console.step, place], ?_⟩
  rw [State.read, if_pos more, if_neg pending]
  simp only [char, found, if_true, if_neg same, State.leave, result]
  rfl

/-- The console keeps the line discipline in every interleaving. -/
theorem console_discipline {s : State nproc} (reached : Reachable s) : Discipline s := by
  have stream := reached.streamOk
  have calls := reached.callsOk
  exact ⟨stream.rep.order, fun c edits => stream.rep.erases edits, stream.order,
    fun copies => delivered_eq copies calls.facts, calls.facts,
    fun _ _ _ _ killed copied place more none first => reached.eof place more none first killed copied⟩

/-- `x`, backspace, `a`, return and `^D` are typed and read by two calls. -/
theorem console_discipline_typed : ∃ s : State 1, Reachable s ∧
    s.log = [.byte 0 97, .byte 0 newline, .returned 0 9 2, .eof 1, .returned 1 9 0] ∧
    Discipline s := by
  have ran : (run step (initial fun _ => 0 : State 1)
      [.consoleintr 120, .consoleintr delete, .consoleintr 97, .consoleread 0 9,
        .consoleintr carriageReturn, .consoleintr ctrlD, .read 0 false true, .read 0 false true,
        .read 0 false true, .consoleread 0 9, .read 0 false true, .read 0 false true]).isSome := by
    decide
  obtain ⟨s, ran⟩ := Option.isSome_iff_exists.mp ran
  have contents := congrArg (Option.map fun s => s.log) ran
  have reached : Reachable s := run_keeps (fun a => .step a) _ (.initial _) ran
  exact ⟨s, reached, (Option.some.inj (Eq.trans rfl contents)).symm, console_discipline reached⟩

end OsbKernel.Console
