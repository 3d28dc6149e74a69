import OsbKernel.Types
import OsbKernel.Lib.ChainFamily
import Mathlib.Data.Fintype.Card

/-!
# The process lists, one call at a time

`add_proc_to_list` and `remove_proc_from_list` when no other CPU interferes: what remains without
the locks is the pointer surgery. The link `-1` is `none`. Both loops hop along
`next_index_in_list`; a traversal of more than `NPROC` hops is on a list that never ends.
-/

namespace OsbKernel

open Function LinkedChain

/-- The heads of all lists and the one link field that they share. -/
structure Lists where
  first : ListId → Option Slot
  next : Slot → Option Slot

namespace Lists

def Reads (ls : Lists) (L : ListId → List Slot) : Prop := Family ls.first ls.next L

/-- `while (next != -1)`: hop to the last slot of a list. -/
def lastSlot (next : Slot → Option Slot) : Nat → Slot → Except Fault Slot
  | 0, _ => .error .endless
  | hops + 1, curr =>
    match next curr with
    | none => .ok curr
    | some n => lastSlot next hops n

/-- `while (next != indexInProc)`: hop to the slot in front of the given one.
At the end of the list the code reads `proc[-1]`. -/
def slotBefore (next : Slot → Option Slot) (indexInProc : Slot) : Nat → Slot → Except Fault Slot
  | 0, _ => .error .endless
  | hops + 1, curr =>
    match next curr with
    | none => .error .slotIndex
    | some n => if n = indexInProc then .ok curr else slotBefore next indexInProc hops n

def addProcToList (ls : Lists) (l : ListId) (indexInProc : Slot) : Except Fault Lists :=
  match ls.first l with
  | none =>
    .ok { first := update ls.first l (some indexInProc)
          next := update ls.next indexInProc none }
  | some f =>
    match lastSlot ls.next NPROC f with
    | .error e => .error e
    | .ok curr =>
      .ok { ls with next := update (update ls.next curr (some indexInProc)) indexInProc none }

def removeProcFromList (ls : Lists) (l : ListId) (indexInProc : Slot) : Except Fault Lists :=
  match ls.first l with
  | none => .error (.panic "Trying to remove from an empty list")
  | some f =>
    if f = indexInProc then
      .ok { first := update ls.first l (ls.next f)
            next := update ls.next indexInProc none }
    else
      match slotBefore ls.next indexInProc NPROC f with
      | .error e => .error e
      | .ok curr =>
        .ok { ls with
              next := update (update ls.next curr (ls.next indexInProc)) indexInProc none }

variable {next : Slot → Option Slot} {hops : Nat} {i : Slot} {ls : Lists} {L : ListId → List Slot}
    {l : ListId}

theorem lastSlot_chain {before : List Slot} {f t : Slot}
    (chain : Chain next (some f) (before ++ [t])) (room : before.length < hops) :
    lastSlot next hops f = .ok t := by
  induction before generalizing f hops with
  | nil =>
    obtain ⟨same, ends⟩ := chain
    cases same
    cases hops with
    | zero => cases room
    | succ hops => simp [lastSlot, chain_nil.mp ends]
  | cons a rest ih =>
    obtain ⟨same, tail⟩ := chain
    cases same
    cases hops with
    | zero => cases room
    | succ hops =>
      cases link : next a with
      | none =>
        rw [link] at tail
        have empty := tail.eq_nil
        simp at empty
      | some n =>
        rw [link] at tail
        simp only [lastSlot, link]
        exact ih tail (by simpa using room)

theorem slotBefore_chain {before after : List Slot} {f c : Slot}
    (chain : Chain next (some f) (before ++ c :: i :: after))
    (room : before.length < hops) : slotBefore next i hops f = .ok c := by
  have distinct := chain.nodup
  induction before generalizing f hops with
  | nil =>
    obtain ⟨same, link, _⟩ := chain
    cases same
    cases hops with
    | zero => cases room
    | succ hops => simp [slotBefore, link]
  | cons a rest ih =>
    obtain ⟨same, tail⟩ := chain
    cases same
    cases hops with
    | zero => cases room
    | succ hops =>
      have distinct' := (List.nodup_cons.mp distinct).2
      cases link : next a with
      | none =>
        rw [link] at tail
        have empty := tail.eq_nil
        simp at empty
      | some n =>
        rw [link] at tail
        have apart : n ≠ i := by
          rintro rfl
          have front := tail.start_eq
          cases rest with
          | nil | cons b more =>
            cases front
            simp at distinct'
        simp only [slotBefore, link, if_neg apart]
        exact ih tail (by simpa using room) distinct'

theorem slotBefore_notMem {nodes : List Slot} {f : Slot}
    (chain : Chain next (some f) nodes) (off : i ∉ nodes) (room : nodes.length ≤ hops) :
    slotBefore next i hops f = .error .slotIndex := by
  induction nodes generalizing f hops with
  | nil => cases chain
  | cons a rest ih =>
    obtain ⟨same, tail⟩ := chain
    cases same
    cases hops with
    | zero => cases room
    | succ hops =>
      cases link : next a with
      | none => simp [slotBefore, link]
      | some n =>
        rw [link] at tail
        have apart : n ≠ i := by
          rintro rfl
          exact off (List.mem_cons_of_mem a (List.mem_of_mem_head? tail.start_eq.symm))
        simp only [slotBefore, link, if_neg apart]
        exact ih tail (fun member => off (List.mem_cons_of_mem a member))
          (by simpa using room)

theorem Reads.length_le (reads : ls.Reads L) (l : ListId) :
    (L l).length ≤ NPROC := by
  have bound := List.Nodup.length_le_card (Family.nodup reads l)
  simpa using bound

theorem addProcToList_reads (reads : ls.Reads L) (free : ∀ l', i ∉ L l') :
    ∃ ls', ls.addProcToList l i = .ok ls' ∧ ls'.Reads (put L l i) := by
  unfold addProcToList
  rcases List.eq_nil_or_concat (L l) with empty | ⟨before, t, shape⟩
  · rw [(Family.first_eq_none_iff reads l).mpr empty]
    refine ⟨_, rfl, ?_⟩
    rw [put, empty]
    exact Family.appendEmpty reads empty free
  · rw [List.concat_eq_append] at shape
    have chain := Family.chain reads l
    rw [shape] at chain
    have room := reads.length_le l
    rw [shape, List.length_append, List.length_singleton] at room
    cases head : ls.first l with
    | none =>
      rw [head] at chain
      have empty := chain.eq_nil
      simp at empty
    | some f =>
      rw [head] at chain
      have found : lastSlot ls.next NPROC f = .ok t := lastSlot_chain chain room
      simp only [found]
      exact ⟨_, rfl, Family.append reads shape free⟩

theorem removeProcFromList_reads (reads : ls.Reads L) (listed : i ∈ L l) :
    ∃ ls', ls.removeProcFromList l i = .ok ls' ∧ ls'.Reads (drop L l i) := by
  unfold removeProcFromList
  have chain := Family.chain reads l
  rcases split_of_mem listed with ⟨rest, shape⟩ | ⟨before, c, after, shape⟩
  · rw [shape] at chain
    obtain ⟨head, _⟩ := chain
    simp only [head, if_true]
    refine ⟨_, rfl, ?_⟩
    rw [drop, shape, List.erase_cons_head]
    exact Family.unlinkFirst reads shape
  · have distinct := Family.nodup reads l
    have room := reads.length_le l
    rw [shape] at chain distinct room
    cases head : ls.first l with
    | none =>
      rw [head] at chain
      have empty := chain.eq_nil
      simp at empty
    | some f =>
      have apart : f ≠ i := by
        rintro rfl
        have front := chain.start_eq
        rw [head] at front
        cases before with
        | nil | cons b more =>
          cases front
          simp at distinct
      rw [head] at chain
      simp only [if_neg apart]
      rw [slotBefore_chain chain (by simp at room; omega)]
      refine ⟨_, rfl, ?_⟩
      rw [drop, shape, erase_middle distinct]
      exact Family.unlink reads shape

/-- Removing a slot that is not on the list stops the kernel: on an empty list
by the panic, on a non-empty one by the access to `proc[-1]`. -/
theorem removeProcFromList_notMem (reads : ls.Reads L) (off : i ∉ L l) :
    ls.removeProcFromList l i = .error (if L l = [] then
      .panic "Trying to remove from an empty list" else .slotIndex) := by
  unfold removeProcFromList
  have chain := Family.chain reads l
  cases head : ls.first l with
  | none => simp [(Family.first_eq_none_iff reads l).mp head]
  | some f =>
    have nonempty : L l ≠ [] := by
      intro empty
      rw [(Family.first_eq_none_iff reads l).mpr empty] at head
      cases head
    rw [head] at chain
    have apart : f ≠ i := by
      rintro rfl
      have front := chain.start_eq
      exact off (List.mem_of_mem_head? front.symm)
    simp only [if_neg apart, if_neg nonempty,
      slotBefore_notMem chain off (reads.length_le l)]

end Lists

end OsbKernel
