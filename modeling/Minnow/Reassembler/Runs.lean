import Minnow.Lib.Machine
import Minnow.Reassembler.Insert

/-!
# Runs of a reassembler

A `Session` is a reassembler with a record of its run: the bytes the reader has popped (`read`),
the positions that some insert covered inside the window of its moment (`covered`), and whether
some insert was marked last and ended inside the window of its moment (`ended`). The record is
ghost: nothing reads it but the statements.

`machine capacity` starts from a fresh reassembler and takes inserts and pops in any order. A run
in which the inserts are pieces of one stream is one guarded by `FromStream`.
-/

namespace Minnow

namespace Reassembler

inductive Op where
  | insert (firstIndex : Nat) (data : Bytes) (isLastSubstring : Bool)
  | pop (len : Nat)

structure Session where
  reassembler : Reassembler
  read : Bytes := []
  covered : Finset Nat := ∅
  ended : Bool := false
  deriving DecidableEq

namespace Session

/-- The record after an insert that left `r'`. -/
def afterInsert (s : Session) (firstIndex : Nat) (data : Bytes) (isLast : Bool)
    (r' : Reassembler) : Session where
  reassembler := r'
  read := s.read
  covered := s.covered ∪
    Finset.Ico firstIndex (min (firstIndex + data.length) s.reassembler.windowEnd)
  ended := s.ended ||
    isLast && decide (firstIndex + data.length ≤ s.reassembler.windowEnd)

def afterPop (s : Session) (len : Nat) : Session :=
  { s with
    reassembler := s.reassembler.pop len
    read := s.read ++ s.reassembler.output.peek.take len }

/-- All the bytes that were pushed: those the reader has, and those still buffered. -/
def pushedBytes (s : Session) : Bytes := s.read ++ s.reassembler.output.peek

end Session

def Session.step (s : Session) : Op → Except Fault Session
  | .insert firstIndex data isLast => do
    let r' ← s.reassembler.insert firstIndex data isLast
    return s.afterInsert firstIndex data isLast r'
  | .pop len => return s.afterPop len

def Session.new (capacity : Nat) : Session where
  reassembler := { output := { capacity } }

def machine (capacity : Nat) : Machine Session Op :=
  .det (.new capacity) Session.step

/-- The data is what `stream` has at the index, marked last exactly when it ends `stream`. -/
structure Piece (stream : Bytes) (firstIndex : Nat) (data : Bytes) (isLast : Bool) : Prop where
  le : firstIndex + data.length ≤ stream.length
  slice : data = (stream.drop firstIndex).take data.length
  last : isLast = true ↔ firstIndex + data.length = stream.length

instance (stream : Bytes) (firstIndex : Nat) (data : Bytes) (isLast : Bool) :
    Decidable (Piece stream firstIndex data isLast) :=
  decidable_of_iff (firstIndex + data.length ≤ stream.length ∧
    data = (stream.drop firstIndex).take data.length ∧
    (isLast = true ↔ firstIndex + data.length = stream.length))
    ⟨fun ⟨h₁, h₂, h₃⟩ => ⟨h₁, h₂, h₃⟩, fun ⟨h₁, h₂, h₃⟩ => ⟨h₁, h₂, h₃⟩⟩

/-- The inserts are pieces of `stream`, and no index passes `2 ^ 31`. -/
def FromStream (stream : Bytes) (s : Session) : Op → Prop
  | .insert firstIndex data isLast => Piece stream firstIndex data isLast ∧
      firstIndex + data.length ≤ 2 ^ 31 ∧ s.reassembler.windowEnd ≤ 2 ^ 31
  | .pop _ => True

instance (stream : Bytes) (s : Session) : ∀ op, Decidable (FromStream stream s op)
  | .insert .. => inferInstanceAs (Decidable (_ ∧ _))
  | .pop _ => .isTrue trivial

section

variable {stream data : Bytes} {firstIndex capacity : Nat} {isLast : Bool} {s : Session}

theorem Session.step_insert {s' : Session}
    (h : s.step (.insert firstIndex data isLast) = .ok s') :
    ∃ r', s.reassembler.insert firstIndex data isLast = .ok r' ∧
      s' = s.afterInsert firstIndex data isLast r' := by
  obtain ⟨r', hr, h⟩ := bind_ok h
  exact ⟨r', hr, (Except.ok.inj h).symm⟩

theorem Piece.getElem? (h : Piece stream firstIndex data isLast) {p : Nat} {b : UInt8}
    (hp : firstIndex ≤ p) :
    data[p - firstIndex]? = some b ↔
      p < firstIndex + data.length ∧ stream[p]? = some b := by
  rw [h.slice, List.getElem?_take, List.getElem?_drop, ← h.slice,
    show firstIndex + (p - firstIndex) = p by omega]
  split
  · exact ⟨fun hb => ⟨by omega, hb⟩, And.right⟩
  · exact ⟨fun hb => (Option.some_ne_none b hb.symm).elim, fun hb => absurd hb.1 (by omega)⟩

@[simp] theorem afterPop_windowEnd_le (s : Session) (len : Nat) :
    s.reassembler.windowEnd ≤ (s.afterPop len).reassembler.windowEnd :=
  s.reassembler.windowEnd_le_pop len

theorem afterPop_pushedBytes (h : s.reassembler.Inv) (len : Nat) :
    (s.afterPop len).pushedBytes = s.pushedBytes := by
  unfold Session.pushedBytes Session.afterPop
  simp only [pop]
  rw [ByteStream.pop_peek h.output, List.append_assoc, List.take_append_drop]

end

end Reassembler

end Minnow
