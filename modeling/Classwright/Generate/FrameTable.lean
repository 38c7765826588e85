import Classwright.Attribute.StackMap
import Std.Data.TreeMap

/-!
# Tables of frames

Frames are collected by their address in the code and then written in the order of the addresses,
each in the shortest form that the frame before it allows.
-/

namespace Classwright

structure FrameTypes where
  locals : List VerificationType
  stack : List VerificationType := []
  deriving DecidableEq, Inhabited

abbrev FrameTable := Std.TreeMap Nat FrameTypes

/-- The locals of a frame, last first, after those collected before: a wide value stands for both of
its slots. -/
def collapseSlots (acc : List VerificationType) : List VerificationType → List VerificationType
  | [] => acc
  | [t] => t :: acc
  | t :: u :: rest =>
    if t.isWide then collapseSlots (t :: acc) rest else collapseSlots (t :: acc) (u :: rest)

/-- The locals of a frame for the types of all slots: one for each wide value, and none after the
last slot that is not `top`. -/
def frameLocals (slots : List VerificationType) : List VerificationType :=
  ((collapseSlots [] slots).dropWhile (· = .top)).reverse

namespace MapFrame

def ofLocals (before locals : List VerificationType) (delta : Nat) : MapFrame :=
  if before = locals then
    if h : delta < 64 then same ⟨delta, h⟩ else sameExtended (UInt16.ofNat delta)
  else if before.length < locals.length ∧ locals.length - before.length ≤ 3 ∧
      before.isPrefixOf locals then
    append (UInt16.ofNat delta) (locals.drop before.length)
  else if locals.length < before.length ∧ before.length - locals.length ≤ 3 ∧
      locals.isPrefixOf before then
    chop ⟨(before.length - locals.length - 1) % 3, Nat.mod_lt _ (Nat.zero_lt_succ 2)⟩
      (UInt16.ofNat delta)
  else full (UInt16.ofNat delta) locals []

/-- The shortest form of a frame, `delta` bytes after the first address it may have, where the frame
before it has the locals `before`. -/
def ofTypes (before : List VerificationType) (frame : FrameTypes) (delta : Nat) : MapFrame :=
  match frame.stack with
  | [] => ofLocals before frame.locals delta
  | [item] =>
    if before = frame.locals then
      if h : delta < 64 then stack1 ⟨delta, h⟩ item else stack1Extended (UInt16.ofNat delta) item
    else full (UInt16.ofNat delta) frame.locals [item]
  | stack => full (UInt16.ofNat delta) frame.locals stack

/-- The forms of consecutive frames, after those already chosen, newest first.  The first frame may
have the address `next`. -/
def chooseFrom (next : Nat) (before : List VerificationType) (done : List MapFrame) :
    List (Nat × FrameTypes) → List MapFrame
  | [] => done.reverse
  | (address, frame) :: rest =>
    chooseFrom (address + 1) frame.locals (ofTypes before frame (address - next) :: done) rest

end MapFrame

/-- The frames of a table as they are written; `initial` are the locals on entry to the method. -/
def FrameTable.write (table : FrameTable) (initial : List VerificationType) : List MapFrame :=
  MapFrame.chooseFrom 0 initial [] table.toList

end Classwright
