import Classwright.Generate.Error
import Classwright.Generate.Flow
import Classwright.Generate.FrameTable
import Classwright.Generate.StackDepth
import Classwright.Instruction.Codec

/-!
# Assembly of method bodies

Code is first a list of items in which branches name labels.  Assembling it gives every instruction
its address, replaces labels by distances, and overwrites what control cannot reach by instructions
of the same total size that the verifier accepts.
-/

namespace Classwright

inductive Item where
  | op (instr : Instr)
  /-- The call of another constructor by which a constructor initializes its receiver. -/
  | initThis (instr : Instr)
  | branch (when : Jump) (label : Label)
  /-- Places a label at the next instruction. -/
  | mark (label : Label)

/-- An instruction whose target is not resolved yet. -/
inductive Line where
  | plain (instr : Instr)
  | branch (when : Jump) (label : Label)
  deriving Inhabited

def Line.size : Line → Nat
  | plain instr => instr.size
  | branch .. => 3

/-- Lines with their addresses and the places of labels. -/
structure Draft where
  lines : Array Line := #[]
  /-- The address of each line. -/
  addresses : Array Nat := #[]
  /-- The address after the last line.  It only grows, and code with more than 65535 bytes is refused, so
  32 bits always hold it where generation succeeds. -/
  size : Nat := 0
  /-- The line at which each label was placed last. -/
  placed : Std.HashMap Label Nat := {}
  /-- The line that initializes the receiver. -/
  thisInit : Option Nat := none

namespace Draft

def addLine (d : Draft) (line : Line) : Draft :=
  { d with
    lines := d.lines.push line
    addresses := d.addresses.push d.size
    size := d.size + line.size }

def add (d : Draft) : Item → Draft
  | .op instr => d.addLine (.plain instr)
  | .initThis instr =>
    let i := d.lines.size
    { d.addLine (.plain instr) with thisInit := some i }
  | .branch jump label => d.addLine (.branch jump label)
  | .mark label => { d with placed := d.placed.insert label d.lines.size }

def ofItems (items : List Item) : Draft := items.foldl add {}

def address (d : Draft) (i : Nat) : Nat := d.addresses[i]?.getD d.size

/-- The line with its branch resolved; a label after the last line has no place. -/
def resolveLine (d : Draft) (i : Nat) : Line → Except GenerateError Step
  | .plain instr => .ok { instr }
  | .branch jump label =>
    match d.placed[label]? with
    | none => .error (.unboundLabel label)
    | some target =>
      if target < d.lines.size then
        let distance : Int := (d.address target : Int) - d.address i
        if -32768 ≤ distance ∧ distance ≤ 32767 then
          .ok { instr := .jump jump (Int16.ofInt distance), target := some target }
        else .error (.branchOutOfRange distance)
      else .error (.unboundLabel label)

/-- The lines from position `i` resolved, after those before it. -/
def resolveFrom (d : Draft) : Nat → List Line → Array Step → Except GenerateError (Array Step)
  | _, [], done => .ok done
  | i, line :: rest, done =>
    match d.resolveLine i line with
    | .error e => .error e
    | .ok step => resolveFrom d (i + 1) rest (done.push step)

def resolve (d : Draft) : Except GenerateError (Array Step) :=
  if d.size ≤ 65535 then d.resolveFrom 0 d.lines.toList #[]
  else .error (.limitExceeded .codeSize)

end Draft

namespace Flow

/-- The locals on entry to an instruction that control can reach. -/
def localsAt? {w n : Nat} (states : States w n) (i : Nat) : Option (Locals w) := states[i]?.join

def isDead {w n : Nat} (states : States w n) (i : Nat) : Bool := (localsAt? states i).isNone

/-- The first instructions of the stretches that control cannot reach. -/
def deadStarts {w n : Nat} (states : States w n) : List Nat :=
  (List.range n).filter fun i => isDead states i && (i == 0 || !isDead states (i - 1))

/-- Enters the frame at the target of the branch at `i`, if control can reach the branch. -/
def recordTarget {w n : Nat} (d : Draft) (steps : Array Step) (states : States w n)
    (table : FrameTable) (i : Nat) : FrameTable :=
  match steps[i]?.bind Step.target with
  | none => table
  | some target =>
    if isDead states i then table
    else
      match localsAt? states target with
      | none => table
      | some locals =>
        table.insert (d.address target) { locals := frameLocals locals.toList }

def targetFrames {w n : Nat} (d : Draft) (steps : Array Step) (states : States w n) : FrameTable :=
  (List.range n).foldl (recordTarget d steps states) {}

/-- The frames at targets and at unreachable stretches, which start with a throwable on the
stack. -/
def frames {w n : Nat} (d : Draft) (steps : Array Step) (states : States w n) (throwable : UInt16) :
    FrameTable :=
  (deadStarts states).foldl
    (fun table i => table.insert (d.address i) { locals := [], stack := [.object throwable] })
    (targetFrames d steps states)

end Flow

/-- Code of the given size that ends in a throw, before the code behind it, both last instruction
first. -/
def throwAfter (code : List Instr) : Nat → List Instr
  | 0 => code
  | size + 1 => .athrow :: (List.replicate size .nop ++ code)

/-- Replaces each unreachable stretch by a throw at its end and fills the rest of its bytes.
`pending` bytes of a stretch have been read, `done` is the code before it, last instruction first. -/
def neutralizeFrom (pending : Nat) (done : List Instr) : List (Instr × Bool) → List Instr
  | [] => (throwAfter done pending).reverse
  | (instr, true) :: rest => neutralizeFrom (pending + instr.size) done rest
  | (instr, false) :: rest => neutralizeFrom 0 (instr :: throwAfter done pending) rest

/-- The code with every unreachable stretch replaced; each instruction is given with whether it is
unreachable. -/
def neutralize (code : List (Instr × Bool)) : List Instr := neutralizeFrom 0 [] code

structure Assembly where
  code : List Instr
  maxStack : UInt16
  /-- The stack map, if the method needs one. -/
  frames : List MapFrame := []

namespace Assembly

def mapFrames (d : Draft) (steps : Array Step) (layout : Layout)
    (states : Flow.States layout.width steps.size) : Pooling (List MapFrame) := do
  let initial := frameLocals layout.entry.toList
  if (Flow.deadStarts states).isEmpty then
    return (Flow.targetFrames d steps states).write initial
  else
    let throwable ← pooled (Pool.classInfo "java/lang/Throwable")
    return (Flow.frames d steps states throwable).write initial

/-- Assembles a method's items, with a stack map if a layout is given. -/
def ofItems (items : List Item) (layout? : Option Layout) : Pooling Assembly := do
  let draft := Draft.ofItems items
  let steps ← draft.resolve
  let layout := layout?.getD .empty
  let states := Flow.analyze steps layout draft.thisInit
  let frames ← if layout?.isSome then mapFrames draft steps layout states else pure []
  let dead := states.toList.map Option.isNone
  let code := neutralize ((steps.toList.map Step.instr).zip dead)
  let pool ← get
  return { code, maxStack := Instr.maxStack pool code, frames }

end Assembly

end Classwright
