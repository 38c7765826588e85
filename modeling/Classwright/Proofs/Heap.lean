import Classwright.JavaType.Descriptor
import Classwright.Proofs.Machine
import Classwright.Proofs.Pool

/-!
# A machine with arrays

The machine for numbers is extended to references: values are numbers, `null`, strings, and the
addresses of objects on a heap, to which new objects are added at the end.  It runs straight-line code
that pushes constants, reads static fields, and allocates and fills arrays.  Static fields have fixed
values, and the class of a reference that is stored into an array is not checked.
-/

namespace Classwright

inductive Reference where
  | null
  /-- The string with a text; there is one for each text. -/
  | text (value : String)
  | at (address : Nat)
  deriving DecidableEq

inductive Value where
  | number (n : Number)
  | reference (r : Reference)
  deriving DecidableEq

namespace Value

def isWide : Value → Bool
  | number n => n.kind.isWide
  | reference _ => false

end Value

/-- The type of the elements of an array: a primitive, or a class or array type by its name in the
pool. -/
inductive Component where
  | primitive (p : Primitive)
  | named (name : String)
  deriving DecidableEq

def Primitive.ofTypeCode? (code : UInt8) : Option Primitive :=
  match code with
  | 4 => some .boolean
  | 5 => some .char
  | 6 => some .float
  | 7 => some .double
  | 8 => some .byte
  | 9 => some .short
  | 10 => some .int
  | 11 => some .long
  | _ => none

namespace Component

def zero : Component → Value
  | primitive .long => .number (.long 0)
  | primitive .float => .number (.float 0)
  | primitive .double => .number (.double 0)
  | primitive _ => .number (.int 0)
  | named _ => .reference .null

/-- What an array holds after the instruction for an element type has stored a value: numbers that are
too wide for the elements lose their high bits.  None if the instruction does not suit the array or
the value. -/
def store? : Element → Component → Value → Option Value
  | .int, primitive .int, .number (.int v) => some (.number (.int v))
  | .long, primitive .long, .number (.long v) => some (.number (.long v))
  | .float, primitive .float, .number (.float v) => some (.number (.float v))
  | .double, primitive .double, .number (.double v) => some (.number (.double v))
  | .byte, primitive .boolean, .number (.int v) => some (.number (.int (v &&& 1)))
  | .byte, primitive .byte, .number (.int v) => some (.number (.int (Integer.narrow 8 v)))
  | .char, primitive .char, .number (.int v) => some (.number (.int ((v.setWidth 16).setWidth 32)))
  | .short, primitive .short, .number (.int v) => some (.number (.int (Integer.narrow 16 v)))
  | .reference, named _, .reference r => some (.reference r)
  | _, _, _ => none

end Component

inductive HeapObject where
  | array (component : Component) (values : List Value)
  | object (className : String) (fields : String → Value)

abbrev Heap := List HeapObject

namespace Pool

def number? (p : Pool) (i : UInt16) : Option Number := (p.get? i).bind Entry.number?

def string? (p : Pool) (i : UInt16) : Option String :=
  match p.meaning? i with
  | some (.string text) => some text
  | _ => none

end Pool

namespace HeapMachine

structure State where
  stack : List Value
  heap : Heap

/-- The values of static fields by class, name and descriptor; fields of class types hold references. -/
structure Statics where
  value : String → String → String → Value
  isReference : ∀ owner name (c : ClassType),
    ∃ r, value owner name (JavaType.object c).descriptor = .reference r

namespace State

def push (s : State) (v : Value) : Option State := some { s with stack := v :: s.stack }

def allocate (s : State) (component : Component) : Option State :=
  match s.stack with
  | .number (.int length) :: rest =>
    if 0 ≤ length.toInt then
      some
        { stack := .reference (.at s.heap.length) :: rest
          heap := s.heap ++ [.array component (List.replicate length.toInt.toNat component.zero)] }
    else none
  | _ => none

def storeElement (s : State) (element : Element) : Option State :=
  match s.stack with
  | v :: .number (.int index) :: .reference (.at address) :: rest =>
    match s.heap[address]? with
    | some (.array component values) =>
      if 0 ≤ index.toInt ∧ index.toInt.toNat < values.length then
        (component.store? element v).map fun stored =>
          { stack := rest
            heap := s.heap.set address (.array component (values.set index.toInt.toNat stored)) }
      else none
    | _ => none
  | _ => none

end State

variable (fpu : FloatUnit) (statics : Statics) (pool : Pool)

def loadedText? : Instr → Option String
  | .ldc i => pool.string? i.toUInt16
  | .ldcW i => pool.string? i
  | _ => none

/-- The number that an instruction pushes without operands, as the machine for numbers does. -/
def loadedNumber? (instr : Instr) : Option Number :=
  match Machine.exec fpu pool.number? { locals := fun _ => none } instr with
  | some (.next ⟨_, [n]⟩) => some n
  | _ => none

/-- The value that an instruction pushes without operands, static fields aside. -/
def loaded? (instr : Instr) : Option Value :=
  ((loadedNumber? fpu pool instr).map .number).or
    ((loadedText? pool instr).map fun text => .reference (.text text))

/-- The effect of an instruction, with its index looked up in the pool. -/
def exec (s : State) : Instr → Option State
  | .aconstNull => s.push (.reference .null)
  | .dup =>
    match s.stack with
    | v :: _ => if v.isWide then none else s.push v
    | [] => none
  | .field .getStatic i =>
    match pool.meaning? i with
    | some (.fieldRef owner name descriptor) => s.push (statics.value owner name descriptor)
    | _ => none
  | .newArray code => (Primitive.ofTypeCode? code).bind fun p => s.allocate (.primitive p)
  | .newRefArray i => (pool.className? i).bind fun name => s.allocate (.named name)
  | .arrayStore element => s.storeElement element
  | instr => (loaded? fpu pool instr).bind s.push

def run (s : State) : List Instr → Option State
  | [] => some s
  | instr :: rest => (exec fpu statics pool s instr).bind fun s => run s rest

variable {fpu statics pool}

theorem exec_of_loaded? {instr : Instr} {v : Value} (h : loaded? fpu pool instr = some v) (s : State) :
    exec fpu statics pool s instr = s.push v := by
  unfold exec
  split
  · cases h
  · cases h
  · cases h
  · cases h
  · cases h
  · cases h
  · rw [h]
    rfl

theorem run_cons {s t : State} {instr : Instr} (h : exec fpu statics pool s instr = some t)
    (rest : List Instr) : run fpu statics pool s (instr :: rest) = run fpu statics pool t rest := by
  simp [run, h]

theorem run_append (s : State) (instrs more : List Instr) :
    run fpu statics pool s (instrs ++ more) =
      (run fpu statics pool s instrs).bind fun t => run fpu statics pool t more := by
  induction instrs generalizing s with
  | nil => rfl
  | cons instr instrs ih =>
    cases h : exec fpu statics pool s instr <;> simp [run, h, ih]

end HeapMachine

end Classwright
