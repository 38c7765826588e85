import Classwright.Generate.Error

/-!
# Slots of locals

Locals get their slots in the order in which they are first met, one slot each and two for longs
and doubles.  Slots are never used again for another local.
-/

namespace Classwright

structure Slots where
  index : Std.HashMap String UInt16 := {}
  /-- The locals with their slots, in the order of the slots. -/
  locals : Array (Local × UInt16) := #[]
  /-- The first free slot. -/
  next : UInt16 := 0
  deriving Inhabited

/-- A call on the slots; it may fail, and the slots stay behind. -/
abbrev Allocating := ExceptT GenerateError (StateM Slots)

namespace Slots

/-- The slots that a local takes; even one without values takes one. -/
def widthOf (l : Local) : Nat := max l.type.width 1

def allocate (l : Local) : Allocating UInt16 := fun s =>
  if s.index.contains l.name then (.error (.duplicateLocal l.name), s)
  else if s.next.toNat + widthOf l ≤ 65535 then
    let slot := s.next
    (.ok slot,
      { index := s.index.insert l.name slot
        locals := s.locals.push (l, slot)
        next := UInt16.ofNat (slot.toNat + widthOf l) })
  else (.error (.limitExceeded .localSlots), s)

def lookup (s : Slots) (l : Local) : Except GenerateError UInt16 :=
  match s.index[l.name]? with
  | some slot => .ok slot
  | none => .error (.unknownLocal l.name)

/-- The slot of a local that is assigned, which it may get now. -/
def forStore (l : Local) : Allocating UInt16 := fun s =>
  match s.index[l.name]? with
  | some slot => (.ok slot, s)
  | none => allocate l s

def allocateAll (s : Slots) : List Local → Except GenerateError Slots
  | [] => .ok s
  | l :: rest =>
    match allocate l s with
    | (.error e, _) => .error e
    | (.ok _, s) => allocateAll s rest

end Slots

end Classwright
