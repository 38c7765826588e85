import Classwright.Pool.Entry
import Classwright.Text.ModifiedUtf8
import Std.Data.HashMap

/-!
# The constant pool under construction

Interning gives every constant one index: a constant that is already there is found again, any
other is added at the end.  Constants that refer to others intern those first, and what was
added for them stays even if the pool has no room for the constant itself.
-/

namespace Classwright

structure Pool where
  /-- The slots; the first has index 1. -/
  entries : Array Entry := #[]
  /-- The index of every entry other than unusable slots. -/
  index : Std.HashMap Entry UInt16 := {}
  deriving Inhabited

inductive Pool.Overflow where
  /-- All slots are taken. -/
  | entries
  /-- The text takes more than 65535 bytes. -/
  | utf8Length
  deriving DecidableEq

/-- An action on the pool; what it has added stays when it fails. -/
abbrev Interning := ExceptT Pool.Overflow (StateM Pool)

namespace Pool

/-- The most slots that 16-bit indexes leave room for. -/
def maxSlots : Nat := 65534

/-- The number of slots plus one, as written in class files. -/
def count (p : Pool) : UInt16 := UInt16.ofNat (p.entries.size + 1)

def get? (p : Pool) (i : UInt16) : Option Entry := entryAt? p.entries i

def text? (p : Pool) (i : UInt16) : Option String :=
  match p.get? i with
  | some (.utf8 bytes) => some (ModifiedUtf8.decode bytes)
  | _ => none

def memberDescriptor? (p : Pool) (i : UInt16) : Option String :=
  match p.get? i with
  | some (.fieldRef _ nt) | some (.methodRef _ nt) | some (.interfaceMethodRef _ nt) =>
    match p.get? nt with
    | some (.nameAndType _ descriptor) => p.text? descriptor
    | _ => none
  | _ => none

def push (p : Pool) (e : Entry) : Pool :=
  let next := p.count
  { entries := p.entries ++ e.slots, index := p.index.insert e next }

/-- The index of an entry, which is added if it is not there. -/
def intern (e : Entry) : Interning UInt16 := fun p =>
  match p.index[e]? with
  | some i => (.ok i, p)
  | none =>
    if p.entries.size + e.width ≤ maxSlots then
      let i := p.count
      (.ok i, p.push e)
    else (.error .entries, p)

def utf8 (text : String) : Interning UInt16 :=
  match ModifiedUtf8.encode16? text with
  | some bytes => intern (.utf8 bytes)
  | none => throw .utf8Length

def integer (value : Int32) : Interning UInt16 := intern (.integer value)
def float (bits : UInt32) : Interning UInt16 := intern (.float bits)
def long (value : Int64) : Interning UInt16 := intern (.long value)
def double (bits : UInt64) : Interning UInt16 := intern (.double bits)

/-- A class by its internal name, or an array type by its descriptor. -/
def classInfo (name : String) : Interning UInt16 := do
  let name ← utf8 name
  intern (.classInfo name)

def string (value : String) : Interning UInt16 := do
  let text ← utf8 value
  intern (.string text)

def nameAndType (name descriptor : String) : Interning UInt16 := do
  let name ← utf8 name
  let descriptor ← utf8 descriptor
  intern (.nameAndType name descriptor)

def member (make : UInt16 → UInt16 → Entry) (owner name descriptor : String) :
    Interning UInt16 := do
  let owner ← classInfo owner
  let nt ← nameAndType name descriptor
  intern (make owner nt)

def fieldRef (owner name descriptor : String) : Interning UInt16 :=
  member .fieldRef owner name descriptor

def methodRef (owner name descriptor : String) : Interning UInt16 :=
  member .methodRef owner name descriptor

def interfaceMethodRef (owner name descriptor : String) : Interning UInt16 :=
  member .interfaceMethodRef owner name descriptor

end Pool

end Classwright
