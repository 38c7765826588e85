import Classwright.Attribute.Code
import Classwright.Pool.Entry
import Classwright.Text.ModifiedUtf8

/-!
# Class files

A class as it is stored: names and types are indexes into the constant pool.
-/

namespace Classwright

structure Member where
  flags : UInt16
  name : UInt16
  descriptor : UInt16
  attributes : List Attribute
  deriving DecidableEq, Inhabited

structure ClassFile where
  minor : UInt16
  major : UInt16
  /-- The number of pool slots plus one, as the file states it. -/
  poolCount : UInt16
  pool : Array Entry
  flags : UInt16
  this : UInt16
  /-- Zero only for the root of the hierarchy. -/
  super : UInt16
  interfaces : List UInt16
  fields : List Member
  methods : List Member
  attributes : List Attribute
  deriving DecidableEq, Inhabited

namespace ClassFile

def text? (c : ClassFile) (index : UInt16) : Option String :=
  match entryAt? c.pool index with
  | some (.utf8 bytes) => some (ModifiedUtf8.decode bytes)
  | _ => none

def className? (c : ClassFile) (index : UInt16) : Option String :=
  match entryAt? c.pool index with
  | some (.classInfo name) => c.text? name
  | _ => none

/-- The first of the given members with a name. -/
def member? (c : ClassFile) (members : List Member) (name : String) : Option Member :=
  members.find? fun m => c.text? m.name == some name

def attribute? (c : ClassFile) (attributes : List Attribute) (name : String) : Option Attribute :=
  attributes.find? fun a => c.text? a.name == some name

def method? (c : ClassFile) (name : String) : Option Member := c.member? c.methods name

def field? (c : ClassFile) (name : String) : Option Member := c.member? c.fields name

/-- The code of the first method with a name, if it can be read. -/
def methodCode? (c : ClassFile) (name : String) : Option Code := do
  let m ← c.method? name
  let a ← c.attribute? m.attributes "Code"
  (Code.read.run a.body).toOption

end ClassFile

end Classwright
