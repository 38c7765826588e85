import Classwright.Literal
import Classwright.Symbol

/-!
# Statements

The bodies of methods: statements over named, typed locals, with jumps to labels.
-/

namespace Classwright

structure Local where
  name : String
  type : JavaType
  deriving Inhabited

instance : BEq Local where
  beq a b := a.name == b.name && a.type == b.type

abbrev Label := UInt32

inductive BinaryOp where
  | add
  | sub
  | mul
  | div
  | rem
  | shl
  | shr
  | ushr
  | and
  | or
  | xor
  deriving DecidableEq

inductive UnaryOp where
  | negate
  | complement
  deriving DecidableEq

inductive Comparison where
  | equal
  | notEqual
  | less
  | lessOrEqual
  | greater
  | greaterOrEqual
  deriving DecidableEq

def BinaryOp.name : BinaryOp → String
  | add => "Add"
  | sub => "Sub"
  | mul => "Mul"
  | div => "Div"
  | rem => "Rem"
  | shl => "Shl"
  | shr => "Shr"
  | ushr => "Ushr"
  | and => "And"
  | or => "Or"
  | xor => "Xor"

def UnaryOp.name : UnaryOp → String
  | negate => "Negate"
  | complement => "Complement"

def Comparison.name : Comparison → String
  | equal => "Equal"
  | notEqual => "NotEqual"
  | less => "Less"
  | lessOrEqual => "LessOrEqual"
  | greater => "Greater"
  | greaterOrEqual => "GreaterOrEqual"

inductive Statement where
  /-- Calls a method; a super call is not dispatched on the receiver's class. -/
  | invoke (method : MethodSymbol) (receiver : Option Local) (arguments : List Local)
      (result : Option Local) (isSuper : Bool)
  | getField (field : FieldSymbol) (receiver : Option Local) (target : Local)
  | putField (field : FieldSymbol) (receiver : Option Local) (value : Local)
  | assign (target source : Local)
  | binary (op : BinaryOp) (left right result : Local)
  | unary (op : UnaryOp) (operand result : Local)
  /-- Converts between primitive types. -/
  | cast (source target : Local)
  | goto (label : Label)
  | mark (label : Label)
  /-- Jumps if the comparison of two values holds. -/
  | compare (op : Comparison) (left right : Local) (label : Label)
  /-- Jumps if the comparison of a value with zero or `null` holds. -/
  | test (op : Comparison) (operand : Local) (label : Label)
  | arrayGet (array index target : Local)
  | arrayPut (array index value : Local)
  /-- Ends the method, with the value of a local unless it is `void`. -/
  | ret (value : Option Local)
  | instanceOf (value : Local) (type : JavaType) (result : Local)
  | new (constructor : MethodSymbol) (arguments : List Local) (result : Local)
  /-- Allocates an array with one length for each dimension. -/
  | newArray (element : JavaType) (lengths : List Local) (result : Local)
  | literal (value : Literal) (target : Local)
  deriving Inhabited

/-- Equality, with floats compared as numbers and classes by name. -/
protected def Statement.beq : Statement → Statement → Bool
  | invoke m r as t s, invoke m' r' as' t' s' =>
    m == m' && r == r' && as == as' && t == t' && s == s'
  | getField f r t, getField f' r' t' => f == f' && r == r' && t == t'
  | putField f r v, putField f' r' v' => f == f' && r == r' && v == v'
  | assign t s, assign t' s' => t == t' && s == s'
  | binary op l r t, binary op' l' r' t' => op == op' && l == l' && r == r' && t == t'
  | unary op o t, unary op' o' t' => op == op' && o == o' && t == t'
  | cast s t, cast s' t' => s == s' && t == t'
  | goto l, goto l' => l == l'
  | mark l, mark l' => l == l'
  | compare op l r t, compare op' l' r' t' => op == op' && l == l' && r == r' && t == t'
  | test op o t, test op' o' t' => op == op' && o == o' && t == t'
  | arrayGet a i t, arrayGet a' i' t' => a == a' && i == i' && t == t'
  | arrayPut a i v, arrayPut a' i' v' => a == a' && i == i' && v == v'
  | ret v, ret v' => v == v'
  | instanceOf v t r, instanceOf v' t' r' => v == v' && t == t' && r == r'
  | new c as r, new c' as' r' => c == c' && as == as' && r == r'
  | newArray e ls r, newArray e' ls' r' => e == e' && ls == ls' && r == r'
  | literal v t, literal v' t' => v == v' && t == t'
  | _, _ => false

instance : BEq Statement := ⟨Statement.beq⟩

structure Body where
  /-- The locals on entry, in slot order; the receiver of an instance method comes first. -/
  parameters : List Local := []
  statements : List Statement := []
  /-- The labels that the statements may use. -/
  labels : List Label := []
  deriving Inhabited

end Classwright
