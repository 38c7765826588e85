import Classwright.Declaration
import Classwright.Pool.Basic

/-!
# Why a class cannot be generated

Every cause ends the generation of the whole class.
-/

namespace Classwright

/-- The numbers that a class file bounds. -/
inductive Limit where
  | constantPool
  | utf8Constant
  | interfaceArguments
  | annotatedParameters
  | annotations
  | localSlots
  | codeSize
  | arrayConstant
  | interfaces
  | fields
  | methods
  | fieldAttributes
  | methodAttributes
  | classAttributes
  deriving DecidableEq

/-- What a statement asks for where it is not possible. -/
inductive Operation where
  /-- A call of an instance method without an object. -/
  | call (method : String)
  /-- An access to an instance field without an object. -/
  | fieldAccess (field : String)
  /-- Moving a value of a type that has none. -/
  | value
  | arrayAccess
  | arrayAllocation
  | binary (op : BinaryOp)
  | unary (op : UnaryOp)
  deriving DecidableEq

inductive GenerateError where
  | missingReturn (method : String)
  | incompatibleReturn (method : String) (expected found : JavaType)
  | illegalArrayDimension (dimensions : Nat)
  | noConversionPath (source target : JavaType)
  | cannotUnbox (type : JavaType)
  | resultTypeMismatch (source target : JavaType)
  | duplicateLocal (name : String)
  | unknownLocal (name : String)
  | unknownLabel (label : Label)
  | unboundLabel (label : Label)
  | unsupportedOperation (operation : Operation) (subject : String)
  | unsupportedComparison (op : Comparison) (type : JavaType)
  | nonStaticInitializer (field : String)
  | branchOutOfRange (distance : Int)
  | limitExceeded (limit : Limit)
  /-- Words were counted in 16 bits that do not suffice.  Generation breaks off without a report. -/
  | overflow

namespace Limit

def name : Limit → String
  | constantPool => "constant pool"
  | utf8Constant => "utf8 constant"
  | interfaceArguments => "invokeinterface arguments"
  | annotatedParameters => "annotated parameters"
  | annotations => "annotations"
  | localSlots => "local slots"
  | codeSize => "code size"
  | arrayConstant => "array constant"
  | interfaces => "interfaces"
  | fields => "fields"
  | methods => "methods"
  | fieldAttributes => "field attributes"
  | methodAttributes => "method attributes"
  | classAttributes => "class attributes"

end Limit

namespace Operation

def name : Operation → String
  | call method => "instance call to " ++ method ++ " without a receiver"
  | fieldAccess field => "instance field access " ++ field ++ " without a receiver"
  | value => "value"
  | arrayAccess => "array access"
  | arrayAllocation => "array allocation"
  | binary op => op.name
  | unary op => op.name

end Operation

namespace GenerateError

def message : GenerateError → String
  | missingReturn method => "method must return a value: " ++ method
  | incompatibleReturn method expected found =>
    "incompatible return in " ++ method ++ ": expected " ++ expected.display ++ ", found " ++
      found.display
  | illegalArrayDimension dimensions => "illegal array dimension: " ++ toString dimensions
  | noConversionPath source target =>
    "no conversion path from " ++ source.display ++ " to " ++ target.display
  | cannotUnbox type => "cannot unbox non-primitive " ++ type.display
  | resultTypeMismatch source target =>
    "call result of type " ++ source.display ++ " cannot be stored into " ++ target.display
  | duplicateLocal name => "local already allocated: " ++ name
  | unknownLocal name => "local read before assignment: " ++ name
  | unknownLabel label => "label not registered with the code block: " ++ toString label.toNat
  | unboundLabel label => "label jumped to but never placed: " ++ toString label.toNat
  | unsupportedOperation operation subject =>
    "unsupported operation " ++ operation.name ++ " on " ++ subject
  | unsupportedComparison op type =>
    "unsupported comparison " ++ op.name ++ " on " ++ type.display
  | nonStaticInitializer field => "array or enum initializer on non-static field " ++ field
  | branchOutOfRange distance =>
    "branch offset " ++ toString distance ++ " does not fit in 16 bits"
  | limitExceeded limit => limit.name ++ " limit exceeded"
  | overflow => "attempt to add with overflow"

end GenerateError

def Pool.Overflow.toError : Pool.Overflow → GenerateError
  | entries => .limitExceeded .constantPool
  | utf8Length => .limitExceeded .utf8Constant

abbrev Pooling := StateT Pool (Except GenerateError)

def pooled {α : Type} (action : Interning α) : Pooling α := fun p =>
  match action p with
  | (.ok a, p) => .ok (a, p)
  | (.error overflow, _) => .error overflow.toError

end Classwright
