import Classwright.Bytes.Word

/-!
# Readers

A reader takes a value off the front of a byte list and returns it with the bytes that follow.
A tagged value that cannot be read is reported by the number of bytes that were left at its
start; when tagged values are nested, the outermost one is reported.
-/

namespace Classwright

/-- Why a reader stopped. -/
inductive Fault where
  /-- The input ended inside an untagged value. -/
  | truncated
  /-- No alternative of a tagged value fits; `left` bytes were left at its start. -/
  | unrecognized (left : Nat)
  /-- The file does not start with the class-file magic number. -/
  | wrongMagic
  deriving DecidableEq

/-- Why a byte string was refused, with the position counted from its start. -/
inductive DecodeError where
  | truncated
  | unrecognized (offset : Nat)
  | wrongMagic
  deriving DecidableEq

def Reader (α : Type) : Type :=
  List UInt8 → Except Fault (α × List UInt8)

namespace Reader

variable {α β : Type}

instance : Monad Reader where
  pure a := fun bytes => .ok (a, bytes)
  bind r f := fun bytes =>
    match r bytes with
    | .error e => .error e
    | .ok (a, rest) => f a rest

/-- The reader that refuses every input. -/
def fail (fault : Fault) : Reader α := fun _ => .error fault

def u8 : Reader UInt8
  | b :: rest => .ok (b, rest)
  | [] => .error .truncated

def u16 : Reader UInt16
  | a :: b :: rest => .ok (Bytes.word16 a b, rest)
  | _ => .error .truncated

def u32 : Reader UInt32
  | a :: b :: c :: d :: rest => .ok (Bytes.word32 a b c d, rest)
  | _ => .error .truncated

def u64 : Reader UInt64 := do
  let hi ← u32
  let lo ← u32
  return Bytes.word64 hi lo

def bytes (n : Nat) : Reader (List UInt8) := fun input =>
  match input.splitAt n with
  | (front, rest) => if front.length = n then .ok (front, rest) else .error .truncated

/-- The values read so far, newest first, and `n` more. -/
def timesFrom (r : Reader α) : Nat → List α → Reader (List α)
  | 0, acc => fun input => .ok (acc.reverse, input)
  | n + 1, acc => fun input =>
    match r input with
    | .error e => .error e
    | .ok (a, rest) => timesFrom r n (a :: acc) rest

def times (n : Nat) (r : Reader α) : Reader (List α) := timesFrom r n []

/-- A list preceded by its length in 16 bits. -/
def counted16 (r : Reader α) : Reader (List α) := do
  let n ← u16
  times n.toNat r

/-- Reports any failure inside `r` as a failure of the tagged value that starts here. -/
def tagged (r : Reader α) : Reader α := fun input =>
  match r input with
  | .ok result => .ok result
  | .error _ => .error (.unrecognized input.length)

/-- The first reader's value, or the second's on the same input when the first fails. -/
def orElse (r s : Reader α) : Reader α := fun input =>
  match r input with
  | .ok result => .ok result
  | .error _ => s input

/-- The values read so far, newest first, and those in the input, at most `fuel` of them. -/
def toEndFrom (r : Reader α) : Nat → List α → List UInt8 → Except Fault (List α)
  | _, acc, [] => .ok acc.reverse
  | 0, _, _ :: _ => .error .truncated
  | fuel + 1, acc, b :: input =>
    match r (b :: input) with
    | .error e => .error e
    | .ok (a, rest) => toEndFrom r fuel (a :: acc) rest

/-- Values until the input ends, by a reader that takes at least one byte each time. -/
def toEnd (r : Reader α) (input : List UInt8) : Except Fault (List α) :=
  toEndFrom r input.length [] input

end Reader

/-- The fault with its position counted from the start of an input of `total` bytes. -/
def Fault.atOffset (total : Nat) : Fault → DecodeError
  | .truncated => .truncated
  | .unrecognized left => .unrecognized (total - left)
  | .wrongMagic => .wrongMagic

/-- Reads one value off the front of `input` and ignores what follows. -/
def Reader.run {α : Type} (r : Reader α) (input : List UInt8) : Except DecodeError α :=
  match r input with
  | .ok (a, _) => .ok a
  | .error fault => .error (fault.atOffset input.length)

def Reader.runToEnd {α : Type} (r : Reader α) (input : List UInt8) :
    Except DecodeError (List α) :=
  match r.toEnd input with
  | .ok values => .ok values
  | .error fault => .error (fault.atOffset input.length)

end Classwright
