import CilAnalysis.Machine.Environment
import CilAnalysis.Memory.Heap
import CilAnalysis.Method.Body

/-!
# The state of an interpreted method

`Setting` holds what stays fixed while a method is interpreted and `Machine` what changes.  A
variable keeps its declared type, and what is stored in it is converted to that type.
-/

namespace CilAnalysis

/-- A variable with the type it was declared with. -/
structure Cell where
  type : TypeSig
  value : Value
  deriving DecidableEq

/-- The variables of a method. -/
structure Frame where
  locals : List Cell
  arguments : List Cell
  deriving DecidableEq

namespace Frame

def cell? (f : Frame) : Variable → Option Cell
  | .loc index => f.locals[index]?
  | .arg index => f.arguments[index]?

def set (f : Frame) (slot : Variable) (v : Value) : Frame :=
  let put := fun (cell : Cell) => { cell with value := v }
  match slot with
  | .loc index => { f with locals := f.locals.modify index put }
  | .arg index => { f with arguments := f.arguments.modify index put }

end Frame

/-- What an observer saw around the execution of an instruction: its own number, the offset of the
instruction and the height of the stack. -/
inductive Observation where
  | before (observer offset height : Nat)
  | after (observer offset height : Nat) (succeeded : Bool)
  deriving DecidableEq, Repr

/-- What stays fixed while a method is interpreted. -/
structure Setting where
  options : Options := {}
  environment : Environment := {}
  /-- Whether a return takes a value from the stack. -/
  returnsValue : Bool := false
  /-- Whether locals and allocated blocks start as zeros. -/
  initLocals : Bool := true

namespace Setting

def width (s : Setting) : PointerWidth := s.options.width

def ofBody (options : Options) (environment : Environment) (b : MethodBody) : Setting where
  options
  environment
  returnsValue := b.returnsValue
  initLocals := options.initLocals.getD b.initLocals

end Setting

/-- What changes while a method is interpreted. -/
structure Machine where
  /-- The values on the stack, the top first. -/
  stack : List Value := []
  frame : Frame
  heap : Heap := .empty
  /-- The static fields touched so far, by the numbers of their tokens. -/
  statics : SortedMap Nat Value := .empty
  /-- The value of the last return. -/
  returned : Option Value := none
  /-- The object of the last throw. -/
  exception : Option Value := none
  /-- The questions put to the environment, the last one first. -/
  journal : List Question := []
  /-- What observers saw, the last sight first. -/
  trace : List Observation := []
  deriving DecidableEq

namespace Machine

/-- The state before the first instruction of a method. -/
def start (s : Setting) (b : MethodBody) : Machine where
  frame.locals := b.locals.map fun type =>
    ⟨type, if s.initLocals then .defaultOf s.width type else .unknownOf s.width type⟩
  frame.arguments := b.parameters.map fun type => ⟨type, .unknownOf s.width type⟩

/-- The stack from its bottom. -/
def values (m : Machine) : List Value := m.stack.reverse

def stackText (m : Machine) : String := "[" ++ Text.commaSeparated (m.values.map Value.text) ++ "]"

end Machine

end CilAnalysis
