import CilAnalysis.Interchange.Call
import CilAnalysis.Interchange.Code
import CilAnalysis.Interchange.Storage
import CilAnalysis.Slice.Replay

/-!
# Executions for interchange
-/

namespace CilAnalysis.Interchange

instance : Encode Successor where
  encode
    | .fallThrough => .text "FallThrough"
    | .branch target => .record [("Branch", encode target)]
    | .fork targets => .record [("Fork", encode targets)]
    | .returns => .text "Return"
    | .throws => .text "Throw"
    | .endFinally => .text "EndFinally"
    | .endFilter accepts => .record [("EndFilter", encode accepts)]

instance : Decode Successor where
  decode
    | .text "FallThrough" => .ok .fallThrough
    | .record [("Branch", target)] => .branch <$> decode target
    | .record [("Fork", targets)] => .fork <$> decode targets
    | .text "Return" => .ok .returns
    | .text "Throw" => .ok .throws
    | .text "EndFinally" => .ok .endFinally
    | .record [("EndFilter", accepts)] => .endFilter <$> decode accepts
    | _ => malformed

instance : Encode Options where
  encode o := .record [("is_32bit", encode o.width), ("max_stack_depth", encode o.maxStackDepth),
    ("max_steps", encode o.maxSteps), ("max_allocation", encode o.maxAllocation),
    ("init_locals", encode o.initLocals)]

instance : Decode Options where
  decode t := do
    let standard : Options := {}
    return ⟨← t.readD "is_32bit" standard.width,
      ← t.readD "max_stack_depth" standard.maxStackDepth,
      ← t.readD "max_steps" standard.maxSteps, ← t.readD "max_allocation" standard.maxAllocation,
      ← t.read "init_locals"⟩

instance : Decode Devirtualization where
  decode
    | .text "UnknownReceiver" => .ok .unknownReceiver
    | .record [("Method", target)] => .method <$> decode target
    | .record [("Signature", target)] => .signature <$> decode target
    | .record [("Failure", fault)] => .failure <$> decode fault
    | _ => malformed

/-- The outcome of a call: a value, no value, or a fault. -/
instance : Decode (Except Fault (Option Value)) where
  decode
    | .record [("fault", fault)] => .error <$> decode fault
    | t => .ok <$> decode t

/-- An environment that gives some answers and, for the rest, those of one that knows nothing. -/
instance : Decode Environment where
  decode t := do
    let ignorant : Environment := {}
    let targets : List (Token × Devirtualization) ← t.readD "resolve" []
    let results : List (Token × Except Fault (Option Value)) ← t.readD "invoke" []
    let statics : List (Token × Value) ← t.readD "statics" []
    let verdict : Option Ternary ← t.read "instance_of"
    return {
      resolve receiver method :=
        (targets.lookup method.token).getD (ignorant.resolve receiver method)
      invoke width method arguments :=
        (results.lookup method.token).getD (ignorant.invoke width method arguments)
      initialStatic width field :=
        (statics.lookup field.token).getD (ignorant.initialStatic width field)
      isInstance type target := verdict.getD (ignorant.isInstance type target) }

instance : Encode Question where
  encode
    | .resolve receiver method =>
      encode ("resolve", receiver.map TypeSig.text, method.text)
    | .invoke method arguments => encode ("invoke", method.text, arguments)
    | .initialStatic field => encode ("static", field.text)
    | .isInstance type target => encode ("instance", type.text, target.text)

instance : Encode Observation where
  encode
    | .before observer offset height => encode (observer, "before", offset, height)
    | .after observer offset height succeeded =>
      encode (observer, "after", offset, height, succeeded)

def decodeHook (place : Nat) : Tree → Reading Hook
  | .text "null_token" => .ok .nullToken
  | .text "record" => .ok (.observe place)
  | .record [("abort", opcode)] => .abortAt <$> decode opcode
  | _ => malformed

instance : Decode Interpreter where
  decode t := do
    let opcodes : Option (List Opcode) ← t.read "dispatcher"
    let hooks : List Tree ← t.readD "hooks" []
    return {
      options := ← t.readD "options" {}
      environment := ← decode (t.get "env")
      families := opcodes.map Interpreter.familiesOf
      hooks := ← hooks.zipIdx.mapM fun p => decodeHook p.2 p.1 }

instance : Encode RunOutcome where
  encode
    | .returned v => .record [("Returned", encode v)]
    | .threw v => .record [("Threw", encode v)]
    | .forked offset targets => .record [("Forked", encode (offset, targets))]
    | .faulted offset fault => .record [("Faulted", encode (offset, fault))]
    | .handlerExit offset successor => .record [("HandlerExit", encode (offset, successor))]
    | .stepLimit offset => .record [("StepLimit", encode offset)]

instance : Encode ReplayError where
  encode
    | .refused e => encode e
    | e@(.faulted ..) =>
      .record [("error", .text "Dispatch"), ("message", encode e.message)]

instance : Encode Argument where
  encode
    | .int32 n => .record [("Int32", .number n.toInt)]
    | .int64 n => .record [("Int64", encode n)]
    | .float x => .record [("Float", encode x)]
    | .string text => .record [("String", encode text)]
    | .null => .text "Null"
    | .unknown => .text "Unknown"

/-- A step in a session; its fault is the session's. -/
def ofStep {α : Type} (step : Step α) : Session Machine α :=
  ExceptT.mk do return (← step.run).mapError Failure.faulted

instance {α : Type} [Encode α] : Callable Machine (Step α) :=
  ⟨fun step rest => do finish (← ofStep step) rest⟩

/-- An object of the heap with the values of some of its fields. -/
def objectWithFields (width : PointerWidth) (fields : List FieldRef) : HeapObject → Tree
  | .object o =>
    .list (.text "Object" :: encode o.type.text ::
      fields.map fun x => encode (o.field width x.token x.fieldType))
  | object => encode object

/-- The state of a method, with the values of some fields of each object. -/
def machineRecord (width : PointerWidth) (fields : List FieldRef) (m : Machine) : Tree :=
  .record [("args", encode (m.frame.arguments.map Cell.value)), ("exc", encode m.exception),
    ("heap", .list (m.heap.objects.toList.map (objectWithFields width fields))),
    ("locals", encode (m.frame.locals.map Cell.value)), ("log", encode m.journal.reverse),
    ("ret", encode m.returned), ("stack", encode m.values), ("trace", encode m.trace.reverse)]

/-- Read values one after another and put each on the stack. -/
def pushAll (s : Setting) (values : List Tree) : Session Machine Unit :=
  values.forM fun v => do ofStep (s.push (← lift (decode v)))

/-- Read pairs of a number and a value one after another and store each value in the argument with
that number. -/
def setArguments (s : Setting) (arguments : List Tree) : Session Machine Unit :=
  arguments.forM fun pair => do
    let (index, v) ← lift (decode pair)
    ofStep (s.setVariable (.arg index) v)

/-- The state before the first instruction, with the heap and the arguments that are given. -/
def preparedMachine (p : Interpreter) (b : MethodBody) (heap : List HeapObject)
    (arguments : List Tree) : Reading Machine := do
  let m := { p.start b with heap := ⟨heap.toArray⟩ }
  let (outcome, m') := (setArguments (p.setting b) arguments).run m
  outcome
  return m'

end CilAnalysis.Interchange
