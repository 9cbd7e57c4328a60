import CilAnalysis.Interchange.Metadata
import CilAnalysis.Method.Body

/-!
# Code for interchange

An opcode is given by its mnemonic, an instruction by its offset, opcode and operand.  The full form
of a method body names everything.
-/

namespace CilAnalysis.Interchange

instance : Encode Opcode := ⟨fun o => .text o.mnemonic⟩

instance : Decode Opcode where
  decode t := do
    match Opcode.ofMnemonic? (← decode t) with
    | some o => return o
    | none => malformed

/-- The name of an opcode: the words of its mnemonic, each with a capital. -/
def opcodeName (o : Opcode) : String :=
  if o = .tailcall then "Tailcall"
  else "_".intercalate (((o.mnemonic.splitOn ".").filter (· ≠ "")).map String.capitalize)

def operandKindName : OperandKind → String
  | .none => "None"
  | .shortTarget => "ShortBrTarget"
  | .target => "BrTarget"
  | .shortInt => "ShortI"
  | .int32 => "I"
  | .int64 => "I8"
  | .float32 => "ShortR"
  | .float64 => "R"
  | .shortSlot => "ShortVariable"
  | .slot => "Variable"
  | .method => "Method"
  | .field => "Field"
  | .type => "Type"
  | .signature => "Sig"
  | .string => "String"
  | .token => "Tok"
  | .switch => "Switch"

instance : Encode FlowControl where
  encode
    | .next => .text "Next"
    | .branch => .text "Branch"
    | .conditionalBranch => .text "ConditionalBranch"
    | .returns => .text "Return"
    | .throws => .text "Throw"
    | .call => .text "Call"
    | .modifier => .text "Meta"
    | .breakpoint => .text "Break"

instance : Encode StackPop where
  encode
    | .fixed count => .text s!"Pop{count}"
    | .byContext => .text "VarPop"
    | .all => .text "PopAll"

instance : Encode StackPush where
  encode
    | .fixed count => .text s!"Push{count}"
    | .bySignature => .text "VarPush"

def opcodeRecord (o : Opcode) : Tree :=
  .record [("code", encode o.code), ("ends_block", encode o.flow.endsBlock),
    ("falls_through", encode o.flow.fallsThrough), ("flow", encode o.flow),
    ("long", encode o.longForm?), ("mnemonic", encode o.mnemonic),
    ("operand", encode (operandKindName o.operandKind)),
    ("operand_size", encode o.operandKind.size), ("pop", encode o.stackPop),
    ("pops", encode o.stackPop.count?), ("push", encode o.stackPush),
    ("pushes", encode o.stackPush.count?), ("size", encode o.size),
    ("variant", encode (opcodeName o))]

instance : Encode Variable where
  encode
    | .loc n => .record [("Local", encode n)]
    | .arg n => .record [("Argument", encode n)]

instance : Decode Variable where
  decode
    | .record [("Local", n)] => .loc <$> decode n
    | .record [("Argument", n)] => .arg <$> decode n
    | _ => malformed

instance : Encode Operand where
  encode
    | .none => .null
    | .int8 n => .record [("Int8", encode n.toInt)]
    | .int32 n => .record [("Int32", encode n.toInt)]
    | .int64 n => .record [("Int64", encode n.toInt)]
    | .float32 x => .record [("Float32", encode x)]
    | .float64 x => .record [("Float64", encode x)]
    | .target n => .record [("BranchTarget", encode n)]
    | .switch ns => .record [("Switch", encode ns)]
    | .slot v => encode v
    | .method m => .record [("Method", encode m)]
    | .field x => .record [("Field", encode x)]
    | .type t => .record [("Type", encode t)]
    | .signature s => .record [("Signature", encode s)]
    | .string s => .record [("String", encode s)]
    | .member m => .record [("Member", encode m)]

instance : Decode Operand where
  decode
    | .null => .ok .none
    | .record [("Int8", n)] => do return .int8 (Int8.ofInt (← decode n))
    | .record [("Int32", n)] => do return .int32 (Int32.ofInt (← decode n))
    | .record [("Int64", n)] => do return .int64 (Int64.ofInt (← decode n))
    | .record [("Float32", x)] => .float32 <$> decode x
    | .record [("Float64", x)] => .float64 <$> decode x
    | .record [("BranchTarget", n)] => .target <$> decode n
    | .record [("Switch", ns)] => .switch <$> decode ns
    | .record [("Local", n)] => do return .slot (.loc (← decode n))
    | .record [("Argument", n)] => do return .slot (.arg (← decode n))
    | .record [("Method", m)] => .method <$> decode m
    | .record [("Field", x)] => .field <$> decode x
    | .record [("Type", t)] => .type <$> decode t
    | .record [("Signature", s)] => .signature <$> decode s
    | .record [("String", s)] => .string <$> decode s
    | .record [("Member", m)] => .member <$> decode m
    | _ => malformed

instance : Encode Instruction where
  encode i := encode (i.offset, i.opcode, i.operand, i.size)

instance : Decode Instruction where
  decode
    | .list [offset, opcode] => do return .encoded (← decode offset) (← decode opcode) .none
    | .list [offset, opcode, operand] => do
      return .encoded (← decode offset) (← decode opcode) (← decode operand)
    | _ => malformed

def slotTexts (slots : List Variable) : Tree := encode (slots.map Variable.text)

def instructionFields (i : Instruction) (returnsValue : Bool) : List (String × Tree) :=
  [("ins", encode i), ("display", encode i.text), ("next", encode i.next),
    ("targets", encode i.targets), ("variable", encode (i.slot?.map Variable.text)),
    ("constant", encode (i.constant?.map Int32.toInt)), ("well_formed", encode i.isWellFormed),
    ("pop", encode (i.popCount returnsValue)), ("push", encode i.pushCount),
    ("clears", encode i.clearsStack), ("read", slotTexts i.variablesRead),
    ("written", slotTexts i.variablesWritten), ("flow", encode i.opcode.flow),
    ("method", encode (i.method?.map MethodRef.text)),
    ("field", encode (i.field?.map FieldRef.text)), ("type", encode (i.type?.map TypeSig.text)),
    ("params", encode (i.signature?.map fun s => s.parameters.length)),
    ("expanded", encode i.expand), ("expanded_display", encode i.expand.text)]

instance : Encode ClauseKind where
  encode
    | .catches t => .record [("Catch", encode t)]
    | .filters start => .record [("Filter", .record [("filter_start", encode start)])]
    | .finalizes => .text "Finally"
    | .faults => .text "Fault"

instance : Decode ClauseKind where
  decode
    | .text "Finally" => .ok .finalizes
    | .text "Fault" => .ok .faults
    | .record [("Catch", t)] => .catches <$> decode t
    | .record [("Filter", f)] => .filters <$> f.read "filter_start"
    | _ => malformed

instance : Encode Clause where
  encode c := .record [("kind", encode c.kind), ("try_start", encode c.tryStart),
    ("try_end", encode c.tryEnd), ("handler_start", encode c.handlerStart),
    ("handler_end", encode c.handlerEnd)]

instance : Decode Clause where
  decode t := do
    return ⟨← t.read "kind", ← t.read "try_start", ← t.read "try_end", ← t.read "handler_start",
      ← t.read "handler_end"⟩

instance : Decode MethodBody where
  decode t := do
    return ⟨← t.readD "ins" [], ← t.readD "handlers" [], ← t.readD "locals" [],
      ← t.readD "params" [], ← t.readD "ret" .void, ← t.readD "init_locals" true⟩

/-- A floating-point number by its value; one that is not finite has none. -/
def realForm {f : BinaryFormat} (x : Binary f) : Tree :=
  if x.isFinite then .real (x.convert .double) else .null

def operandForm : Operand → Tree
  | .none => .text "None"
  | .float32 x => .record [("Float32", realForm x)]
  | .float64 x => .record [("Float64", realForm x)]
  | operand => encode operand

def instructionForm (i : Instruction) : Tree :=
  .record [("offset", encode i.offset), ("opcode", encode (opcodeName i.opcode)),
    ("operand", operandForm i.operand), ("size", encode i.size)]

def bodyForm (b : MethodBody) : Tree :=
  .record [("exception_handlers", encode b.clauses), ("init_locals", encode b.initLocals),
    ("instructions", encode (b.instructions.map instructionForm)), ("locals", encode b.locals),
    ("parameters", encode b.parameters), ("return_type", encode b.returnType)]

def bodyRecord (b : MethodBody) : Tree :=
  .record [("handlers", encode (b.clauses.map fun c =>
      (c.text, c.entry, c.filterStart?, c.kind.receivesException))),
    ("init_locals", encode b.initLocals), ("locals", encode (b.locals.map TypeSig.text)),
    ("params", encode (b.parameters.map TypeSig.text)), ("ret", encode b.returnType.text),
    ("returns", encode b.returnsValue)]

end CilAnalysis.Interchange
