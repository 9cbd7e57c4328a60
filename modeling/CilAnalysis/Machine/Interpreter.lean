import CilAnalysis.Machine.Execute

/-!
# Interpreters and runs

An interpreter executes single instructions, and a run one after the other.  An interpreter has the
operations it was given, one family at a time, and hooks that act around every instruction.  A hook
may decide the outcome beforehand; then neither the instruction nor the hooks after it run, but every
hook is shown the outcome.
-/

namespace CilAnalysis

/-- What acts around every instruction. -/
structure Hook where
  /-- May decide the outcome of an instruction. -/
  before (s : Setting) (i : Instruction) : StateM Machine (Option Outcome) := pure none
  /-- Is shown the outcome of an instruction. -/
  after (i : Instruction) (outcome : Outcome) : StateM Machine Unit := pure ()

namespace Hook

/-- Makes null of the objects that stand for tokens. -/
def nullToken : Hook where
  before s i :=
    if i.opcode = .ldtoken then some <$> (Step.thenNext (s.push .null)).run else pure none

/-- Stops at every instruction with an opcode. -/
def abortAt (opcode : Opcode) : Hook where
  before _ i := pure <|
    if i.opcode = opcode then some (.error (.aborted ("hook on " ++ opcode.mnemonic))) else none

/-- Writes down the height of the stack around every instruction. -/
def observe (observer : Nat) : Hook where
  before _ i := do
    modify fun m => { m with trace := .before observer i.offset m.stack.length :: m.trace }
    return none
  after i outcome := modify fun m =>
    { m with trace := .after observer i.offset m.stack.length outcome.isOk :: m.trace }

end Hook

/-- An interpreter of methods. -/
structure Interpreter where
  options : Options := {}
  environment : Environment := {}
  /-- The numbers of the families of operations it has, all of them by default. -/
  families : Option (List Nat) := none
  /-- The hooks in the order in which they act. -/
  hooks : List Hook := []

namespace Interpreter

def setting (p : Interpreter) (b : MethodBody) : Setting := .ofBody p.options p.environment b

/-- The state before the first instruction of a method. -/
def start (p : Interpreter) (b : MethodBody) : Machine := .start (p.setting b) b

def familiesOf (opcodes : List Opcode) : List Nat :=
  opcodes.map fun opcode => opcode.operation.family

def has (p : Interpreter) (o : Operation) : Bool :=
  match p.families with
  | none => true
  | some families => families.contains o.family

def missing (p : Interpreter) : List Opcode :=
  Opcode.all.filter fun opcode => !p.has opcode.operation

/-- The outcome that a hook decides beforehand, if one does. -/
def decidedBefore (s : Setting) (i : Instruction) : List Hook → StateM Machine (Option Outcome)
  | [] => return none
  | hook :: rest => do
    match ← hook.before s i with
    | some outcome => return some outcome
    | none => decidedBefore s i rest

/-- Execute an instruction without hooks. -/
def executeBare (p : Interpreter) (s : Setting) (i : Instruction) : Step Successor :=
  if p.has i.opcode.operation then s.execute i else throw (.unresolvedInstruction i.opcode)

/-- Execute an instruction. -/
def dispatch (p : Interpreter) (s : Setting) (i : Instruction) : Step Successor := ExceptT.mk do
  let outcome ←
    match ← decidedBefore s i p.hooks with
    | some outcome => pure outcome
    | none => (p.executeBare s i).run
  for hook in p.hooks do
    hook.after i outcome
  return outcome

end Interpreter

/-!
## Runs

A run executes a method from its first instruction and follows control until the method ends,
forks or faults, or until its steps are used up.  Exception handlers are not entered.
-/

/-- How a run ended. -/
inductive RunOutcome where
  /-- The method returned, with a value if it has one. -/
  | returned (value : Option Value)
  /-- The method threw. -/
  | threw (exception : Option Value)
  /-- It is not known where control goes from an offset. -/
  | forked (offset : Nat) (targets : List Nat)
  /-- The instruction at an offset faulted. -/
  | faulted (offset : Nat) (fault : Fault)
  /-- The end of a handler was reached. -/
  | handlerExit (offset : Nat) (successor : Successor)
  /-- The steps were used up before the instruction at an offset. -/
  | stepLimit (offset : Nat)
  deriving DecidableEq

namespace Interpreter

/-- Where a run goes on after an instruction, or how it ended. -/
def continuation (i : Instruction) (m : Machine) : Successor → Nat ⊕ RunOutcome
  | .fallThrough => .inl i.next
  | .branch target => .inl target
  | .fork targets => .inr (.forked i.offset targets)
  | .returns => .inr (.returned m.returned)
  | .throws => .inr (.threw m.exception)
  | .endFinally => .inr (.handlerExit i.offset .endFinally)
  | .endFilter accepts => .inr (.handlerExit i.offset (.endFilter accepts))

/-- Run from an offset for at most a number of steps. -/
def runFrom (p : Interpreter) (s : Setting) (b : MethodBody) :
    Nat → Nat → Machine → Except Error RunOutcome × Machine
  | 0, offset, m => (.ok (.stepLimit offset), m)
  | steps + 1, offset, m =>
    match b.instructionAt offset with
    | .error e => (.error e, m)
    | .ok i =>
      match (p.dispatch s i).run m with
      | (.error fault, m') => (.ok (.faulted offset fault), m')
      | (.ok successor, m') =>
        match continuation i m' successor with
        | .inl next => runFrom p s b steps next m'
        | .inr outcome => (.ok outcome, m')

/-- Run a method from a state. -/
def runWith (p : Interpreter) (b : MethodBody) (m : Machine) : Except Error RunOutcome × Machine :=
  match b.expand.instructions with
  | [] => (.error .emptyMethodBody, m)
  | first :: _ => p.runFrom (p.setting b) b.expand p.options.maxSteps first.offset m

/-- Run a method from its start. -/
def run (p : Interpreter) (b : MethodBody) : Except Error RunOutcome := (p.runWith b (p.start b)).1

end Interpreter

end CilAnalysis
