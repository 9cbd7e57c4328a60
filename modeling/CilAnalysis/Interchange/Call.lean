import CilAnalysis.Interchange.Tree

/-!
# Calls

A function whose arguments can be read from trees and whose result can be written as a tree is
called on a list of trees.  Arguments left out are null.  A list of calls on a state answers each
in turn; one that is refused is answered by its reason, and the rest go on.
-/

namespace CilAnalysis.Interchange

/-- A computation on a state; the state reached before a failure is kept. -/
abbrev Session (σ : Type) := ExceptT Failure (StateM σ)

def lift {σ α : Type} (r : Reading α) : Session σ α := ExceptT.mk (pure r)

/-- What can be called on a list of trees. -/
class Callable (σ : Type) (α : Type) where
  call : α → List Tree → Session σ Tree

export Callable (call)

/-- The answer of a call, all of whose arguments were used. -/
def finish {σ α : Type} [Encode α] (a : α) : List Tree → Session σ Tree
  | [] => return encode a
  | _ => lift malformed

instance (priority := low) {σ α : Type} [Encode α] : Callable σ α := ⟨finish⟩

instance {σ α : Type} [Encode α] : Callable σ (Except Error α) :=
  ⟨fun r rest => do finish (← lift (refusing r)) rest⟩

instance {σ α : Type} [Encode α] : Callable σ (Reading α) :=
  ⟨fun r rest => do finish (← lift r) rest⟩

instance {σ α : Type} [Encode α] : Callable σ (Session σ α) :=
  ⟨fun m rest => do finish (← m) rest⟩

def ofEdit {σ α : Type} (x : Edit σ α) : Session σ α := ExceptT.mk (refusing <$> x.run)

instance {σ α : Type} [Encode α] : Callable σ (Edit σ α) :=
  ⟨fun x rest => do finish (← ofEdit x) rest⟩

instance {σ α : Type} {β : α → Type} [Decode α] [∀ a, Callable σ (β a)] :
    Callable σ ((a : α) → β a) where
  call f args :=
    match args with
    | [] => do call (f (← lift (decode .null))) []
    | a :: rest => do call (f (← lift (decode a))) rest

abbrev Command (σ : Type) := String × (List Tree → Session σ Tree)

def command {σ α : Type} [Callable σ α] (name : String) (f : α) : Command σ := (name, call f)

def dispatch {σ : Type} (commands : List (Command σ)) : Tree → Session σ Tree
  | .list (.text name :: args) =>
    match commands.lookup name with
    | some run => run args
    | none => lift malformed
  | _ => lift malformed

/-- Answer every request in turn, giving each outcome the form `present` asks for. -/
def converse {σ : Type} (commands : List (Command σ)) (present : σ → Reading Tree → Tree) :
    List Tree → σ → Reading (List Tree × σ)
  | [], state => .ok ([], state)
  | request :: rest, state =>
    match (dispatch commands request).run state with
    | (.error .malformed, _) => malformed
    | (outcome, state') => do
      let (answers, final) ← converse commands present rest state'
      return (present state' outcome :: answers, final)

def answers {σ : Type} (commands : List (Command σ)) (requests : List Tree) (state : σ) :
    Reading (List Tree) := do
  return (← converse commands (fun _ outcome => encode outcome) requests state).1

end CilAnalysis.Interchange
