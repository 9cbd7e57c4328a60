/-!
# Three-valued truth

The answer to a question about a value that may be only partly known: it holds, it fails, or the
known part does not decide it.  The connectives are those of Kleene's strong logic: a connective is
undecided only when its operands leave both answers open.
-/

namespace CilAnalysis

/-- A truth value that may be undecided. -/
inductive Ternary where
  | false
  | true
  | unknown
  deriving DecidableEq, Repr

namespace Ternary

/-- An answer nobody has given is undecided. -/
instance : Inhabited Ternary := ⟨unknown⟩

/-- The decided truth value of a proposition that has been tested. -/
def ofBool : Bool → Ternary
  | Bool.true => true
  | Bool.false => false

/-- The truth value that is decided exactly when the test has been made. -/
def ofOption : Option Bool → Ternary
  | some b => ofBool b
  | none => unknown

/-- The Boolean this value has been decided to be. -/
def toOption : Ternary → Option Bool
  | true => some Bool.true
  | false => some Bool.false
  | unknown => none

def isKnown (a : Ternary) : Bool := a != unknown

def isTrue (a : Ternary) : Bool := a == true

def isFalse (a : Ternary) : Bool := a == false

def isUnknown (a : Ternary) : Bool := a == unknown

def not : Ternary → Ternary
  | true => false
  | false => true
  | unknown => unknown

/-- Conjunction: one failing operand decides it. -/
def and : Ternary → Ternary → Ternary
  | false, _ => false
  | _, false => false
  | true, true => true
  | _, _ => unknown

/-- Disjunction: one holding operand decides it. -/
def or : Ternary → Ternary → Ternary
  | true, _ => true
  | _, true => true
  | false, false => false
  | _, _ => unknown

/-- Exclusive disjunction: decided only when both operands are. -/
def xor (a b : Ternary) : Ternary :=
  match a.toOption, b.toOption with
  | some x, some y => ofBool (x ^^ y)
  | _, _ => unknown

def implies (a b : Ternary) : Ternary := a.not.or b

def text : Ternary → String
  | true => "true"
  | false => "false"
  | unknown => "unknown"

@[simp] theorem ofOption_toOption (a : Ternary) : ofOption a.toOption = a := by
  cases a <;> rfl

@[simp] theorem toOption_ofBool (b : Bool) : (ofBool b).toOption = some b := by
  cases b <;> rfl

@[simp] theorem not_not (a : Ternary) : a.not.not = a := by
  cases a <;> rfl

/-- Negation turns conjunction into disjunction. -/
theorem not_and (a b : Ternary) : (a.and b).not = a.not.or b.not := by
  cases a <;> cases b <;> rfl

end Ternary

end CilAnalysis
