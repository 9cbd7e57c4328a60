import CilAnalysis.Metadata.TypeSig

/-!
# Methods and fields

References to the members of types.  As with types, the token is the identity of a member.
-/

namespace CilAnalysis

/-- The calling signature of a method or of an indirect call. -/
structure MethodSignature where
  /-- Whether the call passes an object before the parameters. -/
  hasThis : Bool
  parameters : List TypeSig
  returnType : TypeSig
  deriving DecidableEq, Repr

namespace MethodSignature

def returnsValue (s : MethodSignature) : Bool := !s.returnType.isVoid

/-- The number of values a call takes, the object included. -/
def argumentCount (s : MethodSignature) : Nat := s.parameters.length + s.hasThis.toNat

/-- Whether two signatures are the same, types being compared by their tokens. -/
def same (s t : MethodSignature) : Bool :=
  s.hasThis == t.hasThis && s.parameters.length == t.parameters.length &&
    (s.parameters.zip t.parameters).all (fun p => p.1.same p.2) && s.returnType.same t.returnType

end MethodSignature

/-- A method definition or reference. -/
structure MethodRef where
  token : Token
  declaringType : TypeRef
  name : String
  signature : MethodSignature
  isVirtual : Bool
  deriving DecidableEq, Repr

namespace MethodRef

def same (m n : MethodRef) : Bool := m.token == n.token

def isConstructor (m : MethodRef) : Bool := m.name == ".ctor" || m.name == ".cctor"

def text (m : MethodRef) : String := m.declaringType.fullName ++ "::" ++ m.name

end MethodRef

/-- A field definition or reference. -/
structure FieldRef where
  token : Token
  declaringType : TypeRef
  name : String
  fieldType : TypeSig
  isStatic : Bool
  deriving DecidableEq, Repr

namespace FieldRef

def same (x y : FieldRef) : Bool := x.token == y.token

def order (x y : FieldRef) : Ordering := compare x.token.key y.token.key

def text (x : FieldRef) : String := x.declaringType.fullName ++ "::" ++ x.name

end FieldRef

/-- What a token may denote. -/
inductive Member where
  | type (type : TypeRef)
  | method (method : MethodRef)
  | field (field : FieldRef)
  deriving DecidableEq, Repr

namespace Member

def token : Member → Token
  | type t => t.token
  | method m => m.token
  | field x => x.token

def same : Member → Member → Bool
  | type t, type u => t.same u
  | method m, method n => m.same n
  | field x, field y => x.same y
  | _, _ => false

def text : Member → String
  | type t => t.fullName
  | method m => m.text
  | field x => x.text

end Member

end CilAnalysis
