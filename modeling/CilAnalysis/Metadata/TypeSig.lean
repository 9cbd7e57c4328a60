import CilAnalysis.KnownBits.Basic

/-!
# Types in signatures

Types as method signatures name them.  A class or value type is a reference to a metadata row, and
the row's token is its identity: two references with one token are the same type, whatever names
they carry.
-/

namespace CilAnalysis

/-- How wide pointers and native integers are. -/
inductive PointerWidth where
  | bits32
  | bits64
  deriving DecidableEq, Repr

namespace PointerWidth

def bits : PointerWidth → Nat
  | bits32 => 32
  | bits64 => 64

def bytes : PointerWidth → Nat
  | bits32 => 4
  | bits64 => 8

end PointerWidth

/-- A metadata token: a table in the high byte and a row in the other three. -/
structure Token where
  value : UInt32
  deriving DecidableEq, Repr

namespace Token

def table (t : Token) : Nat := t.value.toNat / 0x1000000

def row (t : Token) : Nat := t.value.toNat % 0x1000000

def key (t : Token) : Nat := t.value.toNat

def text (t : Token) : String := "0x" ++ Text.upperHexPadded 8 t.key

end Token

/-- A type definition or reference. -/
structure TypeRef where
  token : Token
  namespaceName : String
  name : String
  isValueType : Bool
  deriving DecidableEq, Repr

namespace TypeRef

/-- The name of a type after that of its namespace, if it has one. -/
def fullName (t : TypeRef) : String :=
  if t.namespaceName.isEmpty then t.name else t.namespaceName ++ "." ++ t.name

def same (t u : TypeRef) : Bool := t.token == u.token

end TypeRef

/-- A type as it appears in a signature. -/
inductive TypeSig where
  | void
  | boolean
  | char
  | int8
  | uint8
  | int16
  | uint16
  | int32
  | uint32
  | int64
  | uint64
  | float32
  | float64
  | nativeInt
  | nativeUInt
  | string
  | object
  | typedReference
  | classType (type : TypeRef)
  | valueType (type : TypeRef)
  | array (element : TypeSig)
  | pointer (element : TypeSig)
  | byRef (element : TypeSig)
  /-- A generic parameter of the enclosing type or method. -/
  | generic (index : Nat)
  deriving DecidableEq, Repr

/-- How an integer type is kept on the evaluation stack. -/
inductive IntegerShape where
  /-- In 32 bits, extended from fewer. -/
  | narrow (bits : Nat) (signedness : Signedness)
  /-- In 32 bits. -/
  | word
  /-- In 64 bits. -/
  | long
  /-- In as many bits as a pointer. -/
  | native
  deriving DecidableEq, Repr

namespace TypeSig

def same : TypeSig → TypeSig → Bool
  | classType t, classType u => t.same u
  | valueType t, valueType u => t.same u
  | array t, array u => same t u
  | pointer t, pointer u => same t u
  | byRef t, byRef u => same t u
  | t, u => t == u

/-- How values of an integer type are kept on the stack; other types have no answer. -/
def integerShape? : TypeSig → Option IntegerShape
  | boolean | uint8 => some (.narrow 8 .unsigned)
  | int8 => some (.narrow 8 .signed)
  | char | uint16 => some (.narrow 16 .unsigned)
  | int16 => some (.narrow 16 .signed)
  | int32 | uint32 => some .word
  | int64 | uint64 => some .long
  | nativeInt | nativeUInt => some .native
  | _ => none

def isVoid (t : TypeSig) : Bool := t == void

/-- Whether values of a type are not references. -/
def isValueType : TypeSig → Bool
  | void | string | object | classType _ | array _ | generic _ => false
  | _ => true

/-- The number of bytes of a value, where it does not depend on the layout of a type. -/
def size? (width : PointerWidth) : TypeSig → Option Nat
  | boolean | int8 | uint8 => some 1
  | char | int16 | uint16 => some 2
  | int32 | uint32 | float32 => some 4
  | int64 | uint64 | float64 => some 8
  | nativeInt | nativeUInt | string | object | classType _ | array _ | pointer _ | byRef _ =>
    some width.bytes
  | typedReference => some (2 * width.bytes)
  | void | valueType _ | generic _ => none

def text : TypeSig → String
  | void => "void"
  | boolean => "bool"
  | char => "char"
  | int8 => "int8"
  | uint8 => "uint8"
  | int16 => "int16"
  | uint16 => "uint16"
  | int32 => "int32"
  | uint32 => "uint32"
  | int64 => "int64"
  | uint64 => "uint64"
  | float32 => "float32"
  | float64 => "float64"
  | nativeInt => "native int"
  | nativeUInt => "native uint"
  | string => "string"
  | object => "object"
  | typedReference => "typedref"
  | classType t => "class " ++ t.fullName
  | valueType t => "valuetype " ++ t.fullName
  | array element => element.text ++ "[]"
  | pointer element => element.text ++ "*"
  | byRef element => element.text ++ "&"
  | generic index => s!"!{index}"

end TypeSig

end CilAnalysis
