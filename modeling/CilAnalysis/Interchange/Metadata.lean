import CilAnalysis.Interchange.Number

/-!
# Metadata for interchange

A type without parameters is written as its name, any other as a record with one field that is named
for what it is.
-/

namespace CilAnalysis.Interchange

instance : Encode Token := ⟨fun t => encode t.key⟩

instance : Decode Token where
  decode t := do return ⟨UInt32.ofNat (← decode t)⟩

instance : Encode TypeRef where
  encode t := .record [("token", encode t.token), ("namespace", encode t.namespaceName),
    ("name", encode t.name), ("is_value_type", encode t.isValueType)]

instance : Decode TypeRef where
  decode t := do
    return ⟨← t.read "token", ← t.read "namespace", ← t.read "name", ← t.read "is_value_type"⟩

def encodeType : TypeSig → Tree
  | .void => .text "Void"
  | .boolean => .text "Boolean"
  | .char => .text "Char"
  | .int8 => .text "I1"
  | .uint8 => .text "U1"
  | .int16 => .text "I2"
  | .uint16 => .text "U2"
  | .int32 => .text "I4"
  | .uint32 => .text "U4"
  | .int64 => .text "I8"
  | .uint64 => .text "U8"
  | .float32 => .text "R4"
  | .float64 => .text "R8"
  | .nativeInt => .text "I"
  | .nativeUInt => .text "U"
  | .string => .text "String"
  | .object => .text "Object"
  | .typedReference => .text "TypedReference"
  | .classType t => .record [("Class", encode t)]
  | .valueType t => .record [("ValueType", encode t)]
  | .array t => .record [("SzArray", encodeType t)]
  | .pointer t => .record [("Pointer", encodeType t)]
  | .byRef t => .record [("ByRef", encodeType t)]
  | .generic n => .record [("Generic", encode n)]

def decodeType : Tree → Reading TypeSig
  | .text "Void" => .ok .void
  | .text "Boolean" => .ok .boolean
  | .text "Char" => .ok .char
  | .text "I1" => .ok .int8
  | .text "U1" => .ok .uint8
  | .text "I2" => .ok .int16
  | .text "U2" => .ok .uint16
  | .text "I4" => .ok .int32
  | .text "U4" => .ok .uint32
  | .text "I8" => .ok .int64
  | .text "U8" => .ok .uint64
  | .text "R4" => .ok .float32
  | .text "R8" => .ok .float64
  | .text "I" => .ok .nativeInt
  | .text "U" => .ok .nativeUInt
  | .text "String" => .ok .string
  | .text "Object" => .ok .object
  | .text "TypedReference" => .ok .typedReference
  | .record [("Class", t)] => .classType <$> decode t
  | .record [("ValueType", t)] => .valueType <$> decode t
  | .record [("SzArray", t)] => .array <$> decodeType t
  | .record [("Pointer", t)] => .pointer <$> decodeType t
  | .record [("ByRef", t)] => .byRef <$> decodeType t
  | .record [("Generic", n)] => .generic <$> decode n
  | _ => malformed

instance : Encode TypeSig := ⟨encodeType⟩

instance : Decode TypeSig := ⟨decodeType⟩

instance : Encode MethodSignature where
  encode s := .record [("has_this", encode s.hasThis), ("parameters", encode s.parameters),
    ("return_type", encode s.returnType)]

instance : Decode MethodSignature where
  decode t := do return ⟨← t.read "has_this", ← t.read "parameters", ← t.read "return_type"⟩

instance : Encode MethodRef where
  encode m := .record [("token", encode m.token), ("declaring_type", encode m.declaringType),
    ("name", encode m.name), ("signature", encode m.signature),
    ("is_virtual", encode m.isVirtual)]

instance : Decode MethodRef where
  decode t := do
    return ⟨← t.read "token", ← t.read "declaring_type", ← t.read "name", ← t.read "signature",
      ← t.read "is_virtual"⟩

instance : Encode FieldRef where
  encode x := .record [("token", encode x.token), ("declaring_type", encode x.declaringType),
    ("name", encode x.name), ("field_type", encode x.fieldType), ("is_static", encode x.isStatic)]

instance : Decode FieldRef where
  decode t := do
    return ⟨← t.read "token", ← t.read "declaring_type", ← t.read "name", ← t.read "field_type",
      ← t.read "is_static"⟩

instance : Encode Member where
  encode
    | .type t => .record [("Type", encode t)]
    | .method m => .record [("Method", encode m)]
    | .field x => .record [("Field", encode x)]

instance : Decode Member where
  decode
    | .record [("Type", t)] => .type <$> decode t
    | .record [("Method", m)] => .method <$> decode m
    | .record [("Field", x)] => .field <$> decode x
    | _ => malformed

instance : Encode Ordering where
  encode
    | .lt => .text "Less"
    | .eq => .text "Equal"
    | .gt => .text "Greater"

end CilAnalysis.Interchange
