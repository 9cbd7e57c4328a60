import CilAnalysis.Interchange.Metadata
import CilAnalysis.Memory.Heap

/-!
# Values and heap objects for interchange

A value is a list that starts with the name of its kind.  Of a large block or array only the first
bytes or elements are written.
-/

namespace CilAnalysis.Interchange

instance : Encode Handle := ⟨fun h => encode h.index⟩

instance : Decode Handle where
  decode t := do return ⟨← decode t⟩

instance : Encode Reference where
  encode
    | .null => .list [.text "null"]
    | .unknown => .list [.text "obj?"]
    | .known h => .list [.text "ref", encode h]

instance : Decode Reference where
  decode
    | .list [.text "null"] => .ok .null
    | .list [.text "obj?"] => .ok .unknown
    | .list [.text "ref", h] => .known <$> decode h
    | _ => malformed

instance : Encode Pointer where
  encode p := .list [.text "ptr", encode p.base, encode p.offset, encode p.width]

instance : Decode Pointer where
  decode
    | .list [.text "ptr", base, offset, width] => do
      return ⟨← decode base, ← decode offset, ← decode width⟩
    | _ => malformed

instance : Encode Value where
  encode
    | .int32 x => .list (.text "i4" :: wordItems x)
    | .int64 x => .list (.text "i8" :: wordItems x)
    | .nativeInt x => .list (.text "i" :: wordItems x)
    | .float x => .list [.text "r", encode x]
    | .object r => encode r
    | .pointer p => encode p

instance : Decode Value where
  decode
    | .list [.text "i4", x] => .int32 <$> decode x
    | .list [.text "i4", v, k] => .int32 <$> wordOfHex 32 v k
    | .list [.text "i8", x] => .int64 <$> decode x
    | .list [.text "i8", v, k] => .int64 <$> wordOfHex 64 v k
    | .list [.text "i", x] => .nativeInt <$> decode x
    | .list [.text "i", v, k] => .nativeInt <$> wordOfHex 64 v k
    | .list [.text "r", x] => .float <$> decode x
    | t@(.list (.text "ptr" :: _)) => .pointer <$> decode t
    | t => .object <$> decode t

def valueRecord (v : Value) : Tree :=
  let shapes : Bool × Bool × Bool :=
    match v with
    | .int32 _ => (true, false, false)
    | .object _ => (false, true, false)
    | .pointer _ => (false, false, true)
    | _ => (false, false, false)
  .record [("as", encode shapes), ("display", encode v.text), ("integer", encode v.toInteger),
    ("kind", encode v.kind), ("known", encode v.isKnown), ("zero", encode v.isZero)]

instance : Encode Block where
  encode b :=
    let shown := (b.bytes.extract 0 256).toList
    encode (b.size, shown.map KnownBits.value, shown.map KnownBits.known)

instance : Decode Block where
  decode
    | .list [.text "new", size] => .zeroed <$> decode size
    | .list [.text "uninit", size] => .uninitialized <$> decode size
    | .list [.text "bytes", bytes] => .ofBytes <$> decode bytes
    | _ => malformed

/-- Read values one after another and store each as the next element of an array. -/
def setAll (a : ArrayState) (elements : List Tree) : Reading ArrayState :=
  elements.zipIdx.foldlM (fun a p => do refusing (a.set p.2 (← decode p.1))) a

/-- Read an array from its element type, length, width of pointers and first elements. -/
def decodeArray (element length width elements : Tree) : Reading ArrayState := do
  let elements : Option (List Tree) ← decode elements
  let a := ArrayState.ofLength (← decode width) (← decode element) (← decode length)
  setAll a (elements.getD [])

instance : Encode HeapObject where
  encode
    | .string s => .list [.text "String", encode s]
    | .memory b => .list [.text "Memory", encode b]
    | .array a => .list [.text "Array", encode a.element.text, encode a.elements.size,
        encode (a.elements.extract 0 64).toList]
    | .boxed t v => .list [.text "Boxed", encode t.text, encode v]
    | .object o => .list [.text "Object", encode o.type.text]

instance : Decode HeapObject where
  decode
    | .list [.text "String", s] => .string <$> decode s
    | .list [.text "Memory", b] => .memory <$> decode b
    | .list [.text "Array", element, length, width] =>
      .array <$> decodeArray element length width .null
    | .list [.text "Array", element, length, width, elements] =>
      .array <$> decodeArray element length width elements
    | .list [.text "Boxed", t, v] => do return .boxed (← decode t) (← decode v)
    | .list [.text "Object", t] => do return .object ⟨← decode t, .empty⟩
    | _ => malformed

end CilAnalysis.Interchange
