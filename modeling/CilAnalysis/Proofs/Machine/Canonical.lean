import CilAnalysis.Proofs.Machine.Obedience

/-!
# Native integers in canonical form

Where pointers have 32 bits, a native integer is kept in 64 bits whose upper half repeats the sign
of the lower one, as far as the sign is known.  Instructions make native integers in many ways, and
only some of them bring the result into this form; the others get it from their operands, or, for
the length of an array, from the native integer that the array was made with.  Integers and memory
blocks also keep their unknown bits at zero (`Interpreter.natives_stay_canonical`).

## Strategy

The form is the fixed points of `PointerWidth.native`, and `Discipline.canonical` is the requirement
that native integers are such.  Two laws have to be checked.

* What went through `native` is a fixed point, since going through it twice makes no difference
  (`PointerWidth.native_native`).
* The complement is the one operation that does not bring its result into the form.  It may not have
  to: complementing commutes with cutting off the upper half (`KnownBits.not_truncate`) and with
  extending the sign (`KnownBits.not_signExtend`), and so with `native` (`PointerWidth.native_not`).

That unknown bits are zero is not a matter of runs at all: partially known integers are made so
(`Value.masked`, `Block.masked`).
-/

namespace CilAnalysis

namespace KnownBits

variable {w w' : Nat}

private theorem not_truncate (x : KnownBits w) (hle : w' ≤ w) :
    (x.truncate w').not = x.not.truncate w' := by
  apply ext_bit
  intro i hi
  have hin : i < w := hi.trans_le hle
  calc (x.truncate w').not.bit i
    _ = ((x.truncate w').bit i).not := bit_not ..
    _ = (x.bit i).not := by rw [bit_truncate x hi hin]
    _ = x.not.bit i := (bit_not ..).symm
    _ = (x.not.truncate w').bit i := (bit_truncate x.not hi hin).symm

private theorem not_signExtend (x : KnownBits w) :
    (x.resize w' .signed).not = x.not.resize w' .signed := by
  apply ext_bit
  intro i hi
  rw [bit_not, bit_resize _ _ hi, bit_resize _ _ hi]
  -- A bit of the extension is one of the integer or repeats its highest, which is complemented too.
  split
  · rw [bit_not]
  · exact (bit_not x (w - 1)).symm

end KnownBits

namespace PointerWidth

variable (width : PointerWidth) (x : KnownBits 64)

theorem native_native : width.native (width.native x) = width.native x := by
  cases width with
  | bits64 => rfl
  | bits32 => exact native_resize .bits32 (x.truncate 32)

theorem native_not : width.native x.not = (width.native x).not := by
  cases width with
  | bits64 => rfl
  | bits32 =>
      calc native .bits32 x.not = ((x.truncate 32).not).resize 64 .signed := by
            rw [KnownBits.not_truncate x (by decide)]
            rfl
        _ = (native .bits32 x).not := (KnownBits.not_signExtend _).symm

end PointerWidth

/-! ## The forms that integers and blocks are kept in -/

namespace Value

/-- A native integer is as wide as pointers are. -/
def Canonical (width : PointerWidth) : Value → Prop
  | nativeInt x => width.native x = x
  | _ => True

/-- An integer has no bits where none is known. -/
def Masked : Value → Prop
  | int32 x => x.value &&& ~~~x.known = 0
  | int64 x | nativeInt x => x.value &&& ~~~x.known = 0
  | _ => True

theorem masked (v : Value) : v.Masked := by
  cases v with
  | int32 x => exact x.value_and_not_known
  | int64 x | nativeInt x => exact x.value_and_not_known
  | float | object | pointer => trivial

end Value

namespace Block

/-- The bits of the bytes. -/
def data (b : Block) : Array (BitVec 8) := b.bytes.map KnownBits.value

/-- Which bits of the bytes are known. -/
def mask (b : Block) : Array (BitVec 8) := b.bytes.map KnownBits.known

/-- There are as many masks as bytes, and a byte has no bits where none is known. -/
structure Masked (b : Block) : Prop where
  size_eq : b.data.size = b.mask.size
  zero_outside : ∀ i, b.data.getD i 0 &&& ~~~b.mask.getD i 0 = 0

theorem masked (b : Block) : b.Masked where
  size_eq := by rw [data, mask, Array.size_map, Array.size_map]
  zero_outside := by
    intro i
    rw [data, mask, Array.getD_eq_getD_getElem?, Array.getD_eq_getD_getElem?, Array.getElem?_map,
      Array.getElem?_map]
    cases b.bytes[i]? with
    | none => rfl
    | some byte => exact byte.value_and_not_known

end Block

/-! ## Runs -/

namespace Discipline

/-- Native integers are canonical; nothing is asked of handles and faults. -/
def canonical (width : PointerWidth) : Discipline width where
  native x := width.native x = x
  entry _ _ := True
  block _ _ := True
  frame _ := True
  stored _ := True
  fault _ := True
  native_native := width.native_native
  native_not {x} hx := by rw [width.native_not, hx]
  entry_mono _ _ := trivial
  block_mono _ _ := trivial
  entry_allocate _ _ := trivial
  block_allocate _ _ := trivial
  frame_set _ _ _ := trivial
  fault_ordinary _ := trivial
  fault_get _ _ := trivial
  fault_block _ _ := trivial

private theorem admits_canonical_iff {width : PointerWidth} {h : Heap} {v : Value} :
    (canonical width).Admits h v ↔ v.Canonical width := by
  cases v with
  | nativeInt x => exact Iff.rfl
  | object r => cases r <;> exact Iff.rfl
  | pointer p => exact ⟨fun _ => trivial, fun _ _ _ => trivial⟩
  | int32 | int64 | float => exact Iff.rfl

end Discipline

namespace Interpreter

/-- Let an interpreter store canonical values in the arguments of a method and execute any
instructions, whether they succeed or fault.  Then every native integer anywhere in the state is
canonical for the width of pointers; every integer is zero where its bits are unknown, and so are
the memory blocks, which have a mask for each byte. -/
theorem natives_stay_canonical (options : Options) (b : MethodBody)
    (arguments : List (Nat × Value)) (harguments : ∀ a ∈ arguments, a.2.Canonical options.width)
    (executed : List Instruction) :
    let p : Interpreter := { options }
    let m := p.after (p.setting b) executed (p.startWith b arguments)
    m.All (Value.Canonical options.width) ∧ m.All Value.Masked ∧
      ∀ block, .memory block ∈ m.heap.objects → block.Masked := by
  intro p m
  have hstart : (Discipline.canonical (p.setting b).width).Obeyed (p.setting b)
      (p.startWith b arguments) :=
    obeyed_startWith p b (fun _ => trivial) (fun _ => trivial)
      fun a ha _ => Discipline.admits_canonical_iff.mpr (harguments a ha)
  obtain ⟨hm, -⟩ := hstart.after rfl options executed fun _ => trivial
  exact ⟨hm.values.imp fun _ hv => Discipline.admits_canonical_iff.mp hv,
    hm.values.imp fun v _ => v.masked, fun block _ => block.masked⟩

/-- Adds the negation of its argument to the length of a new array. -/
def lengthMinus : MethodBody where
  instructions :=
    [⟨0, .ldarg_0, .none, 1⟩, ⟨1, .not, .none, 1⟩, ⟨2, .dup, .none, 1⟩, ⟨3, .ldc_i4_3, .none, 1⟩,
      ⟨4, .newarr, .type .uint8, 5⟩, ⟨9, .ldlen, .none, 1⟩, ⟨10, .add, .none, 1⟩,
      ⟨11, .ret, .none, 1⟩]
  parameters := [.nativeInt]
  returnType := .nativeInt

/-- An odd negative number of which no other bit is known. -/
def oddNegative : KnownBits 64 := .masked 0xFFFFFFFF80000001 0xFFFFFFFF80000001

/-- The negation is known where the argument is; nothing is known of the sum. -/
theorem natives_stay_canonical_lengthMinus :
    let p : Interpreter := { options := { width := .bits32 } }
    let m := p.after (p.setting lengthMinus) lengthMinus.instructions
      (p.startWith lengthMinus [(0, .nativeInt oddNegative)])
    Value.Canonical .bits32 (.nativeInt oddNegative) ∧ m.stack = [.nativeInt oddNegative.not] ∧
      m.returned = some (.nativeInt .unknown) ∧
      m.All (Value.Canonical .bits32) ∧ m.All Value.Masked ∧
      ∀ block, .memory block ∈ m.heap.objects → block.Masked := by
  have hodd : PointerWidth.native .bits32 oddNegative = oddNegative := by decide +kernel
  have hcanonical : ∀ a ∈ [((0 : Nat), Value.nativeInt oddNegative)], a.2.Canonical .bits32 := by
    intro a ha
    obtain rfl := List.mem_singleton.mp ha
    exact hodd
  have hkept := natives_stay_canonical { width := .bits32 } lengthMinus
    [(0, .nativeInt oddNegative)] hcanonical lengthMinus.instructions
  exact ⟨hodd, by decide +kernel, by decide +kernel, hkept⟩

end Interpreter

end CilAnalysis
