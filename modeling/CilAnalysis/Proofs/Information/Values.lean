import CilAnalysis.Numeric.Comparison
import CilAnalysis.Numeric.Conversion
import CilAnalysis.Proofs.Information.Bits

/-!
# The information order on values

A value refines another one of the same kind when it says at least as much (`Value.Refines`).
Floating-point numbers, references and pointers are known altogether or not at all, so for these the
order is flat: the less informed value is unknown or the two are equal.  Integers are compared bit
by bit.

What is proved of each operation on values is the same throughout: more informed operands give a
more informed result, or bring a fault to light (`ResultRefines`).  The operations see the kinds of
their operands and never guess at bits they do not know, and that is all the proofs use.

## Strategy

For the flat orders there are two cases.  If the less informed operand is unknown, so is what is
made of it, and everything refines that; if the operands are equal, so are the results.  With two
operands the second is looked at only if the first is known.

The conversion of a value to the type of a location needs more, as it depends on the kind of the
value and on the type (`Value.Refines.coerce`).  The cases follow whether the value is an integer,
which both sides agree on (`Value.Refines.integer?`), and whether the type is one of integers.
Lemmas on each of them say what is left of the definition there.
-/

namespace CilAnalysis

/-! ## Numbers that are known or not -/

namespace PartialFloat

variable {f : BinaryFormat}

/-- The less informed number is unknown, or the two are the same. -/
def Refines (c a : PartialFloat f) : Prop := a = unknown ∨ c = a

namespace Refines

variable {c c' a a' : PartialFloat f}

theorem refl (a : PartialFloat f) : Refines a a := Or.inr rfl

theorem of_unknown (c : PartialFloat f) : Refines c unknown := Or.inl rfl

theorem map {g : BinaryFormat} (op : Binary f → Binary g) (h : Refines c a) :
    Refines (c.map op) (a.map op) := by
  rcases h with rfl | rfl
  · exact of_unknown _
  · exact refl _

theorem map₂ (op : Binary f → Binary f → Binary f) (h : Refines c a) (h' : Refines c' a') :
    Refines (PartialFloat.map₂ op c c') (PartialFloat.map₂ op a a') := by
  rcases h with rfl | rfl
  · exact of_unknown _
  rcases h' with rfl | rfl
  · cases c <;> exact of_unknown _
  · exact refl _

theorem test (p : Binary f → Bool) (h : Refines c a) : (c.test p).Refines (a.test p) := by
  rcases h with rfl | rfl
  · exact .of_unknown _
  · exact .refl _

theorem test₂ (p : Binary f → Binary f → Bool) (h : Refines c a) (h' : Refines c' a') :
    (PartialFloat.test₂ p c c').Refines (PartialFloat.test₂ p a a') := by
  rcases h with rfl | rfl
  · exact .of_unknown _
  rcases h' with rfl | rfl
  · cases c <;> exact .of_unknown _
  · exact .refl _

end Refines

end PartialFloat

/-! ## References and pointers -/

namespace Reference

/-- The less informed reference is unknown, or the two are the same. -/
def Refines (c a : Reference) : Prop := a = unknown ∨ c = a

namespace Refines

variable {c c' a a' : Reference}

theorem isNull (h : Refines c a) : c.isNull.Refines a.isNull := by
  rcases h with rfl | rfl
  · exact .of_unknown _
  · exact .refl _

theorem isEqual (h : Refines c a) (h' : Refines c' a') :
    (c.isEqual c').Refines (a.isEqual a') := by
  rcases h with rfl | rfl
  · exact .of_unknown _
  rcases h' with rfl | rfl
  · cases c <;> exact .of_unknown _
  · exact .refl _

end Refines

end Reference

namespace Pointer

/-- The less informed pointer is into no known block, or the two are the same. -/
def Refines (c a : Pointer) : Prop := a.isKnown = false ∨ c = a

private theorem isKnown_eq_false_iff {p : Pointer} : p.isKnown = false ↔ p.base = none := by
  simp [isKnown]

namespace Refines

variable {c c' a a' : Pointer}

theorem refl (a : Pointer) : Refines a a := Or.inr rfl

theorem of_unknown (c : Pointer) (width : PointerWidth) : Refines c (unknown width) := Or.inl rfl

theorem isZero (h : Refines c a) : c.isZero.Refines a.isZero := by
  rcases h with hunknown | rfl
  · simp only [Pointer.isZero, hunknown]
    exact .of_unknown _
  · exact .refl _

theorem isEqual (h : Refines c a) (h' : Refines c' a') :
    (c.isEqual c').Refines (a.isEqual a') := by
  unfold Pointer.isEqual
  rcases h with hunknown | rfl
  · rw [isKnown_eq_false_iff.mp hunknown]
    exact .of_unknown _
  rcases h' with hunknown' | rfl
  · rw [isKnown_eq_false_iff.mp hunknown']
    cases c.base <;> exact .of_unknown _
  · exact .refl _

/-- The distance of two pointers, if it is known of the less informed, is that of the more informed
too. -/
theorem difference?_eq_none_or (h : Refines c a) (h' : Refines c' a') :
    a.difference? a' = none ∨ c.difference? c' = a.difference? a' := by
  unfold Pointer.difference?
  rcases h with hunknown | rfl
  · rw [isKnown_eq_false_iff.mp hunknown]
    exact Or.inl rfl
  rcases h' with hunknown' | rfl
  · rw [isKnown_eq_false_iff.mp hunknown']
    cases c.base <;> exact Or.inl rfl
  · exact Or.inr rfl

theorem moveBy (move : Pointer → BitVec 64 → Pointer)
    (hmove : ∀ p delta, (move p delta).base = p.base) {x y : KnownBits 64}
    (h : Refines c a) (hxy : x.Refines y) : Refines (c.moveBy move x) (a.moveBy move y) := by
  unfold Pointer.moveBy
  rcases hxy.toBitVec?_eq_none_or with hnone | heq
  · rw [hnone]
    exact of_unknown _ _
  · rw [heq]
    cases y.toBitVec? with
    | none => exact of_unknown _ _
    | some delta =>
        rcases h with hunknown | rfl
        · left
          rw [isKnown_eq_false_iff] at hunknown ⊢
          rw [hmove, hunknown]
        · exact refl _

end Refines

end Pointer

/-! ## Values -/

namespace Value

/-- `c` says at least as much as `a`, which is of the same kind. -/
inductive Refines : Value → Value → Prop where
  | int32 {c a : KnownBits 32} (h : c.Refines a) : Refines (int32 c) (int32 a)
  | int64 {c a : KnownBits 64} (h : c.Refines a) : Refines (int64 c) (int64 a)
  | nativeInt {c a : KnownBits 64} (h : c.Refines a) : Refines (nativeInt c) (nativeInt a)
  | float {c a : PartialFloat .double} (h : c.Refines a) : Refines (float c) (float a)
  | object {c a : Reference} (h : c.Refines a) : Refines (object c) (object a)
  | pointer {c a : Pointer} (h : c.Refines a) : Refines (pointer c) (pointer a)

namespace Refines

variable {c a : Value}

theorem refl (a : Value) : Refines a a := by
  cases a with
  | int32 x => exact .int32 (.refl x)
  | int64 x => exact .int64 (.refl x)
  | nativeInt x => exact .nativeInt (.refl x)
  | float x => exact .float (.refl x)
  | object r => exact .object (Or.inr rfl)
  | pointer p => exact .pointer (.refl p)

theorem isZero (h : Refines c a) : c.isZero.Refines a.isZero := by
  cases h with
  | int32 h => exact h.isZero
  | int64 h => exact h.isZero
  | nativeInt h => exact h.isZero
  | float h => exact h.test _
  | object h => exact h.isNull
  | pointer h => exact h.isZero

/-- Values that refine each other are integers alike or not. -/
theorem integer? (h : Refines c a) :
    (∃ x y, c.integer? = some x ∧ a.integer? = some y ∧ x.Refines y) ∨
      (c.integer? = none ∧ a.integer? = none) := by
  cases h with
  | int32 h => exact Or.inl ⟨_, _, rfl, rfl, h.resize 64 .signed⟩
  | int64 h => exact Or.inl ⟨_, _, rfl, rfl, h⟩
  | nativeInt h => exact Or.inl ⟨_, _, rfl, rfl, h⟩
  | float | object | pointer => exact Or.inr ⟨rfl, rfl⟩

end Refines

end Value

theorem PointerWidth.native_refines (width : PointerWidth) {c a : KnownBits 64}
    (h : c.Refines a) : (width.native c).Refines (width.native a) := by
  cases width with
  | bits32 => exact (h.truncate 32).resize 64 .signed
  | bits64 => exact h

namespace Value

theorem ofInteger_refines (width : PointerWidth) (shape : IntegerShape) {c a : KnownBits 64}
    (h : c.Refines a) : (ofInteger width shape c).Refines (ofInteger width shape a) := by
  cases shape with
  | narrow bits s => exact .int32 ((h.truncate bits).resize 32 s)
  | word => exact .int32 (h.truncate 32)
  | long => exact .int64 h
  | native => exact .nativeInt (width.native_refines h)

/-- What becomes of an integer in a location that is not one of integers. -/
theorem coerce_of_integer (width : PointerWidth) {type : TypeSig} {v : Value} {x : KnownBits 64}
    (hshape : type.integerShape? = none) (hv : v.integer? = some x) :
    v.coerce width type =
      match type with
      | .pointer _ | .byRef _ => pointer (.unknown width)
      | _ => v := by
  unfold Value.coerce
  rw [hshape, hv]
  cases type <;> rfl

/-- What becomes of a value other than an integer in a location of any type. -/
theorem coerce_of_not_integer (width : PointerWidth) (type : TypeSig) {v : Value}
    (hv : v.integer? = none) :
    v.coerce width type =
      match type, v with
      | .float32, float x => float ((x.convert .single).convert .double)
      | _, v => v := by
  unfold Value.coerce
  rw [hv]
  cases type <;> cases v <;> rfl

/-- Storing in a location of a type keeps the order. -/
theorem Refines.coerce {c a : Value} (h : Refines c a) (width : PointerWidth) (type : TypeSig) :
    (c.coerce width type).Refines (a.coerce width type) := by
  rcases h.integer? with ⟨x, y, hc, ha, hxy⟩ | ⟨hc, ha⟩
  · cases hshape : type.integerShape? with
    | some shape =>
        simp only [Value.coerce, hshape, hc, ha]
        exact ofInteger_refines width shape hxy
    | none =>
        rw [coerce_of_integer width hshape hc, coerce_of_integer width hshape ha]
        cases type with
        | pointer | byRef => exact .pointer (.of_unknown _ _)
        | _ => exact h
  · rw [coerce_of_not_integer width type hc, coerce_of_not_integer width type ha]
    cases type with
    | float32 =>
        cases h with
        | float h => exact .float ((h.map _).map _)
        | int32 h => exact .int32 h
        | int64 h => exact .int64 h
        | nativeInt h => exact .nativeInt h
        | object h => exact .object h
        | pointer h => exact .pointer h
    | _ => exact h

end Value

end CilAnalysis
