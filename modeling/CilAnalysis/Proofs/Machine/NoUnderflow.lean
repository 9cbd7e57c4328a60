import CilAnalysis.Proofs.Machine.Effect

/-!
# Computations that never underflow

What instructions compute with the values they have taken may fail, but not for want of values on
the stack.

Together with `Effect.lean` this is what separates the two reasons an instruction can have to fault:
values of the wrong kind, and too few values.  A computation on values is given as a result that is
a value or a fault, and the statement is that the fault is another one.  There is one lemma for each
function that operations apply to values.

* Arithmetic and comparisons bring their operands to a common shape first
  (`NumericOperands.ofValues_noUnderflow`); then each shape has its own computation.  Integers give
  errors of the analyses, for which `NoUnderflow.ofError` is enough.
* Shifts, conversions and the check for finite numbers name the instruction in their faults.
* Indices, addresses and references are read from a single value.

Most of the functions are defined by cases on the kind of a value, and then the faults can be seen
in each case.  Where the cases overlap, the proof splits the definition instead.
-/

namespace CilAnalysis

open NoUnderflow

/-! ## Numbers -/

private theorem NumericOperands.ofValues_noUnderflow (width : PointerWidth) (lhs rhs : Value) :
    NoUnderflow (ofValues width lhs rhs) := by
  cases lhs <;> cases rhs <;> exact nofun

private theorem PointerWidth.onNative_noUnderflow (width : PointerWidth)
    {f : {w : Nat} → KnownBits w → KnownBits w → Except Fault (KnownBits w)}
    (hf : ∀ {w : Nat} (x y : KnownBits w), NoUnderflow (f x y)) (x y : KnownBits 64) :
    NoUnderflow (width.onNative f x y) := by
  cases width with
  | bits32 => exact (hf _ _).bind fun _ => ok _
  | bits64 => exact hf x y

theorem Operator.apply_noUnderflow (width : PointerWidth) (opcode : Opcode) (op : Operator)
    (lhs rhs : Value) : NoUnderflow (op.apply width opcode lhs rhs) := by
  have hintegers {w : Nat} (x y : KnownBits w) :
      NoUnderflow ((op.onIntegers x y).mapError Fault.ofError) := NoUnderflow.ofError _
  unfold Operator.apply
  refine (NumericOperands.ofValues_noUnderflow width lhs rhs).bind ?_
  intro operands
  cases operands with
  | int32 x y => exact (hintegers x y).bind fun _ => ok _
  | int64 x y => exact (hintegers x y).bind fun _ => ok _
  | native x y => exact (width.onNative_noUnderflow hintegers x y).bind fun _ => ok _
  | float x y =>
      dsimp only
      cases op.onFloats? x y with
      | some z => exact ok _
      | none => exact error nofun
  | pointerInteger p x =>
      dsimp only
      split
      · exact ok _
      split
      · exact ok _
      · exact error nofun
  | integerPointer x p =>
      dsimp only
      split
      · exact ok _
      · exact error nofun
  | pointers p q =>
      dsimp only
      split
      · split
        · exact ok _
        · exact ok _
      · exact error nofun

theorem Shift.apply_noUnderflow (width : PointerWidth) (opcode : Opcode) (shift : Shift)
    (v amount : Value) : NoUnderflow (shift.apply width opcode v amount) := by
  have hamount : NoUnderflow (amount? amount) := by
    cases amount <;> exact nofun
  refine hamount.bind ?_
  intro places
  cases v <;> cases width <;> exact nofun

theorem Comparison.decide_noUnderflow (width : PointerWidth) (c : Comparison) (unsigned : Bool)
    (lhs rhs : Value) : NoUnderflow (c.decide width unsigned lhs rhs) := by
  unfold Comparison.decide
  dsimp only
  split
  · unfold Comparison.onReferences
    split
    · exact ok _
    · exact ok _
    · exact error nofun
  · refine (NumericOperands.ofValues_noUnderflow width lhs rhs).bind ?_
    intro operands
    cases operands <;> cases width <;> exact ok _

namespace Value

theorem negate_noUnderflow (width : PointerWidth) (opcode : Opcode) (v : Value) :
    NoUnderflow (v.negate width opcode) := by
  cases v <;> exact nofun

theorem complement_noUnderflow (opcode : Opcode) (v : Value) :
    NoUnderflow (v.complement opcode) := by
  cases v <;> exact nofun

theorem toIntegerTarget_noUnderflow (width : PointerWidth) (opcode : Opcode) (t : IntegerTarget)
    (check : Option Signedness) (v : Value) :
    NoUnderflow (v.toIntegerTarget width opcode t check) := by
  -- With a check the fault is an overflow.
  have hchecked (v : Value) (s : Signedness) : NoUnderflow (v.checkedTo width t s) := by
    unfold checkedTo
    split
    · split
      · exact ok _
      · exact error nofun
    · exact ok _
  have hfloat (x : PartialFloat .double) : NoUnderflow (ofFloat width t check.isSome x) := by
    unfold ofFloat
    split
    · exact ok _
    · split
      · exact ok _
      · split
        · exact error nofun
        · exact ok _
  unfold toIntegerTarget
  split
  · exact hfloat _
  · exact ok _
  · exact error nofun
  · exact ok _
  · exact hchecked v _

theorem toFloatTarget_noUnderflow (width : PointerWidth) (opcode : Opcode) (t : FloatTarget)
    (v : Value) : NoUnderflow (v.toFloatTarget width opcode t) := by
  unfold toFloatTarget
  dsimp only
  split
  · exact ok _
  · exact error nofun
  · exact error nofun
  · split
    · exact ok _
    · exact ok _

theorem requireFinite_noUnderflow (opcode : Opcode) (v : Value) :
    NoUnderflow (v.requireFinite opcode) := by
  unfold requireFinite
  split
  · split
    · exact error nofun
    · exact ok _
  · exact error nofun

/-! ## Indices, addresses and references -/

theorem index?_noUnderflow (s : Signedness) (v : Value) : NoUnderflow (v.index? s) := by
  cases v <;> exact nofun

theorem size?_noUnderflow (v : Value) : NoUnderflow v.size? :=
  (index?_noUnderflow .signed v).bind fun _ => ok _

theorem address?_noUnderflow (v : Value) : NoUnderflow v.address? := by
  cases v <;> exact nofun

theorem array?_noUnderflow (v : Value) : NoUnderflow v.array? := by
  unfold array?
  split
  · exact error nofun
  · exact ok _
  · exact ok _
  · exact error nofun

theorem receiver?_noUnderflow (v : Value) : NoUnderflow v.receiver? := by
  unfold receiver?
  split <;> exact nofun

theorem reference_noUnderflow (v : Value) : NoUnderflow v.reference := by
  cases v <;> exact nofun

end Value

end CilAnalysis
