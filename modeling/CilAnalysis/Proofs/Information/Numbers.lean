import CilAnalysis.Proofs.Information.Values

/-!
# Arithmetic, comparison and conversion in the information order

The operations on numbers, one theorem for each: with more informed operands they give a more
informed result or bring a fault to light (`ResultRefines`).

## Strategy

Operations with two operands first bring them to a common shape.  Operands that refine others have
the same shape and refine them there, or both pairs are refused
(`NumericOperands.ofValues_refines`): the shape depends on the kinds only, which both sides know.
From there it goes shape by shape, with the theorems on words, floating-point numbers and pointers.

Two kinds of shapes need an argument of their own.

* A native integer of 32 bits is cut to its low half, worked on and extended again.  All three keep
  the order, whatever the operation is (`Operator.onNative_refines`).
* The distance of two pointers and the number of an integer are known altogether or not at all.  If
  the less informed side does not know them, what it answers is unknown and covers every other
  answer; otherwise both sides have the same number (`Pointer.Refines.difference?_eq_none_or`,
  `Value.Refines.number?_eq_none_or`).
-/

namespace CilAnalysis

/-! ## Pairs of operands -/

namespace NumericOperands

/-- Two pairs of operands of one shape, of which the first says at least as much. -/
inductive Refines : NumericOperands → NumericOperands → Prop where
  | int32 {c d a b : KnownBits 32} (h : c.Refines a) (h' : d.Refines b) :
      Refines (int32 c d) (int32 a b)
  | int64 {c d a b : KnownBits 64} (h : c.Refines a) (h' : d.Refines b) :
      Refines (int64 c d) (int64 a b)
  | native {c d a b : KnownBits 64} (h : c.Refines a) (h' : d.Refines b) :
      Refines (native c d) (native a b)
  | float {c d a b : PartialFloat .double} (h : c.Refines a) (h' : d.Refines b) :
      Refines (float c d) (float a b)
  | pointerInteger {c a : Pointer} {d b : KnownBits 64} (h : c.Refines a) (h' : d.Refines b) :
      Refines (pointerInteger c d) (pointerInteger a b)
  | integerPointer {c a : KnownBits 64} {d b : Pointer} (h : c.Refines a) (h' : d.Refines b) :
      Refines (integerPointer c d) (integerPointer a b)
  | pointers {c d a b : Pointer} (h : c.Refines a) (h' : d.Refines b) :
      Refines (pointers c d) (pointers a b)

private theorem ofValues_refines (width : PointerWidth) {c d a b : Value} (h : c.Refines a)
    (h' : d.Refines b) : ResultRefines Refines (ofValues width c d) (ofValues width a b) := by
  cases h with
  | int32 h =>
      cases h' with
      | int32 h' => exact .int32 h h'
      | nativeInt h' => exact .native (width.native_refines (h.resize 64 .signed)) h'
      | pointer h' => exact .integerPointer (h.resize 64 .signed) h'
      | int64 | float | object => trivial
  | int64 h =>
      cases h' with
      | int64 h' => exact .int64 h h'
      | int32 | nativeInt | float | object | pointer => trivial
  | nativeInt h =>
      cases h' with
      | nativeInt h' => exact .native h h'
      | int32 h' => exact .native h (width.native_refines (h'.resize 64 .signed))
      | pointer h' => exact .integerPointer h h'
      | int64 | float | object => trivial
  | float h =>
      cases h' with
      | float h' => exact .float h h'
      | int32 | int64 | nativeInt | object | pointer => trivial
  | object h => cases h' <;> trivial
  | pointer h =>
      cases h' with
      | int32 h' => exact .pointerInteger h (h'.resize 64 .signed)
      | nativeInt h' => exact .pointerInteger h h'
      | pointer h' => exact .pointers h h'
      | int64 | float | object => trivial

end NumericOperands

/-! ## Arithmetic -/

namespace Operator

private theorem onIntegers_refines (op : Operator) {w : Nat} {c d a b : KnownBits w}
    (h : c.Refines a) (h' : d.Refines b) :
    ResultRefines KnownBits.Refines (op.onIntegers c d) (op.onIntegers a b) := by
  cases op with
  | add => exact h.map₂ _ h'
  | sub => exact h.map₂ _ h'
  | mul => exact h.map₂ _ h'
  | div s => exact h.div s h'
  | rem s => exact h.rem s h'
  | and => exact h.and h'
  | or => exact h.or h'
  | xor => exact h.xor h'
  | checkedAdd s => exact h.checked _ s h'
  | checkedSub s => exact h.checked _ s h'
  | checkedMul s => exact h.checked _ s h'

private theorem onFloats?_refines (op : Operator) {c d a b : PartialFloat .double} (h : c.Refines a)
    (h' : d.Refines b) :
    (∃ x y, op.onFloats? c d = some x ∧ op.onFloats? a b = some y ∧ x.Refines y) ∨
      (op.onFloats? c d = none ∧ op.onFloats? a b = none) := by
  cases op with
  | add => exact Or.inl ⟨_, _, rfl, rfl, h.map₂ _ h'⟩
  | sub => exact Or.inl ⟨_, _, rfl, rfl, h.map₂ _ h'⟩
  | mul => exact Or.inl ⟨_, _, rfl, rfl, h.map₂ _ h'⟩
  | div s =>
      cases s with
      | signed => exact Or.inl ⟨_, _, rfl, rfl, h.map₂ _ h'⟩
      | unsigned => exact Or.inr ⟨rfl, rfl⟩
  | rem s =>
      cases s with
      | signed => exact Or.inl ⟨_, _, rfl, rfl, h.map₂ _ h'⟩
      | unsigned => exact Or.inr ⟨rfl, rfl⟩
  | and | or | xor | checkedAdd | checkedSub | checkedMul => exact Or.inr ⟨rfl, rfl⟩

private theorem onNative_refines (width : PointerWidth)
    {f : {w : Nat} → KnownBits w → KnownBits w → Except Fault (KnownBits w)}
    (hf : ∀ {w : Nat} {c d a b : KnownBits w}, c.Refines a → d.Refines b →
      ResultRefines KnownBits.Refines (f c d) (f a b))
    {c d a b : KnownBits 64} (h : c.Refines a) (h' : d.Refines b) :
    ResultRefines KnownBits.Refines (width.onNative f c d) (width.onNative f a b) := by
  cases width with
  | bits32 =>
      refine (hf (h.truncate 32) (h'.truncate 32)).bind ?_
      intro v u hvu
      exact hvu.resize 64 .signed
  | bits64 => exact hf h h'

theorem apply_refines (width : PointerWidth) (opcode : Opcode) (op : Operator) {c d a b : Value}
    (h : c.Refines a) (h' : d.Refines b) :
    ResultRefines Value.Refines (op.apply width opcode c d) (op.apply width opcode a b) := by
  have hintegers : ∀ {w : Nat} {x y u v : KnownBits w}, x.Refines u → y.Refines v →
      ResultRefines KnownBits.Refines ((op.onIntegers x y).mapError Fault.ofError)
        ((op.onIntegers u v).mapError Fault.ofError) :=
    fun hx hy => (op.onIntegers_refines hx hy).mapError _ _
  refine (NumericOperands.ofValues_refines width h h').bind ?_
  intro x y hxy
  cases hxy with
  | int32 hx hy =>
      refine (hintegers hx hy).bind ?_
      intro v u hvu
      exact .int32 hvu
  | int64 hx hy =>
      refine (hintegers hx hy).bind ?_
      intro v u hvu
      exact .int64 hvu
  | native hx hy =>
      refine (onNative_refines width hintegers hx hy).bind ?_
      intro v u hvu
      exact .nativeInt hvu
  | float hx hy =>
      rcases op.onFloats?_refines hx hy with ⟨x', y', hc, ha, hxy⟩ | ⟨hc, ha⟩
      · simp only [hc, ha]
        exact .float hxy
      · simp only [hc, ha]
        trivial
  | pointerInteger hx hy =>
      dsimp only
      split
      · exact .pointer (hx.moveBy .add (fun _ _ => rfl) hy)
      split
      · exact .pointer (hx.moveBy .sub (fun _ _ => rfl) hy)
      · trivial
  | integerPointer hx hy =>
      dsimp only
      split
      · exact .pointer (hy.moveBy .add (fun _ _ => rfl) hx)
      · trivial
  | pointers hx hy =>
      -- Pointers can only be subtracted, and their distance may be unknown.
      dsimp only
      split
      · rcases hx.difference?_eq_none_or hy with hnone | heq
        · rw [hnone]
          cases Pointer.difference? _ _ <;> exact .nativeInt (.of_unknown _)
        · rw [heq]
          exact .refl .refl _
      · trivial

end Operator

namespace Shift

/-- An amount that the less informed know is the same for the more informed. -/
theorem amount?_refines {c a : Value} (h : c.Refines a) :
    ResultRefines (fun n n' => n' = none ∨ n = n') (amount? c) (amount? a) := by
  cases h with
  | int32 h =>
      rcases h.toBitVec?_eq_none_or with hnone | heq
      · exact Or.inl (by rw [hnone]; rfl)
      · exact Or.inr (by rw [heq])
  | nativeInt h =>
      rcases h.toBitVec?_eq_none_or with hnone | heq
      · exact Or.inl (by rw [hnone]; rfl)
      · exact Or.inr (by rw [heq])
  | int64 | float | object | pointer => trivial

private theorem onInteger_refines (shift : Shift) {w : Nat} {c a : KnownBits w} (h : c.Refines a)
    {n n' : Option Nat} (hn : n' = none ∨ n = n') :
    (shift.onInteger c n).Refines (shift.onInteger a n') := by
  rcases hn with rfl | rfl
  · exact .of_unknown _
  · cases n with
    | none => exact .of_unknown _
    | some amount =>
        cases shift with
        | left => exact h.shiftLeft _
        | right s => exact h.shiftRight _ s

theorem apply_refines (width : PointerWidth) (opcode : Opcode) (shift : Shift) {c d a b : Value}
    (h : c.Refines a) (h' : d.Refines b) :
    ResultRefines Value.Refines (shift.apply width opcode c d) (shift.apply width opcode a b) := by
  refine (amount?_refines h').bind ?_
  intro n n' hn
  cases h with
  | int32 h => exact .int32 (shift.onInteger_refines h hn)
  | int64 h => exact .int64 (shift.onInteger_refines h hn)
  | nativeInt h =>
      cases width with
      | bits32 =>
          exact .nativeInt ((shift.onInteger_refines (h.truncate 32) hn).resize 64 .signed)
      | bits64 => exact .nativeInt (shift.onInteger_refines h hn)
  | float | object | pointer => trivial

end Shift

namespace Value

theorem negate_refines (width : PointerWidth) (opcode : Opcode) {c a : Value} (h : c.Refines a) :
    ResultRefines Refines (negate width opcode c) (negate width opcode a) := by
  cases h with
  | int32 h => exact .int32 h.neg
  | int64 h => exact .int64 h.neg
  | nativeInt h => exact .nativeInt (width.native_refines h.neg)
  | float h => exact .float (h.map _)
  | object | pointer => trivial

theorem complement_refines (opcode : Opcode) {c a : Value} (h : c.Refines a) :
    ResultRefines Refines (complement opcode c) (complement opcode a) := by
  cases h with
  | int32 h => exact .int32 h.not
  | int64 h => exact .int64 h.not
  | nativeInt h => exact .nativeInt h.not
  | float | object | pointer => trivial

end Value

/-! ## Comparison -/

namespace Comparison

private theorem onIntegers_refines (comparison : Comparison) (s : Signedness) {w : Nat}
    {c d a b : KnownBits w} (h : c.Refines a) (h' : d.Refines b) :
    (comparison.onIntegers s c d).Refines (comparison.onIntegers s a b) := by
  cases comparison with
  | equal => exact h.isEqual h'
  | greater => exact h.isGreater s h'
  | less => exact h.isLess s h'
  | greaterOrEqual => exact (h.isLess s h').not
  | lessOrEqual => exact (h.isGreater s h').not

private theorem onFloats_refines (comparison : Comparison) (orUnordered : Bool)
    {c d a b : PartialFloat .double} (h : c.Refines a) (h' : d.Refines b) :
    (comparison.onFloats orUnordered c d).Refines (comparison.onFloats orUnordered a b) := by
  cases comparison with
  | equal => exact h.test₂ _ h'
  | greater => exact h'.test₂ _ h
  | less => exact h.test₂ _ h'
  | greaterOrEqual => exact (h.test₂ _ h').not
  | lessOrEqual => exact (h'.test₂ _ h).not

private theorem onPointers_refines (comparison : Comparison) {c d a b : Pointer} (h : c.Refines a)
    (h' : d.Refines b) : (comparison.onPointers c d).Refines (comparison.onPointers a b) := by
  unfold onPointers
  split
  · exact h.isEqual h'
  · rcases h.difference?_eq_none_or h' with hnone | heq
    · rw [hnone]
      exact .of_unknown _
    · rw [heq]
      exact .refl _

private theorem onPointerAndInteger_refines (comparison : Comparison) {c a : Pointer}
    {x y : KnownBits 64} (h : c.Refines a) (hxy : x.Refines y) :
    (comparison.onPointerAndInteger c x).Refines (comparison.onPointerAndInteger a y) := by
  unfold onPointerAndInteger
  by_cases hless : comparison = equal ∧ y.isZero = .true
  · -- What the less informed know to be zero is zero.
    have hmore : comparison = equal ∧ x.isZero = .true := by
      refine ⟨hless.1, ?_⟩
      have hzero := hxy.isZero
      rw [hless.2] at hzero
      exact hzero.resolve_left nofun
    rw [if_pos hless, if_pos hmore]
    exact h.isZero
  · rw [if_neg hless]
    exact .of_unknown _

private theorem onReferences_refines (comparison : Comparison) (unsigned : Bool)
    {c d a b : Reference} (h : c.Refines a) (h' : d.Refines b) :
    ResultRefines Ternary.Refines (comparison.onReferences unsigned c d)
      (comparison.onReferences unsigned a b) := by
  cases comparison with
  | equal => exact h.isEqual h'
  | greater =>
      cases unsigned with
      | true => exact (h.isEqual h').not
      | false => trivial
  | less | greaterOrEqual | lessOrEqual => trivial

theorem decide_refines (width : PointerWidth) (comparison : Comparison) (unsigned : Bool)
    {c d a b : Value} (h : c.Refines a) (h' : d.Refines b) :
    ResultRefines Ternary.Refines (comparison.decide width unsigned c d)
      (comparison.decide width unsigned a b) := by
  have hlhs := h
  cases h with
  | object h =>
      cases h' with
      | object h' => exact comparison.onReferences_refines unsigned h h'
      | int32 | int64 | nativeInt | float | pointer => trivial
  | int32 | int64 | nativeInt | float | pointer =>
      refine (NumericOperands.ofValues_refines width hlhs h').bind ?_
      intro x y hxy
      cases hxy with
      | int32 hx hy => exact comparison.onIntegers_refines _ hx hy
      | int64 hx hy => exact comparison.onIntegers_refines _ hx hy
      | native hx hy =>
          cases width with
          | bits32 => exact comparison.onIntegers_refines _ (hx.truncate 32) (hy.truncate 32)
          | bits64 => exact comparison.onIntegers_refines _ hx hy
      | float hx hy => exact comparison.onFloats_refines unsigned hx hy
      | pointers hx hy => exact comparison.onPointers_refines hx hy
      | pointerInteger hx hy => exact comparison.onPointerAndInteger_refines hx hy
      | integerPointer hx hy => exact comparison.onPointerAndInteger_refines hy hx

end Comparison

/-! ## Conversion -/

namespace Value

/-- Every target of a conversion keeps its integers in one shape. -/
theorem coerce_target (width : PointerWidth) (t : IntegerTarget) (x : KnownBits 64) :
    (int64 x).coerce width t.type = ofInteger width (t.type.integerShape?.getD .word) x := by
  cases t <;> rfl

private theorem unknown_target (width : PointerWidth) (t : IntegerTarget) :
    t.unknown width = ofInteger width (t.type.integerShape?.getD .word) .unknown := by
  cases t <;> rfl

/-- Where a target of fewer than 32 bits fixes the upper bits, it does so in its unknown value too,
which therefore covers whatever is converted. -/
theorem coerce_refines_unknown (width : PointerWidth) (t : IntegerTarget) (x : KnownBits 64) :
    ((int64 x).coerce width t.type).Refines (t.unknown width) := by
  rw [coerce_target, unknown_target]
  exact ofInteger_refines width _ (.of_unknown x)

namespace Refines

variable {c a : Value}

theorem extended? (h : Refines c a) (width : PointerWidth) (s : Signedness) :
    (∃ x y, c.extended? width s = some x ∧ a.extended? width s = some y ∧ x.Refines y) ∨
      (c.extended? width s = none ∧ a.extended? width s = none) := by
  cases h with
  | int32 h => exact Or.inl ⟨_, _, rfl, rfl, h.resize 64 s⟩
  | int64 h => exact Or.inl ⟨_, _, rfl, rfl, h⟩
  | nativeInt h =>
      cases width with
      | bits32 => exact Or.inl ⟨_, _, rfl, rfl, (h.truncate 32).resize 64 s⟩
      | bits64 => exact Or.inl ⟨_, _, rfl, rfl, h⟩
  | float | object | pointer => exact Or.inr ⟨rfl, rfl⟩

theorem wrapTo (h : Refines c a) (width : PointerWidth) (t : IntegerTarget) :
    (c.wrapTo width t).Refines (a.wrapTo width t) := by
  unfold Value.wrapTo
  rcases h.extended? width t.signedness with ⟨x, y, hc, ha, hxy⟩ | ⟨hc, ha⟩
  · rw [hc, ha]
    exact (Refines.int64 hxy).coerce width t.type
  · rw [hc, ha]
    exact refl _

/-- The number that the less informed integer stands for, if it is known, is that of the more
informed one. -/
theorem number?_eq_none_or (h : Refines c a) (width : PointerWidth) (s : Signedness) :
    a.number? width s = none ∨ c.number? width s = a.number? width s := by
  cases h with
  | int32 h =>
      rcases h.toBitVec?_eq_none_or with hnone | heq
      · exact Or.inl (by simp [number?, hnone])
      · exact Or.inr (by simp [number?, heq])
  | int64 h =>
      rcases h.toBitVec?_eq_none_or with hnone | heq
      · exact Or.inl (by simp [number?, hnone])
      · exact Or.inr (by simp [number?, heq])
  | nativeInt h =>
      rcases h.toBitVec?_eq_none_or with hnone | heq
      · exact Or.inl (by cases width <;> cases s <;> simp [number?, hnone])
      · exact Or.inr (by cases width <;> cases s <;> simp [number?, heq])
  | float | object | pointer => exact Or.inl rfl

theorem checkedTo (h : Refines c a) (width : PointerWidth) (t : IntegerTarget) (s : Signedness) :
    ResultRefines Refines (c.checkedTo width t s) (a.checkedTo width t s) := by
  unfold Value.checkedTo
  rcases h.number?_eq_none_or width s with hnone | heq
  · rw [hnone]
    -- The number may be out of range for the more informed, who then fault.
    cases c.number? width s with
    | none => exact refl _
    | some n =>
        dsimp only
        split
        · exact coerce_refines_unknown width t _
        · trivial
  · rw [heq]
    exact .refl refl _

end Refines

private theorem ofFloat_refines (width : PointerWidth) (t : IntegerTarget) (checked : Bool)
    {c a : PartialFloat .double} (h : c.Refines a) :
    ResultRefines Refines (ofFloat width t checked c) (ofFloat width t checked a) := by
  rcases h with rfl | rfl
  · cases c with
    | unknown => exact Refines.refl _
    | known x =>
        simp only [ofFloat]
        cases floatPart? width t x with
        | some n => exact coerce_refines_unknown width t _
        | none =>
            cases checked with
            | true => trivial
            | false => exact Refines.refl _
  · exact .refl .refl _

theorem toIntegerTarget_refines (width : PointerWidth) (opcode : Opcode) (t : IntegerTarget)
    (check : Option Signedness) {c a : Value} (h : c.Refines a) :
    ResultRefines Refines (toIntegerTarget width opcode t check c)
      (toIntegerTarget width opcode t check a) := by
  have hvalue := h
  cases h with
  | float h => exact ofFloat_refines width t check.isSome h
  | object => trivial
  | pointer h =>
      simp only [toIntegerTarget, ResultRefines]
      split
      · exact .pointer h
      · exact Refines.refl _
  | int32 | int64 | nativeInt =>
      cases check with
      | none => exact hvalue.wrapTo width t
      | some s => exact hvalue.checkedTo width t s

theorem toFloatTarget_refines (width : PointerWidth) (opcode : Opcode) (t : FloatTarget)
    {c a : Value} (h : c.Refines a) :
    ResultRefines Refines (toFloatTarget width opcode t c) (toFloatTarget width opcode t a) := by
  have hround : ∀ v u : PartialFloat .double, v.Refines u → ResultRefines Refines
      (.ok (float (if t = .single then (v.convert .single).convert .double else v)) :
        Except Fault Value)
      (.ok (float (if t = .single then (u.convert .single).convert .double else u)) :
        Except Fault Value) := by
    intro v u hvu
    split
    · exact .float ((hvu.map _).map _)
    · exact .float hvu
  have hnumber := fun s => h.number?_eq_none_or width s
  cases h with
  | float h => exact hround _ _ h
  | object | pointer => trivial
  | int32 | int64 | nativeInt =>
      simp only [toFloatTarget]
      rcases hnumber (if t = .ofUnsigned then .unsigned else .signed) with hnone | heq
      · rw [hnone]
        cases Value.number? _ _ _ <;> exact hround _ _ (.of_unknown _)
      · rw [heq]
        exact .refl .refl _

/-- A number that the less informed know not to be finite is the same for the more informed. -/
theorem requireFinite_refines (opcode : Opcode) {c a : Value} (h : c.Refines a) :
    ResultRefines (fun _ _ => True) (requireFinite opcode c) (requireFinite opcode a) := by
  cases h with
  | float h =>
      rcases h with rfl | rfl
      · exact .of_ok (fun _ => trivial) _
      · exact .refl (fun _ => trivial) _
  | int32 | int64 | nativeInt | object | pointer => trivial

end Value

end CilAnalysis
