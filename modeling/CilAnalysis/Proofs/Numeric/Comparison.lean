import CilAnalysis.Numeric.Comparison
import CilAnalysis.Proofs.KnownBits.Precision

/-!
# Orderings of values

Two laws of the orderings are proved for all operands that are not both references: the converse of
an ordering holds of the operands in the other order, and an ordering holds where its negation
fails.  Neither is without exceptions.  The main result is `Comparison.orderings_consistent`.

## Strategy

A comparison brings its operands to a common shape and then asks one question of that shape
(`Comparison.decide_eq_map`).  Operands in the other order have the shape the other way round, or
they are refused in both orders (`NumericOperands.ofValues_swap`).  So the laws are proved shape by
shape.

* Integers and floating-point numbers are compared by less and greater, and the other two orderings
  are defined as their negations.
* No ordering of a pointer and an integer is ever decided.
* Pointers into one block are ordered by the sign of the distance between them, taken modulo
  `2 ^ 64`.

The last shape is the one with exceptions.  The distance from the other side is the negative one,
and the least word is its own negative: of two pointers at half the range from each other, each is
less than the other and neither is greater (`Comparison.toZero_converse_neg_iff`).  The order is
that of the offsets as long as the exact distance fits in 64 bits (`Comparison.toInt_sub_neg_iff`).
-/

namespace CilAnalysis

namespace Value

/-- Whether two values are references. -/
def bothReferences : Value → Value → Bool
  | object _, object _ => true
  | _, _ => false

/-- Whether two values are floating-point numbers. -/
def bothFloats : Value → Value → Bool
  | float _, float _ => true
  | _, _ => false

private theorem bothReferences_comm (v v' : Value) : v.bothReferences v' = v'.bothReferences v := by
  cases v <;> cases v' <;> rfl

/-- Two values are pointers into one block, at half the range of offsets from each other. -/
def Opposite : Value → Value → Prop
  | pointer p, pointer q => p.difference? q = some (BitVec.intMin 64)
  | _, _ => False

end Value

/-- The fault of two values whose kinds do not go together. -/
def Fault.mismatched (lhs rhs : Value) : Fault :=
  invalidProgram ("operands of type " ++ lhs.kind ++ " and " ++ rhs.kind ++ " do not match")

namespace NumericOperands

/-- The operands in the other order. -/
def swap : NumericOperands → NumericOperands
  | int32 x y => int32 y x
  | int64 x y => int64 y x
  | native x y => native y x
  | float x y => float y x
  | pointerInteger p x => integerPointer x p
  | integerPointer x p => pointerInteger p x
  | pointers p q => pointers q p

/-- Whether the operands are floating-point numbers. -/
def areFloats : NumericOperands → Bool
  | float _ _ => true
  | _ => false

/-- The operands are pointers into one block, at half the range of offsets from each other. -/
def Opposite : NumericOperands → Prop
  | pointers p q => p.difference? q = some (BitVec.intMin 64)
  | _ => False

/-- Values that go together do so in either order. -/
theorem ofValues_swap (width : PointerWidth) (lhs rhs : Value) :
    (∃ o, ofValues width lhs rhs = .ok o ∧ ofValues width rhs lhs = .ok o.swap) ∨
      ofValues width lhs rhs = .error (.mismatched lhs rhs) ∧
        ofValues width rhs lhs = .error (.mismatched rhs lhs) := by
  cases lhs <;> cases rhs <;> first | exact .inl ⟨_, rfl, rfl⟩ | exact .inr ⟨rfl, rfl⟩

private theorem areFloats_of_ofValues {width : PointerWidth} {lhs rhs : Value} {o : NumericOperands}
    (h : ofValues width lhs rhs = .ok o) : o.areFloats = lhs.bothFloats rhs := by
  cases lhs <;> cases rhs <;> cases h <;> rfl

private theorem opposite_of_ofValues {width : PointerWidth} {lhs rhs : Value} {o : NumericOperands}
    (h : ofValues width lhs rhs = .ok o) : o.Opposite ↔ lhs.Opposite rhs := by
  cases lhs <;> cases rhs <;> cases h <;> exact Iff.rfl

private theorem not_opposite_of_ofValues {width : PointerWidth} {lhs rhs : Value} {f : Fault}
    (h : ofValues width lhs rhs = .error f) : ¬ lhs.Opposite rhs := by
  cases lhs <;> cases rhs <;> first | exact id | cases h

end NumericOperands

namespace Pointer

variable {p q : Pointer}

private theorem difference?_swap (p q : Pointer) :
    q.difference? p = (p.difference? q).map (- ·) := by
  unfold difference?
  cases p.base with
  | none => cases q.base <;> rfl
  | some h =>
      cases q.base with
      | none => rfl
      | some h' =>
          by_cases heq : h = h'
          · simp only [heq, if_true, Option.map_some, neg_sub]
          · simp only [heq, Ne.symm heq, if_false, Option.map_none]

private theorem difference?_of_base {h : Handle} (hp : p.base = some h) (hq : q.base = some h) :
    p.difference? q = some (p.offset - q.offset) := by
  unfold difference?
  rw [hp, hq]
  exact if_pos rfl

private theorem isEqual_of_base {h : Handle} (hp : p.base = some h) (hq : q.base = some h) :
    p.isEqual q = .ofBool (p.offset == q.offset) := by
  unfold isEqual
  rw [hp, hq]
  exact if_pos rfl

end Pointer

namespace Comparison

/-! ## Comparison shape by shape -/

/-- The relation that holds of the operands in the other order. -/
def converse : Comparison → Comparison
  | equal => equal
  | greater => less
  | less => greater
  | greaterOrEqual => lessOrEqual
  | lessOrEqual => greaterOrEqual

/-- The ordering that fails where an ordering holds.  Of equality, which is not an ordering, no such
relation is at hand: it is left as it is, and what is said of negations is said of the others. -/
def negation : Comparison → Comparison
  | equal => equal
  | greater => lessOrEqual
  | less => greaterOrEqual
  | greaterOrEqual => less
  | lessOrEqual => greater

/-- Whether a relation holds between operands of a common shape. -/
def onOperands (width : PointerWidth) (unsigned : Bool) (c : Comparison) (o : NumericOperands) :
    Ternary :=
  let s : Signedness := if unsigned then .unsigned else .signed
  match o with
  | .int32 x y => c.onIntegers s x y
  | .int64 x y => c.onIntegers s x y
  | .native x y =>
    match width with
    | .bits32 => c.onIntegers s (x.truncate 32) (y.truncate 32)
    | .bits64 => c.onIntegers s x y
  | .float x y => c.onFloats unsigned x y
  | .pointers p q => c.onPointers p q
  | .pointerInteger p x | .integerPointer x p => c.onPointerAndInteger p x

private theorem decide_eq_map (width : PointerWidth) (c : Comparison) (unsigned : Bool)
    {lhs rhs : Value} (hrefs : lhs.bothReferences rhs = false) :
    c.decide width unsigned lhs rhs =
      (NumericOperands.ofValues width lhs rhs).map (c.onOperands width unsigned) := by
  cases lhs <;> cases rhs <;> cases width <;> first | rfl | cases hrefs

/-! ## Negation -/

section

variable {c : Comparison} (hc : c ≠ equal)
include hc

private theorem negation_ne_equal : c.negation ≠ equal := by
  cases c <;> first | exact absurd rfl hc | decide

private theorem toZero_negation (n : Int) : c.negation.toZero n = !c.toZero n := by
  cases c with
  | equal => exact absurd rfl hc
  | greater | less | greaterOrEqual | lessOrEqual =>
      simp only [negation, toZero, ← decide_not, ge_iff_le, gt_iff_lt, not_lt, not_le]

private theorem onIntegers_negation {w : Nat} (s : Signedness) (x y : KnownBits w) :
    c.negation.onIntegers s x y = (c.onIntegers s x y).not := by
  cases c with
  | equal => exact absurd rfl hc
  | greater | less => rfl
  | greaterOrEqual | lessOrEqual => exact (Ternary.not_not _).symm

private theorem onFloats_negation (orUnordered : Bool) (x y : PartialFloat .double) :
    c.negation.onFloats (!orUnordered) x y = (c.onFloats orUnordered x y).not := by
  cases c with
  | equal => exact absurd rfl hc
  | greater | less => simp only [negation, onFloats, Bool.not_not]
  | greaterOrEqual | lessOrEqual => simp only [negation, onFloats, Ternary.not_not]

private theorem onPointers_negation (p q : Pointer) :
    c.negation.onPointers p q = (c.onPointers p q).not := by
  unfold onPointers
  rw [if_neg hc, if_neg (negation_ne_equal hc)]
  cases p.difference? q with
  | none => rfl
  | some d =>
      dsimp only
      rw [toZero_negation hc]
      cases c.toZero d.toInt <;> rfl

private theorem onPointerAndInteger_eq_unknown (p : Pointer) (x : KnownBits 64) :
    c.onPointerAndInteger p x = .unknown :=
  if_neg fun h => hc h.1

private theorem onOperands_negation (width : PointerWidth) (unsigned : Bool) (o : NumericOperands) :
    c.negation.onOperands width (unsigned ^^ o.areFloats) o =
      (c.onOperands width unsigned o).not := by
  cases o with
  | int32 x y | int64 x y =>
      simp only [NumericOperands.areFloats, Bool.xor_false]
      exact onIntegers_negation hc _ x y
  | native x y =>
      simp only [NumericOperands.areFloats, Bool.xor_false]
      cases width <;> exact onIntegers_negation hc _ _ _
  | float x y =>
      simp only [NumericOperands.areFloats, Bool.xor_true]
      exact onFloats_negation hc unsigned x y
  | pointers p q => exact onPointers_negation hc p q
  | pointerInteger p x | integerPointer x p =>
      -- no ordering of a pointer and an integer is ever decided
      simp only [onOperands, onPointerAndInteger_eq_unknown hc,
        onPointerAndInteger_eq_unknown (negation_ne_equal hc), Ternary.not]

/-- An ordering holds where its negation fails; of floating-point numbers, the negation has the
other answer for unordered ones. -/
theorem decide_negation (width : PointerWidth) (unsigned : Bool) {lhs rhs : Value}
    (hrefs : lhs.bothReferences rhs = false) :
    c.negation.decide width (unsigned ^^ lhs.bothFloats rhs) lhs rhs =
      (c.decide width unsigned lhs rhs).map Ternary.not := by
  rw [decide_eq_map _ _ _ hrefs, decide_eq_map _ _ _ hrefs]
  cases h : NumericOperands.ofValues width lhs rhs with
  | error f => rfl
  | ok o =>
      rw [← NumericOperands.areFloats_of_ofValues h]
      exact congrArg Except.ok (onOperands_negation hc width unsigned o)

end

/-! ## Converses -/

/-- Comparisons of two values in the one order and in the other have the same answer, or both refuse
the kinds of the values, each in its own order. -/
inductive Mirrored (lhs rhs : Value) : Except Fault Ternary → Except Fault Ternary → Prop
  | answered (t : Ternary) : Mirrored lhs rhs (.ok t) (.ok t)
  | refused : Mirrored lhs rhs (.error (.mismatched lhs rhs)) (.error (.mismatched rhs lhs))

private theorem mirrored_ok_iff {lhs rhs : Value} {t t' : Ternary} :
    Mirrored lhs rhs (.ok t) (.ok t') ↔ t = t' := by
  constructor
  · rintro ⟨⟩
    rfl
  · rintro rfl
    exact .answered t

private theorem toZero_converse_neg (c : Comparison) (n : Int) :
    c.converse.toZero (-n) = c.toZero n := by
  cases c <;> simp [converse, toZero]

section

variable {c : Comparison} (hc : c ≠ equal)
include hc

private theorem converse_ne_equal : c.converse ≠ equal := by
  cases c <;> first | exact absurd rfl hc | decide

/-- The least word is its own negative, and so an ordering and its converse differ on it. -/
theorem toZero_converse_neg_iff (d : BitVec 64) :
    c.toZero d.toInt = c.converse.toZero (-d).toInt ↔ d ≠ BitVec.intMin 64 := by
  by_cases hd : d = BitVec.intMin 64
  · subst hd
    cases c <;> first | exact absurd rfl hc | decide
  · rw [BitVec.toInt_neg_of_ne_intMin hd, toZero_converse_neg]
    exact iff_of_true rfl hd

private theorem onPointers_converse_iff (p q : Pointer) :
    c.onPointers p q = c.converse.onPointers q p ↔ p.difference? q ≠ some (BitVec.intMin 64) := by
  unfold onPointers
  rw [if_neg hc, if_neg (converse_ne_equal hc), p.difference?_swap q]
  cases p.difference? q with
  | none => exact iff_of_true rfl nofun
  | some d =>
      rw [Option.map_some, Ternary.ofBool_inj, toZero_converse_neg_iff hc, Ne, Ne,
        Option.some.injEq]

private theorem onOperands_converse_iff (width : PointerWidth) (unsigned : Bool)
    (o : NumericOperands) :
    c.onOperands width unsigned o = c.converse.onOperands width unsigned o.swap ↔
      ¬ o.Opposite := by
  cases o with
  | int32 | int64 | float =>
      refine iff_of_true ?_ id
      cases c <;> first | rfl | exact absurd rfl hc
  | native =>
      refine iff_of_true ?_ id
      cases width <;> cases c <;> first | rfl | exact absurd rfl hc
  | pointers p q => exact onPointers_converse_iff hc p q
  | pointerInteger p x | integerPointer x p =>
      refine iff_of_true ?_ id
      simp only [onOperands, NumericOperands.swap, onPointerAndInteger_eq_unknown hc,
        onPointerAndInteger_eq_unknown (converse_ne_equal hc)]

/-- An ordering and its converse go together but for pointers at half the range from each other. -/
theorem mirrored_converse_iff (width : PointerWidth) (unsigned : Bool) {lhs rhs : Value}
    (hrefs : lhs.bothReferences rhs = false) :
    Mirrored lhs rhs (c.decide width unsigned lhs rhs) (c.converse.decide width unsigned rhs lhs) ↔
      ¬ lhs.Opposite rhs := by
  rw [decide_eq_map _ _ _ hrefs, decide_eq_map _ _ _ (Value.bothReferences_comm rhs lhs ▸ hrefs)]
  rcases NumericOperands.ofValues_swap width lhs rhs with ⟨o, ho, hswap⟩ | ⟨herror, hswap⟩
  · rw [ho, hswap, ← NumericOperands.opposite_of_ofValues ho]
    exact mirrored_ok_iff.trans (onOperands_converse_iff hc width unsigned o)
  · rw [herror, hswap]
    exact iff_of_true .refused (NumericOperands.not_opposite_of_ofValues herror)

end

/-! ## Pointers into one block -/

section

variable {p q : Pointer} {h : Handle} (hp : p.base = some h) (hq : q.base = some h)
include hp hq

/-- Every relation between pointers into one block is a relation of their distance to zero. -/
theorem onPointers_of_base (c : Comparison) :
    c.onPointers p q = .ofBool (c.toZero (p.offset - q.offset).toInt) := by
  unfold onPointers
  split
  next hc =>
    rw [Pointer.isEqual_of_base hp hq, hc, Ternary.ofBool_inj, Bool.eq_iff_iff, beq_iff_eq, toZero,
      decide_eq_true_iff, ← BitVec.toInt_zero (w := 64), BitVec.toInt_inj]
    exact sub_eq_zero.symm
  next => rw [Pointer.difference?_of_base hp hq]

end

/-- A number is in exactly one of three relations to zero. -/
theorem existsUnique_toZero (n : Int) :
    ∃! c, c ∈ [less, equal, greater] ∧ c.toZero n = true := by
  apply existsUnique_of_exists_of_unique
  · rcases lt_trichotomy n 0 with hn | hn | hn
    · exact ⟨less, by decide, decide_eq_true hn⟩
    · exact ⟨equal, by decide, decide_eq_true hn⟩
    · exact ⟨greater, by decide, decide_eq_true hn⟩
  · rintro c c' ⟨hmem, hc⟩ ⟨hmem', hc'⟩
    -- Two different ones of the three cannot hold of one number.
    fin_cases hmem <;> fin_cases hmem' <;> simp only [toZero, decide_eq_true_iff] at hc hc' <;>
      first | rfl | omega

/-- The sign of the distance modulo `2 ^ 64` is that of the exact distance where that fits, and the
other one where it does not. -/
theorem toInt_sub_neg_iff (a b : BitVec 64) :
    ((a - b).toInt < 0 ↔ a.toInt < b.toInt) ↔
      Signedness.signed.fits 64 (a.toInt - b.toInt) = true := by
  have ha := a.two_mul_toInt_lt
  have ha' := a.le_two_mul_toInt
  have hb := b.two_mul_toInt_lt
  have hb' := b.le_two_mul_toInt
  rw [BitVec.toInt_sub, Signedness.fits, decide_eq_true_iff]
  change _ ↔ -(9223372036854775808 : Int) ≤ _ ∧ _ ≤ (9223372036854775808 : Int) - 1
  -- the remainder is the exact distance or differs from it by `2 ^ 64`, which turns its sign
  rw [Int.bmod_def]
  split <;> omega

/-- Let two values not both be references.  An ordering, and its converse on the values in the other
order, have the same answer, or both refuse the kinds of the values, exactly if the values are not
pointers into one block at half the range of offsets from each other.  Of two pointers into one
block exactly one of less, equal and greater is known to hold, and less is the order of their signed
offsets exactly if the distance between these fits in 64 bits. -/
theorem orderings_consistent (width : PointerWidth) (unsigned : Bool) :
    (∀ lhs rhs : Value, lhs.bothReferences rhs = false →
      (Mirrored lhs rhs (greater.decide width unsigned lhs rhs)
        (less.decide width unsigned rhs lhs) ↔ ¬ lhs.Opposite rhs) ∧
      (Mirrored lhs rhs (greaterOrEqual.decide width unsigned lhs rhs)
        (lessOrEqual.decide width unsigned rhs lhs) ↔ ¬ lhs.Opposite rhs)) ∧
    ∀ (p q : Pointer) (h : Handle), p.base = some h → q.base = some h →
      (∃! c, c ∈ [less, equal, greater] ∧
        c.decide width unsigned (.pointer p) (.pointer q) = .ok .true) ∧
      (less.decide width unsigned (.pointer p) (.pointer q) =
          .ok (.ofBool (Decidable.decide (p.offset.toInt < q.offset.toInt))) ↔
        Signedness.signed.fits 64 (p.offset.toInt - q.offset.toInt) = true) := by
  constructor
  · intro lhs rhs hrefs
    exact ⟨mirrored_converse_iff (by decide) width unsigned hrefs,
      mirrored_converse_iff (by decide) width unsigned hrefs⟩
  · intro p q h hp hq
    have hdecide (c : Comparison) : c.decide width unsigned (.pointer p) (.pointer q) =
        .ok (.ofBool (c.toZero (p.offset - q.offset).toInt)) := by
      rw [decide_eq_map _ _ _ rfl]
      exact congrArg Except.ok (onPointers_of_base hp hq c)
    constructor
    · have htrue : Ternary.true = .ofBool true := rfl
      simp only [hdecide, Except.ok.injEq, htrue, Ternary.ofBool_inj]
      exact existsUnique_toZero (p.offset - q.offset).toInt
    · rw [hdecide, Except.ok.injEq, Ternary.ofBool_inj, toZero, decide_eq_decide]
      exact toInt_sub_neg_iff p.offset q.offset

/-- The pointer into the first block of the heap with an offset. -/
def intoFirst (offset : Int) : Pointer := ⟨some ⟨0⟩, BitVec.ofInt 64 offset, .bits64⟩

/-- Two pointers whose distance is one more than half the range: the orderings go together, but the
pointer with the lesser offset is the greater one. -/
theorem orderings_consistent_farApart :
    let p := intoFirst (-5)
    let q := intoFirst 0x7ffffffffffffffc
    (¬ (Value.pointer p).Opposite (.pointer q) ∧
      Mirrored (.pointer p) (.pointer q) (greater.decide .bits64 false (.pointer p) (.pointer q))
        (less.decide .bits64 false (.pointer q) (.pointer p))) ∧
    (∃! c, c ∈ [less, equal, greater] ∧
      c.decide .bits64 false (.pointer p) (.pointer q) = .ok .true) ∧
    less.decide .bits64 false (.pointer p) (.pointer q) ≠
      .ok (.ofBool (Decidable.decide (p.offset.toInt < q.offset.toInt))) := by
  intro p q
  have hlaws := orderings_consistent .bits64 false
  have hfar : ¬ (Value.pointer p).Opposite (.pointer q) := by
    intro h
    exact absurd (Option.some.inj h) (by decide)
  obtain ⟨hunique, hless⟩ := hlaws.2 p q ⟨0⟩ rfl rfl
  exact ⟨⟨hfar, (hlaws.1 (.pointer p) (.pointer q) rfl).1.mpr hfar⟩, hunique,
    fun h => absurd (hless.mp h) (by decide)⟩

/-- Two pointers at half the range from each other are each less than the other, although only one
of their offsets is less; neither is greater. -/
theorem opposite_less_both_ways :
    let p := intoFirst 0
    let q := intoFirst (-0x8000000000000000)
    q.offset.toInt < p.offset.toInt ∧
      less.decide .bits64 false (.pointer p) (.pointer q) = .ok .true ∧
      less.decide .bits64 false (.pointer q) (.pointer p) = .ok .true ∧
      greater.decide .bits64 false (.pointer p) (.pointer q) = .ok .false := by
  decide

end Comparison

end CilAnalysis
