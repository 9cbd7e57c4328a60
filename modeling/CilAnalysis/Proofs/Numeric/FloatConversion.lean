import CilAnalysis.Proofs.Numeric.CheckedConversion

/-!
# Checked conversions of floating-point numbers

A finite floating-point number is a rational number, and its conversion to an integer drops the
fraction.  The bounds of the target are compared as floating-point numbers, each rounded to the
nearest one.  That changes nothing for targets of at most 32 bits, whose bounds are such numbers,
and nothing for the lower bound of the others; but the greatest number of 64 bits is rounded up by
one.  So one number too many passes the check of a target of 64 bits, and as it does not fit, it is
found as the least number of the target.  The main result is
`Interpreter.dispatch_checkedFloatConversion`.

## Strategy

* The integer part is computed from mantissa and exponent by natural numbers.  It is that of the
  rational number because a power of two with an integer exponent is a quotient of two natural
  powers, one of which is one (`two_zpow_eq_div`).
* The rounded bounds are the same few numbers for every run, and are computed
  (`IntegerTarget.nearestFloat_least`, `IntegerTarget.nearestFloat_greatest`).
* A number that passes is put in a value as in the conversion of integers, so that what is read back
  is known from there (`IntegerTarget.readAt?_ofNumber`).
-/

namespace CilAnalysis

/-! ## The rational number of a floating-point number -/

/-- The integer part of a rational number. -/
def towardsZero (q : ℚ) : ℤ := if 0 ≤ q then ⌊q⌋ else ⌈q⌉

private theorem towardsZero_neg (q : ℚ) : towardsZero (-q) = -towardsZero q := by
  unfold towardsZero
  rcases lt_trichotomy q 0 with hq | rfl | hq
  · rw [if_pos (neg_nonneg.mpr hq.le), if_neg (not_le.mpr hq), Int.floor_neg]
  · rfl
  · rw [if_neg (not_le.mpr (neg_lt_zero.mpr hq)), if_pos hq.le, Int.ceil_neg]

/-- A power of two as a quotient of natural ones. -/
theorem two_zpow_eq_div (e : ℤ) :
    (2 : ℚ) ^ e = ((Nat.pow 2 e.toNat : ℕ) : ℚ) / ((Nat.pow 2 (-e).toNat : ℕ) : ℚ) := by
  have hsub : e = (e.toNat : ℤ) - ((-e).toNat : ℤ) := by omega
  have hpow (k : ℕ) : ((Nat.pow 2 k : ℕ) : ℚ) = 2 ^ k := Nat.cast_pow 2 k
  calc (2 : ℚ) ^ e
      = 2 ^ ((e.toNat : ℤ) - ((-e).toNat : ℤ)) := by rw [← hsub]
    _ = 2 ^ e.toNat / 2 ^ (-e).toNat := by rw [zpow_sub₀ two_ne_zero, zpow_natCast, zpow_natCast]
    _ = _ := by rw [hpow, hpow]

private theorem towardsZero_mul_zpow (m : ℕ) (e : ℤ) :
    towardsZero (m * 2 ^ e) = ((m * Nat.pow 2 e.toNat / Nat.pow 2 (-e).toNat : ℕ) : ℤ) := by
  calc towardsZero (m * 2 ^ e)
      = ⌊(m : ℚ) * 2 ^ e⌋ := if_pos (by positivity)
    _ = ⌊((m * Nat.pow 2 e.toNat : ℕ) : ℚ) / ((Nat.pow 2 (-e).toNat : ℕ) : ℚ)⌋ := by
        rw [two_zpow_eq_div, ← mul_div_assoc, ← Nat.cast_mul]
    _ = _ := Rat.floor_natCast_div_natCast _ _

namespace Binary

variable {f : BinaryFormat}

/-- The rational number that a finite number is. -/
def value? (x : Binary f) : Option ℚ :=
  match x.decode with
  | .finite negative mantissa exponent =>
    some (if negative then -(mantissa * 2 ^ exponent) else mantissa * 2 ^ exponent)
  | .nan | .infinite _ => none

private theorem truncate?_of_value? {x : Binary f} {q : ℚ} (h : x.value? = some q) :
    x.truncate? = some (towardsZero q) := by
  unfold value? at h
  unfold truncate?
  cases hx : x.decode with
  | nan | infinite => rw [hx] at h; cases h
  | finite negative mantissa exponent =>
      rw [hx] at h
      obtain rfl := Option.some.inj h
      cases negative with
      | false => exact congrArg some (towardsZero_mul_zpow mantissa exponent).symm
      | true =>
          refine congrArg some ?_
          rw [if_pos rfl, if_pos rfl, towardsZero_neg, towardsZero_mul_zpow]

end Binary

/-! ## The bounds as floating-point numbers -/

namespace IntegerTarget

variable (width : PointerWidth) (t : IntegerTarget)

/-- The number just above the range of a target of 64 bits. -/
def JustAbove (n : Int) : Prop := t.bits width = 64 ∧ n = t.greatest width + 1

private theorem nearestFloat_least : nearestFloat (t.least width) = t.least width := by
  cases t <;> cases width <;> decide +kernel

private theorem nearestFloat_greatest :
    nearestFloat (t.greatest width) = t.greatest width + if t.bits width = 64 then 1 else 0 := by
  cases t <;> cases width <;> decide +kernel

/-- The bounds as floating-point numbers admit the range of the target and the number just above. -/
theorem between_nearestFloat_iff (n : Int) :
    (nearestFloat (t.least width) ≤ n && n ≤ nearestFloat (t.greatest width)) = true ↔
      t.Holds width n ∨ t.JustAbove width n := by
  have hle : t.least width ≤ t.greatest width := by
    cases t <;> cases width <;> decide +kernel
  rw [← t.inRange_iff_holds, inRange, nearestFloat_least, nearestFloat_greatest, JustAbove]
  simp only [Bool.and_eq_true, decide_eq_true_iff]
  -- the rounded upper bound is one too great for 64 bits, and exact for fewer
  split <;> omega

private theorem read_ofInt_justAbove {n : Int} (h : t.JustAbove width n) :
    t.signedness.read (BitVec.ofInt (t.bits width) n) = t.least width := by
  obtain ⟨hbits, rfl⟩ := h
  cases t <;> cases width <;> first | exact absurd hbits (by decide) | decide +kernel

end IntegerTarget

namespace Value

variable {width : PointerWidth} {t : IntegerTarget} {x : Binary64} {q : ℚ}

private theorem ofFloat_eq_ok (hx : x.value? = some q)
    (hn : t.Holds width (towardsZero q) ∨ t.JustAbove width (towardsZero q)) :
    ofFloat width t true (.known x) = .ok (t.ofNumber width (towardsZero q)) := by
  have hpart : floatPart? width t x = some (towardsZero q) := by
    rw [floatPart?, Binary.truncate?_of_value? hx, Option.filter_some,
      if_pos ((t.between_nearestFloat_iff width _).mpr hn)]
  rw [ofFloat, hpart]

private theorem ofFloat_eq_overflow (hx : x.value? = some q)
    (hn : ¬ (t.Holds width (towardsZero q) ∨ t.JustAbove width (towardsZero q))) :
    ofFloat width t true (.known x) = .error .overflow := by
  have hpart : floatPart? width t x = none := by
    rw [floatPart?, Binary.truncate?_of_value? hx, Option.filter_some,
      if_neg (fun h => hn ((t.between_nearestFloat_iff width _).mp h))]
  rw [ofFloat, hpart]
  rfl

end Value

/-! ## Execution -/

namespace Interpreter

/-- Let a finite floating-point number be on top of a stack within its limit, and let an instruction
convert it to a target with a check.  The instruction faults with an overflow exactly if the integer
part of the number is neither held by the target nor the number just above a target of 64 bits.  An
integer part that the target holds is read back, at the target's width and signedness, from the
value of the target's kind that comes in its place; of the number just above, the value is the least
one of the target. -/
theorem dispatch_checkedFloatConversion (s : Setting) (m : Machine) {x : Binary64}
    {rest : List Value} (hstack : m.stack = .float (.known x) :: rest)
    (hdepth : m.stack.length ≤ s.options.maxStackDepth) {q : ℚ} (hx : x.value? = some q)
    {i : Instruction} {t : IntegerTarget} {check : Signedness}
    (hop : i.opcode.operation = .convertInteger t (some check)) :
    let n := towardsZero q
    let run := (({} : Interpreter).dispatch s i).run m
    (run.1 = .error .overflow ↔ ¬ t.Holds s.width n ∧ ¬ t.JustAbove s.width n) ∧
      (t.Holds s.width n →
        ∃ v', run = (.ok .fallThrough, { m with stack := v' :: rest }) ∧ v'.kind = t.kind ∧
          v'.isKnown = true ∧ v'.readAt? (t.bits s.width) t.signedness = some n) ∧
      (t.JustAbove s.width n →
        ∃ v', run = (.ok .fallThrough, { m with stack := v' :: rest }) ∧ v'.kind = t.kind ∧
          v'.isKnown = true ∧
          v'.readAt? (t.bits s.width) t.signedness = some (t.least s.width)) := by
  intro n
  have hconvert : (Value.float (.known x)).toIntegerTarget s.width i.opcode t (some check) =
      Value.ofFloat s.width t true (.known x) := rfl
  have hrun := Setting.run_convertInteger hstack hdepth hop
  rw [← dispatch_eq_execute {} s i, hconvert] at hrun
  have hvalue (hn : t.Holds s.width n ∨ t.JustAbove s.width n) :
      (({} : Interpreter).dispatch s i).run m =
        (.ok .fallThrough, { m with stack := t.ofNumber s.width n :: rest }) := by
    rw [hrun, Value.ofFloat_eq_ok hx hn]
  refine ⟨?_, ?_, ?_⟩
  · rw [← not_or]
    by_cases hn : t.Holds s.width n ∨ t.JustAbove s.width n
    · rw [hvalue hn]
      exact iff_of_false (by rintro ⟨⟩) (not_not_intro hn)
    · rw [hrun, Value.ofFloat_eq_overflow hx hn]
      exact iff_of_true rfl hn
  · intro hholds
    refine ⟨_, hvalue (.inl hholds), t.kind_ofNumber _ _, t.isKnown_ofNumber _ _, ?_⟩
    rw [t.readAt?_ofNumber, t.signedness.read_ofInt hholds]
  · intro habove
    refine ⟨_, hvalue (.inr habove), t.kind_ofNumber _ _, t.isKnown_ofNumber _ _, ?_⟩
    rw [t.readAt?_ofNumber, t.read_ofInt_justAbove _ habove]

/-- A state with a floating-point number alone on the stack. -/
def beforeFloat (x : Binary64) : Machine where
  stack := [.float (.known x)]
  frame := ⟨[], []⟩

/-- The greatest floating-point number below `2 ^ 64` is held by 64 unsigned bits. -/
theorem dispatch_checkedFloatConversion_belowBound :
    let x : Binary64 := ⟨0x43efffffffffffff⟩
    let run := (({} : Interpreter).dispatch {} ⟨0, .conv_ovf_u8, .none, 1⟩).run (beforeFloat x)
    x.value? = some 18446744073709549568 ∧
      IntegerTarget.uint64.Holds .bits64 18446744073709549568 ∧ run.1 ≠ .error .overflow ∧
      ∃ v', run = (.ok .fallThrough, { beforeFloat x with stack := [v'] }) ∧ v'.kind = "int64" ∧
        v'.readAt? 64 .unsigned = some 18446744073709549568 := by
  intro x run
  have hx : x.value? = some 18446744073709549568 := by
    have hdecode : x.decode = .finite false 9007199254740991 11 := by decide +kernel
    rw [Binary.value?, hdecode]
    norm_num
  have hpart : towardsZero 18446744073709549568 = 18446744073709549568 := by
    rw [towardsZero, if_pos (by norm_num)]
    norm_num
  have hholds : IntegerTarget.uint64.Holds .bits64 18446744073709549568 :=
    (IntegerTarget.inRange_iff_holds .bits64 .uint64 _).mp (by decide)
  obtain ⟨hfault, hok, -⟩ := dispatch_checkedFloatConversion {} (beforeFloat x) rfl (by decide) hx
    (i := ⟨0, .conv_ovf_u8, .none, 1⟩) rfl
  rw [hpart] at hfault hok
  obtain ⟨v', hrun, hkind, -, hback⟩ := hok hholds
  exact ⟨hx, hholds, fun h => (hfault.mp h).1 hholds, v', hrun, hkind, hback⟩

/-- The number just above those of 64 signed bits passes the check and becomes the least of them. -/
theorem dispatch_checkedFloatConversion_atBound :
    let x : Binary64 := ⟨0x43e0000000000000⟩
    let run := (({} : Interpreter).dispatch {} ⟨0, .conv_ovf_i8, .none, 1⟩).run (beforeFloat x)
    x.value? = some 9223372036854775808 ∧
      ¬ IntegerTarget.int64.Holds .bits64 9223372036854775808 ∧
      run.1.toOption = some .fallThrough ∧
      run.2.stack = [.ofInt64 (-9223372036854775808)] := by
  intro x run
  have hx : x.value? = some 9223372036854775808 := by
    have hdecode : x.decode = .finite false 4503599627370496 11 := by decide +kernel
    rw [Binary.value?, hdecode]
    norm_num
  have hnot : ¬ IntegerTarget.int64.Holds .bits64 9223372036854775808 := by
    rw [← IntegerTarget.inRange_iff_holds]
    decide
  exact ⟨hx, hnot, by decide +kernel, by decide +kernel⟩

end Interpreter

end CilAnalysis
