import CilAnalysis.Proofs.Information.Bits

/-!
# What the operations on partly known words compute

A description stands for the words that have its known bits.  An operation on descriptions is right
when its result describes what the machine's operation makes of the described words, whichever they
are, and knows all of the result when it knows all of the operands.  The main result is
`KnownBits.operations_faithful`, which says this of all of them.

## Strategy

A word belongs to a description exactly when the description of this word alone refines it
(`mem_iff_refines`).  Operations keep the information order, so all that is left to check is what
they do with operands that are known altogether.

* `not_exact`, `and_exact`, …, `resize_exact` say that on such operands the operations compute what
  the machine does.
* Questions go the same way: an answer about a description is one about all words of it
  (`Answers₂.of_refines`).
* The arithmetic that can be refused is known only for operands that are known (`checked_eq_ok`),
  and there the question is which exact results fit.

Division needs more.  Of the quotients, only that of the least signed word by minus one does not fit
(`overflows_tdiv_iff`).  A remainder always fits, and no overflow is reported for it.
-/

namespace CilAnalysis

open BitVec

/-! ## The machine's operations that depend on signedness -/

namespace Signedness

variable {w : Nat}

/-- Shift towards the low end. -/
def shiftRight (s : Signedness) (a : BitVec w) (n : Nat) : BitVec w :=
  match s with
  | signed => a.sshiftRight n
  | unsigned => a >>> n

/-- Change the width. -/
def extend (s : Signedness) (w' : Nat) (a : BitVec w) : BitVec w' :=
  match s with
  | signed => a.signExtend w'
  | unsigned => a.setWidth w'

/-- The quotient, rounded towards zero. -/
def quotient (s : Signedness) (a b : BitVec w) : BitVec w :=
  match s with
  | signed => a.sdiv b
  | unsigned => a / b

/-- The remainder of the quotient rounded towards zero. -/
def remainder (s : Signedness) (a b : BitVec w) : BitVec w :=
  match s with
  | signed => a.srem b
  | unsigned => a % b

theorem ofInt_read (s : Signedness) (a : BitVec w) : BitVec.ofInt w (s.read a) = a := by
  cases s with
  | signed => exact ofInt_toInt
  | unsigned =>
      rw [read, ofInt_natCast]
      exact (ofNat_toNat w a).trans a.setWidth_eq

end Signedness

namespace KnownBits

variable {w w' : Nat}

/-! ## Words that are known altogether -/

@[simp] theorem isKnown_exact (a : BitVec w) : (exact a).isKnown = true := by
  simp [isKnown, exact]

@[simp] theorem toBitVec?_exact (a : BitVec w) : (exact a).toBitVec? = some a := by
  simp [toBitVec?, exact, isKnown]

theorem toBitVec?_eq_some_iff {x : KnownBits w} {a : BitVec w} :
    x.toBitVec? = some a ↔ x = exact a := by
  constructor
  · intro h
    unfold toBitVec? at h
    split at h
    next hknown =>
      obtain rfl := Option.some.inj h
      have hones : x.known = allOnes w := by simpa [isKnown] using hknown
      ext1
      · simp [exact]
      · simp [exact, hones]
    next => exact absurd h.symm (Option.some_ne_none a)
  · rintro rfl
    exact toBitVec?_exact a

theorem isKnown_iff {x : KnownBits w} : x.isKnown = true ↔ ∃ a, x = exact a := by
  constructor
  · intro h
    exact ⟨x.value, toBitVec?_eq_some_iff.mp (by simp [toBitVec?, h])⟩
  · rintro ⟨a, rfl⟩
    exact isKnown_exact a

private theorem toBitVec?_eq_none_iff {x : KnownBits w} :
    x.toBitVec? = none ↔ ∀ a, x ≠ exact a := by
  rw [Option.eq_none_iff_forall_ne_some]
  simp only [ne_eq, toBitVec?_eq_some_iff]

theorem exact_inj {a b : BitVec w} : exact a = exact b ↔ a = b := by
  constructor
  · intro h
    have hbits := congrArg toBitVec? h
    rwa [toBitVec?_exact, toBitVec?_exact, Option.some_inj] at hbits
  · exact congrArg exact

/-- A word has the known bits of a description if the description of it alone says at least as
much. -/
theorem mem_iff_refines {a : BitVec w} {x : KnownBits w} : a ∈ x ↔ (exact a).Refines x := by
  have hbit : ∀ i < w, ((exact a).bit i).Refines (x.bit i) ↔
      (a.getLsbD i && x.known.getLsbD i) = x.value.getLsbD i := by
    intro i hi
    have hx := @known_of_value w x i
    rw [bit_exact a hi, bit]
    revert hx
    cases x.known.getLsbD i <;> cases x.value.getLsbD i <;> cases a.getLsbD i <;>
      simp [Ternary.ofBool, Ternary.Refines]
  rw [mem_iff]
  constructor
  · intro h
    apply refines_of_lt
    intro i hi
    rw [hbit i hi, ← getLsbD_and, h]
  · intro h
    apply eq_of_getLsbD_eq
    intro i hi
    rw [getLsbD_and]
    exact (hbit i hi).mp (h i)

theorem mem_exact_iff {a b : BitVec w} : a ∈ exact b ↔ a = b := by
  rw [mem_iff_refines]
  constructor
  · intro h
    exact exact_inj.mp (h.eq_of_isKnown (isKnown_exact b))
  · rintro rfl
    exact .refl _

private theorem mem_unknown (a : BitVec w) : a ∈ (unknown : KnownBits w) :=
  mem_iff_refines.mpr (.of_unknown _)

/-! ## Results that are always given -/

/-- `f` describes what `op` makes of each described word, and knows all of it when it knows all of
the operand. -/
def Computes (f : KnownBits w → KnownBits w') (op : BitVec w → BitVec w') : Prop :=
  ∀ x, (∀ a ∈ x, op a ∈ f x) ∧ (x.isKnown → (f x).isKnown)

/-- The same of an operation with two operands. -/
def Computes₂ (f : KnownBits w → KnownBits w → KnownBits w)
    (op : BitVec w → BitVec w → BitVec w) : Prop :=
  ∀ x y, (∀ a ∈ x, ∀ b ∈ y, op a b ∈ f x y) ∧ (x.isKnown → y.isKnown → (f x y).isKnown)

private theorem Computes.of_refines {f : KnownBits w → KnownBits w'} {op : BitVec w → BitVec w'}
    (hmono : ∀ {c a}, Refines c a → Refines (f c) (f a))
    (hexact : ∀ a, f (exact a) = exact (op a)) : Computes f op := by
  intro x
  constructor
  · intro a ha
    rw [mem_iff_refines, ← hexact]
    exact hmono (mem_iff_refines.mp ha)
  · intro hx
    obtain ⟨a, rfl⟩ := isKnown_iff.mp hx
    rw [hexact]
    exact isKnown_exact _

private theorem Computes₂.of_refines {f : KnownBits w → KnownBits w → KnownBits w}
    {op : BitVec w → BitVec w → BitVec w}
    (hmono : ∀ {c a c' a'}, Refines c a → Refines c' a' → Refines (f c c') (f a a'))
    (hexact : ∀ a b, f (exact a) (exact b) = exact (op a b)) : Computes₂ f op := by
  intro x y
  constructor
  · intro a ha b hb
    rw [mem_iff_refines, ← hexact]
    exact hmono (mem_iff_refines.mp ha) (mem_iff_refines.mp hb)
  · intro hx hy
    obtain ⟨a, rfl⟩ := isKnown_iff.mp hx
    obtain ⟨b, rfl⟩ := isKnown_iff.mp hy
    rw [hexact]
    exact isKnown_exact _

/-! ### Bit by bit -/

private theorem not_exact (a : BitVec w) : (exact a).not = exact (~~~a) := by
  apply ext_bit
  intro i hi
  rw [bit_not, bit_exact _ hi, bit_exact _ hi, getLsbD_not]
  cases a.getLsbD i <;> simp [hi, Ternary.ofBool, Ternary.not]

private theorem and_exact (a b : BitVec w) : (exact a).and (exact b) = exact (a &&& b) := by
  apply ext_bit
  intro i hi
  rw [bit_and, bit_exact _ hi, bit_exact _ hi, bit_exact _ hi, getLsbD_and]
  cases a.getLsbD i <;> cases b.getLsbD i <;> rfl

private theorem or_exact (a b : BitVec w) : (exact a).or (exact b) = exact (a ||| b) := by
  apply ext_bit
  intro i hi
  rw [bit_or, bit_exact _ hi, bit_exact _ hi, bit_exact _ hi, getLsbD_or]
  cases a.getLsbD i <;> cases b.getLsbD i <;> rfl

private theorem xor_exact (a b : BitVec w) : (exact a).xor (exact b) = exact (a ^^^ b) := by
  apply ext_bit
  intro i hi
  rw [bit_xor, bit_exact _ hi, bit_exact _ hi, bit_exact _ hi, getLsbD_xor]
  cases a.getLsbD i <;> cases b.getLsbD i <;> rfl

theorem shiftLeft_exact (a : BitVec w) (amount : Nat) :
    (exact a).shiftLeft amount = exact (a <<< (amount % w)) := by
  apply ext_bit
  intro i hi
  rw [bit_shiftLeft _ _ hi, bit_exact _ hi, getLsbD_shiftLeft]
  by_cases hlow : i < amount % w
  · simp [hlow, Ternary.ofBool]
  · rw [if_neg hlow, bit_exact a (by omega)]
    simp [hi, hlow]

/-- What comes in at the high end of a word that is known. -/
theorem fill_exact (a : BitVec w) (hw : 0 < w) (s : Signedness) :
    (exact a).fill s = Ternary.ofBool (decide (s = .signed) && a.msb) := by
  cases s with
  | signed => rw [fill, bit_exact a (by omega), msb_eq_getLsbD_last]; simp
  | unsigned => rfl

theorem shiftRight_exact (a : BitVec w) (amount : Nat) (s : Signedness) :
    (exact a).shiftRight amount s = exact (s.shiftRight a (amount % w)) := by
  apply ext_bit
  intro i hi
  have hbound : ¬ w ≤ i := by omega
  rw [bit_shiftRight _ _ _ hi, bit_exact _ hi, fill_exact a (by omega)]
  by_cases hin : i + amount % w < w
  · rw [if_pos hin, bit_exact a hin]
    cases s with
    | signed =>
        simp [Signedness.shiftRight, getLsbD_sshiftRight, hbound, hin, Nat.add_comm]
    | unsigned => simp [Signedness.shiftRight, Nat.add_comm]
  · rw [if_neg hin]
    cases s with
    | signed =>
        simp [Signedness.shiftRight, getLsbD_sshiftRight, hbound, hin, Nat.add_comm]
    | unsigned =>
        have hout : a.getLsbD (amount % w + i) = false := getLsbD_of_ge _ _ (by omega)
        simp [Signedness.shiftRight, hout]

theorem resize_exact (a : BitVec w) (hw : 0 < w) (s : Signedness) :
    (exact a).resize w' s = exact (s.extend w' a) := by
  apply ext_bit
  intro i hi
  rw [bit_resize _ _ hi, bit_exact _ hi, fill_exact a hw]
  by_cases hin : i < w
  · rw [if_pos hin, bit_exact a hin]
    cases s with
    | signed => rw [Signedness.extend, getLsbD_signExtend]; simp [hi, hin]
    | unsigned => simp [Signedness.extend, hi]
  · rw [if_neg hin]
    cases s with
    | signed => rw [Signedness.extend, getLsbD_signExtend]; simp [hi, hin]
    | unsigned =>
        have hout : a.getLsbD i = false := getLsbD_of_ge _ _ (by omega)
        simp [Signedness.extend, hout]

/-! ### On all bits at once -/

private theorem map₂_exact (f : BitVec w → BitVec w → BitVec w) (a b : BitVec w) :
    map₂ f (exact a) (exact b) = exact (f a b) := by
  simp [map₂]

private theorem neg_exact (a : BitVec w) : (exact a).neg = exact (-a) := by
  simp [neg]

/-! ## Results that may be refused -/

/-- `f` describes, where it answers, what `op` makes of the described words, and knows all of it
when it knows all of the operands; it refuses an answer for just the reasons that `Fails` gives. -/
structure ComputesChecked (f : KnownBits w → KnownBits w → Except Error (KnownBits w))
    (op : BitVec w → BitVec w → BitVec w) (Fails : KnownBits w → KnownBits w → Error → Prop) :
    Prop where
  sound : ∀ x y z, f x y = .ok z → ∀ a ∈ x, ∀ b ∈ y, op a b ∈ z
  known : ∀ x y z, f x y = .ok z → x.isKnown → y.isKnown → z.isKnown
  refused : ∀ x y e, f x y = .error e ↔ Fails x y e

/-- Both operands are known and the exact result lies outside the range of the width. -/
def Overflows (f : Int → Int → Int) (s : Signedness) (x y : KnownBits w) : Prop :=
  ∃ a b, x = exact a ∧ y = exact b ∧
    (f (s.read a) (s.read b) < s.least w ∨ s.greatest w < f (s.read a) (s.read b))

theorem checked_eq_error_iff {f : Int → Int → Int} {s : Signedness} {x y : KnownBits w}
    {e : Error} :
    checked f s x y = .error e ↔ e = .arithmeticOverflow ∧ Overflows f s x y := by
  unfold checked Overflows
  cases hx : x.toBitVec? with
  | none =>
      have hne := toBitVec?_eq_none_iff.mp hx
      constructor
      · exact nofun
      · rintro ⟨-, a, b, ha, -⟩
        exact absurd ha (hne a)
  | some a =>
      cases hy : y.toBitVec? with
      | none =>
          have hne := toBitVec?_eq_none_iff.mp hy
          constructor
          · exact nofun
          · rintro ⟨-, a, b, -, hb, -⟩
            exact absurd hb (hne b)
      | some b =>
          obtain rfl := toBitVec?_eq_some_iff.mp hx
          obtain rfl := toBitVec?_eq_some_iff.mp hy
          simp only [exact_inj, Signedness.fits, decide_eq_true_eq]
          constructor
          · intro h
            split at h
            next => exact nomatch h
            next hfits =>
              obtain rfl := Except.error.inj h
              exact ⟨rfl, a, b, rfl, rfl, by omega⟩
          · rintro ⟨rfl, a', b', rfl, rfl, hout⟩
            rw [if_neg (by omega)]

/-- A checked result is unknown, or that of operands which are known. -/
theorem checked_eq_ok {f : Int → Int → Int} {s : Signedness} {x y z : KnownBits w}
    (h : checked f s x y = .ok z) :
    (z = unknown ∧ ¬ (x.isKnown ∧ y.isKnown)) ∨
      ∃ a b, x = exact a ∧ y = exact b ∧ z = exact (.ofInt w (f (s.read a) (s.read b))) := by
  unfold checked at h
  cases hx : x.toBitVec? with
  | none =>
      rw [hx] at h
      obtain rfl := Except.ok.inj h
      refine Or.inl ⟨rfl, fun hknown => ?_⟩
      obtain ⟨a, ha⟩ := isKnown_iff.mp hknown.1
      exact toBitVec?_eq_none_iff.mp hx a ha
  | some a =>
      cases hy : y.toBitVec? with
      | none =>
          rw [hx, hy] at h
          obtain rfl := Except.ok.inj h
          refine Or.inl ⟨rfl, fun hknown => ?_⟩
          obtain ⟨b, hb⟩ := isKnown_iff.mp hknown.2
          exact toBitVec?_eq_none_iff.mp hy b hb
      | some b =>
          rw [hx, hy] at h
          dsimp only at h
          split at h
          next =>
            obtain rfl := Except.ok.inj h
            exact Or.inr ⟨a, b, toBitVec?_eq_some_iff.mp hx, toBitVec?_eq_some_iff.mp hy, rfl⟩
          next => exact nomatch h

/-- An operation on numbers that is computed modulo the width is right where it answers. -/
theorem computesChecked_checked {f : Int → Int → Int} {s : Signedness}
    {op : BitVec w → BitVec w → BitVec w}
    (hop : ∀ a b, BitVec.ofInt w (f (s.read a) (s.read b)) = op a b) :
    ComputesChecked (checked f s) op
      (fun x y e => e = .arithmeticOverflow ∧ Overflows f s x y) where
  sound := by
    intro x y z h a ha b hb
    rcases checked_eq_ok h with ⟨rfl, -⟩ | ⟨a', b', rfl, rfl, rfl⟩
    · exact mem_unknown _
    · obtain rfl := mem_exact_iff.mp ha
      obtain rfl := mem_exact_iff.mp hb
      exact mem_exact_iff.mpr (hop a b).symm
  known := by
    intro x y z h hx hy
    rcases checked_eq_ok h with ⟨-, hunknown⟩ | ⟨a, b, -, -, rfl⟩
    · exact absurd ⟨hx, hy⟩ hunknown
    · exact isKnown_exact _
  refused := fun x y e => checked_eq_error_iff

/-! ### Quotients -/

/-- The only quotient that does not fit is that of the least signed word by minus one. -/
theorem overflows_tdiv_iff (hw : 0 < w) {s : Signedness} {x y : KnownBits w} :
    Overflows Int.tdiv s x y ↔
      s = .signed ∧ x = exact (BitVec.intMin w) ∧ y = exact (BitVec.allOnes w) := by
  unfold Overflows
  cases s with
  | unsigned =>
      -- A quotient of natural numbers is no greater than the dividend.
      constructor
      · rintro ⟨a, b, -, -, hout⟩
        have hlt : a.toNat / b.toNat < Nat.pow 2 w :=
          lt_of_le_of_lt (Nat.div_le_self _ _) a.isLt
        simp only [Signedness.read, Signedness.least, Signedness.greatest, ← Int.ofNat_tdiv] at hout
        generalize a.toNat / b.toNat = n at hlt hout
        omega
      · rintro ⟨hs, -⟩
        exact nomatch hs
  | signed =>
      have hmin : (intMin w).toInt = -(Nat.pow 2 (w - 1) : Nat) := by
        have hlt : 2 ^ (w - 1) < 2 ^ w := Nat.pow_lt_pow_right (by omega) (by omega)
        rw [toInt_intMin, Nat.mod_eq_of_lt hlt]
        rfl
      have hone : (allOnes w).toInt = -1 := by rw [toInt_allOnes, if_pos hw]
      simp only [Signedness.read, Signedness.least, Signedness.greatest]
      constructor
      · rintro ⟨a, b, rfl, rfl, hout⟩
        by_contra hne
        -- All other quotients are words, and these lie within the bounds.
        have hother : a ≠ intMin w ∨ b ≠ -1#w := by
          rw [neg_one_eq_allOnes]
          by_contra hboth
          push Not at hboth
          exact hne ⟨trivial, by rw [hboth.1], by rw [hboth.2]⟩
        rw [← toInt_sdiv_of_ne_or_ne a b hother] at hout
        have hlow := le_toInt (a.sdiv b)
        have hhigh := toInt_lt (x := a.sdiv b)
        have hpow : ((Nat.pow 2 (w - 1) : Nat) : Int) = 2 ^ (w - 1) := by
          exact Nat.cast_pow 2 (w - 1)
        omega
      · rintro ⟨-, rfl, rfl⟩
        refine ⟨_, _, rfl, rfl, Or.inr ?_⟩
        rw [hmin, hone, Int.tdiv_neg, Int.tdiv_one]
        omega

private theorem ofInt_tdiv_read (s : Signedness) (a b : BitVec w) :
    BitVec.ofInt w ((s.read a).tdiv (s.read b)) = s.quotient a b := by
  cases s with
  | signed =>
      apply eq_of_toInt_eq
      rw [toInt_ofInt, Signedness.quotient, toInt_sdiv]
      rfl
  | unsigned =>
      apply eq_of_toNat_eq
      rw [Signedness.read, Signedness.read, ← Int.ofNat_tdiv, ofInt_natCast,
        Signedness.quotient, toNat_udiv, toNat_ofNat]
      exact Nat.mod_eq_of_lt (lt_of_le_of_lt (Nat.div_le_self _ _) a.isLt)

private theorem ofInt_tmod_read (s : Signedness) (a b : BitVec w) :
    BitVec.ofInt w ((s.read a).tmod (s.read b)) = s.remainder a b := by
  cases s with
  | signed =>
      rw [Signedness.read, Signedness.read, Signedness.remainder, ← toInt_srem]
      exact ofInt_toInt
  | unsigned =>
      apply eq_of_toNat_eq
      rw [Signedness.read, Signedness.read, ← Int.ofNat_tmod, ofInt_natCast,
        Signedness.remainder, toNat_umod, toNat_ofNat]
      exact Nat.mod_eq_of_lt (lt_of_le_of_lt (Nat.mod_le _ _) a.isLt)

/-- The divisor is known to be zero. -/
def DividesByZero (y : KnownBits w) (e : Error) : Prop := e = .divideByZero ∧ y = exact 0#w

private theorem computesChecked_div (hw : 0 < w) (s : Signedness) :
    ComputesChecked (w := w) (div s) s.quotient
      (fun x y e => DividesByZero y e ∨ e = .arithmeticOverflow ∧
        s = .signed ∧ x = exact (BitVec.intMin w) ∧ y = exact (BitVec.allOnes w)) := by
  have hquotient := computesChecked_checked (ofInt_tdiv_read (w := w) s)
  -- A divisor known to be zero is refused first; all else is a checked quotient.
  have hzero : ∀ x y, y = exact 0#w → div (w := w) s x y = .error .divideByZero := by
    rintro x y rfl
    simp [div]
  have hother : ∀ x y, y ≠ exact 0#w → div (w := w) s x y = checked Int.tdiv s x y := by
    intro x y hy
    unfold div
    rw [if_neg (fun h => hy (toBitVec?_eq_some_iff.mp h))]
  have hones : exact (allOnes w) ≠ exact 0#w := by
    rw [Ne, exact_inj]
    intro h
    have hbit := congrArg (fun v => v.getLsbD 0) h
    simp [hw] at hbit
  refine ⟨?_, ?_, ?_⟩
  · intro x y z h
    by_cases hy : y = exact 0#w
    · rw [hzero x y hy] at h
      exact nomatch h
    · rw [hother x y hy] at h
      exact hquotient.sound x y z h
  · intro x y z h
    by_cases hy : y = exact 0#w
    · rw [hzero x y hy] at h
      exact nomatch h
    · rw [hother x y hy] at h
      exact hquotient.known x y z h
  · intro x y e
    by_cases hy : y = exact 0#w
    · rw [hzero x y hy]
      constructor
      · intro h
        exact Or.inl ⟨(Except.error.inj h).symm, hy⟩
      · rintro (⟨rfl, -⟩ | ⟨-, -, -, hy'⟩)
        · rfl
        · exact absurd (hy'.symm.trans hy) hones
    · rw [hother x y hy, hquotient.refused, overflows_tdiv_iff hw]
      constructor
      · exact Or.inr
      · rintro (⟨-, hy'⟩ | h)
        · exact absurd hy' hy
        · exact h

theorem computesChecked_rem (s : Signedness) :
    ComputesChecked (w := w) (rem s) s.remainder (fun _ y e => DividesByZero y e) := by
  have hother : ∀ x y, y ≠ exact 0#w →
      rem (w := w) s x y = .ok (map₂ s.remainder x y) := by
    intro x y hy
    unfold rem map₂
    rw [if_neg (fun h => hy (toBitVec?_eq_some_iff.mp h))]
    cases x.toBitVec? with
    | none => rfl
    | some a =>
        cases y.toBitVec? with
        | none => rfl
        | some b => exact congrArg (fun v => Except.ok (exact v)) (ofInt_tmod_read s a b)
  have hzero : ∀ x y, y = exact 0#w → rem (w := w) s x y = .error .divideByZero := by
    rintro x y rfl
    simp [rem]
  have hremainder : Computes₂ (w := w) (map₂ s.remainder) s.remainder :=
    .of_refines (fun h h' => h.map₂ _ h') (map₂_exact _)
  have hsplit : ∀ x y z, rem (w := w) s x y = .ok z → z = map₂ s.remainder x y := by
    intro x y z h
    by_cases hy : y = exact 0#w
    · rw [hzero x y hy] at h
      exact nomatch h
    · rw [hother x y hy] at h
      exact (Except.ok.inj h).symm
  refine ⟨?_, ?_, ?_⟩
  · intro x y z h
    rw [hsplit x y z h]
    exact (hremainder x y).1
  · intro x y z h
    rw [hsplit x y z h]
    exact (hremainder x y).2
  · intro x y e
    by_cases hy : y = exact 0#w
    · rw [hzero x y hy]
      exact ⟨fun h => ⟨(Except.error.inj h).symm, hy⟩, fun h => by rw [h.1]⟩
    · rw [hother x y hy]
      exact ⟨nofun, fun h => absurd h.2 hy⟩

/-! ## Questions -/

/-- `q` holds (fails) only if `P` holds (fails) of every described word, and it is decided when the
word is known. -/
def Answers (q : KnownBits w → Ternary) (P : BitVec w → Prop) : Prop :=
  ∀ x, (∀ a ∈ x, (q x = .true → P a) ∧ (q x = .false → ¬ P a)) ∧ (x.isKnown → q x ≠ .unknown)

/-- The same of a question about two words. -/
def Answers₂ (q : KnownBits w → KnownBits w → Ternary) (P : BitVec w → BitVec w → Prop) : Prop :=
  ∀ x y, (∀ a ∈ x, ∀ b ∈ y, (q x y = .true → P a b) ∧ (q x y = .false → ¬ P a b)) ∧
    (x.isKnown → y.isKnown → q x y ≠ .unknown)

/-- What is decided of a description is decided alike of one that refines it. -/
theorem Answers₂.of_refines {q : KnownBits w → KnownBits w → Ternary}
    {P : BitVec w → BitVec w → Prop} [∀ a b, Decidable (P a b)]
    (hmono : ∀ {c a c' a'}, Refines c a → Refines c' a' → (q c c').Refines (q a a'))
    (hexact : ∀ a b, q (exact a) (exact b) = .ofBool (decide (P a b))) : Answers₂ q P := by
  intro x y
  constructor
  · intro a ha b hb
    have hle := hmono (mem_iff_refines.mp ha) (mem_iff_refines.mp hb)
    rw [hexact] at hle
    by_cases hP : P a b
    · rcases hle with hunknown | heq
      · simp [hunknown]
      · simp [← heq, hP, Ternary.ofBool]
    · rcases hle with hunknown | heq
      · simp [hunknown]
      · simp [← heq, hP, Ternary.ofBool]
  · intro hx hy
    obtain ⟨a, rfl⟩ := isKnown_iff.mp hx
    obtain ⟨b, rfl⟩ := isKnown_iff.mp hy
    rw [hexact]
    cases decide (P a b) <;> simp [Ternary.ofBool]

private theorem Answers.of_refines {q : KnownBits w → Ternary} {P : BitVec w → Prop}
    [∀ a, Decidable (P a)] (hmono : ∀ {c a}, Refines c a → (q c).Refines (q a))
    (hexact : ∀ a, q (exact a) = .ofBool (decide (P a))) : Answers q P := by
  have hpair : Answers₂ (fun x _ : KnownBits w => q x) (fun a _ => P a) :=
    .of_refines (fun h _ => hmono h) (fun a _ => hexact a)
  intro x
  exact ⟨fun a ha => (hpair x x).1 a ha a ha, fun hx => (hpair x x).2 hx hx⟩

theorem isEqual_exact (a b : BitVec w) :
    (exact a).isEqual (exact b) = .ofBool (decide (a = b)) := by
  by_cases h : a = b
  · simp [isEqual, exact, isKnown, h, Ternary.ofBool]
  · simp [isEqual, exact, h, Ternary.ofBool]

private theorem isLess_exact (s : Signedness) (a b : BitVec w) :
    isLess s (exact a) (exact b) = .ofBool (decide (s.read a < s.read b)) := by
  simp [isLess]

private theorem isZero_exact (a : BitVec w) : (exact a).isZero = .ofBool (decide (a = 0#w)) := by
  rw [isZero_eq_isEqual, isEqual_exact]

private theorem signBit_exact (hw : 0 < w) (a : BitVec w) :
    (exact a).signBit = .ofBool (decide (a.toInt < 0)) := by
  rw [signBit, bit_exact a (by omega), ← msb_eq_getLsbD_last, msb_eq_toInt]

/-! ## All operations -/

/-- The operations on partly known words of a width are sound, exact on known operands, and fail
only for the reasons they should. -/
structure Faithful (w : Nat) : Prop where
  not : Computes (w := w) not (~~~ ·)
  and : Computes₂ (w := w) and (· &&& ·)
  or : Computes₂ (w := w) or (· ||| ·)
  xor : Computes₂ (w := w) xor (· ^^^ ·)
  shiftLeft : ∀ amount, Computes (w := w) (·.shiftLeft amount) (· <<< (amount % w))
  shiftRight : ∀ amount s,
    Computes (w := w) (·.shiftRight amount s) (s.shiftRight · (amount % w))
  neg : Computes (w := w) neg (- ·)
  add : Computes₂ (w := w) add (· + ·)
  sub : Computes₂ (w := w) sub (· - ·)
  mul : Computes₂ (w := w) mul (· * ·)
  resize : ∀ w' s, Computes (resize w' s : KnownBits w → KnownBits w') (s.extend w')
  checkedAdd : ∀ s, ComputesChecked (w := w) (checkedAdd s) (· + ·)
    fun x y e => e = .arithmeticOverflow ∧ Overflows (· + ·) s x y
  checkedSub : ∀ s, ComputesChecked (w := w) (checkedSub s) (· - ·)
    fun x y e => e = .arithmeticOverflow ∧ Overflows (· - ·) s x y
  checkedMul : ∀ s, ComputesChecked (w := w) (checkedMul s) (· * ·)
    fun x y e => e = .arithmeticOverflow ∧ Overflows (· * ·) s x y
  div : ∀ s, ComputesChecked (w := w) (div s) s.quotient
    fun x y e => DividesByZero y e ∨ e = .arithmeticOverflow ∧
      s = .signed ∧ x = exact (intMin w) ∧ y = exact (allOnes w)
  rem : ∀ s, ComputesChecked (w := w) (rem s) s.remainder fun _ y e => DividesByZero y e
  isEqual : Answers₂ (w := w) isEqual (· = ·)
  isLess : ∀ s, Answers₂ (w := w) (isLess s) (fun a b => s.read a < s.read b)
  isGreater : ∀ s, Answers₂ (w := w) (isGreater s) (fun a b => s.read b < s.read a)
  isZero : Answers (w := w) isZero (· = 0#w)
  isPositive : Answers (w := w) isPositive (0 ≤ ·.toInt)
  isNegative : Answers (w := w) isNegative (·.toInt < 0)
  /-- Unknown bits are stored as zero, also those of the results. -/
  normal : ∀ x : KnownBits w, x.value &&& ~~~x.known = 0#w

theorem value_and_not_known (x : KnownBits w) : x.value &&& ~~~x.known = 0#w := by
  calc x.value &&& ~~~x.known
      = x.value &&& x.known &&& ~~~x.known := by rw [x.value_and_known]
    _ = x.value &&& (x.known &&& ~~~x.known) := and_assoc ..
    _ = x.value &&& 0#w := congrArg (x.value &&& ·) (and_not_self _)
    _ = 0#w := and_zero

/-- Whatever words the operands stand for, the results stand for what the machine computes from
them. -/
theorem operations_faithful (hw : 0 < w) : Faithful w where
  not := .of_refines (·.not) not_exact
  and := .of_refines (·.and ·) and_exact
  or := .of_refines (·.or ·) or_exact
  xor := .of_refines (·.xor ·) xor_exact
  shiftLeft amount := .of_refines (·.shiftLeft amount) (shiftLeft_exact · amount)
  shiftRight amount s := .of_refines (·.shiftRight amount s) (shiftRight_exact · amount s)
  neg := .of_refines (·.neg) neg_exact
  add := .of_refines (·.map₂ _ ·) (map₂_exact _)
  sub := .of_refines (·.map₂ _ ·) (map₂_exact _)
  mul := .of_refines (·.map₂ _ ·) (map₂_exact _)
  resize w' s := .of_refines (·.resize w' s) (resize_exact · hw s)
  checkedAdd s := computesChecked_checked fun a b => by
    rw [ofInt_add, s.ofInt_read, s.ofInt_read]
  checkedSub s := computesChecked_checked fun a b => by
    rw [Int.sub_eq_add_neg, ofInt_add, ofInt_neg, s.ofInt_read, s.ofInt_read,
      sub_eq_add_neg]
  checkedMul s := computesChecked_checked fun a b => by
    rw [ofInt_mul, s.ofInt_read, s.ofInt_read]
  div := computesChecked_div hw
  rem := computesChecked_rem
  isEqual := .of_refines (·.isEqual ·) isEqual_exact
  isLess s := .of_refines (·.isLess s ·) (isLess_exact s)
  isGreater s := .of_refines (·.isGreater s ·) (fun a b => isLess_exact s b a)
  isZero := .of_refines (·.isZero) isZero_exact
  isPositive := .of_refines (fun h => (h _).not) fun a => by
    rw [isPositive, signBit_exact hw]
    by_cases hneg : a.toInt < 0
    · simp [hneg, not_le.mpr hneg, Ternary.ofBool, Ternary.not]
    · simp [hneg, not_lt.mp hneg, Ternary.ofBool, Ternary.not]
  isNegative := .of_refines (fun h => h _) (signBit_exact hw)
  normal := value_and_not_known

/-- The widths of the integers that values and memory hold. -/
theorem operations_faithful_widths : (0 < 8 ∧ 0 < 16 ∧ 0 < 32 ∧ 0 < 64) ∧
    Faithful 8 ∧ Faithful 16 ∧ Faithful 32 ∧ Faithful 64 :=
  ⟨by decide, operations_faithful (by decide), operations_faithful (by decide),
    operations_faithful (by decide), operations_faithful (by decide)⟩

end KnownBits

end CilAnalysis
