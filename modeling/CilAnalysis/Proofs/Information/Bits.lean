import CilAnalysis.KnownBits.Arithmetic
import Mathlib

/-!
# The information order on words and truth values

A description `c` *refines* a description `a` when it says everything that `a` says and perhaps
more.  Of two truth values the second is undecided or both are the same; of two partly known words
this holds bit by bit.

## Strategy

The operations on words are read bit by bit: each of `bit_not`, `bit_and`, …, `bit_resize` says what
one bit of a result is made of, in terms of `Ternary` alone.  An operation that is computed bit by
bit then preserves the order because Kleene's connectives do.  The arithmetic operations answer only
for words all of whose bits are known, and on those the order is equality (`Refines.eq_of_isKnown`).

Two kinds of operations need an argument of their own.

* **Division and remainder** may fault.  Results that may be faults are compared by `ResultRefines`:
  more information may bring a fault to light, but never takes one away.  Only a divisor that is
  known can be known to be zero, so the divisor is looked at first (`Refines.div`, `Refines.rem`).
* **Equality** has an answer for words that are not known altogether: they differ for certain if
  they differ in a bit that is known of both (`isEqual_eq_false_iff`), and such a bit is known of
  everything below (`Refines.isEqual`).
-/

namespace CilAnalysis

open BitVec

/-! ## Truth values -/

namespace Ternary

/-- The less informed truth value is undecided, or the two are the same. -/
def Refines (c a : Ternary) : Prop := a = unknown ∨ c = a

instance (c a : Ternary) : Decidable (c.Refines a) := inferInstanceAs (Decidable (_ ∨ _))

namespace Refines

variable {c c' a a' : Ternary}

theorem refl (a : Ternary) : Refines a a := Or.inr rfl

theorem of_unknown (c : Ternary) : Refines c unknown := Or.inl rfl

theorem not (h : Refines c a) : Refines c.not a.not := by
  rcases h with rfl | rfl
  · exact of_unknown _
  · exact refl _

theorem and (h : Refines c a) (h' : Refines c' a') : Refines (c.and c') (a.and a') := by
  rcases h with rfl | rfl <;> rcases h' with rfl | rfl
  · exact of_unknown _
  · cases c' <;> cases c <;> simp [Refines, Ternary.and]
  · cases c <;> cases c' <;> simp [Refines, Ternary.and]
  · exact refl _

theorem or (h : Refines c a) (h' : Refines c' a') : Refines (c.or c') (a.or a') := by
  rcases h with rfl | rfl <;> rcases h' with rfl | rfl
  · exact of_unknown _
  · cases c' <;> cases c <;> simp [Refines, Ternary.or]
  · cases c <;> cases c' <;> simp [Refines, Ternary.or]
  · exact refl _

theorem xor (h : Refines c a) (h' : Refines c' a') : Refines (c.xor c') (a.xor a') := by
  rcases h with rfl | rfl <;> rcases h' with rfl | rfl
  · exact of_unknown _
  · exact Or.inl rfl
  · cases c <;> exact Or.inl rfl
  · exact refl _

end Refines

end Ternary

/-! ## Results that may be faults -/

/-- How two results compare when the first comes of more informed operands: a fault may have come
to light, but what is a fault for the less informed is one for the more informed too, and results
proper are related by `R`. -/
def ResultRefines {ε δ α β : Type} (R : α → β → Prop) : Except ε α → Except δ β → Prop
  | .error _, _ => True
  | .ok v, .ok u => R v u
  | .ok _, .error _ => False

namespace ResultRefines

variable {ε δ α β α' β' : Type} {R : α → β → Prop} {S : α' → β' → Prop}

theorem refl {R : α → α → Prop} (hrefl : ∀ v, R v v) (x : Except ε α) : ResultRefines R x x := by
  cases x with
  | error => trivial
  | ok v => exact hrefl v

/-- A result of which nothing is known is refined by every result. -/
theorem of_ok {u : β} (hle : ∀ v, R v u) (x : Except ε α) :
    ResultRefines R x (.ok u : Except δ β) := by
  cases x with
  | error => trivial
  | ok v => exact hle v

theorem bind {f : α → Except ε α'} {g : β → Except δ β'} (hfg : ∀ v u, R v u →
    ResultRefines S (f v) (g u)) :
    ∀ {x : Except ε α} {y : Except δ β}, ResultRefines R x y → ResultRefines S (x >>= f) (y >>= g)
  | .error _, _, _ => trivial
  | .ok _, .ok _, h => hfg _ _ h

theorem mapError {ε' δ' : Type} (f : ε → ε') (g : δ → δ') :
    ∀ {x : Except ε α} {y : Except δ β}, ResultRefines R x y →
      ResultRefines R (x.mapError f) (y.mapError g)
  | .error _, _, _ => trivial
  | .ok _, .ok _, h => h

end ResultRefines

namespace KnownBits

variable {w : Nat}

/-! ## Bits of the results

Outside the width every bit counts as unknown. -/

theorem known_of_value {x : KnownBits w} {i : Nat} (h : x.value.getLsbD i = true) :
    x.known.getLsbD i = true := by
  have hbit := congrArg (fun v => v.getLsbD i) x.value_and_known
  simp only [getLsbD_and, h, Bool.true_and] at hbit
  exact hbit

theorem bit_of_ge {x : KnownBits w} {i : Nat} (h : w ≤ i) : x.bit i = .unknown := by
  simp [bit, getLsbD_of_ge _ _ h]

theorem bit_masked (value known : BitVec w) (i : Nat) :
    (masked value known).bit i =
      if known.getLsbD i then Ternary.ofBool (value.getLsbD i) else .unknown := by
  cases h : known.getLsbD i <;> simp [bit, h]

@[simp] theorem bit_unknown (i : Nat) : (unknown : KnownBits w).bit i = .unknown := by
  simp [unknown, bit_masked]

theorem bit_exact (v : BitVec w) {i : Nat} (h : i < w) :
    (exact v).bit i = Ternary.ofBool (v.getLsbD i) := by
  simp [exact, bit_masked, h]

theorem bit_not (x : KnownBits w) (i : Nat) : x.not.bit i = (x.bit i).not := by
  rcases Nat.lt_or_ge i w with hi | hi
  · rw [not, bit_masked, bit]
    simp only [getLsbD_not, hi, decide_true, Bool.true_and]
    cases x.known.getLsbD i <;> cases x.value.getLsbD i <;> rfl
  · rw [bit_of_ge hi, bit_of_ge hi, Ternary.not]

theorem bit_and (x y : KnownBits w) (i : Nat) : (x.and y).bit i = (x.bit i).and (y.bit i) := by
  rcases Nat.lt_or_ge i w with hi | hi
  · have hx := @known_of_value w x i
    have hy := @known_of_value w y i
    rw [KnownBits.and, bit_masked, bit, bit]
    simp only [getLsbD_and, getLsbD_or, getLsbD_not, hi, decide_true,
      Bool.true_and]
    revert hx hy
    cases x.known.getLsbD i <;> cases x.value.getLsbD i <;> cases y.known.getLsbD i <;>
      cases y.value.getLsbD i <;> simp [Ternary.ofBool, Ternary.and]
  · rw [bit_of_ge hi, bit_of_ge hi, bit_of_ge hi, Ternary.and]
    all_goals simp

theorem bit_or (x y : KnownBits w) (i : Nat) : (x.or y).bit i = (x.bit i).or (y.bit i) := by
  have hx := @known_of_value w x i
  have hy := @known_of_value w y i
  rw [KnownBits.or, bit_masked, bit, bit]
  simp only [getLsbD_and, getLsbD_or]
  revert hx hy
  cases x.known.getLsbD i <;> cases x.value.getLsbD i <;> cases y.known.getLsbD i <;>
    cases y.value.getLsbD i <;> simp [Ternary.ofBool, Ternary.or]

theorem bit_xor (x y : KnownBits w) (i : Nat) : (x.xor y).bit i = (x.bit i).xor (y.bit i) := by
  rw [KnownBits.xor, bit_masked, bit, bit]
  simp only [getLsbD_and, getLsbD_xor]
  cases x.known.getLsbD i <;> cases x.value.getLsbD i <;> cases y.known.getLsbD i <;>
    cases y.value.getLsbD i <;> rfl

theorem bit_shiftLeft (x : KnownBits w) (amount : Nat) {i : Nat} (hi : i < w) :
    (x.shiftLeft amount).bit i =
      if i < amount % w then .false else x.bit (i - amount % w) := by
  rw [shiftLeft, bit_masked, bit]
  by_cases hlow : i < amount % w
  · simp [hi, hlow, Ternary.ofBool]
  · have hin : i - amount % w < w := by omega
    simp only [getLsbD_or, getLsbD_not, getLsbD_shiftLeft, hi, hlow, hin,
      getLsbD_allOnes, decide_true, decide_false, Bool.true_and, Bool.not_false,
      Bool.not_true, Bool.or_false, if_false]

/-- The bit that a shift or a widening brings in at the high end. -/
def fill (x : KnownBits w) : Signedness → Ternary
  | .signed => x.bit (w - 1)
  | .unsigned => .false

theorem bit_shiftRight (x : KnownBits w) (amount : Nat) (s : Signedness) {i : Nat} (hi : i < w) :
    (x.shiftRight amount s).bit i =
      if i + amount % w < w then x.bit (i + amount % w) else x.fill s := by
  unfold shiftRight fill
  cases s with
  | signed =>
      rw [bit_masked, bit, bit]
      have hbound : ¬ w ≤ i := by omega
      by_cases hin : i + amount % w < w
      · simp [getLsbD_sshiftRight, hbound, hin, Nat.add_comm]
      · simp [getLsbD_sshiftRight, hbound, hin, Nat.add_comm, msb_eq_getLsbD_last]
  | unsigned =>
      rw [bit_masked, bit]
      by_cases hin : i + amount % w < w
      · simp [hi, hin, Nat.add_comm]
      · have hout : x.value.getLsbD (i + amount % w) = false :=
          getLsbD_of_ge _ _ (by omega)
        simp [hi, hin, Nat.add_comm, hout, Ternary.ofBool]

theorem bit_resize {w' : Nat} (x : KnownBits w) (s : Signedness) {i : Nat} (hi : i < w') :
    (x.resize w' s).bit i = if i < w then x.bit i else x.fill s := by
  unfold resize fill
  cases s with
  | signed =>
      rw [bit_masked, bit, bit]
      rw [getLsbD_signExtend, getLsbD_signExtend]
      by_cases hin : i < w
      · simp only [hi, hin, decide_true, Bool.true_and, if_true]
      · simp only [hi, hin, decide_true, Bool.true_and, if_false, msb_eq_getLsbD_last]
  | unsigned =>
      rw [bit_masked, bit]
      by_cases hin : i < w
      · simp [hi, hin]
      · simp [hi, hin, getLsbD_of_ge x.value i (by omega), Ternary.ofBool]

/-! ## The order on words -/

/-- Every bit known in `a` is known in `c` with the same value. -/
def Refines (c a : KnownBits w) : Prop := ∀ i, (c.bit i).Refines (a.bit i)

theorem refines_of_lt {c a : KnownBits w} (h : ∀ i < w, (c.bit i).Refines (a.bit i)) :
    c.Refines a := by
  intro i
  rcases Nat.lt_or_ge i w with hi | hi
  · exact h i hi
  · rw [bit_of_ge (x := a) hi]
    exact .of_unknown _

instance (c a : KnownBits w) : Decidable (c.Refines a) :=
  decidable_of_iff (∀ i < w, (c.bit i).Refines (a.bit i)) ⟨refines_of_lt, fun h i _ => h i⟩

theorem known_eq_true_iff {x : KnownBits w} {i : Nat} :
    x.known.getLsbD i = true ↔ x.bit i ≠ .unknown := by
  unfold bit
  cases x.known.getLsbD i <;> cases x.value.getLsbD i <;> simp [Ternary.ofBool]

/-- A word is determined by its bits. -/
theorem ext_bit {x y : KnownBits w} (h : ∀ i < w, x.bit i = y.bit i) : x = y := by
  have hknown : x.known = y.known := by
    apply eq_of_getLsbD_eq
    intro i hi
    rw [Bool.eq_iff_iff, known_eq_true_iff, known_eq_true_iff, h i hi]
  -- Where a bit is not known, its value is zero in both words.
  have hvalue : x.value = y.value := by
    apply eq_of_getLsbD_eq
    intro i hi
    have hbit := h i hi
    have hx := @known_of_value w x i
    have hy := @known_of_value w y i
    rw [bit, bit, ← hknown] at hbit
    rw [← hknown] at hy
    revert hbit hx hy
    cases x.known.getLsbD i <;> cases x.value.getLsbD i <;> cases y.value.getLsbD i <;>
      simp [Ternary.ofBool]
  exact KnownBits.ext hvalue hknown

theorem bit_truncate {w' : Nat} (x : KnownBits w) {i : Nat} (hi : i < w') (hw : i < w) :
    (x.truncate w').bit i = x.bit i := by
  rw [truncate, bit_resize x .unsigned hi, if_pos hw]

@[simp] theorem truncate_self (x : KnownBits w) : x.truncate w = x :=
  ext_bit fun _ hi => bit_truncate x hi hi

/-- The low bits of a word do not change with its width. -/
theorem truncate_resize {n w' : Nat} (x : KnownBits w) (s : Signedness) (hn : n ≤ w)
    (hn' : n ≤ w') : (x.resize w' s).truncate n = x.truncate n := by
  refine ext_bit fun i hi => ?_
  calc ((x.resize w' s).truncate n).bit i
    _ = (x.resize w' s).bit i := bit_truncate _ hi (by omega)
    _ = x.bit i := by rw [bit_resize x s (by omega), if_pos (by omega)]
    _ = (x.truncate n).bit i := (bit_truncate x hi (by omega)).symm

private theorem bit_ne_unknown_of_isKnown {x : KnownBits w} (h : x.isKnown = true) {i : Nat}
    (hi : i < w) : x.bit i ≠ .unknown := by
  have hknown : x.known = allOnes w := by simpa [isKnown] using h
  rw [← known_eq_true_iff, hknown]
  simpa using hi

namespace Refines

variable {c c' a a' : KnownBits w}

theorem refl (a : KnownBits w) : Refines a a := fun _ => .refl _

theorem of_unknown (c : KnownBits w) : Refines c unknown := fun i => by
  rw [bit_unknown]
  exact .of_unknown _

/-- Below a word that is known altogether there is only this word. -/
theorem eq_of_isKnown (h : Refines c a) (hknown : a.isKnown = true) : c = a := by
  apply ext_bit
  intro i hi
  rcases h i with hunknown | heq
  · exact absurd hunknown (bit_ne_unknown_of_isKnown hknown hi)
  · exact heq

theorem not (h : Refines c a) : Refines c.not a.not := fun i => by
  rw [bit_not, bit_not]
  exact (h i).not

theorem and (h : Refines c a) (h' : Refines c' a') : Refines (c.and c') (a.and a') := fun i => by
  rw [bit_and, bit_and]
  exact (h i).and (h' i)

theorem or (h : Refines c a) (h' : Refines c' a') : Refines (c.or c') (a.or a') := fun i => by
  rw [bit_or, bit_or]
  exact (h i).or (h' i)

theorem xor (h : Refines c a) (h' : Refines c' a') : Refines (c.xor c') (a.xor a') := fun i => by
  rw [bit_xor, bit_xor]
  exact (h i).xor (h' i)

theorem fill (h : Refines c a) (s : Signedness) : (c.fill s).Refines (a.fill s) := by
  cases s with
  | signed => exact h _
  | unsigned => exact .refl _

theorem shiftLeft (h : Refines c a) (amount : Nat) :
    Refines (c.shiftLeft amount) (a.shiftLeft amount) := by
  apply refines_of_lt
  intro i hi
  rw [bit_shiftLeft c amount hi, bit_shiftLeft a amount hi]
  split
  · exact .refl _
  · exact h _

theorem shiftRight (h : Refines c a) (amount : Nat) (s : Signedness) :
    Refines (c.shiftRight amount s) (a.shiftRight amount s) := by
  apply refines_of_lt
  intro i hi
  rw [bit_shiftRight c amount s hi, bit_shiftRight a amount s hi]
  split
  · exact h _
  · exact h.fill s

theorem resize (h : Refines c a) (w' : Nat) (s : Signedness) :
    Refines (c.resize w' s) (a.resize w' s) := by
  apply refines_of_lt
  intro i hi
  rw [bit_resize c s hi, bit_resize a s hi]
  split
  · exact h _
  · exact h.fill s

theorem truncate (h : Refines c a) (w' : Nat) : Refines (c.truncate w') (a.truncate w') :=
  h.resize w' .unsigned

/-! ### Operations on words that are known altogether -/

theorem toBitVec?_eq_none_or (h : Refines c a) :
    a.toBitVec? = none ∨ c.toBitVec? = a.toBitVec? := by
  cases hknown : a.isKnown with
  | false => exact Or.inl (by simp [toBitVec?, hknown])
  | true => exact Or.inr (by rw [h.eq_of_isKnown hknown])

theorem map₂ (f : BitVec w → BitVec w → BitVec w) (h : Refines c a) (h' : Refines c' a') :
    Refines (KnownBits.map₂ f c c') (KnownBits.map₂ f a a') := by
  unfold KnownBits.map₂
  rcases h.toBitVec?_eq_none_or with hnone | heq
  · rw [hnone]
    exact of_unknown _
  rcases h'.toBitVec?_eq_none_or with hnone' | heq'
  · rw [hnone']
    cases a.toBitVec? <;> exact of_unknown _
  · rw [heq, heq']
    exact refl _

theorem neg (h : Refines c a) : Refines c.neg a.neg := by
  unfold KnownBits.neg
  rcases h.toBitVec?_eq_none_or with hnone | heq
  · rw [hnone]
    exact of_unknown _
  · rw [heq]
    exact refl _

theorem checked (f : Int → Int → Int) (s : Signedness) (h : Refines c a) (h' : Refines c' a') :
    ResultRefines Refines (KnownBits.checked f s c c') (KnownBits.checked f s a a') := by
  unfold KnownBits.checked
  rcases h.toBitVec?_eq_none_or with hnone | heq
  · rw [hnone]
    exact .of_ok of_unknown _
  rcases h'.toBitVec?_eq_none_or with hnone' | heq'
  · rw [hnone']
    cases a.toBitVec? <;> exact .of_ok of_unknown _
  · rw [heq, heq']
    exact .refl refl _

theorem div (s : Signedness) (h : Refines c a) (h' : Refines c' a') :
    ResultRefines Refines (KnownBits.div s c c') (KnownBits.div s a a') := by
  unfold KnownBits.div
  rcases h'.toBitVec?_eq_none_or with hnone' | heq'
  · -- The less informed divisor is not known, so that its quotient is not known either.
    rw [hnone', if_neg (show ¬ (none : Option (BitVec w)) = some 0#w from nofun)]
    have hunknown : KnownBits.checked Int.tdiv s a a' = .ok unknown := by
      unfold KnownBits.checked
      rw [hnone']
      cases a.toBitVec? <;> rfl
    rw [hunknown]
    exact .of_ok of_unknown _
  · rw [heq']
    split
    · trivial
    · exact h.checked Int.tdiv s h'

theorem rem (s : Signedness) (h : Refines c a) (h' : Refines c' a') :
    ResultRefines Refines (KnownBits.rem s c c') (KnownBits.rem s a a') := by
  unfold KnownBits.rem
  -- The divisor decides first: only one that is known can fault.
  rcases h'.toBitVec?_eq_none_or with hnone' | heq'
  · rw [hnone', if_neg (show ¬ (none : Option (BitVec w)) = some 0#w from nofun)]
    cases a.toBitVec? <;> exact .of_ok of_unknown _
  · rw [heq']
    split
    · trivial
    rcases h.toBitVec?_eq_none_or with hnone | heq
    · rw [hnone]
      exact .of_ok of_unknown _
    · rw [heq]
      exact .refl refl _

/-! ### Questions -/

theorem isLess (s : Signedness) (h : Refines c a) (h' : Refines c' a') :
    (KnownBits.isLess s c c').Refines (KnownBits.isLess s a a') := by
  unfold KnownBits.isLess
  rcases h.toBitVec?_eq_none_or with hnone | heq
  · rw [hnone]
    exact .of_unknown _
  rcases h'.toBitVec?_eq_none_or with hnone' | heq'
  · rw [hnone']
    cases a.toBitVec? <;> exact .of_unknown _
  · rw [heq, heq']
    exact .refl _

theorem isGreater (s : Signedness) (h : Refines c a) (h' : Refines c' a') :
    (KnownBits.isGreater s c c').Refines (KnownBits.isGreater s a a') :=
  h'.isLess s h

end Refines

/-- Two words differ for certain when they differ in a bit that is known of both. -/
theorem isEqual_eq_false_iff {x y : KnownBits w} :
    x.isEqual y = .false ↔
      ∃ i, x.bit i ≠ .unknown ∧ y.bit i ≠ .unknown ∧ x.bit i ≠ y.bit i := by
  have hbits : x.isEqual y = .false ↔ (x.value ^^^ y.value) &&& (x.known &&& y.known) ≠ 0#w := by
    unfold isEqual
    by_cases hdiff : (x.value ^^^ y.value) &&& (x.known &&& y.known) ≠ 0#w
    · simp [hdiff]
    · rw [if_neg hdiff]
      cases x.isKnown && y.isKnown <;> simp [hdiff]
  -- A bit that the test looks at is one that is known of both words and differs.
  have hone : ∀ i, ((x.value ^^^ y.value) &&& (x.known &&& y.known)).getLsbD i = true ↔
      x.bit i ≠ .unknown ∧ y.bit i ≠ .unknown ∧ x.bit i ≠ y.bit i := by
    intro i
    simp only [getLsbD_and, getLsbD_xor, bit]
    cases x.known.getLsbD i <;> cases x.value.getLsbD i <;> cases y.known.getLsbD i <;>
      cases y.value.getLsbD i <;> simp [Ternary.ofBool]
  rw [hbits]
  constructor
  · intro hne
    by_contra hall
    apply hne
    apply eq_of_getLsbD_eq
    intro i _
    have hi := (hone i).not.mpr fun hbit => hall ⟨i, hbit⟩
    simpa using hi
  · rintro ⟨i, hi⟩ hzero
    have htrue := (hone i).mpr hi
    rw [hzero] at htrue
    simp at htrue

theorem isKnown_of_isEqual_eq_true {x y : KnownBits w} (h : x.isEqual y = .true) :
    x.isKnown = true ∧ y.isKnown = true := by
  unfold isEqual at h
  split at h
  · simp at h
  · cases hx : x.isKnown <;> cases hy : y.isKnown <;> simp [hx, hy] at h ⊢

theorem isZero_eq_isEqual (x : KnownBits w) : x.isZero = x.isEqual (exact 0#w) := by
  simp [isZero, isEqual, exact, isKnown, x.value_and_known]

namespace Refines

variable {c c' a a' : KnownBits w}

theorem isEqual (h : Refines c a) (h' : Refines c' a') :
    (c.isEqual c').Refines (a.isEqual a') := by
  cases hanswer : a.isEqual a' with
  | unknown => exact .of_unknown _
  | true =>
      -- Words that are equal for certain are known altogether.
      obtain ⟨hknown, hknown'⟩ := isKnown_of_isEqual_eq_true hanswer
      rw [h.eq_of_isKnown hknown, h'.eq_of_isKnown hknown', hanswer]
      exact .refl _
  | false =>
      obtain ⟨i, hi, hi', hne⟩ := isEqual_eq_false_iff.mp hanswer
      have hsame : c.bit i = a.bit i := (h i).resolve_left hi
      have hsame' : c'.bit i = a'.bit i := (h' i).resolve_left hi'
      refine Or.inr (isEqual_eq_false_iff.mpr ⟨i, ?_⟩)
      rw [hsame, hsame']
      exact ⟨hi, hi', hne⟩

theorem isZero (h : Refines c a) : c.isZero.Refines a.isZero := by
  rw [isZero_eq_isEqual, isZero_eq_isEqual]
  exact h.isEqual (refl _)

end Refines

/-! ### Truth values as words -/

theorem bit_ofTernary (t : Ternary) {i : Nat} (hi : i < w) :
    (ofTernary w t).bit i = if i = 0 then t else .false := by
  cases t with
  | true =>
      rw [ofTernary, bit_exact _ hi, getLsbD_one]
      by_cases hzero : i = 0
      · simp [hzero, show 0 < w by omega, Ternary.ofBool]
      · simp [hzero, Ternary.ofBool]
  | false => simp [ofTernary, bit_exact _ hi, Ternary.ofBool]
  | unknown =>
      rw [ofTernary, bit_masked]
      by_cases hzero : i = 0
      · simp [hzero, show 0 < w by omega]
      · simp [hzero, hi, Ternary.ofBool]

theorem ofTernary_refines {t u : Ternary} (h : t.Refines u) :
    (ofTernary w t).Refines (ofTernary w u) := by
  apply refines_of_lt
  intro i hi
  rw [bit_ofTernary t hi, bit_ofTernary u hi]
  split
  · exact h
  · exact .refl _

end KnownBits

end CilAnalysis
