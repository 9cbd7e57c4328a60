import CilAnalysis.Proofs.KnownBits.Soundness

/-!
# The operations on single bits lose nothing

The connectives, the shifts and the changes of width work bit by bit.  What they know of a bit of
their result is all that there is to know: the bit is unknown exactly if two choices of described
words give different bits there (`KnownBits.Tight`).  The same goes for the questions whether two
words are equal and whether one is zero.  The main result is `KnownBits.bitwise_lossless`.

## Strategy

The values that a bit allows are those that the described words have in its place
(`allows_bit_iff`): a word that is described can be given any bits in the places that are open
(`complete`).  So it is enough to look at one place at a time.

* The connectives are undecided only if their operands allow different answers.  This is a question
  about two truth values, which has nine cases (`Ternary.Decides`), and it carries over to words bit
  by bit (`Tight₂.of_decides`).
* A shift or a change of width either moves a bit or brings in one that does not depend on the word
  (`Moves`).  A bit that was moved is open exactly if it was open in its old place.
* Two words are known to differ if they do so in some bit.  If they do not, the word with the known
  bits of both is described by both (`isEqual_eq_false_iff_disjoint`).
-/

namespace CilAnalysis

/-! ## Open answers -/

namespace Ternary

/-- An answer that a truth value leaves open, or the one that it is. -/
def Allows (t : Ternary) (p : Bool) : Prop := t = unknown ∨ t = ofBool p

instance (t : Ternary) (p : Bool) : Decidable (t.Allows p) := inferInstanceAs (Decidable (_ ∨ _))

@[simp] theorem unknown_allows (p : Bool) : unknown.Allows p := Or.inl rfl

theorem ofBool_inj {p q : Bool} : ofBool p = ofBool q ↔ p = q := by
  cases p <;> cases q <;> decide

@[simp] theorem ofBool_allows {p q : Bool} : (ofBool p).Allows q ↔ p = q := by
  cases p <;> cases q <;> decide

/-- Only what is undecided allows two answers. -/
theorem eq_unknown_iff (t : Ternary) : t = unknown ↔ ∃ p q, t.Allows p ∧ t.Allows q ∧ p ≠ q := by
  cases t <;> decide

/-- `k` answers the question that `c` asks of two truth values as well as can be done: it is
undecided exactly if they allow different answers. -/
def Decides (k : Ternary → Ternary → Ternary) (c : Bool → Bool → Bool) : Prop :=
  ∀ t u, k t u = unknown ↔
    ∃ p q p' q', (t.Allows p ∧ u.Allows q) ∧ (t.Allows p' ∧ u.Allows q') ∧ c p q ≠ c p' q'

private theorem decides_and : Decides and (· && ·) := by
  intro t u
  cases t <;> cases u <;> decide

private theorem decides_or : Decides or (· || ·) := by
  intro t u
  cases t <;> cases u <;> decide

private theorem decides_xor : Decides xor (· ^^ ·) := by
  intro t u
  cases t <;> cases u <;> decide

end Ternary

namespace KnownBits

variable {w w' : Nat}

/-! ## The words that are described -/

private theorem mem_iff_allows {a : BitVec w} {x : KnownBits w} :
    a ∈ x ↔ ∀ i < w, (x.bit i).Allows (a.getLsbD i) := by
  have hbit : ∀ i < w, ((exact a).bit i).Refines (x.bit i) ↔ (x.bit i).Allows (a.getLsbD i) := by
    intro i hi
    rw [bit_exact a hi, Ternary.Refines, Ternary.Allows, eq_comm (a := Ternary.ofBool _)]
  rw [mem_iff_refines]
  constructor
  · intro h i hi
    exact (hbit i hi).mp (h i)
  · intro h
    apply refines_of_lt
    intro i hi
    exact (hbit i hi).mpr (h i hi)

/-- A word that is described, with the bits of another in the places that are open. -/
def complete (x : KnownBits w) (a : BitVec w) : BitVec w := x.value ||| (a &&& ~~~x.known)

private theorem getLsbD_complete (x : KnownBits w) (a : BitVec w) {i : Nat} (hi : i < w) :
    (x.complete a).getLsbD i =
      if x.known.getLsbD i then x.value.getLsbD i else a.getLsbD i := by
  have hvalue := @known_of_value w x i
  simp only [complete, BitVec.getLsbD_or, BitVec.getLsbD_and, BitVec.getLsbD_not, hi, decide_true,
    Bool.true_and]
  revert hvalue
  cases x.known.getLsbD i <;> cases x.value.getLsbD i <;> simp

private theorem complete_mem (x : KnownBits w) (a : BitVec w) : x.complete a ∈ x := by
  rw [mem_iff_allows]
  intro i hi
  rw [getLsbD_complete x a hi, bit]
  cases x.known.getLsbD i <;> simp

/-- A bit allows the values that the described words have in its place. -/
theorem allows_bit_iff (x : KnownBits w) {i : Nat} (hi : i < w) {p : Bool} :
    (x.bit i).Allows p ↔ ∃ a ∈ x, a.getLsbD i = p := by
  constructor
  · intro h
    refine ⟨x.complete (if p then BitVec.allOnes w else 0#w), x.complete_mem _, ?_⟩
    rw [getLsbD_complete x _ hi]
    rw [bit] at h
    cases hknown : x.known.getLsbD i with
    | true => simpa [hknown] using h
    | false => cases p <;> simp [hi]
  · intro h
    obtain ⟨a, ha, rfl⟩ := h
    exact mem_iff_allows.mp ha i hi

/-! ## Results that say all there is to say -/

/-- A bit of the result is unknown exactly if `op` makes words of the described ones that differ
there. -/
def Tight (f : KnownBits w → KnownBits w') (op : BitVec w → BitVec w') : Prop :=
  ∀ x, ∀ i < w', (f x).bit i = .unknown ↔
    ∃ a ∈ x, ∃ b ∈ x, (op a).getLsbD i ≠ (op b).getLsbD i

/-- The same of an operation with two operands. -/
def Tight₂ (f : KnownBits w → KnownBits w → KnownBits w) (op : BitVec w → BitVec w → BitVec w) :
    Prop :=
  ∀ x y, ∀ i < w, (f x y).bit i = .unknown ↔
    ∃ a ∈ x, ∃ b ∈ y, ∃ a' ∈ x, ∃ b' ∈ y, (op a b).getLsbD i ≠ (op a' b').getLsbD i

/-- A bit is open exactly if two of the described words differ there. -/
theorem bit_eq_unknown_iff (x : KnownBits w) {i : Nat} (hi : i < w) :
    x.bit i = .unknown ↔ ∃ a ∈ x, ∃ b ∈ x, a.getLsbD i ≠ b.getLsbD i := by
  rw [Ternary.eq_unknown_iff]
  constructor
  · intro h
    obtain ⟨p, q, hp, hq, hne⟩ := h
    obtain ⟨a, ha, rfl⟩ := (x.allows_bit_iff hi).mp hp
    obtain ⟨b, hb, rfl⟩ := (x.allows_bit_iff hi).mp hq
    exact ⟨a, ha, b, hb, hne⟩
  · intro h
    obtain ⟨a, ha, b, hb, hne⟩ := h
    exact ⟨_, _, mem_iff_allows.mp ha i hi, mem_iff_allows.mp hb i hi, hne⟩

/-- A connective that works bit by bit is as good as the one on truth values that it uses. -/
theorem Tight₂.of_decides {f : KnownBits w → KnownBits w → KnownBits w}
    {op : BitVec w → BitVec w → BitVec w} {k : Ternary → Ternary → Ternary}
    {c : Bool → Bool → Bool} (hk : Ternary.Decides k c)
    (hbit : ∀ x y i, (f x y).bit i = k (x.bit i) (y.bit i))
    (hop : ∀ a b i, (op a b).getLsbD i = c (a.getLsbD i) (b.getLsbD i)) : Tight₂ f op := by
  intro x y i hi
  simp only [hbit, hop]
  rw [hk]
  constructor
  · intro h
    obtain ⟨p, q, p', q', ⟨hp, hq⟩, ⟨hp', hq'⟩, hne⟩ := h
    obtain ⟨a, ha, rfl⟩ := (x.allows_bit_iff hi).mp hp
    obtain ⟨b, hb, rfl⟩ := (y.allows_bit_iff hi).mp hq
    obtain ⟨a', ha', rfl⟩ := (x.allows_bit_iff hi).mp hp'
    obtain ⟨b', hb', rfl⟩ := (y.allows_bit_iff hi).mp hq'
    exact ⟨a, ha, b, hb, a', ha', b', hb', hne⟩
  · intro h
    obtain ⟨a, ha, b, hb, a', ha', b', hb', hne⟩ := h
    exact ⟨_, _, _, _, ⟨mem_iff_allows.mp ha i hi, mem_iff_allows.mp hb i hi⟩,
      ⟨mem_iff_allows.mp ha' i hi, mem_iff_allows.mp hb' i hi⟩, hne⟩

private theorem tight_not : Tight (w := w) not (~~~ ·) := by
  intro x i hi
  have hnot : x.not.bit i = .unknown ↔ x.bit i = .unknown := by
    rw [bit_not]
    cases x.bit i <;> decide
  rw [hnot, x.bit_eq_unknown_iff hi]
  simp [hi]

/-- Every bit of the result is one of the operand, or it does not depend on the operand at all. -/
def Moves (f : KnownBits w → KnownBits w') : Prop :=
  ∀ i < w', (∃ j < w, ∀ x, (f x).bit i = x.bit j) ∨ ∃ p, ∀ x, (f x).bit i = .ofBool p

/-- An operation that moves bits and computes `op` of known words leaves open only bits that it
moved from an open place. -/
theorem Moves.tight {f : KnownBits w → KnownBits w'} {op : BitVec w → BitVec w'} (h : Moves f)
    (hexact : ∀ a, f (exact a) = exact (op a)) : Tight f op := by
  intro x i hi
  -- What is true of all words is true of known ones, where `f` is `op`.
  have hop : ∀ a, (f (exact a)).bit i = .ofBool ((op a).getLsbD i) := by
    intro a
    rw [hexact, bit_exact _ hi]
  rcases h i hi with ⟨j, hj, hbit⟩ | ⟨p, hbit⟩
  · have hmoved : ∀ a, (op a).getLsbD i = a.getLsbD j := by
      intro a
      apply Ternary.ofBool_inj.mp
      calc Ternary.ofBool ((op a).getLsbD i)
          = (f (exact a)).bit i := (hop a).symm
        _ = (exact a).bit j := hbit (exact a)
        _ = .ofBool (a.getLsbD j) := bit_exact a hj
    simp only [hbit, hmoved]
    exact x.bit_eq_unknown_iff hj
  · have hfixed : ∀ a, (op a).getLsbD i = p := by
      intro a
      apply Ternary.ofBool_inj.mp
      rw [← hop, hbit]
    simp only [hbit, hfixed]
    cases p <;> simp [Ternary.ofBool]

private theorem moves_shiftLeft (amount : Nat) : Moves (w := w) (·.shiftLeft amount) := by
  intro i hi
  simp only [bit_shiftLeft _ amount hi]
  by_cases hlow : i < amount % w
  · simp only [if_pos hlow]
    exact .inr ⟨false, fun _ => rfl⟩
  · simp only [if_neg hlow]
    exact .inl ⟨i - amount % w, by omega, fun _ => rfl⟩

/-- What comes in at the high end is the top bit or zero. -/
theorem moves_fill (hw : 0 < w) (s : Signedness) :
    (∃ j < w, ∀ x : KnownBits w, x.fill s = x.bit j) ∨
      ∃ p, ∀ x : KnownBits w, x.fill s = .ofBool p := by
  cases s with
  | signed => exact .inl ⟨w - 1, by omega, fun _ => rfl⟩
  | unsigned => exact .inr ⟨false, fun _ => rfl⟩

private theorem moves_shiftRight (amount : Nat) (s : Signedness) :
    Moves (w := w) (·.shiftRight amount s) := by
  intro i hi
  simp only [bit_shiftRight _ amount s hi]
  by_cases hin : i + amount % w < w
  · simp only [if_pos hin]
    exact .inl ⟨i + amount % w, hin, fun _ => rfl⟩
  · simp only [if_neg hin]
    exact moves_fill (by omega) s

private theorem moves_resize (hw : 0 < w) (s : Signedness) :
    Moves (resize w' s : KnownBits w → KnownBits w') := by
  intro i hi
  simp only [bit_resize _ s hi]
  by_cases hin : i < w
  · simp only [if_pos hin]
    exact .inl ⟨i, hin, fun _ => rfl⟩
  · simp only [if_neg hin]
    exact moves_fill hw s

/-! ## Questions -/

/-- Two words differ for certain exactly if no word is described by both. -/
theorem isEqual_eq_false_iff_disjoint {x y : KnownBits w} :
    x.isEqual y = .false ↔ ∀ a, ¬ (a ∈ x ∧ a ∈ y) := by
  rw [isEqual_eq_false_iff]
  constructor
  · intro h a hboth
    obtain ⟨i, hx, hy, hne⟩ := h
    have hi : i < w := by
      by_contra hge
      exact hx (bit_of_ge (Nat.le_of_not_lt hge))
    have hxa := (mem_iff_allows.mp hboth.1 i hi).resolve_left hx
    have hya := (mem_iff_allows.mp hboth.2 i hi).resolve_left hy
    exact hne (hxa.trans hya.symm)
  · intro h
    -- The word with the bits of both descriptions belongs to both, unless they contradict.
    by_contra hagree
    apply h (x.complete y.value)
    refine ⟨x.complete_mem y.value, mem_iff_allows.mpr fun i hi => ?_⟩
    rw [getLsbD_complete x _ hi]
    -- A bit that both know is the same in both, and one that only one knows is taken from it.
    by_cases hy : y.bit i = .unknown
    · exact Or.inl hy
    by_cases hx : x.bit i = .unknown
    · have hopen : x.known.getLsbD i = false := by
        simpa [hx] using (known_eq_true_iff (x := x) (i := i)).not
      have hknown : y.known.getLsbD i = true := known_eq_true_iff.mpr hy
      exact Or.inr (by simp [hopen, bit, hknown])
    · have hknown : x.known.getLsbD i = true := known_eq_true_iff.mpr hx
      have hsame : x.bit i = y.bit i := by
        by_contra hne
        exact hagree ⟨i, hx, hy, hne⟩
      rw [← hsame, bit, if_pos hknown, if_pos hknown]
      exact Or.inr rfl

private theorem isEqual_eq_true_iff {x y : KnownBits w} :
    x.isEqual y = .true ↔ (x.isKnown ∧ y.isKnown) ∧ x = y := by
  constructor
  · intro h
    obtain ⟨hx, hy⟩ := isKnown_of_isEqual_eq_true h
    obtain ⟨a, rfl⟩ := isKnown_iff.mp hx
    obtain ⟨b, rfl⟩ := isKnown_iff.mp hy
    rw [isEqual_exact] at h
    have hab : a = b := by
      by_contra hne
      simp [hne, Ternary.ofBool] at h
    exact ⟨⟨hx, hy⟩, congrArg exact hab⟩
  · intro h
    obtain ⟨⟨hx, -⟩, rfl⟩ := h
    obtain ⟨a, rfl⟩ := isKnown_iff.mp hx
    simp [isEqual_exact, Ternary.ofBool]

private theorem isZero_eq_false_iff {x : KnownBits w} : x.isZero = .false ↔ 0#w ∉ x := by
  rw [isZero_eq_isEqual, isEqual_eq_false_iff_disjoint]
  simp only [mem_exact_iff]
  constructor
  · intro h hzero
    exact h 0#w ⟨hzero, rfl⟩
  · intro h a hboth
    obtain ⟨ha, rfl⟩ := hboth
    exact h ha

/-! ## All operations -/

/-- The operations that work bit by bit make each bit of a result from the bits that determine it,
and leave it open only if the described words do. -/
structure Lossless (w : Nat) : Prop where
  bit_not : ∀ x : KnownBits w, ∀ i < w, x.not.bit i = (x.bit i).not
  bit_and : ∀ x y : KnownBits w, ∀ i < w, (x.and y).bit i = (x.bit i).and (y.bit i)
  bit_or : ∀ x y : KnownBits w, ∀ i < w, (x.or y).bit i = (x.bit i).or (y.bit i)
  bit_xor : ∀ x y : KnownBits w, ∀ i < w, (x.xor y).bit i = (x.bit i).xor (y.bit i)
  /-- Zeros come in at the low end. -/
  bit_shiftLeft : ∀ (x : KnownBits w) (amount : Nat), ∀ i < w, (x.shiftLeft amount).bit i =
    if i < amount % w then .false else x.bit (i - amount % w)
  /-- Zeros come in at the high end, or the sign as far as it is known. -/
  bit_shiftRight : ∀ (x : KnownBits w) (amount : Nat) (s : Signedness), ∀ i < w,
    (x.shiftRight amount s).bit i = if i + amount % w < w then x.bit (i + amount % w)
      else match s with
        | .signed => x.signBit
        | .unsigned => .false
  bit_resize : ∀ (x : KnownBits w) (w' : Nat) (s : Signedness), ∀ i < w',
    (x.resize w' s).bit i = if i < w then x.bit i
      else match s with
        | .signed => x.signBit
        | .unsigned => .false
  not : Tight (w := w) not (~~~ ·)
  and : Tight₂ (w := w) and (· &&& ·)
  or : Tight₂ (w := w) or (· ||| ·)
  xor : Tight₂ (w := w) xor (· ^^^ ·)
  shiftLeft : ∀ amount, Tight (w := w) (·.shiftLeft amount) (· <<< (amount % w))
  shiftRight : ∀ amount s, Tight (w := w) (·.shiftRight amount s) (s.shiftRight · (amount % w))
  resize : ∀ w' s, Tight (resize w' s : KnownBits w → KnownBits w') (s.extend w')
  isEqual_false : ∀ x y : KnownBits w, x.isEqual y = .false ↔ ∀ a, ¬ (a ∈ x ∧ a ∈ y)
  isEqual_true : ∀ x y : KnownBits w,
    x.isEqual y = .true ↔ (x.isKnown ∧ y.isKnown) ∧ x = y
  isZero_false : ∀ x : KnownBits w, x.isZero = .false ↔ 0#w ∉ x

/-- No operation that works bit by bit forgets what the known bits of its operands determine. -/
theorem bitwise_lossless (hw : 0 < w) : Lossless w where
  bit_not x i _ := KnownBits.bit_not x i
  bit_and x y i _ := KnownBits.bit_and x y i
  bit_or x y i _ := KnownBits.bit_or x y i
  bit_xor x y i _ := KnownBits.bit_xor x y i
  bit_shiftLeft x amount _ hi := KnownBits.bit_shiftLeft x amount hi
  bit_shiftRight x amount s _ hi := by
    rw [KnownBits.bit_shiftRight x amount s hi]
    cases s <;> rfl
  bit_resize x _ s _ hi := by
    rw [KnownBits.bit_resize x s hi]
    cases s <;> rfl
  not := tight_not
  and := .of_decides Ternary.decides_and KnownBits.bit_and fun a b i => BitVec.getLsbD_and
  or := .of_decides Ternary.decides_or KnownBits.bit_or fun a b i => BitVec.getLsbD_or
  xor := .of_decides Ternary.decides_xor KnownBits.bit_xor fun a b i => BitVec.getLsbD_xor
  shiftLeft amount := (moves_shiftLeft amount).tight (shiftLeft_exact · amount)
  shiftRight amount s := (moves_shiftRight amount s).tight (shiftRight_exact · amount s)
  resize _ s := (moves_resize hw s).tight (resize_exact · hw s)
  isEqual_false _ _ := isEqual_eq_false_iff_disjoint
  isEqual_true _ _ := isEqual_eq_true_iff
  isZero_false _ := isZero_eq_false_iff

/-- The widths of the integers that values and memory hold. -/
theorem bitwise_lossless_widths : (0 < 8 ∧ 0 < 16 ∧ 0 < 32 ∧ 0 < 64) ∧
    Lossless 8 ∧ Lossless 16 ∧ Lossless 32 ∧ Lossless 64 :=
  ⟨by decide, bitwise_lossless (by decide), bitwise_lossless (by decide),
    bitwise_lossless (by decide), bitwise_lossless (by decide)⟩

end KnownBits

end CilAnalysis
