import CilAnalysis.Proofs.Information.Bits
import CilAnalysis.Value

/-!
# Integers in locations of integer types

The value that is found after an integer was stored in a location of an integer type depends on the
low bits of the integer only: on as many as the type has.  So it does not matter whether what is
stored is converted before it is stored, after it is loaded, or both times (`Value.coerce_coerce`),
nor whether the bits above those of the type were cleared in between
(`Value.coerce_resize_truncate`).

## Strategy

An integer type keeps integers in one of four shapes, and `IntegerShape.bits` is the number of bits
that a shape keeps.  Two facts about shapes carry everything here.

* Integers with the same low bits, as many as the shape keeps, are kept as the same value
  (`Value.ofInteger_congr`).
* What an integer is kept as is again an integer, and it has these low bits
  (`Value.exists_integer_ofInteger`): it was cut off to them and extended, and neither changes a bit
  that is kept.

A second conversion, or a detour through memory, therefore starts from an integer with the low bits
of the first and ends with the same value.
-/

namespace CilAnalysis

open KnownBits

namespace KnownBits

variable {w : Nat}

private theorem truncate_truncate {n k : Nat} (x : KnownBits w) (hn : n ≤ k) (hk : k ≤ w) :
    (x.truncate k).truncate n = x.truncate n :=
  truncate_resize x .unsigned (by omega) hn

end KnownBits

/-! ## The low bits of an integer -/

/-- The number of bits of an integer that a shape keeps. -/
def IntegerShape.bits (width : PointerWidth) : IntegerShape → Nat
  | narrow bits _ => bits
  | word => 32
  | long => 64
  | native => width.bits

namespace Value

variable {width : PointerWidth} {type : TypeSig} {shape : IntegerShape}

/-- Only the low bits of an integer count. -/
theorem ofInteger_congr {x y : KnownBits 64} {n : Nat} (hn : n ≤ 64) (hbits : shape.bits width ≤ n)
    (h : x.truncate n = y.truncate n) : ofInteger width shape x = ofInteger width shape y := by
  have hlow : ∀ k ≤ n, x.truncate k = y.truncate k := by
    intro k hk
    calc x.truncate k
      _ = (x.truncate n).truncate k := (truncate_truncate x hk hn).symm
      _ = (y.truncate n).truncate k := by rw [h]
      _ = y.truncate k := truncate_truncate y hk hn
  cases shape with
  | narrow bits s => rw [ofInteger, ofInteger, hlow bits hbits]
  | word => rw [ofInteger, ofInteger, hlow 32 hbits]
  | long =>
      have hall := hlow 64 hbits
      rw [truncate_self, truncate_self] at hall
      rw [hall]
  | native =>
      cases width with
      | bits32 =>
          rw [ofInteger, ofInteger, PointerWidth.native, hlow 32 hbits]
          rfl
      | bits64 =>
          have hall := hlow 64 hbits
          rw [truncate_self, truncate_self] at hall
          rw [hall]

theorem coerce_eq_ofInteger {v : Value} {x : KnownBits 64}
    (hshape : type.integerShape? = some shape) (hv : v.integer? = some x) :
    v.coerce width type = ofInteger width shape x := by
  unfold coerce
  rw [hshape, hv]

private theorem bits_le_of_integerShape? (width : PointerWidth)
    (hshape : type.integerShape? = some shape) :
    shape.bits width ≤ 64 ∧ ∀ bits s, shape = .narrow bits s → bits ≤ 32 := by
  cases type <;> cases hshape <;> cases width <;> simp [IntegerShape.bits, PointerWidth.bits]

/-- What an integer is kept as has the low bits of the integer. -/
theorem exists_integer_ofInteger (width : PointerWidth)
    (hshape : type.integerShape? = some shape) (x : KnownBits 64) :
    ∃ y, (ofInteger width shape x).integer? = some y ∧
      y.truncate (shape.bits width) = x.truncate (shape.bits width) := by
  obtain ⟨-, hnarrow⟩ := bits_le_of_integerShape? width hshape
  cases shape with
  | narrow bits s =>
      have hbits := hnarrow bits s rfl
      refine ⟨_, rfl, ?_⟩
      calc (((x.truncate bits).resize 32 s).resize 64 .signed).truncate bits
        _ = ((x.truncate bits).resize 32 s).truncate bits :=
            truncate_resize _ _ hbits (by omega)
        _ = (x.truncate bits).truncate bits := truncate_resize _ _ le_rfl hbits
        _ = x.truncate bits := truncate_self _
  | word =>
      refine ⟨_, rfl, ?_⟩
      show ((x.truncate 32).resize 64 .signed).truncate 32 = x.truncate 32
      rw [truncate_resize _ _ le_rfl (by omega), truncate_self]
  | long => exact ⟨x, rfl, rfl⟩
  | native =>
      cases width with
      | bits32 =>
          refine ⟨_, rfl, ?_⟩
          show ((x.truncate 32).resize 64 .signed).truncate 32 = x.truncate 32
          rw [truncate_resize _ _ le_rfl (by omega), truncate_self]
      | bits64 => exact ⟨x, rfl, rfl⟩

/-- A second conversion to the same type changes nothing. -/
theorem coerce_coerce {v : Value} (hshape : type.integerShape? = some shape) {x : KnownBits 64}
    (hv : v.integer? = some x) : (v.coerce width type).coerce width type = v.coerce width type := by
  obtain ⟨y, hy, hlow⟩ := exists_integer_ofInteger width hshape x
  obtain ⟨hbits, -⟩ := bits_le_of_integerShape? width hshape
  rw [coerce_eq_ofInteger hshape hv]
  calc (ofInteger width shape x).coerce width type
    _ = ofInteger width shape y := coerce_eq_ofInteger hshape hy
    _ = ofInteger width shape x := ofInteger_congr hbits le_rfl hlow

/-- The bits in memory are those that the shape keeps. -/
theorem bits_eq_of_size? {size : Nat} (hshape : type.integerShape? = some shape)
    (hsize : type.size? width = some size) : shape.bits width = 8 * size := by
  cases type <;> cases hshape <;> cases hsize <;> cases width <;> rfl

/-- An integer that was cut to the size of a type and then extended by zeros is still found as the
same value of the type. -/
theorem coerce_resize_truncate {v : Value} {x : KnownBits 64} {size : Nat}
    (hshape : type.integerShape? = some shape) (hsize : type.size? width = some size)
    (hv : v.integer? = some x) :
    (int64 ((x.truncate (8 * size)).resize 64 .unsigned)).coerce width type =
      v.coerce width type := by
  have hbits := bits_eq_of_size? hshape hsize
  obtain ⟨hle, -⟩ := bits_le_of_integerShape? width hshape
  rw [coerce_eq_ofInteger hshape (x := (x.truncate (8 * size)).resize 64 .unsigned) rfl,
    coerce_eq_ofInteger hshape hv]
  refine ofInteger_congr (n := 8 * size) (by omega) hbits.le ?_
  rw [truncate_resize _ _ le_rfl (by omega), truncate_self]

end Value

end CilAnalysis
