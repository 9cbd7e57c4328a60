import CilAnalysis.Proofs.Machine.Canonical
import CilAnalysis.Proofs.Value.Coercion

/-!
# Checked conversions of integers

A checked conversion reads an integer as a number, compares it with the bounds of the target type
and puts the number in a value of that type.  The main result is
`Interpreter.dispatch_checkedConversion`.

## Strategy

An integer on the stack is a word of 32 bits, a word of 64 bits, or a native integer, which has 64
bits of which all or half count.  `Value.IsWord` says of all three alike what is read from them at
their own width, what a checked conversion reads and what an unchecked one extends.  The three kinds
are told apart once (`Value.exists_isWord`); the rest of the proof is about the word.

* The bounds of a target enclose just the numbers of its words (`Signedness.exists_read_iff`).
* The value that is made for a number keeps the low bits of it (`IntegerTarget.readAt?_ofNumber`),
  and so the number is found again if the target holds it.
* For a number in the range of the target the unchecked conversion leaves the same word
  (`Value.wrapTo_eq_ofNumber`).

A native integer of 32 bits has to be in canonical form, that is, its upper half repeats the sign.
This is used in one place, where a signed check reads all of the 64 bits (`Value.isWord_nativeInt`).
-/

namespace CilAnalysis

open KnownBits

/-! ## Words and the numbers they stand for -/

namespace Signedness

variable {w w' : Nat}

/-- The numbers that words of a width stand for are those between its bounds. -/
theorem exists_read_iff (hw : 0 < w) (s : Signedness) (n : Int) :
    (∃ a : BitVec w, s.read a = n) ↔ s.least w ≤ n ∧ n ≤ s.greatest w := by
  cases s with
  | signed =>
      have hpow : ((Nat.pow 2 (w - 1) : Nat) : Int) = 2 ^ (w - 1) := Nat.cast_pow 2 (w - 1)
      simp only [read, least, greatest, hpow]
      constructor
      · rintro ⟨a, rfl⟩
        have hlt := BitVec.toInt_lt (x := a)
        exact ⟨BitVec.le_toInt a, by omega⟩
      · rintro ⟨hleast, hgreatest⟩
        exact ⟨BitVec.ofInt w n, BitVec.toInt_ofInt_eq_self hw hleast (by omega)⟩
  | unsigned =>
      have hpow : ((Nat.pow 2 w : Nat) : Int) = ((2 ^ w : Nat) : Int) := rfl
      simp only [read, least, greatest, hpow]
      constructor
      · rintro ⟨a, rfl⟩
        have hlt := a.isLt
        omega
      · rintro ⟨hleast, hgreatest⟩
        refine ⟨BitVec.ofNat w n.toNat, ?_⟩
        rw [BitVec.toNat_ofNat, Nat.mod_eq_of_lt (by omega)]
        omega

theorem read_ofInt (s : Signedness) {n : Int} (h : ∃ a : BitVec w, s.read a = n) :
    s.read (BitVec.ofInt w n) = n := by
  obtain ⟨a, rfl⟩ := h
  rw [ofInt_read]

private theorem extend_self (s : Signedness) (a : BitVec w) : s.extend w a = a := by
  cases s with
  | signed => exact a.signExtend_eq
  | unsigned => exact a.setWidth_eq

/-- A word that is extended stands for the same signed number, unless a set sign bit is lost. -/
theorem extend_eq_ofInt {s : Signedness} {a : BitVec w} (h : s = .unsigned → 0 ≤ a.toInt) :
    s.extend w' a = BitVec.ofInt w' a.toInt := by
  cases s with
  | signed => rfl
  | unsigned =>
      have htoNat : a.toInt = a.toNat := by
        have hlt := a.isLt
        have hnonneg := h rfl
        rw [BitVec.toInt_eq_toNat_cond] at hnonneg ⊢
        split <;> omega
      rw [htoNat, BitVec.ofInt_natCast]
      exact (BitVec.ofNat_toNat w' a).symm

end Signedness

/-- The low bits of a number do not depend on the width they are cut from. -/
theorem setWidth_ofInt {w w' : Nat} (hw : w' ≤ w) (n : Int) :
    (BitVec.ofInt w n).setWidth w' = BitVec.ofInt w' n := by
  have hdvd : ((2 ^ w' : Nat) : Int) ∣ ((2 ^ w : Nat) : Int) :=
    Int.natCast_dvd_natCast.mpr (Nat.pow_dvd_pow 2 hw)
  have hpos : ((2 ^ w : Nat) : Int) ≠ 0 := Int.natCast_ne_zero.mpr (NeZero.ne _)
  apply BitVec.eq_of_toNat_eq
  calc ((BitVec.ofInt w n).setWidth w').toNat
      = (n % ((2 ^ w : Nat) : Int)).toNat % 2 ^ w' := by
        rw [BitVec.toNat_setWidth, BitVec.toNat_ofInt]
    _ = (n % ((2 ^ w : Nat) : Int) % ((2 ^ w' : Nat) : Int)).toNat := by
        rw [Int.toNat_emod (Int.emod_nonneg n hpos) (Int.natCast_nonneg _), Int.toNat_natCast]
    _ = (n % ((2 ^ w' : Nat) : Int)).toNat := by rw [Int.emod_emod_of_dvd n hdvd]
    _ = (BitVec.ofInt w' n).toNat := (BitVec.toNat_ofInt ..).symm

namespace KnownBits

variable {w w' : Nat}

private theorem truncate_exact (a : BitVec w) (hw : 0 < w) :
    (exact a).truncate w' = exact (a.setWidth w') :=
  resize_exact a hw .unsigned

end KnownBits

namespace IntegerTarget

/-- A target holds the numbers that words of its width stand for. -/
def Holds (width : PointerWidth) (t : IntegerTarget) (n : Int) : Prop :=
  ∃ a : BitVec (t.bits width), t.signedness.read a = n

/-- The kind of a value of the target's type. -/
def kind : IntegerTarget → String
  | int8 | uint8 | int16 | uint16 | int32 | uint32 => "int32"
  | int64 | uint64 => "int64"
  | nativeInt | nativeUInt => "native int"

variable (width : PointerWidth) (t : IntegerTarget)

private theorem bits_pos : 0 < t.bits width := by
  cases t <;> cases width <;> decide

private theorem bits_le : t.bits width ≤ 64 := by
  cases t <;> cases width <;> decide

theorem inRange_iff_holds (n : Int) : t.inRange width n = true ↔ t.Holds width n := by
  rw [inRange, Bool.and_eq_true, decide_eq_true_iff, decide_eq_true_iff]
  exact (Signedness.exists_read_iff (t.bits_pos width) t.signedness n).symm

private theorem exists_integerShape : ∃ shape, t.type.integerShape? = some shape ∧
    shape.bits width = t.bits width := by
  cases t <;> exact ⟨_, rfl, rfl⟩

end IntegerTarget

namespace Value

/-- The number of bits of an integer. -/
def bits (width : PointerWidth) : Value → Nat
  | int32 _ => 32
  | int64 _ => 64
  | nativeInt _ => width.bits
  | float _ | object _ | pointer _ => 0

/-- The number that the low bits of an integer stand for, if they are known. -/
def readAt? (bits : Nat) (s : Signedness) (v : Value) : Option Int :=
  (v.integer?.bind fun x => (x.truncate bits).toBitVec?).map s.read

/-! ## The number of a known integer -/

/-- A value is the integer with the bits of a word: that is its own width, and the word is what is
read at this width, what a checked conversion reads and what an unchecked one extends. -/
structure IsWord (width : PointerWidth) (v : Value) {w : Nat} (a : BitVec w) : Prop where
  bits_eq : v.bits width = w
  readAt?_eq : ∀ s, v.readAt? w s = some (s.read a)
  number?_eq : ∀ s, v.number? width s = some (s.read a)
  extended?_eq : ∀ s, v.extended? width s = some (.exact (s.extend 64 a))

private theorem isWord_int32 (width : PointerWidth) (a : BitVec 32) :
    (int32 (.exact a)).IsWord width a where
  bits_eq := rfl
  readAt?_eq s := by
    have hlow : ((exact a).resize 64 .signed).truncate 32 = .exact a := by
      rw [truncate_resize _ _ le_rfl (by decide), truncate_self]
    rw [readAt?, integer?, Option.bind_some, hlow, toBitVec?_exact, Option.map_some]
  number?_eq s := by rw [number?, toBitVec?_exact, Option.map_some]
  extended?_eq s := by rw [extended?, resize_exact a (by decide)]

private theorem isWord_int64 (width : PointerWidth) (a : BitVec 64) :
    (int64 (.exact a)).IsWord width a where
  bits_eq := rfl
  readAt?_eq s := by
    rw [readAt?, integer?, Option.bind_some, truncate_self, toBitVec?_exact,
      Option.map_some]
  number?_eq s := by rw [number?, toBitVec?_exact, Option.map_some]
  extended?_eq s := by rw [extended?, s.extend_self]

/-- A native integer in canonical form repeats the sign of its low bits, so that all of its bits
stand for the same signed number as these. -/
theorem isWord_nativeInt (width : PointerWidth) (a : BitVec 64)
    (hcanonical : width.native (.exact a) = .exact a) :
    (nativeInt (.exact a)).IsWord width (a.setWidth width.bits) where
  bits_eq := rfl
  readAt?_eq s := by
    rw [readAt?, integer?, Option.bind_some, truncate_exact a (by decide),
      toBitVec?_exact, Option.map_some]
  number?_eq s := by
    cases width with
    | bits64 =>
        show (exact a).toBitVec?.map s.read = some (s.read (a.setWidth 64))
        rw [toBitVec?_exact, Option.map_some, a.setWidth_eq]
    | bits32 =>
        cases s with
        | unsigned =>
            show (exact a).toBitVec?.map
              (fun b => Signedness.unsigned.read (b.truncate 32)) =
                some (Signedness.unsigned.read (a.setWidth 32))
            rw [toBitVec?_exact, Option.map_some]
        | signed =>
            -- only here all 64 bits are read, and the canonical form is needed
            rw [PointerWidth.native, truncate_exact a (by decide),
              resize_exact _ (by decide), exact_inj] at hcanonical
            have hsame : a.toInt = (a.setWidth 32).toInt :=
              calc a.toInt
                  = ((a.setWidth 32).signExtend 64).toInt :=
                    congrArg BitVec.toInt hcanonical.symm
                _ = (a.setWidth 32).toInt := BitVec.toInt_signExtend_of_le (by decide)
            show (exact a).toBitVec?.map BitVec.toInt = some (a.setWidth 32).toInt
            rw [toBitVec?_exact, Option.map_some, hsame]
  extended?_eq s := by
    cases width with
    | bits32 =>
        rw [extended?, truncate_exact a (by decide),
          resize_exact _ (by decide)]
        rfl
    | bits64 => rw [extended?, PointerWidth.bits, a.setWidth_eq, s.extend_self]

private theorem exists_isWord {width : PointerWidth} {v : Value}
    (hinteger : v.integer?.isSome = true) (hknown : v.isKnown = true)
    (hcanonical : v.Canonical width) : ∃ (w : Nat) (a : BitVec w), v.IsWord width a := by
  cases v with
  | int32 x =>
      obtain ⟨a, rfl⟩ := isKnown_iff.mp hknown
      exact ⟨32, a, isWord_int32 width a⟩
  | int64 x =>
      obtain ⟨a, rfl⟩ := isKnown_iff.mp hknown
      exact ⟨64, a, isWord_int64 width a⟩
  | nativeInt x =>
      obtain ⟨a, rfl⟩ := isKnown_iff.mp hknown
      exact ⟨_, _, isWord_nativeInt width a hcanonical⟩
  | float | object | pointer => cases hinteger

private theorem number?_eq_none {width : PointerWidth} {v : Value} (hunknown : v.isKnown = false)
    (s : Signedness) : v.number? width s = none := by
  have hnone {w : Nat} {x : KnownBits w} (hx : x.isKnown = false) : x.toBitVec? = none := by
    rw [toBitVec?, hx]
    rfl
  cases v with
  | int32 x | int64 x => rw [number?, hnone hunknown, Option.map_none]
  | nativeInt x =>
      have hx := hnone (x := x) hunknown
      cases width <;> cases s <;> exact congrArg (Option.map _) hx
  | float | object | pointer => rfl

end Value

/-! ## The value that holds a number -/

/-- A known integer is kept as a known value. -/
theorem Value.isKnown_ofInteger {width : PointerWidth} {shape : IntegerShape}
    (hpos : 0 < shape.bits width) (a : BitVec 64) :
    (ofInteger width shape (.exact a)).isKnown = true := by
  have hcut (k : Nat) : (exact a).truncate k = .exact (a.setWidth k) :=
    truncate_exact a (by decide)
  cases shape with
  | narrow bits s =>
      have hbits : 0 < bits := hpos
      rw [ofInteger, hcut, resize_exact _ hbits]
      exact isKnown_exact _
  | word =>
      rw [ofInteger, hcut]
      exact isKnown_exact _
  | long => exact isKnown_exact a
  | native =>
      cases width with
      | bits32 =>
          rw [ofInteger, PointerWidth.native, hcut, resize_exact _ (by decide)]
          exact isKnown_exact _
      | bits64 => exact isKnown_exact a

namespace IntegerTarget

variable (width : PointerWidth) (t : IntegerTarget) (n : Int)

theorem kind_ofNumber : (t.ofNumber width n).kind = t.kind := by
  cases t <;> rfl

/-- The low bits of the value that holds a number are those of the number. -/
theorem readAt?_ofNumber :
    (t.ofNumber width n).readAt? (t.bits width) t.signedness =
      some (t.signedness.read (BitVec.ofInt (t.bits width) n)) := by
  obtain ⟨shape, hshape, hbits⟩ := t.exists_integerShape width
  obtain ⟨y, hy, hlow⟩ := Value.exists_integer_ofInteger width hshape (.ofInt 64 n)
  have hword : y.truncate (shape.bits width) = .exact (BitVec.ofInt (shape.bits width) n) :=
    calc y.truncate (shape.bits width)
        = (ofInt 64 n).truncate (shape.bits width) := hlow
      _ = .exact ((BitVec.ofInt 64 n).setWidth (shape.bits width)) :=
          truncate_exact _ (by decide)
      _ = .exact (BitVec.ofInt (shape.bits width) n) := by
          rw [setWidth_ofInt (hbits ▸ t.bits_le width)]
  rw [ofNumber, Value.coerce_eq_ofInteger hshape (v := Value.ofInt64 n) rfl, Value.readAt?, hy,
    Option.bind_some, ← hbits, hword, toBitVec?_exact, Option.map_some]

theorem isKnown_ofNumber : (t.ofNumber width n).isKnown = true := by
  obtain ⟨shape, hshape, hbits⟩ := t.exists_integerShape width
  rw [ofNumber, Value.coerce_eq_ofInteger hshape (v := Value.ofInt64 n) rfl]
  exact Value.isKnown_ofInteger (hbits ▸ t.bits_pos width) _

end IntegerTarget

namespace Value

variable {width : PointerWidth} {t : IntegerTarget} {v : Value} {w : Nat} {a : BitVec w}

/-- An unchecked conversion of a number in range does what the checked one does. -/
theorem wrapTo_eq_ofNumber (hword : v.IsWord width a) (hholds : t.Holds width a.toInt) :
    v.wrapTo width t = t.ofNumber width a.toInt := by
  have hextend : t.signedness.extend 64 a = BitVec.ofInt 64 a.toInt := by
    apply Signedness.extend_eq_ofInt
    intro hunsigned
    -- an unsigned target holds no negative number, so the sign that is not extended is clear
    obtain ⟨b, hb⟩ := hholds
    rw [← hb, hunsigned]
    exact Int.natCast_nonneg _
  rw [wrapTo, hword.extended?_eq, hextend]
  rfl

private theorem checkedTo_eq (hword : v.IsWord width a) (s : Signedness) :
    v.checkedTo width t s =
      if t.inRange width (s.read a) then .ok (t.ofNumber width (s.read a))
      else .error .overflow := by
  rw [checkedTo, hword.number?_eq]

end Value

/-! ## Execution -/

namespace Setting

open Step

variable {s : Setting} {m : Machine} {v : Value} {rest : List Value}

private theorem run_onTop (hstack : m.stack = v :: rest)
    (hroom : rest.length < s.options.maxStackDepth) (f : Value → Except Fault Value) :
    (s.onTop f).run m =
      match f v with
      | .ok v' => (.ok (), { m with stack := v' :: rest })
      | .error fault => (.error fault, { m with stack := rest }) := by
  unfold onTop
  rw [run_pop_bind hstack, run_bind, run_attempt]
  cases f v with
  | error fault => rfl
  | ok v' => exact run_push_of_lt v' hroom

/-- A conversion takes a value within the limit of the stack and leaves what it is converted to, or
nothing if it faults. -/
theorem run_convertInteger (hstack : m.stack = v :: rest)
    (hdepth : m.stack.length ≤ s.options.maxStackDepth) {i : Instruction} {t : IntegerTarget}
    {check : Option Signedness} (hop : i.opcode.operation = .convertInteger t check) :
    (s.execute i).run m =
      match v.toIntegerTarget s.width i.opcode t check with
      | .ok v' => (.ok .fallThrough, { m with stack := v' :: rest })
      | .error fault => (.error fault, { m with stack := rest }) := by
  have hroom : rest.length < s.options.maxStackDepth := by
    rw [hstack, List.length_cons] at hdepth
    exact hdepth
  have hrun := run_onTop hstack hroom (Value.toIntegerTarget s.width i.opcode t check)
  rw [execute, hop]
  show (thenNext (s.onTop (Value.toIntegerTarget s.width i.opcode t check))).run m = _
  cases hconvert : v.toIntegerTarget s.width i.opcode t check with
  | error fault =>
      rw [hconvert] at hrun
      exact run_thenNext_of_error hrun
  | ok v' =>
      rw [hconvert] at hrun
      exact run_thenNext_of_ok hrun

end Setting

private theorem Value.toIntegerTarget_of_integer {v : Value} (hinteger : v.integer?.isSome = true)
    (width : PointerWidth) (opcode : Opcode) (t : IntegerTarget) (check : Option Signedness) :
    v.toIntegerTarget width opcode t check =
      match check with
      | none => .ok (v.wrapTo width t)
      | some s => v.checkedTo width t s := by
  cases v with
  | int32 | int64 | nativeInt => cases check <;> rfl
  | float | object | pointer => cases hinteger

namespace Interpreter

/-- Let an integer be on top of a stack within its limit, and let an instruction convert it to a
target with a check that reads it with a signedness.  If the integer is known, and canonical for the
width of pointers, it stands for a number at its own width.  The instruction faults with an overflow
exactly if the target does not hold this number; otherwise it puts in its place a known value of the
target's kind from which the number is read back at the target's width and signedness, and if the
check is a signed one, the unchecked conversion to the target does the same.  An integer of which
not every bit is known is replaced by the unknown of the target's type. -/
theorem dispatch_checkedConversion (s : Setting) (m : Machine) {v : Value} {rest : List Value}
    (hstack : m.stack = v :: rest) (hdepth : m.stack.length ≤ s.options.maxStackDepth)
    (hinteger : v.integer?.isSome = true) {i : Instruction} {t : IntegerTarget}
    {check : Signedness} (hop : i.opcode.operation = .convertInteger t (some check)) :
    let p : Interpreter := {}
    let run := (p.dispatch s i).run m
    (v.isKnown = true → v.Canonical s.width →
      ∃ n, v.readAt? (v.bits s.width) check = some n ∧
        (run.1 = .error .overflow ↔ ¬ t.Holds s.width n) ∧
        (t.Holds s.width n →
          ∃ v', run = (.ok .fallThrough, { m with stack := v' :: rest }) ∧ v'.kind = t.kind ∧
            v'.isKnown = true ∧ v'.readAt? (t.bits s.width) t.signedness = some n ∧
            (check = .signed → ∀ j : Instruction, j.opcode.operation = .convertInteger t none →
              (p.dispatch s j).run m = run))) ∧
    (v.isKnown = false →
      run = (.ok .fallThrough, { m with stack := .unknownOf s.width t.type :: rest })) := by
  intro p
  have hdispatch (i : Instruction) : p.dispatch s i = s.execute i := dispatch_eq_execute {} s i
  simp only [hdispatch, Setting.run_convertInteger hstack hdepth hop,
    Value.toIntegerTarget_of_integer hinteger]
  constructor
  · intro hknown hcanonical
    obtain ⟨w, a, hword⟩ := Value.exists_isWord hinteger hknown hcanonical
    refine ⟨check.read a, hword.bits_eq ▸ hword.readAt?_eq check, ?_, ?_⟩
    · rw [Value.checkedTo_eq hword, ← t.inRange_iff_holds]
      by_cases hrange : t.inRange s.width (check.read a) = true
      · rw [if_pos hrange]
        exact iff_of_false nofun (not_not_intro hrange)
      · rw [if_neg hrange]
        exact iff_of_true rfl hrange
    · intro hholds
      have hrange := (t.inRange_iff_holds s.width _).mpr hholds
      refine ⟨t.ofNumber s.width (check.read a), ?_, t.kind_ofNumber _ _, t.isKnown_ofNumber _ _,
        ?_, ?_⟩
      · rw [Value.checkedTo_eq hword, if_pos hrange]
      · rw [t.readAt?_ofNumber, t.signedness.read_ofInt hholds]
      · -- The unchecked conversion has the same word before it and so makes the same value.
        rintro rfl j hj
        rw [Setting.run_convertInteger hstack hdepth hj, Value.toIntegerTarget_of_integer hinteger,
          Value.checkedTo_eq hword, if_pos hrange, Value.wrapTo_eq_ofNumber hword hholds]
        rfl
  · intro hunknown
    rw [Value.checkedTo, Value.number?_eq_none hunknown]
    rfl

/-- The native integer with all bits set. -/
def allOnes : Value := .nativeInt (.exact (BitVec.allOnes 64))

/-- A state with that integer alone on the stack. -/
def beforeConversion : Machine where
  stack := [allOnes]
  frame := ⟨[], []⟩

/-- Where pointers have 32 bits, all ones are an unsigned number that 32 bits just hold. -/
theorem dispatch_checkedConversion_allOnes :
    let p : Interpreter := {}
    let s : Setting := { options := { width := .bits32 } }
    let run := (p.dispatch s ⟨0, .conv_ovf_u4_un, .none, 1⟩).run beforeConversion
    (allOnes.isKnown = true ∧ allOnes.Canonical .bits32) ∧
      allOnes.readAt? 32 .unsigned = some 4294967295 ∧
      IntegerTarget.uint32.Holds .bits32 4294967295 ∧ run.1 ≠ .error .overflow ∧
      ∃ v', run = (.ok .fallThrough, { beforeConversion with stack := [v'] }) ∧
        v'.kind = "int32" ∧ v'.readAt? 32 .unsigned = some 4294967295 := by
  intro p s run
  have hknown : allOnes.isKnown = true := by decide +kernel
  have hcanonical : allOnes.Canonical .bits32 := by
    show PointerWidth.native .bits32 _ = _
    decide +kernel
  have hread : allOnes.readAt? 32 .unsigned = some 4294967295 := by decide +kernel
  have hholds : IntegerTarget.uint32.Holds .bits32 4294967295 := ⟨BitVec.allOnes 32, by decide⟩
  obtain ⟨n, hn, hfault, hok⟩ := (dispatch_checkedConversion s beforeConversion rfl (by decide) rfl
    (i := ⟨0, .conv_ovf_u4_un, .none, 1⟩) rfl).1 hknown hcanonical
  obtain rfl : n = 4294967295 := Option.some.inj (hn.symm.trans hread)
  obtain ⟨v', hrun, hkind, -, hback, -⟩ := hok hholds
  exact ⟨⟨hknown, hcanonical⟩, hread, hholds, fun h => hfault.mp h hholds, v', hrun, hkind, hback⟩

end Interpreter

end CilAnalysis
