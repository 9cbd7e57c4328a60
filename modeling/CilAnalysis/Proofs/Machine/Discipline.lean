import CilAnalysis.Machine.Interpreter
import CilAnalysis.Proofs.Information.Values
import CilAnalysis.Proofs.KnownBits.Soundness
import CilAnalysis.Proofs.Memory.Growth

/-!
# Disciplines

An interpreter makes native integers, references and pointers in a few ways only: native integers
come out of arithmetic at the width of pointers, references and pointers name what was just
allocated, and everything else is copied.  A `Discipline` is a requirement on these three kinds of
values that the few ways of making them meet.  It may also restrict what is stored in variables, and
promise that some faults do not occur.

This file shows that what is computed from values that meet a discipline meets it too.

## Strategy

One statement is proved for every function on values, `D.Result (D.Admits h) (f v)`: the function
returns a value that meets the discipline, or a fault that may occur.  It composes along `bind`
(`Result.bind`), and three kinds of leaves remain.

* Values that are made from a type, as unknown, as default or by coercion, are admitted whatever
  they are made of (`admits_unknownOf`, `admits_defaultOf`, `Admits.coerce`).
* Native integers that are computed are admitted by the law `native_native`, or by `native_not` for
  the one operation that is not carried out at the width of pointers.
* Faults other than those of a handle that denotes the wrong thing are `Ordinary`, and every
  discipline lets them occur.  As faults carry only their wording, this is read off the last letter
  (`last_eq_of_append_eq`).
-/

namespace CilAnalysis

open Fault KnownBits

/-! ## Faults that are not about handles

The wording of a fault tells its cause: those of a handle that denotes nothing, or no memory block,
end in other letters than all other faults of their kind. -/

namespace Fault

/-- The cause is not that a handle denotes nothing, or something other than a memory block. -/
def Ordinary (f : Fault) : Prop :=
  ∀ index, f ≠ .ofError (.memoryBlockNotFound index) ∧ f ≠ .ofError (.notMemoryBlock index)

private theorem last_eq_of_append_eq {text suffix text' suffix' : String} {c c' : Char}
    (hlast : suffix.toList.getLast? = some c) (hlast' : suffix'.toList.getLast? = some c')
    (h : text ++ suffix = text' ++ suffix') : c = c' := by
  have hend := congrArg (fun t => t.toList.getLast?) h
  simp only [String.toList_append, List.getLast?_append, hlast, hlast', Option.some_or] at hend
  exact Option.some.inj hend

theorem ordinary_invalidProgram {text suffix : String} {c : Char}
    (hlast : suffix.toList.getLast? = some c) (hc : c ≠ 'k') :
    Ordinary (.invalidProgram (text ++ suffix)) := by
  intro index
  refine ⟨nofun, fun h => hc ?_⟩
  -- Of the two excluded faults only one is an invalid program, and its text ends in another letter.
  have htext : text ++ suffix = "heap[" ++ toString index ++ "] is not a memory block" :=
    invalidProgram.inj h
  exact last_eq_of_append_eq hlast rfl htext

theorem ordinary_outOfBounds (offset : Int) (size : Nat) :
    Ordinary (.ofError (.memoryAccessOutOfBounds offset size)) := by
  intro index
  refine ⟨fun h => ?_, nofun⟩
  have htext : "Memory access at offset " ++ toString offset ++ " of size " ++ toString size ++
      " is out of bounds" = "Memory block " ++ toString index ++ " not found" :=
    accessViolation.inj h
  have hlast : 's' = 'd' := last_eq_of_append_eq rfl rfl htext
  exact absurd hlast (by decide)

private theorem ordinary_kind (text : String) (v : Value) :
    Ordinary (.invalidProgram (text ++ v.kind)) := by
  cases v with
  | int32 => exact @ordinary_invalidProgram text "int32" _ rfl (by decide)
  | int64 => exact @ordinary_invalidProgram text "int64" _ rfl (by decide)
  | nativeInt => exact @ordinary_invalidProgram text "native int" _ rfl (by decide)
  | float => exact @ordinary_invalidProgram text "F" _ rfl (by decide)
  | object => exact @ordinary_invalidProgram text "O" _ rfl (by decide)
  | pointer => exact @ordinary_invalidProgram text "&" _ rfl (by decide)

private theorem ordinary_undefinedFor (opcode : Opcode) (operands : String) :
    Ordinary (.undefinedFor opcode operands) :=
  ordinary_invalidProgram rfl (by decide)

end Fault

/-! ## The requirement -/

/-- A requirement on the native integers, references and pointers that occur beside a heap, on
variables and on faults, where pointers have a given width.  The laws are what the interpreter's
ways of making such values ask for. -/
structure Discipline (width : PointerWidth) where
  /-- The native integers that may occur. -/
  native : KnownBits 64 → Prop
  /-- The handles of references that may occur beside a heap. -/
  entry : Heap → Handle → Prop
  /-- The handles of pointers that may occur beside a heap. -/
  block : Heap → Handle → Prop
  /-- What the variables may hold. -/
  frame : Frame → Prop
  /-- The variables that may be stored in. -/
  stored : Variable → Prop
  /-- The faults that may occur. -/
  fault : Fault → Prop
  native_native (x : KnownBits 64) : native (width.native x)
  native_not {x : KnownBits 64} : native x → native x.not
  entry_mono {h h' : Heap} {handle : Handle} : h.Extends h' → entry h handle → entry h' handle
  block_mono {h h' : Heap} {handle : Handle} : h.Extends h' → block h handle → block h' handle
  entry_allocate (h : Heap) (o : HeapObject) : entry (h.allocate o).2 (h.allocate o).1
  block_allocate (h : Heap) (b : Block) :
    block (h.allocate (.memory b)).2 (h.allocate (.memory b)).1
  frame_set {f : Frame} {slot : Variable} (v : Value) :
    stored slot → frame f → frame (f.set slot v)
  fault_ordinary {f : Fault} : f.Ordinary → fault f
  fault_get {h : Heap} {handle : Handle} {e : Error} :
    entry h handle → h.get handle = .error e → fault (.ofError e)
  fault_block {h : Heap} {handle : Handle} {e : Error} :
    block h handle → h.block handle = .error e → fault (.ofError e)

namespace PointerWidth

variable (width : PointerWidth)

/-- A 32-bit integer extended with its sign is a native integer whatever the width of pointers. -/
theorem native_resize (x : KnownBits 32) :
    width.native (x.resize 64 .signed) = x.resize 64 .signed := by
  cases width with
  | bits64 => rfl
  | bits32 =>
      have hlow : (x.resize 64 .signed).truncate 32 = x := by
        rw [truncate_resize x .signed le_rfl (by decide), truncate_self]
      rw [native, hlow]

theorem native_unknown : width.native .unknown = .unknown := by
  have hwide : (unknown : KnownBits 32).resize 64 .signed = .unknown := by
    apply ext_bit
    intro i hi
    rw [bit_resize _ _ hi]
    split <;> simp [fill]
  calc width.native .unknown
    _ = width.native ((unknown : KnownBits 32).resize 64 .signed) := by rw [hwide]
    _ = (unknown : KnownBits 32).resize 64 .signed := width.native_resize .unknown
    _ = .unknown := hwide

end PointerWidth

namespace Discipline

variable {width : PointerWidth} (D : Discipline width)

/-- The value meets the discipline beside a heap. -/
def Admits (h : Heap) : Value → Prop
  | .nativeInt x => D.native x
  | .object (.known handle) => D.entry h handle
  | .pointer p => ∀ base, p.base = some base → D.block h base
  | .int32 _ | .int64 _ | .float _ | .object .null | .object .unknown => True

variable {D} {h h' : Heap}

theorem Admits.mono {v : Value} (hv : D.Admits h v) (hext : h.Extends h') : D.Admits h' v := by
  cases v with
  | object r =>
      cases r with
      | known handle => exact D.entry_mono hext hv
      | null | unknown => trivial
  | pointer p => exact fun base hbase => D.block_mono hext (hv base hbase)
  | nativeInt x => exact hv
  | int32 | int64 | float => trivial

private theorem native_signed (x : KnownBits 32) : D.native (x.resize 64 .signed) := by
  rw [← width.native_resize]
  exact D.native_native _

theorem native_unknown : D.native .unknown := by
  rw [← width.native_unknown]
  exact D.native_native _

theorem admits_unknownPointer : D.Admits h (.pointer (.unknown width)) :=
  fun _ hbase => absurd hbase.symm (Option.some_ne_none _)

/-! ## Values of a type -/

private theorem admits_ofInteger (shape : IntegerShape) (x : KnownBits 64) :
    D.Admits h (.ofInteger width shape x) := by
  cases shape with
  | native => exact D.native_native x
  | narrow | word | long => trivial

theorem admits_unknownOf (type : TypeSig) : D.Admits h (.unknownOf width type) := by
  unfold Value.unknownOf
  split
  · trivial
  · exact admits_ofInteger _ _
  · trivial
  · trivial
  · exact admits_unknownPointer
  · exact admits_unknownPointer
  · trivial

theorem admits_defaultOf (type : TypeSig) : D.Admits h (.defaultOf width type) := by
  unfold Value.defaultOf
  split
  · exact admits_ofInteger _ _
  · trivial
  · trivial
  · exact admits_unknownPointer
  · exact admits_unknownPointer
  · trivial
  · trivial
  · trivial
  · trivial

theorem Admits.coerce {v : Value} (hv : D.Admits h v) (type : TypeSig) :
    D.Admits h (v.coerce width type) := by
  unfold Value.coerce
  split
  · exact admits_ofInteger _ _
  · exact admits_unknownPointer
  · exact admits_unknownPointer
  · split
    · trivial
    · exact hv
  · exact hv

/-! ## Results -/

variable (D) in
/-- A result has a property, or is a fault that may occur. -/
def Result {α : Type} (Q : α → Prop) : Except Fault α → Prop
  | .ok v => Q v
  | .error f => D.fault f

namespace Result

variable {α β : Type} {Q : α → Prop} {R : β → Prop}

theorem bind {r : Except Fault α} {f : α → Except Fault β} (hr : D.Result Q r)
    (hf : ∀ v, Q v → D.Result R (f v)) : D.Result R (r >>= f) := by
  cases r with
  | error => exact hr
  | ok v => exact hf v hr

theorem mono {Q' : α → Prop} {r : Except Fault α} (hr : D.Result Q r) (h : ∀ v, Q v → Q' v) :
    D.Result Q' r := by
  cases r with
  | error => exact hr
  | ok v => exact h v hr

theorem throw {f : Fault} (h : f.Ordinary) : D.Result Q (.error f) := D.fault_ordinary h

end Result

/-! ### Numbers -/

private theorem result_ofValues {lhs rhs : Value} (hl : D.Admits h lhs) (hr : D.Admits h rhs) :
    D.Result
      (fun
        | .native x y => D.native x ∧ D.native y
        | .pointerInteger p _ | .integerPointer _ p => D.Admits h (.pointer p)
        | .pointers p q => D.Admits h (.pointer p) ∧ D.Admits h (.pointer q)
        | .int32 .. | .int64 .. | .float .. => True)
      (NumericOperands.ofValues width lhs rhs) := by
  unfold NumericOperands.ofValues
  split
  · trivial
  · trivial
  · exact ⟨hl, hr⟩
  · exact ⟨hl, D.native_native _⟩
  · exact ⟨D.native_native _, hr⟩
  · trivial
  · exact hl
  · exact hl
  · exact hr
  · exact hr
  · exact ⟨hl, hr⟩
  · exact .throw (ordinary_invalidProgram rfl (by decide))

private theorem onIntegers_eq_error {w : Nat} {op : Operator} {x y : KnownBits w} {e : Error}
    (h : op.onIntegers x y = .error e) : e = .divideByZero ∨ e = .arithmeticOverflow := by
  have hchecked : ∀ {f : Int → Int → Int} {s : Signedness}, checked f s x y = .error e →
      e = .divideByZero ∨ e = .arithmeticOverflow :=
    fun hf => Or.inr (checked_eq_error_iff.mp hf).1
  cases op with
  | add | sub | mul | and | or | xor => exact nomatch h
  | checkedAdd | checkedSub | checkedMul => exact hchecked h
  | div s =>
      simp only [Operator.onIntegers, div] at h
      split at h
      · exact Or.inl (Except.error.inj h).symm
      · exact hchecked h
  | rem s =>
      simp only [Operator.onIntegers] at h
      exact Or.inl ((computesChecked_rem s).refused x y e |>.mp h).1

/-- Integers are computed with at will; what may go wrong is a division or an overflow. -/
theorem result_onIntegers {w : Nat} (op : Operator) (x y : KnownBits w) :
    D.Result (fun _ => True) ((op.onIntegers x y).mapError Fault.ofError) := by
  cases hop : op.onIntegers x y with
  | ok z => trivial
  | error e =>
      rcases onIntegers_eq_error hop with rfl | rfl
      · exact .throw fun _ => ⟨nofun, nofun⟩
      · exact .throw fun _ => ⟨nofun, nofun⟩

private theorem result_onNative
    {f : {w : Nat} → KnownBits w → KnownBits w → Except Fault (KnownBits w)}
    (hf : ∀ {w : Nat} (x y : KnownBits w), D.Result (fun _ => True) (f x y)) (x y : KnownBits 64) :
    D.Result D.native (width.onNative f x y) := by
  cases width with
  | bits32 => exact (hf _ _).bind fun z _ => native_signed z
  | bits64 => exact (hf x y).mono fun z _ => D.native_native z

theorem Admits.moveBy {p : Pointer} {move : Pointer → BitVec 64 → Pointer}
    (hp : D.Admits h (.pointer p)) (hmove : ∀ delta, (move p delta).base = p.base)
    (x : KnownBits 64) : D.Admits h (.pointer (p.moveBy move x)) := by
  unfold Pointer.moveBy
  split
  · intro base hbase
    rw [hmove] at hbase
    exact hp base hbase
  · exact fun _ hbase => absurd hbase.symm (Option.some_ne_none _)

theorem result_operator (op : Operator) (opcode : Opcode) {lhs rhs : Value}
    (hl : D.Admits h lhs) (hr : D.Admits h rhs) :
    D.Result (D.Admits h) (op.apply width opcode lhs rhs) := by
  unfold Operator.apply
  refine (result_ofValues hl hr).bind ?_
  intro operands hoperands
  cases operands with
  | int32 x y => exact (result_onIntegers op x y).bind fun _ _ => trivial
  | int64 x y => exact (result_onIntegers op x y).bind fun _ _ => trivial
  | native x y =>
      -- Native integers go through 32 bits where pointers do, which keeps them admissible.
      refine (result_onNative (fun x y => result_onIntegers op x y) x y).bind ?_
      exact fun _ hz => hz
  | float x y =>
      dsimp only
      cases op.onFloats? x y with
      | some z => trivial
      | none => exact .throw (ordinary_undefinedFor _ _)
  | pointerInteger p x =>
      dsimp only
      split
      · exact hoperands.moveBy (fun _ => rfl) x
      split
      · exact hoperands.moveBy (fun _ => rfl) x
      · exact .throw (ordinary_undefinedFor _ _)
  | integerPointer x p =>
      dsimp only
      split
      · exact hoperands.moveBy (fun _ => rfl) x
      · exact .throw (ordinary_undefinedFor _ _)
  | pointers p q =>
      dsimp only
      split
      · split
        · exact D.native_native _
        · exact native_unknown
      · exact .throw (ordinary_undefinedFor _ _)

theorem result_shift (shift : Shift) (opcode : Opcode) (v amount : Value) :
    D.Result (D.Admits h) (shift.apply width opcode v amount) := by
  have hamount : D.Result (fun _ => True) (Shift.amount? amount) := by
    unfold Shift.amount?
    split
    · trivial
    · trivial
    · exact .throw (ordinary_kind _ _)
  unfold Shift.apply
  refine hamount.bind ?_
  intro places _
  cases width with
  | bits32 =>
      cases v with
      | nativeInt x => exact native_signed _
      | int32 | int64 => trivial
      | float | object | pointer => exact .throw (ordinary_undefinedFor _ _)
  | bits64 =>
      cases v with
      | nativeInt x => exact D.native_native _
      | int32 | int64 => trivial
      | float | object | pointer => exact .throw (ordinary_undefinedFor _ _)

theorem result_negate (opcode : Opcode) (v : Value) :
    D.Result (D.Admits h) (v.negate width opcode) := by
  cases v with
  | nativeInt x => exact D.native_native _
  | int32 | int64 | float => trivial
  | object | pointer => exact .throw (ordinary_undefinedFor _ _)

theorem result_complement (opcode : Opcode) {v : Value} (hv : D.Admits h v) :
    D.Result (D.Admits h) (v.complement opcode) := by
  cases v with
  | nativeInt x => exact D.native_not hv
  | int32 | int64 => trivial
  | float | object | pointer => exact .throw (ordinary_undefinedFor _ _)

theorem result_decide (c : Comparison) (unsigned : Bool) {lhs rhs : Value}
    (hl : D.Admits h lhs) (hr : D.Admits h rhs) :
    D.Result (fun _ => True) (c.decide width unsigned lhs rhs) := by
  unfold Comparison.decide
  dsimp only
  split
  · unfold Comparison.onReferences
    split
    · trivial
    · trivial
    · exact .throw (ordinary_invalidProgram rfl (by decide))
  · refine (result_ofValues hl hr).bind ?_
    intro operands _
    cases operands <;> cases width <;> trivial

theorem result_toIntegerTarget (opcode : Opcode) (t : IntegerTarget) (check : Option Signedness)
    {v : Value} (hv : D.Admits h v) :
    D.Result (D.Admits h) (v.toIntegerTarget width opcode t check) := by
  have hunknown : D.Admits h (t.unknown width) := admits_unknownOf _
  have hnumber : ∀ n, D.Admits h (t.ofNumber width n) :=
    fun n => Admits.coerce (v := .ofInt64 n) trivial t.type
  have hchecked : ∀ (v : Value) (s : Signedness),
      D.Result (D.Admits h) (v.checkedTo width t s) := by
    intro v s
    unfold Value.checkedTo
    split
    · split
      · exact hnumber _
      · exact .throw fun _ => ⟨nofun, nofun⟩
    · exact hunknown
  have hwrapped : ∀ v : Value, D.Admits h (v.wrapTo width t) := by
    intro v
    unfold Value.wrapTo
    split
    next x _ => exact Admits.coerce (v := .int64 x) trivial t.type
    next => exact hunknown
  -- The cases are a float, a pointer, another reference, and an integer without and with a check.
  unfold Value.toIntegerTarget
  split
  · unfold Value.ofFloat
    split
    · exact hunknown
    · split
      · exact hnumber _
      · split
        · exact .throw fun _ => ⟨nofun, nofun⟩
        · exact hunknown
  · change D.Admits h _
    split
    · exact hv
    · exact hunknown
  · exact .throw (ordinary_invalidProgram rfl (by decide))
  · exact hwrapped _
  · exact hchecked _ _

theorem result_toFloatTarget (opcode : Opcode) (t : FloatTarget) (v : Value) :
    D.Result (D.Admits h) (v.toFloatTarget width opcode t) := by
  unfold Value.toFloatTarget
  dsimp only
  split
  · trivial
  · exact .throw (ordinary_kind _ _)
  · exact .throw (ordinary_kind _ _)
  · split
    · trivial
    · trivial

theorem result_requireFinite (opcode : Opcode) (v : Value) :
    D.Result (fun _ => True) (v.requireFinite opcode) := by
  unfold Value.requireFinite
  split
  · split
    · exact .throw fun _ => ⟨nofun, nofun⟩
    · trivial
  · exact .throw (ordinary_kind _ _)

/-! ### Indices, addresses and references -/

/-- A number that counts elements is a native integer too. -/
theorem result_index? {v : Value} (hv : D.Admits h v) :
    D.Result (fun n => ∀ k, n = some k → 0 ≤ k → D.native (.ofNat 64 k.toNat))
      (v.index? .signed) := by
  -- An index that is not negative is the word it was read from, seen as a number.
  have hword : ∀ {w : Nat} (a : BitVec w), w ≤ 64 → 0 ≤ a.toInt →
      BitVec.ofNat 64 a.toInt.toNat = a.signExtend 64 := by
    intro w a hw hle
    apply BitVec.eq_of_toInt_eq
    have hlt := BitVec.toInt_lt (x := a)
    have hpow : (2 : Int) ^ (w - 1) ≤ 2 ^ 63 := pow_le_pow_right₀ (by decide) (by omega)
    calc (BitVec.ofNat 64 a.toInt.toNat).toInt
      _ = (a.toInt.toNat : Int).bmod (2 ^ 64) := BitVec.toInt_ofNat' ..
      _ = a.toInt.bmod (2 ^ 64) := by rw [Int.toNat_of_nonneg hle]
      _ = a.toInt := Int.bmod_eq_of_le (by omega) (by omega)
      _ = (a.signExtend 64).toInt := (BitVec.toInt_signExtend_of_le hw).symm
  cases v with
  | int32 x =>
      intro k hk hle
      obtain ⟨a, ha, rfl⟩ := Option.map_eq_some_iff.mp hk
      rw [toBitVec?_eq_some_iff] at ha
      rw [ofNat, Signedness.read, hword a (by decide) hle]
      have hwide := native_signed (D := D) (exact a)
      rwa [resize_exact a (by decide)] at hwide
  | nativeInt x =>
      intro k hk hle
      obtain ⟨a, ha, rfl⟩ := Option.map_eq_some_iff.mp hk
      obtain rfl := toBitVec?_eq_some_iff.mp ha
      rw [ofNat, Signedness.read, hword a le_rfl hle, BitVec.signExtend_eq]
      exact hv
  | int64 | float | object | pointer =>
      exact .throw (ordinary_invalidProgram rfl (by decide))

theorem result_size? {v : Value} (hv : D.Admits h v) : D.Result (fun _ => True) v.size? :=
  (result_index? hv).bind fun _ _ => trivial

theorem result_address? {v : Value} (hv : D.Admits h v) :
    D.Result (fun address => ∀ p, address = some p → D.Admits h (.pointer p)) v.address? := by
  cases v with
  | pointer p =>
      change ∀ q, (if p.isKnown then some p else none) = some q → _
      intro q hq
      split at hq
      · obtain rfl := Option.some.inj hq
        exact hv
      · exact absurd hq.symm (Option.some_ne_none _)
  | nativeInt | int32 => exact fun _ hp => absurd hp.symm (Option.some_ne_none _)
  | int64 | float | object => exact .throw (ordinary_invalidProgram rfl (by decide))

/-- What is found by following a reference is what the reference may denote. -/
def AdmitsHandle (D : Discipline width) (h : Heap) (handle? : Option Handle) : Prop :=
  ∀ handle, handle? = some handle → D.entry h handle

private theorem admitsHandle_none : D.AdmitsHandle h none :=
  fun _ hnone => absurd hnone.symm (Option.some_ne_none _)

private theorem admitsHandle_some {handle : Handle} (hentry : D.entry h handle) :
    D.AdmitsHandle h (some handle) := by
  intro handle' heq
  obtain rfl := Option.some.inj heq
  exact hentry

theorem result_array? {v : Value} (hv : D.Admits h v) :
    D.Result (D.AdmitsHandle h) v.array? := by
  unfold Value.array?
  split
  · exact .throw fun _ => ⟨nofun, nofun⟩
  · exact admitsHandle_some hv
  · exact admitsHandle_none
  · exact .throw (ordinary_invalidProgram rfl (by decide))

theorem result_receiver? {v : Value} (hv : D.Admits h v) :
    D.Result (D.AdmitsHandle h) v.receiver? := by
  unfold Value.receiver?
  split
  · exact .throw fun _ => ⟨nofun, nofun⟩
  · exact admitsHandle_some hv
  · exact admitsHandle_none
  · exact admitsHandle_none
  · exact admitsHandle_none
  · exact .throw (ordinary_invalidProgram rfl (by decide))

theorem result_reference {v : Value} (hv : D.Admits h v) :
    D.Result (fun r => D.Admits h (.object r)) v.reference := by
  cases v with
  | object r => exact hv
  | int32 | int64 | nativeInt | float | pointer =>
      exact .throw (ordinary_invalidProgram rfl (by decide))

end Discipline

end CilAnalysis
