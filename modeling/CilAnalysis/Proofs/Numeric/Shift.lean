import CilAnalysis.Proofs.Numeric.CheckedConversion

/-!
# Amounts of shifts

A shift of a word takes its amount modulo the width.  On the way from the stack to the word an
amount is limited to 32 bits first, by taking the greatest number of 32 bits for all that are
greater.  This number leaves the remainder `w - 1` at every width `w` that divides `2 ^ 32`, so that
an amount past the limit counts as `w - 1` whatever its own remainder is.  The main result is
`Interpreter.dispatch_shift`.

## Strategy

For every amount there is a number of places by which it moves the bits of a word (`Shift.places`),
and what a shift of values does is said by this number alone (`Shift.apply_eq_value`).  Then there
are two directions.

* Amounts within the limit have their remainder as number of places.  That two of them with one
  remainder leave the same follows.
* For the amounts that do not count modulo the width it has to be shown that this makes a
  difference.  Shifts by different numbers of places below the width differ on some word
  (`Shift.exists_word_ne`): a single bit that the two shifts move to different places, the lowest
  for a shift to the left and the highest for one to the right.
-/

namespace CilAnalysis

open KnownBits

namespace Shift

variable {w n : Nat} {shift : Shift}

/-- A shift of a word. -/
def word (shift : Shift) (x : KnownBits w) (places : Nat) : KnownBits w :=
  match shift with
  | left => x.shiftLeft places
  | right s => x.shiftRight places s

/-- A shift of an integer at the width of its kind.  Where pointers have 32 bits, the low half of a
native integer is shifted and then extended with its sign. -/
def value (width : PointerWidth) (shift : Shift) (places : Nat) : Value → Value
  | .int32 x => .int32 (shift.word x places)
  | .int64 x => .int64 (shift.word x places)
  | .nativeInt x =>
    match width with
    | .bits32 => .nativeInt ((shift.word (x.truncate 32) places).resize 64 .signed)
    | .bits64 => .nativeInt (shift.word x places)
  | v => v

/-- The value is a known amount, which is read without a sign. -/
inductive IsAmount : Value → Nat → Prop
  | int32 (a : BitVec 32) : IsAmount (.int32 (.exact a)) a.toNat
  | nativeInt (a : BitVec 64) : IsAmount (.nativeInt (.exact a)) a.toNat

private theorem IsAmount.amount?_eq {amount : Value} (h : IsAmount amount n) :
    amount? amount = .ok (some n) := by
  cases h with
  | int32 a | nativeInt a => rw [amount?, toBitVec?_exact, Option.map_some]

/-! ## The number of places -/

/-- The number of places by which an amount moves the bits of a word. -/
def places (w amount : Nat) : Nat := if amount ≤ 0xffffffff then amount % w else w - 1

private theorem min_mod (hw : w ∣ 0x100000000) (n : Nat) : min n maxAmount % w = places w n := by
  unfold places maxAmount
  split
  next hn => rw [Nat.min_eq_left hn]
  next hn =>
    obtain ⟨k, hk⟩ := hw
    have hpos : 0 < w := Nat.pos_of_ne_zero (by rintro rfl; simp at hk)
    have hk0 : k ≠ 0 := by
      rintro rfl
      simp at hk
    obtain ⟨k, rfl⟩ := Nat.exists_eq_succ_of_ne_zero hk0
    have hgreatest : 0xffffffff = w - 1 + w * k := by
      rw [Nat.mul_succ] at hk
      omega
    calc min n 0xffffffff % w
        = (w - 1 + w * k) % w := by rw [Nat.min_eq_right (by omega), hgreatest]
      _ = (w - 1) % w := Nat.add_mul_mod_self_left ..
      _ = w - 1 := Nat.mod_eq_of_lt (by omega)

private theorem places_eq_mod_iff : places w n = n % w ↔ n ≤ 0xffffffff ∨ n % w = w - 1 := by
  unfold places
  split
  next hn => exact iff_of_true rfl (.inl hn)
  next hn => rw [or_iff_right hn, eq_comm]

private theorem places_lt (hw : 0 < w) : places w n < w := by
  unfold places
  split
  next => exact Nat.mod_lt n hw
  next => omega

private theorem word_mod (x : KnownBits w) (n : Nat) : shift.word x (n % w) = shift.word x n := by
  cases shift with
  | left => rw [word, word, shiftLeft, shiftLeft, Nat.mod_mod]
  | right s =>
      rw [word, word, shiftRight.eq_def, shiftRight.eq_def, Nat.mod_mod]

private theorem onInteger_some (shift : Shift) (hw : w ∣ 0x100000000) (x : KnownBits w) (n : Nat) :
    shift.onInteger x (some n) = shift.word x (places w n) := by
  rw [← min_mod hw, word_mod]
  cases shift <;> rfl

/-- A shift of values is that of the words in them by the number of places for their width. -/
theorem apply_eq_value {v amount : Value} (hv : v.integer?.isSome = true)
    (hamount : IsAmount amount n) (width : PointerWidth) (opcode : Opcode) :
    shift.apply width opcode v amount = .ok (shift.value width (places (v.bits width) n) v) := by
  have h32 (x : KnownBits 32) := shift.onInteger_some (by decide) x n
  have h64 (x : KnownBits 64) := shift.onInteger_some (by decide) x n
  unfold apply
  rw [hamount.amount?_eq]
  cases v with
  | int32 x => exact congrArg (Except.ok ∘ Value.int32) (h32 x)
  | int64 x => exact congrArg (Except.ok ∘ Value.int64) (h64 x)
  | nativeInt x =>
      cases width with
      | bits32 =>
          exact congrArg (fun y => Except.ok (Value.nativeInt (y.resize 64 .signed)))
            (h32 (x.truncate 32))
      | bits64 => exact congrArg (Except.ok ∘ Value.nativeInt) (h64 x)
  | float | object | pointer => cases hv

/-! ## Shifts by different numbers of places -/

/-- Of a word with one bit set, the shift by more places has moved the bit further. -/
theorem exists_word_ne (shift : Shift) {k k' : Nat} (hk : k < k') (hk' : k' < w) :
    ∃ x : KnownBits w, shift.word x k ≠ shift.word x k' := by
  have hmod : k % w = k := Nat.mod_eq_of_lt (hk.trans hk')
  have hmod' : k' % w = k' := Nat.mod_eq_of_lt hk'
  cases shift with
  | left =>
      -- The lowest bit has come to place `k`, where the longer shift brings in a zero.
      let x : KnownBits w := .exact 1#w
      have hkw : k < w := hk.trans hk'
      have hlow : (1#w).getLsbD 0 = true := by
        simp
        omega
      have hshort : (x.shiftLeft k).bit k = .true :=
        calc (x.shiftLeft k).bit k
            = x.bit 0 := by
              rw [bit_shiftLeft _ _ hkw, hmod, if_neg (lt_irrefl k), Nat.sub_self]
          _ = .ofBool ((1#w).getLsbD 0) := bit_exact _ (by omega)
          _ = .true := by rw [hlow, Ternary.ofBool]
      have hlong : (x.shiftLeft k').bit k = .false := by
        rw [bit_shiftLeft _ _ hkw, hmod', if_pos hk]
      refine ⟨x, fun heq => ?_⟩
      have hsame : (x.shiftLeft k).bit k = (x.shiftLeft k').bit k := congrArg (·.bit k) heq
      rw [hshort, hlong] at hsame
      cases hsame
  | right s =>
      -- The longer shift moves the highest bit to this place, and the shorter one does not.
      let x : KnownBits w := .exact (BitVec.twoPow w (w - 1))
      let i := w - 1 - k'
      have hi : i < w := by omega
      have hbit {j : Nat} (hj : j < w) : x.bit j = .ofBool (decide (w - 1 = j)) := by
        rw [bit_exact _ hj, BitVec.getLsbD_twoPow, decide_eq_true (by omega),
          Bool.true_and]
      have hlong : (x.shiftRight k' s).bit i = .true :=
        calc (x.shiftRight k' s).bit i
            = x.bit (i + k') := by
              rw [bit_shiftRight _ _ _ hi, hmod', if_pos (by omega)]
          _ = .ofBool (decide (w - 1 = i + k')) := hbit (by omega)
          _ = .true := by rw [decide_eq_true (by omega), Ternary.ofBool]
      have hshort : (x.shiftRight k s).bit i = .false :=
        calc (x.shiftRight k s).bit i
            = x.bit (i + k) := by
              rw [bit_shiftRight _ _ _ hi, hmod, if_pos (by omega)]
          _ = .ofBool (decide (w - 1 = i + k)) := hbit (by omega)
          _ = .false := by rw [decide_eq_false (by omega), Ternary.ofBool]
      refine ⟨x, fun heq => ?_⟩
      have hsame : (x.shiftRight k s).bit i = (x.shiftRight k' s).bit i := congrArg (·.bit i) heq
      rw [hshort, hlong] at hsame
      cases hsame

private theorem truncate_extended (x : KnownBits 32) : (x.resize 64 .signed).truncate 32 = x := by
  rw [truncate_resize _ _ le_rfl (by decide), truncate_self]

/-- Shifts by different numbers of places below the width differ on some value of every kind of
integer. -/
theorem exists_value_ne {width : PointerWidth} {v : Value} (hv : v.integer?.isSome = true)
    (shift : Shift) {k k' : Nat} (hne : k ≠ k') (hk : k < v.bits width) (hk' : k' < v.bits width) :
    ∃ v' : Value, v'.kind = v.kind ∧ shift.value width k v' ≠ shift.value width k' v' := by
  have hword {w : Nat} (hk : k < w) (hk' : k' < w) :
      ∃ x : KnownBits w, shift.word x k ≠ shift.word x k' := by
    rcases Nat.lt_or_gt_of_ne hne with hlt | hgt
    · exact shift.exists_word_ne hlt hk'
    · obtain ⟨x, hx⟩ := shift.exists_word_ne hgt hk
      exact ⟨x, hx.symm⟩
  cases v with
  | int32 =>
      obtain ⟨x, hx⟩ := hword hk hk'
      exact ⟨.int32 x, rfl, fun h => hx (Value.int32.inj h)⟩
  | int64 =>
      obtain ⟨x, hx⟩ := hword hk hk'
      exact ⟨.int64 x, rfl, fun h => hx (Value.int64.inj h)⟩
  | nativeInt =>
      cases width with
      | bits64 =>
          obtain ⟨x, hx⟩ := hword hk hk'
          exact ⟨.nativeInt x, rfl, fun h => hx (Value.nativeInt.inj h)⟩
      | bits32 =>
          obtain ⟨x, hx⟩ := hword (w := 32) hk hk'
          refine ⟨.nativeInt (x.resize 64 .signed), rfl, fun h => hx ?_⟩
          have hlow := congrArg (truncate 32) (Value.nativeInt.inj h)
          rwa [truncate_extended, truncate_extended, truncate_extended] at hlow
  | float | object | pointer => cases hv

end Shift

namespace Value

/-- The kind of a value says whether it is an integer and of how many bits. -/
theorem integer_of_kind_eq {v v' : Value} (hkind : v'.kind = v.kind)
    (hv : v.integer?.isSome = true) (width : PointerWidth) :
    v'.integer?.isSome = true ∧ v'.bits width = v.bits width := by
  cases v <;> cases v' <;> simp_all [kind, integer?, bits]

private theorem bits_pos_of_integer {v : Value} (hv : v.integer?.isSome = true)
    (width : PointerWidth) : 0 < v.bits width := by
  cases v with
  | int32 | int64 => exact Nat.succ_pos _
  | nativeInt => cases width <;> exact Nat.succ_pos _
  | float | object | pointer => cases hv

end Value

/-! ## Execution -/

namespace Setting

open Step

variable {s : Setting} {m : Machine} {v amount : Value} {rest : List Value}

/-- The opcodes of the shifts. -/
theorem operation_of_shift {opcode : Opcode} {shift : Shift}
    (hop : (opcode, shift) ∈ [(Opcode.shl, Shift.left), (.shr, .right .signed),
      (.shr_un, .right .unsigned)]) : opcode.operation = .shift shift := by
  fin_cases hop <;> rfl

private theorem run_shift {i : Instruction} {shift : Shift}
    (hop : i.opcode.operation = .shift shift) (hstack : m.stack = amount :: v :: rest)
    (hroom : rest.length < s.options.maxStackDepth) {v' : Value}
    (happly : shift.apply s.width i.opcode v amount = .ok v') :
    (s.execute i).run m = (.ok .fallThrough, { m with stack := v' :: rest }) := by
  have hrun : (s.onTopTwo (shift.apply s.width i.opcode)).run m =
      (.ok (), { m with stack := v' :: rest }) := by
    unfold onTopTwo
    rw [run_pop_bind hstack, run_pop_bind rfl, run_bind, run_attempt, happly]
    exact run_push_of_lt v' hroom
  rw [execute, hop]
  exact run_thenNext_of_ok hrun

end Setting

namespace Interpreter

/-- Let an integer and above it a known amount be on top of a stack within its limit, and let an
instruction shift the one by the other.  An amount of 32 bits counts modulo the width of the
integer's kind, so that two of them with one remainder leave the same.  A greater amount counts as
one less than the width.  So the amounts that count modulo the width for every integer of the kind
are those of 32 bits and those with the remainder that is one less than the width. -/
theorem dispatch_shift (s : Setting) (m : Machine) {i : Instruction} {shift : Shift}
    (hop : (i.opcode, shift) ∈ [(Opcode.shl, Shift.left), (.shr, .right .signed),
      (.shr_un, .right .unsigned)])
    {v amount : Value} (hv : v.integer?.isSome = true) {n : Nat}
    (hamount : Shift.IsAmount amount n) {rest : List Value}
    (hdepth : rest.length + 2 ≤ s.options.maxStackDepth) :
    let w := v.bits s.width
    let run (amount v : Value) :=
      (({} : Interpreter).dispatch s i).run { m with stack := amount :: v :: rest }
    let leaves (places : Nat) (v : Value) : Outcome × Machine :=
      (.ok .fallThrough, { m with stack := shift.value s.width places v :: rest })
    (n ≤ 0xffffffff → run amount v = leaves (n % w) v) ∧
      (0xffffffff < n → run amount v = leaves (w - 1) v) ∧
      (∀ amount' n', Shift.IsAmount amount' n' → n ≤ 0xffffffff → n' ≤ 0xffffffff →
        n' % w = n % w → run amount' v = run amount v) ∧
      ((∀ v' : Value, v'.kind = v.kind → run amount v' = leaves (n % w) v') ↔
        n ≤ 0xffffffff ∨ n % w = w - 1) := by
  intro w run leaves
  have hrun {amount v : Value} {n : Nat} (hamount : Shift.IsAmount amount n)
      (hv : v.integer?.isSome = true) :
      run amount v = leaves (Shift.places (v.bits s.width) n) v := by
    unfold run
    rw [dispatch_eq_execute {} s i]
    exact Setting.run_shift (Setting.operation_of_shift hop) rfl (by omega)
      (Shift.apply_eq_value hv hamount s.width i.opcode)
  have hsameKind {v' : Value} (hkind : v'.kind = v.kind) :
      run amount v' = leaves (Shift.places w n) v' := by
    obtain ⟨hv', hbits⟩ := Value.integer_of_kind_eq hkind hv s.width
    rw [hrun hamount hv', hbits]
  have hpos : 0 < w := Value.bits_pos_of_integer hv s.width
  refine ⟨fun hn => ?_, fun hn => ?_, fun amount' n' hamount' hn hn' hsame => ?_, ?_⟩
  · rw [hrun hamount hv, Shift.places, if_pos hn]
  · rw [hrun hamount hv, Shift.places, if_neg (by omega)]
  · rw [hrun hamount hv, hrun hamount' hv, Shift.places, Shift.places, if_pos hn, if_pos hn', hsame]
  · rw [← Shift.places_eq_mod_iff]
    constructor
    · intro hall
      -- Some value of the kind is left different by the two numbers of places.
      by_contra hne
      obtain ⟨v', hkind, hdiffers⟩ :=
        Shift.exists_value_ne hv shift hne (Shift.places_lt hpos) (Nat.mod_lt n hpos)
      have hboth := (hsameKind hkind).symm.trans (hall v' hkind)
      exact hdiffers (List.cons.inj (congrArg (·.2.stack) hboth)).1
    · intro hplaces v' hkind
      rw [hsameKind hkind, hplaces]

/-- A state with nothing on the stack. -/
def beforeShift : Machine where
  frame := ⟨[], []⟩

/-- A native integer of 32 bits of which the lowest is unknown. -/
def halfKnown : Value := .nativeInt (.masked 0xffffffff80000000 0xfffffffffffffffe)

/-- The amount with all 32 bits set shifts native integers of 32 bits by 31 places. -/
theorem dispatch_shift_allOnes :
    let s : Setting := { options := { width := .bits32 } }
    let amount : Value := .int32 (.exact 0xffffffff#32)
    let run := (({} : Interpreter).dispatch s ⟨0, .shr, .none, 1⟩).run
      { beforeShift with stack := [amount, halfKnown] }
    Shift.IsAmount amount 0xffffffff ∧ halfKnown.bits .bits32 = 32 ∧ 0xffffffff % 32 = 31 ∧
      run = (.ok .fallThrough, { beforeShift with
        stack := [(Shift.right .signed).value .bits32 31 halfKnown] }) ∧
      (Shift.right .signed).value .bits32 31 halfKnown =
        .nativeInt (.exact (BitVec.allOnes 64)) := by
  intro s amount run
  have hamount : Shift.IsAmount amount 0xffffffff := .int32 0xffffffff#32
  have hop : (Opcode.shr, Shift.right .signed) ∈ [(Opcode.shl, Shift.left),
      (.shr, .right .signed), (.shr_un, .right .unsigned)] := by decide
  have hinteger : halfKnown.integer?.isSome = true := rfl
  have hdepth : ([] : List Value).length + 2 ≤ s.options.maxStackDepth := by decide
  obtain ⟨hmodulo, -⟩ := dispatch_shift s beforeShift (i := ⟨0, .shr, .none, 1⟩) hop hinteger
    hamount hdepth
  have hbits : halfKnown.bits s.width = 32 := rfl
  have hplaces : 0xffffffff % 32 = 31 := by decide
  rw [hbits, hplaces] at hmodulo
  exact ⟨hamount, hbits, hplaces, hmodulo (Nat.le_refl _), by decide +kernel⟩

/-- The native amount `2 ^ 32` leaves no remainder modulo 32, but it shifts by 31 places. -/
theorem dispatch_shift_pastLimit :
    let amount : Value := .nativeInt (.exact 0x100000000#64)
    let run := (({} : Interpreter).dispatch {} ⟨0, .shl, .none, 1⟩).run
      { beforeShift with stack := [amount, .ofInt32 1] }
    Shift.IsAmount amount 0x100000000 ∧
      Shift.left.value .bits64 (0x100000000 % 32) (.ofInt32 1) = .ofInt32 1 ∧
      run.1.toOption = some .fallThrough ∧ run.2.stack = [.int32 (.exact 0x80000000#32)] ∧
      run.2.stack ≠ [Shift.left.value .bits64 (0x100000000 % 32) (.ofInt32 1)] := by
  intro amount run
  have hstack : run.2.stack = [.int32 (.exact 0x80000000#32)] := by decide +kernel
  refine ⟨.nativeInt 0x100000000#64, by decide +kernel, by decide +kernel, hstack, ?_⟩
  rw [hstack]
  decide +kernel

end Interpreter

end CilAnalysis
