import CilAnalysis.Proofs.Information.Values
import CilAnalysis.Proofs.Machine.Locations

/-!
# Forgotten locations

A location whose address is taken, or an array in an unknown place of which something is stored, is
forgotten: what is found there from then on is the unknown value of its type.

For integers the unknown value of a type is what a store of an unknown integer leaves, and every
store leaves a value that refines it.  The type `bool` is the exception: its unknown value is zero
or one, while a store leaves all of the lowest byte (`Value.coerce_boolean_refines_iff`).

## Strategy

The comparison is one of values and does not look at the state.  An integer type keeps integers of
one shape, and both the value that was stored and the unknown value are integers brought to that
shape (`Value.coerce_eq_ofInteger`, `Value.unknownOf_eq_ofInteger`).  For `bool` the bits are
compared one by one: the unknown truth value has zeros above the lowest bit, so a stored byte
refines it only if its other bits are known to be zero (`Value.byte_refines_iff`).

That these are the values found in a location is about runs.  `Location.ForgottenBy` lists the
instructions that forget a location, and there is one lemma for each kind of location
(`exists_forget_slot`, `exists_forget_static`, `exists_forget_field`, `exists_forget_element`,
`exists_forget_array`): the instruction succeeds, and the location then keeps the unknown value.
-/

namespace CilAnalysis

/-! ## The unknown value of a type -/

namespace Value

variable {width : PointerWidth} {type : TypeSig} {shape : IntegerShape} {v : Value}
  {x : KnownBits 64}

private theorem kind_ofInteger (width : PointerWidth) (shape : IntegerShape) (x y : KnownBits 64) :
    (ofInteger width shape x).kind = (ofInteger width shape y).kind := by
  cases shape <;> simp only [ofInteger, kind]

private theorem defaultOf_eq_ofInteger (width : PointerWidth)
    (hshape : type.integerShape? = some shape) :
    defaultOf width type = ofInteger width shape (.exact 0) := by
  unfold defaultOf
  rw [hshape]

private theorem unknownOf_eq_ofInteger (width : PointerWidth)
    (hshape : type.integerShape? = some shape) (hne : type ≠ .boolean) :
    unknownOf width type = ofInteger width shape .unknown := by
  unfold unknownOf
  rw [hshape]
  cases type with
  | boolean => exact absurd rfl hne
  | _ => rfl

/-- The unknown value of a type has the kind of the integers that the type keeps. -/
theorem kind_unknownOf (width : PointerWidth) (hshape : type.integerShape? = some shape)
    (x : KnownBits 64) : (ofInteger width shape x).kind = (unknownOf width type).kind := by
  by_cases hbool : type = .boolean
  · subst hbool
    cases hshape
    simp only [ofInteger, unknownOf, kind]
  · rw [unknownOf_eq_ofInteger width hshape hbool]
    exact kind_ofInteger width shape x .unknown

/-- Every integer that a type other than `bool` keeps refines the unknown value of the type. -/
theorem ofInteger_refines_unknownOf (width : PointerWidth)
    (hshape : type.integerShape? = some shape) (hne : type ≠ .boolean) (x : KnownBits 64) :
    (ofInteger width shape x).Refines (unknownOf width type) := by
  rw [unknownOf_eq_ofInteger width hshape hne]
  exact ofInteger_refines width shape (.of_unknown x)

private theorem refines_int32_iff {c a : KnownBits 32} :
    (int32 c).Refines (int32 a) ↔ c.Refines a := by
  constructor
  · intro h
    cases h with
    | int32 h => exact h
  · exact .int32

/-- A byte refines the unknown truth value if no bit above its lowest is set or unknown. -/
theorem byte_refines_iff :
    (ofInteger width (.narrow 8 .unsigned) x).Refines (unknownOf width .boolean) ↔
      ∀ i, 0 < i → i < 8 → x.bit i = .false := by
  -- What a store as `bool` keeps: the lowest byte, and zeros above it.
  have hbit {i : Nat} (hi : i < 32) : ((x.truncate 8).resize 32 .unsigned).bit i =
      if i < 8 then x.bit i else .false := by
    rw [KnownBits.bit_resize _ _ hi]
    split
    next hlow => exact KnownBits.bit_truncate x hlow (by omega)
    next => rfl
  show (int32 _).Refines (int32 _) ↔ _
  rw [refines_int32_iff]
  constructor
  · intro h i hpos hlow
    have hrefines := h i
    rw [hbit (by omega), if_pos hlow, KnownBits.bit_ofTernary _ (by omega),
      if_neg (by omega)] at hrefines
    exact hrefines.resolve_left nofun
  · intro h
    refine KnownBits.refines_of_lt fun i hi => ?_
    rw [hbit hi, KnownBits.bit_ofTernary _ hi]
    -- Nothing is asked of the lowest bit, and the bits above the byte are zero in any case.
    by_cases hzero : i = 0
    · rw [if_pos hzero]
      exact .of_unknown _
    · rw [if_neg hzero]
      split
      next hlow => exact .inr (h i (by omega) hlow)
      next => exact .refl _

private theorem coerce_boolean_refines_iff (hv : v.integer? = some x) :
    (v.coerce width .boolean).Refines (unknownOf width .boolean) ↔
      ∀ i, 0 < i → i < 8 → x.bit i = .false := by
  have hshape : TypeSig.boolean.integerShape? = some (.narrow 8 .unsigned) := rfl
  rw [coerce_eq_ofInteger hshape hv]
  exact byte_refines_iff

private theorem defaultOf_refines_unknownOf (width : PointerWidth)
    (hshape : type.integerShape? = some shape) :
    (defaultOf width type).Refines (unknownOf width type) := by
  rw [defaultOf_eq_ofInteger width hshape]
  by_cases hbool : type = .boolean
  · subst hbool
    cases hshape
    rw [byte_refines_iff]
    intro i _ hi
    rw [KnownBits.bit_exact _ (by omega)]
    simp [Ternary.ofBool]
  · exact ofInteger_refines_unknownOf width hshape hbool _

/-- The unknown value of a type is found as it is when it is loaded. -/
theorem coerce_unknownOf (width : PointerWidth) (hshape : type.integerShape? = some shape) :
    (unknownOf width type).coerce width type = unknownOf width type := by
  by_cases hbool : type = .boolean
  · subst hbool
    cases width <;> decide
  · have hstored : (int64 .unknown).coerce width type = unknownOf width type := by
      rw [coerce_eq_ofInteger hshape rfl, unknownOf_eq_ofInteger width hshape hbool]
    calc (unknownOf width type).coerce width type
      _ = ((int64 .unknown).coerce width type).coerce width type := by rw [hstored]
      _ = (int64 .unknown).coerce width type := coerce_coerce hshape rfl
      _ = unknownOf width type := hstored

end Value

/-! ## Forgetting a location -/

/-- The instructions that forget the location, with what they take from the stack.  They take its
address, or store in an unknown place of its array. -/
def Location.ForgottenBy (i : Instruction) : Location → List Value → Prop
  | slot name, operands =>
    i.opcode.operation = .loadVariableAddress ∧ i.slot? = some name ∧ operands = []
  | static f, operands =>
    i.opcode.operation = .loadFieldAddress false ∧ i.field? = some f ∧ operands = []
  | field object f, operands =>
    i.opcode.operation = .loadFieldAddress true ∧ i.field? = some f ∧
      operands = [.object (.known object)]
  | element array n, operands =>
    (i.opcode.operation = .loadElementAddress ∧
      ∃ index : Value, index.index? .signed = .ok (some (n : Int)) ∧
        operands = [index, .object (.known array)]) ∨
    i.opcode.operation = .storeElement ∧
      ∃ v index : Value, index.index? .signed = .ok none ∧
        operands = [v, index, .object (.known array)]
  | memory _ _, _ => False

namespace Setting

open Step

variable {s : Setting} {m : Machine} {type : TypeSig} {shape : IntegerShape} {v : Value}
  {x : KnownBits 64} {rest : List Value} {i : Instruction}

private theorem run_pushUnknownAddress (m : Machine)
    (hroom : m.stack.length < s.options.maxStackDepth) :
    s.pushUnknownAddress.run m =
      (.ok (), { m with stack := .pointer (.unknown s.width) :: m.stack }) :=
  run_push_of_lt _ hroom

private theorem exists_forget_slot {name : Variable} (hhas : m.Has s.width type (.slot name))
    (hop : i.opcode.operation = .loadVariableAddress) (hslot : i.slot? = some name)
    (hroom : m.stack.length < s.options.maxStackDepth) :
    ∃ m', (s.execute i).run m = (.ok .fallThrough, m') ∧
      m'.Keeps s.width type (.unknownOf s.width type) (.slot name) := by
  obtain ⟨old, hcell⟩ := hhas
  refine ⟨{ m with stack := .pointer (.unknown s.width) :: m.stack
                   frame := m.frame.set name (.unknownOf s.width type) },
    ?_, Frame.cell?_set_self _ hcell⟩
  rw [execute, hop]
  apply run_thenNext_of_ok
  simp only [loadVariableAddress, hslot, forgetVariable, run_bind, run_operand_some, run_cell,
    hcell, run_setCell]
  exact run_pushUnknownAddress _ hroom

private theorem exists_forget_static {f : FieldRef} (hhas : m.Has s.width type (.static f))
    (hop : i.opcode.operation = .loadFieldAddress false) (hfield : i.field? = some f)
    (hroom : m.stack.length < s.options.maxStackDepth) :
    ∃ m', (s.execute i).run m = (.ok .fallThrough, m') ∧
      m'.Keeps s.width type (.unknownOf s.width type) (.static f) := by
  obtain ⟨hstatic, rfl⟩ := hhas
  refine ⟨{ m with stack := .pointer (.unknown s.width) :: m.stack
                   statics := m.statics.insert f.token.key (.unknownOf s.width f.fieldType) },
    ?_, hstatic, SortedMap.get?_insert_self ..⟩
  rw [execute, hop]
  apply run_thenNext_of_ok
  simp only [loadFieldAddress, hfield, popOwner, hstatic, forgetStatic, run_bind, run_operand_some,
    Bool.false_eq_true, if_false, if_true, run_pure, run_setStatic]
  exact run_pushUnknownAddress _ hroom

private theorem exists_forget_field {object : Handle} {f : FieldRef}
    (hhas : m.Has s.width type (.field object f))
    (hop : i.opcode.operation = .loadFieldAddress true) (hfield : i.field? = some f)
    (hstack : m.stack = .object (.known object) :: rest)
    (hroom : rest.length < s.options.maxStackDepth) :
    ∃ m', (s.execute i).run m = (.ok .fallThrough, m') ∧
      m'.Keeps s.width type (.unknownOf s.width type) (.field object f) := by
  obtain ⟨hstatic, rfl, o, ho⟩ := hhas
  refine ⟨{ m with stack := .pointer (.unknown s.width) :: rest
                   heap := m.heap.set object
                     (.object (o.setField f.token (.unknownOf s.width f.fieldType))) },
    ?_, hstatic, _, Heap.get_set_self ho, SortedMap.get?_insert_self ..⟩
  rw [execute, hop]
  apply run_thenNext_of_ok
  simp only [loadFieldAddress, hfield, popOwner, hstatic, setField, map_eq_pure_bind, run_bind,
    run_operand_some, Bool.false_eq_true, if_false, if_true, run_pop_cons hstack, run_pure,
    run_owner?_known (m := { m with stack := rest }) ho, run_setObject]
  exact run_pushUnknownAddress _ hroom

/-- An element that was forgotten is found as the unknown value of its type. -/
theorem keeps_unknown_element {array : Handle} {n : Nat} {a a' : ArrayState} {stack : List Value}
    (hshape : a.element.integerShape? = some shape) (ha : m.heap.get array = .ok (.array a))
    (helement : a'.element = a.element)
    (hn : a'.elements[n]? = some (.unknownOf s.width a.element)) :
    Machine.Keeps { m with stack, heap := m.heap.set array (.array a') } s.width a.element
      (.unknownOf s.width a.element) (.element array n) :=
  ⟨a', Heap.get_set_self ha, helement, _, hn, Value.coerce_unknownOf s.width hshape⟩

private theorem exists_forget_element {array : Handle} {n : Nat} {index : Value}
    (hshape : type.integerShape? = some shape) (hhas : m.Has s.width type (.element array n))
    (hop : i.opcode.operation = .loadElementAddress)
    (hindex : index.index? .signed = .ok (some (n : Int)))
    (hstack : m.stack = index :: .object (.known array) :: rest)
    (hroom : rest.length < s.options.maxStackDepth) :
    ∃ m', (s.execute i).run m = (.ok .fallThrough, m') ∧
      m'.Keeps s.width type (.unknownOf s.width type) (.element array n) := by
  obtain ⟨a, ha, rfl, hn⟩ := hhas
  have hset : a.set n (.unknownOf s.width a.element) =
      .ok { a with elements := a.elements.setIfInBounds n (.unknownOf s.width a.element) } :=
    if_pos hn
  refine ⟨{ m with stack := .pointer (.unknown s.width) :: rest
                   heap := m.heap.set array
                     (.array { a with elements :=
                       a.elements.setIfInBounds n (.unknownOf s.width a.element) }) }, ?_, ?_⟩
  · rw [execute, hop]
    apply run_thenNext_of_ok
    simp only [loadElementAddress, run_bind, run_pop_cons hstack, setElement, run_pop_stack,
      run_element (m := { m with stack := rest }) ha hindex hn, ofResult, hset, Except.mapError,
      run_attempt, run_setObject]
    exact run_pushUnknownAddress _ hroom
  · refine keeps_unknown_element hshape ha rfl ?_
    rw [Array.getElem?_setIfInBounds_self, if_pos hn]

/-- After a store in an unknown place every element is unknown. -/
theorem exists_forget_array {array : Handle} {n : Nat} {index : Value}
    (hshape : type.integerShape? = some shape) (hhas : m.Has s.width type (.element array n))
    (hop : i.opcode.operation = .storeElement) (hindex : index.index? .signed = .ok none)
    (hstack : m.stack = v :: index :: .object (.known array) :: rest) :
    ∃ m', (s.execute i).run m = (.ok .fallThrough, m') ∧
      m'.Keeps s.width type (.unknownOf s.width type) (.element array n) := by
  obtain ⟨a, ha, rfl, hn⟩ := hhas
  have helement : (element (.object (.known array)) index).run { m with stack := rest } =
      (.ok (some (array, a, none)), { m with stack := rest }) := by
    simp only [element, Value.array?, run_bind, run_attempt, Step.array, run_askHeap, ha,
      Except.mapError, run_pure, hindex]
  refine ⟨{ m with stack := rest, heap := m.heap.set array (.array (a.forget s.width)) }, ?_, ?_⟩
  · rw [execute, hop]
    apply run_thenNext_of_ok
    simp only [storeElement, run_bind, run_pop_cons hstack, setElement, run_pop_stack, helement,
      run_setObject]
  · refine keeps_unknown_element hshape ha rfl ?_
    simp [ArrayState.forget, hn]

/-- Forgetting a location succeeds, and the unknown value of its type is found there. -/
theorem exists_forget {loc : Location} {operands : List Value}
    (hshape : type.integerShape? = some shape) (hhas : m.Has s.width type loc)
    (hforgotten : loc.ForgottenBy i operands) (hstack : m.stack = operands ++ rest)
    (hroom : rest.length < s.options.maxStackDepth) :
    ∃ m', (s.execute i).run m = (.ok .fallThrough, m') ∧
      m'.Keeps s.width type (.unknownOf s.width type) loc := by
  cases loc with
  | slot name =>
      obtain ⟨hop, hslot, rfl⟩ := hforgotten
      obtain rfl : m.stack = rest := hstack
      exact exists_forget_slot hhas hop hslot hroom
  | static f =>
      obtain ⟨hop, hfield, rfl⟩ := hforgotten
      obtain rfl : m.stack = rest := hstack
      exact exists_forget_static hhas hop hfield hroom
  | field object f =>
      obtain ⟨hop, hfield, rfl⟩ := hforgotten
      exact exists_forget_field hhas hop hfield hstack hroom
  | element array n =>
      rcases hforgotten with ⟨hop, index, hindex, rfl⟩ | ⟨hop, v, index, hindex, rfl⟩
      · exact exists_forget_element hshape hhas hop hindex hstack hroom
      · exact exists_forget_array hshape hhas hop hindex hstack
  | memory block offset => exact absurd hforgotten id

end Setting

/-- A location is there as long as a value is found in it. -/
theorem Machine.Keeps.has {m m' : Machine} {width : PointerWidth} {type : TypeSig} {v : Value}
    {loc : Location} {i : Instruction} {operands : List Value} (h : m'.Keeps width type v loc)
    (hhas : m.Has width type loc) (hforgotten : loc.ForgottenBy i operands) :
    m'.Has width type loc := by
  cases loc with
  | slot name => exact ⟨v, h⟩
  | static f => exact hhas
  | field object f =>
      obtain ⟨hstatic, o, ho, -⟩ := h
      exact ⟨hstatic, hhas.2.1, o, ho⟩
  | element array n =>
      obtain ⟨a, ha, helement, u, hu, -⟩ := h
      exact ⟨a, ha, helement, (Array.getElem?_eq_some_iff.mp hu).1⟩
  | memory block offset => exact absurd hforgotten id

namespace Setting

variable {type : TypeSig} {shape : IntegerShape} {v : Value} {x : KnownBits 64}

/-- How the unknown value of a type compares with what a location of the type can hold, which is an
integer that was stored there or the value it starts with. -/
structure Covers (s : Setting) (type : TypeSig) (v : Value) (x : KnownBits 64) : Prop where
  kind : (v.coerce s.width type).kind = (Value.unknownOf s.width type).kind
  kindOfDefault : (Value.defaultOf s.width type).kind = (Value.unknownOf s.width type).kind
  default : (Value.defaultOf s.width type).Refines (.unknownOf s.width type)
  /-- The unknown value fails for no integer that was stored, but for those stored as `bool` that
  are neither zero nor one. -/
  stored : (v.coerce s.width type).Refines (.unknownOf s.width type) ↔
    (type = .boolean → ∀ i, 0 < i → i < 8 → x.bit i = .false)
  /-- These are the values that are found in a location before and after it is forgotten. -/
  forgotten : ∀ (loc : Location) (m : Machine) (operands rest operands' rest' : List Value)
    (i j : Instruction),
    m.Has s.width type loc → loc.NamedBy operands → loc.StoredBy type i →
      m.stack = v :: operands ++ rest → loc.ForgottenBy j operands' →
        rest'.length < s.options.maxStackDepth →
          ∃ m₁ m₂, (s.execute i).run m = (.ok .fallThrough, m₁) ∧
            m₁.Keeps s.width type (v.coerce s.width type) loc ∧
            (s.execute j).run { m₁ with stack := operands' ++ rest' } = (.ok .fallThrough, m₂) ∧
            m₂.Keeps s.width type (.unknownOf s.width type) loc

/-- The unknown value of an integer type covers whatever a location of the type can hold, except
that of `bool` covers truth values only. -/
theorem unknownOf_covers (s : Setting) (hshape : type.integerShape? = some shape)
    (hv : v.integer? = some x) : s.Covers type v x where
  kind := by
    rw [Value.coerce_eq_ofInteger hshape hv]
    exact Value.kind_unknownOf s.width hshape x
  kindOfDefault := by
    rw [Value.defaultOf_eq_ofInteger s.width hshape]
    exact Value.kind_unknownOf s.width hshape _
  default := Value.defaultOf_refines_unknownOf s.width hshape
  stored := by
    by_cases hbool : type = .boolean
    · subst hbool
      rw [Value.coerce_boolean_refines_iff hv]
      exact ⟨fun h _ => h, fun h => h rfl⟩
    · rw [Value.coerce_eq_ofInteger hshape hv]
      exact iff_of_true (Value.ofInteger_refines_unknownOf s.width hshape hbool x)
        fun h => absurd h hbool
  forgotten := by
    intro loc m operands rest operands' rest' i j hhas hnamed hstored hstack hforgotten hroom
    -- The location is stored in and then forgotten; the store leaves it there to be forgotten.
    obtain ⟨m₁, hstore, hafter⟩ := exists_store hshape hv hhas hnamed hstored hstack
    have hkeeps : Machine.Keeps { m₁ with stack := operands' ++ rest' } s.width type
        (v.coerce s.width type) loc := hafter.keeps
    obtain ⟨m₂, hforget, hunknown⟩ :=
      exists_forget hshape (hkeeps.has hhas hforgotten) hforgotten rfl hroom
    exact ⟨m₁, m₂, hstore, hafter.keeps, hforget, hunknown⟩

/-- An integer of which the lowest bit is unknown and the ninth is set. -/
def lowestUnknown : Value := .int32 (.masked 0x100 0xfffffffe)

/-- That integer before it is stored in a local variable of type `bool`. -/
def beforeForgetting : Machine where
  stack := [lowestUnknown]
  frame := ⟨[⟨.boolean, .ofInt32 0⟩], []⟩

theorem unknownOf_covers_lowestUnknown :
    let s : Setting := { options := { width := .bits32 } }
    TypeSig.boolean.integerShape? = some (.narrow 8 .unsigned) ∧
      lowestUnknown.integer? = some (.masked 0x100 0xfffffffffffffffe) ∧
      (lowestUnknown.coerce .bits32 .boolean).Refines (.unknownOf .bits32 .boolean) ∧
      ∃ m₁ m₂, (s.execute ⟨0, .stloc_0, .none, 1⟩).run beforeForgetting = (.ok .fallThrough, m₁) ∧
        m₁.frame.cell? (.loc 0) = some ⟨.boolean, lowestUnknown.coerce .bits32 .boolean⟩ ∧
        (s.execute ⟨1, .ldloca_s, .slot (.loc 0), 2⟩).run { m₁ with stack := [] } =
          (.ok .fallThrough, m₂) ∧
        m₂.frame.cell? (.loc 0) = some ⟨.boolean, .unknownOf .bits32 .boolean⟩ := by
  intro s
  have hshape : TypeSig.boolean.integerShape? = some (.narrow 8 .unsigned) := rfl
  have hv : lowestUnknown.integer? = some (.masked 0x100 0xfffffffffffffffe) := by decide
  have hcovers := unknownOf_covers s hshape hv
  have hbits : ∀ i < 8, 0 < i →
      (KnownBits.masked 0x100#64 0xfffffffffffffffe#64).bit i = .false := by decide
  refine ⟨hshape, hv, hcovers.stored.mpr fun _ i hpos hi => hbits i hi hpos, ?_⟩
  exact hcovers.forgotten (.slot (.loc 0)) beforeForgetting [] [] [] [] _ _ ⟨.ofInt32 0, rfl⟩ rfl
    ⟨rfl, rfl⟩ rfl ⟨rfl, rfl, rfl⟩ (by decide)

/-- Two is stored as `bool` and compared with two, after other instructions. -/
def comparesTwo (between : List Instruction) : MethodBody where
  instructions :=
    [⟨0, .ldc_i4_2, .none, 1⟩, ⟨1, .stloc_0, .none, 1⟩] ++ between ++
      [⟨5, .ldloc_0, .none, 1⟩, ⟨6, .ldc_i4_2, .none, 1⟩, ⟨7, .ceq, .none, 2⟩, ⟨9, .ret, .none, 1⟩]
  locals := [.boolean]
  returnType := .int32

/-- The number two is kept in a location of type `bool`, but its unknown value has a zero in the
place of the bit that is set.  A variable that holds two is equal to two, and is certainly not once
its address was taken. -/
theorem unknown_boolean_denies_two :
    let stored := (Value.ofInt32 2).coerce .bits64 .boolean
    let untouched := comparesTwo [⟨2, .nop, .none, 1⟩, ⟨3, .nop, .none, 1⟩, ⟨4, .nop, .none, 1⟩]
    let escaped := comparesTwo [⟨2, .ldloca_s, .slot (.loc 0), 2⟩, ⟨4, .pop, .none, 1⟩]
    stored = .ofInt32 2 ∧ ¬ stored.Refines (.unknownOf .bits64 .boolean) ∧
      ({} : Interpreter).run untouched = .ok (.returned (some (.ofInt32 1))) ∧
      ({} : Interpreter).run escaped = .ok (.returned (some (.ofInt32 0))) := by
  intro stored untouched escaped
  refine ⟨by decide, ?_, ?_, ?_⟩
  · -- The second bit of two is set.
    rw [Value.coerce_boolean_refines_iff rfl]
    intro h
    have hbit := h 1 (by decide) (by decide)
    revert hbit
    decide
  · decide +kernel
  · decide +kernel

end Setting

end CilAnalysis
