import CilAnalysis.Proofs.Machine.Step
import CilAnalysis.Proofs.Memory.RoundTrip
import CilAnalysis.Proofs.SortedMap
import CilAnalysis.Proofs.Value.Coercion

/-!
# Storage locations

A value can be stored in a variable, in a field of an object, in a static field, in an element of an
array and in memory.  The instructions convert it at different moments: some before it is stored,
some before and after, and memory only when it is loaded.  For integers the moment makes no
difference (`Setting.storesAlike`): a load finds the value that was stored, converted to the type of
the location, and nothing but the location has changed.

## Strategy

The contents of all locations are seen in one way, by `Machine.content?`: a state is a map from
spots to contents, where a spot is a variable, a static field, a field, an element or a byte.  That
nothing else has changed is then one statement (`Machine.SameOutside`).

`Machine.Keeps` says of a location that a value is found there.  A store establishes it
(`Setting.exists_store`) and a load relies on nothing else (`Setting.run_load`), so that the two
meet in this predicate only.

* Variables and fields, of objects and static, are converted when they are stored in and found as
  they are.
* Elements are converted both times; for integers the second conversion changes nothing
  (`Value.coerce_coerce`).
* Memory does not convert at all.  It keeps the low bytes of an integer of any kind, and the
  conversion at the load makes up for what was lost (`Value.coerce_resize_truncate`).
-/

namespace CilAnalysis

/-! ## Contents -/

/-- A part of a heap object that can be stored in. -/
inductive HeapObject.Part where
  | field (token : Nat)
  | element (index : Nat)
  | byte (index : Nat)
  deriving DecidableEq

/-- The smallest things that can be stored in. -/
inductive Spot where
  | slot (name : Variable)
  | static (token : Nat)
  | part (handle : Handle) (part : HeapObject.Part)
  deriving DecidableEq

/-- What is found in a spot. -/
inductive Content where
  | cell (cell : Cell)
  | value (v : Value)
  | byte (bits : KnownBits 8)
  deriving DecidableEq

/-- The content of a part of an object. -/
def HeapObject.part? : HeapObject → HeapObject.Part → Option Content
  | .object o, .field token => (o.fields.get? token).map .value
  | .array a, .element index => a.elements[index]?.map .value
  | .memory b, .byte index => b.bytes[index]?.map .byte
  | _, _ => none

namespace Heap

variable {h : Heap} {handle : Handle} {o o' : HeapObject}

private theorem objects_set (ho : h.get handle = .ok o) (k : Nat) :
    (h.set handle o').objects[k]? = if handle.index = k then some o' else h.objects[k]? := by
  obtain ⟨hin, -⟩ := Array.getElem?_eq_some_iff.mp (get_eq_ok_iff.mp ho)
  change (h.objects.setIfInBounds handle.index o')[k]? = _
  rw [Array.getElem?_setIfInBounds]
  by_cases hk : handle.index = k
  · rw [if_pos hk, if_pos hk, if_pos (hk ▸ hin)]
  · rw [if_neg hk, if_neg hk]

@[simp] theorem size_set : (h.set handle o').size = h.size := Array.size_setIfInBounds

theorem get_set_self (ho : h.get handle = .ok o) : (h.set handle o').get handle = .ok o' :=
  get_eq_ok_iff.mpr (by rw [objects_set ho, if_pos rfl])

end Heap

namespace Machine

/-- The content of a spot. -/
def content? (m : Machine) : Spot → Option Content
  | .slot name => (m.frame.cell? name).map .cell
  | .static token => (m.statics.get? token).map .value
  | .part handle part => m.heap.objects[handle.index]?.bind fun o => o.part? part

/-- Only the stack and the content of some spots changed.  Objects keep their types and their
lengths, strings and boxes stay as they are, and the heap may have grown. -/
structure SameOutside (m : Machine) (changed : Spot → Prop) (m' : Machine) : Prop where
  contents : ∀ spot, ¬ changed spot → m'.content? spot = m.content? spot
  heap : m.heap.Extends m'.heap
  returned : m'.returned = m.returned
  exception : m'.exception = m.exception
  journal : m'.journal = m.journal
  trace : m'.trace = m.trace

variable {m : Machine} {changed : Spot → Prop}

/-- A store in an object changes parts of this object only. -/
theorem SameOutside.setObject {handle : Handle} {o o' : HeapObject}
    (ho : m.heap.get handle = .ok o) (hlayout : o.SameLayout o')
    (hparts : ∀ part, ¬ changed (.part handle part) → o'.part? part = o.part? part)
    (rest : List Value) :
    m.SameOutside changed { m with stack := rest, heap := m.heap.set handle o' } where
  contents spot hspot := by
    cases spot with
    | slot name => rfl
    | static token => rfl
    | part other part =>
        show ((m.heap.set handle o').objects[other.index]?.bind fun o => o.part? part) = _
        rw [Heap.objects_set ho, content?]
        -- Other objects are not touched, and of this one only parts that may change.
        by_cases heq : handle.index = other.index
        · have hsame : handle = other := by
            cases handle
            cases other
            exact congrArg Handle.mk heq
          subst hsame
          rw [if_pos rfl, Heap.get_eq_ok_iff.mp ho]
          exact hparts part hspot
        · rw [if_neg heq]
  heap := .set (Heap.hasLayout_of_get ho) hlayout
  returned := rfl
  exception := rfl
  journal := rfl
  trace := rfl

/-- A new box changes no content, since there was nothing in its place and a box has no parts. -/
theorem SameOutside.allocateBox (m : Machine) (type : TypeSig) (v : Value) (rest : List Value) :
    m.SameOutside (fun _ => False)
      { m with stack := rest, heap := (m.heap.allocate (.boxed type v)).2 } where
  contents spot _ := by
    cases spot with
    | slot name => rfl
    | static token => rfl
    | part handle part =>
        show ((m.heap.objects.push (.boxed type v))[handle.index]?.bind fun o => o.part? part) =
          m.heap.objects[handle.index]?.bind fun o => o.part? part
        rw [Array.getElem?_push]
        -- In the place of the box there was no object, and a box has no parts.
        by_cases hnew : handle.index = m.heap.objects.size
        · rw [if_pos hnew, hnew, Array.getElem?_eq_none le_rfl]
          rfl
        · rw [if_neg hnew]
  heap := .allocate _ _
  returned := rfl
  exception := rfl
  journal := rfl
  trace := rfl

end Machine

/-! ## Locations -/

/-- Where a value can be stored. -/
inductive Location where
  | slot (name : Variable)
  | field (object : Handle) (f : FieldRef)
  | static (f : FieldRef)
  | element (array : Handle) (index : Nat)
  | memory (block : Handle) (offset : Nat)

namespace Location

/-- The spots of a location. -/
def Covers (width : PointerWidth) (type : TypeSig) : Location → Spot → Prop
  | slot name, spot => spot = .slot name
  | field object f, spot => spot = .part object (.field f.token.key)
  | static f, spot => spot = .static f.token.key
  | element array index, spot => spot = .part array (.element index)
  | memory block offset, spot =>
    ∃ size, type.size? width = some size ∧ ∃ k < size, spot = .part block (.byte (offset + k))

/-- The values from which an instruction takes the location, the top of the stack first. -/
def NamedBy : Location → List Value → Prop
  | slot _, operands | static _, operands => operands = []
  | field object _, operands => operands = [.object (.known object)]
  | element array n, operands =>
    ∃ index : Value, index.index? .signed = .ok (some (n : Int)) ∧
      operands = [index, .object (.known array)]
  | memory block offset, operands =>
    ∃ p : Pointer, p.base = some block ∧ p.offset.toInt = offset ∧ operands = [.pointer p]

/-- The instructions that store in the location as one of a type. -/
def StoredBy (type : TypeSig) (i : Instruction) : Location → Prop
  | slot name => i.opcode.operation = .storeVariable ∧ i.slot? = some name
  | field _ f => i.opcode.operation = .storeField true ∧ i.field? = some f
  | static f => i.opcode.operation = .storeField false ∧ i.field? = some f
  | element _ _ => i.opcode.operation = .storeElement
  | memory _ _ =>
    i.opcode.operation = .storeIndirect type ∨
      i.opcode.operation = .moveObject .store ∧ i.type? = some type

/-- The instructions that load from the location as from one of a type. -/
def LoadedBy (type : TypeSig) (i : Instruction) : Location → Prop
  | slot name => i.opcode.operation = .loadVariable ∧ i.slot? = some name
  | field _ f => i.opcode.operation = .loadField true ∧ i.field? = some f
  | static f => i.opcode.operation = .loadField false ∧ i.field? = some f
  | element _ _ =>
    i.opcode.operation = .loadElement none ∨ i.opcode.operation = .loadElement (some type)
  | memory _ _ =>
    i.opcode.operation = .loadIndirect type ∨
      i.opcode.operation = .moveObject .load ∧ i.type? = some type

end Location

namespace Machine

/-- The location exists and is one of a type. -/
def Has (m : Machine) (width : PointerWidth) (type : TypeSig) : Location → Prop
  | .slot name => ∃ v, m.frame.cell? name = some ⟨type, v⟩
  | .field object f =>
    f.isStatic = false ∧ f.fieldType = type ∧ ∃ o, m.heap.get object = .ok (.object o)
  | .static f => f.isStatic = true ∧ f.fieldType = type
  | .element array index =>
    ∃ a, m.heap.get array = .ok (.array a) ∧ a.element = type ∧ index < a.elements.size
  | .memory block offset =>
    ∃ b, m.heap.get block = .ok (.memory b) ∧
      ∃ size, type.size? width = some size ∧ offset + size ≤ b.size

/-- A load from the location finds a value. -/
def Keeps (m : Machine) (width : PointerWidth) (type : TypeSig) (v : Value) : Location → Prop
  | .slot name => m.frame.cell? name = some ⟨type, v⟩
  | .field object f =>
    f.isStatic = false ∧
      ∃ o, m.heap.get object = .ok (.object o) ∧ o.fields.get? f.token.key = some v
  | .static f => f.isStatic = true ∧ m.statics.get? f.token.key = some v
  | .element array index =>
    ∃ a, m.heap.get array = .ok (.array a) ∧ a.element = type ∧
      ∃ u, a.elements[index]? = some u ∧ u.coerce width type = v
  | .memory block offset =>
    ∃ b, m.heap.get block = .ok (.memory b) ∧
      ∃ size word, type.size? width = some size ∧ b.readWord (8 * size) offset = .ok word ∧
        (Value.int64 (word.resize 64 .unsigned)).coerce width type = v

/-- The state after a store, which took its operands from the stack, changed the location and
nothing else, and left the converted value there. -/
structure Stored (m : Machine) (width : PointerWidth) (type : TypeSig) (v : Value)
    (loc : Location) (rest : List Value) (m' : Machine) : Prop where
  stack : m'.stack = rest
  same : m.SameOutside (loc.Covers width type) m'
  size : m'.heap.size = m.heap.size
  keeps : m'.Keeps width type (v.coerce width type) loc

end Machine

/-! ## Stores -/

namespace Step

variable {m : Machine}

theorem run_element {array : Handle} {a : ArrayState} {index : Value} {n : Nat}
    (harray : m.heap.get array = .ok (.array a))
    (hindex : index.index? .signed = .ok (some (n : Int))) (hn : n < a.elements.size) :
    (element (.object (.known array)) index).run m = (.ok (some (array, a, some n)), m) := by
  have hin : (0 : Int) ≤ n ∧ (n : Int) < a.elements.size := by omega
  simp only [element, Value.array?, run_bind, run_attempt, Step.array, run_askHeap, harray,
    Except.mapError, run_pure, hindex, hin, and_self, if_true, Int.toNat_natCast]

end Step

namespace Setting

open Step

variable {s : Setting} {m : Machine} {type : TypeSig} {shape : IntegerShape} {v : Value}
  {x : KnownBits 64} {rest : List Value} {i : Instruction}

theorem run_owner?_known {object : Handle} {o : ObjectState}
    (ho : m.heap.get object = .ok (.object o)) :
    (owner? (some (.object (.known object)))).run m = (.ok (some (object, o)), m) := by
  simp only [owner?, Value.receiver?, run_bind, run_attempt, run_askHeap, ho, Except.mapError,
    run_pure]

private theorem exists_store_slot {name : Variable} (hhas : m.Has s.width type (.slot name))
    (hstored : Location.StoredBy type i (.slot name)) (hstack : m.stack = v :: rest) :
    ∃ m', (s.execute i).run m = (.ok .fallThrough, m') ∧
      m.Stored s.width type v (.slot name) rest m' := by
  obtain ⟨old, hcell⟩ := hhas
  obtain ⟨hop, hslot⟩ := hstored
  refine ⟨{ m with stack := rest, frame := m.frame.set name (v.coerce s.width type) }, ?_, rfl, ?_,
    rfl, Frame.cell?_set_self _ hcell⟩
  · rw [execute, hop]
    apply run_thenNext_of_ok
    simp only [storeVariable, setVariable, hslot, run_bind, run_operand_some, run_pop_cons hstack,
      run_cell, hcell, run_setCell]
  · refine ⟨fun spot hspot => ?_, .refl _, rfl, rfl, rfl, rfl⟩
    cases spot with
    | slot other =>
        have hne : other ≠ name := fun heq => hspot (congrArg Spot.slot heq)
        exact congrArg (Option.map Content.cell) (Frame.cell?_set _ hne)
    | static token => rfl
    | part handle part => rfl

private theorem exists_store_static {f : FieldRef} (hhas : m.Has s.width type (.static f))
    (hstored : Location.StoredBy type i (.static f)) (hstack : m.stack = v :: rest) :
    ∃ m', (s.execute i).run m = (.ok .fallThrough, m') ∧
      m.Stored s.width type v (.static f) rest m' := by
  obtain ⟨hstatic, rfl⟩ := hhas
  obtain ⟨hop, hfield⟩ := hstored
  refine ⟨{ m with stack := rest
                   statics := m.statics.insert f.token.key (v.coerce s.width f.fieldType) },
    ?_, rfl, ?_, rfl, hstatic, SortedMap.get?_insert_self ..⟩
  · rw [execute, hop]
    apply run_thenNext_of_ok
    simp only [storeField, hfield, run_bind, run_operand_some, run_pop_cons hstack, popOwner,
      Bool.false_eq_true, if_false, run_pure, hstatic, if_true, storeStatic, run_setStatic]
  · refine ⟨fun spot hspot => ?_, .refl _, rfl, rfl, rfl, rfl⟩
    cases spot with
    | slot other => rfl
    | static token =>
        have hne : token ≠ f.token.key := fun heq => hspot (congrArg Spot.static heq)
        exact congrArg (Option.map Content.value) (SortedMap.get?_insert_of_ne _ _ hne)
    | part handle part => rfl

private theorem exists_store_field {object : Handle} {f : FieldRef}
    (hhas : m.Has s.width type (.field object f))
    (hstored : Location.StoredBy type i (.field object f))
    (hstack : m.stack = v :: .object (.known object) :: rest) :
    ∃ m', (s.execute i).run m = (.ok .fallThrough, m') ∧
      m.Stored s.width type v (.field object f) rest m' := by
  obtain ⟨hstatic, rfl, o, ho⟩ := hhas
  obtain ⟨hop, hfield⟩ := hstored
  refine ⟨{ m with stack := rest
                   heap := m.heap.set object
                     (.object (o.setField f.token (v.coerce s.width f.fieldType))) },
    ?_, rfl, ?_, Heap.size_set, hstatic, _, Heap.get_set_self ho, SortedMap.get?_insert_self ..⟩
  · rw [execute, hop]
    apply run_thenNext_of_ok
    simp only [storeField, hfield, run_bind, run_operand_some, run_pop_cons hstack, popOwner,
      if_true, hstatic, Bool.false_eq_true, if_false, setField, map_eq_pure_bind, run_pop_stack,
      run_pure, run_owner?_known (m := { m with stack := rest }) ho, run_setObject]
  · refine .setObject ho ?_ (fun part hpart => ?_) rest
    · exact .object rfl
    · cases part with
      | field token =>
          have hne : token ≠ f.token.key := fun heq =>
            hpart (congrArg (fun token => Spot.part object (.field token)) heq)
          exact congrArg (Option.map Content.value) (SortedMap.get?_insert_of_ne _ _ hne)
      | element index => rfl
      | byte index => rfl

private theorem exists_store_element {array : Handle} {n : Nat} {index : Value}
    (hhas : m.Has s.width type (.element array n))
    (hindex : index.index? .signed = .ok (some (n : Int)))
    (hstored : Location.StoredBy type i (.element array n))
    (hshape : type.integerShape? = some shape) (hv : v.integer? = some x)
    (hstack : m.stack = v :: index :: .object (.known array) :: rest) :
    ∃ m', (s.execute i).run m = (.ok .fallThrough, m') ∧
      m.Stored s.width type v (.element array n) rest m' := by
  obtain ⟨a, ha, rfl, hn⟩ := hhas
  -- The value is converted here and once more when it is loaded.
  have hset : a.set n (v.coerce s.width a.element) =
      .ok { a with elements := a.elements.setIfInBounds n (v.coerce s.width a.element) } :=
    if_pos hn
  refine ⟨{ m with stack := rest
                   heap := m.heap.set array
                     (.array { a with elements :=
                       a.elements.setIfInBounds n (v.coerce s.width a.element) }) },
    ?_, rfl, ?_, Heap.size_set, _, Heap.get_set_self ha, rfl, v.coerce s.width a.element, ?_,
    Value.coerce_coerce hshape hv⟩
  · rw [execute, hstored]
    apply run_thenNext_of_ok
    simp only [storeElement, run_bind, run_pop_cons hstack, setElement, run_pop_stack,
      run_element (m := { m with stack := rest }) ha hindex hn, ofResult, hset, Except.mapError,
      run_attempt, run_setObject]
  · refine .setObject ha ?_ (fun part hpart => ?_) rest
    · exact .array rfl Array.size_setIfInBounds.symm
    · cases part with
      | field token => rfl
      | element k =>
          have hne : n ≠ k := fun heq =>
            hpart (congrArg (fun k => Spot.part array (.element k)) heq.symm)
          exact congrArg (Option.map Content.value) (Array.getElem?_setIfInBounds_ne hne)
      | byte index => rfl
  · rw [Array.getElem?_setIfInBounds_self, if_pos hn]

private theorem run_storeIndirect {p : Pointer} {block : Handle} {heap : Heap}
    (hbase : p.base = some block) (hstore : p.store m.heap s.width type v = .ok heap)
    (hstack : m.stack = v :: .pointer p :: rest) :
    (s.storeIndirect type).run m = (.ok (), { m with stack := rest, heap }) := by
  have hknown : p.isKnown = true := by rw [Pointer.isKnown, hbase, Option.isSome_some]
  simp only [storeIndirect, run_bind, run_pop_cons hstack, run_pop_stack, storeAt, Value.address?,
    hknown, if_true, run_attempt, run_updateHeap, hstore]

private theorem exists_store_memory {block : Handle} {offset : Nat} {p : Pointer}
    (hhas : m.Has s.width type (.memory block offset))
    (hbase : p.base = some block) (hoffset : p.offset.toInt = offset)
    (hstored : Location.StoredBy type i (.memory block offset))
    (hshape : type.integerShape? = some shape) (hv : v.integer? = some x)
    (hstack : m.stack = v :: .pointer p :: rest) :
    ∃ m', (s.execute i).run m = (.ok .fallThrough, m') ∧
      m.Stored s.width type v (.memory block offset) rest m' := by
  obtain ⟨b, hb, size, hsize, hfit⟩ := hhas
  have hbytes : 8 * size / 8 = size := by omega
  have hlength : (x.truncate (8 * size)).toBytes.length = size := by
    rw [KnownBits.length_toBytes, hbytes]
  have hblock : m.heap.block block = .ok b := Heap.block_eq_ok_iff.mpr (Heap.get_eq_ok_iff.mp hb)
  -- The value is not converted: its low bytes are stored, whatever its kind.
  have hstore := p.writeWord_of_le hbase hoffset hblock (x.truncate (8 * size)) (by omega)
  rw [← Pointer.store_integer hshape hsize hv] at hstore
  have hrun := run_storeIndirect hbase hstore hstack
  have hread : Block.readWord ⟨Block.setBytes b.bytes offset (x.truncate (8 * size)).toBytes⟩
      (8 * size) offset = .ok (x.truncate (8 * size)) :=
    Block.readWord_setBytes _ (by omega) (by omega)
  refine ⟨{ m with stack := rest
                   heap := m.heap.set block
                     (.memory ⟨Block.setBytes b.bytes offset (x.truncate (8 * size)).toBytes⟩) },
    ?_, rfl, ?_, Heap.size_set, _, Heap.get_set_self hb, size, _, hsize, hread,
    Value.coerce_resize_truncate hshape hsize hv⟩
  · rcases hstored with hop | ⟨hop, htype⟩
    · rw [execute, hop]
      exact run_thenNext_of_ok hrun
    · rw [execute, hop]
      apply run_thenNext_of_ok
      simp only [moveObject, htype, run_bind, run_operand_some, hrun]
  · refine .setObject hb ?_ (fun part hpart => ?_) rest
    · exact .memory (Block.size_setBytes ..).symm
    · cases part with
      | field token => rfl
      | element index => rfl
      | byte k =>
          -- A byte that the location does not cover lies before or after those that are stored.
          have hout : ¬ (offset ≤ k ∧ k < offset + size) := by
            intro hin
            refine hpart ⟨size, hsize, k - offset, by omega, ?_⟩
            rw [Nat.add_sub_cancel' hin.1]
          refine congrArg (Option.map Content.byte) ?_
          rw [Block.getElem?_setBytes (hlength.symm ▸ hfit) k, hlength, if_neg hout]

/-- A store succeeds and changes its location only, and the converted value is found there. -/
theorem exists_store {loc : Location} {operands : List Value}
    (hshape : type.integerShape? = some shape) (hv : v.integer? = some x)
    (hhas : m.Has s.width type loc) (hnamed : loc.NamedBy operands)
    (hstored : loc.StoredBy type i) (hstack : m.stack = v :: operands ++ rest) :
    ∃ m', (s.execute i).run m = (.ok .fallThrough, m') ∧ m.Stored s.width type v loc rest m' := by
  cases loc with
  | slot name =>
      obtain rfl := hnamed
      exact exists_store_slot hhas hstored hstack
  | field object f =>
      obtain rfl := hnamed
      exact exists_store_field hhas hstored hstack
  | static f =>
      obtain rfl := hnamed
      exact exists_store_static hhas hstored hstack
  | element array n =>
      obtain ⟨index, hindex, rfl⟩ := hnamed
      exact exists_store_element hhas hindex hstored hshape hv hstack
  | memory block offset =>
      obtain ⟨p, hbase, hoffset, rfl⟩ := hnamed
      exact exists_store_memory hhas hbase hoffset hstored hshape hv hstack

/-! ## Loads -/

private theorem run_loadIndirect {p : Pointer} {block : Handle} (hbase : p.base = some block)
    (hload : p.load m.heap s.width type = .ok v) (hroom : rest.length < s.options.maxStackDepth) :
    (s.loadIndirect type).run { m with stack := .pointer p :: rest } =
      (.ok (), { m with stack := v :: rest }) := by
  have hknown : p.isKnown = true := by rw [Pointer.isKnown, hbase, Option.isSome_some]
  have hpush := run_push_of_lt (m := { m with stack := rest }) v hroom
  simp only [loadIndirect, run_bind, run_pop_stack, loadAt, Value.address?, hknown, if_true,
    run_attempt, run_askHeap, hload, Except.mapError, hpush]

/-- A load from a location pushes the value that is found there and changes nothing. -/
theorem run_load {loc : Location} {operands : List Value}
    (hshape : type.integerShape? = some shape) (hkeeps : m.Keeps s.width type v loc)
    (hnamed : loc.NamedBy operands) (hloaded : loc.LoadedBy type i)
    (hroom : rest.length < s.options.maxStackDepth) :
    (s.execute i).run { m with stack := operands ++ rest } =
      (.ok .fallThrough, { m with stack := v :: rest }) := by
  have hpush := run_push_of_lt (m := { m with stack := rest }) v hroom
  cases loc with
  | slot name =>
      obtain rfl := hnamed
      obtain ⟨hop, hslot⟩ := hloaded
      have hcell : m.frame.cell? name = some ⟨type, v⟩ := hkeeps
      rw [execute, hop]
      apply run_thenNext_of_ok
      simp only [loadVariable, hslot, run_bind, run_operand_some, run_cell, hcell, List.nil_append,
        hpush]
  | field object f =>
      obtain rfl := hnamed
      obtain ⟨hop, hfield⟩ := hloaded
      obtain ⟨hstatic, o, ho, hvalue⟩ := hkeeps
      have howner := run_owner?_known (m := { m with stack := rest }) ho
      rw [execute, hop]
      apply run_thenNext_of_ok
      simp only [loadField, hfield, run_bind, run_operand_some, popOwner, if_true, hstatic,
        Bool.false_eq_true, if_false, map_eq_pure_bind, List.cons_append, List.nil_append,
        run_pop_stack, run_pure, howner, ObjectState.field, hvalue, Option.getD_some, hpush]
  | static f =>
      obtain rfl := hnamed
      obtain ⟨hop, hfield⟩ := hloaded
      obtain ⟨hstatic, hvalue⟩ := hkeeps
      rw [execute, hop]
      apply run_thenNext_of_ok
      simp only [loadField, hfield, run_bind, run_operand_some, popOwner, Bool.false_eq_true,
        if_false, run_pure, hstatic, if_true, loadStatic, run_get, hvalue, List.nil_append, hpush]
  | element array n =>
      obtain ⟨index, hindex, rfl⟩ := hnamed
      obtain ⟨a, ha, rfl, u, hu, hvalue⟩ := hkeeps
      obtain ⟨hn, -⟩ := Array.getElem?_eq_some_iff.mp hu
      have helement := run_element (m := { m with stack := rest }) ha hindex hn
      -- The instruction may name the type of the element or leave it to the array.
      obtain ⟨t, hop, ht⟩ : ∃ t, i.opcode.operation = .loadElement t ∧
          t.getD a.element = a.element := by
        rcases hloaded with hop | hop
        · exact ⟨none, hop, rfl⟩
        · exact ⟨some a.element, hop, rfl⟩
      have hfound : s.elementValue t a (some n) = v := by
        simp only [elementValue, Option.bind_some, hu, ht, hvalue]
      rw [execute, hop]
      apply run_thenNext_of_ok
      simp only [loadElement, run_bind, List.cons_append, List.nil_append, run_pop_stack, helement,
        hfound, hpush]
  | memory block offset =>
      obtain ⟨p, hbase, hoffset, rfl⟩ := hnamed
      obtain ⟨b, hb, size, word, hsize, hword, hvalue⟩ := hkeeps
      have hblock : m.heap.block block = .ok b :=
        Heap.block_eq_ok_iff.mpr (Heap.get_eq_ok_iff.mp hb)
      have hload : p.load m.heap s.width type = .ok v := by
        rw [Pointer.load_integer hshape hsize, Pointer.readWord_eq hbase hoffset hblock, hword,
          ← hvalue]
        rfl
      have hrun := run_loadIndirect hbase hload hroom
      rw [execute]
      rcases hloaded with hop | ⟨hop, htype⟩
      · rw [hop]
        exact run_thenNext_of_ok hrun
      · rw [hop]
        apply run_thenNext_of_ok
        simp only [moveObject, htype, run_bind, run_operand_some, List.cons_append,
          List.nil_append, hrun]

end Setting

/-! ## Boxes -/

namespace TypeSig

variable {type : TypeSig} {shape : IntegerShape}

private theorem isValueType_of_integerShape? (hshape : type.integerShape? = some shape) :
    type.isValueType = true := by
  cases type <;> cases hshape <;> rfl

private theorem isInstance_self_of_integerShape? (hshape : type.integerShape? = some shape) :
    type.isInstance type = .true := by
  cases type <;> cases hshape <;> rfl

end TypeSig

namespace Setting

open Step

variable {s : Setting} {m : Machine} {type : TypeSig} {shape : IntegerShape} {v : Value}
  {x : KnownBits 64} {rest : List Value} {i : Instruction}

/-- A value type is boxed in a new object, which holds the converted value. -/
theorem run_box (hvalue : type.isValueType = true) (hop : i.opcode.operation = .box)
    (htype : i.type? = some type) (hstack : m.stack = v :: rest)
    (hroom : rest.length < s.options.maxStackDepth) :
    (s.execute i).run m =
      (.ok .fallThrough,
        { m with stack := .object (.known ⟨m.heap.size⟩) :: rest
                 heap := (m.heap.allocate (.boxed type (v.coerce s.width type))).2 }) := by
  have hpush := run_push_of_lt (s := s)
    (m := { m with stack := rest
                   heap := (m.heap.allocate (.boxed type (v.coerce s.width type))).2 })
    (.object (.known ⟨m.heap.size⟩)) hroom
  rw [execute, hop]
  apply run_thenNext_of_ok
  simp only [box, htype, run_bind, run_operand_some, run_pop_cons hstack, hvalue, if_true,
    run_allocate]
  exact hpush

/-- What is found in a box, if the environment does not deny that the type is the one in the box. -/
theorem run_unbox {handle : Handle} {u : Value} (hvalue : type.isValueType = true)
    (hop : i.opcode.operation = .unbox true) (htype : i.type? = some type)
    (hbox : m.heap.get handle = .ok (.boxed type u))
    (hroom : rest.length < s.options.maxStackDepth) :
    (s.execute i).run { m with stack := .object (.known handle) :: rest } =
      if s.environment.isInstance type type = .false then
        (.error (.invalidCast (type.text ++ " is not " ++ type.text)),
          { m with stack := rest, journal := .isInstance type type :: m.journal })
      else
        (.ok .fallThrough,
          { m with stack := u.coerce s.width type :: rest
                   journal := .isInstance type type :: m.journal }) := by
  have hpush := run_push_of_lt (s := s)
    (m := { m with stack := rest, journal := .isInstance type type :: m.journal })
    (u.coerce s.width type) hroom
  rw [execute, hop]
  by_cases hanswer : s.environment.isInstance type type = .false
  · simp [perform, thenNext, unbox, htype, run_bind, run_pop_stack, Value.reference, hvalue,
      boxedValue, run_askHeap, hbox, Except.mapError, isInstance, note, hanswer]
  · rw [if_neg hanswer]
    apply run_thenNext_of_ok
    simp [unbox, htype, run_bind, run_pop_stack, Value.reference, hvalue,
      boxedValue, run_askHeap, hbox, Except.mapError, isInstance, note, hanswer, hpush]

/-! ## All of them alike -/

/-- What a value becomes in a location of a type does not depend on the kind of the location. -/
structure StoresAlike (s : Setting) (type : TypeSig) (v : Value) : Prop where
  /-- A store takes the value and what names the location, and changes the location only.  A load
  that follows gives the converted value and changes nothing but the stack. -/
  location : ∀ (loc : Location) (m : Machine) (operands rest : List Value) (i : Instruction),
    m.Has s.width type loc → loc.NamedBy operands → loc.StoredBy type i →
      m.stack = v :: operands ++ rest →
        ∃ m', (s.execute i).run m = (.ok .fallThrough, m') ∧ m'.stack = rest ∧
          m.SameOutside (loc.Covers s.width type) m' ∧ m'.heap.size = m.heap.size ∧
          ∀ (operands' rest' : List Value) (j : Instruction), loc.NamedBy operands' →
            loc.LoadedBy type j → rest'.length < s.options.maxStackDepth →
              (s.execute j).run { m' with stack := operands' ++ rest' } =
                (.ok .fallThrough, { m' with stack := v.coerce s.width type :: rest' })
  /-- A box is a new object and nothing that was there changes.  The environment is asked when the
  box is opened, and unless it denies that the box is one of its own type, the converted value is
  found. -/
  box : ∀ (m : Machine) (rest : List Value) (i : Instruction),
    i.opcode.operation = .box → i.type? = some type → m.stack = v :: rest →
      rest.length < s.options.maxStackDepth →
        ∃ handle m', (s.execute i).run m = (.ok .fallThrough, m') ∧
          m'.stack = .object (.known handle) :: rest ∧ m.SameOutside (fun _ => False) m' ∧
          handle.index = m.heap.size ∧ m'.heap.size = m.heap.size + 1 ∧
          ∀ (rest' : List Value) (j : Instruction), j.opcode.operation = .unbox true →
            j.type? = some type → rest'.length < s.options.maxStackDepth →
              (s.execute j).run { m' with stack := .object (.known handle) :: rest' } =
                if s.environment.isInstance type type = .false then
                  (.error (.invalidCast (type.text ++ " is not " ++ type.text)),
                    { m' with stack := rest', journal := .isInstance type type :: m'.journal })
                else
                  (.ok .fallThrough,
                    { m' with stack := v.coerce s.width type :: rest'
                              journal := .isInstance type type :: m'.journal })
  /-- By the names of types alone, a type is an instance of itself. -/
  instanceOfItself : type.isInstance type = .true

/-- Integers are stored and loaded alike in all locations of integer types. -/
theorem storesAlike (s : Setting) (hshape : type.integerShape? = some shape)
    (hv : v.integer? = some x) : s.StoresAlike type v where
  location loc m operands rest i hhas hnamed hstored hstack := by
    obtain ⟨m', hrun, hafter⟩ := exists_store hshape hv hhas hnamed hstored hstack
    refine ⟨m', hrun, hafter.stack, hafter.same, hafter.size, ?_⟩
    intro operands' rest' j hnamed' hloaded hroom
    exact run_load hshape hafter.keeps hnamed' hloaded hroom
  box m rest i hop htype hstack hroom := by
    have hvalue := TypeSig.isValueType_of_integerShape? hshape
    refine ⟨⟨m.heap.size⟩, _, run_box hvalue hop htype hstack hroom, rfl, .allocateBox .., rfl,
      Array.size_push .., ?_⟩
    intro rest' j hop' htype' hroom'
    have hbox : (m.heap.allocate (.boxed type (v.coerce s.width type))).2.get ⟨m.heap.size⟩ =
        .ok (.boxed type (v.coerce s.width type)) :=
      Heap.get_eq_ok_iff.mpr (Heap.getElem?_allocate_self ..)
    -- The value was converted when it was boxed and is converted again.
    have hopen := run_unbox (s := s)
      (m := { m with stack := .object (.known ⟨m.heap.size⟩) :: rest
                     heap := (m.heap.allocate (.boxed type (v.coerce s.width type))).2 })
      hvalue hop' htype' hbox hroom'
    rw [Value.coerce_coerce hshape hv] at hopen
    exact hopen
  instanceOfItself := TypeSig.isInstance_self_of_integerShape? hshape

/-- An interpreter with short pointers. -/
def shortPointers : Setting := { options := { width := .bits32 } }

/-- An integer of which the lowest byte and the highest bit of the next one are unknown. -/
def halfKnown : Value := .int32 (.masked 0x1200 0xffff7f00)

/-- The address of the second byte of the first object. -/
def secondByte : Pointer := ⟨some ⟨0⟩, 1, .bits32⟩

/-- An integer on top of an address into a block of four bytes. -/
def beforeStore : Machine where
  stack := [halfKnown, .pointer secondByte]
  frame := ⟨[], []⟩
  heap := ⟨#[.memory (.zeroed 4)]⟩

theorem storesAlike_halfKnown :
    TypeSig.int16.integerShape? = some (.narrow 16 .signed) ∧
      halfKnown.integer? = some (.masked 0x1200 0xffffffffffff7f00) ∧
      halfKnown.coerce .bits32 .int16 = .int32 (.masked 0x1200 0x7f00) ∧
      ∃ m', (shortPointers.execute ⟨0, .stobj, .type .int16, 5⟩).run beforeStore =
          (.ok .fallThrough, m') ∧
        (shortPointers.execute ⟨5, .ldobj, .type .int16, 5⟩).run
            { m' with stack := [.pointer secondByte] } =
          (.ok .fallThrough, { m' with stack := [.int32 (.masked 0x1200 0x7f00)] }) := by
  have hshape : TypeSig.int16.integerShape? = some (.narrow 16 .signed) := rfl
  have hv : halfKnown.integer? = some (.masked 0x1200 0xffffffffffff7f00) := by decide
  have hvalue : halfKnown.coerce .bits32 .int16 = .int32 (.masked 0x1200 0x7f00) := by decide
  have hhas : beforeStore.Has .bits32 .int16 (.memory ⟨0⟩ 1) :=
    ⟨.zeroed 4, rfl, 2, rfl, by decide⟩
  have hnamed : Location.NamedBy (.memory ⟨0⟩ 1) [.pointer secondByte] :=
    ⟨secondByte, rfl, rfl, rfl⟩
  obtain ⟨m', hrun, -, -, -, hload⟩ := (storesAlike shortPointers hshape hv).location _ beforeStore
    _ [] ⟨0, .stobj, .type .int16, 5⟩ hhas hnamed (.inr ⟨rfl, rfl⟩) rfl
  refine ⟨hshape, hv, hvalue, m', hrun, ?_⟩
  rw [← hvalue]
  exact hload _ [] _ hnamed (.inr ⟨rfl, rfl⟩) (by decide)

end Setting

end CilAnalysis
