import CilAnalysis.Proofs.Machine.Respects

/-!
# Interpreters obey disciplines

Every operation respects every discipline, in an environment that knows nothing
(`Setting.perform_obeys`).  An interpreter that starts from values that meet a discipline therefore
obeys it for as long as it executes instructions, whichever they are and whatever becomes of them
(`Discipline.Obeyed.execute`, `Discipline.Obeyed.after`).

## Strategy

An operation is a sequence of steps, so its proof has the shape of the operation: one `bind` for
each step, with the rule of `Respects.lean` for it.  The heaps between the steps are called `h₁`,
`h₂` and so on; a value that was taken early and is used late is moved along the extensions between
them with `Admits.mono`.

Three matters need more than the rules for single steps.

* **Memory.**  What is read and written through a pointer is settled before the steps
  (`Discipline.result_load`, `Discipline.result_store` and the lemmas before them).
* **Arrays.**  Between finding an element and storing one, the array may have been replaced by
  another of its layout.  `FindsArray` is what is still true of it then; `FindsOwner` says the same
  of an object and its fields.
* **Calls.**  What a call returns is up to the environment.  Here it knows nothing, so the result is
  an unknown value of the type returned (`respects_invoke`), which every discipline admits.
-/

namespace CilAnalysis

open Discipline Step

/-! ## What is found behind references and pointers -/

namespace Discipline

variable {width : PointerWidth} {D : Discipline width} {h : Heap} {p : Pointer}

private theorem result_bind {α β : Type} {Q : α → Prop} {R : β → Prop} {r : Except Error α}
    {f : α → Except Error β} (hr : D.Result Q (r.mapError Fault.ofError))
    (hf : ∀ v, Q v → D.Result R ((f v).mapError Fault.ofError)) :
    D.Result R ((r >>= f).mapError Fault.ofError) := by
  cases r with
  | error e => exact hr
  | ok v => exact hf v hr

private theorem result_type {handle : Handle} (hentry : D.entry h handle) :
    D.Result (fun _ => True) ((h.type handle).mapError Fault.ofError) := by
  unfold Heap.type
  cases hget : h.get handle with
  | error e => exact D.fault_get hentry hget
  | ok o => trivial

private theorem result_block {handle : Handle} (hblock : D.block h handle) :
    D.Result (fun _ => True) ((h.block handle).mapError Fault.ofError) := by
  cases hget : h.block handle with
  | error e => exact D.fault_block hblock hget
  | ok b => trivial

private theorem result_updateBlock {handle : Handle} {f : Block → Except Error Block}
    (hblock : D.block h handle) (hf : ∀ b : Block, b.StoresIn (f b)) :
    D.Result h.StoresTo ((h.updateBlock handle f).mapError Fault.ofError) := by
  cases hupdate : h.updateBlock handle f with
  | ok h' => exact Heap.updateBlock_storesTo hf hupdate
  | error e =>
      rcases Heap.updateBlock_eq_error hf hupdate with hmissing | ⟨offset, size, rfl⟩
      · exact D.fault_block hblock hmissing
      · exact D.fault_ordinary (Fault.ordinary_outOfBounds offset size)

private theorem result_blockBytes (b : Block) (offset : Int) (size : Nat) :
    D.Result (fun _ => True) ((b.readBytes offset size).mapError Fault.ofError) := by
  cases hread : b.readBytes offset size with
  | ok bytes => trivial
  | error e =>
      rw [Block.readBytes_eq_error hread]
      exact D.fault_ordinary (Fault.ordinary_outOfBounds offset size)

private theorem result_readBytes (hp : D.Admits h (.pointer p)) (size : Nat) :
    D.Result (fun _ => True) ((p.readBytes h size).mapError Fault.ofError) := by
  unfold Pointer.readBytes
  split
  next base hbase =>
    exact result_bind (result_block (hp base hbase)) fun b _ => result_blockBytes ..
  next => trivial

private theorem result_readWord (hp : D.Admits h (.pointer p)) (w : Nat) (offset : BitVec 64) :
    D.Result (fun _ => True) ((p.readWord h w offset).mapError Fault.ofError) := by
  unfold Pointer.readWord
  split
  next base hbase =>
    refine result_bind (result_block (hp base hbase)) ?_
    intro b _
    exact result_bind (result_blockBytes ..) fun _ _ => trivial
  next => trivial

private theorem result_writeBytes (hp : D.Admits h (.pointer p)) (bytes : List (KnownBits 8)) :
    D.Result h.StoresTo ((p.writeBytes h bytes).mapError Fault.ofError) := by
  unfold Pointer.writeBytes
  split
  next base hbase => exact result_updateBlock (hp base hbase) fun b => b.storesIn_writeBytes _ _
  next => exact Or.inl rfl

private theorem result_writeWord (hp : D.Admits h (.pointer p)) {w : Nat} (offset : BitVec 64)
    (x : KnownBits w) : D.Result h.StoresTo ((p.writeWord h offset x).mapError Fault.ofError) := by
  unfold Pointer.writeWord
  split
  next base hbase => exact result_updateBlock (hp base hbase) fun b => b.storesIn_writeBytes _ _
  next => exact Or.inl rfl

private theorem result_fill (hp : D.Admits h (.pointer p)) (size : Nat) (byte : KnownBits 8) :
    D.Result h.StoresTo ((p.fill h size byte).mapError Fault.ofError) := by
  unfold Pointer.fill
  split
  next base hbase => exact result_updateBlock (hp base hbase) fun b => b.storesIn_fill _ _ _
  next => exact Or.inl rfl

private theorem result_forget (hp : D.Admits h (.pointer p)) (size : Option Nat) :
    D.Result h.StoresTo ((p.forget h size).mapError Fault.ofError) := by
  unfold Pointer.forget
  split
  next base hbase => exact result_updateBlock (hp base hbase) fun b => b.storesIn_fill _ _ _
  next => exact Or.inl rfl

private theorem result_load (hp : D.Admits h (.pointer p)) (type : TypeSig) :
    D.Result (D.Admits h) ((p.load h width type).mapError Fault.ofError) := by
  have hfloat : ∀ f : BinaryFormat,
      D.Result (fun _ => True) ((p.readFloat h f 0).mapError Fault.ofError) :=
    fun f => result_bind (result_readWord hp f.width 0) fun _ _ => trivial
  unfold Pointer.load
  split
  · exact result_bind (hfloat .single) fun _ _ => trivial
  · exact result_bind (hfloat .double) fun _ _ => trivial
  · refine result_bind (result_readWord hp _ _) ?_
    intro bits _
    exact .coerce (v := .int64 (bits.resize 64 .unsigned)) trivial _
  · exact admits_unknownOf _

private theorem result_store (hp : D.Admits h (.pointer p)) (type : TypeSig) (v : Value) :
    D.Result h.StoresTo ((p.store h width type v).mapError Fault.ofError) := by
  unfold Pointer.store
  split
  · exact result_writeWord hp _ _
  · exact result_writeWord hp _ _
  · exact result_writeWord hp _ _
  · exact result_forget hp _

end Discipline

/-- Whether an operation changes the variable that its instruction names. -/
def Operation.setsVariable : Operation → Bool
  | storeVariable | loadVariableAddress => true
  | _ => false

/-- Whether an instruction changes a variable. -/
def Instruction.Sets (i : Instruction) (slot : Variable) : Prop :=
  i.opcode.operation.setsVariable = true ∧ i.slot? = some slot

namespace Setting

variable {s : Setting} {D : Discipline s.width} {h : Heap} {i : Instruction}

/-! ## Variables and numbers -/

private theorem obeys_setVariable {slot : Variable} {v : Value} (hslot : D.stored slot)
    (hv : D.Admits h v) : Obeys s D h (s.setVariable slot v) := by
  refine (Respects.cell slot).bind ?_
  intro h' cell hext _
  exact .setCell hslot ((hv.mono hext).coerce _)

private theorem obeys_loadString : Obeys s D h (s.loadString i) := by
  refine Respects.operand.bind ?_
  intro h₁ text _ _
  have hstring : D.AdmitsObject h₁ (.string text) := ⟨trivial, nofun⟩
  refine (Respects.allocate hstring).bind ?_
  intro h₂ handle _ hhandle
  exact .push hhandle

private theorem obeys_loadVariable : Obeys s D h (s.loadVariable i) := by
  refine Respects.operand.bind ?_
  intro h₁ slot _ _
  refine (Respects.cell slot).bind ?_
  intro h₂ cell _ hcell
  exact .push hcell

private theorem obeys_storeVariable (hslot : ∀ slot, i.slot? = some slot → D.stored slot) :
    Obeys s D h (s.storeVariable i) := by
  refine Respects.operand.bind ?_
  intro h₁ slot _ hnamed
  refine Respects.pop.bind ?_
  intro h₂ v _ hv
  exact obeys_setVariable (hslot slot hnamed) hv

private theorem obeys_pushUnknownAddress : Obeys s D h s.pushUnknownAddress :=
  .push admits_unknownPointer

private theorem obeys_loadVariableAddress (hslot : ∀ slot, i.slot? = some slot → D.stored slot) :
    Obeys s D h (s.loadVariableAddress i) := by
  refine Respects.operand.bind ?_
  intro h₁ slot _ hnamed
  have hforget : Obeys s D h₁ (s.forgetVariable slot) :=
    (Respects.cell slot).bind fun _ _ _ _ =>
      .setCell (hslot slot hnamed) (admits_unknownOf _)
  exact hforget.bind fun _ _ _ _ => obeys_pushUnknownAddress

private theorem obeys_onTop {f : Value → Except Fault Value}
    (hf : ∀ h v, D.Admits h v → D.Result (D.Admits h) (f v)) : Obeys s D h (s.onTop f) := by
  refine Respects.pop.bind ?_
  intro h₁ v _ hv
  refine (Respects.attempt (hf h₁ v hv)).bind ?_
  intro h₂ u hext hu
  exact .push (hu.mono hext)

private theorem obeys_onTopTwo {f : Value → Value → Except Fault Value}
    (hf : ∀ h lhs rhs, D.Admits h lhs → D.Admits h rhs → D.Result (D.Admits h) (f lhs rhs)) :
    Obeys s D h (s.onTopTwo f) := by
  refine Respects.pop.bind ?_
  intro h₁ rhs _ hrhs
  refine Respects.pop.bind ?_
  intro h₂ lhs hext₂ hlhs
  refine (Respects.attempt (hf h₂ lhs rhs hlhs (hrhs.mono hext₂))).bind ?_
  intro h₃ v hext₃ hv
  exact .push (hv.mono hext₃)

private theorem obeys_compareTopTwo (c : Comparison) (unsigned : Bool) :
    Obeys s D h (s.compareTopTwo c unsigned) := by
  refine obeys_onTopTwo ?_
  intro h lhs rhs hlhs hrhs
  exact (result_decide c unsigned hlhs hrhs).bind fun _ _ => trivial

private theorem obeys_checkFinite : Obeys s D h (Step.checkFinite i) := by
  refine Respects.peek.bind ?_
  intro h₁ v _ _
  exact .attempt (result_requireFinite i.opcode v)

/-! ## Branches -/

private theorem obeys_branchIf (condition : Ternary) : Obeys s D h (branchIf i condition) := by
  refine Respects.operand.bind ?_
  intro h₁ target _ _
  cases condition <;> exact .pure fun _ _ => trivial

private theorem obeys_branchOnComparison (c : Comparison) (unsigned whenHolds : Bool) :
    Obeys s D h (s.branchOnComparison i c unsigned whenHolds) := by
  refine Respects.pop.bind ?_
  intro h₁ rhs _ hrhs
  refine Respects.pop.bind ?_
  intro h₂ lhs hext₂ hlhs
  refine (Respects.attempt (result_decide c unsigned hlhs (hrhs.mono hext₂))).bind ?_
  intro h₃ holds _ _
  exact obeys_branchIf _

private theorem obeys_switch : Obeys s D h (Step.switch i) := by
  refine Respects.operand.bind ?_
  intro h₁ table _ _
  refine Respects.pop.bind ?_
  intro h₂ v _ _
  have hindex : D.Result (fun _ => True) (v.index? .unsigned) := by
    cases v with
    | int32 | nativeInt => trivial
    | int64 | float | object | pointer =>
        exact .throw (Fault.ordinary_invalidProgram rfl (by decide))
  exact (Respects.attempt hindex).bind fun _ _ _ _ => .pure fun _ _ => trivial

private theorem obeys_ret : Obeys s D h s.ret := by
  unfold Setting.ret
  split
  · refine Respects.pop.bind ?_
    intro h₁ v _ hv
    exact (Respects.setReturned hv).bind fun _ _ _ _ => .pure fun _ _ => trivial
  · exact .pure fun _ _ => trivial

private theorem obeys_throws (again : Bool) : Obeys s D h (Step.throws again) := by
  cases again with
  | true => exact .pure fun _ _ => trivial
  | false =>
      refine Respects.pop.bind ?_
      intro h₁ v _ hv
      by_cases hnull : v.isZero = .true
      · simp only [hnull, if_true]
        exact .throw fun _ => ⟨nofun, nofun⟩
      · simp only [hnull, if_false]
        exact (Respects.setException hv).bind fun _ _ _ _ => .pure fun _ _ => trivial

/-! ## Addresses -/

private theorem respects_loadAt (type : TypeSig) {address : Value} (haddress : D.Admits h address) :
    Respects s D h (s.loadAt type address) D.Admits := by
  refine (Respects.attempt (result_address? haddress)).bind ?_
  intro h₁ target hext₁ htarget
  cases target with
  | none => exact .pure fun _ _ => admits_unknownOf type
  | some p =>
      refine .askHeap ?_
      intro m _ hext
      exact result_load ((htarget p rfl).mono (hext₁.trans hext)) type

private theorem obeys_storeAt (type : TypeSig) {address : Value} (haddress : D.Admits h address)
    (v : Value) : Obeys s D h (s.storeAt type address v) := by
  refine (Respects.attempt (result_address? haddress)).bind ?_
  intro h₁ target hext₁ htarget
  cases target with
  | none => exact .pure fun _ _ => trivial
  | some p =>
      refine .updateHeap ?_
      intro h₂ hext₂
      exact result_store ((htarget p rfl).mono (hext₁.trans hext₂)) type v

private theorem obeys_loadIndirect (type : TypeSig) : Obeys s D h (s.loadIndirect type) := by
  refine Respects.pop.bind ?_
  intro h₁ address _ haddress
  refine (respects_loadAt type haddress).bind ?_
  intro h₂ v _ hv
  exact .push hv

private theorem obeys_storeIndirect (type : TypeSig) : Obeys s D h (s.storeIndirect type) := by
  refine Respects.pop.bind ?_
  intro h₁ v _ _
  refine Respects.pop.bind ?_
  intro h₂ address _ haddress
  exact obeys_storeAt type haddress v

private theorem obeys_moveObject (move : ObjectMove) : Obeys s D h (s.moveObject i move) := by
  refine Respects.operand.bind ?_
  intro h₁ type _ _
  cases move with
  | load => exact obeys_loadIndirect type
  | store => exact obeys_storeIndirect type
  | copy =>
      refine Respects.pop.bind ?_
      intro h₂ source _ hsource
      refine Respects.pop.bind ?_
      intro h₃ destination hext₃ hdestination
      refine (respects_loadAt type (hsource.mono hext₃)).bind ?_
      intro h₄ v hext₄ _
      exact obeys_storeAt type (hdestination.mono hext₄) v
  | init =>
      refine Respects.pop.bind ?_
      intro h₂ address _ haddress
      exact obeys_storeAt type haddress _

private theorem obeys_localAlloc : Obeys s D h s.localAlloc := by
  refine Respects.pop.bind ?_
  intro h₁ size _ hsize
  refine (Respects.attempt (result_size? hsize)).bind ?_
  intro h₂ count _ _
  split
  · refine (Respects.allocateBlock _).bind ?_
    intro h₃ base _ hbase
    refine .push ?_
    intro base' heq
    obtain rfl := Option.some.inj heq
    exact hbase
  · exact obeys_pushUnknownAddress

private theorem obeys_copyBlock : Obeys s D h Step.copyBlock := by
  refine Respects.pop.bind ?_
  intro h₁ size _ hsize
  refine Respects.pop.bind ?_
  intro h₂ source hext₂ hsource
  refine Respects.pop.bind ?_
  intro h₃ destination hext₃ hdestination
  -- All three values are on the stack before anything is decided; the heap has not changed since.
  have hsize₃ : D.Admits h₃ size := hsize.mono (hext₂.trans hext₃)
  refine (Respects.attempt (result_size? hsize₃)).bind ?_
  intro h₄ count hext₄ _
  refine (Respects.attempt (result_address? (hdestination.mono hext₄))).bind ?_
  intro h₅ target hext₅ htarget
  cases target with
  | none => exact .pure fun _ _ => trivial
  | some p =>
      have hsource₅ : D.Admits h₅ source := hsource.mono (hext₃.trans (hext₄.trans hext₅))
      have hp : D.Admits h₅ (.pointer p) := (htarget p rfl).mono hext₅
      refine (Respects.attempt (result_address? hsource₅)).bind ?_
      intro h₆ origin hext₆ horigin
      split
      next q n =>
        refine .updateHeap ?_
        intro h₇ hext₇
        -- The bytes are read from the heap that they are then stored in.
        have hext : h₅.Extends h₇ := hext₆.trans hext₇
        refine result_bind
          (result_readBytes ((horigin q rfl).mono hext) n) ?_
        intro bytes _
        exact result_writeBytes (hp.mono hext) bytes
      next =>
        refine .updateHeap ?_
        intro h₇ hext₇
        exact result_forget (hp.mono (hext₆.trans hext₇)) _

private theorem obeys_initBlock : Obeys s D h Step.initBlock := by
  refine Respects.pop.bind ?_
  intro h₁ size _ hsize
  refine Respects.pop.bind ?_
  intro h₂ v hext₂ _
  refine Respects.pop.bind ?_
  intro h₃ destination hext₃ hdestination
  have hsize₃ : D.Admits h₃ size := hsize.mono (hext₂.trans hext₃)
  refine (Respects.attempt (result_size? hsize₃)).bind ?_
  intro h₄ count hext₄ _
  refine (Respects.attempt (result_address? (hdestination.mono hext₄))).bind ?_
  intro h₅ target hext₅ htarget
  split
  next => exact .pure fun _ _ => trivial
  next p n =>
    refine .updateHeap ?_
    intro h₆ hext₆
    exact result_fill ((htarget p rfl).mono (hext₅.trans hext₆)) n _
  next p =>
    refine .updateHeap ?_
    intro h₆ hext₆
    exact result_forget ((htarget p rfl).mono (hext₅.trans hext₆)) none

/-! ## Arrays -/

private theorem respects_array {handle : Handle} (hentry : D.entry h handle) :
    Respects s D h (Step.array handle) fun h a =>
      h.HasLayout handle (.array a) ∧ D.AdmitsObject h (.array a) := by
  refine (Respects.getObject hentry).bind ?_
  intro h₁ o _ ho
  cases o with
  | array a => exact .pure fun h₂ hext₂ => ⟨ho.1.mono hext₂, ho.2.mono hext₂⟩
  | object | string | boxed | memory =>
      exact .throw (Fault.ordinary_invalidProgram rfl (by decide))

/-- The array that an element was found in is in the heap, though perhaps with other elements. -/
def FindsArray (D : Discipline s.width) (h : Heap) :
    Option (Handle × ArrayState × Option Nat) → Prop
  | none => True
  | some (handle, a, _) => h.HasLayout handle (.array a) ∧ D.AdmitsObject h (.array a)

private theorem respects_element {array index : Value} (harray : D.Admits h array)
    (hindex : D.Admits h index) :
    Respects s D h (Step.element array index) (FindsArray D) := by
  refine (Respects.attempt (result_array? harray)).bind ?_
  intro h₁ named hext₁ hnamed
  cases named with
  | none => exact .pure fun _ _ => trivial
  | some handle =>
      refine (respects_array (D.entry_mono hext₁ (hnamed handle rfl))).bind ?_
      intro h₂ a hext₂ ha
      refine (Respects.attempt
        (result_index? (hindex.mono (hext₁.trans hext₂)))).bind ?_
      intro h₃ place hext₃ _
      -- Whether or not the place is known, the array is the one that was found.
      have hfound : ∀ place h₄, h₃.Extends h₄ → FindsArray D h₄ (some (handle, a, place)) :=
        fun place h₄ hext₄ => ⟨ha.1.mono (hext₃.trans hext₄), ha.2.mono (hext₃.trans hext₄)⟩
      cases place with
      | none => exact .pure (hfound none)
      | some n =>
          dsimp only
          split
          · exact .pure (hfound (some n.toNat))
          · exact .throw fun _ => ⟨nofun, nofun⟩

private theorem obeys_newArray : Obeys s D h (s.newArray i) := by
  refine Respects.operand.bind ?_
  intro h₁ element _ _
  refine Respects.pop.bind ?_
  intro h₂ length _ hlength
  refine (Respects.attempt (result_index? hlength)).bind ?_
  intro h₃ count _ hcount
  cases count with
  | none => exact .push trivial
  | some n =>
      dsimp only
      split
      · exact .throw fun _ => ⟨nofun, nofun⟩
      next hnonneg =>
        split
        · -- The length is the index that was popped, which is why an index has to be a native
          -- integer that may occur.
          have harray : D.AdmitsObject h₃ (.array (.ofLength s.width element n.toNat)) := by
            refine ⟨?_, ?_⟩
            · intro v hv
              rw [(Array.mem_replicate.mp hv).2]
              exact admits_defaultOf element
            · intro a ha
              cases ha
              change D.native (.ofNat 64 (Array.replicate n.toNat _).size)
              rw [Array.size_replicate]
              exact hcount n rfl (not_lt.mp hnonneg)
          exact (Respects.allocate harray).bind fun _ _ _ hhandle => .push hhandle
        · exact .push trivial

private theorem obeys_arrayLength : Obeys s D h s.arrayLength := by
  refine Respects.pop.bind ?_
  intro h₁ v _ hv
  refine (Respects.attempt (result_array? hv)).bind ?_
  intro h₂ named hext₂ hnamed
  cases named with
  | none => exact .push native_unknown
  | some handle =>
      refine (respects_array (D.entry_mono hext₂ (hnamed handle rfl))).bind ?_
      intro h₃ a _ ha
      exact .push (ha.2.length a rfl)

private theorem admits_elementValue (type : Option TypeSig) {a : ArrayState}
    (ha : D.AdmitsObject h (.array a)) (place : Option Nat) :
    D.Admits h (s.elementValue type a place) := by
  unfold Setting.elementValue
  dsimp only
  split
  next v hv =>
    obtain ⟨n, -, hn⟩ := Option.bind_eq_some_iff.mp hv
    have hmem : v ∈ a.elements := Array.mem_of_getElem? hn
    exact (ha.values v hmem).coerce _
  next => exact admits_unknownOf _

private theorem obeys_loadElement (type : Option TypeSig) : Obeys s D h (s.loadElement i type) := by
  refine Respects.pop.bind ?_
  intro h₁ index _ hindex
  refine Respects.pop.bind ?_
  intro h₂ array hext₂ harray
  refine (respects_element harray (hindex.mono hext₂)).bind ?_
  intro h₃ found _ hfound
  rcases found with _ | ⟨handle, a, place⟩
  · exact .push (admits_unknownOf _)
  · exact .push (admits_elementValue type hfound.2 place)

private theorem admitsObject_forget {a : ArrayState} (ha : D.AdmitsObject h (.array a)) :
    D.AdmitsObject h (.array (a.forget s.width)) := by
  refine ⟨?_, ?_⟩
  · intro v hv
    rw [(Array.mem_replicate.mp hv).2]
    exact admits_unknownOf _
  · intro a' ha'
    cases ha'
    change D.native (.ofNat 64 (Array.replicate a.elements.size _).size)
    rw [Array.size_replicate]
    exact ha.length a rfl

private theorem result_set {a : ArrayState} (ha : D.AdmitsObject h (.array a)) (n : Nat) {v : Value}
    (hv : D.Admits h v) :
    D.Result (fun a' => HeapObject.SameLayout (.array a) (.array a') ∧ D.AdmitsObject h (.array a'))
      ((a.set n v).mapError Fault.ofError) := by
  unfold ArrayState.set
  split
  · refine ⟨.array rfl Array.size_setIfInBounds.symm, ?_, ?_⟩
    · intro u hu
      rcases Array.mem_or_eq_of_mem_setIfInBounds hu with hold | rfl
      · exact ha.values u hold
      · exact hv
    · intro a' ha'
      cases ha'
      rw [Array.size_setIfInBounds]
      exact ha.length a rfl
  · exact .throw (Fault.ordinary_invalidProgram rfl (by decide))

private theorem obeys_setElement {array index : Value} (harray : D.Admits h array)
    (hindex : D.Admits h index) {v : TypeSig → Value} (hv : ∀ type, D.Admits h (v type)) :
    Obeys s D h (s.setElement array index v) := by
  refine (respects_element harray hindex).bind ?_
  intro h₁ found hext₁ hfound
  rcases found with _ | ⟨handle, a, place⟩
  · exact .pure fun _ _ => trivial
  · obtain ⟨hlayout, ha⟩ := hfound
    cases place with
    | none =>
        -- An unknown place may be any: all elements are forgotten, and their number stays.
        have hsame : HeapObject.SameLayout (.array a) (.array (a.forget s.width)) :=
          .array rfl Array.size_replicate.symm
        exact .setObject hlayout hsame (admitsObject_forget ha)
    | some n =>
        refine (Respects.attempt (result_set ha n ((hv a.element).mono hext₁))).bind ?_
        rintro h₂ a' hext₂ ⟨hsame, ha'⟩
        exact .setObject (hlayout.mono hext₂) hsame (ha'.mono hext₂)

private theorem obeys_storeElement : Obeys s D h s.storeElement := by
  refine Respects.pop.bind ?_
  intro h₁ v _ hv
  refine Respects.pop.bind ?_
  intro h₂ index hext₂ hindex
  refine Respects.pop.bind ?_
  intro h₃ array hext₃ harray
  have hv₃ : D.Admits h₃ v := hv.mono (hext₂.trans hext₃)
  exact obeys_setElement harray (hindex.mono hext₃) fun type => hv₃.coerce type

private theorem obeys_loadElementAddress : Obeys s D h s.loadElementAddress := by
  refine Respects.pop.bind ?_
  intro h₁ index _ hindex
  refine Respects.pop.bind ?_
  intro h₂ array hext₂ harray
  refine (obeys_setElement harray (hindex.mono hext₂) ?_).bind ?_
  · exact fun type => admits_unknownOf type
  · exact fun _ _ _ _ => obeys_pushUnknownAddress

/-! ## Calls -/

private theorem respects_popArguments (signature : MethodSignature) :
    Respects s D h (s.popArguments signature) fun h vs => ∀ v ∈ vs, D.Admits h v := by
  refine (Respects.popMany _).bind ?_
  intro h₁ values _ hvalues
  rw [List.splitAt_eq]
  refine .pure ?_
  intro h₂ hext₂ v hv
  -- The receiver is passed on as it is, the arguments as values of their types.
  rcases List.mem_append.mp hv with hobject | hrest
  · exact (hvalues v (List.mem_of_mem_take hobject)).mono hext₂
  · obtain ⟨n, hn, rfl⟩ := List.getElem_of_mem hrest
    rw [List.getElem_zipWith]
    have hmem := List.mem_of_mem_drop (List.getElem_mem (List.lt_length_left_of_zipWith hn))
    exact ((hvalues _ hmem).mono hext₂).coerce _

private theorem obeys_pushResult (signature : MethodSignature) {result : Option Value}
    (hresult : ∀ v, result = some v → D.Admits h v) :
    Obeys s D h (s.pushResult signature result) := by
  unfold Setting.pushResult
  split
  · cases result with
    | none => exact .push (admits_unknownOf _)
    | some v => exact .push ((hresult v rfl).coerce _)
  · exact .pure fun _ _ => trivial

private theorem obeys_pushUnknownResult (signature : MethodSignature) :
    Obeys s D h (s.pushResult signature none) :=
  obeys_pushResult signature fun _ hnone => absurd hnone.symm (Option.some_ne_none _)

private theorem obeys_receiverType? {arguments : List Value}
    (hargs : ∀ v ∈ arguments, D.Admits h v) : Obeys s D h (receiverType? arguments) := by
  cases arguments with
  | nil => exact .pure fun _ _ => trivial
  | cons v rest =>
      refine (Respects.attempt (result_receiver? (hargs v List.mem_cons_self))).bind ?_
      intro h₁ named hext₁ hnamed
      cases named with
      | none => exact .pure fun _ _ => trivial
      | some handle =>
          refine .askHeap ?_
          intro m _ hext
          have hentry : D.entry m.heap handle := D.entry_mono (hext₁.trans hext) (hnamed handle rfl)
          rw [map_eq_pure_bind]
          exact result_bind (result_type hentry) fun _ _ => trivial

variable (henv : s.environment = {})

include henv

private theorem respects_invoke (method : MethodRef) (arguments : List Value) :
    Respects s D h (s.invoke method arguments) fun h result =>
      ∀ v, result = some v → D.Admits h v := by
  refine (Respects.note _).bind ?_
  intro h₁ _ _ _
  rw [henv]
  refine .pure ?_
  intro h₂ _ v hv
  unfold MethodSignature.unknownResult? at hv
  split at hv
  · obtain rfl := Option.some.inj hv
    exact admits_unknownOf _
  · exact absurd hv.symm (Option.some_ne_none _)

private theorem obeys_call (virtual : Bool) : Obeys s D h (s.call i virtual) := by
  refine Respects.operand.bind ?_
  intro h₁ method _ _
  refine (respects_popArguments method.signature).bind ?_
  intro h₂ arguments _ hargs
  have hinvoke : ∀ h₃, Obeys s D h₃ (s.invoke method arguments >>= s.pushResult method.signature) :=
    fun h₃ => (respects_invoke henv method arguments).bind fun _ _ _ hresult =>
      obeys_pushResult _ hresult
  cases virtual with
  | false => exact fun m => hinvoke h₂ m
  | true =>
      simp only [if_true, Setting.resolve, bind_assoc, pure_bind, henv]
      refine (obeys_receiverType? hargs).bind ?_
      intro h₃ receiver _ _
      refine (Respects.note _).bind ?_
      intro h₄ _ _ _
      -- A virtual method of an unknown receiver is not resolved, and its result is unknown.
      by_cases hopen : receiver.isNone && method.isVirtual
      · simp only [hopen, if_true]
        exact obeys_pushUnknownResult _
      · simp only [hopen, Bool.false_eq_true, if_false]
        exact hinvoke h₄

omit henv in
private theorem obeys_callIndirect : Obeys s D h (s.callIndirect i) := by
  refine Respects.operand.bind ?_
  intro h₁ signature _ _
  refine Respects.pop.bind ?_
  intro h₂ _ _ _
  refine (respects_popArguments signature).bind ?_
  intro h₃ _ _ _
  exact obeys_pushUnknownResult signature

private theorem obeys_jump : Obeys s D h (s.jump i) := by
  refine Respects.operand.bind ?_
  intro h₁ method _ _
  refine .get_bind ?_
  intro m _ _
  refine (respects_invoke henv method _).bind ?_
  intro h₂ result _ hresult
  have hreturned : D.Admits h₂ (result.getD (.unknownOf s.width method.signature.returnType)) := by
    cases result with
    | none => exact admits_unknownOf _
    | some v => exact hresult v rfl
  dsimp only
  split
  · exact (Respects.setReturned hreturned).bind fun _ _ _ _ => .pure fun _ _ => trivial
  · exact .pure fun _ _ => trivial

private theorem obeys_newObject : Obeys s D h (s.newObject i) := by
  refine Respects.operand.bind ?_
  intro h₁ method _ _
  refine (respects_popArguments _).bind ?_
  intro h₂ arguments _ _
  have hobject : D.AdmitsObject h₂ (.object ⟨method.declaringType.instanceType, .empty⟩) :=
    ⟨fun key v hv => absurd hv.symm (Option.some_ne_none _), nofun⟩
  refine (Respects.allocate hobject).bind ?_
  intro h₃ handle _ hhandle
  refine (respects_invoke henv method _).bind ?_
  intro h₄ result hext₄ hresult
  cases result with
  | none => exact .push (D.entry_mono hext₄ hhandle)
  | some v => exact .push (hresult v rfl)

omit henv

/-! ## Fields -/

private theorem respects_popOwner (ofObject : Bool) :
    Respects s D h (popOwner ofObject) fun h owner => ∀ v, owner = some v → D.Admits h v := by
  cases ofObject with
  | false => exact .pure fun _ _ _ hv => absurd hv.symm (Option.some_ne_none _)
  | true =>
      unfold popOwner
      simp only [if_true, map_eq_pure_bind]
      refine Respects.pop.bind ?_
      intro h₁ v _ hv
      refine .pure ?_
      intro h₂ hext₂ u hu
      obtain rfl := Option.some.inj hu
      exact hv.mono hext₂

/-- The object that a field was found in is in the heap, though perhaps with other fields. -/
def FindsOwner (D : Discipline s.width) (h : Heap) : Option (Handle × ObjectState) → Prop
  | none => True
  | some (handle, o) => h.HasLayout handle (.object o) ∧ D.AdmitsObject h (.object o)

private theorem respects_owner? {owner : Option Value}
    (howner : ∀ v, owner = some v → D.Admits h v) :
    Respects s D h (owner? owner) (FindsOwner D) := by
  cases owner with
  | none => exact .pure fun _ _ => trivial
  | some v =>
      refine (Respects.attempt (result_receiver? (howner v rfl))).bind ?_
      intro h₁ named hext₁ hnamed
      cases named with
      | none => exact .pure fun _ _ => trivial
      | some handle =>
          refine (Respects.getObject (D.entry_mono hext₁ (hnamed handle rfl))).bind ?_
          intro h₂ o _ ho
          cases o with
          | object o => exact .pure fun h₃ hext₃ => ⟨ho.1.mono hext₃, ho.2.mono hext₃⟩
          | array | string | boxed | memory => exact .pure fun _ _ => trivial

include henv in
private theorem respects_loadStatic (field : FieldRef) :
    Respects s D h (s.loadStatic field) D.Admits := by
  refine .get_bind ?_
  intro m hm _
  cases hstatic : m.statics.get? field.token.key with
  | some v =>
      exact .pure fun h₁ hext₁ => (hm.values.statics _ v hstatic).mono hext₁
  | none =>
      -- A static field that was never stored in has the value that the environment gives it.
      have hinitial : ∀ h, D.Admits h (s.environment.initialStatic s.width field) := by
        intro h
        rw [henv]
        exact admits_unknownOf field.fieldType
      refine (Respects.note _).bind ?_
      intro h₁ _ _ _
      refine (Respects.setStatic field (hinitial h₁)).bind ?_
      intro h₂ _ _ _
      exact .pure fun h₃ _ => hinitial h₃

include henv in
private theorem obeys_loadField (ofObject : Bool) : Obeys s D h (s.loadField i ofObject) := by
  refine Respects.operand.bind ?_
  intro h₁ field _ _
  refine (respects_popOwner ofObject).bind ?_
  intro h₂ owner _ howner
  split
  · refine (respects_loadStatic henv field).bind ?_
    intro h₃ v _ hv
    exact .push hv
  · refine (respects_owner? howner).bind ?_
    intro h₃ found _ hfound
    rcases found with _ | ⟨handle, o⟩
    · exact .push (admits_unknownOf _)
    · refine .push ?_
      unfold ObjectState.field
      cases hfield : o.fields.get? field.token.key with
      | none => exact admits_unknownOf _
      | some v => exact hfound.2.values _ v hfield

private theorem obeys_setField (field : FieldRef) {owner : Option Value} {v : Value}
    (howner : ∀ u, owner = some u → D.Admits h u) (hv : D.Admits h v) :
    Obeys s D h (setField field owner v) := by
  refine (respects_owner? howner).bind ?_
  intro h₁ found hext₁ hfound
  rcases found with _ | ⟨handle, o⟩
  · exact .pure fun _ _ => trivial
  · obtain ⟨hlayout, ho⟩ := hfound
    refine .setObject hlayout (.object rfl) ⟨?_, nofun⟩
    intro key u hu
    rw [ObjectState.setField, SortedMap.get?_insert] at hu
    split at hu
    · obtain rfl := Option.some.inj hu
      exact hv.mono hext₁
    · exact ho.values key u hu

private theorem obeys_storeField (ofObject : Bool) : Obeys s D h (s.storeField i ofObject) := by
  refine Respects.operand.bind ?_
  intro h₁ field _ _
  refine Respects.pop.bind ?_
  intro h₂ v _ hv
  refine (respects_popOwner ofObject).bind ?_
  intro h₃ owner hext₃ howner
  have hstored : D.Admits h₃ (v.coerce s.width field.fieldType) := (hv.mono hext₃).coerce _
  split
  · exact .setStatic field hstored
  · exact obeys_setField field howner hstored

private theorem obeys_loadFieldAddress (ofObject : Bool) :
    Obeys s D h (s.loadFieldAddress i ofObject) := by
  refine Respects.operand.bind ?_
  intro h₁ field _ _
  refine (respects_popOwner ofObject).bind ?_
  intro h₂ owner _ howner
  have hunknown : D.Admits h₂ (.unknownOf s.width field.fieldType) := admits_unknownOf _
  split
  · exact (Respects.setStatic field hunknown).bind fun _ _ _ _ => obeys_pushUnknownAddress
  · exact (obeys_setField field howner hunknown).bind fun _ _ _ _ => obeys_pushUnknownAddress

/-! ## Casts, boxes and tokens -/

private theorem obeys_isInstance (type target : TypeSig) : Obeys s D h (s.isInstance type target) :=
  (Respects.note _).bind fun _ _ _ _ => .pure fun _ _ => trivial

private theorem obeys_refersToInstance {r : Reference} (hr : D.Admits h (.object r))
    (target : TypeSig) : Obeys s D h (s.refersToInstance r target) := by
  cases r with
  | null | unknown => exact .pure fun _ _ => trivial
  | known handle =>
      have htype : Obeys s D h (askHeap fun h => h.type handle) :=
        .askHeap fun m _ hext => result_type (D.entry_mono hext hr)
      exact htype.bind fun _ type _ _ => obeys_isInstance type target

private theorem obeys_cast (orFault : Bool) : Obeys s D h (s.cast i orFault) := by
  refine Respects.operand.bind ?_
  intro h₁ target _ _
  refine Respects.pop.bind ?_
  intro h₂ v _ hv
  refine (Respects.attempt (result_reference hv)).bind ?_
  intro h₃ r hext₃ hr
  have hr₃ : D.Admits h₃ (.object r) := hr.mono hext₃
  refine (obeys_refersToInstance hr₃ target).bind ?_
  intro h₄ verdict hext₄ _
  have hr₄ : D.Admits h₄ (.object r) := hr₃.mono hext₄
  split
  · exact .push hr₄
  · exact .push hr₄
  · split
    · exact .throw fun _ => ⟨nofun, nofun⟩
    · exact .push trivial
  · refine .push ?_
    split
    · exact hr₄
    · trivial

private theorem obeys_box : Obeys s D h (s.box i) := by
  refine Respects.operand.bind ?_
  intro h₁ type _ _
  refine Respects.pop.bind ?_
  intro h₂ v _ hv
  split
  · have hboxed : D.AdmitsObject h₂ (.boxed type (v.coerce s.width type)) := ⟨hv.coerce type, nofun⟩
    exact (Respects.allocate hboxed).bind fun _ _ _ hhandle => .push hhandle
  · exact .push hv

private theorem respects_boxedValue {r : Reference} (hr : D.Admits h (.object r)) (type : TypeSig) :
    Respects s D h (s.boxedValue r type) D.Admits := by
  cases r with
  | null | unknown => exact .pure fun _ _ => admits_unknownOf type
  | known handle =>
      refine (Respects.getObject hr).bind ?_
      intro h₁ o _ ho
      cases o with
      | boxed boxed v =>
          refine (obeys_isInstance boxed type).bind ?_
          intro h₂ verdict hext₂ _
          split
          · exact .throw fun _ => ⟨nofun, nofun⟩
          · exact .pure fun h₃ hext₃ =>
              Discipline.Admits.coerce (ho.2.mono (hext₂.trans hext₃)).values type
      | object | array | string | memory => exact .pure fun _ _ => admits_unknownOf type

private theorem obeys_unbox (toValue : Bool) : Obeys s D h (s.unbox i toValue) := by
  refine Respects.operand.bind ?_
  intro h₁ type _ _
  refine Respects.pop.bind ?_
  intro h₂ v _ hv
  refine (Respects.attempt (result_reference hv)).bind ?_
  intro h₃ r hext₃ hr
  have hr₃ : D.Admits h₃ (.object r) := hr.mono hext₃
  split
  · refine (obeys_refersToInstance hr₃ type).bind ?_
    intro h₄ verdict hext₄ _
    split
    · exact .throw fun _ => ⟨nofun, nofun⟩
    · exact .push (hr₃.mono hext₄)
  · -- A boxed value is read from the heap; a pointer to it is not followed.
    by_cases hnull : r = .null
    · simp only [hnull, if_true]
      exact .throw (show Fault.Ordinary .nullReference from fun _ => ⟨nofun, nofun⟩)
    · simp only [hnull, if_false]
      split
      · refine (respects_boxedValue hr₃ type).bind ?_
        intro h₄ u _ hu
        exact .push hu
      · exact obeys_pushUnknownAddress

private theorem obeys_sizeOf : Obeys s D h (s.sizeOf i) := by
  refine Respects.operand.bind ?_
  intro h₁ type _ _
  split
  · exact .push trivial
  · exact .push trivial

private theorem obeys_loadFunction (virtual : Bool) : Obeys s D h (s.loadFunction i virtual) := by
  refine Respects.operand.bind ?_
  intro h₁ method _ _
  cases virtual with
  | false => exact .push native_unknown
  | true =>
      refine Respects.pop.bind ?_
      intro h₂ v _ hv
      refine (Respects.attempt (result_receiver? hv)).bind ?_
      intro h₃ _ _ _
      exact .push native_unknown

private theorem obeys_typedReference (toAddress : Bool) :
    Obeys s D h (s.typedReference toAddress) := by
  refine Respects.pop.bind ?_
  intro h₁ _ _ _
  split
  · exact obeys_pushUnknownAddress
  · exact .push trivial

/-! ## All operations -/

private theorem obeys_thenNext {step : Step Unit} (hstep : Obeys s D h step) :
    Obeys s D h (thenNext step) := hstep.bind fun _ _ _ _ => .pure fun _ _ => trivial

include henv in
/-- Every operation respects every discipline that lets it store in the variable it names. -/
theorem perform_obeys {o : Operation} (hslot : o.setsVariable = true → ∀ slot,
    i.slot? = some slot → D.stored slot) : Obeys s D h (s.perform i o) := by
  cases o with
  | nop => exact .pure fun _ _ => trivial
  | dup => exact obeys_thenNext (Respects.peek.bind fun _ _ _ hv => .push hv)
  | pop => exact obeys_thenNext (Respects.pop.bind fun _ _ _ _ => .pure fun _ _ => trivial)
  | loadNull => exact obeys_thenNext (.push trivial)
  | argumentList => exact obeys_thenNext (.push native_unknown)
  | loadInt32 | loadInt64 | loadFloat | loadToken =>
      exact obeys_thenNext (Respects.operand.bind fun _ _ _ _ => .push trivial)
  | loadString => exact obeys_thenNext obeys_loadString
  | loadVariable => exact obeys_thenNext obeys_loadVariable
  | storeVariable => exact obeys_thenNext (obeys_storeVariable (hslot rfl))
  | loadVariableAddress => exact obeys_thenNext (obeys_loadVariableAddress (hslot rfl))
  | binary op =>
      exact obeys_thenNext (obeys_onTopTwo fun _ _ _ hlhs hrhs =>
        result_operator op i.opcode hlhs hrhs)
  | shift shift =>
      exact obeys_thenNext (obeys_onTopTwo fun _ lhs rhs _ _ =>
        result_shift shift i.opcode lhs rhs)
  | negate => exact obeys_thenNext (obeys_onTop fun _ v _ => result_negate i.opcode v)
  | complement =>
      exact obeys_thenNext (obeys_onTop fun _ _ hv => result_complement i.opcode hv)
  | compare c unsigned => exact obeys_thenNext (obeys_compareTopTwo c unsigned)
  | convertInteger target check =>
      exact obeys_thenNext (obeys_onTop fun _ _ hv =>
        result_toIntegerTarget i.opcode target check hv)
  | convertFloat target =>
      exact obeys_thenNext (obeys_onTop fun _ v _ =>
        result_toFloatTarget i.opcode target v)
  | checkFinite => exact obeys_thenNext obeys_checkFinite
  | branch => exact Respects.operand.bind fun _ _ _ _ => .pure fun _ _ => trivial
  | leave =>
      exact Respects.operand.bind fun _ _ _ _ =>
        Respects.clearStack.bind fun _ _ _ _ => .pure fun _ _ => trivial
  | endFinally => exact Respects.clearStack.bind fun _ _ _ _ => .pure fun _ _ => trivial
  | branchOnValue whenZero => exact Respects.pop.bind fun _ _ _ _ => obeys_branchIf _
  | branchOnComparison c unsigned whenHolds =>
      exact obeys_branchOnComparison c unsigned whenHolds
  | switch => exact obeys_switch
  | ret => exact obeys_ret
  | throws again => exact obeys_throws again
  | endFilter => exact Respects.pop.bind fun _ _ _ _ => .pure fun _ _ => trivial
  | loadIndirect type => exact obeys_thenNext (obeys_loadIndirect type)
  | storeIndirect type => exact obeys_thenNext (obeys_storeIndirect type)
  | localAlloc => exact obeys_thenNext obeys_localAlloc
  | copyBlock => exact obeys_thenNext obeys_copyBlock
  | initBlock => exact obeys_thenNext obeys_initBlock
  | newArray => exact obeys_thenNext obeys_newArray
  | arrayLength => exact obeys_thenNext obeys_arrayLength
  | loadElement type => exact obeys_thenNext (obeys_loadElement type)
  | storeElement => exact obeys_thenNext obeys_storeElement
  | loadElementAddress => exact obeys_thenNext obeys_loadElementAddress
  | call virtual => exact obeys_thenNext (obeys_call henv virtual)
  | callIndirect => exact obeys_thenNext obeys_callIndirect
  | jump => exact obeys_jump henv
  | newObject => exact obeys_thenNext (obeys_newObject henv)
  | loadField ofObject => exact obeys_thenNext (obeys_loadField henv ofObject)
  | storeField ofObject => exact obeys_thenNext (obeys_storeField ofObject)
  | loadFieldAddress ofObject => exact obeys_thenNext (obeys_loadFieldAddress ofObject)
  | cast orFault => exact obeys_thenNext (obeys_cast orFault)
  | box => exact obeys_thenNext obeys_box
  | unbox toValue => exact obeys_thenNext (obeys_unbox toValue)
  | moveObject move => exact obeys_thenNext (obeys_moveObject move)
  | sizeOf => exact obeys_thenNext obeys_sizeOf
  | loadFunction virtual => exact obeys_thenNext (obeys_loadFunction virtual)
  | typedReference toAddress => exact obeys_thenNext (obeys_typedReference toAddress)

end Setting

/-! ## Runs of an interpreter -/

namespace Interpreter

/-- The state before the first instruction of a method, with values stored in some arguments. -/
def startWith (p : Interpreter) (b : MethodBody) (arguments : List (Nat × Value)) : Machine :=
  arguments.foldl (fun m a => (((p.setting b).setVariable (.arg a.1) a.2).run m).2) (p.start b)

/-- The state after some instructions, each executed in the state that the one before it left,
whether that one succeeded or faulted. -/
def after (p : Interpreter) (s : Setting) (instructions : List Instruction) (m : Machine) :
    Machine :=
  instructions.foldl (fun m i => ((p.dispatch s i).run m).2) m

end Interpreter

namespace Discipline

variable {s : Setting} {D : Discipline s.width} {m : Machine}

/-- A method starts with an empty heap and values of the types of its variables. -/
theorem obeyed_start {b : MethodBody} (hframe : D.frame (Machine.start s b).frame) :
    D.Obeyed s (.start s b) where
  values :=
    { stack := fun _ hv => absurd hv List.not_mem_nil
      locals := by
        intro cell hcell
        obtain ⟨type, -, rfl⟩ := List.mem_map.mp hcell
        change D.Admits _ (if s.initLocals then _ else _)
        split
        · exact admits_defaultOf type
        · exact admits_unknownOf type
      arguments := by
        intro cell hcell
        obtain ⟨type, -, rfl⟩ := List.mem_map.mp hcell
        exact admits_unknownOf type
      statics := fun _ _ hv => absurd hv.symm (Option.some_ne_none _)
      returned := fun _ hv => absurd hv.symm (Option.some_ne_none _)
      exception := fun _ hv => absurd hv.symm (Option.some_ne_none _)
      heap := fun _ _ ho => absurd ho.symm (Option.some_ne_none _) }
  lengths := fun _ _ ha => absurd ha.symm (Option.some_ne_none _)
  frame := hframe
  depth := Nat.zero_le _

/-- One instruction. -/
theorem Obeyed.execute (hm : D.Obeyed s m) (henv : s.environment = {}) {i : Instruction}
    (hslot : ∀ slot, i.Sets slot → D.stored slot) :
    D.Obeyed s ((s.execute i).run m).2 ∧ m.heap.Extends ((s.execute i).run m).2.heap ∧
      D.Result (fun _ => True) ((s.execute i).run m).1 :=
  Setting.perform_obeys henv (fun hsets slot hnamed => hslot slot ⟨hsets, hnamed⟩) m hm (.refl _)

/-- Any number of instructions. -/
theorem Obeyed.after (hm : D.Obeyed s m) (henv : s.environment = {}) (options : Options)
    (instructions : List Instruction) (hslot : ∀ slot, D.stored slot) :
    D.Obeyed s (({ options } : Interpreter).after s instructions m) ∧
      m.heap.Extends (({ options } : Interpreter).after s instructions m).heap := by
  induction instructions generalizing m with
  | nil => exact ⟨hm, .refl _⟩
  | cons i rest ih =>
      unfold Interpreter.after
      rw [List.foldl_cons, Interpreter.dispatch_eq_execute]
      obtain ⟨hm', hgrown, -⟩ := hm.execute henv (i := i) fun slot _ => hslot slot
      obtain ⟨hm'', hgrown'⟩ := ih hm'
      exact ⟨hm'', hgrown.trans hgrown'⟩

end Discipline

/-- Arguments that meet the discipline whatever the heap may be stored before the first
instruction. -/
theorem Interpreter.obeyed_startWith (p : Interpreter) (b : MethodBody)
    {D : Discipline (p.setting b).width} (hframe : ∀ f, D.frame f) (hslot : ∀ slot, D.stored slot)
    {arguments : List (Nat × Value)} (harguments : ∀ a ∈ arguments, ∀ h, D.Admits h a.2) :
    D.Obeyed (p.setting b) (p.startWith b arguments) := by
  -- The arguments are stored one after the other, each in a state that obeys the discipline.
  have hstored : ∀ m, D.Obeyed (p.setting b) m → D.Obeyed (p.setting b)
      (arguments.foldl (fun m a => (((p.setting b).setVariable (.arg a.1) a.2).run m).2) m) := by
    induction arguments with
    | nil => exact fun _ hm => hm
    | cons a rest ih =>
        intro m hm
        have ha : D.Admits m.heap a.2 := harguments a List.mem_cons_self m.heap
        obtain ⟨hm', -, -⟩ :=
          Setting.obeys_setVariable (hslot (.arg a.1)) ha m hm (.refl _)
        exact ih (fun a' ha' => harguments a' (List.mem_cons_of_mem a ha')) _ hm'
  exact hstored _ (obeyed_start (hframe _))

end CilAnalysis
