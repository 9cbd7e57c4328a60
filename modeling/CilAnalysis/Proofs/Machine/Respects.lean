import CilAnalysis.Proofs.Machine.Discipline
import CilAnalysis.Proofs.Machine.Step
import CilAnalysis.Proofs.SortedMap

/-!
# Steps that respect a discipline

A state obeys a discipline if all its values meet it.  `Step.Respects` says of a step that it goes
from states that obey a discipline to states that obey it, whether it succeeds or faults, and that
the heap only grows on the way.

## The judgement

What is known of values that were taken from the state refers to the heap of that moment: a
reference is admitted because of what its handle denotes there.  So the judgement
`Respects s D h x Q` has the heap `h` of which something is known as a parameter and speaks of all
states whose heap extends it; `Respects.bind` hands what is known on to every later heap.  This is
sound because nothing is ever taken out of a heap: an allocation appends, and a store keeps the
layout of what it changes (`Heap.Extends`, `HeapObject.SameLayout`).

There is one rule for each way a step can touch the state.

* The stack: `pop`, `popMany` and `peek` yield admitted values, `push` asks for one and keeps to the
  limit of the stack.
* Variables and static fields: `cell`, `setCell` and `setStatic`.
* The heap: `getObject` tells what is behind a reference, `setObject` replaces it by something of
  the same layout, `updateHeap` stores bytes in a block, and `allocate` and `allocateBlock` yield
  handles that may occur from then on.
-/

namespace CilAnalysis

/-! ## Every value of a state -/

namespace HeapObject

/-- Every value that is stored in an object has a property. -/
def All (P : Value → Prop) : HeapObject → Prop
  | .object o => ∀ key v, o.fields.get? key = some v → P v
  | .array a => ∀ v ∈ a.elements, P v
  | .boxed _ v => P v
  | .string _ | .memory _ => True

theorem All.imp {P Q : Value → Prop} {o : HeapObject} (ho : o.All P) (h : ∀ v, P v → Q v) :
    o.All Q := by
  cases o with
  | object o => exact fun key v hv => h v (ho key v hv)
  | array a => exact fun v hv => h v (ho v hv)
  | boxed type v => exact h v ho
  | string | memory => trivial

end HeapObject

/-- Every value in the state of a method has a property: on the stack, in variables and static
fields, among the outcomes, and in the objects of the heap. -/
structure Machine.All (P : Value → Prop) (m : Machine) : Prop where
  stack : ∀ v ∈ m.stack, P v
  locals : ∀ cell ∈ m.frame.locals, P cell.value
  arguments : ∀ cell ∈ m.frame.arguments, P cell.value
  statics : ∀ key v, m.statics.get? key = some v → P v
  returned : ∀ v, m.returned = some v → P v
  exception : ∀ v, m.exception = some v → P v
  heap : ∀ (i : Nat) (o : HeapObject), m.heap.objects[i]? = some o → o.All P

theorem Machine.All.imp {P Q : Value → Prop} {m : Machine} (hm : m.All P) (h : ∀ v, P v → Q v) :
    m.All Q where
  stack v hv := h v (hm.stack v hv)
  locals cell hcell := h _ (hm.locals cell hcell)
  arguments cell hcell := h _ (hm.arguments cell hcell)
  statics key v hv := h v (hm.statics key v hv)
  returned v hv := h v (hm.returned v hv)
  exception v hv := h v (hm.exception v hv)
  heap i o ho := (hm.heap i o ho).imp h

namespace Discipline

/-! ## Obedience -/

/-- All values of the state meet the discipline, lengths of arrays are native integers that may
occur, the variables hold what they may, and the stack keeps to its limit. -/
structure Obeyed (s : Setting) (D : Discipline s.width) (m : Machine) : Prop where
  values : m.All (D.Admits m.heap)
  lengths : ∀ (i : Nat) (a : ArrayState), m.heap.objects[i]? = some (.array a) →
    D.native (.ofNat 64 a.elements.size)
  frame : D.frame m.frame
  depth : m.stack.length ≤ s.options.maxStackDepth

variable {width : PointerWidth}

/-- The object may stand in the heap. -/
structure AdmitsObject (D : Discipline width) (h : Heap) (o : HeapObject) : Prop where
  values : o.All (D.Admits h)
  length : ∀ a, o = .array a → D.native (.ofNat 64 a.elements.size)

theorem AdmitsObject.mono {D : Discipline width} {h h' : Heap} {o : HeapObject}
    (ho : D.AdmitsObject h o) (hext : h.Extends h') : D.AdmitsObject h' o :=
  ⟨ho.values.imp fun _ hv => hv.mono hext, ho.length⟩

private theorem admitsObject_memory {D : Discipline width} {h : Heap} (b : Block) :
    D.AdmitsObject h (.memory b) := ⟨trivial, nofun⟩

variable {s : Setting} {D : Discipline s.width} {m : Machine}

private theorem Obeyed.admitsObject (hm : D.Obeyed s m) {i : Nat} {o : HeapObject}
    (ho : m.heap.objects[i]? = some o) : D.AdmitsObject m.heap o :=
  ⟨hm.values.heap i o ho, fun a heq => hm.lengths i a (heq ▸ ho)⟩

/-- The heap may be replaced by one that extends it and holds nothing inadmissible. -/
theorem Obeyed.withHeap (hm : D.Obeyed s m) {h : Heap} (hext : m.heap.Extends h)
    (hobjects : ∀ (i : Nat) (o : HeapObject), h.objects[i]? = some o → D.AdmitsObject h o) :
    D.Obeyed s { m with heap := h } := by
  have hvalues : m.All (D.Admits h) := hm.values.imp fun _ hv => hv.mono hext
  exact
    { values := { hvalues with heap := fun i o ho => (hobjects i o ho).values }
      lengths := fun i a ha => (hobjects i _ ha).length a rfl
      frame := hm.frame
      depth := hm.depth }

theorem Obeyed.allocate (hm : D.Obeyed s m) {o : HeapObject} (ho : D.AdmitsObject m.heap o) :
    D.Obeyed s { m with heap := (m.heap.allocate o).2 } := by
  have hext : m.heap.Extends (m.heap.allocate o).2 := .allocate m.heap o
  refine hm.withHeap hext ?_
  intro i o' ho'
  -- An entry of the new heap is the one that was allocated or stood there before.
  rcases Heap.getElem?_allocate ho' with rfl | hold
  · exact ho.mono hext
  · exact (hm.admitsObject hold).mono hext

theorem Obeyed.setObject (hm : D.Obeyed s m) {handle : Handle} {o o' : HeapObject}
    (hold : m.heap.HasLayout handle o) (hlayout : o.SameLayout o')
    (ho' : D.AdmitsObject m.heap o') : D.Obeyed s { m with heap := m.heap.set handle o' } := by
  have hext : m.heap.Extends (m.heap.set handle o') := .set hold hlayout
  refine hm.withHeap hext ?_
  intro i o₁ ho₁
  rcases Heap.getElem?_set ho₁ with ⟨-, rfl⟩ | hkept
  · exact ho'.mono hext
  · exact (hm.admitsObject hkept).mono hext

private theorem Obeyed.storesTo (hm : D.Obeyed s m) {h : Heap} (hstore : m.heap.StoresTo h) :
    D.Obeyed s { m with heap := h } ∧ m.heap.Extends h := by
  rcases hstore with rfl | ⟨handle, b, b', hblock, hsize, rfl⟩
  · exact ⟨hm, .refl _⟩
  · have hold : m.heap.HasLayout handle (.memory b) :=
      ⟨_, Heap.block_eq_ok_iff.mp hblock, .refl _⟩
    have hlayout : HeapObject.SameLayout (.memory b) (.memory b') := .memory hsize
    exact ⟨hm.setObject hold hlayout (admitsObject_memory b'), .set hold hlayout⟩

end Discipline

/-! ## The judgement -/

namespace Step

variable {s : Setting} {D : Discipline s.width} {h : Heap} {α β : Type}
  {Q : Heap → α → Prop} {R : Heap → β → Prop}

/-- From every state that obeys the discipline and whose heap extends `h`, the step goes to such a
state; its result has a property that may refer to the heap it leaves, and its faults are those
that may occur. -/
def Respects (s : Setting) (D : Discipline s.width) (h : Heap) (x : Step α)
    (Q : Heap → α → Prop) : Prop :=
  ∀ m, D.Obeyed s m → h.Extends m.heap →
    D.Obeyed s (x.run m).2 ∧ m.heap.Extends (x.run m).2.heap ∧
      D.Result (Q (x.run m).2.heap) (x.run m).1

/-- A step that respects the discipline, whatever it results in. -/
abbrev Obeys (s : Setting) (D : Discipline s.width) (h : Heap) (x : Step α) : Prop :=
  Respects s D h x fun _ _ => True

namespace Respects

theorem pure {v : α} (hv : ∀ h', h.Extends h' → Q h' v) : Respects s D h (pure v) Q :=
  fun m hm hext => ⟨hm, .refl _, hv m.heap hext⟩

theorem throw {fault : Fault} (hfault : fault.Ordinary) : Respects s D h (throw fault : Step α) Q :=
  fun _ hm _ => ⟨hm, .refl _, D.fault_ordinary hfault⟩

theorem attempt {Q : α → Prop} {r : Except Fault α} (hr : D.Result Q r) :
    Respects s D h (attempt r) fun _ => Q :=
  fun _ hm _ => ⟨hm, .refl _, hr⟩

theorem bind {x : Step α} {f : α → Step β} (hx : Respects s D h x Q)
    (hf : ∀ h' v, h.Extends h' → Q h' v → Respects s D h' (f v) R) :
    Respects s D h (x >>= f) R := by
  intro m hm hext
  obtain ⟨hm', hgrown, hresult⟩ := hx m hm hext
  rw [run_bind]
  revert hm' hgrown hresult
  rcases x.run m with ⟨fault | v, m'⟩
  · intro hm' hgrown hresult
    exact ⟨hm', hgrown, hresult⟩
  · intro hm' hgrown hresult
    -- The rest is run on a heap that extends the first one, so what it needs may refer to that
    -- heap.
    obtain ⟨hm'', hgrown', hresult'⟩ := hf m'.heap v (hext.trans hgrown) hresult m' hm' (.refl _)
    exact ⟨hm'', hgrown.trans hgrown', hresult'⟩

/-- Reading the state tells what its heap is from then on. -/
theorem get_bind {f : Machine → Step β}
    (hf : ∀ m, D.Obeyed s m → h.Extends m.heap → Respects s D m.heap (f m) R) :
    Respects s D h (get >>= f) R :=
  fun m hm hext => hf m hm hext m hm (.refl _)

theorem modify {g : Machine → Machine} (hheap : ∀ m, (g m).heap = m.heap)
    (hg : ∀ m, D.Obeyed s m → h.Extends m.heap → D.Obeyed s (g m)) :
    Obeys s D h (modify g) := by
  intro m hm hext
  refine ⟨hg m hm hext, ?_, trivial⟩
  rw [run_modify, hheap]
  exact .refl _

/-! ### The stack -/

theorem pop : Respects s D h pop D.Admits := by
  intro m hm hext
  cases hstack : m.stack with
  | nil =>
      rw [run_pop_nil hstack]
      exact ⟨hm, .refl _, D.fault_ordinary fun _ => ⟨nofun, nofun⟩⟩
  | cons v rest =>
      rw [run_pop_cons hstack]
      have hvalues : ∀ u ∈ v :: rest, D.Admits m.heap u := hstack ▸ hm.values.stack
      have hdepth : (v :: rest).length ≤ s.options.maxStackDepth := hstack ▸ hm.depth
      refine ⟨⟨{ hm.values with stack := ?_ }, hm.lengths, hm.frame, ?_⟩, .refl _, ?_⟩
      · exact fun u hu => hvalues u (List.mem_cons_of_mem v hu)
      · exact Nat.le_of_succ_le hdepth
      · exact hvalues v List.mem_cons_self

theorem popMany (count : Nat) :
    Respects s D h (popMany count) fun h vs => ∀ v ∈ vs, D.Admits h v := by
  intro m hm hext
  rw [run_popMany]
  by_cases hcount : m.stack.length < count
  · rw [if_pos hcount]
    exact ⟨hm, .refl _, D.fault_ordinary fun _ => ⟨nofun, nofun⟩⟩
  · rw [if_neg hcount]
    refine ⟨⟨{ hm.values with stack := ?_ }, hm.lengths, hm.frame, ?_⟩, .refl _, ?_⟩
    · exact fun v hv => hm.values.stack v (List.mem_of_mem_drop hv)
    · exact ((List.drop_sublist count m.stack).length_le).trans hm.depth
    · exact fun v hv => hm.values.stack v (List.mem_of_mem_take (List.mem_reverse.mp hv))

theorem peek : Respects s D h peek D.Admits := by
  intro m hm hext
  cases hstack : m.stack with
  | nil =>
      rw [run_peek_nil hstack]
      exact ⟨hm, .refl _, D.fault_ordinary fun _ => ⟨nofun, nofun⟩⟩
  | cons v rest =>
      rw [run_peek_cons hstack]
      have hv : v ∈ m.stack := hstack ▸ List.mem_cons_self
      exact ⟨hm, .refl _, hm.values.stack v hv⟩

theorem push {v : Value} (hv : D.Admits h v) : Obeys s D h (s.push v) := by
  intro m hm hext
  rw [run_push]
  dsimp only
  by_cases hlimit : s.options.maxStackDepth ≤ m.stack.length
  · rw [if_pos hlimit]
    exact ⟨hm, .refl _, D.fault_ordinary (Fault.ordinary_invalidProgram rfl (by decide))⟩
  · rw [if_neg hlimit]
    refine ⟨⟨{ hm.values with stack := ?_ }, hm.lengths, hm.frame, ?_⟩, .refl _, trivial⟩
    · intro u hu
      rcases List.mem_cons.mp hu with rfl | hrest
      · exact hv.mono hext
      · exact hm.values.stack u hrest
    · exact not_le.mp hlimit

theorem clearStack : Obeys s D h clearStack :=
  modify (fun _ => rfl) fun _ hm _ =>
    ⟨{ hm.values with stack := fun _ hv => absurd hv List.not_mem_nil }, hm.lengths, hm.frame,
      Nat.zero_le _⟩

/-! ### Variables, static fields and outcomes -/

theorem cell (slot : Variable) : Respects s D h (cell slot) fun h c => D.Admits h c.value := by
  intro m hm hext
  rw [run_cell]
  cases hcell : m.frame.cell? slot with
  | none => exact ⟨hm, .refl _, D.fault_ordinary fun _ => ⟨nofun, nofun⟩⟩
  | some c =>
      refine ⟨hm, .refl _, ?_⟩
      cases slot with
      | loc index => exact hm.values.locals c (List.mem_of_getElem? hcell)
      | arg index => exact hm.values.arguments c (List.mem_of_getElem? hcell)

theorem setCell {slot : Variable} {v : Value} (hslot : D.stored slot) (hv : D.Admits h v) :
    Obeys s D h (setCell slot v) := by
  refine modify (fun _ => rfl) ?_
  intro m hm hext
  have hv' : D.Admits m.heap v := hv.mono hext
  have hframe : D.frame (m.frame.set slot v) := D.frame_set v hslot hm.frame
  -- Storing in one place leaves the others of the same list as they are.
  have hput : ∀ (cells : List Cell) (index : Nat), (∀ c ∈ cells, D.Admits m.heap c.value) →
      ∀ c ∈ cells.modify index fun cell => { cell with value := v }, D.Admits m.heap c.value := by
    intro cells index hcells c hc
    obtain ⟨n, hn, rfl⟩ := List.getElem_of_mem hc
    rw [List.getElem_modify]
    split
    · exact hv'
    · exact hcells _ (List.getElem_mem _)
  cases slot with
  | loc index =>
      exact ⟨{ hm.values with locals := hput _ index hm.values.locals }, hm.lengths, hframe,
        hm.depth⟩
  | arg index =>
      exact ⟨{ hm.values with arguments := hput _ index hm.values.arguments }, hm.lengths, hframe,
        hm.depth⟩

theorem setStatic (field : FieldRef) {v : Value} (hv : D.Admits h v) :
    Obeys s D h (setStatic field v) := by
  refine modify (fun _ => rfl) ?_
  intro m hm hext
  refine ⟨{ hm.values with statics := ?_ }, hm.lengths, hm.frame, hm.depth⟩
  intro key u hu
  rw [SortedMap.get?_insert] at hu
  split at hu
  · obtain rfl := Option.some.inj hu
    exact hv.mono hext
  · exact hm.values.statics key u hu

theorem setReturned {v : Value} (hv : D.Admits h v) : Obeys s D h (setReturned v) := by
  refine modify (fun _ => rfl) ?_
  intro m hm hext
  refine ⟨{ hm.values with returned := ?_ }, hm.lengths, hm.frame, hm.depth⟩
  intro u hu
  obtain rfl := Option.some.inj hu
  exact hv.mono hext

theorem setException {v : Value} (hv : D.Admits h v) : Obeys s D h (setException v) := by
  refine modify (fun _ => rfl) ?_
  intro m hm hext
  refine ⟨{ hm.values with exception := ?_ }, hm.lengths, hm.frame, hm.depth⟩
  intro u hu
  obtain rfl := Option.some.inj hu
  exact hv.mono hext

theorem note (question : Question) : Obeys s D h (note question) :=
  modify (fun _ => rfl) fun _ hm _ => ⟨{ hm.values with }, hm.lengths, hm.frame, hm.depth⟩

theorem operand {i : Instruction} {kind : String} {a : Option α} :
    Respects s D h (operand i kind a) fun _ v => a = some v := by
  cases a with
  | some a => exact pure fun _ _ => rfl
  | none => exact throw fun _ => ⟨nofun, nofun⟩

/-! ### The heap -/

theorem askHeap {f : Heap → Except Error α}
    (hf : ∀ m, D.Obeyed s m → h.Extends m.heap →
      D.Result (Q m.heap) ((f m.heap).mapError Fault.ofError)) :
    Respects s D h (askHeap f) Q :=
  fun m hm hext => ⟨hm, .refl _, hf m hm hext⟩

/-- What is found behind a reference that may occur was admitted there. -/
theorem getObject {handle : Handle} (hentry : D.entry h handle) :
    Respects s D h (Step.askHeap fun h => h.get handle) fun h o =>
      h.HasLayout handle o ∧ D.AdmitsObject h o := by
  refine askHeap ?_
  intro m hm hext
  cases hget : m.heap.get handle with
  | error e => exact D.fault_get (D.entry_mono hext hentry) hget
  | ok o => exact ⟨Heap.hasLayout_of_get hget, hm.admitsObject (Heap.get_eq_ok_iff.mp hget)⟩

theorem updateHeap {f : Heap → Except Error Heap}
    (hf : ∀ h', h.Extends h' → D.Result h'.StoresTo ((f h').mapError Fault.ofError)) :
    Obeys s D h (updateHeap f) := by
  intro m hm hext
  have hupdate := hf m.heap hext
  have hask : (Step.askHeap f).run m = ((f m.heap).mapError Fault.ofError, m) := rfl
  unfold Step.updateHeap
  rw [run_bind, hask]
  cases hresult : (f m.heap).mapError Fault.ofError with
  | error fault =>
      rw [hresult] at hupdate
      exact ⟨hm, .refl _, hupdate⟩
  | ok h' =>
      rw [hresult] at hupdate
      obtain ⟨hm', hgrown⟩ := hm.storesTo hupdate
      exact ⟨hm', hgrown, trivial⟩

theorem setObject {handle : Handle} {o o' : HeapObject} (hold : h.HasLayout handle o)
    (hlayout : o.SameLayout o') (ho' : D.AdmitsObject h o') :
    Obeys s D h (setObject handle o') := by
  intro m hm hext
  have hold' : m.heap.HasLayout handle o := hold.mono hext
  exact ⟨hm.setObject hold' hlayout (ho'.mono hext), .set hold' hlayout, trivial⟩

theorem allocate {o : HeapObject} (ho : D.AdmitsObject h o) :
    Respects s D h (allocate o) D.entry :=
  fun m hm hext => ⟨hm.allocate (ho.mono hext), .allocate m.heap o, D.entry_allocate m.heap o⟩

theorem allocateBlock (b : Block) : Respects s D h (Step.allocate (.memory b)) D.block :=
  fun m hm _ =>
    ⟨hm.allocate (Discipline.admitsObject_memory b), .allocate m.heap _, D.block_allocate m.heap b⟩

end Respects

end Step

end CilAnalysis
