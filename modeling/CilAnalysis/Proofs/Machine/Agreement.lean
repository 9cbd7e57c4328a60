import CilAnalysis.Proofs.Machine.Handles
import CilAnalysis.Proofs.Machine.OperationEffect
import CilAnalysis.Slice.Replay

/-!
# Executing an instruction twice

Many instructions compute a value from their operands alone, so that two executions with the same
operands leave the same value.  The handles of new objects are an exception: they depend on how many
objects there were before, so that references are compared by what they refer to (`Value.Alike`).

`Step.Agree` is the judgement about two executions that both succeed, and `Setting.perform_yields`
says what it comes to for the instructions in question (`Operation.computes`).

## Strategy

The two executions are of one instruction, so they go through the same steps, and `Agree.bind`
follows both at once.

* **Results of computations.**  Arithmetic refuses references.  Two operands that are alike and are
  not refused are the same value, and the result is the same and has no handle
  (`Value.Alike.eq_of_ok`, `Value.Alike.unary`, `Value.Alike.binary`).
* **Comparisons of references.**  Whether two references are equal is decided by their handles.  The
  answer is the same in both states if no reference occurs twice among the operands
  (`Value.DistinctHandles`): then it is that they differ (`Value.Alike.decide`).
* **Allocations.**  A new object has a handle of its own in each heap, and the references are alike
  (`Agree.push_new`).
* **Types.**  A cast leaves its operand whenever it succeeds (`agree_cast`), and of the receiver of
  a call only matters whether it is known at all (`agree_receiverType?`).

`Value.MadeFrom` keeps track of where a reference that is left comes from.
-/

namespace CilAnalysis

open Discipline

/-! ## Values up to handles -/

namespace HeapObject

/-- The text of a string. -/
def text? : HeapObject → Option String
  | .string text => some text
  | _ => none

theorem SameLayout.text?_eq {o o' : HeapObject} (h : SameLayout o o') : o.text? = o'.text? := by
  cases h <;> rfl

end HeapObject

/-- The same value, if it has no handle, or references to the same text or to no text at all. -/
inductive Value.Alike (h h' : Heap) : Value → Value → Prop where
  | same {v : Value} (hv : v.HandleFree) : Alike h h' v v
  | known {handle handle' : Handle} {o o' : HeapObject}
      (ho : h.objects[handle.index]? = some o) (ho' : h'.objects[handle'.index]? = some o')
      (htext : o.text? = o'.text?) :
      Alike h h' (.object (.known handle)) (.object (.known handle'))

theorem Discipline.handleFree_iff {width : PointerWidth} {v : Value} :
    v.HandleFree ↔ (live width).Admits .empty v := by
  refine ⟨fun hv => admits_live_of_handleFree hv .empty, ?_⟩
  cases v with
  | object r =>
      cases r with
      | known handle => exact fun hlt => absurd hlt (Nat.not_lt_zero _)
      | null | unknown => exact fun _ => trivial
  | pointer p =>
      intro hp
      -- A pointer with a base would point into a block of the empty heap.
      by_contra hbase
      obtain ⟨base, hbase⟩ := Option.ne_none_iff_exists'.mp hbase
      obtain ⟨b, hb⟩ := hp base hbase
      exact absurd hb.symm (Option.some_ne_none _)
  | int32 | int64 | nativeInt | float => exact fun _ => trivial

namespace Value

theorem HandleFree.coerce {v : Value} (hv : v.HandleFree) (width : PointerWidth) (type : TypeSig) :
    (v.coerce width type).HandleFree :=
  handleFree_iff.mpr ((handleFree_iff.mp hv).coerce type)

private theorem handleFree_unknownOf (width : PointerWidth) (type : TypeSig) :
    (unknownOf width type).HandleFree :=
  handleFree_iff.mpr (admits_unknownOf type)

/-- References are never converted. -/
theorem coerce_object (width : PointerWidth) (type : TypeSig) (r : Reference) :
    (object r).coerce width type = object r := by
  unfold coerce
  cases type <;> rfl

namespace Alike

variable {h h' : Heap} {v v' : Value}

theorem mono {h₁ h₁' : Heap} (hv : Alike h h' v v') (hext : h.Extends h₁)
    (hext' : h'.Extends h₁') : Alike h₁ h₁' v v' := by
  cases hv with
  | same hv => exact .same hv
  | known ho ho' htext =>
      obtain ⟨o₁, ho₁, hlayout⟩ := hext _ _ ho
      obtain ⟨o₁', ho₁', hlayout'⟩ := hext' _ _ ho'
      refine .known ho₁ ho₁' ?_
      calc o₁.text?
        _ = _ := hlayout.text?_eq.symm
        _ = _ := htext
        _ = o₁'.text? := hlayout'.text?_eq

theorem coerce (hv : Alike h h' v v') (width : PointerWidth) (type : TypeSig) :
    Alike h h' (v.coerce width type) (v'.coerce width type) := by
  cases hv with
  | same hv => exact .same (hv.coerce width type)
  | known ho ho' htext =>
      rw [coerce_object, coerce_object]
      exact .known ho ho' htext

private theorem zipWith_coerce {vs vs' : List Value} (hvs : List.Forall₂ (Alike h h') vs vs')
    (width : PointerWidth) (types : List TypeSig) :
    List.Forall₂ (Alike h h') (vs.zipWith (fun v type => v.coerce width type) types)
      (vs'.zipWith (fun v type => v.coerce width type) types) := by
  induction hvs generalizing types with
  | nil => exact .nil
  | cons hv _ ih =>
      cases types with
      | nil => exact .nil
      | cons type types => exact .cons (hv.coerce width type) (ih types)

/-- What is refused for references is computed from one and the same value. -/
theorem eq_of_ok {α : Type} (hv : Alike h h' v v') {f : Value → Except Fault α} {u : α}
    (hf : ∀ r u, f (.object (.known r)) ≠ .ok u) (hu : f v = .ok u) : v = v' ∧ v.HandleFree := by
  cases hv with
  | same hv => exact ⟨rfl, hv⟩
  | known => exact absurd hu (hf _ u)

/-- Arguments are told apart by what they are, not by their handles. -/
theorem ofValue_eq (hv : Alike h h' v v') (width : PointerWidth) (type : TypeSig) :
    Argument.ofValue width h type v = Argument.ofValue width h' type v' := by
  cases hv with
  | @same v hv =>
      have hfree := hv.coerce width type
      unfold Argument.ofValue
      cases hcoerced : v.coerce width type with
      | object r =>
          rw [hcoerced] at hfree
          cases r with
          | known => exact hfree.elim
          | null | unknown => rfl
      | int32 | int64 | nativeInt | float | pointer => rfl
  | @known handle handle' o o' ho ho' htext =>
      -- Of an object, an argument shows its text or nothing.
      have hstring : ∀ {h : Heap} {handle : Handle} {o : HeapObject},
          h.objects[handle.index]? = some o →
          Argument.ofValue width h type (.object (.known handle)) =
            (o.text?.map Argument.string).getD .unknown := by
        intro h handle o ho
        unfold Argument.ofValue
        rw [coerce_object]
        dsimp only
        rw [Heap.string, Heap.get_eq_ok_iff.mpr ho]
        cases o <;> rfl
      calc Argument.ofValue width h type (.object (.known handle))
        _ = (o.text?.map Argument.string).getD .unknown := hstring ho
        _ = (o'.text?.map Argument.string).getD .unknown := by rw [htext]
        _ = Argument.ofValue width h' type (.object (.known handle')) := (hstring ho').symm

theorem zipWith_ofValue {vs vs' : List Value} (hvs : List.Forall₂ (Alike h h') vs vs')
    (width : PointerWidth) (types : List TypeSig) :
    vs.zipWith (fun v type => Argument.ofValue width h type v) types =
      vs'.zipWith (fun v type => Argument.ofValue width h' type v) types := by
  induction hvs generalizing types with
  | nil => rfl
  | cons hv _ ih =>
      cases types with
      | nil => rfl
      | cons type types => rw [List.zipWith_cons_cons, List.zipWith_cons_cons, hv.ofValue_eq, ih]

end Alike

/-- No reference to an object occurs twice. -/
def DistinctHandles (vs : List Value) : Prop :=
  vs.Pairwise fun v u => ∀ handle, v = .object (.known handle) → u ≠ .object (.known handle)

/-- A value made from `vs`: a reference is to the next object of the heap, or it is one of them. -/
def MadeFrom (h : Heap) (vs : List Value) (v : Value) : Prop :=
  ∀ handle, v = .object (.known handle) → handle.index = h.size ∨ v ∈ vs

private theorem HandleFree.madeFrom {v : Value} (hv : v.HandleFree) (h : Heap) (vs : List Value) :
    v.MadeFrom h vs := by
  rintro handle rfl
  exact hv.elim

end Value

/-! ## Two executions -/

/-- Two states have these heaps and stacks. -/
structure Machine.Both (h h' : Heap) (stack stack' : List Value) (m m' : Machine) : Prop where
  heap : m.heap = h
  heap' : m'.heap = h'
  stack : m.stack = stack
  stack' : m'.stack = stack'

/-- In each of two states, which had the heaps `h` and `h'`, one value was pushed in the place of
some operands, and the two values are alike. -/
inductive Machine.Yield (h h' : Heap) (vs vs' stack stack' : List Value) (m m' : Machine) :
    Prop where
  | intro {v v' : Value} (hstack : m.stack = v :: stack) (hstack' : m'.stack = v' :: stack')
      (halike : Value.Alike m.heap m'.heap v v') (hmade : v.MadeFrom h vs)
      (hmade' : v'.MadeFrom h' vs')

namespace Step

variable {α β α' β' : Type}

/-- From states related by `P`, if both steps succeed, `Q` relates their results and the states they
leave. -/
def Agree (P : Machine → Machine → Prop) (x : Step α) (y : Step β)
    (Q : α → β → Machine → Machine → Prop) : Prop :=
  ∀ m m', P m m' → ∀ v u m₁ m₁', x.run m = (.ok v, m₁) → y.run m' = (.ok u, m₁') → Q v u m₁ m₁'

namespace Agree

variable {P : Machine → Machine → Prop} {x : Step α} {y : Step β}
  {Q : α → β → Machine → Machine → Prop} {f : α → Step α'} {g : β → Step β'}
  {R : α' → β' → Machine → Machine → Prop} {h h' : Heap} {vs vs' stack stack' : List Value}

theorem bind (hxy : Agree P x y Q) (hfg : ∀ v u, Agree (Q v u) (f v) (g u) R) :
    Agree P (x >>= f) (y >>= g) R := by
  intro m m' hm v u m₁ m₁' hx hy
  rw [run_bind] at hx hy
  rcases hrun : x.run m with ⟨fault | w, m₂⟩
  · -- Both runs succeed as a whole, so both first steps do.
    rw [hrun] at hx
    exact nomatch hx
  rcases hrun' : y.run m' with ⟨fault | w', m₂'⟩
  · rw [hrun'] at hy
    exact nomatch hy
  rw [hrun] at hx
  rw [hrun'] at hy
  exact hfg w w' m₂ m₂' (hxy m m' hm w w' m₂ m₂' hrun hrun') v u m₁ m₁' hx hy

/-- The states may be known to be related in other ways. -/
theorem weaken {P' : Machine → Machine → Prop} (hxy : Agree P x y Q)
    (h : ∀ m m', P' m m' → P m m') : Agree P' x y Q :=
  fun m m' hm => hxy m m' (h m m' hm)

theorem pure {v : α} {u : β} (hvu : ∀ m m', P m m' → Q v u m m') :
    Agree P (pure v) (pure u) Q := by
  intro m m' hm _ _ _ _ hx hy
  cases hx
  cases hy
  exact hvu m m' hm

/-- A fault on one side leaves nothing to be shown. -/
theorem throw_left {fault : Fault} : Agree P (throw fault : Step α) y Q :=
  fun _ _ _ _ _ _ _ hx => nomatch hx

private theorem throw_right {fault : Fault} : Agree P x (throw fault : Step β) Q :=
  fun _ _ _ _ _ _ _ _ hy => nomatch hy

private theorem attempt_bind {r : Except Fault α} {r' : Except Fault β}
    (hfg : ∀ v u, r = .ok v → r' = .ok u → Agree P (f v) (g u) R) :
    Agree P (attempt r >>= f) (attempt r' >>= g) R := by
  refine bind (Q := fun v u m m' => r = .ok v ∧ r' = .ok u ∧ P m m') ?_ ?_
  · intro m m' hm v u m₁ m₁' hx hy
    obtain ⟨hr, rfl⟩ := Prod.mk.inj hx
    obtain ⟨hr', rfl⟩ := Prod.mk.inj hy
    exact ⟨hr, hr', hm⟩
  · rintro v u m m' ⟨hr, hr', hm⟩
    exact hfg v u hr hr' m m' hm

theorem operand_bind {i : Instruction} {kind : String} {a : Option α} {f : α → Step α'}
    {g : α → Step β'} (hfg : ∀ v, a = some v → Agree P (f v) (g v) R) :
    Agree P (operand i kind a >>= f) (operand i kind a >>= g) R := by
  cases a with
  | none => exact bind (Q := fun _ _ _ _ => False) throw_left fun _ _ _ _ hm => hm.elim
  | some a =>
      refine bind (Q := fun v u m m' => v = a ∧ u = a ∧ P m m') (pure fun _ _ hm => ⟨rfl, rfl, hm⟩)
        ?_
      rintro v u m m' ⟨rfl, rfl, hm⟩
      exact hfg _ rfl m m' hm

theorem pop_bind {v v' : Value} {f : Value → Step α'} {g : Value → Step β'}
    (hfg : Agree (Machine.Both h h' stack stack') (f v) (g v') R) :
    Agree (Machine.Both h h' (v :: stack) (v' :: stack')) (pop >>= f) (pop >>= g) R := by
  intro m m' hm u u' m₁ m₁' hx hy
  rw [run_bind, run_pop_cons hm.stack] at hx
  rw [run_bind, run_pop_cons hm.stack'] at hy
  exact hfg { m with stack } { m' with stack := stack' } ⟨hm.heap, hm.heap', rfl, rfl⟩ u u' m₁ m₁'
    hx hy

theorem popMany_bind {f : List Value → Step α'} {g : List Value → Step β'} {count : Nat}
    (hvs : vs.length = count) (hvs' : vs'.length = count)
    (hfg : Agree (Machine.Both h h' stack stack') (f vs.reverse) (g vs'.reverse) R) :
    Agree (Machine.Both h h' (vs ++ stack) (vs' ++ stack')) (popMany count >>= f)
      (popMany count >>= g) R := by
  have hrun : ∀ {m : Machine} {vs stack : List Value}, m.stack = vs ++ stack →
      vs.length = count → (popMany count).run m = (.ok vs.reverse, { m with stack }) := by
    rintro m vs stack hstack rfl
    have henough : ¬ m.stack.length < vs.length := by
      rw [hstack, List.length_append]
      omega
    rw [run_popMany, if_neg henough, hstack, List.take_left, List.drop_left]
  intro m m' hm u u' m₁ m₁' hx hy
  rw [run_bind, hrun hm.stack hvs] at hx
  rw [run_bind, hrun hm.stack' hvs'] at hy
  exact hfg { m with stack } { m' with stack := stack' } ⟨hm.heap, hm.heap', rfl, rfl⟩ u u' m₁ m₁'
    hx hy

private theorem note_bind {question question' : Question} {f : Unit → Step α'} {g : Unit → Step β'}
    (hfg : Agree (Machine.Both h h' stack stack') (f ()) (g ()) R) :
    Agree (Machine.Both h h' stack stack') (note question >>= f) (note question' >>= g) R :=
  fun _ _ hm => hfg _ _ ⟨hm.heap, hm.heap', hm.stack, hm.stack'⟩

theorem askHeap {ask : Heap → Except Error α} {ask' : Heap → Except Error β} :
    Agree (Machine.Both h h' stack stack') (askHeap ask) (askHeap ask') fun v u m m' =>
      ask h = .ok v ∧ ask' h' = .ok u ∧ Machine.Both h h' stack stack' m m' := by
  have hrun : ∀ {γ : Type} {ask : Heap → Except Error γ} {v : γ} {m m₁ : Machine},
      (Step.askHeap ask).run m = (.ok v, m₁) → ask m.heap = .ok v ∧ m₁ = m := by
    intro γ ask v m m₁ hx
    have hask : (Step.askHeap ask).run m = ((ask m.heap).mapError Fault.ofError, m) := rfl
    rw [hask] at hx
    obtain ⟨hok, rfl⟩ := Prod.mk.inj hx
    cases hf : ask m.heap with
    | error e =>
        rw [hf] at hok
        exact nomatch hok
    | ok w =>
        rw [hf] at hok
        cases hok
        exact ⟨rfl, rfl⟩
  rintro m m' ⟨rfl, rfl, hstack, hstack'⟩ v u m₁ m₁' hx hy
  obtain ⟨hv, rfl⟩ := hrun hx
  obtain ⟨hu, rfl⟩ := hrun hy
  exact ⟨hv, hu, rfl, rfl, hstack, hstack'⟩

private theorem askHeap_bind {ask : Heap → Except Error α} {ask' : Heap → Except Error β}
    (hfg : ∀ v u, Agree (Machine.Both h h' stack stack') (f v) (g u) R) :
    Agree (Machine.Both h h' stack stack') (Step.askHeap ask >>= f) (Step.askHeap ask' >>= g)
      R := by
  refine bind askHeap ?_
  rintro v u m m' ⟨-, -, hm⟩
  exact hfg v u m m' hm

private theorem allocate_bind {o o' : HeapObject} {f : Handle → Step α'} {g : Handle → Step β'}
    (hfg : Agree (Machine.Both (h.allocate o).2 (h'.allocate o').2 stack stack') (f ⟨h.size⟩)
      (g ⟨h'.size⟩) R) :
    Agree (Machine.Both h h' stack stack') (allocate o >>= f) (allocate o' >>= g) R := by
  rintro m m' ⟨rfl, rfl, hstack, hstack'⟩
  exact hfg _ _ ⟨rfl, rfl, hstack, hstack'⟩

/-! ### Values that are pushed -/

theorem push {s : Setting} {v v' : Value} {h₀ h₀' : Heap} (halike : Value.Alike h h' v v')
    (hmade : v.MadeFrom h₀ vs) (hmade' : v'.MadeFrom h₀' vs') :
    Agree (Machine.Both h h' stack stack') (s.push v) (s.push v')
      fun _ _ => Machine.Yield h₀ h₀' vs vs' stack stack' := by
  have hrun : ∀ {m m₁ : Machine} {v : Value} {u : Unit}, (s.push v).run m = (.ok u, m₁) →
      m₁ = { m with stack := v :: m.stack } := by
    intro m m₁ v u hx
    rw [run_push] at hx
    dsimp only at hx
    split at hx
    · exact nomatch hx
    · exact (Prod.mk.inj hx).2.symm
  rintro m m' ⟨rfl, rfl, rfl, rfl⟩ u u' m₁ m₁' hx hy
  obtain rfl := hrun hx
  obtain rfl := hrun hy
  exact .intro rfl rfl halike hmade hmade'

private theorem push_same {s : Setting} {v : Value} {h₀ h₀' : Heap} (hv : v.HandleFree) :
    Agree (Machine.Both h h' stack stack') (s.push v) (s.push v)
      fun _ _ => Machine.Yield h₀ h₀' vs vs' stack stack' :=
  push (.same hv) (hv.madeFrom _ _) (hv.madeFrom _ _)

/-- A reference to a new object is pushed. -/
theorem push_new {s : Setting} {o o' : HeapObject} (htext : o.text? = o'.text?) :
    Agree (Machine.Both (h.allocate o).2 (h'.allocate o').2 stack stack')
      (s.push (.object (.known ⟨h.size⟩))) (s.push (.object (.known ⟨h'.size⟩)))
      fun _ _ => Machine.Yield h h' vs vs' stack stack' := by
  have hmade : ∀ (h : Heap) (vs : List Value),
      (Value.object (.known ⟨h.size⟩)).MadeFrom h vs := by
    rintro h vs handle heq
    cases heq
    exact Or.inl rfl
  exact push (.known (Heap.getElem?_allocate_self h o) (Heap.getElem?_allocate_self h' o') htext)
    (hmade h vs) (hmade h' vs')

/-- An operand is pushed again. -/
theorem push_operand {s : Setting} {v v' : Value} (halike : Value.Alike h h' v v') (hv : v ∈ vs)
    (hv' : v' ∈ vs') :
    Agree (Machine.Both h h' stack stack') (s.push v) (s.push v')
      fun _ _ => Machine.Yield h h' vs vs' stack stack' :=
  push halike (fun _ _ => Or.inr hv) (fun _ _ => Or.inr hv')

end Agree

end Step

/-! ## Operations on values -/

namespace Value

variable {width : PointerWidth} {h h' : Heap} {v v' u lhs lhs' rhs rhs' : Value}

/-- A computation that keeps to the discipline of live handles makes no handles of its own. -/
theorem HandleFree.of_result {r : Except Fault Value}
    (hresult : (Discipline.live width).Result ((Discipline.live width).Admits .empty) r)
    (hr : r = .ok u) : u.HandleFree := by
  rw [hr] at hresult
  exact handleFree_iff.mpr hresult

namespace Alike

/-- What a computation that refuses references makes of one operand. -/
theorem unary (hv : Alike h h' v v') {f : Value → Except Fault Value}
    (hrefuses : ∀ handle u, f (.object (.known handle)) ≠ .ok u)
    (hresult : (Discipline.live width).Admits .empty v →
      (Discipline.live width).Result ((Discipline.live width).Admits .empty) (f v))
    (hu : f v = .ok u) : f v' = .ok u ∧ u.HandleFree := by
  obtain ⟨rfl, hfree⟩ := hv.eq_of_ok hrefuses hu
  exact ⟨hu, .of_result (hresult (handleFree_iff.mp hfree)) hu⟩

/-- What a computation that refuses references makes of two operands. -/
theorem binary (hlhs : Alike h h' lhs lhs') (hrhs : Alike h h' rhs rhs')
    {f : Value → Value → Except Fault Value}
    (hleft : ∀ handle u, f (.object (.known handle)) rhs ≠ .ok u)
    (hright : ∀ handle u, f lhs (.object (.known handle)) ≠ .ok u)
    (hresult : (Discipline.live width).Admits .empty lhs →
      (Discipline.live width).Admits .empty rhs →
      (Discipline.live width).Result ((Discipline.live width).Admits .empty) (f lhs rhs))
    (hu : f lhs rhs = .ok u) : f lhs' rhs' = .ok u ∧ u.HandleFree := by
  obtain ⟨rfl, hfree⟩ := hlhs.eq_of_ok (f := fun v => f v rhs) hleft hu
  exact hrhs.unary hright (hresult (handleFree_iff.mp hfree)) hu

theorem operator (hlhs : Alike h h' lhs lhs') (hrhs : Alike h h' rhs rhs') (op : Operator)
    (opcode : Opcode) (hu : op.apply width opcode lhs rhs = .ok u) :
    op.apply width opcode lhs' rhs' = .ok u ∧ u.HandleFree := by
  refine hlhs.binary hrhs (fun _ _ => nofun) ?_ (result_operator op opcode) hu
  intro handle u hu
  cases lhs <;> exact nomatch hu

theorem shift (hlhs : Alike h h' lhs lhs') (hrhs : Alike h h' rhs rhs') (shift : Shift)
    (opcode : Opcode) (hu : shift.apply width opcode lhs rhs = .ok u) :
    shift.apply width opcode lhs' rhs' = .ok u ∧ u.HandleFree := by
  refine hlhs.binary hrhs ?_ (fun _ _ => nofun)
    (fun _ _ => result_shift shift opcode lhs rhs) hu
  intro handle u hu
  cases rhs <;> exact nomatch hu

/-- References to different objects differ in both states, and nothing else about them is told. -/
theorem decide (hlhs : Alike h h' lhs lhs') (hrhs : Alike h h' rhs rhs')
    (hdistinct : DistinctHandles [rhs, lhs]) (hdistinct' : DistinctHandles [rhs', lhs'])
    (c : Comparison) (unsigned : Bool) :
    c.decide width unsigned lhs rhs = c.decide width unsigned lhs' rhs' := by
  cases hlhs with
  | @same lhs hfree =>
      cases hrhs with
      | same => rfl
      | known =>
          cases lhs with
          | object r =>
              cases r with
              | known => exact hfree.elim
              | null | unknown => rfl
          | _ => rfl
  | @known handle₁ handle₁' =>
      cases hrhs with
      | @same rhs hfree =>
          cases rhs with
          | object r =>
              cases r with
              | known => exact hfree.elim
              | null | unknown => rfl
          | _ => rfl
      | @known handle₂ handle₂' =>
          -- All that is told about two references is that they are not the same.
          have hne : handle₁ ≠ handle₂ := by
            rintro rfl
            exact (List.pairwise_cons.mp hdistinct).1 _ List.mem_cons_self handle₁ rfl rfl
          have hne' : handle₁' ≠ handle₂' := by
            rintro rfl
            exact (List.pairwise_cons.mp hdistinct').1 _ List.mem_cons_self handle₁' rfl rfl
          unfold Comparison.decide Comparison.onReferences Reference.isEqual
          simp only [beq_eq_false_iff_ne.mpr hne, beq_eq_false_iff_ne.mpr hne']

end Alike

end Value

/-! ## Instructions -/

namespace Setting

open Step

variable {s : Setting} {i : Instruction} {h h' : Heap} {v v' lhs lhs' rhs rhs' : Value}
  {vs vs' stack stack' : List Value}

private theorem agree_onTop {f g : Value → Except Fault Value}
    (hfg : ∀ u, f v = .ok u → g v' = .ok u ∧ u.HandleFree) :
    Agree (Machine.Both h h' (v :: stack) (v' :: stack')) (s.onTop f) (s.onTop g)
      fun _ _ => Machine.Yield h h' vs vs' stack stack' := by
  refine .pop_bind (Agree.attempt_bind ?_)
  intro u u' hu hu'
  obtain ⟨hsame, hfree⟩ := hfg u hu
  obtain rfl := Except.ok.inj (hsame.symm.trans hu')
  exact .push_same hfree

private theorem agree_onTopTwo {f : Value → Value → Except Fault Value}
    (hf : ∀ u, f lhs rhs = .ok u → f lhs' rhs' = .ok u ∧ u.HandleFree) :
    Agree (Machine.Both h h' (rhs :: lhs :: stack) (rhs' :: lhs' :: stack')) (s.onTopTwo f)
      (s.onTopTwo f) fun _ _ => Machine.Yield h h' vs vs' stack stack' :=
  Agree.pop_bind (agree_onTop (f := fun v => f v rhs) (g := fun v => f v rhs') hf)

private theorem agree_compareTopTwo (hlhs : lhs.Alike h h' lhs') (hrhs : rhs.Alike h h' rhs')
    (hdistinct : Value.DistinctHandles [rhs, lhs]) (hdistinct' : Value.DistinctHandles [rhs', lhs'])
    (c : Comparison) (unsigned : Bool) :
    Agree (Machine.Both h h' (rhs :: lhs :: stack) (rhs' :: lhs' :: stack'))
      (s.compareTopTwo c unsigned) (s.compareTopTwo c unsigned)
      fun _ _ => Machine.Yield h h' vs vs' stack stack' := by
  refine agree_onTopTwo ?_
  intro u hu
  rw [← hlhs.decide hrhs hdistinct hdistinct']
  refine ⟨hu, ?_⟩
  cases hverdict : c.decide s.width unsigned lhs rhs with
  | error fault =>
      rw [hverdict] at hu
      exact nomatch hu
  | ok verdict =>
      rw [hverdict] at hu
      cases hu
      trivial

private theorem agree_checkFinite (hv : v.Alike h h' v') :
    Agree (Machine.Both h h' (v :: stack) (v' :: stack')) (checkFinite i) (checkFinite i)
      fun _ _ => Machine.Yield h h' [v] [v'] stack stack' := by
  have hrun : ∀ {m m₁ : Machine} {v : Value} {rest : List Value} {u : Unit},
      m.stack = v :: rest → (checkFinite i).run m = (.ok u, m₁) → m₁ = m := by
    intro m m₁ v rest u hstack hx
    unfold checkFinite at hx
    rw [run_bind, run_peek_cons hstack] at hx
    exact (Prod.mk.inj hx).2.symm
  rintro m m' ⟨rfl, rfl, hstack, hstack'⟩ u u' m₁ m₁' hx hy
  obtain rfl := hrun hstack hx
  obtain rfl := hrun hstack' hy
  exact .intro hstack hstack' hv (fun _ _ => Or.inr List.mem_cons_self)
    (fun _ _ => Or.inr List.mem_cons_self)

private theorem agree_loadString :
    Agree (Machine.Both h h' stack stack') (s.loadString i) (s.loadString i)
      fun _ _ => Machine.Yield h h' vs vs' stack stack' := by
  refine .operand_bind ?_
  intro text _
  exact .allocate_bind (Agree.push_new rfl)

/-- A variable is loaded that is the same in both states. -/
theorem agree_loadVariable :
    Agree (fun m m' => Machine.Both h h' stack stack' m m' ∧ ∀ slot, i.slot? = some slot →
        m.frame.cell? slot = m'.frame.cell? slot ∧
          ∀ cell, m.frame.cell? slot = some cell → cell.value.HandleFree)
      (s.loadVariable i) (s.loadVariable i)
      fun _ _ => Machine.Yield h h' vs vs' stack stack' := by
  refine .operand_bind ?_
  rintro slot hslot m m' ⟨hm, hcells⟩ u u' m₁ m₁' hx hy
  obtain ⟨hsame, hfree⟩ := hcells slot hslot
  rw [run_bind, run_cell] at hx hy
  rw [← hsame] at hy
  cases hcell : m.frame.cell? slot with
  | none =>
      rw [hcell] at hx
      exact nomatch hx
  | some cell =>
      rw [hcell] at hx hy
      exact Agree.push_same (hfree cell hcell) m m' hm u u' m₁ m₁' hx hy

private theorem agree_newArray (hv : v.Alike h h' v') :
    Agree (Machine.Both h h' (v :: stack) (v' :: stack')) (s.newArray i) (s.newArray i)
      fun _ _ => Machine.Yield h h' vs vs' stack stack' := by
  refine .operand_bind ?_
  intro element _
  refine .pop_bind (Agree.attempt_bind ?_)
  intro n n' hn hn'
  -- A length is not read from a reference, so there is one and the same length.
  obtain ⟨rfl, -⟩ := hv.eq_of_ok (f := Value.index? .signed) (fun _ _ => nofun) hn
  obtain rfl := Except.ok.inj (hn.symm.trans hn')
  cases n with
  | none => exact .push_same trivial
  | some n =>
      dsimp only
      split
      · exact .throw_left
      · split
        · exact .allocate_bind (Agree.push_new rfl)
        · exact .push_same trivial

private theorem agree_box (hv : v.Alike h h' v') :
    Agree (Machine.Both h h' (v :: stack) (v' :: stack')) (s.box i) (s.box i)
      fun _ _ => Machine.Yield h h' [v] [v'] stack stack' := by
  refine .operand_bind ?_
  intro type _
  refine .pop_bind ?_
  split
  · exact .allocate_bind (Agree.push_new rfl)
  · exact .push_operand hv List.mem_cons_self List.mem_cons_self

/-- A cast that succeeds leaves what it was given, whatever is known about its type. -/
theorem agree_cast (hv : v.Alike h h' v') :
    Agree (Machine.Both h h' (v :: stack) (v' :: stack')) (s.cast i true) (s.cast i true)
      fun _ _ => Machine.Yield h h' [v] [v'] stack stack' := by
  refine .operand_bind ?_
  intro target _
  refine .pop_bind (Agree.attempt_bind ?_)
  intro r r' hr hr'
  have hkeep : Agree (Machine.Both h h' stack stack') (s.push v) (s.push v')
      fun _ _ => Machine.Yield h h' [v] [v'] stack stack' :=
    Agree.push_operand hv List.mem_cons_self List.mem_cons_self
  cases hv with
  | @same v hfree =>
      cases v with
      | object r₀ =>
          cases hr
          cases hr'
          cases r with
          | known => exact hfree.elim
          | null | unknown => exact hkeep
      | int32 | int64 | nativeInt | float | pointer => exact nomatch hr
  | known =>
      cases hr
      cases hr'
      simp only [refersToInstance, Setting.isInstance, bind_assoc, pure_bind]
      refine .askHeap_bind ?_
      intro type type'
      refine .note_bind ?_
      -- A cast that may succeed on both sides keeps its operand on both.
      cases s.environment.isInstance type target with
      | false => exact .throw_left
      | true | unknown =>
          cases s.environment.isInstance type' target with
          | false => exact .throw_right
          | true | unknown => exact hkeep

/-! ### Calls -/

/-- The arguments of a call are alike, because each is converted like any other. -/
theorem agree_popArguments_bind {α β : Type} {signature : MethodSignature}
    {f : List Value → Step α} {g : List Value → Step β} {R : α → β → Machine → Machine → Prop}
    (hvs : List.Forall₂ (Value.Alike h h') vs vs') (hcount : vs.length = signature.argumentCount)
    (hfg : ∀ us us', List.Forall₂ (Value.Alike h h') us us' →
      Agree (Machine.Both h h' stack stack') (f us) (g us') R) :
    Agree (Machine.Both h h' (vs ++ stack) (vs' ++ stack')) (s.popArguments signature >>= f)
      (s.popArguments signature >>= g) R := by
  unfold Setting.popArguments
  simp only [bind_assoc, pure_bind]
  refine .popMany_bind hcount (hvs.length_eq.symm.trans hcount) (hfg _ _ ?_)
  have hreverse : List.Forall₂ (Value.Alike h h') vs.reverse vs'.reverse :=
    List.forall₂_reverse_iff.mpr hvs
  rw [List.splitAt_eq, List.splitAt_eq]
  exact List.rel_append (List.forall₂_take _ hreverse)
    (Value.Alike.zipWith_coerce (List.forall₂_drop _ hreverse) s.width signature.parameters)

private theorem agree_invoke_bind (henv : s.environment = {}) {α β : Type} {method : MethodRef}
    {arguments arguments' : List Value} {f : Option Value → Step α} {g : Option Value → Step β}
    {R : α → β → Machine → Machine → Prop}
    (hfg : Agree (Machine.Both h h' stack stack') (f (method.signature.unknownResult? s.width))
      (g (method.signature.unknownResult? s.width)) R) :
    Agree (Machine.Both h h' stack stack') (s.invoke method arguments >>= f)
      (s.invoke method arguments' >>= g) R := by
  unfold Setting.invoke
  simp only [bind_assoc, henv]
  refine .note_bind (Agree.attempt_bind ?_)
  intro v u hv hu
  cases hv
  cases hu
  exact hfg

private theorem unknownResult?_handleFree {width : PointerWidth} {signature : MethodSignature}
    {v : Value} (hv : signature.unknownResult? width = some v) : v.HandleFree := by
  unfold MethodSignature.unknownResult? at hv
  split at hv
  · cases hv
    exact Value.handleFree_unknownOf width _
  · exact nomatch hv

private theorem agree_pushResult {signature : MethodSignature}
    (hreturns : signature.returnsValue = true) {result : Option Value}
    (hresult : ∀ v, result = some v → v.HandleFree) :
    Agree (Machine.Both h h' stack stack') (s.pushResult signature result)
      (s.pushResult signature result) fun _ _ => Machine.Yield h h' vs vs' stack stack' := by
  unfold Setting.pushResult
  simp only [hreturns, if_true]
  cases result with
  | none => exact .push_same (Value.handleFree_unknownOf _ _)
  | some v => exact .push_same ((hresult v rfl).coerce _ _)

private theorem agree_receiverType? {us us' : List Value}
    (hus : List.Forall₂ (Value.Alike h h') us us') :
    Agree (Machine.Both h h' stack stack') (receiverType? us) (receiverType? us')
      fun type type' m m' => type.isNone = type'.isNone ∧ Machine.Both h h' stack stack' m m' := by
  cases hus with
  | nil => exact .pure fun _ _ hm => ⟨rfl, hm⟩
  | @cons v v' us us' hv hus =>
      refine .attempt_bind ?_
      intro handle? handle?' hhandle hhandle'
      cases hv with
      | @same v hfree =>
          -- Only a known reference has a type.
          have hnone : ∀ {handle? : Option Handle}, v.receiver? = .ok handle? → handle? = none := by
            intro handle? hhandle
            cases v with
            | object r =>
                cases r with
                | known => exact hfree.elim
                | null => exact nomatch hhandle
                | unknown => exact (Except.ok.inj hhandle).symm
            | nativeInt | pointer => exact (Except.ok.inj hhandle).symm
            | int32 | int64 | float => exact nomatch hhandle
          rw [hnone hhandle, hnone hhandle']
          exact .pure fun _ _ hm => ⟨rfl, hm⟩
      | @known handle handle' =>
          obtain rfl := Except.ok.inj hhandle
          obtain rfl := Except.ok.inj hhandle'
          intro m m' hm type type' m₁ m₁' hx hy
          obtain ⟨htype, htype', hm₁⟩ := Agree.askHeap m m' hm type type' m₁ m₁' hx hy
          have hsome : ∀ {r : Except Error TypeSig} {type : Option TypeSig},
              some <$> r = .ok type → type.isNone = false := by
            intro r type hr
            cases r with
            | error => exact nomatch hr
            | ok type =>
                cases hr
                rfl
          exact ⟨(hsome htype).trans (hsome htype').symm, hm₁⟩

/-- Both calls go where the method says or nowhere, and their results are unknown. -/
theorem agree_call (henv : s.environment = {}) {virtual : Bool}
    (hone : (Operation.call virtual).pushes i.signature? = 1)
    (hvs : List.Forall₂ (Value.Alike h h') vs vs')
    (hcount : vs.length = (Operation.call virtual).pops s.returnsValue i.signature?) :
    Agree (Machine.Both h h' (vs ++ stack) (vs' ++ stack')) (s.call i virtual) (s.call i virtual)
      fun _ _ => Machine.Yield h h' vs vs' stack stack' := by
  refine .operand_bind ?_
  intro method hmethod
  rw [i.signature?_of_method? hmethod] at hone hcount
  have hreturns : method.signature.returnsValue = true := Bool.toNat_eq_one.mp hone
  refine agree_popArguments_bind hvs hcount ?_
  intro us us' hus
  have hinvoke : Agree (Machine.Both h h' stack stack')
      (s.invoke method us >>= s.pushResult method.signature)
      (s.invoke method us' >>= s.pushResult method.signature)
      fun _ _ => Machine.Yield h h' vs vs' stack stack' :=
    agree_invoke_bind henv (agree_pushResult hreturns fun _ => unknownResult?_handleFree)
  cases virtual with
  | false => exact hinvoke
  | true =>
      simp only [if_true, Setting.resolve, bind_assoc, pure_bind, henv]
      refine (agree_receiverType? hus).bind ?_
      rintro receiver receiver' m m' ⟨hreceiver, hm⟩
      -- Whether the call is resolved depends on nothing but this.
      revert m m'
      refine Agree.note_bind ?_
      rw [hreceiver]
      by_cases hopen : receiver'.isNone && method.isVirtual
      · simp only [hopen, if_true]
        exact agree_pushResult hreturns fun _ hv => absurd hv.symm (Option.some_ne_none _)
      · simp only [hopen, Bool.false_eq_true, if_false]
        exact hinvoke

private theorem agree_callIndirect (hone : Operation.callIndirect.pushes i.signature? = 1)
    (hvs : List.Forall₂ (Value.Alike h h') vs vs')
    (hcount : vs.length = Operation.callIndirect.pops s.returnsValue i.signature?) :
    Agree (Machine.Both h h' (vs ++ stack) (vs' ++ stack')) (s.callIndirect i) (s.callIndirect i)
      fun _ _ => Machine.Yield h h' vs vs' stack stack' := by
  refine .operand_bind ?_
  intro signature hsignature
  rw [hsignature] at hone hcount
  have hreturns : signature.returnsValue = true := Bool.toNat_eq_one.mp hone
  cases hvs with
  | nil => exact nomatch hcount
  | cons _ hvs =>
      refine .pop_bind (agree_popArguments_bind hvs (Nat.succ.inj hcount) ?_)
      intro _ _ _
      exact agree_pushResult hreturns fun _ hv => absurd hv.symm (Option.some_ne_none _)

private theorem agree_newObject (henv : s.environment = {})
    (hvs : List.Forall₂ (Value.Alike h h') vs vs')
    (hcount : vs.length = Operation.newObject.pops s.returnsValue i.signature?) :
    Agree (Machine.Both h h' (vs ++ stack) (vs' ++ stack')) (s.newObject i) (s.newObject i)
      fun _ _ => Machine.Yield h h' vs vs' stack stack' := by
  refine .operand_bind ?_
  intro method hmethod
  rw [i.signature?_of_method? hmethod] at hcount
  refine agree_popArguments_bind hvs hcount ?_
  intro us us' _
  refine .allocate_bind (agree_invoke_bind henv ?_)
  cases hresult : method.signature.unknownResult? s.width with
  | none => exact .push_new rfl
  | some v => exact .push_same (unknownResult?_handleFree hresult)

private theorem agree_sizeOf :
    Agree (Machine.Both h h' stack stack') (s.sizeOf i) (s.sizeOf i)
      fun _ _ => Machine.Yield h h' vs vs' stack stack' := by
  refine .operand_bind ?_
  intro type _
  split
  · exact .push_same trivial
  · exact .push_same trivial

private theorem agree_loadFunction :
    Agree (Machine.Both h h' (v :: stack) (v' :: stack')) (s.loadFunction i true)
      (s.loadFunction i true) fun _ _ => Machine.Yield h h' vs vs' stack stack' := by
  refine .operand_bind ?_
  intro method _
  refine .pop_bind (Agree.attempt_bind ?_)
  intro _ _ _ _
  exact .push_same trivial

private theorem agree_typedReference (toAddress : Bool) :
    Agree (Machine.Both h h' (v :: stack) (v' :: stack')) (s.typedReference toAddress)
      (s.typedReference toAddress) fun _ _ => Machine.Yield h h' vs vs' stack stack' := by
  refine .pop_bind ?_
  split
  · exact .push_same rfl
  · exact .push_same trivial

/-! ### All operations that compute -/

private theorem agree_thenNext {P : Machine → Machine → Prop} {Q : Machine → Machine → Prop}
    {step : Step Unit} (hstep : Agree P step step fun _ _ => Q) :
    Agree P (thenNext step) (thenNext step) fun _ _ => Q :=
  hstep.bind fun _ _ => .pure fun _ _ hm => hm

end Setting

/-- The value that an operation leaves is made from those it takes, or it is that of the variable
the instruction names.  Objects are not looked into. -/
def Operation.computes : Operation → Bool
  | loadNull | loadInt32 | loadInt64 | loadFloat | loadString | loadVariable | argumentList => true
  | binary _ | shift _ | negate | complement | compare .. | convertInteger .. => true
  | convertFloat _ | checkFinite | newArray | call _ | callIndirect | newObject => true
  | cast orFault => orFault
  | box | sizeOf | loadToken | loadFunction _ | typedReference _ => true
  | _ => false

namespace Setting

open Step

variable {s : Setting} {i : Instruction} {h h' : Heap} {vs vs' stack stack' : List Value}

private theorem agree_nullary {o : Operation} (hvs : List.Forall₂ (Value.Alike h h') vs vs')
    (hcount : vs.length = 0)
    (hstep : Agree (Machine.Both h h' stack stack') (s.perform i o) (s.perform i o)
      fun _ _ => Machine.Yield h h' [] [] stack stack') :
    Agree (Machine.Both h h' (vs ++ stack) (vs' ++ stack')) (s.perform i o) (s.perform i o)
      fun _ _ => Machine.Yield h h' vs vs' stack stack' := by
  obtain rfl := List.eq_nil_of_length_eq_zero hcount
  obtain rfl := List.forall₂_nil_left_iff.mp hvs
  exact hstep

private theorem agree_unary {o : Operation} (hvs : List.Forall₂ (Value.Alike h h') vs vs')
    (hcount : vs.length = 1)
    (hstep : ∀ v v', Value.Alike h h' v v' →
      Agree (Machine.Both h h' (v :: stack) (v' :: stack')) (s.perform i o) (s.perform i o)
        fun _ _ => Machine.Yield h h' [v] [v'] stack stack') :
    Agree (Machine.Both h h' (vs ++ stack) (vs' ++ stack')) (s.perform i o) (s.perform i o)
      fun _ _ => Machine.Yield h h' vs vs' stack stack' := by
  obtain ⟨v, rfl⟩ := List.length_eq_one_iff.mp hcount
  obtain ⟨v', _, hv, hnil, rfl⟩ := List.forall₂_cons_left_iff.mp hvs
  obtain rfl := List.forall₂_nil_left_iff.mp hnil
  exact hstep v v' hv

private theorem agree_binary {o : Operation} (hvs : List.Forall₂ (Value.Alike h h') vs vs')
    (hcount : vs.length = 2)
    (hstep : ∀ lhs lhs' rhs rhs', vs = [rhs, lhs] → vs' = [rhs', lhs'] →
      Value.Alike h h' lhs lhs' → Value.Alike h h' rhs rhs' →
      Agree (Machine.Both h h' (rhs :: lhs :: stack) (rhs' :: lhs' :: stack')) (s.perform i o)
        (s.perform i o) fun _ _ => Machine.Yield h h' vs vs' stack stack') :
    Agree (Machine.Both h h' (vs ++ stack) (vs' ++ stack')) (s.perform i o) (s.perform i o)
      fun _ _ => Machine.Yield h h' vs vs' stack stack' := by
  obtain ⟨rhs, lhs, rfl⟩ := List.length_eq_two.mp hcount
  obtain ⟨rhs', _, hrhs, hrest, rfl⟩ := List.forall₂_cons_left_iff.mp hvs
  obtain ⟨lhs', _, hlhs, hnil, rfl⟩ := List.forall₂_cons_left_iff.mp hrest
  obtain rfl := List.forall₂_nil_left_iff.mp hnil
  exact hstep lhs lhs' rhs rhs' rfl rfl hlhs hrhs

/-- If two states have operands in common but for handles, and the variable that the instruction
loads, then the instruction leaves the same value in both but for handles. -/
theorem perform_yields (henv : s.environment = {}) {o : Operation} (hcomputes : o.computes = true)
    (hone : o.pushes i.signature? = 1) (hvs : List.Forall₂ (Value.Alike h h') vs vs')
    (hcount : vs.length = o.pops s.returnsValue i.signature?)
    (hdistinct : Value.DistinctHandles vs) (hdistinct' : Value.DistinctHandles vs') :
    Agree
      (fun m m' => Machine.Both h h' (vs ++ stack) (vs' ++ stack') m m' ∧
        (o = .loadVariable → ∀ slot, i.slot? = some slot →
          m.frame.cell? slot = m'.frame.cell? slot ∧
            ∀ cell, m.frame.cell? slot = some cell → cell.value.HandleFree))
      (s.perform i o) (s.perform i o) fun _ _ => Machine.Yield h h' vs vs' stack stack' := by
  -- Loading a variable is the only operation here that looks at more than its operands.
  by_cases hload : o = .loadVariable
  · subst hload
    obtain rfl := List.eq_nil_of_length_eq_zero hcount
    obtain rfl := List.forall₂_nil_left_iff.mp hvs
    exact agree_thenNext (agree_loadVariable.weaken fun _ _ hm => ⟨hm.1, hm.2 rfl⟩)
  refine .weaken ?_ fun _ _ hm => hm.1
  cases o with
  | loadVariable => exact absurd rfl hload
  | loadNull => exact agree_nullary hvs hcount (agree_thenNext (Agree.push_same trivial))
  | argumentList => exact agree_nullary hvs hcount (agree_thenNext (Agree.push_same trivial))
  | loadInt32 | loadInt64 | loadFloat | loadToken =>
      exact agree_nullary hvs hcount
        (agree_thenNext (Agree.operand_bind fun _ _ => .push_same trivial))
  | loadString => exact agree_nullary hvs hcount (agree_thenNext agree_loadString)
  | sizeOf => exact agree_nullary hvs hcount (agree_thenNext agree_sizeOf)
  | binary op =>
      refine agree_binary hvs hcount ?_
      intro lhs lhs' rhs rhs' _ _ hlhs hrhs
      exact agree_thenNext (agree_onTopTwo fun u => hlhs.operator hrhs op i.opcode)
  | shift shift =>
      refine agree_binary hvs hcount ?_
      intro lhs lhs' rhs rhs' _ _ hlhs hrhs
      exact agree_thenNext (agree_onTopTwo fun u => hlhs.shift hrhs shift i.opcode)
  | compare c unsigned =>
      refine agree_binary hvs hcount ?_
      rintro lhs lhs' rhs rhs' rfl rfl hlhs hrhs
      exact agree_thenNext (agree_compareTopTwo hlhs hrhs hdistinct hdistinct' c unsigned)
  | negate =>
      refine agree_unary hvs hcount fun v v' hv => agree_thenNext (agree_onTop fun u => ?_)
      exact hv.unary (fun _ _ => nofun) fun _ => result_negate i.opcode v
  | complement =>
      refine agree_unary hvs hcount fun v v' hv => agree_thenNext (agree_onTop fun u => ?_)
      exact hv.unary (fun _ _ => nofun) (result_complement (D := .live s.width) i.opcode)
  | convertInteger target check =>
      refine agree_unary hvs hcount fun v v' hv => agree_thenNext (agree_onTop fun u => ?_)
      exact hv.unary (fun _ _ => nofun) (result_toIntegerTarget i.opcode target check)
  | convertFloat target =>
      refine agree_unary hvs hcount fun v v' hv => agree_thenNext (agree_onTop fun u => ?_)
      exact hv.unary (fun _ _ => nofun) fun _ => result_toFloatTarget i.opcode target v
  | checkFinite =>
      exact agree_unary hvs hcount fun v v' hv => agree_thenNext (agree_checkFinite hv)
  | newArray => exact agree_unary hvs hcount fun v v' hv => agree_thenNext (agree_newArray hv)
  | box => exact agree_unary hvs hcount fun v v' hv => agree_thenNext (agree_box hv)
  | cast orFault =>
      obtain rfl : orFault = true := hcomputes
      exact agree_unary hvs hcount fun v v' hv => agree_thenNext (agree_cast hv)
  | typedReference toAddress =>
      exact agree_unary hvs hcount fun v v' _ => agree_thenNext (agree_typedReference toAddress)
  | call virtual => exact agree_thenNext (agree_call henv hone hvs hcount)
  | callIndirect => exact agree_thenNext (agree_callIndirect hone hvs hcount)
  | newObject => exact agree_thenNext (agree_newObject henv hvs hcount)
  | loadFunction virtual =>
      cases virtual with
      | false =>
          exact agree_nullary hvs hcount
            (agree_thenNext (Agree.operand_bind fun _ _ => .push_same trivial))
      | true => exact agree_unary hvs hcount fun v v' _ => agree_thenNext agree_loadFunction
  | _ => exact nomatch hcomputes

end Setting

end CilAnalysis
