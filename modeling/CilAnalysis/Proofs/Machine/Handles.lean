import CilAnalysis.Proofs.Machine.Obedience

/-!
# Handles denote what they should

An interpreter whose arguments name nothing in the heap only ever holds references to objects it
allocated and pointers into blocks it allocated, because nothing is freed and nothing turns into
something else.  So it never faults for want of an object or of a block
(`Interpreter.handles_stay_live`).

## Strategy

`Discipline.live` is the requirement that a handle is live: that of a reference is below the size of
the heap, and that of a pointer denotes a block.  It is a discipline because

* both stay true of a heap that extends the one they were said of (`entry_mono`, `block_mono`),
* both are true of what was just allocated (`entry_allocate`, `block_allocate`), and
* looking up a live handle does not fail, so that the faults about handles do not occur
  (`fault_get`, `fault_block`).

Obedience then gives the rest, for all instructions at once and whether or not they fault.  The
values that a method is started with are required to be free of handles, as the heap is empty at
that moment: in a run that starts there, every handle was made by the run.
-/

namespace CilAnalysis

namespace Value

/-- A known reference denotes an object, and a known pointer leads into a memory block. -/
def Live (h : Heap) : Value → Prop
  | object (.known handle) => handle.index < h.size
  | pointer p => ∀ base, p.base = some base → ∃ b, h.objects[base.index]? = some (.memory b)
  | _ => True

/-- The value is neither a known reference nor a known pointer. -/
def HandleFree : Value → Prop
  | object (.known _) => False
  | pointer p => p.base = none
  | _ => True

end Value

namespace Discipline

/-- Only live handles occur, and no fault is about a handle. -/
def live (width : PointerWidth) : Discipline width where
  native _ := True
  entry h handle := handle.index < h.size
  block h handle := ∃ b, h.objects[handle.index]? = some (.memory b)
  frame _ := True
  stored _ := True
  fault := Fault.Ordinary
  native_native _ := trivial
  native_not _ := trivial
  entry_mono hext hlt := hlt.trans_le hext.size_le
  block_mono := by
    rintro h h' handle hext ⟨b, hb⟩
    -- A block is still a block of the same size in every later heap.
    obtain ⟨o, ho, hlayout⟩ := hext _ _ hb
    cases hlayout with
    | memory hsize => exact ⟨_, ho⟩
  entry_allocate h o := by
    change h.objects.size < (h.objects.push o).size
    rw [Array.size_push]
    exact Nat.lt_succ_self _
  block_allocate h b := ⟨b, Heap.getElem?_allocate_self h _⟩
  frame_set _ _ _ := trivial
  fault_ordinary := id
  fault_get := by
    intro h handle e hlt hget
    obtain ⟨o, ho⟩ := Heap.exists_get_of_lt hlt
    exact nomatch ho.symm.trans hget
  fault_block := by
    rintro h handle e ⟨b, hb⟩ hblock
    exact nomatch (Heap.block_eq_ok_iff.mpr hb).symm.trans hblock

theorem admits_live_iff {width : PointerWidth} {h : Heap} {v : Value} :
    (live width).Admits h v ↔ v.Live h := by
  rcases v with _ | _ | _ | _ | r | _
  case object => cases r <;> exact Iff.rfl
  all_goals exact Iff.rfl

theorem admits_live_of_handleFree {width : PointerWidth} {v : Value} (hv : v.HandleFree)
    (h : Heap) : (live width).Admits h v := by
  cases v with
  | object r =>
      cases r with
      | known => exact hv.elim
      | null | unknown => trivial
  | pointer p => exact fun base hbase => absurd (hbase.symm.trans hv) (Option.some_ne_none _)
  | int32 | int64 | nativeInt | float => trivial

end Discipline

namespace Interpreter

/-- Let an interpreter store values without handles in the arguments of a method and execute any
instructions, whether they succeed or fault.  Then every known reference anywhere in the state
denotes an object of the heap and every known pointer leads into a memory block; the stack keeps to
its limit; further instructions never make the heap smaller or change the kind, the type or the
length of an object; and no instruction faults because a handle denotes nothing, or no block. -/
theorem handles_stay_live (options : Options) (b : MethodBody) (arguments : List (Nat × Value))
    (harguments : ∀ a ∈ arguments, a.2.HandleFree) (executed : List Instruction) :
    let p : Interpreter := { options }
    let m := p.after (p.setting b) executed (p.startWith b arguments)
    m.All (Value.Live m.heap) ∧ m.stack.length ≤ options.maxStackDepth ∧
      (∀ further, m.heap.size ≤ (p.after (p.setting b) further m).heap.size ∧
        m.heap.Extends (p.after (p.setting b) further m).heap) ∧
      ∀ i fault, ((p.dispatch (p.setting b) i).run m).1 = .error fault → fault.Ordinary := by
  intro p m
  have hstart : (Discipline.live (p.setting b).width).Obeyed (p.setting b)
      (p.startWith b arguments) :=
    obeyed_startWith p b (fun _ => trivial) (fun _ => trivial)
      fun a ha => Discipline.admits_live_of_handleFree (harguments a ha)
  obtain ⟨hm, -⟩ := hstart.after rfl options executed fun _ => trivial
  refine ⟨hm.values.imp fun _ hv => Discipline.admits_live_iff.mp hv, hm.depth, ?_, ?_⟩
  · intro further
    obtain ⟨-, hgrown⟩ := hm.after rfl options further fun _ => trivial
    exact ⟨hgrown.size_le, hgrown⟩
  · intro i fault hfault
    obtain ⟨-, -, hresult⟩ := hm.execute rfl (i := i) fun _ _ => trivial
    -- The faults that may occur under this discipline are the ordinary ones.
    rw [dispatch_eq_execute] at hfault
    rw [hfault] at hresult
    exact hresult

/-- Puts its argument, boxed, in an array of two and looks for a third element. -/
def boxInArray : MethodBody where
  instructions :=
    [⟨0, .ldc_i4_2, .none, 1⟩, ⟨1, .newarr, .type .object, 5⟩, ⟨6, .dup, .none, 1⟩,
      ⟨7, .dup, .none, 1⟩, ⟨8, .ldc_i4_0, .none, 1⟩, ⟨9, .ldarg_0, .none, 1⟩,
      ⟨10, .box, .type .int32, 5⟩, ⟨15, .stelem_ref, .none, 1⟩, ⟨16, .ldc_i4_2, .none, 1⟩,
      ⟨17, .ldelem_ref, .none, 1⟩]
  parameters := [.int32]

/-- The third element does not exist, and the state that the fault leaves holds three references,
all of which denote something. -/
theorem handles_stay_live_boxInArray :
    let p : Interpreter := {}
    let s := p.setting boxInArray
    let m := p.after s boxInArray.instructions (p.startWith boxInArray [(0, .ofInt32 5)])
    Value.HandleFree (.ofInt32 5) ∧ m.stack = [.object (.known ⟨0⟩)] ∧
      m.heap.objects = #[.array ⟨.object, #[.object (.known ⟨1⟩), .null]⟩,
        .boxed .int32 (.ofInt32 5)] ∧
      m.All (Value.Live m.heap) ∧ m.stack.length ≤ 1024 ∧
      (∀ further, m.heap.size ≤ (p.after s further m).heap.size ∧
        m.heap.Extends (p.after s further m).heap) ∧
      ∀ i fault, ((p.dispatch s i).run m).1 = .error fault → fault.Ordinary := by
  intro p s m
  have hfree : ∀ a ∈ [((0 : Nat), Value.ofInt32 5)], a.2.HandleFree := by
    intro a ha
    obtain rfl := List.mem_singleton.mp ha
    trivial
  exact ⟨trivial, by decide +kernel, by decide +kernel,
    handles_stay_live {} boxInArray [(0, .ofInt32 5)] hfree boxInArray.instructions⟩

end Interpreter

end CilAnalysis
