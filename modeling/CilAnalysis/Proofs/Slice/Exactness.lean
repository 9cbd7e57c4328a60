import CilAnalysis.Proofs.Slice.Expression

/-!
# When a replay finds the arguments of a call

A replay executes the slice of a call and nothing else.  What it finds are the arguments that a run
of the method gives to the call, if the slice is an expression (`Interpreter.argumentsAt_exact`).
It is not enough that the slice has all producers: stores in variables are no part of it, so that a
variable that is loaded may have another value in the run (`Interpreter.argumentsAt_ne_stored`).

## Strategy

The replay gives each instruction of the slice one value.  Along a run the values on the stack are
told apart by the instructions that pushed them, and those that come from the slice are like the
values of the replay (`Mirrors`).  This is kept by every step: outside the slice nothing new has to
be shown, and inside it the instruction finds in the run what it found in the replay, because in the
graph each of its operands has one producer.

* `DataFlowGraph.Replays.operands`: in the run the operands are like the values of the producers.
* `DataFlowGraph.Replays.pushes`: so the run leaves what the replay left, by the comparison of two
  executions.  The heaps of the two differ, so that references are compared by what they refer to.
* `DataFlowGraph.Replays.step` and `Interpreter.recordFrom_mirrors`: one step, and by induction on
  the steps a whole run.

At the call the operands are like what the replay left, and like values are shown as the same
arguments (`Value.Alike.zipWith_ofValue`).
-/

namespace CilAnalysis

open DataFlowGraph

/-! ## Values that come from a slice -/

/-- The values that were pushed by instructions of a slice. -/
def valuesFrom (slice : List Nat) (producers : List (Option (Nat × Nat))) (values : List Value) :
    List Value :=
  ((producers.zip values).filter fun a => a.1.any fun p => decide (p.1 ∈ slice)).map Prod.snd

section ValuesFrom

variable {slice : List Nat} {producers producers' : List (Option (Nat × Nat))}
  {values values' : List Value}

private theorem valuesFrom_append (hlength : producers.length = values.length) :
    valuesFrom slice (producers ++ producers') (values ++ values') =
      valuesFrom slice producers values ++ valuesFrom slice producers' values' := by
  unfold valuesFrom
  rw [List.zip_append hlength, List.filter_append, List.map_append]

private theorem valuesFrom_eq_nil (h : ∀ p ∈ producers, ∀ q slot, p = some (q, slot) → q ∉ slice) :
    valuesFrom slice producers values = [] := by
  unfold valuesFrom
  rw [List.map_eq_nil_iff, List.filter_eq_nil_iff]
  rintro ⟨p, v⟩ hmem hany
  obtain ⟨⟨q, slot⟩, rfl, hq⟩ := (Option.any_eq_true _ _).mp hany
  exact h _ (List.of_mem_zip hmem).1 q slot rfl (of_decide_eq_true hq)

private theorem valuesFrom_eq_self (h : ∀ p ∈ producers, ∃ q ∈ slice, ∃ slot, p = some (q, slot))
    (hlength : producers.length = values.length) : valuesFrom slice producers values = values := by
  have hall : ∀ a ∈ producers.zip values,
      (a.1.any fun p => decide (p.1 ∈ slice)) = true := by
    rintro ⟨p, v⟩ hmem
    obtain ⟨q, hq, slot, rfl⟩ := h p (List.of_mem_zip hmem).1
    exact decide_eq_true hq
  unfold valuesFrom
  rw [List.filter_eq_self.mpr hall, List.map_snd_zip hlength.ge]

end ValuesFrom

/-- The values on a stack that were pushed by instructions of a slice are like the values given for
these, and none of their references occurs twice. -/
structure Mirrors (slice : List Nat) (val : Nat → Value) (h h' : Heap)
    (producers : List (Option (Nat × Nat))) (values : List Value) : Prop where
  alike : ∀ p v, (p, v) ∈ producers.zip values → ∀ q ∈ slice, ∀ slot, p = some (q, slot) →
    v.Alike h h' (val q)
  distinct : Value.DistinctHandles (valuesFrom slice producers values)

namespace Mirrors

variable {slice : List Nat} {val : Nat → Value} {h h' : Heap}
  {producers producers' : List (Option (Nat × Nat))} {values values' : List Value}

theorem nil : Mirrors slice val h h' [] [] where
  alike := fun _ _ hmem => absurd hmem List.not_mem_nil
  distinct := List.Pairwise.nil

theorem mono {h₁ : Heap} (hmirrors : Mirrors slice val h h' producers values)
    (hext : h.Extends h₁) : Mirrors slice val h₁ h' producers values where
  alike := fun p v hmem q hq slot hp => (hmirrors.alike p v hmem q hq slot hp).mono hext (.refl _)
  distinct := hmirrors.distinct

/-- What lies below is mirrored too. -/
theorem of_append (hmirrors : Mirrors slice val h h' (producers ++ producers') (values ++ values'))
    (hlength : producers.length = values.length) :
    Mirrors slice val h h' producers values ∧ Mirrors slice val h h' producers' values' := by
  have hzip : (producers ++ producers').zip (values ++ values') =
      producers.zip values ++ producers'.zip values' := List.zip_append hlength
  obtain ⟨halike, hdistinct⟩ := hmirrors
  rw [hzip] at halike
  rw [valuesFrom_append hlength] at hdistinct
  obtain ⟨habove, hbelow, -⟩ := List.pairwise_append.mp hdistinct
  exact ⟨⟨fun p v hmem => halike p v (List.mem_append_left _ hmem), habove⟩,
    ⟨fun p v hmem => halike p v (List.mem_append_right _ hmem), hbelow⟩⟩

/-- Values from elsewhere are pushed. -/
theorem append_foreign (hmirrors : Mirrors slice val h h' producers' values')
    (hlength : producers.length = values.length)
    (hforeign : ∀ p ∈ producers, ∀ q slot, p = some (q, slot) → q ∉ slice) :
    Mirrors slice val h h' (producers ++ producers') (values ++ values') where
  alike := by
    intro p v hmem q hq slot hp
    rw [List.zip_append hlength] at hmem
    rcases List.mem_append.mp hmem with hmem | hmem
    · exact absurd hq (hforeign p (List.of_mem_zip hmem).1 q slot hp)
    · exact hmirrors.alike p v hmem q hq slot hp
  distinct := by
    rw [valuesFrom_append hlength, valuesFrom_eq_nil hforeign]
    exact hmirrors.distinct

/-- A value from the slice is pushed. -/
theorem cons (hmirrors : Mirrors slice val h h' producers values) {q slot : Nat} {v : Value}
    (hv : v.Alike h h' (val q))
    (hdistinct : Value.DistinctHandles (v :: valuesFrom slice producers values)) (hq : q ∈ slice) :
    Mirrors slice val h h' (some (q, slot) :: producers) (v :: values) where
  alike := by
    intro p u hmem q' hq' slot' hp
    rcases List.mem_cons.mp hmem with heq | hmem
    · obtain ⟨rfl, rfl⟩ := Prod.mk.inj heq
      obtain ⟨rfl, -⟩ := Prod.mk.inj (Option.some.inj hp)
      exact hv
    · exact hmirrors.alike p u hmem q' hq' slot' hp
  distinct := by
    have hone : valuesFrom slice [some (q, slot)] [v] = [v] :=
      valuesFrom_eq_self (List.forall_mem_singleton.mpr ⟨q, hq, slot, rfl⟩) rfl
    have happend : valuesFrom slice (some (q, slot) :: producers) (v :: values) =
        valuesFrom slice [some (q, slot)] [v] ++ valuesFrom slice producers values :=
      valuesFrom_append (show [some (q, slot)].length = [v].length from rfl)
    rw [happend, hone]
    exact hdistinct

/-- Where all values come from the slice, they are like those given, one by one. -/
theorem forall₂ {nodes : List Nat}
    (hmirrors : Mirrors slice val h h' (nodes.map fun q => some (q, 0)) values)
    (hnodes : ∀ q ∈ nodes, q ∈ slice) (hlength : nodes.length = values.length) :
    List.Forall₂ (Value.Alike h h') values (nodes.map val) := by
  induction nodes generalizing values with
  | nil =>
      obtain rfl := List.eq_nil_of_length_eq_zero hlength.symm
      exact .nil
  | cons q nodes ih =>
      cases values with
      | nil => exact nomatch hlength
      | cons v values =>
          obtain ⟨-, hrest⟩ := hmirrors.of_append
            (show [some (q, 0)].length = [v].length from rfl)
          obtain ⟨hq, hnodes⟩ := List.forall_mem_cons.mp hnodes
          exact .cons (hmirrors.alike _ v List.mem_cons_self q hq 0 rfl)
            (ih hrest hnodes (Nat.succ.inj hlength))

end Mirrors

/-! ## Runs -/

/-- The slice of an instruction is an expression that was replayed, in an environment that knows
nothing and from variables without handles: its nodes have their producers among them, and each has
a value. -/
structure DataFlowGraph.Replays (g : DataFlowGraph) (s : Setting) (b : MethodBody) (f : Frame)
    (root : Nat) (slice : List Nat) (val : Nat → Value) (h : Heap) : Prop where
  environment : s.environment = {}
  returnsValue : s.returnsValue = b.returnsValue
  frame : f.HandleFree
  covers : g.CoversPaths b
  expression : g.IsExpression b root slice
  closed : ∀ v ∈ root :: slice, ∀ q ∈ g.producers v, q ∈ slice
  replayed : ∀ q ∈ slice, g.Replayed s b f val h q

namespace DataFlowGraph.Replays

variable {g : DataFlowGraph} {s : Setting} {b : MethodBody} {f : Frame} {root : Nat}
  {slice : List Nat} {val : Nat → Value} {h : Heap} {i : Instruction} {σ : Provenance}
  {m m' : Machine}

/-- In a run the operands of an instruction of the expression are the values of its producers. -/
theorem operands (hr : g.Replays s b f root slice val h) (hi : i ∈ b.instructions)
    (hnode : i.offset ∈ root :: slice) (hfollows : b.Follows i.offset σ m)
    (hmirrors : Mirrors slice val m.heap h σ.stack m.stack) :
    let pops := i.popCount b.returnsValue
    pops ≤ m.stack.length ∧ (g.producers i.offset).length = pops ∧
      List.Forall₂ (Value.Alike m.heap h) (m.stack.take pops)
        ((g.producers i.offset).reverse.map val) ∧
      Value.DistinctHandles
        (m.stack.take pops ++ valuesFrom slice (σ.stack.drop pops) (m.stack.drop pops)) := by
  intro pops
  obtain ⟨place, hplace⟩ := List.mem_iff_getElem?.mp hi
  obtain ⟨hpops, n, hn, hcovers⟩ := hr.covers place i σ hplace (hfollows.path place i hplace rfl)
  have hsingle := hr.expression.single i.offset hnode n hn
  have htaken := taken_eq_producers hn hsingle hcovers hpops
  have hheight := hfollows.height
  have hlength : (σ.stack.take pops).length = (m.stack.take pops).length := by
    rw [List.length_take, List.length_take, hheight]
  have hproducers : (g.producers i.offset).length = pops := by
    have hcount := congrArg List.length htaken
    rw [List.length_take, List.length_map, List.length_reverse] at hcount
    omega
  have hslice : ∀ q ∈ (g.producers i.offset).reverse, q ∈ slice :=
    fun q hq => hr.closed i.offset hnode q (List.mem_reverse.mp hq)
  -- The operands all come from the slice, so the values from the slice are these and some below.
  rw [← List.take_append_drop pops σ.stack, ← List.take_append_drop pops m.stack] at hmirrors
  obtain ⟨habove, -⟩ := hmirrors.of_append hlength
  have hdistinct := hmirrors.distinct
  rw [valuesFrom_append hlength] at hdistinct
  rw [htaken] at habove hlength hdistinct
  rw [valuesFrom_eq_self ?_ hlength] at hdistinct
  · refine ⟨hheight ▸ hpops, hproducers, habove.forall₂ hslice ?_, hdistinct⟩
    rw [← hlength, List.length_map]
  · intro p hp
    obtain ⟨q, hq, rfl⟩ := List.mem_map.mp hp
    exact ⟨q, hslice q hq, 0, rfl⟩

/-- An instruction of the expression leaves in the run what it left in the replay. -/
theorem pushes (hr : g.Replays s b f root slice val h)
    (hfound : b.instructionAt i.offset = .ok i) (hnode : i.offset ∈ slice)
    (hfollows : b.Follows i.offset σ m) (hm : (Discipline.fixing s.width b f).Obeyed s m)
    (hmirrors : Mirrors slice val m.heap h σ.stack m.stack) {t : Successor}
    (hrun : (s.execute i).run m = (.ok t, m')) :
    let pops := i.popCount b.returnsValue
    ∃ v, m'.stack = v :: m.stack.drop pops ∧ v.Alike m'.heap h (val i.offset) ∧
      Value.DistinctHandles (v :: valuesFrom slice (σ.stack.drop pops) (m.stack.drop pops)) := by
  intro pops
  obtain ⟨hi, -⟩ := MethodBody.of_instructionAt hfound
  have hcomputes := hr.expression.computes i.offset hnode i hi rfl
  obtain ⟨hpops, hproducers, halike, hdistinct⟩ :=
    hr.operands hi (List.mem_cons_of_mem root hnode) hfollows hmirrors
  obtain @⟨j, M, M', t', rest, hfound', hrun', hM, hM', hgrown⟩ := hr.replayed i.offset hnode
  obtain rfl := Except.ok.inj (hfound.symm.trans hfound')
  obtain ⟨-, hext⟩ := hM.obeyed.execute_fixing hr.environment hi
  rw [hrun'] at hext
  have hstack : M.stack = (g.producers i.offset).reverse.map val ++ rest.map val := by
    rw [hM.stack, List.map_append]
  -- The operands were compared in the heap at the end of the replay; here an earlier one counts.
  have hbefore : List.Forall₂ (Value.Alike m.heap M.heap) (m.stack.take pops)
      ((g.producers i.offset).reverse.map val) := by
    refine List.forall₂_iff_zip.mpr ⟨halike.length_eq, ?_⟩
    intro v u hmem
    have hplain : u.Alike M.heap M.heap u :=
      hM.plain u (hstack ▸ List.mem_append_left _ (List.of_mem_zip hmem).2)
    exact (List.forall₂_zip halike hmem).restrict hplain (hext.trans hgrown)
  have hcount : (m.stack.take pops).length = i.popCount s.returnsValue := by
    rw [List.length_take, hr.returnsValue]
    exact Nat.min_eq_left hpops
  have hdistinct' : Value.DistinctHandles ((g.producers i.offset).reverse.map val) :=
    (List.pairwise_append.mp (hstack ▸ hM.distinct)).1
  obtain @⟨v, v', hpushed, hpushed', hsame, hmade, -⟩ := hcomputes.yields hr.environment hr.frame
    hm hM.obeyed (List.take_append_drop pops m.stack).symm hstack hbefore hcount
    (List.pairwise_append.mp hdistinct).1 hdistinct' hrun hrun'
  obtain rfl : v' = val i.offset := by
    rw [hM'.stack] at hpushed'
    exact (List.cons.inj hpushed').1.symm
  refine ⟨v, hpushed, hsame.mono (.refl _) hgrown, hdistinct.cons_madeFrom ?_ hmade⟩
  intro u hu
  obtain ⟨⟨p, u⟩, hmem, rfl⟩ := List.mem_map.mp hu
  have hu : u ∈ m.stack :=
    List.mem_of_mem_drop (List.of_mem_zip (List.mem_of_mem_filter hmem)).2
  exact Discipline.admits_fixing_iff.mp (hm.values.stack u hu)

/-- Every instruction keeps the values from the expression mirrored. -/
theorem step (hr : g.Replays s b f root slice val h)
    (hfound : b.instructionAt i.offset = .ok i) (hfollows : b.Follows i.offset σ m)
    (hm : (Discipline.fixing s.width b f).Obeyed s m)
    (hmirrors : Mirrors slice val m.heap h σ.stack m.stack) {t : Successor}
    (hrun : (s.execute i).run m = (.ok t, m')) :
    Mirrors slice val m'.heap h
      (σ.observe i (i.popCount s.returnsValue) m'.stack.length).stack m'.stack := by
  obtain ⟨hi, -⟩ := MethodBody.of_instructionAt hfound
  obtain ⟨-, hext⟩ := hm.execute_fixing hr.environment hi
  rw [hrun] at hext
  obtain ⟨-, new, hnew, hstack⟩ := s.execute_stack i hr.environment hrun
  have hafter : σ.observe i (i.popCount s.returnsValue) m'.stack.length =
      σ.after i (i.popCount s.returnsValue) := by
    refine Provenance.observe_eq_after ?_
    rw [hstack, List.length_append, hnew, hfollows.height]
    cases i.clearsStack <;> simp
  have hbelow : Mirrors slice val m'.heap h (σ.stack.drop (i.popCount s.returnsValue))
      (m.stack.drop (i.popCount s.returnsValue)) := by
    rw [← List.take_append_drop (i.popCount s.returnsValue) σ.stack,
      ← List.take_append_drop (i.popCount s.returnsValue) m.stack] at hmirrors
    refine (hmirrors.of_append ?_).2.mono hext
    rw [List.length_take, List.length_take, hfollows.height]
  rw [hafter]
  unfold Provenance.after
  dsimp only
  by_cases hnode : i.offset ∈ slice
  · have hone : i.pushCount = 1 := (hr.expression.computes i.offset hnode i hi rfl).one
    obtain ⟨v, hpushed, halike, hdistinct⟩ :=
      hr.pushes hfound hnode hfollows hm hmirrors hrun
    rw [← hr.returnsValue] at hpushed hdistinct
    rw [hpushed, hone, Instruction.clearsStack_of_pushCount hone]
    exact hbelow.cons halike hdistinct hnode
  · -- Outside the slice nothing new has to be mirrored.
    have hforeign : ∀ p ∈ (List.range i.pushCount).reverse.map fun slot => some (i.offset, slot),
        ∀ q slot, p = some (q, slot) → q ∉ slice := by
      rintro p hp q slot rfl
      obtain ⟨_, -, heq⟩ := List.mem_map.mp hp
      obtain ⟨rfl, -⟩ := Prod.mk.inj (Option.some.inj heq)
      exact hnode
    rw [hstack]
    refine Mirrors.append_foreign ?_ ?_ hforeign
    · cases i.clearsStack with
      | true => exact .nil
      | false => exact hbelow
    · rw [List.length_map, List.length_reverse, List.length_range, hnew]

end DataFlowGraph.Replays

/-- Whatever a run executes, the values from the expression are mirrored. -/
theorem Interpreter.recordFrom_mirrors {g : DataFlowGraph} {s : Setting} {b : MethodBody}
    {f : Frame} {root : Nat} {slice : List Nat} {val : Nat → Value} {h : Heap}
    (hr : g.Replays s b f root slice val h) (hb : b.Contiguous)
    (hlong : ∀ i ∈ b.instructions, i.expand = i) (options : Options) (steps : Nat) {offset : Nat}
    {σ : Provenance} {m : Machine} (hfollows : b.Follows offset σ m)
    (hm : (Discipline.fixing s.width b f).Obeyed s m)
    (hmirrors : Mirrors slice val m.heap h σ.stack m.stack) :
    ∀ e ∈ (({ options } : Interpreter).recordFrom s b steps offset σ m).1,
      e.instruction ∈ b.instructions ∧
        b.Follows e.instruction.offset e.provenance e.before ∧
        Mirrors slice val e.before.heap h e.provenance.stack e.before.stack := by
  induction steps generalizing offset σ m with
  | zero => exact fun e he => absurd he List.not_mem_nil
  | succ steps ih =>
      unfold recordFrom
      cases hfound : b.instructionAt offset with
      | error e => exact fun e he => absurd he List.not_mem_nil
      | ok i =>
          obtain ⟨hi, rfl⟩ := MethodBody.of_instructionAt hfound
          dsimp only
          rw [dispatch_eq_execute]
          cases hrun : (s.execute i).run m with
          | mk outcome m' =>
              cases outcome with
              | error fault => exact List.forall_mem_singleton.mpr ⟨hi, hfollows, hmirrors⟩
              | ok t =>
                  dsimp only
                  cases hnext : continuation i m' t with
                  | inl next =>
                      refine List.forall_mem_cons.mpr ⟨⟨hi, hfollows, hmirrors⟩, ih ?_ ?_ ?_⟩
                      · obtain ⟨place, hplace⟩ := List.mem_iff_getElem?.mp hi
                        have hexpand := hlong i hi
                        have hfollows' := hfollows.step hb hplace hr.environment hr.returnsValue
                          (hexpand.symm ▸ hrun) (hexpand.symm ▸ hnext)
                        rwa [hexpand] at hfollows'
                      · obtain ⟨hm', -⟩ := hm.execute_fixing hr.environment hi
                        rwa [hrun] at hm'
                      · exact hr.step hfound hfollows hm hmirrors hrun
                  | inr outcome => exact List.forall_mem_singleton.mpr ⟨hi, hfollows, hmirrors⟩

/-! ## Arguments -/

namespace MethodBody

variable {b : MethodBody}

theorem Contiguous.expand (hb : b.Contiguous) : b.expand.Contiguous := by
  have hsize : ∀ i : Instruction, i.expand.size = i.size := by
    intro i
    unfold Instruction.expand
    split <;> rfl
  constructor
  · refine (List.isChain_map Instruction.expand).mpr (hb.1.imp ?_)
    intro i j hnext
    rw [Instruction.next_expand, Instruction.offset_expand, hnext]
  · intro i hi
    obtain ⟨j, hj, rfl⟩ := List.mem_map.mp hi
    rw [hsize]
    exact hb.2 j hj

/-- A run starts at the first instruction with nothing on the stack. -/
theorem Contiguous.follows_start (hb : b.Contiguous) {first : Instruction} {rest : List Instruction}
    (hcode : b.instructions = first :: rest) {m : Machine} (hm : m.stack = []) :
    b.Follows first.offset (.ofHeight m.stack.length) m := by
  refine ⟨List.length_replicate, ?_⟩
  intro place i hplace hoffset
  have hfirst : b.instructions[0]? = some first := by rw [hcode]; rfl
  obtain rfl := hb.ascending.eq_of_offset_eq hplace hfirst hoffset
  rw [hm]
  exact .start hplace

end MethodBody

namespace Interpreter

variable {b : MethodBody} {g : DataFlowGraph} {offset : Nat} {slice : List Nat}

theorem replayTo_eq (p : Interpreter) (hg : DataFlowGraph.ofBody b.expand = .ok g)
    (hslice : g.stackSlice offset = .ok slice) :
    p.replayTo b offset = p.replay b.expand slice (p.start b.expand) := by
  unfold replayTo
  dsimp only
  rw [hg]
  change (g.stackSlice offset).mapError ReplayError.refused >>= _ = _
  rw [hslice]
  rfl

/-- What the arguments of a call are read off. -/
theorem argumentsAt_eq_ok {p : Interpreter} {arguments : List Argument}
    (h : p.argumentsAt b offset = .ok arguments) :
    ∃ i signature m, b.instructionAt offset = .ok i ∧ i.callSignature? = some signature ∧
      p.replayTo b offset = .ok m ∧ signature.parameters.length ≤ m.stack.length ∧
      arguments = (m.stack.take signature.parameters.length).reverse.zipWith
        (fun v type => .ofValue p.options.width m.heap type v) signature.parameters := by
  unfold argumentsAt at h
  obtain ⟨i, hi, h⟩ := bind_eq_ok h
  cases hsignature : i.callSignature? with
  | none =>
      rw [hsignature] at h
      exact nomatch h
  | some signature =>
      rw [hsignature] at h
      obtain ⟨m, hm, h⟩ := bind_eq_ok h
      by_cases hfew : m.stack.length < signature.parameters.length
      · simp only [hfew, if_true] at h
        exact nomatch h
      · simp only [hfew, if_false] at h
        have hfound : b.instructionAt offset = .ok i := by
          cases hat : b.instructionAt offset with
          | error e =>
              rw [hat] at hi
              exact nomatch hi
          | ok j =>
              rw [hat] at hi
              cases hi
              rfl
        exact ⟨i, signature, m, hfound, hsignature, hm, Nat.le_of_not_lt hfew,
          (Except.ok.inj h).symm⟩

/-- The replay of an expression leaves the values of the last producers. -/
theorem replays_of_replayTo {options : Options} (hb : b.Contiguous)
    (hfirst : ∀ c ∈ b.clauses, ∀ i, b.instructions[0]? = some i → ¬ c.EntersAt i.offset)
    (hg : DataFlowGraph.ofBody b.expand = .ok g) (hslice : g.stackSlice offset = .ok slice)
    (hexpression : g.IsExpression b.expand offset slice) {m : Machine}
    (hreplay : ({ options } : Interpreter).replayTo b offset = .ok m) :
    ∃ val, m.stack = (g.producers offset).reverse.map val ∧
      g.Replays (({ options } : Interpreter).setting b) b.expand
        (({ options } : Interpreter).start b).frame offset slice val m.heap := by
  rw [replayTo_eq _ hg hslice] at hreplay
  have hascending := hb.expand.ascending
  have hcovers : g.CoversPaths b.expand := by
    refine ofBody_coversPaths hascending ?_ hg
    intro c hc i hi
    have hmap : (b.instructions.map Instruction.expand)[0]? = some i := hi
    rw [List.getElem?_map] at hmap
    obtain ⟨j, hj, rfl⟩ := Option.map_eq_some_iff.mp hmap
    rw [Instruction.offset_expand]
    exact hfirst c hc j hj
  have hevaluates := stackSlice_evaluates hslice hexpression.tree
  have hnodup := (List.nodup_cons.mp (stackSlice_nodup hslice)).2
  have hcomputes : ∀ q ∈ slice, ∀ i ∈ b.expand.instructions, i.offset = q →
      b.expand.Computes i ∧ (g.producers q).length = i.popCount b.returnsValue := by
    rintro q hq i hi rfl
    have hnode := List.mem_cons_of_mem offset hq
    obtain ⟨n, hn⟩ := stackSlice_exists_node hslice i.offset hnode
    exact ⟨hexpression.computes i.offset hq i hi rfl,
      length_producers hascending hg hi hn (hexpression.single i.offset hnode n hn)⟩
  have hstart : (({ options } : Interpreter).start b).Evaluated
      (({ options } : Interpreter).setting b) b.expand (({ options } : Interpreter).start b).frame
      (fun _ => .null) [] :=
    { stack := rfl
      plain := fun v hv => absurd hv List.not_mem_nil
      distinct := List.Pairwise.nil
      obeyed := Discipline.obeyed_fixing_start _ b b.expand }
  obtain ⟨val, -, hm, -, hreplayed⟩ := replay_replayed rfl
    (Discipline.handleFree_start _ b) hevaluates hnodup hcomputes hstart hreplay
  refine ⟨val, hm.stack, rfl, rfl, Discipline.handleFree_start _ b, hcovers, hexpression, ?_,
    hreplayed⟩
  -- What the instruction itself takes is what the replay leaves.
  obtain ⟨hfinal, horder⟩ := hevaluates.mem
  refine List.forall_mem_cons.mpr ⟨?_, horder⟩
  intro q hq
  exact hfinal q (List.mem_reverse.mpr hq)

/-- A replay finds the arguments that a run gives to a call, if the slice of the call is an
expression: the replayed slice leaves at least as many values as the call has parameters, and
whenever a run of the method from its start gets to the call, the arguments are what is known of the
values on top of the stack.  Nothing is known less or more exactly than in the run. -/
theorem argumentsAt_exact (options : Options) (hb : b.Contiguous)
    (hfirst : ∀ c ∈ b.clauses, ∀ i, b.instructions[0]? = some i → ¬ c.EntersAt i.offset)
    (hg : DataFlowGraph.ofBody b.expand = .ok g) (hslice : g.stackSlice offset = .ok slice)
    (hexpression : g.IsExpression b.expand offset slice) {arguments : List Argument}
    (harguments : ({ options } : Interpreter).argumentsAt b offset = .ok arguments) :
    let p : Interpreter := { options }
    (p.recordWith b (p.start b)).2 = p.runWith b (p.start b) ∧
      ∃ i signature, b.instructionAt offset = .ok i ∧ i.callSignature? = some signature ∧
        ∀ e ∈ (p.recordWith b (p.start b)).1, e.instruction.offset = offset →
          signature.parameters.length ≤ e.before.stack.length ∧
          arguments = (e.before.stack.take signature.parameters.length).reverse.zipWith
            (fun v type => .ofValue options.width e.before.heap type v) signature.parameters := by
  intro p
  refine ⟨p.recordWith_snd b _, ?_⟩
  obtain ⟨i, signature, m, hi, hsignature, hreplay, hcount, rfl⟩ := argumentsAt_eq_ok harguments
  refine ⟨i, signature, hi, hsignature, ?_⟩
  obtain ⟨val, hstack, hr⟩ := replays_of_replayTo hb hfirst hg hslice hexpression hreplay
  intro e he hoffset
  have hlong : ∀ i ∈ b.expand.instructions, i.expand = i := by
    intro i hi
    obtain ⟨j, -, rfl⟩ := List.mem_map.mp hi
    exact j.expand_expand
  have hrecorded : e.instruction ∈ b.expand.instructions ∧
      b.expand.Follows e.instruction.offset e.provenance e.before ∧
      Mirrors slice val e.before.heap m.heap e.provenance.stack e.before.stack := by
    unfold recordWith at he
    cases hcode : b.expand.instructions with
    | nil =>
        rw [hcode] at he
        exact absurd he List.not_mem_nil
    | cons first rest =>
        rw [hcode] at he
        rw [← hcode]
        exact recordFrom_mirrors hr hb.expand hlong options _ (hb.expand.follows_start hcode rfl)
          (Discipline.obeyed_fixing_start _ b b.expand) .nil e he
  obtain ⟨hi, hfollows, hmirrors⟩ := hrecorded
  obtain ⟨hpops, hproducers, halike, -⟩ := hr.operands hi (hoffset ▸ List.mem_cons_self) hfollows
    hmirrors
  rw [hoffset] at hproducers halike
  rw [← hstack] at halike
  -- The object of the call lies below its arguments, which are the topmost of the operands.
  have hfew : signature.parameters.length ≤ e.instruction.popCount b.expand.returnsValue := by
    rw [hstack, List.length_map, List.length_reverse, hproducers] at hcount
    exact hcount
  refine ⟨hfew.trans hpops, ?_⟩
  have htop := List.forall₂_take signature.parameters.length halike
  rw [List.take_take, Nat.min_eq_left hfew] at htop
  exact (Value.Alike.zipWith_ofValue (List.forall₂_reverse_iff.mpr htop) _ _).symm

/-- A method of a module without classes. -/
def staticMethod (parameters : List TypeSig) : MethodRef where
  token := ⟨0x06000040⟩
  declaringType := ⟨⟨0x02000001⟩, "", "<Module>", false⟩
  name := "D0"
  signature := ⟨false, parameters, .void⟩
  isVirtual := false

/-- A method that calls another twice, with a text and a sum. -/
def callTwice : MethodBody where
  instructions :=
    [⟨0, .ldc_i4_2, .none, 1⟩, ⟨1, .stloc_0, .none, 1⟩, ⟨2, .ldstr, .string "x", 5⟩,
      ⟨7, .ldc_i4_2, .none, 1⟩, ⟨8, .ldc_i4_3, .none, 1⟩, ⟨9, .add, .none, 1⟩,
      ⟨10, .call, .method (staticMethod [.string, .int32]), 5⟩, ⟨15, .ldloc_0, .none, 1⟩,
      ⟨16, .ldc_i4_1, .none, 1⟩, ⟨17, .sub, .none, 1⟩, ⟨18, .dup, .none, 1⟩,
      ⟨19, .stloc_0, .none, 1⟩, ⟨20, .brtrue_s, .target 2, 2⟩, ⟨22, .ret, .none, 1⟩]
  locals := [.int32]

/-- Both calls of `callTwice` are given what the replay finds, though the texts are two objects. -/
theorem argumentsAt_exact_callTwice :
    let p : Interpreter := {}
    callTwice.Contiguous ∧ p.argumentsAt callTwice 10 = .ok [.string "x", .int32 5] ∧
      ((p.recordWith callTwice (p.start callTwice)).1.filter
        fun e => e.instruction.offset = 10).map (fun e => e.before.stack) =
          [[.int32 (.exact 5), .object (.known ⟨0⟩)], [.int32 (.exact 5), .object (.known ⟨1⟩)]] ∧
      ∃ i signature, callTwice.instructionAt 10 = .ok i ∧ i.callSignature? = some signature ∧
        ∀ e ∈ (p.recordWith callTwice (p.start callTwice)).1, e.instruction.offset = 10 →
          signature.parameters.length ≤ e.before.stack.length ∧
          [.string "x", .int32 5] =
            (e.before.stack.take signature.parameters.length).reverse.zipWith
              (fun v type => Argument.ofValue p.options.width e.before.heap type v)
              signature.parameters := by
  obtain ⟨g, hg, hfound⟩ := exists_of_map_eq_ok (r := ofBody callTwice.expand)
    (f := fun g => (g.leaveWithin ⟨true, false⟩ 10 [] [.enter 10],
      decide (g.IsExpression callTwice.expand 10 [2, 7, 8, 9])))
    (y := (some ([2, 7, 8, 9] ++ [10]), true)) (by decide +kernel)
  obtain ⟨hleave, hexpression⟩ := Prod.mk.inj hfound
  have hslice := stackSlice_of_leaveWithin hleave
  have hcontiguous : callTwice.Contiguous := by decide
  have harguments : ({} : Interpreter).argumentsAt callTwice 10 =
      .ok [.string "x", .int32 5] := by
    unfold argumentsAt
    rw [replayTo_eq _ hg hslice]
    decide +kernel
  have hexact := argumentsAt_exact {} hcontiguous (fun _ hc => absurd hc List.not_mem_nil) hg hslice
    (of_decide_eq_true hexpression) harguments
  exact ⟨hcontiguous, harguments, by decide +kernel, hexact.2⟩

/-- A method that stores a number in a variable and calls another with the variable. -/
def callWithStored : MethodBody where
  instructions :=
    [⟨0, .ldc_i4_5, .none, 1⟩, ⟨1, .stloc_0, .none, 1⟩, ⟨2, .ldloc_0, .none, 1⟩,
      ⟨3, .call, .method (staticMethod [.int32]), 5⟩, ⟨8, .ret, .none, 1⟩]
  locals := [.int32]

/-- The store is no part of the slice, so that the replay finds what the variable holds at first,
while the run gives the call what was stored. -/
theorem argumentsAt_ne_stored :
    let p : Interpreter := {}
    p.argumentsAt callWithStored 3 = .ok [.int32 0] ∧
      ∃ e ∈ (p.recordWith callWithStored (p.start callWithStored)).1, e.instruction.offset = 3 ∧
        e.before.stack.map (Argument.ofValue p.options.width e.before.heap .int32) =
          [.int32 5] := by
  obtain ⟨g, hg, hleave⟩ := exists_of_map_eq_ok (r := ofBody callWithStored.expand)
    (f := fun g => g.leaveWithin ⟨true, false⟩ 10 [] [.enter 3]) (y := some ([2] ++ [3]))
    (by decide +kernel)
  have hslice := stackSlice_of_leaveWithin hleave
  refine ⟨?_, ?_⟩
  · unfold argumentsAt
    rw [replayTo_eq _ hg hslice]
    decide +kernel
  · decide +kernel

end Interpreter

end CilAnalysis
