import CilAnalysis.Proofs.DataFlow.Dependencies
import CilAnalysis.Proofs.Method.Expansion
import CilAnalysis.Proofs.Slice.Exactness

/-!
# Slices of straight-line code

In code without branches and handlers every stack slot has one producer, and the instructions that a
value was computed by stand together: what was computed for one operand lies after the producer of
the operand below it.  This holds whatever stands in between, and for expressions of any depth.  It
fails for `dup`, which pushes two operands at once.

So the order of a slice is the order of the program, and a replay, which executes the slice and
nothing else, finds on its stack the values that the producers of the operands pushed, one for each
(`Interpreter.stackAt_operands`).

## Strategy

* *Paths.*  There is one path to an instruction (`MethodBody.IsStraightLine.reaches_unique`).  Along
  it, of two values on the stack, the lower one was pushed before anything was computed for the
  upper one (`MethodBody.IsStraightLine.apart`): an instruction takes what is on top, so what it
  leaves lies below all that it used.
* *Graphs.*  The node of an instruction merges one path, so each slot has one source
  (`DataFlowGraph.hasSingleSources`), and the producers are nested
  (`DataFlowGraph.nested_producers`).  A search among nested producers never comes to one that it
  has seen, and finishes them in the order of their offsets (`DataFlowGraph.IsProgramOrder`).
* *Replays.*  What can be evaluated in an order is replayed in it, and each instruction of the slice
  leaves one value (`Interpreter.replay_pushes`, by induction on the evaluation).
-/

namespace CilAnalysis

open DataFlowGraph DepthFirst Relation

/-- Only `dup` pushes more than one value. -/
theorem Instruction.pushCount_le_one {i : Instruction} (h : i.opcode ≠ .dup) : i.pushCount ≤ 1 := by
  unfold pushCount
  cases hpush : i.opcode.stackPush with
  | bySignature =>
      dsimp only
      cases i.signature? with
      | none => exact Nat.zero_le 1
      | some s => exact s.returnsValue.toNat_le
  | fixed count =>
      dsimp only
      revert h hpush
      generalize i.opcode = opcode
      cases opcode with
      | dup => exact fun hdup => absurd rfl hdup
      | _ =>
          intro _ hpush
          cases hpush <;> decide

/-! ## Paths through straight-line code -/

namespace MethodBody

/-- Control only goes from an instruction to the next one: there are no handlers and no branches. -/
structure IsStraightLine (b : MethodBody) : Prop where
  clauses : b.clauses = []
  targets : ∀ i ∈ b.instructions, i.targets = []

instance (b : MethodBody) : Decidable b.IsStraightLine :=
  decidable_of_iff (_ ∧ _) ⟨fun ⟨h₁, h₂⟩ => ⟨h₁, h₂⟩, fun h => ⟨h.clauses, h.targets⟩⟩

/-- Along a path without exceptions, an instruction takes a value that another one pushed. -/
inductive Takes (b : MethodBody) (v w : Nat) : Prop where
  | intro {place slot : Nat} {i : Instruction} {σ : Provenance}
      (hplace : b.instructions[place]? = some i) (hoffset : i.offset = v)
      (hpath : b.Reaches [] place σ)
      (htaken : some (w, slot) ∈ σ.stack.take (i.popCount b.returnsValue))

/-- Some instructions push at most one value each. -/
def PushOne (b : MethodBody) (P : Nat → Prop) : Prop :=
  ∀ i ∈ b.instructions, P i.offset → i.pushCount ≤ 1

variable {b : MethodBody} {place v w : Nat} {i : Instruction} {σ τ : Provenance}

/-- A value on the stack is one of those that some instruction pushes. -/
theorem Reaches.exists_pushed {clauses : List Clause} (h : b.Reaches clauses place σ) {slot : Nat}
    (hw : some (w, slot) ∈ σ.stack) :
    ∃ i ∈ b.instructions, i.offset = w ∧ slot < i.pushCount := by
  obtain ⟨depth, hdepth⟩ := List.mem_iff_getElem?.mp hw
  have hslot : σ.Has 0 (.slot depth ⟨0, w, slot⟩) := ⟨hdepth, rfl⟩
  obtain ⟨i, hi, slot', hlt, hsource⟩ := h.produces hslot
  obtain ⟨-, rfl, rfl⟩ := DataSource.mk.inj hsource
  exact ⟨i, hi, rfl, hlt⟩

namespace IsStraightLine

/-- A path starts at the first instruction and goes on to the next. -/
theorem reaches_induction (hline : b.IsStraightLine) {P : Nat → Provenance → Prop}
    (hstart : P 0 (.ofHeight 0))
    (hnext : ∀ place i j σ, b.Reaches [] place σ → P place σ → b.instructions[place]? = some i →
      b.instructions[place + 1]? = some j → P (place + 1) (σ.after i (i.popCount b.returnsValue)))
    (h : b.Reaches [] place σ) : P place σ := by
  induction h with
  | start _ => exact hstart
  | next hbefore hplace _ htarget ih => exact hnext _ _ _ _ hbefore ih hplace htarget
  | branch _ hplace _ hbranch _ =>
      rw [hline.targets _ (List.mem_of_getElem? hplace)] at hbranch
      exact absurd hbranch List.not_mem_nil
  | enter hc _ _ => exact absurd hc List.not_mem_nil
  | raiseBefore _ _ hc _ _ _ _ => exact absurd hc List.not_mem_nil
  | raiseAfter _ _ hc _ _ _ _ => exact absurd hc List.not_mem_nil

/-- There is one path to an instruction. -/
theorem reaches_unique (hline : b.IsStraightLine) (hσ : b.Reaches [] place σ)
    (hτ : b.Reaches [] place τ) : τ = σ := by
  -- Both are what the instructions before the place leave.
  have heq : ∀ {σ}, b.Reaches [] place σ → σ = (b.instructions.take place).foldl
      (fun σ i => σ.after i (i.popCount b.returnsValue)) (.ofHeight 0) := by
    intro σ hσ
    refine hline.reaches_induction (P := fun place σ => σ = (b.instructions.take place).foldl
      (fun σ i => σ.after i (i.popCount b.returnsValue)) (.ofHeight 0)) rfl ?_ hσ
    intro place i j σ _ ih hplace _
    rw [List.take_add_one, hplace, List.foldl_append, ← ih]
    rfl
  rw [heq hσ, heq hτ]

/-- Whatever is on the stack was pushed before. -/
theorem offset_lt (hline : b.IsStraightLine) (hb : b.Ascending) (hσ : b.Reaches [] place σ)
    (hplace : b.instructions[place]? = some i) {slot : Nat} (hw : some (w, slot) ∈ σ.stack) :
    w < i.offset := by
  refine hline.reaches_induction (P := fun place σ => ∀ i, b.instructions[place]? = some i →
    ∀ w slot, some (w, slot) ∈ σ.stack → w < i.offset) ?_ ?_ hσ i hplace w slot hw
  · exact fun _ _ _ _ hw => absurd hw List.not_mem_nil
  · intro place i j σ _ ih hplace hnext j' hnext' w slot hw
    obtain rfl := Option.some.inj (hnext.symm.trans hnext')
    have hlt := hb.offset_lt hplace hnext (Nat.lt_succ_self place)
    rcases List.mem_append.mp hw with hpushed | hkept
    · obtain ⟨_, -, heq⟩ := List.mem_map.mp hpushed
      obtain ⟨rfl, -⟩ := Prod.mk.inj (Option.some.inj heq)
      exact hlt
    · split at hkept
      next => exact absurd hkept List.not_mem_nil
      next => exact (ih i hplace w slot (List.mem_of_mem_drop hkept)).trans hlt

/-- An instruction takes what is on top of the stack along the path to it. -/
theorem mem_take (hline : b.IsStraightLine) (hb : b.Ascending) (hσ : b.Reaches [] place σ)
    (hplace : b.instructions[place]? = some i) (h : b.Takes i.offset w) :
    ∃ slot, some (w, slot) ∈ σ.stack.take (i.popCount b.returnsValue) := by
  obtain ⟨hplace', hoffset, hpath, htaken⟩ := h
  obtain rfl := hb.eq_of_offset_eq hplace' hplace hoffset
  obtain rfl := Option.some.inj (hplace'.symm.trans hplace)
  obtain rfl := hline.reaches_unique hσ hpath
  exact ⟨_, htaken⟩

end IsStraightLine

/-- Of two values on the stack, the lower one was pushed before anything was computed for the upper
one, if the lower one was pushed alone. -/
def Apart (b : MethodBody) (upper lower : Option (Nat × Nat)) : Prop :=
  ∀ y x slot slot', upper = some (y, slot) → lower = some (x, slot') → b.PushOne (· = x) →
    ∀ w, ReflTransGen b.Takes y w → x < w

/-- Values that are computed while another one stays on the stack are computed after it. -/
theorem IsStraightLine.apart (hline : b.IsStraightLine) (hb : b.Ascending)
    (hσ : b.Reaches [] place σ) : σ.stack.Pairwise b.Apart := by
  refine hline.reaches_induction (P := fun _ σ => σ.stack.Pairwise b.Apart) .nil ?_ hσ
  intro place i j σ hσ ih hplace _
  have hi := List.mem_of_getElem? hplace
  refine List.pairwise_append.mpr ⟨?_, ?_, ?_⟩
  · by_cases hone : i.pushCount ≤ 1
    · rcases Nat.le_one_iff_eq_zero_or_eq_one.mp hone with hcount | hcount <;> simp [hcount]
    · refine List.pairwise_map.mpr (List.pairwise_of_forall ?_)
      intro _ _ _ x _ _ _ hlower hsingle
      obtain ⟨rfl, -⟩ := Prod.mk.inj (Option.some.inj hlower)
      exact absurd (hsingle i hi rfl) hone
  · split
    next => exact .nil
    next => exact ih.sublist (List.drop_sublist _ _)
  · intro upper hupper lower hlower y x slot slot' hy hx hsingle w hreach
    obtain ⟨_, -, heq⟩ := List.mem_map.mp hupper
    obtain ⟨rfl, -⟩ := Prod.mk.inj (Option.some.inj (heq.trans hy))
    subst hx
    split at hlower
    next => exact absurd hlower List.not_mem_nil
    next =>
      rcases hreach.cases_head with rfl | ⟨z, htakes, hreach⟩
      · exact hline.offset_lt hb hσ hplace (List.mem_of_mem_drop hlower)
      · -- What the instruction takes lies above what it leaves on the stack.
        obtain ⟨slot, hz⟩ := hline.mem_take hb hσ hplace htakes
        rw [← List.take_append_drop (i.popCount b.returnsValue) σ.stack] at ih
        exact (List.pairwise_append.mp ih).2.2 _ hz _ hlower z x slot slot' rfl rfl hsingle w hreach

end MethodBody

/-! ## Graphs of straight-line code -/

namespace DataFlowGraph

variable {b : MethodBody} {id : Nat} {g : DataFlowGraph} {v w root : Nat} {n : DataFlowNode}

/-- Without handlers the node of an instruction merges the paths to it, and there is one. -/
theorem exists_mergesPaths (hb : b.Ascending) (hclauses : b.clauses = [])
    (hg : ofBody b id = .ok g) (hn : g.nodes.get? v = some n) :
    ∃ place i σ, b.instructions[place]? = some i ∧ i.offset = v ∧ b.Reaches [] place σ ∧
      n.MergesPaths b g.id place i := by
  have hnone : ∀ c ∈ b.clauses, False := fun c hc => List.not_mem_nil (hclauses ▸ hc)
  obtain ⟨x₀, x, hentered, hx, hrest, rfl⟩ := ofBody_eq_ok hb hg
  have hrooted := hentered.rooted (fun c hc => (hnone c hc).elim) (fun c hc => (hnone c hc).elim)
  obtain ⟨place, i, hplace, rfl, -⟩ := hx.node v (SortedMap.mem_iff_get?.mpr ⟨n, hn⟩)
  obtain ⟨s, hs, henough, rfl⟩ := hx.exists_state hb hrest hplace hn
  have hwitnessed := hx.sound.witnessed place s hs
  obtain ⟨σ, hσ⟩ := hwitnessed.reached
  refine ⟨place, i, σ, hplace, rfl, hclauses ▸ hσ, ?_⟩
  refine Instruction.flowNode_mergesPaths henough hwitnessed fun τ hτ => ?_
  obtain ⟨t, ht, hwithin⟩ := hx.holds hrest hrooted (List.Subset.refl _) hτ
  obtain rfl : s = t := Option.some.inj (hs.symm.trans ht)
  exact hwithin

private theorem coversPaths_of_no_clauses (hb : b.Ascending) (hclauses : b.clauses = [])
    (hg : ofBody b id = .ok g) : g.CoversPaths b :=
  ofBody_coversPaths hb (fun _ hc => absurd (hclauses ▸ hc) List.not_mem_nil) hg

/-- Without handlers the dependencies on the stack are what instructions take along paths. -/
theorem dependsOn_iff_takes (hb : b.Ascending) (hclauses : b.clauses = [])
    (hg : ofBody b id = .ok g) : g.DependsOn ⟨true, false⟩ v w ↔ b.Takes v w := by
  constructor
  · intro hdepends
    cases hdepends with
    | @stack n d source _ hn hd hsource =>
        obtain ⟨place, i, -, hplace, hoffset, -, hmerges⟩ := exists_mergesPaths hb hclauses hg hn
        obtain ⟨k, hk⟩ := List.mem_iff_getElem?.mp hd
        obtain ⟨-, σ, hσ, htaken⟩ := (hmerges.taken k d source hk).mp hsource
        have htaken := List.mem_reverse.mp (List.mem_of_getElem? htaken)
        exact .intro hplace hoffset (hclauses ▸ hσ) htaken
    | ofVariable hkind => cases hkind
  · rintro @⟨place, slot, i, σ, hplace, rfl, hσ, htaken⟩
    obtain ⟨hpops, n, hn, hcovers⟩ := coversPaths_of_no_clauses hb hclauses hg place i σ hplace hσ
    obtain ⟨k, hk⟩ := List.mem_iff_getElem?.mp (List.mem_reverse.mpr htaken)
    have hlt : k < i.popCount b.returnsValue := by
      obtain ⟨hlt, -⟩ := List.getElem?_eq_some_iff.mp hk
      rw [List.length_reverse, List.length_take] at hlt
      omega
    obtain ⟨d, node, slot', hd, hproducer, hmem⟩ := hcovers.taken k hlt
    obtain ⟨rfl, rfl⟩ := Prod.mk.inj (Option.some.inj (Option.some.inj (hk.symm.trans hproducer)))
    exact .stack rfl hn (List.mem_of_getElem? hd) hmem

private theorem leads_eq_takes (hb : b.Ascending) (hclauses : b.clauses = [])
    (hg : ofBody b id = .ok g) : Leads (g.adjacency ⟨true, false⟩) = b.Takes := by
  rw [leads_eq]
  funext v w
  exact propext (dependsOn_iff_takes hb hclauses hg)

/-- In straight-line code the sources of a slot are read off the one path to the instruction. -/
theorem mem_sources_iff (hline : b.IsStraightLine) {graph place k : Nat} {i : Instruction}
    {σ : Provenance} (hσ : b.Reaches [] place σ) (hmerges : n.MergesPaths b graph place i)
    {d : StackDependency} (hd : n.stack.items[k]? = some d) {source : DataSource} :
    source ∈ d.sources ↔ source.graph = graph ∧
      (σ.taken (i.popCount b.returnsValue))[k]? = some (some (source.node, source.slot)) := by
  rw [hmerges.taken k d source hd, hline.clauses]
  refine and_congr_right fun _ => ⟨?_, fun htaken => ⟨σ, hσ, htaken⟩⟩
  rintro ⟨τ, hτ, htaken⟩
  rwa [hline.reaches_unique hσ hτ] at htaken

/-- Each value that is taken has one source, and that is the first value which an instruction
pushes, if it pushes no more than one. -/
theorem hasSingleSources (hline : b.IsStraightLine) (hb : b.Ascending) (hg : ofBody b id = .ok g)
    (hn : g.nodes.get? v = some n) (hone : b.PushOne (b.Takes v)) : n.HasSingleSources g.id := by
  intro d hd
  obtain ⟨place, i, σ, hplace, rfl, hσ, hmerges⟩ := exists_mergesPaths hb hline.clauses hg hn
  obtain ⟨-, n', hn', hcovers⟩ :=
    coversPaths_of_no_clauses hb hline.clauses hg place i σ hplace hσ
  obtain rfl := Option.some.inj (hn.symm.trans hn')
  obtain ⟨k, hk⟩ := List.mem_iff_getElem?.mp hd
  have hlt : k < i.popCount b.returnsValue := by
    obtain ⟨hlt, -⟩ := List.getElem?_eq_some_iff.mp hk
    rwa [hmerges.length] at hlt
  obtain ⟨-, node, slot, -, hproducer, -⟩ := hcovers.taken k hlt
  have htaken := List.mem_reverse.mp (List.mem_of_getElem? hproducer)
  obtain ⟨j, hj, hoffset, hslot⟩ := hσ.exists_pushed (List.mem_of_mem_take htaken)
  have hcount := hone j hj (hoffset ▸ .intro hplace rfl hσ htaken)
  obtain rfl : slot = 0 := by omega
  have honly : ∀ source, source ∈ d.sources ↔ source = ⟨g.id, node, 0⟩ := by
    rintro ⟨graph, q, slot⟩
    rw [mem_sources_iff hline hσ hmerges hk, hproducer]
    simp only [Option.some_inj, Prod.mk.injEq, DataSource.mk.injEq]
    tauto
  have hkeys : d.sources.keys = [⟨g.id, node, 0⟩] := by
    refine List.perm_singleton.mp ?_
    refine (List.perm_ext_iff_of_nodup d.sources.nodup_keys (List.nodup_singleton _)).mpr ?_
    exact fun source => (honly source).trans List.mem_singleton.symm
  rw [hkeys]
  rfl

/-- What an instruction takes along the path to it are the values of its producers. -/
theorem take_eq_producers_of_path (hline : b.IsStraightLine) (hb : b.Ascending)
    (hg : ofBody b id = .ok g) {place : Nat} {i : Instruction} {σ : Provenance}
    (hplace : b.instructions[place]? = some i) (hσ : b.Reaches [] place σ)
    (hone : b.PushOne (b.Takes i.offset)) :
    i.offset ∈ g.nodes ∧ σ.stack.take (i.popCount b.returnsValue) =
      (g.producers i.offset).reverse.map fun q => some (q, 0) := by
  obtain ⟨hpops, n, hn, hcovers⟩ :=
    coversPaths_of_no_clauses hb hline.clauses hg place i σ hplace hσ
  have hsingle := hasSingleSources hline hb hg hn hone
  exact ⟨SortedMap.mem_iff_get?.mpr ⟨n, hn⟩, taken_eq_producers hn hsingle hcovers hpops⟩

/-- Two graphs of one method have the same producers. -/
theorem producers_eq {id' : Nat} {g' : DataFlowGraph} (hline : b.IsStraightLine) (hb : b.Ascending)
    (hg : ofBody b id = .ok g) (hg' : ofBody b id' = .ok g') (hv : v ∈ g.nodes)
    (hone : b.PushOne (b.Takes v)) : v ∈ g'.nodes ∧ g'.producers v = g.producers v := by
  obtain ⟨n, hn⟩ := SortedMap.mem_iff_get?.mp hv
  obtain ⟨place, i, σ, hplace, rfl, hσ, -⟩ := exists_mergesPaths hb hline.clauses hg hn
  obtain ⟨-, htaken⟩ := take_eq_producers_of_path hline hb hg hplace hσ hone
  obtain ⟨hnode, htaken'⟩ := take_eq_producers_of_path hline hb hg' hplace hσ hone
  have hinjective : Function.Injective fun q : Nat => some (q, 0) := fun _ _ heq =>
    (Prod.mk.inj (Option.some.inj heq)).1
  have hsame := List.map_injective_iff.mpr hinjective (htaken'.symm.trans htaken)
  exact ⟨hnode, List.reverse_injective hsame⟩

/-- The producers of what the instructions of a slice take are nested, if they push one value each.
-/
theorem nested_producers (hline : b.IsStraightLine) (hb : b.Ascending) (hg : ofBody b id = .ok g)
    (hone : b.PushOne (TransGen b.Takes root)) : Nested (g.adjacency ⟨true, false⟩) [root] := by
  have hleads := leads_eq_takes hb hline.clauses hg
  refine ⟨List.pairwise_singleton _ _, List.forall_mem_singleton.mpr ?_⟩
  intro x hx ws hnext
  rw [hleads] at hx
  have hbelow : ∀ w, b.Takes x w → b.PushOne (· = w) := by
    rintro w hw i hi rfl
    exact hone i hi (.tail' hx hw)
  obtain ⟨n, hn, -⟩ := Option.map_eq_some_iff.mp hnext
  obtain ⟨place, i, σ, hplace, rfl, hσ, -⟩ := exists_mergesPaths hb hline.clauses hg hn
  obtain ⟨-, htaken⟩ := take_eq_producers_of_path hline hb hg hplace hσ
    fun j hj hw => hbelow j.offset hw j hj rfl
  rw [producers_eq_of_adjacency hnext] at htaken
  have htakes : ∀ w ∈ ws, some (w, 0) ∈ σ.stack.take (i.popCount b.returnsValue) := by
    intro w hw
    rw [htaken]
    exact List.mem_map_of_mem (List.mem_reverse.mpr hw)
  constructor
  · have hapart := (hline.apart hb hσ).sublist (List.take_sublist (i.popCount b.returnsValue) _)
    rw [htaken] at hapart
    refine (List.pairwise_reverse.mp (List.pairwise_map.mp hapart)).imp_of_mem ?_
    intro u w hu _ hupper y hy
    rw [hleads] at hy
    exact hupper w u 0 0 rfl rfl (hbelow u (.intro hplace rfl hσ (htakes u hu))) y hy
  · intro w hw
    exact hline.offset_lt hb hσ hplace (List.mem_of_mem_take (htakes w hw))

/-- A search among nested producers passes over none of them, and finishes them in an order in which
they can be evaluated. -/
theorem evaluates_of_explores {seen vs discovered finished : List Nat}
    (h : Explores (g.adjacency ⟨true, false⟩) seen vs discovered finished)
    (hvs : Nested (g.adjacency ⟨true, false⟩) vs)
    (hnew : ∀ v ∈ vs, ∀ x, ReflTransGen (Leads (g.adjacency ⟨true, false⟩)) v x → x ∉ seen)
    (stack : List Nat) : g.Evaluates stack finished (vs.reverse ++ stack) := by
  induction h generalizing stack with
  | nil => exact .nil stack
  | pass hv => exact absurd hv (hnew _ List.mem_cons_self _ .refl)
  | @visit seen vs ws discovered finished discovered' finished' v _ hnext below _ ihbelow ihrest =>
      obtain ⟨hnewv, hnew⟩ := List.forall_mem_cons.mp hnew
      have hinside : ∀ w ∈ ws, ∀ x, ReflTransGen (Leads (g.adjacency ⟨true, false⟩)) w x →
          x < v ∧ x ∉ seen := fun w hw x hx =>
        ⟨hvs.lt List.mem_cons_self hnext hw hx, hnewv x (.head ⟨ws, hnext, hw⟩ hx)⟩
      -- What is searched below lies before the instruction, and what comes later after it.
      have hoperands := ihbelow (hvs.inside List.mem_cons_self hnext) (fun w hw x hx hmem => by
        obtain ⟨hlt, hout⟩ := hinside w hw x hx
        exact (List.mem_cons.mp hmem).elim hlt.ne hout) stack
      have hlater := ihrest hvs.tail (fun u hu x hx hmem => by
        have hlt : v < x := (List.pairwise_cons.mp hvs.apart).1 u hu x hx
        rcases List.mem_append.mp hmem with hfound | hmem
        · obtain ⟨w, hw, hreach⟩ := below.reached x (List.mem_reverse.mp hfound)
          exact hlt.not_gt (hinside w hw x hreach).1
        · exact (List.mem_cons.mp hmem).elim hlt.ne' (hnew u hu x hx)) (v :: stack)
      exact hoperands.visit hnext hlater

/-- The slice of an instruction of straight-line code has the instructions of which it takes values,
directly or not, in the order of the program, and evaluates to what the instruction takes. -/
structure IsProgramOrder (g : DataFlowGraph) (b : MethodBody) (root : Nat) (slice : List Nat) :
    Prop where
  order : g.orderedDependencies root ⟨true, false⟩ = .ok (slice ++ [root])
  ascending : (slice ++ [root]).Pairwise (· < ·)
  mem_iff : ∀ v, v ∈ slice ++ [root] ↔ ReflTransGen b.Takes root v
  evaluates : g.Evaluates [] slice (g.producers root).reverse

private theorem exists_isProgramOrder (hline : b.IsStraightLine) (hb : b.Ascending)
    (hg : ofBody b id = .ok g) (hroot : root ∈ g.nodes)
    (hone : b.PushOne (TransGen b.Takes root)) : ∃ slice, g.IsProgramOrder b root slice := by
  have hnested := nested_producers hline hb hg hone
  obtain ⟨discovered, order, hsearch, horder⟩ := exists_explores_dependencies hg hroot ⟨true, false⟩
  have hevaluates := evaluates_of_explores hsearch hnested (fun _ _ _ _ => List.not_mem_nil) []
  obtain ⟨slice, rfl⟩ := hsearch.exists_append_root
  obtain ⟨rest, hfinal, hslice⟩ := hevaluates.append_singleton
  obtain rfl : [] = rest := (List.cons.inj hfinal).2
  rw [List.append_nil] at hslice
  refine ⟨slice, horder, hsearch.ascending hnested, fun v => ?_, hslice⟩
  rw [← hsearch.perm.mem_iff, hsearch.mem_iff, leads_eq_takes hb hline.clauses hg]

namespace IsProgramOrder

variable {slice slice' : List Nat} {g' : DataFlowGraph}

private theorem stackSlice_eq (h : g.IsProgramOrder b root slice) :
    g.stackSlice root = .ok slice := by
  unfold stackSlice
  rw [h.order]
  exact congrArg Except.ok List.dropLast_concat

theorem unique (h : g.IsProgramOrder b root slice) (h' : g'.IsProgramOrder b root slice') :
    slice' = slice := by
  have hperm : (slice' ++ [root]).Perm (slice ++ [root]) := by
    refine (List.perm_ext_iff_of_nodup (h'.ascending.imp Nat.ne_of_lt)
      (h.ascending.imp Nat.ne_of_lt)).mpr fun v => ?_
    rw [h.mem_iff, h'.mem_iff]
  exact List.append_cancel_right (hperm.eq_of_pairwise' h'.ascending h.ascending)

theorem nodup (h : g.IsProgramOrder b root slice) : slice.Nodup :=
  (List.pairwise_append.mp h.ascending).1.imp Nat.ne_of_lt

/-- The instructions of a slice push something that is taken for the root. -/
theorem transGen (h : g.IsProgramOrder b root slice) (hv : v ∈ slice) :
    TransGen b.Takes root v := by
  have hreach := (h.mem_iff v).mp (List.mem_append_left _ hv)
  have hlt : v < root := (List.pairwise_append.mp h.ascending).2.2 v hv root List.mem_cons_self
  exact (reflTransGen_iff_eq_or_transGen.mp hreach).resolve_left hlt.ne

/-- An instruction of a slice pushes one value, and takes the values of its producers. -/
theorem counts (h : g.IsProgramOrder b root slice) (hline : b.IsStraightLine) (hb : b.Ascending)
    (hg : ofBody b id = .ok g) (hone : b.PushOne (TransGen b.Takes root)) {i : Instruction}
    (hi : i ∈ b.instructions) (hslice : i.offset ∈ slice) :
    i.pushCount = 1 ∧ (g.producers i.offset).length = i.popCount b.returnsValue := by
  have hreach := h.transGen hslice
  obtain ⟨y, -, htakes⟩ := TransGen.tail'_iff.mp hreach
  have hpush : 0 < i.pushCount := by
    obtain ⟨-, -, hpath, htaken⟩ := htakes
    obtain ⟨j, hj, hoffset, hslot⟩ := hpath.exists_pushed (List.mem_of_mem_take htaken)
    exact hb.eq_of_mem hj hi hoffset ▸ Nat.zero_lt_of_lt hslot
  refine ⟨Nat.le_antisymm (hone i hi hreach) hpush, ?_⟩
  have hnode := ((dependsOn_iff_takes hb hline.clauses hg).mpr htakes).mem_nodes hg
  obtain ⟨n, hn⟩ := SortedMap.mem_iff_get?.mp hnode
  refine length_producers hb hg hi hn (hasSingleSources hline hb hg hn ?_)
  exact fun k hk hw => hone k hk (hreach.tail hw)

end IsProgramOrder

end DataFlowGraph

/-! ## Replays of straight-line code -/

namespace Interpreter

/-- While some instructions are replayed, starting from a state, the one at an offset pushes a
value. -/
inductive Pushes (p : Interpreter) (b : MethodBody) (m : Machine) (order : List Nat) (q : Nat)
    (v : Value) : Prop where
  | intro {before after : List Nat} {i : Instruction} {m₁ m₂ : Machine} {t : Successor}
      (horder : order = before ++ q :: after) (hbefore : p.replay b before m = .ok m₁)
      (hi : b.instructionAt q = .ok i) (hrun : (p.dispatch (p.setting b) i).run m₁ = (.ok t, m₂))
      (hstack : m₂.stack = v :: m₁.stack.drop (i.popCount b.returnsValue))

variable {options : Options} {b : MethodBody} {i : Instruction} {m m' : Machine} {t : Successor}

private theorem replay_cons {p : Interpreter} {offset : Nat} (hi : b.instructionAt offset = .ok i)
    (hrun : (p.dispatch (p.setting b) i).run m = (.ok t, m')) (rest : List Nat) :
    p.replay b (offset :: rest) m = p.replay b rest m' := by
  rw [replay, hi]
  dsimp only
  rw [hrun]

theorem Pushes.cons {p : Interpreter} {offset q : Nat} {order : List Nat} {v : Value}
    (hi : b.instructionAt offset = .ok i) (hrun : (p.dispatch (p.setting b) i).run m = (.ok t, m'))
    (h : p.Pushes b m' order q v) : p.Pushes b m (offset :: order) q v := by
  obtain @⟨before, after, j, m₁, m₂, t', rfl, hbefore, hj, hrun', hstack⟩ := h
  exact .intro rfl ((replay_cons hi hrun before).trans hbefore) hj hrun' hstack

/-- What an instruction that pushes one value leaves. -/
theorem dispatch_pushOne (hone : i.pushCount = 1)
    (hrun : (({ options } : Interpreter).dispatch (({ options } : Interpreter).setting b) i).run m =
      (.ok t, m')) :
    ∃ v, m'.stack = v :: m.stack.drop (i.popCount b.returnsValue) := by
  rw [dispatch_eq_execute] at hrun
  obtain ⟨-, new, hnew, hstack⟩ := Setting.execute_stack _ i rfl hrun
  obtain ⟨v, rfl⟩ := List.length_eq_one_iff.mp (hnew.trans hone)
  rw [Instruction.clearsStack_of_pushCount hone] at hstack
  exact ⟨v, hstack⟩

/-- If instructions push one value each and can be evaluated in some order, their replay in this
order leaves the values that they push. -/
theorem replay_pushes {g : DataFlowGraph} {nodes order final : List Nat}
    (horder : g.Evaluates nodes order final) (hnodup : (nodes ++ order).Nodup)
    (hone : ∀ q ∈ order, ∀ i ∈ b.instructions, i.offset = q →
      i.pushCount = 1 ∧ (g.producers q).length = i.popCount b.returnsValue)
    {val : Nat → Value} (hm : m.stack = nodes.map val)
    (hrun : ({ options } : Interpreter).replay b order m = .ok m') :
    ∃ val', (∀ q, q ∉ order → val' q = val q) ∧ m'.stack = final.map val' ∧
      ∀ q ∈ order, ({ options } : Interpreter).Pushes b m order q (val' q) := by
  induction horder generalizing val m with
  | nil stack =>
      obtain rfl := Except.ok.inj hrun
      exact ⟨val, fun _ _ => rfl, hm, fun q hq => absurd hq List.not_mem_nil⟩
  | @cons stack rest order final v hstack hrest ih =>
      subst hstack
      obtain ⟨i, t, m₁, hfound, hstep, hrun⟩ := replay_cons_eq_ok hrun
      obtain ⟨hi, hoffset⟩ := MethodBody.of_instructionAt hfound
      obtain ⟨hpush, hcount⟩ := hone v List.mem_cons_self i hi hoffset
      obtain ⟨u, hpushed⟩ := dispatch_pushOne hpush hstep
      have hnodup' : (v :: rest ++ order).Nodup := by
        rw [List.append_assoc] at hnodup
        exact List.perm_middle.nodup_iff.mp hnodup.of_append_right
      obtain ⟨hv, -⟩ := List.nodup_cons.mp hnodup'
      have hm₁ : m₁.stack = (v :: rest).map (Function.update val v u) := by
        have hrest : v ∉ rest := fun hmem => hv (List.mem_append_left order hmem)
        rw [hpushed, hm, List.map_append, List.drop_left' (by simpa using hcount), List.map_cons,
          Function.update_self, map_update_of_notMem hrest]
      obtain ⟨val', hval', hm', hpushes⟩ :=
        ih hnodup' (fun q hq => hone q (List.mem_cons_of_mem v hq)) hm₁ hrun
      refine ⟨val', ?_, hm', List.forall_mem_cons.mpr ⟨?_, ?_⟩⟩
      · intro q hq
        rw [hval' q (List.not_mem_of_not_mem_cons hq),
          Function.update_of_ne (List.ne_of_not_mem_cons hq)]
      · rw [hval' v fun hmem => hv (List.mem_append_right rest hmem), Function.update_self]
        exact .intro (List.nil_append _).symm rfl hfound hstep hpushed
      · exact fun q hq => (hpushes q hq).cons hfound hstep

/-- The replay of a slice in the order of the program leaves what the producers of the root push. -/
theorem replay_slice {g : DataFlowGraph} {id root : Nat} {slice : List Nat}
    (hline : b.IsStraightLine) (hb : b.Ascending) (hg : DataFlowGraph.ofBody b id = .ok g)
    (hone : b.PushOne (TransGen b.Takes root)) (hslice : g.IsProgramOrder b root slice)
    (hrun : ({ options } : Interpreter).replay b.expand slice
      (({ options } : Interpreter).start b.expand) = .ok m) :
    ∃ val, m.stack = (g.producers root).reverse.map val ∧
      ∀ q ∈ slice, ({ options } : Interpreter).Pushes b.expand
        (({ options } : Interpreter).start b.expand) slice q (val q) := by
  have hcounts : ∀ q ∈ slice, ∀ i ∈ b.expand.instructions, i.offset = q →
      i.pushCount = 1 ∧ (g.producers q).length = i.popCount b.expand.returnsValue := by
    rintro q hq i hi rfl
    obtain ⟨j, hj, rfl⟩ := List.mem_map.mp hi
    rw [Instruction.offset_expand] at hq ⊢
    rw [Instruction.pushCount_expand, Instruction.popCount_expand]
    exact hslice.counts hline hb hg hone hj hq
  have hstart : (({ options } : Interpreter).start b.expand).stack =
      [].map fun (_ : Nat) => Value.null := rfl
  obtain ⟨val, -, hstack, hpushes⟩ :=
    replay_pushes hslice.evaluates hslice.nodup hcounts hstart hrun
  exact ⟨val, hstack, hpushes⟩

private theorem stackAt_eq_ok {p : Interpreter} {offset : Nat} {values : List Value}
    (h : p.stackAt b offset = .ok values) :
    ∃ g m, DataFlowGraph.ofBody b.expand = .ok g ∧ p.replayTo b offset = .ok m ∧
      values = m.values := by
  unfold stackAt at h
  obtain ⟨m, hreplay, h⟩ := bind_eq_ok h
  cases hg : ofBody b.expand with
  | error e =>
      unfold replayTo at hreplay
      dsimp only at hreplay
      rw [hg] at hreplay
      cases hreplay
  | ok g => exact ⟨g, m, rfl, hreplay, (Except.ok.inj h).symm⟩

/-- A stack has one value for each slot that an instruction takes, the deepest first: the one that
the producer of the slot pushed when the slice was replayed. -/
structure Rebuilds (p : Interpreter) (b : MethodBody) (g : DataFlowGraph) (i : Instruction)
    (n : DataFlowNode) (slice : List Nat) (values : List Value) : Prop where
  replayed : (p.replay b.expand slice (p.start b.expand)).map Machine.values = .ok values
  length : values.length = i.popCount b.returnsValue
  operands : List.Forall₂ (fun d v => ∃ q, d.sources.keys = [⟨g.id, q, 0⟩] ∧
    p.Pushes b.expand (p.start b.expand) slice q v) n.stack.items values

/-- In straight-line code the slice of an instruction is in the order of the program, if no `dup` is
in it, and a replay of it finds what the instruction takes and nothing else. -/
theorem stackAt_operands {id : Nat} {g : DataFlowGraph} {offset : Nat}
    (hwell : ∀ i ∈ b.instructions, i.isWellFormed) (hb : b.Ascending) (hline : b.IsStraightLine)
    (hg : DataFlowGraph.ofBody b id = .ok g) (hoffset : offset ∈ g.nodes)
    (hdup : ∀ i ∈ b.instructions, TransGen (g.DependsOn ⟨true, false⟩) offset i.offset →
      i.opcode ≠ .dup) :
    ∃ slice, g.orderedDependencies offset ⟨true, false⟩ = .ok (slice ++ [offset]) ∧
      (slice ++ [offset]).Pairwise (· < ·) ∧
      ∃ i ∈ b.instructions, i.offset = offset ∧ ∃ n, g.nodes.get? offset = some n ∧
        ∀ options values, ({ options } : Interpreter).stackAt b offset = .ok values →
          ({ options } : Interpreter).Rebuilds b g i n slice values := by
  have hone : b.PushOne (TransGen b.Takes offset) := by
    intro i hi htakes
    rw [← leads_eq_takes hb hline.clauses hg, leads_eq] at htakes
    exact Instruction.pushCount_le_one (hdup i hi htakes)
  obtain ⟨slice, hslice⟩ := exists_isProgramOrder hline hb hg hoffset hone
  obtain ⟨n, hn⟩ := SortedMap.mem_iff_get?.mp hoffset
  obtain ⟨place, i, -, hplace, rfl, -, -⟩ :=
    exists_mergesPaths hb hline.clauses hg hn
  have hi := List.mem_of_getElem? hplace
  refine ⟨slice, hslice.order, hslice.ascending, i, hi, rfl, n, hn, ?_⟩
  intro options values hvalues
  -- The replay makes a graph of its own, which has the same producers and the same slice.
  obtain ⟨g₀, m, hg₀, hreplay, rfl⟩ := stackAt_eq_ok hvalues
  have hbuilt : ofBody b 0 = .ok g₀ := ofBody_expand hwell 0 ▸ hg₀
  have hdirect : b.PushOne (b.Takes i.offset) := fun j hj hw => hone j hj (.single hw)
  obtain ⟨hnode, hproducers⟩ :=
    producers_eq hline hb hg hbuilt hoffset hdirect
  obtain ⟨slice₀, hslice₀⟩ := exists_isProgramOrder hline hb hbuilt hnode hone
  obtain rfl := hslice.unique hslice₀
  rw [replayTo_eq _ hg₀ hslice₀.stackSlice_eq] at hreplay
  obtain ⟨val, hstack, hpushes⟩ := replay_slice hline hb hbuilt hone hslice₀ hreplay
  have hoperands : m.values = (g.producers i.offset).map val := by
    calc m.values
        = ((g₀.producers i.offset).reverse.map val).reverse := by rw [Machine.values, hstack]
      _ = (g₀.producers i.offset).map val := by rw [← List.map_reverse, List.reverse_reverse]
      _ = (g.producers i.offset).map val := by rw [hproducers]
  have hmem : ∀ q ∈ g.producers i.offset, q ∈ slice₀ := fun q hq =>
    hslice.evaluates.mem.1 q (List.mem_reverse.mpr hq)
  have hsingle := hasSingleSources hline hb hg hn hdirect
  refine ⟨by rw [hreplay]; rfl, ?_, ?_⟩
  · rw [hoperands, List.length_map, length_producers hb hg hi hn hsingle]
  · rw [hoperands]
    have hsources := (List.forall₂_and_left _ _).mpr
      ⟨hmem, (producers_forall₂ hn hsingle).flip⟩
    refine List.forall₂_map_right_iff.mpr (hsources.flip.imp ?_)
    exact fun d q hq => ⟨q, hq.2, hpushes q hq.1⟩

/-- A product of which the second factor is a sum, with other instructions in between. -/
def interleaved : MethodBody where
  instructions :=
    [⟨0, .ldc_i4_2, .none, 1⟩, ⟨1, .ldc_i4_5, .none, 1⟩, ⟨2, .dup, .none, 1⟩, ⟨3, .pop, .none, 1⟩,
      ⟨4, .stloc_0, .none, 1⟩, ⟨5, .ldc_i4_3, .none, 1⟩, ⟨6, .nop, .none, 1⟩,
      ⟨7, .ldc_i4_4, .none, 1⟩, ⟨8, .add, .none, 1⟩, ⟨9, .mul, .none, 1⟩, ⟨10, .pop, .none, 1⟩,
      ⟨11, .ret, .none, 1⟩]
  locals := [.int32]

/-- The slice leaves out what stands in between, a `dup` among it, and the replay finds the factor
and the sum. -/
theorem stackAt_operands_interleaved :
    (∀ i ∈ interleaved.instructions, i.isWellFormed) ∧ interleaved.Ascending ∧
      interleaved.IsStraightLine ∧ ∃ g, DataFlowGraph.ofBody interleaved 3 = .ok g ∧
      g.orderedDependencies 9 ⟨true, false⟩ = .ok [0, 5, 7, 8, 9] ∧
      ({} : Interpreter).stackAt interleaved 9 = .ok [.int32 (.exact 2), .int32 (.exact 7)] ∧
      ∃ i ∈ interleaved.instructions, i.offset = 9 ∧ ∃ n, g.nodes.get? 9 = some n ∧
        ({} : Interpreter).Rebuilds interleaved g i n [0, 5, 7, 8]
          [.int32 (.exact 2), .int32 (.exact 7)] := by
  have hwell : ∀ i ∈ interleaved.instructions, i.isWellFormed := by decide
  have hascending : interleaved.Ascending := by decide
  have hline : interleaved.IsStraightLine := by decide
  obtain ⟨g, hg, hfound⟩ := exists_of_map_eq_ok (r := ofBody interleaved 3)
    (f := fun g => (g.leaveWithin ⟨true, false⟩ 20 [] [.enter 9], (g.nodes.get? 9).isSome))
    (y := (some [0, 5, 7, 8, 9], true)) (by decide +kernel)
  obtain ⟨hleave, hnode⟩ := Prod.mk.inj hfound
  have hroot : 9 ∈ g.nodes := SortedMap.mem_iff_get?.mpr (Option.isSome_iff_exists.mp hnode)
  have horder : g.orderedDependencies 9 ⟨true, false⟩ = .ok [0, 5, 7, 8, 9] := by
    rw [orderedDependencies_eq_leave hroot]
    exact leave_of_leaves (leaves_of_leaveWithin hleave)
  have hdup : ∀ i ∈ interleaved.instructions,
      TransGen (g.DependsOn ⟨true, false⟩) 9 i.offset → i.opcode ≠ .dup := by
    intro i hi hreach
    have hslice : ∀ i ∈ interleaved.instructions, i.offset ∈ [0, 5, 7, 8, 9] → i.opcode ≠ .dup := by
      decide
    obtain ⟨discovered, order, hsearch, horder'⟩ :=
      exists_explores_dependencies hg hroot ⟨true, false⟩
    obtain rfl := Except.ok.inj (horder.symm.trans horder')
    rw [← leads_eq] at hreach
    exact hslice i hi (hsearch.perm.mem_iff.mp (hsearch.mem_iff.mpr hreach.to_reflTransGen))
  have hvalues : ({} : Interpreter).stackAt interleaved 9 =
      .ok [.int32 (.exact 2), .int32 (.exact 7)] := by
    obtain ⟨g₀, hg₀, hleave₀⟩ := exists_of_map_eq_ok (r := ofBody interleaved.expand)
      (f := fun g => g.leaveWithin ⟨true, false⟩ 20 [] [.enter 9])
      (y := some ([0, 5, 7, 8] ++ [9])) (by decide +kernel)
    unfold stackAt
    rw [replayTo_eq _ hg₀ (stackSlice_of_leaveWithin hleave₀)]
    decide +kernel
  obtain ⟨slice, horder', -, i, hi, hoffset, n, hn, hrebuilds⟩ :=
    stackAt_operands hwell hascending hline hg hroot hdup
  obtain rfl : [0, 5, 7, 8] = slice :=
    List.append_cancel_right (Except.ok.inj (horder.symm.trans horder'))
  exact ⟨hwell, hascending, hline, g, hg, horder, hvalues, i, hi, hoffset, n, hn,
    hrebuilds {} _ hvalues⟩

end Interpreter

end CilAnalysis
