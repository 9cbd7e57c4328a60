import CilAnalysis.Proofs.DataFlow.Paths
import CilAnalysis.Proofs.Result

/-!
# The steps of the worklist

What the collection of sources does between two visits: it adds a state to that before an
instruction, or the variables of a state.  `FlowProgress.Advance` says what all these steps have in
common.

* States only grow, and those that grow are queued (`FlowProgress.Grows`).
* Every fact that is added holds along some path (`FlowProgress.Sound`).
* The potential does not grow (`FlowProgress.potential`).

## The potential

The potential counts the queued instructions and the facts that the states may still gain:

    potential = queued + Σ over instructions of room

where `room` is the number of facts that the bound on visits allows for an instruction, less those
that its state has, and one more if there is no state yet.  Putting a state before an instruction
does not raise it (`FlowProgress.potential_put_le`).

For the room never to run out, the facts of a state must be among finitely many.  Sources are places
among what the instructions push, two at most for each, so with `n` instructions there are at most
`2 n` of them.  The depth of the stack is bounded by an invariant: it is at most twice the number of
instructions reached (`FlowProgress.Sound.height`).

## Strategy

All steps put a state before an instruction or leave everything as it is, and `advance_put` is the
only place where the three parts of `FlowProgress.Advance` are proved.
`FlowProgress.Advance.foldlM` carries them through a loop.
-/

namespace CilAnalysis

open Finset SortedMap

namespace Instruction

theorem pushCount_le_two (i : Instruction) : i.pushCount ≤ 2 := by
  unfold pushCount
  cases hpush : i.opcode.stackPush with
  | bySignature =>
      dsimp only
      cases i.signature? with
      | none => exact Nat.zero_le 2
      | some s => exact s.returnsValue.toNat_le.trans one_le_two
  | fixed count =>
      dsimp only
      revert hpush
      generalize i.opcode = opcode
      cases opcode <;> intro hpush <;> cases hpush <;> decide

private theorem length_variablesWritten_le_one (i : Instruction) :
    i.variablesWritten.length ≤ 1 := by
  unfold variablesWritten
  split
  · cases i.slot? <;> simp
  · simp

end Instruction

/-! ## The facts there can be -/

namespace MethodBody

variable (b : MethodBody) (graph : Nat)

/-- The sources that the instructions of a method can be. -/
def sourcesOf : Finset DataSource :=
  (b.instructions.toFinset ×ˢ range 2).image fun p => ⟨graph, p.1.offset, p.2⟩

/-- The variables that the instructions of a method write. -/
def writtenVariables : Finset Variable :=
  b.instructions.toFinset.biUnion fun i => i.variablesWritten.toFinset

/-- The facts about a stack of a bounded height and about variables. -/
def flowFacts : Finset FlowFact :=
  ((range (2 * b.instructions.length) ×ˢ b.sourcesOf graph).image fun p => .slot p.1 p.2) ∪
    ((b.writtenVariables ×ˢ b.sourcesOf graph).image fun p => .writer p.1 p.2) ∪
    b.writtenVariables.image .written

private theorem card_sourcesOf_le : (b.sourcesOf graph).card ≤ 2 * b.instructions.length := by
  calc (b.sourcesOf graph).card
      ≤ (b.instructions.toFinset ×ˢ range 2).card := card_image_le
    _ = b.instructions.toFinset.card * 2 := by rw [card_product, card_range]
    _ ≤ b.instructions.length * 2 := Nat.mul_le_mul_right 2 (List.toFinset_card_le _)
    _ = 2 * b.instructions.length := Nat.mul_comm _ _

private theorem card_writtenVariables_le : b.writtenVariables.card ≤ b.instructions.length := by
  calc b.writtenVariables.card
      ≤ b.instructions.toFinset.card * 1 := by
        refine card_biUnion_le_card_mul _ _ 1 ?_
        intro i _
        exact (List.toFinset_card_le _).trans i.length_variablesWritten_le_one
    _ ≤ b.instructions.length := by
        rw [Nat.mul_one]
        exact List.toFinset_card_le _

/-- The number of facts that the bound on the visits allows for each instruction. -/
def factBound : Nat := (3 * b.instructions.length + 1) * (3 * b.instructions.length)

private theorem card_flowFacts_le : (b.flowFacts graph).card ≤ b.factBound := by
  have hsources := b.card_sourcesOf_le graph
  have hvariables := b.card_writtenVariables_le
  set n := b.instructions.length
  have hslots : ((range (2 * n) ×ˢ b.sourcesOf graph).image
      fun p => FlowFact.slot p.1 p.2).card ≤ 2 * n * (2 * n) := by
    refine card_image_le.trans ?_
    rw [card_product, card_range]
    exact Nat.mul_le_mul_left _ hsources
  have hwriters : ((b.writtenVariables ×ˢ b.sourcesOf graph).image
      fun p => FlowFact.writer p.1 p.2).card ≤ n * (2 * n) := by
    refine card_image_le.trans ?_
    rw [card_product]
    exact Nat.mul_le_mul hvariables hsources
  have hwritten : (b.writtenVariables.image FlowFact.written).card ≤ n :=
    card_image_le.trans hvariables
  calc (b.flowFacts graph).card
      ≤ 2 * n * (2 * n) + n * (2 * n) + n := by
        refine (card_union_le _ _).trans (Nat.add_le_add ?_ hwritten)
        exact (card_union_le _ _).trans (Nat.add_le_add hslots hwriters)
    _ ≤ (3 * n + 1) * (3 * n) := by nlinarith

variable {b graph}

private theorem mem_sourcesOf {i : Instruction} (hi : i ∈ b.instructions) {slot : Nat}
    (hslot : slot < 2) : (⟨graph, i.offset, slot⟩ : DataSource) ∈ b.sourcesOf graph := by
  refine mem_image.mpr ⟨(i, slot), ?_, rfl⟩
  exact mem_product.mpr ⟨List.mem_toFinset.mpr hi, mem_range.mpr hslot⟩

private theorem mem_writtenVariables {i : Instruction} (hi : i ∈ b.instructions) {v : Variable}
    (hv : v ∈ i.variablesWritten) : v ∈ b.writtenVariables :=
  mem_biUnion.mpr ⟨i, List.mem_toFinset.mpr hi, List.mem_toFinset.mpr hv⟩

private theorem mem_flowFacts {s : FlowState} (hheight : s.stack.length ≤ 2 * b.instructions.length)
    {f : FlowFact} (hf : s.Has f) (hproduces : b.Produces graph f) : f ∈ b.flowFacts graph := by
  unfold flowFacts
  rw [mem_union, mem_union]
  cases f with
  | slot depth source =>
      obtain ⟨sources, hget, -⟩ := hf
      obtain ⟨hdepth, -⟩ := List.getElem?_eq_some_iff.mp hget
      obtain ⟨i, hi, slot, hslot, rfl⟩ := hproduces
      have hsource : ⟨graph, i.offset, slot⟩ ∈ b.sourcesOf graph :=
        mem_sourcesOf hi (hslot.trans_le i.pushCount_le_two)
      refine Or.inl (Or.inl (mem_image.mpr ⟨(depth, _), mem_product.mpr ⟨?_, hsource⟩, rfl⟩))
      exact mem_range.mpr (hdepth.trans_le hheight)
  | writer v source =>
      obtain ⟨i, hi, hv, rfl⟩ := hproduces
      have hsource : ⟨graph, i.offset, 0⟩ ∈ b.sourcesOf graph := mem_sourcesOf hi two_pos
      exact Or.inl (Or.inr (mem_image.mpr
        ⟨(v, _), mem_product.mpr ⟨mem_writtenVariables hi hv, hsource⟩, rfl⟩))
  | written v =>
      obtain ⟨i, hi, hv⟩ := hproduces
      exact Or.inr (mem_image.mpr ⟨v, mem_writtenVariables hi hv, rfl⟩)

/-- Every fact of a state before an instruction holds along some path to it, and there is a path. -/
structure Witnessed (b : MethodBody) (graph place : Nat) (s : FlowState) : Prop where
  reached : ∃ σ, b.Reaches b.clauses place σ
  has : ∀ f, s.Has f → ∃ σ, b.Reaches b.clauses place σ ∧ σ.Has graph f

private theorem Witnessed.lt_length {place : Nat} {s : FlowState} (h : b.Witnessed graph place s) :
    place < b.instructions.length := by
  obtain ⟨σ, hσ⟩ := h.reached
  obtain ⟨i, hi⟩ := hσ.exists_instruction
  exact (List.getElem?_eq_some_iff.mp hi).1

private theorem Witnessed.mem_flowFacts {place : Nat} {s : FlowState}
    (h : b.Witnessed graph place s) (hheight : s.stack.length ≤ 2 * b.instructions.length)
    {f : FlowFact} (hf : s.Has f) : f ∈ b.flowFacts graph := by
  obtain ⟨σ, hσ, hfact⟩ := h.has f hf
  exact MethodBody.mem_flowFacts hheight hf (hσ.produces hfact)

end MethodBody

/-! ## Growth -/

namespace FlowProgress

/-- States only grow, and those that are new or have grown are queued. -/
structure Grows (x y : FlowProgress) : Prop where
  state : ∀ place s, x.states.get? place = some s →
    ∃ t, y.states.get? place = some t ∧ s.Below t ∧ (t = s ∨ place ∈ y.queue)
  fresh : ∀ place, place ∈ y.states → place ∈ x.states ∨ place ∈ y.queue
  queue : ∀ place, place ∈ x.queue → place ∈ y.queue
  nodes : y.nodes = x.nodes

theorem Grows.refl (x : FlowProgress) : Grows x x where
  state := fun _ s hs => ⟨s, hs, .refl s, Or.inl rfl⟩
  fresh := fun _ h => Or.inl h
  queue := fun _ h => h
  nodes := rfl

theorem Grows.trans {x y z : FlowProgress} (hxy : Grows x y) (hyz : Grows y z) : Grows x z where
  state := by
    intro place s hs
    obtain ⟨t, ht, hst, hsame⟩ := hxy.state place s hs
    obtain ⟨u, hu, htu, hsame'⟩ := hyz.state place t ht
    refine ⟨u, hu, hst.trans htu, ?_⟩
    rcases hsame' with rfl | hqueued
    · exact hsame.imp id (hyz.queue place)
    · exact Or.inr hqueued
  fresh := by
    intro place h
    rcases hyz.fresh place h with h | h
    · exact (hxy.fresh place h).imp id (hyz.queue place)
    · exact Or.inr h
  queue := fun place h => hyz.queue place (hxy.queue place h)
  nodes := hyz.nodes.trans hxy.nodes

/-- The states of one progress are found in another, where they may have grown. -/
def Extends (x y : FlowProgress) : Prop :=
  ∀ place s, x.states.get? place = some s → ∃ t, y.states.get? place = some t ∧ s.Below t

theorem Grows.extends {x y : FlowProgress} (h : Grows x y) : Extends x y := by
  intro place s hs
  obtain ⟨t, ht, hst, -⟩ := h.state place s hs
  exact ⟨t, ht, hst⟩

theorem Extends.mem {x y : FlowProgress} (h : Extends x y) {place : Nat}
    (hplace : place ∈ x.states) : place ∈ y.states := by
  obtain ⟨s, hs⟩ := mem_iff_get?.mp hplace
  obtain ⟨t, ht, -⟩ := h place s hs
  exact mem_iff_get?.mpr ⟨t, ht⟩

/-- A state that is not queued is as it was. -/
theorem Grows.get?_of_notMem_queue {x y : FlowProgress} (h : Grows x y) {place : Nat}
    {s : FlowState} (hs : y.states.get? place = some s) (hplace : place ∉ y.queue) :
    x.states.get? place = some s := by
  have hmem : place ∈ x.states :=
    (h.fresh place (mem_iff_get?.mpr ⟨s, hs⟩)).resolve_right hplace
  obtain ⟨s₀, hs₀⟩ := mem_iff_get?.mp hmem
  obtain ⟨t, ht, -, hsame⟩ := h.state place s₀ hs₀
  obtain rfl := hsame.resolve_right hplace
  obtain rfl : s = t := Option.some_inj.mp (hs.symm.trans ht)
  exact hs₀

theorem Extends.trans {x y z : FlowProgress} (h : Extends x y) (h' : Extends y z) :
    Extends x z := by
  intro place s hs
  obtain ⟨t, ht, hst⟩ := h place s hs
  obtain ⟨u, hu, htu⟩ := h' place t ht
  exact ⟨u, hu, hst.trans htu⟩

/-- The state in a place has what two states say about variables. -/
def HasVariables (x : FlowProgress) (before after : FlowState) (place : Nat) : Prop :=
  ∃ t, x.states.get? place = some t ∧
    ∀ f : FlowFact, f.isOfVariable → before.Has f ∨ after.Has f → t.Has f

theorem HasVariables.mono {x y : FlowProgress} {before after : FlowState} {place : Nat}
    (h : x.HasVariables before after place) (hxy : Extends x y) :
    y.HasVariables before after place := by
  obtain ⟨t, ht, hfacts⟩ := h
  obtain ⟨u, hu, htu⟩ := hxy place t ht
  exact ⟨u, hu, fun f hv hf => htu.has f (hfacts f hv hf)⟩

/-- Every state is witnessed by paths, and the stacks are not higher than twice the number of
instructions that have been reached. -/
structure Sound (b : MethodBody) (graph : Nat) (x : FlowProgress) : Prop where
  witnessed : ∀ place s, x.states.get? place = some s → b.Witnessed graph place s
  height : ∀ place s, x.states.get? place = some s → s.stack.length ≤ 2 * x.states.size

variable {b : MethodBody} {graph : Nat} {x y : FlowProgress}

private theorem Sound.size_states_le (hx : Sound b graph x) :
    x.states.size ≤ b.instructions.length := by
  rw [← card_keys, ← card_range b.instructions.length]
  refine card_le_card ?_
  intro place hplace
  obtain ⟨s, hs⟩ := mem_iff_get?.mp (List.mem_toFinset.mp hplace)
  exact mem_range.mpr (hx.witnessed place s hs).lt_length

/-- Put a state before an instruction, to be visited. -/
def put (x : FlowProgress) (place : Nat) (s : FlowState) : FlowProgress :=
  { x with states := x.states.insert place s, queue := x.queue.add place }

private theorem grows_put {place : Nat} {s : FlowState}
    (hgrown : ∀ old, x.states.get? place = some old → old.Below s) : Grows x (x.put place s) where
  state := by
    intro q t ht
    by_cases hq : q = place
    · subst hq
      exact ⟨s, get?_insert_self _ _ _, hgrown t ht, Or.inr (by simp [put])⟩
    · exact ⟨t, (get?_insert_of_ne _ _ hq).trans ht, .refl t, Or.inl rfl⟩
  fresh := by
    intro q hq
    rcases mem_insert.mp hq with rfl | hq
    · exact Or.inr (by simp [put])
    · exact Or.inl hq
  queue := fun q hq => SortedSet.mem_add.mpr (Or.inr hq)
  nodes := rfl

theorem Sound.put (hx : Sound b graph x) {place : Nat} {s : FlowState}
    (hs : b.Witnessed graph place s)
    (hheight : s.stack.length ≤ 2 * (x.states.insert place s).size) :
    Sound b graph (x.put place s) where
  witnessed := by
    intro q t ht
    unfold FlowProgress.put at ht
    rw [get?_insert] at ht
    split at ht
    next heq =>
      cases ht
      exact heq ▸ hs
    next => exact hx.witnessed q t ht
  height := by
    intro q t ht
    have hsize := x.states.size_le_size_insert place s
    unfold FlowProgress.put at ht ⊢
    rw [get?_insert] at ht
    split at ht
    next =>
      cases ht
      exact hheight
    next =>
      calc t.stack.length
          ≤ 2 * x.states.size := hx.height q t ht
        _ ≤ 2 * (x.states.insert place s).size := Nat.mul_le_mul_left 2 hsize

/-! ## The potential -/

/-- The number of facts that a state may still gain, with one more for a state that is missing. -/
noncomputable def room (b : MethodBody) : Option FlowState → Nat
  | none => b.factBound + 1
  | some s => b.factBound - {f | s.Has f}.ncard

/-- The number of queued instructions and of the facts that may still be gained. -/
noncomputable def potential (b : MethodBody) (x : FlowProgress) : Nat :=
  x.queue.size + ∑ place ∈ range b.instructions.length, room b (x.states.get? place)

private theorem room_lt_of_grown {place : Nat} {s t : FlowState} (hst : s.Below t) (hne : t ≠ s)
    (ht : b.Witnessed graph place t) (hheight : t.stack.length ≤ 2 * b.instructions.length) :
    room b (some t) < room b (some s) := by
  have hsubset : {f | t.Has f} ⊆ (b.flowFacts graph : Set FlowFact) :=
    fun f hf => ht.mem_flowFacts hheight hf
  have hfinite : {f | t.Has f}.Finite := (b.flowFacts graph).finite_toSet.subset hsubset
  have hbound : {f | t.Has f}.ncard ≤ b.factBound := by
    calc {f | t.Has f}.ncard
        ≤ (b.flowFacts graph : Set FlowFact).ncard :=
          Set.ncard_le_ncard hsubset (b.flowFacts graph).finite_toSet
      _ = (b.flowFacts graph).card := Set.ncard_coe_finset _
      _ ≤ b.factBound := b.card_flowFacts_le graph
  have hmore : {f | s.Has f}.ncard < {f | t.Has f}.ncard := by
    -- A state with the same height and facts would be the same state.
    refine Set.ncard_lt_ncard ⟨fun f hf => hst.has f hf, ?_⟩ hfinite
    intro hback
    exact hne (FlowState.ext_has hst.height fun f => ⟨hst.has f, fun hf => hback hf⟩).symm
  simp only [room]
  omega

private theorem room_some_lt_none (s : FlowState) : room b (some s) < room b none := by
  simp only [room]
  omega

/-- A queued state with less room than before does not raise the potential. -/
theorem potential_put_le {place : Nat} {s : FlowState} (hplace : place < b.instructions.length)
    (hroom : room b (some s) < room b (x.states.get? place)) :
    potential b (x.put place s) ≤ potential b x := by
  have hqueue : (x.queue.add place).size ≤ x.queue.size + 1 := size_insert_le _ _ _
  have hsum : ∑ q ∈ range b.instructions.length, room b ((x.states.insert place s).get? q) <
      ∑ q ∈ range b.instructions.length, room b (x.states.get? q) := by
    refine sum_lt_sum ?_ ⟨place, mem_range.mpr hplace, ?_⟩
    · intro q _
      rw [get?_insert]
      split
      next heq =>
        rw [heq]
        exact hroom.le
      next => exact le_rfl
    · rwa [get?_insert_self]
  -- The queue may gain the place, and the room that is lost there makes up for it.
  calc potential b (x.put place s)
      = (x.queue.add place).size +
          ∑ q ∈ range b.instructions.length, room b ((x.states.insert place s).get? q) := rfl
    _ ≤ x.queue.size + 1 +
          ∑ q ∈ range b.instructions.length, room b ((x.states.insert place s).get? q) :=
        Nat.add_le_add_right hqueue _
    _ ≤ x.queue.size + ∑ q ∈ range b.instructions.length, room b (x.states.get? q) := by omega
    _ = potential b x := rfl

/-! ## Steps -/

/-- What the steps of the collection have in common. -/
structure Advance (b : MethodBody) (graph : Nat) (x y : FlowProgress) : Prop
    extends Grows x y where
  sound : Sound b graph y
  potential_le : potential b y ≤ potential b x
  size_le : x.states.size ≤ y.states.size

theorem Advance.refl (hx : Sound b graph x) : Advance b graph x x := ⟨.refl x, hx, le_rfl, le_rfl⟩

theorem Advance.trans {z : FlowProgress} (hxy : Advance b graph x y) (hyz : Advance b graph y z) :
    Advance b graph x z :=
  ⟨hxy.toGrows.trans hyz.toGrows, hyz.sound, hyz.potential_le.trans hxy.potential_le,
    hxy.size_le.trans hyz.size_le⟩

theorem Advance.foldlM {ι : Type} {step : FlowProgress → ι → Except Error FlowProgress}
    {P : ι → FlowProgress → Prop} (hx : Sound b graph x)
    (hP : ∀ q z z', Advance b graph z z' → P q z → P q z') {l : List ι}
    (hstep : ∀ q ∈ l, ∀ z z', Advance b graph x z → step z q = .ok z' →
      Advance b graph z z' ∧ P q z')
    (hrun : l.foldlM step x = .ok y) : Advance b graph x y ∧ ∀ q ∈ l, P q y := by
  -- The induction runs from a progress that the fold has already come to.
  suffices hfrom : ∀ z, Advance b graph x z → l.foldlM step z = .ok y →
      Advance b graph z y ∧ ∀ q ∈ l, P q y from hfrom x (.refl hx) hrun
  clear hrun
  induction l with
  | nil =>
      intro z hxz hrun
      cases hrun
      exact ⟨.refl hxz.sound, by simp⟩
  | cons q rest ih =>
      intro z hxz hrun
      rw [List.foldlM_cons] at hrun
      obtain ⟨z', hfirst, hrun⟩ := bind_eq_ok hrun
      obtain ⟨hzz', hPq⟩ := hstep q List.mem_cons_self z z' hxz hfirst
      have hrest := ih fun q' hq' => hstep q' (List.mem_cons_of_mem q hq')
      obtain ⟨hz'y, hall⟩ := hrest z' (hxz.trans hzz') hrun
      refine ⟨hzz'.trans hz'y, ?_⟩
      intro q' hq'
      rcases List.mem_cons.mp hq' with rfl | hq'
      · exact hP _ _ _ hz'y hPq
      · exact hall q' hq'

private theorem advance_put (hx : Sound b graph x) {place : Nat} {s : FlowState}
    (hs : b.Witnessed graph place s)
    (hgrown : ∀ old, x.states.get? place = some old → old.Below s ∧ s ≠ old)
    (hheight : x.states.get? place = none → s.stack.length ≤ 2 * x.states.size + 2) :
    Advance b graph x (x.put place s) := by
  have hsize := x.states.size_le_size_insert place s
  -- A state that has grown keeps its height; a new one raises the bound by what it may add.
  have hstack : s.stack.length ≤ 2 * (x.states.insert place s).size := by
    cases hold : x.states.get? place with
    | none =>
        calc s.stack.length
            ≤ 2 * (x.states.size + 1) := hheight hold
          _ = 2 * (x.states.insert place s).size := by
              rw [size_insert_of_notMem s (notMem_iff_get?.mpr hold)]
    | some old =>
        calc s.stack.length
            = old.stack.length := (hgrown old hold).1.height.symm
          _ ≤ 2 * x.states.size := hx.height place old hold
          _ ≤ 2 * (x.states.insert place s).size := Nat.mul_le_mul_left 2 hsize
  have hroom : room b (some s) < room b (x.states.get? place) := by
    cases hold : x.states.get? place with
    | none => exact room_some_lt_none s
    | some old =>
        obtain ⟨hbelow, hne⟩ := hgrown old hold
        refine room_lt_of_grown hbelow hne hs ?_
        calc s.stack.length
            = old.stack.length := hbelow.height.symm
          _ ≤ 2 * x.states.size := hx.height place old hold
          _ ≤ 2 * b.instructions.length := Nat.mul_le_mul_left 2 hx.size_states_le
  have hgrows : Grows x (x.put place s) := grows_put fun old hold => (hgrown old hold).1
  exact ⟨hgrows, hx.put hs hstack, potential_put_le hs.lt_length hroom, hsize⟩

private theorem advance_grow (hx : Sound b graph x) {place : Nat} {old new : FlowState}
    (hold : x.states.get? place = some old) (hbelow : old.Below new)
    (hnew : b.Witnessed graph place new) :
    Advance b graph x (FlowProblem.grow x place old new) ∧
      (FlowProblem.grow x place old new).states.get? place = some new := by
  unfold FlowProblem.grow
  split
  next heq =>
    subst heq
    exact ⟨.refl hx, hold⟩
  next hne =>
    refine ⟨advance_put hx hnew ?_ ?_, get?_insert_self _ _ _⟩
    · intro old' hold'
      obtain rfl : old = old' := Option.some_inj.mp (hold.symm.trans hold')
      exact ⟨hbelow, hne⟩
    · intro hnone
      exact absurd (hold.symm.trans hnone) (Option.some_ne_none old)

theorem advance_propagate (hx : Sound b graph x) {place : Nat} {s : FlowState}
    (hs : b.Witnessed graph place s) (hheight : s.stack.length ≤ 2 * x.states.size + 2)
    (hrun : (FlowProblem.ofBody graph b).propagate s x place = .ok y) :
    Advance b graph x y ∧ ∃ t, y.states.get? place = some t ∧ s.Below t := by
  unfold FlowProblem.propagate at hrun
  split at hrun
  next old i hold _ =>
    obtain ⟨new, hmerge, hrun⟩ := bind_eq_ok hrun
    cases hrun
    -- What is merged into the state is found along a path, as what was there is.
    obtain ⟨hsame, hnew, hfacts⟩ := FlowState.merge_has hmerge
    have hwitnessed : b.Witnessed graph place new := by
      refine ⟨hs.reached, ?_⟩
      intro f hf
      rcases (hfacts f).mp hf with hf | hf
      · exact (hx.witnessed place old hold).has f hf
      · exact hs.has f hf
    have hbelow : old.Below new := ⟨hnew.symm, fun f hf => (hfacts f).mpr (Or.inl hf)⟩
    obtain ⟨hadvance, hget⟩ := advance_grow hx hold hbelow hwitnessed
    exact ⟨hadvance, new, hget, by omega, fun f hf => (hfacts f).mpr (Or.inr hf)⟩
  next hnone =>
    cases hrun
    -- A place with a state has an instruction, so that here the state is what is missing.
    have hmissing : x.states.get? place = none := by
      cases hold : x.states.get? place with
      | none => rfl
      | some old =>
          have hlt := (hx.witnessed place old hold).lt_length
          exact absurd (by simp [FlowProblem.ofBody, List.getElem?_eq_getElem hlt])
            (hnone old b.instructions[place] hold)
    refine ⟨advance_put hx hs ?_ (fun _ => hheight), s, get?_insert_self _ _ _, .refl s⟩
    intro old hold
    exact absurd (hold.symm.trans hmissing) (Option.some_ne_none old)

theorem advance_propagateVariables (hx : Sound b graph x) {place : Nat} {before after : FlowState}
    (hvariables : ∀ f : FlowFact, f.isOfVariable → before.Has f ∨ after.Has f →
      ∃ σ, b.Reaches b.clauses place σ ∧ σ.Has graph f) :
    Advance b graph x (FlowProblem.propagateVariables before after x place) ∧
      (place ∈ x.states →
        (FlowProblem.propagateVariables before after x place).HasVariables before after place) := by
  rw [mem_iff_get?]
  unfold FlowProblem.propagateVariables
  cases hold : x.states.get? place with
  | none => exact ⟨.refl hx, fun ⟨_, h⟩ => nomatch h⟩
  | some old =>
      dsimp only
      set new : FlowState :=
        { old with
          byVariable := FlowState.mergeVariables
            (FlowState.mergeVariables old.byVariable before.byVariable) after.byVariable }
      have hfacts : ∀ f, new.Has f ↔
          (old.Has f ∨ (f.isOfVariable ∧ before.Has f)) ∨ (f.isOfVariable ∧ after.Has f) := by
        intro f
        rw [← FlowState.has_mergeVariables, ← FlowState.has_mergeVariables]
      have hwitnessed : b.Witnessed graph place new := by
        refine ⟨(hx.witnessed place old hold).reached, ?_⟩
        intro f hf
        rcases (hfacts f).mp hf with (hf | ⟨hv, hf⟩) | ⟨hv, hf⟩
        · exact (hx.witnessed place old hold).has f hf
        · exact hvariables f hv (Or.inl hf)
        · exact hvariables f hv (Or.inr hf)
      have hbelow : old.Below new := ⟨rfl, fun f hf => (hfacts f).mpr (Or.inl (Or.inl hf))⟩
      obtain ⟨hadvance, hget⟩ := advance_grow hx hold hbelow hwitnessed
      refine ⟨hadvance, fun _ => ⟨new, hget, ?_⟩⟩
      rintro f hv (hf | hf)
      · exact (hfacts f).mpr (Or.inl (Or.inr ⟨hv, hf⟩))
      · exact (hfacts f).mpr (Or.inr ⟨hv, hf⟩)

end FlowProgress

end CilAnalysis
