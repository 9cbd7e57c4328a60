import CilAnalysis.ControlFlow.Build
import CilAnalysis.Proofs.Method.Layout
import CilAnalysis.Proofs.SortedMap

/-!
# Cutting a method into blocks

Blocks are cut before the instructions that lead one.  Put one after the other they are the
instructions again (`MethodBody.flatMap_cutBlocks`).  Two instructions side by side in the method
are in one of two situations (`MethodBody.infix_pair_flatMap`):

```text
side by side in one block                    the second leads no block
last of one block and first of the next      the second leads a block
```

An instruction leads a block if it is the first of the method, the target of a branch, the one after
an instruction that ends its block, or on a bound of a clause (`MethodBody.leads_iff`).

## Strategy

The cut is a recursion from the end of the method: an instruction joins the block after it, unless
that block starts with a leader.  The lemmas about the cut follow this recursion, whose cases are an
empty list, the last instruction, one before a leader and one that joins.

The choice of the leaders is the second half.  `MethodBody.StartsBlock` states it as a relation
between a method and an instruction, and `MethodBody.leads_iff` shows that the computed set is that
relation on the instructions of the method.  A bound of a clause at the end of the method is left
out of the set, which is why instructions have to take up at least one byte (`MethodBody.Sized`).
-/

namespace CilAnalysis

namespace MethodBody

/-! ## Cutting a list of instructions -/

section Cut

variable {leads : Nat → Bool} {l : List Instruction} {block next : BasicBlock Instruction}
  {i j : Instruction}

theorem flatMap_cutBlocks (leads : Nat → Bool) (l : List Instruction) :
    (cutBlocks leads l).flatMap BasicBlock.instructions = l := by
  fun_induction cutBlocks leads l with
  | case1 => rfl
  | case2 i rest hrest ih =>
      rw [hrest] at ih
      rw [← ih]
      rfl
  | case3 i rest next blocks hrest hlead ih =>
      rw [hrest] at ih
      rw [List.flatMap_cons, ih]
      rfl
  | case4 i rest next blocks hrest hlead ih =>
      rw [hrest] at ih
      rw [← ih]
      rfl

/-- A block is named by the offset of its first instruction. -/
theorem exists_head_of_mem_cutBlocks (hblock : block ∈ cutBlocks leads l) :
    ∃ i, block.instructions.head? = some i ∧ block.offset = i.offset := by
  fun_induction cutBlocks leads l with
  | case1 => exact nomatch hblock
  | case2 i rest hrest ih =>
      obtain rfl := List.mem_singleton.mp hblock
      exact ⟨i, rfl, rfl⟩
  | case3 i rest next blocks hrest hlead ih =>
      rcases List.mem_cons.mp hblock with rfl | hblock
      · exact ⟨i, rfl, rfl⟩
      · exact ih (hrest ▸ hblock)
  | case4 i rest next blocks hrest hlead ih =>
      rcases List.mem_cons.mp hblock with rfl | hblock
      · exact ⟨i, rfl, rfl⟩
      · exact ih (hrest ▸ List.mem_cons_of_mem next hblock)

theorem offset_of_head? (hblock : block ∈ cutBlocks leads l)
    (hhead : block.instructions.head? = some i) : block.offset = i.offset := by
  obtain ⟨first, hfirst, hoffset⟩ := exists_head_of_mem_cutBlocks hblock
  rw [hhead] at hfirst
  rw [hoffset, Option.some.inj hfirst]

theorem infix_of_mem_cutBlocks (hblock : block ∈ cutBlocks leads l) :
    block.instructions <:+: l := by
  rw [← flatMap_cutBlocks leads l]
  obtain ⟨before, after, hsplit⟩ := List.append_of_mem hblock
  rw [hsplit, List.flatMap_append, List.flatMap_cons]
  exact List.infix_append' ..

/-- The first instructions of the blocks: that of the list, and those after it that lead one. -/
theorem heads_cutBlocks (leads : Nat → Bool) (i : Instruction) (rest : List Instruction) :
    (cutBlocks leads (i :: rest)).filterMap (·.instructions.head?) =
      i :: rest.filter (leads ·.offset) := by
  induction rest generalizing i with
  | nil => rfl
  | cons j rest ih =>
      specialize ih j
      have hhead : ∀ block ∈ cutBlocks leads (j :: rest),
          ∃ first, block.instructions.head? = some first ∧ block.offset = first.offset :=
        fun _ => exists_head_of_mem_cutBlocks
      rw [cutBlocks]
      generalize cutBlocks leads (j :: rest) = blocks at ih hhead
      cases blocks with
      | nil => exact nomatch ih
      | cons next blocks =>
          -- The block after `i` is led by its first instruction, which is `j`.
          obtain ⟨first, hfirst, hoffset⟩ := hhead next List.mem_cons_self
          rw [List.filterMap_cons, hfirst, List.cons.injEq] at ih
          obtain ⟨rfl, ih⟩ := ih
          rw [List.filter_cons, ← hoffset]
          dsimp only
          split
          next => simp [hfirst, ih]
          next => simp [ih]

private theorem offsets_cutBlocks (leads : Nat → Bool) (i : Instruction) (rest : List Instruction) :
    (cutBlocks leads (i :: rest)).map BasicBlock.offset =
      (i :: rest.filter (leads ·.offset)).map Instruction.offset := by
  have hhead : ∀ block ∈ cutBlocks leads (i :: rest),
      some block.offset = block.instructions.head?.map Instruction.offset := by
    intro block hblock
    obtain ⟨first, hfirst, hoffset⟩ := exists_head_of_mem_cutBlocks hblock
    rw [hfirst, hoffset, Option.map_some]
  calc (cutBlocks leads (i :: rest)).map BasicBlock.offset
      = (cutBlocks leads (i :: rest)).filterMap fun block => some block.offset :=
        (congrFun List.filterMap_eq_map' _).symm
    _ = (cutBlocks leads (i :: rest)).filterMap
          fun block => block.instructions.head?.map Instruction.offset :=
        List.filterMap_congr hhead
    _ = ((cutBlocks leads (i :: rest)).filterMap (·.instructions.head?)).map Instruction.offset :=
        List.map_filterMap.symm
    _ = (i :: rest.filter (leads ·.offset)).map Instruction.offset := by rw [heads_cutBlocks]

/-- Inside a block no instruction after the first leads one. -/
theorem not_leads_of_adjacent (hblock : block ∈ cutBlocks leads l)
    (hpair : [i, j] <:+: block.instructions) : leads j.offset = false := by
  fun_induction cutBlocks leads l generalizing block with
  | case1 => exact nomatch hblock
  | case2 k rest hrest ih =>
      obtain rfl := List.mem_singleton.mp hblock
      exact absurd hpair.length_le (by simp)
  | case3 k rest next blocks hrest hlead ih =>
      rcases List.mem_cons.mp hblock with rfl | hblock
      · exact absurd hpair.length_le (by simp)
      · exact ih (hrest ▸ hblock) hpair
  | case4 k rest next blocks hrest hlead ih =>
      have hnext : next ∈ cutBlocks leads rest := hrest ▸ List.mem_cons_self
      rcases List.mem_cons.mp hblock with rfl | hblock
      · rcases List.infix_cons_iff.mp hpair with hprefix | hinfix
        · -- The second is the first of the block that was there before.
          have hj := (List.cons_prefix_cons.mp hprefix).2
          rw [List.singleton_prefix_iff_head?_eq_some] at hj
          rw [← offset_of_head? hnext hj]
          exact Bool.eq_false_of_not_eq_true hlead
        · exact ih hnext hinfix
      · exact ih (hrest ▸ List.mem_cons_of_mem next hblock) hpair

/-- Two that stand side by side in lists put one after the other stand so in one of them, or one
ends a list and the other starts the next. -/
theorem infix_pair_flatMap {α β : Type} {f : α → List β} {as : List α} {x y : β}
    (hne : ∀ a ∈ as, f a ≠ []) (h : [x, y] <:+: as.flatMap f) :
    (∃ a ∈ as, [x, y] <:+: f a) ∨
      ∃ a a', [a, a'] <:+: as ∧ (f a).getLast? = some x ∧ (f a').head? = some y := by
  induction as with
  | nil => exact absurd h.length_le (by simp)
  | cons a rest ih =>
      rw [List.flatMap_cons, List.infix_append_iff_ne_nil] at h
      rcases h with h | h | ⟨last, first, hlast, hfirst, hsplit, hsuffix, hprefix⟩
      · exact .inl ⟨a, List.mem_cons_self, h⟩
      · rcases ih (fun a' ha' => hne a' (List.mem_cons_of_mem a ha')) h with h | h
        · obtain ⟨a', ha', h⟩ := h
          exact .inl ⟨a', List.mem_cons_of_mem a ha', h⟩
        · obtain ⟨a', a'', hpair, h⟩ := h
          exact .inr ⟨a', a'', hpair.trans (List.suffix_cons a rest).isInfix, h⟩
      · -- The cut is between the two, so the first of them ends `a`.
        obtain ⟨rfl, rfl⟩ : last = [x] ∧ first = [y] := by
          rcases last with _ | ⟨x', _ | ⟨y', last⟩⟩ <;> simp_all
        cases rest with
        | nil => exact absurd hprefix.length_le (by simp)
        | cons a' rest =>
            refine .inr ⟨a, a', ⟨[], rest, rfl⟩, ?_, ?_⟩
            · exact List.singleton_suffix_iff_getLast?_eq_some.mp hsuffix
            · have hhead := List.singleton_prefix_iff_head?_eq_some.mp hprefix
              have hne' := hne a' (by simp)
              rwa [List.flatMap_cons, List.head?_append_of_ne_nil _ hne'] at hhead

end Cut

/-! ## The instructions that lead a block -/

/-- The instructions that a block is to start at. -/
inductive StartsBlock (b : MethodBody) (i : Instruction) : Prop
  | first (h : b.instructions.head? = some i)
  | target {j : Instruction} (hj : j ∈ b.instructions) (h : i.offset ∈ j.targets)
  | follower {j : Instruction} (hpair : [j, i] <:+: b.instructions)
      (hends : j.opcode.flow.endsBlock = true)
  | bound {c : Clause} (hc : c ∈ b.clauses) (h : i.offset ∈ clauseBounds c)

private theorem mem_followers {l : List Instruction} {o : Nat} :
    o ∈ followers l ↔
      ∃ i j, [i, j] <:+: l ∧ i.opcode.flow.endsBlock = true ∧ j.offset = o := by
  fun_induction followers l with
  | case1 i j rest hends ih =>
      rw [List.mem_cons, ih]
      constructor
      · rintro (rfl | ⟨i', j', hpair, h⟩)
        · exact ⟨i, j, ⟨[], rest, rfl⟩, hends, rfl⟩
        · exact ⟨i', j', hpair.trans (List.suffix_cons i _).isInfix, h⟩
      · rintro ⟨i', j', hpair, hends', rfl⟩
        rcases List.infix_cons_iff.mp hpair with hprefix | hinfix
        · obtain ⟨rfl, hj⟩ := List.cons_prefix_cons.mp hprefix
          exact .inl (congrArg Instruction.offset (List.singleton_prefix_cons_iff.mp hj))
        · exact .inr ⟨i', j', hinfix, hends', rfl⟩
  | case2 i j rest hends ih =>
      rw [ih]
      constructor
      · rintro ⟨i', j', hpair, h⟩
        exact ⟨i', j', hpair.trans (List.suffix_cons i _).isInfix, h⟩
      · rintro ⟨i', j', hpair, hends', rfl⟩
        rcases List.infix_cons_iff.mp hpair with hprefix | hinfix
        · obtain ⟨rfl, -⟩ := List.cons_prefix_cons.mp hprefix
          exact absurd hends' hends
        · exact ⟨i', j', hinfix, hends', rfl⟩
  | case3 l hshort =>
      refine ⟨fun h => absurd h List.not_mem_nil, fun ⟨i, j, hpair, _⟩ => ?_⟩
      -- Fewer than two instructions have no pair among them.
      obtain _ | ⟨k, _ | ⟨k', rest⟩⟩ := l
      · exact absurd hpair.length_le (by simp)
      · exact absurd hpair.length_le (by simp)
      · exact absurd rfl (hshort k k' rest)

section Leaders

variable {b : MethodBody} {block : BasicBlock Instruction} {i j : Instruction}

theorem leads_of_endsBlock (hpair : [i, j] <:+: b.instructions)
    (hends : i.opcode.flow.endsBlock = true) : b.leaders.contains j.offset = true := by
  have hfollows : j.offset ∈ followers b.instructions :=
    mem_followers.mpr ⟨i, j, hpair, hends, rfl⟩
  simp [SortedMap.contains_iff, leaders, hfollows]

theorem leads_of_first (h : b.instructions.head? = some i) :
    b.leaders.contains i.offset = true := by
  simp [SortedMap.contains_iff, leaders, h]

theorem leads_of_target (hj : j ∈ b.instructions) {o : Nat} (ho : o ∈ j.targets) :
    b.leaders.contains o = true := by
  have htarget : o ∈ b.instructions.flatMap Instruction.targets :=
    List.mem_flatMap.mpr ⟨j, hj, ho⟩
  simp [SortedMap.contains_iff, leaders, List.mem_flatMap.mp htarget]

theorem leads_of_bound {c : Clause} (hc : c ∈ b.clauses) {o : Nat} (ho : o ∈ clauseBounds c)
    (hend : o ≠ b.endOffset) : b.leaders.contains o = true := by
  have hbound : ∃ c ∈ b.clauses, o ∈ clauseBounds c := ⟨c, hc, ho⟩
  simp [SortedMap.contains_iff, leaders, hbound, hend]

/-- The method ends after the instruction that comes last, and no other one starts behind it. -/
theorem exists_last (hb : b.Ascending) (hi : i ∈ b.instructions) :
    ∃ last ∈ b.instructions, i.offset ≤ last.offset ∧
      b.endOffset = last.offset + last.size := by
  obtain ⟨init, last, hsplit⟩ : ∃ init last, b.instructions = init ++ [last] :=
    (List.eq_nil_or_concat' b.instructions).resolve_left (List.ne_nil_of_mem hi)
  have hend : b.endOffset = last.offset + last.size := by
    simp [endOffset, hsplit, Instruction.next]
  refine ⟨last, by simp [hsplit], ?_, hend⟩
  rw [hsplit, List.mem_append, List.mem_singleton] at hi
  rcases hi with hi | rfl
  · rw [Ascending, hsplit, List.map_append, List.pairwise_append] at hb
    have hlt : i.offset < last.offset :=
      hb.2.2 _ (List.mem_map_of_mem hi) _ (List.mem_map_of_mem List.mem_cons_self)
    exact hlt.le
  · exact le_rfl

theorem offset_le_endOffset (hb : b.Ascending) (hi : i ∈ b.instructions) :
    i.offset ≤ b.endOffset := by
  obtain ⟨last, -, hle, hend⟩ := exists_last hb hi
  omega

theorem offset_lt_endOffset (hb : b.Ascending) (hsize : b.Sized)
    (hi : i ∈ b.instructions) : i.offset < b.endOffset := by
  obtain ⟨last, hlast, hle, hend⟩ := exists_last hb hi
  have hpos : 0 < last.size := hsize last hlast
  omega

/-- An instruction of a method leads a block exactly if a block is to start there.  A bound of a
clause at the end of the method is left out, and no instruction stands there. -/
theorem leads_iff (hb : b.Ascending) (hsize : b.Sized)
    (hi : i ∈ b.instructions) : b.leaders.contains i.offset = true ↔ b.StartsBlock i := by
  rw [SortedMap.contains_iff, leaders, SortedSet.mem_ofKeys]
  simp only [List.mem_append, List.mem_flatMap, List.mem_filter, Option.mem_toList,
    Option.map_eq_some_iff, decide_eq_true_eq, mem_followers]
  constructor
  · -- Two of the four kinds name the leader by an instruction, which is `i` since offsets ascend.
    rintro (((⟨first, hfirst, hoffset⟩ | ⟨j, hj, htarget⟩) | ⟨j, k, hpair, hends, hoffset⟩) |
      ⟨⟨c, hc, hbound⟩, -⟩)
    · obtain rfl := hb.eq_of_mem (List.mem_of_mem_head? hfirst) hi hoffset
      exact .first hfirst
    · exact .target hj htarget
    · obtain rfl := hb.eq_of_mem (hpair.subset (by simp)) hi hoffset
      exact .follower hpair hends
    · exact .bound hc hbound
  · intro h
    cases h with
    | first h => exact .inl (.inl (.inl ⟨i, h, rfl⟩))
    | target hj h => exact .inl (.inl (.inr ⟨_, hj, h⟩))
    | follower hpair hends => exact .inl (.inr ⟨_, i, hpair, hends, rfl⟩)
    | bound hc h => exact .inr ⟨⟨_, hc, h⟩, (offset_lt_endOffset hb hsize hi).ne⟩

/-! ## The blocks of a method -/

/-- The first instructions of the blocks of a method. -/
theorem head?_block_iff (hb : b.Ascending) (hsize : b.Sized)
    (hi : i ∈ b.instructions) :
    (∃ block ∈ b.blocks, block.instructions.head? = some i) ↔ b.StartsBlock i := by
  have hleads := leads_iff hb hsize hi
  obtain ⟨first, rest, hsplit⟩ := List.exists_cons_of_ne_nil (List.ne_nil_of_mem hi)
  have hfirst : b.StartsBlock first := .first (by rw [hsplit]; rfl)
  rw [hsplit, List.mem_cons] at hi
  calc (∃ block ∈ b.blocks, block.instructions.head? = some i)
      ↔ i ∈ b.blocks.filterMap (·.instructions.head?) := List.mem_filterMap.symm
    _ ↔ i = first ∨ i ∈ rest ∧ b.leaders.contains i.offset = true := by
        rw [blocks, hsplit, heads_cutBlocks, List.mem_cons, List.mem_filter]
    _ ↔ i = first ∨ i ∈ rest ∧ b.StartsBlock i := by rw [hleads]
    _ ↔ b.StartsBlock i := by
        constructor
        · rintro (rfl | ⟨-, h⟩)
          · exact hfirst
          · exact h
        · exact fun h => hi.imp id fun hrest => ⟨hrest, h⟩

theorem exists_block (hi : i ∈ b.instructions) : ∃ block ∈ b.blocks, i ∈ block.instructions := by
  rwa [← flatMap_cutBlocks b.leaders.contains b.instructions, List.mem_flatMap] at hi

/-- An instruction that leads a block is the first of its block. -/
theorem head?_of_leads (hblock : block ∈ b.blocks) (hi : i ∈ block.instructions)
    (hleads : b.leaders.contains i.offset = true) : block.instructions.head? = some i := by
  obtain ⟨before, after, hsplit⟩ := List.append_of_mem hi
  rcases List.eq_nil_or_concat' before with rfl | ⟨init, j, rfl⟩
  · rw [hsplit]
    rfl
  · -- Otherwise it would come after another one inside its block.
    have hpair : [j, i] <:+: block.instructions := ⟨init, after, by simp [hsplit]⟩
    rw [not_leads_of_adjacent hblock hpair] at hleads
    exact nomatch hleads

/-- An instruction stands in one block only. -/
theorem block_unique (hb : b.Ascending) {block' : BasicBlock Instruction}
    (hblock : block ∈ b.blocks)
    (hblock' : block' ∈ b.blocks) (hi : i ∈ block.instructions) (hi' : i ∈ block'.instructions) :
    block = block' := by
  -- An instruction in two blocks would stand twice in the method.
  have hnodup : (b.blocks.flatMap BasicBlock.instructions).Nodup := by
    rw [blocks, flatMap_cutBlocks]
    exact List.Nodup.of_map Instruction.offset (hb.imp Nat.ne_of_lt)
  have hsymm :
      Std.Symm (Function.onFun List.Disjoint (BasicBlock.instructions (ι := Instruction))) :=
    ⟨fun _ _ h => h.symm⟩
  by_contra hne
  exact (List.nodup_flatMap.mp hnodup).2.forall hblock hblock' hne hi hi'

/-- An instruction that ends a block is the last of its block. -/
theorem getLast?_of_endsBlock (hblock : block ∈ b.blocks) (hi : i ∈ block.instructions)
    (hends : i.opcode.flow.endsBlock = true) : block.instructions.getLast? = some i := by
  obtain ⟨before, after, hsplit⟩ := List.append_of_mem hi
  cases after with
  | nil => rw [hsplit, List.getLast?_concat]
  | cons j after =>
      -- Otherwise the instruction after it would lead a block and stand inside one.
      have hpair : [i, j] <:+: block.instructions := ⟨before, after, by simp [hsplit]⟩
      have hlead := leads_of_endsBlock (hpair.trans (infix_of_mem_cutBlocks hblock)) hends
      rw [not_leads_of_adjacent hblock hpair] at hlead
      exact nomatch hlead

theorem blocks_ascending (hb : b.Ascending) :
    (b.blocks.map BasicBlock.offset).Pairwise (· < ·) := by
  unfold Ascending at hb
  unfold blocks
  generalize b.instructions = l at hb
  cases l with
  | nil => exact .nil
  | cons i rest =>
      rw [offsets_cutBlocks]
      exact hb.sublist (List.filter_sublist.cons_cons i |>.map Instruction.offset)

theorem eq_of_block_offset (hb : b.Ascending) {block block' : BasicBlock Instruction}
    (hblock : block ∈ b.blocks) (hblock' : block' ∈ b.blocks)
    (hoffset : block'.offset = block.offset) : block' = block :=
  List.inj_on_of_nodup_map ((blocks_ascending hb).imp Nat.ne_of_lt) hblock' hblock hoffset

end Leaders

end MethodBody

end CilAnalysis
