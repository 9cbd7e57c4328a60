import CilAnalysis.SortedMap
import Mathlib

/-!
# The theory of sorted maps

A sorted map is determined by what is found under each key (`SortedMap.ext_get?`), and insertion and
removal change what is found under one key only.  Sets are maps to a type with one value; their
membership is that of keys.

## Strategy

All is reduced to look-up.  `SortedMap.get?_insert`, `SortedMap.get?_erase` and
`SortedMap.get?_modify` say what is found after a change, and membership follows, as a key is a
member exactly if something is found under it (`SortedMap.mem_iff_get?`).  The proofs about maps in
other modules use these equations and do not look at the list of entries.

The entries are used in two places here.

* Two lists that strictly ascend are equal if they have the same members
  (`SortedMap.eq_of_ascending`).  This is why maps in which the same is found are equal, and why the
  keys of a map depend only on which there are.
* The size is the number of keys, which are distinct (`SortedMap.card_keys`).  Sizes after a change
  are computed with finite sets.
-/

namespace CilAnalysis

universe u v

namespace SortedMap

variable {κ : Type u} {α : Type v} [Ord κ]

/-- The keys of a map are its members. -/
instance : Membership κ (SortedMap κ α) := ⟨fun m k => k ∈ m.keys⟩

theorem mem_def {m : SortedMap κ α} {k : κ} : k ∈ m ↔ k ∈ m.keys := Iff.rfl

@[simp] theorem get?_empty (k : κ) : (empty : SortedMap κ α).get? k = none := rfl

@[simp] theorem notMem_empty (k : κ) : k ∉ (empty : SortedMap κ α) := List.not_mem_nil

theorem first?_eq_none {m : SortedMap κ α} (h : m.first? = none) (k : κ) : k ∉ m := by
  intro hmem
  have hnil : m.entries = [] := List.head?_eq_none_iff.mp h
  rw [mem_def, keys, hnil] at hmem
  exact List.not_mem_nil hmem

theorem mem_of_first? {m : SortedMap κ α} {e : κ × α} (h : m.first? = some e) : e.1 ∈ m :=
  List.mem_map_of_mem (List.mem_of_head? h)

theorem nodup_keys [Std.TransOrd κ] (m : SortedMap κ α) : m.keys.Nodup := by
  have hsorted : m.keys.Pairwise fun a b => compare a b = .lt := List.pairwise_map.mpr m.sorted
  refine hsorted.imp ?_
  rintro a b hlt rfl
  have hself : compare a a = .eq := Std.ReflCmp.compare_self
  exact nomatch hself.symm.trans hlt

theorem card_keys [Std.TransOrd κ] [DecidableEq κ] (m : SortedMap κ α) :
    m.keys.toFinset.card = m.size := by
  rw [List.toFinset_card_of_nodup m.nodup_keys, keys, List.length_map]
  rfl

/-! ## Look-up -/

variable [Std.LawfulEqOrd κ]

theorem mem_iff_get? {m : SortedMap κ α} {k : κ} : k ∈ m ↔ ∃ a, m.get? k = some a := by
  constructor
  · intro hmem
    obtain ⟨e, he, rfl⟩ := List.mem_map.mp hmem
    have hsome : (m.entries.find? fun e' => compare e.1 e'.1 == .eq).isSome := by
      rw [List.find?_isSome]
      exact ⟨e, he, by simp⟩
    obtain ⟨e', he'⟩ := Option.isSome_iff_exists.mp hsome
    exact ⟨e'.2, by rw [get?, he']; rfl⟩
  · rintro ⟨a, hget⟩
    exact mem_keys_of_get? hget

theorem notMem_iff_get? {m : SortedMap κ α} {k : κ} : k ∉ m ↔ m.get? k = none := by
  rw [mem_iff_get?]
  cases m.get? k with
  | none => simp
  | some a => simp

theorem contains_iff {m : SortedMap κ α} {k : κ} : m.contains k = true ↔ k ∈ m := by
  rw [mem_def, contains, keys, List.any_eq_true, List.mem_map]
  refine exists_congr fun e => and_congr_right fun _ => ?_
  rw [beq_iff_eq, Std.LawfulEqCmp.compare_eq_iff_eq]
  exact eq_comm

theorem mem_entries_of_get? {m : SortedMap κ α} {k : κ} {a : α} (hget : m.get? k = some a) :
    (k, a) ∈ m.entries := by
  obtain ⟨e, hfind, rfl⟩ := Option.map_eq_some_iff.mp hget
  have hcmp : (compare k e.1 == .eq) = true := by simpa using List.find?_some hfind
  have hkey : k = e.1 := Std.LawfulEqCmp.eq_of_compare (beq_iff_eq.mp hcmp)
  rw [hkey]
  exact List.mem_of_find?_eq_some hfind

theorem get?_erase [DecidableEq κ] (m : SortedMap κ α) (k k' : κ) :
    (m.erase k).get? k' = if k' = k then none else m.get? k' := by
  unfold erase get?
  rw [List.find?_filter]
  by_cases hkey : k' = k
  · subst hkey
    simp
  · have hsame : ∀ e : κ × α, k' = e.1 → k ≠ e.1 := by
      rintro e heq rfl
      exact hkey heq
    simp only [hkey, if_false]
    congr 2
    funext e
    by_cases heq : k' = e.1
    · simp [hsame e heq, heq]
    · simp [heq]

theorem get?_modify [DecidableEq κ] (m : SortedMap κ α) (k : κ) (f : α → α) (k' : κ) :
    (m.modify k f).get? k' = if k' = k then (m.get? k').map f else m.get? k' := by
  unfold modify get?
  rw [List.find?_map]
  simp only [Function.comp_def, Option.map_map]
  split
  next hkey =>
    subst hkey
    refine Option.map_congr fun e he => ?_
    have hcmp : (compare k' e.1 == .eq) = true := by simpa using List.find?_some he
    simp [hcmp]
  next hkey =>
    refine Option.map_congr fun e he => ?_
    have hcmp : (compare k' e.1 == .eq) = true := by simpa using List.find?_some he
    have hsame : k' = e.1 := Std.LawfulEqCmp.eq_of_compare (beq_iff_eq.mp hcmp)
    have hne : k ≠ e.1 := fun heq => hkey (hsame.trans heq.symm)
    simp [hne]

omit [Std.LawfulEqOrd κ] in
@[simp] theorem keys_modify (m : SortedMap κ α) (k : κ) (f : α → α) :
    (m.modify k f).keys = m.keys := by
  simp [modify, keys, Function.comp_def]

section Insertion

variable [DecidableEq κ]

private theorem find?_insertEntry (k : κ) (a : α) (k' : κ) (l : List (κ × α)) :
    (insertEntry k a l).find? (fun e => compare k' e.1 == .eq) =
      if k' = k then some (k, a) else l.find? fun e => compare k' e.1 == .eq := by
  have hhead : (compare k' k == .eq) = decide (k' = k) := by
    rw [Bool.eq_iff_iff]
    simp [Std.LawfulEqCmp.compare_eq_iff_eq]
  induction l with
  | nil => by_cases hkey : k' = k <;> simp [insertEntry, hhead, hkey]
  | cons e rest ih =>
      obtain ⟨k₀, a₀⟩ := e
      rw [insertEntry]
      cases hcmp : compare k k₀ with
      | lt => by_cases hkey : k' = k <;> simp [hhead, hkey]
      | eq =>
          have hk : k = k₀ := Std.LawfulEqCmp.eq_of_compare hcmp
          subst hk
          by_cases hkey : k' = k <;> simp [hhead, hkey]
      | gt =>
          by_cases hkey : k' = k
          · subst hkey
            simp [hcmp, ih]
          · simp [List.find?_cons, ih, hkey]

variable [Std.TransOrd κ]

theorem get?_insert (m : SortedMap κ α) (k : κ) (a : α) (k' : κ) :
    (m.insert k a).get? k' = if k' = k then some a else m.get? k' := by
  unfold insert get?
  rw [find?_insertEntry]
  by_cases hkey : k' = k <;> simp [hkey]

@[simp] theorem get?_insert_self (m : SortedMap κ α) (k : κ) (a : α) :
    (m.insert k a).get? k = some a := by
  rw [get?_insert, if_pos rfl]

theorem get?_insert_of_ne (m : SortedMap κ α) {k k' : κ} (a : α) (h : k' ≠ k) :
    (m.insert k a).get? k' = m.get? k' := by
  rw [get?_insert, if_neg h]

theorem mem_insert {m : SortedMap κ α} {k k' : κ} {a : α} :
    k' ∈ m.insert k a ↔ k' = k ∨ k' ∈ m := by
  rw [mem_iff_get?, mem_iff_get?, get?_insert]
  by_cases hkey : k' = k <;> simp [hkey]

end Insertion

theorem mem_erase [DecidableEq κ] {m : SortedMap κ α} {k k' : κ} :
    k' ∈ m.erase k ↔ k' ≠ k ∧ k' ∈ m := by
  rw [mem_iff_get?, mem_iff_get?, get?_erase]
  by_cases hkey : k' = k <;> simp [hkey]

/-! ## Extensionality -/

section Order

variable [Std.TransOrd κ]

theorem get?_of_mem_entries {m : SortedMap κ α} {k : κ} {a : α} (hmem : (k, a) ∈ m.entries) :
    m.get? k = some a := by
  obtain ⟨a', hget⟩ := mem_iff_get?.mp (List.mem_map_of_mem hmem : k ∈ m.keys)
  have hmem' := mem_entries_of_get? hget
  have heq := List.inj_on_of_nodup_map m.nodup_keys hmem hmem' rfl
  rw [hget, (Prod.mk.inj heq).2]

theorem get?_eq_some_iff {m : SortedMap κ α} {k : κ} {a : α} :
    m.get? k = some a ↔ (k, a) ∈ m.entries := ⟨mem_entries_of_get?, get?_of_mem_entries⟩

omit [Std.LawfulEqOrd κ] in
/-- Two lists that strictly ascend are equal if they have the same members. -/
theorem eq_of_ascending {γ : Type*} {f : γ → κ} {l l' : List γ}
    (hl : l.Pairwise fun x y => compare (f x) (f y) = .lt)
    (hl' : l'.Pairwise fun x y => compare (f x) (f y) = .lt) (hmem : ∀ x, x ∈ l ↔ x ∈ l') :
    l = l' := by
  have hirrefl : Std.Irrefl fun x y : γ => compare (f x) (f y) = .lt := by
    constructor
    intro x hlt
    have hself : compare (f x) (f x) = .eq := Std.ReflCmp.compare_self
    exact nomatch hself.symm.trans hlt
  have hantisymm : Std.Antisymm fun x y : γ => compare (f x) (f y) = .lt := by
    constructor
    intro x y hxy hyx
    exact absurd (Std.TransCmp.lt_trans hxy hyx) (hirrefl.irrefl x)
  exact List.Pairwise.eq_of_mem_iff hl hl' hmem

/-- A map is determined by what is found under each key. -/
theorem ext_get? {m n : SortedMap κ α} (h : ∀ k, m.get? k = n.get? k) : m = n := by
  have hmem : ∀ e, e ∈ m.entries ↔ e ∈ n.entries := by
    rintro ⟨k, a⟩
    rw [← get?_eq_some_iff, ← get?_eq_some_iff, h]
  have hentries := eq_of_ascending (f := Prod.fst) m.sorted n.sorted hmem
  cases m
  cases n
  cases hentries
  rfl

omit [Std.LawfulEqOrd κ] in
/-- The keys of a map are determined by which there are. -/
theorem keys_congr {β : Type v} {m : SortedMap κ α} {n : SortedMap κ β}
    (h : ∀ k, k ∈ m ↔ k ∈ n) : m.keys = n.keys := by
  have hm : m.keys.Pairwise fun a b => compare a b = .lt := List.pairwise_map.mpr m.sorted
  have hn : n.keys.Pairwise fun a b => compare a b = .lt := List.pairwise_map.mpr n.sorted
  exact eq_of_ascending (f := id) hm hn h

/-! ## Size -/

variable [DecidableEq κ]

theorem size_insert_of_notMem {m : SortedMap κ α} {k : κ} (a : α) (h : k ∉ m) :
    (m.insert k a).size = m.size + 1 := by
  have hkeys : (m.insert k a).keys.toFinset = Insert.insert k m.keys.toFinset := by
    ext k'
    rw [Finset.mem_insert, List.mem_toFinset, List.mem_toFinset]
    exact mem_insert
  calc (m.insert k a).size
      = (m.insert k a).keys.toFinset.card := (card_keys _).symm
    _ = (Insert.insert k m.keys.toFinset).card := by rw [hkeys]
    _ = m.keys.toFinset.card + 1 :=
        Finset.card_insert_of_notMem fun hmem => h (List.mem_toFinset.mp hmem)
    _ = m.size + 1 := by rw [card_keys]

private theorem size_insert_of_mem {m : SortedMap κ α} {k : κ} (a : α) (h : k ∈ m) :
    (m.insert k a).size = m.size := by
  have hkeys : (m.insert k a).keys.toFinset = m.keys.toFinset := by
    ext k'
    rw [List.mem_toFinset, List.mem_toFinset]
    refine mem_insert.trans ⟨?_, Or.inr⟩
    rintro (rfl | hmem)
    · exact h
    · exact hmem
  rw [← card_keys, ← card_keys, hkeys]

theorem size_insert_le (m : SortedMap κ α) (k : κ) (a : α) : (m.insert k a).size ≤ m.size + 1 := by
  by_cases h : k ∈ m
  · rw [size_insert_of_mem a h]
    omega
  · rw [size_insert_of_notMem a h]

theorem size_le_size_insert (m : SortedMap κ α) (k : κ) (a : α) :
    m.size ≤ (m.insert k a).size := by
  by_cases h : k ∈ m
  · rw [size_insert_of_mem a h]
  · rw [size_insert_of_notMem a h]
    omega

theorem size_erase_of_mem {m : SortedMap κ α} {k : κ} (h : k ∈ m) :
    (m.erase k).size + 1 = m.size := by
  have hkeys : (m.erase k).keys.toFinset = m.keys.toFinset.erase k := by
    ext k'
    rw [Finset.mem_erase, List.mem_toFinset, List.mem_toFinset]
    exact mem_erase
  calc (m.erase k).size + 1
      = (m.erase k).keys.toFinset.card + 1 := by rw [card_keys]
    _ = (m.keys.toFinset.erase k).card + 1 := by rw [hkeys]
    _ = m.keys.toFinset.card := Finset.card_erase_add_one (List.mem_toFinset.mpr h)
    _ = m.size := card_keys m

end Order

end SortedMap

/-! ## Sets -/

namespace SortedSet

variable {κ : Type u} [Ord κ] [Std.TransOrd κ] [Std.LawfulEqOrd κ]

theorem ext_mem {s t : SortedSet κ} (h : ∀ k, k ∈ s ↔ k ∈ t) : s = t := by
  refine SortedMap.ext_get? ?_
  intro k
  by_cases hs : k ∈ s
  · obtain ⟨_, hget⟩ := SortedMap.mem_iff_get?.mp hs
    obtain ⟨_, hget'⟩ := SortedMap.mem_iff_get?.mp ((h k).mp hs)
    rw [hget, hget']
  · rw [SortedMap.notMem_iff_get?.mp hs, SortedMap.notMem_iff_get?.mp (mt (h k).mpr hs)]

variable [DecidableEq κ]

@[simp] theorem mem_add {s : SortedSet κ} {k k' : κ} : k' ∈ s.add k ↔ k' = k ∨ k' ∈ s :=
  SortedMap.mem_insert

@[simp] theorem mem_singleton {k k' : κ} : k' ∈ singleton k ↔ k' = k := by
  rw [singleton, mem_add]
  simp

theorem mem_foldl_add {ks : List κ} {s : SortedSet κ} {k : κ} :
    k ∈ ks.foldl add s ↔ k ∈ s ∨ k ∈ ks := by
  induction ks generalizing s with
  | nil => simp
  | cons k₀ rest ih =>
      rw [List.foldl_cons, ih, mem_add, List.mem_cons]
      tauto

theorem mem_union {s t : SortedSet κ} {k : κ} : k ∈ union s t ↔ k ∈ s ∨ k ∈ t := mem_foldl_add

@[simp] theorem mem_ofKeys {ks : List κ} {k : κ} : k ∈ ofKeys ks ↔ k ∈ ks := by
  rw [ofKeys, mem_foldl_add]
  simp

end SortedSet

/-! ## Maps made of lists -/

namespace SortedMap

variable {κ : Type u} {α : Type v} [Ord κ] [DecidableEq κ] [Std.TransOrd κ] [Std.LawfulEqOrd κ]

/-- Where no key occurs twice, a list of entries makes the map that has exactly those. -/
theorem get?_ofList {l : List (κ × α)} (hnodup : (l.map Prod.fst).Nodup) {k : κ} {a : α} :
    (ofList l).get? k = some a ↔ (k, a) ∈ l := by
  -- An entry of the list wins over one of the map that the list is added to.
  have hfold : ∀ m : SortedMap κ α, (l.foldl (fun m e => m.insert e.1 e.2) m).get? k = some a ↔
      (k, a) ∈ l ∨ (k ∉ l.map Prod.fst ∧ m.get? k = some a) := by
    induction l with
    | nil => simp
    | cons e rest ih =>
        intro m
        rw [List.map_cons, List.nodup_cons] at hnodup
        rw [List.foldl_cons, ih hnodup.2, get?_insert]
        have hfirst : (k, a) ∈ rest → k ∈ rest.map Prod.fst := fun hmem =>
          List.mem_map_of_mem hmem
        by_cases hkey : k = e.1
        · subst hkey
          have hnone : (e.1, a) ∉ rest := fun hmem => hnodup.1 (hfirst hmem)
          simp only [hnodup.1, hnone, List.mem_cons, List.map_cons, not_true, false_and,
            not_false_eq_true, true_and, if_true, Option.some_inj, false_or, or_false, Prod.ext_iff]
          exact eq_comm
        · have hne : (k, a) ≠ e := fun heq => hkey (congrArg Prod.fst heq)
          simp [hkey, hne]
  rw [ofList, hfold]
  simp

end SortedMap

end CilAnalysis
