/-!
# Finite maps in key order

A finite map kept as the list of its entries, strictly ascending by key.  There is one list for each
map, so two maps with the same entries are equal, and walking the list visits the keys in order.
-/

namespace CilAnalysis

universe u v w

/-- A finite map from `κ` to `α`, its entries strictly ascending by key. -/
structure SortedMap (κ : Type u) (α : Type v) [Ord κ] where
  /-- The entries in key order. -/
  entries : List (κ × α)
  /-- Each key stands strictly before all later ones. -/
  sorted : entries.Pairwise fun a b => compare a.1 b.1 = .lt := by simp

namespace SortedMap

section Lists

variable {κ : Type u} {α : Type v} [Ord κ]

/-- Put an entry in its place, replacing the one with the same key. -/
def insertEntry (k : κ) (a : α) : List (κ × α) → List (κ × α)
  | [] => [(k, a)]
  | (k', a') :: rest =>
    match compare k k' with
    | .lt => (k, a) :: (k', a') :: rest
    | .eq => (k, a) :: rest
    | .gt => (k', a') :: insertEntry k a rest

theorem mem_insertEntry {k : κ} {a : α} {e : κ × α} {l : List (κ × α)}
    (hmem : e ∈ insertEntry k a l) : e = (k, a) ∨ e ∈ l := by
  induction l with
  | nil => simpa [insertEntry] using hmem
  | cons hd tl ih =>
    obtain ⟨k', a'⟩ := hd
    rw [insertEntry] at hmem
    split at hmem
    · simpa using hmem
    · rcases List.mem_cons.1 hmem with h | h
      · exact .inl h
      · exact .inr (List.mem_cons_of_mem _ h)
    · rcases List.mem_cons.1 hmem with h | h
      · exact .inr (h ▸ List.mem_cons_self)
      · exact (ih h).imp id (List.mem_cons_of_mem _)

theorem pairwise_insertEntry [Std.TransOrd κ] (k : κ) (a : α) {l : List (κ × α)}
    (hsorted : l.Pairwise fun x y => compare x.1 y.1 = .lt) :
    (insertEntry k a l).Pairwise fun x y => compare x.1 y.1 = .lt := by
  induction l with
  | nil => simp [insertEntry]
  | cons hd tl ih =>
    obtain ⟨k', a'⟩ := hd
    obtain ⟨hhead, htail⟩ := List.pairwise_cons.1 hsorted
    rw [insertEntry]
    split
    next hlt =>
      refine List.pairwise_cons.2 ⟨fun e he => ?_, hsorted⟩
      rcases List.mem_cons.1 he with h | h
      · exact h ▸ hlt
      · exact Std.TransCmp.lt_trans hlt (hhead e h)
    next heq =>
      refine List.pairwise_cons.2 ⟨fun e he => ?_, htail⟩
      exact Std.TransCmp.lt_of_eq_of_lt heq (hhead e he)
    next hgt =>
      refine List.pairwise_cons.2 ⟨fun e he => ?_, ih htail⟩
      rcases mem_insertEntry he with h | h
      · exact h ▸ Std.OrientedCmp.lt_of_gt hgt
      · exact hhead e h

end Lists

variable {κ : Type u} {α : Type v} {β : Type w} [Ord κ]

def empty : SortedMap κ α := ⟨[], List.Pairwise.nil⟩

instance : Inhabited (SortedMap κ α) := ⟨empty⟩

instance [DecidableEq κ] [DecidableEq α] : DecidableEq (SortedMap κ α) := fun m n =>
  if h : m.entries = n.entries then
    isTrue (by cases m; cases n; cases h; rfl)
  else
    isFalse fun heq => h (heq ▸ rfl)

def size (m : SortedMap κ α) : Nat := m.entries.length

def isEmpty (m : SortedMap κ α) : Bool := m.entries.isEmpty

/-- The keys, ascending. -/
def keys (m : SortedMap κ α) : List κ := m.entries.map Prod.fst

def values (m : SortedMap κ α) : List α := m.entries.map Prod.snd

def get? (m : SortedMap κ α) (k : κ) : Option α :=
  (m.entries.find? fun e => compare k e.1 == .eq).map Prod.snd

def contains (m : SortedMap κ α) (k : κ) : Bool :=
  m.entries.any fun e => compare k e.1 == .eq

theorem mem_keys_of_get? [Std.LawfulEqOrd κ] {m : SortedMap κ α} {k : κ} {a : α}
    (hget : m.get? k = some a) : k ∈ m.keys := by
  obtain ⟨e, hfind, -⟩ := Option.map_eq_some_iff.1 hget
  have hcmp : (compare k e.1 == .eq) = true := by simpa using List.find?_some hfind
  have hkey : k = e.1 := Std.LawfulEqCmp.eq_of_compare (beq_iff_eq.1 hcmp)
  exact hkey ▸ List.mem_map_of_mem (List.mem_of_find?_eq_some hfind)

def insert [Std.TransOrd κ] (m : SortedMap κ α) (k : κ) (a : α) : SortedMap κ α :=
  ⟨insertEntry k a m.entries, pairwise_insertEntry k a m.sorted⟩

def erase (m : SortedMap κ α) (k : κ) : SortedMap κ α :=
  ⟨m.entries.filter fun e => compare k e.1 != .eq, m.sorted.filter _⟩

def modify (m : SortedMap κ α) (k : κ) (f : α → α) : SortedMap κ α :=
  ⟨m.entries.map fun e => (e.1, if compare k e.1 == .eq then f e.2 else e.2),
    List.pairwise_map.2 (m.sorted.imp fun h => h)⟩

def map (m : SortedMap κ α) (f : κ → α → β) : SortedMap κ β :=
  ⟨m.entries.map fun e => (e.1, f e.1 e.2), List.pairwise_map.2 (m.sorted.imp fun h => h)⟩

def first? (m : SortedMap κ α) : Option (κ × α) := m.entries.head?

/-- The map holding the given entries; of several with one key the last counts. -/
def ofList [Std.TransOrd κ] (l : List (κ × α)) : SortedMap κ α :=
  l.foldl (fun m e => m.insert e.1 e.2) empty

end SortedMap

abbrev SortedSet (κ : Type u) [Ord κ] := SortedMap κ Unit

namespace SortedSet

variable {κ : Type u} [Ord κ]

def add [Std.TransOrd κ] (s : SortedSet κ) (k : κ) : SortedSet κ := SortedMap.insert s k ()

def ofKeys [Std.TransOrd κ] (ks : List κ) : SortedSet κ := ks.foldl add SortedMap.empty

def singleton [Std.TransOrd κ] (k : κ) : SortedSet κ := add SortedMap.empty k

def union [Std.TransOrd κ] (s t : SortedSet κ) : SortedSet κ := t.keys.foldl add s

end SortedSet

end CilAnalysis
