import CilAnalysis.Machine.Address
import Mathlib

/-!
# How heaps change

Objects are never freed, and an object keeps its kind, its type and its length for as long as the
heap exists: what a store changes is the content of fields, elements and bytes.  `Heap.Extends` says
this of an earlier and a later heap.  A handle that denotes an object of some kind therefore goes on
to do so, and what holds of a value because of the objects it refers to goes on to hold.

There are three ways in which a heap changes, and each of them extends it.

* A new object is allocated (`Heap.Extends.allocate`).
* An object is replaced by one of the same layout (`Heap.Extends.set`).
* A block of memory is stored in (`Heap.updateBlock_storesTo`).  Such a store keeps the size of the
  block or is refused for its bounds (`Block.StoresIn`).

What may be relied on of an object that was read is its layout, not its content: another store may
come between.  `Heap.HasLayout` says that a handle denotes an object with the layout of a given one,
and this is kept by every extension (`Heap.HasLayout.mono`).
-/

namespace CilAnalysis

/-! ## Objects with other content -/

/-- Two objects of one kind, of the same type and of the same length.  Strings and boxes are never
stored in, so these are the same altogether. -/
inductive HeapObject.SameLayout : HeapObject → HeapObject → Prop where
  | object {o o' : ObjectState} (htype : o.type = o'.type) : SameLayout (.object o) (.object o')
  | array {a a' : ArrayState} (helement : a.element = a'.element)
      (hsize : a.elements.size = a'.elements.size) : SameLayout (.array a) (.array a')
  | string (text : String) : SameLayout (.string text) (.string text)
  | boxed (type : TypeSig) (v : Value) : SameLayout (.boxed type v) (.boxed type v)
  | memory {b b' : Block} (hsize : b.size = b'.size) : SameLayout (.memory b) (.memory b')

namespace HeapObject.SameLayout

theorem refl (o : HeapObject) : SameLayout o o := by
  cases o with
  | object => exact .object rfl
  | array => exact .array rfl rfl
  | string text => exact .string text
  | boxed type v => exact .boxed type v
  | memory => exact .memory rfl

theorem trans {o o' o'' : HeapObject} (h : SameLayout o o') (h' : SameLayout o' o'') :
    SameLayout o o'' := by
  cases h with
  | object htype =>
      cases h' with
      | object htype' => exact .object (htype.trans htype')
  | array helement hsize =>
      cases h' with
      | array helement' hsize' => exact .array (helement.trans helement') (hsize.trans hsize')
  | string text => exact h'
  | boxed type v => exact h'
  | memory hsize =>
      cases h' with
      | memory hsize' => exact .memory (hsize.trans hsize')

theorem symm {o o' : HeapObject} (h : SameLayout o o') : SameLayout o' o := by
  cases h with
  | object htype => exact .object htype.symm
  | array helement hsize => exact .array helement.symm hsize.symm
  | string text => exact .string text
  | boxed type v => exact .boxed type v
  | memory hsize => exact .memory hsize.symm

end HeapObject.SameLayout

/-! ## Earlier and later heaps -/

namespace Heap

/-- Every object of `h` is still there in `h'`, with the same layout. -/
def Extends (h h' : Heap) : Prop :=
  ∀ (i : Nat) (o : HeapObject), h.objects[i]? = some o →
    ∃ o', h'.objects[i]? = some o' ∧ o.SameLayout o'

namespace Extends

variable {h h' h'' : Heap}

theorem refl (h : Heap) : Extends h h := fun _ o ho => ⟨o, ho, .refl o⟩

theorem trans (hab : Extends h h') (hbc : Extends h' h'') : Extends h h'' := by
  intro i o ho
  obtain ⟨o', ho', hlayout⟩ := hab i o ho
  obtain ⟨o'', ho'', hlayout'⟩ := hbc i o' ho'
  exact ⟨o'', ho'', hlayout.trans hlayout'⟩

theorem size_le (hext : Extends h h') : h.size ≤ h'.size := by
  by_contra hlt
  have hin : h'.size < h.objects.size := not_le.mp hlt
  obtain ⟨o', ho', -⟩ := hext h'.size _ (Array.getElem?_eq_getElem hin)
  obtain ⟨hbound, -⟩ := Array.getElem?_eq_some_iff.mp ho'
  exact absurd hbound (lt_irrefl _)

theorem allocate (h : Heap) (o : HeapObject) : Extends h (h.allocate o).2 := by
  intro i o' ho'
  obtain ⟨hi, -⟩ := Array.getElem?_eq_some_iff.mp ho'
  refine ⟨o', ?_, .refl o'⟩
  change (h.objects.push o)[i]? = some o'
  rw [Array.getElem?_push_lt hi, ← ho', Array.getElem?_eq_getElem hi]

end Extends

theorem get_eq_ok_iff {h : Heap} {handle : Handle} {o : HeapObject} :
    h.get handle = .ok o ↔ h.objects[handle.index]? = some o := by
  unfold get
  cases h.objects[handle.index]? with
  | none => exact ⟨nofun, nofun⟩
  | some o' => simp

theorem exists_get_of_lt {h : Heap} {handle : Handle} (hlt : handle.index < h.size) :
    ∃ o, h.get handle = .ok o :=
  ⟨_, get_eq_ok_iff.mpr (Array.getElem?_eq_getElem hlt)⟩

theorem block_eq_ok_iff {h : Heap} {handle : Handle} {b : Block} :
    h.block handle = .ok b ↔ h.objects[handle.index]? = some (.memory b) := by
  unfold block
  rw [← get_eq_ok_iff]
  cases h.get handle with
  | error e => exact ⟨nofun, nofun⟩
  | ok o =>
      cases o with
      | memory b' => exact ⟨fun heq => by cases heq; rfl, fun heq => by cases heq; rfl⟩
      | _ => exact ⟨nofun, nofun⟩

/-- The handle denotes an object with the layout of `o`.  This is what can be relied on for good of
an object that was read. -/
def HasLayout (h : Heap) (handle : Handle) (o : HeapObject) : Prop :=
  ∃ o', h.objects[handle.index]? = some o' ∧ o.SameLayout o'

theorem HasLayout.mono {h h' : Heap} {handle : Handle} {o : HeapObject}
    (ho : h.HasLayout handle o) (hext : h.Extends h') : h'.HasLayout handle o := by
  obtain ⟨o₁, ho₁, hlayout⟩ := ho
  obtain ⟨o₂, ho₂, hlayout'⟩ := hext _ _ ho₁
  exact ⟨o₂, ho₂, hlayout.trans hlayout'⟩

theorem hasLayout_of_get {h : Heap} {handle : Handle} {o : HeapObject} (ho : h.get handle = .ok o) :
    h.HasLayout handle o :=
  ⟨o, get_eq_ok_iff.mp ho, .refl o⟩

theorem getElem?_set {h : Heap} {handle : Handle} {o o' : HeapObject} {i : Nat}
    (ho' : (h.set handle o).objects[i]? = some o') :
    (handle.index = i ∧ o' = o) ∨ h.objects[i]? = some o' := by
  change (h.objects.setIfInBounds handle.index o)[i]? = some o' at ho'
  rw [Array.getElem?_setIfInBounds] at ho'
  split at ho'
  next heq =>
    split at ho'
    · exact Or.inl ⟨heq, (Option.some.inj ho').symm⟩
    · exact absurd ho'.symm (Option.some_ne_none _)
  next => exact Or.inr ho'

/-- Storing in an object leaves all layouts as they are. -/
theorem Extends.set {h : Heap} {handle : Handle} {o o' : HeapObject} (ho : h.HasLayout handle o)
    (hlayout : o.SameLayout o') : h.Extends (h.set handle o') := by
  obtain ⟨old, hold, hsame⟩ := ho
  intro i o₁ ho₁
  change ∃ o₂, (h.objects.setIfInBounds handle.index o')[i]? = some o₂ ∧ _
  rw [Array.getElem?_setIfInBounds]
  by_cases heq : handle.index = i
  · subst heq
    -- The object that is replaced had the layout that was asked for.
    obtain ⟨hin, -⟩ := Array.getElem?_eq_some_iff.mp hold
    obtain rfl := Option.some.inj (ho₁.symm.trans hold)
    exact ⟨o', by rw [if_pos rfl, if_pos hin], hsame.symm.trans hlayout⟩
  · exact ⟨o₁, by rw [if_neg heq, ho₁], .refl o₁⟩

theorem getElem?_allocate {h : Heap} {o o' : HeapObject} {i : Nat}
    (ho' : (h.allocate o).2.objects[i]? = some o') :
    o' = o ∨ h.objects[i]? = some o' := by
  change (h.objects.push o)[i]? = some o' at ho'
  rw [Array.getElem?_push] at ho'
  split at ho'
  next => exact Or.inl (Option.some.inj ho').symm
  next => exact Or.inr ho'

theorem getElem?_allocate_self (h : Heap) (o : HeapObject) :
    (h.allocate o).2.objects[(h.allocate o).1.index]? = some o := by
  change (h.objects.push o)[h.objects.size]? = some o
  rw [Array.getElem?_push_size]

end Heap

/-! ## Stores in memory blocks -/

namespace Block

theorem size_setBytes (bytes : Array (KnownBits 8)) (start : Nat) (new : List (KnownBits 8)) :
    (setBytes bytes start new).size = bytes.size := by
  induction new generalizing bytes start with
  | nil => rfl
  | cons byte rest ih => rw [setBytes, ih, Array.size_setIfInBounds]

private theorem locate_eq_error {b : Block} {offset : Int} {size : Nat} {e : Error}
    (h : b.locate offset size = .error e) : e = .memoryAccessOutOfBounds offset size := by
  unfold locate at h
  split at h
  · exact nomatch h
  · exact (Except.error.inj h).symm

/-- What a store in a memory block may come to: the block as it is stored in, or a refusal because
it leaves the block. -/
def StoresIn (b : Block) : Except Error Block → Prop
  | .ok b' => b.size = b'.size
  | .error e => ∃ offset size, e = .memoryAccessOutOfBounds offset size

theorem storesIn_writeBytes (b : Block) (offset : Int) (bytes : List (KnownBits 8)) :
    b.StoresIn (b.writeBytes offset bytes) := by
  unfold writeBytes
  cases hlocate : b.locate offset bytes.length with
  | error e => exact ⟨_, _, locate_eq_error hlocate⟩
  | ok start => exact (size_setBytes b.bytes start bytes).symm

theorem storesIn_fill (b : Block) (offset : Int) (size : Nat) (byte : KnownBits 8) :
    b.StoresIn (b.fill offset size byte) := by
  unfold fill
  cases hlocate : b.locate offset size with
  | error e => exact ⟨_, _, locate_eq_error hlocate⟩
  | ok start => exact (size_setBytes b.bytes start _).symm

theorem readBytes_eq_error {b : Block} {offset : Int} {size : Nat} {e : Error}
    (h : b.readBytes offset size = .error e) : e = .memoryAccessOutOfBounds offset size := by
  unfold readBytes at h
  cases hlocate : b.locate offset size with
  | ok start =>
      rw [hlocate] at h
      exact nomatch h
  | error e' =>
      rw [hlocate] at h
      obtain rfl := Except.error.inj h
      exact locate_eq_error hlocate

end Block

namespace Heap

/-- One heap is the other after at most one store in a memory block. -/
def StoresTo (h h' : Heap) : Prop :=
  h' = h ∨ ∃ (handle : Handle) (b b' : Block),
    h.block handle = .ok b ∧ b.size = b'.size ∧ h' = h.set handle (.memory b')

theorem updateBlock_storesTo {h h' : Heap} {handle : Handle} {f : Block → Except Error Block}
    (hf : ∀ b : Block, b.StoresIn (f b)) (hupdate : h.updateBlock handle f = .ok h') :
    h.StoresTo h' := by
  unfold updateBlock at hupdate
  cases hblock : h.block handle with
  | error e =>
      rw [hblock] at hupdate
      exact nomatch hupdate
  | ok b =>
      rw [hblock] at hupdate
      have hsize := hf b
      change (f b >>= fun b' => pure (h.set handle (.memory b'))) = .ok h' at hupdate
      cases hb' : f b with
      | error e =>
          rw [hb'] at hupdate
          exact nomatch hupdate
      | ok b' =>
          rw [hb'] at hupdate hsize
          exact Or.inr ⟨handle, b, b', hblock, hsize, (Except.ok.inj hupdate).symm⟩

theorem updateBlock_eq_error {h : Heap} {handle : Handle} {f : Block → Except Error Block}
    {e : Error} (hf : ∀ b : Block, b.StoresIn (f b)) (hupdate : h.updateBlock handle f = .error e) :
    h.block handle = .error e ∨ ∃ offset size, e = .memoryAccessOutOfBounds offset size := by
  unfold updateBlock at hupdate
  cases hblock : h.block handle with
  | error e' =>
      rw [hblock] at hupdate
      exact Or.inl (congrArg _ (Except.error.inj hupdate))
  | ok b =>
      rw [hblock] at hupdate
      have hrefusal := hf b
      change (f b >>= fun b' => pure (h.set handle (.memory b'))) = .error e at hupdate
      cases hb' : f b with
      | ok b' =>
          rw [hb'] at hupdate
          exact nomatch hupdate
      | error e' =>
          rw [hb'] at hupdate hrefusal
          obtain rfl := Except.error.inj hupdate
          exact Or.inr hrefusal

end Heap

end CilAnalysis
