import CilAnalysis.Proofs.Machine.Locations
import CilAnalysis.Proofs.Memory.Bytewise

/-!
# Copying and filling memory

`cpblk` and `initblk` replace the bytes of one range of one block.  What they leave is said by one
equation for all bytes of all blocks (`Heap.Replaces`), in which the bytes of a source are those of
the heap before.  The main result is `Interpreter.dispatch_blockTransfer`.

## Strategy

A run of one of the instructions is followed in three stages.

* The operands are taken from the stack and understood, which does not touch the heap
  (`Step.run_operands`).  If the destination is not tracked, nothing more happens
  (`Step.untracked_operands`).
* What is left is one change of the heap: a copy, a fill with the low byte, or a fill with unknown
  bytes (`Step.run_copyBlock_some`, `Step.run_copyBlock_forget` and the like for `initblk`).
* All these changes come down to one store of a list of bytes (`Heap.replaces_setBytes`), which is
  made only if the list fits.  `Machine.Transfers` says how the instruction ends in both cases.

That a fault leaves the heap alone is proved apart, for every stack and without a look at the
operands: the store is the last that either instruction does, and a store that faults has changed
nothing (`Step.KeepsOnFault`).
-/

namespace CilAnalysis

/-! ## The bytes of a heap -/

namespace Heap

variable {h h' : Heap} {handle : Handle} {b : Block}

/-- The byte in a place of a memory block, if there is one. -/
def byteAt (h : Heap) (handle : Handle) (place : Int) : Option (KnownBits 8) :=
  match h.block handle with
  | .ok b => if 0 ≤ place then b.bytes[place.toNat]? else none
  | .error _ => none

/-- `h'` is `h` after the bytes of a range of a block were replaced.  What comes in the place of
each is given by its distance from the start of the range. -/
structure Replaces (h : Heap) (handle : Handle) (offset : Int) (count : Nat)
    (new : Int → Option (KnownBits 8)) (h' : Heap) : Prop where
  bytes : ∀ other place, h'.byteAt other place =
    if other = handle ∧ offset ≤ place ∧ place < offset + count then new (place - offset)
    else h.byteAt other place
  others : ∀ other, other ≠ handle → h'.get other = h.get other
  size : h'.size = h.size

private theorem byteAt_of_block (hb : h.block handle = .ok b) (place : Int) :
    h.byteAt handle place = if 0 ≤ place then b.bytes[place.toNat]? else none := by
  rw [byteAt, hb]

private theorem updateBlock_of_block (hb : h.block handle = .ok b)
    (f : Block → Except Error Block) :
    h.updateBlock handle f = (f b).map fun b' => h.set handle (.memory b') := by
  unfold updateBlock
  rw [hb]
  show (do return h.set handle (.memory (← f b))) = _
  cases f b <;> rfl

private theorem block_set_self (hb : h.block handle = .ok b) (b' : Block) :
    (h.set handle (.memory b')).block handle = .ok b' := by
  have hget : h.get handle = .ok (.memory b) := get_eq_ok_iff.mpr (block_eq_ok_iff.mp hb)
  exact block_eq_ok_iff.mpr (get_eq_ok_iff.mp (get_set_self hget))

private theorem get_set_of_ne {other : Handle} (hne : other ≠ handle) (o : HeapObject) :
    (h.set handle o).get other = h.get other := by
  have hindex : handle.index ≠ other.index := by
    intro heq
    cases handle
    cases other
    exact hne (congrArg Handle.mk heq.symm)
  have hobjects : (h.set handle o).objects[other.index]? = h.objects[other.index]? :=
    Array.getElem?_setIfInBounds_ne hindex
  rw [get, get, hobjects]

private theorem block_set_of_ne {other : Handle} (hne : other ≠ handle) (o : HeapObject) :
    (h.set handle o).block other = h.block other := by
  rw [block, block, get_set_of_ne hne]

theorem Replaces.congr {offset : Int} {count : Nat} {new new' : Int → Option (KnownBits 8)}
    (hreplaces : h.Replaces handle offset count new h')
    (hnew : ∀ k : Int, 0 ≤ k → k < count → new k = new' k) :
    h.Replaces handle offset count new' h' := by
  refine ⟨fun other place => ?_, hreplaces.others, hreplaces.size⟩
  rw [hreplaces.bytes]
  split
  next hin => exact hnew _ (by omega) (by omega)
  next => rfl

/-- Bytes that are put in a block replace those of their range. -/
theorem replaces_setBytes (hb : h.block handle = .ok b) {offset : Int} {bytes : List (KnownBits 8)}
    (hcovers : b.Covers offset bytes.length) :
    h.Replaces handle offset bytes.length (fun k => bytes[k.toNat]?)
      (h.set handle (.memory ⟨Block.setBytes b.bytes offset.toNat bytes⟩)) where
  bytes other place := by
    obtain ⟨hpos, hfit⟩ := hcovers
    have hfit' : offset.toNat + bytes.length ≤ b.bytes.size := by
      have hsize : b.size = b.bytes.size := rfl
      omega
    by_cases hother : other = handle
    · subst hother
      rw [byteAt_of_block (block_set_self hb _), byteAt_of_block hb, Block.getElem?_setBytes hfit']
      -- In the block itself a place is in the range, or outside of it, or it is negative and no
      -- place.
      by_cases hin : offset ≤ place ∧ place < offset + bytes.length
      · have hdistance : place.toNat - offset.toNat = (place - offset).toNat := by omega
        rw [if_pos (by omega), if_pos (by omega), if_pos ⟨rfl, hin⟩, hdistance]
      · have hout : ¬ (other = other ∧ offset ≤ place ∧ place < offset + bytes.length) :=
          fun hin' => hin hin'.2
        rw [if_neg hout]
        by_cases hplace : 0 ≤ place
        · rw [if_pos hplace, if_pos hplace, if_neg (by omega)]
        · rw [if_neg hplace, if_neg hplace]
    · rw [byteAt, byteAt, block_set_of_ne hother, if_neg (fun hin => hother hin.1)]
  others other hother := get_set_of_ne hother _
  size := size_set

end Heap

/-! ## Stores behind pointers -/

namespace Machine

/-- How an instruction ends that takes its operands from the stack and replaces bytes of the heap:
if the ranges lie in their blocks it leaves the heap that it should, and if not it faults with the
heap as it was. -/
inductive Transfers (m : Machine) (rest : List Value) (inside : Prop) (leaves : Heap → Prop) :
    Outcome × Machine → Prop
  | done {heap : Heap} (h : inside) (hleaves : leaves heap) :
      Transfers m rest inside leaves (.ok .fallThrough, { m with stack := rest, heap })
  | outside (h : ¬ inside) (reason : String) :
      Transfers m rest inside leaves (.error (.accessViolation reason), { m with stack := rest })

/-- A change of the heap that fails only outside of a block. -/
theorem transfers_updateHeap {m : Machine} {rest : List Value} {inside : Prop}
    {leaves : Heap → Prop} {f : Heap → Except Error Heap}
    (hinside : inside → ∃ heap, f m.heap = .ok heap ∧ leaves heap)
    (houtside : ¬ inside →
      ∃ offset size, f m.heap = .error (.memoryAccessOutOfBounds offset size)) :
    m.Transfers rest inside leaves
      ((Step.thenNext (Step.updateHeap f)).run { m with stack := rest }) := by
  have hrun := Step.run_updateHeap f { m with stack := rest }
  by_cases h : inside
  · obtain ⟨heap, hheap, hleaves⟩ := hinside h
    dsimp only at hrun
    rw [hheap] at hrun
    rw [Step.run_thenNext_of_ok hrun]
    exact .done h hleaves
  · obtain ⟨offset, size, herror⟩ := houtside h
    dsimp only at hrun
    rw [herror] at hrun
    rw [Step.run_thenNext_of_error hrun]
    exact .outside h _

end Machine

/-- From an offset in a block to the end of it there are as many bytes as the two numbers differ
by, if the size is less than `2 ^ 63`.  A greater one would wrap around. -/
theorem Block.bytesFrom_of_covers {b : Block} {offset : BitVec 64}
    (hsize : b.size < 0x8000000000000000) (hcovers : b.Covers offset.toInt 0) :
    b.bytesFrom offset = (b.size - offset.toInt).toNat := by
  obtain ⟨hpos, hfit⟩ := hcovers
  have htoInt : (BitVec.ofNat 64 b.size).toInt = b.size := by
    rw [BitVec.toInt_ofNat']
    exact Int.bmod_eq_of_le (by omega) (by omega)
  have hsub : (BitVec.ofNat 64 b.size - offset).toInt = b.size - offset.toInt := by
    rw [BitVec.toInt_sub, htoInt]
    exact Int.bmod_eq_of_le (by omega) (by omega)
  rw [bytesFrom, hsub]

namespace Pointer

variable {p : Pointer} {h : Heap} {block : Handle} {b : Block}

/-- Bytes are stored in the places of their range. -/
theorem exists_writeBytes (hbase : p.base = some block) (hb : h.block block = .ok b)
    {bytes : List (KnownBits 8)} {count : Nat} (hlength : bytes.length = count)
    (hcovers : b.Covers p.offset.toInt count) {new : Int → Option (KnownBits 8)}
    (hnew : ∀ k : Int, 0 ≤ k → k < count → bytes[k.toNat]? = new k) :
    ∃ h', p.writeBytes h bytes = .ok h' ∧ h.Replaces block p.offset.toInt count new h' := by
  subst hlength
  refine ⟨_, ?_, (Heap.replaces_setBytes hb hcovers).congr hnew⟩
  unfold writeBytes
  rw [hbase]
  dsimp only
  rw [Heap.updateBlock_of_block hb, Block.writeBytes_of_covers hcovers]
  rfl

theorem writeBytes_of_not_covers (hbase : p.base = some block) (hb : h.block block = .ok b)
    {bytes : List (KnownBits 8)} {count : Nat} (hlength : bytes.length = count)
    (hcovers : ¬ b.Covers p.offset.toInt count) :
    p.writeBytes h bytes = .error (.memoryAccessOutOfBounds p.offset.toInt count) := by
  subst hlength
  unfold writeBytes
  rw [hbase]
  dsimp only
  rw [Heap.updateBlock_of_block hb, Block.writeBytes_of_not_covers hcovers]
  rfl

private theorem fill_eq_writeBytes (p : Pointer) (h : Heap) (count : Nat) (byte : KnownBits 8) :
    p.fill h count byte = p.writeBytes h (List.replicate count byte) := by
  unfold fill writeBytes Block.fill Block.writeBytes
  rw [List.length_replicate]

private theorem forget_eq_fill (hbase : p.base = some block) (hb : h.block block = .ok b)
    (count : Option Nat) :
    p.forget h count = p.fill h (count.getD (b.bytesFrom p.offset)) .unknown := by
  unfold forget fill
  rw [hbase]
  dsimp only
  rw [Heap.updateBlock_of_block hb, Heap.updateBlock_of_block hb, Block.forget]

/-- The bytes that are read are those of the places of the range. -/
theorem exists_readBytes (hbase : p.base = some block) (hb : h.block block = .ok b) {count : Nat}
    (hcovers : b.Covers p.offset.toInt count) :
    ∃ bytes, p.readBytes h count = .ok bytes ∧ bytes.length = count ∧
      ∀ k : Int, 0 ≤ k → k < count → bytes[k.toNat]? = h.byteAt block (p.offset.toInt + k) := by
  have hread : p.readBytes h count =
      .ok (b.bytes.extract p.offset.toInt.toNat (p.offset.toInt.toNat + count)).toList := by
    unfold readBytes
    rw [hbase]
    dsimp only
    rw [hb]
    exact Block.readBytes_of_covers hcovers
  obtain ⟨hpos, hfit⟩ := hcovers
  have hsize : b.size = b.bytes.size := rfl
  refine ⟨_, hread, ?_, fun k hk hcount => ?_⟩
  · rw [Array.length_toList, Array.size_extract]
    omega
  · have hplace : (p.offset.toInt + k).toNat = p.offset.toInt.toNat + k.toNat := by omega
    rw [Heap.byteAt_of_block hb, if_pos (by omega), Array.getElem?_toList,
      Array.getElem?_extract, if_pos (by omega), hplace]

theorem readBytes_of_not_covers (hbase : p.base = some block) (hb : h.block block = .ok b)
    {count : Nat} (hcovers : ¬ b.Covers p.offset.toInt count) :
    p.readBytes h count = .error (.memoryAccessOutOfBounds p.offset.toInt count) := by
  unfold readBytes
  rw [hbase]
  dsimp only
  rw [hb]
  exact Block.readBytes_of_not_covers hcovers

/-- Filling a range puts the byte in each of its places. -/
theorem exists_fill (hbase : p.base = some block) (hb : h.block block = .ok b) {count : Nat}
    (hcovers : b.Covers p.offset.toInt count) (byte : KnownBits 8) :
    ∃ h', p.fill h count byte = .ok h' ∧
      h.Replaces block p.offset.toInt count (fun _ => some byte) h' := by
  rw [fill_eq_writeBytes]
  refine exists_writeBytes hbase hb List.length_replicate hcovers fun k hk hcount => ?_
  exact List.getElem?_replicate_of_lt (by omega)

private theorem fill_of_not_covers (hbase : p.base = some block) (hb : h.block block = .ok b)
    {count : Nat} (hcovers : ¬ b.Covers p.offset.toInt count) (byte : KnownBits 8) :
    ∃ offset size, p.fill h count byte = .error (.memoryAccessOutOfBounds offset size) := by
  rw [fill_eq_writeBytes]
  exact ⟨_, _, writeBytes_of_not_covers hbase hb List.length_replicate hcovers⟩

private theorem transfers_fill {m : Machine} {rest : List Value} (hbase : p.base = some block)
    (hb : m.heap.block block = .ok b) (count : Nat) (byte : KnownBits 8) :
    m.Transfers rest (b.Covers p.offset.toInt count)
      (m.heap.Replaces block p.offset.toInt count fun _ => some byte)
      ((Step.thenNext (Step.updateHeap fun h => p.fill h count byte)).run
        { m with stack := rest }) :=
  Machine.transfers_updateHeap (fun hin => exists_fill hbase hb hin byte)
    (fun hout => fill_of_not_covers hbase hb hout byte)

private theorem transfers_forget {m : Machine} {rest : List Value} (hbase : p.base = some block)
    (hb : m.heap.block block = .ok b) (count : Nat) :
    m.Transfers rest (b.Covers p.offset.toInt count)
      (m.heap.Replaces block p.offset.toInt count fun _ => some .unknown)
      ((Step.thenNext (Step.updateHeap fun h => p.forget h (some count))).run
        { m with stack := rest }) := by
  refine Machine.transfers_updateHeap (fun hin => ?_) (fun hout => ?_)
  · rw [forget_eq_fill hbase hb]
    exact exists_fill hbase hb hin .unknown
  · rw [forget_eq_fill hbase hb]
    exact fill_of_not_covers hbase hb hout .unknown

/-- A copy is made if both ranges lie in their blocks, and its source is read from the heap before
it. -/
theorem transfers_copy {q : Pointer} {origin : Handle} {b' : Block} {m : Machine}
    {rest : List Value} (hbase : p.base = some block) (hb : m.heap.block block = .ok b)
    (hbase' : q.base = some origin) (hb' : m.heap.block origin = .ok b') (count : Nat) :
    m.Transfers rest (b.Covers p.offset.toInt count ∧ b'.Covers q.offset.toInt count)
      (m.heap.Replaces block p.offset.toInt count fun k =>
        m.heap.byteAt origin (q.offset.toInt + k))
      ((Step.thenNext (Step.updateHeap fun h => do p.writeBytes h (← q.readBytes h count))).run
        { m with stack := rest }) := by
  refine Machine.transfers_updateHeap (fun hin => ?_) (fun hout => ?_)
  · obtain ⟨hin, hin'⟩ := hin
    obtain ⟨bytes, hread, hlength, hbytes⟩ := exists_readBytes hbase' hb' hin'
    rw [hread]
    exact exists_writeBytes hbase hb hlength hin hbytes
  · -- The source is read first. If that succeeds, it is the destination that does not fit.
    by_cases hin' : b'.Covers q.offset.toInt count
    · obtain ⟨bytes, hread, hlength, -⟩ := exists_readBytes hbase' hb' hin'
      rw [hread]
      exact ⟨_, _, writeBytes_of_not_covers hbase hb hlength fun hin => hout ⟨hin, hin'⟩⟩
    · rw [readBytes_of_not_covers hbase' hb' hin']
      exact ⟨_, _, rfl⟩

/-- All bytes behind a pointer are forgotten if it points into its block or at the end of it. -/
theorem transfers_forgetRest {m : Machine} {rest : List Value} (hbase : p.base = some block)
    (hb : m.heap.block block = .ok b) (hsize : b.size < 0x8000000000000000) :
    m.Transfers rest (b.Covers p.offset.toInt 0)
      (m.heap.Replaces block p.offset.toInt (b.size - p.offset.toInt).toNat fun _ => some .unknown)
      ((Step.thenNext (Step.updateHeap fun h => p.forget h none)).run
        { m with stack := rest }) := by
  refine Machine.transfers_updateHeap (fun hin => ?_) (fun hout => ?_)
  · have hall : b.Covers p.offset.toInt (b.size - p.offset.toInt).toNat := by
      obtain ⟨hpos, hfit⟩ := hin
      exact ⟨hpos, by omega⟩
    rw [forget_eq_fill hbase hb, Option.getD_none, Block.bytesFrom_of_covers hsize hin]
    exact exists_fill hbase hb hall .unknown
  · -- Outside of the block the number of bytes may have wrapped around; no number would fit.
    have hout' : ¬ b.Covers p.offset.toInt (b.bytesFrom p.offset) := by
      rintro ⟨hpos, hfit⟩
      exact hout ⟨hpos, by omega⟩
    rw [forget_eq_fill hbase hb, Option.getD_none]
    exact fill_of_not_covers hbase hb hout' .unknown

end Pointer

/-! ## Operands -/

namespace Value

/-- An address that is followed nowhere: a pointer of which the block is unknown, or a number. -/
def Untracked : Value → Prop
  | pointer p => p.base = none
  | nativeInt _ | int32 _ => True
  | _ => False

/-- A value that stands for an address. -/
def IsAddress : Value → Prop
  | pointer _ | nativeInt _ | int32 _ => True
  | _ => False

/-- A size of which the number is unknown or negative. -/
def NoSize (v : Value) : Prop :=
  v.index? .signed = .ok none ∨ ∃ n < 0, v.index? .signed = .ok (some n)

/-- The lowest eight bits of a value.  Of a value that is no integer none is known. -/
def lowByte : Value → KnownBits 8
  | int32 x => x.truncate 8
  | int64 x | nativeInt x => x.truncate 8
  | _ => .unknown

private theorem truncate_toInteger (v : Value) : v.toInteger.truncate 8 = v.lowByte := by
  have hunknown : (KnownBits.unknown : KnownBits 64).truncate 8 = .unknown := by decide +kernel
  cases v with
  | int32 x => exact KnownBits.truncate_resize x .signed (by decide) (by decide)
  | int64 | nativeInt => rfl
  | float | object | pointer => exact hunknown

private theorem address?_of_untracked {v : Value} (hv : v.Untracked) : v.address? = .ok none := by
  cases v with
  | pointer p =>
      have hbase : p.base = none := hv
      rw [address?, Pointer.isKnown, hbase]
      rfl
  | int32 | nativeInt => rfl
  | int64 | float | object => cases hv

private theorem address?_pointer {p : Pointer} {block : Handle} (hbase : p.base = some block) :
    (pointer p).address? = .ok (some p) := by
  rw [address?, Pointer.isKnown, hbase]
  rfl

private theorem exists_address? {v : Value} (hv : v.IsAddress) :
    ∃ origin, v.address? = .ok origin := by
  cases v with
  | pointer | int32 | nativeInt => exact ⟨_, rfl⟩
  | int64 | float | object => cases hv

private theorem size?_of_index {v : Value} {n : Nat}
    (hv : v.index? .signed = .ok (some (n : Int))) : v.size? = .ok (some n) := by
  rw [size?, hv]
  rfl

private theorem size?_of_noSize {v : Value} (hv : v.NoSize) : v.size? = .ok none := by
  obtain hv | ⟨n, hn, hv⟩ := hv
  · rw [size?, hv]
    rfl
  · obtain ⟨k, rfl⟩ := Int.eq_negSucc_of_lt_zero hn
    rw [size?, hv]
    rfl

end Value

/-! ## Instructions -/

namespace Step

variable {α β : Type} {m : Machine} {size v destination : Value} {rest : List Value}
  {p q : Pointer}

/-- If the step faults, the heap is left as it was. -/
def KeepsOnFault (step : Step α) : Prop :=
  ∀ m fault m', step.run m = (.error fault, m') → m'.heap = m.heap

private theorem heap_pop (m : Machine) : (pop.run m).2.heap = m.heap := by
  cases hstack : m.stack with
  | nil => rw [run_pop_nil hstack]
  | cons v rest => rw [run_pop_cons hstack]

private theorem heap_attempt (r : Except Fault α) (m : Machine) :
    ((attempt r).run m).2.heap = m.heap :=
  rfl

theorem KeepsOnFault.bind {x : Step α} {f : α → Step β} (hx : ∀ m, (x.run m).2.heap = m.heap)
    (hf : ∀ v, KeepsOnFault (f v)) : KeepsOnFault (x >>= f) := by
  intro m fault m' hrun
  have hheap := hx m
  rw [run_bind] at hrun
  rcases hxrun : x.run m with ⟨outcome, m₁⟩
  rw [hxrun] at hrun hheap
  cases outcome with
  | ok v => exact (hf v m₁ fault m' hrun).trans hheap
  | error fault' =>
      obtain rfl : m₁ = m' := congrArg Prod.snd hrun
      exact hheap

theorem KeepsOnFault.updateHeap (f : Heap → Except Error Heap) :
    KeepsOnFault (Step.updateHeap f) := by
  intro m fault m' hrun
  rw [run_updateHeap] at hrun
  cases hf : f m.heap with
  | ok heap =>
      rw [hf] at hrun
      cases congrArg Prod.fst hrun
  | error e =>
      rw [hf] at hrun
      obtain rfl : m = m' := congrArg Prod.snd hrun
      rfl

theorem KeepsOnFault.pure (v : α) : KeepsOnFault (Pure.pure v : Step α) := by
  intro m fault m' hrun
  cases congrArg Prod.fst hrun

theorem KeepsOnFault.thenNext {step : Step Unit} (hstep : KeepsOnFault step) :
    KeepsOnFault (Step.thenNext step) := by
  intro m fault m' hrun
  rcases hrun' : step.run m with ⟨outcome, m₁⟩
  cases outcome with
  | ok =>
      rw [run_thenNext_of_ok hrun'] at hrun
      cases congrArg Prod.fst hrun
  | error fault' =>
      rw [run_thenNext_of_error hrun'] at hrun
      obtain rfl : m₁ = m' := congrArg Prod.snd hrun
      exact hstep m fault' m₁ hrun'

-- In both steps the heap is changed last, so nothing can fault after it.
private theorem keepsOnFault_copyBlock : KeepsOnFault copyBlock := by
  refine .bind heap_pop fun size => .bind heap_pop fun source => .bind heap_pop fun _ => ?_
  refine .bind (heap_attempt _) fun count => .bind (heap_attempt _) fun target => ?_
  cases target with
  | none => exact .pure ()
  | some p =>
      refine .bind (heap_attempt _) fun origin => ?_
      split <;> exact .updateHeap _

private theorem keepsOnFault_initBlock : KeepsOnFault initBlock := by
  refine .bind heap_pop fun size => .bind heap_pop fun v => .bind heap_pop fun destination => ?_
  refine .bind (heap_attempt _) fun count => .bind (heap_attempt _) fun target => ?_
  split
  · exact .pure ()
  · exact .updateHeap _
  · exact .updateHeap _

section Run

variable (hstack : m.stack = size :: v :: destination :: rest)
include hstack

/-- A step on three operands goes on with them if the uppermost is a size. -/
theorem run_operands {count : Option Nat} (hsize : size.size? = .ok count)
    (f : Value → Value → Option Nat → Step α) :
    (do
      let size ← pop
      let v ← pop
      let destination ← pop
      let count ← attempt size.size?
      f v destination count).run m = (f v destination count).run { m with stack := rest } := by
  rw [run_pop_bind hstack, run_pop_bind rfl, run_pop_bind rfl, run_attempt_bind hsize]

/-- A step on three operands that does nothing with an address that is not tracked.  It can fault
all the same, if the uppermost operand is no size. -/
theorem untracked_operands {f : Value → Option Nat → Option Pointer → Step Unit}
    (hp : destination.address? = .ok none) (hf : ∀ v count, f v count none = pure ()) :
    let result := (thenNext do
      let size ← pop
      let v ← pop
      let destination ← pop
      let count ← attempt size.size?
      f v count (← attempt destination.address?)).run m
    result.2.heap = m.heap ∧ ∀ n, size.index? .signed = .ok n →
      result = (.ok .fallThrough, { m with stack := rest }) := by
  intro result
  cases hindex : size.index? .signed with
  | ok n =>
      have hsize : size.size? = .ok (n.bind Int.toNat?) := by
        rw [Value.size?, hindex]
        rfl
      have hresult : result = (.ok .fallThrough, { m with stack := rest }) := by
        refine run_thenNext_of_ok ((run_operands hstack hsize _).trans ?_)
        rw [run_attempt_bind hp, hf]
        rfl
      exact ⟨congrArg (fun r => r.2.heap) hresult, fun _ _ => hresult⟩
  | error fault =>
      have hsize : size.size? = .error fault := by
        rw [Value.size?, hindex]
        rfl
      have hresult : result = (.error fault, { m with stack := rest }) := by
        refine run_thenNext_of_error ?_
        rw [run_pop_bind hstack, run_pop_bind rfl, run_pop_bind rfl, run_bind, run_attempt, hsize]
      refine ⟨congrArg (fun r => r.2.heap) hresult, fun n hn => ?_⟩
      cases hn

private theorem run_copyBlock_forget {count : Option Nat} {origin : Option Pointer}
    (hsize : size.size? = .ok count) (hp : destination.address? = .ok (some p))
    (hq : v.address? = .ok origin) (hnone : origin = none ∨ count = none) :
    copyBlock.run m = (updateHeap fun h => p.forget h count).run { m with stack := rest } := by
  refine (run_operands hstack hsize _).trans ?_
  rw [run_attempt_bind hp]
  dsimp only
  rw [run_attempt_bind hq]
  obtain rfl | rfl := hnone
  · rfl
  · cases origin <;> rfl

private theorem run_copyBlock_some {n : Nat} (hsize : size.size? = .ok (some n))
    (hp : destination.address? = .ok (some p)) (hq : v.address? = .ok (some q)) :
    copyBlock.run m =
      (updateHeap fun h => do p.writeBytes h (← q.readBytes h n)).run { m with stack := rest } := by
  refine (run_operands hstack hsize _).trans ?_
  rw [run_attempt_bind hp]
  dsimp only
  rw [run_attempt_bind hq]

private theorem run_initBlock_some {n : Nat} (hsize : size.size? = .ok (some n))
    (hp : destination.address? = .ok (some p)) :
    initBlock.run m = (updateHeap fun h => p.fill h n v.lowByte).run { m with stack := rest } := by
  refine (run_operands hstack hsize _).trans ?_
  rw [run_attempt_bind hp, ← Value.truncate_toInteger]

private theorem run_initBlock_forget (hsize : size.size? = .ok none)
    (hp : destination.address? = .ok (some p)) :
    initBlock.run m = (updateHeap fun h => p.forget h none).run { m with stack := rest } := by
  refine (run_operands hstack hsize _).trans ?_
  rw [run_attempt_bind hp]

end Run

end Step

private theorem Setting.execute_cpblk (s : Setting) {i : Instruction} (hi : i.opcode = .cpblk) :
    s.execute i = Step.thenNext Step.copyBlock := by
  rw [execute, hi]
  rfl

private theorem Setting.execute_initblk (s : Setting) {i : Instruction} (hi : i.opcode = .initblk) :
    s.execute i = Step.thenNext Step.initBlock := by
  rw [execute, hi]
  rfl

namespace Interpreter

/-- Blocks are copied and filled exactly or not at all.

Neither instruction changes the heap when it faults, on any stack, or when the destination is not
tracked.  Into a block and with a known size, a copy moves the bytes that were behind the source
before it, known bits and unknown ones, whether or not the two ranges overlap.  If the source is not
tracked it leaves unknown bytes instead, and a fill leaves the lowest byte of the value.

No buffer is set aside for the bytes under way, so that a size which no memory could hold is refused
for its bounds like any other: running out of memory before the bounds are checked is not modelled.

Without a size both forget all from the destination to the end of the block.  The number of these
bytes is the size of the block minus the offset, subtracted at 64 bits with wrap-around.  The block
is taken to be shorter than `2 ^ 63` bytes so that its size is a signed number; then nothing wraps
for an offset inside the block, and any other offset is refused. -/
theorem dispatch_blockTransfer (s : Setting) (m : Machine) (copy init : Instruction)
    (hcopy : copy.opcode = .cpblk) (hinit : init.opcode = .initblk) :
    let run (i : Instruction) := (({} : Interpreter).dispatch s i).run m
    (∀ i ∈ [copy, init], ∀ fault m', run i = (.error fault, m') → m'.heap = m.heap) ∧
    ∀ {size v destination : Value} {rest : List Value},
      m.stack = size :: v :: destination :: rest →
      (destination.Untracked → ∀ i ∈ [copy, init], (run i).2.heap = m.heap ∧
        ∀ n, size.index? .signed = .ok n → run i = (.ok .fallThrough, { m with stack := rest })) ∧
      ∀ (p : Pointer) (block : Handle) (b : Block), destination = .pointer p →
        p.base = some block → m.heap.block block = .ok b →
        (∀ n : Nat, size.index? .signed = .ok (some (n : Int)) →
          (∀ (q : Pointer) (origin : Handle) (b' : Block), v = .pointer q →
            q.base = some origin → m.heap.block origin = .ok b' →
            m.Transfers rest (b.Covers p.offset.toInt n ∧ b'.Covers q.offset.toInt n)
              (m.heap.Replaces block p.offset.toInt n fun k =>
                m.heap.byteAt origin (q.offset.toInt + k)) (run copy)) ∧
          (v.Untracked →
            m.Transfers rest (b.Covers p.offset.toInt n)
              (m.heap.Replaces block p.offset.toInt n fun _ => some .unknown) (run copy)) ∧
          m.Transfers rest (b.Covers p.offset.toInt n)
            (m.heap.Replaces block p.offset.toInt n fun _ => some v.lowByte) (run init)) ∧
        (size.NoSize → b.size < 0x8000000000000000 →
          (v.IsAddress →
            m.Transfers rest (b.Covers p.offset.toInt 0)
              (m.heap.Replaces block p.offset.toInt (b.size - p.offset.toInt).toNat
                fun _ => some .unknown) (run copy)) ∧
          m.Transfers rest (b.Covers p.offset.toInt 0)
            (m.heap.Replaces block p.offset.toInt (b.size - p.offset.toInt).toNat
              fun _ => some .unknown) (run init)) := by
  intro run
  have hrunCopy : run copy = (Step.thenNext Step.copyBlock).run m := by
    unfold run
    rw [dispatch_eq_execute {} s copy, s.execute_cpblk hcopy]
  have hrunInit : run init = (Step.thenNext Step.initBlock).run m := by
    unfold run
    rw [dispatch_eq_execute {} s init, s.execute_initblk hinit]
  have hboth (P : Outcome × Machine → Prop) (hP : P ((Step.thenNext Step.copyBlock).run m))
      (hP' : P ((Step.thenNext Step.initBlock).run m)) : ∀ i ∈ [copy, init], P (run i) := by
    intro i hi
    obtain rfl | rfl : i = copy ∨ i = init := by simpa using hi
    · exact hrunCopy ▸ hP
    · exact hrunInit ▸ hP'
  rw [hrunCopy, hrunInit]
  refine ⟨hboth (fun result => ∀ fault m', result = (.error fault, m') → m'.heap = m.heap)
    (Step.keepsOnFault_copyBlock.thenNext m) (Step.keepsOnFault_initBlock.thenNext m), ?_⟩
  intro size v destination rest hstack
  refine ⟨fun huntracked => ?_, fun p block b hp hbase hb => ?_⟩
  · have haddress := Value.address?_of_untracked huntracked
    refine hboth (fun result => result.2.heap = m.heap ∧ ∀ n, size.index? .signed = .ok n →
      result = (.ok .fallThrough, { m with stack := rest })) ?_ ?_
    · exact Step.untracked_operands hstack haddress fun _ _ => rfl
    · exact Step.untracked_operands hstack haddress fun _ _ => rfl
  · have haddress : destination.address? = .ok (some p) := hp ▸ Value.address?_pointer hbase
    refine ⟨fun n hn => ?_, fun hnoSize hsize => ?_⟩
    · have hcount := Value.size?_of_index hn
      refine ⟨fun q origin b' hq hbase' hb' => ?_, fun hv => ?_, ?_⟩
      · have horigin : v.address? = .ok (some q) := hq ▸ Value.address?_pointer hbase'
        rw [Step.run_thenNext_congr (Step.run_copyBlock_some hstack hcount haddress horigin)]
        exact Pointer.transfers_copy hbase hb hbase' hb' n
      · have horigin := Value.address?_of_untracked hv
        rw [Step.run_thenNext_congr
          (Step.run_copyBlock_forget hstack hcount haddress horigin (.inl rfl))]
        exact Pointer.transfers_forget hbase hb n
      · rw [Step.run_thenNext_congr (Step.run_initBlock_some hstack hcount haddress)]
        exact Pointer.transfers_fill hbase hb n v.lowByte
    · have hcount := Value.size?_of_noSize hnoSize
      refine ⟨fun hv => ?_, ?_⟩
      · obtain ⟨origin, horigin⟩ := Value.exists_address? hv
        rw [Step.run_thenNext_congr
          (Step.run_copyBlock_forget hstack hcount haddress horigin (.inr rfl))]
        exact Pointer.transfers_forgetRest hbase hb hsize
      · rw [Step.run_thenNext_congr (Step.run_initBlock_forget hstack hcount haddress)]
        exact Pointer.transfers_forgetRest hbase hb hsize

/-- Four bytes, of which the second has an unknown half and the last is unknown. -/
def fourBytes : Block := ⟨#[.exact 1, .masked 0x20 0xf0, .exact 3, .unknown]⟩

/-- The first three of the bytes are about to be moved by one place. -/
def beforeMove : Machine where
  stack := [.ofInt32 3, .pointer ⟨some ⟨0⟩, 0, .bits64⟩, .pointer ⟨some ⟨0⟩, 1, .bits64⟩]
  frame := { arguments := [], locals := [] }
  heap := ⟨#[.memory fourBytes]⟩

/-- The ranges overlap, and the bytes arrive as they were before the move. -/
theorem dispatch_blockTransfer_overlap :
    let run := (({} : Interpreter).dispatch {} ⟨0, .cpblk, .none, 1⟩).run beforeMove
    (fourBytes.Covers 1 3 ∧ fourBytes.Covers 0 3) ∧
      beforeMove.Transfers [] (fourBytes.Covers 1 3 ∧ fourBytes.Covers 0 3)
        (beforeMove.heap.Replaces ⟨0⟩ 1 3 fun k => beforeMove.heap.byteAt ⟨0⟩ (0 + k)) run ∧
      [0, 1, 2, 3, 4].map (run.2.heap.byteAt ⟨0⟩) =
        [some (.exact 1), some (.exact 1), some (.masked 0x20 0xf0), some (.exact 3), none] := by
  intro run
  have hfit : fourBytes.Covers 1 3 ∧ fourBytes.Covers 0 3 := by
    unfold Block.Covers
    decide
  obtain ⟨-, hstack⟩ := dispatch_blockTransfer {} beforeMove ⟨0, .cpblk, .none, 1⟩
    ⟨0, .initblk, .none, 1⟩ rfl rfl
  obtain ⟨-, htracked⟩ := hstack rfl
  obtain ⟨hsized, -⟩ := htracked ⟨some ⟨0⟩, 1, .bits64⟩ ⟨0⟩ fourBytes rfl rfl rfl
  obtain ⟨hcopy, -, -⟩ := hsized 3 (by decide +kernel)
  exact ⟨hfit, hcopy ⟨some ⟨0⟩, 0, .bits64⟩ ⟨0⟩ fourBytes rfl rfl rfl, by decide +kernel⟩

end Interpreter

end CilAnalysis
