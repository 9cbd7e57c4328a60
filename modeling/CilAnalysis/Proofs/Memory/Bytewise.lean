import CilAnalysis.Proofs.Edit
import CilAnalysis.Proofs.Memory.RoundTrip

/-!
# Memory blocks bit by bit

A word that is stored in a block is read back, and what is read anywhere else is the block before
with the stored bits in their places.  The ranges of the two may lie to each other in any way: one
inside the other, overlapping, or apart.  The main result is `Block.after_bytewise`, for a block
with any history.

## Strategy

A block is one row of bits, each of them known or not (`Block.bitAt`).  Two equations are about
sections of the row, and nothing else about bytes is used after them.

* A word that is read is a section of the row (`Block.exists_readWord`).
* A word that is stored replaces a section (`Block.bitAt_setBytes`).

How the section of a read lies to that of an earlier store, and which of the two is longer, makes no
difference to the equations.  What the read finds follows by arithmetic on places
(`Block.stores_of_covers`).

Stores are made in place, byte after byte.  They are refused before the first byte or not at all, so
that each of them is the store that makes the new block first (`Block.Request.run_edit`).  With this
the size is kept along a history, whether its requests are granted or not.
-/

namespace CilAnalysis.Block

variable {b : Block} {w : Nat} {offset : Int} {size : Nat}

/-! ## Ranges -/

/-- All bytes of a range lie in the block. -/
def Covers (b : Block) (offset : Int) (size : Nat) : Prop := 0 ≤ offset ∧ offset + size ≤ b.size

private theorem locate_of_covers (h : b.Covers offset size) :
    b.locate offset size = .ok offset.toNat := by
  obtain ⟨hpos, hfit⟩ := h
  exact if_pos ⟨hpos, by omega⟩

private theorem locate_of_not_covers (h : ¬ b.Covers offset size) :
    b.locate offset size = .error (.memoryAccessOutOfBounds offset size) := by
  refine if_neg fun hin => h ⟨hin.1, ?_⟩
  omega

theorem writeBytes_of_covers {bytes : List (KnownBits 8)} (h : b.Covers offset bytes.length) :
    b.writeBytes offset bytes = .ok ⟨setBytes b.bytes offset.toNat bytes⟩ := by
  unfold writeBytes
  rw [locate_of_covers h]
  rfl

theorem writeBytes_of_not_covers {bytes : List (KnownBits 8)} (h : ¬ b.Covers offset bytes.length) :
    b.writeBytes offset bytes = .error (.memoryAccessOutOfBounds offset bytes.length) := by
  unfold writeBytes
  rw [locate_of_not_covers h]
  rfl

theorem readBytes_of_covers (h : b.Covers offset size) :
    b.readBytes offset size =
      .ok (b.bytes.extract offset.toNat (offset.toNat + size)).toList := by
  unfold readBytes
  rw [locate_of_covers h]
  rfl

theorem readBytes_of_not_covers (h : ¬ b.Covers offset size) :
    b.readBytes offset size = .error (.memoryAccessOutOfBounds offset size) := by
  unfold readBytes
  rw [locate_of_not_covers h]
  rfl

/-- The bytes that are read are those in the places of the range. -/
theorem getElem?_extract {start k : Nat} (hfit : start + size ≤ b.size) (hk : k < size) :
    (b.bytes.extract start (start + size)).toList[k]? = some (b.byte (start + k)) := by
  have hin : start + k < b.bytes.size := lt_of_lt_of_le (by omega) hfit
  have hend : min (start + size) b.bytes.size = start + size := Nat.min_eq_left hfit
  rw [Array.getElem?_toList, Array.getElem?_extract, hend, if_pos (by omega), byte, Array.getD,
    dif_pos hin, Array.getElem?_eq_getElem hin]
  rfl

/-- The byte in each place after bytes were put in consecutive ones. -/
theorem byte_setBytes {start : Nat} {new : List (KnownBits 8)}
    (hfit : start + new.length ≤ b.size) (k : Nat) :
    (⟨setBytes b.bytes start new⟩ : Block).byte k =
      if start ≤ k ∧ k < start + new.length then (new[k - start]?).getD .unknown
      else b.byte k := by
  have hgetD (bytes : Array (KnownBits 8)) :
      bytes.getD k KnownBits.unknown = bytes[k]?.getD .unknown := by simp
  rw [byte, byte, hgetD, hgetD, getElem?_setBytes hfit]
  split <;> rfl

/-! ## Bits -/

/-- The bit in a place of the block, counted from the lowest bit of its first byte. -/
def bitAt (b : Block) (place : Nat) : Ternary := (b.byte (place / 8)).bit (place % 8)

/-- A word is read from a section of the bits. -/
theorem exists_readWord (hw : w % 8 = 0) (h : b.Covers offset (w / 8)) :
    ∃ y, b.readWord w offset = .ok y ∧ ∀ i < w, y.bit i = b.bitAt (8 * offset.toNat + i) := by
  let bytes := (b.bytes.extract offset.toNat (offset.toNat + w / 8)).toList
  have hread : b.readWord w offset = .ok (KnownBits.ofBytes w bytes) := by
    unfold readWord
    rw [readBytes_of_covers h]
    rfl
  refine ⟨_, hread, fun i hi => ?_⟩
  obtain ⟨hpos, hfit⟩ := h
  have hplace : (8 * offset.toNat + i) / 8 = offset.toNat + i / 8 := by omega
  have hbit : (8 * offset.toNat + i) % 8 = i % 8 := by omega
  calc (KnownBits.ofBytes w bytes).bit i
      = (bytes[i / 8]?.getD .unknown).bit (i % 8) := KnownBits.bit_ofBytes _ hi
    _ = (b.byte (offset.toNat + i / 8)).bit (i % 8) := by
        rw [getElem?_extract (by omega) (by omega), Option.getD_some]
    _ = b.bitAt (8 * offset.toNat + i) := by rw [bitAt, hplace, hbit]

/-- A word that is stored replaces a section of the bits. -/
theorem bitAt_setBytes (x : KnownBits w) (hw : w % 8 = 0) {start : Nat}
    (hfit : start + w / 8 ≤ b.size) (place : Nat) :
    (⟨setBytes b.bytes start x.toBytes⟩ : Block).bitAt place =
      if 8 * start ≤ place ∧ place < 8 * start + w then x.bit (place - 8 * start)
      else b.bitAt place := by
  have hlength : x.toBytes.length = w / 8 := KnownBits.length_toBytes x
  rw [bitAt, byte_setBytes (by omega), hlength]
  by_cases hin : 8 * start ≤ place ∧ place < 8 * start + w
  · -- The byte is one of those stored, and its bit is one of the word.
    have hplace : 8 * (place / 8 - start) + place % 8 = place - 8 * start := by omega
    rw [if_pos hin, if_pos (by omega), KnownBits.getElem?_toBytes x (by omega), Option.getD_some,
      KnownBits.bit_byte x _ (by omega), hplace]
  · rw [if_neg hin, if_neg (by omega), bitAt]

/-! ## Stores -/

/-- `b'` is `b` after a word was stored at an offset.  The word is read back, and in a word that is
read anywhere the bits of the stored bytes are those of the stored word, known or not, while all
others are as before. -/
structure Stores (b : Block) (offset : Int) (x : KnownBits w) (b' : Block) : Prop where
  size : b'.size = b.size
  back : b'.readWord w offset = .ok x
  reads : ∀ (w' : Nat) (offset' : Int), w' % 8 = 0 → b.Covers offset' (w' / 8) →
    ∃ y y', b.readWord w' offset' = .ok y ∧ b'.readWord w' offset' = .ok y' ∧
      ∀ i < w', y'.bit i =
        if offset ≤ offset' + (i / 8 : Nat) ∧ offset' + (i / 8 : Nat) < offset + (w / 8 : Nat)
        then x.bit (8 * (offset' - offset) + i).toNat
        else y.bit i

private theorem stores_of_covers (x : KnownBits w) (hw : w % 8 = 0) (h : b.Covers offset (w / 8)) :
    b.Stores offset x ⟨setBytes b.bytes offset.toNat x.toBytes⟩ := by
  obtain ⟨hpos, hfit⟩ := h
  have hsize : (⟨setBytes b.bytes offset.toNat x.toBytes⟩ : Block).size = b.size :=
    size_setBytes ..
  refine ⟨hsize, ?_, fun w' offset' hw' h' => ?_⟩
  · have hback : readWord ⟨setBytes b.bytes offset.toNat x.toBytes⟩ w offset.toNat = .ok x :=
      readWord_setBytes x hw (by omega)
    rwa [Int.toNat_of_nonneg hpos] at hback
  · obtain ⟨y, hy, hbits⟩ := exists_readWord hw' h'
    obtain ⟨y', hy', hbits'⟩ :=
      exists_readWord (b := ⟨setBytes b.bytes offset.toNat x.toBytes⟩) hw' (by rwa [Covers, hsize])
    obtain ⟨hpos', -⟩ := h'
    refine ⟨y, y', hy, hy', fun i hi => ?_⟩
    -- The bit lies in the stored section exactly if its byte is among the stored ones.
    rw [hbits' i hi, bitAt_setBytes x hw (by omega)]
    by_cases hin : offset ≤ offset' + (i / 8 : Nat) ∧
        offset' + (i / 8 : Nat) < offset + (w / 8 : Nat)
    · have hplace : 8 * offset'.toNat + i - 8 * offset.toNat =
          (8 * (offset' - offset) + i).toNat := by omega
      rw [if_pos hin, if_pos (by omega), hplace]
    · rw [if_neg hin, if_neg (by omega), hbits i hi]

/-! ## Changes in place -/

namespace InPlace

private theorem run_setBytes (b : Block) (start : Nat) (bytes : List (KnownBits 8)) :
    (setBytes start bytes).run b = (.ok (), ⟨Block.setBytes b.bytes start bytes⟩) := by
  induction bytes generalizing b start with
  | nil => rfl
  | cons byte rest ih =>
      have hbyte : (setByte start byte).run b = (.ok (), ⟨b.bytes.setIfInBounds start byte⟩) := rfl
      rw [setBytes, Edit.run_bind_ok hbyte, ih, Block.setBytes]

private theorem run_writeBytes (b : Block) (offset : Int) (bytes : List (KnownBits 8)) :
    (writeBytes offset bytes).run b = Edit.settle b ((b.writeBytes offset bytes).map ((), ·)) := by
  unfold writeBytes Block.writeBytes
  rw [Edit.run_bind, Edit.run_ask]
  cases b.locate offset bytes.length with
  | error e => rfl
  | ok start => exact run_setBytes b start bytes

private theorem run_forget (b : Block) (offset : Int) (size : Nat) :
    (forget offset size).run b = Edit.settle b ((b.forget offset size).map ((), ·)) := by
  unfold forget Block.forget fill
  rw [Edit.run_bind, Edit.run_ask]
  cases b.locate offset size with
  | error e => rfl
  | ok start => exact run_setBytes b start _

end InPlace

/-! ## Histories -/

/-- A request to change a block. -/
inductive Request where
  | writeWord {w : Nat} (offset : Int) (x : KnownBits w)
  | writeMasked (offset : Int) (bits masks : List (BitVec 8))
  | forget (offset : Int) (size : Nat)

namespace Request

/-- The change that a request asks for. -/
def edit : Request → Edit Block Unit
  | .writeWord offset x => InPlace.writeWord offset x
  | .writeMasked offset bits masks => InPlace.writeMasked offset bits masks
  | .forget offset size => InPlace.forget offset size

/-- The block that a request makes. -/
def result (b : Block) : Request → Except Error Block
  | .writeWord offset x => b.writeWord offset x
  | .writeMasked offset bits masks => b.writeMasked offset bits masks
  | .forget offset size => b.forget offset size

theorem run_edit (b : Block) (r : Request) :
    r.edit.run b = Edit.settle b ((r.result b).map ((), ·)) := by
  cases r with
  | writeWord offset x => exact InPlace.run_writeBytes b offset x.toBytes
  | writeMasked offset bits masks => exact InPlace.run_writeBytes b offset (maskedBytes bits masks)
  | forget offset size => exact InPlace.run_forget b offset size

private theorem size_result {r : Request} {b b' : Block} (h : r.result b = .ok b') :
    b'.size = b.size := by
  have hstores : b.StoresIn (r.result b) := by
    cases r with
    | writeWord offset x => exact b.storesIn_writeBytes offset x.toBytes
    | writeMasked offset bits masks => exact b.storesIn_writeBytes offset (maskedBytes bits masks)
    | forget offset size => exact b.storesIn_fill offset size .unknown
  rw [h] at hstores
  exact hstores.symm

end Request

/-- The block after requests were made of it, those that are refused included. -/
def after (b : Block) (requests : List Request) : Block :=
  Edit.tryAll b (requests.map Request.edit)

private theorem size_after (b : Block) (requests : List Request) :
    (b.after requests).size = b.size := by
  have hstep : ∀ x ∈ requests.map Request.edit, ∀ b' : Block, b'.size = b.size →
      (x.run b').2.size = b.size := by
    intro x hx b' hb'
    obtain ⟨r, -, rfl⟩ := List.mem_map.mp hx
    rw [Request.run_edit]
    refine Edit.settle_induction (P := fun b' : Block => b'.size = b.size) hb' fun b'' hb'' => ?_
    exact (Request.size_result hb'').trans hb'
  exact Edit.tryAll_induction (P := fun b' : Block => b'.size = b.size) rfl hstep

/-- After any requests a block has the size that it started with.  A word is then stored at an
offset exactly if all its bytes lie in the block, and if not, the block stays as it is. -/
theorem after_bytewise (start : Block) (requests : List Request) :
    let b := start.after requests
    b.size = start.size ∧
      ∀ {w : Nat} (offset : Int) (x : KnownBits w), w % 8 = 0 →
        KnownBits.ofBytes w x.toBytes = x ∧
        Edit.Outcome (0 ≤ offset ∧ offset + (w / 8 : Nat) ≤ b.size) (b.Stores offset x) b
          ((InPlace.writeWord offset x).run b) := by
  intro b
  refine ⟨start.size_after requests, fun {w} offset x hw => ⟨x.ofBytes_toBytes hw, ?_⟩⟩
  have hrun := InPlace.run_writeBytes b offset x.toBytes
  have hlength : x.toBytes.length = w / 8 := KnownBits.length_toBytes x
  by_cases hcovers : b.Covers offset (w / 8)
  · rw [writeBytes_of_covers (hlength.symm ▸ hcovers)] at hrun
    rw [InPlace.writeWord, hrun]
    exact .granted hcovers (stores_of_covers x hw hcovers)
  · rw [writeBytes_of_not_covers (hlength.symm ▸ hcovers)] at hrun
    rw [InPlace.writeWord, hrun]
    exact .refused _ hcovers

/-- A block with an unknown byte and a store that leaves it. -/
def partlyUnknown : List Request :=
  [.writeMasked 0 [0x12, 0x34, 0x56] [0xff, 0x0f], .writeWord 3 (.ofNat 16 7), .forget 3 1]

/-- A word stored at an odd offset covers part of what is read at an even one. -/
theorem after_bytewise_overlap :
    let b := (zeroed 4).after partlyUnknown
    let x : KnownBits 16 := .masked 0xabcd 0x0fff
    (16 % 8 = 0 ∧ 32 % 8 = 0 ∧ b.readWord 32 0 = .ok (.masked 0x412 0xfff)) ∧
      ∃ b' y', (InPlace.writeWord 1 x).run b = (.ok (), b') ∧ b'.readWord 16 1 = .ok x ∧
        b'.readWord 32 0 = .ok y' ∧ y' = .masked 0xbcd12 0xfffff := by
  intro b x
  have hread : b.readWord 32 0 = .ok (.masked 0x412 0xfff) := by decide +kernel
  have hsize : b.size = 4 := by decide +kernel
  have hwrite := ((after_bytewise (zeroed 4) partlyUnknown).2 1 x rfl).2
  obtain ⟨b', hrun, hstores⟩ : ∃ b', (InPlace.writeWord 1 x).run b = (.ok (), b') ∧
      b.Stores 1 x b' := by
    generalize (InPlace.writeWord 1 x).run b = new at hwrite
    cases hwrite with
    | granted _ hleaves => exact ⟨_, rfl, hleaves⟩
    | refused e h => exact absurd ⟨by decide, by rw [hsize]; decide⟩ h
  obtain ⟨y, y', hy, hy', hbits⟩ := hstores.reads 32 0 rfl ⟨le_rfl, by rw [hsize]; decide⟩
  obtain rfl : y = .masked 0x412 0xfff := Except.ok.inj (hy.symm.trans hread)
  refine ⟨⟨rfl, rfl, hread⟩, b', y', hrun, hstores.back, hy', KnownBits.ext_bit fun i hi => ?_⟩
  rw [hbits i hi]
  revert i
  decide +kernel

end CilAnalysis.Block
