import CilAnalysis.Proofs.Information.Bits
import CilAnalysis.Proofs.Memory.Growth

/-!
# Words in memory

A word whose width is a multiple of eight is found again in its bytes with all that was known of its
bits (`KnownBits.ofBytes_toBytes`), and it is read back from a block in which it was stored
(`Block.readWord_setBytes`).

## Strategy

Words are compared bit by bit.  Bit `i` of a word that is made of bytes is bit `i % 8` of byte
`i / 8` (`KnownBits.bit_ofBytes`), and bit `j` of byte `k` of a word is bit `8 * k + j` of it
(`KnownBits.bit_byte`).  Put together, each bit comes back to its place.

A store in a block puts the new bytes in their places and leaves the others alone
(`Block.getElem?_setBytes`); what is read back from the same places and what is found everywhere
else both follow from this one equation.  It is proved by induction on the bytes, with the block and
the first place changing: the first byte is put in its place, and the others go after it.

Last come integers behind pointers.  A store of one is the store of a word with its low bytes, and a
load extends the word by zeros and converts it.
-/

namespace CilAnalysis

/-! ## Words and bytes -/

namespace KnownBits

variable {w : Nat}

/-- Each byte gives eight bits of the joined word. -/
theorem getLsbD_joinBytes (bytes : List (BitVec 8)) {i : Nat} (hi : i < w) :
    (joinBytes w bytes).getLsbD i = ((bytes[i / 8]?).getD 0#8).getLsbD (i % 8) := by
  induction bytes generalizing i with
  | nil => simp [joinBytes]
  | cons byte rest ih =>
      rw [joinBytes, BitVec.getLsbD_or, BitVec.getLsbD_setWidth, BitVec.getLsbD_shiftLeft]
      rcases Nat.lt_or_ge i 8 with hlow | hhigh
      · have hplace : i / 8 = 0 ∧ i % 8 = i := by omega
        simp [hi, hlow, hplace]
      · have hnone : byte.getLsbD i = false := BitVec.getLsbD_of_ge byte i hhigh
        have hplace : i / 8 = (i - 8) / 8 + 1 ∧ i % 8 = (i - 8) % 8 := by omega
        have hnot : ¬ i < 8 := by omega
        simp [hi, hnot, hnone, hplace, ih (show i - 8 < w by omega)]

@[simp] theorem length_toBytes (x : KnownBits w) : x.toBytes.length = w / 8 := by simp [toBytes]

theorem getElem?_toBytes (x : KnownBits w) {k : Nat} (hk : k < w / 8) :
    x.toBytes[k]? =
      some (masked ((x.value >>> (8 * k)).setWidth 8) ((x.known >>> (8 * k)).setWidth 8)) := by
  simp [toBytes, hk]

/-- Each byte gives eight bits of the word. -/
theorem bit_ofBytes (bytes : List (KnownBits 8)) {i : Nat} (hi : i < w) :
    (ofBytes w bytes).bit i = ((bytes[i / 8]?).getD unknown).bit (i % 8) := by
  rw [ofBytes, bit_masked, getLsbD_joinBytes _ hi, getLsbD_joinBytes _ hi, List.getElem?_map,
    List.getElem?_map, bit]
  cases bytes[i / 8]? <;> rfl

/-- Eight bits of a word make a byte. -/
theorem bit_byte (x : KnownBits w) (k : Nat) {j : Nat} (hj : j < 8) :
    (masked ((x.value >>> (8 * k)).setWidth 8) ((x.known >>> (8 * k)).setWidth 8)).bit j =
      x.bit (8 * k + j) := by
  rw [bit_masked, bit]
  simp only [BitVec.getLsbD_setWidth, BitVec.getLsbD_ushiftRight, hj, decide_true, Bool.true_and]

/-- The bytes of a word make up the word. -/
theorem ofBytes_toBytes (x : KnownBits w) (hw : w % 8 = 0) : ofBytes w x.toBytes = x := by
  refine ext_bit fun i hi => ?_
  have hk : i / 8 < w / 8 := by omega
  have hplace : 8 * (i / 8) + i % 8 = i := by omega
  calc (ofBytes w x.toBytes).bit i
      = (x.toBytes[i / 8]?.getD unknown).bit (i % 8) := bit_ofBytes _ hi
    _ = x.bit (8 * (i / 8) + i % 8) := by
        rw [getElem?_toBytes x hk, Option.getD_some, bit_byte x _ (by omega)]
    _ = x.bit i := by rw [hplace]

end KnownBits

/-! ## Bytes of a block -/

namespace Block

/-- What is found in each place after bytes were put in consecutive ones. -/
theorem getElem?_setBytes {bytes : Array (KnownBits 8)} {start : Nat} {new : List (KnownBits 8)}
    (hfit : start + new.length ≤ bytes.size) (k : Nat) :
    (setBytes bytes start new)[k]? =
      if start ≤ k ∧ k < start + new.length then new[k - start]? else bytes[k]? := by
  induction new generalizing bytes start with
  | nil =>
      rw [setBytes, if_neg (by simp)]
  | cons byte rest ih =>
      rw [List.length_cons] at hfit
      rw [setBytes, ih (by rw [Array.size_setIfInBounds]; omega), List.length_cons,
        Array.getElem?_setIfInBounds]
      -- The place lies before the first byte, under it, or under or after the rest.
      rcases Nat.lt_trichotomy k start with hlt | rfl | hgt
      · rw [if_neg (by omega), if_neg (by omega), if_neg (by omega)]
      · rw [if_neg (by omega), if_pos rfl, if_pos (by omega), if_pos (by omega), Nat.sub_self,
          List.getElem?_cons_zero]
      · have hnext : k - start = k - (start + 1) + 1 := by omega
        rw [if_neg (show ¬ start = k by omega), hnext, List.getElem?_cons_succ]
        by_cases hin : k < start + (rest.length + 1)
        · rw [if_pos (by omega), if_pos (by omega)]
        · rw [if_neg (by omega), if_neg (by omega)]

variable {b : Block}

private theorem locate_of_le {start size : Nat} (hfit : start + size ≤ b.size) :
    b.locate start size = .ok start := by
  unfold locate
  rw [if_pos (by simpa using hfit), Int.toNat_natCast]

private theorem writeBytes_of_le {start : Nat} {bytes : List (KnownBits 8)}
    (hfit : start + bytes.length ≤ b.size) :
    b.writeBytes start bytes = .ok ⟨setBytes b.bytes start bytes⟩ := by
  unfold writeBytes
  rw [locate_of_le hfit]
  rfl

/-- Bytes that were stored are read back. -/
theorem readBytes_setBytes {start : Nat} {bytes : List (KnownBits 8)}
    (hfit : start + bytes.length ≤ b.size) :
    Block.readBytes ⟨setBytes b.bytes start bytes⟩ start bytes.length = .ok bytes := by
  have hsize : (⟨setBytes b.bytes start bytes⟩ : Block).size = b.size := size_setBytes ..
  have hbound : start + bytes.length ≤ b.bytes.size := hfit
  unfold readBytes
  rw [locate_of_le (hsize ▸ hfit)]
  refine congrArg Except.ok (List.ext_getElem? fun k => ?_)
  rw [Array.getElem?_toList, Array.getElem?_extract, size_setBytes, Nat.min_eq_left hbound,
    Nat.add_sub_cancel_left, getElem?_setBytes hbound]
  by_cases hk : k < bytes.length
  · rw [if_pos hk, if_pos (by omega), Nat.add_sub_cancel_left]
  · rw [if_neg hk, List.getElem?_eq_none (by omega)]

/-- A word that was stored is read back. -/
theorem readWord_setBytes {w start : Nat} (x : KnownBits w) (hw : w % 8 = 0)
    (hfit : start + w / 8 ≤ b.size) :
    Block.readWord ⟨setBytes b.bytes start x.toBytes⟩ w start = .ok x := by
  have hbytes : Block.readBytes ⟨setBytes b.bytes start x.toBytes⟩ start x.toBytes.length =
      .ok x.toBytes := readBytes_setBytes (by rwa [KnownBits.length_toBytes])
  rw [KnownBits.length_toBytes] at hbytes
  unfold readWord
  rw [hbytes]
  exact congrArg Except.ok (KnownBits.ofBytes_toBytes x hw)

theorem writeWord_of_le {w start : Nat} (x : KnownBits w) (hfit : start + w / 8 ≤ b.size) :
    b.writeWord start x = .ok ⟨setBytes b.bytes start x.toBytes⟩ :=
  writeBytes_of_le (by rwa [KnownBits.length_toBytes])

end Block

/-! ## Integers behind pointers -/

namespace Pointer

variable {p : Pointer} {h : Heap} {handle : Handle} {b : Block} {start : Nat}
  {width : PointerWidth} {type : TypeSig} {shape : IntegerShape} {size : Nat}

theorem writeWord_of_le {w : Nat} (hbase : p.base = some handle) (hoffset : p.offset.toInt = start)
    (hb : h.block handle = .ok b) (x : KnownBits w) (hfit : start + w / 8 ≤ b.size) :
    p.writeWord h 0 x = .ok (h.set handle (.memory ⟨Block.setBytes b.bytes start x.toBytes⟩)) := by
  have hplace : (p.offset + 0).toInt = start := by simpa using hoffset
  unfold writeWord Heap.updateBlock
  rw [hbase]
  show (do return h.set handle (.memory (← (← h.block handle).writeWord _ x))) = _
  rw [hb, hplace]
  show (do return h.set handle (.memory (← b.writeWord start x))) = _
  rw [Block.writeWord_of_le x hfit]
  rfl

theorem readWord_eq (hbase : p.base = some handle) (hoffset : p.offset.toInt = start)
    (hb : h.block handle = .ok b) (w : Nat) : p.readWord h w 0 = b.readWord w start := by
  have hplace : (p.offset + 0).toInt = start := by simpa using hoffset
  unfold readWord
  rw [hbase]
  show (do (← h.block handle).readWord w (p.offset + 0).toInt) = _
  rw [hb, hplace]
  rfl

/-- An integer is stored as the word of its low bytes. -/
theorem store_integer {v : Value} {x : KnownBits 64} (hshape : type.integerShape? = some shape)
    (hsize : type.size? width = some size) (hv : v.integer? = some x) :
    p.store h width type v = p.writeWord h 0 (x.truncate (8 * size)) := by
  have hx : v.toInteger = x := by rw [Value.toInteger, hv, Option.getD_some]
  unfold store
  rw [hshape, hsize, hx]
  cases type <;> cases hshape <;> rfl

/-- The word of an integer is extended by zeros and then converted. -/
theorem load_integer (hshape : type.integerShape? = some shape)
    (hsize : type.size? width = some size) :
    p.load h width type = do
      let word ← p.readWord h (8 * size) 0
      return (Value.int64 (word.resize 64 .unsigned)).coerce width type := by
  unfold load
  rw [hshape, hsize]
  cases type <;> cases hshape <;> rfl

end Pointer

end CilAnalysis
