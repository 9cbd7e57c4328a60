import CilAnalysis.KnownBits.Representation
import CilAnalysis.Proofs.Information.Bits

/-!
# Reading and writing bit strings

A bit string is read from its most significant end: each character moves what was read so far one
place up and comes in at the low end.  Strings that do not have as many bits as the word are
refused, and what is not refused is written as it was read, without underscores
(`KnownBits.ofBitString_inverts`).

## Strategy

Reading and writing are compared by way of the list of the bits of a word, the most significant
first (`KnownBits.bits`).

* Characters and bits correspond to each other, and so do lists of them
  (`KnownBits.mapM_bitOfChar?_eq_some_iff`).
* What was read before stands above the bits that were read since, as far as there is room
  (`KnownBits.bit_foldl_pushBit`).  So the places of the bits are counted from the end of the
  string, and of a string that is too long the first bits would be lost.
* For lists of the right length, the word that is made of the bits and the list of its bits are
  inverse to each other (`KnownBits.bits_ofBits`, `KnownBits.ofBits_bits`).

Together these say which strings are read as a given word (`KnownBits.ofBitString_eq_ok_iff`), and
everything about strings follows from that.
-/

namespace CilAnalysis.KnownBits

variable {w : Nat}

/-! ## Characters -/

private theorem bitOfChar?_eq_some_iff {c : Char} {b : Ternary} :
    bitOfChar? c = some b ↔ c = bitChar b := by
  unfold bitOfChar?
  cases b <;> simp only [bitChar] <;> grind

/-- The characters that stand for bits. -/
def isBitChar (c : Char) : Prop := c = '0' ∨ c = '1' ∨ c = '?'

private theorem isBitChar_iff {c : Char} : isBitChar c ↔ ∃ b, c = bitChar b := by
  constructor
  · rintro (rfl | rfl | rfl)
    · exact ⟨.false, rfl⟩
    · exact ⟨.true, rfl⟩
    · exact ⟨.unknown, rfl⟩
  · rintro ⟨b, rfl⟩
    cases b <;> simp [isBitChar, bitChar]

/-- The bits of a string are those of which it is written. -/
theorem mapM_bitOfChar?_eq_some_iff {chars : List Char} {bits : List Ternary} :
    chars.mapM bitOfChar? = some bits ↔ chars = bits.map bitChar := by
  induction chars generalizing bits with
  | nil => cases bits <;> simp
  | cons c rest ih =>
      rw [List.mapM_cons]
      cases bits with
      | nil => simp [Option.bind_eq_some_iff]
      | cons b bits => simp [Option.bind_eq_some_iff, bitOfChar?_eq_some_iff, ih]

private theorem exists_map_bitChar_iff {chars : List Char} :
    (∃ bits : List Ternary, chars = bits.map bitChar) ↔ ∀ c ∈ chars, isBitChar c := by
  constructor
  · rintro ⟨bits, rfl⟩ c hc
    obtain ⟨b, -, rfl⟩ := List.mem_map.mp hc
    exact isBitChar_iff.mpr ⟨b, rfl⟩
  · intro h
    induction chars with
    | nil => exact ⟨[], rfl⟩
    | cons c rest ih =>
        obtain ⟨hc, hrest⟩ := List.forall_mem_cons.mp h
        obtain ⟨b, rfl⟩ := isBitChar_iff.mp hc
        obtain ⟨bits, rfl⟩ := ih hrest
        exact ⟨b :: bits, rfl⟩

/-! ## Bits -/

private theorem bit_pushBit_zero (x : KnownBits w) (b : Ternary) (hw : 0 < w) :
    (x.pushBit b).bit 0 = b := by
  cases b <;> simp [pushBit, bit_masked, hw, Ternary.ofBool]

private theorem bit_pushBit_succ (x : KnownBits w) (b : Ternary) {i : Nat} (hi : i + 1 < w) :
    (x.pushBit b).bit (i + 1) = x.bit i := by
  have hup (a : BitVec w) : (a <<< 1).getLsbD (i + 1) = a.getLsbD i := by
    simp only [BitVec.getLsbD_shiftLeft, hi, decide_true, Bool.true_and, Nat.add_sub_cancel,
      Nat.not_lt.mpr (Nat.le_add_left 1 i), decide_false, Bool.not_false]
  have hone : (1#w).getLsbD (i + 1) = false := by
    simp only [BitVec.getLsbD_one, Nat.succ_ne_zero, decide_false, Bool.and_false]
  rw [bit.eq_def x i]
  cases b <;> simp only [pushBit, bit_masked, BitVec.getLsbD_or, hup, hone, Bool.or_false]

/-- What was read before stands above the bits that were read since, as far as there is room. -/
theorem bit_foldl_pushBit (bits : List Ternary) (x : KnownBits w) {i : Nat} (hi : i < w) :
    (bits.foldl pushBit x).bit i = bits.reverse[i]?.getD (x.bit (i - bits.length)) := by
  induction bits generalizing x with
  | nil => rfl
  | cons b rest ih =>
      rw [List.foldl_cons, ih, List.reverse_cons, List.length_cons]
      -- The place belongs to a bit that is still to come, to this one, or to what was there before.
      rcases Nat.lt_trichotomy i rest.length with hlt | heq | hgt
      · have hin : i < rest.reverse.length := by simpa using hlt
        rw [List.getElem?_append_left hin, List.getElem?_eq_getElem hin]
        rfl
      · subst heq
        rw [Nat.sub_self, bit_pushBit_zero x b (by omega)]
        simp
      · obtain ⟨k, rfl⟩ := Nat.exists_eq_add_of_lt hgt
        rw [List.getElem?_eq_none (by simp; omega), List.getElem?_eq_none (by simp)]
        rw [show rest.length + k + 1 - rest.length = k + 1 by omega,
          show rest.length + k + 1 - (rest.length + 1) = k by omega]
        exact bit_pushBit_succ x b (by omega)

/-- The places of the bits of a string are counted from its end. -/
theorem bit_ofBits {bits : List Ternary} (hlength : bits.length = w) {i : Nat} (hi : i < w) :
    bits.reverse[i]? = some ((ofBits w bits).bit i) := by
  have hin : i < bits.reverse.length := by
    rw [List.length_reverse, hlength]
    exact hi
  rw [ofBits, bit_foldl_pushBit bits unknown hi, List.getElem?_eq_getElem hin]
  rfl

/-- The bits of a word, the most significant first. -/
def bits (x : KnownBits w) : List Ternary := (List.range w).reverse.map x.bit

private theorem toBitString_eq (x : KnownBits w) :
    x.toBitString = String.ofList (x.bits.map bitChar) := by
  rw [toBitString, bits, List.map_map]
  rfl

@[simp] theorem length_bits (x : KnownBits w) : x.bits.length = w := by simp [bits]

private theorem getElem?_bits (x : KnownBits w) {k : Nat} (hk : k < w) :
    x.bits[k]? = some (x.bit (w - 1 - k)) := by
  simp [bits, hk]

private theorem bits_ofBits {bits : List Ternary} (hlength : bits.length = w) :
    (ofBits w bits).bits = bits := by
  refine List.ext_getElem? fun k => ?_
  by_cases hk : k < w
  · rw [getElem?_bits _ hk, ← bit_ofBits hlength (by omega), List.getElem?_reverse (by omega)]
    congr 1
    omega
  · rw [List.getElem?_eq_none (by simpa using hk), List.getElem?_eq_none (by omega)]

private theorem ofBits_bits (x : KnownBits w) : ofBits w x.bits = x := by
  refine ext_bit fun i hi => ?_
  have hplace : w - 1 - (w - 1 - i) = i := by omega
  have hsame : some ((ofBits w x.bits).bit (w - 1 - (w - 1 - i))) =
      some (x.bit (w - 1 - (w - 1 - i))) :=
    calc some ((ofBits w x.bits).bit (w - 1 - (w - 1 - i)))
        = (ofBits w x.bits).bits[w - 1 - i]? := (getElem?_bits _ (by omega)).symm
      _ = x.bits[w - 1 - i]? := by rw [bits_ofBits x.length_bits]
      _ = some (x.bit (w - 1 - (w - 1 - i))) := getElem?_bits x (by omega)
  rw [hplace] at hsame
  exact Option.some.inj hsame

/-! ## Strings -/

/-- What is read of a string. -/
def bitChars (text : String) : List Char := text.toList.filter (· ≠ '_')

/-- The strings that are read as a word are those that write its bits, with underscores anywhere. -/
theorem ofBitString_eq_ok_iff {text : String} {x : KnownBits w} :
    ofBitString w text = .ok x ↔ bitChars text = x.bits.map bitChar := by
  constructor
  · intro h
    unfold ofBitString at h
    split at h
    next bits hbits =>
      split at h
      next hlength =>
        cases h
        rw [bits_ofBits hlength]
        exact mapM_bitOfChar?_eq_some_iff.mp hbits
      next => cases h
    next => cases h
  · intro h
    have hbits : (text.toList.filter (· ≠ '_')).mapM bitOfChar? = some x.bits :=
      mapM_bitOfChar?_eq_some_iff.mpr h
    rw [ofBitString, hbits]
    dsimp only
    rw [if_pos x.length_bits, ofBits_bits]

/-- A string that is refused is named as it was given. -/
theorem ofBitString_eq_error {text : String} {e : Error} (h : ofBitString w text = .error e) :
    e = .invalidBitString text := by
  unfold ofBitString at h
  split at h
  next =>
    split at h
    next => cases h
    next => exact (Except.error.inj h).symm
  next => exact (Except.error.inj h).symm

private theorem bitChars_toBitString (x : KnownBits w) :
    bitChars x.toBitString = x.bits.map bitChar := by
  rw [bitChars, toBitString_eq, String.toList_ofList, List.filter_eq_self]
  intro c hc
  obtain ⟨b, -, rfl⟩ := List.mem_map.mp hc
  cases b <;> decide

/-- The string writes `w` bits, with underscores anywhere. -/
def IsBitString (w : Nat) (text : String) : Prop :=
  (bitChars text).length = w ∧ ∀ c ∈ bitChars text, isBitChar c

private theorem exists_ofBitString_iff {text : String} :
    (∃ x : KnownBits w, ofBitString w text = .ok x) ↔ IsBitString w text := by
  simp only [ofBitString_eq_ok_iff]
  constructor
  · rintro ⟨x, hchars⟩
    refine ⟨?_, exists_map_bitChar_iff.mp ⟨x.bits, hchars⟩⟩
    rw [hchars, List.length_map, length_bits]
  · rintro ⟨hlength, hall⟩
    obtain ⟨bits, hchars⟩ := exists_map_bitChar_iff.mpr hall
    refine ⟨ofBits w bits, ?_⟩
    rw [hchars, bits_ofBits]
    rw [← hlength, hchars, List.length_map]

/-- Bit strings are read if and only if they have as many bits as the word, and what is read is
written again without underscores.  Every word is read from its bit string, in which the places of
the bits are counted from the end. -/
theorem ofBitString_inverts (w : Nat) :
    (∀ text : String,
      ((∃ x : KnownBits w, ofBitString w text = .ok x) ↔ IsBitString w text) ∧
      (¬ IsBitString w text → ofBitString w text = .error (.invalidBitString text)) ∧
      ∀ x : KnownBits w, ofBitString w text = .ok x →
        x.toBitString = String.ofList (bitChars text)) ∧
    ∀ x : KnownBits w, ofBitString w x.toBitString = .ok x ∧ x.toBitString.toList.length = w ∧
      ∀ k < w, ∃ b, x.getBit (w - 1 - k) = .ok b ∧
        x.toBitString.toList[k]? = some (bitChar b) := by
  refine ⟨fun text => ⟨exists_ofBitString_iff, fun hnot => ?_, fun x hx => ?_⟩,
    fun x => ⟨ofBitString_eq_ok_iff.mpr (bitChars_toBitString x), ?_, fun k hk => ?_⟩⟩
  · cases hread : ofBitString w text with
    | ok x => exact absurd (exists_ofBitString_iff.mp ⟨x, hread⟩) hnot
    | error e => rw [ofBitString_eq_error hread]
  · rw [toBitString_eq, ofBitString_eq_ok_iff.mp hx]
  · rw [toBitString_eq, String.toList_ofList, List.length_map, length_bits]
  · refine ⟨x.bit (w - 1 - k), if_pos (by omega), ?_⟩
    rw [toBitString_eq, String.toList_ofList, List.getElem?_map, getElem?_bits x hk]
    rfl

/-- Four bits with an underscore are read as a word of four bits, and refused as one of three. -/
theorem ofBitString_inverts_underscored :
    let text := String.ofList ['0', '1', '_', '?', '1']
    let x : KnownBits 4 := .masked 0b0101 0b1101
    IsBitString 4 text ∧ ofBitString 4 text = .ok x ∧
      x.toBitString = String.ofList ['0', '1', '?', '1'] ∧
      ¬ IsBitString 3 text ∧ ofBitString 3 text = .error (.invalidBitString text) ∧
      x.getBit 1 = .ok .unknown ∧ x.toBitString.toList[2]? = some '?' := by
  intro text x
  have hchars : bitChars text = ['0', '1', '?', '1'] := by
    rw [bitChars, String.toList_ofList]
    decide
  have hread : ofBitString 4 text = .ok x := by
    rw [ofBitString_eq_ok_iff, hchars]
    decide
  have hshort : ¬ IsBitString 3 text := by
    intro h
    have hlength := h.1
    rw [hchars] at hlength
    cases hlength
  obtain ⟨htexts, hwords⟩ := ofBitString_inverts 4
  obtain ⟨hiff, -, hwritten⟩ := htexts text
  obtain ⟨htexts', -⟩ := ofBitString_inverts 3
  obtain ⟨b, hb, hplace⟩ := (hwords x).2.2 2 (by decide)
  have hbit : x.getBit 1 = .ok .unknown := by decide
  obtain rfl : b = .unknown := Except.ok.inj (hb.symm.trans hbit)
  refine ⟨hiff.mp ⟨x, hread⟩, hread, ?_, hshort, (htexts' text).2.1 hshort, hbit, hplace⟩
  rw [hwritten x hread, hchars]

end CilAnalysis.KnownBits
