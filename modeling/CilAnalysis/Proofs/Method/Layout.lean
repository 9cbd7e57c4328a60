import CilAnalysis.Method.Body
import Mathlib

/-!
# How instructions lie in a method

The offsets of the instructions of a method ascend (`MethodBody.Ascending`), so that an offset tells
the place of an instruction.  Where instructions stand side by side (`MethodBody.Contiguous`), each
ends where the next one starts, and only the next one starts there.

That no instruction is empty is asked for in a predicate of its own, `MethodBody.Sized`: an
instruction of no bytes would start where the next one does, and offsets would not tell places.
Instructions that stand side by side therefore ascend because of their sizes
(`MethodBody.Contiguous.ascending`).
-/

namespace CilAnalysis

namespace MethodBody

/-- The offsets of the instructions are strictly ascending. -/
def Ascending (b : MethodBody) : Prop :=
  (b.instructions.map Instruction.offset).Pairwise (· < ·)

instance (b : MethodBody) : Decidable b.Ascending := inferInstanceAs (Decidable (List.Pairwise _ _))

variable {b : MethodBody}

theorem Ascending.offset_lt (hb : b.Ascending) {q q' : Nat} {i j : Instruction}
    (hq : b.instructions[q]? = some i) (hq' : b.instructions[q']? = some j) (hlt : q < q') :
    i.offset < j.offset := by
  obtain ⟨hi, rfl⟩ := List.getElem?_eq_some_iff.mp hq
  obtain ⟨hj, rfl⟩ := List.getElem?_eq_some_iff.mp hq'
  have hpair := List.pairwise_iff_getElem.mp hb q q' (by simpa using hi) (by simpa using hj) hlt
  simpa using hpair

theorem Ascending.eq_of_offset_eq (hb : b.Ascending) {q q' : Nat} {i j : Instruction}
    (hq : b.instructions[q]? = some i) (hq' : b.instructions[q']? = some j)
    (hoffset : i.offset = j.offset) : q = q' := by
  rcases Nat.lt_trichotomy q q' with hlt | heq | hgt
  · exact absurd hoffset (hb.offset_lt hq hq' hlt).ne
  · exact heq
  · exact absurd hoffset (hb.offset_lt hq' hq hgt).ne'

theorem Ascending.eq_of_mem (hb : b.Ascending) {i j : Instruction} (hi : i ∈ b.instructions)
    (hj : j ∈ b.instructions) (hoffset : i.offset = j.offset) : i = j :=
  List.inj_on_of_nodup_map (hb.imp Nat.ne_of_lt) hi hj hoffset

/-- Every instruction takes up at least one byte. -/
def Sized (b : MethodBody) : Prop := ∀ i ∈ b.instructions, 0 < i.size

instance (b : MethodBody) : Decidable b.Sized :=
  inferInstanceAs (Decidable (∀ i ∈ b.instructions, 0 < i.size))

/-- Each instruction ends where the next one starts, and none is empty. -/
def Contiguous (b : MethodBody) : Prop :=
  b.instructions.IsChain (fun i j => i.next = j.offset) ∧ b.Sized

instance (b : MethodBody) : Decidable b.Contiguous := inferInstanceAs (Decidable (_ ∧ _))

theorem Contiguous.ascending (hb : b.Contiguous) : b.Ascending := by
  have hchain : b.instructions.IsChain (fun i j => i.offset < j.offset) := by
    refine hb.1.imp_of_mem_imp ?_
    intro i j hi _ hnext
    have hsize := hb.2 i hi
    unfold Instruction.next at hnext
    omega
  unfold Ascending
  rw [← List.isChain_iff_pairwise, List.isChain_map]
  exact hchain

/-- Where an instruction ends only the one in the next place can start. -/
theorem Contiguous.place_eq (hb : b.Contiguous) {place q : Nat} {i j : Instruction}
    (hplace : b.instructions[place]? = some i) (hq : b.instructions[q]? = some j)
    (hnext : j.offset = i.next) : q = place + 1 := by
  have hsize := hb.2 i (List.mem_of_getElem? hplace)
  -- The other place comes later, since everything before starts no later than the instruction.
  have hlater : place < q := by
    rcases Nat.lt_trichotomy place q with hlt | rfl | hgt
    · exact hlt
    · rw [Option.some.inj (hq.symm.trans hplace)] at hnext
      unfold Instruction.next at hnext
      omega
    · have hbefore := hb.ascending.offset_lt hq hplace hgt
      unfold Instruction.next at hnext
      omega
  obtain ⟨hlt, -⟩ := List.getElem?_eq_some_iff.mp hq
  have hsucc : place + 1 < b.instructions.length := by omega
  refine hb.ascending.eq_of_offset_eq hq (List.getElem?_eq_getElem hsucc) ?_
  obtain ⟨_, rfl⟩ := List.getElem?_eq_some_iff.mp hplace
  rw [hnext]
  exact List.isChain_iff_getElem.mp hb.1 place hsucc

end MethodBody

end CilAnalysis
