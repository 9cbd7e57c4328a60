import CilAnalysis.Proofs.Machine.OperationEffect

/-!
# Static and dynamic stack effects

The table of opcodes says how many values an instruction takes and leaves, and so do the signatures
of the methods it calls.  The instructions themselves are written without looking there.  Here the
two are shown to agree for every instruction, whatever its operand, in an environment that knows
nothing (`Interpreter.dispatch_stackEffect`).

## Strategy

There are three descriptions of the effect of an instruction, and two steps between them.

* The **table** gives numbers for an opcode, with special cases for calls and returns
  (`Instruction.popCount`, `Instruction.pushCount`).  It agrees with the list of operations
  (`popCount_eq`, `pushCount_eq`, `clearsStack_eq`), which is a matter of going through the opcodes.
* The **list** of operations agrees with what the operations do (`Setting.perform_hasEffect`,
  `Setting.perform_clears`).

From these follow what an execution does when it succeeds (`Setting.execute_stack`), the special
case of the check for finite numbers (`Setting.execute_checkFinite`), and when it underflows
(`Setting.execute_underflow`).
-/

namespace CilAnalysis

/-! ## The table -/

namespace Instruction

variable (i : Instruction)

private theorem clearsStack_eq : i.clearsStack = i.opcode.operation.clears := by
  rcases i with ⟨_, opcode, _, _⟩
  cases opcode <;> rfl

theorem popCount_eq (returnsValue : Bool) :
    i.popCount returnsValue = i.opcode.operation.pops returnsValue i.signature? := by
  rcases i with ⟨offset, opcode, operand, size⟩
  -- The operand counts only through the signature it gives, so one case for each opcode is enough.
  unfold popCount
  generalize hsignature : signature? ⟨offset, opcode, operand, size⟩ = signature
  cases opcode <;> cases signature <;> rfl

theorem pushCount_eq : i.pushCount = i.opcode.operation.pushes i.signature? := by
  rcases i with ⟨offset, opcode, operand, size⟩
  unfold pushCount
  generalize hsignature : signature? ⟨offset, opcode, operand, size⟩ = signature
  cases opcode <;> cases signature <;> rfl

theorem pushCount_of_clearsStack (h : i.clearsStack = true) : i.pushCount = 0 := by
  rw [clearsStack_eq] at h
  rw [pushCount_eq, Operation.pushes_of_clears h]

theorem clearsStack_of_pushCount {i : Instruction} (h : i.pushCount = 1) :
    i.clearsStack = false := by
  by_contra hclears
  rw [i.pushCount_of_clearsStack (Bool.not_eq_false _ ▸ hclears)] at h
  exact nomatch h

end Instruction

/-! ## Execution -/

namespace Setting

variable (s : Setting) (i : Instruction)

/-- What the tables say of an instruction is what it does: the values it takes are there, and it
leaves as many as it should on those below, or on none if it empties the stack. -/
theorem execute_stack (henv : s.environment = {}) {m m' : Machine} {t : Successor}
    (hrun : (s.execute i).run m = (.ok t, m')) :
    i.popCount s.returnsValue ≤ m.stack.length ∧ ∃ new, new.length = i.pushCount ∧
      m'.stack = new ++ if i.clearsStack then [] else m.stack.drop (i.popCount s.returnsValue) := by
  rw [i.popCount_eq, i.pushCount_eq, i.clearsStack_eq]
  unfold Setting.execute at hrun
  cases hclears : i.opcode.operation.clears with
  | false =>
      have heffect := s.perform_hasEffect i henv hclears m
      rw [hrun] at heffect
      exact heffect
  | true =>
      rw [Operation.pops_of_clears hclears, Operation.pushes_of_clears hclears]
      rcases s.perform_clears i hclears m with ⟨t', m'', hok, hempty⟩ | ⟨fault, m'', hfault, -⟩
      · obtain ⟨-, rfl⟩ := Prod.mk.inj (hrun.symm.trans hok)
        exact ⟨Nat.zero_le _, [], rfl, hempty⟩
      · exact nomatch hrun.symm.trans hfault

/-- The value that a check for finite numbers leaves is the one it found. -/
theorem execute_checkFinite (hopcode : i.opcode = .ckfinite) {m m' : Machine} {t : Successor}
    (hrun : (s.execute i).run m = (.ok t, m')) {new rest : List Value}
    (hnew : new.length = i.pushCount) (hstack : m'.stack = new ++ rest) :
    new.head? = m.stack.head? := by
  -- Only the stack as a whole is known to stay; that one value is new, the table says.
  have hone : new.length = 1 := by rw [hnew, i.pushCount_eq, hopcode]; rfl
  obtain ⟨v, rfl⟩ := List.length_eq_one_iff.mp hone
  have hsame : m'.stack = m.stack := by
    unfold Setting.execute at hrun
    rw [hopcode] at hrun
    exact s.perform_checkFinite i hrun
  rw [← hsame, hstack]
  rfl

/-- The stack is found too small only where it is smaller than the tables ask for. -/
theorem execute_underflow (henv : s.environment = {}) {m m' : Machine}
    (hrun : (s.execute i).run m = (.error .stackUnderflow, m')) :
    m.stack.length < i.popCount s.returnsValue := by
  rw [i.popCount_eq]
  unfold Setting.execute at hrun
  cases hclears : i.opcode.operation.clears with
  | false =>
      have heffect := s.perform_hasEffect i henv hclears m
      rw [hrun] at heffect
      exact heffect rfl
  | true =>
      rcases s.perform_clears i hclears m with ⟨t, m'', hok, -⟩ | ⟨fault, m'', hfault, hne⟩
      · exact nomatch hrun.symm.trans hok
      · obtain ⟨heq, -⟩ := Prod.mk.inj (hrun.symm.trans hfault)
        exact absurd (Except.error.inj heq).symm hne

end Setting

/-! ## Dispatch -/

/-- The static effect of an instruction on the stack, listed from its bottom, is the one that its
execution has in an environment that knows nothing.  A success means that the values to be taken
were there; then the stack is empty after an instruction that empties it, and after any other one
the values below those taken stay, with as many new ones above them as the tables say.  After a
check for finite numbers the new value is the old one.  The stack is found too small only where it
holds fewer values than are to be taken. -/
theorem Interpreter.dispatch_stackEffect (options : Options) (returnsValue initLocals : Bool)
    (i : Instruction) (m : Machine) :
    match (({} : Interpreter).dispatch { options, returnsValue, initLocals } i).run m with
    | (.ok _, m') =>
      i.popCount returnsValue ≤ m.values.length ∧
        if i.clearsStack then m'.values = []
        else ∃ new : List Value, new.length = i.pushCount ∧
          m'.values = m.values.take (m.values.length - i.popCount returnsValue) ++ new ∧
          (i.opcode = .ckfinite → new.getLast? = m.values.getLast?)
    | (.error fault, _) =>
      fault = .stackUnderflow → m.values.length < i.popCount returnsValue := by
  rw [dispatch_eq_execute]
  have hlength : m.values.length = m.stack.length := List.length_reverse
  rw [hlength]
  cases hrun : (Setting.execute { options, returnsValue, initLocals } i).run m with
  | mk outcome m' =>
      cases outcome with
      | error fault =>
          rintro rfl
          exact Setting.execute_underflow _ i rfl hrun
      | ok t =>
          obtain ⟨hpops, new, hnew, hstack⟩ := Setting.execute_stack _ i rfl hrun
          refine ⟨hpops, ?_⟩
          unfold Machine.values
          split
          next hclears =>
            -- An instruction that empties the stack pushes nothing.
            rw [i.pushCount_of_clearsStack hclears, List.length_eq_zero_iff] at hnew
            rw [hstack, hnew, if_pos hclears]
            rfl
          next hkeeps =>
            rw [if_neg hkeeps] at hstack
            refine ⟨new.reverse, List.length_reverse.trans hnew, ?_, ?_⟩
            · rw [hstack, List.reverse_append, List.reverse_drop]
            · intro hopcode
              calc new.reverse.getLast?
                _ = new.head? := List.getLast?_reverse
                _ = m.stack.head? := Setting.execute_checkFinite _ i hopcode hrun hnew hstack
                _ = m.stack.reverse.getLast? := List.getLast?_reverse.symm

end CilAnalysis
