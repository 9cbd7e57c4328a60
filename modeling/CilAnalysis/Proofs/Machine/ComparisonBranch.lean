import CilAnalysis.Proofs.Machine.Step
import CilAnalysis.Proofs.Numeric.Comparison

/-!
# Branches on comparisons

A branch on a comparison does in one instruction what a comparison and a branch on its outcome do in
two.  The two go through the stack, where an undecided outcome is a word whose lowest bit alone is
unknown.

There are no comparisons for greater or equal and for less or equal, so their branches stand for the
branch on the failure of the opposite ordering.  Of floating-point numbers the opposite ordering is
the one with the other answer for unordered operands.

## Strategy

`Opcode.comparedFirst?` is the table that gives the two instructions for one.  The proof goes from
it to the runs in four steps.

* A row of the table relates operations: either the comparison is the same in both, or it is the
  negation of an ordering and the branch is on its failure (`Opcode.operation_of_comparedFirst?`).
* So it relates answers: what the branch makes of its own answer is what the branch on the outcome
  makes of the other one (`Opcode.exists_answers`).  For the negations this is
  `Comparison.decide_negation`, which fails for references; there the hypothesis excludes them.
* The three runs are computed (`run_branchOnComparison`, `run_compareTopTwo`, `run_branchOnValue`).
* An answer goes through the stack and comes back: a word made from a truth value is zero as far as
  that value is known to be false (`KnownBits.isZero_ofTernary`).
-/

namespace CilAnalysis

namespace Opcode

/-- Whether a branch is on greater or equal, or on less or equal. -/
def isOrEqual : Opcode → Bool
  | bge | bge_s | bge_un | bge_un_s | ble | ble_s | ble_un | ble_un_s => true
  | _ => false

/-- The comparison and the branches on its outcome that together do what a branch on a comparison
does, for operands that are both floating-point numbers and for others. -/
def comparedFirst? (floats : Bool) : Opcode → Option (Opcode × List Opcode)
  | beq | beq_s => some (ceq, [brtrue, brtrue_s])
  | bne_un | bne_un_s => some (ceq, [brfalse, brfalse_s])
  | bgt | bgt_s => some (cgt, [brtrue, brtrue_s])
  | bgt_un | bgt_un_s => some (cgt_un, [brtrue, brtrue_s])
  | blt | blt_s => some (clt, [brtrue, brtrue_s])
  | blt_un | blt_un_s => some (clt_un, [brtrue, brtrue_s])
  | bge | bge_s => some (if floats then clt_un else clt, [brfalse, brfalse_s])
  | bge_un | bge_un_s => some (if floats then clt else clt_un, [brfalse, brfalse_s])
  | ble | ble_s => some (if floats then cgt_un else cgt, [brfalse, brfalse_s])
  | ble_un | ble_un_s => some (if floats then cgt else cgt_un, [brfalse, brfalse_s])
  | _ => none

/-- What a row of the table says of the operations: the comparison is the same, or it is the
negation of an ordering and the branch is on its failure. -/
theorem operation_of_comparedFirst? {floats : Bool} {fused compare branch : Opcode}
    {branches : List Opcode} (hrow : fused.comparedFirst? floats = some (compare, branches))
    (hbranch : branch ∈ branches) :
    ∃ c unsigned,
      (fused.isOrEqual = false ∧ ∃ whenHolds,
        fused.operation = .branchOnComparison c unsigned whenHolds ∧
        compare.operation = .compare c unsigned ∧
        branch.operation = .branchOnValue (!whenHolds)) ∨
      (fused.isOrEqual = true ∧ c ≠ .equal ∧
        fused.operation = .branchOnComparison c unsigned true ∧
        compare.operation = .compare c.negation (unsigned ^^ floats) ∧
        branch.operation = .branchOnValue true) := by
  cases fused <;> cases hrow <;> cases floats <;> fin_cases hbranch <;>
    first
    | exact ⟨_, _, .inl ⟨rfl, _, rfl, rfl, rfl⟩⟩
    | exact ⟨_, _, .inr ⟨rfl, by decide, rfl, rfl, rfl⟩⟩

end Opcode

/-- Where control goes by a condition. -/
def Successor.onCondition (target next : Nat) : Ternary → Successor
  | .true => .branch target
  | .false => .fallThrough
  | .unknown => .fork [target, next]

private theorem KnownBits.isZero_ofTernary (t : Ternary) :
    (KnownBits.ofTernary 32 t).isZero = t.not := by
  cases t <;> decide

private theorem KnownBits.ofTernary_eq_unknown {t : Ternary}
    (h : KnownBits.ofTernary 32 t = KnownBits.ofTernary 32 .unknown) : t = .unknown := by
  cases t with
  | unknown => rfl
  | true | false => exact absurd (congrArg KnownBits.known h) (by decide)

/-! ## The runs of the three instructions -/

namespace Step

variable {i : Instruction} {target : Nat} {m : Machine} {rest : List Value}

private theorem run_branchIf (htarget : i.operand = .target target) (condition : Ternary)
    (m : Machine) :
    (branchIf i condition).run m = (.ok (.onCondition target i.next condition), m) := by
  have htarget? : i.target? = some target := by rw [Instruction.target?, htarget]
  unfold branchIf
  rw [run_bind, htarget?, run_operand_some]
  cases condition <;> rfl

private theorem run_branchOnValue {v : Value} (htarget : i.operand = .target target)
    (hstack : m.stack = v :: rest) (whenZero : Bool) :
    (branchOnValue i whenZero).run m =
      (.ok (.onCondition target i.next (if whenZero then v.isZero else v.isZero.not)),
        { m with stack := rest }) := by
  unfold branchOnValue
  rw [run_pop_bind hstack]
  exact run_branchIf htarget _ _

end Step

namespace Setting

open Step

variable {s : Setting} {m : Machine} {lhs rhs : Value} {rest : List Value}

private theorem run_compareTopTwo (hstack : m.stack = rhs :: lhs :: rest)
    (hroom : rest.length < s.options.maxStackDepth) (c : Comparison) (unsigned : Bool) :
    (s.compareTopTwo c unsigned).run m =
      match c.decide s.width unsigned lhs rhs with
      | .ok t => (.ok (), { m with stack := .int32 (.ofTernary 32 t) :: rest })
      | .error fault => (.error fault, { m with stack := rest }) := by
  unfold compareTopTwo onTopTwo
  rw [run_pop_bind hstack, run_pop_bind rfl, run_bind, run_attempt]
  dsimp only
  cases c.decide s.width unsigned lhs rhs with
  | error fault => rfl
  | ok t => exact run_push_of_lt _ hroom

private theorem run_branchOnComparison {i : Instruction} {target : Nat}
    (htarget : i.operand = .target target) (hstack : m.stack = rhs :: lhs :: rest)
    (c : Comparison) (unsigned whenHolds : Bool) :
    (s.branchOnComparison i c unsigned whenHolds).run m =
      (((c.decide s.width unsigned lhs rhs).map fun t => if whenHolds then t else t.not).map
          (.onCondition target i.next),
        { m with stack := rest }) := by
  unfold branchOnComparison
  rw [run_pop_bind hstack, run_pop_bind rfl, run_bind, run_attempt]
  cases c.decide s.width unsigned lhs rhs with
  | error fault => rfl
  | ok t => exact run_branchIf htarget _ _

end Setting

/-! ## One instruction and two -/

/-- A row of the table gives a branch and a comparison with corresponding answers: what the branch
makes of its own answer is what the branch on the outcome makes of the other one. -/
theorem Opcode.exists_answers {fused compare branch : Opcode} {branches : List Opcode}
    {lhs rhs : Value} (hrow : fused.comparedFirst? (lhs.bothFloats rhs) = some (compare, branches))
    (hbranch : branch ∈ branches) (hrefs : fused.isOrEqual = true → lhs.bothReferences rhs = false)
    (width : PointerWidth) :
    ∃ c unsigned whenHolds c' unsigned' whenZero,
      fused.operation = .branchOnComparison c unsigned whenHolds ∧
      compare.operation = .compare c' unsigned' ∧ branch.operation = .branchOnValue whenZero ∧
      (c.decide width unsigned lhs rhs).map (fun t => if whenHolds then t else t.not) =
        (c'.decide width unsigned' lhs rhs).map fun t => if whenZero then t.not else t := by
  obtain ⟨c, unsigned, ⟨-, whenHolds, hfused, hcompare, hbranch⟩ |
    ⟨horEqual, hc, hfused, hcompare, hbranch⟩⟩ := operation_of_comparedFirst? hrow hbranch
  · refine ⟨c, unsigned, whenHolds, c, unsigned, !whenHolds, hfused, hcompare, hbranch, ?_⟩
    cases whenHolds <;> rfl
  · refine ⟨c, unsigned, true, c.negation, _, true, hfused, hcompare, hbranch, ?_⟩
    rw [Comparison.decide_negation hc width unsigned (hrefs horEqual)]
    cases c.decide width unsigned lhs rhs with
    | error fault => rfl
    | ok t => exact congrArg Except.ok (Ternary.not_not t).symm

namespace Successor

private theorem onCondition_eq_fork_iff {target next : Nat} {t : Ternary} :
    onCondition target next t = .fork [target, next] ↔ t = .unknown := by
  cases t <;> simp [onCondition]

end Successor

namespace Setting

open Step

variable {s : Setting} {m : Machine} {lhs rhs : Value} {rest : List Value}

/-- The comparison has an outcome, and the branch on it goes where the branch on the comparison
goes. -/
theorem exists_outcome (hstack : m.stack = rhs :: lhs :: rest)
    (hroom : rest.length < s.options.maxStackDepth) {fused compare branch : Opcode}
    {branches : List Opcode}
    (hrow : fused.comparedFirst? (lhs.bothFloats rhs) = some (compare, branches))
    (hbranch : branch ∈ branches) (hrefs : fused.isOrEqual = true → lhs.bothReferences rhs = false)
    (target offset size : Nat) {c : Instruction} (hc : c.opcode = compare) :
    let once := (s.execute ⟨offset, fused, .target target, size⟩).run m
    let compared := (s.execute c).run m
    (∃ fault, once = (.error fault, { m with stack := rest }) ∧
      compared = (.error fault, { m with stack := rest })) ∨
    ∃ t taken, (taken = .unknown ↔ t = .unknown) ∧
      once = (.ok (.onCondition target (offset + size) taken), { m with stack := rest }) ∧
      compared =
        (.ok .fallThrough, { m with stack := .int32 (KnownBits.ofTernary 32 t) :: rest }) ∧
      (s.execute ⟨offset, branch, .target target, size⟩).run
        { m with stack := .int32 (KnownBits.ofTernary 32 t) :: rest } = once := by
  intro once compared
  obtain ⟨ask, unsigned, whenHolds, ask', unsigned', whenZero, hfused, hcompare, hbranch,
    hanswers⟩ := Opcode.exists_answers hrow hbranch hrefs s.width
  have honce : once =
      (((ask'.decide s.width unsigned' lhs rhs).map fun t => if whenZero then t.not else t).map
          (.onCondition target (offset + size)),
        { m with stack := rest }) := by
    unfold once execute
    rw [hfused, ← hanswers]
    exact run_branchOnComparison rfl hstack ask unsigned whenHolds
  have hcompared : compared = (thenNext (s.compareTopTwo ask' unsigned')).run m := by
    unfold compared execute
    rw [hc, hcompare]
    rfl
  have hrun := run_compareTopTwo hstack hroom ask' unsigned'
  cases hask : ask'.decide s.width unsigned' lhs rhs with
  | error fault =>
      rw [hask] at honce hrun
      refine .inl ⟨fault, honce, ?_⟩
      rw [hcompared, run_thenNext_of_error hrun]
  | ok t =>
      rw [hask] at honce hrun
      refine .inr ⟨t, if whenZero then t.not else t, ?_, honce, ?_, ?_⟩
      · cases whenZero <;> cases t <;> decide
      · rw [hcompared, run_thenNext_of_ok hrun]
      · -- The word on the stack is zero as far as the answer is known to be no.
        have hbranchRun := run_branchOnValue (i := ⟨offset, branch, .target target, size⟩)
          (m := { m with stack := .int32 (KnownBits.ofTernary 32 t) :: rest }) rfl rfl whenZero
        rw [Value.isZero, KnownBits.isZero_ofTernary, Ternary.not_not] at hbranchRun
        rw [honce, execute, hbranch]
        exact hbranchRun

end Setting

namespace Interpreter

/-- Let the two values on top of a stack within its limit be the operands of a branch on a
comparison, for greater or equal and less or equal not both references.  Then the branch comes to
the same outcome and the same state as the comparison of the table followed by a branch on its
outcome with the same target, offset and size.  It faults exactly if the comparison does, with the
same fault, and it forks to its target and to the next instruction exactly if the comparison leaves
an undecided outcome. -/
theorem dispatch_branchOnComparison (s : Setting) (m : Machine) {lhs rhs : Value}
    {rest : List Value} (hstack : m.stack = rhs :: lhs :: rest)
    (hdepth : m.stack.length ≤ s.options.maxStackDepth) {fused compare branch : Opcode}
    {branches : List Opcode}
    (hrow : fused.comparedFirst? (lhs.bothFloats rhs) = some (compare, branches))
    (hbranch : branch ∈ branches) (hrefs : fused.isOrEqual = true → lhs.bothReferences rhs = false)
    (target offset size : Nat) (c : Instruction) (hc : c.opcode = compare) :
    let p : Interpreter := {}
    let once := (p.dispatch s ⟨offset, fused, .target target, size⟩).run m
    let compared := (p.dispatch s c).run m
    let twice := (p.dispatch s c >>= fun _ =>
      p.dispatch s ⟨offset, branch, .target target, size⟩).run m
    once = twice ∧ (∀ t, compared.1 = .ok t → t = .fallThrough) ∧
      (∀ fault, once.1 = .error fault ↔ compared.1 = .error fault) ∧
      (once.1 = .ok (.fork [target, offset + size]) ↔
        compared = (.ok .fallThrough,
          { m with stack := .int32 (KnownBits.ofTernary 32 .unknown) :: rest })) := by
  intro p
  have hroom : rest.length < s.options.maxStackDepth := by
    rw [hstack, List.length_cons, List.length_cons] at hdepth
    omega
  have hdispatch (i : Instruction) : p.dispatch s i = s.execute i := dispatch_eq_execute {} s i
  simp only [hdispatch, Step.run_bind]
  rcases Setting.exists_outcome hstack hroom hrow hbranch hrefs target offset size hc with
    ⟨fault, honce, hcompared⟩ | ⟨t, taken, htaken, honce, hcompared, hsecond⟩
  · -- A fault of the comparison ends both, before the second instruction is reached.
    rw [honce, hcompared]
    exact ⟨rfl, nofun, fun _ => Iff.rfl, iff_of_false nofun nofun⟩
  · rw [honce] at hsecond
    rw [honce, hcompared]
    refine ⟨hsecond.symm, ?_, fun fault => iff_of_false nofun nofun, ?_⟩
    · rintro successor ⟨⟩
      rfl
    · rw [Except.ok.injEq, Successor.onCondition_eq_fork_iff, htaken]
      constructor
      · rintro rfl
        rfl
      · intro hcompared
        -- The word on the stack tells whether the answer was known.
        have hstack := congrArg (fun outcome => outcome.2.stack.head?) hcompared
        exact KnownBits.ofTernary_eq_unknown (Value.int32.inj (Option.some.inj hstack))

/-- A state with the numbers to compare above a reference: no number, and one. -/
def beforeUnordered : Machine where
  stack := [.float (.known (.ofInt 1)), .float (.known .invalid), .null]
  frame := ⟨[], []⟩

/-- A `bge.s` of unordered numbers is not taken, and their `clt.un` is one. -/
theorem dispatch_branchOnComparison_unordered :
    let p : Interpreter := {}
    let once := (p.dispatch {} ⟨0, .bge_s, .target 40, 2⟩).run beforeUnordered
    let compared := (p.dispatch {} ⟨0, .clt_un, .none, 2⟩).run beforeUnordered
    let twice := (p.dispatch {} ⟨0, .clt_un, .none, 2⟩ >>= fun _ =>
      p.dispatch {} ⟨0, .brfalse_s, .target 40, 2⟩).run beforeUnordered
    (once.1 = .ok .fallThrough ∧ compared.2.stack = [.ofInt32 1, .null]) ∧
      once = twice ∧ (∀ t, compared.1 = .ok t → t = .fallThrough) ∧
      (∀ fault, once.1 = .error fault ↔ compared.1 = .error fault) ∧
      (once.1 = .ok (.fork [40, 2]) ↔
        compared = (.ok .fallThrough, { beforeUnordered with
          stack := [.int32 (KnownBits.ofTernary 32 .unknown), .null] })) := by
  refine ⟨⟨rfl, by decide +kernel⟩, ?_⟩
  exact dispatch_branchOnComparison {} beforeUnordered rfl (by decide) rfl (by decide)
    (fun _ => rfl) 40 0 2 ⟨0, .clt_un, .none, 2⟩ rfl

end Interpreter

end CilAnalysis
