import Mathlib

/-!
# Results that may be errors

What follows from the success or the failure of a computation that is made of several.

* A computation that succeeds is taken apart into its steps (`bind_eq_ok`), and a loop into its
  rounds: `foldlM_induction` carries an invariant through the rounds, `mapM_forall₂` relates inputs
  and outputs, and `forM_eq_ok` says that every check was passed.
* In the other direction, a loop succeeds if each of its rounds does (`foldlM_total`, `mapM_total`,
  `forM_total`).
* A loop of checks fails with the error of the first check that does.  If the things that are
  checked ascend, this is the least of them (`forM_eq_error_iff`).

`SameOutcome` compares two computations.  They end with the same error, or both succeed with results
in a relation, and loops keep this if their rounds do (`SameOutcome.foldlM`).
-/

namespace CilAnalysis

theorem bind_eq_ok {α β ε : Type} {r : Except ε α} {f : α → Except ε β} {y : β}
    (h : r >>= f = .ok y) : ∃ x, r = .ok x ∧ f x = .ok y := by
  cases r with
  | error e => exact nomatch h
  | ok x => exact ⟨x, rfl, h⟩

/-- What is found in a result by computation. -/
theorem exists_of_map_eq_ok {α β ε : Type} {r : Except ε α} {f : α → β} {y : β}
    (h : r.map f = .ok y) : ∃ x, r = .ok x ∧ f x = y := by
  cases r with
  | error e => exact nomatch h
  | ok x => exact ⟨x, rfl, Except.ok.inj h⟩

/-- What holds at the start and is kept by every step that succeeds holds at the end. -/
theorem foldlM_induction {α β ε : Type} {P : β → Prop} {f : β → α → Except ε β} {l : List α}
    {x y : β} (hstep : ∀ a ∈ l, ∀ z z', P z → f z a = .ok z' → P z') (hx : P x)
    (hrun : l.foldlM f x = .ok y) : P y := by
  induction l generalizing x with
  | nil =>
      cases hrun
      exact hx
  | cons a rest ih =>
      rw [List.foldlM_cons] at hrun
      obtain ⟨z, hz, hrun⟩ := bind_eq_ok hrun
      have hPz := hstep a List.mem_cons_self x z hx hz
      exact ih (fun a' ha' => hstep a' (List.mem_cons_of_mem a ha')) hPz hrun

/-- A computation made of steps that succeed succeeds. -/
theorem foldlM_total {α β ε : Type} {P : β → Prop} {f : β → α → Except ε β} {l : List α} {x : β}
    (hstep : ∀ a ∈ l, ∀ z, P z → ∃ z', f z a = .ok z' ∧ P z') (hx : P x) :
    ∃ y, l.foldlM f x = .ok y ∧ P y := by
  induction l generalizing x with
  | nil => exact ⟨x, rfl, hx⟩
  | cons a rest ih =>
      obtain ⟨z, hz, hPz⟩ := hstep a List.mem_cons_self x hx
      obtain ⟨y, hy, hPy⟩ := ih (fun a' ha' => hstep a' (List.mem_cons_of_mem a ha')) hPz
      refine ⟨y, ?_, hPy⟩
      rw [List.foldlM_cons, hz]
      exact hy

/-- A computation made of steps succeeds only if each step does. -/
theorem exists_step_of_foldlM {α β ε : Type} {f : β → α → Except ε β} {l : List α} {x y : β}
    (h : l.foldlM f x = .ok y) {a : α} (ha : a ∈ l) : ∃ z z', f z a = .ok z' := by
  induction l generalizing x with
  | nil => exact absurd ha List.not_mem_nil
  | cons a' rest ih =>
      rw [List.foldlM_cons] at h
      obtain ⟨z, hz, h⟩ := bind_eq_ok h
      rcases List.mem_cons.mp ha with rfl | ha
      · exact ⟨x, z, hz⟩
      · exact ih h ha

theorem mapM_forall₂ {α β ε : Type} {f : α → Except ε β} {l : List α} {ys : List β}
    (h : l.mapM f = .ok ys) : List.Forall₂ (fun x y => f x = .ok y) l ys := by
  induction l generalizing ys with
  | nil =>
      rw [List.mapM_nil] at h
      cases h
      exact .nil
  | cons x rest ih =>
      rw [List.mapM_cons] at h
      obtain ⟨y, hy, h⟩ := bind_eq_ok h
      obtain ⟨ys', hys', h⟩ := bind_eq_ok h
      cases h
      exact .cons hy (ih hys')

theorem mem_of_mapM {α β ε : Type} {f : α → Except ε β} {l : List α} {ys : List β}
    (h : l.mapM f = .ok ys) (y : β) : y ∈ ys ↔ ∃ x ∈ l, f x = .ok y := by
  have hall := mapM_forall₂ h
  clear h
  induction hall with
  | nil => simp
  | cons hy _ ih => simp [ih, hy, eq_comm]

theorem mapM_total {α β ε : Type} {f : α → Except ε β} {l : List α}
    (h : ∀ x ∈ l, ∃ y, f x = .ok y) : ∃ ys, l.mapM f = .ok ys := by
  induction l with
  | nil => exact ⟨[], rfl⟩
  | cons x rest ih =>
      obtain ⟨y, hy⟩ := h x List.mem_cons_self
      obtain ⟨ys, hys⟩ := ih fun x' hx' => h x' (List.mem_cons_of_mem x hx')
      refine ⟨y :: ys, ?_⟩
      rw [List.mapM_cons, hy, hys]
      rfl

theorem exists_of_mapM {α β ε : Type} {f : α → Except ε β} {l : List α} {ys : List β}
    (h : l.mapM f = .ok ys) {x : α} (hx : x ∈ l) : ∃ y, f x = .ok y := by
  obtain ⟨k, hk⟩ := List.getElem?_of_mem hx
  obtain ⟨hlt, rfl⟩ := List.getElem?_eq_some_iff.mp hk
  have hall := mapM_forall₂ h
  exact ⟨_, hall.get hlt (hall.length_eq ▸ hlt)⟩

theorem forM_eq_ok {α ε : Type} {f : α → Except ε Unit} {l : List α} (h : l.forM f = .ok ())
    {x : α} (hx : x ∈ l) : f x = .ok () := by
  induction l with
  | nil => exact absurd hx List.not_mem_nil
  | cons y rest ih =>
      rw [List.forM_eq_forM, List.forM_cons] at h
      obtain ⟨⟨⟩, hy, h⟩ := bind_eq_ok h
      rcases List.mem_cons.mp hx with rfl | hx
      · exact hy
      · exact ih h hx

theorem exists_of_forM_eq_error {α ε : Type} {f : α → Except ε Unit} {l : List α} {e : ε}
    (h : l.forM f = .error e) : ∃ x ∈ l, f x = .error e := by
  induction l with
  | nil => cases h
  | cons y rest ih =>
      rw [List.forM_eq_forM, List.forM_cons, ← List.forM_eq_forM] at h
      cases hy : f y with
      | error e' =>
          rw [hy] at h
          cases h
          exact ⟨y, List.mem_cons_self, hy⟩
      | ok =>
          rw [hy] at h
          obtain ⟨x, hx, hfail⟩ := ih h
          exact ⟨x, List.mem_cons_of_mem y hx, hfail⟩

theorem forM_total {α ε : Type} {f : α → Except ε Unit} {l : List α}
    (h : ∀ x ∈ l, f x = .ok ()) : l.forM f = .ok () := by
  cases hrun : l.forM f with
  | ok => rfl
  | error e =>
      obtain ⟨x, hx, hfail⟩ := exists_of_forM_eq_error hrun
      cases hfail.symm.trans (h x hx)

/-- Checks of ascending things fail with the error of the least that does. -/
theorem forM_eq_error_iff {α ε : Type} {key : α → Nat} {f : α → Except ε Unit} {l : List α}
    (hl : l.Pairwise fun x y => key x < key y) {e : ε} :
    l.forM f = .error e ↔
      ∃ x ∈ l, f x = .error e ∧ ∀ y ∈ l, key y < key x → f y = .ok () := by
  induction l with
  | nil => simp [pure, Except.pure]
  | cons y rest ih =>
      obtain ⟨hfirst, hrest⟩ := List.pairwise_cons.mp hl
      rw [List.forM_eq_forM, List.forM_cons, ← List.forM_eq_forM]
      cases hy : f y with
      | error e' =>
          constructor
          · intro h
            cases h
            refine ⟨y, List.mem_cons_self, hy, List.forall_mem_cons.mpr ⟨fun hlt => ?_, ?_⟩⟩
            · omega
            · intro z hz hlt
              have hlater := hfirst z hz
              omega
          · rintro ⟨x, hx, hfail, hbefore⟩
            -- A later check cannot be the one that fails, as this one comes before it.
            rcases List.mem_cons.mp hx with rfl | hx
            · rw [← hy, hfail]
              rfl
            · cases hy.symm.trans (hbefore y List.mem_cons_self (hfirst x hx))
      | ok =>
          refine Iff.trans (ih hrest) ?_
          constructor
          · rintro ⟨x, hx, hfail, hbefore⟩
            exact ⟨x, List.mem_cons_of_mem y hx, hfail,
              List.forall_mem_cons.mpr ⟨fun _ => hy, hbefore⟩⟩
          · rintro ⟨x, hx, hfail, hbefore⟩
            rcases List.mem_cons.mp hx with rfl | hx
            · cases hy.symm.trans hfail
            · exact ⟨x, hx, hfail, fun z hz => hbefore z (List.mem_cons_of_mem y hz)⟩

/-! ## Two computations with the same outcome -/

/-- Two results that are the same error, or successes in a relation. -/
inductive SameOutcome {α β ε : Type} (R : α → β → Prop) : Except ε α → Except ε β → Prop
  | ok {x : α} {y : β} (h : R x y) : SameOutcome R (.ok x) (.ok y)
  | error (e : ε) : SameOutcome R (.error e) (.error e)

namespace SameOutcome

variable {α β α' β' ε : Type} {R : α → β → Prop} {S : α' → β' → Prop}

theorem of_eq (r : Except ε α) : SameOutcome Eq r r := by
  cases r with
  | error e => exact .error e
  | ok x => exact .ok rfl

theorem bind {r : Except ε α} {r' : Except ε β} {f : α → Except ε α'} {f' : β → Except ε β'}
    (h : SameOutcome R r r') (hf : ∀ x y, R x y → SameOutcome S (f x) (f' y)) :
    SameOutcome S (r >>= f) (r' >>= f') := by
  cases h with
  | error e => exact .error e
  | ok h => exact hf _ _ h

theorem foldlM {ι κ : Type} {T : ι → κ → Prop} {f : α → ι → Except ε α} {f' : β → κ → Except ε β}
    (hstep : ∀ x y i k, R x y → T i k → SameOutcome R (f x i) (f' y k)) {l : List ι} {l' : List κ}
    (hl : List.Forall₂ T l l') {x : α} {y : β} (h : R x y) :
    SameOutcome R (l.foldlM f x) (l'.foldlM f' y) := by
  induction hl generalizing x y with
  | nil => exact .ok h
  | cons hhead _ ih =>
      rw [List.foldlM_cons, List.foldlM_cons]
      exact (hstep _ _ _ _ h hhead).bind fun _ _ => ih

theorem exists_ok {r : Except ε α} {r' : Except ε β} (h : SameOutcome R r r') {x : α}
    (hx : r = .ok x) : ∃ y, r' = .ok y ∧ R x y := by
  subst hx
  cases h with
  | ok h => exact ⟨_, rfl, h⟩

end SameOutcome

end CilAnalysis
