import CilAnalysis.Error
import Mathlib

/-!
# What changes in place do

The equations by which a change in place is computed: applied to data it gives an outcome and the
data it leaves.

A change that makes the new data before it puts them in the place of the old is one that fails only
before its first step.  What such a change leaves is said by `Edit.settle`: the new data, or the old
ones if there are none.  It is atomic (`Edit.Atomic`), and it ends as a request should
(`Edit.Outcome`): it is granted with what it is to leave, or it is refused with the data as they
were.  For a change that is made step by step it is therefore shown that it comes to the same as
making the new data first; everything else follows from here.

Two rules carry properties along histories, in which changes are tried one after the other and those
that fail do not keep the later ones from being tried.

* `Edit.tryAll_induction`: what every change keeps holds after all of them.
* `Edit.within_induction`: a change of one among several data keeps what it keeps of its own.
-/

namespace CilAnalysis.Edit

variable {σ α β : Type}

@[simp] theorem run_pure (a : α) (s : σ) : (pure a : Edit σ α).run s = (.ok a, s) := rfl

@[simp] theorem run_throw (e : Error) (s : σ) : (throw e : Edit σ α).run s = (.error e, s) := rfl

@[simp] theorem run_get (s : σ) : (get : Edit σ σ).run s = (.ok s, s) := rfl

@[simp] theorem run_modify (f : σ → σ) (s : σ) : (modify f : Edit σ Unit).run s = (.ok (), f s) :=
  rfl

@[simp] theorem run_ask (f : σ → Except Error α) (s : σ) : (ask f).run s = (f s, s) := rfl

/-- A change after another one is made to what the first leaves, unless that fails. -/
theorem run_bind (x : Edit σ α) (f : α → Edit σ β) (s : σ) :
    (x >>= f).run s =
      match x.run s with
      | (.ok a, s') => (f a).run s'
      | (.error e, s') => (.error e, s') := by
  change (match x.run s with | (r, s') => (ExceptT.bindCont f r : StateM σ _) s') = _
  rcases x.run s with ⟨r, s'⟩
  cases r <;> rfl

theorem run_bind_ok {x : Edit σ α} {s s' : σ} {a : α} (h : x.run s = (.ok a, s'))
    (f : α → Edit σ β) : (x >>= f).run s = (f a).run s' := by
  rw [run_bind, h]

theorem run_bind_error {x : Edit σ α} {s s' : σ} {e : Error} (h : x.run s = (.error e, s'))
    (f : α → Edit σ β) : (x >>= f).run s = (.error e, s') := by
  rw [run_bind, h]

/-- Not to use what a change gives back makes no difference to what it leaves. -/
theorem snd_run_bind_pure (x : Edit σ α) (b : β) (s : σ) :
    ((x >>= fun _ => pure b).run s).2 = (x.run s).2 := by
  rw [run_bind]
  rcases x.run s with ⟨r, s'⟩
  cases r <;> rfl

/-- What a change leaves that makes the new data before it puts them in the place of the old. -/
def settle (s : σ) : Except Error (α × σ) → Except Error α × σ
  | .ok (a, s') => (.ok a, s')
  | .error e => (.error e, s)

theorem settle_eq_ok {s s' : σ} {r : Except Error (α × σ)} {a : α} :
    settle s r = (.ok a, s') ↔ r = .ok (a, s') := by
  cases r with
  | error e => simp [settle]
  | ok new => simp [settle, Prod.ext_iff]

/-- A question before a change that makes the new data first. -/
theorem run_ask_bind {q : σ → Except Error α} {f : α → Edit σ β}
    {k : α → Except Error (β × σ)} {s : σ} (h : ∀ a, q s = .ok a → (f a).run s = settle s (k a)) :
    (ask q >>= f).run s = settle s (q s >>= k) := by
  rw [run_bind, run_ask]
  cases hq : q s with
  | error e => rfl
  | ok a => exact h a hq

/-- Where a change fails it leaves the data as they were. -/
def Atomic (x : Edit σ α) (s : σ) : Prop := ∀ e s', x.run s = (.error e, s') → s' = s

theorem atomic_of_run_eq_settle {x : Edit σ α} {s : σ} {r : Except Error (α × σ)}
    (h : x.run s = settle s r) : x.Atomic s := by
  intro e s' hrun
  rw [h] at hrun
  cases r with
  | ok new => cases hrun
  | error e =>
      cases hrun
      rfl

/-- How a request to change data ends: if it is granted with what it is to leave, and if it is
refused with the data as they were. -/
inductive Outcome (granted : Prop) (leaves : σ → Prop) (s : σ) : Except Error Unit × σ → Prop
  | granted {s' : σ} (h : granted) (hleaves : leaves s') : Outcome granted leaves s (.ok (), s')
  | refused (e : Error) (h : ¬ granted) : Outcome granted leaves s (.error e, s)

section Requests

variable {s : σ} {r : Except Error σ}

theorem outcome_settle {granted : Prop} {leaves : σ → Prop}
    (hgranted : (∃ s', r = .ok s') ↔ granted) (hleaves : ∀ s', r = .ok s' → leaves s') :
    Outcome granted leaves s (settle s (r.map ((), ·))) := by
  cases r with
  | error e =>
      refine .refused e fun h => ?_
      obtain ⟨s', hs'⟩ := hgranted.mpr h
      cases hs'
  | ok s' => exact .granted (hgranted.mp ⟨s', rfl⟩) (hleaves s' rfl)

theorem settle_induction {P : σ → Prop} (hs : P s) (hnew : ∀ s', r = .ok s' → P s') :
    P (settle s (r.map ((), ·))).2 := by
  cases r with
  | error e => exact hs
  | ok s' => exact hnew s' rfl

end Requests

/-- The data after changes were tried one after the other; one that fails does not keep the later
ones from being tried. -/
def tryAll (s : σ) (changes : List (Edit σ Unit)) : σ :=
  changes.foldl (fun s x => (x.run s).2) s

/-- What every change keeps holds after all of them. -/
theorem tryAll_induction {P : σ → Prop} {changes : List (Edit σ Unit)} {s : σ} (hs : P s)
    (hstep : ∀ x ∈ changes, ∀ s, P s → P (x.run s).2) : P (tryAll s changes) :=
  List.foldlRecOn changes _ hs fun s hs x hx => hstep x hx s hs

/-! ## One of several -/

section Within

variable {ι : Type} [DecidableEq ι]

/-- A change of one among several data, which leaves the others as they are. -/
def within (i : ι) (x : Edit σ α) : Edit (ι → σ) α :=
  ExceptT.mk fun all => ((x.run (all i)).1, Function.update all i (x.run (all i)).2)

@[simp] theorem run_within (i : ι) (x : Edit σ α) (all : ι → σ) :
    (within i x).run all = ((x.run (all i)).1, Function.update all i (x.run (all i)).2) := rfl

/-- What a change keeps of its own data it keeps of all. -/
theorem within_induction {P : ι → σ → Prop} {i : ι} {x : Edit σ α} {all : ι → σ}
    (hall : ∀ j, P j (all j)) (hstep : P i (x.run (all i)).2) :
    ∀ j, P j (((within i x).run all).2 j) :=
  (Function.forall_update_iff all P).mpr ⟨hstep, fun j _ => hall j⟩

end Within

end CilAnalysis.Edit
