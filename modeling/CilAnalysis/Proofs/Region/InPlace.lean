import CilAnalysis.Proofs.Edit
import CilAnalysis.Proofs.Region.Extension
import CilAnalysis.Region.InPlace

/-!
# Changing a region tree in place is making a new one

A change in place makes a region with a number in it that belongs to no scope, makes the scopes, and
then goes back to the region.  Since a region that has just been made is not read in between, this
comes to the same as making it with the right numbers at once, and all that can refuse a change is
looked at before the first region is made.

## Strategy

The equation behind this is that a change of a region can be moved before the additions that came
after it.  It commutes with adding another region (`push_update_of_lt`), and of a region that has
just been added it makes what could have been added at once (`update_push`).  By induction on the
scopes both hold with any number of scopes in between (`update_pushScopes`).

Each change in place is then run step by step, with one lemma for each step, until its result is the
one of the change that makes the tree first.  For handlers the last steps are the same whatever the
kind, and are run together (`InPlace.run_tellGuarded`).
-/

namespace CilAnalysis.RegionTree

open Edit

variable {t : RegionTree}

private theorem push_update_of_lt {id : Nat} (h : id < t.size) (f : Region → Region) (r : Region)
    (p : Nat) : (t.push r p).update id f = (t.update id f).push r p := by
  have hregions : (t.regions.push r).modify id f = (t.regions.modify id f).push r := by
    refine Array.ext_getElem? fun k => ?_
    rw [Array.getElem?_modify, Array.getElem?_push, Array.getElem?_push, Array.getElem?_modify,
      Array.size_modify]
    have hlt : id < t.regions.size := h
    grind
  unfold push update
  rw [hregions]

/-- A region that has just been made is changed to what it could have been made as. -/
theorem update_push (t : RegionTree) (r : Region) (p : Nat) (f : Region → Region) :
    (t.push r p).update t.size f = t.push (f r) p := by
  have hregions : (t.regions.push r).modify t.size f = t.regions.push (f r) := by
    refine Array.ext_getElem? fun k => ?_
    rw [Array.getElem?_modify, Array.getElem?_push, Array.getElem?_push]
    have hsize : t.size = t.regions.size := rfl
    grind
  unfold push update
  rw [hregions]

private theorem update_pushScopes (t : RegionTree) (r : Region) (p q scopes : Nat)
    (f : Region → Region) :
    ((t.push r p).pushScopes q scopes).update t.size f = (t.push (f r) p).pushScopes q scopes := by
  induction scopes with
  | zero => exact update_push t r p f
  | succ scopes ih =>
      have hlt : t.size < ((t.push r p).pushScopes q scopes).size := by
        rw [size_pushScopes, size_push]
        omega
      calc ((t.push r p).pushScopes q (scopes + 1)).update t.size f
          = (((t.push r p).pushScopes q scopes).update t.size f).push .emptyScope q :=
            push_update_of_lt hlt f .emptyScope q
        _ = ((t.push (f r) p).pushScopes q scopes).push .emptyScope q := by rw [ih]
        _ = (t.push (f r) p).pushScopes q (scopes + 1) := rfl

private theorem getElem?_push_pushScopes {id : Nat} (h : id < t.size) (r : Region)
    (p q scopes : Nat) : ((t.push r p).pushScopes q scopes).regions[id]? = t.regions[id]? := by
  rw [getElem?_pushScopes (by rw [size_push]; omega), getElem?_push, if_neg h.ne]

private theorem getElem?_pushScopes_self (t : RegionTree) (r : Region) (p q scopes : Nat) :
    ((t.push r p).pushScopes q scopes).regions[t.size]? = some r := by
  rw [getElem?_pushScopes (by rw [size_push]; omega), getElem?_push, if_pos rfl]

private theorem scope_congr {t' : RegionTree} {id : Nat} (h : t'.regions[id]? = t.regions[id]?) :
    t'.scope id = t.scope id := by
  unfold scope region
  rw [h]

namespace InPlace

theorem run_push (t : RegionTree) (r : Region) (p : Nat) :
    (push r p).run t = (.ok t.size, t.push r p) := by
  unfold push
  rw [run_bind_ok (run_modify _ _), run_bind_ok (run_get _), run_pure,
    size_push, Nat.add_sub_cancel]

private theorem run_updateRegion {id : Nat} {r : Region} (h : t.regions[id]? = some r)
    (f : Region → Region) : (updateRegion id f).run t = (.ok (), t.update id f) := by
  have hask : (ask (·.region id)).run t = (.ok r, t) := by
    rw [run_ask, region_eq_ok.mpr h]
  unfold updateRegion
  rw [run_bind_ok hask, run_modify]

/-- A region made together with scopes below it is changed to what it could have been made as. -/
theorem run_updateRegion_made (t : RegionTree) (r : Region) (p q scopes : Nat)
    (f : Region → Region) :
    (updateRegion t.size f).run ((t.push r p).pushScopes q scopes) =
      (.ok (), (t.push (f r) p).pushScopes q scopes) := by
  rw [run_updateRegion (getElem?_pushScopes_self t r p q scopes), update_pushScopes]

private theorem run_appendChild (t : RegionTree) (id : Nat) (child : RegionChild) :
    (appendChild id child).run t =
      Edit.settle t ((t.scope id).map fun _ => ((), t.appendChild id child)) := by
  unfold appendChild
  rw [run_bind, run_ask]
  cases t.scope id <;> rfl

theorem run_addGuarded (t : RegionTree) (scope : Nat) :
    (addGuarded scope).run t = Edit.settle t (t.addGuarded scope) := by
  unfold addGuarded RegionTree.addGuarded
  refine run_ask_bind fun contents hscope => ?_
  obtain ⟨above, habove, -⟩ := scope_eq_ok hscope
  let made := (t.push (.guarded (t.size + 1) []) scope).push .emptyScope t.size
  have hpatch : (updateRegion t.size (Region.setProtected (t.size + 1))).run
      ((t.push (.guarded unset []) scope).push .emptyScope t.size) = (.ok (), made) :=
    run_updateRegion_made t (.guarded unset []) scope t.size 1 _
  -- The scope is the one that was looked at before anything was made.
  have hscope' : made.scope scope = .ok contents := by
    refine (scope_congr ?_).trans hscope
    exact getElem?_push_pushScopes (lt_size_of_getElem? habove) _ scope t.size 1
  have htell : (appendChild scope (.region t.size)).run made =
      (.ok (), made.appendChild scope (.region t.size)) := by
    rw [run_appendChild, hscope']
    rfl
  rw [run_bind_ok (run_push ..), run_bind_ok (run_push ..), size_push,
    run_bind_ok hpatch, run_bind_ok htell]
  rfl

/-- The last steps of adding a handler, once it was made with its scopes. -/
theorem run_tellGuarded {guarded : Nat} {above : Region} (habove : t.regions[guarded]? = some above)
    (kind : ClauseKind) (prologue : Option Nat) (contents scopes : Nat) :
    (do
      updateRegion t.size (Region.setScopes prologue contents)
      updateRegion guarded (Region.appendHandler t.size)
      return (⟨t.size, prologue, contents⟩ : HandlerScopes)).run
        ((t.push (.handler kind none unset none) guarded).pushScopes t.size scopes) =
      (.ok ⟨t.size, prologue, contents⟩, t.hang (.handler kind prologue contents none) guarded
        scopes (Region.appendHandler t.size)) := by
  have habove' := getElem?_push_pushScopes (lt_size_of_getElem? habove)
    (Region.setScopes prologue contents (.handler kind none unset none)) guarded t.size scopes
  rw [run_bind_ok (run_updateRegion_made ..),
    run_bind_ok (run_updateRegion (habove'.trans habove) _)]
  rfl

theorem run_addHandler (t : RegionTree) (guarded : Nat) (kind : ClauseKind) :
    (addHandler guarded kind).run t = Edit.settle t (t.addHandler guarded kind) := by
  unfold addHandler RegionTree.addHandler
  refine run_ask_bind fun above hregion => ?_
  have htell := run_tellGuarded (region_eq_ok.mp hregion) kind
  split
  next => rfl
  next =>
    rw [run_bind_ok (run_push ..)]
    cases kind with
    | filters start =>
        have hprologue : (pushPrologue (.filters start) t.size).run
            (t.push (.handler (.filters start) none unset none) guarded) =
              (.ok (some (t.size + 1)),
                (t.push (.handler (.filters start) none unset none) guarded).pushScopes
                  t.size 1) := by
          unfold pushPrologue
          rw [run_bind_ok (run_push ..), run_pure, size_push]
          rfl
        rw [run_bind_ok hprologue, run_bind_ok (run_push ..), size_pushScopes, size_push]
        exact htell (some (t.size + 1)) (t.size + 2) 2
    | catches | finalizes | faults =>
        simp only [pushPrologue, pure_bind]
        rw [run_bind_ok (run_push ..), size_push]
        exact htell none (t.size + 1) 1

theorem run_addBlock (t : RegionTree) (scope offset : Nat) :
    (addBlock scope offset).run t =
      Edit.settle t ((t.addBlock scope offset).map ((), ·)) := by
  unfold addBlock RegionTree.addBlock
  rw [run_bind_ok (run_get _)]
  by_cases hplaced : t.blocks.contains offset = true
  · rw [if_pos hplaced, if_pos hplaced]
    rfl
  · rw [if_neg hplaced, if_neg hplaced]
    rw [run_bind, run_appendChild]
    cases t.scope scope <;> rfl

end InPlace

end CilAnalysis.RegionTree
