import PlinyCompute.HandleCopies

namespace PlinyCompute.Handles

open Transition

variable {K : Classes} {w w' : World} {h : Heap} {hs : List Handle} {loose : Option ℕ} {f old : Handle}
  {l dest : Location} {o c : ℕ} {x : RefCountedObject}

theorem filterMap_set_perm {vs : List (Option Handle)} {i : ℕ} (hi : vs[i]? = some (some old))
    (v : Option Handle) : (old :: (vs.set i v).filterMap id).Perm (v.toList ++ vs.filterMap id) := by
  induction vs generalizing i with
  | nil => simp at hi
  | cons u vs ih =>
    cases i with
    | zero =>
      simp only [List.getElem?_cons_zero, Option.some.injEq] at hi
      subst hi
      cases v with
      | none => simp
      | some f =>
        simp only [List.set_cons_zero, List.filterMap_cons, id_eq, Option.toList_some, List.cons_append,
          List.nil_append]
        exact List.Perm.swap _ _ _
    | succ i =>
      have hrest := ih (i := i) (by simpa using hi)
      cases u with
      | none => simpa using hrest
      | some g =>
        simp only [List.set_cons_succ, List.filterMap_cons, id_eq]
        apply (List.Perm.swap _ _ _).trans
        apply (hrest.cons g).trans
        exact List.perm_middle.symm

theorem getElem_of_read {i : ℕ} (hr : w.read (.stack i) = some f) : w.stack[i]? = some (some f) := by
  simp only [World.read] at hr
  cases hg : w.stack[i]? with
  | none => simp [hg] at hr
  | some v =>
    rw [hg] at hr
    exact congrArg some hr

theorem member_of_read {k : ℕ} (hr : w.read (.member o k) = some f) :
    ∃ x, w.heap.get o = some x ∧ x.members[k]? = some f := Option.bind_eq_some_iff.mp hr

theorem Balanced.write (extra : List Handle) (s : Balanced w.heap (f :: (extra ++ w.stackHandles)) loose)
    (hr : w.read l = some old) :
    Balanced (w.write f l).heap (old :: (extra ++ (w.write f l).stackHandles)) loose := by
  cases l with
  | stack i =>
    have hp := filterMap_set_perm (getElem_of_read hr) (some f)
    have hout : (f :: (extra ++ w.stackHandles)).Perm (extra ++ f :: w.stackHandles) := List.perm_middle.symm
    apply s.perm
    apply hout.trans
    apply (hp.symm.append_left extra).trans
    exact List.perm_middle
  | member o k =>
    obtain ⟨x, hx, hk⟩ := member_of_read hr
    exact s.exchange hx hk

theorem Sound.write (extra : List Handle) (s : Sound K w.heap (f :: (extra ++ w.stackHandles)) loose)
    (hr : w.read l = some old) :
    Sound K (w.write f l).heap (old :: (extra ++ (w.write f l).stackHandles)) loose := by
  apply (s.balanced.write extra hr).sound
  cases l with
  | stack i => exact s.shaped
  | member o k =>
    obtain ⟨x, hx, hk⟩ := member_of_read hr
    exact (s.exchange hx hk).shaped

theorem write_blocks : SameBlocks w.heap (w.write f l).heap := by
  cases l with
  | stack i => exact .refl _
  | member o k =>
    simp only [World.write, Heap.setMember]
    split
    · exact .refl _
    · exact ⟨rfl, rfl, rfl, rfl, rfl, fun _ => id⟩

section Access

end Access

structure Good (K : Classes) (w w' : World) : Prop where
  sound : Sound K w'.heap w'.stackHandles none
  blocks : SameBlocks w.heap w'.heap
  saved : w'.saved = w.saved

section MakeObject

end MakeObject

section Calls

end Calls

end PlinyCompute.Handles
