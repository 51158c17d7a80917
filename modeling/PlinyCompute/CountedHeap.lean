import Mathlib.Data.List.Count
import Mathlib.Data.List.Perm.Basic

/-! Heaps whose cells count the references to them, over values of any type. -/

namespace PlinyCompute.CountedHeap

variable {α β γ : Type}

structure Cell (α : Type) where
  value : α
  count : ℕ
  deriving DecidableEq

/-- A cell that was freed is `none`, and its address is not used again. -/
structure Heap (α : Type) where
  cells : List (Option (Cell α))
  deriving DecidableEq

namespace Heap

def get (h : Heap α) (o : ℕ) : Option (Cell α) := (h.cells[o]?).join

def set (h : Heap α) (o : ℕ) (c : Option (Cell α)) : Heap α := ⟨h.cells.set o c⟩

def alloc (v : α) (h : Heap α) : Heap α := ⟨h.cells ++ [some ⟨v, 1⟩]⟩

def retain (o : ℕ) (h : Heap α) : Option (Heap α) :=
  (h.get o).map fun c => h.set o (some { c with count := c.count + 1 })

def release (o : ℕ) (h : Heap α) : Option (Heap α) :=
  (h.get o).map fun c => h.set o (if c.count = 1 then none else some { c with count := c.count - 1 })

def write (o : ℕ) (v : α) (h : Heap α) : Option (Heap α) := (h.get o).map fun c => h.set o (some { c with value := v })

variable {h : Heap α} {o p : ℕ} {c d : Cell α}

theorem lt_of_get (hc : h.get o = some c) : o < h.cells.length := by
  rw [get, Option.join_eq_some_iff] at hc
  exact (List.getElem?_eq_some_iff.mp hc).1

theorem get_set_self (hc : h.get o = some c) (x : Option (Cell α)) : (h.set o x).get o = x := by
  rw [get, set, List.getElem?_set_self (lt_of_get hc)]
  rfl

theorem get_set_ne (hne : p ≠ o) (x : Option (Cell α)) : (h.set o x).get p = h.get p := by
  rw [get, set, List.getElem?_set_ne (Ne.symm hne), get]

theorem get_alloc_self (h : Heap α) (v : α) : (h.alloc v).get h.cells.length = some ⟨v, 1⟩ := by
  rw [get, alloc, List.getElem?_concat_length]
  rfl

theorem get_alloc_of_lt (hlt : o < h.cells.length) (v : α) : (h.alloc v).get o = h.get o := by
  rw [get, alloc, List.getElem?_append_left hlt, get]

end Heap

structure Sound (h : Heap α) (refs : List ℕ) : Prop where
  counted : ∀ o c, h.get o = some c → c.count = refs.count o
  aimed : ∀ o ∈ refs, ∃ c, h.get o = some c

def Keeps (h h' : Heap α) (refs : List ℕ) : Prop :=
  ∀ o ∈ refs, ∀ c, h.get o = some c → ∃ c', h'.get o = some c' ∧ c'.value = c.value

theorem Keeps.refl (h : Heap α) (refs : List ℕ) : Keeps h h refs := fun _ _ c hc => ⟨c, hc, rfl⟩

variable {h h' h'' : Heap α} {refs refs' : List ℕ} {o : ℕ} {c : Cell α}

theorem Keeps.trans (k : Keeps h h' refs) (k' : Keeps h' h'' refs) : Keeps h h'' refs := by
  intro o ho c hc
  obtain ⟨c', hc', hv⟩ := k o ho c hc
  obtain ⟨c'', hc'', hv'⟩ := k' o ho c' hc'
  exact ⟨c'', hc'', hv'.trans hv⟩

theorem Keeps.mono (k : Keeps h h' refs) (hsub : refs' ⊆ refs) : Keeps h h' refs' := fun o ho => k o (hsub ho)

namespace Sound

theorem nil : Sound (⟨[]⟩ : Heap α) [] := ⟨fun o _ hc => absurd (Heap.lt_of_get hc) (Nat.not_lt_zero o), nofun⟩

theorem perm (s : Sound h refs) (hp : refs.Perm refs') : Sound h refs' := by
  constructor
  · intro o c hc
    rw [s.counted o c hc, hp.count_eq]
  · intro o ho
    exact s.aimed o (hp.mem_iff.mpr ho)

theorem alloc (s : Sound h refs) (v : α) : Sound (h.alloc v) (h.cells.length :: refs) ∧ Keeps h (h.alloc v) refs := by
  have hlt : ∀ o ∈ refs, o < h.cells.length := by
    intro o ho
    obtain ⟨c, hc⟩ := s.aimed o ho
    exact Heap.lt_of_get hc
  refine ⟨⟨?_, ?_⟩, ?_⟩
  · intro o c hc
    by_cases heq : o = h.cells.length
    · subst heq
      rw [Heap.get_alloc_self, Option.some.injEq] at hc
      subst hc
      rw [List.count_cons_self, List.count_eq_zero_of_not_mem]
      intro ho
      exact absurd (hlt _ ho) (Nat.lt_irrefl _)
    · have hin := Heap.lt_of_get hc
      rw [Heap.alloc, List.length_append, List.length_singleton] at hin
      rw [Heap.get_alloc_of_lt (by omega)] at hc
      rw [List.count_cons_of_ne (Ne.symm heq)]
      exact s.counted o c hc
  · intro o ho
    obtain rfl | ho := List.mem_cons.mp ho
    · exact ⟨_, Heap.get_alloc_self h v⟩
    · rw [Heap.get_alloc_of_lt (hlt o ho)]
      exact s.aimed o ho
  · intro o ho c hc
    exact ⟨c, by rw [Heap.get_alloc_of_lt (hlt o ho)]; exact hc, rfl⟩

theorem retain (s : Sound h refs) (hc : h.get o = some c) :
    ∃ h', h.retain o = some h' ∧ Sound h' (o :: refs) ∧ Keeps h h' refs ∧
      ∃ c', h'.get o = some c' ∧ c'.value = c.value := by
  let c' : Cell α := { c with count := c.count + 1 }
  have hself : (h.set o (some c')).get o = some c' := Heap.get_set_self hc _
  refine ⟨h.set o (some c'), by rw [Heap.retain, hc]; rfl, ⟨?_, ?_⟩, ?_, c', hself, rfl⟩
  · intro p d hd
    by_cases hp : p = o
    · subst hp
      rw [hself, Option.some.injEq] at hd
      subst hd
      rw [List.count_cons_self, ← s.counted p c hc]
    · rw [Heap.get_set_ne hp] at hd
      rw [List.count_cons_of_ne (Ne.symm hp)]
      exact s.counted p d hd
  · intro p hp
    by_cases hpo : p = o
    · subst hpo
      exact ⟨c', hself⟩
    · rw [Heap.get_set_ne hpo]
      exact s.aimed p ((List.mem_cons.mp hp).resolve_left hpo)
  · intro p hp d hd
    by_cases hpo : p = o
    · subst hpo
      rw [hc, Option.some.injEq] at hd
      subst hd
      exact ⟨c', hself, rfl⟩
    · exact ⟨d, by rw [Heap.get_set_ne hpo]; exact hd, rfl⟩

theorem release (s : Sound h (o :: refs)) : ∃ h', h.release o = some h' ∧ Sound h' refs ∧ Keeps h h' refs := by
  obtain ⟨c, hc⟩ := s.aimed o List.mem_cons_self
  have hcount := s.counted o c hc
  rw [List.count_cons_self] at hcount
  let x : Option (Cell α) := if c.count = 1 then none else some { c with count := c.count - 1 }
  have hself : (h.set o x).get o = x := Heap.get_set_self hc x
  -- a cell that is freed has no reference left
  have hlast : c.count = 1 → o ∉ refs := by
    intro hone ho
    have := List.count_pos_iff.mpr ho
    omega
  have hkeeps : Keeps h (h.set o x) refs := by
    intro p hp d hd
    by_cases hpo : p = o
    · subst hpo
      rw [hc, Option.some.injEq] at hd
      subst hd
      refine ⟨{ c with count := c.count - 1 }, ?_, rfl⟩
      rw [hself]
      exact if_neg fun hone => hlast hone hp
    · exact ⟨d, by rw [Heap.get_set_ne hpo]; exact hd, rfl⟩
  refine ⟨h.set o x, by rw [Heap.release, hc]; rfl, ⟨?_, ?_⟩, hkeeps⟩
  · intro p d hd
    by_cases hpo : p = o
    · subst hpo
      rw [hself] at hd
      dsimp only [x] at hd
      split_ifs at hd with hone
      cases hd
      dsimp only
      omega
    · rw [Heap.get_set_ne hpo] at hd
      rw [s.counted p d hd, List.count_cons_of_ne (Ne.symm hpo)]
  · intro p hp
    obtain ⟨d, hd⟩ := s.aimed p (List.mem_cons_of_mem o hp)
    obtain ⟨d', hd', -⟩ := hkeeps p hp d hd
    exact ⟨d', hd'⟩

theorem write (s : Sound h (o :: refs)) (hone : o ∉ refs) (v : α) :
    ∃ h', h.write o v = some h' ∧ Sound h' (o :: refs) ∧ Keeps h h' refs ∧ ∃ c', h'.get o = some c' ∧ c'.value = v := by
  obtain ⟨c, hc⟩ := s.aimed o List.mem_cons_self
  let c' : Cell α := { c with value := v }
  have hself : (h.set o (some c')).get o = some c' := Heap.get_set_self hc _
  refine ⟨h.set o (some c'), by rw [Heap.write, hc]; rfl, ⟨?_, ?_⟩, ?_, c', hself, rfl⟩
  · intro p d hd
    by_cases hpo : p = o
    · subst hpo
      rw [hself, Option.some.injEq] at hd
      subst hd
      exact s.counted p c hc
    · rw [Heap.get_set_ne hpo] at hd
      exact s.counted p d hd
  · intro p hp
    by_cases hpo : p = o
    · subst hpo
      exact ⟨c', hself⟩
    · rw [Heap.get_set_ne hpo]
      exact s.aimed p hp
  · intro p hp d hd
    have hpo : p ≠ o := fun heq => hone (heq ▸ hp)
    exact ⟨d, by rw [Heap.get_set_ne hpo]; exact hd, rfl⟩

end Sound

theorem filterMap_set_perm {f : β → Option γ} {slots : List β} {i : ℕ} {u : β} (hu : slots[i]? = some u) (v : β) :
    ((f u).toList ++ (slots.set i v).filterMap f).Perm ((f v).toList ++ slots.filterMap f) := by
  obtain ⟨hi, rfl⟩ := List.getElem?_eq_some_iff.mp hu
  have hsplit : slots.filterMap f =
      (slots.take i).filterMap f ++ ((f slots[i]).toList ++ (slots.drop (i + 1)).filterMap f) := by
    conv_lhs => rw [← List.take_append_drop i slots, List.drop_eq_getElem_cons hi]
    rw [List.filterMap_append, List.filterMap_cons]
    cases f slots[i] <;> rfl
  have hsplit' : (slots.set i v).filterMap f =
      (slots.take i).filterMap f ++ ((f v).toList ++ (slots.drop (i + 1)).filterMap f) := by
    rw [List.set_eq_take_append_cons_drop, if_pos hi, List.filterMap_append, List.filterMap_cons]
    cases f v <;> rfl
  rw [hsplit, hsplit']
  apply ((List.perm_append_comm_assoc _ _ _).append_left _).trans
  apply (List.perm_append_comm_assoc _ _ _).trans
  exact (List.perm_append_comm_assoc _ _ _).append_left _

end PlinyCompute.CountedHeap
