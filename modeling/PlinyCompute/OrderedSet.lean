import Mathlib.Data.List.Infix
import Mathlib.Data.List.Nodup
import Mathlib.Data.List.Perm.Basic

namespace PlinyCompute.OrderedSet

variable {α σ : Type}

structure StrictWeakOn (less : α → α → Bool) (values : Set α) : Prop where
  irrefl : ∀ a ∈ values, less a a = false
  asymm : ∀ a ∈ values, ∀ b ∈ values, less a b = true → less b a = false
  trans : ∀ a ∈ values, ∀ b ∈ values, ∀ c ∈ values, less a b = true → less b c = true → less a c = true
  incomparable : ∀ a ∈ values, ∀ b ∈ values, ∀ c ∈ values, less a b = false → less b a = false →
    less b c = false → less c b = false → less a c = false ∧ less c a = false

theorem StrictWeakOn.mono {less : α → α → Bool} {values values' : Set α} (h : StrictWeakOn less values)
    (hs : ∀ a ∈ values', a ∈ values) : StrictWeakOn less values' :=
  ⟨fun a ha => h.irrefl a (hs a ha), fun a ha b hb => h.asymm a (hs a ha) b (hs b hb),
    fun a ha b hb c hc => h.trans a (hs a ha) b (hs b hb) c (hs c hc),
    fun a ha b hb c hc => h.incomparable a (hs a ha) b (hs b hb) c (hs c hc)⟩

def Sorted (less : α → α → Bool) (values : List α) : Prop := values.Pairwise fun a b => less a b = true

structure Container (α σ : Type) where
  empty : σ
  values : σ → List α
  insert : α → σ → σ
  eraseFirst : σ → σ

structure Container.Specified (C : Container α σ) (less : α → α → Bool) : Prop where
  empty : C.values C.empty = []
  insertNew : ∀ x q, StrictWeakOn less {y | y ∈ x :: C.values q} → Sorted less (C.values q) →
    (∀ y ∈ C.values q, less x y = true ∨ less y x = true) →
      Sorted less (C.values (C.insert x q)) ∧ (C.values (C.insert x q)).Perm (x :: C.values q)
  insertOld : ∀ x q, StrictWeakOn less {y | y ∈ x :: C.values q} → Sorted less (C.values q) →
    (∃ y ∈ C.values q, less x y = false ∧ less y x = false) → C.values (C.insert x q) = C.values q
  eraseFirst : ∀ x rest q, StrictWeakOn less {y | y ∈ C.values q} → Sorted less (C.values q) →
    C.values q = x :: rest → C.values (C.eraseFirst q) = rest

inductive Op (α : Type)
  | insert (x : α)
  | take
  deriving DecidableEq, Repr

section

variable [DecidableEq α] (C : Container α σ)

def Container.step (s : σ × List α) : Op α → σ × List α
  | .insert x => (C.insert x s.1, s.2.insert x)
  | .take =>
    match C.values s.1 with
    | [] => s
    | x :: _ => (C.eraseFirst s.1, s.2.erase x)

def Container.run (ops : List (Op α)) : σ × List α := ops.foldl C.step (C.empty, [])

structure Container.Exact (less : α → α → Bool) (s : σ × List α) : Prop where
  ordered : StrictWeakOn less {x | x ∈ s.2}
  sorted : Sorted less (C.values s.1)
  perm : (C.values s.1).Perm s.2
  nodup : s.2.Nodup

def Separates (less : α → α → Bool) (values : Set α) : Prop :=
  ∀ a ∈ values, ∀ b ∈ values, less a b = false → less b a = false → a = b

variable {C} {less : α → α → Bool}

theorem Container.run_append (ops : List (Op α)) (op : Op α) : C.run (ops ++ [op]) = C.step (C.run ops) op := by
  rw [run, run, List.foldl_append]
  rfl

theorem Container.Exact.insert (hC : C.Specified less) {s : σ × List α} (h : C.Exact less s) {x : α}
    (ho : StrictWeakOn less {y | y ∈ s.2.insert x}) (hs : Separates less {y | y ∈ s.2.insert x}) :
    C.Exact less (C.step s (.insert x)) := by
  have hmem : ∀ y ∈ x :: C.values s.1, y ∈ s.2.insert x := by
    intro y hy
    rw [List.mem_insert_iff]
    rcases List.mem_cons.mp hy with rfl | hy
    · exact .inl rfl
    · exact .inr (h.perm.subset hy)
  have ho' : StrictWeakOn less {y | y ∈ x :: C.values s.1} := ho.mono hmem
  have hx : x ∈ s.2.insert x := List.mem_insert_self
  by_cases hxs : x ∈ s.2
  · have hirrefl := ho.irrefl x hx
    have hsame := hC.insertOld x s.1 ho' h.sorted ⟨x, h.perm.symm.subset hxs, hirrefl, hirrefl⟩
    refine ⟨ho, ?_, ?_, ?_⟩
    · exact hsame ▸ h.sorted
    · rw [step, hsame, List.insert_of_mem hxs]
      exact h.perm
    · exact h.nodup.insert
  · have hnew : ∀ y ∈ C.values s.1, less x y = true ∨ less y x = true := by
      intro y hy
      by_contra hno
      rw [not_or, Bool.not_eq_true, Bool.not_eq_true] at hno
      have hxy := hs x hx y (hmem y (List.mem_cons_of_mem _ hy)) hno.1 hno.2
      exact hxs (hxy ▸ h.perm.subset hy)
    obtain ⟨hsorted, hperm⟩ := hC.insertNew x s.1 ho' h.sorted hnew
    refine ⟨ho, hsorted, ?_, h.nodup.insert⟩
    rw [step, List.insert_of_not_mem hxs]
    exact hperm.trans (h.perm.cons x)

theorem Container.Exact.take (hC : C.Specified less) {s : σ × List α} (h : C.Exact less s) :
    C.Exact less (C.step s .take) := by
  unfold step
  dsimp only
  cases hv : C.values s.1 with
  | nil => exact h
  | cons x rest =>
    have ho : StrictWeakOn less {y | y ∈ C.values s.1} := h.ordered.mono fun y hy => h.perm.subset hy
    have hrest := hC.eraseFirst x rest s.1 ho h.sorted hv
    have hsorted := h.sorted
    have hperm := h.perm
    rw [hv] at hsorted hperm
    refine ⟨h.ordered.mono fun y hy => List.mem_of_mem_erase hy, ?_, ?_, h.nodup.erase x⟩
    · rw [hrest]
      exact hsorted.of_cons
    · rw [hrest]
      simpa using hperm.erase x

theorem Container.exact_of_run (hC : C.Specified less) (ops : List (Op α))
    (h : ∀ done, done <+: ops → StrictWeakOn less {x | x ∈ (C.run done).2} ∧ Separates less {x | x ∈ (C.run done).2}) :
    C.Exact less (C.run ops) := by
  induction ops using List.reverseRecOn with
  | nil =>
    refine ⟨(h [] (List.prefix_refl _)).1, ?_, ?_, List.nodup_nil⟩
    · rw [run, List.foldl_nil, hC.empty]
      exact List.Pairwise.nil
    · rw [run, List.foldl_nil, hC.empty]
  | append_singleton ops op ih =>
    have hbefore := ih fun done hd => h done (hd.trans (List.prefix_append _ _))
    obtain ⟨ho, hs⟩ := h _ (List.prefix_refl _)
    rw [run_append] at ho hs ⊢
    cases op with
    | insert x => exact hbefore.insert hC ho hs
    | take => exact hbefore.take hC

omit [DecidableEq α] in
theorem Container.Exact.first {s : σ × List α} (h : C.Exact less s) {x : α} {rest : List α}
    (hx : C.values s.1 = x :: rest) : ∀ y ∈ s.2, y = x ∨ less x y = true := by
  intro y hy
  have hsorted := h.sorted
  have hy' := h.perm.symm.subset hy
  rw [hx] at hsorted hy'
  rcases List.mem_cons.mp hy' with hy' | hy'
  · exact .inl hy'
  · exact .inr (List.rel_of_pairwise_cons hsorted hy')

end

end PlinyCompute.OrderedSet
