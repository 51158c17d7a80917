import PlinyCompute.OrderedSet
import PlinyCompute.PhysicalSchedule

namespace PlinyCompute.PhysicalOptimizer

open LogicalPlan PipeBuilder Transition OrderedSet

def getNodeIdentifier (id : ℕ) : Text := "node_".toList ++ Nat.toDigits 10 id

def optimizerLess (lhs rhs : ℕ × ℕ) : Bool :=
  if lhs.1 ≠ rhs.1 then lhs.1 < rhs.1
  else getNodeIdentifier lhs.2 ≠ getNodeIdentifier rhs.2

def NoTies (sources : Set (ℕ × ℕ)) : Prop := ∀ a ∈ sources, ∀ b ∈ sources, a.1 = b.1 → a.2 = b.2

theorem getNodeIdentifier_inj {v w : ℕ} : getNodeIdentifier v = getNodeIdentifier w ↔ v = w := by
  constructor
  · intro h
    have hd : Nat.toDigits 10 v = Nat.toDigits 10 w := List.append_cancel_left h
    have hv := Nat.ofDigitChars_toDigits (b := 10) (n := v) (by decide) (by decide)
    have hw := Nat.ofDigitChars_toDigits (b := 10) (n := w) (by decide) (by decide)
    rw [← hv, ← hw, hd]
  · exact fun h => h ▸ rfl

theorem optimizerLess_iff (a b : ℕ × ℕ) : optimizerLess a b = true ↔ a.1 < b.1 ∨ a.1 = b.1 ∧ a.2 ≠ b.2 := by
  unfold optimizerLess
  by_cases h : a.1 = b.1
  · simp [h, getNodeIdentifier_inj]
  · simp [h]

theorem optimizerLess_false (a b : ℕ × ℕ) : optimizerLess a b = false ↔ b.1 < a.1 ∨ a = b := by
  rw [← Bool.not_eq_true, optimizerLess_iff, Prod.ext_iff]
  omega

theorem separates (sources : Set (ℕ × ℕ)) : Separates optimizerLess sources := by
  intro a _ b _ hab hba
  rw [optimizerLess_false] at hab hba
  rcases hab with hab | hab
  · rcases hba with hba | hba
    · omega
    · exact hba.symm
  · exact hab

theorem strictWeakOn_iff (sources : Set (ℕ × ℕ)) : StrictWeakOn optimizerLess sources ↔ NoTies sources := by
  constructor
  · intro h a ha b hb hcost
    by_contra hne
    have hab := h.asymm a ha b hb ((optimizerLess_iff a b).mpr (.inr ⟨hcost, hne⟩))
    have hba := (optimizerLess_iff b a).mpr (.inr ⟨hcost.symm, fun he => hne he.symm⟩)
    rw [hab] at hba
    cases hba
  · intro h
    have hless : ∀ a ∈ sources, ∀ b ∈ sources, (optimizerLess a b = true ↔ a.1 < b.1) := by
      intro a ha b hb
      rw [optimizerLess_iff]
      have := h a ha b hb
      omega
    have hnot : ∀ a ∈ sources, ∀ b ∈ sources, (optimizerLess a b = false ↔ b.1 ≤ a.1) := by
      intro a ha b hb
      rw [← Bool.not_eq_true, hless a ha b hb, not_lt]
    constructor
    · intro a ha
      exact (hnot a ha a ha).mpr le_rfl
    · intro a ha b hb hab
      rw [hless a ha b hb] at hab
      exact (hnot b hb a ha).mpr hab.le
    · intro a ha b hb c hc hab hbc
      rw [hless a ha b hb] at hab
      rw [hless b hb c hc] at hbc
      exact (hless a ha c hc).mpr (hab.trans hbc)
    · intro a ha b hb c hc hab hba hbc hcb
      rw [hnot a ha b hb] at hab
      rw [hnot b hb a ha] at hba
      rw [hnot b hb c hc] at hbc
      rw [hnot c hc b hb] at hcb
      exact ⟨(hnot a ha c hc).mpr (hbc.trans hab), (hnot c hc a ha).mpr (hba.trans hcb)⟩

structure HoldsSources {σ : Type} (C : Container (ℕ × ℕ) σ) (s : σ × List (ℕ × ℕ)) : Prop where
  exact : C.Exact optimizerLess s
  least : ∀ x rest, C.values s.1 = x :: rest → ∀ y ∈ s.2, x.1 ≤ y.1

theorem sourceQueue_iff {σ : Type} (C : Container (ℕ × ℕ) σ) (hC : C.Specified optimizerLess) :
    (∀ sources, StrictWeakOn optimizerLess sources ↔ NoTies sources) ∧
    ∀ ops, (∀ done, done <+: ops → HoldsSources C (C.run done)) ↔
      ∀ done, done <+: ops → NoTies {x | x ∈ (C.run done).2} := by
  refine ⟨strictWeakOn_iff, fun ops => ⟨?_, ?_⟩⟩
  · intro h done hdone
    exact (strictWeakOn_iff _).mp (h done hdone).exact.ordered
  · intro h done hdone
    have hexact : C.Exact optimizerLess (C.run done) := by
      apply Container.exact_of_run hC
      intro done' hdone'
      exact ⟨(strictWeakOn_iff _).mpr (h done' (hdone'.trans hdone)), separates _⟩
    refine ⟨hexact, ?_⟩
    intro x rest hx y hy
    rcases hexact.first hx y hy with rfl | hless
    · exact le_rfl
    · rw [optimizerLess_iff] at hless
      omega

local instance lawfulBEqPair : LawfulBEq (ℕ × ℕ) := inferInstance

def sourceSet : Container (ℕ × ℕ) (List (ℕ × ℕ)) where
  empty := []
  values := id
  insert x sources := if x ∈ sources then sources else insertSource x.1 x.2 sources
  eraseFirst := List.tail

theorem sorted_insertSource {x : ℕ × ℕ} {sources : List (ℕ × ℕ)} (hs : Sorted optimizerLess sources)
    (hno : NoTies {y | y ∈ x :: sources}) (hx : x ∉ sources) : Sorted optimizerLess (insertSource x.1 x.2 sources) := by
  induction sources with
  | nil => exact List.pairwise_singleton _ _
  | cons y sources ih =>
    obtain ⟨hy, hs'⟩ := List.pairwise_cons.mp hs
    rw [List.mem_cons, not_or] at hx
    have hne : x.1 ≠ y.1 := fun he => hx.1 (Prod.ext he (hno x (by simp) y (by simp) he))
    rw [insertSource]
    split_ifs with hlt
    · apply List.pairwise_cons.mpr
      refine ⟨?_, ih hs' (fun a ha b hb => hno a ?_ b ?_) hx.2⟩
      · intro z hz
        rcases List.mem_cons.mp ((insertSource_perm x.1 x.2 sources).subset hz) with rfl | hz
        · exact (optimizerLess_iff _ _).mpr (.inl hlt)
        · exact hy z hz
      · rcases List.mem_cons.mp ha with rfl | ha
        · simp
        · simp [show a ∈ sources from ha]
      · rcases List.mem_cons.mp hb with rfl | hb
        · simp
        · simp [show b ∈ sources from hb]
    · apply List.pairwise_cons.mpr
      refine ⟨?_, hs⟩
      intro z hz
      apply (optimizerLess_iff _ _).mpr
      left
      rcases List.mem_cons.mp hz with rfl | hz
      · exact lt_of_le_of_ne (not_lt.mp hlt) hne
      · have hyz := hy z hz
        rw [optimizerLess_iff] at hyz
        have := hno y (by simp) z (by simp [hz])
        dsimp only
        omega

theorem sourceSet_specified : sourceSet.Specified optimizerLess := by
  constructor
  · rfl
  · intro x q ho hs hnew
    have hx : x ∉ q := by
      intro hx
      have hirrefl := ho.irrefl x (by simp)
      rcases hnew x hx with h | h
      all_goals
        rw [hirrefl] at h
        cases h
    change Sorted optimizerLess (if x ∈ q then q else insertSource x.1 x.2 q) ∧
      (if x ∈ q then q else insertSource x.1 x.2 q).Perm (x :: q)
    rw [if_neg hx]
    exact ⟨sorted_insertSource hs ((strictWeakOn_iff _).mp ho) hx, insertSource_perm x.1 x.2 q⟩
  · rintro x q - - ⟨y, hy, hxy, hyx⟩
    have heq : x = y := separates Set.univ x trivial y trivial hxy hyx
    exact if_pos (heq ▸ hy)
  · intro x rest q _ _ hq
    change q.tail = rest
    rw [show q = x :: rest from hq]
    rfl

theorem sourceQueue_scans :
    HoldsSources sourceSet (sourceSet.run [.insert (10, 0), .insert (7, 1), .take, .insert (0, 2)]) := by
  refine ((sourceQueue_iff sourceSet sourceSet_specified).2 _).mpr ?_ _ (List.prefix_refl _)
  have hno : ∀ done ∈ ([.insert (10, 0), .insert (7, 1), .take, .insert (0, 2)] : List (Op (ℕ × ℕ))).inits,
      ∀ a ∈ (sourceSet.run done).2, ∀ b ∈ (sourceSet.run done).2, a.1 = b.1 → a.2 = b.2 := by decide
  exact fun done hd => hno done ((List.mem_inits _ _).mpr hd)

theorem not_sourceQueue_scans : ∃ graph, generateAnalyzerGraph joinUnionPlan = .ok graph ∧
    (Optimizer.create graph fun _ => 1).sources = (sourceSet.run [.insert (1, 0), .insert (1, 3), .insert (1, 4)]).1 ∧
    ¬ StrictWeakOn optimizerLess {x | x ∈ (Optimizer.create graph fun _ => 1).sources} ∧
    ¬ HoldsSources sourceSet (sourceSet.run [.insert (1, 0), .insert (1, 3), .insert (1, 4)]) := by
  have hrun : (match generateAnalyzerGraph joinUnionPlan with
      | .ok graph => decide ((Optimizer.create graph fun _ => 1).sources =
          (sourceSet.run [.insert (1, 0), .insert (1, 3), .insert (1, 4)]).1)
      | .error _ => false) = true := by decide +kernel
  cases hg : generateAnalyzerGraph joinUnionPlan with
  | error e => simp [hg] at hrun
  | ok graph =>
    rw [hg] at hrun
    have hsources := of_decide_eq_true hrun
    have hnot : ∀ sources : List (ℕ × ℕ), (1, 0) ∈ sources → (1, 3) ∈ sources →
        ¬ StrictWeakOn optimizerLess {x | x ∈ sources} := by
      intro sources h0 h1 h
      have := (strictWeakOn_iff _).mp h (1, 0) h0 (1, 3) h1 rfl
      cases this
    refine ⟨graph, rfl, hsources, ?_, fun h => ?_⟩
    · rw [hsources]
      exact hnot _ (by decide) (by decide)
    · exact hnot _ (by decide) (by decide) h.exact.ordered

end PlinyCompute.PhysicalOptimizer
