import Mathlib.Data.List.Nodup
import Mathlib.Data.Set.Insert

namespace PlinyCompute.NumberPool

variable {H : Type}

structure Pool (H : Type) where
  free : List ℕ
  last : ℕ
  holds : Set (H × ℕ)

variable {P P' : Pool H} {p : H} {n : ℕ}

inductive Kept (P : Pool H) : Pool H → Prop
  | stay : Kept P P
  | new (p : H) : P.free = [] →
      Kept P { free := [], last := P.last + 1, holds := insert (p, P.last + 1) P.holds }
  | reuse (p : H) {free : List ℕ} {n : ℕ} : P.free = free ++ [n] →
      Kept P { P with free := free, holds := insert (p, n) P.holds }
  | giveBack (p : H) {n : ℕ} : (p, n) ∈ P.holds →
      Kept P { P with free := P.free ++ [n], holds := P.holds \ {(p, n)} }

theorem Kept.of_eq (h : P' = P) : Kept P P' := by
  rw [h]
  exact .stay

structure Lost (P P' : Pool H) : Prop where
  free : P'.free = P.free
  last : P'.last = P.last
  holds : P'.holds ⊆ P.holds

structure Sound (P : Pool H) : Prop where
  nodup : P.free.Nodup
  free : ∀ n ∈ P.free, 1 ≤ n ∧ n ≤ P.last
  held : ∀ x ∈ P.holds, 1 ≤ x.2 ∧ x.2 ≤ P.last
  notFree : ∀ x ∈ P.holds, x.2 ∉ P.free
  unique : ∀ x ∈ P.holds, ∀ y ∈ P.holds, x.2 = y.2 → x = y

def Full (P : Pool H) : Prop :=
  ∀ n, 1 ≤ n → n ≤ P.last → n ∈ P.free ∨ ∃ p, (p, n) ∈ P.holds

theorem Sound.insert_unique (h : Sound P) (hn : ∀ x ∈ P.holds, x.2 ≠ n) :
    ∀ x ∈ insert (p, n) P.holds, ∀ y ∈ insert (p, n) P.holds, x.2 = y.2 → x = y := by
  rintro x (rfl | hx) y (rfl | hy) hxy
  · rfl
  · exact absurd hxy.symm (hn y hy)
  · exact absurd hxy (hn x hx)
  · exact h.unique x hx y hy hxy

theorem Sound.kept (h : Sound P) (hk : Kept P P') : Sound P' := by
  cases hk with
  | stay => exact h
  | new p hf =>
    have hlast : ∀ x ∈ P.holds, x.2 ≠ P.last + 1 := by
      intro x hx hxn
      have := h.held x hx
      omega
    refine ⟨List.nodup_nil, by simp, ?_, by simp, h.insert_unique hlast⟩
    rintro x (rfl | hx)
    · exact ⟨Nat.le_add_left 1 P.last, le_rfl⟩
    · exact (h.held x hx).imp_right Nat.le_succ_of_le
  | @reuse p free n hf =>
    have hn : n ∈ P.free := by simp [hf]
    have hnodup := h.nodup
    rw [hf] at hnodup
    have hsub : ∀ m ∈ free, m ∈ P.free := by
      intro m hm
      simp [hf, hm]
    have hnot : n ∉ free := fun hm => (List.nodup_append.mp hnodup).2.2 n hm n (by simp) rfl
    refine ⟨(List.nodup_append.mp hnodup).1, fun m hm => h.free m (hsub m hm), ?_, ?_, ?_⟩
    · rintro x (rfl | hx)
      · exact h.free n hn
      · exact h.held x hx
    · rintro x (rfl | hx)
      · exact hnot
      · exact fun hm => h.notFree x hx (hsub _ hm)
    · apply h.insert_unique
      intro x hx hxn
      exact h.notFree x hx (hxn ▸ hn)
  | @giveBack p n hp =>
    have hn := h.notFree _ hp
    refine ⟨?_, ?_, fun x hx => h.held x hx.1, ?_, fun x hx y hy => h.unique x hx.1 y hy.1⟩
    · apply h.nodup.append (List.nodup_singleton n)
      rw [List.disjoint_singleton]
      exact hn
    · intro m hm
      rcases List.mem_append.mp hm with hm | hm
      · exact h.free m hm
      · obtain rfl := List.mem_singleton.mp hm
        exact h.held _ hp
    · rintro x ⟨hx, hne⟩ hm
      rcases List.mem_append.mp hm with hm | hm
      · exact h.notFree x hx hm
      · exact hne (h.unique x hx _ hp (List.mem_singleton.mp hm))

theorem Sound.lost (h : Sound P) (hl : Lost P P') : Sound P' := by
  obtain ⟨hf, hlast, hsub⟩ := hl
  refine ⟨?_, ?_, ?_, ?_, ?_⟩
  · rw [hf]
    exact h.nodup
  · rw [hf, hlast]
    exact h.free
  · rw [hlast]
    exact fun x hx => h.held x (hsub hx)
  · rw [hf]
    exact fun x hx => h.notFree x (hsub hx)
  · exact fun x hx y hy => h.unique x (hsub hx) y (hsub hy)

theorem Full.kept (h : Full P) (hk : Kept P P') : Full P' := by
  cases hk with
  | stay => exact h
  | new p hf =>
    intro n h1 hn
    dsimp only at hn ⊢
    by_cases hlast : n = P.last + 1
    · exact .inr ⟨p, .inl (by rw [hlast])⟩
    · rcases h n h1 (by omega) with hm | ⟨q, hq⟩
      · rw [hf] at hm
        cases hm
      · exact .inr ⟨q, .inr hq⟩
  | @reuse p free m hf =>
    intro n h1 hn
    rcases h n h1 hn with hm | ⟨q, hq⟩
    · rw [hf] at hm
      rcases List.mem_append.mp hm with hm | hm
      · exact .inl hm
      · exact .inr ⟨p, .inl (by rw [List.mem_singleton.mp hm])⟩
    · exact .inr ⟨q, .inr hq⟩
  | @giveBack p m hp =>
    intro n h1 hn
    rcases h n h1 hn with hm | ⟨q, hq⟩
    · exact .inl (List.mem_append_left _ hm)
    · by_cases hqm : (q, n) = (p, m)
      · cases hqm
        exact .inl (by simp)
      · exact .inr ⟨q, hq, hqm⟩

theorem Sound.split (h : Sound P) (hf : Full P) (h1 : 1 ≤ n) (hn : n ≤ P.last) :
    ((∃! p, (p, n) ∈ P.holds) ∧ n ∉ P.free) ∨ (P.free.count n = 1 ∧ ∀ p, (p, n) ∉ P.holds) := by
  rcases hf n h1 hn with hm | ⟨p, hp⟩
  · exact .inr ⟨List.count_eq_one_of_mem h.nodup hm, fun p hp => h.notFree _ hp hm⟩
  · refine .inl ⟨⟨p, hp, fun q hq => ?_⟩, h.notFree _ hp⟩
    exact congrArg Prod.fst (h.unique _ hq _ hp rfl)

end PlinyCompute.NumberPool
