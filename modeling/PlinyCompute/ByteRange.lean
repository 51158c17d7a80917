import Mathlib.Algebra.Order.Ring.Nat

namespace PlinyCompute.ByteRange

variable {a b n m N : ℕ}

def Apart (a n b m : ℕ) : Prop := a + n ≤ b ∨ b + m ≤ a

theorem Apart.symm (h : Apart a n b m) : Apart b m a n := Or.symm h

theorem Apart.ne {i j : ℕ} (h : Apart a n b m) (hi : i < n) (hj : j < m) : a + i ≠ b + j := by
  unfold Apart at h
  omega

theorem apart_of_dvd (ha : n ∣ a) (hb : n ∣ b) (hab : a ≠ b) : Apart a n b n := by
  obtain ⟨i, rfl⟩ := ha
  obtain ⟨j, rfl⟩ := hb
  have hij : i ≠ j := fun h => hab (by rw [h])
  rcases Nat.lt_or_gt_of_ne hij with h | h
  · exact Or.inl (by rw [← Nat.mul_succ]; exact Nat.mul_le_mul_left n h)
  · exact Or.inr (by rw [← Nat.mul_succ]; exact Nat.mul_le_mul_left n h)

theorem add_le_block_end (hN : n ∣ N) (ha : n ∣ a) (hpos : 0 < N) : a + n ≤ a / N * N + N := by
  have hlt : a < a / N * N + N := by
    have := Nat.div_add_mod' a N
    have := Nat.mod_lt a hpos
    omega
  have hd : n ∣ a / N * N + N := Nat.dvd_add (Dvd.dvd.mul_left hN _) hN
  obtain ⟨i, rfl⟩ := ha
  obtain ⟨j, hj⟩ := hd
  rw [hj] at hlt ⊢
  rw [← Nat.mul_succ]
  exact Nat.mul_le_mul_left n (Nat.lt_of_mul_lt_mul_left hlt)

theorem block_le (a N : ℕ) : a / N * N ≤ a := Nat.div_mul_le_self a N

theorem apart_of_block_ne (ha : a + n ≤ a / N * N + N) (hb : b + m ≤ b / N * N + N)
    (hab : a / N * N ≠ b / N * N) : Apart a n b m := by
  have hA := block_le a N
  have hB := block_le b N
  have hN : Apart (a / N * N) N (b / N * N) N := apart_of_dvd (Nat.dvd_mul_left _ _) (Nat.dvd_mul_left _ _) hab
  unfold Apart at hN ⊢
  omega

section Chain

variable {size size' : ℕ → ℕ} {cs : List ℕ} {c x : ℕ}

def Chain (size : ℕ → ℕ) : ℕ → List ℕ → ℕ → Prop
  | a, [], b => a = b
  | a, c :: cs, b => c = a ∧ Chain size (a + size c) cs b

theorem Chain.le (h : Chain size a cs b) : a ≤ b := by
  induction cs generalizing a with
  | nil => exact h.le
  | cons c cs ih =>
    have := ih h.2
    omega

theorem Chain.inside (h : Chain size a cs b) (hc : c ∈ cs) : a ≤ c ∧ c + size c ≤ b := by
  induction cs generalizing a with
  | nil => simp at hc
  | cons d cs ih =>
    obtain ⟨rfl, h⟩ := h
    obtain rfl | hc := List.mem_cons.mp hc
    · exact ⟨Nat.le_refl _, h.le⟩
    · have := ih h hc
      omega

theorem Chain.pairwise (h : Chain size a cs b) :
    cs.Pairwise fun c d => Apart c (size c) d (size d) := by
  induction cs generalizing a with
  | nil => exact List.Pairwise.nil
  | cons c cs ih =>
    obtain ⟨rfl, h⟩ := h
    apply List.Pairwise.cons
    · intro d hd
      exact Or.inl (h.inside hd).1
    · exact ih h

theorem Chain.covers (h : Chain size a cs b) (ha : a ≤ x) (hb : x < b) :
    ∃ c ∈ cs, c ≤ x ∧ x < c + size c := by
  induction cs generalizing a with
  | nil =>
    have : a = b := h
    omega
  | cons c cs ih =>
    obtain ⟨rfl, h⟩ := h
    by_cases hx : x < c + size c
    · exact ⟨c, List.mem_cons_self, ha, hx⟩
    · obtain ⟨d, hd, hdx⟩ := ih h (Nat.le_of_not_lt hx)
      exact ⟨d, List.mem_cons_of_mem _ hd, hdx⟩

theorem Chain.congr (h : Chain size a cs b) (hs : ∀ c ∈ cs, size' c = size c) : Chain size' a cs b := by
  induction cs generalizing a with
  | nil => exact h
  | cons c cs ih =>
    refine ⟨h.1, ?_⟩
    rw [hs c List.mem_cons_self]
    exact ih h.2 fun d hd => hs d (List.mem_cons_of_mem _ hd)

theorem Chain.snoc (h : Chain size a cs b) : Chain size a (cs ++ [b]) (b + size b) := by
  induction cs generalizing a with
  | nil =>
    obtain rfl : a = b := h
    exact ⟨rfl, rfl⟩
  | cons c cs ih => exact ⟨h.1, ih h.2⟩

end Chain

section Search

variable {β : Type} {lo hi : β → ℕ} {l : List β} {r : β} {x : ℕ}

theorem find?_range (hsorted : l.Pairwise fun r s => hi r < hi s) (hapart : l.Pairwise fun r s => hi r ≤ lo s ∨ hi s ≤ lo r)
    (hle : ∀ r ∈ l, lo r ≤ hi r) (hr : r ∈ l) (hlo : lo r < x) (hhi : x ≤ hi r) :
    l.find? (fun r => !decide (hi r < x)) = some r := by
  induction l with
  | nil => simp at hr
  | cons s l ih =>
    obtain ⟨hs, hsorted⟩ := List.pairwise_cons.mp hsorted
    obtain ⟨ha, hapart⟩ := List.pairwise_cons.mp hapart
    obtain rfl | hr := List.mem_cons.mp hr
    · apply List.find?_cons_of_pos
      simpa using hhi
    · have hbefore : hi s < x := by
        have := hs r hr
        have := ha r hr
        have := hle s List.mem_cons_self
        omega
      rw [List.find?_cons_of_neg (by simpa using hbefore)]
      exact ih hsorted hapart (fun r hr => hle r (List.mem_cons_of_mem _ hr)) hr

end Search

end PlinyCompute.ByteRange
