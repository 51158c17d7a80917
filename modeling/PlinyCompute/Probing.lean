import Mathlib.Data.List.ReduceOption
import Mathlib.Data.Nat.Find
import Mathlib.Data.Nat.ModEq
import Mathlib.Data.List.Perm.Basic

namespace PlinyCompute.Probing

variable {ε κ : Type}

/-- The linear search of an open addressing table: it stops at an empty slot or at a hit, starts again at
the beginning behind the last slot, and gives up after `fuel` slots. -/
def probe (hit : ε → Bool) (data : List (Option ε)) : ℕ → ℕ → Option ℕ
  | 0, _ => none
  | fuel + 1, slot =>
    match data[slot]? with
    | none => none
    | some none => some slot
    | some (some e) =>
      if hit e then some slot
      else probe hit data fuel (if slot = data.length - 1 then 0 else slot + 1)

structure Placed (home : ℕ → κ → ℕ) (key : ε → κ) (data : List (Option ε)) : Prop where
  free : none ∈ data
  path : ∀ (s : ℕ) (e : ε), data[s]? = some (some e) → ∃ j < data.length,
    s = (home data.length (key e) + j) % data.length ∧
      ∀ i < j, ∃ f, data[(home data.length (key e) + i) % data.length]? = some (some f)
  inj : ∀ (s t : ℕ) (e f : ε), data[s]? = some (some e) → data[t]? = some (some f) → key e = key f → s = t

theorem eq_of_add_mod_eq {a i j n : ℕ} (hi : i < n) (hj : j < n) (h : (a + i) % n = (a + j) % n) :
    i = j := by
  have hm : i ≡ j [MOD n] := Nat.ModEq.add_left_cancel' a h
  exact Nat.ModEq.eq_of_lt_of_lt hm hi hj

theorem wrap_eq_mod {slot n : ℕ} (h : slot < n) :
    (if slot = n - 1 then 0 else slot + 1) = (slot + 1) % n := by
  split_ifs with hs
  · rw [hs, Nat.sub_add_cancel (by omega), Nat.mod_self]
  · rw [Nat.mod_eq_of_lt (by omega)]

theorem probe_of_passes {hit : ε → Bool} {data : List (Option ε)} {slot j fuel : ℕ}
    (hs : slot < data.length) (hj : j < fuel)
    (hp : ∀ i < j, ∃ e, data[(slot + i) % data.length]? = some (some e) ∧ hit e = false)
    (hstop : data[(slot + j) % data.length]? = some none ∨
      ∃ e, data[(slot + j) % data.length]? = some (some e) ∧ hit e = true) :
    probe hit data fuel slot = some ((slot + j) % data.length) := by
  induction j generalizing slot fuel with
  | zero =>
    obtain ⟨fuel, rfl⟩ := Nat.exists_eq_succ_of_ne_zero (Nat.ne_of_gt hj)
    rw [Nat.add_zero, Nat.mod_eq_of_lt hs] at hstop ⊢
    obtain hd | ⟨e, hd, he⟩ := hstop
    · simp [probe, hd]
    · simp [probe, hd, he]
  | succ j ih =>
    obtain ⟨fuel, rfl⟩ := Nat.exists_eq_succ_of_ne_zero (Nat.ne_of_gt (Nat.zero_lt_of_lt hj))
    obtain ⟨e, hd, he⟩ := hp 0 (Nat.succ_pos j)
    rw [Nat.add_zero, Nat.mod_eq_of_lt hs] at hd
    have hshift (i : ℕ) : ((slot + 1) % data.length + i) % data.length = (slot + (i + 1)) % data.length := by
      rw [Nat.mod_add_mod]
      congr 1
      omega
    have hnext := ih (Nat.mod_lt (slot + 1) (Nat.zero_lt_of_lt hs)) (Nat.lt_of_succ_lt_succ hj)
      (by
        intro i hi
        rw [hshift]
        exact hp (i + 1) (Nat.succ_lt_succ hi))
      (by rwa [hshift])
    simp only [probe, hd, he, Bool.false_eq_true, if_false, wrap_eq_mod hs, hnext, hshift]

theorem exists_first {n home : ℕ} (stop : ℕ → Prop) (hb : home < n) (hstop : ∃ s < n, stop s) :
    ∃ j < n, stop ((home + j) % n) ∧ ∀ i < j, ¬stop ((home + i) % n) := by
  classical
  have hex : ∃ j, stop ((home + j) % n) := by
    obtain ⟨s, hlt, hs⟩ := hstop
    refine ⟨s + n - home, ?_⟩
    rwa [Nat.add_sub_cancel' (by omega), Nat.add_mod_right, Nat.mod_eq_of_lt hlt]
  refine ⟨Nat.find hex, ?_, Nat.find_spec hex, fun i hi => Nat.find_min hex hi⟩
  -- it lies within one round, because slots repeat after it
  by_contra hge
  apply Nat.find_min hex (m := Nat.find hex - n) (by omega)
  have hspec := Nat.find_spec hex
  rw [show Nat.find hex = Nat.find hex - n + n by omega, ← Nat.add_assoc, Nat.add_mod_right] at hspec
  exact hspec

theorem exists_probe (hit : ε → Bool) {data : List (Option ε)} {home : ℕ} (hb : home < data.length)
    (hfree : none ∈ data) : ∃ s, probe hit data data.length home = some s ∧
      (data[s]? = some none ∨ ∃ e, data[s]? = some (some e) ∧ hit e = true) := by
  obtain ⟨f, hf⟩ := List.mem_iff_getElem?.mp hfree
  obtain ⟨j, hj, hstop, hbefore⟩ := exists_first
    (fun s => data[s]? = some none ∨ ∃ e, data[s]? = some (some e) ∧ hit e = true) hb
    ⟨f, (List.getElem?_eq_some_iff.mp hf).1, .inl hf⟩
  refine ⟨_, probe_of_passes hb hj ?_ hstop, hstop⟩
  intro i hi
  have hpass := not_or.mp (hbefore i hi)
  have hin := Nat.mod_lt (home + i) (Nat.zero_lt_of_lt hb)
  rw [List.getElem?_eq_getElem hin] at hpass ⊢
  cases hd : data[(home + i) % data.length] with
  | none => exact absurd (congrArg some hd) hpass.1
  | some e =>
    refine ⟨e, rfl, ?_⟩
    by_contra hhit
    exact hpass.2 ⟨e, congrArg some hd, by simpa using hhit⟩

section Search

variable {home : ℕ → κ → ℕ} {key : ε → κ} {data : List (Option ε)} {hit : ε → Bool} {k : κ}

theorem Placed.probe_present (h : Placed home key data) (hb : home data.length k < data.length)
    (hhit : ∀ e, hit e = true ↔ key e = k) {s : ℕ} {e : ε} (hs : data[s]? = some (some e))
    (hk : key e = k) : probe hit data data.length (home data.length k) = some s := by
  obtain ⟨j, hj, rfl, hpath⟩ := h.path s e hs
  rw [hk] at hs hpath ⊢
  apply probe_of_passes hb hj
  · intro i hi
    obtain ⟨f, hf⟩ := hpath i hi
    refine ⟨f, hf, ?_⟩
    by_contra hne
    have hkf : key f = k := (hhit f).mp (by simpa using hne)
    have hij := eq_of_add_mod_eq (hi.trans hj) hj (h.inj _ _ f e hf hs (hkf.trans hk.symm))
    omega
  · exact Or.inr ⟨e, hs, (hhit e).mpr hk⟩

theorem Placed.probe_absent (h : Placed home key data) (hb : home data.length k < data.length)
    (hhit : ∀ e, hit e = true ↔ key e = k) (habs : ∀ e, some e ∈ data → key e ≠ k) :
    ∃ j < data.length,
      probe hit data data.length (home data.length k) = some ((home data.length k + j) % data.length) ∧
      data[(home data.length k + j) % data.length]? = some none ∧
      ∀ i < j, ∃ f, data[(home data.length k + i) % data.length]? = some (some f) := by
  obtain ⟨s, hs⟩ := List.mem_iff_getElem?.mp h.free
  obtain ⟨j, hj, hempty, hbefore⟩ := exists_first (fun s => data[s]? = some none) hb
    ⟨s, (List.getElem?_eq_some_iff.mp hs).1, hs⟩
  have hocc (i : ℕ) (hi : i < j) : ∃ f, data[(home data.length k + i) % data.length]? = some (some f) := by
    have hmin := hbefore i hi
    have hin := Nat.mod_lt (home data.length k + i) (Nat.zero_lt_of_lt hb)
    rw [List.getElem?_eq_getElem hin] at hmin ⊢
    cases hd : data[(home data.length k + i) % data.length] with
    | none => exact absurd (by rw [hd]) hmin
    | some f => exact ⟨f, rfl⟩
  refine ⟨j, hj, ?_, hempty, hocc⟩
  apply probe_of_passes hb hj
  · intro i hi
    obtain ⟨f, hf⟩ := hocc i hi
    refine ⟨f, hf, ?_⟩
    by_contra hne
    exact habs f (List.mem_of_getElem? hf) ((hhit f).mp (by simpa using hne))
  · exact Or.inl hempty

theorem Placed.insert (h : Placed home key data) (habs : ∀ e, some e ∈ data → key e ≠ k) {j : ℕ}
    (hj : j < data.length) (hocc : ∀ i < j, ∃ f, data[(home data.length k + i) % data.length]? = some (some f))
    (he : data[(home data.length k + j) % data.length]? = some none) {e : ε} (hk : key e = k)
    (hfree : none ∈ data.set ((home data.length k + j) % data.length) (some e)) :
    Placed home key (data.set ((home data.length k + j) % data.length) (some e)) := by
  have hin : (home data.length k + j) % data.length < data.length := (List.getElem?_eq_some_iff.mp he).1
  have hold {t : ℕ} {f : ε} (hf : data[t]? = some (some f)) :
      (data.set ((home data.length k + j) % data.length) (some e))[t]? = some (some f) := by
    rw [List.getElem?_set_ne _, hf]
    rintro rfl
    simp [he] at hf
  have hcases {t : ℕ} {f : ε}
      (hf : (data.set ((home data.length k + j) % data.length) (some e))[t]? = some (some f)) :
      (t = (home data.length k + j) % data.length ∧ f = e) ∨ data[t]? = some (some f) := by
    by_cases ht : (home data.length k + j) % data.length = t
    · subst ht
      rw [List.getElem?_set_self hin] at hf
      exact Or.inl ⟨rfl, by simpa using hf.symm⟩
    · rw [List.getElem?_set_ne ht] at hf
      exact Or.inr hf
  constructor
  · exact hfree
  · intro t f hf
    simp only [List.length_set]
    obtain ⟨rfl, rfl⟩ | hf := hcases hf
    · refine ⟨j, hj, by rw [hk], ?_⟩
      intro i hi
      obtain ⟨g, hg⟩ := hocc i hi
      exact ⟨g, hold (by rwa [hk])⟩
    · obtain ⟨i, hi, ht, hpath⟩ := h.path t f hf
      refine ⟨i, hi, ht, ?_⟩
      intro l hl
      obtain ⟨g, hg⟩ := hpath l hl
      exact ⟨g, hold hg⟩
  · intro s t f g hf hg hfg
    obtain ⟨rfl, rfl⟩ | hf' := hcases hf
    · obtain ⟨rfl, rfl⟩ | hg' := hcases hg
      · rfl
      · exact absurd (hfg.symm.trans hk) (habs g (List.mem_of_getElem? hg'))
    · obtain ⟨rfl, rfl⟩ | hg' := hcases hg
      · exact absurd (hfg.trans hk) (habs f (List.mem_of_getElem? hf'))
      · exact h.inj s t f g hf' hg' hfg

theorem Placed.replace (h : Placed home key data) {s : ℕ} {e f : ε} (hs : data[s]? = some (some e))
    (hk : key f = key e) : Placed home key (data.set s (some f)) := by
  have hin : s < data.length := (List.getElem?_eq_some_iff.mp hs).1
  have hkey {t : ℕ} {g : ε} (hg : (data.set s (some f))[t]? = some (some g)) :
      ∃ g', data[t]? = some (some g') ∧ key g' = key g := by
    by_cases ht : s = t
    · subst ht
      rw [List.getElem?_set_self hin] at hg
      exact ⟨e, hs, by rw [← hk, show f = g by simpa using hg]⟩
    · rw [List.getElem?_set_ne ht] at hg
      exact ⟨g, hg, rfl⟩
  have hocc {t : ℕ} {g : ε} (hg : data[t]? = some (some g)) :
      ∃ g', (data.set s (some f))[t]? = some (some g') := by
    by_cases ht : s = t
    · subst ht
      exact ⟨f, List.getElem?_set_self hin⟩
    · exact ⟨g, by rw [List.getElem?_set_ne ht, hg]⟩
  constructor
  · obtain ⟨t, ht⟩ := List.mem_iff_getElem?.mp h.free
    apply List.mem_iff_getElem?.mpr
    refine ⟨t, ?_⟩
    rw [List.getElem?_set_ne _, ht]
    rintro rfl
    simp [hs] at ht
  · intro t g hg
    simp only [List.length_set]
    obtain ⟨g', hg', hkg⟩ := hkey hg
    obtain ⟨j, hj, ht, hpath⟩ := h.path t g' hg'
    rw [hkg] at ht hpath
    refine ⟨j, hj, ht, ?_⟩
    intro i hi
    obtain ⟨g₁, hg₁⟩ := hpath i hi
    exact hocc hg₁
  · intro t u g₁ g₂ h₁ h₂ h₁₂
    obtain ⟨g₁', h₁', hk₁⟩ := hkey h₁
    obtain ⟨g₂', h₂', hk₂⟩ := hkey h₂
    exact h.inj t u g₁' g₂' h₁' h₂' (by rw [hk₁, hk₂, h₁₂])

theorem Placed.nodup (h : Placed home key data) : (data.reduceOption.map key).Nodup := by
  rw [List.Nodup, List.pairwise_map, List.reduceOption, List.pairwise_filterMap, List.pairwise_iff_getElem]
  intro i j hi hj hij e he f hf hk
  have hs := h.inj i j e f (by rw [List.getElem?_eq_getElem hi]; exact congrArg some he)
    (by rw [List.getElem?_eq_getElem hj]; exact congrArg some hf) hk
  omega

end Search

theorem placed_replicate (home : ℕ → κ → ℕ) (key : ε → κ) {n : ℕ} (hn : 0 < n) :
    Placed home key (List.replicate n (none : Option ε)) := by
  have hempty {s : ℕ} {e : ε} : (List.replicate n (none : Option ε))[s]? ≠ some (some e) := by
    rw [List.getElem?_replicate]
    split_ifs <;> simp
  constructor
  · exact List.mem_replicate.mpr ⟨Nat.ne_of_gt hn, rfl⟩
  · intro s e hs
    exact absurd hs hempty
  · intro s t e f hs _ _
    exact absurd hs hempty

theorem nodup_filterMap_iff {g : ε → Option κ} {data : List (Option ε)} :
    (data.reduceOption.filterMap g).Nodup ↔ ∀ (s t : ℕ) (e f : ε), data[s]? = some (some e) →
      data[t]? = some (some f) → ∀ i ∈ g e, i ∈ g f → s = t := by
  rw [List.Nodup, List.pairwise_filterMap, List.reduceOption, List.pairwise_filterMap,
    List.pairwise_iff_getElem]
  constructor
  · intro h s t e f hs ht i hi hj
    obtain ⟨hsl, hse⟩ := List.getElem?_eq_some_iff.mp hs
    obtain ⟨htl, hte⟩ := List.getElem?_eq_some_iff.mp ht
    by_contra hne
    rcases Nat.lt_or_gt_of_ne hne with hlt | hlt
    · exact h s t hsl htl hlt e hse f hte i hi i hj rfl
    · exact h t s htl hsl hlt f hte e hse i hj i hi rfl
  · intro h s t hs ht hlt e he f hf i hi j hj hij
    subst hij
    have hst := h s t e f (by rw [List.getElem?_eq_getElem hs]; exact congrArg some he)
      (by rw [List.getElem?_eq_getElem ht]; exact congrArg some hf) i hi hj
    omega

theorem reduceOption_set {data : List (Option ε)} {s : ℕ} (hs : data[s]? = some none) (e : ε) :
    (data.set s (some e)).reduceOption.Perm (e :: data.reduceOption) := by
  induction data generalizing s with
  | nil => simp at hs
  | cons a data ih =>
    cases s with
    | zero =>
      obtain rfl : a = none := by simpa using hs
      simp
    | succ s =>
      have hrest := ih (by simpa using hs)
      cases a with
      | none => simpa using hrest
      | some f => simpa using (hrest.cons f).trans (List.Perm.swap e f _)

theorem reduceOption_perm_cons {data : List (Option ε)} {s : ℕ} {e : ε} (hs : data[s]? = some (some e)) :
    data.reduceOption.Perm (e :: (data.set s none).reduceOption) := by
  obtain ⟨hin, he⟩ := List.getElem?_eq_some_iff.mp hs
  have hempty : (data.set s none)[s]? = some none := List.getElem?_set_self hin
  have hback := reduceOption_set hempty e
  rwa [List.set_set, ← he, List.set_getElem_self] at hback

theorem length_reduceOption_modify (data : List (Option ε)) (s : ℕ) (f : ε → ε) :
    (data.modify s (Option.map f)).reduceOption.length = data.reduceOption.length := by
  induction data generalizing s with
  | nil => simp
  | cons e data ih =>
    cases s with
    | zero => cases e <;> simp
    | succ s => cases e <;> simp [ih]

theorem length_reduceOption_set_none (data : List (Option ε)) (s : ℕ) :
    (data.set s none).reduceOption.length ≤ data.reduceOption.length := by
  induction data generalizing s with
  | nil => simp
  | cons e data ih =>
    cases s with
    | zero => cases e <;> simp
    | succ s => cases e <;> simp [ih]

end PlinyCompute.Probing
