import Mathlib.Data.List.Infix

namespace PlinyCompute.MaximalMunch

variable {μ σ τ : Type} [DecidableEq μ]

structure Rule (μ σ τ : Type) where
  start : μ
  accepts : List σ → Bool
  action : List σ → Option τ × μ

def Rule.fires (m : μ) (w : List σ) (r : Rule μ σ τ) : Bool := decide (r.start = m) && r.accepts w

def munch (rules : List (Rule μ σ τ)) (m : μ) (cs : List σ) : ℕ → Option (Rule μ σ τ × List σ × List σ)
  | 0 => none
  | n + 1 =>
    match rules.find? (Rule.fires m (cs.take (n + 1))) with
    | some r => some (r, cs.take (n + 1), cs.drop (n + 1))
    | none => munch rules m cs n

def scan (rules : List (Rule μ σ τ)) : ℕ → μ → List σ → List τ
  | 0, _, _ => []
  | _ + 1, _, [] => []
  | n + 1, m, c :: cs =>
    match munch rules m (c :: cs) (c :: cs).length with
    | some (r, w, rest) => (r.action w).1.toList ++ scan rules n (r.action w).2 rest
    | none => scan rules n m cs

def Longest (rules : List (Rule μ σ τ)) (m : μ) (w rest : List σ) : Prop :=
  ∀ p, p ≠ [] → p <+: rest → ∀ r ∈ rules, r.fires m (w ++ p) = false

inductive Scans (rules : List (Rule μ σ τ)) : μ → List σ → List τ → Prop
  | nil {m : μ} : Scans rules m [] []
  | step {m : μ} {w rest : List σ} {ts : List τ} {r : Rule μ σ τ} : w ≠ [] →
      rules.find? (Rule.fires m w) = some r → Longest rules m w rest →
      Scans rules (r.action w).2 rest ts → Scans rules m (w ++ rest) ((r.action w).1.toList ++ ts)

variable {rules : List (Rule μ σ τ)} {m : μ} {w rest cs : List σ} {ts : List τ} {r : Rule μ σ τ}

theorem munch_prefix (hw : w ≠ []) (hr : rules.find? (Rule.fires m w) = some r) (n : ℕ)
    (hn : w.length ≤ n) (hmax : Longest rules m w rest) (hle : n ≤ (w ++ rest).length) :
    munch rules m (w ++ rest) n = some (r, w, rest) := by
  induction n with
  | zero => exact absurd (List.length_eq_zero_iff.mp (Nat.le_zero.mp hn)) hw
  | succ n ih =>
    unfold munch
    rcases Nat.lt_or_ge n w.length with h | h
    · have he : n + 1 = w.length := by omega
      rw [he, List.take_left, List.drop_left, hr]
    · have hnone : rules.find? (Rule.fires m ((w ++ rest).take (n + 1))) = none := by
        apply List.find?_eq_none.mpr
        intro r' hr'
        rw [List.take_append, List.take_of_length_le (by omega)]
        have hp : rest.take (n + 1 - w.length) ≠ [] := by
          rw [List.length_append] at hle
          apply List.ne_nil_of_length_pos
          rw [List.length_take]
          omega
        simp [hmax _ hp (List.take_prefix _ _) r' hr']
      rw [hnone]
      exact ih h (by omega)

theorem scan_of_scans (h : Scans rules m cs ts) (n : ℕ) (hn : cs.length ≤ n) :
    scan rules n m cs = ts := by
  induction h generalizing n with
  | nil => cases n <;> rfl
  | @step m w rest ts r hw hr hmax _ ih =>
    cases w with
    | nil => exact absurd rfl hw
    | cons c w =>
      cases n with
      | zero => simp at hn
      | succ n =>
        have hm := munch_prefix hw hr _ (by simp) hmax le_rfl
        simp only [List.cons_append, scan] at hm ⊢
        rw [hm]
        simp only [List.cons_append, List.length_cons, List.length_append] at hn
        dsimp only
        rw [ih n (by omega)]

theorem munch_spec {n : ℕ} {rest : List σ} (h : munch rules m cs n = some (r, w, rest))
    (hn : n ≤ cs.length) (hlast : ∀ p, n < p.length → p <+: cs → ∀ r ∈ rules, r.fires m p = false) :
    w ≠ [] ∧ cs = w ++ rest ∧ rules.find? (Rule.fires m w) = some r ∧ Longest rules m w rest := by
  induction n with
  | zero => cases h
  | succ n ih =>
    unfold munch at h
    split at h
    · next r' hr' =>
      cases h
      refine ⟨?_, (List.take_append_drop _ _).symm, hr', ?_⟩
      · apply List.ne_nil_of_length_pos
        rw [List.length_take]
        omega
      · intro p hp hpre r hr
        apply hlast _ ?_ ?_ r hr
        · have := List.length_pos_of_ne_nil hp
          rw [List.length_append, List.length_take]
          omega
        · obtain ⟨q, hq⟩ := hpre
          exact ⟨q, by rw [List.append_assoc, hq, List.take_append_drop]⟩
    · next hnone =>
      apply ih h (by omega)
      intro p hp hpre r hr
      rcases Nat.lt_or_ge (n + 1) p.length with hlt | hge
      · exact hlast p hlt hpre r hr
      · have he : cs.take (n + 1) = p := by
          rw [List.prefix_iff_eq_take.mp hpre]
          congr 1
          omega
        rw [he] at hnone
        simpa using List.find?_eq_none.mp hnone r hr

theorem exists_scans (htotal : ∀ (m : μ) (c : σ), ∃ r ∈ rules, r.fires m [c] = true) (m : μ)
    (cs : List σ) : ∃ ts, Scans rules m cs ts := by
  induction hn : cs.length using Nat.strong_induction_on generalizing m cs with
  | _ n ih =>
    cases cs with
    | nil => exact ⟨[], .nil⟩
    | cons c cs =>
      have hsome : ∃ x, munch rules m (c :: cs) (c :: cs).length = some x := by
        obtain ⟨r, hr, hf⟩ := htotal m c
        suffices ∀ k, ∃ x, munch rules m (c :: cs) (k + 1) = some x from this cs.length
        intro k
        induction k with
        | zero =>
          cases hfind : rules.find? (Rule.fires m ((c :: cs).take (0 + 1))) with
          | some r' => exact ⟨_, by rw [munch, hfind]⟩
          | none => exact absurd hf (List.find?_eq_none.mp hfind r hr)
        | succ k ihk =>
          cases hfind : rules.find? (Rule.fires m ((c :: cs).take (k + 1 + 1))) with
          | some r' => exact ⟨_, by rw [munch, hfind]⟩
          | none =>
            obtain ⟨x, hx⟩ := ihk
            exact ⟨x, by rw [munch, hfind]; exact hx⟩
      obtain ⟨⟨r, w, rest⟩, hx⟩ := hsome
      obtain ⟨hw, he, hr, hmax⟩ := munch_spec hx le_rfl fun p hp hpre =>
        absurd hpre.length_le (by omega)
      have hlt : rest.length < n := by
        have := List.length_pos_of_ne_nil hw
        rw [← hn, he, List.length_append]
        omega
      obtain ⟨ts, hts⟩ := ih _ hlt (r.action w).2 rest rfl
      exact ⟨_, by rw [he]; exact .step hw hr hmax hts⟩

end PlinyCompute.MaximalMunch
