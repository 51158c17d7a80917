import PlinyCompute.ShuffleJoin
import PlinyCompute.Transition

namespace PlinyCompute.ShuffleJoin

open KWayMerge PdbJoinMap SizePolicy Transition

variable {V L R : Type}

section Groups

def below (hash : ℕ) (groups : List (Group V)) : List (Group V) := groups.filter fun g => g.1 < hash

def equal (hash : ℕ) (groups : List (Group V)) : List (Group V) := groups.filter fun g => g.1 = hash

def above (hash : ℕ) (groups : List (Group V)) : List (Group V) := groups.filter fun g => hash < g.1

variable {hash : ℕ} {groups groups' : List (Group V)}

theorem equal_perm (hash : ℕ) (h : groups.Perm groups') : (equal hash groups).Perm (equal hash groups') := h.filter _

theorem above_perm (hash : ℕ) (h : groups.Perm groups') : (above hash groups).Perm (above hash groups') := h.filter _

theorem equal_cons_self {g : Group V} (h : g.1 = hash) : equal hash (g :: groups) = g :: equal hash groups := by
  simp [equal, h]

theorem equal_cons_ne {g : Group V} (h : g.1 ≠ hash) : equal hash (g :: groups) = equal hash groups := by
  simp [equal, h]

theorem above_cons_le {g : Group V} (h : g.1 ≤ hash) : above hash (g :: groups) = above hash groups := by
  simp [above, h]

theorem equal_eq_nil (h : ∀ g ∈ groups, g.1 ≠ hash) : equal hash groups = [] := by
  simpa [equal] using h

theorem above_eq_self (h : ∀ g ∈ groups, hash < g.1) : above hash groups = groups := by
  simpa [above] using h

theorem above_eq_nil_iff : above hash groups = [] ↔ ∀ g ∈ groups, g.1 ≤ hash := by
  simp [above]

theorem mem_above {g : Group V} : g ∈ above hash groups ↔ g ∈ groups ∧ hash < g.1 := by
  simp [above]

theorem mem_equal {g : Group V} : g ∈ equal hash groups ↔ g ∈ groups ∧ g.1 = hash := by
  simp [equal]

end Groups

abbrev Sorted (iterators : List (JoinMapIterator V)) : Prop := Merging (Prod.fst : Group V → ℕ) iterators

theorem advance_spec (q : Queue V) {iterators : List (JoinMapIterator V)} (h : Sorted iterators)
    (hne : iterators ≠ []) :
    ∃ g next, advance q iterators = .ok (g, next) ∧ topHash q iterators = .ok g.1 ∧ Sorted next ∧
      iterators.flatten.Perm (g :: next.flatten) ∧ ∀ g' ∈ iterators.flatten, g.1 ≤ g'.1 := by
  obtain ⟨g, next, hadv, hnext, hperm, hleast⟩ := h.advance q hne
  refine ⟨g, next, by simp [advance, hadv], ?_, hnext, hperm, hleast⟩
  simp [topHash, advance, hadv, Except.map]

theorem topHash_nil (q : Queue V) : topHash q [] = .error .undefined := by
  simp [topHash, advance, q.advance_nil, Except.map]

theorem flatten_ne_nil {iterators : List (JoinMapIterator V)} (h : Sorted iterators) (hne : iterators ≠ []) :
    iterators.flatten ≠ [] := by
  intro hflat
  cases iterators with
  | nil => exact hne rfl
  | cons it iterators =>
    cases it with
    | nil => exact h.live List.mem_cons_self
    | cons g it => simp at hflat

section Match

variable (q : Queue L) {rhsHash : ℕ}

inductive Sought (rhsHash : ℕ) (groups : List (Group L)) : Group L → List (JoinMapIterator L) → Prop
  | found (g : Group L) (next : List (JoinMapIterator L)) : g.1 = rhsHash → Sorted next →
      (∀ g' ∈ next.flatten, rhsHash ≤ g'.1) → (equal rhsHash groups).Perm (g :: equal rhsHash next.flatten) →
      (above rhsHash groups).Perm (above rhsHash next.flatten) → Sought rhsHash groups g next
  | passed (g : Group L) (next : List (JoinMapIterator L)) : rhsHash < g.1 → Sorted next → next ≠ [] →
      equal rhsHash groups = [] → (above rhsHash groups).Perm next.flatten → Sought rhsHash groups g next
  | exhausted (g : Group L) : g ∈ groups → equal rhsHash groups = [] → above rhsHash groups = [] →
      Sought rhsHash groups g []

theorem Sought.cons_below {groups groups' : List (Group L)} {a g : Group L} {next : List (JoinMapIterator L)}
    (h : Sought rhsHash groups g next) (ha : a.1 < rhsHash) (hp : groups'.Perm (a :: groups)) :
    Sought rhsHash groups' g next := by
  have hequal := equal_perm rhsHash hp
  have habove := above_perm rhsHash hp
  rw [equal_cons_ne ha.ne] at hequal
  rw [above_cons_le ha.le] at habove
  cases h with
  | found _ hg hn hle he hab => exact .found g next hg hn hle (hequal.trans he) (habove.trans hab)
  | passed _ hg hn hne he hab =>
    rw [he] at hequal
    exact .passed g next hg hn hne hequal.eq_nil (habove.trans hab)
  | exhausted hg he hab =>
    rw [he] at hequal
    rw [hab] at habove
    exact .exhausted g (hp.mem_iff.mpr (List.mem_cons_of_mem _ hg)) hequal.eq_nil habove.eq_nil

theorem seek_spec {rounds : ℕ} {current : Group L} {lhsIterators : List (JoinMapIterator L)}
    (h : Sorted lhsIterators) (hne : lhsIterators ≠ []) (hr : lhsIterators.flatten.length ≤ rounds) :
    ∃ g next, seek q rhsHash rounds current lhsIterators = .ok (g, next) ∧
      Sought rhsHash lhsIterators.flatten g next := by
  induction rounds generalizing current lhsIterators with
  | zero => exact absurd (List.eq_nil_of_length_eq_zero (Nat.le_zero.mp hr)) (flatten_ne_nil h hne)
  | succ rounds ih =>
    obtain ⟨a, next, hadv, -, hnext, hperm, hleast⟩ := advance_spec q h hne
    have hin : a ∈ lhsIterators.flatten := hperm.mem_iff.mpr List.mem_cons_self
    rw [seek, if_neg hne, hadv]
    obtain hlt | rfl | hgt := Nat.lt_trichotomy a.1 rhsHash
    · have hskip : ¬ rhsHash < a.1 := by omega
      have hlen := hperm.length_eq
      rw [List.length_cons] at hlen
      by_cases hempty : next = []
      · subst hempty
        have hall : ∀ g ∈ lhsIterators.flatten, g = a := by
          intro g hg
          simpa using hperm.mem_iff.mp hg
        refine ⟨a, [], ?_, .exhausted a hin ?_ ?_⟩
        · cases rounds <;> simp [ok_bind, hskip, hlt, seek]
        · apply equal_eq_nil
          intro g hg
          rw [hall g hg]
          exact hlt.ne
        · apply above_eq_nil_iff.mpr
          intro g hg
          rw [hall g hg]
          exact hlt.le
      · obtain ⟨g, next', hseek, hs⟩ := @ih a next hnext hempty (by omega)
        refine ⟨g, next', ?_, hs.cons_below hlt hperm⟩
        simp [ok_bind, hskip, hlt, hseek]
    · refine ⟨a, next, by simp [ok_bind], .found a next rfl hnext ?_ ?_ ?_⟩
      · intro g hg
        exact hleast g (hperm.mem_iff.mpr (List.mem_cons_of_mem _ hg))
      · have hequal := equal_perm a.1 hperm
        rwa [equal_cons_self rfl] at hequal
      · have habove := above_perm a.1 hperm
        rwa [above_cons_le (Nat.le_refl _)] at habove
    · have hall : ∀ g ∈ lhsIterators.flatten, rhsHash < g.1 := by
        intro g hg
        exact Nat.lt_of_lt_of_le hgt (hleast g hg)
      refine ⟨a, lhsIterators, by simp [ok_bind, hgt], .passed a _ hgt h hne ?_ ?_⟩
      · exact equal_eq_nil fun g hg => (hall g hg).ne'
      · rw [above_eq_self hall]

theorem gather_spec {rounds : ℕ} {currIterators : List (List L)} {lhsIterators : List (JoinMapIterator L)}
    (h : Sorted lhsIterators) (hle : ∀ g ∈ lhsIterators.flatten, rhsHash ≤ g.1)
    (hr : lhsIterators.flatten.length ≤ rounds) :
    (equal rhsHash lhsIterators.flatten ≠ [] ∧ above rhsHash lhsIterators.flatten = [] ∧
      gather q rhsHash rounds currIterators lhsIterators = .error .undefined) ∨
    ((above rhsHash lhsIterators.flatten = [] → equal rhsHash lhsIterators.flatten = []) ∧
      ∃ (taken : List (Group L)) (next : List (JoinMapIterator L)),
        gather q rhsHash rounds currIterators lhsIterators =
          .ok (currIterators ++ taken.map Prod.snd, next) ∧
        Sorted next ∧ taken.Perm (equal rhsHash lhsIterators.flatten) ∧
        next.flatten.Perm (above rhsHash lhsIterators.flatten)) := by
  induction rounds generalizing currIterators lhsIterators with
  | zero =>
    have hnil : lhsIterators.flatten = [] := List.eq_nil_of_length_eq_zero (Nat.le_zero.mp hr)
    refine Or.inr ⟨fun _ => by simp [hnil, equal], [], lhsIterators, by simp [gather], h, ?_, ?_⟩
    · simp [hnil, equal]
    · simp [hnil, above]
  | succ rounds ih =>
    by_cases hempty : lhsIterators = []
    · subst hempty
      exact Or.inr ⟨fun _ => rfl, [], [], by simp [gather], h, List.Perm.nil, List.Perm.nil⟩
    obtain ⟨a, next, hadv, -, hnext, hperm, hleast⟩ := advance_spec q h hempty
    have hin : a ∈ lhsIterators.flatten := hperm.mem_iff.mpr List.mem_cons_self
    have hrest : ∀ g ∈ next.flatten, a.1 ≤ g.1 := fun g hg =>
      hleast g (hperm.mem_iff.mpr (List.mem_cons_of_mem _ hg))
    rw [gather, if_neg hempty, hadv]
    by_cases ha : a.1 = rhsHash
    · subst ha
      have hequal := equal_perm a.1 hperm
      have habove := above_perm a.1 hperm
      rw [equal_cons_self rfl] at hequal
      rw [above_cons_le (Nat.le_refl _)] at habove
      by_cases hlast : next = []
      · subst hlast
        refine Or.inl ⟨?_, habove.eq_nil, ?_⟩
        · intro hnil
          simp [hnil] at hequal
        · simp [ok_bind, topHash_nil]
          rfl
      · obtain ⟨b, next', -, htop, -, hperm', hleast'⟩ := advance_spec q hnext hlast
        have hbin : b ∈ next.flatten := hperm'.mem_iff.mpr List.mem_cons_self
        by_cases hb : b.1 = a.1
        · have hmore : equal a.1 next.flatten ≠ [] := List.ne_nil_of_mem (mem_equal.mpr ⟨hbin, hb⟩)
          have hlen := hperm.length_eq
          rw [List.length_cons] at hlen
          simp only [ok_bind, htop, hb, if_true]
          obtain ⟨-, hnone, hund⟩ | ⟨hsome, taken, next'', hok, hs, htaken, habove'⟩ :=
            @ih (currIterators ++ [a.2]) next hnext hrest (by omega)
          · refine Or.inl ⟨?_, ?_, hund⟩
            · exact List.ne_nil_of_mem (mem_equal.mpr ⟨hin, rfl⟩)
            · rw [hnone] at habove
              exact habove.eq_nil
          · refine Or.inr ⟨?_, a :: taken, next'', ?_, hs, ?_, ?_⟩
            · intro hnone
              rw [hnone] at habove
              exact absurd (hsome habove.symm.eq_nil) hmore
            · rw [hok]
              simp
            · exact (htaken.cons a).trans hequal.symm
            · exact habove'.trans habove.symm
        · have hgt : ∀ g ∈ next.flatten, a.1 < g.1 := by
            intro g hg
            have h1 := hrest b hbin
            have h2 := hleast' g hg
            omega
          rw [equal_eq_nil fun g hg => (hgt g hg).ne'] at hequal
          rw [above_eq_self hgt] at habove
          refine Or.inr ⟨?_, [a], next, ?_, hnext, hequal.symm, habove.symm⟩
          · intro hnone
            rw [hnone] at habove
            exact absurd habove.symm.eq_nil (flatten_ne_nil hnext hlast)
          · simp [ok_bind, htop, hb]
    · have hgt : ∀ g ∈ lhsIterators.flatten, rhsHash < g.1 := by
        intro g hg
        have h1 := hle a hin
        have h2 := hleast g hg
        omega
      have hequal : equal rhsHash lhsIterators.flatten = [] := equal_eq_nil fun g hg => (hgt g hg).ne'
      refine Or.inr ⟨fun _ => hequal, [], lhsIterators, ?_, h, ?_, ?_⟩
      · simp [ok_bind, ha]
      · rw [hequal]
      · rw [above_eq_self hgt]

inductive Matched (rhsHash : ℕ) (groups : List (Group L)) :
    Except Stop (List (List L) × List (JoinMapIterator L)) → Prop
  | undefined : above rhsHash groups = [] → 2 ≤ (equal rhsHash groups).length →
      Matched rhsHash groups (.error .undefined)
  | joined (taken : List (Group L)) (next : List (JoinMapIterator L)) : Sorted next →
      taken.Perm (equal rhsHash groups) → next.flatten.Perm (above rhsHash groups) →
      (above rhsHash groups = [] → groups = [] ∨ (equal rhsHash groups).length = 1) →
      Matched rhsHash groups (.ok (taken.map Prod.snd, next))
  | mistaken (g : Group L) : g ∈ groups → above rhsHash groups = [] → equal rhsHash groups = [] →
      Matched rhsHash groups (.ok ([g.2], []))

theorem matchHash_spec {lhsIterators : List (JoinMapIterator L)} (h : Sorted lhsIterators) :
    Matched rhsHash lhsIterators.flatten (matchHash q rhsHash lhsIterators) := by
  by_cases hempty : lhsIterators = []
  · subst hempty
    rw [matchHash, if_pos rfl]
    exact .joined [] [] h List.Perm.nil List.Perm.nil fun _ => Or.inl rfl
  obtain ⟨a, next, -, htop, -, -, hleast⟩ := advance_spec q h hempty
  have hne := flatten_ne_nil h hempty
  rw [matchHash, if_neg hempty, htop, ok_bind]
  by_cases ha : rhsHash < a.1
  · have hgt : ∀ g ∈ lhsIterators.flatten, rhsHash < g.1 := fun g hg => Nat.lt_of_lt_of_le ha (hleast g hg)
    rw [if_pos ha]
    refine .joined [] lhsIterators h ?_ ?_ ?_
    · rw [equal_eq_nil fun g hg => (hgt g hg).ne']
    · rw [above_eq_self hgt]
    · intro hnone
      rw [above_eq_self hgt] at hnone
      exact Or.inl hnone
  · rw [if_neg ha]
    obtain ⟨g, next, hseek, hs⟩ := @seek_spec _ q rhsHash _ (0, []) _ h hempty (Nat.le_refl _)
    rw [hseek, ok_bind]
    cases hs with
    | found _ hg hnext hle hequal habove =>
      have hskip : ¬ rhsHash < g.1 := by omega
      simp only [hskip, if_false]
      have hlen := hequal.length_eq
      rw [List.length_cons] at hlen
      obtain ⟨hmore, hnone, hund⟩ | ⟨hsome, taken, next', hok, hn, htaken, habove'⟩ :=
        @gather_spec _ q rhsHash _ [g.2] _ hnext hle (Nat.le_refl _)
      · rw [hund]
        rw [hnone] at habove
        have hpos := List.length_pos_of_ne_nil hmore
        exact .undefined habove.eq_nil (by omega)
      · rw [hok]
        refine .joined (g :: taken) next' hn ?_ ?_ ?_
        · exact (htaken.cons g).trans hequal.symm
        · exact habove'.trans habove.symm
        · intro hnone
          rw [hnone] at habove
          rw [hsome habove.symm.eq_nil, List.length_nil] at hlen
          exact Or.inr hlen
    | passed _ hg hnext hne' hequal habove =>
      simp only [hg, if_true]
      refine .joined [] next hnext ?_ habove.symm ?_
      · rw [hequal]
      · intro hnone
        rw [hnone] at habove
        exact absurd habove.symm.eq_nil (flatten_ne_nil hnext hne')
    | exhausted hg hequal habove =>
      have hskip : ¬ rhsHash < g.1 := Nat.not_lt.mpr (above_eq_nil_iff.mp habove g hg)
      simp only [hskip, if_false]
      exact .mistaken g hg habove hequal

end Match

end PlinyCompute.ShuffleJoin
