import PlinyCompute.TopKQueue

namespace PlinyCompute.TopKQueue

open PdbVector Transition BinaryHeap Largest

variable {Score Value : Type} {k : UInt32} {q : TopKQueue Score Value} {l : List (Score × Value)}

theorem toInt_of_lt {n : ℕ} (hn : n < 2 ^ 31) : toInt n = n := by
  have hmod : n % 2 ^ 32 = n := Nat.mod_eq_of_lt (by omega)
  rw [toInt, hmod, if_pos hn]

theorem perm_removeFirst {first last : Score × Value} {rest : List (Score × Value)}
    (hlast : rest.getLast? = some last) : (first :: ((first :: rest).set 0 last).dropLast).Perm (first :: rest) := by
  obtain ⟨front, rfl⟩ := List.getLast?_eq_some_iff.mp hlast
  rw [List.set_cons_zero, List.dropLast_cons_of_ne_nil (List.append_ne_nil_of_right_ne_nil _ (List.cons_ne_nil _ _)),
    List.dropLast_concat]
  apply List.Perm.cons
  exact (List.perm_append_singleton last front).symm

section Insert

variable [Preorder Score]

def Added (k : UInt32) (l : List (Score × Value)) (pair : Score × Value) (l' : List (Score × Value)) : Prop :=
  (l.length < k.toNat ∧ l'.Perm (pair :: l)) ∨
    (l.length = k.toNat ∧ ∃ m, (m :: l').Perm (pair :: l) ∧ ∀ x ∈ l', m.1 ≤ x.1)

variable [Std.Total (α := Score) (· ≤ ·)] [DecidableLT Score] [Inhabited Score] [Inhabited Value]

omit [Std.Total (α := Score) (· ≤ ·)] [DecidableLT Score] in
theorem root_le_of_mem (hordered : Ordered (keys l) l.length) {first x : Score × Value} (hfirst : l[0]? = some first)
    (hx : x ∈ l) : first.1 ≤ x.1 := by
  obtain ⟨i, hi, rfl⟩ := List.getElem_of_mem hx
  rw [← keys_eq hfirst, ← keys_eq (List.getElem?_eq_getElem hi)]
  exact hordered.root_le i hi

namespace Lists

theorem evict (h : Lists k q l) (hordered : Ordered (keys l) l.length) (hlength : l.length = k.toNat + 1)
    (hpos : 0 < k.toNat) (hfits : k.toNat < 2 ^ 30) : ∃ q₁ q' l' m, q.removeFirst = .ok q₁ ∧
      TopKQueue.siftDown k.toNat k.toNat 0 q₁ = .ok q' ∧ (∃ v, deref q₁.allScores = .ok v ∧ v.size = k.toNat) ∧
      Lists k q' l' ∧ Ordered (keys l') l'.length ∧ (m :: l').Perm l ∧ ∀ x ∈ l', m.1 ≤ x.1 := by
  cases l with
  | nil => simp at hlength
  | cons first rest =>
    rw [List.length_cons] at hlength
    have hne : rest ≠ [] := by
      rintro rfl
      simp at hlength
      omega
    have hlast := List.getLast?_eq_some_getLast hne
    have hx : (first :: rest)[(first :: rest).length - 1]? = some (rest.getLast hne) := by
      rw [← List.getLast?_eq_getElem?, List.getLast?_cons_of_ne_nil hne]
      exact hlast
    obtain ⟨q₁, hq₁, h₁⟩ := h.removeFirst hx
    have hlength₁ : ((first :: rest).set 0 (rest.getLast hne)).dropLast.length = k.toNat := by
      rw [List.length_dropLast, List.length_set, List.length_cons]
      omega
    have hsinking : Sinking (keys ((first :: rest).set 0 (rest.getLast hne)).dropLast) k.toNat 0 := by
      have hfront : Ordered (keys (first :: rest)) k.toNat := fun i hi => hordered i (by rw [List.length_cons]; omega)
      apply hfront.sinking
      intro i hi hposi
      rw [keys, keys, List.getD_eq_getElem?_getD, List.getD_eq_getElem?_getD, List.getElem?_dropLast, if_pos,
        List.getElem?_set_ne (by omega)]
      rw [List.length_set, List.length_cons]
      omega
    have hrounds : k.toNat ≤ 0 + k.toNat := by omega
    obtain ⟨q', l', hq', hlists, hordered', hperm⟩ := h₁.siftDown hlength₁ hsinking hpos hrounds hfits
    have hsize := h₁.size_scores
    rw [hlength₁] at hsize
    have hall : (first :: l').Perm (first :: rest) := (hperm.cons first).trans (perm_removeFirst hlast)
    refine ⟨q₁, q', l', first, hq₁, hq', hsize, hlists, hordered', hall, ?_⟩
    intro x hxl
    apply root_le_of_mem hordered rfl
    exact hall.subset (List.mem_cons_of_mem first hxl)

theorem insertVectors (h : Lists k q l) (hordered : Ordered (keys l) l.length) (hpos : 0 < l.length)
    (hle : l.length ≤ k.toNat) (hfits : k.toNat < 2 ^ 30 ∨ l.length < k.toNat ∧ l.length < 2 ^ 31) (score : Score)
    (value : Value) : ∃ q' l', insertVectors score value q = .ok q' ∧ Lists k q' l' ∧ Ordered (keys l') l'.length ∧
      Added k l (score, value) l' := by
  have hfirst := List.getElem?_eq_getElem hpos
  obtain ⟨v, hv, hsize⟩ := h.size_scores
  unfold TopKQueue.insertVectors
  rw [h.scoreAt hfirst, ok_bind, hv, ok_bind, hsize, h.limit]
  split_ifs with hrefuse
  · refine ⟨q, l, rfl, h, hordered, .inr ⟨by omega, (score, value), List.Perm.refl _, ?_⟩⟩
    intro x hx
    exact le_trans (le_of_lt hrefuse.1) (root_le_of_mem hordered hfirst hx)
  · obtain ⟨q₁, hq₁, h₁⟩ := h.pushBack hpos (by omega) score value
    have hlength : (l ++ [(score, value)]).length = l.length + 1 := by
      rw [List.length_append, List.length_singleton]
    have hrising : Rising (keys (l ++ [(score, value)])) (l.length + 1) l.length := by
      apply hordered.rising
      intro i hi
      rw [keys, keys, List.getD_eq_getElem?_getD, List.getD_eq_getElem?_getD, List.getElem?_append_left hi]
    obtain ⟨q₂, l₂, hq₂, h₂, hordered₂, hperm₂⟩ := h₁.siftUp hlength hrising (by omega) (le_refl _)
    have hlength₂ : l₂.length = l.length + 1 := hperm₂.length_eq.trans hlength
    have hadded : l₂.Perm ((score, value) :: l) := hperm₂.trans (List.perm_append_singleton _ _)
    obtain ⟨v₁, hv₁, hsize₁⟩ := h₁.size_scores
    obtain ⟨v₂, hv₂, hsize₂⟩ := h₂.size_scores
    have hcurrent : toInt (v₁.size - 1) = l.length := by
      rw [hsize₁, hlength, Nat.add_sub_cancel, toInt_of_lt (by omega)]
    rw [hq₁, ok_bind, hv₁, ok_bind, hcurrent]
    dsimp only
    rw [hq₂, ok_bind, hv₂, ok_bind, hsize₂, hlength₂, h₂.limit]
    split_ifs with hroom
    · exact ⟨q₂, l₂, rfl, h₂, hordered₂, .inl ⟨by omega, hadded⟩⟩
    · obtain ⟨q₃, q', l', m, hq₃, hq', ⟨v₃, hv₃, hsize₃⟩, hlists, hordered', hperm, hleast⟩ :=
        h₂.evict hordered₂ (by omega) (by omega) (by omega)
      refine ⟨q', l', ?_, hlists, hordered', .inr ⟨by omega, m, hperm.trans hadded, hleast⟩⟩
      rw [hq₃, ok_bind, hv₃, ok_bind, hsize₃, toInt_of_lt (by omega)]
      exact hq'

end Lists

inductive Holds (k : UInt32) : TopKQueue Score Value → List (Score × Value) → Prop
  | none {q : TopKQueue Score Value} (limit : q.k = k) (empty : q.empty = true) (scores : q.allScores = none)
    (values : q.allValues = none) : Holds k q []
  | single {q : TopKQueue Score Value} (limit : q.k = k) (empty : q.empty = false) (scores : q.allScores = none)
    (values : q.allValues = none) : Holds k q [(q.tempScore, q.tempValue)]
  | list {q : TopKQueue Score Value} {l : List (Score × Value)} (h : Lists k q l) (hpos : 0 < l.length) : Holds k q l

structure Keeps (k : UInt32) (q : TopKQueue Score Value) (l : List (Score × Value)) (all : Multiset (Score × Value))
    (offers : ℕ) : Prop where
  holds : Holds k q l
  ordered : Ordered (keys l) l.length
  largest : IsLargest Prod.fst k.toNat (l : Multiset (Score × Value)) all
  empty_iff : q.empty = true ↔ offers = 0
  null_iff : q.allValues = none ↔ offers ≤ 1

def Fits (k : UInt32) (n : ℕ) : Prop := k.toNat < 2 ^ 30 ∨ n ≤ k.toNat ∧ n < 2 ^ 31

theorem Fits.mono {m n : ℕ} (h : Fits k n) (hle : m ≤ n) : Fits k m := by
  unfold Fits at *
  omega

namespace Keeps

variable {all : Multiset (Score × Value)} {n : ℕ}

omit [Std.Total (α := Score) (· ≤ ·)] [DecidableLT Score] in
theorem length_eq (h : Keeps k q l all n) : l.length = min k.toNat all.card := h.largest.card

omit [Std.Total (α := Score) (· ≤ ·)] [DecidableLT Score] [Inhabited Score] [Inhabited Value] in
theorem largest_added {pair : Score × Value} {l' : List (Score × Value)}
    (h : IsLargest Prod.fst k.toNat (l : Multiset (Score × Value)) all) (hadded : Added k l pair l') :
    IsLargest Prod.fst k.toNat (l' : Multiset (Score × Value)) (pair ::ₘ all) := by
  obtain ⟨hroom, hperm⟩ | ⟨hfull, m, hperm, hleast⟩ := hadded
  · rw [Multiset.coe_eq_coe.mpr hperm]
    exact h.cons hroom pair
  · exact h.replace hfull (Multiset.coe_eq_coe.mpr hperm) hleast

theorem insertVectors {q₁ : TopKQueue Score Value} (h : Keeps k q l all n) (hn : 0 < n)
    (hlists : Lists k q₁ l) (hpos : 0 < l.length) (hfits : Fits k (all.card + 1)) (score : Score) (value : Value) :
    ∃ q' l', insertVectors score value q₁ = .ok q' ∧ Keeps k q' l' ((score, value) ::ₘ all) (n + 1) := by
  have hlength := h.length_eq
  have hroom : k.toNat < 2 ^ 30 ∨ l.length < k.toNat ∧ l.length < 2 ^ 31 := by
    unfold Fits at hfits
    omega
  obtain ⟨q', l', hq', hlists', hordered, hadded⟩ :=
    hlists.insertVectors h.ordered hpos (by omega) hroom score value
  have hlargest := largest_added h.largest hadded
  have hpos' : 0 < l'.length := by
    have hcard : l'.length = _ := hlargest.card
    rw [Multiset.card_cons] at hcard
    omega
  obtain ⟨_, hvalues, -⟩ := hlists'.values
  refine ⟨q', l', hq', .list hlists' hpos', hordered, hlargest, ?_, ?_⟩
  · rw [hlists'.nonempty]
    simp
  · rw [hvalues]
    constructor
    · nofun
    · omega

theorem insert (h : Keeps k q l all n) (hk : 0 < k.toNat) (hfits : Fits k (all.card + 1)) (score : Score)
    (value : Value) : ∃ q' l', insert score value q = .ok q' ∧ Keeps k q' l' ((score, value) ::ₘ all) (n + 1) := by
  unfold TopKQueue.insert
  cases h.holds with
  | none limit empty scores values =>
    have hn : n = 0 := h.empty_iff.mp empty
    rw [if_pos empty]
    refine ⟨_, [(score, value)], rfl, .single limit rfl scores values, ?_, ?_, ?_, ?_⟩
    · intro i hi
      have hi : i < 1 := hi
      have hzero : i = 0 := by omega
      subst hzero
      exact le_refl _
    · exact h.largest.cons hk (score, value)
    · rw [hn]
      simp
    · rw [hn]
      simp [values]
  | single limit empty scores values =>
    have hn : n ≠ 0 := fun hzero => Bool.false_ne_true (empty ▸ h.empty_iff.mpr hzero)
    rw [if_neg (by rw [empty]; exact Bool.false_ne_true)]
    obtain ⟨q₁, hq₁, hlists⟩ := makeVectors_single empty limit scores
    rw [hq₁, ok_bind]
    exact h.insertVectors (by omega) hlists Nat.zero_lt_one hfits score value
  | list hlists hpos =>
    have hn : n ≠ 0 := fun hzero => Bool.false_ne_true (hlists.nonempty ▸ h.empty_iff.mpr hzero)
    rw [if_neg (by rw [hlists.nonempty]; exact Bool.false_ne_true)]
    obtain ⟨v, hv, -⟩ := hlists.scores
    have hmake : q.makeVectors = .ok q := by
      unfold makeVectors
      rw [hv]
    rw [hmake, ok_bind]
    exact h.insertVectors (by omega) hlists hpos hfits score value

theorem insertFrom {u : TopKQueue Score Value} {m : List (Score × Value)} (hu : Lists k u m) (hk : 0 < k.toNat)
    {rounds i : ℕ} (h : Keeps k q l all n) (hrounds : i + rounds = m.length) (hfits : Fits k (all.card + rounds)) :
    ∃ q' l', insertFrom u rounds i q = .ok q' ∧
      Keeps k q' l' (all + (m.drop i : Multiset (Score × Value))) (n + rounds) := by
  induction rounds generalizing q l all n i with
  | zero =>
    refine ⟨q, l, rfl, ?_⟩
    rw [List.drop_of_length_le (by omega), Multiset.coe_nil, add_zero, add_zero]
    exact h
  | succ rounds ih =>
    have hi : i < m.length := by omega
    obtain ⟨q₁, l₁, hq₁, h₁⟩ := h.insert hk (hfits.mono (by omega)) m[i].1 m[i].2
    have hcard : ((m[i].1, m[i].2) ::ₘ all).card + rounds = all.card + (rounds + 1) := by
      rw [Multiset.card_cons]
      omega
    obtain ⟨q', l', hq', h'⟩ := ih (i := i + 1) h₁ (by omega) (by rwa [hcard])
    refine ⟨q', l', ?_, ?_⟩
    · rw [TopKQueue.insertFrom, hu.read (List.getElem?_eq_getElem hi), ok_bind, hq₁, ok_bind]
      exact hq'
    · rw [List.drop_eq_getElem_cons hi, ← Multiset.cons_coe, Multiset.add_cons, ← Multiset.cons_add,
        Nat.add_comm rounds, ← Nat.add_assoc]
      exact h'

theorem add {u : TopKQueue Score Value} {m : List (Score × Value)} {other : Multiset (Score × Value)} {offers : ℕ}
    (h : Keeps k q l all n) (hu : Keeps k u m other offers) (hk : 0 < k.toNat) (hfits : Fits k (all.card + other.card)) :
    ∃ q' l', add q u = .ok q' ∧ Keeps k q' l' (all + other) (n + min k.toNat other.card) := by
  have hlength := hu.length_eq
  have hmerged : ∃ q' l', TopKQueue.add q u = .ok q' ∧
      Keeps k q' l' (all + (m : Multiset (Score × Value))) (n + m.length) := by
    have hfits' : Fits k (all.card + m.length) := hfits.mono (by omega)
    unfold TopKQueue.add
    cases hu.holds with
    | none limit empty scores values =>
      refine ⟨q, l, if_pos empty, ?_⟩
      rw [Multiset.coe_nil, add_zero]
      exact h
    | single limit empty scores values =>
      rw [if_neg (by rw [empty]; exact Bool.false_ne_true), scores, Multiset.coe_singleton, add_comm all,
        Multiset.singleton_add]
      exact h.insert hk hfits' u.tempScore u.tempValue
    | list hlists hpos =>
      obtain ⟨v, hv, hsize⟩ := hlists.size_scores
      obtain ⟨w, hw, -⟩ := hlists.scores
      rw [hw] at hv
      cases hv
      have hint : toInt v.size = m.length := by
        rw [hsize]
        apply toInt_of_lt
        unfold Fits at hfits
        omega
      rw [if_neg (by rw [hlists.nonempty]; exact Bool.false_ne_true), hw]
      dsimp only
      rw [hint]
      exact insertFrom hlists hk h (Nat.zero_add _) hfits'
  obtain ⟨q', l', hq', h'⟩ := hmerged
  rw [hlength] at h'
  exact ⟨q', l', hq', h'.holds, h'.ordered, hu.largest.trans h'.largest, h'.empty_iff, h'.null_iff⟩

end Keeps

inductive Tree (Score Value : Type)
  | ofLimit
  | ofInit (initScore : Score) (initValue : Value)
  | insert (t : Tree Score Value) (score : Score) (value : Value)
  | add (t addMeIn : Tree Score Value)

namespace Tree

omit [Preorder Score] [Std.Total (α := Score) (· ≤ ·)] [DecidableLT Score] [Inhabited Score] [Inhabited Value] in
def inserted : Tree Score Value → Multiset (Score × Value)
  | ofLimit => 0
  | ofInit initScore initValue => {(initScore, initValue)}
  | insert t score value => (score, value) ::ₘ t.inserted
  | add t addMeIn => t.inserted + addMeIn.inserted

def offers (k : UInt32) : Tree Score Value → ℕ
  | ofLimit => 0
  | ofInit _ _ => 1
  | insert t _ _ => t.offers k + 1
  | add t addMeIn => t.offers k + min k.toNat addMeIn.inserted.card

def build (k : UInt32) : Tree Score Value → Except Fault (TopKQueue Score Value)
  | ofLimit => .ok (.ofLimit k)
  | ofInit initScore initValue => .ok (.ofInit k initScore initValue)
  | insert t score value => do
    let q ← t.build k
    q.insert score value
  | add t addMeIn => do
    let q ← t.build k
    let other ← addMeIn.build k
    q.add other

end Tree

end Insert

end PlinyCompute.TopKQueue
