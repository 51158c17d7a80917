import PlinyCompute.PdbJoinMap
import PlinyCompute.Transition

namespace PlinyCompute.PdbJoinMap

open Probing PdbMap Transition

variable {V : Type}

abbrev Multimap (V : Type) := ℕ → List V

def Multimap.push (t : Multimap V) (hash : ℕ) (v : V) : Multimap V :=
  Function.update t hash (t hash ++ [v])

def JoinPairArray.lookup (a : JoinPairArray V) (me : ℕ) : Except Thrown (List V) :=
  match a.find me with
  | none => .error .exit
  | some slot =>
    match a.data[slot]?.join with
    | none => .ok []
    | some e => .ok (a.group e)

namespace JoinMap

def lookup (m : JoinMap V) (me : ℕ) : Except Thrown (List V) := m.myArray.lookup me

def iteration (m : JoinMap V) : List (ℕ × List V) := m.myArray.groups

def insert [Inhabited V] (m : JoinMap V) (r : ℕ × V) : Except Thrown (JoinMap V) :=
  match m.push .enough r.1 with
  | (m', .ok place) => .ok (m'.store place r.2)
  | (_, .error e) => .error e

def pushAll [Inhabited V] (m : JoinMap V) (records : List (ℕ × V)) : Except Thrown (JoinMap V) :=
  records.foldlM insert m

end JoinMap

def pushedUnder (records : List (ℕ × V)) (me : ℕ) : List V :=
  (records.filter fun r => normalise r.1 = normalise me).map Prod.snd

def contents (m : JoinMap V) : Multimap V := m.myArray.values

section Refinement

theorem foldl_push_apply (records : List (ℕ × V)) (t : Multimap V) (hash : ℕ) :
    records.foldl (fun t r => t.push (normalise r.1) r.2) t hash =
      t hash ++ (records.filter fun r => normalise r.1 = hash).map Prod.snd := by
  induction records generalizing t with
  | nil => simp
  | cons r records ih =>
    rw [List.foldl_cons, ih, Multimap.push]
    by_cases hr : normalise r.1 = hash
    · rw [hr, Function.update_self, List.filter_cons_of_pos (by simpa using hr)]
      simp
    · rw [Function.update_of_ne (Ne.symm hr), List.filter_cons_of_neg (by simpa using hr)]

theorem JoinMap.Valid.lookup {m : JoinMap V} (h : m.Valid) (me : ℕ) :
    m.lookup me = .ok (contents m (normalise me)) := by
  obtain ⟨slot, e, hs, he⟩ | habs := @JoinPairArray.present_or_absent V m.myArray me
  · have hvalues := h.toTable.values_present hs
    rw [he] at hvalues
    simp [JoinMap.lookup, JoinPairArray.lookup, h.toTable.find_present hs he, hs, contents, hvalues]
  · obtain ⟨slot, hfind, hempty, -⟩ := h.toTable.find_absent habs
    simp [JoinMap.lookup, JoinPairArray.lookup, hfind, hempty, contents, JoinPairArray.values_absent habs]

theorem JoinMap.Valid.iteration_ascending {m : JoinMap V} (h : m.Valid) :
    (m.iteration.map Prod.fst).Pairwise (· < ·) := by
  have hperm := m.myArray.groups_perm.map Prod.fst
  rw [List.map_map] at hperm
  have hnodup : (m.iteration.map Prod.fst).Nodup := hperm.nodup_iff.mpr h.toTable.placed.nodup
  have hle : (m.iteration.map Prod.fst).Pairwise (· ≤ ·) := List.pairwise_map.mpr m.myArray.groups_sorted
  exact (hle.and hnodup).imp fun hab => Nat.lt_of_le_of_ne hab.1 hab.2

theorem JoinMap.Valid.mem_iteration {m : JoinMap V} (h : m.Valid) (g : ℕ × List V) :
    g ∈ m.iteration ↔ normalise g.1 = g.1 ∧ contents m g.1 ≠ [] ∧ g.2 = contents m g.1 := by
  have hmem : g ∈ m.iteration ↔ ∃ e, some e ∈ m.myArray.data ∧ (e.hash, m.myArray.group e) = g := by
    simp only [JoinMap.iteration, m.myArray.groups_perm.mem_iff, List.mem_map, List.reduceOption_mem_iff]
  rw [hmem]
  constructor
  · rintro ⟨e, he, rfl⟩
    obtain ⟨slot, hs⟩ := List.mem_iff_getElem?.mp he
    have hvalues := h.toTable.values_present hs
    refine ⟨h.toTable.hashed e he, ?_, hvalues.symm⟩
    rw [contents, hvalues]
    simp [JoinPairArray.group]
  · rintro ⟨-, hne, hg⟩
    by_contra hnone
    apply hne
    apply JoinPairArray.values_absent
    intro e he hh
    apply hnone
    obtain ⟨slot, hs⟩ := List.mem_iff_getElem?.mp he
    refine ⟨e, he, ?_⟩
    have hvalues := h.toTable.values_present hs
    rw [hh] at hvalues
    exact Prod.ext hh (hvalues.symm.trans hg.symm)

variable [Inhabited V]

theorem JoinPairArray.push_enough (a : JoinPairArray V) (me : ℕ) (a' : JoinPairArray V) :
    a.push .enough me ≠ (a', .error .notEnoughSpace) := by
  intro h
  rw [push] at h
  split at h
  · simp at h
  · split at h
    · simp at h
    · split at h <;> simp [append] at h

theorem JoinMap.Valid.insert {m : JoinMap V} (h : m.Valid) (r : ℕ × V) :
    ∃ m', m.insert r = .ok m' ∧ m'.Valid ∧ contents m' = (contents m).push (normalise r.1) r.2 := by
  -- The array that takes the record is the old one or the doubled one.
  have harray {a : JoinPairArray V} (ha : a.Valid) (hroom : a.usedSlots < a.maxSlots)
      (hvalues : ∀ hash, a.values hash = contents m hash)
      (hpush : m.push .enough r.1 = (⟨(a.push .enough r.1).1⟩, (a.push .enough r.1).2)) :
      ∃ m', m.insert r = .ok m' ∧ m'.Valid ∧ contents m' = (contents m).push (normalise r.1) r.2 := by
    obtain ⟨a', place, hp, hpushed⟩ | ⟨a', hp, -⟩ := ha.push_cases .enough r.1 hroom
    · rw [hp] at hpush
      refine ⟨⟨a'.store place r.2⟩, by rw [JoinMap.insert, hpush]; rfl, hpushed.valid r.2, ?_⟩
      funext hash
      rw [contents, hpushed.values, Multimap.push]
      by_cases hh : hash = normalise r.1
      · rw [if_pos hh, hh, Function.update_self, hvalues]
      · rw [if_neg hh, Function.update_of_ne hh, hvalues]
    · exact absurd hp (a.push_enough r.1 a')
  by_cases hfull : m.myArray.isOverFull = true
  · obtain ⟨temp, hd, hv, -, hroom, -, hvalues⟩ := JoinPairArray.Valid.doubleArray_ok h
    exact harray hv hroom hvalues (by simp [push, hfull, hd])
  · have hroom : m.myArray.usedSlots < m.myArray.maxSlots := by
      simpa [JoinPairArray.isOverFull] using hfull
    exact harray h hroom (fun _ => rfl) (by simp [push, hfull])

theorem JoinMap.Valid.pushAll {m : JoinMap V} (h : m.Valid) (records : List (ℕ × V)) :
    ∃ m', m.pushAll records = .ok m' ∧ m'.Valid ∧
      contents m' = records.foldl (fun t r => t.push (normalise r.1) r.2) (contents m) := by
  induction records generalizing m with
  | nil => exact ⟨m, rfl, h, rfl⟩
  | cons r records ih =>
    obtain ⟨m₁, hm₁, hv₁, hc₁⟩ := h.insert r
    obtain ⟨m', hm', hv', hc'⟩ := ih hv₁
    refine ⟨m', ?_, hv', ?_⟩
    · rw [JoinMap.pushAll, List.foldlM_cons, hm₁, ok_bind]
      exact hm'
    · rw [hc', hc₁, List.foldl_cons]

theorem JoinMap.pushAll_refines {initSize : ℕ} {m₀ m : JoinMap V} (h₀ : JoinMap.ofSize initSize = .ok m₀)
    {records : List (ℕ × V)} (hm : m₀.pushAll records = .ok m) :
    (∀ me, m.lookup me = .ok (pushedUnder records me)) ∧ (m.iteration.map Prod.fst).Pairwise (· < ·) ∧
      ∀ g, g ∈ m.iteration ↔ g.1 ∈ records.map (fun r => normalise r.1) ∧ g.2 = pushedUnder records g.1 := by
  have hstart : m₀.Valid ∧ ∀ hash, contents m₀ hash = [] := by
    rw [JoinMap.ofSize] at h₀
    split_ifs at h₀
    cases h₀
    refine ⟨JoinPairArray.ofSize_valid (Nat.le_max_right _ _), ?_⟩
    intro hash
    apply JoinPairArray.values_absent
    intro e he
    simp [JoinPairArray.ofSize, List.mem_replicate] at he
  obtain ⟨m', hm', hvalid, hcontents⟩ := hstart.1.pushAll records
  obtain rfl : m = m' := by
    rw [hm] at hm'
    cases hm'
    rfl
  have happly (hash : ℕ) : contents m hash = (records.filter fun r => normalise r.1 = hash).map Prod.snd := by
    rw [hcontents, foldl_push_apply, hstart.2, List.nil_append]
  refine ⟨?_, hvalid.iteration_ascending, ?_⟩
  · intro me
    rw [hvalid.lookup, happly]
    rfl
  · intro g
    rw [hvalid.mem_iteration, happly]
    constructor
    · rintro ⟨hnorm, hne, hg⟩
      refine ⟨?_, by rw [hg, pushedUnder, hnorm]⟩
      obtain ⟨v, hv⟩ := List.exists_mem_of_ne_nil _ hne
      obtain ⟨r, hr, -⟩ := List.mem_map.mp hv
      obtain ⟨hr, hhash⟩ := List.mem_filter.mp hr
      exact List.mem_map.mpr ⟨r, hr, by simpa using hhash⟩
    · rintro ⟨hin, hg⟩
      obtain ⟨r, hr, hhash⟩ := List.mem_map.mp hin
      have hnorm : normalise g.1 = g.1 := by
        rw [← hhash]
        exact JoinPairArray.normalise_normalise r.1
      rw [pushedUnder, hnorm] at hg
      refine ⟨hnorm, ?_, hg⟩
      apply List.ne_nil_of_mem
      exact List.mem_map_of_mem (List.mem_filter.mpr ⟨hr, by simpa using hhash⟩)

end Refinement

end PlinyCompute.PdbJoinMap
