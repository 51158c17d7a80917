import Mathlib.Data.Finset.Card
import PlinyCompute.PdbMap
import PlinyCompute.Transition

namespace PlinyCompute.PdbMap

open Probing

variable {K V : Type}

structure FiniteMap (K V : Type) where
  dom : Finset K
  val : K → V

inductive Call (K V : Type)
  | read (k : K)
  | assign (k : K) (v : V)
  | count (k : K)
  | size
  | iterate

inductive Result (K V : Type)
  | value (v : V)
  | number (n : ℕ)
  | pairs (visited : Multiset (K × V))
  | done

def FiniteMap.pairs (t : FiniteMap K V) : Multiset (K × V) := t.dom.val.map fun k => (k, t.val k)

def FiniteMap.call [DecidableEq K] (c : Call K V) (t : FiniteMap K V) : FiniteMap K V × Result K V :=
  match c with
  | .read k => (⟨insert k t.dom, t.val⟩, .value (t.val k))
  | .assign k v => (⟨insert k t.dom, Function.update t.val k v⟩, .done)
  | .count k => (t, .number (if k ∈ t.dom then 1 else 0))
  | .size => (t, .number t.dom.card)
  | .iterate => (t, .pairs t.pairs)

section Iterator

structure PDBMapIterator where
  slot : ℕ
  done : Bool

variable (a : PairArray K V)

def skipUnused : ℕ → ℕ → ℕ
  | 0, slot => slot
  | rounds + 1, slot =>
    if slot ≠ a.numSlots ∧ (a.data[slot]?.join).isNone then skipUnused rounds (slot + 1) else slot

def begin : PDBMapIterator :=
  let slot := skipUnused a a.numSlots 0
  ⟨slot, slot = a.numSlots⟩

def PDBMapIterator.next (it : PDBMapIterator) : PDBMapIterator :=
  let slot := skipUnused a a.numSlots (if it.done then it.slot else it.slot + 1)
  ⟨slot, it.done || slot = a.numSlots⟩

def visit : ℕ → PDBMapIterator → Except Thrown (List (K × V))
  | 0, _ => .error .exit
  | rounds + 1, it =>
    if it.done then .ok []
    else
      match a.data[it.slot]?.join with
      | none => .error .exit
      | some e => (visit rounds (it.next a)).map ((e.key, e.value) :: ·)

end Iterator

namespace Map

/-- `Map (initSize)`; the loop that looks for a power of two ends the process above `2 ^ 31`. -/
def ofSize (initSize : ℕ) : Except Thrown (Map K V) :=
  if 2 ^ 31 < initSize then .error .exit else .ok ⟨.ofSize (max initSize 2)⟩

def size (m : Map K V) : ℕ := m.myArray.usedSlots

variable [DecidableEq K] [Inhabited V] (hash : K → ℕ)

def call (c : Call K V) (m : Map K V) : Except Thrown (Map K V × Result K V) :=
  match c with
  | .read k =>
    match m.index hash .enough k with
    | (_, .error e) => .error e
    | (m, .ok slot) => .ok (m, .value (m.fetch slot))
  | .assign k v =>
    match m.index hash .enough k with
    | (_, .error e) => .error e
    | (m, .ok slot) => .ok (m.store slot v, .done)
  | .count k => .ok (m, .number (m.count hash k))
  | .size => .ok (m, .number m.size)
  | .iterate => (visit m.myArray (m.myArray.numSlots + 1) (begin m.myArray)).map fun l => (m, .pairs l)

end Map

section IteratorCorrectness

variable {a : PairArray K V}

theorem skipUnused_spec {rounds slot : ℕ} (hslot : slot ≤ a.numSlots) (hr : a.numSlots - slot ≤ rounds) :
    slot ≤ skipUnused a rounds slot ∧ skipUnused a rounds slot ≤ a.numSlots ∧
      (a.data.drop slot).reduceOption = (a.data.drop (skipUnused a rounds slot)).reduceOption ∧
      (skipUnused a rounds slot ≠ a.numSlots → ∃ e, a.data[skipUnused a rounds slot]? = some (some e)) := by
  induction rounds generalizing slot with
  | zero =>
    obtain rfl : slot = a.numSlots := by omega
    simp [skipUnused]
  | succ rounds ih =>
    rw [skipUnused]
    split_ifs with hskip
    · have hlt : slot < a.data.length := Nat.lt_of_le_of_ne hslot hskip.1
      obtain ⟨h1, h2, h3, h4⟩ := @ih (slot + 1) hlt (by omega)
      refine ⟨by omega, h2, ?_, h4⟩
      have hnone : a.data[slot] = none := by
        simpa [List.getElem?_eq_getElem hlt] using hskip.2
      rw [← h3, List.drop_eq_getElem_cons hlt, hnone, List.reduceOption_cons_of_none]
    · refine ⟨Nat.le_refl _, hslot, rfl, ?_⟩
      intro hne
      have hlt : slot < a.data.length := Nat.lt_of_le_of_ne hslot hne
      rw [List.getElem?_eq_getElem hlt] at hskip ⊢
      cases hd : a.data[slot] with
      | none => exact absurd ⟨hne, by simp [hd]⟩ hskip
      | some e => exact ⟨e, rfl⟩

theorem visit_spec {rounds : ℕ} {it : PDBMapIterator} (hslot : it.slot ≤ a.numSlots)
    (hdone : it.done = decide (it.slot = a.numSlots))
    (hused : it.slot ≠ a.numSlots → ∃ e, a.data[it.slot]? = some (some e))
    (hr : a.numSlots - it.slot < rounds) :
    visit a rounds it = .ok ((a.data.drop it.slot).reduceOption.map fun e => (e.key, e.value)) := by
  induction rounds generalizing it with
  | zero => omega
  | succ rounds ih =>
    rw [visit]
    by_cases hend : it.slot = a.numSlots
    · rw [if_pos (by simp [hdone, hend]), hend, PairArray.numSlots, List.drop_length]
      rfl
    · have hnot : it.done = false := by simp [hdone, hend]
      obtain ⟨e, he⟩ := hused hend
      have hlt : it.slot < a.data.length := (List.getElem?_eq_some_iff.mp he).1
      obtain ⟨h1, h2, h3, h4⟩ := @skipUnused_spec K V a a.numSlots (it.slot + 1) hlt (by omega)
      have hnext : visit a rounds (it.next a) =
          .ok ((a.data.drop (it.slot + 1)).reduceOption.map fun e => (e.key, e.value)) := by
        have hslot' : (it.next a).slot = skipUnused a a.numSlots (it.slot + 1) := by
          simp [PDBMapIterator.next, hnot]
        rw [h3, ← hslot']
        apply ih
        · rw [hslot']
          exact h2
        · simp [PDBMapIterator.next, hnot]
        · rw [hslot']
          exact h4
        · rw [hslot']
          omega
      rw [if_neg (by simp [hnot]), he, Option.join_some]
      dsimp only
      rw [hnext, List.drop_eq_getElem_cons hlt]
      have hval : a.data[it.slot] = some e := (List.getElem?_eq_some_iff.mp he).2
      rw [hval, List.reduceOption_cons_of_some]
      rfl

theorem visit_begin (a : PairArray K V) : visit a (a.numSlots + 1) (begin a) = .ok a.pairs := by
  obtain ⟨h1, h2, h3, h4⟩ := @skipUnused_spec K V a a.numSlots 0 (Nat.zero_le _) (by omega)
  have hv := @visit_spec K V a (a.numSlots + 1) (begin a) h2 rfl h4 (by omega)
  rw [hv]
  simp only [begin]
  rw [← h3, List.drop_zero]
  rfl

end IteratorCorrectness

section Refinement

variable [DecidableEq K]

def FiniteMap.others (t : FiniteMap K V) (k : K) : Multiset (K × V) :=
  (t.dom.erase k).val.map fun k' => (k', t.val k')

theorem FiniteMap.pairs_assign (t : FiniteMap K V) (k : K) (v : V) :
    (FiniteMap.pairs ⟨insert k t.dom, Function.update t.val k v⟩) = (k, v) ::ₘ t.others k := by
  have hdom : (insert k t.dom).val = k ::ₘ (t.dom.erase k).val := by
    rw [← Finset.insert_val_of_notMem (Finset.notMem_erase k t.dom)]
    congr 1
    ext k'
    by_cases hk : k' = k <;> simp [hk]
  rw [pairs, hdom, Multiset.map_cons, others]
  dsimp only
  rw [Function.update_self]
  congr 1
  apply Multiset.map_congr rfl
  intro k' hk'
  have hne : k' ≠ k := (Finset.mem_erase.mp hk').1
  rw [Function.update_of_ne hne]

theorem FiniteMap.pairs_of_mem {t : FiniteMap K V} {k : K} (h : k ∈ t.dom) :
    t.pairs = (k, t.val k) ::ₘ t.others k := by
  have hassign := t.pairs_assign k (t.val k)
  rwa [Function.update_eq_self, Finset.insert_eq_of_mem h] at hassign

theorem FiniteMap.pairs_of_notMem {t : FiniteMap K V} {k : K} (h : k ∉ t.dom) : t.pairs = t.others k := by
  rw [others, Finset.erase_eq_of_notMem h, pairs]

variable [Inhabited V] (hash : K → ℕ)

structure Refines (m : Map K V) (t : FiniteMap K V) : Prop where
  valid : m.Valid hash
  pairs : (m.pairs : Multiset (K × V)) = t.pairs
  used : m.myArray.usedSlots = m.pairs.length
  absent : ∀ k ∉ t.dom, t.val k = default

variable {hash}

namespace Refines

variable {m : Map K V} {t : FiniteMap K V}

omit [DecidableEq K] in
theorem mem_iff (h : Refines hash m t) (k : K) : k ∈ m.pairs.map Prod.fst ↔ k ∈ t.dom := by
  rw [← Multiset.mem_coe, ← Multiset.map_coe, h.pairs, FiniteMap.pairs, Multiset.map_map]
  simp

omit [DecidableEq K] in
theorem size (h : Refines hash m t) : m.size = t.dom.card := by
  rw [Map.size, h.used, ← Multiset.coe_card, h.pairs, FiniteMap.pairs, Multiset.card_map]
  rfl

theorem count (h : Refines hash m t) (k : K) : m.count hash k = if k ∈ t.dom then 1 else 0 := by
  rw [Map.count, PairArray.Valid.count_eq h.valid]
  exact if_congr (h.mem_iff k) rfl rfl

omit [DecidableEq K] in
theorem store_fetch {a : PairArray K V} {slot : ℕ} {e : MapRecordClass K V}
    (hs : a.data[slot]? = some (some e)) : a.store slot (a.fetch slot) = a := by
  have hd := PairArray.store_data hs (a.fetch slot)
  have hfetch : a.fetch slot = e.value := by simp [PairArray.fetch, hs]
  obtain ⟨hin, hval⟩ := List.getElem?_eq_some_iff.mp hs
  rw [hfetch] at hd ⊢
  have hself : a.data.set slot (some e) = a.data := by
    rw [← hval, List.set_getElem_self]
  cases a
  simp only [PairArray.store] at hd ⊢
  rw [hd]
  exact congrArg (PairArray.mk · _) hself

theorem of_pairs {m' : Map K V} {k : K} {v : V} (h : Refines hash m t) (hv : m'.Valid hash)
    (hp : (m'.pairs : Multiset (K × V)) = (k, v) ::ₘ t.others k)
    (hu : m'.myArray.usedSlots = m'.pairs.length) :
    Refines hash m' ⟨insert k t.dom, Function.update t.val k v⟩ := by
  refine ⟨hv, hp.trans (t.pairs_assign k v).symm, hu, ?_⟩
  intro k' hk'
  obtain ⟨hne, hout⟩ := not_or.mp (mt Finset.mem_insert.mpr hk')
  dsimp only
  rw [Function.update_of_ne hne]
  exact h.absent k' hout

theorem index (h : Refines hash m t) (k : K) :
    ∃ m' slot e, m.index hash .enough k = (m', .ok slot) ∧ m'.myArray.data[slot]? = some (some e) ∧
      m'.fetch slot = t.val k ∧
      ∀ v, Refines hash (m'.store slot v) ⟨insert k t.dom, Function.update t.val k v⟩ := by
  by_cases hk : k ∈ m.pairs.map Prod.fst
  · obtain ⟨slot, e, hs, rfl, hi⟩ := h.valid.index_present .enough hk
    obtain ⟨rest, hbefore, hafter⟩ := PairArray.pairs_store hs
    have hdom := (h.mem_iff e.key).mp hk
    have hpairs : (e.key, e.value) ::ₘ (rest : Multiset (K × V)) = (e.key, t.val e.key) ::ₘ t.others e.key := by
      rw [← FiniteMap.pairs_of_mem hdom, ← h.pairs, Multiset.cons_coe]
      exact Multiset.coe_eq_coe.mpr hbefore.symm
    have hvalue : e.value = t.val e.key := by
      have hin : (e.key, e.value) ∈ t.pairs := by
        rw [FiniteMap.pairs_of_mem hdom, ← hpairs]
        exact Multiset.mem_cons_self _ _
      obtain ⟨k', -, hk'⟩ := Multiset.mem_map.mp hin
      rw [Prod.mk.injEq] at hk'
      rw [← hk'.2, hk'.1]
    have hrest : (rest : Multiset (K × V)) = t.others e.key := by
      rw [hvalue] at hpairs
      exact (Multiset.cons_inj_right _).mp hpairs
    refine ⟨m, slot, e, hi, hs, by simpa [Map.fetch, PairArray.fetch, hs] using hvalue, ?_⟩
    intro v
    apply h.of_pairs (PairArray.Valid.store h.valid hs v)
    · rw [← hrest, Multiset.cons_coe]
      exact Multiset.coe_eq_coe.mpr (hafter v)
    · have hlen := (hafter v).length_eq.trans hbefore.length_eq.symm
      exact h.used.trans hlen.symm
  · have hdom : k ∉ t.dom := mt (h.mem_iff k).mpr hk
    obtain ⟨a, a', slot, hi, hins, hp, -, hused⟩ | ⟨m', -, hne, -⟩ := h.valid.index_absent .enough hk
    · refine ⟨⟨a'⟩, slot, _, hi, hins.entry, ?_, ?_⟩
      · rw [h.absent k hdom]
        simp [Map.fetch, PairArray.fetch, hins.entry]
      · intro v
        have hstored := hins.pairs_store v
        apply h.of_pairs (hins.valid.store hins.entry v)
        · rw [← FiniteMap.pairs_of_notMem hdom, ← h.pairs, Multiset.cons_coe]
          exact Multiset.coe_eq_coe.mpr (hstored.trans (hp.cons _))
        · have hlen := (hstored.trans (hp.cons _)).length_eq
          rw [List.length_cons] at hlen
          exact (hins.used.trans (congrArg (· + 1) (hused h.used))).trans hlen.symm
    · exact absurd rfl hne

theorem call (h : Refines hash m t) (c : Call K V) :
    ∃ m', m.call hash c = .ok (m', (t.call c).2) ∧ Refines hash m' (t.call c).1 := by
  cases c with
  | read k =>
    obtain ⟨m', slot, e, hi, hs, hfetch, hstore⟩ := h.index k
    refine ⟨m', by simp [Map.call, hi, hfetch, FiniteMap.call], ?_⟩
    have hsame := hstore (m'.fetch slot)
    rw [hfetch, Function.update_eq_self, ← hfetch] at hsame
    have hback : m'.store slot (m'.fetch slot) = m' := congrArg Map.mk (store_fetch hs)
    rwa [hback] at hsame
  | assign k v =>
    obtain ⟨m', slot, e, hi, -, -, hstore⟩ := h.index k
    exact ⟨m'.store slot v, by simp [Map.call, hi, FiniteMap.call], hstore v⟩
  | count k => exact ⟨m, by simp [Map.call, FiniteMap.call, h.count], h⟩
  | size => exact ⟨m, by simp [Map.call, FiniteMap.call, h.size], h⟩
  | iterate =>
    refine ⟨m, ?_, h⟩
    rw [Map.call, visit_begin, FiniteMap.call, ← h.pairs]
    rfl

end Refines

omit [DecidableEq K] in
theorem refines_ofSize {initSize : ℕ} {m₀ : Map K V} (h₀ : Map.ofSize initSize = .ok m₀) :
    Refines hash m₀ ⟨∅, fun _ => default⟩ ∧ m₀.myArray.numSlots = max initSize 2 := by
  rw [Map.ofSize] at h₀
  split_ifs at h₀
  cases h₀
  have hpairs : (PairArray.ofSize (max initSize 2) : PairArray K V).pairs = [] := by
    simp [PairArray.pairs, PairArray.ofSize]
  refine ⟨⟨PairArray.ofSize_valid (Nat.le_max_right _ _), ?_, ?_, fun _ _ => rfl⟩, List.length_replicate⟩
  · rw [Map.pairs, hpairs]
    rfl
  · rw [Map.pairs, hpairs]
    rfl

end Refinement

end PlinyCompute.PdbMap
