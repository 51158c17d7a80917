import PlinyCompute.MapAtomic

namespace PlinyCompute.PdbMap

open Probing Transition

variable {K V : Type} [DecidableEq K] [Inhabited V]

structure Undone (hash : K → ℕ) (m m' : Map K V) : Prop where
  same : SameContents hash m m'
  later : ∀ calls : List (Call K V), observe (Map.call hash) calls m' = observe (Map.call hash) calls m

variable {hash : K → ℕ}

theorem Map.index_enough_cases {m : Map K V} (h : m.myArray.Loose hash) {k : K} (hk : m.count hash k = 0) :
    (m.myArray.isOverFull = false ∧ ∃ slot, m.index hash .enough k = (⟨⟨m.myArray.data.set slot
        (some ⟨hasher hash k, k, default⟩), m.myArray.usedSlots + 1⟩⟩, .ok slot) ∧
        m.myArray.data[slot]? = some none) ∨
      ∃ temp : PairArray K V, m.myArray.isOverFull = true ∧ temp.Valid hash ∧ temp.usedSlots = temp.pairs.length ∧
        temp.usedSlots < temp.maxSlots ∧ PairArray.Loaded m.myArray.data (.ofSize (m.myArray.numSlots * 2)) temp ∧
        m.index hash .enough k = Map.construct hash .enough temp k := by
  unfold Map.index
  by_cases hfull : m.myArray.isOverFull = true
  · rw [if_pos ⟨hk, hfull⟩]
    rcases PairArray.doubleArray_cases h.slots (h.used.trans h.bound) .enough with
      ⟨old, temp, hd, hv, hused, hroom, hload, -⟩ | ⟨old, n, -, -, -, -, hr⟩
    · rw [hd]
      exact .inr ⟨temp, hfull, hv, hused, hroom, hload, rfl⟩
    · rcases hr with ⟨hr, -⟩ | ⟨hr, -⟩ <;> cases hr
  · rw [if_neg fun hc => hfull hc.2]
    have hc : m.myArray.count hash k = 0 := hk
    rcases h.index_cases k with ⟨slot, e, -, -, hone, -⟩ | ⟨slot, hs, -, hi⟩
    · rw [hc] at hone
      cases hone
    · exact .inl ⟨by simpa using hfull, slot, by simp [Map.construct, hi], hs⟩

theorem observe_read_size {m m' : Map K V} {k : K} {slot : ℕ} (h : m.index hash .enough k = (m', .ok slot)) :
    observe (Map.call hash) [.read k, .size] m = .ok [.value (m'.fetch slot), .number m'.size] := by
  simp [observe, Map.call, h, ok_bind]

omit [Inhabited V] in
theorem Map.size_setUnused (m : Map K V) (k : K) : (m.setUnused hash k).size = m.size := by
  unfold Map.setUnused Map.size PairArray.setUnused
  cases m.myArray.find hash k <;> rfl

omit [Inhabited V] in
theorem notMem_setUnused {a : PairArray K V} (h : a.Valid hash) {slot : ℕ} {e : MapRecordClass K V}
    (hs : a.data[slot]? = some (some e)) : e.key ∉ (a.setUnused hash e.key).pairs.map Prod.fst := by
  have hunused : a.setUnused hash e.key = { a with data := a.data.set slot none } := by
    rw [PairArray.setUnused, h.find_present hs]
  have hperm := ((reduceOption_perm_cons hs).map fun e => (e.key, e.value)).map Prod.fst
  have hnodup := hperm.nodup_iff.mp h.nodup
  rw [hunused]
  exact (List.nodup_cons.mp hnodup).1

theorem Map.not_undone {m : Map K V} (h : m.myArray.Loose hash) {k : K} (hk : m.count hash k = 0) {m' : Map K V}
    {slot : ℕ} (hi : m.index hash .enough k = (m', .ok slot)) : ¬Undone hash m (m'.setUnused hash k) := by
  rintro ⟨hsame, hlater⟩
  have hsize : m'.size = m.size := (m'.size_setUnused k).symm.trans hsame.size
  rcases Map.index_enough_cases h hk with ⟨-, s, hs, -⟩ | ⟨temp, hfull, hv, hused, hroom, hload, hcon⟩
  · rw [hi] at hs
    cases hs
    have hmore : m.myArray.usedSlots + 1 = m.myArray.usedSlots := hsize
    omega
  · rw [hcon] at hi
    by_cases hkt : k ∈ temp.pairs.map Prod.fst
    · -- the key was in the map, where no search found it
      obtain ⟨s, e, hs, rfl, hindex⟩ := hv.index_present hkt
      rw [Map.construct, if_neg (by simp), hindex] at hi
      cases hi
      have hmem := ((Map.iteration_eq_iff.mp hsame.iteration).map Prod.fst).mem_iff (a := e.key)
      rw [hload.keys] at hkt
      have hin : e.key ∈ m.pairs.map Prod.fst := by
        rcases hkt with ⟨f, hf, hkey⟩ | hnone
        · exact PairArray.mem_keys.mpr ⟨f, hf, hkey⟩
        · simp [PairArray.ofSize, PairArray.pairs] at hnone
      exact notMem_setUnused hv hs (hmem.mpr hin)
    · -- the map was doubled, so the next insertion counts one slot more than in the map that was not
      obtain ⟨a, s, hindex, hins⟩ := hv.index_absent hkt hroom
      have hm' : Map.construct hash .enough temp k = (⟨a⟩, .ok s) := by simp [Map.construct, hindex]
      rw [hm'] at hi
      cases hi
      have hread := observe_read_size (hcon.trans hm')
      have hunused : (a.setUnused hash k).data = temp.data := hins.setUnused
      have hcount : (Map.setUnused hash ⟨a⟩ k).count hash k = 0 := by
        have hzero : temp.count hash k = 0 := by rw [hv.count_eq, if_neg hkt]
        unfold Map.count Map.setUnused PairArray.count PairArray.find PairArray.numSlots at *
        rw [hunused]
        exact hzero
      have hloose : (Map.setUnused hash ⟨a⟩ k).myArray.Loose hash := hins.valid.loose.setUnused k
      rcases Map.index_enough_cases hloose hcount with ⟨-, s', hagain, -⟩ | ⟨temp', hfull', -⟩
      · have hreadAgain := observe_read_size hagain
        rw [hlater, hread] at hreadAgain
        have hnumber : a.usedSlots = (a.setUnused hash k).usedSlots + 1 := by
          simp only [Except.ok.injEq, List.cons.injEq, Result.number.injEq, and_true] at hreadAgain
          exact hreadAgain.2
        have hkeep : (a.setUnused hash k).usedSlots = a.usedSlots := Map.size_setUnused ⟨a⟩ k
        omega
      · -- there is room in the doubled map
        have hkeep : (a.setUnused hash k).usedSlots = a.usedSlots := Map.size_setUnused ⟨a⟩ k
        have hslots : (a.setUnused hash k).numSlots = m.myArray.numSlots * 2 := by
          rw [PairArray.numSlots, hunused]
          exact hload.slots.trans (by simp [PairArray.numSlots, PairArray.ofSize])
        have hbound := h.bound
        have htwo := h.slots
        have hsz : a.usedSlots = m.myArray.usedSlots := hsize
        have hover : (a.setUnused hash k).maxSlots ≤ (a.setUnused hash k).usedSlots := of_decide_eq_true hfull'
        rw [PairArray.maxSlots, hslots, hkeep, hsz] at hover
        rw [PairArray.maxSlots] at hbound
        omega

omit [Inhabited V] in
theorem same_of_data (hash : K → ℕ) {a b : PairArray K V} (h : a.data = b.data) :
    (∀ k, (⟨a⟩ : Map K V).lookup hash k = (⟨b⟩ : Map K V).lookup hash k) ∧
      (⟨a⟩ : Map K V).iteration = (⟨b⟩ : Map K V).iteration := by
  constructor
  · intro k
    unfold Map.lookup PairArray.find PairArray.numSlots
    rw [h]
  · rw [Map.iteration_eq_iff, Map.pairs, Map.pairs, PairArray.pairs, PairArray.pairs, h]

theorem Map.Valid.setUnused_index {m : Map K V} (h : m.Valid hash) {k : K} (hk : m.count hash k = 0) {m' : Map K V}
    {slot : ℕ} (hi : m.index hash .enough k = (m', .ok slot)) :
    (∀ k', (m'.setUnused hash k).lookup hash k' = m.lookup hash k') ∧
      (m'.setUnused hash k).iteration = m.iteration ∧
      (m'.setUnused hash k).size = (if m.myArray.isOverFull then m.pairs.length else m.size) + 1 := by
  have hnew : k ∉ m.pairs.map Prod.fst := by
    intro hmem
    have hone : m.count hash k = 1 := (PairArray.Valid.count_eq h k).trans (if_pos hmem)
    exact absurd (hk.symm.trans hone) (by decide)
  rw [Map.size_setUnused]
  rcases Map.index_enough_cases h.loose hk with ⟨hfull, -⟩ | ⟨temp, hfull, hv, hused, hroom, hload, hcon⟩
  · have hroom : m.myArray.usedSlots < m.myArray.maxSlots := by simpa [PairArray.isOverFull] using hfull
    obtain ⟨a, s, hindex, hins⟩ := PairArray.Valid.index_absent h hnew hroom
    have hm' : m.index hash .enough k = (⟨a⟩, .ok s) := by simp [Map.index, hfull, Map.construct, hindex]
    rw [hm'] at hi
    cases hi
    obtain ⟨hlookup, hiteration⟩ := same_of_data hash hins.setUnused
    refine ⟨hlookup, hiteration, ?_⟩
    rw [if_neg (by simp [hfull])]
    exact hins.used
  · obtain ⟨hperm, hdoubled⟩ := doubled_of_found h.loose hv hload fun slot e hs => PairArray.Valid.find_present h hs
    have hkt : k ∉ temp.pairs.map Prod.fst := fun hmem => hnew ((hperm.map Prod.fst).mem_iff.mp hmem)
    obtain ⟨a, s, hindex, hins⟩ := hv.index_absent hkt hroom
    have hm' : Map.construct hash .enough temp k = (⟨a⟩, .ok s) := by simp [Map.construct, hindex]
    rw [hcon, hm'] at hi
    cases hi
    obtain ⟨hlookup, hiteration⟩ := same_of_data hash hins.setUnused
    refine ⟨fun k' => (hlookup k').trans (hdoubled k'), hiteration.trans (Map.iteration_eq_iff.mpr hperm), ?_⟩
    rw [if_pos hfull]
    have hsize : a.usedSlots = temp.usedSlots + 1 := hins.used
    rw [hused, hperm.length_eq] at hsize
    exact hsize

end PlinyCompute.PdbMap
