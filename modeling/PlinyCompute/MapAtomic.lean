import PlinyCompute.MapRefinement

namespace PlinyCompute.PdbMap

open Probing Transition

variable {K V : Type}

section Observables

variable [DecidableEq K] (hash : K → ℕ)

def Map.lookup (m : Map K V) (k : K) : Option V :=
  (m.myArray.find hash k).bind fun slot => m.myArray.data[slot]?.join.map MapRecordClass.value

def Map.iteration (m : Map K V) : Except Thrown (Multiset (K × V)) :=
  (visit m.myArray (m.myArray.numSlots + 1) (begin m.myArray)).map fun l => (l : Multiset (K × V))

structure SameContents (m m' : Map K V) : Prop where
  count : ∀ k, m'.count hash k = m.count hash k
  lookup : ∀ k, m'.lookup hash k = m.lookup hash k
  size : m'.size = m.size
  iteration : m'.iteration = m.iteration

inductive MapOp (K V : Type)
  -- `m[k]`, and what is stored there
  | index (room : Room) (k : K) (v : Option V)
  | setUnused (k : K)

variable [Inhabited V]

def Map.change (op : MapOp K V) (m : Map K V) : Except Thrown (Map K V) :=
  match op with
  | .index room k v =>
    match m.index hash room k with
    | (m, .ok slot) => .ok (match v with | none => m | some v => m.store slot v)
    | (m, .error .notEnoughSpace) => .ok m
    | (_, .error .exit) => .error .exit
  | .setUnused k => .ok (m.setUnused hash k)

def Map.Reached (m : Map K V) : Prop :=
  Reachable (Map.change hash) (fun _ _ => True) (fun m => ∃ initSize, Map.ofSize initSize = .ok m) m

structure Map.Sound (m : Map K V) : Prop where
  found : ∀ slot e, m.myArray.data[slot]? = some (some e) → m.myArray.find hash e.key = some slot
  used : m.size = m.pairs.length

def Room.KeepsContents (room : Room) (m : Map K V) : Prop :=
  match room with
  | .rehash moved => moved = 0
  | .pair => m.myArray.isOverFull = true → m.Sound hash
  | _ => True

end Observables

section Loose

variable {hash : K → ℕ}

namespace PairArray

structure Loose (hash : K → ℕ) (a : PairArray K V) : Prop where
  slots : 2 ≤ a.numSlots
  hashed : ∀ e, some e ∈ a.data → e.hash = hasher hash e.key
  used : a.data.reduceOption.length ≤ a.usedSlots
  bound : a.usedSlots ≤ a.maxSlots

theorem Valid.loose {a : PairArray K V} (h : a.Valid hash) : a.Loose hash := ⟨h.slots, h.hashed, h.used, h.bound⟩

namespace Loose

variable {a : PairArray K V}

theorem free (h : a.Loose hash) : none ∈ a.data := by
  rw [← List.reduceOption_length_lt_iff]
  have hused := h.used
  have hbound := h.bound
  have hmax : a.maxSlots < a.numSlots := maxSlots_lt (by have := h.slots; omega)
  simp only [numSlots] at hmax
  omega

theorem home_lt (h : a.Loose hash) (t : ℕ) : t % (a.numSlots - 1) < a.data.length := by
  have hslots : 2 ≤ a.data.length := h.slots
  have hlt : t % (a.data.length - 1) < a.data.length - 1 := Nat.mod_lt _ (by omega)
  simp only [numSlots]
  omega

theorem of_subset (h : a.Loose hash) {data : List (Option (MapRecordClass K V))} (hlen : data.length = a.numSlots)
    (hsub : ∀ e, some e ∈ data → some e ∈ a.data) (hcount : data.reduceOption.length ≤ a.data.reduceOption.length) :
    Loose hash { a with data := data } := by
  refine ⟨?_, fun e he => h.hashed e (hsub e he), hcount.trans h.used, ?_⟩
  · exact h.slots.trans_eq hlen.symm
  · have hbound := h.bound
    simp only [maxSlots, numSlots] at hbound hlen ⊢
    rwa [hlen]

theorem setUnused [DecidableEq K] (h : a.Loose hash) (k : K) : (a.setUnused hash k).Loose hash := by
  unfold PairArray.setUnused
  split
  · exact h
  · apply h.of_subset
    · simp [numSlots]
    · intro e he
      rcases List.mem_or_eq_of_mem_set he with he | he
      · exact he
      · cases he
    · exact length_reduceOption_set_none _ _

theorem store (h : a.Loose hash) {slot : ℕ} {e : MapRecordClass K V} (hs : a.data[slot]? = some (some e)) (v : V) :
    (a.store slot v).Loose hash := by
  have hn : (a.store slot v).numSlots = a.numSlots := by simp [numSlots, PairArray.store]
  refine ⟨hn.symm ▸ h.slots, ?_, ?_, ?_⟩
  · intro f hf
    rw [store_data hs] at hf
    rcases List.mem_or_eq_of_mem_set hf with hf | hf
    · exact h.hashed f hf
    · cases hf
      exact h.hashed e (List.mem_of_getElem? hs)
  · exact (length_reduceOption_modify _ _ _).trans_le h.used
  · simp only [maxSlots, hn]
    exact h.bound

theorem insert (h : a.Loose hash) {slot : ℕ} (hs : a.data[slot]? = some none) (k : K) (v : V)
    (hroom : a.usedSlots < a.maxSlots) :
    Loose hash ⟨a.data.set slot (some ⟨hasher hash k, k, v⟩), a.usedSlots + 1⟩ := by
  refine ⟨by simpa [numSlots] using h.slots, ?_, ?_, ?_⟩
  · intro e he
    rcases List.mem_or_eq_of_mem_set he with he | he
    · exact h.hashed e he
    · cases he
      rfl
  · rw [(reduceOption_set hs _).length_eq, List.length_cons]
    exact Nat.succ_le_succ h.used
  · simp only [maxSlots, numSlots, List.length_set] at hroom ⊢
    exact hroom

variable [DecidableEq K]

theorem find_cases (h : a.Loose hash) (k : K) : ∃ slot, a.find hash k = some slot ∧
    (a.data[slot]? = some none ∨ ∃ e, a.data[slot]? = some (some e) ∧ e.key = k) := by
  obtain ⟨slot, hfind, hstop⟩ := exists_probe (fun e => e.hash == hasher hash k && e.key == k)
    (h.home_lt (hasher hash k)) h.free
  refine ⟨slot, hfind, hstop.imp id ?_⟩
  rintro ⟨e, he, hhit⟩
  simp only [Bool.and_eq_true, beq_iff_eq] at hhit
  exact ⟨e, he, hhit.2⟩

variable [Inhabited V]

theorem index_cases (h : a.Loose hash) (k : K) :
    (∃ slot e, a.data[slot]? = some (some e) ∧ e.key = k ∧ a.count hash k = 1 ∧ a.index hash k = some (a, slot)) ∨
      ∃ slot, a.data[slot]? = some none ∧ a.count hash k = 0 ∧
        a.index hash k = some (⟨a.data.set slot (some ⟨hasher hash k, k, default⟩), a.usedSlots + 1⟩, slot) := by
  obtain ⟨slot, hfind, hs | ⟨e, hs, hk⟩⟩ := h.find_cases k
  · exact .inr ⟨slot, hs, by simp [PairArray.count, hfind, hs], by simp [PairArray.index, hfind, hs]⟩
  · exact .inl ⟨slot, e, hs, hk, by simp [PairArray.count, hfind, hs], by simp [PairArray.index, hfind, hs]⟩

end Loose

end PairArray

end Loose

section Insertion

variable [DecidableEq K] [Inhabited V] {hash : K → ℕ}

structure Constructed (hash : K → ℕ) (room : Room) (a : PairArray K V) (k : K)
    (result : Map K V × Except Thrown ℕ) : Prop where
  fails : result.2 = .error .notEnoughSpace → result.1 = ⟨a⟩ ∧ room = .pair ∧ a.count hash k = 0
  loose : result.1.myArray.Loose hash
  ends : result.2 ≠ .error .exit
  slot : ∀ slot, result.2 = .ok slot → ∃ e, result.1.myArray.data[slot]? = some (some e)

theorem Map.constructed {a : PairArray K V} (h : a.Loose hash) (room : Room) (k : K)
    (hroom : a.count hash k = 0 → a.usedSlots < a.maxSlots) :
    Constructed hash room a k (Map.construct hash room a k) := by
  unfold Map.construct
  by_cases hfail : a.count hash k = 0 ∧ room = .pair
  · rw [if_pos hfail]
    exact ⟨fun _ => ⟨rfl, hfail.2, hfail.1⟩, h, nofun, nofun⟩
  · rw [if_neg hfail]
    rcases h.index_cases k with ⟨slot, e, hs, -, -, hi⟩ | ⟨slot, hs, hc, hi⟩
    · rw [hi]
      refine ⟨nofun, h, nofun, ?_⟩
      rintro _ ⟨⟩
      exact ⟨e, hs⟩
    · rw [hi]
      refine ⟨nofun, h.insert hs k default (hroom hc), nofun, ?_⟩
      rintro _ ⟨⟩
      exact ⟨_, List.getElem?_set_self (List.getElem?_eq_some_iff.mp hs).1⟩

theorem Map.index_cases {m : Map K V} (h : m.myArray.Loose hash) (room : Room) (k : K) :
    (∃ a, Constructed hash room a k (m.index hash room k) ∧
      (a = m.myArray ∧ (m.count hash k = 0 → m.myArray.isOverFull = false) ∨ m.myArray.isOverFull = true ∧ a.Valid hash ∧ a.usedSlots = a.pairs.length ∧
        PairArray.Loaded m.myArray.data (.ofSize (m.myArray.numSlots * 2)) a)) ∨
    ∃ old n, m.index hash room k = (⟨{ m.myArray with data := old }⟩, .error .notEnoughSpace) ∧
      old.reduceOption = m.myArray.data.reduceOption.drop n ∧ old.length = m.myArray.numSlots ∧
      (n = 0 → old = m.myArray.data) ∧
      (room = .rehash n ∧ n < m.myArray.data.reduceOption.length ∨ room = .array ∧ n = 0) := by
  unfold Map.index
  by_cases hfull : m.count hash k = 0 ∧ m.myArray.isOverFull = true
  · rw [if_pos hfull]
    rcases PairArray.doubleArray_cases h.slots (h.used.trans h.bound) room with
      ⟨old, temp, hd, hv, hused, hroom, hload, -⟩ | ⟨old, n, hd, hspec⟩
    · rw [hd]
      exact .inl ⟨temp, Map.constructed hv.loose room k fun _ => hroom, .inr ⟨hfull.2, hv, hused, hload⟩⟩
    · rw [hd]
      exact .inr ⟨old, n, rfl, hspec⟩
  · rw [if_neg hfull]
    have hnot : m.count hash k = 0 → m.myArray.isOverFull = false := by
      intro hc
      by_contra ho
      exact hfull ⟨hc, by simpa using ho⟩
    refine .inl ⟨m.myArray, Map.constructed h room k ?_, .inl ⟨rfl, hnot⟩⟩
    intro hc
    simpa [PairArray.isOverFull] using hnot hc

theorem Map.loose_of_reached {m : Map K V} (h : m.Reached hash) : m.myArray.Loose hash := by
  apply Reachable.invariant h
  · rintro m ⟨initSize, he⟩
    rw [Map.ofSize] at he
    split_ifs at he
    cases he
    exact (PairArray.ofSize_valid (Nat.le_max_right _ _)).loose
  · intro op m m' hm _ he
    cases op with
    | setUnused k =>
      cases he
      exact hm.setUnused k
    | index room k v =>
      unfold Map.change at he
      dsimp only at he
      rcases Map.index_cases hm room k with ⟨a, hcon, -⟩ | ⟨old, n, hi, hdrop, hlen, -, -⟩
      · cases hi : m.index hash room k with
        | mk m₁ result =>
          rw [hi] at he hcon
          have hloose := hcon.loose
          cases result with
          | ok slot =>
            obtain ⟨e, hs⟩ := hcon.slot slot rfl
            cases v with
            | none => cases he; exact hloose
            | some v => cases he; exact hloose.store hs v
          | error thrown =>
            cases thrown with
            | notEnoughSpace => cases he; exact hloose
            | exit => cases he
      · rw [hi] at he
        cases he
        apply hm.of_subset hlen
        · intro e he
          rw [← List.reduceOption_mem_iff, hdrop] at he
          exact List.reduceOption_mem_iff.mp (List.mem_of_mem_drop he)
        · rw [hdrop, List.length_drop]
          exact Nat.sub_le _ _

omit [Inhabited V] in
theorem Map.lookup_eq_some_iff {m : Map K V} (h : m.myArray.Loose hash)
    (hfound : ∀ slot e, m.myArray.data[slot]? = some (some e) → m.myArray.find hash e.key = some slot) {k : K} {v : V} :
    m.lookup hash k = some v ↔ (k, v) ∈ m.pairs := by
  have hpairs : (k, v) ∈ m.pairs ↔ ∃ e, some e ∈ m.myArray.data ∧ e.key = k ∧ e.value = v := by
    simp only [Map.pairs, PairArray.pairs, List.mem_map, List.reduceOption_mem_iff, Prod.mk.injEq]
  rw [hpairs]
  constructor
  · intro hlookup
    obtain ⟨slot, hfind, hs | ⟨e, hs, hk⟩⟩ := h.find_cases k
    · simp [Map.lookup, hfind, hs] at hlookup
    · have hv : e.value = v := by simpa [Map.lookup, hfind, hs] using hlookup
      exact ⟨e, List.mem_of_getElem? hs, hk, hv⟩
  · rintro ⟨e, he, rfl, rfl⟩
    obtain ⟨slot, hs⟩ := List.mem_iff_getElem?.mp he
    simp [Map.lookup, hfound slot e hs, hs]

omit [Inhabited V] in
theorem Map.count_eq (m : Map K V) (k : K) : m.count hash k = if (m.lookup hash k).isSome then 1 else 0 := by
  unfold Map.count Map.lookup PairArray.count
  cases m.myArray.find hash k with
  | none => rfl
  | some slot => simp

omit [DecidableEq K] [Inhabited V] in
theorem Map.iteration_eq (m : Map K V) : m.iteration = .ok (m.pairs : Multiset (K × V)) := by
  rw [Map.iteration, visit_begin]
  rfl

omit [DecidableEq K] [Inhabited V] in
theorem Map.iteration_eq_iff {m m' : Map K V} : m'.iteration = m.iteration ↔ m'.pairs.Perm m.pairs := by
  rw [Map.iteration_eq, Map.iteration_eq, Except.ok.injEq, Multiset.coe_eq_coe]

omit [DecidableEq K] [Inhabited V] in
theorem Map.nodup_iff (m : Map K V) : (m.pairs.map Prod.fst).Nodup ↔ ∀ (s t : ℕ) (e f : MapRecordClass K V),
    m.myArray.data[s]? = some (some e) → m.myArray.data[t]? = some (some f) → e.key = f.key → s = t := by
  have hkeys : m.pairs.map Prod.fst = m.myArray.data.reduceOption.filterMap fun e => some e.key := by
    rw [Map.pairs, PairArray.pairs, List.map_map, List.filterMap_eq_map']
    rfl
  rw [hkeys, nodup_filterMap_iff]
  constructor
  · intro h s t e f hs ht hk
    exact h s t e f hs ht e.key rfl (by rw [hk]; rfl)
  · rintro h s t e f hs ht k ⟨⟩ hk
    exact h s t e f hs ht (Option.some.inj hk).symm

omit [Inhabited V] in
theorem doubled_of_found {m : Map K V} (hm : m.myArray.Loose hash) {temp : PairArray K V} (hv : temp.Valid hash)
    (hload : PairArray.Loaded m.myArray.data (.ofSize (m.myArray.numSlots * 2)) temp)
    (hfound : ∀ slot e, m.myArray.data[slot]? = some (some e) → m.myArray.find hash e.key = some slot) :
    temp.pairs.Perm m.pairs ∧ ∀ k, (⟨temp⟩ : Map K V).lookup hash k = m.lookup hash k := by
  have hnodup : (m.pairs.map Prod.fst).Nodup := by
    rw [m.nodup_iff]
    intro s t e f hs ht hk
    have hfind := hfound s e hs
    rw [hk, hfound t f ht] at hfind
    exact (Option.some.inj hfind).symm
  have hperm : temp.pairs.Perm m.pairs := by
    have hempty : (PairArray.ofSize (m.myArray.numSlots * 2) : PairArray K V).pairs = [] := by
      simp [PairArray.pairs, PairArray.ofSize]
    have hp := hload.perm (by
      rw [hempty, List.map_nil, List.append_nil]
      simpa [Map.pairs, PairArray.pairs, Function.comp_def] using hnodup)
    rwa [hempty, List.append_nil] at hp
  refine ⟨hperm, ?_⟩
  intro k
  apply Option.ext
  intro v
  rw [Map.lookup_eq_some_iff hv.loose fun slot e hs => hv.find_present hs, Map.lookup_eq_some_iff hm hfound]
  exact hperm.mem_iff

omit [Inhabited V] in
theorem sameContents_doubled {m : Map K V} (hm : m.myArray.Loose hash) {temp : PairArray K V} (hv : temp.Valid hash)
    (hfull : temp.usedSlots = temp.pairs.length)
    (hload : PairArray.Loaded m.myArray.data (.ofSize (m.myArray.numSlots * 2)) temp) :
    SameContents hash m ⟨temp⟩ ↔ m.Sound hash := by
  have htemp : ∀ {k v}, (⟨temp⟩ : Map K V).lookup hash k = some v ↔ (k, v) ∈ temp.pairs :=
    Map.lookup_eq_some_iff hv.loose fun slot e hs => hv.find_present hs
  constructor
  · intro h
    have hperm := Map.iteration_eq_iff.mp h.iteration
    have hnodup : (m.pairs.map Prod.fst).Nodup := (hperm.map Prod.fst).nodup_iff.mp hv.nodup
    constructor
    · intro slot e hs
      have hmem : (e.key, e.value) ∈ m.pairs := by
        simp only [Map.pairs, PairArray.pairs, List.mem_map, List.reduceOption_mem_iff]
        exact ⟨e, List.mem_of_getElem? hs, rfl⟩
      have hlookup := htemp.mpr (hperm.mem_iff.mpr hmem)
      rw [h.lookup] at hlookup
      obtain ⟨slot', hfind, hs' | ⟨f, hs', hk⟩⟩ := hm.find_cases e.key
      · simp [Map.lookup, hfind, hs'] at hlookup
      · rw [hfind, m.nodup_iff.mp hnodup slot slot' e f hs hs' hk.symm]
    · have hsize := h.size
      rw [← hsize, Map.size, hfull]
      exact hperm.length_eq
  · rintro ⟨hfound, hused⟩
    obtain ⟨hperm, hlookup⟩ := doubled_of_found hm hv hload hfound
    refine ⟨fun k => by rw [Map.count_eq, Map.count_eq, hlookup], hlookup, ?_, Map.iteration_eq_iff.mpr hperm⟩
    rw [hused, Map.size, hfull]
    exact hperm.length_eq

theorem sameContents_iff (hash : K → ℕ) {m : Map K V} (hm : m.Reached hash) {room : Room} {k : K} {m' : Map K V}
    (h : m.index hash room k = (m', .error .notEnoughSpace)) : SameContents hash m m' ↔ room.KeepsContents hash m := by
  have hloose := Map.loose_of_reached hm
  have hsame : SameContents hash m m := ⟨fun _ => rfl, fun _ => rfl, rfl, rfl⟩
  rcases Map.index_cases hloose room k with ⟨a, hcon, hcases⟩ | ⟨old, n, hi, hdrop, hlen, hzero, hroom⟩
  · rw [h] at hcon
    obtain ⟨rfl, rfl, hc⟩ := hcon.fails rfl
    rcases hcases with ⟨rfl, hnot⟩ | ⟨hover, hv, hfull, hload⟩
    · refine ⟨fun _ hover => ?_, fun _ => hsame⟩
      rw [hnot hc] at hover
      cases hover
    · rw [sameContents_doubled hloose hv hfull hload]
      exact ⟨fun hs _ => hs, fun hs => hs hover⟩
  · rw [h] at hi
    cases hi
    have hkeep : n = 0 → SameContents hash m ⟨{ m.myArray with data := old }⟩ := by
      rintro rfl
      rw [hzero rfl]
      exact hsame
    rcases hroom with ⟨rfl, hn⟩ | ⟨rfl, rfl⟩
    · refine ⟨fun hs => ?_, hkeep⟩
      have hpairs := (Map.iteration_eq_iff.mp hs.iteration).length_eq
      simp only [Map.pairs, PairArray.pairs, List.length_map, hdrop, List.length_drop] at hpairs
      change n = 0
      omega
    · exact ⟨fun _ => trivial, fun _ => hkeep rfl⟩

def twoPairs : Map ℕ ℕ := ⟨⟨[none, some ⟨1, 1, 10⟩, some ⟨2, 2, 20⟩, none], 2⟩⟩

theorem twoPairs_reached : twoPairs.Reached id :=
  .step (i := .index .enough 2 (some 20))
    (.step (i := .index .enough 1 (some 10)) (.start ⟨4, rfl⟩) trivial rfl) trivial rfl

theorem sameContents_twoPairs : ∃ m' : Map ℕ ℕ, twoPairs.index id .array 3 = (m', .error .notEnoughSpace) ∧
    SameContents id twoPairs m' :=
  ⟨_, rfl, (@sameContents_iff ℕ ℕ _ _ id _ twoPairs_reached .array 3 _ rfl).mpr trivial⟩

theorem not_sameContents_twoPairs : twoPairs.Reached id ∧
    ∃ m' : Map ℕ ℕ, twoPairs.index id (.rehash 1) 3 = (m', .error .notEnoughSpace) ∧ ¬SameContents id twoPairs m' := by
  refine ⟨twoPairs_reached, _, rfl, ?_⟩
  intro h
  have hcount := h.count 1
  revert hcount
  decide

end Insertion

end PlinyCompute.PdbMap
