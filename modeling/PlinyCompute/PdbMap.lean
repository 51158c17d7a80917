import PlinyCompute.Probing
import Mathlib.Data.List.Nodup

namespace PlinyCompute.PdbMap

open Probing

variable {K V : Type}

def UNUSED : ℕ := 493295393

def hasher (hash : K → ℕ) (k : K) : ℕ := if hash k = UNUSED then 858931273 else hash k

structure MapRecordClass (K V : Type) where
  hash : ℕ
  key : K
  value : V
  deriving DecidableEq, Repr

/-- A slot whose hash is `UNUSED` is `none`; the rest of such a slot is never read. -/
structure PairArray (K V : Type) where
  data : List (Option (MapRecordClass K V))
  usedSlots : ℕ
  deriving DecidableEq, Repr

inductive Thrown
  | notEnoughSpace
  | exit
  deriving DecidableEq, Repr

/-- The allocation of an insertion that fails: of the doubled array, of the copy of the entry that follows
the first `moved` ones, of the new pair, or of its value. -/
inductive Room
  | enough
  | array
  | rehash (moved : ℕ)
  | pair
  | value
  deriving DecidableEq, Repr

def Room.Atomic : Room → Prop
  | .rehash moved => moved = 0
  | _ => True

instance : DecidablePred Room.Atomic
  | .rehash moved => inferInstanceAs (Decidable (moved = 0))
  | .enough | .array | .pair | .value => isTrue trivial

namespace PairArray

def numSlots (a : PairArray K V) : ℕ := a.data.length

def maxSlots (a : PairArray K V) : ℕ := a.numSlots * 667 / 1000

def ofSize (numSlotsIn : ℕ) : PairArray K V := ⟨List.replicate numSlotsIn none, 0⟩

def isOverFull (a : PairArray K V) : Bool := a.maxSlots ≤ a.usedSlots

def pairs (a : PairArray K V) : List (K × V) := a.data.reduceOption.map fun e => (e.key, e.value)

def store (a : PairArray K V) (slot : ℕ) (v : V) : PairArray K V :=
  { a with data := a.data.modify slot (Option.map fun e => { e with value := v }) }

section Lookup

variable [DecidableEq K] (hash : K → ℕ)

def find (a : PairArray K V) (me : K) : Option ℕ :=
  probe (fun e => e.hash == hasher hash me && e.key == me) a.data a.numSlots
    (hasher hash me % (a.numSlots - 1))

def count (a : PairArray K V) (me : K) : ℕ :=
  match a.find hash me with
  | none => 0
  | some slot => if (a.data[slot]?.join).isSome then 1 else 0

def setUnused (a : PairArray K V) (me : K) : PairArray K V :=
  match a.find hash me with
  | none => a
  | some slot => { a with data := a.data.set slot none }

variable [Inhabited V]

def fetch (a : PairArray K V) (slot : ℕ) : V :=
  match a.data[slot]?.join with
  | some e => e.value
  | none => default

/-- `operator[]`: the slot of the value; `none` is the `exit (1)` behind the loop. -/
def index (a : PairArray K V) (me : K) : Option (PairArray K V × ℕ) :=
  (a.find hash me).map fun slot =>
    match a.data[slot]?.join with
    | some _ => (a, slot)
    | none =>
      ({ data := a.data.set slot (some ⟨hasher hash me, me, default⟩), usedSlots := a.usedSlots + 1 }, slot)

/-- The loop of `doubleArray`: a moved entry is destroyed in the old array, which is the first component. -/
def moveAll (moves : Option ℕ) : List (Option (MapRecordClass K V)) → PairArray K V →
    List (Option (MapRecordClass K V)) × Except Thrown (PairArray K V)
  | [], newOne => ([], .ok newOne)
  | none :: rest, newOne => ((moveAll moves rest newOne).1.cons none, (moveAll moves rest newOne).2)
  | some e :: rest, newOne =>
    if moves = some 0 then (some e :: rest, .error .notEnoughSpace)
    else
      match newOne.index hash e.key with
      | none => (some e :: rest, .error .exit)
      | some (newOne, slot) =>
        ((moveAll (moves.map (· - 1)) rest (newOne.store slot e.value)).1.cons none,
          (moveAll (moves.map (· - 1)) rest (newOne.store slot e.value)).2)
termination_by structural data => data

def doubleArray (room : Room) (a : PairArray K V) :
    List (Option (MapRecordClass K V)) × Except Thrown (PairArray K V) :=
  match room with
  | .array => (a.data, .error .notEnoughSpace)
  | .rehash moved => moveAll hash (some moved) a.data (ofSize (a.numSlots * 2))
  | _ => moveAll hash none a.data (ofSize (a.numSlots * 2))

end Lookup

def tag (e : MapRecordClass K V) : ℕ × K := (e.hash, e.key)

def home (numSlots : ℕ) (t : ℕ × K) : ℕ := t.1 % (numSlots - 1)

structure Valid (hash : K → ℕ) (a : PairArray K V) : Prop where
  slots : 2 ≤ a.numSlots
  placed : Placed home tag a.data
  hashed : ∀ e, some e ∈ a.data → e.hash = hasher hash e.key
  used : a.data.reduceOption.length ≤ a.usedSlots
  bound : a.usedSlots ≤ a.maxSlots

theorem maxSlots_lt {a : PairArray K V} (h : 0 < a.numSlots) : a.maxSlots < a.numSlots := by
  simp only [maxSlots]
  omega

theorem mem_keys {a : PairArray K V} {k : K} :
    k ∈ a.pairs.map Prod.fst ↔ ∃ e, some e ∈ a.data ∧ e.key = k := by
  simp only [pairs, List.map_map, List.mem_map, List.reduceOption_mem_iff, Function.comp_apply]

theorem store_data {a : PairArray K V} {slot : ℕ} {e : MapRecordClass K V}
    (hs : a.data[slot]? = some (some e)) (v : V) :
    (a.store slot v).data = a.data.set slot (some { e with value := v }) := by
  simp only [store]
  rw [List.modify_eq_set_getElem?, hs]
  rfl

namespace Valid

variable {hash : K → ℕ}

theorem home_lt {a : PairArray K V} (h : a.Valid hash) (t : ℕ × K) : home a.data.length t < a.data.length := by
  have hn : 2 ≤ a.data.length := h.slots
  have hlt : t.1 % (a.data.length - 1) < a.data.length - 1 := Nat.mod_lt _ (by omega)
  simp only [home]
  omega

theorem hit_iff [DecidableEq K] {me : K} (e : MapRecordClass K V) :
    (e.hash == hasher hash me && e.key == me) = true ↔ tag e = (hasher hash me, me) := by
  simp [tag]

theorem find_present [DecidableEq K] {a : PairArray K V} (h : a.Valid hash) {slot : ℕ} {e : MapRecordClass K V}
    (hs : a.data[slot]? = some (some e)) : a.find hash e.key = some slot := by
  apply h.placed.probe_present (h.home_lt _) hit_iff hs
  rw [tag, h.hashed e (List.mem_of_getElem? hs)]

theorem tag_ne {a : PairArray K V} {k : K} (hk : k ∉ a.pairs.map Prod.fst) :
    ∀ e, some e ∈ a.data → tag e ≠ (hasher hash k, k) := by
  intro e he ht
  apply hk
  exact mem_keys.mpr ⟨e, he, congrArg Prod.snd ht⟩

theorem find_absent [DecidableEq K] {a : PairArray K V} (h : a.Valid hash) {k : K} (hk : k ∉ a.pairs.map Prod.fst) :
    ∃ slot, a.find hash k = some slot ∧ a.data[slot]? = some none ∧
      ∀ e, tag e = (hasher hash k, k) → none ∈ a.data.set slot (some e) →
        Placed home tag (a.data.set slot (some e)) := by
  have habs : ∀ e, some e ∈ a.data → tag e ≠ (hasher hash k, k) := tag_ne hk
  obtain ⟨j, hj, hfind, hempty, hocc⟩ := h.placed.probe_absent (h.home_lt _) hit_iff habs
  refine ⟨_, hfind, hempty, ?_⟩
  intro e he hfree
  exact h.placed.insert habs hj hocc hempty he hfree

theorem count_eq [DecidableEq K] {a : PairArray K V} (h : a.Valid hash) (k : K) :
    a.count hash k = if k ∈ a.pairs.map Prod.fst then 1 else 0 := by
  simp only [count]
  split_ifs with hk
  · obtain ⟨e, he, rfl⟩ := mem_keys.mp hk
    obtain ⟨slot, hs⟩ := List.mem_iff_getElem?.mp he
    simp [h.find_present hs, hs]
  · obtain ⟨slot, hfind, hempty, -⟩ := h.find_absent hk
    simp [hfind, hempty]

theorem nodup {a : PairArray K V} (h : a.Valid hash) : (a.pairs.map Prod.fst).Nodup := by
  have hn := h.placed.nodup
  rw [pairs, List.map_map]
  rw [List.Nodup, List.pairwise_map] at hn ⊢
  apply hn.imp_of_mem
  intro e f he hf hne hk
  have hk' : e.key = f.key := hk
  have he' := h.hashed e (List.reduceOption_mem_iff.mp he)
  have hf' := h.hashed f (List.reduceOption_mem_iff.mp hf)
  apply hne
  rw [tag, tag, he', hf', hk']

theorem store {a : PairArray K V} (h : a.Valid hash) {slot : ℕ} {e : MapRecordClass K V}
    (hs : a.data[slot]? = some (some e)) (v : V) : (a.store slot v).Valid hash := by
  have hd := store_data hs v
  have hperm := (reduceOption_perm_cons hs).length_eq
  have hempty : (a.data.set slot none)[slot]? = some none :=
    List.getElem?_set_self (List.getElem?_eq_some_iff.mp hs).1
  have hback := (reduceOption_set hempty { e with value := v }).length_eq
  rw [List.set_set] at hback
  have hn : (a.store slot v).numSlots = a.numSlots := by simp [numSlots, hd]
  constructor
  · rw [hn]
    exact h.slots
  · rw [hd]
    exact h.placed.replace hs rfl
  · intro f hf
    rw [hd] at hf
    obtain hf | hf := List.mem_or_eq_of_mem_set hf
    · exact h.hashed f hf
    · cases hf
      exact h.hashed e (List.mem_of_getElem? hs)
  · rw [hd, hback]
    rw [List.length_cons] at hperm ⊢
    rw [← hperm]
    exact h.used
  · simp only [maxSlots, hn]
    exact h.bound

end Valid

theorem pairs_store {a : PairArray K V} {slot : ℕ} {e : MapRecordClass K V}
    (hs : a.data[slot]? = some (some e)) : ∃ rest, a.pairs.Perm ((e.key, e.value) :: rest) ∧
      ∀ v, (a.store slot v).pairs.Perm ((e.key, v) :: rest) := by
  have hempty : (a.data.set slot none)[slot]? = some none :=
    List.getElem?_set_self (List.getElem?_eq_some_iff.mp hs).1
  refine ⟨(a.data.set slot none).reduceOption.map fun e => (e.key, e.value), ?_, ?_⟩
  · exact (reduceOption_perm_cons hs).map _
  · intro v
    have hback := (reduceOption_set hempty { e with value := v }).map fun e => (e.key, e.value)
    rwa [List.set_set, ← store_data hs v] at hback

section Insertion

variable {hash : K → ℕ}

theorem ofSize_valid {n : ℕ} (hn : 2 ≤ n) : (ofSize n : PairArray K V).Valid hash := by
  have hpos : 0 < n := by omega
  constructor
  · simpa [numSlots, ofSize] using hn
  · exact placed_replicate home tag hpos
  · intro e he
    simp [ofSize, List.mem_replicate] at he
  · simp [ofSize, List.reduceOption_replicate_none]
  · exact Nat.zero_le _

structure Loading (hash : K → ℕ) (todo : List (Option (MapRecordClass K V))) (newOne : PairArray K V) : Prop where
  valid : newOne.Valid hash
  full : newOne.usedSlots = newOne.pairs.length
  room : newOne.usedSlots + todo.reduceOption.length ≤ newOne.maxSlots

structure Loaded (todo : List (Option (MapRecordClass K V))) (newOne temp : PairArray K V) : Prop where
  slots : temp.numSlots = newOne.numSlots
  used : temp.usedSlots ≤ newOne.usedSlots + todo.reduceOption.length
  keys : ∀ k, k ∈ temp.pairs.map Prod.fst ↔ (∃ e, some e ∈ todo ∧ e.key = k) ∨ k ∈ newOne.pairs.map Prod.fst
  perm : (todo.reduceOption.map MapRecordClass.key ++ newOne.pairs.map Prod.fst).Nodup →
    temp.pairs.Perm (todo.reduceOption.map (fun e => (e.key, e.value)) ++ newOne.pairs)

theorem loading_double {a : PairArray K V} (hslots : 2 ≤ a.numSlots) (hused : a.data.reduceOption.length ≤ a.maxSlots) :
    Loading hash a.data (ofSize (a.numSlots * 2)) := by
  refine ⟨ofSize_valid (by omega), ?_, ?_⟩
  · simp [ofSize, pairs, List.reduceOption_replicate_none]
  · simp only [maxSlots, numSlots, ofSize, List.length_replicate] at hused ⊢
    omega

theorem Loading.skip {rest : List (Option (MapRecordClass K V))} {newOne : PairArray K V}
    (h : Loading hash (none :: rest) newOne) : Loading hash rest newOne := ⟨h.valid, h.full, by simpa using h.room⟩

theorem Loaded.cons {e : MapRecordClass K V} {rest : List (Option (MapRecordClass K V))} {newOne a temp : PairArray K V}
    (ha : Loaded [some e] newOne a) (h : Loaded rest a temp) : Loaded (some e :: rest) newOne temp := by
  have hused := ha.used
  have hrest := h.used
  simp only [List.reduceOption_cons_of_some, List.length_cons] at hused ⊢
  refine ⟨h.slots.trans ha.slots, ?_, ?_, ?_⟩
  · simp only [List.reduceOption_cons_of_some, List.length_cons]
    simp at hused
    omega
  · intro k
    rw [h.keys, ha.keys]
    simp only [List.mem_cons, List.mem_nil_iff, or_false, Option.some.injEq, exists_eq_left, or_and_right, exists_or]
    exact or_left_comm.trans or_assoc.symm
  · intro hnodup
    simp only [List.reduceOption_cons_of_some, List.map_cons, List.cons_append] at hnodup ⊢
    obtain ⟨hnot, hrestnodup⟩ := List.nodup_cons.mp hnodup
    obtain ⟨-, hnew, -⟩ := List.nodup_append.mp hrestnodup
    have hone : a.pairs.Perm ((e.key, e.value) :: newOne.pairs) :=
      ha.perm (List.nodup_cons.mpr ⟨fun hk => hnot (List.mem_append_right _ hk), hnew⟩)
    have hkeys := (hone.map Prod.fst).append_left (rest.reduceOption.map MapRecordClass.key)
    have hall := h.perm (by rw [hkeys.nodup_iff, List.map_cons, List.nodup_middle]; exact hnodup)
    exact (hall.trans (hone.append_left _)).trans List.perm_middle

variable [Inhabited V]

structure Inserted (hash : K → ℕ) (a : PairArray K V) (k : K) (a' : PairArray K V) (slot : ℕ) : Prop where
  valid : a'.Valid hash
  entry : a'.data[slot]? = some (some ⟨hasher hash k, k, default⟩)
  undo : a'.data.set slot none = a.data
  slots : a'.numSlots = a.numSlots
  used : a'.usedSlots = a.usedSlots + 1

theorem Inserted.pairs_store {a a' : PairArray K V} {k : K} {slot : ℕ} (h : Inserted hash a k a' slot)
    (v : V) : (a'.store slot v).pairs.Perm ((k, v) :: a.pairs) := by
  have hempty : (a'.data.set slot none)[slot]? = some none :=
    List.getElem?_set_self (List.getElem?_eq_some_iff.mp h.entry).1
  have hback := (reduceOption_set hempty ⟨hasher hash k, k, v⟩).map fun e => (e.key, e.value)
  rw [List.set_set, ← store_data h.entry v, h.undo] at hback
  exact hback

variable [DecidableEq K]

theorem Valid.index_present {a : PairArray K V} (h : a.Valid hash) {k : K}
    (hk : k ∈ a.pairs.map Prod.fst) : ∃ slot e, a.data[slot]? = some (some e) ∧ e.key = k ∧
      a.index hash k = some (a, slot) := by
  obtain ⟨e, he, rfl⟩ := mem_keys.mp hk
  obtain ⟨slot, hs⟩ := List.mem_iff_getElem?.mp he
  refine ⟨slot, e, hs, rfl, ?_⟩
  simp [index, h.find_present hs, hs]

theorem Valid.index_absent {a : PairArray K V} (h : a.Valid hash) {k : K}
    (hk : k ∉ a.pairs.map Prod.fst) (hroom : a.usedSlots < a.maxSlots) :
    ∃ a' slot, a.index hash k = some (a', slot) ∧ Inserted hash a k a' slot := by
  obtain ⟨slot, hfind, hempty, hplaced⟩ := h.find_absent hk
  have hin : slot < a.data.length := (List.getElem?_eq_some_iff.mp hempty).1
  have hcount := (reduceOption_set hempty ⟨hasher hash k, k, (default : V)⟩).length_eq
  have hmax : a.maxSlots < a.numSlots := maxSlots_lt (by have := h.slots; omega)
  have hfree : none ∈ a.data.set slot (some ⟨hasher hash k, k, default⟩) := by
    rw [← List.reduceOption_length_lt_iff, hcount, List.length_cons, List.length_set]
    have := h.used
    simp only [numSlots] at hmax
    omega
  refine ⟨⟨a.data.set slot (some ⟨hasher hash k, k, default⟩), a.usedSlots + 1⟩, slot, ?_, ?_⟩
  · simp [index, hfind, hempty]
  · constructor
    · constructor
      · simpa [numSlots] using h.slots
      · exact hplaced _ rfl hfree
      · intro e he
        obtain he | he := List.mem_or_eq_of_mem_set he
        · exact h.hashed e he
        · cases he
          rfl
      · rw [hcount, List.length_cons]
        exact Nat.succ_le_succ h.used
      · simp only [maxSlots, numSlots, List.length_set] at hroom ⊢
        exact hroom
    · exact List.getElem?_set_self hin
    · rw [List.set_set]
      obtain ⟨_, hnone⟩ := List.getElem?_eq_some_iff.mp hempty
      rw [← hnone, List.set_getElem_self]
    · simp [numSlots]
    · rfl

theorem Inserted.setUnused {a a' : PairArray K V} {k : K} {slot : ℕ} (h : Inserted hash a k a' slot) :
    (a'.setUnused hash k).data = a.data := by
  rw [PairArray.setUnused, show a'.find hash k = some slot from h.valid.find_present h.entry]
  exact h.undo

theorem Loading.next {e : MapRecordClass K V} {rest : List (Option (MapRecordClass K V))} {newOne : PairArray K V}
    (h : Loading hash (some e :: rest) newOne) : ∃ a slot, newOne.index hash e.key = some (a, slot) ∧
      Loading hash rest (a.store slot e.value) ∧ Loaded [some e] newOne (a.store slot e.value) := by
  have hroom := h.room
  rw [List.reduceOption_cons_of_some, List.length_cons] at hroom
  by_cases hk : e.key ∈ newOne.pairs.map Prod.fst
  · obtain ⟨slot, f, hs, hf, hi⟩ := h.valid.index_present hk
    obtain ⟨others, hbefore, hafter⟩ := pairs_store hs
    have hperm : ((newOne.store slot e.value).pairs.map Prod.fst).Perm (newOne.pairs.map Prod.fst) :=
      ((hafter e.value).map Prod.fst).trans (hbefore.map Prod.fst).symm
    have hn : (newOne.store slot e.value).numSlots = newOne.numSlots := by simp [numSlots, PairArray.store]
    have hlen := hperm.length_eq
    rw [List.length_map, List.length_map] at hlen
    refine ⟨newOne, slot, hi, ⟨h.valid.store hs e.value, h.full.trans hlen.symm, ?_⟩, hn, Nat.le_add_right _ _, ?_, ?_⟩
    · simp only [maxSlots, hn] at hroom ⊢
      change newOne.usedSlots + _ ≤ _
      omega
    · intro k
      rw [hperm.mem_iff]
      constructor
      · exact .inr
      · rintro (⟨g, hg, rfl⟩ | hmem)
        · cases List.mem_singleton.mp hg
          exact hk
        · exact hmem
    · intro hnodup
      exact absurd hk (List.nodup_cons.mp hnodup).1
  · obtain ⟨a, slot, hi, hins⟩ := h.valid.index_absent hk (by omega)
    have hperm := hins.pairs_store e.value
    have hn : (a.store slot e.value).numSlots = newOne.numSlots := by
      rw [← hins.slots]
      simp [numSlots, PairArray.store]
    have hu : (a.store slot e.value).usedSlots = newOne.usedSlots + 1 := hins.used
    have hlen := hperm.length_eq
    rw [List.length_cons, ← h.full, ← hu] at hlen
    refine ⟨a, slot, hi, ⟨hins.valid.store hins.entry e.value, hlen.symm, ?_⟩, hn, hu.le, ?_, fun _ => hperm⟩
    · rw [hu]
      simp only [maxSlots, hn] at hroom ⊢
      omega
    · intro k
      rw [(hperm.map Prod.fst).mem_iff, List.map_cons, List.mem_cons]
      simp [eq_comm]

theorem Loading.moveAll_ok {todo : List (Option (MapRecordClass K V))} {newOne : PairArray K V}
    (h : Loading hash todo newOne) {moves : Option ℕ} (hm : ∀ n ∈ moves, todo.reduceOption.length ≤ n) :
    ∃ temp, (moveAll hash moves todo newOne).2 = .ok temp ∧ temp.Valid hash ∧
      temp.usedSlots = temp.pairs.length ∧ Loaded todo newOne temp := by
  induction todo generalizing moves newOne with
  | nil => exact ⟨newOne, rfl, h.valid, h.full, rfl, Nat.le_refl _, by simp, fun _ => List.Perm.refl _⟩
  | cons slot rest ih =>
    cases slot with
    | none =>
      obtain ⟨temp, ht, hv, hfull, hload⟩ := ih h.skip (by simpa using hm)
      exact ⟨temp, ht, hv, hfull, hload.slots, by simpa using hload.used, by simpa using hload.keys, hload.perm⟩
    | some e =>
      obtain ⟨a, s, hi, hrest, hone⟩ := h.next
      have hm' : ∀ n ∈ moves.map (· - 1), rest.reduceOption.length ≤ n := by
        intro n hn
        obtain ⟨n', hmem, rfl⟩ := Option.mem_map.mp hn
        have := hm n' hmem
        simp only [List.reduceOption_cons_of_some, List.length_cons] at this
        omega
      have hne : moves ≠ some 0 := by
        rintro rfl
        simpa using hm 0 rfl
      obtain ⟨temp, ht, hv, hfull, hload⟩ := ih hrest hm'
      exact ⟨temp, by simp [moveAll, hne, hi, ht], hv, hfull, hone.cons hload⟩

theorem Loading.moveAll_error {todo : List (Option (MapRecordClass K V))} {newOne : PairArray K V}
    (h : Loading hash todo newOne) {n : ℕ} (hn : n < todo.reduceOption.length) :
    (moveAll hash (some n) todo newOne).2 = .error .notEnoughSpace ∧
      (moveAll hash (some n) todo newOne).1.reduceOption = todo.reduceOption.drop n ∧
      (moveAll hash (some n) todo newOne).1.length = todo.length ∧
      (n = 0 → (moveAll hash (some n) todo newOne).1 = todo) := by
  induction todo generalizing n newOne with
  | nil => simp at hn
  | cons slot rest ih =>
    cases slot with
    | none =>
      obtain ⟨he, hdrop, hlen, hzero⟩ := ih h.skip (by simpa using hn)
      exact ⟨he, by simpa [moveAll] using hdrop, by simpa [moveAll] using hlen, fun h0 => by simp [moveAll, hzero h0]⟩
    | some e =>
      obtain ⟨a, s, hi, hrest, -⟩ := h.next
      cases n with
      | zero => simp [moveAll]
      | succ n =>
        have hn' : n < rest.reduceOption.length := by simpa using hn
        obtain ⟨he, hdrop, hlen, -⟩ := ih hrest hn'
        simpa [moveAll, hi] using ⟨he, hdrop, hlen⟩

theorem doubleArray_cases {a : PairArray K V} (hslots : 2 ≤ a.numSlots) (hused : a.data.reduceOption.length ≤ a.maxSlots)
    (room : Room) :
    (∃ old temp, a.doubleArray hash room = (old, .ok temp) ∧ temp.Valid hash ∧ temp.usedSlots = temp.pairs.length ∧
      temp.usedSlots < temp.maxSlots ∧ Loaded a.data (ofSize (a.numSlots * 2)) temp ∧
      ∀ n, room = .rehash n → a.data.reduceOption.length ≤ n) ∨
    ∃ old n, a.doubleArray hash room = (old, .error .notEnoughSpace) ∧
      old.reduceOption = a.data.reduceOption.drop n ∧ old.length = a.numSlots ∧ (n = 0 → old = a.data) ∧
      (room = .rehash n ∧ n < a.data.reduceOption.length ∨ room = .array ∧ n = 0) := by
  have hload : Loading hash a.data (ofSize (a.numSlots * 2)) := loading_double hslots hused
  have hok {moves : Option ℕ} (hm : ∀ n ∈ moves, a.data.reduceOption.length ≤ n) :
      ∃ temp, (moveAll hash moves a.data (ofSize (a.numSlots * 2))).2 = .ok temp ∧ temp.Valid hash ∧
        temp.usedSlots = temp.pairs.length ∧ temp.usedSlots < temp.maxSlots ∧
        Loaded a.data (ofSize (a.numSlots * 2)) temp := by
    obtain ⟨temp, ht, hv, hfull, hloaded⟩ := hload.moveAll_ok hm
    refine ⟨temp, ht, hv, hfull, ?_, hloaded⟩
    have hn := hloaded.slots
    have hu := hloaded.used
    simp only [maxSlots, numSlots, ofSize, List.length_replicate] at hn hu hused hslots ⊢
    rw [hn]
    omega
  cases room with
  | array => exact .inr ⟨a.data, 0, rfl, rfl, rfl, fun _ => rfl, .inr ⟨rfl, rfl⟩⟩
  | rehash n =>
    by_cases hn : n < a.data.reduceOption.length
    · obtain ⟨he, hdrop, hlen, hzero⟩ := hload.moveAll_error hn
      exact .inr ⟨_, n, Prod.ext rfl he, hdrop, hlen, hzero, .inl ⟨rfl, hn⟩⟩
    · obtain ⟨temp, ht, hv, hfull, hroom, hloaded⟩ := @hok (some n) (by simpa using hn)
      refine .inl ⟨_, temp, Prod.ext rfl ht, hv, hfull, hroom, hloaded, ?_⟩
      rintro n' ⟨⟩
      exact Nat.le_of_not_lt hn
  | enough =>
    obtain ⟨temp, ht, hv, hfull, hroom, hloaded⟩ := @hok none (by simp)
    exact .inl ⟨_, temp, Prod.ext rfl ht, hv, hfull, hroom, hloaded, nofun⟩
  | pair =>
    obtain ⟨temp, ht, hv, hfull, hroom, hloaded⟩ := @hok none (by simp)
    exact .inl ⟨_, temp, Prod.ext rfl ht, hv, hfull, hroom, hloaded, nofun⟩
  | value =>
    obtain ⟨temp, ht, hv, hfull, hroom, hloaded⟩ := @hok none (by simp)
    exact .inl ⟨_, temp, Prod.ext rfl ht, hv, hfull, hroom, hloaded, nofun⟩

end Insertion

end PairArray

/-- The handle of a map is never shared, so a map is its array. -/
structure Map (K V : Type) where
  myArray : PairArray K V
  deriving DecidableEq, Repr

namespace Map

section Calls

def empty : Map K V := ⟨.ofSize 2⟩

def pairs (m : Map K V) : List (K × V) := m.myArray.pairs

def store (m : Map K V) (slot : ℕ) (v : V) : Map K V := ⟨m.myArray.store slot v⟩

variable [DecidableEq K] (hash : K → ℕ)

def count (m : Map K V) (which : K) : ℕ := m.myArray.count hash which

def setUnused (m : Map K V) (clearMe : K) : Map K V := ⟨m.myArray.setUnused hash clearMe⟩

variable [Inhabited V]

def fetch (m : Map K V) (slot : ℕ) : V := m.myArray.fetch slot

def construct (room : Room) (a : PairArray K V) (which : K) : Map K V × Except Thrown ℕ :=
  if a.count hash which = 0 ∧ room = .pair then (⟨a⟩, .error .notEnoughSpace)
  else
    match a.index hash which with
    | none => (⟨a⟩, .error .exit)
    | some (a, slot) => (⟨a⟩, .ok slot)

def index (room : Room) (m : Map K V) (which : K) : Map K V × Except Thrown ℕ :=
  if m.count hash which = 0 ∧ m.myArray.isOverFull then
    match m.myArray.doubleArray hash room with
    | (old, .error e) => (⟨{ m.myArray with data := old }⟩, .error e)
    | (_, .ok temp) => construct hash room temp which
  else construct hash room m.myArray which

end Calls

section Correctness

variable {hash : K → ℕ}

def Valid (hash : K → ℕ) (m : Map K V) : Prop := m.myArray.Valid hash

theorem empty_valid : (empty : Map K V).Valid hash := PairArray.ofSize_valid (Nat.le_refl 2)

theorem empty_pairs : (empty : Map K V).pairs = [] := by
  simp [empty, pairs, PairArray.pairs, PairArray.ofSize]

variable [DecidableEq K]

def lost (hash : K → ℕ) (room : Room) (m : Map K V) (which : K) : ℕ :=
  match room with
  | .rehash moved =>
    if m.count hash which = 0 ∧ m.myArray.isOverFull ∧ moved < m.pairs.length then moved else 0
  | _ => 0

theorem lost_eq_zero {room : Room} (hr : room.Atomic) (m : Map K V) (which : K) :
    lost hash room m which = 0 := by
  unfold lost
  split
  · next moved => rw [show moved = 0 from hr, ite_self]
  · rfl

theorem lost_le {room : Room} {m : Map K V} {which : K} : lost hash room m which ≤ m.pairs.length := by
  unfold lost
  split
  · split_ifs with h
    · exact Nat.le_of_lt h.2.2
    · exact Nat.zero_le _
  · exact Nat.zero_le _

variable [Inhabited V]

theorem Valid.index_present {m : Map K V} (h : m.Valid hash) (room : Room) {k : K}
    (hk : k ∈ m.pairs.map Prod.fst) : ∃ slot e, m.myArray.data[slot]? = some (some e) ∧ e.key = k ∧
      m.index hash room k = (m, .ok slot) := by
  have hc : m.myArray.count hash k = 1 := by
    rw [PairArray.Valid.count_eq h, if_pos]
    exact hk
  obtain ⟨slot, e, hs, he, hi⟩ := PairArray.Valid.index_present h hk
  refine ⟨slot, e, hs, he, ?_⟩
  simp [index, construct, count, hc, hi]

theorem construct_absent {a : PairArray K V} (h : a.Valid hash) (room : Room) {k : K}
    (hk : k ∉ a.pairs.map Prod.fst) (hroom : a.usedSlots < a.maxSlots) :
    (∃ a' slot, construct hash room a k = (⟨a'⟩, .ok slot) ∧ PairArray.Inserted hash a k a' slot) ∨
      construct hash room a k = (⟨a⟩, .error .notEnoughSpace) ∧ room = .pair := by
  have hc : a.count hash k = 0 := by rw [h.count_eq, if_neg hk]
  by_cases hp : room = .pair
  · exact Or.inr ⟨by simp [construct, hc, hp], hp⟩
  · obtain ⟨a', slot, hi, hins⟩ := h.index_absent hk hroom
    exact Or.inl ⟨a', slot, by simp [construct, hp, hi], hins⟩

theorem Valid.doubleArray_cases {a : PairArray K V} (h : a.Valid hash) (room : Room) :
    (∃ old temp, a.doubleArray hash room = (old, .ok temp) ∧ temp.Valid hash ∧
      temp.pairs.Perm a.pairs ∧ temp.usedSlots < temp.maxSlots ∧ temp.usedSlots = a.pairs.length ∧
      ∀ n, room = .rehash n → a.pairs.length ≤ n) ∨
    ∃ old n, a.doubleArray hash room = (old, .error .notEnoughSpace) ∧
      old.reduceOption = a.data.reduceOption.drop n ∧
      (room = .rehash n ∧ n < a.pairs.length ∨ room = .array ∧ n = 0) := by
  have hlen : a.pairs.length = a.data.reduceOption.length := List.length_map ..
  have hempty : (PairArray.ofSize (a.numSlots * 2) : PairArray K V).pairs = [] := by
    simp [PairArray.pairs, PairArray.ofSize, List.reduceOption_replicate_none]
  have hnodup := h.nodup
  rw [PairArray.pairs, List.map_map] at hnodup
  rw [hlen]
  obtain ⟨old, temp, hd, hv, hfull, hroom, hloaded, hn⟩ | ⟨old, n, hd, hdrop, -, -, hn⟩ :=
    PairArray.doubleArray_cases h.slots (h.used.trans h.bound) room
  · have hperm := hloaded.perm
    simp only [hempty, List.map_nil, List.append_nil] at hperm
    have hpairs : temp.pairs.Perm a.pairs := hperm hnodup
    exact .inl ⟨old, temp, hd, hv, hpairs, hroom, hfull.trans (hpairs.length_eq.trans hlen), hn⟩
  · exact .inr ⟨old, n, hd, hdrop, hn⟩

theorem Valid.index_absent {m : Map K V} (h : m.Valid hash) (room : Room) {k : K}
    (hk : k ∉ m.pairs.map Prod.fst) :
    (∃ a a' slot, m.index hash room k = (⟨a'⟩, .ok slot) ∧ PairArray.Inserted hash a k a' slot ∧
      a.pairs.Perm m.pairs ∧ lost hash room m k = 0 ∧
      (m.myArray.usedSlots = m.pairs.length → a.usedSlots = m.pairs.length)) ∨
    ∃ m', m.index hash room k = (m', .error .notEnoughSpace) ∧ room ≠ .enough ∧
      m'.pairs.Perm (m.pairs.drop (lost hash room m k)) := by
  have hc : m.myArray.count hash k = 0 := by
    rw [PairArray.Valid.count_eq h, if_neg]
    exact hk
  by_cases hfull : m.myArray.isOverFull = true
  · have hindex : m.index hash room k = match m.myArray.doubleArray hash room with
        | (old, .error e) => (⟨{ m.myArray with data := old }⟩, .error e)
        | (_, .ok temp) => construct hash room temp k := by
      simp [index, count, hc, hfull]
    obtain ⟨old, temp, hd, hv, hp, hroom, hused, hr⟩ | ⟨old, n, hd, hold, hr⟩ :=
      Valid.doubleArray_cases h room
    · have hlost : lost hash room m k = 0 := by
        unfold lost
        split
        · next n =>
          have hle := hr n rfl
          rw [if_neg (by rw [pairs]; omega)]
        · rfl
      rw [hindex, hd]
      have hkt : k ∉ temp.pairs.map Prod.fst := by
        rw [(hp.map Prod.fst).mem_iff]
        exact hk
      obtain ⟨a', slot, hcon, hins⟩ | ⟨hcon, rfl⟩ := construct_absent hv room hkt hroom
      · exact Or.inl ⟨temp, a', slot, hcon, hins, hp, hlost, fun _ => hused⟩
      · exact Or.inr ⟨⟨temp⟩, hcon, by simp, by rw [hlost]; exact hp⟩
    · refine Or.inr ⟨⟨{ m.myArray with data := old }⟩, by rw [hindex, hd], ?_, ?_⟩
      · obtain ⟨rfl, -⟩ | ⟨rfl, -⟩ := hr <;> simp
      have hlost : lost hash room m k = n := by
        obtain ⟨rfl, hn⟩ | ⟨rfl, rfl⟩ := hr
        · simp [lost, count, hc, hfull, pairs, hn]
        · rfl
      rw [hlost, pairs, pairs, PairArray.pairs, PairArray.pairs, hold, List.map_drop]
  · have hindex : m.index hash room k = construct hash room m.myArray k := by
      simp [index, hfull]
    have hroom : m.myArray.usedSlots < m.myArray.maxSlots := by
      simpa [PairArray.isOverFull] using hfull
    have hlost : lost hash room m k = 0 := by
      unfold lost
      split
      · simp [hfull]
      · rfl
    rw [hindex]
    obtain ⟨a', slot, hcon, hins⟩ | ⟨hcon, rfl⟩ := construct_absent h room hk hroom
    · exact Or.inl ⟨m.myArray, a', slot, hcon, hins, List.Perm.refl _, hlost, id⟩
    · exact Or.inr ⟨m, hcon, by simp, by rw [hlost]; exact List.Perm.refl _⟩

end Correctness

end Map

end PlinyCompute.PdbMap
