import PlinyCompute.PdbMap

namespace PlinyCompute.PdbJoinMap

open Probing PdbMap
open List (set_set map_cons nodup_cons mem_or_eq_of_mem_set length_cons mem_of_getElem?)

variable {V : Type}

def JM_UNUSED : ℕ := 493295393

def normalise (me : ℕ) : ℕ := if me = JM_UNUSED then 858931273 else me

/-- `next` is the number of the overflow vector; `UINT32_MAX` is `none`. -/
structure JoinMapRecordClass (V : Type) where
  hash : ℕ
  next : Option ℕ
  value : V
  deriving DecidableEq, Repr

structure JoinPairArray (V : Type) where
  data : List (Option (JoinMapRecordClass V))
  overflows : List (List V)
  usedSlots : ℕ
  deriving DecidableEq, Repr

inductive Place
  | slot (s : ℕ)
  | overflow (which pos : ℕ)
  deriving DecidableEq, Repr

/-- The allocation of a `push` that fails: in the doubled array, in the new slot, in the vector of overflow
vectors, in the overflow vector of the hash, or in the copy of the columns that follows. -/
inductive JoinRoom
  | enough
  | array
  | pair
  | list
  | record
  | pack
  deriving DecidableEq, Repr

namespace JoinPairArray

def numSlots (a : JoinPairArray V) : ℕ := a.data.length

def maxSlots (a : JoinPairArray V) : ℕ := a.numSlots * 667 / 1000

def ofSize (numSlotsIn : ℕ) : JoinPairArray V := ⟨List.replicate numSlotsIn none, [], 0⟩

def isOverFull (a : JoinPairArray V) : Bool := a.maxSlots ≤ a.usedSlots

def overflow (a : JoinPairArray V) : Option ℕ → List V
  | none => []
  | some i => a.overflows.getD i []

def group (a : JoinPairArray V) (e : JoinMapRecordClass V) : List V := e.value :: a.overflow e.next

def records (a : JoinPairArray V) : List (ℕ × V) :=
  a.data.reduceOption.flatMap fun e => (a.group e).map (e.hash, ·)

def values (a : JoinPairArray V) (hash : ℕ) : List V := (a.records.filter fun r => r.1 = hash).map Prod.snd

def groups (a : JoinPairArray V) : List (ℕ × List V) :=
  (a.data.reduceOption.mergeSort fun e f => e.hash ≤ f.hash).map fun e => (e.hash, a.group e)

def store (a : JoinPairArray V) (place : Place) (v : V) : JoinPairArray V :=
  match place with
  | .slot s => { a with data := a.data.modify s (Option.map fun e => { e with value := v }) }
  | .overflow which pos => { a with overflows := a.overflows.modify which (·.set pos v) }

def find (a : JoinPairArray V) (me : ℕ) : Option ℕ :=
  probe (fun e => e.hash == normalise me) a.data a.numSlots (normalise me % (a.numSlots - 1))

def count (a : JoinPairArray V) (me : ℕ) : ℕ :=
  match a.find me with
  | none => 0
  | some slot =>
    match a.data[slot]?.join with
    | none => 0
    | some e => 1 + (a.overflow e.next).length

def setUnused (a : JoinPairArray V) (me : ℕ) : JoinPairArray V :=
  match a.find me with
  | none => a
  | some slot =>
    match a.data[slot]?.join with
    | none => a
    | some e =>
      match e.next with
      | none => { a with data := a.data.set slot none }
      | some i =>
        if 1 ≤ (a.overflow (some i)).length then { a with overflows := a.overflows.modify i List.dropLast }
        else { a with data := a.data.set slot none }

section Push

variable [Inhabited V]

def append (room : JoinRoom) (a : JoinPairArray V) (i : ℕ) : JoinPairArray V × Except Thrown Place :=
  if room = .record then (a, .error .notEnoughSpace)
  else
    ({ a with overflows := a.overflows.modify i (· ++ [default]) },
      .ok (.overflow i (a.overflow (some i)).length))

def push (room : JoinRoom) (a : JoinPairArray V) (me : ℕ) : JoinPairArray V × Except Thrown Place :=
  match a.find me with
  | none => (a, .error .exit)
  | some slot =>
    match a.data[slot]?.join with
    | none =>
      if room = .pair then (a, .error .notEnoughSpace)
      else
        ({ a with
            data := a.data.set slot (some ⟨normalise me, none, default⟩)
            usedSlots := a.usedSlots + 1 }, .ok (.slot slot))
    | some e =>
      match e.next with
      | some i => append room a i
      | none =>
        if room = .list then (a, .error .notEnoughSpace)
        else
          append room
            { a with
              data := a.data.set slot (some { e with next := some a.overflows.length })
              overflows := a.overflows ++ [[]] } a.overflows.length

/-- The loop of `doubleArray`: it writes behind the value of a slot, which an overflow vector does not
have. -/
def moveAll : List (Option (JoinMapRecordClass V)) → JoinPairArray V → Except Thrown (JoinPairArray V)
  | [], newOne => .ok newOne
  | none :: rest, newOne => moveAll rest newOne
  | some e :: rest, newOne =>
    match newOne.push .enough e.hash with
    | (newOne, .ok (.slot s)) =>
      moveAll rest { newOne with
        data := newOne.data.modify s (Option.map fun f => { f with value := e.value, next := e.next }) }
    | _ => .error .exit

def doubleArray (a : JoinPairArray V) : Except Thrown (JoinPairArray V) :=
  (moveAll a.data (ofSize (a.numSlots * 2))).map fun newOne => { newOne with overflows := a.overflows }

end Push

section Correctness

def home (numSlots hash : ℕ) : ℕ := hash % (numSlots - 1)

structure Table (a : JoinPairArray V) : Prop where
  slots : 2 ≤ a.numSlots
  placed : Placed home JoinMapRecordClass.hash a.data
  hashed : ∀ e, some e ∈ a.data → normalise e.hash = e.hash
  used : a.data.reduceOption.length ≤ a.usedSlots
  bound : a.usedSlots ≤ a.maxSlots

structure Valid (a : JoinPairArray V) : Prop extends Table a where
  next_lt : ∀ e, some e ∈ a.data → ∀ i ∈ e.next, i < a.overflows.length
  next_inj : ∀ (s t : ℕ) (e f : JoinMapRecordClass V), a.data[s]? = some (some e) →
    a.data[t]? = some (some f) → ∀ i ∈ e.next, i ∈ f.next → s = t

theorem normalise_normalise (me : ℕ) : normalise (normalise me) = normalise me := by
  by_cases h : me = 493295393 <;> simp [normalise, JM_UNUSED, h]

theorem maxSlots_lt {a : JoinPairArray V} (h : 0 < a.numSlots) : a.maxSlots < a.numSlots := by
  simp only [maxSlots]
  omega

theorem ofSize_table {n : ℕ} (hn : 2 ≤ n) : (ofSize n : JoinPairArray V).Table := by
  have hpos : 0 < n := by omega
  constructor
  · simpa [numSlots, ofSize] using hn
  · exact placed_replicate home JoinMapRecordClass.hash hpos
  · intro e he
    simp [ofSize, List.mem_replicate] at he
  · simp [ofSize, List.reduceOption_replicate_none]
  · exact Nat.zero_le _

theorem ofSize_valid {n : ℕ} (hn : 2 ≤ n) : (ofSize n : JoinPairArray V).Valid := by
  have hempty {e : JoinMapRecordClass V} : some e ∉ (ofSize n : JoinPairArray V).data := by
    simp [ofSize, List.mem_replicate]
  refine ⟨ofSize_table hn, ?_, ?_⟩
  · intro e he
    exact absurd he hempty
  · intro s t e f he
    exact absurd (mem_of_getElem? he) hempty

namespace Table

theorem home_lt {a : JoinPairArray V} (h : a.Table) (hash : ℕ) : home a.data.length hash < a.data.length := by
  have hn : 2 ≤ a.data.length := h.slots
  have hlt : hash % (a.data.length - 1) < a.data.length - 1 := Nat.mod_lt _ (by omega)
  simp only [home]
  omega

theorem hit_iff {me : ℕ} (e : JoinMapRecordClass V) :
    (e.hash == normalise me) = true ↔ e.hash = normalise me := by
  simp

theorem find_present {a : JoinPairArray V} (h : a.Table) {slot me : ℕ} {e : JoinMapRecordClass V}
    (hs : a.data[slot]? = some (some e)) (he : e.hash = normalise me) : a.find me = some slot :=
  h.placed.probe_present (h.home_lt _) hit_iff hs he

theorem find_absent {a : JoinPairArray V} (h : a.Table) {me : ℕ}
    (habs : ∀ e, some e ∈ a.data → e.hash ≠ normalise me) :
    ∃ slot, a.find me = some slot ∧ a.data[slot]? = some none ∧
      ∀ e : JoinMapRecordClass V, e.hash = normalise me → none ∈ a.data.set slot (some e) →
        Placed home JoinMapRecordClass.hash (a.data.set slot (some e)) := by
  obtain ⟨j, hj, hfind, hempty, hocc⟩ := h.placed.probe_absent (h.home_lt _) hit_iff habs
  refine ⟨_, hfind, hempty, ?_⟩
  intro e he hfree
  exact h.placed.insert habs hj hocc hempty he hfree

end Table

theorem present_or_absent {a : JoinPairArray V} (me : ℕ) :
    (∃ (slot : ℕ) (e : JoinMapRecordClass V), a.data[slot]? = some (some e) ∧ e.hash = normalise me) ∨
      ∀ e, some e ∈ a.data → e.hash ≠ normalise me := by
  by_cases h : ∃ e, some e ∈ a.data ∧ e.hash = normalise me
  · obtain ⟨e, he, hh⟩ := h
    obtain ⟨slot, hs⟩ := List.mem_iff_getElem?.mp he
    exact Or.inl ⟨slot, e, hs, hh⟩
  · refine Or.inr ?_
    intro e he hh
    exact h ⟨e, he, hh⟩

theorem Valid.next_ne {a : JoinPairArray V} (h : a.Valid) {slot i : ℕ} {e f : JoinMapRecordClass V}
    (hs : a.data[slot]? = some (some e)) (hi : i ∈ e.next) (hf : some f ∈ a.data.set slot none) :
    i ∉ f.next := by
  intro hfi
  obtain ⟨t, ht⟩ := List.mem_iff_getElem?.mp hf
  by_cases hts : slot = t
  · subst hts
    rw [List.getElem?_set_self (List.getElem?_eq_some_iff.mp hs).1] at ht
    simp at ht
  · rw [List.getElem?_set_ne hts] at ht
    exact hts (h.next_inj slot t e f hs ht i hi hfi)

theorem records_perm {a : JoinPairArray V} {slot : ℕ} {e : JoinMapRecordClass V}
    (hs : a.data[slot]? = some (some e)) : a.records.Perm ((a.group e).map (e.hash, ·) ++
      (a.data.set slot none).reduceOption.flatMap fun f => (a.group f).map (f.hash, ·)) := by
  have hp := (reduceOption_perm_cons hs).flatMap_right fun f => (a.group f).map (f.hash, ·)
  simpa [records] using hp

theorem records_update {a b : JoinPairArray V} {slot : ℕ} {e f : JoinMapRecordClass V}
    (ha : a.data[slot]? = some (some e)) (hb : b.data = a.data.set slot (some f))
    (hgroup : ∀ g, some g ∈ a.data.set slot none → b.group g = a.group g) :
    ∃ rest, a.records.Perm ((a.group e).map (e.hash, ·) ++ rest) ∧
      b.records.Perm ((b.group f).map (f.hash, ·) ++ rest) := by
  have hin : slot < a.data.length := (List.getElem?_eq_some_iff.mp ha).1
  have hbs : b.data[slot]? = some (some f) := by rw [hb, List.getElem?_set_self hin]
  refine ⟨_, records_perm ha, ?_⟩
  have hp := records_perm hbs
  rw [hb, set_set] at hp
  have hrest : ((a.data.set slot none).reduceOption.flatMap fun g => (b.group g).map (g.hash, ·)) =
      (a.data.set slot none).reduceOption.flatMap fun g => (a.group g).map (g.hash, ·) := by
    apply List.flatMap_congr
    intro g hg
    rw [hgroup g (List.reduceOption_mem_iff.mp hg)]
  rwa [hrest] at hp

theorem values_eq (a : JoinPairArray V) (hash : ℕ) :
    a.values hash = (a.data.reduceOption.filter fun e => e.hash = hash).flatMap a.group := by
  rw [values, records]
  induction a.data.reduceOption with
  | nil => rfl
  | cons e entries ih =>
    rw [List.flatMap_cons, List.filter_append, List.map_append, ih]
    by_cases he : e.hash = hash <;> simp [he, List.filter_map, Function.comp_def]

theorem groups_sorted (a : JoinPairArray V) : a.groups.Pairwise fun g g' => g.1 ≤ g'.1 := by
  have hsorted : (a.data.reduceOption.mergeSort fun e f => decide (e.hash ≤ f.hash)).Pairwise
      fun e f => decide (e.hash ≤ f.hash) = true := by
    apply List.pairwise_mergeSort
    · intro a b c hab hbc
      simp only [decide_eq_true_eq] at hab hbc ⊢
      omega
    · intro a b
      simp only [Bool.or_eq_true, decide_eq_true_eq]
      omega
  rw [groups, List.pairwise_map]
  simpa using hsorted

theorem groups_perm (a : JoinPairArray V) :
    a.groups.Perm (a.data.reduceOption.map fun e => (e.hash, a.group e)) :=
  (List.mergeSort_perm _ _).map _

theorem Table.filter_eq {a : JoinPairArray V} (h : a.Table) {hash : ℕ} {entries : List (JoinMapRecordClass V)}
    (hp : (a.data.reduceOption.filter fun e => e.hash = hash).Perm entries) :
    (a.data.reduceOption.filter fun e => e.hash = hash) = entries := by
  have hnodup : ((a.data.reduceOption.filter fun e => e.hash = hash).map JoinMapRecordClass.hash).Nodup :=
    h.placed.nodup.sublist (List.filter_sublist.map _)
  have hall : ∀ e ∈ a.data.reduceOption.filter fun e => e.hash = hash, e.hash = hash := by
    intro e he
    simpa using (List.mem_filter.mp he).2
  generalize (a.data.reduceOption.filter fun e => e.hash = hash) = l at hp hnodup hall
  match l with
  | [] => exact hp.symm.eq_nil.symm
  | [e] => exact (List.perm_singleton.mp hp.symm).symm
  | e :: f :: l =>
    have he := hall e List.mem_cons_self
    have hf := hall f (List.mem_cons_of_mem _ List.mem_cons_self)
    simp [he, hf] at hnodup

theorem Table.values_present {a : JoinPairArray V} (h : a.Table) {slot : ℕ} {e : JoinMapRecordClass V}
    (hs : a.data[slot]? = some (some e)) : a.values e.hash = a.group e := by
  have hin : e ∈ a.data.reduceOption := List.reduceOption_mem_iff.mpr (mem_of_getElem? hs)
  have hmem : e ∈ a.data.reduceOption.filter fun f => f.hash = e.hash := List.mem_filter.mpr ⟨hin, by simp⟩
  have hp := (reduceOption_perm_cons hs).filter fun f => decide (f.hash = e.hash)
  have hrest : (a.data.set slot none).reduceOption.filter (fun f => decide (f.hash = e.hash)) = [] := by
    have hnodup := h.placed.nodup
    rw [((reduceOption_perm_cons hs).map _).nodup_iff, map_cons, nodup_cons] at hnodup
    rw [List.filter_eq_nil_iff]
    intro f hf hhash
    apply hnodup.1
    rw [← of_decide_eq_true hhash]
    exact List.mem_map_of_mem hf
  rw [List.filter_cons_of_pos (by simp), hrest] at hp
  rw [values_eq, h.filter_eq hp, List.flatMap_singleton]

theorem values_absent {a : JoinPairArray V} {hash : ℕ} (h : ∀ e, some e ∈ a.data → e.hash ≠ hash) :
    a.values hash = [] := by
  have hnone : (a.data.reduceOption.filter fun e => e.hash = hash) = [] := by
    rw [List.filter_eq_nil_iff]
    intro e he
    simpa using h e (List.reduceOption_mem_iff.mp he)
  rw [values_eq, hnone, List.flatMap_nil]

theorem Table.values_of_ne {a b : JoinPairArray V} (ha : a.Table) (hb : b.Table) {slot hash : ℕ}
    {f : Option (JoinMapRecordClass V)} (hdata : b.data = a.data.set slot f)
    (hslot : ∀ e, a.data[slot]? = some (some e) → e.hash ≠ hash) (hf : ∀ e ∈ f, e.hash ≠ hash)
    (hgroup : ∀ g, some g ∈ a.data.set slot none → b.group g = a.group g) : b.values hash = a.values hash := by
  by_cases hpresent : ∃ e, some e ∈ a.data ∧ e.hash = hash
  · obtain ⟨e, he, rfl⟩ := hpresent
    obtain ⟨t, ht⟩ := List.mem_iff_getElem?.mp he
    have hne : slot ≠ t := by
      rintro rfl
      exact hslot e ht rfl
    have htb : b.data[t]? = some (some e) := by rw [hdata, List.getElem?_set_ne hne, ht]
    have hte : some e ∈ a.data.set slot none :=
      List.mem_iff_getElem?.mpr ⟨t, by rw [List.getElem?_set_ne hne, ht]⟩
    rw [ha.values_present ht, hb.values_present htb, hgroup e hte]
  · have hnone : ∀ e, some e ∈ a.data → e.hash ≠ hash := fun e he hh => hpresent ⟨e, he, hh⟩
    rw [values_absent hnone]
    apply values_absent
    intro e he
    rw [hdata] at he
    obtain he | he := mem_or_eq_of_mem_set he
    · exact hnone e he
    · exact hf e he.symm

theorem Valid.with_overflows {a : JoinPairArray V} (h : a.Valid) {overflows : List (List V)}
    (hl : overflows.length = a.overflows.length) : ({ a with overflows } : JoinPairArray V).Valid := by
  refine ⟨⟨h.slots, h.placed, h.hashed, h.used, h.bound⟩, ?_, h.next_inj⟩
  intro e he i hi
  rw [hl]
  exact h.next_lt e he i hi

theorem Table.setUnused_absent {a : JoinPairArray V} (h : a.Table) {me : ℕ}
    (habs : ∀ e, some e ∈ a.data → e.hash ≠ normalise me) : a.setUnused me = a := by
  obtain ⟨slot, hfind, hempty, -⟩ := h.find_absent habs
  simp [setUnused, hfind, hempty]

theorem Table.push_absent {a : JoinPairArray V} (h : a.Table) {me : ℕ}
    (habs : ∀ e, some e ∈ a.data → e.hash ≠ normalise me) (hroom : a.usedSlots < a.maxSlots) :
    ∃ slot, a.data[slot]? = some none ∧ a.find me = some slot ∧
      ∀ i v, ({ a with
        data := a.data.set slot (some ⟨normalise me, i, v⟩)
        usedSlots := a.usedSlots + 1 } : JoinPairArray V).Table := by
  obtain ⟨slot, hfind, hempty, hplaced⟩ := h.find_absent habs
  refine ⟨slot, hempty, hfind, ?_⟩
  intro i v
  have hcount := (reduceOption_set hempty ⟨normalise me, i, v⟩).length_eq
  have hmax : a.maxSlots < a.numSlots := maxSlots_lt (by have := h.slots; omega)
  have hfree : none ∈ a.data.set slot (some ⟨normalise me, i, v⟩) := by
    rw [← List.reduceOption_length_lt_iff, hcount, length_cons, List.length_set]
    have := h.used
    simp only [numSlots] at hmax
    omega
  constructor
  · simpa [numSlots] using h.slots
  · exact hplaced _ rfl hfree
  · intro e he
    obtain he | he := mem_or_eq_of_mem_set he
    · exact h.hashed e he
    · cases he
      exact normalise_normalise me
  · rw [hcount, length_cons]
    exact Nat.succ_le_succ h.used
  · simp only [maxSlots, numSlots, List.length_set] at hroom ⊢
    exact hroom

theorem store_slot {a : JoinPairArray V} {slot : ℕ} (hin : slot < a.data.length) (hash : ℕ) (next : Option ℕ)
    (u v : V) :
    (({ a with data := a.data.set slot (some ⟨hash, next, u⟩) } : JoinPairArray V).store (.slot slot) v).data =
      a.data.set slot (some ⟨hash, next, v⟩) := by
  simp only [store]
  rw [List.modify_eq_set_getElem?, List.getElem?_set_self hin]
  simp [set_set]

theorem Valid.add_overflow {a : JoinPairArray V} (h : a.Valid) {slot : ℕ} {e : JoinMapRecordClass V}
    (hs : a.data[slot]? = some (some e)) (he : e.next = none) :
    let b : JoinPairArray V := { a with
      data := a.data.set slot (some { e with next := some a.overflows.length })
      overflows := a.overflows ++ [[]] }
    b.Valid ∧ b.records.Perm a.records ∧ ∀ hash, b.values hash = a.values hash := by
  intro b
  have hin : slot < a.data.length := (List.getElem?_eq_some_iff.mp hs).1
  have hempty : (a.data.set slot none)[slot]? = some none := List.getElem?_set_self hin
  have hbefore := reduceOption_perm_cons hs
  have hafter := reduceOption_set hempty { e with next := some a.overflows.length }
  rw [set_set] at hafter
  have hrest {g : JoinMapRecordClass V} (hg : some g ∈ a.data.set slot none) : some g ∈ a.data := by
    obtain hg | hg := mem_or_eq_of_mem_set hg
    · exact hg
    · cases hg
  have hgroup : b.group { e with next := some a.overflows.length } = a.group e := by
    simp [group, overflow, he, b, List.getD_eq_getElem?_getD]
  have hothers : ∀ g, some g ∈ a.data.set slot none → b.group g = a.group g := by
    intro g hg
    cases hgn : g.next with
    | none => simp [group, overflow, hgn]
    | some i =>
      have hlt := h.next_lt g (hrest hg) i hgn
      simp [group, overflow, hgn, b, List.getD_eq_getElem?_getD, List.getElem?_append_left hlt]
  have hvalid : b.Valid := by
    refine ⟨⟨?_, ?_, ?_, ?_, ?_⟩, ?_, ?_⟩
    · simpa [numSlots, b] using h.slots
    · exact h.placed.replace hs rfl
    · intro f hf
      obtain hf | hf := mem_or_eq_of_mem_set hf
      · exact h.hashed f hf
      · cases hf
        exact h.hashed e (mem_of_getElem? hs)
    · have hu := h.used
      rw [hbefore.length_eq] at hu
      simp only [b]
      rw [hafter.length_eq]
      exact hu
    · simpa [maxSlots, numSlots, b] using h.bound
    · intro f hf i hi
      simp only [b, List.length_append, List.length_singleton]
      obtain hf | hf := mem_or_eq_of_mem_set hf
      · exact Nat.lt_succ_of_lt (h.next_lt f hf i hi)
      · cases hf
        cases hi
        exact Nat.lt_succ_self _
    · apply nodup_filterMap_iff.mp
      have hnodup := nodup_filterMap_iff.mpr h.next_inj
      rw [(hbefore.filterMap _).nodup_iff, List.filterMap_cons_none he] at hnodup
      simp only [b]
      rw [(hafter.filterMap _).nodup_iff]
      simp only [List.filterMap_cons, nodup_cons]
      refine ⟨?_, hnodup⟩
      intro hmem
      obtain ⟨g, hg, hgn⟩ := List.mem_filterMap.mp hmem
      exact Nat.lt_irrefl _ (h.next_lt g (hrest (List.reduceOption_mem_iff.mp hg)) _ hgn)
  refine ⟨hvalid, ?_, ?_⟩
  · obtain ⟨rest, hp, hp'⟩ := records_update hs (b := b) rfl hothers
    rw [hgroup] at hp'
    exact hp'.trans hp.symm
  · intro hash
    by_cases hh : e.hash = hash
    · have hself : b.data[slot]? = some (some { e with next := some a.overflows.length }) :=
        List.getElem?_set_self hin
      have hvalues := hvalid.values_present hself
      rw [hgroup, ← h.values_present hs] at hvalues
      rw [← hh]
      exact hvalues
    · have hdata : b.data = a.data.set slot (some { e with next := some a.overflows.length }) := rfl
      apply h.values_of_ne hvalid.toTable hdata _ _ hothers
      · intro e' he'
        cases hs.symm.trans he'
        exact hh
      · rintro e' ⟨⟩
        exact hh

theorem Valid.count_eq_zero {a : JoinPairArray V} (h : a.Valid) {me : ℕ} :
    a.count me = 0 ↔ ∀ e, some e ∈ a.data → e.hash ≠ normalise me := by
  constructor
  · intro h0 e he hh
    obtain ⟨slot, hs⟩ := List.mem_iff_getElem?.mp he
    simp [count, h.find_present hs hh, hs] at h0
  · intro habs
    obtain ⟨slot, hfind, hempty, -⟩ := h.find_absent habs
    simp [count, hfind, hempty]

section Insertion

variable [Inhabited V]

structure Pushed (a : JoinPairArray V) (me : ℕ) (a' : JoinPairArray V) (place : Place) : Prop where
  valid : ∀ v, (a'.store place v).Valid
  records : ∀ v, (a'.store place v).records.Perm ((normalise me, v) :: a.records)
  undo : (a'.setUnused me).records.Perm a.records
  values : ∀ v hash, (a'.store place v).values hash =
    if hash = normalise me then a.values hash ++ [v] else a.values hash

theorem Valid.append_groups {a : JoinPairArray V} (h : a.Valid) {slot i : ℕ} {e : JoinMapRecordClass V}
    (hs : a.data[slot]? = some (some e)) (hi : e.next = some i) (v : V) :
    let b := ({ a with overflows := a.overflows.modify i (· ++ [default]) } : JoinPairArray V).store
      (.overflow i (a.overflow (some i)).length) v
    b.Valid ∧ b.data = a.data.set slot (some e) ∧ b.group e = a.group e ++ [v] ∧
      ∀ g, some g ∈ a.data.set slot none → b.group g = a.group g := by
  intro b
  have hlt : i < a.overflows.length := h.next_lt e (mem_of_getElem? hs) i hi
  let f : List V → List V := fun l => (l ++ [default]).set (a.overflow (some i)).length v
  have hb : b = { a with overflows := a.overflows.modify i f } := by
    simp only [b, store, List.modify_modify_eq]
    rfl
  have hself : (a.overflows.modify i f).getD i [] = f (a.overflows.getD i []) := by
    simp [List.getD_eq_getElem?_getD, List.getElem?_eq_getElem hlt]
  have hother {j : ℕ} (hj : i ≠ j) : (a.overflows.modify i f).getD j [] = a.overflows.getD j [] := by
    simp [List.getD_eq_getElem?_getD, hj]
  refine ⟨?_, ?_, ?_, ?_⟩
  · rw [hb]
    exact h.with_overflows (by simp)
  · obtain ⟨hin, hval⟩ := List.getElem?_eq_some_iff.mp hs
    rw [hb, ← hval, List.set_getElem_self]
  · rw [hb]
    simp only [group, hi, overflow, hself]
    simp [f, overflow]
  · intro g hg
    have hne := h.next_ne hs hi hg
    rw [hb]
    cases hgn : g.next with
    | none => simp [group, overflow, hgn]
    | some j =>
      have hij : i ≠ j := by
        rintro rfl
        exact hne hgn
      simp only [group, overflow, hgn, hother hij]

theorem Valid.append_cases {a : JoinPairArray V} (h : a.Valid) (room : JoinRoom) {slot me i : ℕ}
    {e : JoinMapRecordClass V} (hs : a.data[slot]? = some (some e)) (he : e.hash = normalise me)
    (hi : e.next = some i) :
    (∃ a' place, a.append room i = (a', .ok place) ∧ Pushed a me a' place) ∨
      a.append room i = (a, .error .notEnoughSpace) ∧ room = .record := by
  have hlt : i < a.overflows.length := h.next_lt e (mem_of_getElem? hs) i hi
  by_cases hr : room = .record
  · exact Or.inr ⟨by simp [append, hr], hr⟩
  refine Or.inl ⟨{ a with overflows := a.overflows.modify i (· ++ [default]) },
    .overflow i (a.overflow (some i)).length, by simp only [append, if_neg hr], ?_⟩
  constructor
  · intro v
    exact (h.append_groups hs hi v).1
  · intro v
    obtain ⟨-, hdata, hgroup, hothers⟩ := h.append_groups hs hi v
    obtain ⟨rest, hbefore, hafter⟩ := records_update hs hdata hothers
    rw [hgroup, he] at hafter
    rw [he] at hbefore
    simp only [List.map_append, map_cons, List.map_nil, List.append_assoc] at hafter
    apply hafter.trans
    exact List.perm_middle.trans (hbefore.symm.cons _)
  · have hfind : ({ a with overflows := a.overflows.modify i (· ++ [default]) } : JoinPairArray V).find me =
        some slot := h.find_present hs he
    have hlen : 1 ≤ (({ a with overflows := a.overflows.modify i (· ++ [default]) } :
        JoinPairArray V).overflow (some i)).length := by
      simp [overflow, List.getD_eq_getElem?_getD, List.getElem?_eq_getElem hlt]
    simp only [setUnused, hfind, hs, Option.join_some, hi, if_pos hlen, List.modify_modify_eq]
    have hid : (List.dropLast ∘ fun l : List V => l ++ [default]) = id := by
      funext l
      simp
    rw [hid, List.modify_id]
  · intro v hash
    obtain ⟨hvalid, hdata, hgroup, hothers⟩ := h.append_groups hs hi v
    have hin : slot < a.data.length := (List.getElem?_eq_some_iff.mp hs).1
    split_ifs with hh
    · rw [hh, ← he, h.values_present hs, ← hgroup]
      apply hvalid.values_present
      rw [hdata, List.getElem?_set_self hin]
    · apply h.values_of_ne hvalid.toTable hdata _ _ hothers
      · intro e' he'
        cases hs.symm.trans he'
        exact fun hn => hh (hn.symm.trans he)
      · rintro e' ⟨⟩
        exact fun hn => hh (hn.symm.trans he)

theorem Valid.push_fresh {a : JoinPairArray V} (h : a.Valid) {room : JoinRoom} (hr : room ≠ .pair) {me : ℕ}
    (habs : ∀ e, some e ∈ a.data → e.hash ≠ normalise me) (hroom : a.usedSlots < a.maxSlots) :
    ∃ a' place, a.push room me = (a', .ok place) ∧ Pushed a me a' place := by
  obtain ⟨slot, hempty, hfind, htable⟩ := h.push_absent habs hroom
  have hin : slot < a.data.length := (List.getElem?_eq_some_iff.mp hempty).1
  let a' : JoinPairArray V := { a with
    data := a.data.set slot (some ⟨normalise me, none, default⟩)
    usedSlots := a.usedSlots + 1 }
  have hstore (v : V) : a'.store (.slot slot) v = { a with
      data := a.data.set slot (some ⟨normalise me, none, v⟩)
      usedSlots := a.usedSlots + 1 } := by
    have hd := store_slot hin (normalise me) none default v
    simp only [store] at hd ⊢
    simp only [a', hd]
  have hperm (v : V) := reduceOption_set hempty (⟨normalise me, none, v⟩ : JoinMapRecordClass V)
  have hvalid (v : V) : (a'.store (.slot slot) v).Valid := by
    rw [hstore]
    refine ⟨htable none v, ?_, ?_⟩
    · intro e he
      obtain he | he := mem_or_eq_of_mem_set he
      · exact h.next_lt e he
      · cases he
        simp
    · apply nodup_filterMap_iff.mp
      rw [((hperm v).filterMap _).nodup_iff]
      simpa using nodup_filterMap_iff.mpr h.next_inj
  refine ⟨a', .slot slot, by simp [push, hfind, hempty, hr, a'], hvalid, ?_, ?_, ?_⟩
  · intro v
    have hp := (hperm v).flatMap_right fun e => (a.group e).map (e.hash, ·)
    rw [hstore]
    simpa [records, group, overflow] using hp
  · have hself : a'.data[slot]? = some (some ⟨normalise me, none, default⟩) := List.getElem?_set_self hin
    have hfind' : a'.find me = some slot := (htable none default).find_present hself rfl
    have hback : a'.data.set slot none = a.data := by
      obtain ⟨_, hnone⟩ := List.getElem?_eq_some_iff.mp hempty
      simp only [a', set_set]
      rw [← hnone, List.set_getElem_self]
    simp only [setUnused, hfind', hself, Option.join_some, hback]
    exact List.Perm.refl _
  · intro v hash
    have hv := hvalid v
    have hdata : (a'.store (.slot slot) v).data = a.data.set slot (some ⟨normalise me, none, v⟩) := by
      rw [hstore]
    have hothers : ∀ g, some g ∈ a.data.set slot none → (a'.store (.slot slot) v).group g = a.group g := by
      intro g _
      rw [hstore]
      rfl
    split_ifs with hh
    · have hs : (a'.store (.slot slot) v).data[slot]? = some (some ⟨normalise me, none, v⟩) := by
        rw [hdata, List.getElem?_set_self hin]
      rw [hh, values_absent habs, List.nil_append]
      exact hv.values_present hs
    · apply h.values_of_ne hv.toTable hdata _ _ hothers
      · intro e he
        cases hempty.symm.trans he
      · rintro e ⟨⟩
        exact fun hn => hh hn.symm

theorem Valid.push_cases {a : JoinPairArray V} (h : a.Valid) (room : JoinRoom) (me : ℕ)
    (hroom : a.usedSlots < a.maxSlots) :
    (∃ a' place, a.push room me = (a', .ok place) ∧ Pushed a me a' place) ∨
    ∃ a', a.push room me = (a', .error .notEnoughSpace) ∧ a'.records.Perm a.records ∧
      (a.count me = 0 → (a'.setUnused me).records.Perm a.records) := by
  obtain ⟨slot, e, hs, he⟩ | habs := @present_or_absent V a me
  · have hfind := h.find_present hs he
    have hcount : a.count me ≠ 0 := fun h0 => h.count_eq_zero.mp h0 e (mem_of_getElem? hs) he
    cases hn : e.next with
    | some i =>
      have hpush : a.push room me = a.append room i := by simp [push, hfind, hs, hn]
      rw [hpush]
      obtain ⟨a', place, ha, hp⟩ | ⟨ha, -⟩ := h.append_cases room hs he hn
      · exact Or.inl ⟨a', place, ha, hp⟩
      · exact Or.inr ⟨a, ha, List.Perm.refl _, fun h0 => absurd h0 hcount⟩
    | none =>
      obtain ⟨hb, hrecords, hvalues⟩ := h.add_overflow hs hn
      by_cases hr : room = .list
      · refine Or.inr ⟨a, by simp [push, hfind, hs, hn, hr], List.Perm.refl _, fun h0 => absurd h0 hcount⟩
      · simp only [push, hfind, hs, Option.join_some, hn, if_neg hr]
        have hself := List.getElem?_set_self (l := a.data)
          (a := some { e with next := some a.overflows.length }) (List.getElem?_eq_some_iff.mp hs).1
        obtain ⟨a', place, ha, hp⟩ | ⟨ha, -⟩ := hb.append_cases room hself he rfl
        · refine Or.inl ⟨a', place, ha, hp.valid, ?_, hp.undo.trans hrecords, ?_⟩
          · intro v
            exact (hp.records v).trans (hrecords.cons _)
          · intro v hash
            rw [hp.values v hash, hvalues]
        · exact Or.inr ⟨_, ha, hrecords, fun h0 => absurd h0 hcount⟩
  · by_cases hr : room = .pair
    · obtain ⟨slot, hempty, hfind, -⟩ := h.push_absent habs hroom
      refine Or.inr ⟨a, by simp [push, hfind, hempty, hr], List.Perm.refl _, ?_⟩
      rw [h.setUnused_absent habs]
      exact fun _ => List.Perm.refl _
    · exact Or.inl (h.push_fresh hr habs hroom)

structure Rehash (todo : List (Option (JoinMapRecordClass V))) (newOne : JoinPairArray V) : Prop where
  table : newOne.Table
  hashed : ∀ e, some e ∈ todo → normalise e.hash = e.hash
  fresh : ((todo.reduceOption ++ newOne.data.reduceOption).map JoinMapRecordClass.hash).Nodup
  room : newOne.usedSlots + todo.reduceOption.length ≤ newOne.maxSlots

theorem Rehash.moveAll_ok {todo : List (Option (JoinMapRecordClass V))} {newOne : JoinPairArray V}
    (h : Rehash todo newOne) : ∃ temp, moveAll todo newOne = .ok temp ∧ temp.Table ∧
      temp.data.reduceOption.Perm (todo.reduceOption ++ newOne.data.reduceOption) ∧
      temp.numSlots = newOne.numSlots ∧
      temp.usedSlots = newOne.usedSlots + todo.reduceOption.length := by
  induction todo generalizing newOne with
  | nil => exact ⟨newOne, rfl, h.table, by simp, rfl, by simp⟩
  | cons first rest ih =>
    cases first with
    | none =>
      have hrest : Rehash rest newOne := by
        refine ⟨h.table, fun e he => h.hashed e (List.mem_cons_of_mem _ he), ?_, ?_⟩
        · simpa using h.fresh
        · simpa using h.room
      simpa [moveAll] using ih hrest
    | some e =>
      have hfresh := h.fresh
      have hroom := h.room
      simp only [List.reduceOption_cons_of_some, List.cons_append, map_cons, nodup_cons,
        length_cons] at hfresh hroom
      have hhash : normalise e.hash = e.hash := h.hashed e List.mem_cons_self
      have habs : ∀ f, some f ∈ newOne.data → f.hash ≠ normalise e.hash := by
        intro f hf hne
        apply hfresh.1
        rw [← hhash, ← hne]
        apply List.mem_map_of_mem
        exact List.mem_append_right _ (List.reduceOption_mem_iff.mpr hf)
      obtain ⟨slot, hempty, hfind, htable⟩ := h.table.push_absent habs (by omega)
      have hin : slot < newOne.data.length := (List.getElem?_eq_some_iff.mp hempty).1
      let moved : JoinPairArray V := { newOne with
        data := newOne.data.set slot (some e)
        usedSlots := newOne.usedSlots + 1 }
      have hpush : moveAll (some e :: rest) newOne = moveAll rest moved := by
        simp only [moveAll, push, hfind, hempty, Option.join_some, reduceCtorEq, if_false]
        congr 2
        rw [List.modify_eq_set_getElem?, List.getElem?_set_self hin]
        simp [set_set, hhash]
      have hperm := reduceOption_set hempty e
      have hmoved : Rehash rest moved := by
        constructor
        · have ht := htable e.next e.value
          rw [hhash] at ht
          exact ht
        · intro f hf
          exact h.hashed f (List.mem_cons_of_mem _ hf)
        · have hkeys := (hperm.append_left rest.reduceOption).map JoinMapRecordClass.hash
          simp only [moved]
          rw [hkeys.nodup_iff, (List.perm_middle.map _).nodup_iff, map_cons, nodup_cons]
          exact hfresh
        · simp only [maxSlots, numSlots, moved, List.length_set] at hroom ⊢
          omega
      obtain ⟨temp, ht, htab, hp, hn, hu⟩ := ih hmoved
      refine ⟨temp, hpush.trans ht, htab, ?_, ?_, ?_⟩
      · simp only [List.reduceOption_cons_of_some, List.cons_append]
        exact (hp.trans (hperm.append_left _)).trans List.perm_middle
      · rw [hn]
        simp [numSlots, moved]
      · rw [hu]
        simp only [moved, List.reduceOption_cons_of_some, length_cons]
        omega

omit [Inhabited V] in
theorem Valid.rehash {a : JoinPairArray V} (h : a.Valid) : Rehash a.data (ofSize (a.numSlots * 2)) := by
  have hn := h.slots
  constructor
  · exact ofSize_table (by omega)
  · exact h.hashed
  · simpa [ofSize, List.reduceOption_replicate_none] using h.placed.nodup
  · have hused := h.used.trans h.bound
    simp only [maxSlots, numSlots, ofSize, List.length_replicate] at hused ⊢
    omega

theorem Valid.doubleArray_ok {a : JoinPairArray V} (h : a.Valid) :
    ∃ temp, a.doubleArray = .ok temp ∧ temp.Valid ∧ temp.records.Perm a.records ∧
      temp.usedSlots < temp.maxSlots ∧ temp.data.reduceOption.Perm a.data.reduceOption ∧
      ∀ hash, temp.values hash = a.values hash := by
  have hn := h.slots
  obtain ⟨newOne, hm, ht, hp, hs, hu⟩ := h.rehash.moveAll_ok
  have hperm : newOne.data.reduceOption.Perm a.data.reduceOption := by
    simpa [ofSize, List.reduceOption_replicate_none] using hp
  refine ⟨{ newOne with overflows := a.overflows }, by simp [doubleArray, hm, Except.map], ?_, ?_, ?_, hperm,
    ?_⟩
  · refine ⟨⟨ht.slots, ht.placed, ht.hashed, ht.used, ht.bound⟩, ?_, ?_⟩
    · intro e he
      exact h.next_lt e (List.reduceOption_mem_iff.mp (hperm.mem_iff.mp (List.reduceOption_mem_iff.mpr he)))
    · apply nodup_filterMap_iff.mp
      rw [(hperm.filterMap _).nodup_iff]
      exact nodup_filterMap_iff.mpr h.next_inj
  · exact hperm.flatMap_right fun e => (a.group e).map (e.hash, ·)
  · have hused := h.used.trans h.bound
    simp only [maxSlots, numSlots, ofSize, List.length_replicate] at hs hu hused hn ⊢
    rw [hs, hu]
    omega
  · intro hash
    rw [values_eq, values_eq, h.filter_eq (hperm.symm.filter _)]
    rfl

end Insertion

end Correctness

end JoinPairArray

structure JoinMap (V : Type) where
  myArray : JoinPairArray V
  deriving DecidableEq, Repr

namespace JoinMap

def empty : JoinMap V := ⟨.ofSize 2⟩

def count (m : JoinMap V) (which : ℕ) : ℕ := m.myArray.count which

def setUnused (m : JoinMap V) (clearMe : ℕ) : JoinMap V := ⟨m.myArray.setUnused clearMe⟩

def records (m : JoinMap V) : List (ℕ × V) := m.myArray.records

def store (m : JoinMap V) (place : Place) (v : V) : JoinMap V := ⟨m.myArray.store place v⟩

def push [Inhabited V] (room : JoinRoom) (m : JoinMap V) (me : ℕ) : JoinMap V × Except Thrown Place :=
  if m.myArray.isOverFull then
    if room = .array then (m, .error .notEnoughSpace)
    else
      match m.myArray.doubleArray with
      | .error e => (m, .error e)
      | .ok temp => (⟨(temp.push room me).1⟩, (temp.push room me).2)
  else (⟨(m.myArray.push room me).1⟩, (m.myArray.push room me).2)

def Valid (m : JoinMap V) : Prop := m.myArray.Valid

theorem empty_valid : (empty : JoinMap V).Valid := JoinPairArray.ofSize_valid (Nat.le_refl 2)

theorem empty_records : (empty : JoinMap V).records = [] := by
  simp [empty, records, JoinPairArray.records, JoinPairArray.ofSize]

section Insertion

variable [Inhabited V]

inductive Pushes (room : JoinRoom) (m : JoinMap V) (me : ℕ) : Prop
  | placed {m' : JoinMap V} {place : Place} : m.push room me = (m', .ok place) →
      (∀ v, (m'.store place v).Valid) →
      (∀ v, (m'.store place v).records.Perm ((normalise me, v) :: m.records)) →
      (m'.setUnused me).records.Perm m.records → Pushes room m me
  | failed {m' : JoinMap V} : m.push room me = (m', .error .notEnoughSpace) → m'.records.Perm m.records →
      (m.count me = 0 → (m'.setUnused me).records.Perm m.records) → Pushes room m me

theorem Pushes.of_array {m : JoinMap V} {room : JoinRoom} {me : ℕ} {a : JoinPairArray V} (ha : a.Valid)
    (hroom : a.usedSlots < a.maxSlots) (hrecords : a.records.Perm m.records)
    (hcount : m.count me = 0 → a.count me = 0)
    (he : m.push room me = (⟨(a.push room me).1⟩, (a.push room me).2)) : Pushes room m me := by
  obtain ⟨a', place, hp, hpushed⟩ | ⟨a', hp, hr, hu⟩ := ha.push_cases room me hroom
  · rw [hp] at he
    apply Pushes.placed he
    · exact hpushed.valid
    · intro v
      exact (hpushed.records v).trans (hrecords.cons _)
    · exact hpushed.undo.trans hrecords
  · rw [hp] at he
    apply Pushes.failed he
    · exact hr.trans hrecords
    · intro h0
      exact (hu (hcount h0)).trans hrecords

theorem Valid.pushes {m : JoinMap V} (h : m.Valid) (room : JoinRoom) (me : ℕ) : Pushes room m me := by
  by_cases hfull : m.myArray.isOverFull = true
  · by_cases hr : room = .array
    · apply Pushes.failed (show m.push room me = (m, _) by simp [push, hfull, hr]) (List.Perm.refl _)
      intro h0
      have habs := (JoinPairArray.Valid.count_eq_zero h).mp h0
      rw [setUnused, JoinPairArray.Table.setUnused_absent h.toTable habs]
    · obtain ⟨temp, hd, hv, hrecords, hroom, hperm, -⟩ := JoinPairArray.Valid.doubleArray_ok h
      apply Pushes.of_array hv hroom hrecords
      · intro h0
        apply hv.count_eq_zero.mpr
        intro e he
        apply (JoinPairArray.Valid.count_eq_zero h).mp h0 e
        exact List.reduceOption_mem_iff.mp (hperm.mem_iff.mp (List.reduceOption_mem_iff.mpr he))
      · simp [push, hfull, hr, hd]
  · have hroom : m.myArray.usedSlots < m.myArray.maxSlots := by
      simpa [JoinPairArray.isOverFull] using hfull
    apply Pushes.of_array h hroom (List.Perm.refl _) id
    simp [push, hfull]

end Insertion

end JoinMap

namespace JoinPairArray

def Counted (a : JoinPairArray V) : Prop := a.data.reduceOption.length ≤ a.usedSlots

theorem ofSize_counted (n : ℕ) : (ofSize n : JoinPairArray V).Counted := by
  simp [Counted, ofSize, List.reduceOption_replicate_none]

theorem Counted.store {a : JoinPairArray V} (h : a.Counted) (place : Place) (v : V) :
    (a.store place v).Counted := by
  cases place with
  | slot s => exact (length_reduceOption_modify _ _ _).trans_le h
  | overflow which pos => exact h

theorem Counted.setUnused {a : JoinPairArray V} (h : a.Counted) (me : ℕ) : (a.setUnused me).Counted := by
  have hdrop (slot : ℕ) : ({ a with data := a.data.set slot none } : JoinPairArray V).Counted :=
    (length_reduceOption_set_none _ _).trans h
  rw [JoinPairArray.setUnused]
  split
  · exact h
  · split
    · exact h
    · split
      · exact hdrop _
      · split_ifs
        · exact h
        · exact hdrop _

section Push

variable [Inhabited V]

theorem Counted.append {a : JoinPairArray V} (h : a.Counted) (room : JoinRoom) (i : ℕ) :
    (a.append room i).1.Counted := by
  rw [JoinPairArray.append]
  split_ifs <;> exact h

theorem Counted.push {a : JoinPairArray V} (h : a.Counted) (room : JoinRoom) (me : ℕ) :
    (a.push room me).1.Counted := by
  rw [JoinPairArray.push]
  split
  · exact h
  · next slot hfind =>
    split
    · next hempty =>
      split_ifs
      · exact h
      · by_cases hin : slot < a.data.length
        · have hs : a.data[slot]? = some none := by
            rw [List.getElem?_eq_getElem hin] at hempty ⊢
            simpa using hempty
          have hlen := (reduceOption_set hs ⟨normalise me, none, default⟩).length_eq
          rw [length_cons] at hlen
          exact hlen.trans_le (Nat.succ_le_succ h)
        · simp only [Counted]
          rw [List.set_eq_of_length_le (Nat.not_lt.mp hin)]
          exact Nat.le_succ_of_le h
    · next e hslot =>
      split
      · exact h.append room _
      · split_ifs
        · exact h
        · apply Counted.append
          have hs : a.data[slot]? = some (some e) := by
            cases hd : a.data[slot]? <;> simp_all
          have hempty : (a.data.set slot none)[slot]? = some none :=
            List.getElem?_set_self (List.getElem?_eq_some_iff.mp hs).1
          have hset := (reduceOption_set hempty { e with next := some a.overflows.length }).length_eq
          have hold := (reduceOption_perm_cons hs).length_eq
          rw [set_set, length_cons] at hset
          rw [length_cons] at hold
          simp only [Counted] at h ⊢
          omega

theorem Counted.moveAll {todo : List (Option (JoinMapRecordClass V))} {newOne a : JoinPairArray V}
    (h : newOne.Counted) (he : moveAll todo newOne = .ok a) : a.Counted := by
  induction todo generalizing newOne with
  | nil =>
    cases he
    exact h
  | cons e todo ih =>
    cases e with
    | none => exact ih h he
    | some e =>
      have hpush := h.push .enough e.hash
      rw [JoinPairArray.moveAll] at he
      split at he
      · next newOne' s hp =>
        rw [hp] at hpush
        apply ih _ he
        exact (length_reduceOption_modify _ _ _).trans_le hpush
      · cases he

theorem doubleArray_counted {a temp : JoinPairArray V} (he : a.doubleArray = .ok temp) : temp.Counted := by
  rw [doubleArray] at he
  cases hm : moveAll a.data (ofSize (a.numSlots * 2)) with
  | error e => simp [hm, Except.map] at he
  | ok newOne =>
    have hcounted : newOne.Counted := (ofSize_counted _).moveAll hm
    rw [hm] at he
    cases he
    exact hcounted

end Push

end JoinPairArray

namespace JoinMap

/-- The map of `JoinMap (initSize)`; the loop that looks for a power of two ends the process above
`2 ^ 31`. -/
def ofSize (initSize : ℕ) : Except Thrown (JoinMap V) :=
  if 2 ^ 31 < initSize then .error .exit else .ok ⟨.ofSize (max initSize 2)⟩

inductive Built [Inhabited V] : JoinMap V → Prop
  | ofSize {initSize : ℕ} {m : JoinMap V} : ofSize initSize = .ok m → Built m
  | push {m : JoinMap V} (room : JoinRoom) (me : ℕ) : Built m → Built (m.push room me).1
  | store {m : JoinMap V} (place : Place) (v : V) : Built m → Built (m.store place v)
  | setUnused {m : JoinMap V} (clearMe : ℕ) : Built m → Built (m.setUnused clearMe)

theorem Built.counted [Inhabited V] {m : JoinMap V} (h : m.Built) : m.myArray.Counted := by
  induction h with
  | ofSize he =>
    rw [JoinMap.ofSize] at he
    split_ifs at he
    cases he
    exact JoinPairArray.ofSize_counted _
  | @push m room me _ ih =>
    rw [JoinMap.push]
    split_ifs
    · exact ih
    · cases hd : m.myArray.doubleArray with
      | error e => exact ih
      | ok temp => exact (JoinPairArray.doubleArray_counted hd).push room me
    · exact ih.push room me
  | store place v _ ih => exact ih.store place v
  | setUnused clearMe _ ih => exact ih.setUnused clearMe

end JoinMap

end PlinyCompute.PdbJoinMap
