import PlinyCompute.PdbJoinMap
import PlinyCompute.Preaggregation
import Mathlib.Algebra.BigOperators.Fin

namespace PlinyCompute.Sinks

open PdbMap PdbJoinMap
open Function (update update_of_ne update_self)

variable {T Out F R : Type}

/-- A sink over tuple sets `T` with output containers `Out`. `F` says where the rows of one call run out of
space; the container and the rest of the tuple set are also given after an exception. -/
structure ComputeSink (T Out F : Type) where
  createNewOutputContainer : Out
  writeOut : F → T → Out → Out × T × Except Thrown Unit

/-- How the rows `R` of a sink are counted: in a tuple set and in a container. `Lossy` are the calls that
destroy rows the container already holds. -/
structure Counting (sink : ComputeSink T Out F) (R : Type) where
  rows : T → Multiset R
  held : Out → Multiset R
  WellFormed : T → Prop
  Valid : Out → Prop
  Lossy : F → T → Out → Prop
  create_valid : Valid sink.createNewOutputContainer
  create_held : held sink.createNewOutputContainer = 0
  /-- A call writes all rows, or the rows it has not written are what is left of the tuple set. -/
  write : ∀ f t out, Valid out → WellFormed t →
    (∃ out' t', sink.writeOut f t out = (out', t', .ok ()) ∧ Valid out' ∧
      held out' = held out + rows t ∧ ¬ Lossy f t out) ∨
    ∃ out' t' gone, sink.writeOut f t out = (out', t', .error .notEnoughSpace) ∧ WellFormed t' ∧
      held out' + rows t' + gone = held out + rows t ∧ (Lossy f t out ↔ gone ≠ 0)

theorem sum_update {n : ℕ} {β M : Type} [AddCommMonoid M] {g : β → M} (maps : Fin n → β) (q : Fin n) {m : β}
    {x : M} (h : g m = g (maps q) + x) : ∑ p, g (update maps q m p) = ∑ p, g (maps p) + x := by
  have hpoint (p : Fin n) : g (update maps q m p) = g (maps p) + if p = q then x else 0 := by
    by_cases hp : p = q
    · subst hp
      rw [update_self, if_pos rfl, h]
    · rw [update_of_ne hp, if_neg hp, add_zero]
  simp only [hpoint, Finset.sum_add_distrib, Finset.sum_ite_eq', Finset.mem_univ, if_true]

namespace VectorSink

variable {α : Type}

def writeLoop (throws : ℕ → Bool) : ℕ → List α → List α → List α × Option ℕ
  | _, [], myVec => (myVec, none)
  | i, x :: inputColumn, myVec =>
    if throws i then (myVec, some i) else writeLoop throws (i + 1) inputColumn (myVec ++ [x])

def writeOut (throws : ℕ → Bool) (inputColumn myVec : List α) : List α × List α × Except Thrown Unit :=
  match writeLoop throws 0 inputColumn myVec with
  | (myVec, none) => (myVec, inputColumn, .ok ())
  | (myVec, some i) => (myVec, inputColumn.drop i, .error .notEnoughSpace)

def sink (α : Type) : ComputeSink (List α) (List α) (ℕ → Bool) where
  createNewOutputContainer := []
  writeOut := writeOut

theorem writeLoop_cases (throws : ℕ → Bool) (i : ℕ) (inputColumn myVec : List α) :
    writeLoop throws i inputColumn myVec = (myVec ++ inputColumn, none) ∨
      ∃ j, writeLoop throws i inputColumn myVec = (myVec ++ inputColumn.take j, some (i + j)) := by
  induction inputColumn generalizing i myVec with
  | nil => exact Or.inl (by simp [writeLoop])
  | cons x inputColumn ih =>
    by_cases ht : throws i = true
    · exact Or.inr ⟨0, by simp [writeLoop, ht]⟩
    · obtain h | ⟨j, h⟩ := ih (i + 1) (myVec ++ [x])
      · exact Or.inl (by simp [writeLoop, ht, h])
      · exact Or.inr ⟨j + 1, by simp [writeLoop, ht, h, Nat.add_assoc, Nat.add_comm 1]⟩

def counting (α : Type) : Counting (sink α) α where
  rows column := column
  held myVec := myVec
  WellFormed _ := True
  Valid _ := True
  Lossy _ _ _ := False
  create_valid := trivial
  create_held := rfl
  write throws column myVec _ _ := by
    obtain h | ⟨j, h⟩ := writeLoop_cases throws 0 column myVec
    · refine Or.inl ⟨myVec ++ column, column, ?_, trivial, ?_, id⟩
      · simp [sink, writeOut, h]
      · exact (Multiset.coe_add _ _).symm
    · refine Or.inr ⟨myVec ++ column.take j, column.drop j, 0, ?_, trivial, ?_, by simp⟩
      · simp [sink, writeOut, h]
      · rw [add_zero, Multiset.coe_add, Multiset.coe_add, List.append_assoc, List.take_append_drop]

end VectorSink

namespace JoinSink

variable {α : Type}

structure TupleSet (α : Type) where
  keyColumn : List ℕ
  column : ℕ → List α

def packRow [Inhabited α] (atts : List ℕ) (column : ℕ → List α) (i : ℕ) : List α :=
  atts.map fun att => (column att).getD i default

def truncate (i : ℕ) : List ℕ → (ℕ → List α) → ℕ → List α
  | [], column => column
  | att :: atts, column => truncate i atts (update column att ((column att).drop i))

def createNewOutputContainer (n : ℕ) : Fin n → JoinMap (List α) := fun _ => JoinMap.empty

def whichMap (n : ℕ) [NeZero n] (key : ℕ) : Fin n := Fin.ofNat n key

variable [Inhabited α]

def insert (room : JoinRoom) (myMap : JoinMap (List α)) (key : ℕ) (record : List α) :
    JoinMap (List α) × Except Thrown Unit :=
  if myMap.count key = 0 then
    match myMap.push room key with
    | (myMap, .error .exit) => (myMap, .error .exit)
    | (myMap, .error .notEnoughSpace) => (myMap.setUnused key, .error .notEnoughSpace)
    | (myMap, .ok temp) =>
      if room = .pack then (myMap.setUnused key, .error .notEnoughSpace)
      else (myMap.store temp record, .ok ())
  else
    match myMap.push room key with
    | (myMap, .error e) => (myMap, .error e)
    | (myMap, .ok temp) =>
      if room = .pack then (myMap.setUnused key, .error .notEnoughSpace)
      else (myMap.store temp record, .ok ())

def writeLoop {n : ℕ} [NeZero n] (atts : List ℕ) (column : ℕ → List α) (rooms : ℕ → JoinRoom) :
    ℕ → List ℕ → (Fin n → JoinMap (List α)) → (Fin n → JoinMap (List α)) × Option (ℕ × Thrown)
  | _, [], maps => (maps, none)
  | i, key :: keys, maps =>
    match insert (rooms i) (maps (whichMap n key)) key (packRow atts column i) with
    | (myMap, .error e) => (update maps (whichMap n key) myMap, some (i, e))
    | (myMap, .ok ()) =>
      writeLoop atts column rooms (i + 1) keys (update maps (whichMap n key) myMap)

def writeOut {n : ℕ} [NeZero n] (atts : List ℕ) (rooms : ℕ → JoinRoom) (input : TupleSet α)
    (maps : Fin n → JoinMap (List α)) : (Fin n → JoinMap (List α)) × TupleSet α × Except Thrown Unit :=
  match writeLoop atts input.column rooms 0 input.keyColumn maps with
  | (maps, none) => (maps, input, .ok ())
  | (maps, some (i, .notEnoughSpace)) =>
    (maps, ⟨input.keyColumn.drop i, truncate i atts input.column⟩, .error .notEnoughSpace)
  | (maps, some (_, .exit)) => (maps, input, .error .exit)

def sink (n : ℕ) [NeZero n] (atts : List ℕ) :
    ComputeSink (TupleSet α) (Fin n → JoinMap (List α)) (ℕ → JoinRoom) where
  createNewOutputContainer := createNewOutputContainer n
  writeOut := writeOut atts

def rowsFrom (atts : List ℕ) (column : ℕ → List α) : ℕ → List ℕ → List (ℕ × List α)
  | _, [] => []
  | i, key :: keys => (normalise key, packRow atts column i) :: rowsFrom atts column (i + 1) keys

omit [Inhabited α] in
theorem truncate_apply {i : ℕ} {atts : List ℕ} (hn : atts.Nodup) (column : ℕ → List α) (att : ℕ) :
    truncate i atts column att = if att ∈ atts then (column att).drop i else column att := by
  induction atts generalizing column with
  | nil => simp [truncate]
  | cons a atts ih =>
    rw [List.nodup_cons] at hn
    rw [truncate, ih hn.2]
    by_cases ha : att = a
    · subst ha
      simp [hn.1]
    · simp [ha]

theorem packRow_truncate {i : ℕ} {atts : List ℕ} (hn : atts.Nodup) (column : ℕ → List α) (j : ℕ) :
    packRow atts (truncate i atts column) j = packRow atts column (i + j) := by
  apply List.map_congr_left
  intro att ha
  rw [truncate_apply hn, if_pos ha]
  simp [List.getD_eq_getElem?_getD]

theorem rowsFrom_drop {i j : ℕ} {atts : List ℕ} (column : ℕ → List α) (keys : List ℕ) :
    (rowsFrom atts column i keys).drop j = rowsFrom atts column (i + j) (keys.drop j) := by
  induction keys generalizing i j with
  | nil => simp [rowsFrom]
  | cons key keys ih =>
    cases j with
    | zero => simp
    | succ j =>
      rw [rowsFrom, List.drop_succ_cons, List.drop_succ_cons, ih]
      congr 1
      omega

theorem rowsFrom_truncate {i : ℕ} {atts : List ℕ} (hn : atts.Nodup) (column : ℕ → List α) (j : ℕ)
    (keys : List ℕ) : rowsFrom atts (truncate i atts column) j keys = rowsFrom atts column (i + j) keys := by
  induction keys generalizing j with
  | nil => rfl
  | cons key keys ih => rw [rowsFrom, rowsFrom, packRow_truncate hn, ih, Nat.add_assoc]

omit [Inhabited α] in
theorem insert_cases {myMap : JoinMap (List α)} (h : myMap.Valid) (room : JoinRoom) (key : ℕ)
    (record : List α) :
    (∃ m, insert room myMap key record = (m, .ok ()) ∧ m.Valid ∧
      m.records.Perm ((normalise key, record) :: myMap.records)) ∨
    ∃ m, insert room myMap key record = (m, .error .notEnoughSpace) ∧ m.records.Perm myMap.records := by
  cases h.pushes room key with
  | @placed m' place hp hvalid hrecords hundo =>
    by_cases hr : room = .pack
    · subst hr
      refine Or.inr ⟨m'.setUnused key, ?_, hundo⟩
      by_cases hc : myMap.count key = 0 <;> simp [insert, hc, hp]
    · refine Or.inl ⟨m'.store place record, ?_, hvalid record, hrecords record⟩
      by_cases hc : myMap.count key = 0 <;> simp [insert, hc, hp, hr]
  | @failed m' hp hrecords hundo =>
    by_cases hc : myMap.count key = 0
    · exact Or.inr ⟨m'.setUnused key, by simp [insert, hc, hp], hundo hc⟩
    · exact Or.inr ⟨m', by simp [insert, hc, hp], hrecords⟩

def held {n : ℕ} (maps : Fin n → JoinMap (List α)) : Multiset (ℕ × List α) :=
  ∑ p, ((maps p).records : Multiset (ℕ × List α))

theorem writeLoop_cases {n : ℕ} [NeZero n] (atts : List ℕ) (column : ℕ → List α) (rooms : ℕ → JoinRoom)
    (i : ℕ) (keys : List ℕ) {maps : Fin n → JoinMap (List α)} (hm : ∀ p, (maps p).Valid) :
    (∃ maps', writeLoop atts column rooms i keys maps = (maps', none) ∧ (∀ p, (maps' p).Valid) ∧
      held maps' = held maps + (rowsFrom atts column i keys : Multiset (ℕ × List α))) ∨
    ∃ maps' j, writeLoop atts column rooms i keys maps = (maps', some (i + j, .notEnoughSpace)) ∧
      held maps' = held maps + ((rowsFrom atts column i keys).take j : Multiset (ℕ × List α)) := by
  induction keys generalizing i maps with
  | nil => exact Or.inl ⟨maps, rfl, hm, by simp [rowsFrom]⟩
  | cons key keys ih =>
    obtain ⟨m, hi, hvalid, hp⟩ | ⟨m, hi, hp⟩ :=
      insert_cases (hm (whichMap n key)) (rooms i) key (packRow atts column i)
    · have hadd : (m.records : Multiset (ℕ × List α)) =
          (maps (whichMap n key)).records + {(normalise key, packRow atts column i)} := by
        rw [Multiset.coe_eq_coe.mpr hp, add_comm]
        rfl
      have hheld : held (update maps (whichMap n key) m) =
          held maps + {(normalise key, packRow atts column i)} :=
        sum_update (g := fun m : JoinMap (List α) => (m.records : Multiset (ℕ × List α))) maps _ hadd
      have hnext : ∀ p, (update maps (whichMap n key) m p).Valid := by
        intro p
        by_cases hq : p = whichMap n key
        · subst hq
          rwa [update_self]
        · rw [update_of_ne hq]
          exact hm p
      obtain ⟨maps', hw, hv, hh⟩ | ⟨maps', j, hw, hh⟩ := ih (i + 1) hnext
      · refine Or.inl ⟨maps', by simp [writeLoop, hi, hw], hv, ?_⟩
        rw [hh, hheld, rowsFrom, ← Multiset.cons_coe, ← Multiset.singleton_add, add_assoc]
      · refine Or.inr ⟨maps', j + 1, by simp [writeLoop, hi, hw, Nat.add_assoc, Nat.add_comm 1], ?_⟩
        rw [hh, hheld, rowsFrom, List.take_succ_cons, ← Multiset.cons_coe, ← Multiset.singleton_add, add_assoc]
    · refine Or.inr ⟨update maps (whichMap n key) m, 0, by simp [writeLoop, hi], ?_⟩
      apply sum_update (g := fun m : JoinMap (List α) => (m.records : Multiset (ℕ × List α)))
      rw [Multiset.coe_eq_coe.mpr hp]
      simp

def counting (n : ℕ) [NeZero n] (atts : List ℕ) (hn : atts.Nodup) :
    Counting (sink n atts : ComputeSink (TupleSet α) _ _) (ℕ × List α) where
  rows input := (rowsFrom atts input.column 0 input.keyColumn : Multiset (ℕ × List α))
  held := held
  WellFormed _ := True
  Valid maps := ∀ p, (maps p).Valid
  Lossy _ _ _ := False
  create_valid _ := JoinMap.empty_valid
  create_held := by simp [held, sink, createNewOutputContainer, JoinMap.empty_records]
  write rooms input maps hm _ := by
    obtain ⟨maps', hw, hv, hh⟩ | ⟨maps', i, hw, hh⟩ :=
      writeLoop_cases atts input.column rooms 0 input.keyColumn hm
    · exact Or.inl ⟨maps', input, by simp [sink, writeOut, hw], hv, hh, id⟩
    · refine Or.inr ⟨maps', ⟨input.keyColumn.drop i, truncate i atts input.column⟩, 0,
        by simp [sink, writeOut, hw], trivial, ?_, by simp⟩
      have hrest : rowsFrom atts (truncate i atts input.column) 0 (input.keyColumn.drop i) =
          (rowsFrom atts input.column 0 input.keyColumn).drop i := by
        rw [rowsFrom_truncate hn, rowsFrom_drop, Nat.add_comm]
      rw [hh, hrest, add_zero, add_assoc, Multiset.coe_add, List.take_append_drop]

end JoinSink

namespace PreaggregationSink

open Preaggregation

variable {K R : Type} [DecidableEq K]

def sink (hash : K → ℕ) (n : ℕ) [NeZero n] : ComputeSink (Columns K (List R)) (Container n K (List R)) (ℕ → Room) where
  createNewOutputContainer := createNewOutputContainer n
  writeOut := writeOut hash (· ++ ·)

def weight (_ : K) (value : List R) : Multiset R := value

def held {n : ℕ} (maps : Container n K (List R)) : Multiset R := ∑ p, total weight (maps p).pairs

omit [DecidableEq K] in
theorem sum_share (hash : K → ℕ) {n : ℕ} [NeZero n] (rows : List (K × List R)) :
    ∑ p : Fin n, share hash weight p rows = total weight rows := by
  induction rows with
  | nil => simp [share, total]
  | cons r rows ih =>
    simp only [share, total_cons, Finset.sum_add_distrib, Finset.sum_ite_eq, Finset.mem_univ, if_true] at ih ⊢
    rw [ih]

omit [DecidableEq K] in
theorem total_eq_zero {gone : List (K × List R)} (hg : ∀ r ∈ gone, r.2 ≠ []) :
    total weight gone = 0 ↔ gone = [] := by
  cases gone with
  | nil => simp [total]
  | cons r gone =>
    have hr : r.2 ≠ [] := hg r List.mem_cons_self
    constructor
    · intro h0
      have hc := congrArg Multiset.card h0
      rw [total_cons, Multiset.card_add, Multiset.card_zero, Nat.add_eq_zero_iff] at hc
      have hlen : r.2.length = 0 := hc.1
      exact absurd (List.length_eq_zero_iff.mp hlen) hr
    · intro h
      cases h

def counting (hash : K → ℕ) (n : ℕ) [NeZero n] :
    Counting (sink hash n : ComputeSink (Columns K (List R)) _ _) R where
  rows input := total weight input.rows
  held := held
  WellFormed input := input.Aligned ∧ ∀ value ∈ input.valueColumn, ∃ r, value = [r]
  Valid maps := Ready hash (fun value => value ≠ []) maps
  Lossy rooms input maps :=
    0 < lostEntries hash (· ++ ·) rooms 0 input.keyColumn input.valueColumn maps
  create_valid := Ready.create
  create_held := by simp [held, sink, createNewOutputContainer, Map.empty_pairs, total]
  write rooms input maps hm hin := by
    have hadd : ∀ u v : List R, u ≠ [] → u ++ v ≠ [] := by simp +contextual
    have hgood : ∀ value ∈ input.valueColumn, value ≠ [] := by
      intro value hv
      obtain ⟨r, rfl⟩ := hin.2 value hv
      simp
    have hw : ∀ (k : K) (u v : List R), weight k (u ++ v) = weight k u + weight k v := by
      intro k u v
      exact (Multiset.coe_add u v).symm
    obtain ⟨maps', hout, hready, hlost, htotal⟩ | ⟨maps', i, gone, p₀, hout, hlost, hg, htotal⟩ :=
      writeOut_cases hw hadd rooms hin.1 hgood hm
    · refine Or.inl ⟨maps', input, hout, hready, ?_, ?_⟩
      · simp only [held, htotal, Finset.sum_add_distrib, sum_share]
      · exact Nat.not_lt.mpr (Nat.le_of_eq hlost)
    · refine Or.inr ⟨maps', input.erase i, total weight gone, hout, ⟨hin.1.erase i, ?_⟩, ?_, ?_⟩
      · intro value hv
        exact hin.2 value (List.mem_of_mem_drop hv)
      · have hsum := Finset.sum_congr (rfl : (Finset.univ : Finset (Fin n)) = Finset.univ)
          fun p _ => htotal p
        simp only [Finset.sum_add_distrib, sum_share, Finset.sum_ite_eq', Finset.mem_univ, if_true] at hsum
        rw [add_right_comm]
        exact hsum
      · rw [ne_eq, total_eq_zero hg, ← hlost, List.length_pos_iff]

end PreaggregationSink

end PlinyCompute.Sinks
