import PlinyCompute.PdbMap
import Mathlib.Data.Fin.Basic
import Mathlib.Algebra.BigOperators.Group.List.Basic

namespace PlinyCompute.Preaggregation

open PdbMap
open Function (update update_of_ne update_self)

variable {K V : Type}

structure Columns (K V : Type) where
  keyColumn : List K
  valueColumn : List V
  deriving DecidableEq, Repr

namespace Columns

def rows (c : Columns K V) : List (K × V) := c.keyColumn.zip c.valueColumn

def erase (c : Columns K V) (i : ℕ) : Columns K V := ⟨c.keyColumn.drop i, c.valueColumn.drop i⟩

def Aligned (c : Columns K V) : Prop := c.keyColumn.length = c.valueColumn.length

theorem Aligned.erase {c : Columns K V} (h : c.Aligned) (i : ℕ) : (c.erase i).Aligned := by
  have hlen : c.keyColumn.length = c.valueColumn.length := h
  simp [Columns.Aligned, Columns.erase, hlen]

end Columns

abbrev Container (n : ℕ) (K V : Type) := Fin n → Map K V

def createNewOutputContainer (n : ℕ) : Container n K V := fun _ => Map.empty

def whichMap (hash : K → ℕ) (n : ℕ) [NeZero n] (key : K) : Fin n := Fin.ofNat n (hasher hash key)

section Sink

variable [DecidableEq K] [Inhabited V] (hash : K → ℕ) (add : V → V → V)

def aggregate (room : Room) (myMap : Map K V) (key : K) (value : V) : Map K V × Except Thrown Unit :=
  if myMap.count hash key = 0 then
    match myMap.index hash room key with
    | (myMap, .error e) => (myMap, .error e)
    | (myMap, .ok temp) =>
      if room = .value then (myMap.setUnused hash key, .error .notEnoughSpace)
      else (myMap.store temp value, .ok ())
  else
    match myMap.index hash room key with
    | (myMap, .error e) => (myMap, .error e)
    | (myMap, .ok temp) =>
      let copy := myMap.fetch temp
      if room = .value then (myMap.store temp copy, .error .notEnoughSpace)
      else (myMap.store temp (add copy value), .ok ())

/-- The loop from row `i` on; `rooms i` is where row `i` runs out of space. It gives the row that threw. -/
def writeLoop {n : ℕ} [NeZero n] (rooms : ℕ → Room) :
    ℕ → List K → List V → Container n K V → Container n K V × Option (ℕ × Thrown)
  | i, key :: keys, value :: values, maps =>
    match aggregate hash add (rooms i) (maps (whichMap hash n key)) key value with
    | (myMap, .error e) => (update maps (whichMap hash n key) myMap, some (i, e))
    | (myMap, .ok ()) =>
      writeLoop rooms (i + 1) keys values (update maps (whichMap hash n key) myMap)
  | _, _, _, maps => (maps, none)

def writeOut {n : ℕ} [NeZero n] (rooms : ℕ → Room) (input : Columns K V) (maps : Container n K V) :
    Container n K V × Columns K V × Except Thrown Unit :=
  match writeLoop hash add rooms 0 input.keyColumn input.valueColumn maps with
  | (maps, none) => (maps, input, .ok ())
  | (maps, some (i, .notEnoughSpace)) => (maps, input.erase i, .error .notEnoughSpace)
  | (maps, some (_, .exit)) => (maps, input, .error .exit)

end Sink

section Lost

variable [DecidableEq K] [Inhabited V] (hash : K → ℕ) (add : V → V → V)

def lostEntries {n : ℕ} [NeZero n] (rooms : ℕ → Room) :
    ℕ → List K → List V → Container n K V → ℕ
  | i, key :: keys, value :: values, maps =>
    match aggregate hash add (rooms i) (maps (whichMap hash n key)) key value with
    | (_, .error _) => Map.lost hash (rooms i) (maps (whichMap hash n key)) key
    | (myMap, .ok ()) =>
      lostEntries rooms (i + 1) keys values (update maps (whichMap hash n key) myMap)
  | _, _, _, _ => 0

end Lost

inductive Added (add : V → V → V) (k : K) (v : V) (before after : List (K × V)) : Prop
  | fresh : k ∉ before.map Prod.fst → after.Perm ((k, v) :: before) → Added add k v before after
  | merged {u : V} {rest : List (K × V)} : before.Perm ((k, u) :: rest) →
      after.Perm ((k, add u v) :: rest) → Added add k v before after

section Weights

variable {M : Type} [AddCommMonoid M] {w : K → V → M} {add : V → V → V}

def total (w : K → V → M) (pairs : List (K × V)) : M := (pairs.map fun r => w r.1 r.2).sum

theorem total_perm {before after : List (K × V)} (h : before.Perm after) : total w before = total w after :=
  (h.map _).sum_eq

@[simp] theorem total_cons (r : K × V) (pairs : List (K × V)) :
    total w (r :: pairs) = w r.1 r.2 + total w pairs := by
  simp [total]

@[simp] theorem total_append (pairs pairs' : List (K × V)) :
    total w (pairs ++ pairs') = total w pairs + total w pairs' := by
  simp [total]

def share (hash : K → ℕ) {n : ℕ} [NeZero n] (w : K → V → M) (p : Fin n) (rows : List (K × V)) : M :=
  total (fun k v => if whichMap hash n k = p then w k v else 0) rows

theorem Added.total_eq (hw : ∀ k u v, w k (add u v) = w k u + w k v) {k : K} {v : V}
    {before after : List (K × V)} (h : Added add k v before after) :
    total w after = total w before + w k v := by
  cases h with
  | fresh _ ha =>
    rw [total_perm ha, total_cons]
    exact add_comm _ _
  | merged hb ha =>
    rw [total_perm ha, total_perm hb, total_cons, total_cons, hw]
    exact add_right_comm _ _ _

end Weights

section Containers

structure Ready {n : ℕ} (hash : K → ℕ) (good : V → Prop) (maps : Container n K V) : Prop where
  valid : ∀ p, (maps p).Valid hash
  good : ∀ p, ∀ r ∈ (maps p).pairs, good r.2

variable {hash : K → ℕ} {n : ℕ} {good : V → Prop} {add : V → V → V}

theorem Ready.create : Ready hash good (createNewOutputContainer n : Container n K V) := by
  constructor
  · intro p
    exact Map.empty_valid
  · intro p r hr
    simp [createNewOutputContainer, Map.empty_pairs] at hr

theorem Ready.update (hadd : ∀ u v, good u → good (add u v)) {maps : Container n K V}
    (h : Ready hash good maps) {p : Fin n} {m : Map K V} {k : K} {v : V} (hv : good v) (hm : m.Valid hash)
    (ha : Added add k v (maps p).pairs m.pairs) : Ready hash good (Function.update maps p m) := by
  constructor
  · intro q
    by_cases hq : q = p
    · subst hq
      rwa [Function.update_self]
    · rw [Function.update_of_ne hq]
      exact h.valid q
  · intro q r hr
    by_cases hq : q = p
    · subst hq
      rw [Function.update_self] at hr
      cases ha with
      | fresh _ ha =>
        obtain rfl | hr := List.mem_cons.mp (ha.mem_iff.mp hr)
        · exact hv
        · exact h.good q r hr
      | merged hb ha =>
        obtain rfl | hr := List.mem_cons.mp (ha.mem_iff.mp hr)
        · exact hadd _ _ (h.good q _ (hb.mem_iff.mpr List.mem_cons_self))
        · exact h.good q r (hb.mem_iff.mpr (List.mem_cons_of_mem _ hr))
    · rw [Function.update_of_ne hq] at hr
      exact h.good q r hr

end Containers

section Correctness

variable [DecidableEq K] [Inhabited V] {hash : K → ℕ} {add : V → V → V}

theorem aggregate_cases {myMap : Map K V} (h : myMap.Valid hash) (room : Room) (key : K) (value : V) :
    (∃ m, aggregate hash add room myMap key value = (m, .ok ()) ∧ m.Valid hash ∧
      Added add key value myMap.pairs m.pairs ∧ Map.lost hash room myMap key = 0) ∨
    ∃ m, aggregate hash add room myMap key value = (m, .error .notEnoughSpace) ∧ room ≠ .enough ∧
      m.pairs.Perm (myMap.pairs.drop (Map.lost hash room myMap key)) := by
  have hcount := PairArray.Valid.count_eq h key
  by_cases hk : key ∈ myMap.pairs.map Prod.fst
  · have hc : myMap.count hash key = 1 := hcount.trans (if_pos hk)
    obtain ⟨slot, e, hs, rfl, hi⟩ := h.index_present room hk
    obtain ⟨rest, hbefore, hafter⟩ := PairArray.pairs_store hs
    have hfetch : myMap.fetch slot = e.value := by simp [Map.fetch, PairArray.fetch, hs]
    have hlost : Map.lost hash room myMap e.key = 0 := by
      unfold Map.lost
      split
      · simp [hc]
      · rfl
    by_cases hv : room = .value
    · subst hv
      refine Or.inr ⟨myMap.store slot e.value, ?_, by simp, ?_⟩
      · simp [aggregate, hc, hi, hfetch]
      · rw [hlost]
        exact (hafter e.value).trans hbefore.symm
    · refine Or.inl ⟨myMap.store slot (add e.value value), ?_, ?_, ?_, hlost⟩
      · simp [aggregate, hc, hi, hv, hfetch]
      · exact PairArray.Valid.store h hs _
      · exact Added.merged hbefore (hafter _)
  · have hc : myMap.count hash key = 0 := hcount.trans (if_neg hk)
    obtain ⟨a, a', slot, hi, hins, hp, hlost, -⟩ | ⟨m, hi, hne, hp⟩ := h.index_absent room hk
    · by_cases hv : room = .value
      · subst hv
        refine Or.inr ⟨Map.setUnused hash ⟨a'⟩ key, ?_, by simp, ?_⟩
        · simp [aggregate, hc, hi]
        · rw [hlost]
          apply List.Perm.trans _ hp
          rw [Map.pairs, Map.setUnused, PairArray.pairs, hins.setUnused]
          rfl
      · refine Or.inl ⟨Map.store ⟨a'⟩ slot value, ?_, ?_, ?_, hlost⟩
        · simp [aggregate, hc, hi, hv]
        · exact hins.valid.store hins.entry value
        · apply Added.fresh hk
          exact (hins.pairs_store value).trans (hp.cons _)
    · exact Or.inr ⟨m, by simp [aggregate, hc, hi], hne, hp⟩

variable {n : ℕ} [NeZero n] {good : V → Prop} {M : Type} [AddCommMonoid M] {w : K → V → M}

theorem lostEntries_eq_zero {rooms : ℕ → Room}
    (hr : ∀ i, (rooms i).Atomic) (i : ℕ) (keys : List K) (values : List V)
    (maps : Container n K V) : lostEntries hash add rooms i keys values maps = 0 := by
  induction keys generalizing i values maps with
  | nil => simp [lostEntries]
  | cons key keys ih =>
    cases values with
    | nil => simp [lostEntries]
    | cons value values =>
      rw [lostEntries]
      split
      · exact Map.lost_eq_zero (hr i) _ _
      · exact ih _ _ _

theorem writeLoop_cases (hw : ∀ k u v, w k (add u v) = w k u + w k v)
    (hadd : ∀ u v, good u → good (add u v)) (rooms : ℕ → Room) (i : ℕ) (keys : List K) (values : List V)
    (hlen : keys.length = values.length) (hgood : ∀ v ∈ values, good v) {maps : Container n K V}
    (hm : Ready hash good maps) :
    (∃ maps', writeLoop hash add rooms i keys values maps = (maps', none) ∧ Ready hash good maps' ∧
      lostEntries hash add rooms i keys values maps = 0 ∧
      ∀ p, total w (maps' p).pairs = total w (maps p).pairs + share hash w p (keys.zip values)) ∨
    ∃ maps' j gone p₀, j < keys.length ∧
      writeLoop hash add rooms i keys values maps = (maps', some (i + j, .notEnoughSpace)) ∧
      gone.length = lostEntries hash add rooms i keys values maps ∧ (∀ r ∈ gone, good r.2) ∧
      ∀ p, total w (maps' p).pairs + (if p = p₀ then total w gone else 0) =
        total w (maps p).pairs + share hash w p ((keys.zip values).take j) := by
  induction keys generalizing i values maps with
  | nil => exact Or.inl ⟨maps, by simp [writeLoop], hm, by simp [lostEntries], by simp [share, total]⟩
  | cons key keys ih =>
    cases values with
    | nil => simp at hlen
    | cons value values =>
      have hv : good value := hgood value List.mem_cons_self
      obtain ⟨m, ha, hvalid, hadded, -⟩ | ⟨m, ha, -, hperm⟩ :=
        @aggregate_cases K V _ _ hash add _ (hm.valid (whichMap hash n key)) (rooms i) key value
      · have hshare (p : Fin n) : total w (update maps (whichMap hash n key) m p).pairs =
            total w (maps p).pairs + if whichMap hash n key = p then w key value else 0 := by
          by_cases hp : p = whichMap hash n key
          · subst hp
            rw [update_self, if_pos rfl, hadded.total_eq hw]
          · rw [update_of_ne hp, if_neg (Ne.symm hp), add_zero]
        have hnext := hm.update hadd hv hvalid hadded
        obtain ⟨maps', hloop, hready, hlost, htotal⟩ | ⟨maps', j, gone, p₀, hj, hloop, hlost, hg, htotal⟩ :=
          ih (i + 1) values (by simpa using hlen) (fun v hv => hgood v (List.mem_cons_of_mem _ hv)) hnext
        · refine Or.inl ⟨maps', by simp [writeLoop, ha, hloop], hready, by simp [lostEntries, ha, hlost], ?_⟩
          intro p
          rw [htotal, hshare]
          simp [share, add_assoc]
        · refine Or.inr ⟨maps', j + 1, gone, p₀, by simpa using hj, ?_, by simp [lostEntries, ha, hlost], hg, ?_⟩
          · simp [writeLoop, ha, hloop, Nat.add_assoc, Nat.add_comm 1]
          · intro p
            rw [htotal, hshare]
            simp [share, add_assoc]
      · refine Or.inr ⟨update maps (whichMap hash n key) m, 0,
          (maps (whichMap hash n key)).pairs.take (Map.lost hash (rooms i) (maps (whichMap hash n key)) key),
          whichMap hash n key, Nat.succ_pos _, by simp [writeLoop, ha], ?_, ?_, ?_⟩
        · simp only [lostEntries, ha, List.length_take]
          exact Nat.min_eq_left Map.lost_le
        · intro r hr
          exact hm.good _ r (List.mem_of_mem_take hr)
        · intro p
          by_cases hp : p = whichMap hash n key
          · subst hp
            rw [update_self, if_pos rfl, total_perm hperm, add_comm, ← total_append,
              List.take_append_drop]
            simp [share, total]
          · rw [update_of_ne hp, if_neg hp]
            simp [share, total]

theorem writeOut_cases (hw : ∀ k u v, w k (add u v) = w k u + w k v)
    (hadd : ∀ u v, good u → good (add u v)) (rooms : ℕ → Room) {input : Columns K V} (hin : input.Aligned)
    (hgood : ∀ v ∈ input.valueColumn, good v) {maps : Container n K V} (hm : Ready hash good maps) :
    (∃ maps', writeOut hash add rooms input maps = (maps', input, .ok ()) ∧ Ready hash good maps' ∧
      lostEntries hash add rooms 0 input.keyColumn input.valueColumn maps = 0 ∧
      ∀ p, total w (maps' p).pairs = total w (maps p).pairs + share hash w p input.rows) ∨
    ∃ maps' i gone p₀,
      writeOut hash add rooms input maps = (maps', input.erase i, .error .notEnoughSpace) ∧
      gone.length = lostEntries hash add rooms 0 input.keyColumn input.valueColumn maps ∧
      (∀ r ∈ gone, good r.2) ∧
      ∀ p, total w (maps' p).pairs + (if p = p₀ then total w gone else 0) +
        share hash w p (input.erase i).rows = total w (maps p).pairs + share hash w p input.rows := by
  obtain ⟨maps', hloop, hready, hlost, htotal⟩ | ⟨maps', i, gone, p₀, -, hloop, hlost, hg, htotal⟩ :=
    writeLoop_cases hw hadd rooms 0 input.keyColumn input.valueColumn hin hgood hm
  · exact Or.inl ⟨maps', by simp [writeOut, hloop], hready, hlost, htotal⟩
  · refine Or.inr ⟨maps', i, gone, p₀, by simp [writeOut, hloop], hlost, hg, ?_⟩
    intro p
    have hrows : (input.erase i).rows = input.rows.drop i := by
      simp only [Columns.rows, Columns.erase, List.zip, List.drop_zipWith]
    rw [htotal, hrows, add_assoc]
    congr 1
    rw [share, share, share, ← total_append]
    exact congrArg _ (List.take_append_drop i input.rows)

end Correctness

end PlinyCompute.Preaggregation
