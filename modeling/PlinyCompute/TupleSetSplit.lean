import PlinyCompute.TupleSets

namespace PlinyCompute.TupleSets

open Transition

variable {α β : Type}

/-- The rows from a position on go to another vector, which is cleared or new. `reserve` throws when there
are too few rows. -/
def Column.split (splitMe : Column α β) (toMe : Option (Column α β)) (index : ℕ) :
    Except Stop (Column α β × Column α β) :=
  if splitMe.rows.length < index then .error .exception
  else .ok ({ splitMe with rows := splitMe.rows.take index },
    { toMe.getD splitMe with rows := splitMe.rows.drop index })

def Column.merge (lhs rhs : Column α β) : Column α β × Column α β :=
  ({ lhs with rows := lhs.rows ++ rhs.rows }, { rhs with rows := [] })

namespace TupleSet

def split (lhs rhs : TupleSet α β) (index : ℕ) : Except Stop (TupleSet α β × TupleSet α β) :=
  lhs.columns.keys.foldlM (fun p which => do
    let lhsVec ← p.1.entry which
    let (lhsVec, rhsVec) ← lhsVec.split (p.2.column which) index
    return (p.1.put which lhsVec, p.2.put which rhsVec)) (lhs, rhs)

def merge (lhs rhs : TupleSet α β) : Except Stop (TupleSet α β × TupleSet α β) :=
  rhs.columns.keys.foldlM (fun p which => do
    let rhsVec ← p.2.entry which
    match p.1.column which with
    -- the new column is put at `it->first`, where `it` is the end of the map
    | none => .error .undefined
    | some lhsVec => return (p.1.put which (lhsVec.merge rhsVec).1, p.2.put which (lhsVec.merge rhsVec).2)) (lhs, rhs)

def rows (t : TupleSet α β) (j : ℕ) : Option (List (Cell α β)) := (t.column j).map Column.rows

def Even (t : TupleSet α β) (n : ℕ) : Prop := ∀ j col, t.column j = some col → col.rows.length = n

def CoveredBy (rhs lhs : TupleSet α β) : Prop := ∀ j, rhs.hasColumn j = true → lhs.hasColumn j = true

def SplitMergeInverse (lhs rhs : TupleSet α β) : Prop :=
  ∀ n index, lhs.Even n → index ≤ n → rhs.CoveredBy lhs →
    ∃ lhs' rhs', lhs.split rhs index = .ok (lhs', rhs') ∧
      (∀ j, lhs'.rows j = (lhs.rows j).map (List.take index)) ∧
      (∀ j, rhs'.rows j = (lhs.rows j).map (List.drop index)) ∧
      ∃ lhs'' rhs'', lhs'.merge rhs' = .ok (lhs'', rhs'') ∧ (∀ j, lhs''.rows j = lhs.rows j) ∧
        ∀ j, rhs''.rows j = (lhs.rows j).map fun _ => []

def MergeAppends (lhs rhs : TupleSet α β) : Prop :=
  ∃ lhs' rhs', lhs.merge rhs = .ok (lhs', rhs') ∧
    (∀ j, lhs'.rows j = match lhs.rows j, rhs.rows j with
      | rows, none => rows
      | none, some rows => some rows
      | some rows, some more => some (rows ++ more)) ∧
    ∀ j, rhs'.rows j = (rhs.rows j).map fun _ => []

section Loops

theorem column_put_mem {t : TupleSet α β} {x : ℕ → Column α β} {k : ℕ} {keys : List ℕ} (j : ℕ) :
    (if j ∈ keys then some (x j) else (t.put k (x k)).column j) =
      if j ∈ k :: keys then some (x j) else t.column j := by
  rw [column_put]
  by_cases hj : j ∈ keys
  · rw [if_pos hj, if_pos (List.mem_cons_of_mem _ hj)]
  · by_cases hk : j = k
    · rw [if_neg hj, if_pos hk, if_pos (List.mem_cons.mpr (Or.inl hk)), hk]
    · rw [if_neg hj, if_neg hk, if_neg fun h => (List.mem_cons.mp h).elim hk hj]

theorem foldlM_columns {f : ℕ → TupleSet α β × TupleSet α β → Except Stop (Column α β × Column α β)}
    {keys : List ℕ} (hkeys : keys.Nodup) (lhs rhs : TupleSet α β) {g : ℕ → Column α β × Column α β}
    (hf : ∀ j ∈ keys, ∀ p, p.1.column j = lhs.column j → p.2.column j = rhs.column j → f j p = .ok (g j)) :
    ∃ lhs' rhs', keys.foldlM (fun p j => f j p >>= fun c => .ok (p.1.put j c.1, p.2.put j c.2)) (lhs, rhs) =
        .ok (lhs', rhs') ∧
      (∀ j, lhs'.column j = if j ∈ keys then some (g j).1 else lhs.column j) ∧
      ∀ j, rhs'.column j = if j ∈ keys then some (g j).2 else rhs.column j := by
  induction keys generalizing lhs rhs with
  | nil => exact ⟨lhs, rhs, rfl, fun _ => rfl, fun _ => rfl⟩
  | cons k keys ih =>
    rw [List.nodup_cons] at hkeys
    obtain ⟨lhs', rhs', hrun, hl, hr⟩ := ih hkeys.2 (lhs.put k (g k).1) (rhs.put k (g k).2) <| by
      intro j hj p hp hq
      have hne : j ≠ k := fun he => hkeys.1 (he ▸ hj)
      rw [column_put, if_neg hne] at hp hq
      exact hf j (List.mem_cons_of_mem _ hj) p hp hq
    refine ⟨lhs', rhs', ?_, fun j => (hl j).trans (column_put_mem (x := fun j => (g j).1) j),
      fun j => (hr j).trans (column_put_mem (x := fun j => (g j).2) j)⟩
    rw [List.foldlM_cons, hf k List.mem_cons_self _ rfl rfl, ok_bind, ok_bind]
    exact hrun

theorem mem_keys {t : TupleSet α β} {j : ℕ} : j ∈ t.columns.keys ↔ t.hasColumn j = true :=
  AList.lookup_isSome.symm

theorem column_eq_none_of_keys {t : TupleSet α β} {j : ℕ} (h : j ∉ t.columns.keys) : t.column j = none :=
  AList.lookup_eq_none.mpr h

theorem exists_of_keys {t : TupleSet α β} {j : ℕ} (h : j ∈ t.columns.keys) : ∃ col, t.column j = some col :=
  Option.isSome_iff_exists.mp (mem_keys.mp h)

end Loops

section Inverse

variable {lhs rhs : TupleSet α β}

theorem split_ensures {n index : ℕ} (hn : lhs.Even n) (hle : index ≤ n) (hcover : rhs.CoveredBy lhs) :
    ∃ lhs' rhs', lhs.split rhs index = .ok (lhs', rhs') ∧
      (∀ j, lhs'.rows j = (lhs.rows j).map (List.take index)) ∧
      ∀ j, rhs'.rows j = (lhs.rows j).map (List.drop index) := by
  let g : ℕ → Column α β × Column α β := fun j =>
    let lhsVec := (lhs.column j).getD ⟨.flag false, []⟩
    ({ lhsVec with rows := lhsVec.rows.take index },
      { (rhs.column j).getD lhsVec with rows := lhsVec.rows.drop index })
  obtain ⟨lhs', rhs', hrun, hl, hr⟩ := foldlM_columns (f := fun j p =>
      p.1.entry j >>= fun lhsVec => lhsVec.split (p.2.column j) index) lhs.columns.keys_nodup lhs rhs
      (g := g) <| by
    intro j hj p hp hq
    obtain ⟨col, hcol⟩ := exists_of_keys hj
    rw [hcol] at hp
    rw [entry_eq_ok.mpr hp, ok_bind, hq, Column.split, if_neg (by rw [hn j col hcol]; omega)]
    simp only [g, hcol, Option.getD_some]
  refine ⟨lhs', rhs', ?_, ?_, ?_⟩
  · rw [← hrun]
    unfold split
    simp only [bind_assoc]
    rfl
  · intro j
    unfold rows
    rw [hl j]
    split_ifs with hj
    · obtain ⟨col, hcol⟩ := exists_of_keys hj
      simp only [g, hcol, Option.getD_some, Option.map_some]
    · rw [column_eq_none_of_keys hj]
      rfl
  · intro j
    unfold rows
    rw [hr j]
    split_ifs with hj
    · obtain ⟨col, hcol⟩ := exists_of_keys hj
      simp only [g, hcol, Option.getD_some, Option.map_some]
    · have hno : rhs.column j = none := by
        cases hc : rhs.column j with
        | none => rfl
        | some col =>
          have hhas : rhs.hasColumn j = true := by rw [hasColumn, hc]; rfl
          exact absurd (mem_keys.mpr (hcover j hhas)) hj
      rw [hno, column_eq_none_of_keys hj]
      rfl

theorem merge_ensures (hcover : rhs.CoveredBy lhs) :
    ∃ lhs' rhs', lhs.merge rhs = .ok (lhs', rhs') ∧
      (∀ j, lhs'.rows j = (lhs.rows j).map fun rows => rows ++ (rhs.rows j).getD []) ∧
      ∀ j, rhs'.rows j = (rhs.rows j).map fun _ => [] := by
  let g : ℕ → Column α β × Column α β := fun j =>
    ((lhs.column j).getD ⟨.flag false, []⟩).merge ((rhs.column j).getD ⟨.flag false, []⟩)
  obtain ⟨lhs', rhs', hrun, hl, hr⟩ := foldlM_columns (f := fun j p =>
      p.2.entry j >>= fun rhsVec => match p.1.column j with
        | none => .error .undefined
        | some lhsVec => .ok (lhsVec.merge rhsVec)) rhs.columns.keys_nodup lhs rhs
      (g := g) <| by
    intro j hj p hp hq
    obtain ⟨col, hcol⟩ := exists_of_keys hj
    obtain ⟨lcol, hlcol⟩ := exists_of_keys (mem_keys.mpr (hcover j (mem_keys.mp hj)))
    rw [entry_eq_ok.mpr (hq.trans hcol), ok_bind, hp, hlcol]
    simp only [g, hcol, hlcol, Option.getD_some]
  refine ⟨lhs', rhs', ?_, ?_, ?_⟩
  · rw [← hrun]
    unfold merge
    congr 1
    funext p j
    rw [bind_assoc]
    congr 1
    funext rhsVec
    cases p.1.column j <;> rfl
  · intro j
    unfold rows
    rw [hl j]
    split_ifs with hj
    · obtain ⟨col, hcol⟩ := exists_of_keys hj
      obtain ⟨lcol, hlcol⟩ := exists_of_keys (mem_keys.mpr (hcover j (mem_keys.mp hj)))
      simp only [g, hcol, hlcol, Column.merge, Option.getD_some, Option.map_some]
    · rw [column_eq_none_of_keys hj]
      cases lhs.column j <;> simp
  · intro j
    unfold rows
    rw [hr j]
    split_ifs with hj
    · obtain ⟨col, hcol⟩ := exists_of_keys hj
      simp only [g, hcol, Column.merge, Option.getD_some, Option.map_some]
    · rw [column_eq_none_of_keys hj]
      rfl

theorem covered_of_merge {lhs' rhs' : TupleSet α β} (h : lhs.merge rhs = .ok (lhs', rhs')) : rhs.CoveredBy lhs := by
  have hloop : ∀ keys : List ℕ, ∀ p : TupleSet α β × TupleSet α β, ∀ res,
      keys.foldlM (fun p which => do
        let rhsVec ← p.2.entry which
        match p.1.column which with
        | none => (.error .undefined : Except Stop (TupleSet α β × TupleSet α β))
        | some lhsVec => return (p.1.put which (lhsVec.merge rhsVec).1, p.2.put which (lhsVec.merge rhsVec).2)) p =
          .ok res → ∀ j ∈ keys, p.1.hasColumn j = true := by
    intro keys
    induction keys with
    | nil => exact fun _ _ _ _ => nofun
    | cons k keys ih =>
      intro p res h j hj
      rw [List.foldlM_cons] at h
      obtain ⟨p', hp', h⟩ := bind_eq_ok.mp h
      obtain ⟨rhsVec, -, hp'⟩ := bind_eq_ok.mp hp'
      cases hc : p.1.column k with
      | none =>
        rw [hc] at hp'
        cases hp'
      | some lhsVec =>
        rw [hc] at hp'
        cases hp'
        by_cases hk : j = k
        · rw [hk, hasColumn, hc]
          rfl
        · have := ih _ _ h j ((List.mem_cons.mp hj).resolve_left hk)
          rw [hasColumn, column_put, if_neg hk] at this
          exact this
  intro j hj
  exact hloop _ _ _ h j (mem_keys.mpr hj)

theorem rows_eq_none {t : TupleSet α β} {j : ℕ} : t.rows j = none ↔ t.hasColumn j = false := by
  unfold rows hasColumn
  cases t.column j <;> simp

theorem splitMergeInverse_mergeAppends_iff (lhs rhs : TupleSet α β) :
    SplitMergeInverse lhs rhs ∧ (MergeAppends lhs rhs ↔ rhs.CoveredBy lhs) := by
  constructor
  · intro n index hn hle hcover
    obtain ⟨lhs', rhs', hsplit, hl, hr⟩ := split_ensures hn hle hcover
    have hcover' : rhs'.CoveredBy lhs' := by
      intro j hj
      by_contra hno
      have hnone := rows_eq_none.mpr (Bool.eq_false_of_not_eq_true hno)
      rw [hl j, Option.map_eq_none_iff] at hnone
      have := hr j
      rw [hnone, Option.map_none, rows_eq_none, hj] at this
      cases this
    obtain ⟨lhs'', rhs'', hmerge, hl', hr'⟩ := merge_ensures hcover'
    refine ⟨lhs', rhs', hsplit, hl, hr, lhs'', rhs'', hmerge, ?_, ?_⟩
    · intro j
      rw [hl' j, hl j, hr j]
      cases lhs.rows j with
      | none => rfl
      | some rows => simp
    · intro j
      rw [hr' j, hr j, Option.map_map]
      rfl
  · constructor
    · rintro ⟨lhs', rhs', hmerge, -⟩
      exact covered_of_merge hmerge
    · intro hcover
      obtain ⟨lhs', rhs', hmerge, hl, hr⟩ := merge_ensures hcover
      refine ⟨lhs', rhs', hmerge, ?_, hr⟩
      intro j
      rw [hl j]
      cases hrj : rhs.rows j with
      | none => cases lhs.rows j <;> simp
      | some more =>
        cases hlj : lhs.rows j with
        | none =>
          have hj : rhs.hasColumn j = true := by
            by_contra hno
            rw [rows_eq_none.mpr (Bool.eq_false_of_not_eq_true hno)] at hrj
            cases hrj
          rw [rows_eq_none, hcover j hj] at hlj
          cases hlj
        | some rows => rfl

theorem not_mergeAppends : ¬ ∀ lhs rhs : TupleSet ℕ ℕ, MergeAppends lhs rhs := by
  intro h
  obtain ⟨lhs', rhs', hmerge, -⟩ := h (empty.put 1 ⟨.other 0, [.other 5]⟩)
    ((empty.put 1 ⟨.other 0, [.other 8]⟩).put 0 ⟨.other 0, [.other 7]⟩)
  exact absurd (covered_of_merge hmerge 0 rfl) (by decide)

end Inverse

end TupleSet

end PlinyCompute.TupleSets
