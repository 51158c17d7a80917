import PlinyCompute.Executors

namespace PlinyCompute.Executors

open Transition TupleSets TupleSetSetupMachine

variable {α β γ : Type}

section Lists

theorem getElem?_filterMap_of_isSome {δ : Type} {f : γ → Option δ} {l : List γ} (h : ∀ a ∈ l, (f a).isSome)
    (j : ℕ) : (l.filterMap f)[j]? = l[j]?.bind f := by
  induction l generalizing j with
  | nil => rfl
  | cons a l ih =>
    obtain ⟨b, hb⟩ := Option.isSome_iff_exists.mp (h a List.mem_cons_self)
    rw [List.filterMap_cons_some hb]
    cases j with
    | zero => simp [hb]
    | succ j => simpa using ih (fun a ha => h a (List.mem_cons_of_mem _ ha)) j

theorem length_filterMap_of_isSome {δ : Type} {f : γ → Option δ} {l : List γ} (h : ∀ a ∈ l, (f a).isSome) :
    (l.filterMap f).length = l.length := by
  induction l with
  | nil => rfl
  | cons a l ih =>
    obtain ⟨b, hb⟩ := Option.isSome_iff_exists.mp (h a List.mem_cons_self)
    rw [List.filterMap_cons_some hb, List.length_cons, List.length_cons,
      ih fun a ha => h a (List.mem_cons_of_mem _ ha)]

theorem foldl_set_range (f : ℕ → γ) {n : ℕ} {vec : List γ} (h : vec.length = n) :
    (List.range n).foldl (fun vec i => vec.set i (f i)) vec = (List.range n).map f := by
  have hinv : ∀ k ≤ n,
      (List.range k).foldl (fun vec i => vec.set i (f i)) vec = (List.range k).map f ++ vec.drop k := by
    intro k hk
    induction k with
    | zero => rfl
    | succ k ih =>
      have hlt : k < vec.length := by omega
      have hset : ((List.range k).map f ++ vec.drop k).set k (f k) =
          (List.range k).map f ++ (vec.drop k).set 0 (f k) := by
        rw [List.set_append_right _ _ (by simp)]
        simp
      rw [List.range_succ, List.foldl_append, List.foldl_cons, List.foldl_nil, ih (by omega), hset,
        List.drop_eq_getElem_cons hlt, List.set_cons_zero, List.map_append, List.append_assoc]
      rfl
  rw [hinv n le_rfl, ← h, List.drop_length, List.append_nil]

theorem mapM_map {δ : Type} {g : γ → δ} {cast : Cell α β → Option δ} {f : γ → Option (Cell α β)} {l : List γ}
    (h : ∀ a ∈ l, (f a).bind cast = some (g a)) : (l.filterMap f).mapM cast = some (l.map g) := by
  induction l with
  | nil => rfl
  | cons a l ih =>
    obtain ⟨b, hb, hg⟩ := Option.bind_eq_some_iff.mp (h a List.mem_cons_self)
    rw [List.filterMap_cons_some hb, List.mapM_cons, hg, ih fun a ha => h a (List.mem_cons_of_mem _ ha)]
    rfl

end Lists

section Columns

theorem length_columnOf {rows : List (Row α β)} {width j : ℕ} (h : ∀ row ∈ rows, row.length = width)
    (hj : j < width) : (columnOf rows j).length = rows.length := by
  apply length_filterMap_of_isSome
  intro row hrow
  rw [isSome_getElem?, h row hrow]
  exact hj

theorem columnOf_map (rows : List γ) (f : γ → Row α β) (j : ℕ) :
    columnOf (rows.map f) j = rows.filterMap fun row => (f row)[j]? := by
  rw [columnOf, List.filterMap_map]
  rfl

theorem columnOf_congr {rows : List γ} {f : γ → Row α β} {cell : γ → Option (Cell α β)} {j : ℕ}
    (h : ∀ row ∈ rows, (f row)[j]? = cell row) : columnOf (rows.map f) j = rows.filterMap cell := by
  rw [columnOf_map]
  exact List.filterMap_congr h

theorem holds_put {t : TupleSet α β} {width : ℕ} {pairs : List (Row α β × Cell α β)}
    (hwide : ∀ p ∈ pairs, p.1.length = width)
    (hfront : ∀ j < width, (t.column j).map Column.rows = some (columnOf (pairs.map Prod.fst) j))
    (hrest : ∀ j, width < j → t.column j = none) (last : Column α β) :
    Holds (t.put width last) (width + 1) (pairs.map fun p => p.1 ++ [p.2]) ↔ last.rows = pairs.map Prod.snd := by
  have hcol : columnOf (pairs.map fun p => p.1 ++ [p.2]) width = pairs.map Prod.snd := by
    rw [← List.filterMap_eq_map' (f := Prod.snd)]
    apply columnOf_congr
    intro p hp
    rw [← hwide p hp, List.getElem?_concat_length]
  constructor
  · intro h
    have := h.front width (Nat.lt_succ_self width)
    rw [TupleSet.column_put_self, hcol] at this
    exact Option.some.inj this
  · intro h
    refine ⟨?_, ?_, ?_⟩
    · intro row hrow
      obtain ⟨p, hp, rfl⟩ := List.mem_map.mp hrow
      rw [List.length_append, hwide p hp, List.length_singleton]
    · intro j hj
      by_cases hlt : j < width
      · rw [TupleSet.column_put, if_neg hlt.ne, hfront j hlt, columnOf_map, columnOf_map]
        congr 1
        apply List.filterMap_congr
        intro p hp
        rw [List.getElem?_append_left (by rw [hwide p hp]; exact hlt)]
      · have hj : j = width := by omega
        rw [hj, TupleSet.column_put_self, hcol, ← h]
        rfl
    · intro j hj
      rw [TupleSet.column_put, if_neg (by omega), hrest j hj]

end Columns

section Selections

variable {schema : List String}

theorem Selection.idxOf_lt (s : Selection schema) {att : String} (h : att ∈ s.projected) :
    schema.idxOf att < schema.length := List.idxOf_lt_length_iff.mpr (s.projected_mem att h)

theorem Selection.operated_lt (s : Selection schema) : schema.idxOf s.operated < schema.length :=
  List.idxOf_lt_length_iff.mpr s.operated_mem

theorem idxOf?_of_mem {att : String} (h : att ∈ schema) : schema.idxOf? att = some (schema.idxOf att) := by
  have hlt : schema.idxOf att < schema.length := List.idxOf_lt_length_iff.mpr h
  rw [List.idxOf?_eq_some_iff]
  refine ⟨hlt, List.getElem_idxOf hlt, ?_⟩
  intro j hj
  exact beq_eq_false_iff_ne.mp (List.not_of_lt_findIdx hj)

theorem matchAtts_eq {atts : List String} (h : ∀ att ∈ atts, att ∈ schema) :
    matchAtts schema atts = atts.map schema.idxOf := by
  unfold matchAtts
  rw [← List.filterMap_eq_map']
  apply List.filterMap_congr
  intro att hatt
  exact idxOf?_of_mem (h att hatt)

theorem Selection.whichAtt_eq (s : Selection schema) :
    whichAttOf schema (s.operated :: s.others) = .ok (schema.idxOf s.operated) := by
  unfold whichAttOf matchAtts
  rw [List.filterMap_cons, idxOf?_of_mem s.operated_mem]
  rfl

variable (s : Selection schema)

theorem Selection.isSome_projected {row : Row α β} (hrow : row.length = schema.length) :
    ∀ att ∈ s.projected, (row[schema.idxOf att]?).isSome := by
  intro att hatt
  rw [isSome_getElem?, hrow]
  exact s.idxOf_lt hatt

theorem Selection.length_project {row : Row α β} (hrow : row.length = schema.length) :
    (s.project row).length = s.projected.length := length_filterMap_of_isSome (s.isSome_projected hrow)

theorem Selection.getElem?_project {row : Row α β} (hrow : row.length = schema.length) {j : ℕ} {att : String}
    (hj : s.projected[j]? = some att) : (s.project row)[j]? = row[schema.idxOf att]? := by
  rw [Selection.project, getElem?_filterMap_of_isSome (s.isSome_projected hrow), hj]
  rfl

theorem Selection.columnOf_project {rows : List (Row α β)} (hrows : ∀ row ∈ rows, row.length = schema.length)
    {j : ℕ} {att : String} (hj : s.projected[j]? = some att) :
    columnOf (rows.map s.project) j = columnOf rows (schema.idxOf att) :=
  columnOf_congr fun row hrow => s.getElem?_project (hrows row hrow) hj

theorem Selection.setup_front {input : TupleSet α β} {rows : List (Row α β)}
    (h : Holds input schema.length rows) (output : TupleSet α β) :
    ∃ output', (ofSchema schema s.projected).setup input output = .ok output' ∧
      (∀ j < s.projected.length, (output'.column j).map Column.rows = some (columnOf (rows.map s.project) j)) ∧
      ∀ j, s.projected.length ≤ j → output'.column j = output.column j := by
  have hm : (ofSchema schema s.projected).matched = s.projected.map schema.idxOf := matchAtts_eq s.projected_mem
  have hcol : ∀ att ∈ s.projected, (input.column (schema.idxOf att)).map Column.rows =
      some (columnOf rows (schema.idxOf att)) := fun att hatt => h.front _ (s.idxOf_lt hatt)
  have hhas : ∀ i ∈ (ofSchema schema s.projected).matched, input.hasColumn i := by
    intro i hi
    rw [hm] at hi
    obtain ⟨att, hatt, rfl⟩ := List.mem_map.mp hi
    have := hcol att hatt
    rw [TupleSet.hasColumn]
    cases hc : input.column (schema.idxOf att) with
    | none => rw [hc] at this; cases this
    | some col => rfl
  obtain ⟨output', hrun, hin, hout⟩ := setup_ensures hhas output
  rw [hm, List.length_map] at hout
  refine ⟨output', hrun, ?_, hout⟩
  intro j hj
  have hatt : s.projected[j]? = some s.projected[j] := List.getElem?_eq_getElem hj
  rw [hin j (schema.idxOf s.projected[j]) (by rw [hm, List.getElem?_map, hatt]; rfl),
    hcol _ (List.getElem_mem hj), s.columnOf_project h.wide hatt]

theorem Selection.getColumn_eq {input : TupleSet α β} {rows : List (Row α β)}
    (h : Holds input schema.length rows) {cast : Cell α β → Option γ} {g : Row α β → γ}
    (hg : ∀ row ∈ rows, (s.operatedCell row).bind cast = some (g row)) :
    input.getColumn cast (schema.idxOf s.operated) = .ok (rows.map g) := by
  obtain ⟨col, hcol, hrows⟩ := Option.map_eq_some_iff.mp (h.front _ s.operated_lt)
  have hm : col.rows.mapM cast = some (rows.map g) := by
    rw [hrows]
    exact mapM_map hg
  rw [TupleSet.getColumn, TupleSet.entry_eq_ok.mpr hcol, ok_bind, hm]

end Selections

end PlinyCompute.Executors
