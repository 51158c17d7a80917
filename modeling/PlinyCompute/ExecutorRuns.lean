import PlinyCompute.ExecutorRows

namespace PlinyCompute.Executors

open Transition TupleSets TupleSetSetupMachine
open PdbString (toInt)
open List (length_map map_map foldlM_cons map_cons map_flatMap replicate)

variable {α β : Type} {schema : List String}

theorem resize_eq_ok {col col' : Column α β} {numRows : ℤ} :
    col.resize numRows = .ok col' ↔ 0 ≤ numRows ∧ col' = { col with
      rows := col.rows.take numRows.toNat ++ replicate (numRows.toNat - col.rows.length) col.blank } := by
  unfold Column.resize
  by_cases h : numRows < 0
  · rw [if_pos h]
    exact ⟨nofun, fun hc => absurd h (not_lt.mpr hc.1)⟩
  · rw [if_neg h]
    constructor
    · rintro ⟨⟩
      exact ⟨not_lt.mp h, rfl⟩
    · rintro ⟨-, rfl⟩
      rfl

theorem length_of_resize {col col' : Column α β} {numRows : ℤ} (h : col.resize numRows = .ok col') :
    col'.rows.length = numRows.toNat := by
  obtain ⟨-, rfl⟩ := resize_eq_ok.mp h
  simp only [List.length_append, List.length_take, List.length_replicate]
  omega

theorem outColumn_eq (output : TupleSet α β) (outAtt : ℕ) (fresh : Column α β) :
    ∃ output' col, (if output.hasColumn outAtt then output else output.addColumn outAtt fresh) = output' ∧
      output'.column outAtt = some col ∧ col = (output.column outAtt).getD fresh ∧
      ∀ j, j ≠ outAtt → output'.column j = output.column j := by
  cases hc : output.column outAtt with
  | none =>
    have hno : output.hasColumn outAtt = false := by rw [TupleSet.hasColumn, hc]; rfl
    refine ⟨output.put outAtt fresh, fresh, ?_, TupleSet.column_put_self _ _ _, rfl, ?_⟩
    · rw [hno]
      rfl
    · intro j hj
      rw [TupleSet.column_put, if_neg hj]
  | some col =>
    have hyes : output.hasColumn outAtt = true := by rw [TupleSet.hasColumn, hc]; rfl
    exact ⟨output, col, if_pos hyes, hc, rfl, fun _ _ => rfl⟩

section HashOne

variable {s : Selection schema}

structure HashOneExecutor.Ready (s : Selection schema) (e : HashOneExecutor α β) : Prop where
  whichAtt : e.whichAtt = schema.idxOf s.operated
  outAtt : e.outAtt = s.projected.length
  machine : e.myMachine = ofSchema schema s.projected
  rest : ∀ j, s.projected.length < j → e.output.column j = none
  empty : e.whichAtt = e.outAtt → ∀ col, e.output.column e.outAtt = some col → col.rows = []

def HashOneExecutor.foundRows (s : Selection schema) (rows : List (Row α β)) : ℤ :=
  if schema.idxOf s.operated < s.projected.length then toInt rows.length
  else if schema.idxOf s.operated = s.projected.length then 0 else -1

theorem HashOneExecutor.foundRows_eq {rows : List (Row α β)} :
    foundRows s rows = rows.length ↔
      schema.idxOf s.operated < s.projected.length ∧ rows.length < 2 ^ 31 ∨
        schema.idxOf s.operated = s.projected.length ∧ rows = [] := by
  unfold foundRows
  by_cases hlt : schema.idxOf s.operated < s.projected.length
  · rw [if_pos hlt]
    constructor
    · exact fun h => Or.inl ⟨hlt, lt_of_toInt_eq h⟩
    · rintro (⟨-, h⟩ | ⟨h, -⟩)
      · exact toInt_of_lt h
      · omega
  · rw [if_neg hlt, ← List.length_eq_zero_iff]
    by_cases he : schema.idxOf s.operated = s.projected.length
    · rw [if_pos he]
      constructor
      · exact fun h => Or.inr ⟨he, by omega⟩
      · rintro (⟨h, -⟩ | ⟨-, h⟩) <;> omega
    · rw [if_neg he]
      constructor
      · intro h
        omega
      · rintro (⟨h, -⟩ | ⟨h, -⟩) <;> omega

theorem HashOneExecutor.getNumRows_eq {rows : List (Row α β)} {t : TupleSet α β} {col : Column α β}
    (hrows : ∀ row ∈ rows, row.length = schema.length)
    (hfront : ∀ j < s.projected.length, (t.column j).map Column.rows = some (columnOf (rows.map s.project) j))
    (hcol : t.column s.projected.length = some col)
    (hempty : schema.idxOf s.operated = s.projected.length → col.rows = [])
    (hrest : ∀ j, s.projected.length < j → t.column j = none) :
    t.getNumRows (schema.idxOf s.operated) = foundRows s rows := by
  unfold foundRows TupleSet.getNumRows
  split_ifs with hlt he
  · obtain ⟨c, hc, hcr⟩ := Option.map_eq_some_iff.mp (hfront _ hlt)
    have hlen : c.rows.length = rows.length := by
      rw [hcr, length_columnOf _ hlt, length_map]
      intro row hrow
      obtain ⟨r, hr, rfl⟩ := List.mem_map.mp hrow
      exact s.length_project (hrows r hr)
    rw [hc]
    dsimp only
    rw [hlen]
  · rw [he, hcol]
    dsimp only
    rw [hempty he]
    exact toInt_of_lt (Nat.two_pow_pos 31)
  · rw [hrest _ (by omega)]

theorem HashOneExecutor.process_eq {e : HashOneExecutor α β} (he : e.Ready s) {input : TupleSet α β}
    {rows : List (Row α β)} (h : Holds input schema.length rows) :
    ∃ (output : TupleSet α β) (col : Column α β), output.column s.projected.length = some col ∧
      (∀ j < s.projected.length, (output.column j).map Column.rows = some (columnOf (rows.map s.project) j)) ∧
      (∀ j, s.projected.length < j → output.column j = none) ∧
      e.process input = col.resize (foundRows s rows) >>= fun outColumn =>
        let output := output.put s.projected.length { outColumn with
          rows := (List.range (foundRows s rows).toNat).foldl (fun rows i => rows.set i (.hash 1)) outColumn.rows }
        .ok ({ e with output := output }, output) := by
  obtain ⟨out₁, hrun, hfront, hkeep⟩ := s.setup_front h e.output
  obtain ⟨out₂, col, hout₂, hcol, hcol₀, hsame⟩ := outColumn_eq out₁ s.projected.length ⟨.hash 0, []⟩
  have hfront₂ : ∀ j < s.projected.length,
      (out₂.column j).map Column.rows = some (columnOf (rows.map s.project) j) := by
    intro j hj
    rw [hsame j hj.ne, hfront j hj]
  have hrest₂ : ∀ j, s.projected.length < j → out₂.column j = none := by
    intro j hj
    rw [hsame j hj.ne', hkeep j hj.le, he.rest j hj]
  have hempty : schema.idxOf s.operated = s.projected.length → col.rows = [] := by
    intro heq
    rw [hcol₀, hkeep _ le_rfl]
    cases hc : e.output.column s.projected.length with
    | none => rfl
    | some c => exact he.empty (by rw [he.whichAtt, he.outAtt, heq]) c (he.outAtt ▸ hc)
  refine ⟨out₂, col, hcol, hfront₂, hrest₂, ?_⟩
  unfold process
  rw [he.machine, hrun, ok_bind]
  dsimp only
  rw [he.outAtt, hout₂, TupleSet.entry_eq_ok.mpr hcol, ok_bind, he.whichAtt,
    getNumRows_eq h.wide hfront₂ hcol hempty hrest₂]
  rfl

theorem HashOneExecutor.process_ready {e : HashOneExecutor α β} (he : e.Ready s) {input : TupleSet α β}
    {rows : List (Row α β)} (h : Holds input schema.length rows) (hfound : 0 ≤ foundRows s rows) :
    ∃ e' output, e.process input = .ok (e', output) ∧ e'.Ready s := by
  obtain ⟨out, col, hcol, hfront, hrest, hproc⟩ := process_eq he h
  obtain ⟨outColumn, hres⟩ : ∃ outColumn, col.resize (foundRows s rows) = .ok outColumn :=
    ⟨_, resize_eq_ok.mpr ⟨hfound, rfl⟩⟩
  rw [hres, ok_bind] at hproc
  refine ⟨_, _, hproc, he.whichAtt, he.outAtt, he.machine, ?_, ?_⟩
  · intro j hj
    dsimp only
    rw [TupleSet.column_put, if_neg hj.ne', hrest j hj]
  · intro heq c hc
    have hidx : schema.idxOf s.operated = s.projected.length := by rw [← he.whichAtt, ← he.outAtt]; exact heq
    have hzero : (foundRows s rows).toNat = 0 := by
      unfold foundRows
      rw [if_neg hidx.not_lt, if_pos hidx]
      rfl
    dsimp only at hc
    rw [he.outAtt, TupleSet.column_put_self] at hc
    cases hc
    have := length_of_resize hres
    rw [hzero] at this
    simp [hzero, List.length_eq_zero_iff.mp this]

theorem HashOneExecutor.holds_iff {e e' : HashOneExecutor α β} (he : e.Ready s) {input output : TupleSet α β}
    {rows : List (Row α β)} (h : Holds input schema.length rows) (hproc : e.process input = .ok (e', output)) :
    Holds output (Kind.hashOne.width s) (Kind.hashOne.outputRows s rows) ↔ foundRows s rows = rows.length := by
  obtain ⟨out, col, hcol, hfront, hrest, heq⟩ := process_eq he h
  rw [hproc] at heq
  obtain ⟨outColumn, hres, hout⟩ := bind_eq_ok.mp heq.symm
  obtain ⟨hfound, -⟩ := resize_eq_ok.mp hres
  rw [foldl_set_range _ (length_of_resize hres)] at hout
  cases hout
  have hwide : ∀ p ∈ rows.map fun row => (s.project row, (Cell.hash 1 : Cell α β)), p.1.length = s.projected.length := by
    intro p hp
    obtain ⟨row, hrow, rfl⟩ := List.mem_map.mp hp
    exact s.length_project (h.wide row hrow)
  have hput := holds_put (t := out) hwide ?_ hrest { outColumn with
    rows := (List.range (foundRows s rows).toNat).map fun _ => .hash 1 }
  · rw [map_map, map_map] at hput
    refine hput.trans ?_
    rw [List.map_const', List.length_range]
    constructor
    · intro hrows
      have := congrArg List.length hrows
      rw [List.length_replicate, length_map] at this
      omega
    · intro hrows
      rw [hrows, Int.toNat_natCast]
      exact List.map_const'.symm
  · rw [map_map]
    exact hfront

end HashOne

section Filter

variable {s : Selection schema}

structure FilterExecutor.Ready (s : Selection schema) (e : FilterExecutor α β) : Prop where
  whichAtt : e.whichAtt = schema.idxOf s.operated
  machine : e.myMachine = ofSchema schema s.projected
  rest : ∀ j, s.projected.length ≤ j → e.output.column j = none

theorem foldlM_filterColumn {flags : List Bool} (hlt : flags.length < 2 ^ 31) {t : TupleSet α β} {n : ℕ}
    (h : ∀ j < n, ∃ col, t.column j = some col ∧ col.rows.length = flags.length) :
    ∃ t', (List.range n).foldlM (fun t i => t.filterColumn i flags) t = .ok t' ∧
      (∀ j < n, (t'.column j).map Column.rows = (t.column j).map fun col => Column.kept col.rows flags) ∧
      ∀ j, n ≤ j → t'.column j = t.column j := by
  induction n with
  | zero => exact ⟨t, rfl, nofun, fun _ _ => rfl⟩
  | succ n ih =>
    obtain ⟨t', hrun, hin, hout⟩ := ih fun j hj => h j (Nat.lt_succ_of_lt hj)
    obtain ⟨col, hcol, hlen⟩ := h n (Nat.lt_succ_self n)
    refine ⟨t'.put n { col with rows := Column.kept col.rows flags }, ?_, ?_, ?_⟩
    · rw [List.range_succ, List.foldlM_append, hrun, ok_bind, foldlM_cons, TupleSet.filterColumn,
        hout n le_rfl, hcol]
      dsimp only
      rw [Column.filter_eq_ok hlen hlt]
      rfl
    · intro j hj
      rw [TupleSet.column_put]
      split_ifs with he
      · rw [he, hcol]
        rfl
      · exact hin j (by omega)
    · intro j hj
      rw [TupleSet.column_put, if_neg (by omega), hout j (by omega)]

theorem kept_columnOf {rows : List (Row α β)} {width j : ℕ} (h : ∀ row ∈ rows, row.length = width) (hj : j < width)
    (flagged : Row α β → Bool) :
    Column.kept (columnOf rows j) (rows.map flagged) = columnOf (rows.filter flagged) j := by
  induction rows with
  | nil => rfl
  | cons row rows ih =>
    obtain ⟨cell, hrow⟩ : ∃ cell, row[j]? = some cell :=
      ⟨_, List.getElem?_eq_getElem (by rw [h row List.mem_cons_self]; exact hj)⟩
    have ih := ih fun row hr => h row (List.mem_cons_of_mem _ hr)
    unfold columnOf Column.kept at ih ⊢
    rw [List.filterMap_cons, hrow, map_cons]
    dsimp only
    rw [List.zip_cons_cons, List.filter_cons, List.filter_cons]
    dsimp only
    cases hf : flagged row with
    | false =>
      rw [if_neg Bool.false_ne_true, if_neg Bool.false_ne_true]
      exact ih
    | true =>
      rw [if_pos rfl, if_pos rfl, map_cons, List.filterMap_cons, hrow, ih]

theorem Selection.kept_project (s : Selection schema) {rows : List (Row α β)}
    (h : ∀ row ∈ rows, row.length = schema.length) {j : ℕ} (hj : j < s.projected.length) :
    Column.kept (columnOf (rows.map s.project) j) (rows.map s.flagged) =
      columnOf ((rows.filter s.flagged).map s.project) j := by
  have hatt : s.projected[j]? = some s.projected[j] := List.getElem?_eq_getElem hj
  rw [s.columnOf_project h hatt, s.columnOf_project (fun row hr => h row (List.mem_of_mem_filter hr)) hatt,
    kept_columnOf h (s.idxOf_lt (List.getElem_mem hj))]

theorem Selection.length_columnOf_project (s : Selection schema) {rows : List (Row α β)}
    (h : ∀ row ∈ rows, row.length = schema.length) {j : ℕ} (hj : j < s.projected.length) :
    (columnOf (rows.map s.project) j).length = rows.length := by
  rw [length_columnOf _ hj, length_map]
  intro row hrow
  obtain ⟨r, hr, rfl⟩ := List.mem_map.mp hrow
  exact s.length_project (h r hr)

theorem FilterExecutor.process_eq {e : FilterExecutor α β} (he : e.Ready s) {input : TupleSet α β}
    {rows : List (Row α β)} (h : Holds input schema.length rows) (hop : ∀ row ∈ rows, Kind.filter.Operates s row) :
    ∃ output : TupleSet α β,
      (∀ j < s.projected.length, ∃ col, output.column j = some col ∧ col.rows = columnOf (rows.map s.project) j) ∧
      (∀ j, s.projected.length ≤ j → output.column j = none) ∧
      e.process input = (List.range s.projected.length).foldlM
        (fun output i => output.filterColumn i (rows.map s.flagged)) output >>= fun output =>
          .ok ({ e with output := output }, output) := by
  obtain ⟨out, hrun, hfront, hkeep⟩ := s.setup_front h e.output
  have hfront : ∀ j < s.projected.length, ∃ col, out.column j = some col ∧
      col.rows = columnOf (rows.map s.project) j := fun j hj => Option.map_eq_some_iff.mp (hfront j hj)
  have hrest : ∀ j, s.projected.length ≤ j → out.column j = none := by
    intro j hj
    rw [hkeep j hj, he.rest j hj]
  have hflag : ∀ row ∈ rows, (s.operatedCell row).bind flag? = some (s.flagged row) := by
    intro row hrow
    obtain ⟨b, hb⟩ := hop row hrow
    unfold Selection.flagged
    rw [hb]
    rfl
  have hnum : out.getNumColumns = s.projected.length := by
    apply TupleSet.getNumColumns_eq
    intro j
    unfold TupleSet.hasColumn
    constructor
    · intro hj
      by_contra hge
      rw [hrest j (not_lt.mp hge)] at hj
      cases hj
    · intro hj
      obtain ⟨col, hcol, -⟩ := hfront j hj
      rw [hcol]
      rfl
  refine ⟨out, hfront, hrest, ?_⟩
  unfold process
  rw [he.machine, hrun, ok_bind, he.whichAtt, s.getColumn_eq h hflag, ok_bind, hnum]
  rfl

theorem FilterExecutor.process_holds {e : FilterExecutor α β} (he : e.Ready s) {input : TupleSet α β}
    {rows : List (Row α β)} (h : Holds input schema.length rows) (hop : ∀ row ∈ rows, Kind.filter.Operates s row)
    (hlt : s.projected = [] ∨ rows.length < 2 ^ 31) :
    ∃ e' output, e.process input = .ok (e', output) ∧
      Holds output (Kind.filter.width s) (Kind.filter.outputRows s rows) ∧ e'.Ready s := by
  obtain ⟨out, hfront, hrest, hproc⟩ := process_eq he h hop
  obtain ⟨out', hloop, hin, hout⟩ : ∃ out', (List.range s.projected.length).foldlM
      (fun output i => output.filterColumn i (rows.map s.flagged)) out = .ok out' ∧
      (∀ j < s.projected.length, (out'.column j).map Column.rows =
        (out.column j).map fun col => Column.kept col.rows (rows.map s.flagged)) ∧
      ∀ j, s.projected.length ≤ j → out'.column j = out.column j := by
    obtain hnil | hlt := hlt
    · rw [hnil]
      exact ⟨out, rfl, nofun, fun _ _ => rfl⟩
    · apply foldlM_filterColumn (by rw [length_map]; exact hlt)
      intro j hj
      obtain ⟨col, hcol, hrows⟩ := hfront j hj
      exact ⟨col, hcol, by rw [hrows, s.length_columnOf_project h.wide hj, length_map]⟩
  rw [hloop, ok_bind] at hproc
  have hrest' : ∀ j, s.projected.length ≤ j → out'.column j = none := fun j hj => (hout j hj).trans (hrest j hj)
  refine ⟨_, _, hproc, ⟨?_, ?_, hrest'⟩, he.whichAtt, he.machine, hrest'⟩
  · intro row hrow
    obtain ⟨r, hr, rfl⟩ := List.mem_map.mp hrow
    exact s.length_project (h.wide r (List.mem_of_mem_filter hr))
  · intro j hj
    obtain ⟨col, hcol, hrows⟩ := hfront j hj
    rw [hin j hj, hcol, Option.map_some, hrows, s.kept_project h.wide hj]
    rfl

theorem FilterExecutor.lt_of_process {e e' : FilterExecutor α β} (he : e.Ready s) {input output : TupleSet α β}
    {rows : List (Row α β)} (h : Holds input schema.length rows) (hop : ∀ row ∈ rows, Kind.filter.Operates s row)
    (hproc : e.process input = .ok (e', output)) : s.projected = [] ∨ rows.length < 2 ^ 31 := by
  obtain ⟨out, hfront, -, heq⟩ := process_eq he h hop
  rw [hproc] at heq
  obtain ⟨out', hloop, -⟩ := bind_eq_ok.mp heq.symm
  cases hl : s.projected.length with
  | zero => exact Or.inl (List.length_eq_zero_iff.mp hl)
  | succ n =>
    right
    have hpos : 0 < s.projected.length := by omega
    obtain ⟨col, hcol, hrows⟩ := hfront 0 hpos
    rw [hl, List.range_succ_eq_map, foldlM_cons, TupleSet.filterColumn, hcol] at hloop
    obtain ⟨t, ht, -⟩ := bind_eq_ok.mp hloop
    obtain ⟨res, hres, -⟩ := bind_eq_ok.mp ht
    have := Column.length_lt_of_filter hres
    rwa [hrows, s.length_columnOf_project h.wide hpos] at this

end Filter

section Flatten

variable {s : Selection schema}

structure FlattenExecutor.Ready (s : Selection schema) (e : FlattenExecutor α β) : Prop where
  whichAtt : e.whichAtt = schema.idxOf s.operated
  outAtt : e.outAtt = s.projected.length
  machine : e.myMachine = ofSchema schema s.projected
  rest : ∀ j, s.projected.length < j → e.output.column j = none

theorem FlattenExecutor.recount_eq (counts : List ℕ) (vecs : List (List α)) :
    recount counts vecs = vecs.map fun v => v.length % 2 ^ 32 := by
  unfold recount
  rw [foldl_set_range]
  · apply List.ext_getElem
    · rw [length_map, List.length_range, length_map]
    · intro i hi hi'
      have hlt : i < vecs.length := by rwa [length_map] at hi'
      rw [List.getElem_map, List.getElem_map, List.getElem_range, List.getD_eq_getElem?_getD,
        List.getElem?_eq_getElem hlt, Option.getD_some]
  · split_ifs with h
    · exact h
    · rw [List.length_append, List.length_take, List.length_replicate]
      omega

theorem FlattenExecutor.countFlattened_eq {vecs : List (List α)} (h : (vecs.map List.length).sum < 2 ^ 31) :
    countFlattened vecs = .ok ((vecs.map List.length).sum : ℕ) := by
  have hacc : ∀ acc : ℕ, acc + (vecs.map List.length).sum < 2 ^ 31 →
      vecs.foldlM (fun n v => addInt n (toInt v.length)) (acc : ℤ) =
        .ok ((acc + (vecs.map List.length).sum : ℕ) : ℤ) := by
    clear h
    intro acc h
    induction vecs generalizing acc with
    | nil => rfl
    | cons v vecs ih =>
      rw [map_cons, List.sum_cons] at h
      have hadd : addInt acc (toInt v.length) = .ok ((acc + v.length : ℕ) : ℤ) := by
        unfold addInt
        rw [toInt_of_lt (by omega), if_pos (by omega), Int.natCast_add]
      rw [foldlM_cons, hadd, ok_bind, ih _ (by omega), map_cons, List.sum_cons, Nat.add_assoc]
  have := hacc 0 (by omega)
  rwa [Nat.zero_add] at this

theorem FlattenExecutor.lt_of_countFlattened {vecs : List (List α)} {numFlattenedRows : ℤ}
    (h : countFlattened vecs = .ok numFlattenedRows) : numFlattenedRows < 2 ^ 31 := by
  have hacc : ∀ acc : ℤ, acc < 2 ^ 31 →
      vecs.foldlM (fun n v => addInt n (toInt v.length)) acc = .ok numFlattenedRows → numFlattenedRows < 2 ^ 31 := by
    clear h
    intro acc hlt h
    induction vecs generalizing acc with
    | nil =>
      cases h
      exact hlt
    | cons v vecs ih =>
      rw [foldlM_cons] at h
      obtain ⟨acc', hadd, h⟩ := bind_eq_ok.mp h
      unfold addInt at hadd
      split_ifs at hadd with hr
      cases hadd
      exact ih _ hr.2 h
  exact hacc 0 (by omega) h

theorem FlattenExecutor.copyElements_eq (vecs : List (List α)) (counter : ℕ) (rows : List (Cell α β)) :
    copyElements vecs counter rows = writeAll (vecs.flatten.map .object) counter rows := by
  induction vecs generalizing counter rows with
  | nil => rfl
  | cons v vecs ih =>
    rw [copyElements, List.flatten_cons, List.map_append, writeAll_append, length_map]
    simp only [ih]

def Selection.flattened (s : Selection schema) (rows : List (Row α β)) : List (Row α β × Cell α β) :=
  rows.flatMap fun row => (s.elements row).map fun x => (s.project row, .object x)

theorem Selection.flattened_rows (s : Selection schema) (rows : List (Row α β)) :
    (s.flattened rows).map (fun p => p.1 ++ [p.2]) = Kind.flatten.outputRows s rows := by
  unfold flattened Kind.outputRows
  rw [map_flatMap]
  simp only [map_map]
  rfl

theorem Selection.flattened_snd (s : Selection schema) (rows : List (Row α β)) :
    (s.flattened rows).map Prod.snd = (rows.map s.elements).flatten.map .object := by
  unfold flattened
  rw [map_flatMap, List.map_flatten, map_map, List.flatMap_def]
  congr 1
  apply List.map_congr_left
  intro row _
  rw [map_map]
  rfl

theorem columnOf_replicate {rows : List (Row α β)} {width j : ℕ} (h : ∀ row ∈ rows, row.length = width)
    (hj : j < width) (elements : Row α β → List α) :
    columnOf (rows.flatMap fun row => (elements row).map fun _ => row) j =
      (List.zipWith List.replicate (rows.map fun row => (elements row).length) (columnOf rows j)).flatten := by
  induction rows with
  | nil => rfl
  | cons row rows ih =>
    obtain ⟨cell, hrow⟩ : ∃ cell, row[j]? = some cell :=
      ⟨_, List.getElem?_eq_getElem (by rw [h row List.mem_cons_self]; exact hj)⟩
    have ih := ih fun row hr => h row (List.mem_cons_of_mem _ hr)
    unfold columnOf at ih ⊢
    have hrep : (replicate (elements row).length row).filterMap (fun row => row[j]?) =
        replicate (elements row).length cell := List.filterMap_replicate_of_some hrow
    rw [List.flatMap_cons, List.filterMap_append, ih, map_cons, List.filterMap_cons, hrow]
    dsimp only
    rw [List.zipWith_cons_cons, List.flatten_cons, List.map_const', hrep]

theorem Selection.flattened_fst (s : Selection schema) {rows : List (Row α β)}
    (h : ∀ row ∈ rows, row.length = schema.length) {j : ℕ} {att : String} (hatt : s.projected[j]? = some att) :
    columnOf ((s.flattened rows).map Prod.fst) j = (List.zipWith List.replicate
      (rows.map fun row => (s.elements row).length) (columnOf rows (schema.idxOf att))).flatten := by
  have hfst : (s.flattened rows).map Prod.fst =
      (rows.flatMap fun row => (s.elements row).map fun _ => row).map s.project := by
    unfold flattened
    rw [map_flatMap, map_flatMap]
    simp only [map_map]
    rfl
  have hmem : ∀ row ∈ rows.flatMap fun row => (s.elements row).map fun _ => row, row.length = schema.length := by
    intro row hrow
    obtain ⟨r, hr, hrow⟩ := List.mem_flatMap.mp hrow
    obtain ⟨x, -, rfl⟩ := List.mem_map.mp hrow
    exact h r hr
  rw [hfst, s.columnOf_project hmem hatt,
    columnOf_replicate h (s.idxOf_lt (List.mem_of_getElem? hatt)) s.elements]

theorem FlattenExecutor.getColumn_eq {input : TupleSet α β} {rows : List (Row α β)}
    (h : Holds input schema.length rows) (hop : ∀ row ∈ rows, Kind.flatten.Operates s row) :
    input.getColumn vector? (schema.idxOf s.operated) = .ok (rows.map s.elements) := by
  apply s.getColumn_eq h
  intro row hrow
  obtain ⟨elements, he⟩ := hop row hrow
  unfold Selection.elements
  rw [he]
  rfl

theorem Selection.replicate_front (s : Selection schema) {input : TupleSet α β} {rows : List (Row α β)}
    (h : Holds input schema.length rows) (hlt : rows.length < 2 ^ 31)
    (hsum : (rows.map fun row => (s.elements row).length).sum < 2 ^ 31) (output : TupleSet α β) :
    ∃ output', (ofSchema schema s.projected).replicate input output
        (rows.map fun row => (s.elements row).length) 0 = .ok output' ∧
      (∀ j < s.projected.length,
        (output'.column j).map Column.rows = some (columnOf ((s.flattened rows).map Prod.fst) j)) ∧
      ∀ j, s.projected.length ≤ j → output'.column j = output.column j := by
  have hm : (ofSchema schema s.projected).matched = s.projected.map schema.idxOf := matchAtts_eq s.projected_mem
  have hcol : ∀ i ∈ (ofSchema schema s.projected).matched, ∃ col, input.column i = some col ∧
      col.rows.length = (rows.map fun row => (s.elements row).length).length := by
    intro i hi
    rw [hm] at hi
    obtain ⟨att, hatt, rfl⟩ := List.mem_map.mp hi
    obtain ⟨col, hcol, hrows⟩ := Option.map_eq_some_iff.mp (h.front _ (s.idxOf_lt hatt))
    exact ⟨col, hcol, by rw [hrows, length_columnOf h.wide (s.idxOf_lt hatt), length_map]⟩
  obtain ⟨output', hrun, hin, hout⟩ := replicate_ensures hcol (by rw [length_map]; exact hlt) hsum output
  rw [hm, length_map] at hout
  refine ⟨output', hrun, ?_, hout⟩
  intro j hj
  have hatt : s.projected[j]? = some s.projected[j] := List.getElem?_eq_getElem hj
  obtain ⟨col, hcol, hnew⟩ := hin j (schema.idxOf s.projected[j]) (by rw [hm, List.getElem?_map, hatt]; rfl)
  have hrows := h.front _ (s.idxOf_lt (List.getElem_mem hj))
  rw [hcol] at hrows
  rw [hnew, s.flattened_fst h.wide hatt, ← Option.some.inj hrows]
  rfl

variable [Inhabited α]

theorem FlattenExecutor.process_holds {e : FlattenExecutor α β} (he : e.Ready s) {input : TupleSet α β}
    {rows : List (Row α β)} (h : Holds input schema.length rows) (hop : ∀ row ∈ rows, Kind.flatten.Operates s row)
    (hlt : rows.length < 2 ^ 31) (hsum : (rows.map fun row => (s.elements row).length).sum < 2 ^ 31) :
    ∃ e' output, e.process input = .ok (e', output) ∧
      Holds output (Kind.flatten.width s) (Kind.flatten.outputRows s rows) ∧ e'.Ready s := by
  have hlens : (rows.map s.elements).map List.length = rows.map fun row => (s.elements row).length := by
    rw [map_map]
    rfl
  have hcounts : recount e.counts (rows.map s.elements) = rows.map fun row => (s.elements row).length := by
    rw [recount_eq, map_map]
    apply List.map_congr_left
    intro row hrow
    have := List.le_sum_of_mem (List.mem_map_of_mem (f := fun row => (s.elements row).length) hrow)
    exact Nat.mod_eq_of_lt (by omega)
  have htotal : countFlattened (rows.map s.elements) =
      .ok ((rows.map fun row => (s.elements row).length).sum : ℕ) := by
    rw [countFlattened_eq (by rw [hlens]; exact hsum), hlens]
  have hcopied : ((rows.map s.elements).flatten.map (Cell.object : α → Cell α β)).length =
      (rows.map fun row => (s.elements row).length).sum := by
    rw [length_map, List.length_flatten, hlens]
  obtain ⟨out₁, hrun, hfront, hkeep⟩ := s.replicate_front h hlt hsum e.output
  obtain ⟨out₂, col, hout₂, hcol, -, hsame⟩ := outColumn_eq out₁ s.projected.length ⟨.object default, []⟩
  have hrest : ∀ j, s.projected.length < j → out₂.column j = none := by
    intro j hj
    rw [hsame j hj.ne', hkeep j hj.le, he.rest j hj]
  obtain ⟨outColumn, hres⟩ : ∃ outColumn,
      col.resize ((rows.map fun row => (s.elements row).length).sum : ℕ) = .ok outColumn :=
    ⟨_, resize_eq_ok.mpr ⟨Int.natCast_nonneg _, rfl⟩⟩
  have hfill := writeAll_fill ((length_of_resize hres).trans hcopied.symm)
  have hproc : e.process input = .ok ({ e with
      output := out₂.put s.projected.length { outColumn with rows := (rows.map s.elements).flatten.map .object }
      counts := rows.map fun row => (s.elements row).length },
      out₂.put s.projected.length { outColumn with rows := (rows.map s.elements).flatten.map .object }) := by
    unfold process
    rw [he.whichAtt, getColumn_eq h hop, ok_bind, countInt_eq_ok.mpr (by rw [length_map]; exact hlt), ok_bind,
      hcounts, htotal, ok_bind, he.machine, hrun, ok_bind]
    dsimp only
    rw [he.outAtt, hout₂, TupleSet.entry_eq_ok.mpr hcol, ok_bind, hres, ok_bind, copyElements_eq, hfill, ok_bind]
    rfl
  have hwide : ∀ p ∈ s.flattened rows, p.1.length = s.projected.length := by
    intro p hp
    obtain ⟨row, hrow, hp⟩ := List.mem_flatMap.mp hp
    obtain ⟨x, -, rfl⟩ := List.mem_map.mp hp
    exact s.length_project (h.wide row hrow)
  have hfront₂ : ∀ j < s.projected.length,
      (out₂.column j).map Column.rows = some (columnOf ((s.flattened rows).map Prod.fst) j) := by
    intro j hj
    rw [hsame j hj.ne, hfront j hj]
  refine ⟨_, _, hproc, ?_, he.whichAtt, he.outAtt, he.machine, ?_⟩
  · rw [← s.flattened_rows]
    exact (holds_put hwide hfront₂ hrest _).mpr (s.flattened_snd rows).symm
  · intro j hj
    dsimp only
    rw [TupleSet.column_put, if_neg hj.ne', hrest j hj]

theorem FlattenExecutor.lt_of_process {e e' : FlattenExecutor α β} (he : e.Ready s) {input output : TupleSet α β}
    {rows : List (Row α β)} (h : Holds input schema.length rows) (hop : ∀ row ∈ rows, Kind.flatten.Operates s row)
    (hproc : e.process input = .ok (e', output)) :
    rows.length < 2 ^ 31 ∧ (rows.map fun row => (s.elements row).length).sum < 2 ^ 31 := by
  unfold process at hproc
  rw [he.whichAtt, getColumn_eq h hop, ok_bind] at hproc
  obtain ⟨_, hlt, hproc⟩ := bind_eq_ok.mp hproc
  obtain ⟨total, htotal, hproc⟩ := bind_eq_ok.mp hproc
  obtain ⟨out, -, hproc⟩ := bind_eq_ok.mp hproc
  obtain ⟨col, -, hproc⟩ := bind_eq_ok.mp hproc
  obtain ⟨outColumn, hres, hproc⟩ := bind_eq_ok.mp hproc
  obtain ⟨filled, hcopy, -⟩ := bind_eq_ok.mp hproc
  have hlens : ((rows.map s.elements).flatten.map (Cell.object : α → Cell α β)).length =
      (rows.map fun row => (s.elements row).length).sum := by
    rw [length_map, List.length_flatten, map_map]
    rfl
  rw [copyElements_eq] at hcopy
  have hle := length_le_of_writeAll hcopy
  rw [hlens, length_of_resize hres] at hle
  have htotal := lt_of_countFlattened htotal
  refine ⟨?_, by omega⟩
  have := countInt_eq_ok.mp hlt
  rwa [length_map] at this

end Flatten

section Runs

variable {s : Selection schema} {kind : Kind}

def Executor.Ready (s : Selection schema) (kind : Kind) : Executor α β → Prop
  | .hashOne e => kind = .hashOne ∧ e.Ready s
  | .filter e => kind = .filter ∧ e.Ready s
  | .flatten e => kind = .flatten ∧ e.Ready s

theorem Executor.create_ready (s : Selection schema) (kind : Kind) :
    ∃ e : Executor α β, Executor.create kind schema (s.operated :: s.others) s.projected = .ok e ∧
      e.Ready s kind := by
  cases kind with
  | hashOne =>
    refine ⟨.hashOne ⟨.empty, schema.idxOf s.operated, s.projected.length, ofSchema schema s.projected⟩, ?_,
      rfl, rfl, rfl, rfl, fun _ _ => rfl, fun _ => nofun⟩
    unfold create HashOneExecutor.create
    rw [s.whichAtt_eq]
    rfl
  | filter =>
    refine ⟨.filter ⟨.empty, schema.idxOf s.operated, ofSchema schema s.projected⟩, ?_,
      rfl, rfl, rfl, fun _ _ => rfl⟩
    unfold create FilterExecutor.create
    rw [s.whichAtt_eq]
    rfl
  | flatten =>
    refine ⟨.flatten ⟨.empty, schema.idxOf s.operated, s.projected.length, ofSchema schema s.projected, []⟩, ?_,
      rfl, rfl, rfl, rfl, fun _ _ => rfl⟩
    unfold create FlattenExecutor.create
    rw [s.whichAtt_eq]
    rfl

variable [Inhabited α]

theorem Executor.process_holds {e : Executor α β} (he : e.Ready s kind) (input : Input kind s α β)
    (hin : input.Within) : ∃ e' output, e.process input.tuples = .ok (e', output) ∧
      Holds output (kind.width s) (kind.outputRows s input.rows) ∧ e'.Ready s kind := by
  cases e with
  | hashOne e =>
    obtain ⟨rfl, he⟩ := he
    have hfound := HashOneExecutor.foundRows_eq.mpr hin
    obtain ⟨e', output, hproc, he'⟩ := HashOneExecutor.process_ready he input.holds (by omega)
    refine ⟨.hashOne e', output, ?_, (HashOneExecutor.holds_iff he input.holds hproc).mpr hfound, rfl, he'⟩
    rw [process, hproc]
    rfl
  | filter e =>
    obtain ⟨rfl, he⟩ := he
    obtain ⟨e', output, hproc, hout, he'⟩ := FilterExecutor.process_holds he input.holds input.operates hin
    refine ⟨.filter e', output, ?_, hout, rfl, he'⟩
    rw [process, hproc]
    rfl
  | flatten e =>
    obtain ⟨rfl, he⟩ := he
    obtain ⟨e', output, hproc, hout, he'⟩ := FlattenExecutor.process_holds he input.holds input.operates hin.1 hin.2
    refine ⟨.flatten e', output, ?_, hout, rfl, he'⟩
    rw [process, hproc]
    rfl

theorem Executor.within_of_process {e e' : Executor α β} (he : e.Ready s kind) (input : Input kind s α β)
    {output : TupleSet α β} (hproc : e.process input.tuples = .ok (e', output))
    (hout : Holds output (kind.width s) (kind.outputRows s input.rows)) : input.Within := by
  cases e with
  | hashOne e =>
    obtain ⟨rfl, he⟩ := he
    obtain ⟨⟨e₁, output₁⟩, hproc, heq⟩ := bind_eq_ok.mp hproc
    cases heq
    exact HashOneExecutor.foundRows_eq.mp ((HashOneExecutor.holds_iff he input.holds hproc).mp hout)
  | filter e =>
    obtain ⟨rfl, he⟩ := he
    obtain ⟨⟨e₁, output₁⟩, hproc, heq⟩ := bind_eq_ok.mp hproc
    exact FilterExecutor.lt_of_process he input.holds input.operates hproc
  | flatten e =>
    obtain ⟨rfl, he⟩ := he
    obtain ⟨⟨e₁, output₁⟩, hproc, heq⟩ := bind_eq_ok.mp hproc
    exact FlattenExecutor.lt_of_process he input.holds input.operates hproc

theorem meets_within_iff {e : Executor α β} (he : e.Ready s kind) (inputs : List (Input kind s α β)) :
    Meets (fun (input : Input kind s α β) (e : Executor α β) => e.process input.tuples)
      (fun input output => Holds output (kind.width s) (kind.outputRows s input.rows)) inputs e ↔
        ∀ input ∈ inputs, input.Within :=
  meets_iff (fun input e (he : Executor.Ready s kind e) hin => Executor.process_holds he input hin)
    (fun input _ _ _ he hproc hout => Executor.within_of_process he input hproc hout) inputs he

theorem implements_iff (s : Selection schema) (inputs : List (Input kind s α β)) :
    Implements kind s inputs ↔ ∀ input ∈ inputs, input.Within := by
  obtain ⟨e, hcreate, he⟩ := Executor.create_ready (α := α) (β := β) s kind
  rw [← meets_within_iff he inputs]
  constructor
  · rintro ⟨e', hcreate', h⟩
    rw [hcreate] at hcreate'
    cases hcreate'
    exact h
  · exact fun h => ⟨e, hcreate, h⟩

def operateOnSecond : Selection ["a", "b"] :=
  ⟨"b", [], ["a"], by decide, by decide⟩

def oneRow : Input .hashOne operateOnSecond ℕ ℕ where
  tuples := (TupleSet.empty.put 0 ⟨.other 0, [.other 7]⟩).put 1 ⟨.other 0, [.other 8]⟩
  rows := [[.other 7, .other 8]]
  holds := by
    refine ⟨by decide, ?_, ?_⟩
    · intro j hj
      have hj : j = 0 ∨ j = 1 := by simp only [List.length_cons, List.length_nil] at hj; omega
      obtain rfl | rfl := hj
      · rfl
      · rfl
    · intro j hj
      simp only [List.length_cons, List.length_nil] at hj
      rw [TupleSet.column_put, if_neg (by omega), TupleSet.column_put, if_neg (by omega), TupleSet.column_empty]
  operates := fun _ _ => trivial

theorem not_implements : ¬ ∀ (kind : Kind) (schema : List String) (s : Selection schema)
    (inputs : List (Input kind s ℕ ℕ)), Implements kind s inputs := by
  intro h
  obtain ⟨e, hcreate, h⟩ := h .hashOne ["a", "b"] operateOnSecond [oneRow]
  obtain ⟨e', hcreate', he⟩ := Executor.create_ready (α := ℕ) (β := ℕ) operateOnSecond .hashOne
  rw [hcreate'] at hcreate
  cases hcreate
  have hin : oneRow.Within := (meets_within_iff he [oneRow]).mp h oneRow List.mem_cons_self
  obtain ⟨hlt, -⟩ | ⟨-, hnil⟩ := hin
  · exact absurd hlt (by decide)
  · cases hnil

end Runs

end PlinyCompute.Executors
