import PlinyCompute.ShuffleJoinExact

namespace PlinyCompute.ShuffleJoin

open KWayMerge PdbJoinMap SizePolicy Transition

variable {n : ℕ} {F : Type}

section Model

/-- A column that has a handle at the position has it overwritten. -/
def copyTo (whichPos : ℕ) (me : List F) (myData : F) : List F :=
  if me.length ≤ whichPos then me ++ [myData] else me.set whichPos myData

def unpack (arg : Fin n → F) (whichPosInTupleSet : ℕ) (us : Fin n → List F) : Fin n → List F :=
  fun j => copyTo whichPosInTupleSet (us j) (arg j)

def resize {α : Type} [Inhabited α] (i : ℕ) (me : List α) : List α :=
  me.take i ++ List.replicate (i - me.length) default

def eraseEnd [Inhabited F] (i : ℕ) (us : Fin n → List F) : Fin n → List F := fun j => resize i (us j)

structure RHSColumns (n : ℕ) (F : Type) where
  columns : Fin n → List F
  hashColumn : List ℕ
  counts : List (ℕ × ℕ)

structure RHSColumnSource (n : ℕ) (F : Type) where
  source : RHSShuffleJoinSource (Fin n → F)
  output : RHSColumns n F

structure Filling (n : ℕ) (F : Type) extends RHSColumns n F where
  count : ℕ

def Filling.unpackRecord (hash : ℕ) (t : Filling n F) (record : Fin n → F) : Filling n F where
  columns := unpack record t.count t.columns
  hashColumn := t.hashColumn ++ [hash]
  counts := t.counts
  count := t.count + 1

def Filling.add (t : Filling n F) (currentRecords : Group (Fin n → F)) : Filling n F :=
  let t := currentRecords.2.foldl (Filling.unpackRecord currentRecords.1) t
  { t with counts := addCount t.counts currentRecords.1 currentRecords.2.length }

namespace RHSColumnSource

def ofPages (maps : List (JoinMap (Fin n → F))) (chunkSize : ℕ) : RHSColumnSource n F :=
  ⟨.ofPages maps chunkSize, ⟨fun _ => [], [], []⟩⟩

def isFilled (q : Queue (Fin n → F)) (chunkSize hash count : ℕ) (pageIterators : List (JoinMapIterator (Fin n → F))) :
    Except Stop Bool :=
  if pageIterators = [] ∨ count ≤ chunkSize then .ok false else (topHash q pageIterators).map (· ≠ hash)

def fill (q : Queue (Fin n → F)) (chunkSize : ℕ) : ℕ → Filling n F → List (JoinMapIterator (Fin n → F)) →
    Except Stop (Filling n F × List (JoinMapIterator (Fin n → F)))
  | 0, t, pageIterators => .ok (t, pageIterators)
  | rounds + 1, t, pageIterators =>
    if pageIterators = [] then .ok (t, pageIterators)
    else do
      let (group, pageIterators) ← advance q pageIterators
      let t := t.add group
      if ← isFilled q chunkSize group.1 t.count pageIterators then .ok (t, pageIterators)
      else fill q chunkSize rounds t pageIterators

def getNextTupleSet [Inhabited F] (q : Queue (Fin n → F)) (s : RHSColumnSource n F) :
    Except Stop (RHSColumnSource n F × Option (RHSColumns n F)) :=
  if s.source.pageIterators = [] then .ok (s, none)
  else do
    let (t, pageIterators) ← fill q s.source.chunkSize s.source.pageIterators.flatten.length
      ⟨⟨s.output.columns, [], []⟩, 0⟩ s.source.pageIterators
    let output := ⟨eraseEnd t.count t.columns, resize t.count t.hashColumn, t.counts⟩
    .ok (⟨{ s.source with pageIterators }, output⟩, some output)

def tupleSets [Inhabited F] (q : Queue (Fin n → F)) : ℕ → RHSColumnSource n F → Except Stop (List (RHSColumns n F))
  | 0, _ => .error .unfinished
  | requests + 1, s => do
    match ← s.getNextTupleSet q with
    | (_, none) => .ok []
    | (s, some t) =>
      let rest ← tupleSets q requests s
      .ok (t :: rest)

end RHSColumnSource

end Model

section Columns

theorem take_copyTo {me : List F} {p : ℕ} (hp : p ≤ me.length) (v : F) :
    (copyTo p me v).take (p + 1) = me.take p ++ [v] := by
  unfold copyTo
  split_ifs with hle
  · have he : p = me.length := by omega
    subst he
    simp
  · have hlt : p < me.length := by omega
    rw [List.take_add_one, List.take_set_of_le le_rfl, List.getElem?_set_self hlt]
    rfl

theorem resize_of_take {α : Type} [Inhabited α] {me rows : List α} {p : ℕ} (h : me.take p = rows)
    (hp : rows.length = p) : resize p me = rows := by
  have hlen := congrArg List.length h
  rw [List.length_take] at hlen
  have hzero : p - me.length = 0 := by omega
  rw [resize, h, hzero, List.replicate_zero, List.append_nil]

structure Filling.Holds (t : Filling n F) (u : RHSTupleSet (Fin n → F)) : Prop where
  count : t.count = u.output.length
  columns : ∀ j, (t.columns j).take t.count = u.output.map fun r => r j
  hashColumn : t.hashColumn = u.hashColumn
  counts : t.counts = u.counts

variable {t : Filling n F} {u u' : RHSTupleSet (Fin n → F)}

theorem Filling.Holds.count_le (h : t.Holds u) (j : Fin n) : t.count ≤ (t.columns j).length := by
  have hlen := congrArg List.length (h.columns j)
  rw [List.length_take, List.length_map, ← h.count] at hlen
  omega

theorem Filling.Holds.unpackRecord (h : t.Holds u) (hash : ℕ) (record : Fin n → F) :
    (t.unpackRecord hash record).Holds ⟨u.output ++ [record], u.hashColumn ++ [hash], u.counts⟩ where
  count := by
    rw [List.length_append, ← h.count]
    rfl
  columns j := by
    change (copyTo t.count (t.columns j) (record j)).take (t.count + 1) = _
    rw [take_copyTo (h.count_le j), h.columns, List.map_append]
    rfl
  hashColumn := congrArg (· ++ [hash]) h.hashColumn
  counts := h.counts

theorem Filling.Holds.unpackRecords (h : t.Holds u) (hash : ℕ) (records : List (Fin n → F)) :
    (records.foldl (Filling.unpackRecord hash) t).Holds
      ⟨u.output ++ records, u.hashColumn ++ records.map fun _ => hash, u.counts⟩ := by
  induction records generalizing t u with
  | nil => simpa using h
  | cons record records ih => simpa using ih (h.unpackRecord hash record)

theorem Filling.Holds.add (h : t.Holds u) (g : Group (Fin n → F)) : (t.add g).Holds (u.add g) := by
  have hrecords := h.unpackRecords g.1 g.2
  refine ⟨hrecords.count, hrecords.columns, hrecords.hashColumn, ?_⟩
  exact congrArg (fun counts => addCount counts g.1 g.2.length) hrecords.counts

theorem Filling.Holds.fill (q : Queue (Fin n → F)) {chunkSize rounds : ℕ}
    {pageIterators next : List (JoinMapIterator (Fin n → F))} (h : t.Holds u)
    (he : RHSShuffleJoinSource.fill q chunkSize rounds u pageIterators = .ok (u', next)) :
    ∃ t', RHSColumnSource.fill q chunkSize rounds t pageIterators = .ok (t', next) ∧ t'.Holds u' := by
  induction rounds generalizing t u pageIterators with
  | zero =>
    cases he
    exact ⟨t, rfl, h⟩
  | succ rounds ih =>
    rw [RHSShuffleJoinSource.fill] at he
    rw [RHSColumnSource.fill]
    split_ifs at he ⊢
    · cases he
      exact ⟨t, rfl, h⟩
    · obtain ⟨⟨g, its⟩, hadv, he⟩ := bind_eq_ok.mp he
      obtain ⟨full, hfull, he⟩ := bind_eq_ok.mp he
      have hadd := h.add g
      have hfilled : RHSColumnSource.isFilled q chunkSize g.1 (t.add g).count its = .ok full := by
        rw [hadd.count]
        exact hfull
      rw [hadv, ok_bind]
      dsimp only
      rw [hfilled, ok_bind]
      split_ifs at he ⊢
      · cases he
        exact ⟨_, rfl, hadd⟩
      · exact ih hadd he

end Columns

section Rows

def RHSColumns.rows [Inhabited F] (t : RHSColumns n F) : List (ℕ × (Fin n → F)) :=
  (List.range t.hashColumn.length).map fun i => (t.hashColumn.getD i 0, fun j => (t.columns j).getD i default)

structure RHSColumns.Grouped (t : RHSColumns n F) : Prop where
  aligned : ∀ j, (t.columns j).length = t.hashColumn.length
  ordered : t.hashColumn.Pairwise (· ≤ ·)
  distinct : (t.counts.map Prod.fst).Pairwise (· < ·)
  listed : ∀ hash, hash ∈ t.counts.map Prod.fst ↔ hash ∈ t.hashColumn
  counted : ∀ p ∈ t.counts, p.2 = t.hashColumn.count p.1
  sum : (t.counts.map Prod.snd).sum = t.hashColumn.length

def rowHashes {V : Type} (block : List (Group V)) : List ℕ := block.flatMap fun g => g.2.map fun _ => g.1

variable {V : Type} {block : List (Group V)}

theorem rowHashes_cons (g : Group V) (block : List (Group V)) :
    rowHashes (g :: block) = List.replicate g.2.length g.1 ++ rowHashes block := by
  rw [rowHashes, List.flatMap_cons, List.map_const']
  rfl

theorem exists_of_mem_rowHashes {hash : ℕ} (h : hash ∈ rowHashes block) : ∃ g ∈ block, g.1 = hash := by
  obtain ⟨g, hg, hm⟩ := List.mem_flatMap.mp h
  obtain ⟨-, -, rfl⟩ := List.mem_map.mp hm
  exact ⟨g, hg, rfl⟩

theorem rowHashes_ordered (h : block.Pairwise fun g g' => g.1 < g'.1) : (rowHashes block).Pairwise (· ≤ ·) := by
  induction block with
  | nil => exact List.Pairwise.nil
  | cons g block ih =>
    obtain ⟨hlt, h⟩ := List.pairwise_cons.mp h
    rw [rowHashes_cons]
    apply List.pairwise_append.mpr
    refine ⟨List.pairwise_replicate.mpr (.inr le_rfl), ih h, ?_⟩
    intro a ha b hb
    obtain ⟨g', hg', rfl⟩ := exists_of_mem_rowHashes hb
    rw [List.eq_of_mem_replicate ha]
    exact (hlt g' hg').le

theorem count_rowHashes (h : block.Pairwise fun g g' => g.1 < g'.1) {g : Group V} (hg : g ∈ block) :
    (rowHashes block).count g.1 = g.2.length := by
  induction block with
  | nil => cases hg
  | cons g' block ih =>
    obtain ⟨hlt, h⟩ := List.pairwise_cons.mp h
    rw [rowHashes_cons, List.count_append, List.count_replicate]
    obtain rfl | hg := List.mem_cons.mp hg
    · have hno : g.1 ∉ rowHashes block := by
        intro hm
        obtain ⟨g', hg', he⟩ := exists_of_mem_rowHashes hm
        have := hlt g' hg'
        omega
      rw [List.count_eq_zero.mpr hno]
      simp
    · have hne := (hlt g hg).ne
      rw [ih h hg]
      simp [hne]

theorem length_rowHashes (block : List (Group V)) :
    (rowHashes block).length = (block.map fun g => g.2.length).sum := by
  induction block with
  | nil => rfl
  | cons g block ih => rw [rowHashes_cons, List.length_append, List.length_replicate, ih, List.map_cons, List.sum_cons]

theorem zip_rowHashes (block : List (Group V)) :
    (↑((rowHashes block).zip (block.flatMap Prod.snd)) : Multiset (ℕ × V)) = expand block := by
  induction block with
  | nil => rfl
  | cons g block ih =>
    rw [rowHashes_cons, List.flatMap_cons, List.zip_append (by simp), ← Multiset.coe_add, ih, expand_cons g block]
    congr 1
    unfold expand
    rw [List.flatMap_singleton]
    congr 1
    induction g.2 with
    | nil => rfl
    | cons v vs ih => simpa [List.replicate_succ] using ih

variable {u : RHSTupleSet (Fin n → F)} {groups : List (Group (Fin n → F))}

def columnsOf (u : RHSTupleSet (Fin n → F)) : RHSColumns n F :=
  ⟨fun j => u.output.map fun r => r j, u.hashColumn, u.counts⟩

theorem rows_columnsOf [Inhabited F] (h : Describes u groups) :
    (↑(columnsOf u).rows : Multiset (ℕ × (Fin n → F))) = expand groups := by
  rw [← zip_rowHashes]
  have hhash : u.hashColumn = rowHashes groups := h.hashColumn
  have hlen : (rowHashes groups).length = u.output.length := by
    rw [length_rowHashes, h.output, List.length_flatMap]
  rw [← h.output, ← hhash]
  congr 1
  apply List.ext_getElem
  · simp [RHSColumns.rows, columnsOf, hhash, hlen]
  · intro i hi hi'
    rw [List.length_zip] at hi'
    have hout : i < u.output.length := by omega
    have hcol : i < u.hashColumn.length := by omega
    simp [RHSColumns.rows, columnsOf, hout, hcol]

theorem grouped_columnsOf (h : Describes u groups) : (columnsOf u).Grouped := by
  have hhash : (columnsOf u).hashColumn = rowHashes groups := h.hashColumn
  have hcounts : (columnsOf u).counts = groups.map fun g => (g.1, g.2.length) := h.counts
  refine ⟨fun j => ?_, ?_, ?_, fun hash => ?_, ?_, ?_⟩
  · rw [hhash, length_rowHashes]
    simp [columnsOf, h.output, List.length_flatMap]
  · rw [hhash]
    exact rowHashes_ordered h.ascending
  · rw [hcounts, List.map_map, List.pairwise_map]
    exact h.ascending
  · rw [hhash, hcounts, List.map_map]
    constructor
    · intro hm
      obtain ⟨g, hg, rfl⟩ := List.mem_map.mp hm
      apply List.count_pos_iff.mp
      change 0 < (rowHashes groups).count g.1
      rw [count_rowHashes h.ascending hg]
      exact List.length_pos_iff.mpr (h.live g hg)
    · intro hm
      obtain ⟨g, hg, rfl⟩ := exists_of_mem_rowHashes hm
      exact List.mem_map.mpr ⟨g, hg, rfl⟩
  · intro p hp
    rw [hcounts] at hp
    obtain ⟨g, hg, rfl⟩ := List.mem_map.mp hp
    rw [hhash]
    exact (count_rowHashes h.ascending hg).symm
  · rw [hhash, length_rowHashes, hcounts, List.map_map]
    rfl

end Rows

section Merging

variable [Inhabited F]

theorem RHSColumnSource.getNextTupleSet_spec (q : Queue (Fin n → F)) {s : RHSColumnSource n F}
    (h : Sorted s.source.pageIterators) (hlive : ∀ g ∈ s.source.pageIterators.flatten, g.2 ≠ [])
    (hne : s.source.pageIterators ≠ []) :
    ∃ u block next, s.getNextTupleSet q =
        .ok (⟨{ s.source with pageIterators := next }, columnsOf u⟩, some (columnsOf u)) ∧
      Describes u block ∧ Filled s.source.pageIterators.flatten block next := by
  obtain ⟨u, block, next, hget, hu, hfilled⟩ := rhs_getNextTupleSet q h hlive hne
  refine ⟨u, block, next, ?_, hu, hfilled⟩
  rw [RHSShuffleJoinSource.getNextTupleSet, if_neg hne] at hget
  obtain ⟨⟨u', next'⟩, hfill, hget⟩ := bind_eq_ok.mp hget
  cases hget
  have hstart : (⟨⟨s.output.columns, [], []⟩, 0⟩ : Filling n F).Holds .empty := ⟨rfl, fun _ => rfl, rfl, rfl⟩
  obtain ⟨t, ht, hholds⟩ := hstart.fill q hfill
  have hcolumns : eraseEnd t.count t.columns = fun j => u.output.map fun r => r j := by
    funext j
    exact resize_of_take (hholds.columns j) (by rw [List.length_map, hholds.count])
  have hhash : resize t.count t.hashColumn = u.hashColumn := by
    have hlen : u.hashColumn.length = t.count := by
      have hrows := length_rowHashes block
      rw [hholds.count, hu.output, List.length_flatMap, ← hrows]
      exact congrArg List.length hu.hashColumn
    rw [hholds.hashColumn]
    exact resize_of_take (List.take_of_length_le hlen.le) hlen
  rw [getNextTupleSet, if_neg hne, ht, ok_bind]
  dsimp only
  rw [hcolumns, hhash, hholds.counts]
  rfl

structure MergesCompletely (maps : List (JoinMap (Fin n → F))) (ts : List (RHSColumns n F)) : Prop where
  records : (ts.flatMap RHSColumns.rows).Perm (maps.flatMap JoinMap.records)
  grouped : ∀ t ∈ ts, t.Grouped
  ascending : ts.Pairwise fun t t' => ∀ hash ∈ t.hashColumn, ∀ hash' ∈ t'.hashColumn, hash < hash'

structure RHSColumnSource.Returns (q : Queue (Fin n → F)) (s : RHSColumnSource n F) (ts : List (RHSColumns n F)) :
    Prop where
  calls : ∀ requests, s.source.pageIterators.flatten.length < requests → s.tupleSets q requests = .ok ts
  records : (↑(ts.flatMap RHSColumns.rows) : Multiset (ℕ × (Fin n → F))) = expand s.source.pageIterators.flatten
  grouped : ∀ t ∈ ts, t.Grouped
  hashes : ∀ t ∈ ts, ∀ hash ∈ t.hashColumn, ∃ g ∈ s.source.pageIterators.flatten, g.1 = hash
  ascending : ts.Pairwise fun t t' => ∀ hash ∈ t.hashColumn, ∀ hash' ∈ t'.hashColumn, hash < hash'

theorem RHSColumnSource.returns_nil (q : Queue (Fin n → F)) {s : RHSColumnSource n F}
    (hempty : s.source.pageIterators = []) : s.Returns q [] := by
  refine ⟨fun requests hr => ?_, ?_, by simp, by simp, List.Pairwise.nil⟩
  · obtain ⟨m, rfl⟩ : ∃ m, requests = m + 1 := ⟨requests - 1, by omega⟩
    rw [tupleSets, getNextTupleSet, if_pos hempty]
    rfl
  · rw [hempty]
    rfl

theorem RHSColumnSource.Returns.cons {q : Queue (Fin n → F)} {s : RHSColumnSource n F} {u : RHSTupleSet (Fin n → F)}
    {block : List (Group (Fin n → F))} {next : List (JoinMapIterator (Fin n → F))} {ts : List (RHSColumns n F)}
    (hget : s.getNextTupleSet q = .ok (⟨{ s.source with pageIterators := next }, columnsOf u⟩, some (columnsOf u)))
    (hu : Describes u block) (hf : Filled s.source.pageIterators.flatten block next)
    (h : Returns q ⟨{ s.source with pageIterators := next }, columnsOf u⟩ ts) : s.Returns q (columnsOf u :: ts) := by
  have hblock : ∀ hash ∈ (columnsOf u).hashColumn, ∃ g ∈ block, g.1 = hash := by
    intro hash hm
    have he : (columnsOf u).hashColumn = rowHashes block := hu.hashColumn
    rw [he] at hm
    exact exists_of_mem_rowHashes hm
  refine ⟨?_, ?_, ?_, ?_, ?_⟩
  · intro requests hr
    have hshort := hf.shorter
    obtain ⟨m, rfl⟩ : ∃ m, requests = m + 1 := ⟨requests - 1, by omega⟩
    rw [tupleSets, hget, ok_bind]
    dsimp only
    rw [h.calls m (by dsimp only; omega), ok_bind]
  · rw [List.flatMap_cons, ← Multiset.coe_add, h.records, rows_columnsOf hu, hf.records]
  · intro t ht
    obtain rfl | ht := List.mem_cons.mp ht
    · exact grouped_columnsOf hu
    · exact h.grouped t ht
  · intro t ht hash hm
    obtain rfl | ht := List.mem_cons.mp ht
    · obtain ⟨g, hg, rfl⟩ := hblock hash hm
      obtain ⟨v, hv⟩ := List.exists_mem_of_ne_nil _ (hu.live g hg)
      have hin : (g.1, v) ∈ expand s.source.pageIterators.flatten := by
        rw [hf.records]
        exact Multiset.mem_add.mpr (.inl (mem_expand.mpr ⟨g, hg, rfl, hv⟩))
      obtain ⟨g', hg', he, -⟩ := mem_expand.mp hin
      exact ⟨g', hg', he⟩
    · obtain ⟨g, hg, he⟩ := h.hashes t ht hash hm
      exact ⟨g, hf.subset hg, he⟩
  · apply List.pairwise_cons.mpr
    refine ⟨?_, h.ascending⟩
    intro t ht hash hm hash' hm'
    obtain ⟨b, hb, rfl⟩ := hblock hash hm
    obtain ⟨g, hg, rfl⟩ := h.hashes t ht hash' hm'
    exact hf.apart b hb g hg

theorem RHSColumnSource.exists_returns (q : Queue (Fin n → F)) {bound : ℕ} {s : RHSColumnSource n F}
    (h : Sorted s.source.pageIterators) (hlive : ∀ g ∈ s.source.pageIterators.flatten, g.2 ≠ [])
    (hb : s.source.pageIterators.flatten.length ≤ bound) : ∃ ts, s.Returns q ts := by
  induction bound generalizing s with
  | zero =>
    refine ⟨[], returns_nil q ?_⟩
    by_contra hne
    exact flatten_ne_nil h hne (List.eq_nil_of_length_eq_zero (Nat.le_zero.mp hb))
  | succ bound ih =>
    by_cases hempty : s.source.pageIterators = []
    · exact ⟨[], returns_nil q hempty⟩
    · obtain ⟨u, block, next, hget, hu, hf⟩ := getNextTupleSet_spec q h hlive hempty
      have hshort := hf.shorter
      obtain ⟨ts, hts⟩ := ih (s := ⟨{ s.source with pageIterators := next }, columnsOf u⟩) hf.sorted
        (fun g hg => hlive g (hf.subset hg)) (by dsimp only; omega)
      exact ⟨columnsOf u :: ts, hts.cons hget hu hf⟩

theorem rhs_mergesCompletely (q : Queue (Fin n → F)) (maps : List (JoinMap (Fin n → F))) (chunkSize : ℕ) :
    ∃ ts, (∃ m, ∀ requests, m ≤ requests → (RHSColumnSource.ofPages maps chunkSize).tupleSets q requests = .ok ts) ∧
      MergesCompletely maps ts := by
  obtain ⟨hsorted, hlive⟩ := rhs_sorted maps chunkSize
  obtain ⟨ts, hts⟩ := RHSColumnSource.exists_returns (s := .ofPages maps chunkSize) q hsorted hlive le_rfl
  refine ⟨ts, ⟨_, fun requests hr => hts.calls requests (Nat.lt_of_succ_le hr)⟩, ?_, hts.grouped, hts.ascending⟩
  apply Multiset.coe_eq_coe.mp
  rw [hts.records]
  exact rhs_expand maps chunkSize

end Merging

end PlinyCompute.ShuffleJoin
