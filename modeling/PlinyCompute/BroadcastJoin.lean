import PlinyCompute.JoinMultimap
import PlinyCompute.ShuffleJoinExact
import PlinyCompute.Sinks

namespace PlinyCompute.BroadcastJoin

open PdbMap (Thrown)
open PdbJoinMap Sinks.JoinSink Transition
open ShuffleJoin (expand pairs replicate)
open Function (update update_of_ne update_self)
open List (finRange mem_cons_self mem_cons_of_mem append_nil map_cons flatMap_cons map_append)

variable {α V R : Type}

abbrev Tables (n : ℕ) (V : Type) := Fin n → JoinMap V

structure Building (n : ℕ) (α : Type) where
  taken : List (ℕ × List α)
  pending : Option (TupleSet α)
  finished : List (Tables n (List α))
  current : Option (Tables n (List α))

inductive Op (α : Type)
  | chunk (input : TupleSet α)
  | write (rooms : ℕ → JoinRoom)
  | newPage

def buildRows [Inhabited α] (atts : List ℕ) (input : TupleSet α) : List (ℕ × List α) :=
  input.keyColumn.mapIdx fun i key => (key, packRow atts input.column i)

def Op.Allowed {n : ℕ} : Op α → Building n α → Prop
  | .chunk input, _ => JM_UNUSED ∉ input.keyColumn
  | .write _, _ => True
  | .newPage, _ => True

namespace Building

variable {n : ℕ}

def start : Building n α := ⟨[], none, [], none⟩

def pages (s : Building n α) : List (Tables n (List α)) := s.finished ++ s.current.toList

def step [Inhabited α] [NeZero n] (atts : List ℕ) : Op α → Building n α → Except Unit (Building n α)
  | .chunk input, s =>
    if s.pending.isNone then .ok { s with taken := s.taken ++ buildRows atts input, pending := some input }
    else .error ()
  | .write rooms, s =>
    match s.pending with
    | none => .error ()
    | some input =>
      match writeOut atts rooms input (s.current.getD (createNewOutputContainer n)) with
      | (maps, _, .ok ()) => .ok { s with pending := none, current := some maps }
      | (maps, input, .error .notEnoughSpace) =>
        .ok { s with pending := some input, finished := s.finished ++ [maps], current := none }
      | (_, _, .error .exit) => .error ()
  | .newPage, s => .ok { s with finished := s.pages, current := none }

end Building

variable {numNodes numThreads : ℕ}

section Combiner

def joinMapIndex (offset : Fin numNodes) (workerID : Fin numThreads) : Fin (numNodes * numThreads) :=
  ⟨offset * numThreads + workerID, by
    calc offset * numThreads + workerID < offset * numThreads + numThreads := by omega
      _ = (offset + 1) * numThreads := by rw [Nat.add_mul, Nat.one_mul]
      _ ≤ numNodes * numThreads := Nat.mul_le_mul_right _ offset.isLt⟩

structure Root (V : Type) where
  hashValue : ℕ
  table : JoinMap V

def BroadcastJoinCombinerSink.createNewOutputContainer (workerID : Fin numThreads) : Root V := ⟨workerID, JoinMap.empty⟩

def mergeMe (workerID : Fin numThreads) (joinMapVector : Tables (numNodes * numThreads) V) : List (ℕ × V) :=
  (finRange numNodes).flatMap fun offset =>
    (joinMapVector (joinMapIndex offset workerID)).iteration.flatMap fun g => g.2.map fun v => (g.1, v)

variable [Inhabited V]

def combine (fits : ℕ → Bool) : ℕ → List (ℕ × V) → JoinMap V → Except Thrown (JoinMap V)
  | _, [], myMap => .ok myMap
  | i, r :: records, myMap => if fits i then myMap.insert r >>= combine fits (i + 1) records else .error .notEnoughSpace

def writeOutPage (workerID : Fin numThreads) (fits : ℕ → Bool) (page : Tables (numNodes * numThreads) V)
    (mergeToMe : Root V) : Except Thrown (Root V) := do
  let table ← combine fits 0 (mergeMe workerID page) mergeToMe.table
  .ok { mergeToMe with table := table }

/-- `JoinBroadcastPipeline::run`. Without a page there is no container, and the page it leaves has no root object. -/
def run (workerID : Fin numThreads) (fits : ℕ → ℕ → Bool) :
    ℕ → List (Tables (numNodes * numThreads) V) → Option (Root V) → Except Thrown (Option (Root V))
  | _, [], outputSink => .ok outputSink
  | i, page :: pages, outputSink => do
    let outputSink ← writeOutPage workerID (fits i) page (outputSink.getD (BroadcastJoinCombinerSink.createNewOutputContainer workerID))
    run workerID fits (i + 1) pages (some outputSink)

end Combiner

section Probe

inductive Stop
  | thrown (e : Thrown)
  -- a root object that was never written, an index behind the end, or a null handle
  | undefined

def loadTables : List (Option (Root V)) → (Fin numThreads → Option (JoinMap V)) →
    Except Stop (Fin numThreads → Option (JoinMap V))
  | [], inputTables => .ok inputTables
  | none :: _, _ => .error .undefined
  | some inputTable :: pages, inputTables =>
    if h : inputTable.hashValue < numThreads then
      loadTables pages (update inputTables ⟨inputTable.hashValue, h⟩ (some inputTable.table))
    else .error .undefined

theorem numThreads_pos (numNodes numThreads : ℕ) [h : NeZero (numNodes * numThreads)] : 0 < numThreads := by
  have hne := h.out
  rw [Nat.mul_ne_zero_iff] at hne
  exact Nat.pos_of_ne_zero hne.2

def whichTable (numNodes numThreads : ℕ) [NeZero (numNodes * numThreads)] (hash : ℕ) : Fin numThreads :=
  ⟨(hash % (numNodes * numThreads)) % numThreads, Nat.mod_lt _ (numThreads_pos numNodes numThreads)⟩

def unpack (column : List V) (which : ℕ) (v : V) : List V :=
  if column.length ≤ which then column ++ [v] else column.set which v

def unpackAll : List V → List V → ℕ → List V × ℕ
  | [], column, overallCounter => (column, overallCounter)
  | v :: a, column, overallCounter => unpackAll a (unpack column overallCounter v) (overallCounter + 1)

def probeHashes (numNodes : ℕ) [NeZero (numNodes * numThreads)] (inputTables : Fin numThreads → Option (JoinMap V)) :
    List ℕ → List V → ℕ → Except Stop (List V × ℕ × List ℕ)
  | [], column, overallCounter => .ok (column, overallCounter, [])
  | hash :: inputHash, column, overallCounter =>
    match inputTables (whichTable numNodes numThreads hash) with
    | none => .error .undefined
    | some inputTableRef =>
      match inputTableRef.lookup hash with
      | .error e => .error (.thrown e)
      | .ok a => do
        let (column, counter) := unpackAll a column overallCounter
        let (column, counter, counts) ← probeHashes numNodes inputTables inputHash column counter
        .ok (column, counter, a.length :: counts)

def process (numNodes : ℕ) [NeZero (numNodes * numThreads)] (inputTables : Fin numThreads → Option (JoinMap V))
    (input : List (ℕ × R)) (column : List V) : Except Stop (List V × List (V × R)) := do
  let (column, overallCounter, counts) ← probeHashes numNodes inputTables (input.map Prod.fst) column 0
  let column := column.take overallCounter
  .ok (column, column.zip (replicate (input.map Prod.snd) counts))

def processAll (numNodes : ℕ) [NeZero (numNodes * numThreads)] (inputTables : Fin numThreads → Option (JoinMap V)) :
    List (List (ℕ × R)) → List V → Except Stop (List (V × R))
  | [], _ => .ok []
  | chunk :: chunks, column => do
    let (column, output) ← process numNodes inputTables chunk column
    let rest ← processAll numNodes inputTables chunks column
    .ok (output ++ rest)

end Probe

structure Node (numNodes numThreads : ℕ) (V R : Type) where
  received : Fin numThreads → List (Tables (numNodes * numThreads) V)
  fits : Fin numThreads → ℕ → ℕ → Bool
  workers : List (Fin numThreads)
  probers : List (List (List (ℕ × R)))

namespace Node

variable [NeZero (numNodes * numThreads)] [Inhabited V]

variable (numNodes numThreads) in
def probe (pages : List (Option (Root V))) (chunks : List (List (ℕ × R))) : Except Stop (List (V × R)) := do
  let inputTables ← loadTables pages (fun _ => none : Fin numThreads → Option (JoinMap V))
  processAll numNodes inputTables chunks []

def execute (node : Node numNodes numThreads V R) : Except Stop (List (V × R)) := do
  let pages ← node.workers.mapM fun w =>
    match run w (node.fits w) 0 (node.received w) none with
    | .ok page => .ok page
    | .error e => .error (.thrown e)
  let rows ← node.probers.mapM (probe numNodes numThreads pages)
  .ok rows.flatten

end Node

def join [NeZero (numNodes * numThreads)] [Inhabited V] (nodes : Fin numNodes → Node numNodes numThreads V R) :
    Except Stop (List (V × R)) := do
  let rows ← (finRange numNodes).mapM fun node => (nodes node).execute
  .ok rows.flatten

section Build

variable {n : ℕ} [NeZero n]

def Partitioned (page : Tables n V) : Prop := ∀ p, ∀ r ∈ (page p).records, whichMap n r.1 = p

theorem normalise_eq {key : ℕ} (h : key ≠ JM_UNUSED) : normalise key = key := if_neg h

variable [Inhabited α] {atts : List ℕ}

omit [NeZero n] in
theorem rowsFrom_eq (column : ℕ → List α) (i : ℕ) {keys : List ℕ} (h : JM_UNUSED ∉ keys) :
    rowsFrom atts column i keys = keys.mapIdx fun j key => (key, packRow atts column (i + j)) := by
  induction keys generalizing i with
  | nil => rfl
  | cons key keys ih =>
    have hkey : key ≠ JM_UNUSED := fun he => h (he ▸ mem_cons_self)
    rw [rowsFrom, normalise_eq hkey, ih (i + 1) fun hm => h (mem_cons_of_mem _ hm), List.mapIdx_cons]
    congr 2
    funext j key
    rw [Nat.add_right_comm, Nat.add_assoc]

theorem writeLoop_partitioned (column : ℕ → List α) (rooms : ℕ → JoinRoom) (i : ℕ) {keys : List ℕ}
    (hkeys : JM_UNUSED ∉ keys) {maps : Tables n (List α)} (hm : ∀ p, (maps p).Valid) (hp : Partitioned maps) :
    Partitioned (writeLoop atts column rooms i keys maps).1 := by
  induction keys generalizing i maps with
  | nil => exact hp
  | cons key keys ih =>
    have hkey : key ≠ JM_UNUSED := fun he => hkeys (he ▸ mem_cons_self)
    have hnext {m : JoinMap (List α)}
        (hrecords : ∀ r ∈ m.records, r = (key, packRow atts column i) ∨ r ∈ (maps (whichMap n key)).records) :
        Partitioned (update maps (whichMap n key) m) := by
      intro p r hr
      by_cases hq : p = whichMap n key
      · subst hq
        rw [update_self] at hr
        obtain rfl | hr := hrecords r hr
        · rfl
        · exact hp _ r hr
      · rw [update_of_ne hq] at hr
        exact hp p r hr
    obtain ⟨m, hi, hvalid, hperm⟩ | ⟨m, hi, hperm⟩ :=
      insert_cases (hm (whichMap n key)) (rooms i) key (packRow atts column i)
    · simp only [writeLoop, hi]
      apply ih (i + 1) fun h => hkeys (mem_cons_of_mem _ h)
      · intro p
        by_cases hq : p = whichMap n key
        · subst hq
          rwa [update_self]
        · rw [update_of_ne hq]
          exact hm p
      · apply hnext
        intro r hr
        rw [hperm.mem_iff, normalise_eq hkey, List.mem_cons] at hr
        exact hr
    · simp only [writeLoop, hi]
      apply hnext
      intro r hr
      exact Or.inr (hperm.mem_iff.mp hr)

omit [Inhabited α] in
theorem partitioned_create : Partitioned (createNewOutputContainer n : Tables n (List α)) := by
  intro p r hr
  change r ∈ (JoinMap.empty : JoinMap (List α)).records at hr
  rw [JoinMap.empty_records] at hr
  cases hr

structure Kept (atts : List ℕ) (s : Building n α) : Prop where
  valid : ∀ maps ∈ s.current, ∀ p, (maps p).Valid
  partitioned : ∀ page ∈ s.pages, Partitioned page
  keys : ∀ input ∈ s.pending, JM_UNUSED ∉ input.keyColumn
  used : ∀ r ∈ s.taken, r.1 ≠ JM_UNUSED
  total : (s.pages.map held).sum + ((s.pending.map (buildRows atts)).getD [] : Multiset (ℕ × List α)) = s.taken

theorem Kept.start : Kept atts (Building.start : Building n α) where
  valid _ h := nomatch h
  partitioned _ h := nomatch h
  keys _ h := nomatch h
  used _ h := nomatch h
  total := rfl

omit [NeZero n] in
theorem used_buildRows {input : TupleSet α} (h : JM_UNUSED ∉ input.keyColumn) :
    ∀ r ∈ buildRows atts input, r.1 ≠ JM_UNUSED := by
  intro r hr hk
  obtain ⟨i, hi, rfl⟩ := List.mem_mapIdx.mp hr
  apply h
  rw [← hk]
  exact List.getElem_mem hi

theorem buildRows_eq {input : TupleSet α} (h : JM_UNUSED ∉ input.keyColumn) :
    rowsFrom atts input.column 0 input.keyColumn = buildRows atts input := by
  rw [rowsFrom_eq _ _ h]
  simp only [buildRows, Nat.zero_add]

theorem Kept.container {s : Building n α} (h : Kept atts s) :
    (∀ p, ((s.current.getD (createNewOutputContainer n)) p).Valid) ∧
      Partitioned (s.current.getD (createNewOutputContainer n)) ∧
      (s.pages.map held).sum = (s.finished.map held).sum + held (s.current.getD (createNewOutputContainer n)) := by
  cases hc : s.current with
  | none =>
    refine ⟨fun _ => JoinMap.empty_valid, partitioned_create, ?_⟩
    have hheld : held (createNewOutputContainer n : Tables n (List α)) = 0 := by
      simp [held, createNewOutputContainer, JoinMap.empty_records]
    simp [Building.pages, hc, hheld]
  | some maps =>
    refine ⟨h.valid maps hc, h.partitioned maps ?_, ?_⟩
    · simp [Building.pages, hc]
    · simp [Building.pages, hc]

theorem Kept.step (hn : atts.Nodup) {op : Op α} {s s' : Building n α} (h : Kept atts s) (ha : op.Allowed s)
    (he : s.step atts op = .ok s') : Kept atts s' := by
  cases op with
  | chunk input =>
    rw [Building.step] at he
    split_ifs at he with hnone
    cases he
    have hpending : s.pending = none := Option.isNone_iff_eq_none.mp hnone
    refine ⟨h.valid, h.partitioned, fun input' hin => ?_, fun r hr => ?_, ?_⟩
    · cases hin
      exact ha
    · obtain hr | hr := List.mem_append.mp hr
      · exact h.used r hr
      · exact used_buildRows ha r hr
    · have htotal := h.total
      rw [hpending, Option.map_none, Option.getD_none, Multiset.coe_nil, add_zero] at htotal
      rw [← Multiset.coe_add, ← htotal]
      rfl
  | newPage =>
    cases he
    refine ⟨fun _ hc => (nomatch hc), fun page hpage => ?_, h.keys, h.used, ?_⟩
    · apply h.partitioned
      simpa [Building.pages] using hpage
    · rw [← h.total]
      simp [Building.pages]
  | write rooms =>
    cases hpending : s.pending with
    | none => simp [Building.step, hpending] at he
    | some input =>
      obtain ⟨hvalid, hpart, hpages⟩ := h.container
      have hkeys := h.keys input hpending
      have htotal := h.total
      rw [hpending, hpages, Option.map_some, Option.getD_some] at htotal
      have hpart' := @writeLoop_partitioned α n _ _ atts input.column rooms 0 input.keyColumn hkeys _ hvalid hpart
      obtain ⟨maps', hw, hv, hh⟩ | ⟨maps', j, hw, hh⟩ :=
        writeLoop_cases atts input.column rooms 0 input.keyColumn hvalid
      · rw [hw] at hpart'
        simp only [Building.step, hpending, writeOut, hw] at he
        cases he
        refine ⟨fun maps hc => ?_, fun page hpage => ?_, fun _ hin => (nomatch hin), h.used, ?_⟩
        · cases hc
          exact hv
        · obtain hf | hc := List.mem_append.mp hpage
          · exact h.partitioned page (List.mem_append_left _ hf)
          · obtain rfl := List.mem_singleton.mp hc
            exact hpart'
        · rw [buildRows_eq hkeys] at hh
          simp [Building.pages, hh, ← htotal, add_assoc]
      · rw [hw] at hpart'
        simp only [Building.step, hpending, writeOut, hw, Nat.zero_add] at he
        cases he
        have hrest : JM_UNUSED ∉ input.keyColumn.drop j := fun hm => hkeys (List.mem_of_mem_drop hm)
        refine ⟨fun _ hc => (nomatch hc), fun page hpage => ?_, fun input' hin => ?_, h.used, ?_⟩
        · rw [Building.pages, Option.toList_none, append_nil] at hpage
          obtain hf | hc := List.mem_append.mp hpage
          · exact h.partitioned page (List.mem_append_left _ hf)
          · obtain rfl := List.mem_singleton.mp hc
            exact hpart'
        · cases hin
          exact hrest
        · have hleft : buildRows atts ⟨input.keyColumn.drop j, truncate j atts input.column⟩ =
              (buildRows atts input).drop j := by
            rw [← buildRows_eq hrest, ← buildRows_eq hkeys, rowsFrom_truncate hn, rowsFrom_drop, Nat.add_comm]
          rw [buildRows_eq hkeys] at hh
          simp only [Building.pages, Option.toList_none, append_nil, map_append, map_cons, List.map_nil,
            List.sum_append, List.sum_singleton, Option.map_some, Option.getD_some, hh, hleft, ← htotal]
          rw [add_assoc, add_assoc, Multiset.coe_add, List.take_append_drop, add_assoc]

theorem pages_kept (hn : atts.Nodup) {pipelines : List (Building n α)} (hpipe : ∀ s ∈ pipelines,
    Reachable (fun op s => s.step atts op) Op.Allowed (· = Building.start) s ∧ s.pending = none) :
    (∀ page ∈ pipelines.flatMap Building.pages, Partitioned page) ∧
      (∀ r ∈ pipelines.flatMap Building.taken, r.1 ≠ JM_UNUSED) ∧
      ((pipelines.flatMap Building.pages).map held).sum =
        (pipelines.flatMap Building.taken : Multiset (ℕ × List α)) := by
  have hkept (s) (hs : s ∈ pipelines) : Kept atts s := by
    apply (hpipe s hs).1.invariant
    · rintro _ rfl
      exact Kept.start
    · intro op s s' h ha he
      exact h.step hn ha he
  have htotal (s) (hs : s ∈ pipelines) : (s.pages.map held).sum = (s.taken : Multiset (ℕ × List α)) := by
    have h := (hkept s hs).total
    rwa [(hpipe s hs).2, Option.map_none, Option.getD_none, Multiset.coe_nil, add_zero] at h
  refine ⟨fun page hpage => ?_, fun r hr => ?_, ?_⟩
  · obtain ⟨s, hs, hpage⟩ := List.mem_flatMap.mp hpage
    exact (hkept s hs).partitioned page hpage
  · obtain ⟨s, hs, hr⟩ := List.mem_flatMap.mp hr
    exact (hkept s hs).used r hr
  · clear hkept hpipe
    induction pipelines with
    | nil => rfl
    | cons s pipelines ih =>
      rw [flatMap_cons, flatMap_cons, map_append, List.sum_append, htotal s mem_cons_self,
        ih fun s hs => htotal s (mem_cons_of_mem _ hs), Multiset.coe_add]

end Build

section Partitions

theorem joinMapIndex_inj {offset offset' : Fin numNodes} {w : Fin numThreads}
    (h : joinMapIndex offset w = joinMapIndex offset' w) : offset = offset' := by
  have hval : (offset : ℕ) * numThreads + w = offset' * numThreads + w := congrArg Fin.val h
  apply Fin.ext
  apply Nat.eq_of_mul_eq_mul_right (Nat.pos_of_ne_zero fun h0 => ?_) (Nat.add_right_cancel hval)
  subst h0
  exact w.elim0

theorem exists_joinMapIndex (numNodes numThreads : ℕ) [NeZero (numNodes * numThreads)] (hash : ℕ) :
    ∃ offset : Fin numNodes,
      joinMapIndex offset (whichTable numNodes numThreads hash) = whichMap (numNodes * numThreads) hash := by
  have hlt : hash % (numNodes * numThreads) / numThreads < numNodes := by
    apply Nat.div_lt_of_lt_mul
    rw [Nat.mul_comm numThreads]
    exact Nat.mod_lt _ (Nat.pos_of_ne_zero (NeZero.ne _))
  refine ⟨⟨hash % (numNodes * numThreads) / numThreads, hlt⟩, Fin.ext ?_⟩
  exact Nat.div_add_mod' _ _

theorem flatMap_single {ι β : Type} {l : List ι} (hl : l.Nodup) {i : ι} (hi : i ∈ l) {f : ι → List β}
    (hf : ∀ j, j ≠ i → f j = []) : l.flatMap f = f i := by
  induction l with
  | nil => cases hi
  | cons j l ih =>
    rw [List.nodup_cons] at hl
    rw [flatMap_cons]
    by_cases hj : j = i
    · subst hj
      have hrest : l.flatMap f = [] := by
        apply List.flatMap_eq_nil_iff.mpr
        intro k hk
        apply hf
        rintro rfl
        exact hl.1 hk
      rw [hrest, append_nil]
    · rw [hf j hj, List.nil_append]
      exact ih hl.2 (List.mem_of_ne_of_mem (Ne.symm hj) hi)

theorem filter_of_partitioned {n : ℕ} [NeZero n] {page : Tables n V} (h : Partitioned page) {hash : ℕ} {p : Fin n}
    (hp : p ≠ whichMap n hash) : ((page p).records.filter fun r => r.1 = hash) = [] := by
  apply List.filter_eq_nil_iff.mpr
  intro r hr hh
  apply hp
  rw [← h p r hr, of_decide_eq_true hh]

theorem held_filter {n : ℕ} [NeZero n] {page : Tables n (List α)} (h : Partitioned page) (hash : ℕ) :
    (held page).filter (fun r => r.1 = hash) =
      ((page (whichMap n hash)).records.filter fun r => r.1 = hash : List (ℕ × List α)) := by
  rw [held, ← Finset.add_sum_erase _ _ (Finset.mem_univ (whichMap n hash)), Multiset.filter_add, Multiset.filter_coe]
  have hrest : (∑ p ∈ Finset.univ.erase (whichMap n hash), ((page p).records : Multiset (ℕ × List α))).filter
      (fun r => r.1 = hash) = 0 := by
    apply Multiset.filter_eq_nil.mpr
    intro r hr hh
    obtain ⟨p, hp, hr⟩ := Multiset.mem_sum.mp hr
    apply Finset.ne_of_mem_erase hp
    rw [← h p r (Multiset.mem_coe.mp hr), hh]
  rw [hrest, add_zero]

theorem iteration_perm (m : JoinMap V) : (m.iteration.flatMap fun g => g.2.map fun v => (g.1, v)).Perm m.records :=
  Multiset.coe_eq_coe.mp (ShuffleJoin.expand_begin m)

theorem mergeMe_perm (w : Fin numThreads) (page : Tables (numNodes * numThreads) V) :
    (mergeMe w page).Perm ((finRange numNodes).flatMap fun offset => (page (joinMapIndex offset w)).records) :=
  List.Perm.flatMap_left _ fun _ _ => iteration_perm _

theorem mergeMe_filter [NeZero (numNodes * numThreads)] {page : Tables (numNodes * numThreads) V}
    (h : Partitioned page) (hash : ℕ) :
    ((mergeMe (whichTable numNodes numThreads hash) page).filter fun r => r.1 = hash).Perm
      ((page (whichMap (numNodes * numThreads) hash)).records.filter fun r => r.1 = hash) := by
  refine ((mergeMe_perm _ page).filter _).trans ?_
  obtain ⟨offset, hoffset⟩ := exists_joinMapIndex numNodes numThreads hash
  rw [List.filter_flatMap, flatMap_single (List.nodup_finRange _) (List.mem_finRange offset), hoffset]
  intro other hother
  apply filter_of_partitioned h
  rw [← hoffset]
  intro he
  exact hother (joinMapIndex_inj he)

end Partitions

section Merging

variable [Inhabited V]

theorem combine_cases {m : JoinMap V} (h : m.Valid) (fits : ℕ → Bool) (i : ℕ) (records : List (ℕ × V)) :
    ((∀ k, k < records.length → fits (i + k) = true) ∧ combine fits i records m = m.pushAll records) ∨
      (¬(∀ k, k < records.length → fits (i + k) = true) ∧ combine fits i records m = .error .notEnoughSpace) := by
  induction records generalizing i m with
  | nil => exact Or.inl ⟨fun k hk => absurd hk (Nat.not_lt_zero k), rfl⟩
  | cons r records ih =>
    by_cases hi : fits i = true
    · obtain ⟨m', hm', hv', -⟩ := h.insert r
      have hcons : combine fits i (r :: records) m = combine fits (i + 1) records m' := by
        rw [combine, if_pos hi, hm', ok_bind]
      have hpush : m.pushAll (r :: records) = m'.pushAll records := by
        rw [JoinMap.pushAll, List.foldlM_cons, hm', ok_bind]
        rfl
      have hall : (∀ k, k < (r :: records).length → fits (i + k) = true) ↔
          ∀ k, k < records.length → fits (i + 1 + k) = true := by
        constructor
        · intro hk k hlt
          rw [Nat.add_assoc, Nat.add_comm 1 k]
          exact hk (k + 1) (Nat.succ_lt_succ hlt)
        · intro hk k hlt
          cases k with
          | zero => exact hi
          | succ k =>
            rw [← Nat.add_assoc, Nat.add_right_comm]
            exact hk k (Nat.lt_of_succ_lt_succ hlt)
      rw [hcons, hpush, hall]
      exact ih hv' (i + 1)
    · refine Or.inr ⟨fun hk => hi (hk 0 (Nat.succ_pos _)), ?_⟩
      rw [combine, if_neg hi]

def Fits (w : Fin numThreads) (fits : ℕ → ℕ → Bool) (pages : List (Tables (numNodes * numThreads) V)) : Prop :=
  ∀ i page, pages[i]? = some page → ∀ k, k < (mergeMe w page).length → fits i k = true

theorem pushAll_contents {m : JoinMap V} (h : m.Valid) {records : List (ℕ × V)}
    (hn : ∀ r ∈ records, r.1 ≠ JM_UNUSED) : ∃ m', m.pushAll records = .ok m' ∧ m'.Valid ∧
      ∀ hash, contents m' hash = contents m hash ++ (records.filter fun r => r.1 = hash).map Prod.snd := by
  obtain ⟨m', hm', hv', hc'⟩ := h.pushAll records
  refine ⟨m', hm', hv', fun hash => ?_⟩
  rw [hc', foldl_push_apply]
  congr 2
  apply List.filter_congr
  intro r hr
  rw [normalise_eq (hn r hr)]

theorem run_cases (w : Fin numThreads) (fits : ℕ → ℕ → Bool) (start : ℕ)
    {pages : List (Tables (numNodes * numThreads) V)} (hn : ∀ page ∈ pages, ∀ r ∈ mergeMe w page, r.1 ≠ JM_UNUSED)
    (root : Root V) (hroot : root.table.Valid) :
    ((∀ i page, pages[i]? = some page → ∀ k, k < (mergeMe w page).length → fits (start + i) k = true) ∧
      ∃ table, run w fits start pages (some root) = .ok (some { root with table := table }) ∧ table.Valid ∧
        ∀ hash, contents table hash = contents root.table hash ++
          ((pages.flatMap (mergeMe w)).filter fun r => r.1 = hash).map Prod.snd) ∨
      (¬(∀ i page, pages[i]? = some page → ∀ k, k < (mergeMe w page).length → fits (start + i) k = true) ∧
        run w fits start pages (some root) = .error .notEnoughSpace) := by
  induction pages generalizing start root with
  | nil => exact Or.inl ⟨fun i page hi => by simp at hi, root.table, rfl, hroot, by simp⟩
  | cons page pages ih =>
    have hsplit : (∀ i p, (page :: pages)[i]? = some p → ∀ k, k < (mergeMe w p).length → fits (start + i) k = true) ↔
        (∀ k, k < (mergeMe w page).length → fits start k = true) ∧
        ∀ i p, pages[i]? = some p → ∀ k, k < (mergeMe w p).length → fits (start + 1 + i) k = true := by
      constructor
      · intro h
        refine ⟨h 0 page rfl, fun i p hi k hk => ?_⟩
        rw [Nat.add_assoc, Nat.add_comm 1 i]
        exact h (i + 1) p hi k hk
      · rintro ⟨h0, h⟩ i p hi k hk
        cases i with
        | zero =>
          cases hi
          exact h0 k hk
        | succ i =>
          rw [← Nat.add_assoc, Nat.add_right_comm]
          exact h i p hi k hk
    rw [hsplit]
    obtain ⟨hfit, hc⟩ | ⟨hfit, hc⟩ := combine_cases hroot (fits start) 0 (mergeMe w page)
    · simp only [Nat.zero_add] at hfit
      obtain ⟨table, hpush, hvalid, hcontents⟩ := pushAll_contents hroot (hn page mem_cons_self)
      have hrun : run w fits start (page :: pages) (some root) =
          run w fits (start + 1) pages (some { root with table := table }) := by
        rw [run, Option.getD_some, writeOutPage, hc, hpush]
        rfl
      rw [hrun]
      obtain ⟨hrest, table', hr, hv, hcs⟩ | ⟨hrest, hr⟩ :=
        ih (start + 1) (fun p hp => hn p (mem_cons_of_mem _ hp)) { root with table := table } hvalid
      · refine Or.inl ⟨⟨hfit, hrest⟩, table', hr, hv, fun hash => ?_⟩
        rw [hcs, hcontents, flatMap_cons, List.filter_append, map_append, List.append_assoc]
      · exact Or.inr ⟨fun h => hrest h.2, hr⟩
    · simp only [Nat.zero_add] at hfit
      refine Or.inr ⟨fun h => hfit h.1, ?_⟩
      rw [run, Option.getD_some, writeOutPage, hc]
      rfl

theorem run_spec (w : Fin numThreads) (fits : ℕ → ℕ → Bool) {pages : List (Tables (numNodes * numThreads) V)}
    (hn : ∀ page ∈ pages, ∀ r ∈ mergeMe w page, r.1 ≠ JM_UNUSED) :
    (Fits w fits pages ∧ pages = [] ∧ run w fits 0 pages none = .ok none) ∨
      (Fits w fits pages ∧ pages ≠ [] ∧ ∃ table, run w fits 0 pages none = .ok (some ⟨w, table⟩) ∧ table.Valid ∧
        ∀ hash, contents table hash = ((pages.flatMap (mergeMe w)).filter fun r => r.1 = hash).map Prod.snd) ∨
      (¬Fits w fits pages ∧ run w fits 0 pages none = .error .notEnoughSpace) := by
  cases pages with
  | nil => exact Or.inl ⟨fun i page hi => by simp at hi, rfl, rfl⟩
  | cons page pages =>
    right
    have hempty : ∀ hash, contents (JoinMap.empty : JoinMap V) hash = [] := by
      intro hash
      apply JoinPairArray.values_absent
      intro e he
      simp [JoinMap.empty, JoinPairArray.ofSize] at he
    have hstart : run w fits 0 (page :: pages) none =
        run w fits 0 (page :: pages) (some (BroadcastJoinCombinerSink.createNewOutputContainer w)) := rfl
    obtain ⟨hfit, table, hr, hv, hc⟩ | ⟨hfit, hr⟩ :=
      run_cases w fits 0 hn (BroadcastJoinCombinerSink.createNewOutputContainer w) JoinMap.empty_valid
    · left
      refine ⟨fun i p hi k hk => ?_, List.cons_ne_nil _ _, table, hstart.trans hr, hv, fun hash => ?_⟩
      · have h := hfit i p hi k hk
        rwa [Nat.zero_add] at h
      · rw [hc]
        change contents JoinMap.empty hash ++ _ = _
        rw [hempty, List.nil_append]
    · right
      refine ⟨fun h => hfit fun i p hi k hk => ?_, hstart.trans hr⟩
      rw [Nat.zero_add]
      exact h i p hi k hk

end Merging

section Probing

theorem unpack_take {column : List V} {which : ℕ} (h : which ≤ column.length) (v : V) :
    (unpack column which v).take (which + 1) = column.take which ++ [v] ∧
      which + 1 ≤ (unpack column which v).length := by
  unfold unpack
  by_cases hle : column.length ≤ which
  · have heq : which = column.length := by omega
    subst heq
    rw [if_pos hle]
    simp
  · rw [if_neg hle]
    constructor
    · rw [List.take_add_one, List.getElem?_set_self (by omega), List.take_set_of_le (Nat.le_refl _)]
      rfl
    · rw [List.length_set]
      omega

theorem unpackAll_spec (a : List V) {column : List V} {counter : ℕ} (h : counter ≤ column.length) :
    (unpackAll a column counter).1.take (unpackAll a column counter).2 = column.take counter ++ a ∧
      (unpackAll a column counter).2 ≤ (unpackAll a column counter).1.length := by
  induction a generalizing column counter with
  | nil => exact ⟨by rw [unpackAll, append_nil], h⟩
  | cons v a ih =>
    obtain ⟨htake, hlen⟩ := unpack_take h v
    obtain ⟨htake', hlen'⟩ := ih hlen
    rw [unpackAll]
    refine ⟨?_, hlen'⟩
    rw [htake', htake, List.append_assoc, List.singleton_append]

variable [NeZero (numNodes * numThreads)] {inputTables : Fin numThreads → Option (JoinMap V)} {hits : ℕ → List V}

theorem probeHashes_spec {inputHash : List ℕ} (h : ∀ hash ∈ inputHash, ∃ table,
      inputTables (whichTable numNodes numThreads hash) = some table ∧ table.lookup hash = .ok (hits hash))
    {column : List V} {counter : ℕ} (hc : counter ≤ column.length) :
    ∃ column' counter', probeHashes numNodes inputTables inputHash column counter =
        .ok (column', counter', inputHash.map fun hash => (hits hash).length) ∧
      column'.take counter' = column.take counter ++ inputHash.flatMap hits := by
  induction inputHash generalizing column counter with
  | nil => exact ⟨column, counter, rfl, by simp⟩
  | cons hash inputHash ih =>
    obtain ⟨table, htable, hlookup⟩ := h hash mem_cons_self
    obtain ⟨htake, hlen⟩ := unpackAll_spec (hits hash) hc
    obtain ⟨column', counter', he, htake'⟩ := ih (fun k hk => h k (mem_cons_of_mem _ hk)) hlen
    refine ⟨column', counter', ?_, ?_⟩
    · simp only [probeHashes, htable, hlookup, he, ok_bind, map_cons]
    · rw [htake', htake, flatMap_cons, List.append_assoc]

theorem zip_flatMap (hits : ℕ → List V) (input : List (ℕ × R)) :
    ((input.map Prod.fst).flatMap hits).zip
        (replicate (input.map Prod.snd) ((input.map Prod.fst).map fun hash => (hits hash).length)) =
      input.flatMap fun r => (hits r.1).map fun v => (v, r.2) := by
  induction input with
  | nil => rfl
  | cons r input ih =>
    have hcons : replicate ((r :: input).map Prod.snd)
        (((r :: input).map Prod.fst).map fun hash => (hits hash).length) =
        List.replicate (hits r.1).length r.2 ++
          replicate (input.map Prod.snd) ((input.map Prod.fst).map fun hash => (hits hash).length) := rfl
    rw [hcons, map_cons, flatMap_cons, List.zip_append (by simp), ih, ShuffleJoin.zip_replicate_one]
    rfl

theorem processAll_spec {chunks : List (List (ℕ × R))} (h : ∀ r ∈ chunks.flatten, ∃ table,
      inputTables (whichTable numNodes numThreads r.1) = some table ∧ table.lookup r.1 = .ok (hits r.1))
    (column : List V) : processAll numNodes inputTables chunks column =
      .ok (chunks.flatten.flatMap fun r => (hits r.1).map fun v => (v, r.2)) := by
  induction chunks generalizing column with
  | nil => rfl
  | cons chunk chunks ih =>
    rw [List.flatten_cons] at h
    have hchunk : ∀ hash ∈ chunk.map Prod.fst, ∃ table,
        inputTables (whichTable numNodes numThreads hash) = some table ∧ table.lookup hash = .ok (hits hash) := by
      intro hash hm
      obtain ⟨r, hr, rfl⟩ := List.mem_map.mp hm
      exact h r (List.mem_append_left _ hr)
    obtain ⟨column', counter', he, htake⟩ := probeHashes_spec hchunk (Nat.zero_le column.length)
    rw [List.take_zero, List.nil_append] at htake
    rw [processAll, process, he, ok_bind]
    dsimp only
    rw [ok_bind, htake]
    dsimp only
    rw [ih fun r hr => h r (List.mem_append_right _ hr), ok_bind, zip_flatMap, List.flatten_cons, List.flatMap_append]

omit [NeZero (numNodes * numThreads)] in
theorem loadTables_none {pages : List (Option (Root V))} {tables tables' : Fin numThreads → Option (JoinMap V)}
    (h : loadTables pages tables = .ok tables') : none ∉ pages := by
  induction pages generalizing tables with
  | nil => simp
  | cons page pages ih =>
    cases page with
    | none => cases h
    | some root =>
      rw [loadTables] at h
      split_ifs at h with hlt
      simp [ih h]

omit [NeZero (numNodes * numThreads)] in
theorem loadTables_spec (table : Fin numThreads → JoinMap V) (workers : List (Fin numThreads))
    (tables : Fin numThreads → Option (JoinMap V)) :
    ∃ tables', loadTables (workers.map fun w : Fin numThreads => some ⟨w, table w⟩) tables = .ok tables' ∧
      ∀ w, tables' w = if w ∈ workers then some (table w) else tables w := by
  induction workers generalizing tables with
  | nil => exact ⟨tables, rfl, by simp⟩
  | cons v workers ih =>
    obtain ⟨tables', he, ht⟩ := ih (update tables v (some (table v)))
    refine ⟨tables', ?_, fun w => ?_⟩
    · rw [map_cons, loadTables, dif_pos v.isLt]
      exact he
    · rw [ht]
      by_cases hw : w ∈ workers
      · rw [if_pos hw, if_pos (mem_cons_of_mem _ hw)]
      · rw [if_neg hw]
        by_cases hv : w = v
        · subst hv
          rw [update_self, if_pos mem_cons_self]
        · rw [update_of_ne hv, if_neg (by simp [hv, hw])]

end Probing

section Exactness

variable [NeZero (numNodes * numThreads)] [Inhabited V]

def Node.probeRows (node : Node numNodes numThreads V R) : List (ℕ × R) := node.probers.flatten.flatten

def Node.Complete (node : Node numNodes numThreads V R) : Prop :=
  (∀ w, Fits w (node.fits w) (node.received w)) ∧ (node.probers = [] ∨ ∀ w, node.received w ≠ [])

omit [NeZero (numNodes * numThreads)] [Inhabited V] in
theorem mergeMe_key {page : Tables (numNodes * numThreads) V} {w : Fin numThreads} {r : ℕ × V}
    (h : r ∈ mergeMe w page) : ∃ p, r ∈ (page p).records := by
  obtain ⟨offset, -, hr⟩ := List.mem_flatMap.mp ((mergeMe_perm w page).mem_iff.mp h)
  exact ⟨_, hr⟩

theorem forall₂_of_mem {ι β : Type} {rel : ι → β → Prop} {l : List ι} {bs : List β} (h : List.Forall₂ rel l bs) {i : ι}
    (hi : i ∈ l) : ∃ b ∈ bs, rel i b := by
  induction h with
  | nil => cases hi
  | cons hb _ ih =>
    obtain rfl | hi := List.mem_cons.mp hi
    · exact ⟨_, mem_cons_self, hb⟩
    · obtain ⟨b, hmem, hb⟩ := ih hi
      exact ⟨b, mem_cons_of_mem _ hmem, hb⟩

namespace Node

variable {node : Node numNodes numThreads V R}

def hits (node : Node numNodes numThreads V R) (hash : ℕ) : List V :=
  let w := whichTable numNodes numThreads hash
  (((node.received w).flatMap (mergeMe w)).filter fun r => r.1 = hash).map Prod.snd

theorem execute_eq_ok {rows : List (V × R)} : node.execute = .ok rows ↔
    ∃ pages, List.Forall₂ (fun w page => run w (node.fits w) 0 (node.received w) none = .ok page) node.workers pages ∧
      ∃ output, List.Forall₂ (fun chunks out => probe numNodes numThreads pages chunks = .ok out)
        node.probers output ∧ output.flatten = rows := by
  have hrun (w) (page) : ((match run w (node.fits w) 0 (node.received w) none with
      | .ok page => .ok page
      | .error e => .error (Stop.thrown e) : Except Stop (Option (Root V))) = .ok page) ↔
      run w (node.fits w) 0 (node.received w) none = .ok page := by
    cases run w (node.fits w) 0 (node.received w) none <;> simp
  rw [execute, bind_eq_ok]
  simp only [mapM_eq_ok, bind_eq_ok, hrun, Except.ok.injEq]

theorem Complete.of_execute (hn : ∀ w, ∀ page ∈ node.received w, ∀ r ∈ mergeMe w page, r.1 ≠ JM_UNUSED)
    (hworkers : node.workers.Perm (finRange numThreads)) {rows : List (V × R)}
    (h : node.execute = .ok rows) : node.Complete := by
  obtain ⟨pages, hpages, output, houtput, -⟩ := execute_eq_ok.mp h
  have hmem (w : Fin numThreads) : w ∈ node.workers := hworkers.mem_iff.mpr (List.mem_finRange w)
  constructor
  · intro w
    obtain ⟨page, -, hpage⟩ := forall₂_of_mem hpages (hmem w)
    obtain ⟨hfit, -⟩ | ⟨hfit, -⟩ | ⟨-, herr⟩ := run_spec w (node.fits w) (hn w)
    · exact hfit
    · exact hfit
    · rw [herr] at hpage
      cases hpage
  · cases hprobers : node.probers with
    | nil => exact Or.inl rfl
    | cons chunks probers =>
      right
      intro w hw
      rw [hprobers] at houtput
      cases houtput with
      | cons hprobe _ =>
        obtain ⟨tables, hload, -⟩ := bind_eq_ok.mp hprobe
        obtain ⟨page, hin, hpage⟩ := forall₂_of_mem hpages (hmem w)
        rw [hw] at hpage
        cases hpage
        exact loadTables_none hload hin

omit [Inhabited V] in
theorem probe_spec (hworkers : node.workers.Perm (finRange numThreads)) {table : Fin numThreads → JoinMap V}
    (htable : ∀ w, (table w).Valid ∧ ∀ hash, contents (table w) hash =
      (((node.received w).flatMap (mergeMe w)).filter fun r => r.1 = hash).map Prod.snd)
    {chunks : List (List (ℕ × R))} (hchunks : ∀ r ∈ chunks.flatten, r.1 ≠ JM_UNUSED) :
    probe numNodes numThreads (node.workers.map fun w : Fin numThreads => some ⟨w, table w⟩) chunks =
      .ok (chunks.flatten.flatMap fun r => (node.hits r.1).map fun v => (v, r.2)) := by
  obtain ⟨tables, hload, htables⟩ := loadTables_spec table node.workers fun _ => none
  rw [probe, hload, ok_bind]
  apply processAll_spec
  intro r hr
  have hin := hworkers.mem_iff.mpr (List.mem_finRange (whichTable numNodes numThreads r.1))
  refine ⟨table (whichTable numNodes numThreads r.1), by rw [htables, if_pos hin], ?_⟩
  rw [(htable _).1.lookup, normalise_eq (hchunks r hr), (htable _).2]
  rfl

theorem Complete.execute (h : node.Complete)
    (hn : ∀ w, ∀ page ∈ node.received w, ∀ r ∈ mergeMe w page, r.1 ≠ JM_UNUSED)
    (hworkers : node.workers.Perm (finRange numThreads)) (hprobe : ∀ r ∈ node.probeRows, r.1 ≠ JM_UNUSED) :
    node.execute = .ok (node.probeRows.flatMap fun r => (node.hits r.1).map fun v => (v, r.2)) := by
  rw [execute_eq_ok]
  obtain hnone | hpages := h.2
  · have hrun (w : Fin numThreads) : ∃ page, run w (node.fits w) 0 (node.received w) none = .ok page := by
      obtain ⟨-, -, hr⟩ | ⟨-, -, table, hr, -⟩ | ⟨hfit, -⟩ := run_spec w (node.fits w) (hn w)
      · exact ⟨_, hr⟩
      · exact ⟨_, hr⟩
      · exact absurd (h.1 w) hfit
    choose page hpage using hrun
    refine ⟨node.workers.map page, ?_, [], ?_, ?_⟩
    · rw [List.forall₂_map_right_iff, List.forall₂_same]
      exact fun w _ => hpage w
    · rw [hnone]
      exact .nil
    · rw [probeRows, hnone]
      rfl
  · have hrun (w : Fin numThreads) : ∃ table, run w (node.fits w) 0 (node.received w) none = .ok (some ⟨w, table⟩) ∧
        table.Valid ∧ ∀ hash, contents table hash =
          (((node.received w).flatMap (mergeMe w)).filter fun r => r.1 = hash).map Prod.snd := by
      obtain ⟨-, hw, -⟩ | ⟨-, -, htable⟩ | ⟨hfit, -⟩ := run_spec w (node.fits w) (hn w)
      · exact absurd hw (hpages w)
      · exact htable
      · exact absurd (h.1 w) hfit
    choose table hr htable using hrun
    refine ⟨node.workers.map fun w : Fin numThreads => some ⟨w, table w⟩, ?_,
      node.probers.map fun chunks => chunks.flatten.flatMap fun r => (node.hits r.1).map fun v => (v, r.2), ?_, ?_⟩
    · rw [List.forall₂_map_right_iff, List.forall₂_same]
      exact fun w _ => hr w
    · rw [List.forall₂_map_right_iff, List.forall₂_same]
      intro chunks hchunks
      apply probe_spec hworkers htable
      intro r hr
      apply hprobe
      obtain ⟨chunk, hc, hr⟩ := List.mem_flatten.mp hr
      exact List.mem_flatten.mpr ⟨chunk, List.mem_flatten.mpr ⟨chunks, hchunks, hc⟩, hr⟩
    · rw [probeRows]
      clear hprobe hr htable hpages h hworkers hn
      generalize node.probers = probers
      induction probers with
      | nil => rfl
      | cons chunks probers ih =>
        rw [map_cons, List.flatten_cons, ih, List.flatten_cons, List.flatten_append, List.flatMap_append]

end Node

theorem merged_filter {pages : List (Tables (numNodes * numThreads) (List α))} (h : ∀ page ∈ pages, Partitioned page)
    (hash : ℕ) : (((pages.flatMap (mergeMe (whichTable numNodes numThreads hash))).filter
      fun r => r.1 = hash : List (ℕ × List α)) : Multiset (ℕ × List α)) =
      (pages.map held).sum.filter fun r => r.1 = hash := by
  induction pages with
  | nil => rfl
  | cons page pages ih =>
    have hpage := h page mem_cons_self
    rw [flatMap_cons, List.filter_append, ← Multiset.coe_add, ih fun p hp => h p (mem_cons_of_mem _ hp),
      Multiset.coe_eq_coe.mpr (mergeMe_filter hpage hash), map_cons, List.sum_cons, Multiset.filter_add,
      held_filter hpage]

end Exactness

section Result

variable [NeZero (numNodes * numThreads)]

def JoinsExactly (build : List (ℕ × List α)) (nodes : Fin numNodes → Node numNodes numThreads (List α) R) : Prop :=
  ∃ rows, join nodes = .ok rows ∧
    (rows : Multiset (List α × R)) = pairs build ((finRange numNodes).flatMap fun node => (nodes node).probeRows)

variable {pipelines : List (Building (numNodes * numThreads) α)} {atts : List ℕ}
  {nodes : Fin numNodes → Node numNodes numThreads (List α) R}

theorem hits_eq [Inhabited α] {node : Node numNodes numThreads (List α) R} (hn : atts.Nodup)
    (hpipe : ∀ s ∈ pipelines,
      Reachable (fun op s => s.step atts op) Op.Allowed (· = Building.start) s ∧ s.pending = none)
    (hreceived : ∀ w, (node.received w).Perm (pipelines.flatMap Building.pages)) (hash : ℕ) :
    (node.hits hash : Multiset (List α)) =
      ((pipelines.flatMap Building.taken : Multiset (ℕ × List α)).filter fun r => r.1 = hash).map Prod.snd := by
  obtain ⟨hpart, -, htotal⟩ := pages_kept hn hpipe
  rw [Node.hits, ← Multiset.map_coe, ← htotal, ← merged_filter hpart]
  congr 1
  exact Multiset.coe_eq_coe.mpr (((hreceived _).flatMap_right _).filter _)

theorem broadcastJoins_iff [Inhabited α] (hn : atts.Nodup) (hpipe : ∀ s ∈ pipelines,
      Reachable (fun op s => s.step atts op) Op.Allowed (· = Building.start) s ∧ s.pending = none)
    (hreceived : ∀ node w, ((nodes node).received w).Perm (pipelines.flatMap Building.pages))
    (hworkers : ∀ node, (nodes node).workers.Perm (finRange numThreads))
    (hprobe : ∀ node, ∀ r ∈ (nodes node).probeRows, r.1 ≠ JM_UNUSED) :
    JoinsExactly (pipelines.flatMap Building.taken) nodes ↔ ∀ node, (nodes node).Complete := by
  obtain ⟨-, hused, htotal⟩ := pages_kept hn hpipe
  have hkeys (node) (w) : ∀ page ∈ (nodes node).received w, ∀ r ∈ mergeMe w page, r.1 ≠ JM_UNUSED := by
    intro page hpage r hr
    obtain ⟨p, hr⟩ := mergeMe_key hr
    apply hused r
    rw [← Multiset.mem_coe, ← htotal]
    have hheld : r ∈ held page := Multiset.mem_sum.mpr ⟨p, Finset.mem_univ p, Multiset.mem_coe.mpr hr⟩
    obtain ⟨before, after, hpages⟩ := List.append_of_mem ((hreceived node w).mem_iff.mp hpage)
    rw [hpages, map_append, map_cons, List.sum_append, List.sum_cons]
    exact Multiset.mem_add.mpr (Or.inr (Multiset.mem_add.mpr (Or.inl hheld)))
  constructor
  · rintro ⟨rows, hrows, -⟩ node
    obtain ⟨output, houtput, -⟩ := bind_eq_ok.mp hrows
    obtain ⟨out, -, hout⟩ := forall₂_of_mem (mapM_eq_ok.mp houtput) (List.mem_finRange node)
    exact .of_execute (hkeys node) (hworkers node) hout
  · intro hcomplete
    refine ⟨((finRange numNodes).map fun node =>
      (nodes node).probeRows.flatMap fun r => ((nodes node).hits r.1).map fun v => (v, r.2)).flatten, ?_, ?_⟩
    · rw [join, bind_eq_ok]
      refine ⟨_, mapM_eq_ok.mpr ?_, rfl⟩
      rw [List.forall₂_map_right_iff, List.forall₂_same]
      exact fun node _ => (hcomplete node).execute (hkeys node) (hworkers node) (hprobe node)
    · rw [← List.flatMap_def, pairs]
      induction finRange numNodes with
      | nil => rfl
      | cons node rest ih =>
        rw [flatMap_cons, flatMap_cons, ← Multiset.coe_add, ← Multiset.coe_add, Multiset.add_bind, ih,
          ← Multiset.coe_bind]
        congr 1
        apply Multiset.bind_congr
        intro r _
        rw [← Multiset.map_coe, hits_eq hn hpipe (hreceived node), Multiset.map_map]
        rfl

def twoProbers : Fin 2 → List (List (List (ℕ × ℕ))) := ![[[[(5, 10), (6, 11)], [(5, 12)]]], [[[(7, 13)]], []]]

def twoNodes (pages : List (Tables (2 * 2) (List ℕ))) : Fin 2 → Node 2 2 (List ℕ) ℕ :=
  fun node => ⟨fun _ => pages, fun _ _ _ => true, [1, 0], twoProbers node⟩

def threeBuildRows : List (Op ℕ) :=
  [.chunk ⟨[5, 7, 5], fun _ => [50, 70, 51]⟩, .write fun i => if i = 2 then .record else .enough, .write fun _ => .enough]

theorem joinsExactly_twoNodes : ∃ s : Building (2 * 2) ℕ, s.pages.length = 2 ∧
    s.taken = [(5, [50]), (7, [70]), (5, [51])] ∧ JoinsExactly ([s].flatMap Building.taken) (twoNodes s.pages) := by
  have hrun : (runAll (fun op (s : Building (2 * 2) ℕ) => s.step [0] op) (fun op _ => match op with
        | .chunk input => decide (JM_UNUSED ∉ input.keyColumn)
        | _ => true) threeBuildRows Building.start).any (fun s => s.pages.length = 2 ∧
      s.taken = [(5, [50]), (7, [70]), (5, [51])] ∧ s.pending.isNone) = true := by
    decide +kernel
  obtain ⟨s, hs, hp⟩ := (Option.any_eq_true _ _).mp hrun
  obtain ⟨htwo, htaken, hdone⟩ := of_decide_eq_true hp
  have hreach : Reachable (fun op s => s.step [0] op) Op.Allowed (· = Building.start) s := by
    refine Reachable.of_runAll (fun op s h => ?_) (Reachable.start rfl) hs
    cases op with
    | chunk input => exact of_decide_eq_true (p := JM_UNUSED ∉ input.keyColumn) h
    | write rooms => trivial
    | newPage => trivial
  refine ⟨s, htwo, htaken, ?_⟩
  apply (broadcastJoins_iff (List.nodup_singleton 0) _ _ _ _).mpr
  · intro node
    refine ⟨fun w i page hi k hk => rfl, Or.inr fun w hw => ?_⟩
    rw [show s.pages = [] from hw] at htwo
    cases htwo
  · intro s' hs'
    obtain rfl := List.mem_singleton.mp hs'
    exact ⟨hreach, Option.isNone_iff_eq_none.mp hdone⟩
  · intro node w
    simp [twoNodes]
  · intro node
    exact List.Perm.swap 0 1 []
  · have hused : ∀ node, ∀ r ∈ (twoProbers node).flatten.flatten, r.1 ≠ JM_UNUSED := by decide
    exact hused

theorem not_joinsExactly_noPage :
    ¬JoinsExactly ([(Building.start : Building (2 * 2) ℕ)].flatMap Building.taken)
      (twoNodes ([(Building.start : Building (2 * 2) ℕ)].flatMap Building.pages)) := by
  rintro ⟨rows, hrows, -⟩
  cases hrows

end Result

end PlinyCompute.BroadcastJoin
