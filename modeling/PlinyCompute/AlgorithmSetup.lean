import PlinyCompute.SharedCursor

namespace PlinyCompute.AlgorithmSetup

open Transition SharedCursor

abbrev SetId := String × String

abbrev PageSetId := ℕ × String

inductive StartComputation
  | scanSet (set : SetId)
  | applyJoin
  | other
  deriving DecidableEq

structure SourceSpec where
  start : StartComputation
  firstTupleSet : String
  pageSet : PageSetId
  swapLHSandRHS : Bool
  deriving DecidableEq

def SourceSpec.sourceSet (spec : SourceSpec) : Option SetId :=
  match spec.start with
  | .scanSet set => some set
  | _ => none

inductive StoredPageSet
  | anonymous (pages : List ℕ)
  | feeding (numReaders : ℕ)
  deriving DecidableEq

structure Storage where
  setPages : SetId → Option (List ℕ)
  pageSets : PageSetId → Option StoredPageSet
  numThreads : ℕ

structure Job where
  numberOfNodes : ℕ
  numberOfProcessingThreads : ℕ

inductive PageSet
  | ofSet (object : ℕ) (set : SetId)
  | stored (id : PageSetId)
  deriving DecidableEq

inductive Stop
  -- `setup` returns false
  | refused
  -- a null pointer or an index that is out of range
  | undefined
  deriving DecidableEq

structure Pipeline where
  pipelineSource : ℕ
  firstTupleSet : String
  sourcePageSet : PageSet
  sourceSetArg : Option SetId
  swapLHSandRHS : Bool
  workerID : ℕ
  partition : Option ℕ
  deriving DecidableEq

structure Built where
  built : List Pipeline
  pipelines : List Pipeline
  deriving DecidableEq

structure Algorithm where
  sources : List SourceSpec
  secondarySources : List PageSetId

/-- A page set that does not exist is a null pointer, which `resetPageSet` is called on. -/
def getSourcePageSet (storage : Storage) (sources : List SourceSpec) (object idx : ℕ) : Except Stop PageSet :=
  match sources[idx]? with
  | none => .error .undefined
  | some spec =>
    match spec.sourceSet with
    | some set => if (storage.setPages set).isSome then .ok (.ofSet object set) else .error .undefined
    | none => if (storage.pageSets spec.pageSet).isSome then .ok (.stored spec.pageSet) else .error .undefined

def getSourceSetArg (sources : List SourceSpec) (idx : ℕ) : Except Stop (Option SetId) :=
  match sources[idx]? with
  | none => .error .undefined
  | some spec => .ok spec.sourceSet

def hasJoinArguments (storage : Storage) (secondarySources : List PageSetId) : Bool :=
  secondarySources.all fun id => (storage.pageSets id).isSome

def readPartition (storage : Storage) (pageSet : PageSet) (workerID : ℕ) : Except Stop ℕ :=
  match pageSet with
  | .ofSet .. => .error .undefined
  | .stored id =>
    match storage.pageSets id with
    | some (.feeding numReaders) => if workerID < numReaders then .ok workerID else .error .undefined
    | _ => .error .undefined

def buildPipeline (storage : Storage) (spec : SourceSpec) (pipelineSource : ℕ) (sourcePageSet : PageSet)
    (sourceSetArg : Option SetId) (workerID : ℕ) : Except Stop Pipeline := do
  let partition ← (if spec.start = .applyJoin then some <$> readPartition storage sourcePageSet workerID else .ok none)
  return {
    pipelineSource := pipelineSource
    firstTupleSet := spec.firstTupleSet
    sourcePageSet := sourcePageSet
    sourceSetArg := sourceSetArg
    swapLHSandRHS := spec.swapLHSandRHS
    workerID := workerID
    partition := partition }

def sourcePageSets (storage : Storage) (sources : List SourceSpec) : Except Stop (List PageSet) :=
  (List.range sources.length).mapM fun i => getSourcePageSet storage sources i i

def setupPipeline (storage : Storage) (a : Algorithm) (pageSets : List PageSet) (pipelineIndex : ℕ) :
    Except Stop Pipeline :=
  let pipelineSource := pipelineIndex % a.sources.length
  match a.sources[pipelineSource]?, pageSets[pipelineSource]? with
  | some spec, some sourcePageSet =>
    if hasJoinArguments storage a.secondarySources then do
      let sourceSetArg ← getSourceSetArg a.sources pipelineSource
      buildPipeline storage spec pipelineSource sourcePageSet sourceSetArg pipelineIndex
    else .error .refused
  | _, _ => .error .undefined

def setupPipelines (storage : Storage) (a : Algorithm) (numPipelines : ℕ) : Except Stop Built := do
  let pageSets ← sourcePageSets storage a.sources
  if storage.numThreads < a.sources.length then .error .refused
  else do
    let pipelines ← (List.range numPipelines).mapM (setupPipeline storage a pageSets)
    return ⟨pipelines, pipelines⟩

def straightPipeSetup (storage : Storage) (_job : Job) (a : Algorithm) : Except Stop Built :=
  setupPipelines storage a storage.numThreads

def shuffleForJoinSetup (storage : Storage) (job : Job) (a : Algorithm) : Except Stop Built :=
  setupPipelines storage a job.numberOfProcessingThreads

def aggregationPipeSetup (storage : Storage) (job : Job) (a : Algorithm) : Except Stop Built :=
  setupPipelines storage a job.numberOfProcessingThreads

def broadcastPipeline (storage : Storage) (a : Algorithm) (pipelineIndex : ℕ) : Except Stop Pipeline :=
  let pipelineSource := pipelineIndex % a.sources.length
  match a.sources[pipelineSource]? with
  | none => .error .undefined
  | some spec => do
    let sourcePageSet ← getSourcePageSet storage a.sources (a.sources.length + pipelineIndex) pipelineIndex
    if hasJoinArguments storage a.secondarySources then do
      let sourceSetArg ← getSourceSetArg a.sources pipelineIndex
      buildPipeline storage spec pipelineSource sourcePageSet sourceSetArg pipelineIndex
    else .error .refused

def broadcastForJoinSetup (storage : Storage) (job : Job) (a : Algorithm) : Except Stop Built := do
  let _ ← sourcePageSets storage a.sources
  if storage.numThreads < a.sources.length then .error .refused
  else do
    let pipelines ← (List.range job.numberOfProcessingThreads).mapM (broadcastPipeline storage a)
    -- each round makes the vector anew before it stores its pipeline
    return ⟨pipelines, pipelines.foldl (fun _ pipeline => [pipeline]) []⟩

inductive AlgorithmType
  | shuffleForJoin
  | broadcastForJoin
  | distributedAggregation
  | straightPipe
  deriving DecidableEq

def setup : AlgorithmType → Storage → Job → Algorithm → Except Stop Built
  | .shuffleForJoin => shuffleForJoinSetup
  | .broadcastForJoin => broadcastForJoinSetup
  | .distributedAggregation => aggregationPipeSetup
  | .straightPipe => straightPipeSetup

def pagesOf (storage : Storage) : PageSet → List ℕ
  | .ofSet _ set => (storage.setPages set).getD []
  | .stored id =>
    match storage.pageSets id with
    | some (.anonymous pages) => pages
    | _ => []

/-- The cursor after `getNextPage` has returned null: `PDBSetPageSet` counts on, `PDBAnonymousPageSet` stays. -/
def cursorAfterNull (pageSet : PageSet) (cursor : ℕ) : ℕ :=
  match pageSet with
  | .ofSet .. => cursor + 1
  | .stored _ => cursor

def queueOf (pipelines : List Pipeline) (p : ℕ) : PageSet :=
  match pipelines[p]? with
  | some pipeline => pipeline.sourcePageSet
  | none => .stored (0, "")

def pipelineRun (storage : Storage) (pipelines : List Pipeline) : Layout PageSet where
  parties := pipelines.length
  queue := queueOf pipelines
  size pageSet := (pagesOf storage pageSet).length
  afterEnd := cursorAfterNull
  size_le_afterEnd q c h := by
    cases q with
    | ofSet => exact Nat.le_succ_of_le h
    | stored => exact h

def SourceSpec.IsReadBy (spec : SourceSpec) (i : ℕ) (pipeline : Pipeline) : Prop :=
  match spec.start with
  | .scanSet _ => pipeline.pipelineSource = i
  | _ => pipeline.sourcePageSet = .stored spec.pageSet

instance (spec : SourceSpec) (i : ℕ) : DecidablePred (spec.IsReadBy i) := by
  intro pipeline
  unfold SourceSpec.IsReadBy
  cases spec.start <;> infer_instance

def SourceSpec.Owns (spec : SourceSpec) (i : ℕ) (pipeline : Pipeline) : Prop :=
  pipeline.pipelineSource = i ∧ pipeline.sourceSetArg = spec.sourceSet

def SourceSpec.pages (spec : SourceSpec) (storage : Storage) : List ℕ :=
  match spec.start with
  | .scanSet set => (storage.setPages set).getD []
  | _ => pagesOf storage (.stored spec.pageSet)

structure CoversOnce (storage : Storage) (job : Job) (sources : List SourceSpec) (b : Built) : Prop where
  kept : b.pipelines = b.built
  pages : ∀ v, (pipelineRun storage b.pipelines).Runs v → (pipelineRun storage b.pipelines).Complete v →
    ∀ i (spec : SourceSpec), sources[i]? = some spec → spec.start ≠ .applyJoin → ∀ k < (spec.pages storage).length,
      ∃ p pipeline, b.pipelines[p]? = some pipeline ∧ spec.Owns i pipeline ∧
        (v.taken.filter fun t => ((b.pipelines[t.1]?).any fun x => spec.IsReadBy i x) ∧ t.2 = k) = [(p, k)]
  partitions : ∀ i (spec : SourceSpec), sources[i]? = some spec → spec.start = .applyJoin →
    ∀ k < job.numberOfProcessingThreads, ∃ pipeline, spec.Owns i pipeline ∧
      (b.pipelines.filter fun x => spec.IsReadBy i x ∧ x.partition = some k) = [pipeline]

structure Ready (storage : Storage) (job : Job) (a : Algorithm) : Prop where
  sets : ∀ spec ∈ a.sources, ∀ set, spec.start = .scanSet set → (storage.setPages set).isSome
  joins : ∀ spec ∈ a.sources, spec.start = .applyJoin →
    storage.pageSets spec.pageSet = some (.feeding job.numberOfProcessingThreads)
  others : ∀ spec ∈ a.sources, spec.start = .other → ∃ pages, storage.pageSets spec.pageSet = some (.anonymous pages)
  secondary : hasJoinArguments storage a.secondarySources = true

def numPipelines (type : AlgorithmType) (storage : Storage) (job : Job) : ℕ :=
  match type with
  | .straightPipe => storage.numThreads
  | _ => job.numberOfProcessingThreads

def Unshared (sources : List SourceSpec) (i : ℕ) (spec : SourceSpec) : Prop :=
  spec.start = .other → ∀ j spec', sources[j]? = some spec' → spec'.start = .other → spec'.pageSet = spec.pageSet → j = i

def EnoughFor (storage : Storage) (job : Job) (sources : List SourceSpec) (n i : ℕ) (spec : SourceSpec) : Prop :=
  if spec.start = .applyJoin then
    (∀ k < job.numberOfProcessingThreads, k < n ∧ k % sources.length = i) ∧
      ∀ k < n, k % sources.length = i → k < job.numberOfProcessingThreads
  else spec.pages storage = [] ∨ (i < n ∧ Unshared sources i spec)

section

variable {storage : Storage} {job : Job} {a : Algorithm} {spec : SourceSpec} {i w n : ℕ}

def SourceSpec.object (spec : SourceSpec) (object : ℕ) : PageSet :=
  match spec.start with
  | .scanSet set => .ofSet object set
  | _ => .stored spec.pageSet

def SourceSpec.pipeline (spec : SourceSpec) (object i w : ℕ) : Pipeline where
  pipelineSource := i
  firstTupleSet := spec.firstTupleSet
  sourcePageSet := spec.object object
  sourceSetArg := spec.sourceSet
  swapLHSandRHS := spec.swapLHSandRHS
  workerID := w
  partition := if spec.start = .applyJoin then some w else none

theorem Ready.getSourcePageSet (h : Ready storage job a) (hi : a.sources[i]? = some spec) (object : ℕ) :
    getSourcePageSet storage a.sources object i = .ok (spec.object object) := by
  have hm := List.mem_of_getElem? hi
  rw [AlgorithmSetup.getSourcePageSet, hi]
  cases hstart : spec.start with
  | scanSet set => simp [SourceSpec.sourceSet, SourceSpec.object, hstart, h.sets spec hm set hstart]
  | applyJoin => simp [SourceSpec.sourceSet, SourceSpec.object, hstart, h.joins spec hm hstart]
  | other =>
    obtain ⟨pages, hp⟩ := h.others spec hm hstart
    simp [SourceSpec.sourceSet, SourceSpec.object, hstart, hp]

theorem Ready.buildPipeline_eq_ok (h : Ready storage job a) (hm : spec ∈ a.sources) (object : ℕ) {x : Pipeline} :
    buildPipeline storage spec i (spec.object object) spec.sourceSet w = .ok x ↔
      (spec.start = .applyJoin → w < job.numberOfProcessingThreads) ∧ x = spec.pipeline object i w := by
  rw [buildPipeline, SourceSpec.pipeline]
  by_cases hstart : spec.start = .applyJoin
  · have hread : readPartition storage (spec.object object) w =
        if w < job.numberOfProcessingThreads then .ok w else .error .undefined := by
      simp [readPartition, SourceSpec.object, hstart, h.joins spec hm hstart]
    rw [if_pos hstart, if_pos hstart, hread]
    by_cases hw : w < job.numberOfProcessingThreads
    · rw [if_pos hw]
      constructor
      · intro he
        cases he
        exact ⟨fun _ => hw, rfl⟩
      · rintro ⟨-, rfl⟩
        rfl
    · rw [if_neg hw]
      constructor
      · intro he
        cases he
      · rintro ⟨hw', -⟩
        exact absurd (hw' hstart) hw
  · rw [if_neg hstart, if_neg hstart, ok_bind]
    constructor
    · intro he
      cases he
      exact ⟨fun hj => absurd hj hstart, rfl⟩
    · rintro ⟨-, rfl⟩
      rfl

theorem Ready.sourcePageSets (h : Ready storage job a) : ∃ pageSets,
    sourcePageSets storage a.sources = .ok pageSets ∧
      ∀ i (spec : SourceSpec), a.sources[i]? = some spec → pageSets[i]? = some (spec.object i) := by
  have hget : ∀ i (hi : i < a.sources.length), AlgorithmSetup.getSourcePageSet storage a.sources i i =
      .ok ((a.sources[i]).object i) := fun i hi =>
    h.getSourcePageSet (List.getElem?_eq_getElem hi) i
  refine ⟨a.sources.mapIdx fun i spec => spec.object i, mapM_eq_ok.mpr ?_, ?_⟩
  · rw [List.forall₂_iff_get]
    refine ⟨by simp, fun i h1 h2 => ?_⟩
    simp only [List.length_range] at h1
    simpa using hget i h1
  · intro i spec hi
    rw [List.getElem?_mapIdx, hi]
    rfl

theorem Ready.setupPipeline_eq_ok (h : Ready storage job a) {pageSets : List PageSet} {x : Pipeline}
    (hp : ∀ i (spec : SourceSpec), a.sources[i]? = some spec → pageSets[i]? = some (spec.object i))
    (hi : a.sources[w % a.sources.length]? = some spec) :
    setupPipeline storage a pageSets w = .ok x ↔
      (spec.start = .applyJoin → w < job.numberOfProcessingThreads) ∧
        x = spec.pipeline (w % a.sources.length) (w % a.sources.length) w := by
  rw [← h.buildPipeline_eq_ok (List.mem_of_getElem? hi)]
  simp only [setupPipeline, hi, hp _ _ hi, h.secondary, if_true, getSourceSetArg, ok_bind]

theorem Ready.broadcastPipeline_eq_ok (h : Ready storage job a) {x : Pipeline} (hi : a.sources[w]? = some spec) :
    broadcastPipeline storage a w = .ok x ↔
      (spec.start = .applyJoin → w < job.numberOfProcessingThreads) ∧
        x = spec.pipeline (a.sources.length + w) w w := by
  obtain ⟨hw, -⟩ := List.getElem?_eq_some_iff.mp hi
  rw [← h.buildPipeline_eq_ok (List.mem_of_getElem? hi)]
  simp only [broadcastPipeline, Nat.mod_eq_of_lt hw, hi, h.getSourcePageSet hi, h.secondary, if_true, getSourceSetArg,
    ok_bind]

structure Shape (job : Job) (sources : List SourceSpec) (base n : ℕ) (pipelines : List Pipeline) : Prop where
  length : pipelines.length = n
  pipeline : ∀ w < n, ∀ spec, sources[w % sources.length]? = some spec →
    pipelines[w]? = some (spec.pipeline (base + w % sources.length) (w % sources.length) w) ∧
      (spec.start = .applyJoin → w < job.numberOfProcessingThreads)

def HasPartitions (job : Job) (sources : List SourceSpec) (n : ℕ) : Prop :=
  ∀ w < n, ∀ spec, sources[w % sources.length]? = some spec → spec.start = .applyJoin →
    w < job.numberOfProcessingThreads

theorem exists_source {sources : List SourceSpec} (hs : sources ≠ []) (w : ℕ) :
    ∃ spec, sources[w % sources.length]? = some spec :=
  ⟨_, List.getElem?_eq_getElem (Nat.mod_lt w (List.length_pos_iff.mpr hs))⟩

theorem loop_eq_ok {sources : List SourceSpec} (hs : sources ≠ []) {base : ℕ} {f : ℕ → Except Stop Pipeline}
    (hf : ∀ w < n, ∀ spec, sources[w % sources.length]? = some spec → ∀ x, f w = .ok x ↔
      (spec.start = .applyJoin → w < job.numberOfProcessingThreads) ∧
        x = spec.pipeline (base + w % sources.length) (w % sources.length) w) {pipelines : List Pipeline} :
    (List.range n).mapM f = .ok pipelines ↔ Shape job sources base n pipelines := by
  rw [mapM_eq_ok, List.forall₂_iff_get]
  simp only [List.length_range, List.get_eq_getElem, List.getElem_range]
  constructor
  · rintro ⟨hlen, hget⟩
    refine ⟨hlen.symm, fun w hw spec hspec => ?_⟩
    obtain ⟨hj, he⟩ := (hf w hw spec hspec _).mp (hget w hw (hlen ▸ hw))
    rw [List.getElem?_eq_getElem (hlen ▸ hw), he]
    exact ⟨rfl, hj⟩
  · intro h
    refine ⟨h.length.symm, fun w hw hw' => ?_⟩
    obtain ⟨spec, hspec⟩ := exists_source hs w
    obtain ⟨he, hj⟩ := h.pipeline w hw spec hspec
    rw [List.getElem?_eq_getElem hw', Option.some.injEq] at he
    exact (hf w hw spec hspec _).mpr ⟨hj, he⟩

theorem HasPartitions.exists_shape {sources : List SourceSpec} (hs : sources ≠ []) (h : HasPartitions job sources n)
    (base : ℕ) : ∃ pipelines, Shape job sources base n pipelines := by
  have hlt : ∀ w, w % sources.length < sources.length := fun w => Nat.mod_lt w (List.length_pos_iff.mpr hs)
  refine ⟨(List.range n).map fun w =>
    (sources.get ⟨w % sources.length, hlt w⟩).pipeline (base + w % sources.length) (w % sources.length) w, by simp, ?_⟩
  intro w hw spec hspec
  obtain ⟨_, rfl⟩ := List.getElem?_eq_some_iff.mp hspec
  exact ⟨by simp [hw], h w hw _ hspec⟩

section

variable {base : ℕ} {pipelines : List Pipeline}

theorem Shape.exists_pipeline (h : Shape job a.sources base n pipelines) (hs : a.sources ≠ []) {x : Pipeline}
    (hx : pipelines[w]? = some x) : w < n ∧ ∃ spec, a.sources[w % a.sources.length]? = some spec ∧
      x = spec.pipeline (base + w % a.sources.length) (w % a.sources.length) w := by
  obtain ⟨hw, -⟩ := List.getElem?_eq_some_iff.mp hx
  rw [h.length] at hw
  obtain ⟨spec, hspec⟩ := exists_source hs w
  obtain ⟨he, -⟩ := h.pipeline w hw spec hspec
  rw [hx, Option.some.injEq] at he
  exact ⟨hw, spec, hspec, he⟩

theorem Shape.reads_iff (h : Shape job a.sources base n pipelines) (hs : a.sources ≠ []) (hr : Ready storage job a)
    (hi : a.sources[i]? = some spec) (hstart : spec.start ≠ .applyJoin) (hu : Unshared a.sources i spec) {x : Pipeline}
    (hx : pipelines[w]? = some x) :
    (x.sourcePageSet = spec.object (base + i) ↔ x.pipelineSource = i) ∧
      (spec.IsReadBy i x ↔ x.sourcePageSet = spec.object (base + i)) := by
  obtain ⟨hw, spec', hspec', rfl⟩ := h.exists_pipeline hs hx
  have hown : w % a.sources.length = i → (spec'.pipeline (base + w % a.sources.length) (w % a.sources.length)
      w).sourcePageSet = spec.object (base + i) := by
    intro he
    rw [he, hi, Option.some.injEq] at hspec'
    rw [he, hspec']
    rfl
  have hback : (spec'.pipeline (base + w % a.sources.length) (w % a.sources.length) w).sourcePageSet =
      spec.object (base + i) → w % a.sources.length = i := by
    intro he
    simp only [SourceSpec.pipeline, SourceSpec.object] at he
    cases hspecStart : spec.start with
    | scanSet set =>
      rw [hspecStart] at he
      cases hspecStart' : spec'.start with
      | scanSet set' =>
        rw [hspecStart'] at he
        injection he
        omega
      | applyJoin =>
        rw [hspecStart'] at he
        cases he
      | other =>
        rw [hspecStart'] at he
        cases he
    | applyJoin => exact absurd hspecStart hstart
    | other =>
      rw [hspecStart] at he
      obtain ⟨pages, hpages⟩ := hr.others spec (List.mem_of_getElem? hi) hspecStart
      cases hspecStart' : spec'.start with
      | scanSet set' =>
        rw [hspecStart'] at he
        cases he
      | applyJoin =>
        rw [hspecStart'] at he
        injection he with he
        have hfeeding := hr.joins spec' (List.mem_of_getElem? hspec') hspecStart'
        rw [he, hpages] at hfeeding
        cases hfeeding
      | other =>
        rw [hspecStart'] at he
        injection he with he
        exact hu hspecStart _ spec' hspec' hspecStart' he
  refine ⟨⟨hback, hown⟩, ?_⟩
  unfold SourceSpec.IsReadBy
  cases hspecStart : spec.start with
  | scanSet set => exact ⟨hown, hback⟩
  | applyJoin => exact absurd hspecStart hstart
  | other =>
    have hobject : spec.object (base + i) = .stored spec.pageSet := by simp [SourceSpec.object, hspecStart]
    rw [hobject]

theorem pagesOf_object (storage : Storage) (spec : SourceSpec) (object : ℕ) :
    pagesOf storage (spec.object object) = spec.pages storage := by
  unfold SourceSpec.pages SourceSpec.object
  cases spec.start <;> rfl

theorem Shape.pages_once (h : Shape job a.sources base n pipelines) (hs : a.sources ≠ []) (hr : Ready storage job a)
    (hi : a.sources[i]? = some spec) (hstart : spec.start ≠ .applyJoin) (hu : Unshared a.sources i spec) (hin : i < n)
    {v : World PageSet} (hv : (pipelineRun storage pipelines).Runs v)
    (hc : (pipelineRun storage pipelines).Complete v) {k : ℕ} (hk : k < (spec.pages storage).length) :
    ∃ p pipeline, pipelines[p]? = some pipeline ∧ spec.Owns i pipeline ∧
      (v.taken.filter fun t => ((pipelines[t.1]?).any fun x => spec.IsReadBy i x) ∧ t.2 = k) = [(p, k)] := by
  obtain ⟨hlt, -⟩ := List.getElem?_eq_some_iff.mp hi
  have hmod : i % a.sources.length = i := Nat.mod_eq_of_lt hlt
  have hqueue : ∀ {p : ℕ} {x : Pipeline}, pipelines[p]? = some x →
      (pipelineRun storage pipelines).queue p = x.sourcePageSet := by
    intro p x hx
    simp [pipelineRun, queueOf, hx]
  -- the pipeline with the index of the source has its page set
  obtain ⟨hpi, -⟩ := h.pipeline i hin spec (by rw [hmod, hi])
  rw [hmod] at hpi
  have hqi : (pipelineRun storage pipelines).queue i = spec.object (base + i) := hqueue hpi
  have hsize : k < (pipelineRun storage pipelines).size ((pipelineRun storage pipelines).queue i) := by
    rw [hqi]
    change k < (pagesOf storage (spec.object (base + i))).length
    rwa [pagesOf_object]
  have hparty : i < (pipelineRun storage pipelines).parties := by
    change i < pipelines.length
    rwa [h.length]
  obtain ⟨p, hp, hqp, htakers⟩ := hv.taken_once hc hparty hsize
  rw [hqi] at hqp htakers
  obtain ⟨x, hx⟩ : ∃ x, pipelines[p]? = some x := ⟨_, List.getElem?_eq_getElem hp⟩
  rw [hqueue hx] at hqp
  have hsource := (h.reads_iff hs hr hi hstart hu hx).1.mp hqp
  refine ⟨p, x, hx, ⟨hsource, ?_⟩, ?_⟩
  · obtain ⟨-, spec', hspec', rfl⟩ := h.exists_pipeline hs hx
    change p % a.sources.length = i at hsource
    rw [hsource, hi, Option.some.injEq] at hspec'
    rw [hspec']
    rfl
  · rw [← htakers, Layout.takers]
    apply List.filter_congr
    intro t ht
    have htp : t.1 < pipelines.length := hv.kept.party t ht
    obtain ⟨y, hy⟩ : ∃ y, pipelines[t.1]? = some y := ⟨_, List.getElem?_eq_getElem htp⟩
    rw [hqueue hy, hy]
    simp [(h.reads_iff hs hr hi hstart hu hy).2]

theorem filter_eq_singleton {β : Type} {q : β → Bool} {l : List β} {j : ℕ} {y : β} (hy : l[j]? = some y)
    (hq : q y = true) (hother : ∀ m z, l[m]? = some z → q z = true → m = j) : l.filter q = [y] := by
  induction l generalizing j with
  | nil => simp at hy
  | cons z l ih =>
    cases j with
    | zero =>
      simp only [List.getElem?_cons_zero, Option.some.injEq] at hy
      subst hy
      have hnil : l.filter q = [] := by
        rw [List.filter_eq_nil_iff]
        intro x hx hqx
        obtain ⟨m, hm⟩ := List.getElem?_of_mem hx
        have := hother (m + 1) x (by simpa using hm) hqx
        omega
      rw [List.filter_cons_of_pos hq, hnil]
    | succ j =>
      have hz : ¬ q z = true := fun hqz => by
        have := hother 0 z rfl hqz
        omega
      rw [List.filter_cons_of_neg hz]
      apply ih (by simpa using hy)
      intro m x hm hqx
      have := hother (m + 1) x (by simpa using hm) hqx
      omega

theorem SourceSpec.partition_pipeline {object k : ℕ} :
    (spec.pipeline object i w).partition = some k ↔ spec.start = .applyJoin ∧ w = k := by
  rw [SourceSpec.pipeline]
  split_ifs with hstart
  · simp [hstart]
  · simp [hstart]

theorem Shape.partition_once_iff (h : Shape job a.sources base n pipelines) (hs : a.sources ≠ [])
    (hi : a.sources[i]? = some spec) (hstart : spec.start = .applyJoin) {k : ℕ} :
    (∃ pipeline, spec.Owns i pipeline ∧
      (pipelines.filter fun x => spec.IsReadBy i x ∧ x.partition = some k) = [pipeline]) ↔
      k < n ∧ k % a.sources.length = i := by
  constructor
  · rintro ⟨x, ⟨hsource, -⟩, hfilter⟩
    have hmem : x ∈ pipelines.filter fun x => spec.IsReadBy i x ∧ x.partition = some k := by
      rw [hfilter]
      exact List.mem_singleton_self x
    rw [List.mem_filter, decide_eq_true_eq] at hmem
    obtain ⟨hmem, -, hpart⟩ := hmem
    obtain ⟨w, hw⟩ := List.getElem?_of_mem hmem
    obtain ⟨hwn, spec', -, rfl⟩ := h.exists_pipeline hs hw
    obtain ⟨-, rfl⟩ := SourceSpec.partition_pipeline.mp hpart
    exact ⟨hwn, hsource⟩
  · rintro ⟨hk, rfl⟩
    obtain ⟨hp, -⟩ := h.pipeline k hk spec hi
    refine ⟨_, ⟨rfl, rfl⟩, filter_eq_singleton hp ?_ ?_⟩
    · rw [decide_eq_true_eq, SourceSpec.partition_pipeline]
      refine ⟨?_, hstart, rfl⟩
      simp [SourceSpec.IsReadBy, SourceSpec.pipeline, SourceSpec.object, hstart]
    · intro m x hm hx
      rw [decide_eq_true_eq] at hx
      obtain ⟨-, spec', -, rfl⟩ := h.exists_pipeline hs hm
      exact (SourceSpec.partition_pipeline.mp hx.2).2

theorem CoversOnce.enough {b : Built} (h : Shape job a.sources base n b.pipelines) (hs : a.sources ≠ [])
    (hcov : CoversOnce storage job a.sources b) (hi : a.sources[i]? = some spec) (hstart : spec.start ≠ .applyJoin)
    (hpages : spec.pages storage ≠ []) : i < n ∧ Unshared a.sources i spec := by
  obtain ⟨v, hv, hc⟩ := (pipelineRun storage b.pipelines).exists_complete
  obtain ⟨p, x, hp, ⟨hsource, -⟩, hfilter⟩ :=
    hcov.pages v hv hc i spec hi hstart 0 (List.length_pos_iff.mpr hpages)
  obtain ⟨hpn, spec₁, hspec₁, rfl⟩ := h.exists_pipeline hs hp
  change p % a.sources.length = i at hsource
  constructor
  · have := Nat.mod_le p a.sources.length
    omega
  · intro hother j spec' hj hother' hid
    have hstart' : spec'.start ≠ .applyJoin := by simp [hother']
    have hpages' : spec'.pages storage = spec.pages storage := by simp [SourceSpec.pages, hother, hother', hid]
    obtain ⟨p', x', hp', ⟨hsource', -⟩, hfilter'⟩ :=
      hcov.pages v hv hc j spec' hj hstart' 0 (List.length_pos_iff.mpr (hpages' ▸ hpages))
    have hsame : spec'.IsReadBy j = spec.IsReadBy i := by
      funext x
      simp [SourceSpec.IsReadBy, hother, hother', hid]
    simp only [hsame] at hfilter'
    rw [hfilter, List.cons.injEq, Prod.mk.injEq] at hfilter'
    obtain ⟨⟨rfl, -⟩, -⟩ := hfilter'
    rw [hp, Option.some.injEq] at hp'
    subst hp'
    rw [← hsource', ← hsource]
    rfl

theorem Shape.coversOnce_iff (h : Shape job a.sources base n pipelines) (hs : a.sources ≠ [])
    (hr : Ready storage job a) : CoversOnce storage job a.sources ⟨pipelines, pipelines⟩ ↔
      ∀ i spec, a.sources[i]? = some spec → EnoughFor storage job a.sources n i spec := by
  constructor
  · intro hcov i spec hi
    rw [EnoughFor]
    split_ifs with hstart
    · refine ⟨fun k hk => (h.partition_once_iff hs hi hstart).mp (hcov.partitions i spec hi hstart k hk), ?_⟩
      rintro k hk rfl
      exact (h.pipeline k hk spec hi).2 hstart
    · by_cases hpages : spec.pages storage = []
      · exact .inl hpages
      · exact .inr (hcov.enough h hs hi hstart hpages)
  · intro henough
    constructor
    · rfl
    · intro v hv hc i spec hi hstart k hk
      have he := henough i spec hi
      rw [EnoughFor, if_neg hstart] at he
      obtain hnil | ⟨hin, hu⟩ := he
      · simp [hnil] at hk
      · exact h.pages_once hs hr hi hstart hu hin hv hc hk
    · intro i spec hi hstart k hk
      have he := henough i spec hi
      rw [EnoughFor, if_pos hstart] at he
      exact (h.partition_once_iff hs hi hstart).mpr (he.1 k hk)

theorem hasPartitions_of_enough
    (h : ∀ i spec, a.sources[i]? = some spec → EnoughFor storage job a.sources n i spec) :
    HasPartitions job a.sources n := by
  intro w hw spec hspec hstart
  have he := h _ spec hspec
  rw [EnoughFor, if_pos hstart] at he
  exact he.2 w hw rfl

theorem setupPipelines_covers_iff (hs : a.sources ≠ []) (ht : a.sources.length ≤ storage.numThreads)
    (hr : Ready storage job a) :
    (∃ b, setupPipelines storage a n = .ok b ∧ CoversOnce storage job a.sources b) ↔
      ∀ i spec, a.sources[i]? = some spec → EnoughFor storage job a.sources n i spec := by
  obtain ⟨pageSets, hsets, hget⟩ := hr.sourcePageSets
  have hloop : ∀ pipelines, (List.range n).mapM (setupPipeline storage a pageSets) = .ok pipelines ↔
      Shape job a.sources 0 n pipelines := by
    intro pipelines
    apply loop_eq_ok hs
    intro w _ spec hspec x
    rw [Nat.zero_add]
    exact hr.setupPipeline_eq_ok hget hspec
  have hsetup : ∀ b, setupPipelines storage a n = .ok b ↔
      ∃ pipelines, Shape job a.sources 0 n pipelines ∧ b = ⟨pipelines, pipelines⟩ := by
    intro b
    rw [setupPipelines, hsets, ok_bind, if_neg (by omega), bind_eq_ok]
    constructor
    · rintro ⟨pipelines, hp, hb⟩
      cases hb
      exact ⟨pipelines, (hloop pipelines).mp hp, rfl⟩
    · rintro ⟨pipelines, hp, rfl⟩
      exact ⟨pipelines, (hloop pipelines).mpr hp, rfl⟩
  constructor
  · rintro ⟨b, hb, hcov⟩
    obtain ⟨pipelines, hp, rfl⟩ := (hsetup b).mp hb
    exact (hp.coversOnce_iff hs hr).mp hcov
  · intro h
    obtain ⟨pipelines, hp⟩ := (hasPartitions_of_enough h).exists_shape hs 0
    exact ⟨_, (hsetup _).mpr ⟨pipelines, hp, rfl⟩, (hp.coversOnce_iff hs hr).mpr h⟩

theorem foldl_eq_self_iff {β : Type} {l : List β} : l.foldl (fun _ x => [x]) [] = l ↔ l.length ≤ 1 := by
  induction l using List.reverseRecOn with
  | nil => simp
  | append_singleton l x ih =>
    rw [List.foldl_append, List.foldl_cons, List.foldl_nil]
    constructor
    · intro h
      rw [← h, List.length_singleton]
    · intro h
      have hnil : l = [] := by
        rw [List.length_append, List.length_singleton] at h
        exact List.length_eq_zero_iff.mp (by omega)
      rw [hnil, List.nil_append]

theorem broadcastForJoin_covers_iff (hs : a.sources ≠ []) (ht : a.sources.length ≤ storage.numThreads)
    (hr : Ready storage job a) :
    (∃ b, broadcastForJoinSetup storage job a = .ok b ∧ CoversOnce storage job a.sources b) ↔
      job.numberOfProcessingThreads ≤ 1 ∧
        ∀ i spec, a.sources[i]? = some spec →
          EnoughFor storage job a.sources job.numberOfProcessingThreads i spec := by
  obtain ⟨pageSets, hsets, -⟩ := hr.sourcePageSets
  have hpos := List.length_pos_iff.mpr hs
  have hsetup : ∀ b, broadcastForJoinSetup storage job a = .ok b ↔
      ∃ pipelines, (List.range job.numberOfProcessingThreads).mapM (broadcastPipeline storage a) = .ok pipelines ∧
        b = ⟨pipelines, pipelines.foldl (fun _ pipeline => [pipeline]) []⟩ := by
    intro b
    rw [broadcastForJoinSetup, hsets, ok_bind, if_neg (by omega), bind_eq_ok]
    constructor
    · rintro ⟨pipelines, hp, hb⟩
      cases hb
      exact ⟨pipelines, hp, rfl⟩
    · rintro ⟨pipelines, hp, rfl⟩
      exact ⟨pipelines, hp, rfl⟩
  -- with one pipeline the index of the pipeline is that of its source
  have hloop : job.numberOfProcessingThreads ≤ 1 → ∀ pipelines,
      (List.range job.numberOfProcessingThreads).mapM (broadcastPipeline storage a) = .ok pipelines ↔
        Shape job a.sources a.sources.length job.numberOfProcessingThreads pipelines := by
    intro hone pipelines
    apply loop_eq_ok hs
    intro w hw spec hspec x
    rw [Nat.mod_eq_of_lt (by omega)] at hspec ⊢
    exact hr.broadcastPipeline_eq_ok hspec
  constructor
  · rintro ⟨b, hb, hcov⟩
    obtain ⟨pipelines, hp, rfl⟩ := (hsetup b).mp hb
    have hlen : job.numberOfProcessingThreads = pipelines.length := by
      have := (mapM_eq_ok.mp hp).length_eq
      rwa [List.length_range] at this
    have hkept : pipelines.foldl (fun _ pipeline => [pipeline]) [] = pipelines := hcov.kept
    have hone : job.numberOfProcessingThreads ≤ 1 := hlen ▸ foldl_eq_self_iff.mp hkept
    rw [hkept] at hcov
    exact ⟨hone, (((hloop hone pipelines).mp hp).coversOnce_iff hs hr).mp hcov⟩
  · rintro ⟨hone, h⟩
    obtain ⟨pipelines, hp⟩ := (hasPartitions_of_enough h).exists_shape hs a.sources.length
    have hkept : pipelines.foldl (fun _ pipeline => [pipeline]) [] = pipelines :=
      foldl_eq_self_iff.mpr (hp.length ▸ hone)
    refine ⟨_, (hsetup _).mpr ⟨pipelines, (hloop hone pipelines).mpr hp, rfl⟩, ?_⟩
    rw [hkept]
    exact (hp.coversOnce_iff hs hr).mpr h

theorem setup_covers_iff (type : AlgorithmType) (storage : Storage) (job : Job) (a : Algorithm) (hs : a.sources ≠ [])
    (ht : a.sources.length ≤ storage.numThreads) (hr : Ready storage job a) :
    (∃ b, setup type storage job a = .ok b ∧ CoversOnce storage job a.sources b) ↔
      (type = .broadcastForJoin → job.numberOfProcessingThreads ≤ 1) ∧
        ∀ i spec, a.sources[i]? = some spec →
          EnoughFor storage job a.sources (numPipelines type storage job) i spec := by
  cases type with
  | shuffleForJoin => simpa using! setupPipelines_covers_iff (n := job.numberOfProcessingThreads) hs ht hr
  | distributedAggregation => simpa using! setupPipelines_covers_iff (n := job.numberOfProcessingThreads) hs ht hr
  | straightPipe => simpa using! setupPipelines_covers_iff (n := storage.numThreads) hs ht hr
  | broadcastForJoin => simpa using! broadcastForJoin_covers_iff hs ht hr

def smallStorage : Storage where
  setPages _ := some [10, 11]
  pageSets _ := some (.feeding 2)
  numThreads := 2

def scan : SourceSpec := ⟨.scanSet ("db", "points"), "scanned", (0, "unused"), false⟩

def joined : SourceSpec := ⟨.applyJoin, "joined", (0, "side"), false⟩

theorem smallStorage_ready {numberOfNodes : ℕ} {sources : List SourceSpec} (h : ∀ spec ∈ sources, spec = scan ∨ spec = joined) :
    Ready smallStorage ⟨numberOfNodes, 2⟩ ⟨sources, []⟩ := by
  constructor
  · intro spec _ set _
    rfl
  · intro spec _ _
    rfl
  · intro spec hm hstart
    obtain rfl | rfl := h spec hm
    · cases hstart
    · cases hstart
  · rfl

theorem setup_covers_join :
    ∃ b, setup .distributedAggregation smallStorage ⟨1, 2⟩ ⟨[joined], []⟩ = .ok b ∧
      CoversOnce smallStorage ⟨1, 2⟩ [joined] b := by
  apply (setup_covers_iff .distributedAggregation smallStorage ⟨1, 2⟩ ⟨[joined], []⟩ (by decide) (by decide)
    (smallStorage_ready (by simp))).mpr
  refine ⟨by decide, fun i spec hi => ?_⟩
  obtain ⟨rfl, rfl⟩ : i = 0 ∧ spec = joined := by
    cases i with
    | zero => exact ⟨rfl, by simpa using hi.symm⟩
    | succ i => simp at hi
  constructor
  · exact fun k hk => ⟨hk, Nat.mod_one k⟩
  · exact fun k hk _ => hk

theorem not_setup_covers :
    (¬ ∃ b, setup .straightPipe smallStorage ⟨1, 2⟩ ⟨[scan, joined], []⟩ = .ok b ∧
      CoversOnce smallStorage ⟨1, 2⟩ [scan, joined] b) ∧
    ¬ ∃ b, setup .broadcastForJoin smallStorage ⟨1, 2⟩ ⟨[scan, scan], []⟩ = .ok b ∧
      CoversOnce smallStorage ⟨1, 2⟩ [scan, scan] b := by
  constructor
  · rintro ⟨b, hb, hcov⟩
    cases hb
    obtain ⟨x, -, hfilter⟩ := hcov.partitions 1 joined rfl rfl 0 (by decide)
    have hlength := congrArg List.length hfilter
    revert hlength
    rw [List.length_singleton]
    decide
  · rintro ⟨b, hb, hcov⟩
    cases hb
    have hkept := congrArg List.length hcov.kept
    revert hkept
    decide

end

end

end PlinyCompute.AlgorithmSetup
