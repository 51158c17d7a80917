import PlinyCompute.PhysicalSchedule

namespace PlinyCompute.PhysicalOptimizer

open LogicalPlan PipeBuilder Transition

inductive Misuse
  | pastEnd
  | dangling
  deriving DecidableEq, Repr

/-- The `remove` of a list takes out every element that is equal to the one it is given. -/
def remove (consumer : ℕ) (consumers : List ℕ) : List ℕ := consumers.filter (· ≠ consumer)

theorem length_remove_le (consumer : ℕ) (consumers : List ℕ) : (remove consumer consumers).length ≤ consumers.length :=
  List.length_filter_le _ _

theorem remove_of_notMem {consumer : ℕ} {consumers : List ℕ} (h : consumer ∉ consumers) :
    remove consumer consumers = consumers := by
  apply List.filter_eq_self.mpr
  intro c hc
  have hne : c ≠ consumer := fun he => h (he ▸ hc)
  simpa using hne

section

variable (graph : PipeGraph)

/-- The loop over the consumers, held to what is allowed with an iterator. When a consumer is removed the iterator is
moved twice. -/
def walk (before : List ℕ) : List ℕ → List (ℕ × AtomicComputation) →
    Except Misuse (List ℕ × List (ℕ × AtomicComputation))
  | [], removed => .ok (before, removed)
  | consumer :: after, removed =>
    match materializedBy graph consumer with
    | none => walk (before ++ [consumer]) after removed
    | some writer =>
      match after with
      | [] => .error .pastEnd
      | next :: after =>
        if next = consumer then .error .dangling
        else walk (remove consumer before ++ [next]) (remove consumer after) (removed ++ [(consumer, writer)])
termination_by after _ => after.length
decreasing_by
  · exact Nat.lt_succ_self _
  · have := length_remove_le consumer after
    simp only [List.length_cons]
    omega

def others (consumers : List ℕ) : List ℕ := consumers.filter fun c => materializedBy graph c = none

structure Separated (consumers : List ℕ) : Prop where
  chain : consumers.IsChain fun c next => materializedBy graph c ≠ none → materializedBy graph next = none
  last : ∀ c ∈ consumers.getLast?, materializedBy graph c = none

instance (consumers : List ℕ) : Decidable (Separated graph consumers) :=
  decidable_of_iff ((consumers.IsChain fun c next => materializedBy graph c ≠ none → materializedBy graph next = none) ∧
    ∀ c ∈ consumers.getLast?, materializedBy graph c = none) ⟨fun h => ⟨h.1, h.2⟩, fun h => ⟨h.chain, h.last⟩⟩

def WillReport (v c : ℕ) (sink : SinkPageSetSpec) : Prop :=
  ∀ threshold pageSetCosts t result t', (t v).sinkPageSet = sink → (t c).producers = [v] → hasScanSet graph c = false →
    isJoining graph c = false → generateAlgorithm graph threshold pageSetCosts c t = .ok (result, t') →
    sink.pageSetIdentifier ∈ result.consumedPageSets

structure Split (v : ℕ) (s : Nodes) (result : PlanningResult) (s' : Nodes) (A : Algorithm) : Prop where
  materialized : A.setsToMaterialize = (s v).consumers.filterMap (materializedBy graph)
  kept : (s' v).consumers = others graph (s v).consumers
  newSources : result.newSourceNodes = others graph (s v).consumers
  detached : ∀ c, (s' c).producers = if c ∈ (s v).consumers ∧ materializedBy graph c ≠ none then
    (s c).producers.filter (· ≠ v) else (s c).producers
  sink : (s' v).sinkPageSet = A.sink
  -- `own` is what the algorithm reports itself beside the sources it reads
  registered : ∃ own sent, result.consumedPageSets = own ++ consumedBy (s v) sent ∧
    (∀ id ∈ own, id = A.sink.pageSetIdentifier) ∧ A.sink.pageSetIdentifier ∉ sent ∧
    result.newPageSets.lookup A.sink.pageSetIdentifier = some (own.length + result.newSourceNodes.length)
  reported : ∀ c ∈ result.newSourceNodes, WillReport graph v c A.sink

structure SplitsExactly (v : ℕ) (s : Nodes) : Prop where
  walked : ∃ r, walk graph [] (s v).consumers [] = .ok r
  split : ∃ result s' A, generateAggregationAlgorithm graph v s = .ok (result, s') ∧ result.runMe = some A ∧
    Split graph v s result s' A

end

section

variable {graph : PipeGraph}

theorem walk_none {c : ℕ} (hc : materializedBy graph c = none) (before after : List ℕ)
    (removed : List (ℕ × AtomicComputation)) :
    walk graph before (c :: after) removed = walk graph (before ++ [c]) after removed := by
  rw [walk, hc]

theorem walk_last {c : ℕ} {writer : AtomicComputation} (hc : materializedBy graph c = some writer) (before : List ℕ)
    (removed : List (ℕ × AtomicComputation)) : walk graph before [c] removed = .error .pastEnd := by
  rw [walk, hc]

theorem walk_some {c next : ℕ} {writer : AtomicComputation} {before after : List ℕ}
    (hc : materializedBy graph c = some writer) (hn : (before ++ c :: next :: after).Nodup)
    (removed : List (ℕ × AtomicComputation)) :
    walk graph before (c :: next :: after) removed =
      walk graph (before ++ [next]) after (removed ++ [(c, writer)]) := by
  obtain ⟨-, hca, hba⟩ := List.nodup_append.mp hn
  obtain ⟨hca, -⟩ := List.nodup_cons.mp hca
  rw [List.mem_cons, not_or] at hca
  have hcb : c ∉ before := fun hm => hba c hm c (by simp) rfl
  rw [walk, hc]
  dsimp only
  rw [if_neg (Ne.symm hca.1), remove_of_notMem hcb, remove_of_notMem hca.2]

def writing (graph : PipeGraph) (consumers : List ℕ) : List (ℕ × AtomicComputation) :=
  consumers.filterMap fun c => (materializedBy graph c).map (c, ·)

theorem others_cons (c : ℕ) (consumers : List ℕ) : others graph (c :: consumers) =
    (if materializedBy graph c = none then [c] else []) ++ others graph consumers := by
  unfold others
  rw [List.filter_cons]
  by_cases hc : materializedBy graph c = none <;> simp [hc]

theorem writing_cons (c : ℕ) (consumers : List ℕ) : writing graph (c :: consumers) =
    ((materializedBy graph c).map (c, ·)).toList ++ writing graph consumers := by
  unfold writing
  rw [List.filterMap_cons]
  cases materializedBy graph c <;> rfl

theorem map_fst_writing (consumers : List ℕ) :
    (writing graph consumers).map Prod.fst = consumers.filter fun c => materializedBy graph c ≠ none := by
  induction consumers with
  | nil => rfl
  | cons c consumers ih =>
    rw [writing_cons, List.map_append, ih, List.filter_cons]
    cases materializedBy graph c <;> simp

theorem map_snd_writing (consumers : List ℕ) :
    (writing graph consumers).map Prod.snd = consumers.filterMap (materializedBy graph) := by
  unfold writing
  rw [List.map_filterMap]
  congr 1
  funext c
  cases materializedBy graph c <;> rfl

theorem separated_cons_cons {c next : ℕ} {after : List ℕ} : Separated graph (c :: next :: after) ↔
    (materializedBy graph c ≠ none → materializedBy graph next = none) ∧ Separated graph (next :: after) := by
  constructor
  · intro h
    obtain ⟨hc, hchain⟩ := List.isChain_cons_cons.mp h.chain
    exact ⟨hc, hchain, by simpa using h.last⟩
  · rintro ⟨hc, h⟩
    exact ⟨List.isChain_cons_cons.mpr ⟨hc, h.chain⟩, by simpa using h.last⟩

theorem separated_singleton {c : ℕ} : Separated graph [c] ↔ materializedBy graph c = none := by
  constructor
  · exact fun h => h.last c (by simp)
  · exact fun h => ⟨List.isChain_singleton c, by simpa using h⟩

theorem separated_of_none {c : ℕ} {after : List ℕ} (hc : materializedBy graph c = none) :
    Separated graph (c :: after) ↔ Separated graph after := by
  cases after with
  | nil => exact ⟨fun _ => ⟨.nil, by simp⟩, fun _ => separated_singleton.mpr hc⟩
  | cons next after =>
    rw [separated_cons_cons]
    exact ⟨fun h => h.2, fun h => ⟨fun hn => absurd hc hn, h⟩⟩

theorem walk_of_separated {after : List ℕ} (hs : Separated graph after) (before : List ℕ)
    (hn : (before ++ after).Nodup) (removed : List (ℕ × AtomicComputation)) :
    walk graph before after removed = .ok (before ++ others graph after, removed ++ writing graph after) := by
  induction after using List.twoStepInduction generalizing before removed with
  | nil =>
    rw [walk]
    simp [others, writing]
  | singleton c =>
    have hc := separated_singleton.mp hs
    rw [walk_none hc, walk]
    simp [others, writing, hc]
  | cons_cons c next after ih ih' =>
    obtain ⟨hnext, hs'⟩ := separated_cons_cons.mp hs
    cases hc : materializedBy graph c with
    | none =>
      rw [walk_none hc, ih' next hs' (before ++ [c]) (by simpa using hn)]
      rw [others_cons c, writing_cons c, if_pos hc, hc]
      simp
    | some writer =>
      have hnone := hnext (by simp [hc])
      rw [walk_some hc hn, ih ((separated_of_none hnone).mp hs') (before ++ [next])
        (hn.sublist (by simp))]
      rw [others_cons c, others_cons next, writing_cons c, writing_cons next, if_neg (by simp [hc]), if_pos hnone, hc, hnone]
      simp

theorem mem_of_walk {before after : List ℕ} {removed : List (ℕ × AtomicComputation)}
    {r : List ℕ × List (ℕ × AtomicComputation)} (hn : (before ++ after).Nodup) (h : walk graph before after removed = .ok r)
    {x : ℕ} (hx : x ∈ before) : x ∈ r.1 := by
  induction after using List.twoStepInduction generalizing before removed with
  | nil =>
    rw [walk] at h
    cases h
    exact hx
  | singleton c =>
    cases hc : materializedBy graph c with
    | none =>
      rw [walk_none hc, walk] at h
      cases h
      exact List.mem_append_left _ hx
    | some writer =>
      rw [walk_last hc] at h
      cases h
  | cons_cons c next after ih ih' =>
    cases hc : materializedBy graph c with
    | none =>
      rw [walk_none hc] at h
      exact ih' next (by simpa using hn) h (List.mem_append_left _ hx)
    | some writer =>
      rw [walk_some hc hn] at h
      exact ih (hn.sublist (by simp)) h (List.mem_append_left _ hx)

theorem separated_of_walk {before after : List ℕ} {removed : List (ℕ × AtomicComputation)}
    {r : List ℕ × List (ℕ × AtomicComputation)} (hn : (before ++ after).Nodup) (h : walk graph before after removed = .ok r)
    (hr : ∀ x ∈ after, x ∈ r.1 → materializedBy graph x = none) : Separated graph after := by
  induction after using List.twoStepInduction generalizing before removed with
  | nil => exact ⟨.nil, by simp⟩
  | singleton c =>
    cases hc : materializedBy graph c with
    | none => exact separated_singleton.mpr hc
    | some writer =>
      rw [walk_last hc] at h
      cases h
  | cons_cons c next after ih ih' =>
    cases hc : materializedBy graph c with
    | none =>
      rw [walk_none hc] at h
      rw [separated_of_none hc]
      exact ih' next (by simpa using hn) h fun x hx => hr x (List.mem_cons_of_mem _ hx)
    | some writer =>
      rw [walk_some hc hn] at h
      have hn' : (before ++ [next] ++ after).Nodup := hn.sublist (by simp)
      -- the iterator has passed the next consumer without looking at it
      have hnone : materializedBy graph next = none := hr next (by simp) (mem_of_walk hn' h (by simp))
      rw [separated_cons_cons, separated_of_none hnone]
      exact ⟨fun _ => hnone, ih hn' h fun x hx => hr x (by simp [hx])⟩

theorem materialize_of_walk {before after : List ℕ} {removed : List (ℕ × AtomicComputation)}
    {r : List ℕ × List (ℕ × AtomicComputation)} (hn : (before ++ after).Nodup) (h : walk graph before after removed = .ok r)
    {n : ℕ} (hlt : after.length < n) : materialize graph n before after removed = .ok r := by
  induction after using List.twoStepInduction generalizing before removed n with
  | nil =>
    obtain ⟨m, rfl⟩ : ∃ m, n = m + 1 := ⟨n - 1, by omega⟩
    rw [walk] at h
    cases h
    rfl
  | singleton c =>
    obtain ⟨m, rfl⟩ : ∃ m, n = m + 2 := ⟨n - 2, by simp only [List.length_singleton] at hlt; omega⟩
    cases hc : materializedBy graph c with
    | none =>
      rw [walk_none hc, walk] at h
      cases h
      simp [materialize, hc]
    | some writer =>
      rw [walk_last hc] at h
      cases h
  | cons_cons c next after ih ih' =>
    obtain ⟨m, rfl⟩ : ∃ m, n = m + 1 := ⟨n - 1, by simp only [List.length_cons] at hlt; omega⟩
    simp only [List.length_cons] at hlt
    cases hc : materializedBy graph c with
    | none =>
      rw [walk_none hc] at h
      have := ih' next (by simpa using hn) h (n := m) (by simp only [List.length_cons]; omega)
      simpa only [materialize, hc] using this
    | some writer =>
      rw [walk_some hc hn] at h
      have := ih (hn.sublist (by simp)) h (n := m) (by omega)
      simpa only [materialize, hc] using this

theorem primaryIds_subset_consumedBy (mine : NodeState) (others : List Text) :
    primaryIds mine ⊆ consumedBy mine others := by
  intro id hid
  simp [consumedBy, hid]

theorem reports_of_generate {threshold : ℕ} {pageSetCosts : Text → Option ℕ} {n c : ℕ} {s s' : Nodes}
    {result : PlanningResult} (h : generateAlgorithmFor graph threshold pageSetCosts n c s = .ok (result, s')) :
    primaryIds (s c) ⊆ result.consumedPageSets := by
  induction n generalizing c s with
  | zero => cases h
  | succ n ih =>
    have hpiped : ∀ {u : ℕ} {s : Nodes},
        generatePipelinedAlgorithm graph (generateAlgorithmFor graph threshold pageSetCosts n) u c s = .ok (result, s') →
          primaryIds (s c) ⊆ result.consumedPageSets := by
      intro u s h
      by_cases hu : isUnioning graph u = true ∧ (s u).primarySources = []
      · unfold generatePipelinedAlgorithm at h
        rw [if_pos hu] at h
        cases h
        exact List.Subset.refl _
      · rw [generatePipelinedAlgorithm_eq hu] at h
        refine List.Subset.trans ?_ (ih h)
        rw [primaryIds, primaryIds, pass_primarySources_self, List.map_append]
        exact List.subset_append_right _ _
    rw [generateAlgorithmFor] at h
    split at h
    · cases h
    · unfold generateStraightAlgorithm at h
      split at h
      · exact hpiped h
      · obtain ⟨last, -, h⟩ := bind_eq_ok.mp h
        obtain ⟨writers, -, h⟩ := bind_eq_ok.mp h
        cases h
        exact primaryIds_subset_consumedBy _ _
    · obtain ⟨last, -, h⟩ := bind_eq_ok.mp h
      obtain ⟨⟨consumers, removed⟩, -, h⟩ := bind_eq_ok.mp h
      cases h
      dsimp only
      split_ifs
      · exact List.subset_cons_of_subset _ (primaryIds_subset_consumedBy _ _)
      · exact primaryIds_subset_consumedBy _ _
    · unfold generateJoinSideAlgorithm at h
      split_ifs at h
      split at h
      · cases h
      · next otherSide ho =>
        split_ifs at h
        · obtain ⟨otherLast, -, h⟩ := bind_eq_ok.mp h
          dsimp only at h
          split at h
          · have := hpiped h
            simpa [primaryIds] using this
          · cases h
        · obtain ⟨last, -, h⟩ := bind_eq_ok.mp h
          obtain ⟨cost, -, h⟩ := bind_eq_ok.mp h
          split_ifs at h
          all_goals
            cases h
            exact primaryIds_subset_consumedBy _ _

theorem willReport {v c : ℕ} {sink : SinkPageSetSpec} : WillReport graph v c sink := by
  intro threshold pageSetCosts t result t' hsink hprod hscan hjoin h
  obtain ⟨mine, hmine, h⟩ := bind_eq_ok.mp h
  apply reports_of_generate h
  rw [Function.update_self]
  obtain ⟨start, -, hmine⟩ := bind_eq_ok.mp hmine
  rw [if_neg (by simp [hjoin])] at hmine
  obtain ⟨source, hsource, hmine⟩ := bind_eq_ok.mp hmine
  cases hmine
  rw [getSourcePageSet, if_neg (by simp [hscan]), if_neg (by simp [hjoin]), hprod] at hsource
  obtain ⟨type, -, hsource⟩ := bind_eq_ok.mp hsource
  cases hsource
  simp [primaryIds, hsink]

theorem generateAggregationAlgorithm_of_walk {v : ℕ} {s : Nodes} {x : AtomicComputation} (hx : graph.last v = some x)
    (hn : (s v).consumers.Nodup) {r : List ℕ × List (ℕ × AtomicComputation)}
    (hr : walk graph [] (s v).consumers [] = .ok r) :
    ∃ own, own = (if r.1 = [] then [x.getOutputName] else []) ∧ generateAggregationAlgorithm graph v s =
      .ok (⟨.generatedAlgorithm, some ⟨.aggregationPipe ⟨.aggShuffleSink, x.getOutputName ++ hashedToSend⟩
            ⟨.shuffledAggregatesSource, x.getOutputName ++ hashedToRecv⟩, (s v).primarySources, x,
          ⟨.aggregationSink, x.getOutputName⟩, (s v).additionalSources, r.2.map Prod.snd⟩, r.1,
          own ++ consumedBy (s v) [x.getOutputName ++ hashedToSend, x.getOutputName ++ hashedToRecv],
          [(x.getOutputName, own.length + r.1.length), (x.getOutputName ++ hashedToSend, 1),
            (x.getOutputName ++ hashedToRecv, 1)]⟩,
        removeConsumers v (r.2.map Prod.fst)
          (Function.update s v { s v with consumers := r.1, sinkPageSet := ⟨.aggregationSink, x.getOutputName⟩ })) := by
  have hrun : materialize graph (((s v).consumers.length + 1) * ((s v).consumers.length + 1)) [] (s v).consumers [] =
      .ok r := by
    apply materialize_of_walk (by simpa using hn) hr
    rw [Nat.add_mul, Nat.mul_add]
    omega
  refine ⟨_, rfl, ?_⟩
  rw [generateAggregationAlgorithm, back_eq hx, ok_bind]
  dsimp only
  rw [hrun, ok_bind]
  by_cases hnil : r.1 = []
  · simp only [hnil, if_pos, List.length_singleton, List.length_nil, List.singleton_append]
    rfl
  · simp only [hnil, if_false, List.length_nil, List.nil_append, Nat.zero_add]
    rfl

theorem splitsExactly_iff (v : ℕ) (s : Nodes) (x : AtomicComputation) (hx : graph.last v = some x)
    (hn : (s v).consumers.Nodup) : SplitsExactly graph v s ↔ Separated graph (s v).consumers := by
  constructor
  · rintro ⟨⟨r, hr⟩, result, s', A, hrun, -, hsplit⟩
    obtain ⟨own, -, hgen⟩ := generateAggregationAlgorithm_of_walk hx hn hr
    rw [hgen] at hrun
    cases hrun
    apply separated_of_walk (by simpa using hn) hr
    intro c _ hc
    have hkept : r.1 = others graph (s v).consumers := hsplit.newSources
    rw [hkept] at hc
    simpa using List.of_mem_filter hc
  · intro hs
    have hr := walk_of_separated hs [] (by simpa using hn) []
    rw [List.nil_append, List.nil_append] at hr
    obtain ⟨own, hown, hgen⟩ := generateAggregationAlgorithm_of_walk hx hn hr
    refine ⟨⟨_, hr⟩, _, _, _, hgen, rfl, ?_⟩
    constructor
    · exact map_snd_writing _
    · unfold removeConsumers
      split_ifs <;> simp
    · rfl
    · intro c
      unfold removeConsumers
      rw [map_fst_writing]
      by_cases hc : c ∈ (s v).consumers ∧ materializedBy graph c ≠ none
      · rw [if_pos hc, if_pos (by simpa using hc)]
        by_cases hcv : c = v <;> simp [hcv]
      · rw [if_neg hc, if_neg (by simpa using hc)]
        by_cases hcv : c = v <;> simp [hcv]
    · unfold removeConsumers
      split_ifs <;> simp
    · refine ⟨own, _, rfl, ?_, ?_, by simp⟩
      · intro id hid
        rw [hown] at hid
        split_ifs at hid
        · exact List.mem_singleton.mp hid
        · cases hid
      · have hsend : hashedToSend ≠ [] := by decide
        have hrecv : hashedToRecv ≠ [] := by decide
        intro hm
        rcases List.mem_pair.mp hm with hm | hm
        · exact hsend (List.self_eq_append_right.mp hm)
        · exact hrecv (List.self_eq_append_right.mp hm)
    · exact fun c _ => willReport

end

def aggregatePlan (filtered : Bool) : List AtomicComputation :=
  [scanOf "A" "a", step "sums" "A" .applyAgg, step "out" "sums" (.writeSet [] [])] ++
    if filtered then [step "large" "sums" .applyFilter, step "outLarge" "large" (.writeSet [] [])] else []

def unplanned (graph : PipeGraph) : Nodes :=
  fun v => ⟨graph.consumers v, graph.producers v, ⟨.noSink, []⟩, [], [], .notProcessed⟩

theorem splitsExactly_aggregatePlan : ∃ graph, generateAnalyzerGraph (aggregatePlan true) = .ok graph ∧
    typeOf graph 0 = some .aggregation ∧ (unplanned graph 0).consumers.Nodup ∧
    (SplitsExactly graph 0 (unplanned graph) ↔ Separated graph (graph.consumers 0)) ∧
    Separated graph (graph.consumers 0) := by
  have hrun : (match generateAnalyzerGraph (aggregatePlan true) with
      | .ok graph => decide (typeOf graph 0 = some .aggregation ∧ graph.last 0 = some (scanOf "A" "a") ∧
          (graph.consumers 0).Nodup ∧ Separated graph (graph.consumers 0))
      | .error _ => false) = true := by decide +kernel
  cases hg : generateAnalyzerGraph (aggregatePlan true) with
  | error e => simp [hg] at hrun
  | ok graph =>
    rw [hg] at hrun
    obtain ⟨ht, hx, hn, hs⟩ := of_decide_eq_true hrun
    exact ⟨graph, rfl, ht, hn, splitsExactly_iff 0 (unplanned graph) _ hx hn, hs⟩

theorem not_splitsExactly_aggregatePlan : ∃ graph, generateAnalyzerGraph (aggregatePlan false) = .ok graph ∧
    typeOf graph 0 = some .aggregation ∧ walk graph [] ((unplanned graph) 0).consumers [] = .error .pastEnd ∧
    ¬ SplitsExactly graph 0 (unplanned graph) := by
  have hrun : (match generateAnalyzerGraph (aggregatePlan false) with
      | .ok graph => decide (typeOf graph 0 = some .aggregation ∧ graph.consumers 0 = [1] ∧
          materializedBy graph 1 ≠ none)
      | .error _ => false) = true := by decide +kernel
  cases hg : generateAnalyzerGraph (aggregatePlan false) with
  | error e => simp [hg] at hrun
  | ok graph =>
    rw [hg] at hrun
    obtain ⟨ht, hc, hm⟩ := of_decide_eq_true hrun
    obtain ⟨writer, hw⟩ := Option.ne_none_iff_exists'.mp hm
    have hwalk : walk graph [] (unplanned graph 0).consumers [] = .error .pastEnd := by
      change walk graph [] (graph.consumers 0) [] = _
      rw [hc, walk_last hw]
    refine ⟨graph, rfl, ht, hwalk, ?_⟩
    rintro ⟨⟨r, hr⟩, -⟩
    rw [hwalk] at hr
    cases hr

end PlinyCompute.PhysicalOptimizer
