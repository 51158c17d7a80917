import PlinyCompute.ScheduleSound

namespace PlinyCompute.PhysicalOptimizer

open LogicalPlan PipeBuilder Transition

section

variable {plan : List AtomicComputation} {graph : PipeGraph}

theorem addSources_spec (setSize : Text × Text → ℕ) (vs : List ℕ) (o : Optimizer)
    (hvs : ∀ v ∈ vs, ∃ h, graph.head v = some h) :
    ((vs.foldl (addSource graph setSize) o).sources.map Prod.snd).Perm (vs ++ o.sources.map Prod.snd) ∧
      (vs.foldl (addSource graph setSize) o).nodes = o.nodes ∧
      (vs.foldl (addSource graph setSize) o).activePageSets = o.activePageSets ∧
      (vs.foldl (addSource graph setSize) o).pageSetsToRemove = o.pageSetsToRemove ∧
      ∀ id, o.pageSetCosts id ≠ none ∨ (∃ v ∈ vs, ∃ h, graph.head v = some h ∧ h.getOutputName = id) →
        (vs.foldl (addSource graph setSize) o).pageSetCosts id ≠ none := by
  induction vs generalizing o with
  | nil => exact ⟨.refl _, rfl, rfl, rfl, by simp⟩
  | cons v vs ih =>
    obtain ⟨h, hh⟩ := hvs v (by simp)
    have hstep : addSource graph setSize o v = { o with
        sources := insertSource (setSize (scannedSet h)) v o.sources
        pageSetCosts := Function.update o.pageSetCosts h.getOutputName (some (setSize (scannedSet h))) } := by
      rw [addSource, head?_pipelineOf, hh]
    obtain ⟨h1, h2, h3, h4, h5⟩ := ih (addSource graph setSize o v) fun u hu => hvs u (List.mem_cons_of_mem _ hu)
    rw [List.foldl_cons]
    refine ⟨h1.trans ?_, by rw [h2, hstep], by rw [h3, hstep], by rw [h4, hstep], ?_⟩
    · rw [hstep]
      exact (((insertSource_perm _ v o.sources).map Prod.snd).append_left vs).trans List.perm_middle
    · intro id hid
      apply h5
      rw [hstep]
      dsimp only
      by_cases he : id = h.getOutputName
      · subst he
        simp
      · rw [Function.update_of_ne he]
        rcases hid with hid | ⟨u, hu, h', hh', hid⟩
        · exact .inl hid
        · rcases List.mem_cons.mp hu with rfl | hu
          · rw [hh, Option.some.injEq] at hh'
            exact absurd (hh' ▸ hid.symm) he
          · exact .inr ⟨u, hu, h', hh', hid⟩

theorem create_scheduled (L : Layout plan graph) (setSize : Text × Text → ℕ) :
    Scheduled graph (Optimizer.create graph setSize) ∅ ∧
      (∀ v, ((Optimizer.create graph setSize).nodes v).primarySources = []) ∧
      (Optimizer.create graph setSize).activePageSets = [] ∧ (Optimizer.create graph setSize).pageSetsToRemove = [] := by
  have hheads : ∀ v ∈ graph.sources, ∃ h, graph.head v = some h := by
    intro v hv
    obtain ⟨h, hh, -⟩ := exists_head ((L.sources v).mp hv).2
    exact ⟨h, hh⟩
  obtain ⟨hperm, hnodes, hactive, hremove, hcosts⟩ := addSources_spec setSize graph.sources
    { nodes := fun v => ⟨graph.consumers v, graph.producers v, ⟨.noSink, []⟩, [], [], .notProcessed⟩
      sources := []
      pageSetCosts := fun _ => none
      activePageSets := []
      pageSetsToRemove := [] } hheads
  change ((Optimizer.create graph setSize).sources.map Prod.snd).Perm _ at hperm
  change (Optimizer.create graph setSize).nodes = _ at hnodes
  rw [List.map_nil, List.append_nil] at hperm
  refine ⟨⟨?_, hperm.nodup_iff.mpr L.sourcesNodup, ?_, ?_, by simp, ?_⟩, by simp [hnodes], hactive, hremove⟩
  · rw [hnodes]
    constructor
    · simp
    · simp
    · simp
    · simp
    · simp
    · intro u _ _ hlt hun
      obtain ⟨h, -, hh, -, horigin, -⟩ := L.ends u hlt
      have hr := (startsWithRole_iff hh _).mp hun
      cases horigin with
      | scan hs => simp [hr] at hs
      | copy _ _ hs => simp [hr] at hs
      | join _ _ hs => simp [hr] at hs
      | union a b _ _ hp => exact ⟨a, by simp [hp], by simp⟩
    · simp
    · simp
    · simp
    · simp
  · intro v
    rw [hperm.mem_iff, L.sources]
    constructor
    · rintro ⟨hv, hs⟩
      refine ⟨hv, by simp, ?_⟩
      obtain ⟨h, -, hh, -, horigin, -⟩ := L.ends v hv
      have hr := (startsWithRole_iff hh _).mp hs
      cases horigin with
      | scan _ hp => simp [hp]
      | copy _ _ hs => simp [hr] at hs
      | join _ _ hs => simp [hr] at hs
      | union _ _ hs => simp [hr] at hs
    · rintro ⟨hv, -, hready⟩
      refine ⟨hv, ?_⟩
      obtain ⟨h, -, hh, -, horigin, -⟩ := L.ends v hv
      cases horigin with
      | scan hs => exact (startsWithRole_iff hh _).mpr hs
      | copy p _ _ hp => simpa using hready p (by simp [hp])
      | join a _ _ _ hp => simpa using hready a (by simp [hp])
      | union a _ _ _ hp => simpa using hready a (by simp [hp])
  · intro v h hh hr
    apply hcosts
    right
    refine ⟨v, (L.sources v).mpr ⟨?_, (startsWithRole_iff hh _).mpr hr⟩, h, hh, rfl⟩
    obtain ⟨node, hn, -⟩ := Option.bind_eq_some_iff.mp hh
    exact (List.getElem?_eq_some_iff.mp hn).1
  · intro v _ p hp
    rw [hnodes] at hp
    cases hp

theorem CostsKnown.mono {costs costs' : Text → Option ℕ} {s : Nodes} {done : Finset ℕ}
    (h : CostsKnown graph costs s done) (hc : ∀ id, costs id ≠ none → costs' id ≠ none) :
    CostsKnown graph costs' s done :=
  ⟨fun v c hh hr => hc _ (h.scans v c hh hr), fun v hv x hx hs => hc _ (h.sinks v hv x hx hs),
    fun v hv p hp => hc _ (h.sources v hv p hp)⟩

theorem Scheduled.updatePageSet {o : Optimizer} {done : Finset ℕ} (h : Scheduled graph o done) (id : Text) (n : ℕ) :
    Scheduled graph (o.updatePageSet id n) done := by
  refine ⟨h.planned, h.nodup, h.ready, h.costs.mono ?_⟩
  intro i hi
  by_cases he : i = id
  · subst he
    simp [Optimizer.updatePageSet]
  · simpa [Optimizer.updatePageSet, Function.update_of_ne he] using hi

theorem foldl_zero_ne_none (l : List Text) (costs : Text → Option ℕ) (id : Text) (h : costs id ≠ none) :
    l.foldl (fun (costs : Text → Option ℕ) i => Function.update costs i (some 0)) costs id ≠ none := by
  induction l generalizing costs with
  | nil => exact h
  | cons i l ih =>
    apply ih
    by_cases he : id = i
    · subst he
      simp
    · dsimp only
      rwa [Function.update_of_ne he]

theorem Scheduled.getPageSetsToRemove {o : Optimizer} {done : Finset ℕ} (h : Scheduled graph o done) :
    Scheduled graph o.getPageSetsToRemove.2 done :=
  ⟨h.planned, h.nodup, h.ready, h.costs.mono fun _ hi => foldl_zero_ne_none _ _ _ hi⟩

end

def algorithms (events : List Event) : List Algorithm :=
  events.filterMap fun
    | .returned algorithm => algorithm
    | .removed _ => none

def Guard (graph : PipeGraph) (threshold : ℕ) (cond : Optimizer → Prop) (call : Call) (w : Session) : Prop :=
  match call with
  | .getNextAlgorithm => w.optimizer.hasAlgorithmToRun = true ∧
      EachRound graph threshold cond (graph.nodes.length + 1) w.optimizer
  | _ => True

def Begins (graph : PipeGraph) (w : Session) : Prop :=
  ∃ setSize : Text × Text → ℕ, w = ⟨Optimizer.create graph setSize, []⟩

structure SoundSchedule (plan : List AtomicComputation) (graph : PipeGraph) (threshold : ℕ) (w : Session) : Prop where
  progress : w.optimizer.hasAlgorithmToRun = true →
    ∃ A o, w.step graph threshold .getNextAlgorithm = .ok ⟨o, w.events ++ [.returned (some A)]⟩
  notNull : .returned none ∉ w.events
  bounded : (algorithms w.events).length ≤ graph.nodes.length
  reads : ∀ pre A post, w.events = pre ++ .returned (some A) :: post →
    (∀ p ∈ A.primarySources, Readable (algorithms pre) p) ∧
      ∀ a ∈ A.secondarySources, ∃ B ∈ algorithms pre, B.sink.pageSetIdentifier = a.pageSetIdentifier
  executed : w.optimizer.hasAlgorithmToRun = false → ∀ c ∈ plan, ∃ A ∈ algorithms w.events, A.Executes plan c
  written : w.optimizer.hasAlgorithmToRun = false → ∀ c ∈ plan, c.role = .write →
    ((algorithms w.events).flatMap Algorithm.setsToMaterialize).count c = 1
  joined : w.optimizer.hasAlgorithmToRun = false → ∀ c ∈ plan, c.role = .join →
    ∃ A ∈ algorithms w.events, A.Joins plan c

def checkRounds (graph : PipeGraph) (threshold : ℕ) (check : Optimizer → Bool) : ℕ → Optimizer → Bool
  | 0, _ => true
  | n + 1, o => check o &&
    match PhysicalOptimizer.planSource graph threshold o with
    | .ok (result, o') => if result.resultType = .unionedPipeline then checkRounds graph threshold check n o' else true
    | .error _ => true

theorem eachRound_of_check {graph : PipeGraph} {threshold : ℕ} {cond : Optimizer → Prop} {check : Optimizer → Bool}
    (hcheck : ∀ o, check o = true → cond o) (n : ℕ) (o : Optimizer) (h : checkRounds graph threshold check n o = true) :
    EachRound graph threshold cond n o := by
  induction n generalizing o with
  | zero => trivial
  | succ n ih =>
    rw [checkRounds, Bool.and_eq_true] at h
    refine ⟨hcheck o h.1, ?_⟩
    intro result o' hrun hr
    apply ih
    have h2 := h.2
    rw [hrun] at h2
    simpa [hr] using h2

theorem eachRound_true (graph : PipeGraph) (threshold n : ℕ) (o : Optimizer) :
    EachRound graph threshold (fun _ => True) n o := by
  induction n generalizing o with
  | zero => trivial
  | succ n ih => exact ⟨trivial, fun _ o' _ _ => ih o'⟩

def checkGuard (graph : PipeGraph) (threshold : ℕ) (check : Optimizer → Bool) (call : Call) (w : Session) : Bool :=
  match call with
  | .getNextAlgorithm => w.optimizer.hasAlgorithmToRun && checkRounds graph threshold check (graph.nodes.length + 1) w.optimizer
  | _ => true

theorem guard_of_check {graph : PipeGraph} {threshold : ℕ} {cond : Optimizer → Prop} {check : Optimizer → Bool}
    (hcheck : ∀ o, check o = true → cond o) (call : Call) (w : Session)
    (h : checkGuard graph threshold check call w = true) : Guard graph threshold cond call w := by
  cases call with
  | getNextAlgorithm =>
    rw [checkGuard, Bool.and_eq_true] at h
    exact ⟨h.1, eachRound_of_check hcheck _ _ h.2⟩
  | getPageSetsToRemove => trivial
  | updatePageSet => trivial

section

variable {plan : List AtomicComputation} {graph : PipeGraph}

theorem create_sound (setSize : Text × Text → ℕ)
    (hnil : ∀ v, ((Optimizer.create graph setSize).nodes v).primarySources = []) :
    Sound plan graph [] (Optimizer.create graph setSize) ∅ := by
  constructor
  · constructor
    · intro u _ p hp
      simp [hnil] at hp
    · simp
  · constructor
    · intro u _ p hp
      simp [hnil] at hp
    · intro v hv
      cases hv
    · simp
  · intro v x _ _
    simp
  · intro x hx
    simp at hx

theorem Round.runMe_of_held {o o' : Optimizer} {done done' : Finset ℕ} {result : PlanningResult}
    (h : Round graph o done result o' done') (hr : result.resultType = .unionedPipeline) : result.runMe = none := by
  cases h with
  | mk _ _ _ _ _ _ hend =>
    cases hend with
    | held => rfl
    | straight => cases hr
    | aggregation => cases hr
    | broadcast => cases hr
    | shuffle => cases hr

structure Progressing (plan : List AtomicComputation) (graph : PipeGraph) (w : Session) (done : Finset ℕ) : Prop where
  scheduled : Scheduled graph w.optimizer done
  sound : Sound plan graph (algorithms w.events) w.optimizer done
  bounded : (algorithms w.events).length ≤ done.card
  notNull : .returned none ∉ w.events
  reads : ∀ pre A post, w.events = pre ++ .returned (some A) :: post →
    (∀ p ∈ A.primarySources, Readable (algorithms pre) p) ∧
      ∀ a ∈ A.secondarySources, ∃ B ∈ algorithms pre, B.sink.pageSetIdentifier = a.pageSetIdentifier

theorem algorithms_append (events events' : List Event) :
    algorithms (events ++ events') = algorithms events ++ algorithms events' := by
  simp [algorithms]

theorem split_append_singleton {α : Type} {l pre post : List α} {x y : α} (h : l ++ [x] = pre ++ y :: post) :
    (pre = l ∧ y = x) ∨ ∃ post', l = pre ++ y :: post' := by
  rcases List.eq_nil_or_concat post with rfl | ⟨post', z, rfl⟩
  · obtain ⟨h1, h2⟩ := List.append_inj' h rfl
    cases h2
    exact .inl ⟨h1.symm, rfl⟩
  · right
    rw [List.concat_eq_append, ← List.cons_append, ← List.append_assoc] at h
    exact ⟨post', (List.append_inj' h rfl).1⟩

theorem Progressing.round (L : Layout plan graph) (wf : WellFormed plan) {P : Optimizer → Finset ℕ → Prop}
    {threshold : ℕ} {w w' : Session} {done : Finset ℕ} (h : Progressing plan graph w done) (hinv : P w.optimizer done)
    (hheld : ∀ o done result o' done', Scheduled graph o done → Sound plan graph (algorithms w.events) o done →
      P o done → NoJoinHeldBack graph o → Round graph o done result o' done' →
      result.resultType = .unionedPipeline → P o' done')
    (hg : Guard graph threshold (NoJoinHeldBack graph) .getNextAlgorithm w)
    (hstep : w.step graph threshold .getNextAlgorithm = .ok w') :
    ∃ o₁ done₁ result A done', Scheduled graph o₁ done₁ ∧ Sound plan graph (algorithms w.events) o₁ done₁ ∧
      P o₁ done₁ ∧ Round graph o₁ done₁ result w'.optimizer done' ∧ result.resultType = .generatedAlgorithm ∧
      result.runMe = some A ∧ w'.events = w.events ++ [.returned (some A)] ∧ Progressing plan graph w' done' := by
  obtain ⟨hhas, hrounds⟩ := hg
  have hne : w.optimizer.sources ≠ [] := by simpa [Optimizer.hasAlgorithmToRun] using hhas
  have hboth : ∀ o done result o' done', Scheduled graph o done →
      Sound plan graph (algorithms w.events) o done ∧ P o done → NoJoinHeldBack graph o →
      Round graph o done result o' done' → result.resultType = .unionedPipeline →
      Sound plan graph (algorithms w.events) o' done' ∧ P o' done' := by
    rintro o done result o' done' hs ⟨hi, hv⟩ hno hround hr
    have hi' := (hround.sound L wf hs hi fun _ => hno).1
    rw [hround.runMe_of_held hr, Option.toList_none, List.append_nil] at hi'
    exact ⟨hi', hheld o done result o' done' hs hi hv hno hround hr⟩
  obtain ⟨o₁, done₁, result, A, o', done', hs₁, ⟨hi₁, hv₁⟩, hno, hround, hle, hgen, hA, hrun⟩ :=
    h.scheduled.getNextAlgorithm L hboth (graph.nodes.length + 1) ⟨h.sound, hinv⟩ hrounds hne (by omega)
  obtain ⟨hs', hcard⟩ := hround.scheduled L hs₁
  obtain ⟨hi', hreads⟩ := hround.sound L wf hs₁ hi₁ fun _ => hno
  rw [Session.step, hrun] at hstep
  cases hstep
  have hevents : algorithms (w.events ++ [.returned (some A)]) = algorithms w.events ++ [A] := by
    rw [algorithms_append]
    rfl
  refine ⟨o₁, done₁, result, A, done', hs₁, hi₁, hv₁, hround, hgen, hA, rfl, hs', ?_, ?_, ?_, ?_⟩
  · rw [hevents]
    rw [hA] at hi'
    exact hi'
  · have := h.bounded
    rw [hevents, List.length_append, List.length_singleton]
    omega
  · simpa using h.notNull
  · intro pre B post he
    rcases split_append_singleton he with ⟨rfl, hB⟩ | ⟨post', he⟩
    · cases hB
      exact hreads A hA
    · exact h.reads pre B post' he

theorem Progressing.getNextAlgorithm (L : Layout plan graph) (wf : WellFormed plan) {threshold : ℕ} {w w' : Session}
    {done : Finset ℕ} (h : Progressing plan graph w done)
    (hg : Guard graph threshold (NoJoinHeldBack graph) .getNextAlgorithm w)
    (hstep : w.step graph threshold .getNextAlgorithm = .ok w') : ∃ done', Progressing plan graph w' done' := by
  obtain ⟨-, -, -, -, done', -, -, -, -, -, -, -, h'⟩ :=
    h.round L wf (P := fun _ _ => True) trivial (fun _ _ _ _ _ _ _ _ _ _ _ => trivial) hg hstep
  exact ⟨done', h'⟩

theorem Progressing.getPageSetsToRemove {w : Session} {done : Finset ℕ} (h : Progressing plan graph w done) :
    Progressing plan graph
      ⟨w.optimizer.getPageSetsToRemove.2, w.events ++ [.removed w.optimizer.getPageSetsToRemove.1]⟩ done := by
  have hevents : algorithms (w.events ++ [.removed w.optimizer.getPageSetsToRemove.1]) = algorithms w.events := by
    rw [algorithms_append]
    exact List.append_nil _
  refine ⟨h.scheduled.getPageSetsToRemove, ?_, ?_, ?_, ?_⟩
  · rw [hevents]
    exact ⟨h.sound.covered, h.sound.fed, h.sound.materialized, h.sound.joins⟩
  · rw [hevents]
    exact h.bounded
  · simpa using h.notNull
  · intro pre A post he
    rcases split_append_singleton he with ⟨-, hA⟩ | ⟨post', he⟩
    · cases hA
    · exact h.reads pre A post' he

theorem Progressing.updatePageSet {w : Session} {done : Finset ℕ} (h : Progressing plan graph w done) (id : Text)
    (size : ℕ) : Progressing plan graph ⟨w.optimizer.updatePageSet id size, w.events⟩ done :=
  ⟨h.scheduled.updatePageSet id size, ⟨h.sound.covered, h.sound.fed, h.sound.materialized, h.sound.joins⟩, h.bounded,
    h.notNull, h.reads⟩

theorem Progressing.step (L : Layout plan graph) (wf : WellFormed plan) {threshold : ℕ} {call : Call} {w w' : Session}
    {done : Finset ℕ} (h : Progressing plan graph w done) (hg : Guard graph threshold (NoJoinHeldBack graph) call w)
    (hstep : w.step graph threshold call = .ok w') : ∃ done', Progressing plan graph w' done' := by
  cases call with
  | getNextAlgorithm => exact h.getNextAlgorithm L wf hg hstep
  | getPageSetsToRemove =>
    cases hstep
    exact ⟨done, h.getPageSetsToRemove⟩
  | updatePageSet id size =>
    cases hstep
    exact ⟨done, h.updatePageSet id size⟩

theorem lt_of_head {v : ℕ} {c : AtomicComputation} (hc : graph.head v = some c) :
    v < graph.nodes.length := by
  obtain ⟨node, hn, -⟩ := Option.bind_eq_some_iff.mp hc
  exact (List.getElem?_eq_some_iff.mp hn).1

theorem Layout.last_of_write (L : Layout plan graph) (wf : WellFormed plan) {v : ℕ} {c : AtomicComputation}
    (hc : c ∈ pipelineOf graph v) (hr : c.role = .write) : graph.last v = some c := by
  obtain ⟨pre, post, hp⟩ := List.append_of_mem hc
  cases post with
  | nil => rw [← getLast?_pipelineOf, hp, List.getLast?_concat]
  | cons d post =>
    have hchain := L.chain v
    rw [hp, List.isChain_append] at hchain
    have hd := (List.isChain_cons_cons.mp hchain.2.1).1
    rw [(wf.writes c (L.mem v c hc)).mpr hr] at hd
    cases hd

theorem Progressing.soundSchedule (L : Layout plan graph) (wf : WellFormed plan) (threshold : ℕ) {w : Session}
    {done : Finset ℕ} (h : Progressing plan graph w done) : SoundSchedule plan graph threshold w := by
  have hall : w.optimizer.hasAlgorithmToRun = false → ∀ v < graph.nodes.length, v ∈ done := by
    intro hno
    apply h.scheduled.all_done L
    simpa [Optimizer.hasAlgorithmToRun] using hno
  constructor
  · intro hhas
    have hne : w.optimizer.sources ≠ [] := by simpa [Optimizer.hasAlgorithmToRun] using hhas
    obtain ⟨o₁, done₁, result, A, o', done', -, -, -, -, -, -, -, hrun⟩ :=
      h.scheduled.getNextAlgorithm L (fun _ _ _ _ _ _ _ _ _ _ => trivial)
        (graph.nodes.length + 1) trivial (eachRound_true _ _ _ _) hne (by omega)
    refine ⟨A, o', ?_⟩
    rw [Session.step, hrun]
    rfl
  · exact h.notNull
  · have hsub : done ⊆ Finset.range graph.nodes.length := fun x hx => Finset.mem_range.mpr (h.scheduled.planned.lt x hx)
    have hcard := Finset.card_le_card hsub
    rw [Finset.card_range] at hcard
    exact h.bounded.trans hcard
  · exact h.reads
  · intro hno c hc
    obtain ⟨v, hv, hcv⟩ := L.cover c hc
    rcases h.sound.covered.covered v (hall hno v hv) c hcv with hA | ⟨u, hu, hun, -⟩
    · exact hA
    · have hun' : isUnioning graph u = true := by simpa using hun
      obtain ⟨d, hd, -⟩ := exists_head hun'
      exact absurd (hall hno u (lt_of_head hd)) hu
  · intro hno c hc hr
    obtain ⟨v, hv, hcv⟩ := L.cover c hc
    rw [h.sound.materialized v c (L.last_of_write wf hcv hr) hr, if_pos (hall hno v hv)]
  · intro hno c hc hr
    obtain ⟨v, hv, hhead⟩ := L.joins c hc hr
    exact h.sound.joins v (hall hno v hv) c hhead hr

end

theorem soundSchedule_of_reachable (plan : List AtomicComputation) (wf : WellFormed plan) (hf : ForksCleanly plan) :
    ∃ graph, generateAnalyzerGraph plan = .ok graph ∧ ∀ threshold w,
      Reachable (Session.step graph threshold) (Guard graph threshold (NoJoinHeldBack graph)) (Begins graph) w →
        SoundSchedule plan graph threshold w := by
  obtain ⟨graph, hgraph, L⟩ := exists_layout wf hf
  refine ⟨graph, hgraph, ?_⟩
  intro threshold w hw
  have hstart : ∀ w, Begins graph w → ∃ done, Progressing plan graph w done := by
    rintro w ⟨setSize, rfl⟩
    obtain ⟨hs, hnil, -, -⟩ := create_scheduled L setSize
    exact ⟨∅, hs, create_sound setSize hnil, by simp [algorithms], by simp, by simp⟩
  obtain ⟨done, h⟩ := hw.invariant hstart fun call w w' ⟨done, h⟩ hg hstep => h.step L wf hg hstep
  exact h.soundSchedule L wf threshold

def scanOf (output set : String) : AtomicComputation :=
  step output "Empty" (.scanSet ([], set.toList) (0, []))

def joinUnionPlan : List AtomicComputation :=
  [scanOf "A" "a", scanOf "B" "b", scanOf "C" "c", step "hashA" "A" (.hashLeft []), step "hashB" "B" (.hashRight []),
    step "joined" "hashA" (.applyJoin ⟨"hashB".toList, []⟩ ⟨"hashB".toList, []⟩),
    step "both" "joined" (.union ⟨"C".toList, []⟩), step "out" "both" (.writeSet [] [])]

theorem wellFormed_joinUnion : WellFormed joinUnionPlan := wellFormed_of_check (by decide +kernel)

theorem forksCleanly_joinUnion : ForksCleanly joinUnionPlan := by decide +kernel

def sessionOf (plan : List AtomicComputation) (setSize : Text × Text → ℕ) (threshold : ℕ) (check : PipeGraph → Optimizer → Bool)
    (calls : List Call) : Option (PipeGraph × Session) :=
  match generateAnalyzerGraph plan with
  | .error _ => none
  | .ok graph => (runAll (Session.step graph threshold) (checkGuard graph threshold (check graph)) calls
      ⟨Optimizer.create graph setSize, []⟩).map fun w => (graph, w)

theorem reachable_of_sessionOf {plan : List AtomicComputation} {setSize : Text × Text → ℕ} {threshold : ℕ}
    {check : PipeGraph → Optimizer → Bool} (cond : PipeGraph → Optimizer → Prop) {calls : List Call} {graph : PipeGraph}
    {w : Session} (hcheck : ∀ o, check graph o = true → cond graph o)
    (h : sessionOf plan setSize threshold check calls = some (graph, w)) :
    generateAnalyzerGraph plan = .ok graph ∧
      Reachable (Session.step graph threshold) (Guard graph threshold (cond graph)) (Begins graph) w := by
  unfold sessionOf at h
  cases hg : generateAnalyzerGraph plan with
  | error e =>
    rw [hg] at h
    cases h
  | ok graph' =>
    rw [hg] at h
    obtain ⟨w', hrun, he⟩ := Option.map_eq_some_iff.mp h
    cases he
    exact ⟨rfl, .of_runAll (guard_of_check hcheck) (.start ⟨setSize, rfl⟩) hrun⟩

def joinHeldBack (graph : PipeGraph) (o : Optimizer) : Bool :=
  match o.sources.head? with
  | none => false
  | some x => ((heldBack graph o.nodes (graph.nodes.length + 1) x.2).getD []).any fun v => isJoining graph v

theorem noJoinHeldBack_of_check {graph : PipeGraph} (o : Optimizer) (h : (!joinHeldBack graph o) = true) :
    NoJoinHeldBack graph o := by
  intro x hx route hroute v hv
  rw [joinHeldBack, Option.mem_def.mp hx] at h
  dsimp only at h
  rw [Option.mem_def.mp hroute] at h
  simp only [Option.getD_some, Bool.not_eq_true', List.any_eq_false] at h
  simpa using h v hv

theorem soundSchedule_joinUnion : ∃ graph w, generateAnalyzerGraph joinUnionPlan = .ok graph ∧
    Reachable (Session.step graph 0) (Guard graph 0 (NoJoinHeldBack graph)) (Begins graph) w ∧
    w.optimizer.hasAlgorithmToRun = false ∧ SoundSchedule joinUnionPlan graph 0 w := by
  have hrun : (sessionOf joinUnionPlan (fun set => if set.2 = "c".toList then 1 else 10) 0
      (fun graph o => !joinHeldBack graph o) (List.replicate 3 .getNextAlgorithm)).map
      (fun r => r.2.optimizer.hasAlgorithmToRun) = some false := by decide +kernel
  obtain ⟨⟨graph, w⟩, hsome, hend⟩ := Option.map_eq_some_iff.mp hrun
  obtain ⟨hg, hw⟩ := reachable_of_sessionOf NoJoinHeldBack noJoinHeldBack_of_check hsome
  obtain ⟨graph', hg', hall⟩ := soundSchedule_of_reachable joinUnionPlan wellFormed_joinUnion forksCleanly_joinUnion
  rw [hg, Except.ok.injEq] at hg'
  subst hg'
  exact ⟨graph, w, hg, hw, hend, hall 0 w hw⟩

theorem not_soundSchedule_joinUnion : WellFormed joinUnionPlan ∧ ForksCleanly joinUnionPlan ∧
    ∃ graph w, generateAnalyzerGraph joinUnionPlan = .ok graph ∧
      Reachable (Session.step graph 0) (Guard graph 0 fun _ => True) (Begins graph) w ∧
      w.optimizer.hasAlgorithmToRun = false ∧ (algorithms w.events).flatMap Algorithm.secondaryIds = [] ∧
      ¬ SoundSchedule joinUnionPlan graph 0 w := by
  refine ⟨wellFormed_joinUnion, forksCleanly_joinUnion, ?_⟩
  have hrun : (sessionOf joinUnionPlan (fun set => if set.2 = "c".toList then 10 else 1) 0
      (fun _ _ => true) (List.replicate 3 .getNextAlgorithm)).map
      (fun r => (r.2.optimizer.hasAlgorithmToRun, (algorithms r.2.events).flatMap Algorithm.secondaryIds)) =
        some (false, []) := by decide +kernel
  obtain ⟨⟨graph, w⟩, hsome, hend⟩ := Option.map_eq_some_iff.mp hrun
  obtain ⟨hno, hids⟩ := Prod.mk.injEq .. ▸ hend
  obtain ⟨hg, hw⟩ := reachable_of_sessionOf (fun _ _ => True) (fun _ _ => trivial) hsome
  refine ⟨graph, w, hg, hw, hno, hids, ?_⟩
  intro h
  obtain ⟨A, hA, l, r, -, hr, -⟩ := h.joined hno (step "joined" "hashA" (.applyJoin ⟨"hashB".toList, []⟩ ⟨"hashB".toList, []⟩))
    (by decide +kernel) rfl
  have hm : r ∈ (algorithms w.events).flatMap Algorithm.secondaryIds := List.mem_flatMap.mpr ⟨A, hA, hr⟩
  rw [hids] at hm
  cases hm

end PlinyCompute.PhysicalOptimizer
