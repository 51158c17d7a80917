import PlinyCompute.OptimizerRounds

namespace PlinyCompute.PhysicalOptimizer

open LogicalPlan PipeBuilder Transition

section

variable (plan : List AtomicComputation)

def IsPath (path : List AtomicComputation) : Prop := path.IsChain fun x y => y ∈ consumers plan x

structure Algorithm.Runs (A : Algorithm) (p : PrimarySource) (path : List AtomicComputation) : Prop where
  source : p ∈ A.primarySources
  head : path.head? = some p.startAtomicComputation
  last : path.getLast? = some A.finalAtomicComputation
  path : IsPath plan path

def Algorithm.Executes (A : Algorithm) (c : AtomicComputation) : Prop :=
  (∃ p path, A.Runs plan p path ∧ c ∈ path) ∨
  ((∃ toSend toRecv, A.type = .aggregationPipe toSend toRecv) ∧ c.role = .agg ∧
    c ∈ consumers plan A.finalAtomicComputation) ∨
  c ∈ A.setsToMaterialize

def Algorithm.secondaryIds (A : Algorithm) : List Text := A.secondarySources.map fun a => a.pageSetIdentifier

def Algorithm.Joins (A : Algorithm) (c : AtomicComputation) : Prop :=
  ∃ l r, [l, r].Perm c.inputNames ∧ r ∈ A.secondaryIds ∧ ∃ p path, A.Runs plan p path ∧
    (p.startAtomicComputation = c ∧ p.source.pageSetIdentifier = l ∨
      ∃ pre h post, path = pre ++ h :: c :: post ∧ h.getOutputName = l)

variable (graph : PipeGraph)

structure Leads (p : PrimarySource) (q : List AtomicComputation) (u : ℕ) : Prop where
  head : (q ++ pipelineOf graph u).head? = some p.startAtomicComputation
  path : IsPath plan (q ++ pipelineOf graph u)

def Carries (s : Nodes) (u : ℕ) (c : AtomicComputation) : Prop :=
  ∃ p ∈ (s u).primarySources, ∃ q, Leads plan graph p q u ∧ c ∈ q ++ pipelineOf graph u

structure Covered (E : List Algorithm) (s : Nodes) (done : Finset ℕ) (cur : Option ℕ) : Prop where
  leads : ∀ u ∉ done, ∀ p ∈ (s u).primarySources, ∃ q, Leads plan graph p q u
  covered : ∀ v ∈ done, ∀ c ∈ pipelineOf graph v, (∃ A ∈ E, A.Executes plan c) ∨
    ∃ u, u ∉ done ∧ (isUnioning graph u = true ∨ cur = some u) ∧ Carries plan graph s u c

def CarriesJoin (s : Nodes) (u : ℕ) (c : AtomicComputation) : Prop :=
  ∃ l r, [l, r].Perm c.inputNames ∧ r ∈ additionalIds (s u) ∧ ∃ p ∈ (s u).primarySources, ∃ q, Leads plan graph p q u ∧
    (p.startAtomicComputation = c ∧ p.source.pageSetIdentifier = l ∨
      ∃ pre h post, q ++ pipelineOf graph u = pre ++ h :: c :: post ∧ h.getOutputName = l)

end

section

variable {plan : List AtomicComputation} {graph : PipeGraph} (L : Layout plan graph)

include L

theorem Passes.edge {s s' : Nodes} {v u : ℕ} (h : Passes graph s v s' u) : ∃ x c, graph.last v = some x ∧
    graph.head u = some c ∧ c ∈ consumers plan x := by
  have huv : u ∈ graph.consumers v := by cases h <;> simp [*]
  obtain ⟨-, x, -, hx, -⟩ := L.ends v (L.bound v u huv).1
  have hr : ∃ c, graph.head u = some c ∧ (c.role = .union ∨ c.role = .join) := by
    cases h with
    | union _ _ _ hu =>
      obtain ⟨c, hc, hr⟩ := exists_head hu
      exact ⟨c, hc, .inl hr⟩
    | join _ _ _ _ _ hj =>
      obtain ⟨c, hc, hr⟩ := exists_head hj
      exact ⟨c, hc, .inr hr⟩
  obtain ⟨c, hc, hr⟩ := hr
  exact ⟨x, c, hx, hc, L.edge v u huv x c hx hc hr⟩

theorem Leads.extend {p : PrimarySource} {q : List AtomicComputation} {v u : ℕ} {x c : AtomicComputation}
    (h : Leads plan graph p q v) (hx : graph.last v = some x) (hc : graph.head u = some c)
    (hxc : c ∈ consumers plan x) : Leads plan graph p (q ++ pipelineOf graph v) u := by
  rw [← getLast?_pipelineOf] at hx
  rw [← head?_pipelineOf] at hc
  constructor
  · rw [List.head?_append, h.head]
    rfl
  · apply List.IsChain.append h.path (L.chain u)
    intro y hy z hz
    rw [List.getLast?_append, hx] at hy
    rw [hc] at hz
    cases hy
    cases hz
    exact hxc

theorem Covered.passes {E : List Algorithm} {s s' : Nodes} {done : Finset ℕ} {v u : ℕ} {cur' : Option ℕ}
    (h : Covered plan graph E s done (some v)) (hpl : Planned graph s done (some v)) (hu : u ∉ insert v done)
    (huv : u ∈ graph.consumers v) (hcur : isUnioning graph u = true ∨ cur' = some u)
    (hedge : ∃ x c, graph.last v = some x ∧ graph.head u = some c ∧ c ∈ consumers plan x)
    (hself : ∀ p, p ∈ (s' u).primarySources ↔ p ∈ (s u).primarySources ∨ p ∈ (s v).primarySources)
    (hother : ∀ w, w ≠ u → (s' w).primarySources = (s w).primarySources) :
    Covered plan graph E s' (insert v done) cur' := by
  obtain ⟨hv, hvd, -, hprim⟩ := hpl.current v rfl
  obtain ⟨x, c, hx, hc, hxc⟩ := hedge
  have hud : u ∉ done := fun hm => hu (Finset.mem_insert_of_mem hm)
  -- what `v` carries is carried by `u`
  have hmove : ∀ {y}, Carries plan graph s v y → Carries plan graph s' u y := by
    rintro y ⟨p, hp, q, hq, hy⟩
    exact ⟨p, (hself p).mpr (.inr hp), _, hq.extend L hx hc hxc, List.mem_append_left _ hy⟩
  constructor
  · intro w hw p hp
    rw [Finset.mem_insert, not_or] at hw
    by_cases hwu : w = u
    · subst hwu
      rcases (hself p).mp hp with hp | hp
      · exact h.leads w hw.2 p hp
      · obtain ⟨q, hq⟩ := h.leads v hvd p hp
        exact ⟨_, hq.extend L hx hc hxc⟩
    · rw [hother w hwu] at hp
      exact h.leads w hw.2 p hp
  · intro w hw y hy
    rcases Finset.mem_insert.mp hw with rfl | hw
    · right
      obtain ⟨p, hp⟩ := List.exists_mem_of_ne_nil _ hprim
      obtain ⟨q, hq⟩ := h.leads w hvd p hp
      exact ⟨u, hu, hcur, hmove ⟨p, hp, q, hq, List.mem_append_right _ hy⟩⟩
    · rcases h.covered w hw y hy with hy | ⟨t, htd, ht, hcar⟩
      · exact .inl hy
      · right
        by_cases htv : t = v
        · subst htv
          exact ⟨u, hu, hcur, hmove hcar⟩
        · by_cases htu : t = u
          · subst htu
            obtain ⟨p, hp, q, hq, hyq⟩ := hcar
            exact ⟨t, hu, hcur, p, (hself p).mpr (.inl hp), q, hq, hyq⟩
          · refine ⟨t, by simp [htv, htd], .inl ?_, ?_⟩
            · rcases ht with ht | ht
              · exact ht
              · cases ht
                exact absurd rfl htv
            · obtain ⟨p, hp, q, hq, hyq⟩ := hcar
              exact ⟨p, by rwa [hother t htu], q, hq, hyq⟩

omit L in
theorem Ending.generated {s s' : Nodes} {extra : Finset ℕ} {w : ℕ} {result : PlanningResult} {A : Algorithm}
    (h : Ending graph s w result s' extra) (hA : result.runMe = some A) :
    A.primarySources = (s w).primarySources ∧ A.secondarySources = (s w).additionalSources ∧
      graph.last w = some A.finalAtomicComputation ∧
      A.sink.pageSetIdentifier = A.finalAtomicComputation.getOutputName ∧
      ∀ x, x ≠ w → (s' x).primarySources = (s x).primarySources := by
  cases h with
  | held => cases hA
  | straight x _ _ hx =>
    cases hA
    exact ⟨rfl, rfl, hx, rfl, fun y hy => by rw [Function.update_of_ne hy]⟩
  | aggregation x _ _ _ hx =>
    cases hA
    refine ⟨rfl, rfl, hx, rfl, fun y hy => ?_⟩
    unfold removeConsumers
    split_ifs <;> simp [Function.update_of_ne hy]
  | broadcast _ _ x _ hx =>
    cases hA
    exact ⟨rfl, rfl, hx, rfl, fun y hy => by simp [broadcastSide, Function.update_of_ne hy]⟩
  | shuffle _ _ x _ hx =>
    cases hA
    exact ⟨rfl, rfl, hx, rfl, fun y hy => by simp [shuffleSide, Function.update_of_ne hy]⟩

theorem Ending.executes_extra {s s' : Nodes} {extra : Finset ℕ} {w : ℕ} {result : PlanningResult} {A : Algorithm}
    (h : Ending graph s w result s' extra) (hA : result.runMe = some A) {x : ℕ} (hx : x ∈ extra)
    {c : AtomicComputation} (hc : c ∈ pipelineOf graph x) : A.Executes plan c := by
  cases h with
  | aggregation y kept removed ht hy hk hm =>
    cases hA
    rw [List.mem_toFinset] at hx
    have hxc : x ∈ graph.consumers w := hk.subset (List.mem_append_right _ hx)
    obtain ⟨⟨x', z⟩, hxz, rfl⟩ := List.mem_map.mp hx
    obtain ⟨-, -, -, -, d, hp, hd⟩ := L.write_of_materialized (hm _ hxz) (L.bound w _ hxc).2
    rw [hp, List.mem_pair] at hc
    rcases hc with rfl | rfl
    · right
      left
      refine ⟨⟨_, _, rfl⟩, hd, ?_⟩
      obtain ⟨-, y', -, hy', -, hshape⟩ := L.ends w (L.bound w _ hxc).1
      rw [hy, Option.some.injEq] at hy'
      subst hy'
      cases hshape with
      | agg _ _ _ _ hh =>
        obtain ⟨d', hd', hdh⟩ := hh _ hxc
        rw [← head?_pipelineOf, hp] at hdh
        cases hdh
        exact hd'
      | write ht' => simp [ht] at ht'
      | union _ ht' => simp [ht] at ht'
      | fork ht' => simp [ht] at ht'
      | side _ _ ht' => simp [ht] at ht'
    · exact .inr (.inr (List.mem_map.mpr ⟨_, hxz, rfl⟩))
  | _ => simp at hx

omit L in
theorem Leads.runs {A : Algorithm} {p : PrimarySource} {q : List AtomicComputation} {w : ℕ}
    (h : Leads plan graph p q w) (hp : p ∈ A.primarySources) (hw : graph.last w = some A.finalAtomicComputation) :
    A.Runs plan p (q ++ pipelineOf graph w) := by
  refine ⟨hp, h.head, ?_, h.path⟩
  rw [← getLast?_pipelineOf] at hw
  rw [List.getLast?_append, hw]
  rfl

theorem Covered.ends {E : List Algorithm} {s s' : Nodes} {done extra : Finset ℕ} {w : ℕ} {result : PlanningResult}
    (h : Covered plan graph E s done (some w)) (hpl : Planned graph s done (some w))
    (he : Ending graph s w result s' extra) :
    Covered plan graph (E ++ result.runMe.toList) s' (insert w done ∪ extra) none := by
  obtain ⟨hw, hwd, -, hprim⟩ := hpl.current w rfl
  cases hA : result.runMe with
  | none =>
    cases he with
    | held u ht hc hu hp =>
      have huw : u ∈ graph.consumers w := by simp [hc]
      have hud : u ∉ insert w done := by
        intro hm
        rcases Finset.mem_insert.mp hm with rfl | hm
        · exact L.ne_of_mem huw rfl
        · exact hwd (hpl.closed u hm w ((L.links w u).mp huw))
      obtain ⟨-, x, -, hx, -⟩ := L.ends w hw
      obtain ⟨c, hc', hr⟩ := exists_head hu
      rw [Finset.union_empty, Option.toList_none, List.append_nil]
      apply h.passes L hpl hud huw (.inl hu) ⟨x, c, hx, hc', L.edge w u huw x c hx hc' (.inl hr)⟩
      · intro p
        rw [pass_primarySources_self, List.mem_append]
      · intro x hx
        rw [pass_of_ne hx]
    | straight => cases hA
    | aggregation => cases hA
    | broadcast => cases hA
    | shuffle => cases hA
  | some A =>
    obtain ⟨hprims, -, hlast, -, hsame⟩ := he.generated hA
    have hcarried : ∀ {c}, Carries plan graph s w c → A.Executes plan c := by
      rintro c ⟨p, hp, q, hq, hc⟩
      exact .inl ⟨p, _, hq.runs (hprims ▸ hp) hlast, hc⟩
    constructor
    · intro u hu p hp
      rw [Finset.mem_union, Finset.mem_insert, not_or, not_or] at hu
      rw [hsame u hu.1.1] at hp
      exact h.leads u hu.1.2 p hp
    · intro v hv c hc
      rw [Finset.mem_union, Finset.mem_insert] at hv
      rcases hv with (rfl | hv) | hv
      · left
        obtain ⟨p, hp⟩ := List.exists_mem_of_ne_nil _ hprim
        obtain ⟨q, hq⟩ := h.leads v hwd p hp
        exact ⟨A, by simp, hcarried ⟨p, hp, q, hq, List.mem_append_right _ hc⟩⟩
      · rcases h.covered v hv c hc with ⟨B, hB, hBc⟩ | ⟨t, htd, ht, hcar⟩
        · exact .inl ⟨B, List.mem_append_left _ hB, hBc⟩
        · by_cases htw : t = w
          · subst htw
            exact .inl ⟨A, by simp, hcarried hcar⟩
          · right
            have hun : isUnioning graph t = true := by
              rcases ht with ht | ht
              · exact ht
              · cases ht
                exact absurd rfl htw
            refine ⟨t, ?_, .inl hun, ?_⟩
            · rw [Finset.mem_union, Finset.mem_insert]
              rintro ((ht | ht) | ht)
              · exact htw ht
              · exact htd ht
              · simp [L.not_union_of_single (he.extra L ht).1] at hun
            · obtain ⟨p, hp, q, hq, hcq⟩ := hcar
              exact ⟨p, by rwa [hsame t htw], q, hq, hcq⟩
      · exact .inl ⟨A, by simp, he.executes_extra L hA hv hc⟩

def JoinsCarried (plan : List AtomicComputation) (graph : PipeGraph) (done₀ : Finset ℕ) (s : Nodes) (done : Finset ℕ)
    (v : ℕ) : Prop :=
  ∀ x ∈ insert v done, x ∉ done₀ → ∀ c, graph.head x = some c → c.role = .join → CarriesJoin plan graph s v c

theorem CarriesJoin.passes {s s' : Nodes} {v u : ℕ} {c : AtomicComputation} (h : CarriesJoin plan graph s v c)
    (hp : Passes graph s v s' u) : CarriesJoin plan graph s' u c := by
  obtain ⟨x, d, hx, hd, hxd⟩ := hp.edge L
  obtain ⟨l, r, hperm, hr, p, hpv, q, hq, hside⟩ := h
  refine ⟨l, r, hperm, ?_, p, ?_, _, hq.extend L hx hd hxd, ?_⟩
  · cases hp with
    | union => simpa [additionalIds] using hr
    | join =>
      simp only [additionalIds, pass_additionalSources_self, addBroadcast_additionalSources_self, List.map_append]
      exact List.mem_append_left _ hr
  · cases hp <;> simp [hpv]
  · rcases hside with hside | ⟨pre, h, post, hpath, hl⟩
    · exact .inl hside
    · exact .inr ⟨pre, h, post ++ pipelineOf graph u, by rw [hpath]; simp, hl⟩

theorem Layout.sides_ne {j a b : ℕ} {c : AtomicComputation}
    (hp : graph.producers j = [a, b] ∨ graph.producers j = [b, a]) (hc : graph.head j = some c) (hr : c.role = .join) :
    a ≠ b := by
  have ha : j ∈ graph.consumers a := (L.links a j).mpr (by rcases hp with hp | hp <;> simp [hp])
  obtain ⟨h, -, hh, -, horigin, -⟩ := L.ends j (L.bound a j ha).2
  rw [hc, Option.some.injEq] at hh
  subst hh
  cases horigin with
  | scan hr' => simp [hr] at hr'
  | copy _ _ hr' => simp [hr] at hr'
  | union _ _ hr' => simp [hr] at hr'
  | join a' b' _ hab hp' =>
    rcases hp with hp | hp
    all_goals
      rw [hp', List.cons.injEq, List.cons.injEq] at hp
      rw [← hp.1, ← hp.2.1]
    · exact hab
    · exact hab.symm

theorem Layout.join_names (wf : WellFormed plan) {j a b : ℕ} {c x y : AtomicComputation}
    (hp : graph.producers j = [a, b] ∨ graph.producers j = [b, a]) (hab : a ≠ b) (hc : graph.head j = some c)
    (hr : c.role = .join) (hx : graph.last a = some x) (hy : graph.last b = some y) :
    [x.getOutputName, y.getOutputName].Perm c.inputNames := by
  have ha : j ∈ graph.consumers a := (L.links a j).mpr (by rcases hp with hp | hp <;> simp [hp])
  have hb : j ∈ graph.consumers b := (L.links b j).mpr (by rcases hp with hp | hp <;> simp [hp])
  have hcx := (mem_consumers.mp (L.edge a j ha x c hx hc (.inr hr))).2
  have hcy := (mem_consumers.mp (L.edge b j hb y c hy hc (.inr hr))).2
  have hmem : ∀ {v z}, graph.last v = some z → z ∈ plan := by
    intro v z hz
    rw [← getLast?_pipelineOf] at hz
    exact L.mem v z (List.mem_of_getLast? hz)
  have hne : x.getOutputName ≠ y.getOutputName := by
    intro he
    have hxy := wf.eq_of_name (hmem hx) (hmem hy) he
    exact hab (L.lasts a b x hx (hxy ▸ hy))
  have hnd : [x.getOutputName, y.getOutputName].Nodup := by simpa using hne
  have hsub : [x.getOutputName, y.getOutputName] ⊆ c.inputNames := by
    intro n hn
    rcases List.mem_pair.mp hn with rfl | rfl
    · exact hcx
    · exact hcy
  exact (List.subperm_of_subset hnd hsub).perm_of_length_le (by simp [length_inputNames_join hr])

theorem JoinsCarried.passes (wf : WellFormed plan) {E : List Algorithm} {done₀ : Finset ℕ} {s s' : Nodes}
    {done : Finset ℕ} {v u : ℕ} (h : JoinsCarried plan graph done₀ s done v) (hcov : Covered plan graph E s done (some v))
    (hpl : Planned graph s done (some v)) (hp : Passes graph s v s' u) :
    JoinsCarried plan graph done₀ s' (insert v done) u := by
  intro x hx hx0 c hc hr
  rcases Finset.mem_insert.mp hx with rfl | hx
  · cases hp with
    | union _ _ _ hu =>
      have := (startsWithRole_iff hc _).mp hu
      simp [hr] at this
    | join _ w y ht hcv hj ho hw hy =>
      obtain ⟨hv, hvd, -, hprim⟩ := hpl.current v rfl
      obtain ⟨-, z, -, hz, -⟩ := L.ends v hv
      obtain ⟨hne, -, -, -, -, hps⟩ := L.other_side hj hcv ho ht
      obtain ⟨p, hpv⟩ := List.exists_mem_of_ne_nil _ hprim
      obtain ⟨q, hq⟩ := hcov.leads v hvd p hpv
      have hedge := L.edge v x (by simp [hcv]) z c hz hc (.inr hr)
      refine ⟨z.getOutputName, y.getOutputName, L.join_names wf hps hne.symm hc hr hz hy, ?_, p, by simp [hpv], _,
        hq.extend L hz hc hedge, .inr ?_⟩
      · simp [additionalIds]
      · -- the join stands behind the last computation of the side
        have hzl : (q ++ pipelineOf graph v).getLast? = some z := by
          rw [← getLast?_pipelineOf] at hz
          rw [List.getLast?_append, hz]
          rfl
        obtain ⟨pre, hpre⟩ := List.getLast?_eq_some_iff.mp hzl
        obtain ⟨post, hpost⟩ := List.head?_eq_some_iff.mp (by rw [head?_pipelineOf, hc])
        exact ⟨pre, z, post, by rw [hpre, hpost, List.append_assoc]; rfl, rfl⟩
  · exact (h x hx hx0 c hc hr).passes L hp

end

end PlinyCompute.PhysicalOptimizer
