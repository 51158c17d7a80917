import PlinyCompute.PhysicalSchedule

namespace PlinyCompute.PhysicalOptimizer

open LogicalPlan PipeBuilder Transition Relation

section

variable (graph : PipeGraph) (E : List Algorithm)

def Stored (v : ℕ) : Prop := ∃ x, graph.last v = some x ∧ ∃ B ∈ E, B.sink.pageSetIdentifier = x.getOutputName

def Feeds (v u : ℕ) : Prop := u ∈ graph.consumers v ∧ ¬ Stored graph E v

structure Pipeline (A : Algorithm) (p : PrimarySource) (pipes : List ℕ) : Prop where
  source : p ∈ A.primarySources
  start : ∃ v, pipes.head? = some v ∧ graph.head v = some p.startAtomicComputation
  final : ∃ w, pipes.getLast? = some w ∧ graph.last w = some A.finalAtomicComputation
  chain : pipes.IsChain (Feeds graph E)

def HasBroadcast (sources : List SourcePageSetSpec) (v : ℕ) : Prop :=
  ∃ w x, graph.otherSide v = some w ∧ graph.last w = some x ∧ ⟨.broadcastJoinSource, x.getOutputName⟩ ∈ sources

def HasRightSide (sources : List SourcePageSetSpec) (p : PrimarySource) : Prop :=
  ∀ rightInput, getRightInput p.startAtomicComputation = .ok rightInput →
    ∃ r, ⟨.shuffledJoinTuplesSource, r⟩ ∈ sources ∧
      [p.source.pageSetIdentifier, r].Perm p.startAtomicComputation.inputNames ∧
      (p.shouldSwapLeftAndRight = true ↔ p.source.pageSetIdentifier = rightInput.setName)

structure KnowsPartners (A : Algorithm) : Prop where
  pipelines : ∀ p ∈ A.primarySources, ∃ pipes, Pipeline graph E A p pipes
  broadcast : ∀ p pre v j post, Pipeline graph E A p (pre ++ v :: j :: post) → isJoining graph j = true →
    HasBroadcast graph A.secondarySources v
  shuffled : ∀ p ∈ A.primarySources, HasRightSide A.secondarySources p

abbrev Upstream : ℕ → ℕ → Prop := ReflTransGen (Feeds graph E)

def Comes (p : PrimarySource) (v : ℕ) : Prop :=
  ∃ u, graph.head u = some p.startAtomicComputation ∧ Upstream graph E u v

structure Waits (s : Nodes) (done : Finset ℕ) (cur : Option ℕ) : Prop where
  stored : ∀ v, Stored graph E v → v ∈ done
  joinFree : ∀ u ∉ done, some u ≠ cur → isUnioning graph u = true → ∀ y ∈ graph.producers u, y ∈ done →
    ∀ j, Upstream graph E j y → isJoining graph j = false
  led : ∀ u ∉ done, some u ≠ cur → isUnioning graph u = true → ∀ p ∈ (s u).primarySources,
    ∃ y ∈ done, Feeds graph E y u ∧ Comes graph E p y

structure Gathers (done₀ : Finset ℕ) (s : Nodes) (v : ℕ) : Prop where
  fresh : ∀ j, Upstream graph E j v → isJoining graph j = true → j ∉ done₀
  led : ∀ p ∈ (s v).primarySources, Comes graph E p v
  broadcast : ∀ j a, Upstream graph E j v → isJoining graph j = true → Feeds graph E a j →
    HasBroadcast graph (s v).additionalSources a
  shuffled : ∀ p ∈ (s v).primarySources, HasRightSide (s v).additionalSources p

end

section

variable {plan : List AtomicComputation} {graph : PipeGraph} {E : List Algorithm}

theorem HasRightSide.of_role {sources : List SourcePageSetSpec} {p : PrimarySource}
    (h : p.startAtomicComputation.role ≠ .join) : HasRightSide sources p := by
  intro rightInput hright
  unfold getRightInput at hright
  split at hright
  · next hk => exact absurd (by rw [AtomicComputation.role, hk]) h
  · cases hright

theorem HasRightSide.mono {sources sources' : List SourcePageSetSpec} {p : PrimarySource} (h : HasRightSide sources p)
    (hs : sources ⊆ sources') : HasRightSide sources' p := by
  intro rightInput hright
  obtain ⟨r, hr, hrest⟩ := h rightInput hright
  exact ⟨r, hs hr, hrest⟩

theorem HasBroadcast.mono {sources sources' : List SourcePageSetSpec} {v : ℕ} (h : HasBroadcast graph sources v)
    (hs : sources ⊆ sources') : HasBroadcast graph sources' v := by
  obtain ⟨w, x, ho, hx, hm⟩ := h
  exact ⟨w, x, ho, hx, hs hm⟩

theorem Comes.role_ne {p : PrimarySource} {v : ℕ} (h : Comes graph E p v)
    (hv : ∀ j, Upstream graph E j v → isJoining graph j = false) : p.startAtomicComputation.role ≠ .join := by
  obtain ⟨u, hu, huv⟩ := h
  intro hr
  have hj : isJoining graph u = true := (startsWithRole_iff hu _).mpr hr
  simp [hv u huv] at hj

theorem upstream_cases {j u : ℕ} (h : Upstream graph E j u) : j = u ∨ ∃ y, Upstream graph E j y ∧ Feeds graph E y u := by
  rcases ReflTransGen.cases_tail h with h | ⟨y, hy, hyu⟩
  · exact .inl h.symm
  · exact .inr ⟨y, hy, hyu⟩

variable (L : Layout plan graph)

include L

theorem Upstream.mem {s : Nodes} {done : Finset ℕ} {v j : ℕ} (h : Upstream graph E j v)
    (hpl : Planned graph s done (some v)) : j ∈ insert v done := by
  induction h using ReflTransGen.head_induction_on with
  | refl => exact Finset.mem_insert_self _ _
  | @head a b hab _ ih =>
    have ha := (L.links a b).mp hab.1
    apply Finset.mem_insert_of_mem
    rcases Finset.mem_insert.mp ih with rfl | hb
    · exact (hpl.current b rfl).2.2.1 a ha
    · exact hpl.closed b hb a ha

theorem Gathers.start (wf : WellFormed plan) {s : Nodes} {done : Finset ℕ} {v : ℕ} {ps : List PrimarySource}
    {as : List SourcePageSetSpec} (hload : Loads graph v ps as) (hpl : Planned graph s done none)
    (hfed : Fed graph E s done none) (hvd : v ∉ done) (hready : ∀ p ∈ graph.producers v, p ∈ done) :
    Gathers graph E done (Function.update s v { s v with primarySources := ps, additionalSources := as }) v := by
  have hsink := hload.sinks L hpl hvd hready
  have hnone : ∀ y, ¬ Feeds graph E y v := by
    rintro y ⟨hyv, hns⟩
    have hy := (L.links y v).mp hyv
    obtain ⟨-, x, -, hx, -⟩ := L.ends y (L.bound y v hyv).1
    exact hns ⟨x, hx, hfed.sinks y (hready y hy) (hsink y hy) x hx⟩
  have honly : ∀ j, Upstream graph E j v → j = v := by
    intro j hj
    rcases upstream_cases hj with hj | ⟨y, -, hy⟩
    · exact hj
    · exact absurd hy (hnone y)
  have hnot : ∀ {c : AtomicComputation} {p : PrimarySource}, p.startAtomicComputation = c → c.role ≠ .join →
      HasRightSide as p := fun hp hc => .of_role (hp ▸ hc)
  constructor
  · intro j hj _
    rw [honly j hj]
    exact hvd
  · intro p hp
    rw [Function.update_self] at hp
    refine ⟨v, ?_, .refl⟩
    cases hload with
    | scan c hh => simpa [List.mem_singleton.mp hp] using hh
    | copy _ c _ _ hh => simpa [List.mem_singleton.mp hp] using hh
    | join _ _ c _ _ _ _ _ hh => simpa [List.mem_singleton.mp hp] using hh
  · intro j a hj _ ha
    rw [honly j hj] at ha
    exact absurd ha (hnone a)
  · intro p hp
    rw [Function.update_self] at hp ⊢
    cases hload with
    | scan c hh hr =>
      rw [List.mem_singleton.mp hp]
      exact hnot rfl (by simp [hr])
    | copy _ c _ _ hh hr =>
      rw [List.mem_singleton.mp hp]
      exact hnot rfl (by rcases hr with hr | hr <;> simp [hr])
    | join a b c x y left right swap hh hr hab hx hy hright hswap =>
      rw [List.mem_singleton.mp hp]
      intro rightInput hinput
      exact ⟨y.getOutputName, by simp [hright], L.join_names wf hab (L.sides_ne hab hh hr) hh hr hx hy,
        hswap rightInput hinput⟩

omit L in
theorem Waits.start {s : Nodes} {done : Finset ℕ} {v : ℕ} {ps : List PrimarySource} {as : List SourcePageSetSpec}
    (h : Waits graph E s done none) :
    Waits graph E (Function.update s v { s v with primarySources := ps, additionalSources := as }) done (some v) := by
  constructor
  · exact h.stored
  · exact fun u hu _ => h.joinFree u hu (by simp)
  · intro u hu huv hun p hp
    have hne : u ≠ v := fun he => huv (by rw [he])
    rw [Function.update_of_ne hne] at hp
    exact h.led u hu (by simp) hun p hp

theorem Waits.passes {s s' : Nodes} {done : Finset ℕ} {v u : ℕ} (h : Waits graph E s done (some v))
    (hp : Passes graph s v s' u) : Waits graph E s' (insert v done) (some u) := by
  have hcons : graph.consumers v = [u] := by cases hp <;> assumption
  constructor
  · exact fun x hx => Finset.mem_insert_of_mem (h.stored x hx)
  · intro x hx hxu hun y hy hyd
    rw [Finset.mem_insert, not_or] at hx
    rcases Finset.mem_insert.mp hyd with rfl | hyd
    · exact absurd (by rw [L.eq_consumer hcons hy]) hxu
    · exact h.joinFree x hx.2 (by simpa using hx.1) hun y hy hyd
  · intro x hx hxu hun p hpx
    rw [Finset.mem_insert, not_or] at hx
    have hxu' : x ≠ u := fun he => hxu (by rw [he])
    have hsame : s' x = s x := by
      cases hp with
      | union => exact pass_of_ne hxu'
      | join => rw [pass_of_ne hxu', addBroadcast_of_ne hx.1]
    rw [hsame] at hpx
    obtain ⟨y, hyd, hy⟩ := h.led x hx.2 (by simpa using hx.1) hun p hpx
    exact ⟨y, Finset.mem_insert_of_mem hyd, hy⟩

theorem Gathers.passes {done₀ : Finset ℕ} {s s' : Nodes} {done : Finset ℕ} {v u : ℕ} (h : Gathers graph E done₀ s v)
    (hw : Waits graph E s done (some v)) (hpl : Planned graph s done (some v)) (hfed : Fed graph E s done (some v))
    (hsub : done₀ ⊆ done) (hp : Passes graph s v s' u) : Gathers graph E done₀ s' u := by
  obtain ⟨hv, hvd, -, -⟩ := hpl.current v rfl
  obtain ⟨-, hud, hready, -⟩ := (hpl.passes L hp).current u rfl
  rw [Finset.mem_insert, not_or] at hud
  have hcur : some u ≠ some v := by simpa using hud.1
  have hvu : Feeds graph E v u := ⟨by cases hp <;> simp [*], fun hs => hvd (hw.stored v hs)⟩
  cases hp with
  | union _ ht hc hu hpr =>
    have hfirst : ∀ y, Feeds graph E y u → y ≠ v → y ∈ graph.producers u ∧ y ∈ done := by
      intro y hy hyv
      have hm := (L.links y u).mp hy.1
      exact ⟨hm, (Finset.mem_insert.mp (hready y hm)).resolve_left hyv⟩
    have hback : ∀ j, Upstream graph E j u → isJoining graph j = true → Upstream graph E j v := by
      intro j hj hjoin
      rcases upstream_cases hj with rfl | ⟨y, hjy, hy⟩
      · rw [not_union_of_join hjoin] at hu
        cases hu
      · by_cases hyv : y = v
        · exact hyv ▸ hjy
        · obtain ⟨hm, hyd⟩ := hfirst y hy hyv
          rw [hw.joinFree u hud.2 hcur hu y hm hyd j hjy] at hjoin
          cases hjoin
    constructor
    · exact fun j hj hjoin => h.fresh j (hback j hj hjoin) hjoin
    · intro p hpu
      rw [pass_primarySources_self, List.mem_append] at hpu
      rcases hpu with hpu | hpu
      · obtain ⟨y, -, hy, z, hz, hzy⟩ := hw.led u hud.2 hcur hu p hpu
        exact ⟨z, hz, hzy.tail hy⟩
      · obtain ⟨z, hz, hzv⟩ := h.led p hpu
        exact ⟨z, hz, hzv.tail hvu⟩
    · intro j a hj hjoin ha
      rw [pass_additionalSources_self]
      exact h.broadcast j a (hback j hj hjoin) hjoin ha
    · intro p hpu
      rw [pass_primarySources_self, List.mem_append] at hpu
      rw [pass_additionalSources_self]
      rcases hpu with hpu | hpu
      · obtain ⟨y, hyd, hy, hcomes⟩ := hw.led u hud.2 hcur hu p hpu
        exact .of_role (hcomes.role_ne (hw.joinFree u hud.2 hcur hu y ((L.links y u).mp hy.1) hyd))
      · exact h.shuffled p hpu
  | join _ w x ht hc hj ho hws hx =>
    obtain ⟨hne, hwlt, htw, hcw, -, hps⟩ := L.other_side hj hc ho ht
    have hwd : w ∈ done := by
      by_contra hn
      simp [(hpl.idle w hn).2.2] at hws
    have hwstored : Stored graph E w := ⟨x, hx, hfed.sinks w hwd (by simp [HasSink, htw, hws]) x hx⟩
    have honly : ∀ y, Feeds graph E y u → y = v := by
      intro y hy
      have hm := (L.links y u).mp hy.1
      have hyvw : y = v ∨ y = w := by rcases hps with hps | hps <;> simp_all [or_comm]
      rcases hyvw with rfl | rfl
      · rfl
      · exact absurd hwstored hy.2
    have hback : ∀ j, Upstream graph E j u → j = u ∨ Upstream graph E j v := by
      intro j hj
      rcases upstream_cases hj with hj | ⟨y, hjy, hy⟩
      · exact .inl hj
      · exact .inr (honly y hy ▸ hjy)
    have hnil : (s u).primarySources = [] := (hpl.empty u hud.2 hcur (not_union_of_join hj)).1
    constructor
    · intro j hju hjoin
      rcases hback j hju with rfl | hjv
      · exact fun hm => hud.2 (hsub hm)
      · exact h.fresh j hjv hjoin
    · intro p hpu
      rw [pass_primarySources_self, addBroadcast_primarySources, addBroadcast_primarySources, hnil,
        List.nil_append] at hpu
      obtain ⟨z, hz, hzv⟩ := h.led p hpu
      exact ⟨z, hz, hzv.tail hvu⟩
    · intro j a hju hjoin ha
      rw [pass_additionalSources_self, addBroadcast_additionalSources_self]
      rcases hback j hju with rfl | hjv
      · rw [honly a ha]
        exact ⟨w, x, ho, hx, by simp⟩
      · exact (h.broadcast j a hjv hjoin ha).mono (List.subset_append_left _ _)
    · intro p hpu
      rw [pass_primarySources_self, addBroadcast_primarySources, addBroadcast_primarySources, hnil,
        List.nil_append] at hpu
      rw [pass_additionalSources_self, addBroadcast_additionalSources_self]
      exact (h.shuffled p hpu).mono (List.subset_append_left _ _)

theorem Pipes.gathers {done₀ : Finset ℕ} {s s' : Nodes} {done done' : Finset ℕ} {v w : ℕ}
    (h : Pipes graph s done v s' done' w) (hg : Gathers graph E done₀ s v) (hw : Waits graph E s done (some v))
    (hpl : Planned graph s done (some v)) (hfed : Fed graph E s done (some v)) (hsub : done₀ ⊆ done) :
    Gathers graph E done₀ s' w ∧ Waits graph E s' done' (some w) := by
  induction h with
  | refl => exact ⟨hg, hw⟩
  | step hp _ ih =>
    apply ih
    · exact hg.passes L hw hpl hfed hsub hp
    · exact hw.passes L hp
    · exact hpl.passes L hp
    · exact hfed.passes L hpl hp
    · exact fun x hx => Finset.mem_insert_of_mem (hsub hx)

theorem Gathers.knows {done₀ : Finset ℕ} {s s' : Nodes} {extra : Finset ℕ} {w : ℕ} {result : PlanningResult}
    {A : Algorithm} (h : Gathers graph E done₀ s w) (he : Ending graph s w result s' extra)
    (hA : result.runMe = some A) : KnowsPartners graph E A := by
  obtain ⟨hprims, hadds, hlast, -, -⟩ := he.generated hA
  constructor
  · intro p hp
    obtain ⟨v, hv, hvw⟩ := h.led p (hprims ▸ hp)
    obtain ⟨pipes, hchain, hend⟩ := List.exists_isChain_cons_of_relationReflTransGen hvw
    exact ⟨v :: pipes, hp, ⟨v, rfl, hv⟩, ⟨w, by rw [List.getLast?_eq_some_getLast (List.cons_ne_nil v pipes), hend], hlast⟩,
      hchain⟩
  · intro p pre v j post hpipe hjoin
    obtain ⟨w', hw', hlast'⟩ := hpipe.final
    obtain rfl : w' = w := L.lasts w' w _ hlast' hlast
    obtain ⟨-, hchain, -⟩ := List.isChain_append.mp hpipe.chain
    obtain ⟨hvj, hchain⟩ := List.isChain_cons_cons.mp hchain
    rw [hadds]
    apply h.broadcast j v _ hjoin hvj
    apply List.relationReflTransGen_of_exists_isChain_cons post hchain
    rw [List.getLast?_append, List.getLast?_cons_cons, List.getLast?_eq_some_getLast (List.cons_ne_nil j post)] at hw'
    simpa using hw'
  · intro p hp
    rw [hadds]
    exact h.shuffled p (hprims ▸ hp)

theorem Ending.stored (wf : WellFormed plan) {s s' : Nodes} {extra : Finset ℕ} {w v : ℕ} {result : PlanningResult}
    {A : Algorithm} (h : Ending graph s w result s' extra) (hA : result.runMe = some A)
    (hv : Stored graph (E ++ [A]) v) : Stored graph E v ∨ v = w := by
  obtain ⟨-, -, hlast, hsink, -⟩ := h.generated hA
  have hmem : ∀ {v z}, graph.last v = some z → z ∈ plan := by
    intro v z hz
    rw [← getLast?_pipelineOf] at hz
    exact L.mem v z (List.mem_of_getLast? hz)
  obtain ⟨x, hx, B, hB, hid⟩ := hv
  rcases List.mem_append.mp hB with hB | hB
  · exact .inl ⟨x, hx, B, hB, hid⟩
  · rw [List.mem_singleton.mp hB, hsink] at hid
    have hxA := wf.eq_of_name (hmem hlast) (hmem hx) hid
    exact .inr (L.lasts v w x hx (hxA ▸ hlast))

omit L in
theorem Upstream.of_append {E' : List Algorithm} {j y : ℕ} (h : Upstream graph (E ++ E') j y) : Upstream graph E j y := by
  refine ReflTransGen.mono ?_ _ _ h
  rintro a b ⟨hab, hns⟩
  exact ⟨hab, fun ⟨x, hx, B, hB, hid⟩ => hns ⟨x, hx, B, List.mem_append_left _ hB, hid⟩⟩

theorem Comes.keep {E' : List Algorithm} {s : Nodes} {done : Finset ℕ} {cur : Option ℕ} {p : PrimarySource} {y : ℕ}
    (h : Comes graph E p y) (hpl : Planned graph s done cur) (hy : y ∈ done)
    (hkeep : ∀ v ∈ done, Stored graph E' v → Stored graph E v) : Comes graph E' p y := by
  obtain ⟨u, hu, huy⟩ := h
  refine ⟨u, hu, ?_⟩
  clear hu
  induction huy with
  | refl => exact .refl
  | @tail a b _ hab ih =>
    have ha := hpl.closed b hy a ((L.links a b).mp hab.1)
    exact (ih ha).tail ⟨hab.1, fun hs => hab.2 (hkeep a ha hs)⟩

theorem Ending.not_union {s s' : Nodes} {extra : Finset ℕ} {w u : ℕ} {result : PlanningResult} {A : Algorithm}
    (h : Ending graph s w result s' extra) (hA : result.runMe = some A) (hu : isUnioning graph u = true) :
    w ∉ graph.producers u := by
  intro hwu
  have hc := (L.links w u).mpr hwu
  cases h with
  | held => cases hA
  | straight x writers ht hx hcs =>
    refine L.not_union_of_length ?_ hu hc
    rcases hcs with ⟨hcs, -⟩ | ⟨hcs, -⟩
    · simp [hcs]
    · omega
  | aggregation x kept removed ht => exact L.not_union_of_type (by simp [ht]) hu hc
  | broadcast j o x ht => exact L.not_union_of_type (by simp [ht]) hu hc
  | shuffle j o x ht => exact L.not_union_of_type (by simp [ht]) hu hc

theorem Waits.held {done₀ : Finset ℕ} {s : Nodes} {done : Finset ℕ} {w u : ℕ} (h : Waits graph E s done (some w))
    (hg : Gathers graph E done₀ s w) (hpl : Planned graph s done (some w)) (hc : graph.consumers w = [u])
    (hu : isUnioning graph u = true) (hp : (s u).primarySources = [])
    (hno : ∀ x ∈ insert w done, x ∉ done₀ → isJoining graph x = false) :
    Waits graph E (pass s w u) (insert w done) none := by
  obtain ⟨-, hwd, -, -⟩ := hpl.current w rfl
  have huw : u ∈ graph.consumers w := by simp [hc]
  have hne := L.ne_of_mem huw
  have hud : u ∉ done := fun hm => hwd (hpl.closed u hm w ((L.links w u).mp huw))
  have hfirst := (hpl.waiting u hud (by simpa using hne) hu).mp hp
  constructor
  · exact fun x hx => Finset.mem_insert_of_mem (h.stored x hx)
  · intro x hx _ hun y hy hyd j hjy
    rw [Finset.mem_insert, not_or] at hx
    rcases Finset.mem_insert.mp hyd with rfl | hyd
    · by_contra hjoin
      rw [Bool.not_eq_false] at hjoin
      rw [hno j (hjy.mem L hpl) (hg.fresh j hjy hjoin)] at hjoin
      cases hjoin
    · exact h.joinFree x hx.2 (by simpa using hx.1) hun y hy hyd j hjy
  · intro x hx _ hun p hpx
    rw [Finset.mem_insert, not_or] at hx
    by_cases hxu : x = u
    · subst hxu
      rw [pass_primarySources_self, hp, List.nil_append] at hpx
      exact ⟨w, Finset.mem_insert_self _ _, ⟨huw, fun hs => hwd (h.stored w hs)⟩, hg.led p hpx⟩
    · rw [pass_of_ne hxu] at hpx
      obtain ⟨y, hyd, hy⟩ := h.led x hx.2 (by simpa using hx.1) hun p hpx
      exact ⟨y, Finset.mem_insert_of_mem hyd, hy⟩

theorem Waits.ends (wf : WellFormed plan) {done₀ : Finset ℕ} {s s' : Nodes} {done extra : Finset ℕ} {w : ℕ}
    {result : PlanningResult} (h : Waits graph E s done (some w)) (hg : Gathers graph E done₀ s w)
    (hpl : Planned graph s done (some w)) (he : Ending graph s w result s' extra)
    (hheld : result.resultType = .unionedPipeline → ∀ x ∈ insert w done, x ∉ done₀ → isJoining graph x = false) :
    Waits graph (E ++ result.runMe.toList) s' (insert w done ∪ extra) none := by
  obtain ⟨-, hwd, -, -⟩ := hpl.current w rfl
  cases hA : result.runMe with
  | none =>
    rw [Option.toList_none, List.append_nil]
    cases he with
    | held u ht hc hu hp =>
      rw [Finset.union_empty]
      exact h.held L hg hpl hc hu hp (hheld rfl)
    | straight => cases hA
    | aggregation => cases hA
    | broadcast => cases hA
    | shuffle => cases hA
  | some A =>
    obtain ⟨-, -, -, -, hsame⟩ := he.generated hA
    rw [Option.toList_some]
    have hkeep : ∀ v ∈ done, Stored graph (E ++ [A]) v → Stored graph E v := by
      intro v hv hs
      refine (he.stored L wf hA hs).resolve_right ?_
      rintro rfl
      exact hwd hv
    -- the pipes in front of a union that are done were done before
    have hfront : ∀ u, isUnioning graph u = true → ∀ y ∈ graph.producers u, y ∈ insert w done ∪ extra → y ∈ done := by
      intro u hu y hy hyd
      rw [Finset.mem_union, Finset.mem_insert] at hyd
      rcases hyd with (rfl | hyd) | hyd
      · exact absurd hy (he.not_union L hA hu)
      · exact hyd
      · have := (L.links y u).mpr hy
        simp [(he.extra L hyd).2.2] at this
    constructor
    · intro v hs
      rw [Finset.mem_union, Finset.mem_insert]
      rcases he.stored L wf hA hs with hs | rfl
      · exact .inl (.inr (h.stored v hs))
      · exact .inl (.inl rfl)
    · intro u hu _ hun y hy hyd j hjy
      rw [Finset.mem_union, Finset.mem_insert, not_or, not_or] at hu
      exact h.joinFree u hu.1.2 (by simpa using hu.1.1) hun y hy (hfront u hun y hy hyd) j hjy.of_append
    · intro u hu _ hun p hp
      rw [Finset.mem_union, Finset.mem_insert, not_or, not_or] at hu
      rw [hsame u hu.1.1] at hp
      obtain ⟨y, hyd, hy, hcomes⟩ := h.led u hu.1.2 (by simpa using hu.1.1) hun p hp
      exact ⟨y, by simp [hyd], ⟨hy.1, fun hs => hy.2 (hkeep y hyd hs)⟩, hcomes.keep L hpl hyd hkeep⟩

theorem Round.knows (wf : WellFormed plan) {o o' : Optimizer} {done done' : Finset ℕ} {result : PlanningResult}
    (h : Round graph o done result o' done') (hs : Scheduled graph o done) (hi : Sound plan graph E o done)
    (hw : Waits graph E o.nodes done none)
    (hheld : result.resultType = .unionedPipeline → NoJoinHeldBack graph o) :
    Waits graph (E ++ result.runMe.toList) o'.nodes done' none ∧ ∀ A, result.runMe = some A → KnowsPartners graph E A := by
  cases h with
  | @mk size v rest ps as s s' done₁ extra w hsrc hvd hload hstart hpipes hplan hend =>
    have hready := (hstart.current v rfl).2.2.1
    obtain ⟨hg, hw'⟩ := hpipes.gathers L (.start L wf hload hs.planned hi.fed hvd hready) hw.start hstart
      (hi.fed.start L hs.planned hload hvd hready) (Finset.Subset.refl _)
    refine ⟨hw'.ends L wf hg hplan hend ?_, fun A hA => hg.knows L hend hA⟩
    intro hres x hx hxd
    obtain ⟨route, hroute, hmem⟩ := hpipes.heldBack_start L hs hvd hready hstart hend hres
    exact hheld hres (size, v) (by simp [hsrc]) route hroute x (hmem x hx hxd)

end

structure Partnering (plan : List AtomicComputation) (graph : PipeGraph) (w : Session) (done : Finset ℕ) : Prop where
  progressing : Progressing plan graph w done
  waits : Waits graph (algorithms w.events) w.optimizer.nodes done none
  knows : ∀ pre A post, w.events = pre ++ .returned (some A) :: post → KnowsPartners graph (algorithms pre) A

section

variable {plan : List AtomicComputation} {graph : PipeGraph} (L : Layout plan graph) (wf : WellFormed plan)

include L wf

theorem Partnering.getNextAlgorithm {threshold : ℕ} {w w' : Session} {done : Finset ℕ}
    (h : Partnering plan graph w done) (hg : Guard graph threshold (NoJoinHeldBack graph) .getNextAlgorithm w)
    (hstep : w.step graph threshold .getNextAlgorithm = .ok w') : ∃ done', Partnering plan graph w' done' := by
  have hheld : ∀ o done result o' done', Scheduled graph o done → Sound plan graph (algorithms w.events) o done →
      Waits graph (algorithms w.events) o.nodes done none → NoJoinHeldBack graph o → Round graph o done result o' done' →
      result.resultType = .unionedPipeline → Waits graph (algorithms w.events) o'.nodes done' none := by
    intro o done result o' done' hs hi hw hno hround hr
    have := (hround.knows L wf hs hi hw fun _ => hno).1
    rwa [hround.runMe_of_held hr, Option.toList_none, List.append_nil] at this
  obtain ⟨o₁, done₁, result, A, done', hs, hi, hw, hround, hgen, hA, hevents, hprog⟩ :=
    h.progressing.round L wf (P := fun o done => Waits graph (algorithms w.events) o.nodes done none) h.waits hheld hg hstep
  obtain ⟨hw', hknows⟩ := hround.knows L wf hs hi hw (by simp [hgen])
  refine ⟨done', hprog, ?_, ?_⟩
  · rw [hA] at hw'
    rw [hevents, algorithms_append]
    exact hw'
  · intro pre B post he
    rw [hevents] at he
    rcases split_append_singleton he with ⟨rfl, hB⟩ | ⟨post', he⟩
    · cases hB
      exact hknows A hA
    · exact h.knows pre B post' he

theorem Partnering.step {threshold : ℕ} {call : Call} {w w' : Session} {done : Finset ℕ}
    (h : Partnering plan graph w done) (hg : Guard graph threshold (NoJoinHeldBack graph) call w)
    (hstep : w.step graph threshold call = .ok w') : ∃ done', Partnering plan graph w' done' := by
  cases call with
  | getNextAlgorithm => exact h.getNextAlgorithm L wf hg hstep
  | getPageSetsToRemove =>
    cases hstep
    refine ⟨done, h.progressing.getPageSetsToRemove, ?_, ?_⟩
    · rw [algorithms_append]
      exact (List.append_nil (algorithms w.events)).symm ▸ h.waits
    · intro pre A post he
      rcases split_append_singleton he with ⟨-, hA⟩ | ⟨post', he⟩
      · cases hA
      · exact h.knows pre A post' he
  | updatePageSet id size =>
    cases hstep
    exact ⟨done, h.progressing.updatePageSet id size, h.waits, h.knows⟩

end

theorem knowsPartners_of_reachable (plan : List AtomicComputation) (wf : WellFormed plan) (hf : ForksCleanly plan) :
    ∃ graph, generateAnalyzerGraph plan = .ok graph ∧ ∀ threshold w,
      Reachable (Session.step graph threshold) (Guard graph threshold (NoJoinHeldBack graph)) (Begins graph) w →
        ∀ pre A post, w.events = pre ++ .returned (some A) :: post → KnowsPartners graph (algorithms pre) A := by
  obtain ⟨graph, hgraph, L⟩ := exists_layout wf hf
  refine ⟨graph, hgraph, ?_⟩
  intro threshold w hw
  have hstart : ∀ w, Begins graph w → ∃ done, Partnering plan graph w done := by
    rintro w ⟨setSize, rfl⟩
    obtain ⟨hs, hnil, -, -⟩ := create_scheduled L setSize
    refine ⟨∅, ⟨hs, create_sound setSize hnil, by simp [algorithms], by simp, by simp⟩, ⟨?_, ?_, ?_⟩, by simp⟩
    · rintro v ⟨x, -, B, hB, -⟩
      simp [algorithms] at hB
    · intro u _ _ _ y _ hy
      simp at hy
    · intro u _ _ _ p hp
      simp [hnil] at hp
  obtain ⟨done, h⟩ := hw.invariant hstart fun call w w' h hg hstep => h.elim fun done h => h.step L wf hg hstep
  exact h.knows

theorem knowsPartners_joinUnion : ∃ graph w, generateAnalyzerGraph joinUnionPlan = .ok graph ∧
    Reachable (Session.step graph 0) (Guard graph 0 (NoJoinHeldBack graph)) (Begins graph) w ∧
    (algorithms w.events).flatMap Algorithm.secondaryIds = ["hashB".toList] ∧
    ∀ pre A post, w.events = pre ++ .returned (some A) :: post → KnowsPartners graph (algorithms pre) A := by
  have hrun : (sessionOf joinUnionPlan (fun set => if set.2 = "c".toList then 1 else 10) 0
      (fun graph o => !joinHeldBack graph o) (List.replicate 3 .getNextAlgorithm)).map
      (fun r => (algorithms r.2.events).flatMap Algorithm.secondaryIds) = some ["hashB".toList] := by decide +kernel
  obtain ⟨⟨graph, w⟩, hsome, hids⟩ := Option.map_eq_some_iff.mp hrun
  obtain ⟨hg, hw⟩ := reachable_of_sessionOf NoJoinHeldBack noJoinHeldBack_of_check hsome
  obtain ⟨graph', hg', hall⟩ := knowsPartners_of_reachable joinUnionPlan wellFormed_joinUnion forksCleanly_joinUnion
  rw [hg, Except.ok.injEq] at hg'
  subst hg'
  exact ⟨graph, w, hg, hw, hids, hall 0 w hw⟩

theorem not_knowsPartners_joinUnion : WellFormed joinUnionPlan ∧ ForksCleanly joinUnionPlan ∧
    ∃ graph w, generateAnalyzerGraph joinUnionPlan = .ok graph ∧
      Reachable (Session.step graph 0) (Guard graph 0 fun _ => True) (Begins graph) w ∧
      ∃ pre A post, w.events = pre ++ .returned (some A) :: post ∧ ¬ KnowsPartners graph (algorithms pre) A := by
  refine ⟨wellFormed_joinUnion, forksCleanly_joinUnion, ?_⟩
  have hrun : (sessionOf joinUnionPlan (fun set => if set.2 = "c".toList then 10 else 1) 0
      (fun _ _ => true) (List.replicate 3 .getNextAlgorithm)).map
      (fun r => (algorithms r.2.events).any fun A => decide (A.secondarySources = []) &&
        A.primarySources.any fun p => decide (p.startAtomicComputation.role = .join)) = some true := by decide +kernel
  obtain ⟨⟨graph, w⟩, hsome, hany⟩ := Option.map_eq_some_iff.mp hrun
  obtain ⟨hg, hw⟩ := reachable_of_sessionOf (fun _ _ => True) (fun _ _ => trivial) hsome
  refine ⟨graph, w, hg, hw, ?_⟩
  obtain ⟨A, hA, hbad⟩ := List.any_eq_true.mp hany
  rw [Bool.and_eq_true, decide_eq_true_eq, List.any_eq_true] at hbad
  obtain ⟨hnil, p, hp, hr⟩ := hbad
  obtain ⟨e, he, heA⟩ := List.mem_filterMap.mp hA
  obtain ⟨pre, post, hsplit⟩ := List.append_of_mem he
  have heq : e = .returned (some A) := by
    cases e with
    | returned algorithm => rw [show algorithm = some A from heA]
    | removed pageSets => cases heA
  refine ⟨pre, A, post, heq ▸ hsplit, ?_⟩
  intro h
  obtain ⟨rightInput, rightProjection, hk⟩ := kind_of_join (of_decide_eq_true hr)
  obtain ⟨r, hmem, -⟩ := h.shuffled p hp rightInput (by rw [getRightInput, hk])
  rw [hnil] at hmem
  cases hmem

end PlinyCompute.PhysicalOptimizer
