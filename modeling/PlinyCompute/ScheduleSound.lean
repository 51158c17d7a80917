import PlinyCompute.ScheduleCover

namespace PlinyCompute.PhysicalOptimizer

open LogicalPlan PipeBuilder Transition
open Function (update comp_apply update_of_ne update_self)

def Readable (E : List Algorithm) (p : PrimarySource) : Prop :=
  (p.startAtomicComputation.role = .scan ∧
    p.source.pageSetIdentifier = p.startAtomicComputation.getOutputName) ∨
  ∃ A ∈ E, A.sink.pageSetIdentifier = p.source.pageSetIdentifier

structure Fed (graph : PipeGraph) (E : List Algorithm) (s : Nodes) (done : Finset ℕ) (cur : Option ℕ) : Prop where
  primary : ∀ u ∉ done, ∀ p ∈ (s u).primarySources, Readable E p
  additional : ∀ v, cur = some v → ∀ a ∈ (s v).additionalSources, ∃ A ∈ E, A.sink.pageSetIdentifier = a.pageSetIdentifier
  sinks : ∀ v ∈ done, HasSink graph s v → ∀ x, graph.last v = some x →
    ∃ A ∈ E, A.sink.pageSetIdentifier = x.getOutputName

def Materialized (graph : PipeGraph) (E : List Algorithm) (done : Finset ℕ) : Prop :=
  ∀ v x, graph.last v = some x → x.role = .write →
    (E.flatMap Algorithm.setsToMaterialize).count x = if v ∈ done then 1 else 0

section

variable {plan : List AtomicComputation} {graph : PipeGraph} (L : Layout plan graph)

include L

theorem Fed.passes {E : List Algorithm} {s s' : Nodes} {done : Finset ℕ} {v u : ℕ}
    (h : Fed graph E s done (some v)) (hpl : Planned graph s done (some v)) (hp : Passes graph s v s' u) :
    Fed graph E s' (insert v done) (some u) := by
  obtain ⟨hv, hvd, -, -⟩ := hpl.current v rfl
  constructor
  · intro w hw p hpw
    rw [Finset.mem_insert, not_or] at hw
    by_cases hwu : w = u
    · subst hwu
      have hmem : p ∈ (s w).primarySources ∨ p ∈ (s v).primarySources := by
        cases hp <;> simpa using hpw
      rcases hmem with hm | hm
      · exact h.primary w hw.2 p hm
      · exact h.primary v hvd p hm
    · apply h.primary w hw.2 p
      cases hp with
      | union => rwa [pass_of_ne hwu] at hpw
      | join => rwa [pass_of_ne hwu, addBroadcast_primarySources] at hpw
  · intro w hw a ha
    cases hw
    cases hp with
    | union =>
      rw [pass_additionalSources_self] at ha
      exact h.additional v rfl a ha
    | join _ w x ht hc hj ho hw hx =>
      rw [pass_additionalSources_self, addBroadcast_additionalSources_self, List.mem_append, List.mem_singleton] at ha
      rcases ha with ha | rfl
      · exact h.additional v rfl a ha
      · obtain ⟨-, htw, -⟩ := L.other_of_side hv ht hc ho
        have hwd : w ∈ done := by
          by_contra hn
          simp [(hpl.idle w hn).2.2] at hw
        exact h.sinks w hwd (by simp [HasSink, htw, hw]) x hx
  · intro w hw hs x hx
    rcases Finset.mem_insert.mp hw with rfl | hw
    · rw [HasSink.congr (hp.keep w).1] at hs
      cases hp with
      | union _ ht hc => simp [HasSink, ht, hc] at hs
      | join _ _ _ ht => simp [HasSink, ht, (hpl.idle w hvd).2.2] at hs
    · exact h.sinks w hw ((HasSink.congr (hp.keep w).1).mp hs) x hx

omit L in
theorem Readable.mono {E E' : List Algorithm} {p : PrimarySource} (h : Readable E p) : Readable (E ++ E') p := by
  rcases h with h | ⟨A, hA, h⟩
  · exact .inl h
  · exact .inr ⟨A, List.mem_append_left _ hA, h⟩

theorem Fed.ends {E : List Algorithm} {s s' : Nodes} {done extra : Finset ℕ} {w : ℕ} {result : PlanningResult}
    (h : Fed graph E s done (some w)) (hpl : Planned graph s done (some w)) (he : Ending graph s w result s' extra) :
    Fed graph (E ++ result.runMe.toList) s' (insert w done ∪ extra) none := by
  obtain ⟨hw, hwd, -, -⟩ := hpl.current w rfl
  constructor
  · intro u hu p hp
    rw [Finset.mem_union, Finset.mem_insert, not_or, not_or] at hu
    rcases he.primarySources hp with hp | hp
    · exact (h.primary u hu.1.2 p hp).mono
    · exact (h.primary w hwd p hp).mono
  · intro v hv
    cases hv
  · intro v hv hs x hx
    rw [Finset.mem_union, Finset.mem_insert] at hv
    by_cases hvw : v = w
    · subst hvw
      cases hA : result.runMe with
      | none =>
        cases he with
        | held _ ht hc => simp [HasSink, ht, hc] at hs
        | straight => cases hA
        | aggregation => cases hA
        | broadcast => cases hA
        | shuffle => cases hA
      | some A =>
        obtain ⟨-, -, hlast, hsink, -⟩ := he.generated hA
        rw [hx, Option.some.injEq] at hlast
        exact ⟨A, by simp, by rw [hsink, hlast]⟩
    · rcases hv with (hv | hv) | hv
      · exact absurd hv hvw
      · obtain ⟨A, hA, hAx⟩ := h.sinks v hv ((HasSink.congr (he.keep hvw).1).mp hs) x hx
        exact ⟨A, List.mem_append_left _ hA, hAx⟩
      · obtain ⟨-, ht, hc⟩ := he.extra L hv
        simp [HasSink, ht, hc] at hs

theorem Fed.start {E : List Algorithm} {s : Nodes} {done : Finset ℕ} {v : ℕ} {ps : List PrimarySource}
    {as : List SourcePageSetSpec} (h : Fed graph E s done none) (hpl : Planned graph s done none)
    (hload : Loads graph v ps as) (hvd : v ∉ done) (hready : ∀ p ∈ graph.producers v, p ∈ done) :
    Fed graph E (update s v { s v with primarySources := ps, additionalSources := as }) done (some v) := by
  have hfed : (∀ p ∈ ps, Readable E p) ∧
      ∀ a ∈ as, ∃ A ∈ E, A.sink.pageSetIdentifier = a.pageSetIdentifier := by
    have hsink := hload.sinks L hpl hvd hready
    cases hload with
    | scan c hh hr => exact ⟨by simpa using .inl ⟨hr, rfl⟩, by simp⟩
    | copy p c x type hh hr hp hx =>
      have hpv : p ∈ graph.producers v := by simp [hp]
      exact ⟨by simpa using .inr (h.sinks p (hready p hpv) (hsink p hpv) x hx), by simp⟩
    | join p q c x y left right swap hh hr hp hx hy =>
      have hpv : p ∈ graph.producers v := by rcases hp with hp | hp <;> simp [hp]
      have hqv : q ∈ graph.producers v := by rcases hp with hp | hp <;> simp [hp]
      exact ⟨by simpa using .inr (h.sinks p (hready p hpv) (hsink p hpv) x hx),
        by simpa using h.sinks q (hready q hqv) (hsink q hqv) y hy⟩
  constructor
  · intro u hu p hp
    by_cases huv : u = v
    · subst huv
      rw [update_self] at hp
      exact hfed.1 p hp
    · rw [update_of_ne huv] at hp
      exact h.primary u hu p hp
  · intro u hu a ha
    cases hu
    rw [update_self] at ha
    exact hfed.2 a ha
  · intro u hu hs x hx
    have huv : u ≠ v := fun he => hvd (he ▸ hu)
    apply h.sinks u hu _ x hx
    rwa [HasSink.congr (s := s) (by rw [update_of_ne huv])] at hs

theorem Layout.write_shape {v : ℕ} {x : AtomicComputation} (hx : graph.last v = some x) (hr : x.role = .write) :
    v < graph.nodes.length ∧ typeOf graph v = some .straight ∧ graph.consumers v = [] := by
  have hv : v < graph.nodes.length := by
    obtain ⟨node, hn, -⟩ := Option.bind_eq_some_iff.mp hx
    exact (List.getElem?_eq_some_iff.mp hn).1
  obtain ⟨-, y, -, hy, -, hshape⟩ := L.ends v hv
  rw [hx, Option.some.injEq] at hy
  subst hy
  cases hshape with
  | write ht _ hc => exact ⟨hv, ht, hc⟩
  | union _ _ hw => exact absurd hr hw
  | fork _ ho => simp [hr] at ho
  | agg _ hw => exact absurd hr hw.1
  | side _ _ _ hh => simp [hr] at hh

theorem Ending.materialized {s s' : Nodes} {extra : Finset ℕ} {w : ℕ} {result : PlanningResult}
    (h : Ending graph s w result s' extra) {v : ℕ} {x : AtomicComputation} (hx : graph.last v = some x)
    (hr : x.role = .write) :
    (result.runMe.toList.flatMap Algorithm.setsToMaterialize).count x = if v = w ∨ v ∈ extra then 1 else 0 := by
  obtain ⟨hv, htv, hcv⟩ := L.write_shape hx hr
  cases h with
  | held u ht hc =>
    have hvw : v ≠ w := by
      rintro rfl
      simp [hc] at hcv
    simp [hvw]
  | straight y writers ht hy hc =>
    by_cases hvw : v = w
    · subst hvw
      rw [hx, Option.some.injEq] at hy
      subst hy
      rcases hc with ⟨-, -, rfl⟩ | ⟨-, ho, -⟩
      · simp
      · simp [hr] at ho
    · have hxy : x ≠ y := fun he => hvw (L.lasts v w x hx (he ▸ hy))
      rcases hc with ⟨-, -, rfl⟩ | ⟨-, -, rfl⟩
      · simp [hvw, hxy.symm]
      · simp [hvw]
  | aggregation y kept removed ht hy hk hm =>
    have hvw : v ≠ w := by
      rintro rfl
      simp [ht] at htv
    have hnd := (List.nodup_append.mp (hk.nodup_iff.mpr (L.nodup w))).2.1
    have hlast : ∀ r ∈ removed, (r.2 = x ↔ r.1 = v) := by
      intro r hrm
      have hrc : r.1 ∈ graph.consumers w := hk.subset (List.mem_append_right _ (List.mem_map_of_mem hrm))
      have hrl := (L.write_of_materialized (hm r hrm) (L.bound w _ hrc).2).2.2.1
      constructor
      · intro he
        exact L.lasts r.1 v x (he ▸ hrl) hx
      · intro he
        rw [he, hx, Option.some.injEq] at hrl
        exact hrl.symm
    simp only [hvw, false_or, List.mem_toFinset, Option.toList_some, List.flatMap_singleton]
    rw [← hnd.count (a := v), List.count, List.countP_map, List.count, List.countP_map]
    apply List.countP_congr
    intro r hrm
    simp only [comp_apply, beq_iff_eq]
    exact hlast r hrm
  | broadcast j o y ht =>
    have hvw : v ≠ w := by
      rintro rfl
      simp [ht] at htv
    simp [broadcastSide, hvw]
  | shuffle j o y ht =>
    have hvw : v ≠ w := by
      rintro rfl
      simp [ht] at htv
    simp [shuffleSide, hvw]

omit L in
theorem Pipes.consumed {s s' : Nodes} {done done' : Finset ℕ} {v w : ℕ} (h : Pipes graph s done v s' done' w) {x : ℕ}
    (hx : x ∈ done') (hxd : x ∉ done) : graph.consumers x ≠ [] := by
  induction h with
  | refl => exact absurd hx hxd
  | @step s s₁ s' done done' v u w hp hr ih =>
    by_cases hxv : x = v
    · subst hxv
      cases hp <;> simp [*]
    · exact ih hx (by simp [hxv, hxd])

theorem Materialized.ends {E : List Algorithm} {s₀ s s' : Nodes} {done done' extra : Finset ℕ} {v w : ℕ}
    {result : PlanningResult} (h : Materialized graph E done) (hp : Pipes graph s₀ done v s done' w)
    (hstart : Planned graph s₀ done (some v)) (hpl : Planned graph s done' (some w))
    (he : Ending graph s w result s' extra) :
    Materialized graph (E ++ result.runMe.toList) (insert w done' ∪ extra) := by
  intro y x hx hr
  obtain ⟨-, -, hcy⟩ := L.write_shape hx hr
  have hincl := (hp.through L hstart).subset
  have hwd := (hpl.current w rfl).2.1
  have hchain : y ∈ done' → y ∈ done := by
    intro hm
    by_contra hn
    exact hp.consumed hm hn hcy
  have hnot : y = w ∨ y ∈ extra → y ∉ done := by
    rintro (rfl | hm) hd
    · exact hwd (hincl hd)
    · have hw := hstart.closed y hd w (by simp [(he.extra L hm).1])
      exact hwd (hincl hw)
  rw [List.flatMap_append, List.count_append, h y x hx hr, he.materialized L hx hr]
  simp only [Finset.mem_union, Finset.mem_insert]
  by_cases hd : y ∈ done
  · have hn : ¬ (y = w ∨ y ∈ extra) := fun hm => hnot hm hd
    rw [if_pos hd, if_neg hn, if_pos (.inl (.inr (hincl hd)))]
  · rw [if_neg hd, zero_add]
    have hn : y ∉ done' := fun hm => hd (hchain hm)
    simp [hn]

end

section

variable (graph : PipeGraph)

def nextPipe (s : Nodes) (v : ℕ) : Option ℕ :=
  match typeOf graph v with
  | some .straight =>
    match (s v).consumers with
    | [consumer] => some consumer
    | _ => none
  | some .joinSide => (graph.otherSide v).bind fun otherSide =>
    if (s otherSide).state = .broadcasted then (s v).consumers.head? else none
  | _ => none

def heldBack (s : Nodes) : ℕ → ℕ → Option (List ℕ)
  | 0, _ => none
  | n + 1, v =>
    match nextPipe graph s v with
    | none => none
    | some u =>
      if isUnioning graph u = true ∧ (s u).primarySources = [] then some [v]
      else (heldBack s n u).map (v :: ·)

def NoJoinHeldBack (o : Optimizer) : Prop :=
  ∀ x ∈ o.sources.head?, ∀ route ∈ heldBack graph o.nodes (graph.nodes.length + 1) x.2, ∀ v ∈ route,
    isJoining graph v = false

end

section

variable {plan : List AtomicComputation} {graph : PipeGraph}

theorem heldBack_congr {s s' : Nodes} (hc : ∀ x, (s' x).consumers = (s x).consumers)
    (hs : ∀ x, (s' x).state = (s x).state)
    (hp : ∀ u, isUnioning graph u = true → ((s' u).primarySources = [] ↔ (s u).primarySources = [])) (n v : ℕ) :
    heldBack graph s' n v = heldBack graph s n v := by
  induction n generalizing v with
  | zero => rfl
  | succ n ih =>
    have hnext : nextPipe graph s' v = nextPipe graph s v := by
      unfold nextPipe
      simp only [hc, hs]
    rw [heldBack, heldBack, hnext]
    cases nextPipe graph s v with
    | none => rfl
    | some u =>
      dsimp only
      have hiff : (isUnioning graph u = true ∧ (s' u).primarySources = []) ↔
          (isUnioning graph u = true ∧ (s u).primarySources = []) := and_congr_right (hp u)
      simp only [hiff, ih]

theorem Passes.heldBack_eq {s s' : Nodes} {v u : ℕ} (h : Passes graph s v s' u) (n x : ℕ) :
    heldBack graph s' n x = heldBack graph s n x := by
  apply heldBack_congr
  · intro y
    cases h <;> simp
  · exact fun y => (h.keep y).1
  · intro y hy
    cases h with
    | union u _ _ _ hp =>
      by_cases hyu : y = u
      · subst hyu
        simp [hp]
      · rw [pass_of_ne hyu]
    | join _ w z _ _ hj =>
      have hyu : y ≠ u := by
        intro he
        rw [he, not_union_of_join hj] at hy
        cases hy
      rw [pass_of_ne hyu, addBroadcast_primarySources]

theorem Pipes.heldBack (L : Layout plan graph) {s s' s'' : Nodes} {done done' extra : Finset ℕ} {v w : ℕ}
    {result : PlanningResult} (h : Pipes graph s done v s' done' w) (hpl : Planned graph s done (some v))
    (he : Ending graph s' w result s'' extra) (hr : result.resultType = .unionedPipeline) (n : ℕ)
    (hn : graph.nodes.length < done.card + n) :
    ∃ route, heldBack graph s n v = some route ∧ ∀ x ∈ insert w done', x ∉ done → x ∈ route := by
  induction h generalizing n with
  | @refl s done v =>
    obtain ⟨hv, hvd, -, -⟩ := hpl.current v rfl
    have hcons := (hpl.idle v hvd).1
    obtain ⟨m, rfl⟩ : ∃ m, n = m + 1 := by
      have hsub : done ⊆ Finset.range graph.nodes.length := fun x hx => Finset.mem_range.mpr (hpl.lt x hx)
      have := Finset.card_le_card hsub
      rw [Finset.card_range] at this
      exact ⟨n - 1, by omega⟩
    cases he with
    | held u ht hc hu hp =>
      refine ⟨[v], ?_, ?_⟩
      · have hnext : nextPipe graph s v = some u := by simp [nextPipe, ht, hcons, hc]
        rw [PhysicalOptimizer.heldBack, hnext]
        exact if_pos ⟨hu, hp⟩
      · intro x hx hxd
        rw [List.mem_singleton]
        exact (Finset.mem_insert.mp hx).resolve_right hxd
    | straight => cases hr
    | aggregation => cases hr
    | broadcast => cases hr
    | shuffle => cases hr
  | @step s s₁ s' done done' v u w hp hrest ih =>
    obtain ⟨hv, hvd, -, -⟩ := hpl.current v rfl
    have hcons := (hpl.idle v hvd).1
    obtain ⟨m, rfl⟩ : ∃ m, n = m + 1 := by
      have hsub : done ⊆ Finset.range graph.nodes.length := fun x hx => Finset.mem_range.mpr (hpl.lt x hx)
      have := Finset.card_le_card hsub
      rw [Finset.card_range] at this
      exact ⟨n - 1, by omega⟩
    obtain ⟨route, hroute, hmem⟩ := ih (hpl.passes L hp) he m (by rw [Finset.card_insert_of_notMem hvd]; omega)
    rw [hp.heldBack_eq] at hroute
    refine ⟨v :: route, ?_, ?_⟩
    · have hnext : nextPipe graph s v = some u := by
        cases hp with
        | union _ ht hc => simp [nextPipe, ht, hcons, hc]
        | join _ w x ht hc hj ho hw => simp [nextPipe, ht, hcons, hc, ho, hw]
      have hnot : ¬ (isUnioning graph u = true ∧ (s u).primarySources = []) := by
        rintro ⟨hu, hnil⟩
        cases hp with
        | union _ _ _ _ hne => exact hne hnil
        | join _ _ _ _ _ hj => simp [not_union_of_join hj] at hu
      rw [PhysicalOptimizer.heldBack, hnext]
      dsimp only
      rw [if_neg hnot, hroute]
      rfl
    · intro x hx hxd
      by_cases hxv : x = v
      · simp [hxv]
      · exact List.mem_cons_of_mem _ (hmem x hx (by simp [hxv, hxd]))

def JoinsExecuted (plan : List AtomicComputation) (graph : PipeGraph) (E : List Algorithm) (done : Finset ℕ) : Prop :=
  ∀ x ∈ done, ∀ c, graph.head x = some c → c.role = .join → ∃ A ∈ E, A.Joins plan c

structure Sound (plan : List AtomicComputation) (graph : PipeGraph) (E : List Algorithm) (o : Optimizer)
    (done : Finset ℕ) : Prop where
  covered : Covered plan graph E o.nodes done none
  fed : Fed graph E o.nodes done none
  materialized : Materialized graph E done
  joins : JoinsExecuted plan graph E done

theorem Covered.start (L : Layout plan graph) {E : List Algorithm} {s : Nodes} {done : Finset ℕ} {v : ℕ}
    {ps : List PrimarySource} {as : List SourcePageSetSpec} (h : Covered plan graph E s done none)
    (hload : Loads graph v ps as) :
    Covered plan graph E (update s v { s v with primarySources := ps, additionalSources := as }) done
      (some v) := by
  have hnu : isUnioning graph v = false := by
    by_contra hu
    rw [Bool.not_eq_false] at hu
    obtain ⟨c, hc, hr⟩ := exists_head hu
    cases hload with
    | scan c' hh hr' =>
      rw [hc, Option.some.injEq] at hh
      simp [← hh, hr] at hr'
    | copy _ c' _ _ hh hr' =>
      rw [hc, Option.some.injEq] at hh
      simp [← hh, hr] at hr'
    | join _ _ c' _ _ _ _ _ hh hr' =>
      rw [hc, Option.some.injEq] at hh
      simp [← hh, hr] at hr'
  constructor
  · intro u hu p hp
    by_cases huv : u = v
    · subst huv
      rw [update_self] at hp
      refine ⟨[], ?_, L.chain u⟩
      rw [List.nil_append, head?_pipelineOf]
      cases hload with
      | scan c hh => simpa [List.mem_singleton.mp hp] using hh
      | copy _ c _ _ hh => simpa [List.mem_singleton.mp hp] using hh
      | join _ _ c _ _ _ _ _ hh => simpa [List.mem_singleton.mp hp] using hh
    · rw [update_of_ne huv] at hp
      exact h.leads u hu p hp
  · intro x hx c hc
    rcases h.covered x hx c hc with hc | ⟨u, hu, hun, p, hp, q, hq, hcq⟩
    · exact .inl hc
    · have hun' : isUnioning graph u = true := by
        rcases hun with hun | hun
        · exact hun
        · cases hun
      have huv : u ≠ v := by
        rintro rfl
        simp [hnu] at hun'
      exact .inr ⟨u, hu, .inl hun', p, by rwa [update_of_ne huv], q, hq, hcq⟩

theorem JoinsCarried.start (L : Layout plan graph) (wf : WellFormed plan) {s : Nodes} {done : Finset ℕ} {v : ℕ}
    {ps : List PrimarySource} {as : List SourcePageSetSpec} (hload : Loads graph v ps as) :
    JoinsCarried plan graph done (update s v { s v with primarySources := ps, additionalSources := as })
      done v := by
  intro x hx hxd c hc hr
  obtain rfl : x = v := (Finset.mem_insert.mp hx).resolve_right hxd
  cases hload with
  | scan c' hh hr' =>
    rw [hc, Option.some.injEq] at hh
    simp [← hh, hr] at hr'
  | copy _ c' _ _ hh hr' =>
    rw [hc, Option.some.injEq] at hh
    simp [← hh, hr] at hr'
  | join a b c' y z left right swap hh hr' hp hy hz =>
    rw [hc, Option.some.injEq] at hh
    subst hh
    have hab : a ≠ b := L.sides_ne hp hc hr
    refine ⟨_, _, L.join_names wf hp hab hc hr hy hz, by simp [additionalIds], ⟨c, ⟨left, y.getOutputName⟩, swap⟩,
      by simp, [], ⟨?_, L.chain x⟩, .inl ⟨rfl, rfl⟩⟩
    rw [List.nil_append, head?_pipelineOf, hc]

theorem Pipes.sound (L : Layout plan graph) (wf : WellFormed plan) {E : List Algorithm} {s s' : Nodes}
    {done₀ done done' : Finset ℕ} {v w : ℕ} (h : Pipes graph s done v s' done' w)
    (hpl : Planned graph s done (some v)) (hcov : Covered plan graph E s done (some v))
    (hfed : Fed graph E s done (some v)) (hj : JoinsCarried plan graph done₀ s done v) :
    Covered plan graph E s' done' (some w) ∧ Fed graph E s' done' (some w) ∧
      JoinsCarried plan graph done₀ s' done' w := by
  induction h with
  | refl => exact ⟨hcov, hfed, hj⟩
  | @step s s₁ s' done done' v u w hp hr ih =>
    have hpl₁ := hpl.passes L hp
    obtain ⟨-, hud, -, -⟩ := hpl₁.current u rfl
    refine ih hpl₁ ?_ (hfed.passes L hpl hp) (hj.passes L wf hcov hpl hp)
    apply hcov.passes L hpl hud _ (.inr rfl) (hp.edge L)
    · intro p
      cases hp <;> simp
    · intro x hx
      cases hp with
      | union => rw [pass_of_ne hx]
      | join => rw [pass_of_ne hx, addBroadcast_primarySources]
    · cases hp <;> simp [*]

theorem Pipes.heldBack_start (L : Layout plan graph) {o : Optimizer} {s s' : Nodes} {done done' extra : Finset ℕ}
    {v w : ℕ} {ps : List PrimarySource} {as : List SourcePageSetSpec} {result : PlanningResult}
    (h : Pipes graph (update o.nodes v { o.nodes v with primarySources := ps, additionalSources := as }) done v
      s done' w) (hs : Scheduled graph o done) (hvd : v ∉ done)
    (hready : ∀ p ∈ graph.producers v, p ∈ done)
    (hstart : Planned graph
      (update o.nodes v { o.nodes v with primarySources := ps, additionalSources := as }) done (some v))
    (he : Ending graph s w result s' extra) (hr : result.resultType = .unionedPipeline) :
    ∃ route, PhysicalOptimizer.heldBack graph o.nodes (graph.nodes.length + 1) v = some route ∧
      ∀ x ∈ insert w done', x ∉ done → x ∈ route := by
  obtain ⟨route, hroute, hmem⟩ := h.heldBack L hstart he hr (graph.nodes.length + 1) (by omega)
  refine ⟨route, ?_, hmem⟩
  rw [← hroute]
  symm
  apply heldBack_congr
  · intro y
    by_cases hy : y = v <;> simp [hy]
  · intro y
    by_cases hy : y = v <;> simp [hy]
  · intro u hu
    have huv : u ≠ v := by
      rintro rfl
      obtain ⟨y, hy, hyd⟩ := hs.planned.missing u hvd (by simp) (hstart.current u rfl).1 hu
      exact hyd (hready y hy)
    rw [update_of_ne huv]

theorem Round.sound (L : Layout plan graph) (wf : WellFormed plan) {E : List Algorithm} {o o' : Optimizer}
    {done done' : Finset ℕ} {result : PlanningResult} (h : Round graph o done result o' done')
    (hs : Scheduled graph o done) (hi : Sound plan graph E o done)
    (hheld : result.resultType = .unionedPipeline → NoJoinHeldBack graph o) :
    Sound plan graph (E ++ result.runMe.toList) o' done' ∧
      ∀ A, result.runMe = some A → (∀ p ∈ A.primarySources, Readable E p) ∧
        ∀ a ∈ A.secondarySources, ∃ B ∈ E, B.sink.pageSetIdentifier = a.pageSetIdentifier := by
  cases h with
  | @mk size v rest ps as s s' done₁ extra w hsrc hvd hload hstart hpipes hplan hend =>
    have hready := (hstart.current v rfl).2.2.1
    have hnone : JoinsCarried plan graph done
        (update o.nodes v { o.nodes v with primarySources := ps, additionalSources := as }) done v :=
      .start L wf hload
    obtain ⟨hcov, hfed, hjoin⟩ := hpipes.sound L wf hstart (hi.covered.start L hload)
      (hi.fed.start L hs.planned hload hvd hready) hnone
    have hwd := (hplan.current w rfl).2.1
    refine ⟨⟨hcov.ends L hplan hend, hfed.ends L hplan hend, hi.materialized.ends L hpipes hstart hplan hend, ?_⟩, ?_⟩
    · intro x hx c hc hr
      by_cases hxd : x ∈ done
      · obtain ⟨A, hA, hAc⟩ := hi.joins x hxd c hc hr
        exact ⟨A, List.mem_append_left _ hA, hAc⟩
      · rw [Finset.mem_union] at hx
        rcases hx with hx | hx
        · obtain ⟨l, r, hperm, hr', p, hp, q, hq, hside⟩ := hjoin x hx hxd c hc hr
          cases hA : result.runMe with
          | some A =>
            obtain ⟨hprims, hadds, hlast, -, -⟩ := hend.generated hA
            refine ⟨A, by simp, l, r, hperm, ?_, p, _, hq.runs (hprims ▸ hp) hlast, hside⟩
            rw [Algorithm.secondaryIds, hadds]
            exact hr'
          | none =>
            have hres : result.resultType = .unionedPipeline := by
              cases hend with
              | held => rfl
              | straight => cases hA
              | aggregation => cases hA
              | broadcast => cases hA
              | shuffle => cases hA
            obtain ⟨route, hback, hmem⟩ := hpipes.heldBack_start L hs hvd hready hstart hend hres
            have hno := hheld hres (size, v) (by simp [hsrc]) route hback x (hmem x hx hxd)
            have hyes := (startsWithRole_iff hc .join).mpr hr
            rw [isJoining, hyes] at hno
            cases hno
        · -- a write set behind an aggregation starts with the aggregation
          obtain ⟨hp, -⟩ := hend.extra L hx
          obtain ⟨h, -, hh, -, horigin, -⟩ := L.ends x (by
            have hxw : x ∈ graph.consumers w := (L.links w x).mpr (by simp [hp])
            exact (L.bound w x hxw).2)
          rw [hc, Option.some.injEq] at hh
          subst hh
          cases horigin with
          | scan hr' => simp [hr] at hr'
          | copy _ _ hr' => simp [hr] at hr'
          | union _ _ hr' => simp [hr] at hr'
          | join a b _ _ hp' => simp [hp] at hp'
    · intro A hA
      obtain ⟨hprims, hadds, -⟩ := hend.generated hA
      rw [hprims, hadds]
      exact ⟨hfed.primary w hwd, hfed.additional w rfl⟩

end

end PlinyCompute.PhysicalOptimizer
