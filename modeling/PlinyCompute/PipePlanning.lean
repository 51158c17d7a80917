import PlinyCompute.PipeLayout

namespace PlinyCompute.PhysicalOptimizer

open LogicalPlan PipeBuilder Transition
open Function (update update_of_ne)

def pass (s : Nodes) (v u : ℕ) : Nodes :=
  update s u { s u with
    additionalSources := (s v).additionalSources
    primarySources := (s u).primarySources ++ (s v).primarySources }

section

variable (s : Nodes) (v u x : ℕ)

theorem pass_of_ne {s : Nodes} {v u x : ℕ} (h : x ≠ u) : pass s v u x = s x := update_of_ne h _ _

@[simp] theorem pass_primarySources_self :
    (pass s v u u).primarySources = (s u).primarySources ++ (s v).primarySources := by simp [pass]

@[simp] theorem pass_additionalSources_self : (pass s v u u).additionalSources = (s v).additionalSources := by
  simp [pass]

@[simp] theorem pass_consumers : (pass s v u x).consumers = (s x).consumers := by
  by_cases h : x = u <;> simp [pass, h]

@[simp] theorem pass_producers : (pass s v u x).producers = (s x).producers := by
  by_cases h : x = u <;> simp [pass, h]

@[simp] theorem pass_sinkPageSet : (pass s v u x).sinkPageSet = (s x).sinkPageSet := by
  by_cases h : x = u <;> simp [pass, h]

@[simp] theorem pass_state : (pass s v u x).state = (s x).state := by
  by_cases h : x = u <;> simp [pass, h]

def addBroadcast (s : Nodes) (v : ℕ) (other : AtomicComputation) : Nodes :=
  update s v { s v with
    additionalSources := (s v).additionalSources ++ [⟨.broadcastJoinSource, other.getOutputName⟩] }

variable (c : AtomicComputation)

theorem addBroadcast_of_ne {s : Nodes} {v x : ℕ} {c : AtomicComputation} (h : x ≠ v) : addBroadcast s v c x = s x :=
  update_of_ne h _ _

@[simp] theorem addBroadcast_additionalSources_self : (addBroadcast s v c v).additionalSources =
    (s v).additionalSources ++ [⟨.broadcastJoinSource, c.getOutputName⟩] := by simp [addBroadcast]

@[simp] theorem addBroadcast_primarySources : (addBroadcast s v c x).primarySources = (s x).primarySources := by
  by_cases h : x = v <;> simp [addBroadcast, h]

@[simp] theorem addBroadcast_consumers : (addBroadcast s v c x).consumers = (s x).consumers := by
  by_cases h : x = v <;> simp [addBroadcast, h]

@[simp] theorem addBroadcast_producers : (addBroadcast s v c x).producers = (s x).producers := by
  by_cases h : x = v <;> simp [addBroadcast, h]

@[simp] theorem addBroadcast_sinkPageSet : (addBroadcast s v c x).sinkPageSet = (s x).sinkPageSet := by
  by_cases h : x = v <;> simp [addBroadcast, h]

@[simp] theorem addBroadcast_state : (addBroadcast s v c x).state = (s x).state := by
  by_cases h : x = v <;> simp [addBroadcast, h]

end

inductive Passes (graph : PipeGraph) (s : Nodes) (v : ℕ) : Nodes → ℕ → Prop
  | union (u : ℕ) (ht : typeOf graph v = some .straight) (hc : graph.consumers v = [u])
      (hu : isUnioning graph u = true) (hp : (s u).primarySources ≠ []) : Passes graph s v (pass s v u) u
  | join (j w : ℕ) (x : AtomicComputation) (ht : typeOf graph v = some .joinSide) (hc : graph.consumers v = [j])
      (hj : isJoining graph j = true) (ho : graph.otherSide v = some w) (hw : (s w).state = .broadcasted)
      (hx : graph.last w = some x) : Passes graph s v (pass (addBroadcast s v x) v j) j

inductive Pipes (graph : PipeGraph) : Nodes → Finset ℕ → ℕ → Nodes → Finset ℕ → ℕ → Prop
  | refl {s : Nodes} {done : Finset ℕ} {v : ℕ} : Pipes graph s done v s done v
  | step {s s₁ s' : Nodes} {done done' : Finset ℕ} {v u w : ℕ} (h : Passes graph s v s₁ u)
      (hr : Pipes graph s₁ (insert v done) u s' done' w) : Pipes graph s done v s' done' w

inductive Ending (graph : PipeGraph) (s : Nodes) (v : ℕ) : PlanningResult → Nodes → Finset ℕ → Prop
  | held (u : ℕ) (ht : typeOf graph v = some .straight) (hc : graph.consumers v = [u])
      (hu : isUnioning graph u = true) (hp : (s u).primarySources = []) :
      Ending graph s v ⟨.unionedPipeline, none, [], primaryIds (s v), []⟩ (pass s v u) ∅
  | straight (x : AtomicComputation) (writers : List AtomicComputation) (ht : typeOf graph v = some .straight)
      (hx : graph.last v = some x)
      (hc : graph.consumers v = [] ∧ x.role = .write ∧ writers = [x] ∨
        1 < (graph.consumers v).length ∧ x.role = .other ∧ writers = []) :
      Ending graph s v
        ⟨.generatedAlgorithm, some ⟨.straightPipe, (s v).primarySources, x, ⟨.setSink, x.getOutputName⟩,
          (s v).additionalSources, writers⟩, graph.consumers v, consumedBy (s v) [],
          [(x.getOutputName, (graph.consumers v).length)]⟩
        (update s v { s v with sinkPageSet := ⟨.setSink, x.getOutputName⟩ }) ∅
  | aggregation (x : AtomicComputation) (kept : List ℕ) (removed : List (ℕ × AtomicComputation))
      (ht : typeOf graph v = some .aggregation) (hx : graph.last v = some x)
      (hk : (kept ++ removed.map Prod.fst).Perm (graph.consumers v))
      (hm : ∀ r ∈ removed, materializedBy graph r.1 = some r.2) :
      Ending graph s v
        ⟨.generatedAlgorithm, some ⟨.aggregationPipe ⟨.aggShuffleSink, x.getOutputName ++ hashedToSend⟩
            ⟨.shuffledAggregatesSource, x.getOutputName ++ hashedToRecv⟩, (s v).primarySources, x,
          ⟨.aggregationSink, x.getOutputName⟩, (s v).additionalSources, removed.map Prod.snd⟩, kept,
          if kept = [] then x.getOutputName ::
              consumedBy (s v) [x.getOutputName ++ hashedToSend, x.getOutputName ++ hashedToRecv]
            else consumedBy (s v) [x.getOutputName ++ hashedToSend, x.getOutputName ++ hashedToRecv],
          [(x.getOutputName, if kept = [] then 1 else kept.length), (x.getOutputName ++ hashedToSend, 1),
            (x.getOutputName ++ hashedToRecv, 1)]⟩
        (removeConsumers v (removed.map Prod.fst)
          (update s v { s v with consumers := kept, sinkPageSet := ⟨.aggregationSink, x.getOutputName⟩ }))
        (removed.map Prod.fst).toFinset
  | broadcast (j w : ℕ) (x : AtomicComputation) (ht : typeOf graph v = some .joinSide) (hx : graph.last v = some x)
      (hc : graph.consumers v = [j]) (ho : graph.otherSide v = some w) (hw : (s w).state = .notProcessed) :
      Ending graph s v (broadcastSide v x s).1 (broadcastSide v x s).2 ∅
  | shuffle (j w : ℕ) (x : AtomicComputation) (ht : typeOf graph v = some .joinSide) (hx : graph.last v = some x)
      (hc : graph.consumers v = [j]) (ho : graph.otherSide v = some w) (hw : (s w).state ≠ .broadcasted) :
      Ending graph s v (shuffleSide v w x s).1 (shuffleSide v w x s).2 ∅

def SinkOf (graph : PipeGraph) (s : Nodes) (v : ℕ) (type : SinkType) : Prop :=
  ∃ x, graph.last v = some x ∧ (s v).sinkPageSet = ⟨type, x.getOutputName⟩

def SideOf (graph : PipeGraph) (s : Nodes) (done : Finset ℕ) (cur : Option ℕ) (v w j : ℕ) : Prop :=
  ((s v).state = .shuffled ∧ SinkOf graph s v .joinShuffleSink ∧ (w ∈ done → (s w).state = .shuffled)) ∨
  ((s v).state = .broadcasted ∧ SinkOf graph s v .broadcastJoinSink ∧ (w ∈ done → (s w).state = .notProcessed)) ∨
  ((s v).state = .notProcessed ∧ (s w).state = .broadcasted ∧ (j ∈ done ∨ cur = some j))

structure Planned (graph : PipeGraph) (s : Nodes) (done : Finset ℕ) (cur : Option ℕ) : Prop where
  lt : ∀ v ∈ done, v < graph.nodes.length
  closed : ∀ v ∈ done, ∀ p ∈ graph.producers v, p ∈ done
  idle : ∀ v, v ∉ done → (s v).consumers = graph.consumers v ∧ (s v).producers = graph.producers v ∧
    (s v).state = .notProcessed
  empty : ∀ v, v ∉ done → some v ≠ cur → isUnioning graph v = false →
    (s v).primarySources = [] ∧ (s v).additionalSources = []
  waiting : ∀ u, u ∉ done → some u ≠ cur → isUnioning graph u = true →
    ((s u).primarySources = [] ↔ ∀ p ∈ graph.producers u, p ∉ done)
  missing : ∀ u, u ∉ done → some u ≠ cur → u < graph.nodes.length → isUnioning graph u = true →
    ∃ p ∈ graph.producers u, p ∉ done
  forked : ∀ v ∈ done, typeOf graph v = some .straight → 1 < (graph.consumers v).length → SinkOf graph s v .setSink
  grouped : ∀ v ∈ done, typeOf graph v = some .aggregation → SinkOf graph s v .aggregationSink
  sides : ∀ v ∈ done, ∀ w j, typeOf graph v = some .joinSide → graph.otherSide v = some w →
    graph.consumers v = [j] → SideOf graph s done cur v w j
  current : ∀ v, cur = some v → v < graph.nodes.length ∧ v ∉ done ∧ (∀ p ∈ graph.producers v, p ∈ done) ∧
    (s v).primarySources ≠ []

section

variable {plan : List AtomicComputation} {graph : PipeGraph} (L : Layout plan graph)

include L

theorem Layout.ne_of_mem {i j : ℕ} (h : j ∈ graph.consumers i) : j ≠ i := by
  obtain ⟨rank, hrank⟩ := L.acyclic
  rintro rfl
  exact lt_irrefl _ (hrank j j h)

theorem Layout.union_producers {u v : ℕ} (hu : isUnioning graph u = true) (hv : u ∈ graph.consumers v) :
    ∃ w, w ≠ v ∧ ∀ p, p ∈ graph.producers u ↔ p = v ∨ p = w := by
  obtain ⟨h, -, hh, -, horigin, -⟩ := L.ends u (L.bound v u hv).2
  have hr := (startsWithRole_iff hh _).mp hu
  have hmem := (L.links v u).mp hv
  cases horigin with
  | scan hs => simp [hr] at hs
  | copy p x hs => simp [hr] at hs
  | join a b hs => simp [hr] at hs
  | union a b _ hab hp =>
    rw [hp, List.mem_pair] at hmem
    rcases hmem with rfl | rfl
    · exact ⟨b, hab.symm, by simp [hp]⟩
    · exact ⟨a, hab, by simp [hp, or_comm]⟩

theorem Layout.not_union_of_single {u v : ℕ} (hp : graph.producers u = [v]) : isUnioning graph u = false := by
  by_contra hu
  rw [Bool.not_eq_false] at hu
  have hv : u ∈ graph.consumers v := (L.links v u).mpr (by simp [hp])
  obtain ⟨w, hw, hall⟩ := L.union_producers hu hv
  have := (hall w).mpr (.inr rfl)
  rw [hp, List.mem_singleton] at this
  exact hw this

omit L in
theorem not_union_of_join {j : ℕ} (hj : isJoining graph j = true) : isUnioning graph j = false := by
  obtain ⟨h, hh, hr⟩ := exists_head hj
  by_contra hu
  rw [Bool.not_eq_false] at hu
  have := (startsWithRole_iff hh _).mp hu
  simp [hr] at this

theorem Layout.other_side {v j w : ℕ} (hj : isJoining graph j = true) (hc : graph.consumers v = [j])
    (ho : graph.otherSide v = some w) (ht : typeOf graph v = some .joinSide) :
    w ≠ v ∧ w < graph.nodes.length ∧ typeOf graph w = some .joinSide ∧ graph.consumers w = [j] ∧
      graph.otherSide w = some v ∧ (graph.producers j = [v, w] ∨ graph.producers j = [w, v]) := by
  have hvj : j ∈ graph.consumers v := by simp [hc]
  obtain ⟨h, -, hh, -, horigin, -⟩ := L.ends j (L.bound v j hvj).2
  have hr := (startsWithRole_iff hh _).mp hj
  obtain ⟨a, b, hab, hp⟩ : ∃ a b, a ≠ b ∧ graph.producers j = [a, b] := by
    cases horigin with
    | scan hs => simp [hr] at hs
    | copy p x hs => simp [hr] at hs
    | union a b hs => simp [hr] at hs
    | join a b _ hab hp => exact ⟨a, b, hab, hp⟩
  obtain ⟨-, x, -, -, -, hshape⟩ := L.ends v (L.bound v j hvj).1
  have hsides : graph.producers j = [v, w] ∨ graph.producers j = [w, v] := by
    cases hshape with
    | write ht' => simp [ht] at ht'
    | union u ht' => simp [ht] at ht'
    | fork ht' => simp [ht] at ht'
    | agg ht' => simp [ht] at ht'
    | side j' w' _ _ _ hc' ho' hp' =>
      rw [hc, List.cons.injEq] at hc'
      rw [ho, Option.some.injEq] at ho'
      rw [hc'.1, ho']
      exact hp'
  have hne : w ≠ v := by
    rintro rfl
    have hww : graph.producers j = [w, w] := hsides.elim id id
    rw [hp] at hww
    simp only [List.cons.injEq, and_true] at hww
    exact hab (hww.1.trans hww.2.symm)
  have hwj : j ∈ graph.consumers w := by
    rw [L.links]
    rcases hsides with hs | hs <;> simp [hs]
  obtain ⟨-, y, -, -, -, hshape'⟩ := L.ends w (L.bound w j hwj).1
  refine ⟨hne, (L.bound w j hwj).1, ?_⟩
  have hone : graph.producers j ≠ [w] := by simp [hp]
  cases hshape' with
  | write _ _ hc' => simp [hc'] at hwj
  | union u _ _ hu hc' =>
    rw [hc', List.mem_singleton] at hwj
    simp [hwj ▸ not_union_of_join hj] at hu
  | fork _ _ _ hr' => exact absurd (hr' j hwj) hone
  | agg _ _ _ hr' _ => exact absurd (hr' j hwj) hone
  | side j' w' ht' _ _ hc' ho' hp' =>
    have hjj : j = j' := by simpa [hc'] using hwj
    subst hjj
    refine ⟨ht', hc', ?_, hsides⟩
    rw [ho']
    rcases hsides with hs | hs <;> rcases hp' with hp' | hp' <;> simp_all

theorem Layout.side {v : ℕ} (hv : v < graph.nodes.length) (ht : typeOf graph v = some .joinSide) :
    ∃ j w, isJoining graph j = true ∧ graph.consumers v = [j] ∧ graph.otherSide v = some w := by
  obtain ⟨-, x, -, -, -, hshape⟩ := L.ends v hv
  cases hshape with
  | write ht' => simp [ht] at ht'
  | union _ ht' => simp [ht] at ht'
  | fork ht' => simp [ht] at ht'
  | agg ht' => simp [ht] at ht'
  | side j w _ _ hj hc ho _ => exact ⟨j, w, hj, hc, ho⟩

theorem Layout.eq_consumer {v u x : ℕ} (hc : graph.consumers v = [u]) (hx : v ∈ graph.producers x) : x = u := by
  have := (L.links v x).mpr hx
  rwa [hc, List.mem_singleton] at this

omit L in
theorem SinkOf.mono {s s' : Nodes} {v : ℕ} {type : SinkType} (h : SinkOf graph s v type)
    (he : (s' v).sinkPageSet = (s v).sinkPageSet) : SinkOf graph s' v type := by
  obtain ⟨x, hx, hs⟩ := h
  exact ⟨x, hx, he.trans hs⟩

omit L in
theorem SideOf.mono {s s' : Nodes} {done done' : Finset ℕ} {cur cur' : Option ℕ} {v w j : ℕ}
    (h : SideOf graph s done cur v w j) (hv : (s' v).sinkPageSet = (s v).sinkPageSet)
    (hvs : (s' v).state = (s v).state) (hws : (s' w).state = (s w).state) (hw : w ∈ done' → w ∈ done)
    (hj : j ∈ done ∨ cur = some j → j ∈ done' ∨ cur' = some j) : SideOf graph s' done' cur' v w j := by
  unfold SideOf
  rw [hvs, hws]
  rcases h with ⟨h1, h2, h3⟩ | ⟨h1, h2, h3⟩ | ⟨h1, h2, h3⟩
  · exact .inl ⟨h1, h2.mono hv, fun h => h3 (hw h)⟩
  · exact .inr (.inl ⟨h1, h2.mono hv, fun h => h3 (hw h)⟩)
  · exact .inr (.inr ⟨h1, h2, hj h3⟩)

theorem Planned.passes {s s' : Nodes} {done : Finset ℕ} {v u : ℕ} (h : Planned graph s done (some v))
    (hp : Passes graph s v s' u) : Planned graph s' (insert v done) (some u) := by
  obtain ⟨hv, hvd, hprod, hprim⟩ := h.current v rfl
  have hcons : graph.consumers v = [u] := by cases hp <;> assumption
  have huv : u ∈ graph.consumers v := by simp [hcons]
  have hne : u ≠ v := L.ne_of_mem huv
  have hud : u ∉ done := fun hm => hvd (h.closed u hm v ((L.links v u).mp huv))
  have hother : ∀ x, x ∉ insert v done → some x ≠ some u → s' x = s x := by
    intro x hx hxu
    rw [Finset.mem_insert, not_or] at hx
    have hxu' : x ≠ u := fun he => hxu (by rw [he])
    cases hp with
    | union => exact pass_of_ne hxu'
    | join => rw [pass_of_ne hxu', addBroadcast_of_ne hx.1]
  have hkeep : ∀ x, (s' x).consumers = (s x).consumers ∧ (s' x).producers = (s x).producers ∧
      (s' x).sinkPageSet = (s x).sinkPageSet ∧ (s' x).state = (s x).state := by
    intro x
    cases hp <;> simp
  have hedge : ∀ x, some x ≠ some u → v ∉ graph.producers x :=
    fun x hx hm => hx (by rw [L.eq_consumer hcons hm])
  have hready : ∀ p ∈ graph.producers u, p ∈ insert v done := by
    intro p hpu
    rw [Finset.mem_insert]
    cases hp with
    | union _ ht hc hu hpr =>
      obtain ⟨w, hw, hall⟩ := L.union_producers hu huv
      rcases (hall p).mp hpu with rfl | rfl
      · exact .inl rfl
      · by_contra hnot
        push Not at hnot
        apply hpr
        rw [h.waiting u hud (by simpa using hne) hu]
        intro q hq
        rcases (hall q).mp hq with rfl | rfl
        · exact hvd
        · exact hnot.2
    | join _ w x ht hc hj ho hw hx =>
      obtain ⟨-, -, -, -, -, hps⟩ := L.other_side hj hc ho ht
      have hwd : w ∈ done := by
        by_contra hnot
        rw [(h.idle w hnot).2.2] at hw
        cases hw
      have hpvw : p = v ∨ p = w := by rcases hps with hps | hps <;> simp_all [or_comm]
      rcases hpvw with rfl | rfl
      · exact .inl rfl
      · exact .inr hwd
  constructor
  · intro x hx
    rcases Finset.mem_insert.mp hx with rfl | hx
    · exact hv
    · exact h.lt x hx
  · intro x hx p hpx
    rcases Finset.mem_insert.mp hx with rfl | hx
    · exact Finset.mem_insert_of_mem (hprod p hpx)
    · exact Finset.mem_insert_of_mem (h.closed x hx p hpx)
  · intro x hx
    obtain ⟨hc, hpr, -, hst⟩ := hkeep x
    rw [hc, hpr, hst]
    exact h.idle x fun hm => hx (Finset.mem_insert_of_mem hm)
  · intro x hx hxu hun
    rw [hother x hx hxu]
    rw [Finset.mem_insert, not_or] at hx
    exact h.empty x hx.2 (by simpa using hx.1) hun
  · intro x hx hxu hun
    rw [hother x hx hxu]
    rw [Finset.mem_insert, not_or] at hx
    rw [h.waiting x hx.2 (by simpa using hx.1) hun]
    apply forall₂_congr
    intro p hpx
    have hpv : p ≠ v := fun he => hedge x hxu (he ▸ hpx)
    simp [hpv]
  · intro x hx hxu hlt hun
    rw [Finset.mem_insert, not_or] at hx
    obtain ⟨p, hpx, hpd⟩ := h.missing x hx.2 (by simpa using hx.1) hlt hun
    refine ⟨p, hpx, ?_⟩
    have hpv : p ≠ v := fun he => hedge x hxu (he ▸ hpx)
    simp [hpv, hpd]
  · intro x hx ht hlen
    rcases Finset.mem_insert.mp hx with rfl | hx
    · simp [hcons] at hlen
    · exact (h.forked x hx ht hlen).mono (hkeep x).2.2.1
  · intro x hx ht
    rcases Finset.mem_insert.mp hx with rfl | hx
    · cases hp with
      | union _ ht' => simp [ht] at ht'
      | join _ _ _ ht' => simp [ht] at ht'
    · exact (h.grouped x hx ht).mono (hkeep x).2.2.1
  · intro x hxd w j ht ho hc
    rcases Finset.mem_insert.mp hxd with rfl | hx
    · cases hp with
      | union _ ht' => simp [ht] at ht'
      | join _ w' y ht' hc' hj ho' hw hy =>
        rw [ho, Option.some.injEq] at ho'
        rw [hc, List.cons.injEq] at hc'
        obtain ⟨rfl, -⟩ := hc'
        subst ho'
        refine .inr (.inr ⟨?_, ?_, .inr rfl⟩)
        · rw [(hkeep x).2.2.2]
          exact (h.idle x hvd).2.2
        · rw [(hkeep w).2.2.2, hw]
    · have hside := h.sides x hx w j ht ho hc
      by_cases hwv : w = v
      · -- the other side is the pipe that is passed on
        subst hwv
        obtain ⟨j', w', hj', hc', ho'⟩ := L.side (h.lt x hx) ht
        obtain ⟨-, -, htw, -, hback, -⟩ := L.other_side hj' hc' ho' ht
        rw [ho, Option.some.injEq] at ho'
        subst ho'
        cases hp with
        | union _ ht' => simp [ht'] at htw
        | join _ w' y ht' _ _ ho' hw' =>
          rw [hback, Option.some.injEq] at ho'
          subst ho'
          rcases hside with ⟨hs, -⟩ | ⟨hs, hsink, -⟩ | ⟨hs, -⟩
          · simp [hs] at hw'
          · refine .inr (.inl ⟨?_, hsink.mono (hkeep x).2.2.1, fun _ => ?_⟩)
            · rw [(hkeep x).2.2.2, hs]
            · rw [(hkeep w).2.2.2]
              exact (h.idle w hvd).2.2
          · simp [hs] at hw'
      · apply hside.mono (hkeep x).2.2.1 (hkeep x).2.2.2 (hkeep w).2.2.2
        · intro hm
          exact (Finset.mem_insert.mp hm).resolve_left hwv
        · rintro (hj | hj)
          · exact .inl (Finset.mem_insert_of_mem hj)
          · cases hj
            exact .inl (Finset.mem_insert_self _ _)
  · intro x hx
    cases hx
    refine ⟨(L.bound v u huv).2, by simp [hne, hud], hready, ?_⟩
    cases hp <;> simp [hprim]

omit L in
theorem Planned.close {s s' : Nodes} {done extra : Finset ℕ} {v : ℕ} (h : Planned graph s done (some v))
    (hkeep : ∀ x, x ≠ v → (s' x).sinkPageSet = (s x).sinkPageSet ∧ (s' x).state = (s x).state)
    (hidle : ∀ x, x ∉ insert v done ∪ extra → (s' x).consumers = (s x).consumers ∧
      (s' x).producers = (s x).producers)
    (hempty : ∀ x, x ∉ insert v done ∪ extra → isUnioning graph x = false → s' x = s x)
    (hunion : ∀ u, u ∉ insert v done ∪ extra → isUnioning graph u = true →
      ((s' u).primarySources = [] ↔ ∀ p ∈ graph.producers u, p ∉ insert v done ∪ extra) ∧
      (u < graph.nodes.length → ∃ p ∈ graph.producers u, p ∉ insert v done ∪ extra))
    (hextra : ∀ r ∈ extra, r < graph.nodes.length ∧ graph.producers r = [v] ∧ typeOf graph r = some .straight ∧
      graph.consumers r = [])
    (hforked : typeOf graph v = some .straight → 1 < (graph.consumers v).length → SinkOf graph s' v .setSink)
    (hgrouped : typeOf graph v = some .aggregation → SinkOf graph s' v .aggregationSink)
    (hside : ∀ w j, typeOf graph v = some .joinSide → graph.otherSide v = some w → graph.consumers v = [j] →
      SideOf graph s' (insert v done ∪ extra) none v w j)
    (hback : ∀ x ∈ done, ∀ j, typeOf graph x = some .joinSide → graph.otherSide x = some v →
      graph.consumers x = [j] → SideOf graph s' (insert v done ∪ extra) none x v j)
    (hapart : ∀ x ∈ done, ∀ w, typeOf graph x = some .joinSide → graph.otherSide x = some w → w ∉ extra) :
    Planned graph s' (insert v done ∪ extra) none := by
  obtain ⟨hv, hvd, hprod, hprim⟩ := h.current v rfl
  have hmem : ∀ {x}, x ∈ insert v done ∪ extra ↔ x = v ∨ x ∈ done ∨ x ∈ extra := by
    intro x
    rw [Finset.mem_union, Finset.mem_insert, or_assoc]
  have hold : ∀ {x}, x ∉ insert v done ∪ extra → x ∉ done := fun hx hm => hx (hmem.mpr (.inr (.inl hm)))
  have hne : ∀ {x}, x ∈ done → x ≠ v := fun hx he => hvd (he ▸ hx)
  constructor
  · intro x hx
    rcases hmem.mp hx with rfl | hx | hx
    · exact hv
    · exact h.lt x hx
    · exact (hextra x hx).1
  · intro x hx p hp
    rw [hmem]
    rcases hmem.mp hx with rfl | hx | hx
    · exact .inr (.inl (hprod p hp))
    · exact .inr (.inl (h.closed x hx p hp))
    · rw [(hextra x hx).2.1, List.mem_singleton] at hp
      exact .inl hp
  · intro x hx
    have hxv : x ≠ v := fun he => hx (hmem.mpr (.inl he))
    rw [(hidle x hx).1, (hidle x hx).2, (hkeep x hxv).2]
    exact h.idle x (hold hx)
  · intro x hx _ hun
    rw [hempty x hx hun]
    apply h.empty x (hold hx) _ hun
    exact fun he => hx (hmem.mpr (.inl (Option.some.inj he)))
  · intro u hu _ hun
    exact (hunion u hu hun).1
  · intro u hu _ hlt hun
    exact (hunion u hu hun).2 hlt
  · intro x hx ht hlen
    rcases hmem.mp hx with rfl | hx | hx
    · exact hforked ht hlen
    · exact (h.forked x hx ht hlen).mono (hkeep x (hne hx)).1
    · simp [(hextra x hx).2.2.2] at hlen
  · intro x hx ht
    rcases hmem.mp hx with rfl | hx | hx
    · exact hgrouped ht
    · exact (h.grouped x hx ht).mono (hkeep x (hne hx)).1
    · simp [(hextra x hx).2.2.1] at ht
  · intro x hxm w j ht ho hc
    rcases hmem.mp hxm with rfl | hx | hx
    · exact hside w j ht ho hc
    · by_cases hwv : w = v
      · subst hwv
        exact hback x hx j ht ho hc
      · apply (h.sides x hx w j ht ho hc).mono (hkeep x (hne hx)).1 (hkeep x (hne hx)).2 (hkeep w hwv).2
        · intro hw
          rcases hmem.mp hw with hw | hw | hw
          · exact absurd hw hwv
          · exact hw
          · exact absurd hw (hapart x hx w ht ho)
        · rintro (hj | hj)
          · exact .inl (hmem.mpr (.inr (.inl hj)))
          · cases hj
            exact .inl (hmem.mpr (.inl rfl))
    · simp [(hextra x hx).2.2.1] at ht
  · intro x hx
    cases hx

theorem Planned.union_kept {s s' : Nodes} {done extra : Finset ℕ} {v : ℕ} (h : Planned graph s done (some v))
    (hv : ∀ u, isUnioning graph u = true → u ∉ graph.consumers v)
    (hextra : ∀ r ∈ extra, graph.consumers r = []) {u : ℕ} (hu : u ∉ insert v done ∪ extra)
    (hun : isUnioning graph u = true) (hs : (s' u).primarySources = (s u).primarySources) :
    ((s' u).primarySources = [] ↔ ∀ p ∈ graph.producers u, p ∉ insert v done ∪ extra) ∧
      (u < graph.nodes.length → ∃ p ∈ graph.producers u, p ∉ insert v done ∪ extra) := by
  have hiff : ∀ p ∈ graph.producers u, (p ∉ insert v done ∪ extra ↔ p ∉ done) := by
    intro p hp
    have hpc := (L.links p u).mpr hp
    have hpv : p ≠ v := fun he => hv u hun (he ▸ hpc)
    have hpe : p ∉ extra := by
      intro he
      simp [hextra p he] at hpc
    simp [hpv, hpe]
  rw [Finset.mem_union, Finset.mem_insert, not_or, not_or] at hu
  have hne : some u ≠ some v := by simpa using hu.1.1
  constructor
  · rw [hs, h.waiting u hu.1.2 hne hun]
    exact forall₂_congr fun p hp => (hiff p hp).symm
  · intro hlt
    obtain ⟨p, hp, hpd⟩ := h.missing u hu.1.2 hne hlt hun
    exact ⟨p, hp, (hiff p hp).mpr hpd⟩

theorem Layout.write_of_materialized {r : ℕ} {x : AtomicComputation} (hm : materializedBy graph r = some x)
    (hr : r < graph.nodes.length) : typeOf graph r = some .straight ∧ graph.consumers r = [] ∧
      graph.last r = some x ∧ x.role = .write ∧ ∃ d, pipelineOf graph r = [d, x] ∧ d.role = .agg := by
  obtain ⟨d, hp, hd, hx⟩ : ∃ d, pipelineOf graph r = [d, x] ∧ d.role = .agg ∧ x.role = .write := by
    unfold materializedBy at hm
    split at hm
    · next first second hp =>
      split_ifs at hm with hrole
      cases hm
      exact ⟨first, hp, hrole⟩
    · cases hm
  have hlast : graph.last r = some x := by
    rw [← getLast?_pipelineOf, hp]
    rfl
  obtain ⟨-, y, -, hy, -, hshape⟩ := L.ends r hr
  rw [hlast, Option.some.injEq] at hy
  subst hy
  cases hshape with
  | write ht _ hc => exact ⟨ht, hc, hlast, hx, d, hp, hd⟩
  | union _ _ hw => exact absurd hx hw
  | fork _ ho => simp [hx] at ho
  | agg _ hw => exact absurd hx hw.1
  | side _ _ _ hh => simp [hx] at hh

theorem Layout.not_union_of_type {v u : ℕ} (ht : typeOf graph v ≠ some .straight) (hu : isUnioning graph u = true) :
    u ∉ graph.consumers v := by
  intro hm
  obtain ⟨-, x, -, -, -, hshape⟩ := L.ends v (L.bound v u hm).1
  cases hshape with
  | write ht' => exact ht ht'
  | union _ ht' => exact ht ht'
  | fork ht' => exact ht ht'
  | agg _ _ _ hr _ => simp [L.not_union_of_single (hr u hm)] at hu
  | side j _ _ _ hj hc =>
    rw [hc, List.mem_singleton] at hm
    simp [hm ▸ not_union_of_join hj] at hu

theorem Layout.not_union_of_length {v u : ℕ} (hc : (graph.consumers v).length ≠ 1) (hu : isUnioning graph u = true) :
    u ∉ graph.consumers v := by
  intro hm
  obtain ⟨-, x, -, -, -, hshape⟩ := L.ends v (L.bound v u hm).1
  cases hshape with
  | write _ _ hn => simp [hn] at hm
  | union _ _ _ _ hc' => simp [hc'] at hc
  | fork _ _ _ hr => simp [L.not_union_of_single (hr u hm)] at hu
  | agg _ _ _ hr _ => simp [L.not_union_of_single (hr u hm)] at hu
  | side j _ _ _ hj hc' => simp [hc'] at hc

theorem Planned.not_side {s : Nodes} {done : Finset ℕ} {cur : Option ℕ} {v x : ℕ} (h : Planned graph s done cur)
    (hv : typeOf graph v ≠ some .joinSide) (hx : x ∈ done) (ht : typeOf graph x = some .joinSide)
    (ho : graph.otherSide x = some v) : False := by
  obtain ⟨j, w, hj, hc, hw⟩ := L.side (h.lt x hx) ht
  rw [ho, Option.some.injEq] at hw
  subst hw
  exact hv (L.other_side hj hc ho ht).2.2.1

theorem Layout.other_of_side {v j w : ℕ} (hv : v < graph.nodes.length) (ht : typeOf graph v = some .joinSide)
    (hc : graph.consumers v = [j]) (ho : graph.otherSide v = some w) :
    w ≠ v ∧ typeOf graph w = some .joinSide ∧ graph.consumers w = [j] ∧ graph.otherSide w = some v := by
  obtain ⟨j', w', hj, hc', ho'⟩ := L.side hv ht
  rw [ho, Option.some.injEq] at ho'
  rw [hc, List.cons.injEq] at hc'
  obtain ⟨rfl, -⟩ := hc'
  subst ho'
  obtain ⟨hne, -, htw, hcw, hback, -⟩ := L.other_side hj hc ho ht
  exact ⟨hne, htw, hcw, hback⟩

theorem Planned.close_side {s : Nodes} {done : Finset ℕ} {v : ℕ} {sink : SinkPageSetSpec} {state : JoinState}
    (h : Planned graph s done (some v)) (ht : typeOf graph v = some .joinSide)
    (hside : ∀ w j, graph.otherSide v = some w → graph.consumers v = [j] →
      SideOf graph (update s v { s v with sinkPageSet := sink, state := state }) (insert v done) none v w j)
    (hback : ∀ x ∈ done, ∀ j, typeOf graph x = some .joinSide → graph.otherSide x = some v →
      graph.consumers x = [j] →
      SideOf graph (update s v { s v with sinkPageSet := sink, state := state }) (insert v done) none x v j) :
    Planned graph (update s v { s v with sinkPageSet := sink, state := state }) (insert v done) none := by
  rw [← Finset.union_empty (insert v done)]
  have hother : ∀ y, y ≠ v → update s v { s v with sinkPageSet := sink, state := state } y = s y :=
    fun y hy => update_of_ne hy _ _
  have hout : ∀ y, y ∉ insert v done ∪ ∅ → y ≠ v := by
    rintro y hy rfl
    simp at hy
  apply h.close
  · intro y hy
    simp [hother y hy]
  · intro y hy
    simp [hother y (hout y hy)]
  · intro y hy _
    exact hother y (hout y hy)
  · intro u hu hun
    apply h.union_kept L (fun u hu => L.not_union_of_type (by simp [ht]) hu) (by simp) hu hun
    rw [hother u (hout u hu)]
  · simp
  · intro ht'
    simp [ht] at ht'
  · intro ht'
    simp [ht] at ht'
  · intro w j _ ho hc
    rw [Finset.union_empty]
    exact hside w j ho hc
  · intro x hx j hxt ho hc
    rw [Finset.union_empty]
    exact hback x hx j hxt ho hc
  · simp

theorem Planned.ends {s s' : Nodes} {done extra : Finset ℕ} {v : ℕ} {result : PlanningResult}
    (h : Planned graph s done (some v)) (he : Ending graph s v result s' extra) :
    Planned graph s' (insert v done ∪ extra) none := by
  obtain ⟨hv, hvd, hprod, hprim⟩ := h.current v rfl
  have hvs := (h.idle v hvd).2.2
  cases he with
  | held u ht hc hu hp =>
    have huv : u ∈ graph.consumers v := by simp [hc]
    have hne := L.ne_of_mem huv
    have hud : u ∉ done := fun hm => hvd (h.closed u hm v ((L.links v u).mp huv))
    have hnone := (h.waiting u hud (by simpa using hne) hu).mp hp
    obtain ⟨w, hw, hall⟩ := L.union_producers hu huv
    apply h.close
    · intro x _
      simp
    · intro x _
      simp
    · intro x _ hun
      apply pass_of_ne
      rintro rfl
      simp [hu] at hun
    · intro x hx hun
      by_cases hxu : x = u
      · subst hxu
        rw [pass_primarySources_self, hp, List.nil_append]
        refine ⟨⟨fun hnil => absurd hnil hprim, fun hno => ?_⟩, fun _ => ⟨w, (hall w).mpr (.inr rfl), ?_⟩⟩
        · exact absurd (by simp) (hno v ((hall v).mpr (.inl rfl)))
        · simpa [hw] using hnone w ((hall w).mpr (.inr rfl))
      · have hiff : ∀ p ∈ graph.producers x, (p ∉ insert v done ∪ ∅ ↔ p ∉ done) := by
          intro p hpx
          have hpv : p ≠ v := fun he => hxu (L.eq_consumer hc (he ▸ hpx))
          simp [hpv]
        rw [Finset.union_empty, Finset.mem_insert, not_or] at hx
        have hcur : some x ≠ some v := by simpa using hx.1
        rw [pass_of_ne hxu, h.waiting x hx.2 hcur hun]
        refine ⟨forall₂_congr fun p hpx => (hiff p hpx).symm, fun hlt => ?_⟩
        obtain ⟨p, hpx, hpd⟩ := h.missing x hx.2 hcur hlt hun
        exact ⟨p, hpx, (hiff p hpx).mpr hpd⟩
    · simp
    · intro _ hlen
      simp [hc] at hlen
    · intro ht'
      simp [ht] at ht'
    · intro _ _ ht'
      simp [ht] at ht'
    · intro x hx j htx hox
      exact (h.not_side L (by simp [ht]) hx htx hox).elim
    · simp
  | straight x writers ht hx hc =>
    have hlen : (graph.consumers v).length ≠ 1 := by
      rcases hc with ⟨hc, -⟩ | ⟨hc, -⟩
      · simp [hc]
      · omega
    have hother : ∀ y, y ≠ v → update s v { s v with sinkPageSet := ⟨.setSink, x.getOutputName⟩ } y = s y :=
      fun y hy => update_of_ne hy _ _
    have hout : ∀ y, y ∉ insert v done ∪ ∅ → y ≠ v := by
      rintro y hy rfl
      simp at hy
    apply h.close
    · intro y hy
      simp [hother y hy]
    · intro y hy
      simp [hother y (hout y hy)]
    · intro y hy _
      exact hother y (hout y hy)
    · intro u hu hun
      apply h.union_kept L (fun u hu => L.not_union_of_length hlen hu) (by simp) hu hun
      rw [hother u (hout u hu)]
    · simp
    · intro _ _
      exact ⟨x, hx, by simp⟩
    · intro ht'
      simp [ht] at ht'
    · intro _ _ ht'
      simp [ht] at ht'
    · intro y hy j hty hoy
      exact (h.not_side L (by simp [ht]) hy hty hoy).elim
    · simp
  | aggregation x kept removed ht hx hk hm =>
    have hconsumer : ∀ r ∈ removed.map Prod.fst, r ∈ graph.consumers v :=
      fun r hr => hk.subset (List.mem_append_right _ hr)
    have hlone : ∀ r ∈ graph.consumers v, graph.producers r = [v] := by
      obtain ⟨-, y, -, -, -, hshape⟩ := L.ends v hv
      cases hshape with
      | write ht' => simp [ht] at ht'
      | union _ ht' => simp [ht] at ht'
      | fork ht' => simp [ht] at ht'
      | side _ _ ht' => simp [ht] at ht'
      | agg _ _ _ hr _ => exact hr
    have hextra : ∀ r ∈ (removed.map Prod.fst).toFinset, r < graph.nodes.length ∧ graph.producers r = [v] ∧
        typeOf graph r = some .straight ∧ graph.consumers r = [] := by
      intro r hr
      rw [List.mem_toFinset] at hr
      have hrc := hconsumer r hr
      obtain ⟨⟨r', y⟩, hry, rfl⟩ := List.mem_map.mp hr
      obtain ⟨htr, hcr, -⟩ := L.write_of_materialized (hm _ hry) (L.bound v _ hrc).2
      exact ⟨(L.bound v _ hrc).2, hlone _ hrc, htr, hcr⟩
    have hkeep : ∀ y, y ≠ v → y ∉ removed.map Prod.fst → removeConsumers v (removed.map Prod.fst)
        (update s v { s v with consumers := kept, sinkPageSet := ⟨.aggregationSink, x.getOutputName⟩ }) y =
          s y := by
      intro y hy hr
      rw [removeConsumers, if_neg hr, update_of_ne hy]
    have hfields : ∀ y, (removeConsumers v (removed.map Prod.fst)
        (update s v { s v with consumers := kept, sinkPageSet := ⟨.aggregationSink, x.getOutputName⟩ }) y).sinkPageSet =
          (if y = v then ⟨.aggregationSink, x.getOutputName⟩ else (s y).sinkPageSet) ∧
        (removeConsumers v (removed.map Prod.fst)
        (update s v { s v with consumers := kept, sinkPageSet := ⟨.aggregationSink, x.getOutputName⟩ }) y).state =
          (s y).state := by
      intro y
      unfold removeConsumers
      by_cases hy : y = v <;> split_ifs <;> simp [hy]
    have hout : ∀ y, y ∉ insert v done ∪ (removed.map Prod.fst).toFinset →
        y ≠ v ∧ y ∉ removed.map Prod.fst := by
      intro y hy
      rw [Finset.mem_union, Finset.mem_insert, List.mem_toFinset, not_or, not_or] at hy
      exact ⟨hy.1.1, hy.2⟩
    apply h.close
    · intro y hy
      rw [(hfields y).1, (hfields y).2, if_neg hy]
      exact ⟨rfl, rfl⟩
    · intro y hy
      rw [hkeep y (hout y hy).1 (hout y hy).2]
      exact ⟨rfl, rfl⟩
    · intro y hy _
      exact hkeep y (hout y hy).1 (hout y hy).2
    · intro u hu hun
      apply h.union_kept L (fun u hu => L.not_union_of_type (by simp [ht]) hu) (fun r hr => (hextra r hr).2.2.2) hu hun
      rw [hkeep u (hout u hu).1 (hout u hu).2]
    · exact hextra
    · intro ht'
      simp [ht] at ht'
    · intro _
      exact ⟨x, hx, by rw [(hfields v).1, if_pos rfl]⟩
    · intro _ _ ht'
      simp [ht] at ht'
    · intro y hy j hty hoy
      exact (h.not_side L (by simp [ht]) hy hty hoy).elim
    · intro y hy w hty hoy hw
      refine h.not_side L (v := w) ?_ hy hty hoy
      simp [(hextra w hw).2.2.1]
  | broadcast j w x ht hx hc ho hw =>
    obtain ⟨hne, htw, hcw, hback⟩ := L.other_of_side hv ht hc ho
    have hwd : w ∉ done := by
      intro hwd
      rcases h.sides w hwd v j htw hback hcw with ⟨hs, -⟩ | ⟨hs, -⟩ | ⟨-, hs, -⟩
      · simp [hw] at hs
      · simp [hw] at hs
      · simp [hvs] at hs
    rw [Finset.union_empty]
    apply h.close_side L ht
    · intro w' j' ho' hc'
      rw [ho, Option.some.injEq] at ho'
      subst ho'
      refine .inr (.inl ⟨by simp, ⟨x, hx, by simp⟩, fun hm => ?_⟩)
      exact absurd (Finset.mem_of_mem_insert_of_ne hm hne) hwd
    · intro y hy j' hty hoy hcy
      obtain ⟨-, -, -, hvy⟩ := L.other_of_side (h.lt y hy) hty hcy hoy
      rw [ho, Option.some.injEq] at hvy
      exact absurd (hvy ▸ hy) hwd
  | shuffle j w x ht hx hc ho hw =>
    obtain ⟨hne, htw, hcw, hback⟩ := L.other_of_side hv ht hc ho
    have hshuffled : w ∈ done → (s w).state = .shuffled ∧ SinkOf graph s w .joinShuffleSink := by
      intro hwd
      rcases h.sides w hwd v j htw hback hcw with ⟨hs, hk, -⟩ | ⟨hs, -⟩ | ⟨-, hs, -⟩
      · exact ⟨hs, hk⟩
      · exact absurd hs hw
      · simp [hvs] at hs
    rw [Finset.union_empty]
    apply h.close_side L ht
    · intro w' j' ho' hc'
      rw [ho, Option.some.injEq] at ho'
      subst ho'
      refine .inl ⟨by simp, ⟨x, hx, by simp⟩, fun hm => ?_⟩
      have hwd := Finset.mem_of_mem_insert_of_ne hm hne
      simp [hne, (hshuffled hwd).1]
    · intro y hy j' hty hoy hcy
      obtain ⟨-, -, -, hvy⟩ := L.other_of_side (h.lt y hy) hty hcy hoy
      rw [ho, Option.some.injEq] at hvy
      subst hvy
      obtain ⟨hs, hk⟩ := hshuffled hy
      exact .inl ⟨by simp [hne, hs], hk.mono (by simp [hne]), fun _ => by simp⟩

omit L in
theorem materialize_spec (n : ℕ) (before after : List ℕ) (removed : List (ℕ × AtomicComputation))
    (hn : (before.length + after.length) * (before.length + after.length) + after.length < n)
    (hr : ∀ r ∈ removed, materializedBy graph r.1 = some r.2) :
    ∃ kept removed', materialize graph n before after removed = .ok (kept, removed') ∧
      (kept ++ removed'.map Prod.fst).Perm (before ++ after ++ removed.map Prod.fst) ∧
      ∀ r ∈ removed', materializedBy graph r.1 = some r.2 := by
  induction n generalizing before after removed with
  | zero => omega
  | succ n ih =>
    cases after with
    | nil => exact ⟨before, removed, rfl, by simp, hr⟩
    | cons c after =>
      have hfuel : ∀ m k, m + 1 = before.length + (c :: after).length → k ≤ m → m * m + k < n := by
        intro m k hm hk
        rw [← hm, Nat.add_mul, Nat.mul_add] at hn
        simp only [List.length_cons] at hn
        omega
      cases hc : materializedBy graph c with
      | none =>
        obtain ⟨kept, removed', hrun, hperm, hall⟩ := ih (before ++ [c]) after removed
          (by rw [List.length_append, List.length_singleton, add_assoc, add_comm 1]
              simp only [List.length_cons] at hn
              omega) hr
        exact ⟨kept, removed', by simpa only [materialize, hc] using hrun, by simpa using hperm, hall⟩
      | some x =>
        have hr' : ∀ r ∈ removed ++ [(c, x)], materializedBy graph r.1 = some r.2 := by
          intro r hm
          rcases List.mem_append.mp hm with hm | hm
          · exact hr r hm
          · rw [List.mem_singleton.mp hm, hc]
        cases after with
        | nil =>
          obtain ⟨kept, removed', hrun, hperm, hall⟩ := ih [] before (removed ++ [(c, x)])
            (by simpa using hfuel before.length before.length (by simp) le_rfl) hr'
          refine ⟨kept, removed', by simpa only [materialize, hc] using hrun, hperm.trans ?_, hall⟩
          simp only [List.nil_append, List.map_append, List.map_cons, List.map_nil, List.append_assoc]
          exact List.Perm.append_left before List.perm_append_comm
        | cons d after =>
          obtain ⟨kept, removed', hrun, hperm, hall⟩ := ih (before ++ [d]) after (removed ++ [(c, x)])
            (by have := hfuel (before.length + 1 + after.length) after.length (by simp; omega) (by omega)
                simpa using this) hr'
          refine ⟨kept, removed', by simpa only [materialize, hc] using hrun, hperm.trans ?_, hall⟩
          apply List.perm_iff_count.mpr
          intro a
          simp only [List.map_append, List.map_cons, List.map_nil, List.count_append, List.count_cons, List.count_nil]
          omega

omit L in
theorem getPrimarySourcesSize_eq {pageSetCosts : Text → Option ℕ} {ps : List PrimarySource}
    (h : ∀ p ∈ ps, pageSetCosts p.source.pageSetIdentifier ≠ none) :
    ∃ size, getPrimarySourcesSize pageSetCosts ps = .ok size := by
  induction ps with
  | nil => exact ⟨0, rfl⟩
  | cons p ps ih =>
    obtain ⟨size, hsize⟩ := ih fun q hq => h q (List.mem_cons_of_mem _ hq)
    obtain ⟨cost, hcost⟩ := Option.ne_none_iff_exists'.mp (h p (by simp))
    refine ⟨cost + size, ?_⟩
    rw [getPrimarySourcesSize, findCost, hcost, ok_bind, hsize]
    rfl

omit L in
theorem generatePipelinedAlgorithm_eq {generate : ℕ → Nodes → Planning} {v u : ℕ} {s : Nodes}
    (h : ¬ (isUnioning graph u = true ∧ (s u).primarySources = [])) :
    generatePipelinedAlgorithm graph generate u v s = generate u (pass s v u) := by
  unfold generatePipelinedAlgorithm
  exact if_neg h

omit L in
theorem generateJoinSideAlgorithm_eq {threshold : ℕ} {pageSetCosts : Text → Option ℕ} {generate : ℕ → Nodes → Planning}
    {v w j : ℕ} {s : Nodes} {y : AtomicComputation} (hs : (s v).state = .notProcessed)
    (ho : graph.otherSide v = some w) (hw : (s w).state = .broadcasted) (hy : graph.last w = some y)
    (hc : (s v).consumers = [j]) (hj : isJoining graph j = true) :
    generateJoinSideAlgorithm graph threshold pageSetCosts generate v s =
      generate j (pass (addBroadcast s v y) v j) := by
  have hnu : ¬ (isUnioning graph j = true ∧ ((addBroadcast s v y) j).primarySources = []) := by
    simp [not_union_of_join hj]
  rw [generateJoinSideAlgorithm, if_pos hs, ho]
  dsimp only
  rw [if_pos hw, back_eq hy, ok_bind]
  split
  · next c hc' =>
    rw [hc, List.cons.injEq] at hc'
    rw [← hc'.1]
    exact generatePipelinedAlgorithm_eq hnu
  · next hno => exact absurd hc (hno j)

def Costed (pageSetCosts : Text → Option ℕ) (s : Nodes) (done : Finset ℕ) : Prop :=
  ∀ v ∉ done, ∀ p ∈ (s v).primarySources, pageSetCosts p.source.pageSetIdentifier ≠ none

omit L in
theorem Costed.passes {pageSetCosts : Text → Option ℕ} {s s' : Nodes} {done : Finset ℕ} {v u : ℕ}
    (h : Costed pageSetCosts s done) (hv : v ∉ done) (hp : Passes graph s v s' u) :
    Costed pageSetCosts s' (insert v done) := by
  intro x hx p hpx
  rw [Finset.mem_insert, not_or] at hx
  by_cases hxu : x = u
  · subst hxu
    have hmem : p ∈ (s x).primarySources ∨ p ∈ (s v).primarySources := by
      cases hp <;> simpa using hpx
    rcases hmem with hm | hm
    · exact h x hx.2 p hm
    · exact h v hv p hm
  · apply h x hx.2 p
    cases hp with
    | union => rwa [pass_of_ne hxu] at hpx
    | join => rwa [pass_of_ne hxu, addBroadcast_primarySources] at hpx

theorem Planned.generate (threshold : ℕ) {pageSetCosts : Text → Option ℕ} (n : ℕ) {s : Nodes} {done : Finset ℕ}
    {v : ℕ} (h : Planned graph s done (some v)) (hcost : Costed pageSetCosts s done)
    (hn : graph.nodes.length < done.card + n) :
    ∃ s₁ done₁ w result s' extra, Pipes graph s done v s₁ done₁ w ∧ Ending graph s₁ w result s' extra ∧
      Planned graph s₁ done₁ (some w) ∧
      generateAlgorithmFor graph threshold pageSetCosts n v s = .ok (result, s') := by
  induction n generalizing s done v with
  | zero =>
    have hsub : done ⊆ Finset.range graph.nodes.length := fun x hx => Finset.mem_range.mpr (h.lt x hx)
    have := Finset.card_le_card hsub
    rw [Finset.card_range] at this
    omega
  | succ n ih =>
    obtain ⟨hv, hvd, hprod, hprim⟩ := h.current v rfl
    obtain ⟨hcons, -, hstate⟩ := h.idle v hvd
    obtain ⟨-, x, -, hx, -, hshape⟩ := L.ends v hv
    have hpass : ∀ {s₁ u}, Passes graph s v s₁ u → ∃ s₂ done₂ w result s' extra,
        Pipes graph s done v s₂ done₂ w ∧ Ending graph s₂ w result s' extra ∧ Planned graph s₂ done₂ (some w) ∧
        generateAlgorithmFor graph threshold pageSetCosts n u s₁ = .ok (result, s') := by
      intro s₁ u hp
      obtain ⟨s₂, done₂, w, result, s', extra, hpipes, hend, hplan, hrun⟩ :=
        ih (h.passes L hp) (hcost.passes hvd hp) (by rw [Finset.card_insert_of_notMem hvd]; omega)
      exact ⟨s₂, done₂, w, result, s', extra, .step hp hpipes, hend, hplan, hrun⟩
    rw [generateAlgorithmFor]
    cases hshape with
    | write ht hxr hc =>
      refine ⟨s, done, v, _, _, ∅, .refl, .straight x [x] ht hx (.inl ⟨hc, hxr, rfl⟩), h, ?_⟩
      simp only [ht, generateStraightAlgorithm, hcons, hc, back_eq hx, ok_bind, if_pos, hxr]
      rfl
    | union u ht hxr hu hc =>
      simp only [ht, generateStraightAlgorithm, hcons, hc]
      by_cases hp : (s u).primarySources = []
      · refine ⟨s, done, v, _, _, ∅, .refl, .held u ht hc hu hp, h, ?_⟩
        unfold generatePipelinedAlgorithm
        exact if_pos ⟨hu, hp⟩
      · rw [generatePipelinedAlgorithm_eq fun hh => hp hh.2]
        exact hpass (.union u ht hc hu hp)
    | fork ht hxo hc hr =>
      refine ⟨s, done, v, _, _, ∅, .refl, .straight x [] ht hx (.inr ⟨hc, hxo.1, rfl⟩), h, ?_⟩
      simp only [ht, generateStraightAlgorithm, hcons]
      rcases hl : graph.consumers v with _ | ⟨a, _ | ⟨b, l⟩⟩
      · simp [hl] at hc
      · simp [hl] at hc
      · simp only [back_eq hx, ok_bind]
        rfl
    | agg ht hxo hc hr _ =>
      obtain ⟨kept, removed, hrun, hperm, hall⟩ := materialize_spec
        (((graph.consumers v).length + 1) * ((graph.consumers v).length + 1)) [] (graph.consumers v) []
        (by simp only [List.length_nil, Nat.zero_add, Nat.add_mul, Nat.mul_add]
            omega) (by simp)
      refine ⟨s, done, v, _, _, _, .refl, .aggregation x kept removed ht hx (by simpa using hperm) hall, h, ?_⟩
      simp only [ht, generateAggregationAlgorithm, back_eq hx, ok_bind, hcons]
      rw [hrun]
      rfl
    | side j w ht hxr hj hc ho hps =>
      obtain ⟨hne, htw, hcw, hback⟩ := L.other_of_side hv ht hc ho
      obtain ⟨-, y, -, hy, -, -⟩ := L.ends w (L.bound w j (by simp [hcw])).1
      obtain ⟨size, hsize⟩ := getPrimarySourcesSize_eq fun p hp => hcost v hvd p hp
      simp only [ht]
      by_cases hw : (s w).state = .broadcasted
      · rw [generateJoinSideAlgorithm_eq hstate ho hw hy (hcons.trans hc) hj]
        exact hpass (.join j w y ht hc hj ho hw hy)
      · simp only [generateJoinSideAlgorithm, if_pos hstate, ho]
        rw [if_neg hw, back_eq hx, ok_bind, hsize, ok_bind]
        by_cases hb : size < threshold ∧ (s w).state = .notProcessed
        · rw [if_pos hb]
          exact ⟨s, done, v, _, _, ∅, .refl, .broadcast j w x ht hx hc ho hb.2, h, rfl⟩
        · rw [if_neg hb]
          exact ⟨s, done, v, _, _, ∅, .refl, .shuffle j w x ht hx hc ho hw, h, rfl⟩

end

end PlinyCompute.PhysicalOptimizer
