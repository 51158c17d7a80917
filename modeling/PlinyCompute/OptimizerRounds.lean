import PlinyCompute.PipePlanning

namespace PlinyCompute.PhysicalOptimizer

open LogicalPlan PipeBuilder Transition
open Function (update update_of_ne update_self)

inductive Loads (graph : PipeGraph) (v : ℕ) : List PrimarySource → List SourcePageSetSpec → Prop
  | scan (h : AtomicComputation) (hh : graph.head v = some h) (hr : h.role = .scan) (hp : graph.producers v = []) :
      Loads graph v [⟨h, ⟨.setScanSource, h.getOutputName⟩, false⟩] []
  | copy (p : ℕ) (h x : AtomicComputation) (type : SourceType) (hh : graph.head v = some h)
      (hr : h.role = .agg ∨ h.role = .other) (hp : graph.producers v = [p]) (hx : graph.last p = some x) :
      Loads graph v [⟨h, ⟨type, x.getOutputName⟩, false⟩] []
  | join (p q : ℕ) (h x y : AtomicComputation) (left right : SourceType) (swap : Bool) (hh : graph.head v = some h)
      (hr : h.role = .join) (hp : graph.producers v = [p, q] ∨ graph.producers v = [q, p])
      (hx : graph.last p = some x) (hy : graph.last q = some y) (hright : right = .shuffledJoinTuplesSource)
      (hswap : ∀ rightInput, getRightInput h = .ok rightInput → (swap = true ↔ x.getOutputName = rightInput.setName)) :
      Loads graph v [⟨h, ⟨left, x.getOutputName⟩, swap⟩] [⟨right, y.getOutputName⟩]

def HasSink (graph : PipeGraph) (s : Nodes) (v : ℕ) : Prop :=
  match typeOf graph v with
  | some .straight => 1 < (graph.consumers v).length
  | some .aggregation => True
  | some .joinSide => (s v).state ≠ .notProcessed
  | none => False

structure CostsKnown (graph : PipeGraph) (pageSetCosts : Text → Option ℕ) (s : Nodes) (done : Finset ℕ) : Prop where
  scans : ∀ v h, graph.head v = some h → h.role = .scan → pageSetCosts h.getOutputName ≠ none
  sinks : ∀ v ∈ done, ∀ x, graph.last v = some x → HasSink graph s v → pageSetCosts x.getOutputName ≠ none
  sources : Costed pageSetCosts s done

section

variable {plan : List AtomicComputation} {graph : PipeGraph} (L : Layout plan graph)

theorem sourceFor_sink {s : Nodes} {v : ℕ} {x : AtomicComputation} {sinkType : SinkType} {type : SourceType}
    (h : SinkOf graph s v sinkType) (hx : graph.last v = some x) (ht : getSourceTypeForSinkType sinkType = .ok type) :
    sourceFor (s v).sinkPageSet = .ok ⟨type, x.getOutputName⟩ := by
  obtain ⟨y, hy, hs⟩ := h
  rw [hx, Option.some.injEq] at hy
  subst hy
  rw [sourceFor, hs, ht, ok_bind]
  rfl

theorem kind_of_join {h : AtomicComputation} (hr : h.role = .join) :
    ∃ rightInput rightProjection, h.kind = .applyJoin rightInput rightProjection := by
  unfold AtomicComputation.role at hr
  cases hk : h.kind <;> simp_all

include L

theorem Planned.shuffled {s : Nodes} {done : Finset ℕ} {j a b : ℕ} (h : Planned graph s done none)
    (hj : isJoining graph j = true) (hjd : j ∉ done) (hp : graph.producers j = [a, b]) (ha : a ∈ done) (hb : b ∈ done) :
    (s a).state = .shuffled ∧ typeOf graph a = some .joinSide ∧ SinkOf graph s a .joinShuffleSink ∧
      (s b).state = .shuffled ∧ typeOf graph b = some .joinSide ∧ SinkOf graph s b .joinShuffleSink := by
  have haj : j ∈ graph.consumers a := (L.links a j).mpr (by simp [hp])
  obtain ⟨-, x, -, -, -, hshape⟩ := L.ends a (h.lt a ha)
  have hone : ∀ p, graph.producers j ≠ [p] := by simp [hp]
  cases hshape with
  | write _ _ hc => simp [hc] at haj
  | union u _ _ hu hc =>
    rw [hc, List.mem_singleton] at haj
    simp [haj ▸ not_union_of_join hj] at hu
  | fork _ _ _ hr => exact absurd (hr j haj) (hone a)
  | agg _ _ _ hr _ => exact absurd (hr j haj) (hone a)
  | side j' w ht _ _ hc ho hps =>
    rw [hc, List.mem_singleton] at haj
    subst haj
    have hwb : w = b := by
      rcases hps with hps | hps <;> rw [hp] at hps <;> simp_all
    subst hwb
    obtain ⟨-, htb, hcb, hob⟩ := L.other_of_side (h.lt a ha) ht hc ho
    have hnot : ¬ (j ∈ done ∨ (none : Option ℕ) = some j) := by simp [hjd]
    rcases h.sides a ha w j ht ho hc with ⟨hs, hk, hw⟩ | ⟨hs, hk, hw⟩ | ⟨-, -, hw⟩
    · rcases h.sides w hb a j htb hob hcb with ⟨hs', hk', -⟩ | ⟨hs', -⟩ | ⟨hs', -⟩
      · exact ⟨hs, ht, hk, hs', htb, hk'⟩
      · simp [hw hb] at hs'
      · simp [hw hb] at hs'
    · rcases h.sides w hb a j htb hob hcb with ⟨hs', -⟩ | ⟨hs', -⟩ | ⟨-, -, hj'⟩
      · simp [hw hb] at hs'
      · simp [hw hb] at hs'
      · exact absurd hj' hnot
    · exact absurd hw hnot

theorem getJoinSources_spec {pageSetCosts : Text → Option ℕ} {s : Nodes} {done : Finset ℕ} {v a b : ℕ}
    {h : AtomicComputation} (hpl : Planned graph s done none) (hcost : CostsKnown graph pageSetCosts s done)
    (hh : graph.head v = some h) (hr : h.role = .join) (hvd : v ∉ done) (hp : graph.producers v = [a, b])
    (hprod : (s v).producers = graph.producers v) (ha : a ∈ done) (hb : b ∈ done) :
    ∃ p q x y swap, getJoinSources graph pageSetCosts v s =
        .ok (⟨.shuffledJoinTuplesSource, x.getOutputName⟩, ⟨.shuffledJoinTuplesSource, y.getOutputName⟩, swap) ∧
      (graph.producers v = [p, q] ∨ graph.producers v = [q, p]) ∧ graph.last p = some x ∧ graph.last q = some y ∧
      ∀ rightInput, getRightInput h = .ok rightInput → (swap = true ↔ x.getOutputName = rightInput.setName) := by
  have hj : isJoining graph v = true := (startsWithRole_iff hh _).mpr hr
  obtain ⟨hsa, hta, hka, hsb, htb, hkb⟩ := hpl.shuffled L hj hvd hp ha hb
  obtain ⟨x, hx, hsx⟩ := hka
  obtain ⟨y, hy, hsy⟩ := hkb
  obtain ⟨first, hfirst⟩ := Option.ne_none_iff_exists'.mp (hcost.sinks a ha x hx (by simp [HasSink, hta, hsa]))
  obtain ⟨second, hsecond⟩ := Option.ne_none_iff_exists'.mp (hcost.sinks b hb y hy (by simp [HasSink, htb, hsb]))
  obtain ⟨rightInput, rightProjection, hk⟩ := kind_of_join hr
  have hleft : sourceFor (s a).sinkPageSet = .ok ⟨.shuffledJoinTuplesSource, x.getOutputName⟩ :=
    sourceFor_sink ⟨x, hx, hsx⟩ hx rfl
  have hright : sourceFor (s b).sinkPageSet = .ok ⟨.shuffledJoinTuplesSource, y.getOutputName⟩ :=
    sourceFor_sink ⟨y, hy, hsy⟩ hy rfl
  have hswap : ∀ z : AtomicComputation, ∀ input, (Except.ok rightInput : Except Stop TupleSpec) = .ok input →
      (decide (z.getOutputName = rightInput.setName) = true ↔ z.getOutputName = input.setName) := by
    intro z input hinput
    rw [Except.ok.injEq] at hinput
    rw [decide_eq_true_eq, hinput]
  unfold getJoinSources
  rw [hprod, hp]
  simp only [hsx, hsy, findCost, hfirst, hsecond, ok_bind, front_eq hh, getRightInput, hk]
  by_cases hlt : second < first
  · refine ⟨b, a, y, x, y.getOutputName = rightInput.setName, ?_, .inr rfl, hy, hx, hswap y⟩
    rw [if_pos hlt, if_neg (not_le.mpr hlt)]
    simp only [back_eq hy, ok_bind, hleft, hright]
    rfl
  · refine ⟨a, b, x, y, x.getOutputName = rightInput.setName, ?_, .inl rfl, hx, hy, hswap x⟩
    rw [if_neg hlt, if_pos (not_lt.mp hlt)]
    simp only [back_eq hx, ok_bind, hleft, hright]
    rfl

theorem Planned.load {pageSetCosts : Text → Option ℕ} {s : Nodes} {done : Finset ℕ} {v : ℕ}
    (hpl : Planned graph s done none) (hcost : CostsKnown graph pageSetCosts s done) (hv : v < graph.nodes.length)
    (hvd : v ∉ done) (hready : ∀ p ∈ graph.producers v, p ∈ done) :
    ∃ ps as, Loads graph v ps as ∧
      withSource graph pageSetCosts v s = .ok { s v with primarySources := ps, additionalSources := as } := by
  obtain ⟨h, -, hh, -, horigin, -⟩ := L.ends v hv
  obtain ⟨-, hprod, -⟩ := hpl.idle v hvd
  have hnu : isUnioning graph v = false := by
    by_contra hu
    rw [Bool.not_eq_false] at hu
    obtain ⟨p, hp, hpd⟩ := hpl.missing v hvd (by simp) hv hu
    exact hpd (hready p hp)
  obtain ⟨hps, has⟩ := hpl.empty v hvd (by simp) hnu
  have hrole : ∀ r, startsWithRole graph v r = decide (h.role = r) := by
    intro r
    have := startsWithRole_iff hh r
    by_cases hr : h.role = r <;> simp_all
  unfold withSource
  rw [front_eq hh, ok_bind, hps, has]
  cases horigin with
  | scan hr hp =>
    refine ⟨_, _, .scan h hh hr hp, ?_⟩
    have hj : isJoining graph v = false := by rw [isJoining, hrole, hr]; rfl
    have hs : hasScanSet graph v = true := by rw [hasScanSet, hrole, hr]; rfl
    simp only [hj, hs, getSourcePageSet, front_eq hh, ok_bind, Bool.false_eq_true, ↓reduceIte, has]
    rfl
  | copy p x hr hp hx _ =>
    have hpd := hready p (by simp [hp])
    obtain ⟨-, x', -, hx', -, hshape⟩ := L.ends p (hpl.lt p hpd)
    have hvp : v ∈ graph.consumers p := (L.links p v).mpr (by simp [hp])
    obtain ⟨type, hsrc⟩ : ∃ type, sourceFor (s p).sinkPageSet = .ok ⟨type, x.getOutputName⟩ := by
      cases hshape with
      | write _ _ hc => simp [hc] at hvp
      | union u _ _ hu hc =>
        rw [hc, List.mem_singleton] at hvp
        simp [← hvp, hnu] at hu
      | fork ht _ hc => exact ⟨_, sourceFor_sink (hpl.forked p hpd ht hc) hx rfl⟩
      | agg ht => exact ⟨_, sourceFor_sink (hpl.grouped p hpd ht) hx rfl⟩
      | side j _ _ _ hj hc =>
        rw [hc, List.mem_singleton] at hvp
        subst hvp
        have := (startsWithRole_iff hh _).mp hj
        rcases hr with hr | hr <;> simp [hr] at this
    refine ⟨_, _, .copy p h x type hh hr hp hx, ?_⟩
    have hj : isJoining graph v = false := by rw [isJoining, hrole]; rcases hr with hr | hr <;> rw [hr] <;> rfl
    have hs : hasScanSet graph v = false := by rw [hasScanSet, hrole]; rcases hr with hr | hr <;> rw [hr] <;> rfl
    simp only [hj, hs, getSourcePageSet, hprod, hp, hsrc, ok_bind, Bool.false_eq_true, ↓reduceIte, has]
    rfl
  | join a b hr hab hp =>
    obtain ⟨p, q, x, y, swap, hrun, hpq, hx, hy, hswap⟩ := getJoinSources_spec L hpl hcost hh hr hvd hp hprod
      (hready a (by simp [hp])) (hready b (by simp [hp]))
    refine ⟨_, _, .join p q h x y .shuffledJoinTuplesSource .shuffledJoinTuplesSource swap hh hr hpq hx hy rfl hswap, ?_⟩
    have hj : isJoining graph v = true := by rw [isJoining, hrole, hr]; rfl
    simp only [hj, hrun, ok_bind, ↓reduceIte]
    rfl
  | union a b hr =>
    simp [isUnioning, hrole, hr] at hnu

omit L in
theorem Loads.ne_nil {v : ℕ} {ps : List PrimarySource} {as : List SourcePageSetSpec} (h : Loads graph v ps as) :
    ps ≠ [] := by
  cases h <;> simp

omit L in
theorem Planned.start {s : Nodes} {done : Finset ℕ} {v : ℕ} {ps : List PrimarySource} {as : List SourcePageSetSpec}
    (h : Planned graph s done none) (hv : v < graph.nodes.length) (hvd : v ∉ done)
    (hready : ∀ p ∈ graph.producers v, p ∈ done) (hps : ps ≠ []) :
    Planned graph (update s v { s v with primarySources := ps, additionalSources := as }) done (some v) := by
  have hkeep : ∀ x, (update s v { s v with primarySources := ps, additionalSources := as } x).consumers =
        (s x).consumers ∧
      (update s v { s v with primarySources := ps, additionalSources := as } x).producers = (s x).producers ∧
      (update s v { s v with primarySources := ps, additionalSources := as } x).sinkPageSet =
        (s x).sinkPageSet ∧
      (update s v { s v with primarySources := ps, additionalSources := as } x).state = (s x).state := by
    intro x
    by_cases hx : x = v
    · subst hx
      simp
    · simp [update_of_ne hx]
  have hother : ∀ x, some x ≠ some v →
      update s v { s v with primarySources := ps, additionalSources := as } x = s x := by
    intro x hx
    exact update_of_ne (fun he => hx (by rw [he])) _ _
  constructor
  · exact h.lt
  · exact h.closed
  · intro x hx
    rw [(hkeep x).1, (hkeep x).2.1, (hkeep x).2.2.2]
    exact h.idle x hx
  · intro x hx hxv hun
    rw [hother x hxv]
    exact h.empty x hx (by simp) hun
  · intro u hu huv hun
    rw [hother u huv]
    exact h.waiting u hu (by simp) hun
  · intro u hu _ hlt hun
    exact h.missing u hu (by simp) hlt hun
  · intro x hx ht hlen
    exact (h.forked x hx ht hlen).mono (hkeep x).2.2.1
  · intro x hx ht
    exact (h.grouped x hx ht).mono (hkeep x).2.2.1
  · intro x hx w j ht ho hc
    apply (h.sides x hx w j ht ho hc).mono (hkeep x).2.2.1 (hkeep x).2.2.2 (hkeep w).2.2.2 (fun hw => hw)
    rintro (hj | hj)
    · exact .inl hj
    · cases hj
  · intro x hx
    cases hx
    exact ⟨hv, hvd, hready, by simp [hps]⟩

structure Through (graph : PipeGraph) (done : Finset ℕ) (v : ℕ) (done' : Finset ℕ) (w : ℕ) : Prop where
  subset : done ⊆ done'
  start : v ∈ insert w done'
  next : ∀ p ∈ done', p ∉ done → ∀ c ∈ graph.consumers p, c ∈ insert w done'
  behind : ∀ x ∈ insert w done', x ∉ done → x = v ∨ ∃ p ∈ graph.producers x, p ∉ done

theorem Pipes.through {s s' : Nodes} {done done' : Finset ℕ} {v w : ℕ} (h : Pipes graph s done v s' done' w)
    (hpl : Planned graph s done (some v)) : Through graph done v done' w := by
  induction h with
  | refl =>
    refine ⟨Finset.Subset.refl _, Finset.mem_insert_self _ _, fun p hp hn => absurd hp hn, ?_⟩
    intro x hx hxd
    exact .inl ((Finset.mem_insert.mp hx).resolve_right hxd)
  | @step s s₁ s' done done' v u w hp hr ih =>
    have hcons : graph.consumers v = [u] := by cases hp <;> assumption
    have hvu : v ∈ graph.producers u := (L.links v u).mp (by simp [hcons])
    have hvd := (hpl.current v rfl).2.1
    obtain ⟨hsub, hst, hnext, hbehind⟩ := ih (hpl.passes L hp)
    refine ⟨fun x hx => hsub (Finset.mem_insert_of_mem hx), ?_, ?_, ?_⟩
    · exact Finset.mem_insert_of_mem (hsub (Finset.mem_insert_self _ _))
    · intro p hp' hpd c hc
      by_cases hpv : p = v
      · subst hpv
        rw [hcons, List.mem_singleton] at hc
        rw [hc]
        exact hst
      · exact hnext p hp' (by simp [hpv, hpd]) c hc
    · intro x hx hxd
      by_cases hxv : x = v
      · exact .inl hxv
      · rcases hbehind x hx (by simp [hxv, hxd]) with rfl | ⟨p, hpx, hpd⟩
        · exact .inr ⟨v, hvu, hvd⟩
        · exact .inr ⟨p, hpx, fun hm => hpd (Finset.mem_insert_of_mem hm)⟩

end

section

variable {plan : List AtomicComputation} {graph : PipeGraph}

inductive Round (graph : PipeGraph) (o : Optimizer) (done : Finset ℕ) (result : PlanningResult) :
    Optimizer → Finset ℕ → Prop
  | mk {size v : ℕ} {rest : List (ℕ × ℕ)} {ps : List PrimarySource} {as : List SourcePageSetSpec} {s s' : Nodes}
      {done' extra : Finset ℕ} {w : ℕ} (hs : o.sources = (size, v) :: rest) (hv : v ∉ done)
      (hload : Loads graph v ps as)
      (hstart : Planned graph
        (update o.nodes v { o.nodes v with primarySources := ps, additionalSources := as }) done (some v))
      (hpipes : Pipes graph
        (update o.nodes v { o.nodes v with primarySources := ps, additionalSources := as }) done v s done' w)
      (hplan : Planned graph s done' (some w)) (hend : Ending graph s w result s' extra) :
      Round graph o done result (applyResult o result s' rest) (insert w done' ∪ extra)

structure Scheduled (graph : PipeGraph) (o : Optimizer) (done : Finset ℕ) : Prop where
  planned : Planned graph o.nodes done none
  nodup : (o.sources.map Prod.snd).Nodup
  ready : ∀ v, v ∈ o.sources.map Prod.snd ↔
    v < graph.nodes.length ∧ v ∉ done ∧ ∀ p ∈ graph.producers v, p ∈ done
  costs : CostsKnown graph o.pageSetCosts o.nodes done

theorem insertSource_perm (size v : ℕ) (sources : List (ℕ × ℕ)) :
    (insertSource size v sources).Perm ((size, v) :: sources) := by
  induction sources with
  | nil => exact .refl _
  | cons x xs ih =>
    unfold insertSource
    split
    · exact (ih.cons x).trans (.swap _ _ _)
    · exact .refl _

theorem insertSources_perm (vs : List ℕ) (sources : List (ℕ × ℕ)) :
    ((vs.foldl (fun sources v => insertSource 0 v sources) sources).map Prod.snd).Perm
      (vs ++ sources.map Prod.snd) := by
  induction vs generalizing sources with
  | nil => exact .refl _
  | cons v vs ih =>
    rw [List.foldl_cons]
    apply (ih _).trans
    apply ((insertSource_perm 0 v sources).map Prod.snd).append_left vs |>.trans
    exact List.perm_middle

theorem foldl_update_ne_none (l : List (Text × ℕ)) (costs : Text → Option ℕ) (id : Text)
    (h : costs id ≠ none ∨ id ∈ l.map Prod.fst) :
    l.foldl (fun (costs : Text → Option ℕ) p => update costs p.1 (some 0)) costs id ≠ none := by
  induction l generalizing costs with
  | nil => simpa using h
  | cons p l ih =>
    apply ih
    by_cases he : id = p.1
    · subst he
      simp
    · dsimp only
      rw [update_of_ne he]
      simpa [he] using h

theorem Ending.newSources (L : Layout plan graph) {s s' : Nodes} {done extra : Finset ℕ} {w : ℕ}
    {result : PlanningResult} (h : Planned graph s done (some w)) (he : Ending graph s w result s' extra)
    (h' : Planned graph s' (insert w done ∪ extra) none) :
    result.newSourceNodes.Nodup ∧ (∀ x ∈ result.newSourceNodes, x ∈ graph.consumers w) ∧
      ∀ x ∈ graph.consumers w, x ∈ result.newSourceNodes ↔
        x ∉ insert w done ∪ extra ∧ ∀ p ∈ graph.producers x, p ∈ insert w done ∪ extra := by
  obtain ⟨hw, hwd, hprod, hprim⟩ := h.current w rfl
  have hout : ∀ x ∈ graph.consumers w, x ∉ insert w done := by
    intro x hx hm
    rcases Finset.mem_insert.mp hm with rfl | hm
    · exact L.ne_of_mem hx rfl
    · exact hwd (h.closed x hm w ((L.links w x).mp hx))
  have hlone : ∀ x, graph.producers x = [w] → ∀ p ∈ graph.producers x, p ∈ insert w done ∪ extra := by
    intro x hx p hp
    rw [hx, List.mem_singleton] at hp
    simp [hp]
  cases he with
  | held u ht hc hu hp =>
    refine ⟨.nil, by simp, ?_⟩
    intro x hx
    refine ⟨by simp, ?_⟩
    rintro ⟨hxd, hxp⟩
    rw [hc, List.mem_singleton] at hx
    subst hx
    obtain ⟨p, hpx, hpd⟩ := h'.missing x hxd (by simp) (L.bound w x (by simp [hc])).2 hu
    exact absurd (hxp p hpx) hpd
  | straight x writers ht hx hc =>
    refine ⟨L.nodup w, fun _ hc => hc, ?_⟩
    intro c hcw
    refine ⟨fun _ => ⟨by simpa using hout c hcw, ?_⟩, fun _ => hcw⟩
    apply hlone
    obtain ⟨-, y, -, -, -, hshape⟩ := L.ends w hw
    cases hshape with
    | write _ _ hn => simp [hn] at hcw
    | union u _ _ _ hc' => rcases hc with ⟨hc, -⟩ | ⟨hc, -⟩ <;> simp [hc'] at hc
    | fork _ _ _ hr => exact hr c hcw
    | agg ht' => simp [ht] at ht'
    | side _ _ ht' => simp [ht] at ht'
  | aggregation x kept removed ht hx hk hm =>
    have hnd := hk.nodup_iff.mpr (L.nodup w)
    obtain ⟨hkn, -, hdisj⟩ := List.nodup_append.mp hnd
    refine ⟨hkn, fun c hc => hk.subset (List.mem_append_left _ hc), ?_⟩
    intro c hcw
    have hcr : graph.producers c = [w] := by
      obtain ⟨-, y, -, -, -, hshape⟩ := L.ends w hw
      cases hshape with
      | write ht' => simp [ht] at ht'
      | union _ ht' => simp [ht] at ht'
      | fork ht' => simp [ht] at ht'
      | side _ _ ht' => simp [ht] at ht'
      | agg _ _ _ hr _ => exact hr c hcw
    constructor
    · intro hck
      refine ⟨?_, hlone c hcr⟩
      rw [Finset.mem_union, List.mem_toFinset, not_or]
      exact ⟨hout c hcw, fun hm => hdisj c hck c hm rfl⟩
    · rintro ⟨hcd, -⟩
      rw [Finset.mem_union, List.mem_toFinset, not_or] at hcd
      exact (List.mem_append.mp (hk.symm.subset hcw)).resolve_right hcd.2
  | broadcast j o x ht hx hc ho hstate =>
    obtain ⟨hne, hto, hco, hback⟩ := L.other_of_side hw ht hc ho
    refine ⟨.nil, by simp [broadcastSide], ?_⟩
    intro c hcw
    refine ⟨by simp [broadcastSide], ?_⟩
    rintro ⟨hcd, hcp⟩
    rw [hc, List.mem_singleton] at hcw
    subst hcw
    have hom := hcp o ((L.links o c).mp (by simp [hco]))
    rcases h'.sides o hom w c hto hback hco with ⟨hs, -⟩ | ⟨hs, -⟩ | ⟨-, -, hj⟩
    · simp [broadcastSide, hne, hstate] at hs
    · simp [broadcastSide, hne, hstate] at hs
    · exact absurd hj (by simp only [hcd, false_or, reduceCtorEq, not_false_iff])
  | shuffle j o x ht hx hc ho hstate =>
    obtain ⟨hne, hto, hco, hback⟩ := L.other_of_side hw ht hc ho
    have hnew : (shuffleSide w o x s).1.newSourceNodes = if (s o).state = .shuffled then [j] else [] := by
      simp only [shuffleSide, (h.idle w hwd).1, hc]
    rw [hnew]
    refine ⟨by split_ifs <;> simp, by intro c; split_ifs <;> simp [hc], ?_⟩
    intro c hcw
    rw [hc, List.mem_singleton] at hcw
    subst hcw
    obtain ⟨j', w', hj, hc', ho'⟩ := L.side hw ht
    rw [hc, List.cons.injEq] at hc'
    rw [ho, Option.some.injEq] at ho'
    obtain ⟨rfl, -⟩ := hc'
    subst ho'
    obtain ⟨-, -, -, -, -, hps⟩ := L.other_side hj hc ho ht
    constructor
    · intro hc'
      have hso : (s o).state = .shuffled := by
        by_contra hn
        simp [hn] at hc'
      have hod : o ∈ done := by
        by_contra hn
        simp [(h.idle o hn).2.2] at hso
      refine ⟨by simpa using hout c (by simp [hc]), ?_⟩
      intro p hp
      have : p = w ∨ p = o := by rcases hps with hps | hps <;> simp_all [or_comm]
      rcases this with rfl | rfl <;> simp [hod]
    · rintro ⟨hcd, hcp⟩
      have hom := hcp o (by rcases hps with hps | hps <;> simp [hps])
      have hwm : w ∈ insert w done ∪ (∅ : Finset ℕ) := by simp
      rcases h'.sides w hwm o c ht ho hc with ⟨-, -, hs⟩ | ⟨hs, -⟩ | ⟨hs, -⟩
      · have := hs hom
        simp [shuffleSide, hne] at this
        simp [this]
      · simp [shuffleSide] at hs
      · simp [shuffleSide] at hs

theorem Passes.keep {s s' : Nodes} {v u : ℕ} (h : Passes graph s v s' u) (x : ℕ) :
    (s' x).state = (s x).state ∧ (s' x).sinkPageSet = (s x).sinkPageSet := by
  cases h <;> simp

theorem Pipes.keep {s s' : Nodes} {done done' : Finset ℕ} {v w : ℕ} (h : Pipes graph s done v s' done' w) (x : ℕ) :
    (s' x).state = (s x).state ∧ (s' x).sinkPageSet = (s x).sinkPageSet := by
  induction h with
  | refl => exact ⟨rfl, rfl⟩
  | step hp _ ih => exact ⟨ih.1.trans (hp.keep x).1, ih.2.trans (hp.keep x).2⟩

theorem Ending.keep {s s' : Nodes} {extra : Finset ℕ} {w : ℕ} {result : PlanningResult}
    (h : Ending graph s w result s' extra) {x : ℕ} (hx : x ≠ w) :
    (s' x).state = (s x).state ∧ (s' x).sinkPageSet = (s x).sinkPageSet := by
  cases h with
  | held => simp
  | straight => simp [update_of_ne hx]
  | aggregation =>
    unfold removeConsumers
    split_ifs <;> simp [update_of_ne hx]
  | broadcast => simp [broadcastSide, update_of_ne hx]
  | shuffle => simp [shuffleSide, update_of_ne hx]

theorem Ending.primarySources {s s' : Nodes} {extra : Finset ℕ} {w : ℕ} {result : PlanningResult}
    (h : Ending graph s w result s' extra) {x : ℕ} {p : PrimarySource} (hp : p ∈ (s' x).primarySources) :
    p ∈ (s x).primarySources ∨ p ∈ (s w).primarySources := by
  cases h with
  | held u =>
    by_cases hx : x = u
    · subst hx
      simpa using hp
    · rw [pass_of_ne hx] at hp
      exact .inl hp
  | straight =>
    by_cases hx : x = w
    · subst hx
      exact .inr (by simpa using hp)
    · rw [update_of_ne hx] at hp
      exact .inl hp
  | aggregation =>
    unfold removeConsumers at hp
    by_cases hx : x = w
    · subst hx
      right
      split_ifs at hp <;> simpa using hp
    · left
      split_ifs at hp <;> simpa [update_of_ne hx] using hp
  | broadcast =>
    by_cases hx : x = w
    · subst hx
      exact .inr (by simpa [broadcastSide] using hp)
    · simp only [broadcastSide, update_of_ne hx] at hp
      exact .inl hp
  | shuffle =>
    by_cases hx : x = w
    · subst hx
      exact .inr (by simpa [shuffleSide] using hp)
    · simp only [shuffleSide, update_of_ne hx] at hp
      exact .inl hp

theorem Ending.sinkCost {s s' : Nodes} {extra : Finset ℕ} {w : ℕ} {result : PlanningResult} {x : AtomicComputation}
    (h : Ending graph s w result s' extra) (hx : graph.last w = some x) (hs : HasSink graph s' w) :
    x.getOutputName ∈ result.newPageSets.map Prod.fst := by
  cases h with
  | held u ht hc =>
    simp [HasSink, ht, hc] at hs
  | straight y _ _ hy =>
    rw [hx, Option.some.injEq] at hy
    simp [hy]
  | aggregation y _ _ _ hy =>
    rw [hx, Option.some.injEq] at hy
    simp [hy]
  | broadcast _ _ y _ hy =>
    rw [hx, Option.some.injEq] at hy
    simp [hy, broadcastSide]
  | shuffle _ _ y _ hy =>
    rw [hx, Option.some.injEq] at hy
    simp [hy, shuffleSide]

theorem HasSink.congr {s s' : Nodes} {v : ℕ} (h : (s' v).state = (s v).state) :
    HasSink graph s' v ↔ HasSink graph s v := by
  unfold HasSink
  rw [h]

theorem Pipes.not_sink {s s' : Nodes} {done done' : Finset ℕ} {v w : ℕ} (L : Layout plan graph)
    (h : Pipes graph s done v s' done' w) (hpl : Planned graph s done (some v)) {x : ℕ} (hx : x ∈ done')
    (hxd : x ∉ done) : ¬ HasSink graph s' x := by
  induction h with
  | refl => exact absurd hx hxd
  | @step s s₁ s' done done' v u w hp hr ih =>
    by_cases hxv : x = v
    · subst hxv
      rw [HasSink.congr (hr.keep x).1, HasSink.congr (hp.keep x).1]
      cases hp with
      | union _ ht hc => simp [HasSink, ht, hc]
      | join _ _ _ ht => simp [HasSink, ht, (hpl.idle x hxd).2.2]
    · exact ih (hpl.passes L hp) hx (by simp [hxv, hxd])

theorem Layout.sink_of_copy (L : Layout plan graph) {s : Nodes} {v p : ℕ} {h : AtomicComputation}
    (hp : graph.producers v = [p]) (hh : graph.head v = some h) (hr : h.role = .agg ∨ h.role = .other)
    (hlt : p < graph.nodes.length) : HasSink graph s p := by
  have hvp : v ∈ graph.consumers p := (L.links p v).mpr (by simp [hp])
  obtain ⟨-, y, -, -, -, hshape⟩ := L.ends p hlt
  cases hshape with
  | write _ _ hc => simp [hc] at hvp
  | union u _ _ hu hc =>
    rw [hc, List.mem_singleton] at hvp
    subst hvp
    have := (startsWithRole_iff hh _).mp hu
    rcases hr with hr | hr <;> simp [hr] at this
  | fork ht _ hc => simpa [HasSink, ht] using hc
  | agg ht => simp [HasSink, ht]
  | side j _ _ _ hj hc =>
    rw [hc, List.mem_singleton] at hvp
    subst hvp
    have := (startsWithRole_iff hh _).mp hj
    rcases hr with hr | hr <;> simp [hr] at this

theorem Loads.sinks (L : Layout plan graph) {s : Nodes} {done : Finset ℕ} {v : ℕ} {ps : List PrimarySource}
    {as : List SourcePageSetSpec} (h : Loads graph v ps as) (hpl : Planned graph s done none) (hvd : v ∉ done)
    (hready : ∀ p ∈ graph.producers v, p ∈ done) : ∀ p ∈ graph.producers v, HasSink graph s p := by
  intro p hp
  cases h with
  | scan h hh hr hnil => simp [hnil] at hp
  | copy q h x type hh hr hq hx =>
    rw [hq, List.mem_singleton] at hp
    subst hp
    exact L.sink_of_copy hq hh hr (hpl.lt p (hready p (by simp [hq])))
  | join a b h x y left right swap hh hr hab =>
    have hj : isJoining graph v = true := (startsWithRole_iff hh _).mpr hr
    have hsinks : ∀ a b, graph.producers v = [a, b] → HasSink graph s a ∧ HasSink graph s b := by
      intro a b hab
      obtain ⟨h1, h2, -, h3, h4, -⟩ := hpl.shuffled L hj hvd hab (hready a (by simp [hab])) (hready b (by simp [hab]))
      exact ⟨by simp [HasSink, h1, h2], by simp [HasSink, h3, h4]⟩
    rcases hab with hab | hab
    all_goals
      obtain ⟨h1, h2⟩ := hsinks _ _ hab
      rw [hab, List.mem_pair] at hp
      rcases hp with rfl | rfl
      · exact h1
      · exact h2

theorem Loads.costed {o : Optimizer} {done : Finset ℕ} {v : ℕ} {ps : List PrimarySource}
    {as : List SourcePageSetSpec} (L : Layout plan graph) (h : Loads graph v ps as) (hs : Scheduled graph o done)
    (hvd : v ∉ done) (hready : ∀ p ∈ graph.producers v, p ∈ done) :
    ∀ p ∈ ps, o.pageSetCosts p.source.pageSetIdentifier ≠ none := by
  have hsink := h.sinks L hs.planned hvd hready
  cases h with
  | scan h hh hr => simpa using hs.costs.scans v h hh hr
  | copy p h x type hh hr hp hx =>
    have hpv : p ∈ graph.producers v := by simp [hp]
    simpa using hs.costs.sinks p (hready p hpv) x hx (hsink p hpv)
  | join p q h x y left right swap hh hr hp hx =>
    have hpv : p ∈ graph.producers v := by rcases hp with hp | hp <;> simp [hp]
    simpa using hs.costs.sinks p (hready p hpv) x hx (hsink p hpv)

theorem Ending.extra (L : Layout plan graph) {s s' : Nodes} {extra : Finset ℕ} {w : ℕ} {result : PlanningResult}
    (h : Ending graph s w result s' extra) {x : ℕ} (hx : x ∈ extra) :
    graph.producers x = [w] ∧ typeOf graph x = some .straight ∧ graph.consumers x = [] := by
  cases h with
  | aggregation y kept removed ht hy hk hm =>
    rw [List.mem_toFinset] at hx
    have hxc : x ∈ graph.consumers w := hk.subset (List.mem_append_right _ hx)
    obtain ⟨⟨x', z⟩, hxz, rfl⟩ := List.mem_map.mp hx
    obtain ⟨htx, hcx, -⟩ := L.write_of_materialized (hm _ hxz) (L.bound w _ hxc).2
    refine ⟨?_, htx, hcx⟩
    obtain ⟨-, y', -, -, -, hshape⟩ := L.ends w (L.bound w _ hxc).1
    cases hshape with
    | write ht' => simp [ht] at ht'
    | union _ ht' => simp [ht] at ht'
    | fork ht' => simp [ht] at ht'
    | side _ _ ht' => simp [ht] at ht'
    | agg _ _ _ hr _ => exact hr _ hxc
  | _ => simp at hx

theorem Pipes.costed {pageSetCosts : Text → Option ℕ} (L : Layout plan graph) {s s' : Nodes} {done done' : Finset ℕ}
    {v w : ℕ} (h : Pipes graph s done v s' done' w) (hpl : Planned graph s done (some v))
    (hc : Costed pageSetCosts s done) : Costed pageSetCosts s' done' := by
  induction h with
  | refl => exact hc
  | step hp _ ih => exact ih (hpl.passes L hp) (hc.passes (hpl.current _ rfl).2.1 hp)

theorem Round.scheduled {o o' : Optimizer} {done done' : Finset ℕ} {result : PlanningResult} (L : Layout plan graph)
    (h : Round graph o done result o' done') (hs : Scheduled graph o done) :
    Scheduled graph o' done' ∧ done.card < done'.card := by
  cases h with
  | @mk size v rest ps as s s' done₁ extra w hsrc hvd hload hstart hpipes hplan hend =>
    have hfinal := hplan.ends L hend
    obtain ⟨hnd, hsub, hiff⟩ := hend.newSources L hplan hfinal
    obtain ⟨hincl, hvin, hnext, hbehind⟩ := hpipes.through L hstart
    have hwd := (hplan.current w rfl).2.1
    have hready : ∀ x, x ∈ rest.map Prod.snd →
        x ≠ v ∧ x < graph.nodes.length ∧ x ∉ done ∧ ∀ p ∈ graph.producers x, p ∈ done := by
      intro x hx
      have hnodup := hs.nodup
      rw [hsrc, List.map_cons, List.nodup_cons] at hnodup
      refine ⟨fun he => hnodup.1 (he ▸ hx), (hs.ready x).mp ?_⟩
      rw [hsrc, List.map_cons]
      exact List.mem_cons_of_mem _ hx
    have hvready : ∀ p ∈ graph.producers v, p ∈ done := (hstart.current v rfl).2.2.1
    have hgrow : ∀ x ∈ done, x ∈ insert w done₁ ∪ extra := fun x hx => by simp [hincl hx]
    have hextra := fun x (hx : x ∈ extra) => hend.extra L hx
    have hwnot : w ∉ done := fun hm => hwd (hincl hm)
    have hnew : ∀ x ∈ graph.consumers w, ¬ ∀ p ∈ graph.producers x, p ∈ done :=
      fun x hx hall => hwnot (hall w ((L.links w x).mp hx))
    refine ⟨⟨hfinal, ?_, ?_, ?_, ?_, ?_⟩, ?_⟩
    · apply (insertSources_perm _ _).nodup_iff.mpr
      apply List.nodup_append.mpr
      refine ⟨hnd, ?_, ?_⟩
      · have := hs.nodup
        rw [hsrc, List.map_cons, List.nodup_cons] at this
        exact this.2
      · rintro x hx y hy rfl
        exact hnew x (hsub x hx) (hready x hy).2.2.2
    · intro x
      rw [applyResult, (insertSources_perm _ _).mem_iff, List.mem_append]
      constructor
      · rintro (hx | hx)
        · have hxw := hsub x hx
          obtain ⟨hxd, hxp⟩ := (hiff x hxw).mp hx
          exact ⟨(L.bound w x hxw).2, hxd, hxp⟩
        · obtain ⟨hxv, hlt, hxd, hxp⟩ := hready x hx
          refine ⟨hlt, ?_, fun p hp => hgrow p (hxp p hp)⟩
          rw [Finset.mem_union]
          rintro (hm | hm)
          · rcases hbehind x hm hxd with he | ⟨p, hp, hpd⟩
            · exact hxv he
            · exact hpd (hxp p hp)
          · have := hxp w (by simp [(hextra x hm).1])
            exact hwnot this
      · rintro ⟨hlt, hxd, hxp⟩
        by_cases hall : ∀ p ∈ graph.producers x, p ∈ done
        · right
          have hxs := (hs.ready x).mpr ⟨hlt, fun hm => hxd (hgrow x hm), hall⟩
          rw [hsrc, List.map_cons, List.mem_cons] at hxs
          apply hxs.resolve_left
          rintro rfl
          exact hxd (Finset.mem_union_left _ hvin)
        · left
          push Not at hall
          obtain ⟨p, hp, hpd⟩ := hall
          have hpc := (L.links p x).mpr hp
          have hpm := hxp p hp
          rw [Finset.mem_union, Finset.mem_insert] at hpm
          rcases hpm with (rfl | hpm) | hpm
          · exact (hiff x hpc).mpr ⟨hxd, hxp⟩
          · exact absurd (Finset.mem_union_left _ (hnext p hpm hpd x hpc)) hxd
          · simp [(hextra p hpm).2.2] at hpc
    · intro x h hh hr
      exact foldl_update_ne_none _ _ _ (.inl (hs.costs.scans x h hh hr))
    · intro x hx y hy hsink
      apply foldl_update_ne_none
      rw [Finset.mem_union, Finset.mem_insert] at hx
      by_cases hxw : x = w
      · subst hxw
        exact .inr (hend.sinkCost hy hsink)
      · have hsink' : HasSink graph s x := (HasSink.congr (hend.keep hxw).1).mp hsink
        rcases hx with (hx | hx) | hx
        · exact absurd hx hxw
        · by_cases hxd : x ∈ done
          · left
            apply hs.costs.sinks x hxd y hy
            rw [HasSink.congr (hpipes.keep x).1] at hsink'
            have hxv : x ≠ v := fun he => hvd (he ▸ hxd)
            rwa [HasSink.congr (s := o.nodes) (by rw [update_of_ne hxv])] at hsink'
          · exact absurd hsink' (hpipes.not_sink L hstart hx hxd)
        · obtain ⟨-, ht, hc⟩ := hextra x hx
          simp [HasSink, ht, hc] at hsink
    · have hcosted : Costed o.pageSetCosts s done₁ := by
        apply hpipes.costed L hstart
        intro x hx p hp
        by_cases hxv : x = v
        · subst hxv
          rw [update_self] at hp
          exact hload.costed L hs hvd hvready p hp
        · rw [update_of_ne hxv] at hp
          exact hs.costs.sources x hx p hp
      intro x hx p hp
      apply foldl_update_ne_none
      left
      rw [Finset.mem_union, Finset.mem_insert, not_or, not_or] at hx
      rcases hend.primarySources hp with hp | hp
      · exact hcosted x hx.1.2 p hp
      · exact hcosted w hwd p hp
    · apply Finset.card_lt_card
      rw [Finset.ssubset_iff_of_subset hgrow]
      exact ⟨v, Finset.mem_union_left _ hvin, hvd⟩

theorem Scheduled.planSource (threshold : ℕ) (L : Layout plan graph) {o : Optimizer} {done : Finset ℕ}
    (h : Scheduled graph o done) (ho : o.sources ≠ []) :
    ∃ result o' done', planSource graph threshold o = .ok (result, o') ∧ Round graph o done result o' done' := by
  obtain ⟨⟨size, v⟩, rest, hs⟩ := List.exists_cons_of_ne_nil ho
  obtain ⟨hv, hvd, hready⟩ := (h.ready v).mp (by simp [hs])
  obtain ⟨ps, as, hload, hrun⟩ := h.planned.load L h.costs hv hvd hready
  have hstart : Planned graph
      (update o.nodes v { o.nodes v with primarySources := ps, additionalSources := as }) done (some v) :=
    h.planned.start hv hvd hready hload.ne_nil
  have hcost : Costed o.pageSetCosts
      (update o.nodes v { o.nodes v with primarySources := ps, additionalSources := as }) done := by
    intro x hx p hp
    by_cases hxv : x = v
    · subst hxv
      rw [update_self] at hp
      exact hload.costed L h hvd hready p hp
    · rw [update_of_ne hxv] at hp
      exact h.costs.sources x hx p hp
  obtain ⟨s, done₁, w, result, s', extra, hpipes, hend, hplan, hgen⟩ :=
    hstart.generate L threshold (graph.nodes.length + 1) hcost (by omega)
  refine ⟨result, _, _, ?_, .mk hs hvd hload hstart hpipes hplan hend⟩
  rw [PhysicalOptimizer.planSource, hs]
  dsimp only
  rw [generateAlgorithm, hrun, ok_bind, hgen, ok_bind]
  rfl

theorem Scheduled.all_done (L : Layout plan graph) {o : Optimizer} {done : Finset ℕ} (h : Scheduled graph o done)
    (ho : o.sources = []) (v : ℕ) (hv : v < graph.nodes.length) : v ∈ done := by
  obtain ⟨rank, hrank⟩ := L.acyclic
  induction hr : rank v using Nat.strong_induction_on generalizing v with
  | _ r ih =>
    by_contra hvd
    have hsrc := (h.ready v).mpr ⟨hv, hvd, ?_⟩
    · simp [ho] at hsrc
    · intro p hp
      have hpv := (L.links p v).mpr hp
      exact ih (rank p) (hr ▸ hrank p v hpv) p (L.bound p v hpv).1 rfl

theorem Round.ne_nil_of_held {o o' : Optimizer} {done done' : Finset ℕ} {result : PlanningResult}
    (L : Layout plan graph) (h : Round graph o done result o' done') (hs : Scheduled graph o done)
    (hr : result.resultType = .unionedPipeline) : o'.sources ≠ [] := by
  have hs' := (h.scheduled L hs).1
  intro hnil
  cases h with
  | @mk size v rest ps as s s' done₁ extra w hsrc hvd hload hstart hpipes hplan hend =>
    cases hend with
    | held u ht hc hu hp =>
      have huw : u ∈ graph.consumers w := by simp [hc]
      have hum := hs'.all_done L hnil u (L.bound w u huw).2
      rw [Finset.union_empty, Finset.mem_insert] at hum
      rcases hum with rfl | hum
      · exact L.ne_of_mem huw rfl
      · exact (hplan.current w rfl).2.1 (hplan.closed u hum w ((L.links w u).mp huw))
    | straight => cases hr
    | aggregation => cases hr
    | broadcast => cases hr
    | shuffle => cases hr

def EachRound (graph : PipeGraph) (threshold : ℕ) (cond : Optimizer → Prop) : ℕ → Optimizer → Prop
  | 0, _ => True
  | n + 1, o => cond o ∧ ∀ result o', PhysicalOptimizer.planSource graph threshold o = .ok (result, o') →
      result.resultType = .unionedPipeline → EachRound graph threshold cond n o'

theorem Scheduled.getNextAlgorithm {threshold : ℕ} (L : Layout plan graph) {cond : Optimizer → Prop}
    {inv : Optimizer → Finset ℕ → Prop}
    (hheld : ∀ o done result o' done', Scheduled graph o done → inv o done → cond o →
      Round graph o done result o' done' → result.resultType = .unionedPipeline → inv o' done')
    (n : ℕ) {o : Optimizer} {done : Finset ℕ} (h : Scheduled graph o done) (hi : inv o done)
    (hcond : EachRound graph threshold cond n o) (ho : o.sources ≠ []) (hn : graph.nodes.length < done.card + n) :
    ∃ o₁ done₁ result algorithm o' done', Scheduled graph o₁ done₁ ∧ inv o₁ done₁ ∧ cond o₁ ∧
      Round graph o₁ done₁ result o' done' ∧ done.card ≤ done₁.card ∧ result.resultType = .generatedAlgorithm ∧
      result.runMe = some algorithm ∧
      PhysicalOptimizer.getNextAlgorithm graph threshold n o = .ok (some algorithm, o') := by
  induction n generalizing o done with
  | zero =>
    have hsub : done ⊆ Finset.range graph.nodes.length := fun x hx => Finset.mem_range.mpr (h.planned.lt x hx)
    have := Finset.card_le_card hsub
    rw [Finset.card_range] at this
    omega
  | succ n ih =>
    obtain ⟨result, o', done', hrun, hround⟩ := h.planSource threshold L ho
    obtain ⟨hs', hcard⟩ := hround.scheduled L h
    obtain ⟨hc, hnext⟩ := hcond
    rw [PhysicalOptimizer.getNextAlgorithm, hrun, ok_bind]
    dsimp only
    cases hr : result.resultType with
    | unionedPipeline =>
      have hne := hround.ne_nil_of_held L h hr
      have hrest := ih hs' (hheld _ _ _ _ _ h hi hc hround hr) (hnext result o' hrun hr) hne (by omega)
      obtain ⟨o₁, done₁, result₁, algorithm, o'', done'', h1, h2, h3, h4, h5, h6, h7, h8⟩ := hrest
      refine ⟨o₁, done₁, result₁, algorithm, o'', done'', h1, h2, h3, h4, by omega, h6, h7, ?_⟩
      rw [if_neg (by simp), if_pos (by simpa [Optimizer.hasAlgorithmToRun] using hne), h8]
    | generatedAlgorithm =>
      obtain ⟨algorithm, ha⟩ : ∃ algorithm, result.runMe = some algorithm := by
        cases hround with
        | mk _ _ _ _ _ _ hend =>
          cases hend with
          | held => cases hr
          | _ => exact ⟨_, rfl⟩
      refine ⟨o, done, result, algorithm, o', done', h, hi, hc, hround, le_rfl, hr, ha, ?_⟩
      rw [if_pos rfl, ha]
      rfl

end

end PlinyCompute.PhysicalOptimizer
