import PlinyCompute.PhysicalOptimizer
import PlinyCompute.PipeFaithful

namespace PlinyCompute.PhysicalOptimizer

open LogicalPlan PipeBuilder

inductive Shape (plan : List AtomicComputation) (graph : PipeGraph) (v : ℕ) (x : AtomicComputation) : Prop
  | write (ht : typeOf graph v = some .straight) (hx : x.role = .write) (hc : graph.consumers v = [])
  | union (u : ℕ) (ht : typeOf graph v = some .straight) (hx : x.role ≠ .write) (hu : isUnioning graph u = true)
      (hc : graph.consumers v = [u])
  | fork (ht : typeOf graph v = some .straight) (hx : x.role = .other ∧ 1 < (consumers plan x).length)
      (hc : 1 < (graph.consumers v).length) (hr : ∀ c ∈ graph.consumers v, graph.producers c = [v])
  | agg (ht : typeOf graph v = some .aggregation) (hx : x.role ≠ .write ∧ ∃ d ∈ consumers plan x, d.role = .agg)
      (hc : graph.consumers v ≠ []) (hr : ∀ c ∈ graph.consumers v, graph.producers c = [v])
      (hh : ∀ c ∈ graph.consumers v, ∃ d ∈ consumers plan x, graph.head c = some d)
  | side (j w : ℕ) (ht : typeOf graph v = some .joinSide) (hx : x.role = .hash) (hj : isJoining graph j = true)
      (hc : graph.consumers v = [j]) (ho : graph.otherSide v = some w)
      (hp : graph.producers j = [v, w] ∨ graph.producers j = [w, v])

inductive Origin (plan : List AtomicComputation) (graph : PipeGraph) (v : ℕ) (h : AtomicComputation) : Prop
  | scan (hr : h.role = .scan) (hp : graph.producers v = [])
  | copy (p : ℕ) (x : AtomicComputation) (hr : h.role = .agg ∨ h.role = .other) (hp : graph.producers v = [p])
      (hl : graph.last p = some x) (hx : h = x ∨ h ∈ consumers plan x)
  | join (a b : ℕ) (hr : h.role = .join) (hab : a ≠ b) (hp : graph.producers v = [a, b])
  | union (a b : ℕ) (hr : h.role = .union) (hab : a ≠ b) (hp : graph.producers v = [a, b])

structure Layout (plan : List AtomicComputation) (graph : PipeGraph) : Prop where
  ends : ∀ v < graph.nodes.length, ∃ h x, graph.head v = some h ∧ graph.last v = some x ∧
    Origin plan graph v h ∧ Shape plan graph v x
  chain : ∀ v, (pipelineOf graph v).IsChain fun x y => y ∈ consumers plan x
  mem : ∀ v, ∀ c ∈ pipelineOf graph v, c ∈ plan
  links : ∀ i j, j ∈ graph.consumers i ↔ i ∈ graph.producers j
  bound : ∀ i, ∀ j ∈ graph.consumers i, i < graph.nodes.length ∧ j < graph.nodes.length
  nodup : ∀ i, (graph.consumers i).Nodup
  edge : ∀ i, ∀ j ∈ graph.consumers i, ∀ x h, graph.last i = some x → graph.head j = some h →
    h.role = .union ∨ h.role = .join → h ∈ consumers plan x
  lasts : ∀ v w x, graph.last v = some x → graph.last w = some x → v = w
  cover : ∀ c ∈ plan, ∃ v < graph.nodes.length, c ∈ pipelineOf graph v
  joins : ∀ c ∈ plan, c.role = .join → ∃ v < graph.nodes.length, graph.head v = some c
  acyclic : ∃ rank : ℕ → ℕ, ∀ i, ∀ j ∈ graph.consumers i, rank i < rank j
  sources : ∀ v, v ∈ graph.sources ↔ v < graph.nodes.length ∧ hasScanSet graph v = true
  sourcesNodup : graph.sources.Nodup

section

variable {graph : PipeGraph}

theorem pipelineOf_eq {v : ℕ} {node : PhysicalNode} (h : graph.nodes[v]? = some node) :
    pipelineOf graph v = node.pipeline := by
  simp [pipelineOf, h]

theorem head?_pipelineOf (v : ℕ) : (pipelineOf graph v).head? = graph.head v := by
  unfold pipelineOf PipeGraph.head headOf
  cases graph.nodes[v]? <;> rfl

theorem getLast?_pipelineOf (v : ℕ) : (pipelineOf graph v).getLast? = graph.last v := by
  unfold pipelineOf PipeGraph.last lastOf
  cases graph.nodes[v]? <;> rfl

theorem front_eq {v : ℕ} {h : AtomicComputation} (hv : graph.head v = some h) : front graph v = .ok h := by
  rw [front, head?_pipelineOf, hv]

theorem back_eq {v : ℕ} {x : AtomicComputation} (hv : graph.last v = some x) : back graph v = .ok x := by
  rw [back, getLast?_pipelineOf, hv]

theorem startsWithRole_iff {v : ℕ} {h : AtomicComputation} (hv : graph.head v = some h) (r : Role) :
    startsWithRole graph v r = true ↔ h.role = r := by
  rw [startsWithRole, head?_pipelineOf, hv]
  simp

theorem exists_head {v : ℕ} {r : Role} (h : startsWithRole graph v r = true) :
    ∃ c, graph.head v = some c ∧ c.role = r := by
  rw [startsWithRole, head?_pipelineOf, decide_eq_true_eq, Option.map_eq_some_iff] at h
  exact h

end

section

variable {plan : List AtomicComputation} {nodes : List PhysicalNode}

theorem length_inputNames_union {h : AtomicComputation} (hr : h.role = .union) : h.inputNames.length = 2 := by
  unfold AtomicComputation.role at hr
  unfold AtomicComputation.inputNames
  cases hk : h.kind <;> simp_all

theorem eq_of_countP_le {nodes : List PhysicalNode} {p : PhysicalNode → Bool} (hp : nodes.countP p ≤ 1) {i j : ℕ}
    (hi : i ∈ indices nodes p) (hj : j ∈ indices nodes p) : i = j := by
  rw [← countP_range, List.countP_eq_length_filter] at hp
  by_contra hne
  have hsub : [i, j] ⊆ (List.range nodes.length).filter fun k => nodes[k]?.any p := by
    intro k hk
    rcases List.mem_pair.mp hk with rfl | rfl
    · exact hi
    · exact hj
  have hnd : [i, j].Nodup := by simpa using hne
  have := (List.subperm_of_subset hnd hsub).length_le
  simp only [List.length_cons, List.length_nil] at this
  omega

theorem mem_indices_head {j : ℕ} {h : AtomicComputation} :
    j ∈ indices nodes (fun node => node.pipeline.head? = some h) ↔ headOf nodes j = some h := by
  rw [mem_indices, headOf, Option.bind_eq_some_iff]
  simp

theorem mem_indices_last {j : ℕ} {x : AtomicComputation} :
    j ∈ indices nodes (fun node => node.pipeline.getLast? = some x) ↔ lastOf nodes j = some x := by
  rw [mem_indices, lastOf, Option.bind_eq_some_iff]
  simp

theorem length_indices_head (hc : Counted plan nodes) {h : AtomicComputation} (hh : h ∈ plan) :
    (indices nodes fun node => node.pipeline.head? = some h).length = startsAt plan h := by
  rw [← hc.starts h hh, indices, ← List.countP_eq_length_filter, countP_range]

theorem mem_producersOf (wf : WellFormed plan) (hc : Counted plan nodes) {i j : ℕ} :
    i ∈ producersOf nodes j ↔ j ∈ linksOf nodes i := by
  rw [producersOf_eq wf hc.sound, List.mem_filter, List.mem_range, decide_eq_true_eq]
  refine ⟨fun h => h.2, fun h => ⟨?_, h⟩⟩
  obtain ⟨x, -, hx, -⟩ := (mem_linksOf wf hc.sound).mp h
  obtain ⟨node, hn, -⟩ := Option.bind_eq_some_iff.mp hx
  exact (List.getElem?_eq_some_iff.mp hn).1

theorem producersOf_nodup (wf : WellFormed plan) (hc : Counted plan nodes) (j : ℕ) : (producersOf nodes j).Nodup := by
  rw [producersOf_eq wf hc.sound]
  exact List.nodup_range.filter _

theorem linksOf_of_line (wf : WellFormed plan) (hc : Counted plan nodes) {v : ℕ} {x d : AtomicComputation}
    (hx : lastOf nodes v = some x) (hd : target plan x = some d) :
    linksOf nodes v = indices nodes fun node => node.pipeline.head? = some d := by
  rw [linksOf_eq wf hc.sound hx, hd]
  simp

theorem rank_le_last {rank : AtomicComputation → ℕ} (hrank : ∀ c ∈ plan, ∀ d ∈ consumers plan c, rank c < rank d)
    {p : List AtomicComputation} (hchain : p.IsChain fun x y => y ∈ consumers plan x)
    (hmem : ∀ x ∈ p, x ∈ plan) {h x : AtomicComputation} (hhead : p.head? = some h) (hlast : p.getLast? = some x) :
    p = [h] ∨ rank h < rank x := by
  induction p generalizing h with
  | nil => cases hhead
  | cons c p ih =>
    obtain rfl : c = h := Option.some.inj hhead
    cases p with
    | nil => exact .inl rfl
    | cons d p =>
      obtain ⟨hd, hchain⟩ := List.isChain_cons_cons.mp hchain
      have hlt := hrank c (hmem c (by simp)) d hd
      rcases ih hchain (fun y hy => hmem y (List.mem_cons_of_mem _ hy)) rfl (by simpa using hlast) with hp | hp
      · cases hp
        cases hlast
        exact .inr hlt
      · exact .inr (lt_trans hlt hp)

theorem countP_cuts_of_fork (hf : ForksCleanly plan) {x : AtomicComputation} (hx : x ∈ plan)
    (hfork : 1 < (consumers plan x).length) : (consumers plan x).countP Cuts = 0 := by
  apply List.countP_eq_zero.mpr
  simpa using (hf x hx hfork).2

theorem loneAt_of_fork (hf : ForksCleanly plan) {x : AtomicComputation} (hx : x ∈ plan)
    (hfork : 1 < (consumers plan x).length) : loneAt plan x = 0 := by
  have hzero := countP_cuts_of_fork hf hx hfork
  obtain ⟨⟨-, hu, hj⟩, -⟩ := hf x hx hfork
  cases hr : x.role with
  | union => exact absurd hr hu
  | join => exact absurd hr hj
  | _ => simp only [loneAt, hr, hzero, ite_self]

theorem endsAt_le_one (hf : ForksCleanly plan) {x : AtomicComputation} (hx : x ∈ plan) : endsAt plan x ≤ 1 := by
  unfold endsAt
  split_ifs with hr hfork
  · exact le_rfl
  · rw [countP_cuts_of_fork hf hx hfork.1]
  · by_cases hlen : 1 < (consumers plan x).length
    · rw [countP_cuts_of_fork hf hx hlen]
      exact Nat.zero_le 1
    · have := List.countP_le_length (p := fun d => decide (Cuts d)) (l := consumers plan x)
      omega

theorem line_of_cut (hf : ForksCleanly plan) (wf : WellFormed plan) {x d : AtomicComputation}
    (hx : x ∈ plan) (hd : d ∈ consumers plan x) (hcut : Cuts d ∨ x.role = .hash) : consumers plan x = [d] := by
  have hline : ¬ 1 < (consumers plan x).length := by
    intro hfork
    rcases hcut with hcut | hcut
    · exact (hf x hx hfork).2 d hd hcut
    · exact (hf x hx hfork).1.1 hcut
  have hw : x.role ≠ .write := by
    intro hw
    simp [(wf.writes x hx).mpr hw] at hd
  obtain ⟨d', hd'⟩ := wf.exists_consumer hx hw hline
  rw [hd', List.mem_singleton] at hd
  rw [hd', hd]

theorem last_unique (hf : ForksCleanly plan) (hc : Counted plan nodes) {v w : ℕ} {x : AtomicComputation} (hv : lastOf nodes v = some x) (hw : lastOf nodes w = some x) :
    v = w := by
  have hx : x ∈ plan := by
    obtain ⟨node, hn, hl⟩ := Option.bind_eq_some_iff.mp hv
    exact (hc.sound node (List.mem_of_getElem? hn)).mem x (List.mem_of_getLast? hl)
  apply eq_of_countP_le (p := fun node => node.pipeline.getLast? = some x)
  · rw [hc.ends x hx]
    exact endsAt_le_one hf hx
  · exact mem_indices_last.mpr hv
  · exact mem_indices_last.mpr hw

variable (wf : WellFormed plan) (hf : ForksCleanly plan) (hc : Counted plan nodes)

include wf hf hc

theorem producers_agg {c v : ℕ} {d : AtomicComputation} (hd : headOf nodes c = some d) (hr : d.role = .agg)
    (hv : v ∈ producersOf nodes c) : producersOf nodes c = [v] := by
  obtain ⟨-, -, -, hp⟩ := headOf_mem hc.sound hd
  have hlen := (hf.perm_inputs wf hc hd (.inl (.inl hr))).length_eq
  have hs : Single d := ⟨by simp [hr], by simp [hr]⟩
  rw [List.length_map, List.length_map, length_inputs wf hp (by simp [hr]), inputNames_of_single hs] at hlen
  obtain ⟨p, hp⟩ := List.length_eq_one_iff.mp hlen
  rw [hp, List.mem_singleton] at hv
  rw [hp, hv]

theorem exists_two {c : ℕ} {h : AtomicComputation} (hh : headOf nodes c = some h) (hr : h.role = .union) :
    ∃ a b, a ≠ b ∧ producersOf nodes c = [a, b] := by
  obtain ⟨-, -, -, hp⟩ := headOf_mem hc.sound hh
  have hlen := (hf.perm_inputs wf hc hh (.inl (.inr hr))).length_eq
  rw [List.length_map, List.length_map, length_inputs wf hp (by simp [hr]), length_inputNames_union hr] at hlen
  obtain ⟨a, b, hab⟩ := List.length_eq_two.mp hlen
  have hnd := producersOf_nodup wf hc c
  rw [hab] at hnd
  exact ⟨a, b, by simpa using hnd, hab⟩

omit wf in
theorem indices_union {d : AtomicComputation} (hd : d ∈ plan) (hr : d.role = .union) :
    ∃ u, indices nodes (fun node => node.pipeline.head? = some d) = [u] := by
  apply List.length_eq_one_iff.mp
  have hline : ¬ 1 < (consumers plan d).length := fun hfork => (hf d hd hfork).1.2.1 hr
  rw [length_indices_head hc hd]
  simp [startsAt, hr, hline]

end

section

variable {plan : List AtomicComputation} {nodes : List PhysicalNode} {graph : PipeGraph}
  (wf : WellFormed plan) (hf : ForksCleanly plan) (hc : Counted plan nodes)
  (hn : graph.nodes = nodes) (hcons : graph.consumers = linksOf nodes) (hprod : graph.producers = producersOf nodes)

include wf hf hc hn hprod in
theorem origin_of_head {v : ℕ} {h : AtomicComputation} (hv : headOf nodes v = some h) : Origin plan graph v h := by
  rcases role_of_head hc hv with hs | (ha | hu) | hj | ⟨ho, hfork⟩
  · exact .scan hs (by rw [hprod, hf.no_producers wf hc hv hs])
  · have hlen := (hf.perm_inputs wf hc hv (.inl (.inl ha))).length_eq
    obtain ⟨-, -, -, hp⟩ := headOf_mem hc.sound hv
    have hs : Single h := ⟨by simp [ha], by simp [ha]⟩
    rw [List.length_map, List.length_map, length_inputs wf hp (by simp [ha]), inputNames_of_single hs] at hlen
    obtain ⟨p, hp⟩ := List.length_eq_one_iff.mp hlen
    have hmem : v ∈ linksOf nodes p := (mem_producersOf wf hc).mp (by simp [hp])
    obtain ⟨x, t, hx, ht, hvt⟩ := (mem_linksOf wf hc.sound).mp hmem
    rw [hv] at hvt
    cases hvt
    refine .copy p x (.inl ha) (by rw [hprod, hp]) (by rw [PipeGraph.last, hn, hx]) ?_
    rcases target_eq_some ht with ht | ht
    · exact .inr (by simp [ht])
    · exact .inl ht.2.symm
  · obtain ⟨a, b, hab, hp⟩ := exists_two wf hf hc hv hu
    exact .union a b hu hab (by rw [hprod, hp])
  · obtain ⟨a, b, hab, hp⟩ := hf.exists_sides wf hc hv hj
    exact .join a b hj hab (by rw [hprod, hp])
  · obtain ⟨p, -, hp, hx⟩ := hf.exists_copy wf hc hv ho hfork
    exact .copy p h (.inr ho) (by rw [hprod, hp]) (by rw [PipeGraph.last, hn, hx]) (.inl rfl)

include wf hf hc hn hcons hprod in
theorem shape_of_last (hfaith : Faithful plan graph) {v : ℕ} {node : PhysicalNode} (hv : nodes[v]? = some node)
    {x : AtomicComputation} (hx : node.pipeline.getLast? = some x) (he : EndsAs plan x node.type) :
    Shape plan graph v x := by
  have hlast : lastOf nodes v = some x := by simp [lastOf, hv, hx]
  have hxp : x ∈ plan := (hc.sound node (List.mem_of_getElem? hv)).mem x (List.mem_of_getLast? hx)
  have htype : typeOf graph v = some node.type := by simp [typeOf, hn, hv]
  have hwrite : ∀ d ∈ consumers plan x, x.role ≠ .write := by
    intro d hd hw
    simp [(wf.writes x hxp).mpr hw] at hd
  have hhead : ∀ c d, c ∈ indices nodes (fun node => node.pipeline.head? = some d) → graph.head c = some d := by
    intro c d hcd
    rw [PipeGraph.head, hn]
    exact mem_indices_head.mp hcd
  cases ht : node.type with
  | joinSide =>
    rw [ht] at he htype
    have hw : x.role ≠ .write := by simp [show x.role = .hash from he]
    obtain ⟨d, hd⟩ := List.exists_mem_of_ne_nil _ fun h => hw ((wf.writes x hxp).mp h)
    have hline := line_of_cut hf wf hxp hd (.inr he)
    have hdr := (wf.hashes x hxp d hd).mp he
    obtain ⟨j, a, b, hj, hab, hjp, ha, hb⟩ := hfaith.joins d (mem_consumers.mp hd).1 hdr
    have hcj : graph.consumers v = [j] := by
      have hcv := linksOf_of_line wf hc hlast (target_of_line hline)
      have hone : (graph.consumers v).length = 1 := by
        rw [hcons, hcv, length_indices_head hc (mem_consumers.mp hd).1, hf.startsAt_join (mem_consumers.mp hd).1 hdr]
      obtain ⟨k, hk⟩ := List.length_eq_one_iff.mp hone
      have : k = j := (hj k).mp (hhead k d (by rw [← hcv, ← hcons, hk]; simp))
      rw [hk, this]
    have hjoin : isJoining graph j = true := (startsWithRole_iff ((hj j).mpr rfl) _).mpr hdr
    have hmem : v ∈ graph.producers j := (hfaith.links v j).mp (by simp [hcj])
    rw [hjp, List.mem_pair] at hmem
    rcases hmem with rfl | rfl
    · exact .side j b htype he hjoin hcj ha (.inl hjp)
    · exact .side j a htype he hjoin hcj hb (.inr hjp)
  | aggregation =>
    rw [ht] at he htype
    obtain ⟨-, d, hd, hr⟩ := he
    have hdp := (mem_consumers.mp hd).1
    have hcv := linksOf_of_line wf hc hlast (target_of_line (line_of_cut hf wf hxp hd (.inl (.inl hr))))
    refine .agg htype ⟨hwrite d hd, d, hd, hr⟩ ?_ ?_ fun c hcm => ⟨d, hd, hhead c d (by rw [← hcv, ← hcons]; exact hcm)⟩
    · have hpos := wf.length_consumers hdp (by simp [hr])
      apply List.ne_nil_of_length_pos
      rw [hcons, hcv, length_indices_head hc hdp]
      simpa [startsAt, hr] using hpos
    · intro c hcm
      rw [hcons] at hcm
      rw [hprod]
      exact producers_agg wf hf hc (mem_indices_head.mp (hcv ▸ hcm)) hr ((mem_producersOf wf hc).mpr hcm)
  | straight =>
    rw [ht] at he htype
    obtain ⟨hh, hw | ⟨d, hd, hr⟩ | hfork⟩ := he
    · refine .write htype hw ?_
      rw [hcons, linksOf_eq wf hc.sound hlast, target, (wf.writes x hxp).mpr hw]
      rfl
    · have hdp := (mem_consumers.mp hd).1
      have hcv := linksOf_of_line wf hc hlast (target_of_line (line_of_cut hf wf hxp hd (.inl (.inr hr))))
      obtain ⟨u, hu⟩ := indices_union hf hc hdp hr
      refine .union u htype (hwrite d hd) ?_ (by rw [hcons, hcv, hu])
      exact (startsWithRole_iff (hhead u d (by simp [hu])) _).mpr hr
    · -- a scan or an aggregation with several consumers ends no pipe
      have hother : x.role = .other := by
        obtain ⟨⟨hhash, hunion, hjoin⟩, -⟩ := hf x hxp hfork
        have hzero := countP_cuts_of_fork hf hxp hfork
        have hpos : 0 < endsAt plan x := by
          rw [← hc.ends x hxp, List.countP_pos_iff]
          exact ⟨node, List.mem_of_getElem? hv, by simpa using hx⟩
        cases hr : x.role with
        | other => rfl
        | hash => exact absurd hr hhash
        | union => exact absurd hr hunion
        | join => exact absurd hr hjoin
        | write =>
          rw [(wf.writes x hxp).mpr hr] at hfork
          cases hfork
        | scan => simp [endsAt, hr, hzero] at hpos
        | agg => simp [endsAt, hr, hzero] at hpos
      have hcv := linksOf_of_line wf hc hlast (target_of_fork hfork)
      refine .fork htype ⟨hother, hfork⟩ ?_ ?_
      · rw [hcons, hcv, length_indices_head hc hxp]
        simp [startsAt, hother, hfork]
      · intro c hcm
        rw [hcons] at hcm
        obtain ⟨i, -, hi, -⟩ := hf.exists_copy wf hc (mem_indices_head.mp (hcv ▸ hcm)) hother hfork
        have hm := (mem_producersOf wf hc).mpr hcm
        rw [hi, List.mem_singleton] at hm
        rw [hprod, hi, hm]

end

theorem exists_layout {plan : List AtomicComputation} (wf : WellFormed plan) (hf : ForksCleanly plan) :
    ∃ graph, generateAnalyzerGraph plan = .ok graph ∧ Layout plan graph := by
  obtain ⟨b, hb, hc⟩ := buildPipes_counted wf
  obtain ⟨graph, hg, hfaith⟩ := hf.faithful wf hc
  obtain ⟨hn, hcons, hprod⟩ := connectThePipes_nodes hg
  have hgen : generateAnalyzerGraph plan = .ok graph := by
    rw [generateAnalyzerGraph, hb]
    exact hg
  refine ⟨graph, hgen, ?_⟩
  have hlt : ∀ v c, lastOf b.physicalNodes v = some c ∨ headOf b.physicalNodes v = some c →
      v < b.physicalNodes.length := by
    rintro v c (h | h) <;>
    · obtain ⟨node, hv, -⟩ := Option.bind_eq_some_iff.mp h
      exact (List.getElem?_eq_some_iff.mp hv).1
  have hpipe : ∀ v, (∃ node ∈ b.physicalNodes, pipelineOf graph v = node.pipeline) ∨ pipelineOf graph v = [] := by
    intro v
    unfold pipelineOf
    cases hv : graph.nodes[v]? with
    | none => exact .inr rfl
    | some node => exact .inl ⟨node, hn ▸ List.mem_of_getElem? hv, rfl⟩
  constructor
  · intro v hv
    rw [hn] at hv
    obtain ⟨node, hnode⟩ : ∃ node, b.physicalNodes[v]? = some node := ⟨_, List.getElem?_eq_getElem hv⟩
    obtain ⟨x, hx, -, he⟩ := (hc.sound node (List.mem_of_getElem? hnode)).last
    obtain ⟨h, hh⟩ : ∃ h, node.pipeline.head? = some h := by
      cases hp : node.pipeline with
      | nil => simp [hp] at hx
      | cons h p => exact ⟨h, rfl⟩
    refine ⟨h, x, ?_, ?_, ?_, ?_⟩
    · simp [PipeGraph.head, headOf, hn, hnode, hh]
    · simp [PipeGraph.last, lastOf, hn, hnode, hx]
    · exact origin_of_head wf hf hc hn hprod (by simp [headOf, hnode, hh])
    · exact shape_of_last wf hf hc hn hcons hprod hfaith hnode hx he
  · intro v
    rcases hpipe v with ⟨node, hm, hp⟩ | hp
    · rw [hp]
      exact (hc.sound node hm).chain
    · rw [hp]
      exact .nil
  · intro v c hcv
    rcases hpipe v with ⟨node, hm, hp⟩ | hp
    · rw [hp] at hcv
      exact (hc.sound node hm).mem c hcv
    · simp [hp] at hcv
  · exact hfaith.links
  · intro i j hj
    rw [hcons] at hj
    obtain ⟨x, h, hx, -, hh⟩ := (mem_linksOf wf hc.sound).mp hj
    rw [hn]
    exact ⟨hlt i x (.inl hx), hlt j h (.inr hh)⟩
  · intro i
    rw [hcons]
    exact linksOf_nodup wf hc.sound i
  · intro i j hj x h hx hh hr
    rw [hcons] at hj
    obtain ⟨x', h', hx', ht, hh'⟩ := (mem_linksOf wf hc.sound).mp hj
    rw [PipeGraph.last, hn, hx'] at hx
    rw [PipeGraph.head, hn, hh'] at hh
    cases hx
    cases hh
    rcases target_eq_some ht with hline | ⟨hfork, rfl⟩
    · simp [hline]
    · obtain ⟨-, -, -, hxp⟩ := headOf_mem hc.sound hh'
      obtain ⟨⟨-, hu, hjn⟩, -⟩ := hf _ hxp hfork
      exact absurd hr (by simp [hu, hjn])
  · intro v w x hv hw
    rw [PipeGraph.last, hn] at hv hw
    exact last_unique hf hc hv hw
  · intro c hcp
    have hin : ∀ node ∈ b.physicalNodes, c ∈ node.pipeline → ∃ v < graph.nodes.length, c ∈ pipelineOf graph v := by
      intro node hm hcn
      obtain ⟨v, hv⟩ := List.getElem?_of_mem hm
      rw [← hn] at hv
      exact ⟨v, (List.getElem?_eq_some_iff.mp hv).1, by rwa [pipelineOf_eq hv]⟩
    by_cases hw : c.role = .write
    · have hpos : 0 < b.physicalNodes.countP fun node => node.pipeline.getLast? = some c := by
        rw [hc.ends c hcp]
        simp [endsAt, hw]
      obtain ⟨node, hm, hl⟩ := List.countP_pos_iff.mp hpos
      exact hin node hm (List.mem_of_getLast? (by simpa using hl))
    · obtain ⟨y, hy⟩ := List.exists_mem_of_ne_nil _ fun h => hw ((wf.writes c hcp).mp h)
      have hone := hf.realised wf hc hcp hy
      by_cases hsum : (b.physicalNodes.map fun node => (adjacent node.pipeline).count (c, y)).sum = 0
      · have hpos : 0 < (List.range b.physicalNodes.length).countP fun i =>
            lastOf b.physicalNodes i = some c ∧ ∃ j ∈ linksOf b.physicalNodes i, headOf b.physicalNodes j = some y := by
          omega
        obtain ⟨i, -, hi⟩ := List.countP_pos_iff.mp hpos
        obtain ⟨node, hni, hl⟩ := Option.bind_eq_some_iff.mp (of_decide_eq_true hi).1
        exact hin node (List.mem_of_getElem? hni) (List.mem_of_getLast? hl)
      · obtain ⟨n, hmn, hne⟩ : ∃ n ∈ b.physicalNodes.map (fun node => (adjacent node.pipeline).count (c, y)), n ≠ 0 := by
          by_contra hall
          push Not at hall
          exact hsum (List.sum_eq_zero hall)
        obtain ⟨node, hm, rfl⟩ := List.mem_map.mp hmn
        have hadj := List.count_pos_iff.mp (Nat.pos_of_ne_zero hne)
        exact hin node hm (List.of_mem_zip hadj).1
  · intro c hcp hr
    obtain ⟨v, hv⟩ := hf.exists_join hc hcp hr
    have hhead := (hv v).mpr rfl
    rw [PipeGraph.head, hn]
    exact ⟨v, hlt v c (.inr hhead), hhead⟩
  · obtain ⟨rank, hrank⟩ := wf.acyclic
    refine ⟨fun v => ((graph.last v).map rank).getD 0, ?_⟩
    intro i j hj
    rw [hcons] at hj
    obtain ⟨x, h, hx, ht, hh⟩ := (mem_linksOf wf hc.sound).mp hj
    obtain ⟨node, hnode, hhead⟩ := Option.bind_eq_some_iff.mp hh
    have hm := List.mem_of_getElem? hnode
    obtain ⟨y, hy, -⟩ := (hc.sound node hm).last
    have hxp : x ∈ plan := by
      obtain ⟨_, hni, hl⟩ := Option.bind_eq_some_iff.mp hx
      exact (hc.sound _ (List.mem_of_getElem? hni)).mem x (List.mem_of_getLast? hl)
    have hyj : lastOf b.physicalNodes j = some y := by simp [lastOf, hnode, hy]
    simp only [PipeGraph.last, hn, hx, hyj, Option.map_some, Option.getD_some]
    have hpath := rank_le_last hrank (hc.sound node hm).chain (hc.sound node hm).mem hhead hy
    rcases target_eq_some ht with hline | ⟨hfork, rfl⟩
    · have hlt := hrank x hxp h (by simp [hline])
      rcases hpath with hp | hp
      · rw [hp] at hy
        cases hy
        exact hlt
      · exact lt_trans hlt hp
    · rcases hpath with hp | hp
      · -- no copy of a fork is a pipe of its own
        have hlone : 0 < b.physicalNodes.countP fun node => node.pipeline = [x] :=
          List.countP_pos_iff.mpr ⟨node, hm, by simpa using hp⟩
        rw [hc.lone x hxp, loneAt_of_fork hf hxp hfork] at hlone
        cases hlone
      · exact hp
  · intro v
    rw [hfaith.sources]
    constructor
    · rintro ⟨h, hh, hr⟩
      refine ⟨?_, (startsWithRole_iff hh _).mpr hr⟩
      rw [PipeGraph.head, hn] at hh
      rw [hn]
      exact hlt v h (.inr hh)
    · rintro ⟨-, hs⟩
      exact exists_head hs
  · have hsrc : graph.sources = indices b.physicalNodes (·.hasScanSet) := by
      unfold connectThePipes at hg
      cases hrun : (indices b.physicalNodes (·.isJoining)).foldlM (setOtherSide b.physicalNodes) fun _ => none with
      | error e =>
        rw [hrun] at hg
        cases hg
      | ok otherSide =>
        rw [hrun] at hg
        cases hg
        rfl
    rw [hsrc]
    exact indices_nodup _ _

end PlinyCompute.PhysicalOptimizer
