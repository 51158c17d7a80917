import PlinyCompute.PipeGraph

namespace PlinyCompute.PipeBuilder

open LogicalPlan

def headOf (nodes : List PhysicalNode) (j : ℕ) : Option AtomicComputation :=
  nodes[j]?.bind fun node => node.pipeline.head?

def lastOf (nodes : List PhysicalNode) (i : ℕ) : Option AtomicComputation :=
  nodes[i]?.bind fun node => node.pipeline.getLast?

def PipeGraph.head (graph : PipeGraph) : ℕ → Option AtomicComputation := headOf graph.nodes

def PipeGraph.last (graph : PipeGraph) : ℕ → Option AtomicComputation := lastOf graph.nodes

def inputs (plan : List AtomicComputation) (h : AtomicComputation) : List AtomicComputation :=
  plan.flatMap fun x => ((consumers plan x).filter (· = h)).map fun _ => x

def PipeGraph.realisations (graph : PipeGraph) (x y : AtomicComputation) : ℕ :=
  (graph.nodes.map fun node => (adjacent node.pipeline).count (x, y)).sum +
    (List.range graph.nodes.length).countP fun i =>
      graph.last i = some x ∧ ∃ j ∈ graph.consumers i, graph.head j = some y

structure Faithful (plan : List AtomicComputation) (graph : PipeGraph) : Prop where
  path : ∀ node ∈ graph.nodes, node.pipeline ≠ [] ∧ (∀ x ∈ node.pipeline, x ∈ plan) ∧
    node.pipeline.IsChain fun x y => y ∈ consumers plan x
  edges : ∀ x ∈ plan, ∀ y ∈ consumers plan x, graph.realisations x y = 1
  links : ∀ i j, j ∈ graph.consumers i ↔ i ∈ graph.producers j
  scans : ∀ j h, graph.head j = some h → h.role = .scan → graph.producers j = []
  fed : ∀ j h, graph.head j = some h → h.role ≠ .scan →
    (∃ i, i ≠ j ∧ graph.producers j = [i] ∧ graph.last i = some h) ∨
      ((graph.producers j).map graph.last).Perm ((inputs plan h).map some)
  joins : ∀ h ∈ plan, h.role = .join → ∃ j a b, (∀ k, graph.head k = some h ↔ k = j) ∧ a ≠ b ∧
    graph.producers j = [a, b] ∧ graph.otherSide a = some b ∧ graph.otherSide b = some a
  sources : ∀ j, j ∈ graph.sources ↔ ∃ h, graph.head j = some h ∧ h.role = .scan

def ForksCleanly (plan : List AtomicComputation) : Prop :=
  ∀ c ∈ plan, 1 < (consumers plan c).length →
    (c.role ≠ .hash ∧ c.role ≠ .union ∧ c.role ≠ .join) ∧ ∀ d ∈ consumers plan c, ¬ Cuts d

def target (plan : List AtomicComputation) (x : AtomicComputation) : Option AtomicComputation :=
  match consumers plan x with
  | [] => none
  | [d] => some d
  | _ :: _ :: _ => some x

section

variable {plan : List AtomicComputation}

theorem setConsumers_eq (x : AtomicComputation) :
    setConsumers plan x = ((target plan x).map AtomicComputation.getOutputName).toList := by
  rcases hc : consumers plan x with _ | ⟨d, _ | ⟨d', l⟩⟩ <;> simp [setConsumers, target, hc]

theorem target_of_fork {x : AtomicComputation} (h : 1 < (consumers plan x).length) :
    target plan x = some x := by
  unfold target
  split <;> simp_all

theorem target_of_line {x d : AtomicComputation} (h : consumers plan x = [d]) : target plan x = some d := by
  unfold target
  rw [h]

theorem target_eq_some {x h : AtomicComputation} (ht : target plan x = some h) :
    consumers plan x = [h] ∨ 1 < (consumers plan x).length ∧ x = h := by
  unfold target at ht
  split at ht
  · cases ht
  · next d hd =>
    cases ht
    exact .inl hd
  · next hc =>
    cases ht
    exact .inr ⟨by simp [hc], rfl⟩

theorem target_mem {x h : AtomicComputation} (hx : x ∈ plan) (ht : target plan x = some h) : h ∈ plan := by
  rcases target_eq_some ht with hc | ⟨-, rfl⟩
  · exact (mem_consumers.mp (hc ▸ List.mem_singleton_self h)).1
  · exact hx

theorem countP_range (nodes : List PhysicalNode) (p : PhysicalNode → Bool) :
    (List.range nodes.length).countP (fun i => nodes[i]?.any p) = nodes.countP p := by
  induction nodes using List.reverseRecOn with
  | nil => rfl
  | append_singleton nodes node ih =>
    rw [List.length_append, List.length_singleton, List.range_succ, List.countP_append, List.countP_append, ← ih]
    congr 1
    · apply List.countP_congr
      intro i hi
      rw [List.mem_range] at hi
      rw [List.getElem?_append_left hi]
    · simp

theorem mem_indices {nodes : List PhysicalNode} {p : PhysicalNode → Bool} {j : ℕ} :
    j ∈ indices nodes p ↔ ∃ node, nodes[j]? = some node ∧ p node = true := by
  unfold indices
  rw [List.mem_filter, List.mem_range, Option.any_eq_true]
  constructor
  · exact fun h => h.2
  · rintro ⟨node, hn, hp⟩
    exact ⟨(List.getElem?_eq_some_iff.mp hn).1, node, hn, hp⟩

theorem indices_nodup (nodes : List PhysicalNode) (p : PhysicalNode → Bool) : (indices nodes p).Nodup :=
  List.nodup_range.filter _

variable {nodes : List PhysicalNode}

theorem headOf_mem (hs : ∀ node ∈ nodes, Sound plan node) {j : ℕ} {h : AtomicComputation}
    (hj : headOf nodes j = some h) : ∃ node ∈ nodes, node.pipeline.head? = some h ∧ h ∈ plan := by
  obtain ⟨node, hn, hh⟩ := Option.bind_eq_some_iff.mp hj
  have hmem := List.mem_of_getElem? hn
  exact ⟨node, hmem, hh, (hs node hmem).mem h (List.mem_of_head? hh)⟩

theorem linksOf_eq (wf : WellFormed plan) (hs : ∀ node ∈ nodes, Sound plan node) {i : ℕ} {x : AtomicComputation}
    (hi : lastOf nodes i = some x) : linksOf nodes i =
      (target plan x).toList.flatMap fun t => indices nodes fun node => node.pipeline.head? = some t := by
  obtain ⟨node, hn, hx⟩ := Option.bind_eq_some_iff.mp hi
  have hsound := hs node (List.mem_of_getElem? hn)
  obtain ⟨z, hz, hcons, -⟩ := hsound.last
  have hzx : z = x := by
    rw [hx] at hz
    exact (Option.some.inj hz).symm
  subst hzx
  unfold linksOf
  rw [hn]
  dsimp only
  rw [hcons, setConsumers_eq]
  cases ht : target plan z with
  | none => rfl
  | some t =>
    have htp := target_mem (hsound.mem z (List.mem_of_getLast? hz)) ht
    simp only [Option.map_some, Option.toList_some, List.flatMap_singleton]
    unfold indices
    apply List.filter_congr
    intro j hj
    rw [List.mem_range] at hj
    rw [List.getElem?_eq_getElem hj]
    simp only [Option.any_some, PhysicalNode.startsWith]
    apply decide_eq_decide.mpr
    constructor
    · intro hname
      obtain ⟨c, hc, hn⟩ := Option.map_eq_some_iff.mp hname
      have hcp := (hs _ (List.getElem_mem hj)).mem c (List.mem_of_head? hc)
      rw [hc, wf.eq_of_name hcp htp hn]
    · intro hhead
      rw [hhead]
      rfl

theorem linksOf_none {i : ℕ} (hs : ∀ node ∈ nodes, Sound plan node) (hi : lastOf nodes i = none) :
    linksOf nodes i = [] := by
  unfold linksOf
  cases hn : nodes[i]? with
  | none => rfl
  | some node =>
    obtain ⟨z, hz, -⟩ := (hs node (List.mem_of_getElem? hn)).last
    simp [lastOf, hn, hz] at hi

theorem mem_linksOf (wf : WellFormed plan) (hs : ∀ node ∈ nodes, Sound plan node) {i j : ℕ} :
    j ∈ linksOf nodes i ↔ ∃ x h, lastOf nodes i = some x ∧ target plan x = some h ∧ headOf nodes j = some h := by
  cases hi : lastOf nodes i with
  | none => simp [linksOf_none hs hi]
  | some x =>
    rw [linksOf_eq wf hs hi]
    simp only [List.mem_flatMap, Option.mem_toList, mem_indices, decide_eq_true_eq, headOf,
      Option.bind_eq_some_iff, Option.some.injEq]
    constructor
    · rintro ⟨t, ht, node, hn, hh⟩
      exact ⟨x, t, rfl, ht, node, hn, hh⟩
    · rintro ⟨_, t, rfl, ht, node, hn, hh⟩
      exact ⟨t, ht, node, hn, hh⟩

theorem linksOf_nodup (wf : WellFormed plan) (hs : ∀ node ∈ nodes, Sound plan node) (i : ℕ) :
    (linksOf nodes i).Nodup := by
  cases hi : lastOf nodes i with
  | none => simp [linksOf_none hs hi]
  | some x =>
    rw [linksOf_eq wf hs hi]
    cases target plan x with
    | none => exact .nil
    | some t =>
      simp only [Option.toList_some, List.flatMap_singleton]
      exact indices_nodup _ _

theorem producersOf_eq (wf : WellFormed plan) (hs : ∀ node ∈ nodes, Sound plan node) (j : ℕ) :
    producersOf nodes j = (List.range nodes.length).filter fun i => j ∈ linksOf nodes i := by
  unfold producersOf
  have he : ∀ i, (((linksOf nodes i).filter (· = j)).map fun _ => i) = [i].filter fun i => j ∈ linksOf nodes i := by
    intro i
    by_cases hj : j ∈ linksOf nodes i
    · rw [List.filter_eq, List.count_eq_one_of_mem (linksOf_nodup wf hs i) hj]
      simp [hj]
    · have hnil : (linksOf nodes i).filter (· = j) = [] := by
        apply List.filter_eq_nil_iff.mpr
        intro k hk
        rw [decide_eq_true_eq]
        rintro rfl
        exact hj hk
      simp [hnil, hj]
  simp only [he]
  induction List.range nodes.length with
  | nil => rfl
  | cons i l ih =>
    rw [List.flatMap_cons, ih, ← List.filter_append, List.singleton_append]

theorem count_producersOf (wf : WellFormed plan) (hc : Counted plan nodes) {j : ℕ} {h x : AtomicComputation}
    (hj : headOf nodes j = some h) (hx : x ∈ plan) :
    ((producersOf nodes j).map (lastOf nodes)).count (some x) =
      if target plan x = some h then endsAt plan x else 0 := by
  rw [producersOf_eq wf hc.sound, List.count, List.countP_map, List.countP_filter]
  split_ifs with ht
  · rw [← hc.ends x hx, ← countP_range]
    apply List.countP_congr
    intro i hi
    simp only [Function.comp_apply, Bool.and_eq_true, beq_iff_eq, decide_eq_true_eq, mem_linksOf wf hc.sound,
      Option.any_eq_true]
    constructor
    · rintro ⟨hl, -⟩
      obtain ⟨node, hn, hlast⟩ := Option.bind_eq_some_iff.mp hl
      exact ⟨node, hn, hlast⟩
    · rintro ⟨node, hn, hlast⟩
      have hl : lastOf nodes i = some x := Option.bind_eq_some_iff.mpr ⟨node, hn, hlast⟩
      exact ⟨hl, x, h, hl, ht, hj⟩
  · apply List.countP_eq_zero.mpr
    intro i hi
    simp only [Function.comp_apply, Bool.and_eq_true, beq_iff_eq, decide_eq_true_eq, mem_linksOf wf hc.sound]
    rintro ⟨hl, x', h', hl', ht', hj'⟩
    rw [hl] at hl'
    rw [hj] at hj'
    cases hl'
    cases hj'
    exact ht ht'

theorem lastOf_of_mem_producersOf (wf : WellFormed plan) (hs : ∀ node ∈ nodes, Sound plan node) {i j : ℕ}
    (h : i ∈ producersOf nodes j) : ∃ x ∈ plan, lastOf nodes i = some x := by
  rw [producersOf_eq wf hs, List.mem_filter, decide_eq_true_eq, mem_linksOf wf hs] at h
  obtain ⟨-, x, -, hl, -⟩ := h
  obtain ⟨node, hn, hlast⟩ := Option.bind_eq_some_iff.mp hl
  exact ⟨x, (hs node (List.mem_of_getElem? hn)).mem x (List.mem_of_getLast? hlast), hl⟩

theorem count_inputs (wf : WellFormed plan) {h x : AtomicComputation} (hx : x ∈ plan) :
    (inputs plan h).count x = (consumers plan x).count h := by
  unfold inputs
  rw [List.count_flatMap, sum_map_single wf.nodup (x := x)]
  · rw [if_pos hx, Function.comp_apply, List.filter_eq, List.map_replicate, List.count_replicate_self]
  · intro c _ hc
    rw [Function.comp_apply, List.filter_eq, List.map_replicate]
    exact List.count_eq_zero.mpr fun hm => hc (List.eq_of_mem_replicate hm).symm

theorem count_consumers (wf : WellFormed plan) {h x : AtomicComputation} (hh : h ∈ plan) :
    (consumers plan x).count h = h.inputNames.count x.getOutputName := by
  unfold consumers getConsumingAtomicComputations
  rw [List.count_flatMap, sum_map_single wf.nodup (x := h)]
  · rw [if_pos hh, Function.comp_apply, List.filter_eq, List.map_replicate, List.count_replicate_self]
  · intro c _ hc
    rw [Function.comp_apply, List.filter_eq, List.map_replicate]
    exact List.count_eq_zero.mpr fun hm => hc (List.eq_of_mem_replicate hm).symm

theorem sum_count {α : Type} [BEq α] [LawfulBEq α] {keys l : List α} (hk : keys.Nodup)
    (hl : ∀ n ∈ l, n ∈ keys) : (keys.map fun k => l.count k).sum = l.length := by
  classical
  induction l with
  | nil => simp
  | cons n l ih =>
    have hone : (keys.map fun k => if n = k then 1 else 0).sum = 1 := by
      rw [sum_map_single hk (x := n) fun c _ hc => by simp [Ne.symm hc]]
      simp [hl n (by simp)]
    simp only [List.count_cons, List.length_cons, beq_iff_eq]
    rw [List.sum_map_add, ih fun m hm => hl m (List.mem_cons_of_mem _ hm), hone]

theorem length_inputs (wf : WellFormed plan) {h : AtomicComputation} (hh : h ∈ plan) (hr : h.role ≠ .scan) :
    (inputs plan h).length = h.inputNames.length := by
  have hnames : ∀ n ∈ h.inputNames, n ∈ plan.map AtomicComputation.getOutputName := by
    intro n hn
    obtain ⟨d, hd, hdn⟩ := wf.inputs h hh hr n hn
    exact List.mem_map.mpr ⟨d, hd, hdn⟩
  rw [← sum_count wf.names hnames, List.map_map, inputs, List.length_flatMap]
  congr 1
  apply List.map_congr_left
  intro x _
  rw [Function.comp_apply, ← count_consumers wf hh, List.length_map, List.filter_eq, List.length_replicate]

theorem length_inputNames_join {h : AtomicComputation} (hr : h.role = .join) : h.inputNames.length = 2 := by
  unfold AtomicComputation.role at hr
  unfold AtomicComputation.inputNames
  cases hk : h.kind <;> simp_all

theorem count_across (wf : WellFormed plan) (hc : Counted plan nodes) {x y : AtomicComputation} (hx : x ∈ plan)
    (hy : y ∈ plan) : ((List.range nodes.length).countP fun i =>
      lastOf nodes i = some x ∧ ∃ j ∈ linksOf nodes i, headOf nodes j = some y) =
      if target plan x = some y ∧ 0 < startsAt plan y then endsAt plan x else 0 := by
  split_ifs with ht
  · obtain ⟨ht, hpos⟩ := ht
    rw [← hc.starts y hy, ← countP_range, List.countP_pos_iff] at hpos
    obtain ⟨j, -, hj⟩ := hpos
    obtain ⟨node', hn', hhead⟩ := (Option.any_eq_true _ _).mp hj
    have hhj : headOf nodes j = some y := Option.bind_eq_some_iff.mpr ⟨node', hn', by simpa using hhead⟩
    rw [← hc.ends x hx, ← countP_range]
    apply List.countP_congr
    intro i hi
    simp only [decide_eq_true_eq, Option.any_eq_true]
    constructor
    · rintro ⟨hl, -⟩
      obtain ⟨node, hn, hlast⟩ := Option.bind_eq_some_iff.mp hl
      exact ⟨node, hn, hlast⟩
    · rintro ⟨node, hn, hlast⟩
      have hl : lastOf nodes i = some x := Option.bind_eq_some_iff.mpr ⟨node, hn, hlast⟩
      exact ⟨hl, j, (mem_linksOf wf hc.sound).mpr ⟨x, y, hl, ht, hhj⟩, hhj⟩
  · apply List.countP_eq_zero.mpr
    intro i hi
    simp only [decide_eq_true_eq]
    rintro ⟨hl, j, hj, hhj⟩
    obtain ⟨x', y', hl', ht', hhj'⟩ := (mem_linksOf wf hc.sound).mp hj
    rw [hl] at hl'
    rw [hhj] at hhj'
    cases hl'
    cases hhj'
    refine ht ⟨ht', ?_⟩
    rw [← hc.starts y hy, ← countP_range, List.countP_pos_iff]
    obtain ⟨node, hn, hhead⟩ := Option.bind_eq_some_iff.mp hhj
    refine ⟨j, List.mem_range.mpr (List.getElem?_eq_some_iff.mp hn).1, ?_⟩
    exact (Option.any_eq_true _ _).mpr ⟨node, hn, by simpa using hhead⟩

theorem eq_singleton_of_chain (wf : WellFormed plan) {p : List AtomicComputation} {h : AtomicComputation}
    (hchain : p.IsChain fun x y => y ∈ consumers plan x) (hmem : ∀ x ∈ p, x ∈ plan) (hhead : p.head? = some h)
    (hlast : p.getLast? = some h) : p = [h] := by
  obtain ⟨rank, hrank⟩ := wf.acyclic
  have hsorted : p.IsChain fun x y => rank x < rank y := by
    apply hchain.imp_of_mem_imp
    intro x y hx _ hxy
    exact hrank x (hmem x hx) y hxy
  have htrans : Trans (fun x y => rank x < rank y) (fun x y => rank x < rank y) fun x y => rank x < rank y :=
    ⟨fun h h' => lt_trans h h'⟩
  match p with
  | [] => cases hhead
  | [c] =>
    cases hhead
    rfl
  | c :: d :: p =>
    cases hhead
    have hm : h ∈ d :: p := List.mem_of_getLast? (by simpa using hlast)
    exact absurd ((List.pairwise_cons.mp hsorted.pairwise).1 h hm) (lt_irrefl _)

theorem role_of_head (hc : Counted plan nodes) {j : ℕ} {h : AtomicComputation} (hj : headOf nodes j = some h) :
    h.role = .scan ∨ Cuts h ∨ h.role = .join ∨ h.role = .other ∧ 1 < (consumers plan h).length := by
  obtain ⟨node, hn, hhead, hh⟩ := headOf_mem hc.sound hj
  have hpos : 0 < startsAt plan h := by
    rw [← hc.starts h hh, List.countP_pos_iff]
    exact ⟨node, hn, by simpa using hhead⟩
  unfold startsAt at hpos
  cases hr : h.role with
  | scan => exact .inl rfl
  | agg => exact .inr (.inl (.inl hr))
  | union => exact .inr (.inl (.inr hr))
  | join => exact .inr (.inr (.inl rfl))
  | other =>
    simp only [hr] at hpos
    by_cases hfork : 1 < (consumers plan h).length
    · exact .inr (.inr (.inr ⟨rfl, hfork⟩))
    · rw [if_neg hfork] at hpos
      omega
  | hash => simp [hr] at hpos
  | write => simp [hr] at hpos

theorem mem_indices_role {r : Role} {j : ℕ} :
    j ∈ indices nodes (fun node => node.pipeline.head?.map AtomicComputation.role = some r) ↔
      ∃ h, headOf nodes j = some h ∧ h.role = r := by
  simp only [mem_indices, headOf, Option.bind_eq_some_iff, decide_eq_true_eq, Option.map_eq_some_iff]
  constructor
  · rintro ⟨node, hn, h, hh, hr⟩
    exact ⟨h, ⟨node, hn, hh⟩, hr⟩
  · rintro ⟨h, ⟨node, hn, hh⟩, hr⟩
    exact ⟨node, hn, h, hh, hr⟩

variable (hf : ForksCleanly plan)

include hf

theorem ForksCleanly.fed_by_inputs (wf : WellFormed plan) {h x : AtomicComputation} (hx : x ∈ plan)
    (hh : Cuts h ∨ h.role = .join) :
    (if target plan x = some h then endsAt plan x else 0) = (consumers plan x).count h := by
  by_cases hm : h ∈ consumers plan x
  · have hline : ¬ 1 < (consumers plan x).length := by
      intro hfork
      obtain ⟨⟨hhash, -, -⟩, hcut⟩ := hf x hx hfork
      rcases hh with hh | hh
      · exact hcut h hm hh
      · exact hhash ((wf.hashes x hx h hm).mpr hh)
    have hw : x.role ≠ .write := by
      intro hw
      rw [(wf.writes x hx).mpr hw] at hm
      cases hm
    obtain ⟨d, hd⟩ := wf.exists_consumer hx hw hline
    rw [hd, List.mem_singleton] at hm
    subst hm
    rw [if_pos (target_of_line hd), hd, List.count_singleton_self, endsAt]
    by_cases hhash : x.role = .hash
    · simp [hhash]
    · have hcut : Cuts h := by
        rcases hh with hh | hh
        · exact hh
        · exact absurd ((wf.hashes x hx h (by simp [hd])).mpr hh) hhash
      simp [hhash, hw, hd, hcut]
  · rw [List.count_eq_zero.mpr hm]
    split_ifs with ht
    · rcases target_eq_some ht with hc | ⟨hfork, rfl⟩
      · exact absurd (by simp [hc]) hm
      · obtain ⟨⟨hhash, hunion, hjoin⟩, hcut⟩ := hf x hx hfork
        have hagg : x.role = .agg := by
          rcases hh with (hh | hh) | hh
          · exact hh
          · exact absurd hh hunion
          · exact absurd hh hjoin
        have hzero : (consumers plan x).countP Cuts = 0 := by
          apply List.countP_eq_zero.mpr
          simpa using hcut
        simp [endsAt, hagg, hzero]
    · rfl

theorem ForksCleanly.fed_by_copy (wf : WellFormed plan) {h x : AtomicComputation} (hx : x ∈ plan)
    (hh : h.role = .other) (hfork : 1 < (consumers plan h).length) :
    (if target plan x = some h then endsAt plan x else 0) = if x = h then 1 else 0 := by
  by_cases hxh : x = h
  · subst hxh
    have hzero : (consumers plan x).countP Cuts = 0 := by
      apply List.countP_eq_zero.mpr
      simpa using (hf x hx hfork).2
    simp [target_of_fork hfork, endsAt, hh, hzero, hfork]
  · rw [if_neg hxh]
    split_ifs with ht
    · rcases target_eq_some ht with hc | ⟨-, rfl⟩
      · have hm : h ∈ consumers plan x := by simp [hc]
        have hhash : x.role ≠ .hash := by
          intro hr
          have := (wf.hashes x hx h hm).mp hr
          simp [hh] at this
        have hw : x.role ≠ .write := by
          intro hw
          simp [(wf.writes x hx).mpr hw] at hm
        simp [endsAt, hhash, hw, hc, Cuts, hh]
      · exact absurd rfl hxh
    · rfl

theorem ForksCleanly.fed_scan (wf : WellFormed plan) {h x : AtomicComputation} (hx : x ∈ plan)
    (hh : h.role = .scan) : (if target plan x = some h then endsAt plan x else 0) = 0 := by
  split_ifs with ht
  · rcases target_eq_some ht with hc | ⟨hfork, rfl⟩
    · exact absurd hh (wf.role_ne_scan hx (by simp [hc]))
    · have hzero : (consumers plan x).countP Cuts = 0 := by
        apply List.countP_eq_zero.mpr
        simpa using (hf x hx hfork).2
      simp [endsAt, hh, hzero]
  · rfl

theorem ForksCleanly.perm_inputs (wf : WellFormed plan) (hc : Counted plan nodes) {j : ℕ} {h : AtomicComputation}
    (hj : headOf nodes j = some h) (hh : Cuts h ∨ h.role = .join) :
    ((producersOf nodes j).map (lastOf nodes)).Perm ((inputs plan h).map some) := by
  have hlast : ∀ o ∈ (producersOf nodes j).map (lastOf nodes), ∃ x ∈ plan, o = some x := by
    intro o ho
    obtain ⟨i, hi, rfl⟩ := List.mem_map.mp ho
    obtain ⟨x, hx, hl⟩ := lastOf_of_mem_producersOf wf hc.sound hi
    exact ⟨x, hx, hl⟩
  have hinput : ∀ o ∈ (inputs plan h).map some, ∃ x ∈ plan, o = some x := by
    intro o ho
    obtain ⟨x, hx, rfl⟩ := List.mem_map.mp ho
    obtain ⟨z, hz, hm⟩ := List.mem_flatMap.mp hx
    obtain ⟨_, -, rfl⟩ := List.mem_map.mp hm
    exact ⟨z, hz, rfl⟩
  apply List.perm_iff_count.mpr
  intro o
  by_cases ho : ∃ x ∈ plan, o = some x
  · obtain ⟨x, hx, rfl⟩ := ho
    rw [count_producersOf wf hc hj hx, hf.fed_by_inputs wf hx hh,
      List.count_map_of_injective _ _ (fun _ _ => Option.some.inj), count_inputs wf hx]
  · rw [List.count_eq_zero.mpr fun hm => ho (hlast o hm), List.count_eq_zero.mpr fun hm => ho (hinput o hm)]

theorem ForksCleanly.exists_copy (wf : WellFormed plan) (hc : Counted plan nodes) {j : ℕ} {h : AtomicComputation}
    (hj : headOf nodes j = some h) (hh : h.role = .other) (hfork : 1 < (consumers plan h).length) :
    ∃ i, i ≠ j ∧ producersOf nodes j = [i] ∧ lastOf nodes i = some h := by
  have hperm : ((producersOf nodes j).map (lastOf nodes)).Perm [some h] := by
    apply List.perm_iff_count.mpr
    intro o
    by_cases ho : ∃ x ∈ plan, o = some x
    · obtain ⟨x, hx, rfl⟩ := ho
      rw [count_producersOf wf hc hj hx, hf.fed_by_copy wf hx hh hfork, List.count_singleton]
      by_cases he : x = h
      · simp [he]
      · simp [he, Ne.symm he]
    · rw [List.count_eq_zero.mpr, List.count_eq_zero.mpr]
      · rw [List.mem_singleton]
        rintro rfl
        obtain ⟨-, -, -, hp⟩ := headOf_mem hc.sound hj
        exact ho ⟨h, hp, rfl⟩
      · intro hm
        obtain ⟨i, hi, rfl⟩ := List.mem_map.mp hm
        obtain ⟨x, hx, hl⟩ := lastOf_of_mem_producersOf wf hc.sound hi
        exact ho ⟨x, hx, hl⟩
  obtain ⟨i, hi⟩ := List.length_eq_one_iff.mp (by simpa using hperm.length_eq)
  have hl : lastOf nodes i = some h := by simpa [hi] using hperm
  refine ⟨i, ?_, hi, hl⟩
  -- a pipe that starts and ends with the same computation is made of it alone
  rintro rfl
  obtain ⟨node, hn, hhead⟩ := Option.bind_eq_some_iff.mp hj
  have hmem := List.mem_of_getElem? hn
  have hsound := hc.sound node hmem
  have hlast : node.pipeline.getLast? = some h := by simpa [lastOf, hn] using hl
  have hlone : node.pipeline = [h] := eq_singleton_of_chain wf hsound.chain hsound.mem hhead hlast
  obtain ⟨-, -, -, hp⟩ := headOf_mem hc.sound hj
  have hzero := hc.lone h hp
  have hcuts : (consumers plan h).countP Cuts = 0 := by
    apply List.countP_eq_zero.mpr
    simpa using (hf h hp hfork).2
  simp only [loneAt, hh, if_pos hfork, hcuts, List.countP_eq_zero, decide_eq_true_eq] at hzero
  exact hzero node hmem hlone

theorem ForksCleanly.no_producers (wf : WellFormed plan) (hc : Counted plan nodes) {j : ℕ} {h : AtomicComputation}
    (hj : headOf nodes j = some h) (hh : h.role = .scan) : producersOf nodes j = [] := by
  apply List.eq_nil_iff_forall_not_mem.mpr
  intro i hi
  obtain ⟨x, hx, hl⟩ := lastOf_of_mem_producersOf wf hc.sound hi
  have hcount := count_producersOf wf hc hj hx
  rw [hf.fed_scan wf hx hh, List.count_eq_zero] at hcount
  exact hcount (List.mem_map.mpr ⟨i, hi, hl⟩)

theorem ForksCleanly.realised (wf : WellFormed plan) (hc : Counted plan nodes) {x y : AtomicComputation}
    (hx : x ∈ plan) (hy : y ∈ consumers plan x) :
    (nodes.map fun node => (adjacent node.pipeline).count (x, y)).sum +
      ((List.range nodes.length).countP fun i =>
        lastOf nodes i = some x ∧ ∃ j ∈ linksOf nodes i, headOf nodes j = some y) = 1 := by
  have hyp := (mem_consumers.mp hy).1
  have hw : x.role ≠ .write := by
    intro hw
    simp [(wf.writes x hx).mpr hw] at hy
  rw [hc.inside x hx y, count_across wf hc hx hyp]
  by_cases hcut : Cuts y ∨ y.role = .join
  · -- the pipe ends at `x`, and `y` starts the next one
    have hfed := hf.fed_by_inputs wf hx hcut
    have hline : ¬ 1 < (consumers plan x).length := by
      intro hfork
      obtain ⟨⟨hhash, -, -⟩, hcuts⟩ := hf x hx hfork
      rcases hcut with hcut | hcut
      · exact hcuts y hy hcut
      · exact hhash ((wf.hashes x hx y hy).mpr hcut)
    obtain ⟨d, hd⟩ := wf.exists_consumer hx hw hline
    rw [hd, List.mem_singleton] at hy
    subst hy
    have hnot : ¬ (x.role ≠ .hash ∧ x.role ≠ .write ∧ ¬ Cuts y) := by
      rintro ⟨hhash, -, hc'⟩
      rcases hcut with hcut | hcut
      · exact hc' hcut
      · exact hhash ((wf.hashes x hx y (by simp [hd])).mpr hcut)
    have hstart : 0 < startsAt plan y := by
      have hpos : y.role ≠ .write → 0 < (consumers plan y).length := wf.length_consumers hyp
      rcases hcut with (hcut | hcut) | hcut
      · simp only [startsAt, hcut]
        exact hpos (by simp [hcut])
      · simp only [startsAt, hcut]
        split_ifs <;> omega
      · simp only [startsAt, hcut]
        split_ifs <;> omega
    rw [if_pos (target_of_line hd), hd, List.count_singleton_self] at hfed
    rw [if_neg hnot, if_pos ⟨target_of_line hd, hstart⟩, hfed]
  · -- `x` and `y` are neighbours in a pipe
    have hhash : x.role ≠ .hash := fun h => hcut (.inr ((wf.hashes x hx y hy).mp h))
    have hnc : ¬ Cuts y := fun h => hcut (.inl h)
    have hs : Single y := ⟨fun h => hnc (.inr h), fun h => hcut (.inr h)⟩
    have hone : (consumers plan x).count y = 1 := by
      have hname := (mem_consumers.mp hy).2
      rw [inputNames_of_single hs, List.mem_singleton] at hname
      rw [count_consumers wf hyp, inputNames_of_single hs, hname, List.count_singleton_self]
    rw [if_pos ⟨hhash, hw, hnc⟩, hone]
    split_ifs with ht
    · rcases target_eq_some ht.1 with hd | ⟨hfork, rfl⟩
      · simp [endsAt, hhash, hw, hd, hnc]
      · obtain ⟨rank, hrank⟩ := wf.acyclic
        exact absurd (hrank x hx x hy) (lt_irrefl _)
    · rfl

theorem ForksCleanly.startsAt_join {h : AtomicComputation} (hh : h ∈ plan) (hr : h.role = .join) :
    startsAt plan h = 1 := by
  have hline : ¬ 1 < (consumers plan h).length := fun hfork => (hf h hh hfork).1.2.2 hr
  simp [startsAt, hr, hline]

theorem ForksCleanly.exists_join (hc : Counted plan nodes) {h : AtomicComputation} (hh : h ∈ plan)
    (hr : h.role = .join) : ∃ j, ∀ k, headOf nodes k = some h ↔ k = j := by
  have hone := hc.starts h hh
  rw [hf.startsAt_join hh hr, ← countP_range, List.countP_eq_length_filter] at hone
  obtain ⟨j, hj⟩ := List.length_eq_one_iff.mp hone
  refine ⟨j, fun k => ?_⟩
  have hmem : k ∈ indices nodes (fun node => node.pipeline.head? = some h) ↔ k = j := by
    rw [indices, hj, List.mem_singleton]
  rw [← hmem, mem_indices, headOf, Option.bind_eq_some_iff]
  simp

theorem ForksCleanly.exists_sides (wf : WellFormed plan) (hc : Counted plan nodes) {j : ℕ} {h : AtomicComputation}
    (hj : headOf nodes j = some h) (hr : h.role = .join) : ∃ a b, a ≠ b ∧ producersOf nodes j = [a, b] := by
  obtain ⟨-, -, -, hh⟩ := headOf_mem hc.sound hj
  have hlen := (hf.perm_inputs wf hc hj (.inr hr)).length_eq
  rw [List.length_map, List.length_map, length_inputs wf hh (by simp [hr]), length_inputNames_join hr] at hlen
  obtain ⟨a, b, hab⟩ := List.length_eq_two.mp hlen
  have hnd : (producersOf nodes j).Nodup := by
    rw [producersOf_eq wf hc.sound]
    exact List.nodup_range.filter _
  rw [hab] at hnd
  exact ⟨a, b, by simpa using hnd, hab⟩

theorem ForksCleanly.side_unique (wf : WellFormed plan) (hc : Counted plan nodes) {i j k : ℕ}
    {h : AtomicComputation} (hj : headOf nodes j = some h) (hr : h.role = .join) (hij : i ∈ producersOf nodes j) (hik : i ∈ producersOf nodes k) : j = k := by
  rw [producersOf_eq wf hc.sound, List.mem_filter, decide_eq_true_eq, mem_linksOf wf hc.sound] at hij hik
  obtain ⟨-, x, t, hx, ht, hjt⟩ := hij
  obtain ⟨-, x', t', hx', ht', hkt⟩ := hik
  rw [hx] at hx'
  cases hx'
  rw [ht] at ht'
  cases ht'
  rw [hj] at hjt
  cases hjt
  obtain ⟨-, -, -, hh⟩ := headOf_mem hc.sound hj
  obtain ⟨j', hj'⟩ := hf.exists_join hc hh hr
  rw [(hj' j).mp hj, (hj' k).mp hkt]

theorem ForksCleanly.otherSides (wf : WellFormed plan) (hc : Counted plan nodes) (js : List ℕ)
    (hjs : ∀ j ∈ js, ∃ h, headOf nodes j = some h ∧ h.role = .join) (hnd : js.Nodup) (start : ℕ → Option ℕ) :
    ∃ otherSide, js.foldlM (setOtherSide nodes) start = .ok otherSide ∧
      (∀ j ∈ js, ∀ a b, producersOf nodes j = [a, b] → otherSide a = some b ∧ otherSide b = some a) ∧
      ∀ i, (∀ j ∈ js, i ∉ producersOf nodes j) → otherSide i = start i := by
  induction js generalizing start with
  | nil => exact ⟨start, rfl, by simp, fun _ _ => rfl⟩
  | cons j js ih =>
    obtain ⟨h, hj, hr⟩ := hjs j (by simp)
    obtain ⟨hnj, hnd⟩ := List.nodup_cons.mp hnd
    obtain ⟨a, b, hab, hprod⟩ := hf.exists_sides wf hc hj hr
    obtain ⟨otherSide, hrun, hset, hkeep⟩ := ih (fun k hk => hjs k (List.mem_cons_of_mem _ hk)) hnd
      fun i => if i = b then some a else if i = a then some b else start i
    have hfree : ∀ i ∈ producersOf nodes j, ∀ k ∈ js, i ∉ producersOf nodes k := by
      intro i hi k hk hik
      rw [hf.side_unique wf hc hj hr hi hik] at hnj
      exact hnj hk
    refine ⟨otherSide, ?_, ?_, ?_⟩
    · rw [List.foldlM_cons, setOtherSide, hprod]
      exact hrun
    · intro k hk a' b' hk'
      rcases List.mem_cons.mp hk with rfl | hk
      · rw [hprod] at hk'
        cases hk'
        rw [hkeep a (hfree a (by simp [hprod])), hkeep b (hfree b (by simp [hprod]))]
        simp [hab]
      · exact hset k hk a' b' hk'
    · intro i hi
      rw [hkeep i fun k hk => hi k (List.mem_cons_of_mem _ hk)]
      have hij := hi j (by simp)
      rw [hprod] at hij
      simp only [List.mem_cons, List.not_mem_nil, or_false, not_or] at hij
      rw [if_neg hij.2, if_neg hij.1]

theorem ForksCleanly.faithful (wf : WellFormed plan) (hc : Counted plan nodes) :
    ∃ graph, connectThePipes nodes = .ok graph ∧ Faithful plan graph := by
  have hjoining : ∀ j, j ∈ indices nodes (·.isJoining) ↔ ∃ h, headOf nodes j = some h ∧ h.role = .join :=
    fun _ => mem_indices_role
  obtain ⟨otherSide, hrun, hset, -⟩ := hf.otherSides wf hc _ (fun j => (hjoining j).mp) (indices_nodup _ _)
    fun _ => none
  refine ⟨_, by rw [connectThePipes, hrun]; rfl, ?_⟩
  constructor
  · intro node hn
    have hsound := hc.sound node hn
    obtain ⟨last, hlast, -⟩ := hsound.last
    refine ⟨?_, hsound.mem, hsound.chain⟩
    intro hnil
    simp [hnil] at hlast
  · intro x hx y hy
    exact hf.realised wf hc hx hy
  · intro i j
    dsimp only
    rw [producersOf_eq wf hc.sound, List.mem_filter, List.mem_range, decide_eq_true_eq]
    refine ⟨fun h => ⟨?_, h⟩, fun h => h.2⟩
    obtain ⟨x, -, hx, -⟩ := (mem_linksOf wf hc.sound).mp h
    obtain ⟨node, hn, -⟩ := Option.bind_eq_some_iff.mp hx
    exact (List.getElem?_eq_some_iff.mp hn).1
  · intro j h hj hr
    exact hf.no_producers wf hc hj hr
  · intro j h hj hr
    rcases role_of_head hc hj with hs | hcut | hjoin | ⟨ho, hfork⟩
    · exact absurd hs hr
    · exact .inr (hf.perm_inputs wf hc hj (.inl hcut))
    · exact .inr (hf.perm_inputs wf hc hj (.inr hjoin))
    · exact .inl (hf.exists_copy wf hc hj ho hfork)
  · intro h hh hr
    obtain ⟨j, hj⟩ := hf.exists_join hc hh hr
    have hhead := (hj j).mpr rfl
    obtain ⟨a, b, hab, hprod⟩ := hf.exists_sides wf hc hhead hr
    obtain ⟨ha, hb⟩ := hset j ((hjoining j).mpr ⟨h, hhead, hr⟩) a b hprod
    exact ⟨j, a, b, hj, hab, hprod, ha, hb⟩
  · intro j
    exact mem_indices_role

end

theorem connectThePipes_nodes {nodes : List PhysicalNode} {graph : PipeGraph}
    (h : connectThePipes nodes = .ok graph) :
    graph.nodes = nodes ∧ graph.consumers = linksOf nodes ∧ graph.producers = producersOf nodes := by
  unfold connectThePipes at h
  cases hrun : (indices nodes (·.isJoining)).foldlM (setOtherSide nodes) fun _ => none with
  | error e =>
    rw [hrun] at h
    cases h
  | ok otherSide =>
    rw [hrun] at h
    cases h
    exact ⟨rfl, rfl, rfl⟩

theorem forksCleanly_of_faithful {plan : List AtomicComputation} {nodes : List PhysicalNode} {graph : PipeGraph}
    (wf : WellFormed plan) (hc : Counted plan nodes) (hg : connectThePipes nodes = .ok graph)
    (h : Faithful plan graph) : ForksCleanly plan := by
  obtain ⟨hnodes, hconsumers, hproducers⟩ := connectThePipes_nodes hg
  intro x hx hfork
  have htarget := target_of_fork hfork
  have hlost : ∀ y ∈ consumers plan x, Cuts y ∨ x.role = .hash → False := by
    intro y hy hcut
    have hone := h.edges x hx y hy
    have hyp := (mem_consumers.mp hy).1
    have hne : x ≠ y := by
      rintro rfl
      obtain ⟨rank, hrank⟩ := wf.acyclic
      exact absurd (hrank x hx x hy) (lt_irrefl _)
    unfold PipeGraph.realisations PipeGraph.last PipeGraph.head at hone
    rw [hnodes, hconsumers, hc.inside x hx y, count_across wf hc hx hyp, htarget] at hone
    have hin : ¬ (x.role ≠ .hash ∧ x.role ≠ .write ∧ ¬ Cuts y) := by
      rintro ⟨hhash, -, hnc⟩
      exact hcut.elim hnc hhash
    have hout : ¬ (some x = some y ∧ 0 < startsAt plan y) := fun he => hne (Option.some.inj he.1)
    rw [if_neg hin, if_neg hout] at hone
    cases hone
  have hself : x.role = .union ∨ x.role = .join → False := by
    intro hr
    -- the pipe of `x` alone is linked to itself
    have hlone : 0 < nodes.countP fun node => node.pipeline = [x] := by
      rw [hc.lone x hx]
      rcases hr with hr | hr <;> simp [loneAt, hr, hfork]
    obtain ⟨node, hn, hp⟩ := List.countP_pos_iff.mp hlone
    obtain ⟨j, hj⟩ := List.getElem?_of_mem hn
    rw [decide_eq_true_eq] at hp
    have hhead : headOf nodes j = some x := by simp [headOf, hj, hp]
    have hlast : lastOf nodes j = some x := by simp [lastOf, hj, hp]
    have hself : j ∈ graph.producers j := by
      rw [← h.links, hconsumers, mem_linksOf wf hc.sound]
      exact ⟨x, x, hlast, htarget, hhead⟩
    have hgh : graph.head j = some x := by rw [PipeGraph.head, hnodes, hhead]
    have hgl : graph.last j = some x := by rw [PipeGraph.last, hnodes, hlast]
    rcases h.fed j x hgh (by rcases hr with hr | hr <;> simp [hr]) with ⟨i, hij, hprod, -⟩ | hperm
    · rw [hprod, List.mem_singleton] at hself
      exact hij hself.symm
    · have hm := hperm.subset (List.mem_map.mpr ⟨j, hself, hgl⟩)
      obtain ⟨z, hz, hzx⟩ := List.mem_map.mp hm
      obtain ⟨z', hz', hm'⟩ := List.mem_flatMap.mp hz
      obtain ⟨y, hy, rfl⟩ := List.mem_map.mp hm'
      cases hzx
      have hxx : x ∈ consumers plan x := by
        have := List.mem_filter.mp hy
        rw [decide_eq_true_eq] at this
        exact this.2 ▸ this.1
      obtain ⟨rank, hrank⟩ := wf.acyclic
      exact absurd (hrank x hx x hxx) (lt_irrefl _)
  obtain ⟨y, hy⟩ := List.exists_mem_of_ne_nil _ (List.ne_nil_of_length_pos (by omega : 0 < (consumers plan x).length))
  exact ⟨⟨fun hr => hlost y hy (.inr hr), fun hr => hself (.inl hr), fun hr => hself (.inr hr)⟩,
    fun d hd hcut => hlost d hd (.inl hcut)⟩

theorem generateAnalyzerGraph_faithful_iff (plan : List AtomicComputation) (wf : WellFormed plan) :
    (∃ graph, generateAnalyzerGraph plan = .ok graph ∧ Faithful plan graph) ↔ ForksCleanly plan := by
  obtain ⟨b, hb, hc⟩ := buildPipes_counted wf
  unfold generateAnalyzerGraph
  rw [hb]
  constructor
  · rintro ⟨graph, hg, h⟩
    exact forksCleanly_of_faithful wf hc hg h
  · intro hf
    exact hf.faithful wf hc

instance (plan : List AtomicComputation) : Decidable (ForksCleanly plan) :=
  inferInstanceAs (Decidable (∀ c ∈ plan, 1 < (consumers plan c).length →
    (c.role ≠ .hash ∧ c.role ≠ .union ∧ c.role ≠ .join) ∧ ∀ d ∈ consumers plan c, ¬ Cuts d))

def checkWellFormed (plan : List AtomicComputation) : Bool :=
  decide (plan.map AtomicComputation.getOutputName).Nodup &&
    plan.all fun c =>
      (if c.role = .scan then c.inputNames.all fun name => plan.all fun d => d.getOutputName ≠ name
        else c.inputNames.all fun name => plan.any fun d => d.getOutputName = name) &&
      decide (consumers plan c = [] ↔ c.role = .write) &&
      (consumers plan c).all fun d => decide (c.role = .hash ↔ d.role = .join) && plan.idxOf c < plan.idxOf d

theorem wellFormed_of_check {plan : List AtomicComputation} (h : checkWellFormed plan = true) : WellFormed plan := by
  simp only [checkWellFormed, Bool.and_eq_true, decide_eq_true_eq, List.all_eq_true] at h
  obtain ⟨hnames, hall⟩ := h
  refine ⟨hnames, ?_, ?_, fun c hc => (hall c hc).1.2, fun c hc d hd => ((hall c hc).2 d hd).1,
    plan.idxOf, fun c hc d hd => ((hall c hc).2 d hd).2⟩
  · intro c hc hr name hn
    have := (hall c hc).1.1
    rw [if_neg hr, List.all_eq_true] at this
    simpa using this name hn
  · intro c hc hr name hn d hd
    have := (hall c hc).1.1
    rw [if_pos hr, List.all_eq_true] at this
    simpa using List.all_eq_true.mp (this name hn) d hd

def step (output input : String) (kind : Kind) : AtomicComputation :=
  ⟨⟨input.toList, []⟩, ⟨output.toList, []⟩, ⟨input.toList, []⟩, [], .empty, kind⟩

def scanStep (output : String) : AtomicComputation := step output "Empty" (.scanSet ([], []) (0, []))

def joinedPlan : List AtomicComputation :=
  [scanStep "A", scanStep "B", step "hashA" "A" (.hashLeft []), step "hashB" "B" (.hashRight []),
    step "joined" "hashA" (.applyJoin ⟨"hashB".toList, []⟩ ⟨"hashB".toList, []⟩),
    step "agg" "joined" .applyAgg, step "all" "agg" (.writeSet [] []), step "some" "agg" .applyFilter,
    step "kept" "some" (.writeSet [] [])]

theorem generateAnalyzerGraph_faithful_joined : WellFormed joinedPlan ∧ ForksCleanly joinedPlan ∧
    ∃ graph, generateAnalyzerGraph joinedPlan = .ok graph ∧ Faithful joinedPlan graph :=
  have wf : WellFormed joinedPlan := wellFormed_of_check (by decide +kernel)
  have hf : ForksCleanly joinedPlan := by decide +kernel
  ⟨wf, hf, (generateAnalyzerGraph_faithful_iff joinedPlan wf).mpr hf⟩

def forkedPlan : List AtomicComputation :=
  [scanStep "A", step "copy" "A" (.writeSet [] []), step "agg" "A" .applyAgg, step "sums" "agg" (.writeSet [] [])]

theorem not_faithful_forked : WellFormed forkedPlan ∧
    (∀ graph, generateAnalyzerGraph forkedPlan = .ok graph →
      graph.realisations (scanStep "A") (step "agg" "A" .applyAgg) = 0) ∧
    ¬ ∃ graph, generateAnalyzerGraph forkedPlan = .ok graph ∧ Faithful forkedPlan graph := by
  have wf : WellFormed forkedPlan := wellFormed_of_check (by decide +kernel)
  have hlost : ∀ graph, generateAnalyzerGraph forkedPlan = .ok graph →
      graph.realisations (scanStep "A") (step "agg" "A" .applyAgg) = 0 := by
    intro graph hg
    have hrun : (generateAnalyzerGraph forkedPlan).toOption.map
        (fun graph => graph.realisations (scanStep "A") (step "agg" "A" .applyAgg)) = some 0 := by decide +kernel
    rw [hg] at hrun
    simpa [Except.toOption] using hrun
  refine ⟨wf, hlost, ?_⟩
  rintro ⟨graph, hg, h⟩
  have hone := h.edges (scanStep "A") (by decide +kernel) (step "agg" "A" .applyAgg) (by decide +kernel)
  rw [hlost graph hg] at hone
  cases hone

end PlinyCompute.PipeBuilder
