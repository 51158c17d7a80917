import Mathlib.Algebra.BigOperators.Group.List.Basic
import Mathlib.Data.List.Chain
import Mathlib.Data.List.Nodup
import PlinyCompute.PipeBuilder

namespace PlinyCompute.PipeBuilder

open LogicalPlan
open List (mem_singleton append_assoc mem_append_left mem_append_right map_append sum_append mem_cons_of_mem map_cons sum_cons)

structure WellFormed (plan : List AtomicComputation) : Prop where
  names : (plan.map AtomicComputation.getOutputName).Nodup
  inputs : ∀ c ∈ plan, c.role ≠ .scan → ∀ name ∈ c.inputNames, ∃ d ∈ plan, d.getOutputName = name
  scans : ∀ c ∈ plan, c.role = .scan → ∀ name ∈ c.inputNames, ∀ d ∈ plan, d.getOutputName ≠ name
  writes : ∀ c ∈ plan, consumers plan c = [] ↔ c.role = .write
  hashes : ∀ c ∈ plan, ∀ d ∈ consumers plan c, c.role = .hash ↔ d.role = .join
  acyclic : ∃ rank : AtomicComputation → ℕ, ∀ c ∈ plan, ∀ d ∈ consumers plan c, rank c < rank d

def Single (c : AtomicComputation) : Prop := c.role ≠ .union ∧ c.role ≠ .join

section

variable {plan : List AtomicComputation}

theorem mem_consumers {c d : AtomicComputation} :
    d ∈ consumers plan c ↔ d ∈ plan ∧ c.getOutputName ∈ d.inputNames := by
  simp only [consumers, getConsumingAtomicComputations, List.mem_flatMap, List.mem_map, List.mem_filter,
    decide_eq_true_eq]
  constructor
  · rintro ⟨x, hx, n, ⟨hn, rfl⟩, rfl⟩
    exact ⟨hx, hn⟩
  · rintro ⟨hd, hn⟩
    exact ⟨d, hd, _, ⟨hn, rfl⟩, rfl⟩

theorem inputNames_of_single {c : AtomicComputation} (hc : Single c) : c.inputNames = [c.input.setName] := by
  obtain ⟨hu, hj⟩ := hc
  unfold AtomicComputation.role at hu hj
  unfold AtomicComputation.inputNames
  cases hk : c.kind <;> simp_all

theorem WellFormed.eq_of_name (wf : WellFormed plan) {c d : AtomicComputation} (hc : c ∈ plan) (hd : d ∈ plan)
    (h : c.getOutputName = d.getOutputName) : c = d :=
  List.inj_on_of_nodup_map wf.names hc hd h

theorem WellFormed.nodup (wf : WellFormed plan) : plan.Nodup := wf.names.of_map _

theorem WellFormed.eq_of_single (wf : WellFormed plan) {x y c : AtomicComputation} (hx : x ∈ plan) (hy : y ∈ plan)
    (hc : Single c) (hcx : c ∈ consumers plan x) (hcy : c ∈ consumers plan y) : x = y := by
  have hnx := (mem_consumers.mp hcx).2
  have hny := (mem_consumers.mp hcy).2
  rw [inputNames_of_single hc, mem_singleton] at hnx hny
  exact wf.eq_of_name hx hy (hnx.trans hny.symm)

theorem WellFormed.nodup_single (wf : WellFormed plan) (x : AtomicComputation) :
    (consumers plan x).Pairwise fun c d => Single c → c ≠ d := by
  unfold consumers getConsumingAtomicComputations
  apply List.pairwise_flatMap.mpr
  constructor
  · intro c _
    by_cases hc : Single c
    · rw [inputNames_of_single hc, List.filter_cons]
      split <;> simp
    · apply List.pairwise_map.mpr
      apply List.Pairwise.imp_of_mem (R := fun _ _ => True)
      · intro _ _ _ _ _ h
        exact absurd h hc
      · exact List.pairwise_of_forall fun _ _ => trivial
  · apply wf.nodup.imp
    intro c d hne x hx y hy _ he
    obtain ⟨_, -, rfl⟩ := List.mem_map.mp hx
    obtain ⟨_, -, rfl⟩ := List.mem_map.mp hy
    exact hne he

theorem WellFormed.role_ne_scan (wf : WellFormed plan) {c d : AtomicComputation} (hc : c ∈ plan)
    (hd : d ∈ consumers plan c) : d.role ≠ .scan := by
  intro hs
  obtain ⟨hdp, hn⟩ := mem_consumers.mp hd
  exact wf.scans d hdp hs _ hn c hc rfl

end

def EndsAs (plan : List AtomicComputation) (x : AtomicComputation) : PipelineType → Prop
  | .joinSide => x.role = .hash
  | .aggregation => x.role ≠ .hash ∧ ∃ d ∈ consumers plan x, d.role = .agg
  | .straight => x.role ≠ .hash ∧
      (x.role = .write ∨ (∃ d ∈ consumers plan x, d.role = .union) ∨ 1 < (consumers plan x).length)

structure Sound (plan : List AtomicComputation) (node : PhysicalNode) : Prop where
  chain : node.pipeline.IsChain fun x y => y ∈ consumers plan x
  mem : ∀ x ∈ node.pipeline, x ∈ plan
  last : ∃ last, node.pipeline.getLast? = some last ∧ node.consumedBy = setConsumers plan last ∧
    EndsAs plan last node.type

structure Entry (plan q : List AtomicComputation) (c : AtomicComputation) : Prop where
  chain : q.IsChain fun x y => y ∈ consumers plan x
  mem : ∀ x ∈ q, x ∈ plan
  edge : ∀ x ∈ q.getLast?, c ∈ consumers plan x
  plan : c ∈ plan
  notScan : c.role ≠ .scan
  empty : q = [] ↔ c.role = .join

section

variable {M : Type} [AddCommMonoid M] (plan : List AtomicComputation) (f : List AtomicComputation → M)
  (g : AtomicComputation → M) (e : List AtomicComputation → AtomicComputation → M)

def rest (p : List AtomicComputation) (c : AtomicComputation) : M :=
  if 1 < (consumers plan c).length then
    (if c.role = .agg then 0 else f p) + ((consumers plan c).map (e [c])).sum
  else ((consumers plan c).map (e p)).sum

structure Accounts : Prop where
  closed : ∀ q c, Entry plan q c → c.role = .union → f q = e q c
  joined : ∀ c, c.role = .join → e [] c = 0
  sink : ∀ q c, Entry plan q c → c.role = .hash ∨ c.role = .write →
    f (q ++ [c]) + ((consumers plan c).map (e [])).sum = e q c + g c
  cut : ∀ q c, Entry plan q c → c.role = .agg ∨ c.role = .union → f q + rest plan f e [c] c = e q c + g c
  going : ∀ q c, Entry plan q c → c.role = .other ∨ c.role = .join →
    rest plan f e (q ++ [c]) c = e q c + g c

structure Added (roots : List AtomicComputation) (total : M) (b b' : Builder) (new : List PhysicalNode)
    (seen : List AtomicComputation) : Prop where
  physicalNodes : b'.physicalNodes = b.physicalNodes ++ new
  visitedNodes : b'.visitedNodes = seen ++ b.visitedNodes
  currentPipe : b'.currentPipe = []
  nodup : seen.Nodup
  fresh : ∀ w ∈ seen, w ∉ b.visitedNodes
  mem : ∀ w ∈ seen, w ∈ plan ∧ w.role ≠ .scan
  caused : ∀ w ∈ seen, w ∈ roots ∨ ∃ x ∈ seen, w ∈ consumers plan x
  closed : ∀ w ∈ seen, ∀ d ∈ consumers plan w, d ∈ b'.visitedNodes
  roots : ∀ c ∈ roots, c ∈ b'.visitedNodes
  sound : ∀ node ∈ new, Sound plan node
  total : (new.map fun node => f node.pipeline).sum = total + (seen.map g).sum

def Rooted (b : Builder) : Prop :=
  ∀ y ∈ b.visitedNodes, Single y → ∀ x ∈ plan, y ∈ consumers plan x → x ∈ b.visitedNodes ∨ x.role = .scan

variable {plan f g e}

theorem Added.refl {b : Builder} (h : b.currentPipe = []) : Added plan f g [] 0 b b [] [] where
  physicalNodes := by simp
  visitedNodes := by simp
  currentPipe := h
  nodup := .nil
  fresh := by simp
  mem := by simp
  caused := by simp
  closed := by simp
  roots := by simp
  sound := by simp
  total := by simp

theorem Added.of_start {roots : List AtomicComputation} {t : M} {b b₁ b' : Builder}
    {new : List PhysicalNode} {seen : List AtomicComputation} (h : Added plan f g roots t b₁ b' new seen)
    (hp : b₁.physicalNodes = b.physicalNodes) (hv : b₁.visitedNodes = b.visitedNodes) :
    Added plan f g roots t b b' new seen where
  physicalNodes := by rw [h.physicalNodes, hp]
  visitedNodes := by rw [h.visitedNodes, hv]
  currentPipe := h.currentPipe
  nodup := h.nodup
  fresh := by
    rw [← hv]
    exact h.fresh
  mem := h.mem
  caused := h.caused
  closed := h.closed
  roots := h.roots
  sound := h.sound
  total := h.total

theorem Added.trans {roots roots' : List AtomicComputation} {t t' : M} {b b' b'' : Builder}
    {new new' : List PhysicalNode} {seen seen' : List AtomicComputation}
    (h : Added plan f g roots t b b' new seen) (h' : Added plan f g roots' t' b' b'' new' seen') :
    Added plan f g (roots ++ roots') (t + t') b b'' (new ++ new') (seen' ++ seen) where
  physicalNodes := by rw [h'.physicalNodes, h.physicalNodes, append_assoc]
  visitedNodes := by rw [h'.visitedNodes, h.visitedNodes, append_assoc]
  currentPipe := h'.currentPipe
  nodup := by
    apply List.nodup_append.mpr
    refine ⟨h'.nodup, h.nodup, ?_⟩
    rintro w hw x hx rfl
    apply h'.fresh w hw
    rw [h.visitedNodes]
    exact mem_append_left _ hx
  fresh := by
    intro w hw
    rcases List.mem_append.mp hw with hw | hw
    · intro hb
      apply h'.fresh w hw
      rw [h.visitedNodes]
      exact mem_append_right _ hb
    · exact h.fresh w hw
  mem := by
    intro w hw
    exact (List.mem_append.mp hw).elim (h'.mem w) (h.mem w)
  caused := by
    intro w hw
    rcases List.mem_append.mp hw with hw | hw
    · rcases h'.caused w hw with hr | ⟨x, hx, hd⟩
      · exact .inl (mem_append_right _ hr)
      · exact .inr ⟨x, mem_append_left _ hx, hd⟩
    · rcases h.caused w hw with hr | ⟨x, hx, hd⟩
      · exact .inl (mem_append_left _ hr)
      · exact .inr ⟨x, mem_append_right _ hx, hd⟩
  closed := by
    intro w hw d hd
    rcases List.mem_append.mp hw with hw | hw
    · exact h'.closed w hw d hd
    · rw [h'.visitedNodes]
      exact mem_append_right _ (h.closed w hw d hd)
  roots := by
    intro c hc
    rcases List.mem_append.mp hc with hc | hc
    · rw [h'.visitedNodes]
      exact mem_append_right _ (h.roots c hc)
    · exact h'.roots c hc
  sound := by
    intro node hn
    exact (List.mem_append.mp hn).elim (h.sound node) (h'.sound node)
  total := by
    rw [map_append, sum_append, map_append, sum_append, h.total, h'.total,
      add_add_add_comm, add_comm (seen.map g).sum]

theorem Added.visit {c : AtomicComputation} {t t' : M} {b b₂ b' : Builder} {new new' : List PhysicalNode}
    {seen : List AtomicComputation} (h : Added plan f g (consumers plan c) t' b₂ b' new' seen)
    (hp : b₂.physicalNodes = b.physicalNodes ++ new) (hvis : b₂.visitedNodes = c :: b.visitedNodes)
    (hv : c ∉ b.visitedNodes) (hc : c ∈ plan) (hscan : c.role ≠ .scan) (hs : ∀ node ∈ new, Sound plan node)
    (ht : (new.map fun node => f node.pipeline).sum + t' = t + g c) :
    Added plan f g [c] t b b' (new ++ new') (seen ++ [c]) where
  physicalNodes := by rw [h.physicalNodes, hp, append_assoc]
  visitedNodes := by rw [h.visitedNodes, hvis, append_assoc, List.singleton_append]
  currentPipe := h.currentPipe
  nodup := by
    apply List.nodup_append.mpr
    refine ⟨h.nodup, List.nodup_singleton c, ?_⟩
    rintro w hw x hx rfl
    rw [List.mem_singleton.mp hx] at hw
    exact h.fresh c hw (by simp [hvis])
  fresh := by
    intro w hw hb
    rcases List.mem_append.mp hw with hw | hw
    · exact h.fresh w hw (by simp [hvis, hb])
    · rw [List.mem_singleton.mp hw] at hb
      exact hv hb
  mem := by
    intro w hw
    rcases List.mem_append.mp hw with hw | hw
    · exact h.mem w hw
    · rw [List.mem_singleton.mp hw]
      exact ⟨hc, hscan⟩
  caused := by
    intro w hw
    rcases List.mem_append.mp hw with hw | hw
    · rcases h.caused w hw with hr | ⟨x, hx, hd⟩
      · exact .inr ⟨c, by simp, hr⟩
      · exact .inr ⟨x, mem_append_left _ hx, hd⟩
    · exact .inl hw
  closed := by
    intro w hw d hd
    rcases List.mem_append.mp hw with hw | hw
    · exact h.closed w hw d hd
    · rw [List.mem_singleton.mp hw] at hd
      exact h.roots d hd
  roots := by
    intro d hd
    rw [List.mem_singleton.mp hd, h.visitedNodes, hvis]
    simp
  sound := by
    intro node hn
    exact (List.mem_append.mp hn).elim (hs node) (h.sound node)
  total := by
    rw [map_append, sum_append, h.total, ← add_assoc, ht, map_append, sum_append,
      List.map_singleton, List.sum_singleton, add_assoc, add_comm (g c)]

theorem Added.rooted (wf : WellFormed plan) {roots : List AtomicComputation} {t : M} {b b' : Builder}
    {new : List PhysicalNode} {seen : List AtomicComputation} (h : Added plan f g roots t b b' new seen)
    (hb : Rooted plan b) (hroots : ∀ c ∈ roots, Single c → ∀ x ∈ plan, c ∈ consumers plan x →
      x ∈ b.visitedNodes ∨ x.role = .scan) : Rooted plan b' := by
  intro y hy hs x hx hyx
  rw [h.visitedNodes] at hy ⊢
  rcases List.mem_append.mp hy with hy | hy
  · rcases h.caused y hy with hr | ⟨x', hx', hd⟩
    · exact (hroots y hr hs x hx hyx).imp_left (mem_append_right _)
    · have he := wf.eq_of_single hx (h.mem x' hx').1 hs hyx hd
      subst he
      exact .inl (mem_append_left _ hx')
  · exact (hb y hy hs x hx hyx).imp_left (mem_append_right _)

def unvisited (plan : List AtomicComputation) (b : Builder) : ℕ :=
  (plan.filter fun c => c ∉ b.visitedNodes).length

theorem Added.unvisited_le {roots : List AtomicComputation} {t : M} {b b' : Builder}
    {new : List PhysicalNode} {seen : List AtomicComputation} (h : Added plan f g roots t b b' new seen) :
    unvisited plan b' ≤ unvisited plan b := by
  apply List.Sublist.length_le
  apply List.monotone_filter_right
  intro c hc
  rw [h.visitedNodes] at hc
  simp only [List.mem_append, decide_eq_true_eq] at hc ⊢
  exact fun hb => hc (.inr hb)

theorem unvisited_visit {b : Builder} {c : AtomicComputation} (hc : c ∈ plan) (hb : c ∉ b.visitedNodes) :
    unvisited plan { b with visitedNodes := c :: b.visitedNodes } < unvisited plan b := by
  have hsub : (plan.filter fun d => d ∉ c :: b.visitedNodes).Sublist (plan.filter fun d => d ∉ b.visitedNodes) := by
    apply List.monotone_filter_right
    intro d hd
    simp only [List.mem_cons, not_or, decide_eq_true_eq] at hd ⊢
    exact hd.2
  apply lt_of_le_of_ne hsub.length_le
  intro he
  have hmem : c ∈ plan.filter fun d => d ∉ b.visitedNodes := by simp [hc, hb]
  rw [← hsub.eq_of_length he] at hmem
  simp at hmem

variable (plan f g e) in
def VisitSpec (n : ℕ) : Prop :=
  ∀ q c b, Entry plan q c → b.currentPipe = q ++ [c] → unvisited plan b < n → Rooted plan b →
    (Single c → c ∉ b.visitedNodes) →
    (Single c → ∀ x ∈ plan, c ∈ consumers plan x → x ∈ b.visitedNodes ∨ x.role = .scan) →
    ∃ b' new seen, transverseTCAPGraph plan n c b = .ok b' ∧ Added plan f g [c] (e q c) b b' new seen

theorem loop_spec (wf : WellFormed plan) {n : ℕ} (ih : VisitSpec plan f g e n) {x : AtomicComputation}
    (hx : x ∈ plan) {m : List AtomicComputation} (cs : List AtomicComputation) (b : Builder)
    (hcur : b.currentPipe = []) (hn : unvisited plan b < n) (hb : Rooted plan b)
    (hvx : x ∈ b.visitedNodes ∨ x.role = .scan) (hcs : ∀ c ∈ cs, c ∈ consumers plan x)
    (hentry : ∀ c ∈ cs, Entry plan m c) (hfresh : ∀ c ∈ cs, Single c → c ∉ b.visitedNodes)
    (hnd : cs.Pairwise fun c d => Single c → c ≠ d) :
    ∃ b' new seen, cs.foldlM (fun b c => transverseTCAPGraph plan n c
        { b with currentPipe := b.currentPipe ++ m ++ [c] }) b = .ok b' ∧
      Added plan f g cs (cs.map (e m)).sum b b' new seen := by
  induction cs generalizing b with
  | nil => exact ⟨b, [], [], rfl, .refl hcur⟩
  | cons c cs ihcs =>
    obtain ⟨hhead, htail⟩ := List.pairwise_cons.mp hnd
    have hc := hcs c (by simp)
    have hproducer : ∀ d ∈ c :: cs, Single d → ∀ y ∈ plan, d ∈ consumers plan y → y = x := by
      intro d hd hs y hy hdy
      exact wf.eq_of_single hy hx hs hdy (hcs d hd)
    obtain ⟨b', new, seen, hrun, hadd⟩ := ih m c { b with currentPipe := b.currentPipe ++ m ++ [c] }
      (hentry c (by simp)) (by simp [hcur]) hn hb (hfresh c (by simp)) fun hs y hy hcy => by
        rw [hproducer c (by simp) hs y hy hcy]
        exact hvx
    have hadd' : Added plan f g [c] (e m c) b b' new seen := hadd.of_start rfl rfl
    have hvx' : x ∈ b'.visitedNodes ∨ x.role = .scan := by
      rw [hadd'.visitedNodes]
      exact hvx.imp_left (mem_append_right _)
    have hb' : Rooted plan b' := by
      apply hadd'.rooted wf hb
      intro d hd hs y hy hdy
      rw [mem_singleton] at hd
      subst hd
      rw [hproducer d (by simp) hs y hy hdy]
      exact hvx
    -- a consumer with one input is not met on the way from another consumer of the same computation
    have hfresh' : ∀ d ∈ cs, Single d → d ∉ b'.visitedNodes := by
      intro d hd hs hmem
      rw [hadd'.visitedNodes] at hmem
      rcases List.mem_append.mp hmem with hmem | hmem
      · rcases hadd'.caused d hmem with hr | ⟨y, hy, hdy⟩
        · rw [mem_singleton] at hr
          subst hr
          exact hhead d hd hs rfl
        · have he := hproducer d (mem_cons_of_mem _ hd) hs y (hadd'.mem y hy).1 hdy
          subst he
          rcases hvx with hv | hv
          · exact hadd'.fresh y hy hv
          · exact (hadd'.mem y hy).2 hv
      · exact hfresh d (mem_cons_of_mem _ hd) hs hmem
    obtain ⟨b'', new', seen', hrun', hadd''⟩ := ihcs b' hadd'.currentPipe
      (lt_of_le_of_lt hadd'.unvisited_le hn) hb' hvx' (fun d hd => hcs d (mem_cons_of_mem _ hd))
      (fun d hd => hentry d (mem_cons_of_mem _ hd)) hfresh' htail
    refine ⟨b'', new ++ new', seen' ++ seen, ?_, ?_⟩
    · rw [List.foldlM_cons, hrun]
      exact hrun'
    · rw [map_cons, sum_cons]
      exact hadd'.trans hadd''

theorem createPhysicalPipeline_eq {type : PipelineType} {b : Builder} {last : AtomicComputation}
    (h : b.currentPipe.getLast? = some last) : createPhysicalPipeline plan type b =
      .ok { b with physicalNodes := b.physicalNodes ++ [⟨type, b.currentPipe, setConsumers plan last⟩] } := by
  unfold createPhysicalPipeline
  rw [h]

theorem Entry.of_edge (wf : WellFormed plan) {p : List AtomicComputation} {c d : AtomicComputation}
    (hchain : p.IsChain fun x y => y ∈ consumers plan x) (hmem : ∀ x ∈ p, x ∈ plan)
    (hlast : p.getLast? = some c) (hc : c.role ≠ .hash) (hd : d ∈ consumers plan c) : Entry plan p d where
  chain := hchain
  mem := hmem
  edge := by
    intro x hx
    rw [hlast, Option.mem_some_iff] at hx
    subst hx
    exact hd
  plan := (mem_consumers.mp hd).1
  notScan := wf.role_ne_scan (hmem c (List.mem_of_getLast? hlast)) hd
  empty := by
    have hcp := hmem c (List.mem_of_getLast? hlast)
    constructor
    · rintro rfl
      cases hlast
    · intro hj
      exact absurd ((wf.hashes c hcp d hd).mpr hj) hc

theorem Entry.of_hash (wf : WellFormed plan) {c d : AtomicComputation} (hcp : c ∈ plan) (hc : c.role = .hash)
    (hd : d ∈ consumers plan c) : Entry plan [] d where
  chain := .nil
  mem := by simp
  edge := by simp
  plan := (mem_consumers.mp hd).1
  notScan := wf.role_ne_scan hcp hd
  empty := by simpa using (wf.hashes c hcp d hd).mp hc

theorem Entry.chain_append {q : List AtomicComputation} {c : AtomicComputation} (h : Entry plan q c) :
    (q ++ [c]).IsChain fun x y => y ∈ consumers plan x := by
  apply List.IsChain.append h.chain (.singleton c)
  intro x hx y hy
  cases hy
  exact h.edge x hx

theorem Entry.mem_append {q : List AtomicComputation} {c : AtomicComputation} (h : Entry plan q c) :
    ∀ x ∈ q ++ [c], x ∈ plan := by
  intro x hx
  rcases List.mem_append.mp hx with hx | hx
  · exact h.mem x hx
  · rw [List.mem_singleton.mp hx]
    exact h.plan

theorem Entry.exists_last (wf : WellFormed plan) {q : List AtomicComputation} {c : AtomicComputation}
    (h : Entry plan q c) (hc : c.role ≠ .join) : ∃ last, q.getLast? = some last ∧ last.role ≠ .hash := by
  cases hl : q.getLast? with
  | none => exact absurd (h.empty.mp (List.getLast?_eq_none_iff.mp hl)) hc
  | some last =>
    refine ⟨last, rfl, fun hh => hc ?_⟩
    exact (wf.hashes last (h.mem last (List.mem_of_getLast? hl)) c (h.edge last hl)).mp hh

structure Prepared (plan : List AtomicComputation) (f : List AtomicComputation → M)
    (e : List AtomicComputation → AtomicComputation → M) (c : AtomicComputation) (total : M) (b b' : Builder)
    (move m : List AtomicComputation) (new : List PhysicalNode) : Prop where
  physicalNodes : b'.physicalNodes = b.physicalNodes ++ new
  visitedNodes : b'.visitedNodes = b.visitedNodes
  pipe : b'.currentPipe ++ move = m
  once : b'.currentPipe = [] ∨ (consumers plan c).length = 1
  sound : ∀ node ∈ new, Sound plan node
  entry : ∀ d ∈ consumers plan c, Entry plan m d
  total : (new.map fun node => f node.pipeline).sum + ((consumers plan c).map (e m)).sum = total

theorem splitPipe_spec (wf : WellFormed plan) {p : List AtomicComputation} {c : AtomicComputation} {b : Builder}
    (hcur : b.currentPipe = p) (hchain : p.IsChain fun x y => y ∈ consumers plan x) (hmem : ∀ x ∈ p, x ∈ plan)
    (hlast : p.getLast? = some c) (hh : c.role ≠ .hash) (hw : c.role ≠ .write) (ha : c.role = .agg → p = [c]) :
    ∃ b' move m new, splitPipe plan c b = .ok (move, b') ∧
      Prepared plan f e c (rest plan f e p c) b b' move m new := by
  have hcp := hmem c (List.mem_of_getLast? hlast)
  unfold splitPipe rest
  rw [hcur, hlast]
  by_cases hfork : 1 < (consumers plan c).length
  · have hentry : ∀ d ∈ consumers plan c, Entry plan [c] d := by
      intro d hd
      exact .of_edge wf (.singleton c) (by simpa using hcp) rfl hh hd
    dsimp only
    rw [if_pos hfork, if_pos hfork]
    by_cases hagg : c.role = .agg
    · have hp := ha hagg
      subst hp
      refine ⟨_, _, [c], [], by rw [if_pos ⟨by simp, hagg⟩], ?_⟩
      exact ⟨by simp, rfl, rfl, .inl rfl, by simp, hentry, by simp [hagg]⟩
    · have hlastb : b.currentPipe.getLast? = some c := by rw [hcur, hlast]
      rw [if_neg fun h => hagg h.2, createPhysicalPipeline_eq hlastb]
      refine ⟨_, _, [c], _, rfl, rfl, rfl, rfl, .inl rfl, ?_, hentry, by simp [hagg, hcur]⟩
      intro node hn
      rw [List.mem_singleton.mp hn, hcur]
      exact ⟨hchain, hmem, c, hlast, rfl, hh, .inr (.inr hfork)⟩
  · dsimp only
    rw [if_neg hfork, if_neg hfork]
    have hne : consumers plan c ≠ [] := fun h => hw ((wf.writes c hcp).mp h)
    have hpos := List.length_pos_of_ne_nil hne
    refine ⟨b, [], p, [], rfl, by simp, rfl, by simp [hcur], .inr (by omega), by simp, ?_, by simp⟩
    intro d hd
    exact .of_edge wf hchain hmem hlast hh hd

theorem Prepared.after {c : AtomicComputation} {t : M} {b b₁ b' : Builder} {move m : List AtomicComputation}
    {new : List PhysicalNode} {node : PhysicalNode} (h : Prepared plan f e c t b₁ b' move m new)
    (hp : b₁.physicalNodes = b.physicalNodes ++ [node]) (hv : b₁.visitedNodes = b.visitedNodes)
    (hs : Sound plan node) : Prepared plan f e c (f node.pipeline + t) b b' move m (node :: new) where
  physicalNodes := by rw [h.physicalNodes, hp, append_assoc, List.singleton_append]
  visitedNodes := h.visitedNodes.trans hv
  pipe := h.pipe
  once := h.once
  sound := by
    intro x hx
    rcases List.mem_cons.mp hx with rfl | hx
    · exact hs
    · exact h.sound x hx
  entry := h.entry
  total := by rw [map_cons, sum_cons, add_assoc, h.total]

theorem prepare_sink (wf : WellFormed plan) (acc : Accounts plan f g e) {q : List AtomicComputation}
    {c : AtomicComputation} {b : Builder} (hq : Entry plan q c) (hcur : b.currentPipe = q ++ [c])
    (hr : c.role = .hash ∨ c.role = .write) (type : PipelineType)
    (htype : EndsAs plan c type) :
    ∃ b₁ b' move m new,
      (do let b ← createPhysicalPipeline plan type b
          return { b with currentPipe := [] }) = .ok b₁ ∧ splitPipe plan c b₁ = .ok (move, b') ∧
        Prepared plan f e c (e q c + g c) b b' move m new := by
  have hlast : b.currentPipe.getLast? = some c := by simp [hcur]
  rw [createPhysicalPipeline_eq hlast]
  refine ⟨_, _, [], [], _, rfl, rfl, rfl, rfl, rfl, .inl rfl, ?_, ?_, ?_⟩
  · intro node hn
    rw [List.mem_singleton.mp hn, hcur]
    exact ⟨hq.chain_append, hq.mem_append, c, by simp, rfl, htype⟩
  · intro d hd
    rcases hr with hr | hr
    · exact .of_hash wf hq.plan hr hd
    · rw [(wf.writes c hq.plan).mpr hr] at hd
      cases hd
  · rw [← acc.sink q c hq hr]
    simp [hcur]

theorem prepare_cut (wf : WellFormed plan) (acc : Accounts plan f g e) {q : List AtomicComputation}
    {c : AtomicComputation} {b : Builder} (hq : Entry plan q c) (hcur : b.currentPipe = q ++ [c])
    (hr : c.role = .agg ∨ c.role = .union) (type : PipelineType)
    (htype : ∀ x, x.role ≠ .hash → c ∈ consumers plan x → EndsAs plan x type) :
    ∃ b₁ b' move m new,
      (do let b ← createPhysicalPipeline plan type { b with currentPipe := b.currentPipe.dropLast }
          return { b with currentPipe := [c] }) = .ok b₁ ∧ splitPipe plan c b₁ = .ok (move, b') ∧
        Prepared plan f e c (e q c + g c) b b' move m new := by
  have hjoin : c.role ≠ .join := by rcases hr with hr | hr <;> simp [hr]
  have hhash : c.role ≠ .hash := by rcases hr with hr | hr <;> simp [hr]
  have hwrite : c.role ≠ .write := by rcases hr with hr | hr <;> simp [hr]
  obtain ⟨last, hlast, hlasth⟩ := hq.exists_last wf hjoin
  have hdrop : b.currentPipe.dropLast = q := by simp [hcur]
  rw [hdrop, createPhysicalPipeline_eq (b := { b with currentPipe := q }) hlast]
  obtain ⟨b', move, m, new, hsplit, hprep⟩ := splitPipe_spec (f := f) (e := e) wf (c := c)
    (b := ⟨b.visitedNodes, [c], b.physicalNodes ++ [⟨type, q, setConsumers plan last⟩]⟩)
    rfl (.singleton c) (by simpa using hq.plan) rfl hhash hwrite (fun _ => rfl)
  refine ⟨_, b', move, m, ⟨type, q, setConsumers plan last⟩ :: new, rfl, hsplit, ?_⟩
  rw [← acc.cut q c hq hr]
  apply hprep.after rfl rfl
  exact ⟨hq.chain, hq.mem, last, hlast, rfl, htype last hlasth (hq.edge last hlast)⟩

theorem prepare_going (wf : WellFormed plan) (acc : Accounts plan f g e) {q : List AtomicComputation}
    {c : AtomicComputation} {b : Builder} (hq : Entry plan q c) (hcur : b.currentPipe = q ++ [c])
    (hr : c.role = .other ∨ c.role = .join) :
    ∃ b₁ b' move m new, .ok b = (.ok b₁ : Except Stop Builder) ∧ splitPipe plan c b₁ = .ok (move, b') ∧
      Prepared plan f e c (e q c + g c) b b' move m new := by
  have hhash : c.role ≠ .hash := by rcases hr with hr | hr <;> simp [hr]
  have hwrite : c.role ≠ .write := by rcases hr with hr | hr <;> simp [hr]
  have hagg : c.role ≠ .agg := by rcases hr with hr | hr <;> simp [hr]
  rw [← acc.going q c hq hr]
  obtain ⟨b', move, m, new, hsplit, hprep⟩ := splitPipe_spec (f := f) (e := e) wf hcur hq.chain_append
    hq.mem_append (by simp) hhash hwrite (fun h => absurd h hagg)
  exact ⟨b, b', move, m, new, rfl, hsplit, hprep⟩

theorem prepare_spec (wf : WellFormed plan) (acc : Accounts plan f g e) {q : List AtomicComputation}
    {c : AtomicComputation} {b : Builder} (hq : Entry plan q c) (hcur : b.currentPipe = q ++ [c]) :
    ∃ b₁ b' move m new, breakPipe plan c b = .ok b₁ ∧ splitPipe plan c b₁ = .ok (move, b') ∧
      Prepared plan f e c (e q c + g c) b b' move m new := by
  unfold breakPipe
  cases hr : c.role with
  | scan => exact absurd hr hq.notScan
  | hash => exact prepare_sink wf acc hq hcur (.inl hr) _ hr
  | write => exact prepare_sink wf acc hq hcur (.inr hr) _ ⟨by simp [hr], .inl hr⟩
  | agg => exact prepare_cut wf acc hq hcur (.inl hr) _ fun _ hx hc => ⟨hx, c, hc, hr⟩
  | union => exact prepare_cut wf acc hq hcur (.inr hr) _ fun _ hx hc => ⟨hx, .inr (.inl ⟨c, hc, hr⟩)⟩
  | join => exact prepare_going wf acc hq hcur (.inr hr)
  | other => exact prepare_going wf acc hq hcur (.inl hr)

theorem foldlM_pipe (plan : List AtomicComputation) (n : ℕ) (cs : List AtomicComputation) (b : Builder) (move : List AtomicComputation)
    (h : b.currentPipe = [] ∨ cs.length = 1) :
    cs.foldlM (fun b c => transverseTCAPGraph plan n c
      { b with currentPipe := b.currentPipe ++ move ++ [c] }) b =
    cs.foldlM (fun b' c => transverseTCAPGraph plan n c
      { b' with currentPipe := b'.currentPipe ++ (b.currentPipe ++ move) ++ [c] })
      { b with currentPipe := [] } := by
  rcases h with h | h
  · obtain ⟨visited, pipe, nodes⟩ := b
    simp only at h
    subst h
    rfl
  · obtain ⟨c, rfl⟩ := List.length_eq_one_iff.mp h
    simp

theorem closePipe_spec (wf : WellFormed plan) (acc : Accounts plan f g e) {q : List AtomicComputation}
    {c : AtomicComputation} {b : Builder} (hq : Entry plan q c) (hcur : b.currentPipe = q ++ [c])
    (hv : c ∈ b.visitedNodes) (hc : ¬ Single c) :
    ∃ b' new seen, closePipe plan b = .ok b' ∧ Added plan f g [c] (e q c) b b' new seen := by
  have hdrop : b.currentPipe.dropLast = q := by simp [hcur]
  unfold closePipe
  rw [hdrop]
  by_cases hj : c.role = .join
  · have hnil := hq.empty.mpr hj
    subst hnil
    rw [if_pos rfl]
    refine ⟨_, [], [], rfl, ?_⟩
    exact ⟨by simp, by simp, rfl, .nil, by simp, by simp, by simp, by simp, by simpa using hv, by simp,
      by simp [acc.joined c hj]⟩
  · have hu : c.role = .union := by
      by_contra hu
      exact hc ⟨hu, hj⟩
    obtain ⟨last, hlast, hlasth⟩ := hq.exists_last wf hj
    rw [if_neg (fun h => hj (hq.empty.mp h)), createPhysicalPipeline_eq (b := { b with currentPipe := q }) hlast]
    refine ⟨_, [⟨.straight, q, setConsumers plan last⟩], [], rfl, ?_⟩
    refine ⟨rfl, by simp, rfl, .nil, by simp, by simp, by simp, by simp, by simpa using hv, ?_, ?_⟩
    · intro node hn
      rw [List.mem_singleton.mp hn]
      exact ⟨hq.chain, hq.mem, last, hlast, rfl, hlasth, .inr (.inl ⟨c, hq.edge last hlast, hu⟩)⟩
    · simp [acc.closed q c hq hu]

theorem visit_spec (wf : WellFormed plan) (acc : Accounts plan f g e) (n : ℕ) : VisitSpec plan f g e n := by
  induction n with
  | zero =>
    intro q c b _ _ hn
    omega
  | succ n ih =>
    intro q c b hq hcur hn hb hfresh hroot
    unfold transverseTCAPGraph
    by_cases hv : c ∈ b.visitedNodes
    · rw [if_pos hv]
      exact closePipe_spec wf acc hq hcur hv fun hs => hfresh hs hv
    · rw [if_neg hv]
      obtain ⟨b₁, b₂, move, m, new, hbreak, hsplit, hprep⟩ := prepare_spec wf acc
        (b := { b with visitedNodes := c :: b.visitedNodes }) hq hcur
      have hvisited : b₂.visitedNodes = c :: b.visitedNodes := hprep.visitedNodes
      have hloop : ∃ b' new' seen, (consumers plan c).foldlM (fun b d => transverseTCAPGraph plan n d
          { b with currentPipe := b.currentPipe ++ m ++ [d] }) { b₂ with currentPipe := [] } = .ok b' ∧
          Added plan f g (consumers plan c) ((consumers plan c).map (e m)).sum
            { b₂ with currentPipe := [] } b' new' seen := by
        apply loop_spec wf ih hq.plan _ _ rfl _ _ _ (fun d hd => hd) hprep.entry _ (wf.nodup_single c)
        · have hlt := unvisited_visit hq.plan hv
          have he : unvisited plan { b₂ with currentPipe := [] } =
              unvisited plan { b with visitedNodes := c :: b.visitedNodes } := by
            unfold unvisited
            rw [hvisited]
          omega
        · intro y hy hs x hx hyx
          simp only [hvisited] at hy ⊢
          rcases List.mem_cons.mp hy with rfl | hy
          · exact (hroot hs x hx hyx).imp_left (mem_cons_of_mem _)
          · exact (hb y hy hs x hx hyx).imp_left (mem_cons_of_mem _)
        · simp [hvisited]
        · intro d hd hs hmem
          simp only [hvisited] at hmem
          rcases List.mem_cons.mp hmem with rfl | hmem
          · obtain ⟨rank, hrank⟩ := wf.acyclic
            exact absurd (hrank d hq.plan d hd) (lt_irrefl _)
          · rcases hb d hmem hs c hq.plan hd with h | h
            · exact hv h
            · exact hq.notScan h
      obtain ⟨b', new', seen, hrun, hadd⟩ := hloop
      refine ⟨b', new ++ new', seen ++ [c], ?_, ?_⟩
      · have hfold := foldlM_pipe plan n (consumers plan c) b₂ move hprep.once
        rw [hprep.pipe, hrun] at hfold
        rw [hbreak]
        simp only [Transition.ok_bind, hsplit]
        exact hfold
      · exact hadd.visit hprep.physicalNodes hvisited hv hq.plan hq.notScan hprep.sound hprep.total

variable (plan e) in
def scanTotal (scans : List AtomicComputation) : M :=
  (scans.map fun source => ((consumers plan source).map (e [source])).sum).sum

theorem scans_spec (wf : WellFormed plan) (acc : Accounts plan f g e) (scans : List AtomicComputation)
    (hscans : ∀ c ∈ scans, c ∈ plan ∧ c.role = .scan) (hnd : scans.Nodup) (b : Builder) (hcur : b.currentPipe = [])
    (hb : Rooted plan b)
    (hfresh : ∀ c ∈ scans, ∀ d ∈ consumers plan c, Single d → d ∉ b.visitedNodes) :
    ∃ b' new seen, scans.foldlM (fun b source => (consumers plan source).foldlM
        (fun b consumer => transverseTCAPGraph plan (plan.length + 1) consumer
          { b with currentPipe := b.currentPipe ++ [source, consumer] }) b) b = .ok b' ∧
      Added plan f g (scans.flatMap (consumers plan)) (scanTotal plan e scans) b b' new seen := by
  induction scans generalizing b with
  | nil => exact ⟨b, [], [], rfl, .refl hcur⟩
  | cons source scans ih =>
    obtain ⟨hsp, hsr⟩ := hscans source (by simp)
    have hentry : ∀ d ∈ consumers plan source, Entry plan [source] d := by
      intro d hd
      exact .of_edge wf (.singleton _) (by simpa using hsp) rfl (by simp [hsr]) hd
    have hn : unvisited plan b < plan.length + 1 := Nat.lt_succ_of_le (List.length_filter_le _ _)
    obtain ⟨b', new, seen, hrun, hadd⟩ := loop_spec wf (visit_spec wf acc (plan.length + 1)) hsp
      (m := [source]) (consumers plan source) b hcur hn hb (.inr hsr) (fun _ hd => hd) hentry
      (hfresh source (by simp)) (wf.nodup_single source)
    have hb' : Rooted plan b' := by
      apply hadd.rooted wf hb
      intro d hd hs x hx hdx
      rw [wf.eq_of_single hx hsp hs hdx hd]
      exact .inr hsr
    have hfresh' : ∀ c ∈ scans, ∀ d ∈ consumers plan c, Single d → d ∉ b'.visitedNodes := by
      intro c hc d hd hs hmem
      obtain ⟨hcp, hcr⟩ := hscans c (mem_cons_of_mem _ hc)
      rw [hadd.visitedNodes] at hmem
      rcases List.mem_append.mp hmem with hmem | hmem
      · rcases hadd.caused d hmem with hr | ⟨x, hx, hdx⟩
        · have he := wf.eq_of_single hsp hcp hs hr hd
          subst he
          exact (List.nodup_cons.mp hnd).1 hc
        · have he := wf.eq_of_single (hadd.mem x hx).1 hcp hs hdx hd
          subst he
          exact (hadd.mem x hx).2 hcr
      · exact hfresh c (mem_cons_of_mem _ hc) d hd hs hmem
    obtain ⟨b'', new', seen', hrun', hadd'⟩ := ih (fun c hc => hscans c (mem_cons_of_mem _ hc))
      (List.nodup_cons.mp hnd).2 b' hadd.currentPipe hb' hfresh'
    refine ⟨b'', new ++ new', seen' ++ seen, ?_, ?_⟩
    · simp only [append_assoc, List.singleton_append] at hrun
      rw [List.foldlM_cons, hrun]
      exact hrun'
    · unfold scanTotal
      rw [List.flatMap_cons, map_cons, sum_cons]
      exact hadd.trans hadd'

end

theorem Added.seen_perm {M : Type} [AddCommMonoid M] {plan : List AtomicComputation}
    {f : List AtomicComputation → M} {g : AtomicComputation → M} {t : M} {b : Builder}
    {new : List PhysicalNode} {seen : List AtomicComputation} (wf : WellFormed plan)
    (h : Added plan f g ((getAllScanSets plan).flatMap (consumers plan)) t ⟨[], [], []⟩ b new seen) :
    seen.Perm (plan.filter fun c => c.role ≠ .scan) := by
  apply (List.perm_ext_iff_of_nodup h.nodup (wf.nodup.filter _)).mpr
  intro c
  rw [List.mem_filter, decide_eq_true_eq]
  constructor
  · exact h.mem c
  · rintro ⟨hc, hr⟩
    obtain ⟨rank, hrank⟩ := wf.acyclic
    have hvisited : b.visitedNodes = seen := by rw [h.visitedNodes, List.append_nil]
    induction hn : rank c using Nat.strong_induction_on generalizing c with
    | _ n ih =>
      obtain ⟨d, hd, hname⟩ := wf.inputs c hc hr c.input.setName (by simp [AtomicComputation.inputNames])
      have hcd : c ∈ consumers plan d := mem_consumers.mpr ⟨hc, by simp [hname, AtomicComputation.inputNames]⟩
      rw [← hvisited]
      by_cases hs : d.role = .scan
      · apply h.roots c
        exact List.mem_flatMap.mpr ⟨d, by simp [getAllScanSets, hd, hs], hcd⟩
      · exact h.closed d (ih _ (hn ▸ hrank d hd c hcd) d hd hs rfl) c hcd

theorem buildPipes_spec {plan : List AtomicComputation} (wf : WellFormed plan) :
    ∃ b, buildPipes plan = .ok b ∧ (∀ node ∈ b.physicalNodes, Sound plan node) ∧
      ∀ {M : Type} [AddCommMonoid M] {f : List AtomicComputation → M} {g : AtomicComputation → M}
        {e : List AtomicComputation → AtomicComputation → M}, Accounts plan f g e →
        (b.physicalNodes.map fun node => f node.pipeline).sum =
          scanTotal plan e (getAllScanSets plan) +
            ((plan.filter fun c => c.role ≠ .scan).map g).sum := by
  have hrun : ∀ {M : Type} [AddCommMonoid M] {f : List AtomicComputation → M} {g : AtomicComputation → M}
      {e : List AtomicComputation → AtomicComputation → M}, Accounts plan f g e →
      ∃ b new seen, buildPipes plan = .ok b ∧ Added plan f g ((getAllScanSets plan).flatMap (consumers plan))
        (scanTotal plan e (getAllScanSets plan)) ⟨[], [], []⟩ b new seen := by
    intro M _ f g e acc
    apply scans_spec wf acc _ _ (wf.nodup.filter _) ⟨[], [], []⟩ rfl
    · intro y hy
      cases hy
    · intro c _ d _ _ hd
      cases hd
    · intro c hc
      simpa [getAllScanSets] using hc
  -- the pipes do not depend on what is counted, so a count of nothing gives them
  have hzero : Accounts (M := ℕ) plan (fun _ => 0) (fun _ => 0) fun _ _ => 0 := by
    constructor <;> simp [rest]
  obtain ⟨b, new, seen, hb, hadd⟩ := hrun hzero
  refine ⟨b, hb, ?_, ?_⟩
  · rw [hadd.physicalNodes]
    simpa using hadd.sound
  · intro M _ f g e acc
    obtain ⟨b', new', seen', hb', hadd'⟩ := hrun acc
    have he : b = b' := by
      rw [hb] at hb'
      exact Except.ok.inj hb'
    subst he
    have hnodes : b.physicalNodes = new' := by rw [hadd'.physicalNodes, List.nil_append]
    rw [hnodes, hadd'.total, ((hadd'.seen_perm wf).map g).sum_eq]

end PlinyCompute.PipeBuilder
