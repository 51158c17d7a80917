import Mathlib
import PlinyCompute.PipeTraversal

namespace PlinyCompute.PipeBuilder

open LogicalPlan

def Cuts (c : AtomicComputation) : Prop := c.role = .agg ∨ c.role = .union

instance : DecidablePred Cuts := fun c =>
  inferInstanceAs (Decidable (c.role = .agg ∨ c.role = .union))

def adjacent (p : List AtomicComputation) : List (AtomicComputation × AtomicComputation) := p.zip p.tail

theorem adjacent_concat {q : List AtomicComputation} {x c : AtomicComputation} (h : q.getLast? = some x) :
    adjacent (q ++ [c]) = adjacent q ++ [(x, c)] := by
  induction q with
  | nil => cases h
  | cons a q ih =>
    cases q with
    | nil =>
      cases h
      rfl
    | cons d q =>
      have := ih (by simpa using h)
      simp only [adjacent, List.cons_append, List.tail_cons, List.zip_cons_cons] at this ⊢
      rw [this]

theorem sum_map_ite {α : Type} (p : α → Prop) [DecidablePred p] (l : List α) :
    (l.map fun d => if p d then 1 else 0).sum = l.countP p := by
  induction l with
  | nil => rfl
  | cons a l ih =>
    rw [List.map_cons, List.sum_cons, ih, List.countP_cons]
    simp only [decide_eq_true_eq]
    omega

theorem sum_map_single {α : Type} [DecidableEq α] {l : List α} (hl : l.Nodup) {x : α} {g : α → ℕ}
    (hg : ∀ c ∈ l, c ≠ x → g c = 0) : (l.map g).sum = if x ∈ l then g x else 0 := by
  induction l with
  | nil => rfl
  | cons a l ih =>
    obtain ⟨ha, hl⟩ := List.nodup_cons.mp hl
    rw [List.map_cons, List.sum_cons, ih hl fun c hc => hg c (List.mem_cons_of_mem _ hc)]
    by_cases hx : a = x
    · subst hx
      simp [ha]
    · simp [hg a (by simp) hx, Ne.symm hx]

section

variable (plan : List AtomicComputation) (x y : AtomicComputation)

def insideGain (c : AtomicComputation) : ℕ :=
  if c = x ∧ c.role ≠ .hash ∧ c.role ≠ .write ∧ ¬ Cuts y then (consumers plan c).count y else 0

def insideDue (q : List AtomicComputation) (c : AtomicComputation) : ℕ :=
  (adjacent q).count (x, y) + if q.getLast? = some x ∧ c = y ∧ ¬ Cuts y then 1 else 0

def endsAt (x : AtomicComputation) : ℕ :=
  if x.role = .hash ∨ x.role = .write then 1
  else (consumers plan x).countP Cuts +
    if 1 < (consumers plan x).length ∧ x.role ≠ .agg ∧ x.role ≠ .scan then 1 else 0

def lastDue (q : List AtomicComputation) (c : AtomicComputation) : ℕ :=
  if q.getLast? = some x ∧ Cuts c then 1 else 0

def startsAt (x : AtomicComputation) : ℕ :=
  match x.role with
  | .scan => (consumers plan x).length
  | .agg => (consumers plan x).length
  | .union => if 1 < (consumers plan x).length then 1 + (consumers plan x).length else 1
  | .join => if 1 < (consumers plan x).length then 1 + (consumers plan x).length else 1
  | .other => if 1 < (consumers plan x).length then (consumers plan x).length else 0
  | .hash => 0
  | .write => 0

def headDue (q : List AtomicComputation) : ℕ := if q.head? = some x then 1 else 0

def loneAt (x : AtomicComputation) : ℕ :=
  match x.role with
  | .scan => (consumers plan x).countP Cuts
  | .agg => (consumers plan x).countP Cuts
  | .union => (consumers plan x).countP Cuts + if 1 < (consumers plan x).length then 1 else 0
  | .join => (consumers plan x).countP Cuts + if 1 < (consumers plan x).length then 1 else 0
  | .other => if 1 < (consumers plan x).length then (consumers plan x).countP Cuts else 0
  | .hash => 0
  | .write => 0

def loneDue (q : List AtomicComputation) (c : AtomicComputation) : ℕ :=
  if q = [x] ∧ Cuts c then 1 else 0

variable {plan x y}

theorem WellFormed.length_consumers (wf : WellFormed plan) {c : AtomicComputation} (hc : c ∈ plan)
    (hw : c.role ≠ .write) : 0 < (consumers plan c).length :=
  List.length_pos_of_ne_nil fun h => hw ((wf.writes c hc).mp h)

theorem WellFormed.exists_consumer (wf : WellFormed plan) {c : AtomicComputation} (hc : c ∈ plan)
    (hw : c.role ≠ .write) (hfork : ¬ 1 < (consumers plan c).length) : ∃ d, consumers plan c = [d] := by
  have := wf.length_consumers hc hw
  exact List.length_eq_one_iff.mp (by omega)

theorem rest_fork {M : Type} [AddCommMonoid M] {f : List AtomicComputation → M}
    {e : List AtomicComputation → AtomicComputation → M} (p : List AtomicComputation) {c : AtomicComputation}
    (h : 1 < (consumers plan c).length) :
    rest plan f e p c = (if c.role = .agg then 0 else f p) + ((consumers plan c).map (e [c])).sum := if_pos h

theorem rest_line {M : Type} [AddCommMonoid M] {f : List AtomicComputation → M}
    {e : List AtomicComputation → AtomicComputation → M} (p : List AtomicComputation) {c d : AtomicComputation}
    (h : consumers plan c = [d]) : rest plan f e p c = e p d := by
  simp [rest, h]

theorem sum_insideDue {q : List AtomicComputation} (cs : List AtomicComputation) (hq : adjacent q = []) :
    (cs.map (insideDue x y q)).sum = if q.getLast? = some x ∧ ¬ Cuts y then cs.count y else 0 := by
  have he : insideDue x y q = fun c => if q.getLast? = some x ∧ c = y ∧ ¬ Cuts y then 1 else 0 := by
    funext c
    simp [insideDue, hq]
  rw [he, sum_map_ite]
  split_ifs with h
  · apply List.countP_congr
    intro c _
    simp [h]
  · apply List.countP_eq_zero.mpr
    intro c _
    simp only [decide_eq_true_eq]
    exact fun hc => h ⟨hc.1, hc.2.2⟩

theorem sum_lastDue (q : List AtomicComputation) (cs : List AtomicComputation) :
    (cs.map (lastDue x q)).sum = if q.getLast? = some x then cs.countP Cuts else 0 := by
  unfold lastDue
  rw [sum_map_ite]
  split_ifs with h
  · apply List.countP_congr
    intro c _
    simp [h]
  · apply List.countP_eq_zero.mpr
    intro c _
    simp [h]

theorem sum_loneDue (q : List AtomicComputation) (cs : List AtomicComputation) :
    (cs.map (loneDue x q)).sum = if q = [x] then cs.countP Cuts else 0 := by
  unfold loneDue
  rw [sum_map_ite]
  split_ifs with h
  · apply List.countP_congr
    intro c _
    simp [h]
  · apply List.countP_eq_zero.mpr
    intro c _
    simp [h]

theorem count_concat {q : List AtomicComputation} {c : AtomicComputation} (hc : ¬ Cuts c) :
    (adjacent (q ++ [c])).count (x, y) = insideDue x y q c := by
  unfold insideDue
  cases hz : q.getLast? with
  | none =>
    rw [List.getLast?_eq_none_iff] at hz
    subst hz
    rfl
  | some z =>
    rw [adjacent_concat hz, List.count_append, List.count_singleton]
    congr 1
    by_cases h : (z, c) = (x, y)
    · obtain ⟨rfl, rfl⟩ := Prod.mk.inj h
      simp [hc]
    · rw [if_neg (by simpa using h), if_neg]
      rintro ⟨hzx, rfl, -⟩
      exact h (by rw [Option.some.inj hzx])

theorem insideGain_eq {c : AtomicComputation} (hr : c.role ≠ .hash ∧ c.role ≠ .write) :
    insideGain plan x y c = if c = x ∧ ¬ Cuts y then (consumers plan c).count y else 0 := by
  unfold insideGain
  by_cases h : c = x
  · subst h
    simp [hr]
  · simp [h]

theorem edge_accounts (wf : WellFormed plan) :
    Accounts plan (fun p => (adjacent p).count (x, y)) (insideGain plan x y) (insideDue x y) where
  closed := by
    intro q c _ hu
    have : ¬ (q.getLast? = some x ∧ c = y ∧ ¬ Cuts y) := by
      rintro ⟨-, rfl, h⟩
      exact h (.inr hu)
    simp [insideDue, this]
  joined := by
    intro c _
    simp [insideDue, adjacent]
  sink := by
    intro q c hq hr
    have hcut : ¬ Cuts c := by rcases hr with hr | hr <;> simp [Cuts, hr]
    have hgain : insideGain plan x y c = 0 := by
      unfold insideGain
      rcases hr with hr | hr <;> simp [hr]
    rw [sum_insideDue _ rfl, count_concat hcut, hgain]
    simp
  cut := by
    intro q c hq hr
    have hdue : insideDue x y q c = (adjacent q).count (x, y) := by
      have : ¬ (q.getLast? = some x ∧ c = y ∧ ¬ Cuts y) := by
        rintro ⟨-, rfl, h⟩
        exact h hr
      simp [insideDue, this]
    have hrole : c.role ≠ .hash ∧ c.role ≠ .write := by rcases hr with hr | hr <;> simp [hr]
    unfold rest
    rw [hdue, insideGain_eq hrole, sum_insideDue _ rfl]
    simp [adjacent]
  going := by
    intro q c hq hr
    have hcut : ¬ Cuts c := by rcases hr with hr | hr <;> simp [Cuts, hr]
    have hrole : c.role ≠ .hash ∧ c.role ≠ .write := by rcases hr with hr | hr <;> simp [hr]
    have hagg : c.role ≠ .agg := by rcases hr with hr | hr <;> simp [hr]
    rw [insideGain_eq hrole, ← count_concat hcut]
    by_cases hfork : 1 < (consumers plan c).length
    · rw [rest_fork _ hfork, sum_insideDue _ rfl]
      simp [hagg]
    · obtain ⟨d, hd⟩ := wf.exists_consumer hq.plan hrole.2 hfork
      rw [rest_line _ hd, hd, insideDue, List.count_singleton]
      by_cases h : c = x ∧ ¬ Cuts y
      · by_cases hdy : d = y <;> simp [h, hdy]
      · rw [if_neg h, if_neg fun h' => h ⟨by simpa using h'.1, h'.2.2⟩]

theorem last_accounts (wf : WellFormed plan) :
    Accounts plan (fun p => if p.getLast? = some x then 1 else 0)
      (fun c => if c = x then endsAt plan x else 0) (lastDue x) where
  closed := by
    intro q c _ hu
    simp [lastDue, Cuts, hu]
  joined := by
    intro c hj
    simp [lastDue]
  sink := by
    intro q c hq hr
    have hcut : ¬ Cuts c := by rcases hr with hr | hr <;> simp [Cuts, hr]
    rw [sum_lastDue]
    by_cases hx : c = x
    · subst hx
      simp [lastDue, hcut, endsAt, hr]
    · simp [lastDue, hcut, hx]
  cut := by
    intro q c hq hr
    have hcut : Cuts c := hr
    have hrole : c.role ≠ .hash ∧ c.role ≠ .write ∧ c.role ≠ .scan := by rcases hr with hr | hr <;> simp [hr]
    by_cases hfork : 1 < (consumers plan c).length
    · rw [rest_fork _ hfork, sum_lastDue]
      by_cases hx : c = x
      · subst hx
        by_cases hagg : c.role = .agg <;> simp [lastDue, hcut, endsAt, hrole, hfork, hagg, add_comm]
      · simp [lastDue, hcut, hx]
    · obtain ⟨d, hd⟩ := wf.exists_consumer hq.plan hrole.2.1 hfork
      rw [rest_line _ hd]
      by_cases hx : c = x
      · subst hx
        simp [lastDue, hcut, endsAt, hrole, hd]
      · simp [lastDue, hcut, hx]
  going := by
    intro q c hq hr
    have hcut : ¬ Cuts c := by rcases hr with hr | hr <;> simp [Cuts, hr]
    have hrole : c.role ≠ .hash ∧ c.role ≠ .write ∧ c.role ≠ .scan ∧ c.role ≠ .agg := by
      rcases hr with hr | hr <;> simp [hr]
    by_cases hfork : 1 < (consumers plan c).length
    · rw [rest_fork _ hfork, sum_lastDue]
      by_cases hx : c = x
      · subst hx
        simp [lastDue, hcut, endsAt, hrole, hfork, add_comm]
      · simp [lastDue, hcut, hx]
    · obtain ⟨d, hd⟩ := wf.exists_consumer hq.plan hrole.2.1 hfork
      rw [rest_line _ hd]
      by_cases hx : c = x
      · subst hx
        simp [lastDue, hcut, endsAt, hrole, hd]
      · simp [lastDue, hcut, hx]

theorem head_accounts (wf : WellFormed plan) :
    Accounts plan (headDue x) (fun c => if c = x then startsAt plan x else 0) (fun q _ => headDue x q) where
  closed := by
    intro q c _ _
    rfl
  joined := by
    intro c _
    simp [headDue]
  sink := by
    intro q c hq hr
    have hjoin : c.role ≠ .join := by rcases hr with hr | hr <;> simp [hr]
    obtain ⟨a, q, rfl⟩ := List.exists_cons_of_ne_nil fun h => hjoin (hq.empty.mp h)
    by_cases hx : c = x
    · subst hx
      rcases hr with hr | hr <;> simp [headDue, startsAt, hr]
    · simp [headDue, hx]
  cut := by
    intro q c hq hr
    have hrole : c.role ≠ .write := by rcases hr with hr | hr <;> simp [hr]
    congr 1
    by_cases hfork : 1 < (consumers plan c).length
    · rw [rest_fork _ hfork]
      by_cases hx : c = x
      · subst hx
        rcases hr with hr | hr <;> simp [headDue, startsAt, hr, hfork]
      · simp [headDue, hx]
    · obtain ⟨d, hd⟩ := wf.exists_consumer hq.plan hrole hfork
      rw [rest_line _ hd]
      by_cases hx : c = x
      · subst hx
        rcases hr with hr | hr <;> simp [headDue, startsAt, hr, hd]
      · simp [headDue, hx]
  going := by
    intro q c hq hr
    have hrole : c.role ≠ .write ∧ c.role ≠ .agg := by rcases hr with hr | hr <;> simp [hr]
    by_cases hfork : 1 < (consumers plan c).length
    · rw [rest_fork _ hfork, if_neg hrole.2]
      rcases hr with hr | hr
      · obtain ⟨a, q, rfl⟩ := List.exists_cons_of_ne_nil fun h => by simpa [hr] using hq.empty.mp h
        by_cases hx : c = x
        · subst hx
          simp [headDue, startsAt, hr, hfork]
        · simp [headDue, hx]
      · have := hq.empty.mpr hr
        subst this
        by_cases hx : c = x
        · subst hx
          simp [headDue, startsAt, hr, hfork]
        · simp [headDue, hx]
    · obtain ⟨d, hd⟩ := wf.exists_consumer hq.plan hrole.1 hfork
      rw [rest_line _ hd]
      rcases hr with hr | hr
      · obtain ⟨a, q, rfl⟩ := List.exists_cons_of_ne_nil fun h => by simpa [hr] using hq.empty.mp h
        by_cases hx : c = x
        · subst hx
          simp [headDue, startsAt, hr, hd]
        · simp [headDue, hx]
      · have := hq.empty.mpr hr
        subst this
        by_cases hx : c = x
        · subst hx
          simp [headDue, startsAt, hr, hd]
        · simp [headDue, hx]

theorem lone_accounts (wf : WellFormed plan) :
    Accounts plan (fun p => if p = [x] then 1 else 0) (fun c => if c = x then loneAt plan x else 0)
      (loneDue x) where
  closed := by
    intro q c _ hu
    simp [loneDue, Cuts, hu]
  joined := by
    intro c _
    simp [loneDue]
  sink := by
    intro q c hq hr
    have hjoin : c.role ≠ .join := by rcases hr with hr | hr <;> simp [hr]
    have hcut : ¬ Cuts c := by rcases hr with hr | hr <;> simp [Cuts, hr]
    obtain ⟨a, q, rfl⟩ := List.exists_cons_of_ne_nil fun h => hjoin (hq.empty.mp h)
    rw [sum_loneDue]
    by_cases hx : c = x
    · subst hx
      rcases hr with hr | hr <;> simp [loneDue, hcut, loneAt, hr]
    · simp [loneDue, hcut, hx]
  cut := by
    intro q c hq hr
    have hcut : Cuts c := hr
    have hrole : c.role ≠ .write := by rcases hr with hr | hr <;> simp [hr]
    have hdue : loneDue x q c = if q = [x] then 1 else 0 := by simp [loneDue, hcut]
    rw [hdue]
    congr 1
    by_cases hfork : 1 < (consumers plan c).length
    · rw [rest_fork _ hfork, sum_loneDue]
      by_cases hx : c = x
      · subst hx
        rcases hr with hr | hr <;> simp [loneAt, hr, hfork, add_comm]
      · simp [hx]
    · obtain ⟨d, hd⟩ := wf.exists_consumer hq.plan hrole hfork
      rw [rest_line _ hd]
      by_cases hx : c = x
      · subst hx
        rcases hr with hr | hr <;> simp [loneDue, loneAt, hr, hd]
      · simp [loneDue, hx]
  going := by
    intro q c hq hr
    have hcut : ¬ Cuts c := by rcases hr with hr | hr <;> simp [Cuts, hr]
    have hrole : c.role ≠ .write ∧ c.role ≠ .agg := by rcases hr with hr | hr <;> simp [hr]
    have hdue : loneDue x q c = 0 := by simp [loneDue, hcut]
    rw [hdue, zero_add]
    by_cases hfork : 1 < (consumers plan c).length
    · rw [rest_fork _ hfork, if_neg hrole.2, sum_loneDue]
      rcases hr with hr | hr
      · obtain ⟨a, q, rfl⟩ := List.exists_cons_of_ne_nil fun h => by simpa [hr] using hq.empty.mp h
        by_cases hx : c = x
        · subst hx
          simp [loneAt, hr, hfork]
        · simp [hx]
      · have := hq.empty.mpr hr
        subst this
        by_cases hx : c = x
        · subst hx
          simp [loneAt, hr, hfork, add_comm]
        · simp [hx]
    · obtain ⟨d, hd⟩ := wf.exists_consumer hq.plan hrole.1 hfork
      rw [rest_line _ hd]
      rcases hr with hr | hr
      · obtain ⟨a, q, rfl⟩ := List.exists_cons_of_ne_nil fun h => by simpa [hr] using hq.empty.mp h
        by_cases hx : c = x
        · subst hx
          simp [loneDue, loneAt, hr, hd]
        · simp [loneDue, hx]
      · have := hq.empty.mpr hr
        subst this
        by_cases hx : c = x
        · subst hx
          simp [loneDue, loneAt, hr, hd]
        · simp [loneDue, hx]

end

structure Counted (plan : List AtomicComputation) (nodes : List PhysicalNode) : Prop where
  sound : ∀ node ∈ nodes, Sound plan node
  inside : ∀ x ∈ plan, ∀ y, (nodes.map fun node => (adjacent node.pipeline).count (x, y)).sum =
    if x.role ≠ .hash ∧ x.role ≠ .write ∧ ¬ Cuts y then (consumers plan x).count y else 0
  ends : ∀ x ∈ plan, nodes.countP (fun node => node.pipeline.getLast? = some x) = endsAt plan x
  starts : ∀ x ∈ plan, nodes.countP (fun node => node.pipeline.head? = some x) = startsAt plan x
  lone : ∀ x ∈ plan, nodes.countP (fun node => node.pipeline = [x]) = loneAt plan x

theorem buildPipes_counted {plan : List AtomicComputation} (wf : WellFormed plan) :
    ∃ b, buildPipes plan = .ok b ∧ Counted plan b.physicalNodes := by
  obtain ⟨b, hb, hsound, hcount⟩ := buildPipes_spec wf
  have hsum : ∀ x ∈ plan, ∀ (due gain : AtomicComputation → ℕ), (∀ c, c ≠ x → due c = 0) →
      (∀ c, c ≠ x → gain c = 0) →
      ((getAllScanSets plan).map due).sum + ((plan.filter fun c => c.role ≠ .scan).map gain).sum =
        if x.role = .scan then due x else gain x := by
    intro x hx due gain hdue hgain
    unfold getAllScanSets
    rw [sum_map_single (wf.nodup.filter _) fun c _ => hdue c,
      sum_map_single (wf.nodup.filter _) fun c _ => hgain c]
    by_cases hs : x.role = .scan <;> simp [hx, hs]
  refine ⟨b, hb, hsound, ?_, ?_, ?_, ?_⟩
  · intro x hx y
    rw [hcount (edge_accounts wf), scanTotal, hsum x hx]
    · rw [sum_insideDue _ rfl]
      by_cases hs : x.role = .scan
      · simp [hs]
      · simp [hs, insideGain]
    · intro c hc
      rw [sum_insideDue _ rfl]
      simp [hc]
    · intro c hc
      simp [insideGain, hc]
  · intro x hx
    rw [← sum_map_ite, hcount (last_accounts wf), scanTotal, hsum x hx]
    · rw [sum_lastDue]
      by_cases hs : x.role = .scan <;> simp [hs, endsAt]
    · intro c hc
      rw [sum_lastDue]
      simp [hc]
    · intro c hc
      simp [hc]
  · intro x hx
    rw [← sum_map_ite]
    have hhead := hcount (head_accounts wf (x := x))
    unfold headDue at hhead
    rw [hhead, scanTotal, hsum x hx]
    · by_cases hs : x.role = .scan <;> simp [hs, startsAt]
    · intro c hc
      simp [hc]
    · intro c hc
      simp [hc]
  · intro x hx
    rw [← sum_map_ite, hcount (lone_accounts wf), scanTotal, hsum x hx]
    · rw [sum_loneDue]
      by_cases hs : x.role = .scan <;> simp [hs, loneAt]
    · intro c hc
      rw [sum_loneDue]
      simp [hc]
    · intro c hc
      simp [hc]

end PlinyCompute.PipeBuilder
