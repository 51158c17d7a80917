import PlinyCompute.KeyJoins

namespace PlinyCompute.PlanTransformer

open LogicalPlan Transition ComputationTables

variable {l l' l₀ : AtomicComputationList} {t x y keyAlias inputKey : Text} {p cur next start c d : ℕ}
variable {toRemove : List Text} {rank : Text → ℕ} {generated : ℕ → List Text} {waiting : ℕ → Text → Prop}
variable {old : Text → Prop}

abbrev AggWalk (l : AtomicComputationList) (start : ℕ) : Text → ℕ → Prop :=
  Walk l (fun c _ => (l.objects c).role ≠ .agg) (l.outputName start)

/-- The key extraction waits for its record at most. In front of the aggregation nothing waits, everything is read as a
first input, nothing reads the input of the extraction besides, and the extracted key is named once and not generated
again. -/
def AggRegular (waiting : ℕ → Text → Prop) (l : AtomicComputationList) (t : Text) : Prop :=
  ∀ start, l.producers t = some start →
    (∀ x ∈ (l.objects start).projection.atts, waiting start x → x ∈ (l.objects start).input.atts) ∧
    ∀ n c, AggWalk l start n c → (l.objects c).role ≠ .agg → Straight waiting l n c ∧
      (l.objects start).input.setName ∉ names l c ∧ ∀ x ∈ generates (l.objects start), Passes x (l.objects c)

def AggLeaves (l : AtomicComputationList) (t : Text) (d : ℕ) (x : Text) : Prop :=
  ∃ start n c, l.producers t = some start ∧ AggWalk l start n c ∧ (l.objects c).role = .agg ∧
    d ∈ l.consumers (l.outputName c) ∧ x ∈ (l.objects c).output.atts

section UseInputKey

theorem mem_foldl_removeAtt {s : TupleSpec} :
    x ∈ (toRemove.foldl (fun t a => t.removeAtt a) s).atts ↔ x ∈ s.atts ∧ x ∉ toRemove := by
  induction toRemove generalizing s with
  | nil => simp
  | cons a toRemove ih =>
    rw [List.foldl_cons, ih]
    simp only [TupleSpec.removeAtt, List.mem_filter, List.mem_cons, not_or, ne_eq, decide_not, Bool.not_eq_true',
      decide_eq_false_iff_not, and_assoc]

theorem foldl_removeAtt_setName (s : TupleSpec) :
    (toRemove.foldl (fun t a => t.removeAtt a) s).setName = s.setName := by
  induction toRemove generalizing s with
  | nil => rfl
  | cons a toRemove ih => exact ih _

theorem foldl_removeAtt_sublist (s : TupleSpec) :
    (toRemove.foldl (fun t a => t.removeAtt a) s).atts.Sublist s.atts := by
  induction toRemove generalizing s with
  | nil => exact .refl _
  | cons a toRemove ih => exact (ih _).trans List.filter_sublist

theorem leftEdit_useInputKey (toRemove : List Text) (keyAlias inputKey : Text) :
    LeftEdit (useInputKey toRemove keyAlias inputKey) :=
  ⟨fun _ => foldl_removeAtt_setName _, fun _ => rfl, fun _ => foldl_removeAtt_setName _, fun _ => rfl⟩

theorem of_mem_useInputKey {s : TupleSpec} (hcount : s.atts.count keyAlias ≤ 1)
    (hy : y ∈ ((toRemove.foldl (fun t a => t.removeAtt a) s).replaceAtt keyAlias inputKey).atts) :
    ∃ x ∈ s.atts, x ∉ toRemove ∧ y = redirect keyAlias inputKey x := by
  obtain ⟨x, hx, rfl⟩ := exists_of_mem_replace (((foldl_removeAtt_sublist s).count_le keyAlias).trans hcount) hy
  obtain ⟨hx, hno⟩ := mem_foldl_removeAtt.mp hx
  exact ⟨x, hx, hno, rfl⟩

theorem mem_useInputKey {s : TupleSpec} (hx : x ∈ s.atts) (hno : x ∉ toRemove) : redirect keyAlias inputKey x ∈
    ((toRemove.foldl (fun t a => t.removeAtt a) s).replaceAtt keyAlias inputKey).atts :=
  redirect_mem_replace (mem_foldl_removeAtt.mpr ⟨hx, hno⟩)

theorem ownOutput_useInputKey {c : AtomicComputation} {g : List Text} (h : OwnOutput g c) (hp : Passes keyAlias c) :
    OwnOutput g (useInputKey toRemove keyAlias inputKey c) := by
  intro hr y hy
  obtain ⟨x, hx, hno, rfl⟩ := of_mem_useInputKey hp.output hy
  have hprojected : x ∈ c.projection.atts →
      redirect keyAlias inputKey x ∈ joined (useInputKey toRemove keyAlias inputKey c) :=
    fun hx => List.mem_append_left _ (mem_useInputKey hx hno)
  by_cases hxa : x = keyAlias
  · exact .inl (hprojected (hxa ▸ hp.projected (hxa ▸ hx)))
  · obtain hx | hx := h hr x hx
    · obtain hx | hx := List.mem_append.mp hx
      · exact .inl (hprojected hx)
      · rw [redirect_of_ne hxa]
        exact .inl (List.mem_append_right _ hx)
    · rw [redirect_of_ne hxa]
      exact .inr hx

end UseInputKey

section Walking

structure AggState (rank : Text → ℕ) (generated : ℕ → List Text) (waiting : ℕ → Text → Prop)
    (l₀ : AtomicComputationList) (start : ℕ) (keyAlias inputKey t : Text) (p cur : ℕ) (old : Text → Prop)
    (toRemove : List Text) (l : AtomicComputationList) : Prop where
  flow : Flow rank generated (pending waiting l p cur old) l
  front : Front rank l₀ l t p cur
  last : ∀ x, Found l₀ t x → old x
  alive : ∀ x, old x → x ∈ toRemove ∨ redirect keyAlias inputKey x ∈ (l.objects p).output.atts
  -- of what is read in front, the rest of the walk reads nothing
  ahead : ∀ n c, AggWalk l₀ start n c → (l₀.objects c).role ≠ .agg → c ≠ cur → c ∉ l.consumers (l.outputName p)

structure BeforeAgg (l₀ : AtomicComputationList) (start : ℕ) (keyAlias t : Text) (c : ℕ) : Prop where
  walk : AggWalk l₀ start t c
  producer : l₀.producers (l₀.outputName c) = some c
  through : Through t (l₀.objects c)
  input : ∀ x ∈ (l₀.objects c).input.atts, Found l₀ t x
  projection : ∀ x ∈ (l₀.objects c).projection.atts, Found l₀ t x
  passes : Passes keyAlias (l₀.objects c)

theorem BeforeAgg.found {l₀ : AtomicComputationList} (hb : BeforeAgg l₀ start keyAlias t cur)
    (hx : Found l₀ (l₀.outputName cur) x) : x ∈ (l₀.objects cur).output.atts := by
  obtain ⟨q, hq, hx⟩ := hx
  rw [hb.producer] at hq
  cases hq
  exact hx

theorem AggState.keep (h : AggState rank generated waiting l₀ start keyAlias inputKey t p cur old toRemove l)
    (hb : BeforeAgg l₀ start keyAlias t cur) (hno : ∀ x ∈ (l.objects cur).input.atts, x ∉ toRemove)
    (hn : l.consumers (l.outputName cur) = [next]) :
    AggState rank generated waiting l₀ start keyAlias inputKey (l₀.outputName cur) cur next
      (· ∈ (l.objects cur).output.atts) toRemove (l.modify cur (useInputKey toRemove keyAlias inputKey)) := by
  have hrenamed := h.front.renamed
  have hpass := hb.passes.renamed hrenamed
  have hedit := leftEdit_useInputKey toRemove keyAlias inputKey
  have hobj : (l.modify cur (useInputKey toRemove keyAlias inputKey)).objects cur =
      useInputKey toRemove keyAlias inputKey (l.objects cur) := Function.update_self _ _ _
  refine { flow := ?_, front := ?_, last := ?_, alive := ?_, ahead := ?_ }
  · refine h.flow.keep_left hedit h.front (h.front.through hb.through) ?_ ?_ ?_ hn
    · exact ownOutput_useInputKey (h.flow.own cur (h.front.produced h.flow.toLinked)) hpass
    · intro y hy
      obtain ⟨x, hx, rfl⟩ := exists_of_mem_replace hpass.input hy
      have hold := h.last x (hb.input x (hrenamed.inputAtts ▸ hx))
      exact .inl ((h.alive x hold).resolve_left (hno x hx))
    · intro y hy
      obtain ⟨x, hx, hxr, rfl⟩ := of_mem_useInputKey hpass.projection hy
      have hold := h.last x (hb.projection x (hrenamed.projectionAtts ▸ hx))
      exact .inl ((h.alive x hold).resolve_left hxr)
  · exact h.front.keep h.flow.toLinked (hedit.sameTables l cur) hn
  · intro x hx
    rw [hrenamed.output]
    exact hb.found hx
  · intro x hx
    rw [hobj]
    by_cases hxr : x ∈ toRemove
    · exact .inl hxr
    · exact .inr (mem_useInputKey hx hxr)
  · intro n c _ _ hc
    rw [(hedit.sameTables l cur).output, (hedit.sameTables l cur).consumers, hn, List.mem_singleton]
    exact hc

theorem AggState.drop (h : AggState rank generated waiting l₀ start keyAlias inputKey t p cur old toRemove l)
    (hb : BeforeAgg l₀ start keyAlias t cur) (hone : (l.objects cur).hasTwoInputs = false) (hu : Unlinked l l' cur)
    (hn : l.consumers (l.outputName cur) = [next]) (hnext : next ∉ l.consumers (l.outputName p)) :
    AggState rank generated waiting l₀ start keyAlias inputKey (l₀.outputName cur) p next
      (· ∈ (l.objects cur).output.atts) (toRemove ++ generates (l.objects cur)) l' := by
  have hrenamed := h.front.renamed
  have ht := h.front.through hb.through
  have hlinked := h.flow.toLinked
  have hcur := h.front.produced hlinked
  refine { flow := h.flow.drop h.front hone ht hu hn, front := h.front.drop hlinked hone ht hu hn hnext, last := ?_,
           alive := ?_, ahead := ?_ }
  · intro x hx
    rw [hrenamed.output]
    exact hb.found hx
  · intro x hx
    rw [(hu.renamed p).output]
    by_cases hp : x ∈ (l.objects cur).projection.atts
    · have hold := h.last x (hb.projection x (hrenamed.projectionAtts ▸ hp))
      exact (h.alive x hold).imp_left (List.mem_append_left _)
    · left
      apply List.mem_append_right
      simp [generates, TupleSpec.complement, hx, hp]
  · intro n c hw hr hc hm
    have hne : l.outputName p ≠ l.outputName cur := by
      intro he
      exact h.front.ne hlinked (hlinked.tables.eq_of_outputName h.front.producer hcur he)
    rw [hu.outputName, hu.consumers _ hne, if_pos ht.input.symm, hn] at hm
    obtain hm | hm := List.mem_append.mp hm
    · obtain ⟨hm, hcc⟩ := List.mem_filter.mp hm
      exact h.ahead n c hw hr (by simpa using hcc) hm
    · exact hc (List.mem_singleton.mp hm)

theorem aggAhead_cases {fuel : ℕ} (h : aggAhead l fuel [c] = .ok true) : (l.objects c).role = .agg ∨
    ∃ d fuel', l.consumers (l.outputName c) = [d] ∧ aggAhead l fuel' [d] = .ok true := by
  cases fuel with
  | zero => cases h
  | succ fuel =>
    rw [aggAhead] at h
    split_ifs at h with hr
    · exact .inl hr
    · right
      cases hcons : l.consumers (l.outputName c) with
      | nil =>
        rw [hcons] at h
        cases fuel <;> simp [aggAhead] at h
      | cons d ds =>
        rw [hcons] at h
        cases ds with
        | nil => exact ⟨d, fuel, rfl, h⟩
        | cons e ds => cases fuel <;> simp [aggAhead] at h

theorem hasTwoInputs_of_agg {c : AtomicComputation} (h : c.role = .agg) : c.hasTwoInputs = false := by
  unfold AtomicComputation.role at h
  unfold AtomicComputation.hasTwoInputs AtomicComputation.getRightInput
  cases hk : c.kind <;> simp [hk] at h ⊢

theorem AggState.removeAgg (h : AggState rank generated waiting l₀ start keyAlias inputKey t p cur old toRemove l)
    (hcur : AggWalk l₀ start t cur) (hr : (l₀.objects cur).role = .agg)
    (he : removeAndRelink (l.outputName cur) l = .ok l') :
    Flow rank generated (fun d _ x => waiting d x ∨ ∃ n c, AggWalk l₀ start n c ∧ (l₀.objects c).role = .agg ∧
      d ∈ l₀.consumers (l₀.outputName c) ∧ x ∈ (l₀.objects c).output.atts) l' := by
  have hlinked := h.flow.toLinked
  have hp := h.front.produced hlinked
  have hone : (l.objects cur).hasTwoInputs = false := hasTwoInputs_of_agg (h.front.renamed.role.trans hr)
  apply h.flow.removed hp hone (hlinked.removeAndRelink hp hone he)
  · rintro c hc - n - x (hx | ⟨rfl, -⟩)
    · exact .inl hx
    · exact absurd rfl hc
  · intro c _ hc hm x hx
    refine .inr ⟨t, cur, hcur, hr, ?_, h.front.renamed.output ▸ hx⟩
    rw [← h.front.consumers_output]
    exact (hlinked.mem_consumers hp).mpr ⟨hc, hm⟩

theorem AggState.aggKeyLoop {fuel fuel' : ℕ}
    (hbefore : ∀ n c, AggWalk l₀ start n c → (l₀.objects c).role ≠ .agg → BeforeAgg l₀ start keyAlias n c)
    (h : AggState rank generated waiting l₀ start keyAlias inputKey t p cur old toRemove l)
    (hcur : AggWalk l₀ start t cur) (hahead : aggAhead l₀ fuel' [cur] = .ok true)
    (he : aggKeyLoop keyAlias inputKey fuel [cur] toRemove l = .ok l') :
    Flow rank generated (fun d _ x => waiting d x ∨ ∃ n c, AggWalk l₀ start n c ∧ (l₀.objects c).role = .agg ∧
      d ∈ l₀.consumers (l₀.outputName c) ∧ x ∈ (l₀.objects c).output.atts) l' := by
  induction fuel generalizing t p cur old toRemove l fuel' with
  | zero => cases he
  | succ fuel ih =>
    have hlinked := h.flow.toLinked
    have hp := h.front.produced hlinked
    rw [PlanTransformer.aggKeyLoop] at he
    dsimp only at he
    split_ifs at he with hr hdep
    · exact h.removeAgg hcur (h.front.renamed.role ▸ hr) he
    all_goals
      rw [h.front.renamed.role] at hr
      obtain hagg | ⟨next, fuel', hn₀, hnext⟩ := aggAhead_cases hahead
      · exact absurd hagg hr
      have hn : l.consumers (l.objects cur).getOutputName = [next] := h.front.consumers_output.trans hn₀
      have hb := hbefore t cur hcur hr
      have hwalk : AggWalk l₀ start (l₀.outputName cur) next := hcur.next hn₀ hr
      rw [hn] at he
    · -- it reads what is taken away
      obtain ⟨l₁, hremove, he⟩ := bind_eq_ok.mp he
      obtain ⟨htwo, -⟩ := removeAndRelink_eq_ok (hlinked.tables.produced hp) (hlinked.input_ne hp) hremove
      have hone : (l.objects cur).hasTwoInputs = false := by
        apply htwo.resolve_right
        intro hnone
        cases hnone.symm.trans hn
      have hread := (hlinked.mem_consumers hp).mp (hn ▸ List.mem_singleton_self next)
      have hne := hlinked.ne hp hread.1 hread.2
      apply ih (h.drop hb hone (hlinked.removeAndRelink hp hone hremove) hn _) hwalk hnext he
      by_cases hra : (l₀.objects next).role = .agg
      · -- an aggregation has one input
        intro hm
        obtain ⟨-, hrp⟩ := (hlinked.mem_consumers h.front.producer).mp hm
        rw [← h.front.objects_next hlinked hn] at hra
        have hnames := names_of_one (hasTwoInputs_of_agg hra)
        have hrc := hread.2
        rw [hnames, List.mem_singleton] at hrp hrc
        exact h.front.ne hlinked (hlinked.tables.eq_of_outputName h.front.producer hp (hrp.trans hrc.symm))
      · exact h.ahead _ _ hwalk hra hne.symm
    · apply ih (h.keep hb _ hn) hwalk hnext he
      intro x hx hxr
      exact hdep (List.any_eq_true.mpr ⟨x, hx, by simpa using hxr⟩)

end Walking

section AggKeyFlow

variable {startInput : ℕ}

theorem getRightInput_of_isApplyLambda {c : AtomicComputation} (h : c.isApplyLambda = true) : c.getRightInput = none := by
  unfold AtomicComputation.isApplyLambda at h
  unfold AtomicComputation.getRightInput
  cases hk : c.kind <;> simp [hk] at h ⊢

theorem AggRegular.beforeAgg (hreg : AggRegular waiting l t) (h : Flow rank generated (fun c _ x => waiting c x) l)
    (hstart : l.producers t = some start) (ha : keyAlias ∈ generates (l.objects start)) {n : Text}
    (hw : AggWalk l start n c) (hr : (l.objects c).role ≠ .agg) : BeforeAgg l start keyAlias n c := by
  obtain ⟨hstraight, -, hpasses⟩ := (hreg start hstart).2 n c hw hr
  have hc := hw.produced h.toLinked ⟨t, hstart⟩
  refine ⟨hw, h.tables.produced hc, hstraight.toThrough, ?_, ?_, hpasses keyAlias ha⟩
  · intro x hx
    exact hstraight.found_input h hc hx
  · intro x hx
    exact hstraight.found_projection h hc hx

structure AggStart (l : AtomicComputationList) (t : Text) (start startInput : ℕ) (keyAlias inputKey recordColumn : Text)
    (cur : ℕ) : Prop where
  producer : l.producers t = some start
  input : l.producers (l.objects start).input.setName = some startInput
  key : (l.objects start).isApplyLambda = true
  column : generates (l.objects start) = [keyAlias]
  inputKey : (l.objects startInput).output.atts = [inputKey]
  record : (l.objects start).input.atts = [recordColumn]
  consumers : l.consumers (l.outputName start) = [cur]

theorem aggKey_eq_ok {fuel : ℕ} (hcan : canAggKey fuel t l = .ok true) (he : aggKey fuel t l = .ok l') :
    ∃ start startInput keyAlias inputKey recordColumn cur l₁,
      AggStart l t start startInput keyAlias inputKey recordColumn cur ∧ aggAhead l fuel [cur] = .ok true ∧
      removeAndRelink (l.outputName start) l = .ok l₁ ∧
      aggKeyLoop keyAlias inputKey fuel [cur] [recordColumn] l₁ = .ok l' := by
  unfold canAggKey at hcan
  unfold PlanTransformer.aggKey at he
  split at hcan
  · cases hcan
  next start hstart =>
    split_ifs at hcan with hkey
    · split at hcan
      next c hc =>
        rw [hstart] at he
        dsimp only at he
        split at he
        · cases he
        next startInput hinput =>
          split at he
          next keyAlias inputKey recordColumn cur halias hkeyOut hrecord hcons =>
            obtain ⟨l₁, hremove, he⟩ := bind_eq_ok.mp he
            cases hc.symm.trans hcons
            exact ⟨start, startInput, keyAlias, inputKey, recordColumn, c, l₁,
              ⟨hstart, hinput, hkey.1, halias, hkeyOut, hrecord, hc⟩, hcan, hremove, he⟩
          · cases he
      · cases hcan
    · simp at hcan

variable {recordColumn : Text}

theorem AggStart.front (hs : AggStart l t start startInput keyAlias inputKey recordColumn cur) (h : Linked rank l) :
    Front rank l l (l.objects start).input.setName startInput start ∧
      Through (l.outputName startInput) (l.objects start) := by
  have hp : Produced l start := ⟨t, hs.producer⟩
  have hone : (l.objects start).hasTwoInputs = false := by
    rw [AtomicComputation.hasTwoInputs, getRightInput_of_isApplyLambda hs.key]
    rfl
  have hname : l.outputName startInput = (l.objects start).input.setName := h.tables.output _ _ hs.input
  have hthrough : Through (l.outputName startInput) (l.objects start) :=
    ⟨hname.symm, ((h.sameSets start hp).setName_eq hone).trans hname.symm⟩
  refine ⟨⟨⟨_, hs.input⟩, ?_, fun _ => rfl, fun _ _ _ => rfl, .refl _, fun _ _ => rfl, fun _ => hthrough⟩, hthrough⟩
  rw [h.count_consumers ⟨_, hs.input⟩ hp, names_of_one hone, hname, List.count_singleton_self]

theorem Flow.aggKey {fuel : ℕ} (h : Flow rank generated (fun c _ x => waiting c x) l) (hreg : AggRegular waiting l t)
    (hcan : canAggKey fuel t l = .ok true) (he : aggKey fuel t l = .ok l') :
    Flow rank generated (fun d _ x => waiting d x ∨ AggLeaves l t d x) l' := by
  obtain ⟨start, startInput, keyAlias, inputKey, recordColumn, cur, l₁, hs, hahead, hremove, he⟩ :=
    aggKey_eq_ok hcan he
  have hlinked := h.toLinked
  have hp : Produced l start := ⟨t, hs.producer⟩
  have hone : (l.objects start).hasTwoInputs = false := by
    rw [AtomicComputation.hasTwoInputs, getRightInput_of_isApplyLambda hs.key]
    rfl
  have hname : l.outputName startInput = (l.objects start).input.setName := h.tables.output _ _ hs.input
  obtain ⟨hf, hthrough⟩ := hs.front hlinked
  have hu := hlinked.removeAndRelink hp hone hremove
  have hread := (hlinked.mem_consumers hp).mp (hs.consumers ▸ List.mem_singleton_self cur)
  have hwalk : AggWalk l start (l.outputName start) cur := .first hs.consumers
  have hbefore : ∀ n c, AggWalk l start n c → (l.objects c).role ≠ .agg → BeforeAgg l start keyAlias n c := by
    intro n c hw hr
    apply hreg.beforeAgg h hs.producer _ hw hr
    rw [hs.column]
    exact List.mem_singleton_self keyAlias
  have hin : ∀ c, c ∈ l.consumers (l.outputName startInput) → (l.objects start).input.setName ∈ names l c := by
    intro c hc
    rw [← hname]
    exact ((hlinked.mem_consumers ⟨_, hs.input⟩).mp hc).2
  have hnext : cur ∉ l.consumers (l.outputName startInput) := by
    intro hm
    by_cases hr : (l.objects cur).role = .agg
    · have hnames := names_of_one (hasTwoInputs_of_agg hr)
      have hrp := hin cur hm
      have hrc := hread.2
      rw [hnames, List.mem_singleton] at hrp hrc
      exact hlinked.input_ne hp (hrp.trans hrc.symm)
    · exact ((hreg start hs.producer).2 _ _ hwalk hr).2.1 (hin cur hm)
  have hflow : Flow rank generated (pending waiting l startInput start (fun _ => False)) l :=
    h.mono fun c _ n _ x hx => .inr (.inl hx)
  have hstate : AggState rank generated waiting l start keyAlias inputKey (l.outputName start) startInput cur
      (· ∈ (l.objects start).output.atts) [recordColumn] l₁ := by
    refine { flow := hflow.drop hf hone hthrough hu hs.consumers,
             front := hf.drop hlinked hone hthrough hu hs.consumers hnext, last := ?_, alive := ?_, ahead := ?_ }
    · rintro x ⟨q, hq, hx⟩
      rw [h.tables.produced hp] at hq
      cases hq
      exact hx
    · intro x hx
      rw [(hu.renamed startInput).output, hs.inputKey]
      by_cases hpr : x ∈ (l.objects start).projection.atts
      · obtain ⟨q, hq, hxq⟩ | hw := h.supplied start hp (l.objects start).projection (by simp [specs]) x hpr
        · rw [hthrough.projection, hname, hs.input] at hq
          cases hq
          rw [hs.inputKey, List.mem_singleton] at hxq
          right
          unfold redirect
          split_ifs
          · exact List.mem_singleton_self inputKey
          · rw [hxq]
            exact List.mem_singleton_self inputKey
        · left
          rw [← hs.record]
          exact (hreg start hs.producer).1 x hpr hw
      · have hm : x ∈ generates (l.objects start) := by
          simp [generates, TupleSpec.complement, hx, hpr]
        rw [hs.column, List.mem_singleton] at hm
        right
        rw [hm, redirect, if_pos rfl]
        exact List.mem_singleton_self inputKey
    · intro n c hw hr hc hm
      have hne : l.outputName startInput ≠ l.outputName start := by
        rw [hname]
        exact hlinked.input_ne hp
      rw [hu.outputName, hu.consumers _ hne, if_pos hname, hs.consumers] at hm
      obtain hm | hm := List.mem_append.mp hm
      · exact ((hreg start hs.producer).2 n c hw hr).2.1 (hin c (List.mem_filter.mp hm).1)
      · exact hc (List.mem_singleton.mp hm)
  apply (hstate.aggKeyLoop hbefore hwalk hahead he).mono
  rintro d - - - x (hx | ⟨n, c, hw, hr, hd, hx⟩)
  · exact .inr (.inl hx)
  · exact .inr (.inr ⟨start, n, c, hs.producer, hw, hr, hd, hx⟩)

end AggKeyFlow

end PlinyCompute.PlanTransformer
