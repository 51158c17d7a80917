import PlinyCompute.KeyAggregations

namespace PlinyCompute.PlanTransformer

open LogicalPlan Transition ComputationTables

variable {l l' l'' : AtomicComputationList} {t k n : Text} {c d : ℕ}

structure ScansCurrent (l : AtomicComputationList) : Prop where
  once : l.scans.Nodup
  current : ∀ c, c ∈ l.scans ↔ Produced l c ∧ (l.objects c).role = .scan
  -- what pipes are built from, in whatever order the computations are listed
  sources : ∀ cs : List ℕ, cs.Nodup → (∀ c, c ∈ cs ↔ Produced l c) →
    l.getAllScanSets.Perm (LogicalPlan.getAllScanSets (cs.map l.objects))

theorem scansCurrent_of_exact (hn : l.scans.Nodup)
    (hm : ∀ c, c ∈ l.scans ↔ Produced l c ∧ (l.objects c).role = .scan) : ScansCurrent l := by
  refine ⟨hn, hm, fun cs hcs hall => ?_⟩
  unfold LogicalPlan.getAllScanSets
  rw [List.filter_map]
  apply List.Perm.map
  apply (List.perm_ext_iff_of_nodup hn (hcs.filter _)).mpr
  intro c
  rw [hm, List.mem_filter, hall]
  simp

structure Plain (l : AtomicComputationList) (c : ℕ) : Prop where
  role : (l.objects c).role ≠ .scan
  name : l.outputName c ≠ noInput
  own : ∀ d, l.producers (l.outputName c) = some d → d = c

structure Ready (l : AtomicComputationList) : Prop where
  output : ∀ t c, l.producers t = some c → l.outputName c = t
  reserved : l.producers noInput = none
  allocated : ∀ c, Produced l c → c < l.allocated
  listed : ∀ t, t ≠ noInput → ∀ c ∈ l.consumers t, Plain l c
  scans : ScansCurrent l

theorem Ready.ne_noInput (h : Ready l) (hc : l.producers t = some c) : t ≠ noInput := by
  rintro rfl
  cases h.reserved.symm.trans hc

theorem Addable.ready {plan : List AtomicComputation} (h : Addable plan) : Ready (build plan) := by
  have ht := h.tables
  have ha := added_build plan
  obtain ⟨hn, hm⟩ := scans_build plan
  refine ⟨ht.output, ht.reserved, ht.allocated, ?_, scansCurrent_of_exact hn fun c => ?_⟩
  · intro t hne c hc
    obtain ⟨hp, hcount⟩ := ht.listed t c trivial hc
    refine ⟨fun hs => hne ?_, ht.ne_noInput (ht.produced hp), fun d hd => ?_⟩
    · have hpos := List.count_pos_iff.mpr hc
      rw [hcount, ht.scans c hp hs] at hpos
      exact List.mem_singleton.mp (List.count_pos_iff.mp hpos)
    · exact Option.some.inj (hd.symm.trans (ht.produced hp))
  · rw [hm]
    constructor
    · rintro ⟨x, hx, hs⟩
      have hobj := ha.objects c x hx
      obtain ⟨d, hd⟩ := ha.produced x.getOutputName (List.mem_map_of_mem (List.mem_of_getElem? hx))
      obtain ⟨y, hy, hyx⟩ := ha.producers _ d hd
      have hcd : c = d := by
        apply (List.getElem?_inj (by simpa using (List.getElem?_eq_some_iff.mp hx).1) h.outputs).mp
        rw [List.getElem?_map, List.getElem?_map, hx, hy, Option.map_some, Option.map_some, hyx]
      exact ⟨⟨_, hcd ▸ hd⟩, hobj ▸ hs⟩
    · rintro ⟨⟨t, hp⟩, hs⟩
      obtain ⟨x, hx, -⟩ := ha.producers t c hp
      exact ⟨x, hx, ha.objects c x hx ▸ hs⟩

structure Thinned (l l' : AtomicComputationList) : Prop where
  role : ∀ c, (l'.objects c).role = (l.objects c).role
  output : ∀ c, l'.outputName c = l.outputName c
  producers : ∀ t, l'.producers t = l.producers t ∨
    l'.producers t = none ∧ ∀ c, l.producers t = some c → (l.objects c).role ≠ .scan
  consumers : ∀ t, t ≠ noInput → ∀ c ∈ l'.consumers t, ∃ t', t' ≠ noInput ∧ c ∈ l.consumers t'
  scans : l'.scans = l.scans
  allocated : l'.allocated = l.allocated

theorem Thinned.refl (l : AtomicComputationList) : Thinned l l :=
  ⟨fun _ => rfl, fun _ => rfl, fun _ => .inl rfl, fun t ht _ hc => ⟨t, ht, hc⟩, rfl, rfl⟩

theorem Thinned.trans (h : Thinned l l') (h' : Thinned l' l'') : Thinned l l'' where
  role c := (h'.role c).trans (h.role c)
  output c := (h'.output c).trans (h.output c)
  producers t := by
    obtain he' | ⟨hnone, hrole⟩ := h'.producers t
    · rw [he']
      exact h.producers t
    · obtain he | ⟨-, hrole'⟩ := h.producers t
      · refine .inr ⟨hnone, fun c hc => ?_⟩
        rw [← h.role]
        exact hrole c (he ▸ hc)
      · exact .inr ⟨hnone, hrole'⟩
  consumers t ht c hc := by
    obtain ⟨t', ht', hc'⟩ := h'.consumers t ht c hc
    exact h.consumers t' ht' c hc'
  scans := h'.scans.trans h.scans
  allocated := h'.allocated.trans h.allocated

theorem Thinned.of_produced (h : Thinned l l') (hp : l'.producers t = some c) : l.producers t = some c := by
  obtain he | ⟨hnone, -⟩ := h.producers t
  · exact he ▸ hp
  · cases hnone.symm.trans hp

theorem Thinned.plain (h : Thinned l l') (hc : Plain l c) : Plain l' c where
  role := by
    rw [h.role]
    exact hc.role
  name := by
    rw [h.output]
    exact hc.name
  own d hd := by
    rw [h.output] at hd
    exact hc.own d (h.of_produced hd)

theorem Thinned.ready (h : Thinned l l') (hr : Ready l) : Ready l' where
  output t c ht := (h.output c).trans (hr.output t c (h.of_produced ht))
  reserved := by
    obtain he | ⟨hnone, -⟩ := h.producers noInput
    · exact he.trans hr.reserved
    · exact hnone
  allocated := by
    rintro c ⟨t, ht⟩
    rw [h.allocated]
    exact hr.allocated c ⟨t, h.of_produced ht⟩
  listed t ht c hc := by
    obtain ⟨t', ht', hc'⟩ := h.consumers t ht c hc
    exact h.plain (hr.listed t' ht' c hc')
  scans := by
    apply scansCurrent_of_exact
    · rw [h.scans]
      exact hr.scans.once
    · intro c
      rw [h.scans, hr.scans.current, h.role]
      apply and_congr_left
      intro hs
      constructor
      · rintro ⟨t, ht⟩
        refine ⟨t, ?_⟩
        obtain he | ⟨-, hrole⟩ := h.producers t
        · exact he.trans ht
        · exact absurd hs (hrole c ht)
      · rintro ⟨t, ht⟩
        exact ⟨t, h.of_produced ht⟩

section Operations

theorem thinned_modify {f : AtomicComputation → AtomicComputation} (l : AtomicComputationList) (c : ℕ)
    (hr : (f (l.objects c)).role = (l.objects c).role)
    (ho : (f (l.objects c)).getOutputName = (l.objects c).getOutputName) : Thinned l (l.modify c f) := by
  refine { Thinned.refl l with role := fun d => ?_, output := fun d => ?_ }
  all_goals
    by_cases hd : d = c
    · subst hd
      simp [AtomicComputationList.modify, AtomicComputationList.outputName, hr, ho]
    · simp [AtomicComputationList.modify, AtomicComputationList.outputName, hd]

theorem thinned_removeAndRelink (hk : k ≠ noInput) (hp : ∀ c, l.producers k = some c → (l.objects c).role ≠ .scan)
    (he : removeAndRelink k l = .ok l') : Thinned l l' := by
  unfold ComputationTables.removeAndRelink at he
  split at he
  · cases he
  · next currComp hcurr =>
    dsimp only at he
    split_ifs at he
    cases he
    refine ⟨?_, ?_, ?_, ?_, rfl, rfl⟩
    · intro c
      exact foldl_relinkConsumer_kept AtomicComputation.role (fun y => (renamed_relinked _ y).role) _ _ c
    · intro c
      have ho := fun y => (renamed_relinked (l.objects currComp) y).output
      exact congrArg TupleSpec.setName (foldl_relinkConsumer_kept AtomicComputation.output ho _ _ c)
    · intro t
      by_cases ht : t = k
      · subst ht
        exact .inr ⟨Function.update_self _ _ _, hp⟩
      · exact .inl (Function.update_of_ne ht _ _)
    · intro t ht c hc
      by_cases hin : t = (l.objects currComp).input.setName
      · subst hin
        simp only [Function.update_self, List.mem_append, List.mem_filter] at hc
        obtain ⟨hc, -⟩ | hc := hc
        · exact ⟨_, ht, hc⟩
        · exact ⟨k, hk, hc⟩
      · exact ⟨t, ht, by simpa [hin] using hc⟩

theorem Plain.removeAndRelink (hc : Plain l c) (he : removeAndRelink (l.outputName c) l = .ok l') : Thinned l l' := by
  apply thinned_removeAndRelink hc.name _ he
  intro d hd
  rw [hc.own d hd]
  exact hc.role

theorem detach_scans (l : AtomicComputationList) (c : ℕ) : (detach c l).scans = l.scans := by
  unfold detach
  cases (l.objects c).getRightInput <;> dsimp only <;> split_ifs <;> rfl

theorem replaceComputation_scans {comp : ℕ} (he : replaceComputation k comp l = .ok l') : l'.scans = l.scans := by
  unfold replaceComputation at he
  split at he
  · cases he
  · obtain ⟨objects, -, he⟩ := bind_eq_ok.mp he
    cases he
    exact detach_scans l _

theorem keySideLoop_thinned {a b : Text} {fuel : ℕ} (he : keySideLoop a b fuel c l = .ok l') : Thinned l l' := by
  induction fuel generalizing c l with
  | zero => cases he
  | succ fuel ih =>
    rw [keySideLoop] at he
    split at he
    · cases he
    · dsimp only at he
      split at he
      · split at he
        · cases he
          exact thinned_modify l c rfl rfl
        · exact (thinned_modify l c rfl rfl).trans (ih he)
      · cases he

theorem Ready.joinKeySide {fuel : ℕ} (h : Ready l) (hcan : canJoinKeySide t l = .ok true)
    (he : joinKeySide fuel t l = .ok l') : Thinned l l' := by
  obtain ⟨inputComp, keyComp, a, b, l₂, currComp, hs, he₂, -, he⟩ := joinKeySide_eq_ok h.output hcan he
  refine Thinned.trans ?_ (keySideLoop_thinned he)
  have hmod := thinned_modify (f := keyedScan a b) l inputComp rfl rfl
  have ht : t ≠ noInput := h.ne_noInput hs.producer
  have hplain : Plain l keyComp := h.listed t ht keyComp (by simp [hs.consumers])
  have hname : l.outputName inputComp = t := h.output t inputComp hs.producer
  have hscans := replaceComputation_scans he₂
  obtain ⟨e, hk⟩ : ∃ e, ((l.modify inputComp (keyedScan a b)).removeProducer t).producers (l.outputName keyComp) =
      some e := by
    cases hk : ((l.modify inputComp (keyedScan a b)).removeProducer t).producers (l.outputName keyComp) with
    | none =>
      unfold replaceComputation at he₂
      rw [hk] at he₂
      cases he₂
    | some e => exact ⟨e, rfl⟩
  have hr := replaceComputation_spec hk he₂
  have hnew : ((l.modify inputComp (keyedScan a b)).removeProducer t).outputName inputComp = t :=
    (hmod.output _).trans hname
  rw [hnew] at hr
  refine ⟨?_, ?_, ?_, ?_, hscans, hr.allocated⟩
  · intro c
    exact (hr.renamed c).role.trans (hmod.role c)
  · intro c
    exact (congrArg TupleSpec.setName (hr.renamed c).output).trans (hmod.output c)
  · intro t'
    rw [hr.producers]
    split_ifs with htn htk
    · exact .inl (htn ▸ hs.producer.symm)
    · refine .inr ⟨rfl, fun c hc => ?_⟩
      rw [hplain.own c (htk ▸ hc)]
      exact hplain.role
    · rw [removeProducer_producers, if_neg htn]
      exact .inl rfl
  · intro t' ht' c hc
    rw [hr.consumers] at hc
    split_ifs at hc with htn htk
    · exact ⟨_, hplain.name, (mem_detach hc).1⟩
    · cases hc
    · exact ⟨t', ht', (mem_detach hc).1⟩

section JoinKey

variable {keys : Keys} {w w' : JoinKeyWalk} {joinCompName : Text}

theorem Plain.joinKeyVisit (hc : Plain l c) (he : joinKeyVisit keys c w l = .ok (w', l')) : Thinned l l' := by
  unfold PlanTransformer.joinKeyVisit at he
  dsimp only at he
  split_ifs at he
  · obtain ⟨w₁, -, he⟩ := bind_eq_ok.mp he
    obtain ⟨l₁, hl₁, he⟩ := bind_eq_ok.mp he
    cases he
    exact hc.removeAndRelink hl₁
  · cases he
    exact thinned_modify l c rfl (keepKeys_setName keys w.keyAliases _)

theorem Ready.joinKeyLoop {fuel : ℕ} (h : Ready l) (hc : Plain l c)
    (he : joinKeyLoop keys joinCompName fuel c w l = .ok (w', l')) : Thinned l l' := by
  induction fuel generalizing c w l with
  | zero => cases he
  | succ fuel ih =>
    rw [PlanTransformer.joinKeyLoop] at he
    obtain ⟨⟨w₁, l₁⟩, hvisit, he⟩ := bind_eq_ok.mp he
    have hk := hc.joinKeyVisit hvisit
    have h₁ := hk.ready h
    dsimp only at he
    split at he
    · next next hcons =>
      split_ifs at he
      · have hnext : Plain l₁ next := h₁.listed _ (hk.plain hc).name next (by simp [hcons])
        exact hk.trans (ih h₁ hnext he)
      · cases he
        exact hk
    · cases he

theorem Ready.joinKey {fuel : ℕ} (h : Ready l) (he : joinKey fuel t l = .ok l') : Thinned l l' := by
  unfold PlanTransformer.joinKey at he
  split at he
  · cases he
  · next j hj =>
    dsimp only at he
    obtain ⟨keys, -, he⟩ := bind_eq_ok.mp he
    have hk : Thinned l (l.modify j (joinOnKeys keys)) := thinned_modify l j (role_joinOnKeys keys _) rfl
    have h₁ := hk.ready h
    have hname : (l.modify j (joinOnKeys keys)).outputName j ≠ noInput := by
      rw [hk.output, h.output t j hj]
      exact h.ne_noInput hj
    split at he
    · next cur hcons =>
      obtain ⟨⟨w, l₁⟩, hloop, he⟩ := bind_eq_ok.mp he
      have hk₁ := hk.trans (h₁.joinKeyLoop (h₁.listed _ hname cur (by simp [hcons])) hloop)
      dsimp only at he
      split at he
      · cases he
        exact hk₁
      · cases he
        exact hk₁.trans (thinned_modify l₁ _ rfl rfl)
    · cases he

end JoinKey

section AggKey

variable {keyAlias inputKey : Text}

theorem Ready.aggKeyLoop {fuel : ℕ} {currentComps : List ℕ} {toRemove : List Text} (h : Ready l)
    (hc : ∀ c ∈ currentComps, Plain l c)
    (he : aggKeyLoop keyAlias inputKey fuel currentComps toRemove l = .ok l') : Thinned l l' := by
  induction fuel generalizing currentComps toRemove l with
  | zero =>
    cases currentComps with
    | nil =>
      cases he
      exact .refl _
    | cons c rest => cases he
  | succ fuel ih =>
    cases currentComps with
    | nil =>
      cases he
      exact .refl _
    | cons c rest =>
      have hcur : Plain l c := hc c (by simp)
      have hnext : ∀ d ∈ (l.consumers (l.objects c).getOutputName).reverse ++ rest, Plain l d := by
        intro d hd
        obtain hd | hd := List.mem_append.mp hd
        · exact h.listed _ hcur.name d (List.mem_reverse.mp hd)
        · exact hc d (List.mem_cons_of_mem _ hd)
      rw [PlanTransformer.aggKeyLoop] at he
      dsimp only at he
      split_ifs at he
      · exact hcur.removeAndRelink he
      · obtain ⟨l₁, hl₁, he⟩ := bind_eq_ok.mp he
        have hk := hcur.removeAndRelink hl₁
        exact hk.trans (ih (hk.ready h) (fun d hd => hk.plain (hnext d hd)) he)
      · have hk := thinned_modify (f := useInputKey toRemove keyAlias inputKey) l c rfl
          (foldl_removeAtt_setName _)
        exact hk.trans (ih (hk.ready h) (fun d hd => hk.plain (hnext d hd)) he)

theorem Ready.aggKey {fuel fuel' : ℕ} (h : Ready l) (hcan : canAggKey fuel' t l = .ok true)
    (he : aggKey fuel t l = .ok l') : Thinned l l' := by
  unfold canAggKey at hcan
  unfold PlanTransformer.aggKey at he
  split at hcan
  · cases hcan
  · next startComp hstart =>
    rw [hstart] at he
    dsimp only at he
    split_ifs at hcan with hkey
    · split at he
      · cases he
      · split at he
        · next hcons =>
          obtain ⟨l₁, hl₁, he⟩ := bind_eq_ok.mp he
          have hname : l.outputName startComp = t := h.output t startComp hstart
          have hne : l.outputName startComp ≠ noInput := hname ▸ h.ne_noInput hstart
          have hk : Thinned l l₁ := by
            apply thinned_removeAndRelink hne _ hl₁
            intro c hc
            rw [hname, hstart] at hc
            cases hc
            exact role_ne_scan_of_isApplyLambda hkey.1
          apply hk.trans
          apply (hk.ready h).aggKeyLoop _ he
          intro c hc
          rw [List.mem_singleton] at hc
          subst hc
          exact hk.plain (h.listed _ hne c (by
            change c ∈ l.consumers (l.objects startComp).getOutputName
            simp [hcons]))
        · cases he
    · simp at hcan

end AggKey

section DropDependents

theorem Ready.dependents {fuel : ℕ} {visit removed result : List Text} (h : Ready l)
    (hvisit : ∀ name ∈ visit, ∀ c, l.producers name = some c → (l.objects c).role ≠ .scan)
    (hremoved : ∀ name ∈ removed, ∀ c, l.producers name = some c → (l.objects c).role ≠ .scan)
    (he : dependents l fuel visit removed = .ok result) :
    ∀ name ∈ result, ∀ c, l.producers name = some c → (l.objects c).role ≠ .scan := by
  induction fuel generalizing visit removed with
  | zero =>
    cases visit with
    | nil =>
      cases he
      exact hremoved
    | cons name rest => cases he
  | succ fuel ih =>
    cases visit with
    | nil =>
      cases he
      exact hremoved
    | cons name rest =>
      rw [PlanTransformer.dependents] at he
      split at he
      · cases he
      · next cur hp =>
        dsimp only at he
        rw [h.output name cur hp] at he
        apply ih _ _ he
        · intro name' hm
          obtain hm | hm := List.mem_append.mp hm
          · obtain ⟨e, hme, rfl⟩ := List.mem_map.mp (List.mem_reverse.mp hm)
            have hplain := h.listed name (h.ne_noInput hp) e hme
            intro c hc
            rw [hplain.own c hc]
            exact hplain.role
          · exact hvisit name' (List.mem_cons_of_mem _ hm)
        · intro name' hm
          obtain hm | hm := List.mem_append.mp hm
          · exact hremoved name' hm
          · rw [List.mem_singleton.mp hm]
            exact hvisit name (by simp)

theorem Ready.dropDependents {fuel : ℕ} (h : Ready l)
    (hs : ∀ c, l.producers t = some c → (l.objects c).role ≠ .scan) (he : dropDependents fuel t l = .ok l') :
    Thinned l l' := by
  unfold PlanTransformer.dropDependents at he
  obtain ⟨result, hresult, he⟩ := bind_eq_ok.mp he
  rw [foldl_removeTupleSets] at he
  cases he
  have hres := h.dependents (by simpa using hs) (by simp) hresult
  refine { Thinned.refl l with producers := fun t' => ?_, consumers := fun t' ht' c hc => ?_ }
  · dsimp only
    split_ifs with hm
    · exact .inr ⟨rfl, hres t' hm⟩
    · exact .inl rfl
  · dsimp only at hc
    split_ifs at hc
    · cases hc
    · exact ⟨t', ht', hc⟩

theorem mem_dependents {fuel : ℕ} {visit removed result : List Text}
    (hout : ∀ t c, l.producers t = some c → l.outputName c = t)
    (he : PlanTransformer.dependents l fuel visit removed = .ok result) (ht : t ∈ removed ++ visit) : t ∈ result := by
  induction fuel generalizing visit removed with
  | zero =>
    cases visit with
    | nil =>
      cases he
      simpa using ht
    | cons name rest => cases he
  | succ fuel ih =>
    cases visit with
    | nil =>
      cases he
      simpa using ht
    | cons name rest =>
      rw [PlanTransformer.dependents] at he
      split at he
      · cases he
      · next cur hp =>
        dsimp only at he
        rw [hout name cur hp] at he
        apply ih he
        simp only [List.mem_append, List.mem_cons, List.not_mem_nil, or_false] at ht ⊢
        tauto

theorem Ready.not_current_of_dropDependents {fuel : ℕ} (h : Ready l) (hp : l.producers t = some c)
    (hs : (l.objects c).role = .scan) (he : PlanTransformer.dropDependents fuel t l = .ok l') :
    ¬ ScansCurrent l' := by
  intro hcurrent
  unfold PlanTransformer.dropDependents at he
  obtain ⟨result, hresult, he⟩ := bind_eq_ok.mp he
  have hin : t ∈ result := mem_dependents h.output hresult (by simp)
  rw [foldl_removeTupleSets] at he
  cases he
  obtain ⟨⟨t', ht'⟩, -⟩ := (hcurrent.current c).mp ((h.scans.current c).mpr ⟨⟨t, hp⟩, hs⟩)
  dsimp only at ht'
  split_ifs at ht' with hm
  have htt : t' = t := (h.output t' c ht').symm.trans (h.output t c hp)
  exact hm (htt ▸ hin)

end DropDependents

section InsertKeyScanSets

structure SameHeap (l l' : AtomicComputationList) : Prop where
  objects : l'.objects = l.objects
  scans : l'.scans = l.scans

theorem dropInput_sameHeap {w w' : Dropping} {i : Option ℕ} (he : dropInput c w i = .ok w') :
    SameHeap w.computations w'.computations := by
  unfold dropInput at he
  split at he
  · cases he
  · dsimp only at he
    split at he
    · cases he
      exact ⟨rfl, rfl⟩
    · cases he
      exact ⟨rfl, rfl⟩

theorem dropInputs_sameHeap {w w' : Dropping} {inputs : List (Option ℕ)}
    (he : inputs.foldlM (dropInput c) w = .ok w') : SameHeap w.computations w'.computations := by
  induction inputs generalizing w with
  | nil =>
    cases he
    exact ⟨rfl, rfl⟩
  | cons i inputs ih =>
    rw [List.foldlM_cons] at he
    obtain ⟨w₁, hw₁, he⟩ := bind_eq_ok.mp he
    have h := dropInput_sameHeap hw₁
    have h' := ih he
    exact ⟨h'.objects.trans h.objects, h'.scans.trans h.scans⟩

theorem dropLoop_sameHeap {fuel : ℕ} {w w' : Dropping} (he : dropLoop fuel w = .ok w') :
    SameHeap w.computations w'.computations := by
  induction fuel generalizing w with
  | zero =>
    unfold dropLoop at he
    split at he
    · cases he
      exact ⟨rfl, rfl⟩
    · cases he
  | succ fuel ih =>
    unfold dropLoop at he
    split at he
    · cases he
      exact ⟨rfl, rfl⟩
    · dsimp only at he
      split at he
      · cases he
      · obtain ⟨w₁, hw₁, he⟩ := bind_eq_ok.mp he
        have h := dropInputs_sameHeap hw₁
        have h' := ih he
        exact ⟨h'.objects.trans h.objects, h'.scans.trans h.scans⟩

theorem dropDependencies_sameHeap {fuel : ℕ} (he : dropDependencies fuel t l = .ok l') : SameHeap l l' := by
  unfold dropDependencies at he
  obtain ⟨w, hw, he⟩ := bind_eq_ok.mp he
  have h := dropLoop_sameHeap hw
  rw [foldl_removeProducer] at he
  cases he
  exact ⟨h.objects, h.scans⟩

theorem Ready.not_current_of_insertKeyScanSets {fuel : ℕ} (h : Ready l) (he : insertKeyScanSets fuel t l = .ok l') :
    ¬ ScansCurrent l' := by
  intro hcurrent
  unfold insertKeyScanSets at he
  split at he
  · cases he
  · next inputComp hp =>
    dsimp only at he
    obtain ⟨mid, hmid, he⟩ := bind_eq_ok.mp he
    have hdrop := dropDependencies_sameHeap hmid
    have hscans := (replaceComputation_scans he).trans hdrop.scans
    obtain ⟨e, hk⟩ : ∃ e, mid.producers (mid.outputName inputComp) = some e := by
      cases hk : mid.producers (mid.outputName inputComp) with
      | none =>
        unfold replaceComputation at he
        rw [hk] at he
        cases he
      | some e => exact ⟨e, rfl⟩
    have hr := replaceComputation_spec hk he
    have hobj : mid.objects l.allocated = keyScanSet (l.objects inputComp) := by
      rw [hdrop.objects]
      exact Function.update_self _ _ _
    have hproduced : Produced l' l.allocated := ⟨_, by rw [hr.producers, if_pos rfl]⟩
    have hrole : (l'.objects l.allocated).role = .scan := by
      rw [(hr.renamed _).role, hobj]
      rfl
    have hin : l.allocated ∈ l.scans := by
      have := (hcurrent.current l.allocated).mpr ⟨hproduced, hrole⟩
      rw [hscans] at this
      exact this
    exact lt_irrefl _ (h.allocated _ ((h.scans.current _).mp hin).1)

end InsertKeyScanSets

end Operations

section Runs

def KeepsScans : Transformation → AtomicComputationList → Prop
  | .insertKeyScanSets _, _ => False
  | .joinKeySide _, _ => True
  | .joinKey _, _ => True
  | .aggKey _, _ => True
  | .dropDependents t, l => ∀ c, l.producers t = some c → (l.objects c).role ≠ .scan

theorem canApply_of_step {i : Transformation × ℕ} (he : step i l = .ok l') :
    canApply i.2 i.1 l = .ok true ∧ apply i.2 i.1 l = .ok l' := by
  unfold step at he
  obtain ⟨b, hcan, he⟩ := bind_eq_ok.mp he
  cases b with
  | false => cases he
  | true => exact ⟨hcan, he⟩

theorem Ready.step {i : Transformation × ℕ} (h : Ready l) (hk : KeepsScans i.1 l) (he : step i l = .ok l') :
    Thinned l l' := by
  obtain ⟨i, fuel⟩ := i
  obtain ⟨hcan, he⟩ := canApply_of_step he
  cases i with
  | insertKeyScanSets t => exact hk.elim
  | joinKeySide t => exact h.joinKeySide hcan he
  | joinKey t => exact h.joinKey he
  | aggKey t => exact h.aggKey hcan he
  | dropDependents t => exact h.dropDependents hk he

theorem Ready.keepsScans {i : Transformation × ℕ} (h : Ready l) (he : PlanTransformer.step i l = .ok l')
    (hs : ScansCurrent l') : KeepsScans i.1 l := by
  obtain ⟨i, fuel⟩ := i
  obtain ⟨-, he⟩ := canApply_of_step he
  cases i with
  | insertKeyScanSets t => exact h.not_current_of_insertKeyScanSets he hs
  | joinKeySide t => trivial
  | joinKey t => trivial
  | aggKey t => trivial
  | dropDependents t => exact fun c hc hscan => h.not_current_of_dropDependents hc hscan he hs

theorem scansCurrent_iff (plan : List AtomicComputation) (hp : Addable plan) (is : List (Transformation × ℕ)) :
    ScansCurrent (build plan) ∧
      (Along step (fun i l => ∀ l', step i l = .ok l' → ScansCurrent l') is (build plan) ↔
        Along step (fun i l => ∀ l', step i l = .ok l' → KeepsScans i.1 l) is (build plan)) := by
  have hiff : ∀ i l, Ready l → ((∀ l', step i l = .ok l' → ScansCurrent l') ↔
      ∀ l', step i l = .ok l' → KeepsScans i.1 l) := by
    intro i l h
    constructor
    · intro hs l' he
      exact h.keepsScans he (hs l' he)
    · intro hk l' he
      exact ((h.step (hk l' he) he).ready h).scans
  have hstep : ∀ i l l', Ready l → (∀ l', step i l = .ok l' → ScansCurrent l') → step i l = .ok l' → Ready l' := by
    intro i l l' h hs he
    exact (h.step (h.keepsScans he (hs l' he)) he).ready h
  exact ⟨hp.ready.scans, along_iff hiff hstep is hp.ready⟩

theorem scansCurrent_keyedPlan : ScansCurrent (build keyedPlan) ∧
    (Along step (fun i l => ∀ l', step i l = .ok l' → ScansCurrent l') [(.joinKeySide "A".toList, 3)]
        (build keyedPlan) ↔
      Along step (fun i l => ∀ l', step i l = .ok l' → KeepsScans i.1 l) [(.joinKeySide "A".toList, 3)]
        (build keyedPlan)) :=
  scansCurrent_iff keyedPlan addable_keyedPlan _

theorem not_scansCurrent_keyedPlan : ¬ ∀ plan, Addable plan → ∀ l,
    Reachable step (fun _ _ => True) (fun l => l = build plan) l → ScansCurrent l := by
  intro h
  have hrun : (step (.insertKeyScanSets "C".toList, 3) (build keyedPlan)).toOption.any
      (fun l => l.producers "C".toList = some 10 ∧ (l.objects 10).role = .scan ∧ 10 ∉ l.scans) = true := by
    decide +kernel
  obtain ⟨l, he, ht⟩ := exists_of_test hrun
  obtain ⟨hp, hs, hno⟩ := of_decide_eq_true ht
  have hcurrent := h keyedPlan addable_keyedPlan l (.step (.start rfl) trivial he)
  exact hno ((hcurrent.current 10).mpr ⟨⟨_, hp⟩, hs⟩)

end Runs

end PlinyCompute.PlanTransformer
