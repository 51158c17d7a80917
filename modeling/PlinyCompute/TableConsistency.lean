import PlinyCompute.PlanTransformer

namespace PlinyCompute.PlanTransformer

open LogicalPlan Transition ComputationTables

variable {l l' : AtomicComputationList} {t k n : Text} {c d : ℕ}

abbrev noInput : Text := TupleSpec.empty.setName

def Produced (l : AtomicComputationList) (c : ℕ) : Prop := ∃ t, l.producers t = some c

def names (l : AtomicComputationList) (c : ℕ) : List Text := (l.objects c).inputNames

structure Consistent (l : AtomicComputationList) : Prop where
  output : ∀ t c, l.producers t = some c → l.outputName c = t
  listed : ∀ t c, c ∈ l.consumers t → Produced l c ∧ (l.consumers t).count c = (names l c).count t
  complete : ∀ t c, Produced l c → t ∈ names l c → t ≠ noInput → c ∈ l.consumers t
  inputs : ∀ t c, Produced l c → t ∈ names l c → t ≠ noInput → ∃ d, l.producers t = some d

structure TablesOn (A : Text → Prop) (l : AtomicComputationList) : Prop where
  output : ∀ t c, l.producers t = some c → l.outputName c = t
  listed : ∀ t c, A t → c ∈ l.consumers t → Produced l c ∧ (l.consumers t).count c = (names l c).count t
  complete : ∀ t c, Produced l c → t ∈ names l c → t ≠ noInput → c ∈ l.consumers t
  inputs : ∀ t c, Produced l c → t ∈ names l c → t ≠ noInput → ∃ d, l.producers t = some d
  allocated : ∀ c, Produced l c → c < l.allocated
  reserved : l.producers noInput = none
  scans : ∀ c, Produced l c → (l.objects c).role = .scan → names l c = [noInput]

abbrev Tables : AtomicComputationList → Prop := TablesOn fun _ => True

variable {A B : Text → Prop}

theorem TablesOn.consistent (h : Tables l) : Consistent l :=
  ⟨h.output, fun t c => h.listed t c trivial, h.complete, h.inputs⟩

theorem TablesOn.mono (h : TablesOn A l) (hAB : ∀ t, B t → A t) : TablesOn B l :=
  { h with listed := fun t c ht => h.listed t c (hAB t ht) }

theorem TablesOn.produced (h : TablesOn A l) (hc : Produced l c) : l.producers (l.outputName c) = some c := by
  obtain ⟨t, ht⟩ := hc
  rw [h.output t c ht]
  exact ht

section Names

variable {x y : AtomicComputation}

theorem inputNames_eq (x : AtomicComputation) :
    x.inputNames = x.input.setName :: (x.getRightInput.map TupleSpec.setName).toList := by
  unfold AtomicComputation.inputNames AtomicComputation.getRightInput
  cases x.kind <;> rfl

theorem inputNames_of_role (h : x.role ≠ .union) (h' : x.role ≠ .join) : x.inputNames = [x.input.setName] := by
  unfold AtomicComputation.role at h h'
  unfold AtomicComputation.inputNames
  cases hk : x.kind <;> simp [hk] at h h' ⊢

theorem inputNames_of_isApplyLambda (h : x.isApplyLambda = true) : x.inputNames = [x.input.setName] := by
  unfold AtomicComputation.isApplyLambda at h
  unfold AtomicComputation.inputNames
  cases hk : x.kind <;> simp [hk] at h ⊢

theorem role_ne_scan_of_isApplyLambda (h : x.isApplyLambda = true) : x.role ≠ .scan := by
  unfold AtomicComputation.isApplyLambda at h
  unfold AtomicComputation.role
  cases hk : x.kind <;> simp [hk] at h ⊢

structure Renamed (x y : AtomicComputation) : Prop where
  output : y.output = x.output
  inputAtts : y.input.atts = x.input.atts
  projectionAtts : y.projection.atts = x.projection.atts
  rightAtts : y.getRightInput.map TupleSpec.atts = x.getRightInput.map TupleSpec.atts
  rightProjectionAtts : y.getRightProjection.map TupleSpec.atts = x.getRightProjection.map TupleSpec.atts
  role : y.role = x.role
  isApplyLambda : y.isApplyLambda = x.isApplyLambda
  keyValuePairs : y.keyValuePairs = x.keyValuePairs
  computationName : y.computationName = x.computationName

theorem Renamed.refl (x : AtomicComputation) : Renamed x x := ⟨rfl, rfl, rfl, rfl, rfl, rfl, rfl, rfl, rfl⟩

theorem Renamed.trans {z : AtomicComputation} (h : Renamed x y) (h' : Renamed y z) : Renamed x z where
  output := h'.output.trans h.output
  inputAtts := h'.inputAtts.trans h.inputAtts
  projectionAtts := h'.projectionAtts.trans h.projectionAtts
  rightAtts := h'.rightAtts.trans h.rightAtts
  rightProjectionAtts := h'.rightProjectionAtts.trans h.rightProjectionAtts
  role := h'.role.trans h.role
  isApplyLambda := h'.isApplyLambda.trans h.isApplyLambda
  keyValuePairs := h'.keyValuePairs.trans h.keyValuePairs
  computationName := h'.computationName.trans h.computationName

theorem renamed_setInputNames (a b : Text) (x : AtomicComputation) : Renamed x (x.setInputNames a b) :=
  ⟨rfl, rfl, rfl, rfl, rfl, rfl, rfl, rfl, rfl⟩

theorem renamed_setRightNames (a b : Text) (x : AtomicComputation) : Renamed x (x.setRightNames a b) := by
  obtain ⟨i, o, p, cn, kv, kind⟩ := x
  cases kind <;> exact ⟨rfl, rfl, rfl, rfl, rfl, rfl, rfl, rfl, rfl⟩

theorem inputNames_setInputNames (a b : Text) (x : AtomicComputation) :
    (x.setInputNames a b).inputNames = a :: (x.getRightInput.map TupleSpec.setName).toList := by
  rw [inputNames_eq]
  rfl

theorem inputNames_setRightNames (a : Text) (h : x.getRightInput.map TupleSpec.setName = some t) :
    (x.setRightNames a a).inputNames = [x.input.setName, a] := by
  obtain ⟨i, o, p, cn, kv, kind⟩ := x
  cases kind <;> first | rfl | simp [AtomicComputation.getRightInput] at h

end Names

section Renaming

variable {objects objects' : ℕ → AtomicComputation}

theorem renameConsumer_spec (h : renameConsumer k n objects c = .ok objects') :
    (∀ d, Renamed (objects d) (objects' d)) ∧ ∀ d t,
      (objects' d).inputNames.count t + (if t = k then [c].count d else 0) =
        (objects d).inputNames.count t + if t = n then [c].count d else 0 := by
  unfold renameConsumer at h
  have hupdate : ∀ y, Renamed (objects c) y → (∀ t, y.inputNames.count t + (if t = k then 1 else 0) =
      (objects c).inputNames.count t + if t = n then 1 else 0) → Function.update objects c y = objects' →
      (∀ d, Renamed (objects d) (objects' d)) ∧ ∀ d t,
      (objects' d).inputNames.count t + (if t = k then [c].count d else 0) =
        (objects d).inputNames.count t + if t = n then [c].count d else 0 := by
    rintro y hy hcount rfl
    constructor
    · intro d
      by_cases hd : d = c
      · subst hd
        simpa using hy
      · simpa [hd] using Renamed.refl _
    · intro d t
      by_cases hd : d = c
      · subst hd
        simpa using hcount t
      · simp [hd, Ne.symm hd]
  split at h
  · next hk =>
    refine hupdate _ (renamed_setInputNames n n _) ?_ (by simpa using h)
    intro t
    rw [inputNames_setInputNames, inputNames_eq (objects c), hk, List.count_cons, List.count_cons]
    simp only [beq_iff_eq, eq_comm (a := t)]
    omega
  · split at h
    · next hk =>
      refine hupdate _ (renamed_setRightNames n n _) ?_ (by simpa using h)
      intro t
      rw [inputNames_setRightNames n hk, inputNames_eq (objects c), hk]
      simp only [Option.toList_some, List.count_cons, List.count_nil, beq_iff_eq, eq_comm (a := t)]
      omega
    · cases h

theorem foldlM_renameConsumer_spec {cs : List ℕ} (h : cs.foldlM (renameConsumer k n) objects = .ok objects') :
    (∀ d, Renamed (objects d) (objects' d)) ∧ ∀ d t,
      (objects' d).inputNames.count t + (if t = k then cs.count d else 0) =
        (objects d).inputNames.count t + if t = n then cs.count d else 0 := by
  induction cs generalizing objects with
  | nil =>
    cases h
    exact ⟨fun d => .refl _, fun d t => by simp⟩
  | cons c cs ih =>
    rw [List.foldlM_cons, bind_eq_ok] at h
    obtain ⟨mid, hmid, h⟩ := h
    obtain ⟨hr, hcount⟩ := renameConsumer_spec hmid
    obtain ⟨hr', hcount'⟩ := ih h
    refine ⟨fun d => (hr d).trans (hr' d), fun d t => ?_⟩
    have h1 := hcount d t
    have h2 := hcount' d t
    have hsum : (c :: cs).count d = [c].count d + cs.count d := by
      rw [← List.count_append, List.singleton_append]
    rw [hsum]
    split_ifs at h1 h2 ⊢ <;> omega

end Renaming

section Detaching

theorem removeConsumer_consumers (l : AtomicComputationList) (k t : Text) (c : ℕ) :
    (l.removeConsumer k c).consumers t = if t = k then (l.consumers k).filter (· ≠ c) else l.consumers t := by
  by_cases h : t = k
  · subst h
    simp [AtomicComputationList.removeConsumer]
  · simp [AtomicComputationList.removeConsumer, h]

theorem removeConsumer_count (hd : d ≠ c) :
    ((l.removeConsumer k c).consumers t).count d = (l.consumers t).count d := by
  rw [removeConsumer_consumers]
  split_ifs with h
  · subst h
    exact List.count_filter (by simpa using hd)
  · rfl

theorem mem_removeConsumer (h : d ∈ (l.removeConsumer k c).consumers t) :
    d ∈ l.consumers t ∧ (t = k → d ≠ c) := by
  rw [removeConsumer_consumers] at h
  split_ifs at h with hk
  · subst hk
    simpa using h
  · exact ⟨h, fun hk' => absurd hk' hk⟩

theorem detach_count (hd : d ≠ c) : ((detach c l).consumers t).count d = (l.consumers t).count d := by
  unfold detach
  cases (l.objects c).getRightInput <;> dsimp only <;> split_ifs <;> simp only [removeConsumer_count hd]

theorem mem_detach (h : d ∈ (detach c l).consumers t) :
    d ∈ l.consumers t ∧ (d = c → t ≠ noInput → t ∉ names l c) := by
  unfold detach at h
  rw [names, inputNames_eq]
  cases hr : (l.objects c).getRightInput with
  | none =>
    rw [hr] at h
    dsimp only at h
    split_ifs at h with he
    · refine ⟨h, fun _ ht => ?_⟩
      have he' : (l.objects c).input.setName = noInput := by simpa [TupleSpec.isEmpty] using he
      simpa [he'] using ht
    · obtain ⟨h, hne⟩ := mem_removeConsumer h
      refine ⟨h, fun hd _ => ?_⟩
      simpa using fun ht => hne ht hd
  | some r =>
    rw [hr] at h
    dsimp only at h
    obtain ⟨h, hner⟩ := mem_removeConsumer h
    split_ifs at h with he
    · refine ⟨h, fun hd ht => ?_⟩
      have he' : (l.objects c).input.setName = noInput := by simpa [TupleSpec.isEmpty] using he
      simpa [he', ht] using fun hr => hner hr hd
    · obtain ⟨h, hne⟩ := mem_removeConsumer h
      refine ⟨h, fun hd _ => ?_⟩
      simpa using ⟨fun ht => hne ht hd, fun hr => hner hr hd⟩

theorem detach_allocated (l : AtomicComputationList) (c : ℕ) : (detach c l).allocated = l.allocated := by
  unfold detach
  cases (l.objects c).getRightInput <;> dsimp only <;> split_ifs <;> rfl

end Detaching

section Replacing

structure Replaced (l l' : AtomicComputationList) (k n : Text) (currComp comp : ℕ) : Prop where
  renamed : ∀ c, Renamed (l.objects c) (l'.objects c)
  names : ∀ c t,
    (names l' c).count t + (if t = k then ((detach currComp l).consumers k).count c else 0) =
      (names l c).count t + if t = n then ((detach currComp l).consumers k).count c else 0
  consumers : ∀ t, l'.consumers t = if t = n then (detach currComp l).consumers k
    else if t = k then [] else (detach currComp l).consumers t
  producers : ∀ t, l'.producers t = if t = n then some comp else if t = k then none else l.producers t
  allocated : l'.allocated = l.allocated

theorem update_update_apply {α : Type} (f : Text → α) (k n t : Text) (a b : α) :
    Function.update (Function.update f k a) n b t = if t = n then b else if t = k then a else f t := by
  by_cases hn : t = n
  · simp [hn]
  · rw [Function.update_of_ne hn, if_neg hn]
    by_cases hk : t = k
    · subst hk
      simp
    · simp [hk]

theorem replaceComputation_spec {currComp comp : ℕ} (hk : l.producers k = some currComp)
    (h : replaceComputation k comp l = .ok l') : Replaced l l' k (l.outputName comp) currComp comp := by
  unfold replaceComputation at h
  rw [hk] at h
  dsimp only at h
  rw [bind_eq_ok] at h
  obtain ⟨objects, hobjects, h⟩ := h
  obtain ⟨hrenamed, hcount⟩ := foldlM_renameConsumer_spec hobjects
  cases h
  exact ⟨hrenamed, hcount, fun t => update_update_apply _ _ _ _ _ _, fun t => update_update_apply _ _ _ _ _ _,
    detach_allocated _ _⟩

structure Replaceable (A : Text → Prop) (l : AtomicComputationList) (k n : Text) (currComp comp : ℕ) : Prop where
  producer : l.producers k = some currComp
  name : l.outputName comp = n
  scan : names l comp = [noInput]
  new : ¬ Produced l comp
  output : ∀ t c, l.producers t = some c → l.outputName c = t
  key : A k
  listed : ∀ t c, A t → c ∈ l.consumers t → c ≠ currComp →
    (c = comp ∨ Produced l c) ∧ (l.consumers t).count c = (names l c).count t
  attached : ∀ t, A t → currComp ∈ l.consumers t → t ≠ noInput ∧ t ∈ names l currComp
  complete : ∀ t c, Produced l c → c ≠ currComp → t ∈ names l c → t ≠ noInput → c ∈ l.consumers t
  inputs : ∀ t c, Produced l c → c ≠ currComp → t ∈ names l c → t ≠ noInput → ∃ d, l.producers t = some d
  free : n = k ∨ l.producers n = none ∧ ∀ c ∈ l.consumers n, c = currComp
  reserved : l.producers noInput = none
  nameNe : n ≠ noInput
  allocated : ∀ c, c = comp ∨ Produced l c → c < l.allocated
  scans : ∀ c, Produced l c → (l.objects c).role = .scan → names l c = [noInput]

variable {currComp comp : ℕ}

theorem Replaceable.key_ne (h : Replaceable A l k n currComp comp) : k ≠ noInput := by
  rintro rfl
  cases h.reserved.symm.trans h.producer

theorem Replaceable.comp_ne (h : Replaceable A l k n currComp comp) : comp ≠ currComp := by
  rintro rfl
  exact h.new ⟨k, h.producer⟩

theorem Replaceable.not_mem_detach (h : Replaceable A l k n currComp comp) (hA : A t) :
    currComp ∉ (detach currComp l).consumers t := by
  intro hm
  obtain ⟨hm, hne⟩ := mem_detach hm
  obtain ⟨ht, hn⟩ := h.attached t hA hm
  exact hne rfl ht hn

theorem Replaceable.comp_not_mem (h : Replaceable A l k n currComp comp) : comp ∉ l.consumers k := by
  intro hm
  have hc := (h.listed k comp h.key hm h.comp_ne).2
  rw [h.scan, List.count_singleton] at hc
  have hpos := List.count_pos_iff.mpr hm
  have : (noInput == k) = false := by simpa using Ne.symm h.key_ne
  rw [this] at hc
  simp only [Bool.false_eq_true, if_false] at hc
  omega

theorem Replaceable.count_name (h : Replaceable A l k n currComp comp) (hc : Produced l c) (hne : c ≠ currComp)
    (hn : n ≠ k) : (names l c).count n = 0 := by
  apply List.count_eq_zero.mpr
  intro hm
  obtain hk | ⟨-, hcons⟩ := h.free
  · exact hn hk
  · exact hne (hcons c (h.complete n c hc hne hm h.nameNe))

theorem Replaceable.count_key (h : Replaceable A l k n currComp comp) (hc : Produced l c) (hne : c ≠ currComp) :
    (l.consumers k).count c = (names l c).count k := by
  by_cases hm : c ∈ l.consumers k
  · exact (h.listed k c h.key hm hne).2
  · rw [List.count_eq_zero.mpr hm, eq_comm]
    apply List.count_eq_zero.mpr
    intro hk
    exact hm (h.complete k c hc hne hk h.key_ne)

theorem Replaceable.produced_iff (h : Replaceable A l k n currComp comp) (hr : Replaced l l' k n currComp comp) :
    Produced l' c ↔ c = comp ∨ Produced l c ∧ c ≠ currComp := by
  constructor
  · rintro ⟨t, ht⟩
    rw [hr.producers] at ht
    split_ifs at ht with htn htk
    · exact .inl (Option.some.inj ht).symm
    · refine .inr ⟨⟨t, ht⟩, ?_⟩
      rintro rfl
      exact htk ((h.output t c ht).symm.trans (h.output k c h.producer))
  · rintro (rfl | ⟨⟨t, ht⟩, hne⟩)
    · exact ⟨n, by rw [hr.producers, if_pos rfl]⟩
    · have htk : t ≠ k := by
        rintro rfl
        exact hne (Option.some.inj (ht.symm.trans h.producer))
      have htn : t ≠ n := by
        rintro rfl
        obtain hk | ⟨hnone, -⟩ := h.free
        · exact htk hk
        · cases hnone.symm.trans ht
      exact ⟨t, by rw [hr.producers, if_neg htn, if_neg htk, ht]⟩

theorem Replaceable.comp_names (h : Replaceable A l k n currComp comp) (hr : Replaced l l' k n currComp comp)
    (t : Text) : (names l' comp).count t = (names l comp).count t := by
  have hc := hr.names comp t
  have hzero : ((detach currComp l).consumers k).count comp = 0 := by
    rw [detach_count h.comp_ne]
    exact List.count_eq_zero.mpr h.comp_not_mem
  simpa [hzero] using hc

theorem Replaceable.count_names (h : Replaceable A l k n currComp comp) (hr : Replaced l l' k n currComp comp)
    (hc : Produced l c) (hne : c ≠ currComp) (t : Text) : (names l' c).count t =
      if t = n then (names l c).count k else if t = k then 0 else (names l c).count t := by
  have hcount := hr.names c t
  rw [detach_count hne, h.count_key hc hne] at hcount
  by_cases htn : t = n
  · subst htn
    by_cases htk : t = k
    · subst htk
      simpa using hcount
    · have := h.count_name hc hne htk
      simp [htk] at hcount ⊢
      omega
  · by_cases htk : t = k
    · subst htk
      simp [htn] at hcount ⊢
      omega
    · simpa [htn, htk] using hcount

theorem eq_singleton_of_count {xs : List Text} (h : ∀ t, xs.count t = [noInput].count t) : xs = [noInput] :=
  List.perm_singleton.mp (List.perm_iff_count.mpr h)

theorem Replaceable.tables (h : Replaceable A l k n currComp comp) (hr : Replaced l l' k n currComp comp) :
    TablesOn (fun t => A t ∨ t = n) l' where
  output := by
    intro t c ht
    have hname : l'.outputName c = l.outputName c := by
      unfold AtomicComputationList.outputName AtomicComputation.getOutputName
      rw [(hr.renamed c).output]
    rw [hname]
    rw [hr.producers] at ht
    split_ifs at ht with htn htk
    · cases ht
      exact h.name.trans htn.symm
    · exact h.output t c ht
  listed := by
    intro t c hA hm
    rw [hr.consumers] at hm ⊢
    have hne : c ≠ currComp := by
      rintro rfl
      split_ifs at hm with htn htk
      · exact h.not_mem_detach h.key hm
      · cases hm
      · exact h.not_mem_detach (hA.resolve_right htn) hm
    rw [h.produced_iff hr]
    split_ifs at hm ⊢ with htn htk
    · -- a computation that read the one that is replaced
      have hk := (mem_detach hm).1
      obtain rfl | hc := (h.listed k c h.key hk hne).1
      · exact absurd hk h.comp_not_mem
      · refine ⟨.inr ⟨hc, hne⟩, ?_⟩
        rw [detach_count hne, h.count_names hr hc hne, if_pos htn, h.count_key hc hne]
    · cases hm
    · obtain ⟨hc, hcount⟩ := h.listed t c (hA.resolve_right htn) (mem_detach hm).1 hne
      rw [detach_count hne, hcount]
      obtain rfl | hc := hc
      · exact ⟨.inl rfl, (h.comp_names hr t).symm⟩
      · exact ⟨.inr ⟨hc, hne⟩, by rw [h.count_names hr hc hne, if_neg htn, if_neg htk]⟩
  complete := by
    intro t c hc hm ht
    rw [h.produced_iff hr] at hc
    have hpos := List.count_pos_iff.mpr hm
    apply List.count_pos_iff.mp
    rw [hr.consumers]
    obtain rfl | ⟨hc, hne⟩ := hc
    · rw [h.comp_names hr, h.scan] at hpos
      exact absurd (by simpa using List.count_pos_iff.mp hpos) ht
    · rw [h.count_names hr hc hne] at hpos
      split_ifs at hpos ⊢ with htn htk
      · rw [detach_count hne, h.count_key hc hne]
        exact hpos
      · exact absurd hpos (by omega)
      · rw [detach_count hne]
        exact List.count_pos_iff.mpr (h.complete t c hc hne (List.count_pos_iff.mp hpos) ht)
  inputs := by
    intro t c hc hm ht
    rw [h.produced_iff hr] at hc
    have hpos := List.count_pos_iff.mpr hm
    rw [hr.producers]
    obtain rfl | ⟨hc, hne⟩ := hc
    · rw [h.comp_names hr, h.scan] at hpos
      exact absurd (by simpa using List.count_pos_iff.mp hpos) ht
    · rw [h.count_names hr hc hne] at hpos
      split_ifs at hpos ⊢ with htn htk
      · exact ⟨_, rfl⟩
      · exact absurd hpos (by omega)
      · exact h.inputs t c hc hne (List.count_pos_iff.mp hpos) ht
  allocated := by
    intro c hc
    rw [hr.allocated]
    exact h.allocated c (((h.produced_iff hr).mp hc).imp_right And.left)
  reserved := by
    rw [hr.producers, if_neg h.nameNe.symm, if_neg h.key_ne.symm]
    exact h.reserved
  scans := by
    intro c hc hs
    apply eq_singleton_of_count
    intro t
    obtain rfl | ⟨hc, hne⟩ := (h.produced_iff hr).mp hc
    · rw [h.comp_names hr, h.scan]
    · have hscan := h.scans c hc ((hr.renamed c).role ▸ hs)
      rw [h.count_names hr hc hne, hscan]
      have hk : [noInput].count k = 0 := by simp [h.key_ne.symm]
      have hn : [noInput].count n = 0 := by simp [h.nameNe.symm]
      split_ifs with htn htk
      · rw [hk, htn, hn]
      · rw [htk, hk]
      · rfl

end Replacing

section Edits

structure SameTables (l l' : AtomicComputationList) : Prop where
  producers : l'.producers = l.producers
  consumers : l'.consumers = l.consumers
  allocated : l'.allocated = l.allocated
  output : ∀ c, l'.outputName c = l.outputName c
  names : ∀ c, names l' c = names l c
  role : ∀ c, (l'.objects c).role = (l.objects c).role

theorem SameTables.trans {l'' : AtomicComputationList} (h : SameTables l l') (h' : SameTables l' l'') :
    SameTables l l'' where
  producers := h'.producers.trans h.producers
  consumers := h'.consumers.trans h.consumers
  allocated := h'.allocated.trans h.allocated
  output c := (h'.output c).trans (h.output c)
  names c := (h'.names c).trans (h.names c)
  role c := (h'.role c).trans (h.role c)

theorem sameTables_modify {f : AtomicComputation → AtomicComputation} (l : AtomicComputationList) (c : ℕ)
    (ho : ∀ x, (f x).getOutputName = x.getOutputName) (hn : ∀ x, (f x).inputNames = x.inputNames)
    (hr : ∀ x, (f x).role = x.role) : SameTables l (l.modify c f) := by
  refine ⟨rfl, rfl, rfl, fun d => ?_, fun d => ?_, fun d => ?_⟩
  all_goals
    by_cases hd : d = c
    · subst hd
      simp [AtomicComputationList.outputName, names, AtomicComputationList.modify, ho, hn, hr]
    · simp [AtomicComputationList.outputName, names, AtomicComputationList.modify, hd]

theorem SameTables.produced_iff (h : SameTables l l') : Produced l' c ↔ Produced l c := by
  simp only [Produced, h.producers]

theorem TablesOn.congr (h : TablesOn A l) (hs : SameTables l l') : TablesOn A l' where
  output t c ht := (hs.output c).trans (h.output t c (hs.producers ▸ ht))
  listed t c hA hm := by
    rw [hs.consumers] at hm ⊢
    rw [hs.produced_iff, hs.names]
    exact h.listed t c hA hm
  complete t c hc hm ht := by
    rw [hs.produced_iff] at hc
    rw [hs.names] at hm
    rw [hs.consumers]
    exact h.complete t c hc hm ht
  inputs t c hc hm ht := by
    rw [hs.produced_iff] at hc
    rw [hs.names] at hm
    rw [hs.producers]
    exact h.inputs t c hc hm ht
  allocated c hc := hs.allocated ▸ h.allocated c (hs.produced_iff.mp hc)
  reserved := hs.producers ▸ h.reserved
  scans c hc hr := (hs.names c).trans (h.scans c (hs.produced_iff.mp hc) (hs.role c ▸ hr))

end Edits

section JoinKeySide

theorem keySideLoop_same {a b : Text} {fuel : ℕ} (h : keySideLoop a b fuel c l = .ok l') : SameTables l l' := by
  induction fuel generalizing c l with
  | zero => cases h
  | succ fuel ih =>
    rw [keySideLoop] at h
    split at h
    · cases h
    · dsimp only at h
      split at h
      · split at h
        · cases h
          exact sameTables_modify l c (fun _ => rfl) (fun _ => rfl) (fun _ => rfl)
        · refine SameTables.trans ?_ (ih h)
          exact sameTables_modify l c (fun _ => rfl) (fun _ => rfl) (fun _ => rfl)
      · cases h

theorem TablesOn.eq_of_outputName (h : TablesOn A l) (hc : Produced l c) (hd : Produced l d)
    (he : l.outputName c = l.outputName d) : c = d :=
  Option.some.inj ((h.produced hc).symm.trans (he ▸ h.produced hd))

theorem TablesOn.ne_noInput (h : TablesOn A l) (hc : l.producers t = some c) : t ≠ noInput := by
  rintro rfl
  cases h.reserved.symm.trans hc

theorem removeProducer_producers (l : AtomicComputationList) (k t : Text) :
    (l.removeProducer k).producers t = if t = k then none else l.producers t := by
  by_cases h : t = k
  · subst h
    simp [AtomicComputationList.removeProducer]
  · simp [AtomicComputationList.removeProducer, h]

theorem TablesOn.replaceable_key {inputComp keyComp : ℕ} (h : TablesOn A l) (hA : ∀ t c, l.producers t = some c → A t)
    (hi : l.producers t = some inputComp) (hrole : (l.objects inputComp).role = .scan)
    (hcons : l.consumers t = [keyComp]) (hkey : (l.objects keyComp).isApplyLambda = true) :
    Replaceable A (l.removeProducer t) (l.outputName keyComp) t keyComp inputComp := by
  have ht : t ≠ noInput := h.ne_noInput hi
  have hlisted : keyComp ∈ l.consumers t := by simp [hcons]
  obtain ⟨hproduced, hcount⟩ := h.listed t keyComp (hA t _ hi) hlisted
  have hne : inputComp ≠ keyComp := by
    rintro rfl
    exact role_ne_scan_of_isApplyLambda hkey hrole
  have hname : l.outputName inputComp = t := h.output t inputComp hi
  have hkeyName : l.outputName keyComp ≠ t := by
    intro he
    exact hne (h.eq_of_outputName ⟨t, hi⟩ hproduced (hname.trans he.symm))
  have hnames : names l keyComp = [t] := by
    have hn : names l keyComp = [(l.objects keyComp).input.setName] := inputNames_of_isApplyLambda hkey
    rw [hn, hcons] at hcount
    rw [hn]
    have hpos : 0 < [(l.objects keyComp).input.setName].count t := by
      rw [← hcount]
      simp
    have hm := List.count_pos_iff.mp hpos
    rw [List.mem_singleton] at hm
    rw [← hm]
  have hreads : ∀ c, Produced l c → c ≠ keyComp → t ∉ names l c := by
    intro c hc hck hm
    have hin := h.complete t c hc hm ht
    rw [hcons, List.mem_singleton] at hin
    exact hck hin
  have hof : ∀ t' c, (l.removeProducer t).producers t' = some c → t' ≠ t ∧ l.producers t' = some c := by
    intro t' c ht'
    rw [removeProducer_producers] at ht'
    split_ifs at ht' with he
    exact ⟨he, ht'⟩
  have hofc : ∀ c, Produced (l.removeProducer t) c → Produced l c := fun c ⟨t', ht'⟩ => ⟨t', (hof t' c ht').2⟩
  exact
    { producer := by
        rw [removeProducer_producers, if_neg hkeyName]
        exact h.produced hproduced
      name := hname
      scan := h.scans _ ⟨t, hi⟩ hrole
      new := fun ⟨t', ht'⟩ => (hof t' _ ht').1 ((h.output t' inputComp (hof t' _ ht').2).symm.trans hname)
      output := fun t' c ht' => h.output t' c (hof t' c ht').2
      key := hA _ _ (h.produced hproduced)
      listed := by
        intro t' c ht' hm _
        obtain ⟨hc, hcount⟩ := h.listed t' c ht' hm
        refine ⟨?_, hcount⟩
        by_cases hci : c = inputComp
        · exact .inl hci
        · refine .inr ⟨l.outputName c, ?_⟩
          rw [removeProducer_producers, if_neg]
          · exact h.produced hc
          · intro he
            exact hci (h.eq_of_outputName hc ⟨t, hi⟩ (he.trans hname.symm))
      attached := by
        intro t' ht' hm
        have hm' : t' ∈ names l keyComp := by
          apply List.count_pos_iff.mp
          rw [← (h.listed t' keyComp ht' hm).2]
          exact List.count_pos_iff.mpr hm
        refine ⟨?_, hm'⟩
        rw [hnames, List.mem_singleton] at hm'
        exact hm' ▸ ht
      complete := fun t' c hc _ hm ht' => h.complete t' c (hofc c hc) hm ht'
      inputs := by
        intro t' c hc hck hm ht'
        rw [removeProducer_producers, if_neg]
        · exact h.inputs t' c (hofc c hc) hm ht'
        · rintro rfl
          exact hreads c (hofc c hc) hck hm
      free := by
        refine .inr ⟨by rw [removeProducer_producers, if_pos rfl], fun c hm => ?_⟩
        have hm' : c ∈ l.consumers t := hm
        rw [hcons, List.mem_singleton] at hm'
        exact hm'
      reserved := by
        rw [removeProducer_producers]
        split_ifs
        · rfl
        · exact h.reserved
      nameNe := ht
      allocated := by
        rintro c (rfl | hc)
        · exact h.allocated c ⟨t, hi⟩
        · exact h.allocated c (hofc c hc)
      scans := fun c hc hs => h.scans c (hofc c hc) hs }

def keyedScan (inAttribute keyAttribute : Text) (c : AtomicComputation) : AtomicComputation :=
  { c with output := (c.output.removeAtt inAttribute).insertAtt keyAttribute }

theorem sameTables_keyedScan (a b : Text) (l : AtomicComputationList) (c : ℕ) :
    SameTables l (l.modify c (keyedScan a b)) :=
  sameTables_modify l c (fun _ => rfl) (fun _ => rfl) (fun _ => rfl)

structure KeySide (t : Text) (l : AtomicComputationList) (inputComp keyComp : ℕ) (a b : Text) : Prop where
  producer : l.producers t = some inputComp
  scan : (l.objects inputComp).role = .scan
  consumers : l.consumers t = [keyComp]
  key : (l.objects keyComp).isApplyLambda = true
  record : (l.objects inputComp).output.atts.head? = some a
  column : (TupleSpec.complement (l.objects keyComp).output (l.objects keyComp).projection).atts = [b]

theorem joinKeySide_eq_ok {fuel : ℕ} (hout : ∀ t c, l.producers t = some c → l.outputName c = t)
    (hcan : canJoinKeySide t l = .ok true) (he : joinKeySide fuel t l = .ok l') :
    ∃ inputComp keyComp a b l₂ currComp, KeySide t l inputComp keyComp a b ∧
      replaceComputation (l.outputName keyComp) inputComp ((l.modify inputComp (keyedScan a b)).removeProducer t) =
        .ok l₂ ∧
      l₂.consumers (l₂.outputName inputComp) = [currComp] ∧ keySideLoop a b fuel currComp l₂ = .ok l' := by
  unfold canJoinKeySide at hcan
  unfold PlanTransformer.joinKeySide at he
  split at hcan
  · cases hcan
  next inputComp hi =>
    split_ifs at hcan with hrole
    · simp at hcan
    rw [not_not] at hrole
    split at hcan
    next keyComp hcons =>
      simp only [Except.ok.injEq, Bool.and_eq_true] at hcan
      rw [hi, hcons] at he
      dsimp only at he
      split at he
      · next a atts b hatts hkey =>
        have hs := sameTables_keyedScan a b l inputComp
        obtain ⟨l₂, he₂, he⟩ := bind_eq_ok.mp he
        have hname : (l.modify inputComp (keyedScan a b)).outputName inputComp = t :=
          (hs.output _).trans (hout t inputComp hi)
        have hkeyName : (l.modify inputComp (keyedScan a b)).outputName keyComp = l.outputName keyComp := hs.output _
        change replaceComputation ((l.modify inputComp (keyedScan a b)).outputName keyComp) inputComp
          ((l.modify inputComp (keyedScan a b)).removeProducer
            ((l.modify inputComp (keyedScan a b)).outputName inputComp)) = .ok l₂ at he₂
        rw [hname, hkeyName] at he₂
        split at he
        · next currComp hcurr =>
          exact ⟨inputComp, keyComp, a, b, l₂, currComp, ⟨hi, hrole, hcons, hcan.1, by rw [hatts]; rfl, hkey⟩, he₂,
            hcurr, he⟩
        · cases he
      · cases he
      · cases he
    · simp at hcan

theorem KeySide.ne {inputComp keyComp : ℕ} {a b : Text} (h : KeySide t l inputComp keyComp a b) :
    keyComp ≠ inputComp := by
  rintro rfl
  exact role_ne_scan_of_isApplyLambda h.key h.scan

theorem KeySide.replaceable {inputComp keyComp : ℕ} {a b : Text} (hs : KeySide t l inputComp keyComp a b)
    (h : TablesOn A l) (hA : ∀ t c, l.producers t = some c → A t) :
    Replaceable A ((l.modify inputComp (keyedScan a b)).removeProducer t) (l.outputName keyComp) t keyComp
      inputComp := by
  have hsame := sameTables_keyedScan a b l inputComp
  have hobj : (l.modify inputComp (keyedScan a b)).objects keyComp = l.objects keyComp :=
    Function.update_of_ne hs.ne _ _
  have hrep := (h.congr hsame).replaceable_key hA hs.producer ((hsame.role _).trans hs.scan)
    hs.consumers (hobj ▸ hs.key)
  rw [hsame.output] at hrep
  exact hrep

theorem TablesOn.joinKeySide {fuel : ℕ} (h : TablesOn A l) (hA : ∀ t c, l.producers t = some c → A t)
    (hcan : canJoinKeySide t l = .ok true) (he : joinKeySide fuel t l = .ok l') : TablesOn A l' := by
  obtain ⟨inputComp, keyComp, a, b, l₂, currComp, hs, he₂, -, he⟩ := joinKeySide_eq_ok h.output hcan he
  have hrep := hs.replaceable h hA
  have hr := hrep.name ▸ replaceComputation_spec hrep.producer he₂
  have h₂ := (hrep.tables hr).mono fun t ht => .inl ht
  exact h₂.congr (keySideLoop_same he)

end JoinKeySide

end PlinyCompute.PlanTransformer
