import PlinyCompute.PlanRuns

namespace PlinyCompute.PlanTransformer

open LogicalPlan Transition ComputationTables

variable {l l' : AtomicComputationList} {t k n x : Text} {c d : ℕ}

section Specifications

variable {s : TupleSpec} {y z curr : AtomicComputation}

def specs (c : AtomicComputation) : List TupleSpec :=
  [c.input, c.projection] ++ (c.getRightInput.toList ++ c.getRightProjection.toList)

structure SameSets (c : AtomicComputation) : Prop where
  left : c.projection.setName = c.input.setName ∨ c.hasTwoInputs = true ∧ c.projection.atts = []
  right : c.getRightProjection.map TupleSpec.setName = c.getRightInput.map TupleSpec.setName

theorem setName_mem_inputNames (h : SameSets y) (hs : s ∈ specs y) (hx : x ∈ s.atts) : s.setName ∈ y.inputNames := by
  rw [inputNames_eq]
  simp only [specs, List.mem_append, List.mem_cons, List.not_mem_nil, or_false, Option.mem_toList] at hs
  obtain (rfl | rfl) | hs | hs := hs
  · simp
  · obtain he | ⟨-, he⟩ := h.left
    · simp [he]
    · simp [he] at hx
  · simp [hs]
  · have hr := h.right
    rw [hs, Option.map_some] at hr
    simp [← hr]

theorem right_ne_of_count (hi : y.input.setName = t) (hcount : y.inputNames.count t = 1) :
    y.getRightInput.map TupleSpec.setName ≠ some t := by
  intro he
  rw [inputNames_eq, hi, he] at hcount
  simp at hcount

def redirect (k n t : Text) : Text := if t = k then n else t

theorem redirect_of_ne (h : t ≠ k) : redirect k n t = t := if_neg h

@[simp] theorem setSetName_setName (s : TupleSpec) : s.setSetName s.setName = s := rfl

@[simp] theorem setRightNames_input (a b : Text) (y : AtomicComputation) : (y.setRightNames a b).input = y.input := by
  unfold AtomicComputation.setRightNames
  cases y.kind <;> rfl

@[simp] theorem setRightNames_projection (a b : Text) (y : AtomicComputation) :
    (y.setRightNames a b).projection = y.projection := by
  unfold AtomicComputation.setRightNames
  cases y.kind <;> rfl

theorem relinked_input (hi : curr.input.setName = n) (y : AtomicComputation) :
    (relinked curr y).input = y.input.setSetName (redirect curr.getOutputName n y.input.setName) := by
  unfold relinked
  dsimp only
  by_cases h : y.input.setName = curr.getOutputName
  · simp only [if_pos h, redirect]
    split_ifs
    · rw [setRightNames_input, hi]
      rfl
    · rw [hi]
      rfl
  · simp only [if_neg h, redirect, setSetName_setName]
    split_ifs
    · exact setRightNames_input _ _ y
    · rfl

theorem relinked_projection (hp : curr.projection.setName = n) (y : AtomicComputation) :
    (relinked curr y).projection = y.projection.setSetName
      (if y.input.setName = curr.getOutputName then n else y.projection.setName) := by
  unfold relinked
  dsimp only
  by_cases h : y.input.setName = curr.getOutputName
  · simp only [if_pos h]
    split_ifs
    · rw [setRightNames_projection, hp]
      rfl
    · rw [hp]
      rfl
  · simp only [if_neg h, setSetName_setName]
    split_ifs
    · exact setRightNames_projection _ _ y
    · rfl

theorem getRightInput_setRightNames (n : Text) (y : AtomicComputation) :
    (y.setRightNames n n).getRightInput = y.getRightInput.map (TupleSpec.setSetName n) := by
  unfold AtomicComputation.setRightNames AtomicComputation.getRightInput
  cases hk : y.kind <;> simp [hk]

theorem getRightProjection_setRightNames (n : Text) (y : AtomicComputation) :
    (y.setRightNames n n).getRightProjection = y.getRightProjection.map (TupleSpec.setSetName n) := by
  unfold AtomicComputation.setRightNames AtomicComputation.getRightProjection
  cases hk : y.kind <;> simp [hk]

theorem relinked_right (hi : curr.input.setName = n) (hp : curr.projection.setName = n) (y : AtomicComputation) :
    ∃ z : AtomicComputation, z.getRightInput = y.getRightInput ∧ z.getRightProjection = y.getRightProjection ∧
      relinked curr y = if y.getRightInput.map TupleSpec.setName = some curr.getOutputName then z.setRightNames n n
        else z := by
  unfold relinked
  rw [hi, hp]
  by_cases h : y.input.setName = curr.getOutputName
  · exact ⟨y.setInputNames n n, rfl, rfl, by rw [if_pos h]; rfl⟩
  · exact ⟨y, rfl, rfl, by rw [if_neg h]⟩

theorem map_redirect_eq {o : Option TupleSpec} (h : o.map TupleSpec.setName ≠ some k) :
    o.map (fun r => r.setSetName (redirect k n r.setName)) = o := by
  cases o with
  | none => rfl
  | some r =>
    have hr : r.setName ≠ k := by
      intro he
      exact h (by rw [Option.map_some, he])
    rw [Option.map_some, redirect_of_ne hr, setSetName_setName]

theorem map_redirect_eq_setSetName {o : Option TupleSpec} (h : o.map TupleSpec.setName = some k) :
    o.map (fun r => r.setSetName (redirect k n r.setName)) = o.map (TupleSpec.setSetName n) := by
  cases o with
  | none => rfl
  | some r =>
    have hr : r.setName = k := by simpa using h
    simp [redirect, hr]

theorem relinked_getRightInput (hi : curr.input.setName = n) (hp : curr.projection.setName = n)
    (y : AtomicComputation) : (relinked curr y).getRightInput =
      y.getRightInput.map fun r => r.setSetName (redirect curr.getOutputName n r.setName) := by
  obtain ⟨z, hz, -, he⟩ := relinked_right hi hp y
  rw [he]
  split_ifs with h
  · rw [getRightInput_setRightNames, hz, map_redirect_eq_setSetName h]
  · rw [hz, map_redirect_eq h]

theorem relinked_getRightProjection (hi : curr.input.setName = n) (hp : curr.projection.setName = n)
    (hy : SameSets y) : (relinked curr y).getRightProjection =
      y.getRightProjection.map fun r => r.setSetName (redirect curr.getOutputName n r.setName) := by
  obtain ⟨z, -, hz, he⟩ := relinked_right hi hp y
  rw [he, ← hy.right]
  split_ifs with h
  · rw [getRightProjection_setRightNames, hz, map_redirect_eq_setSetName h]
  · rw [hz, map_redirect_eq h]

theorem inputNames_relinked (hi : curr.input.setName = n) (hp : curr.projection.setName = n) (y : AtomicComputation) :
    (relinked curr y).inputNames = y.inputNames.map (redirect curr.getOutputName n) := by
  rw [inputNames_eq, inputNames_eq, relinked_input hi, relinked_getRightInput hi hp, List.map_cons]
  cases y.getRightInput <;> rfl

theorem specs_relinked (hi : curr.input.setName = n) (hp : curr.projection.setName = n) (hy : SameSets y)
    (hs : s ∈ specs (relinked curr y)) (hx : x ∈ s.atts) :
    ∃ r ∈ specs y, x ∈ r.atts ∧ s.setName = redirect curr.getOutputName n r.setName := by
  simp only [specs, List.mem_append, List.mem_cons, List.not_mem_nil, or_false, Option.mem_toList] at hs ⊢
  obtain (rfl | rfl) | hs | hs := hs
  · rw [relinked_input hi] at hx ⊢
    exact ⟨y.input, by simp, hx, rfl⟩
  · rw [relinked_projection hp] at hx ⊢
    refine ⟨y.projection, by simp, hx, ?_⟩
    obtain he | ⟨-, he⟩ := hy.left
    · rw [he]
      rfl
    · simp [TupleSpec.setSetName, he] at hx
  · rw [relinked_getRightInput hi hp, Option.map_eq_some_iff] at hs
    obtain ⟨r, hr, rfl⟩ := hs
    exact ⟨r, by simp [hr], hx, rfl⟩
  · rw [relinked_getRightProjection hi hp hy, Option.map_eq_some_iff] at hs
    obtain ⟨r, hr, rfl⟩ := hs
    exact ⟨r, by simp [hr], hx, rfl⟩

theorem renamed_relinked (curr y : AtomicComputation) : Renamed y (relinked curr y) := by
  unfold relinked
  dsimp only
  split_ifs
  · exact (renamed_setInputNames _ _ y).trans (renamed_setRightNames _ _ _)
  · exact renamed_setInputNames _ _ y
  · exact renamed_setRightNames _ _ y
  · exact .refl y

theorem SameSets.relinked (hi : curr.input.setName = n) (hp : curr.projection.setName = n) (hy : SameSets y) :
    SameSets (relinked curr y) where
  left := by
    rw [relinked_input hi, relinked_projection hp]
    obtain he | ⟨htwo, he⟩ := hy.left
    · rw [he]
      exact .inl rfl
    · refine .inr ⟨?_, he⟩
      rw [AtomicComputation.hasTwoInputs, relinked_getRightInput hi hp, Option.isSome_map]
      exact htwo
  right := by
    rw [relinked_getRightInput hi hp, relinked_getRightProjection hi hp hy, Option.map_map, Option.map_map]
    change y.getRightProjection.map (redirect curr.getOutputName n ∘ TupleSpec.setName) =
      y.getRightInput.map (redirect curr.getOutputName n ∘ TupleSpec.setName)
    rw [← Option.map_map, hy.right, Option.map_map]

theorem relinked_of_not_mem (h : curr.getOutputName ∉ y.inputNames) : relinked curr y = y := by
  rw [inputNames_eq, List.mem_cons, not_or, Option.mem_toList] at h
  unfold relinked
  dsimp only
  rw [if_neg (Ne.symm h.1), if_neg h.2]

theorem relinked_relinked (hi : curr.input.setName = n) (hp : curr.projection.setName = n)
    (hn : n ≠ curr.getOutputName) (y : AtomicComputation) : relinked curr (relinked curr y) = relinked curr y := by
  apply relinked_of_not_mem
  rw [inputNames_relinked hi hp, List.mem_map]
  rintro ⟨t, -, ht⟩
  unfold redirect at ht
  split_ifs at ht with h
  · exact hn ht
  · exact h ht

theorem foldl_relinkConsumer (hi : curr.input.setName = n) (hp : curr.projection.setName = n)
    (hn : n ≠ curr.getOutputName) (cs : List ℕ) (objects : ℕ → AtomicComputation) (c : ℕ) :
    cs.foldl (relinkConsumer curr) objects c = if c ∈ cs then relinked curr (objects c) else objects c := by
  induction cs generalizing objects with
  | nil => simp
  | cons d cs ih =>
    rw [List.foldl_cons, ih]
    by_cases hd : c = d
    · subst hd
      simp [relinkConsumer, relinked_relinked hi hp hn]
    · simp [relinkConsumer, hd]

end Specifications

section Linking

variable {rank : Text → ℕ}

structure Linked (rank : Text → ℕ) (l : AtomicComputationList) : Prop where
  tables : TablesOn (fun t => ∃ c, l.producers t = some c) l
  acyclic : ∀ c, Produced l c → ∀ t ∈ names l c, t ≠ noInput → rank t < rank (l.outputName c)
  sameSets : ∀ c, Produced l c → SameSets (l.objects c)

theorem Linked.ne_noInput (h : Linked rank l) (hc : Produced l c) : l.outputName c ≠ noInput :=
  h.tables.ne_noInput (h.tables.produced hc)

theorem Linked.rank_lt (h : Linked rank l) (hc : Produced l c) (hd : Produced l d)
    (hm : l.outputName c ∈ names l d) : rank (l.outputName c) < rank (l.outputName d) :=
  h.acyclic d hd _ hm (h.ne_noInput hc)

theorem Linked.ne (h : Linked rank l) (hc : Produced l c) (hd : Produced l d) (hm : l.outputName c ∈ names l d) :
    c ≠ d := by
  rintro rfl
  exact lt_irrefl _ (h.rank_lt hc hc hm)

theorem Linked.mem_consumers (h : Linked rank l) (hc : Produced l c) :
    d ∈ l.consumers (l.outputName c) ↔ Produced l d ∧ l.outputName c ∈ names l d := by
  constructor
  · intro hm
    obtain ⟨hd, hcount⟩ := h.tables.listed _ d ⟨c, h.tables.produced hc⟩ hm
    refine ⟨hd, List.count_pos_iff.mp ?_⟩
    rw [← hcount]
    exact List.count_pos_iff.mpr hm
  · intro hd
    exact h.tables.complete _ d hd.1 hd.2 (h.ne_noInput hc)

theorem Linked.eq_of_sole (h : Linked rank l) (hc : Produced l c) {e : ℕ} (hn : l.consumers (l.outputName c) = [e])
    (hd : Produced l d) (hr : l.outputName c ∈ names l d) : d = e := by
  have hm := (h.mem_consumers hc).mpr ⟨hd, hr⟩
  rw [hn] at hm
  exact List.mem_singleton.mp hm

theorem Linked.congr (h : Linked rank l) (hs : SameTables l l')
    (hsame : ∀ c, Produced l c → SameSets (l'.objects c)) : Linked rank l' where
  tables := by
    rw [hs.producers]
    exact h.tables.congr hs
  acyclic c hc t ht hne := by
    rw [hs.names] at ht
    rw [hs.output]
    exact h.acyclic c (hs.produced_iff.mp hc) t ht hne
  sameSets c hc := hsame c (hs.produced_iff.mp hc)

structure Unlinked (l l' : AtomicComputationList) (currComp : ℕ) : Prop where
  objects : ∀ c, l'.objects c = if c ∈ l.consumers (l.outputName currComp) then
    relinked (l.objects currComp) (l.objects c) else l.objects c
  producers : ∀ t, l'.producers t = if t = l.outputName currComp then none else l.producers t
  consumers : ∀ t, t ≠ l.outputName currComp → l'.consumers t = if t = (l.objects currComp).input.setName then
    (l.consumers t).filter (· ≠ currComp) ++ l.consumers (l.outputName currComp) else l.consumers t
  allocated : l'.allocated = l.allocated

variable {currComp : ℕ}

theorem SameSets.setName_eq {y : AtomicComputation} (h : SameSets y) (hone : y.hasTwoInputs = false) :
    y.projection.setName = y.input.setName := by
  obtain he | ⟨htwo, -⟩ := h.left
  · exact he
  · rw [hone] at htwo
    cases htwo

theorem names_of_one (hone : (l.objects c).hasTwoInputs = false) : names l c = [(l.objects c).input.setName] := by
  have hnone : (l.objects c).getRightInput = none := by
    simpa [AtomicComputation.hasTwoInputs] using hone
  rw [names, inputNames_eq, hnone]
  rfl

theorem Linked.input_ne (h : Linked rank l) (hc : Produced l c) : (l.objects c).input.setName ≠ l.outputName c := by
  intro he
  apply h.ne hc hc _ rfl
  rw [← he, names, inputNames_eq]
  exact List.mem_cons_self

theorem Linked.removeAndRelink (h : Linked rank l) (hk : Produced l currComp)
    (hone : (l.objects currComp).hasTwoInputs = false)
    (he : removeAndRelink (l.outputName currComp) l = .ok l') : Unlinked l l' currComp := by
  have hsets := (h.sameSets currComp hk).setName_eq hone
  unfold ComputationTables.removeAndRelink at he
  rw [h.tables.produced hk] at he
  dsimp only at he
  rw [if_neg (by simp [hone])] at he
  cases he
  refine ⟨?_, ?_, ?_, rfl⟩
  · intro c
    exact foldl_relinkConsumer rfl hsets (h.input_ne hk) _ _ _
  · intro t
    by_cases ht : t = l.outputName currComp
    · simp [ht]
    · simp [ht]
  · intro t _
    by_cases ht : t = (l.objects currComp).input.setName
    · simp [ht]
    · simp [ht]

theorem foldl_relinkConsumer_kept {α : Type} (field : AtomicComputation → α) {curr : AtomicComputation}
    (hk : ∀ y, field (relinked curr y) = field y) (cs : List ℕ) (objects : ℕ → AtomicComputation) (c : ℕ) :
    field (cs.foldl (relinkConsumer curr) objects c) = field (objects c) := by
  induction cs generalizing objects with
  | nil => rfl
  | cons d cs ih =>
    rw [List.foldl_cons, ih]
    by_cases hd : c = d
    · subst hd
      simp [relinkConsumer, hk]
    · simp [relinkConsumer, hd]

theorem removeAndRelink_eq_ok (hk : l.producers k = some currComp) (hn : (l.objects currComp).input.setName ≠ k)
    (he : removeAndRelink k l = .ok l') :
    ((l.objects currComp).hasTwoInputs = false ∨ l.consumers k = []) ∧ l'.consumers k = l.consumers k ∧
      ∀ c, l'.outputName c = l.outputName c := by
  unfold ComputationTables.removeAndRelink at he
  rw [hk] at he
  dsimp only at he
  split_ifs at he with htwo
  cases he
  refine ⟨?_, Function.update_of_ne hn.symm _ _, ?_⟩
  · rw [not_and_or, Bool.not_eq_true, not_not] at htwo
    exact htwo
  · intro c
    have ho := fun y => (renamed_relinked (l.objects currComp) y).output
    exact congrArg TupleSpec.setName (foldl_relinkConsumer_kept AtomicComputation.output ho _ _ c)

theorem Unlinked.produced_iff (hu : Unlinked l l' currComp) (h : Linked rank l) (hk : Produced l currComp) :
    Produced l' c ↔ Produced l c ∧ c ≠ currComp := by
  constructor
  · rintro ⟨t, ht⟩
    rw [hu.producers] at ht
    split_ifs at ht with htk
    refine ⟨⟨t, ht⟩, ?_⟩
    rintro rfl
    exact htk (h.tables.output t c ht).symm
  · rintro ⟨hc, hne⟩
    refine ⟨l.outputName c, ?_⟩
    rw [hu.producers, if_neg]
    · exact h.tables.produced hc
    · intro he
      exact hne (h.tables.eq_of_outputName hc hk he)

theorem Unlinked.renamed (hu : Unlinked l l' currComp) (c : ℕ) : Renamed (l.objects c) (l'.objects c) := by
  rw [hu.objects]
  split_ifs
  · exact renamed_relinked _ _
  · exact .refl _

theorem Unlinked.outputName (hu : Unlinked l l' currComp) (c : ℕ) : l'.outputName c = l.outputName c := by
  unfold AtomicComputationList.outputName AtomicComputation.getOutputName
  rw [(hu.renamed c).output]

theorem Unlinked.objects_eq (hu : Unlinked l l' currComp) (h : Linked rank l) (hk : Produced l currComp)
    (hc : Produced l c) : l'.objects c = relinked (l.objects currComp) (l.objects c) := by
  rw [hu.objects]
  split_ifs with hm
  · rfl
  · rw [h.mem_consumers hk, not_and] at hm
    exact (relinked_of_not_mem (hm hc)).symm

theorem Unlinked.names (hu : Unlinked l l' currComp) (h : Linked rank l) (hk : Produced l currComp)
    (hone : (l.objects currComp).hasTwoInputs = false) (hc : Produced l c) : names l' c =
    (names l c).map (redirect (l.outputName currComp) (l.objects currComp).input.setName) := by
  rw [PlanTransformer.names, hu.objects_eq h hk hc]
  exact inputNames_relinked rfl ((h.sameSets currComp hk).setName_eq hone) _

theorem count_map_redirect (hne : n ≠ k) (ts : List Text) (t : Text) :
    (ts.map (redirect k n)).count t = if t = k then 0 else ts.count t + if t = n then ts.count k else 0 := by
  induction ts with
  | nil => simp
  | cons a ts ih =>
    rw [List.map_cons, List.count_cons, ih, List.count_cons, List.count_cons]
    unfold redirect
    by_cases hak : a = k
    · subst hak
      by_cases hta : t = a
      · simp [hta, hne]
      · by_cases htn : t = n
        · simp [htn, hne, Ne.symm hne]
          omega
        · simp [hta, htn, Ne.symm hta, Ne.symm htn]
    · by_cases htk : t = k
      · simp [htk, hak]
      · by_cases htn : t = n
        · simp [hak, htn, hne]
          omega
        · simp [hak, htk, htn]

theorem Linked.count_consumers (h : Linked rank l) (hc : Produced l c) (hd : Produced l d) :
    (l.consumers (l.outputName c)).count d = (names l d).count (l.outputName c) := by
  by_cases hm : d ∈ l.consumers (l.outputName c)
  · exact (h.tables.listed _ d ⟨c, h.tables.produced hc⟩ hm).2
  · have hno : l.outputName c ∉ names l d := fun hr => hm ((h.mem_consumers hc).mpr ⟨hd, hr⟩)
    rw [List.count_eq_zero.mpr hm, List.count_eq_zero.mpr hno]

theorem Linked.removed (h : Linked rank l) (hk : Produced l currComp)
    (hone : (l.objects currComp).hasTwoInputs = false) (hu : Unlinked l l' currComp) : Linked rank l' := by
  let n := (l.objects currComp).input.setName
  have hn : names l currComp = [n] := names_of_one hone
  have hnk : n ≠ l.outputName currComp := h.input_ne hk
  have hproduced : ∀ c, Produced l' c ↔ Produced l c ∧ c ≠ currComp := fun c => hu.produced_iff h hk
  have hnames : ∀ c, Produced l c → ∀ t, (names l' c).count t = if t = l.outputName currComp then 0
      else (names l c).count t + if t = n then (names l c).count (l.outputName currComp) else 0 := by
    intro c hc t
    rw [hu.names h hk hone hc]
    exact count_map_redirect hnk _ _
  have hmem : ∀ c t, Produced l c → t ∈ names l' c →
      t ∈ names l c ∧ t ≠ l.outputName currComp ∨ t = n ∧ l.outputName currComp ∈ names l c := by
    intro c t hc ht
    rw [hu.names h hk hone hc, List.mem_map] at ht
    obtain ⟨r, hr, hrt⟩ := ht
    unfold redirect at hrt
    split_ifs at hrt with hrk
    · exact .inr ⟨hrt.symm, hrk ▸ hr⟩
    · exact .inl ⟨hrt ▸ hr, hrt ▸ hrk⟩
  constructor
  · refine { output := ?_, listed := ?_, complete := ?_, inputs := ?_, allocated := ?_, reserved := ?_, scans := ?_ }
    · intro t c ht
      rw [hu.producers] at ht
      split_ifs at ht
      rw [hu.outputName]
      exact h.tables.output t c ht
    · rintro t c ⟨p, hp⟩ hm
      rw [hu.producers] at hp
      split_ifs at hp with htk
      have hpt := h.tables.output t p hp
      have hcount : ∀ d, Produced l d → (l.consumers t).count d = (names l d).count t := by
        intro d hd
        rw [← hpt]
        exact h.count_consumers ⟨t, hp⟩ hd
      have hc : Produced l c ∧ c ≠ currComp := by
        rw [hu.consumers t htk] at hm
        split_ifs at hm with htn
        · obtain hm | hm := List.mem_append.mp hm
          · rw [List.mem_filter] at hm
            exact ⟨(h.tables.listed t c ⟨p, hp⟩ hm.1).1, by simpa using hm.2⟩
          · obtain ⟨hc, hr⟩ := (h.mem_consumers hk).mp hm
            exact ⟨hc, (h.ne hk hc hr).symm⟩
        · refine ⟨(h.tables.listed t c ⟨p, hp⟩ hm).1, ?_⟩
          rintro rfl
          have hpos := List.count_pos_iff.mpr hm
          rw [hcount c hk, hn] at hpos
          exact htn (List.mem_singleton.mp (List.count_pos_iff.mp hpos))
      refine ⟨(hproduced c).mpr hc, ?_⟩
      rw [hnames c hc.1, if_neg htk, hu.consumers t htk]
      split_ifs with htn
      · rw [List.count_append, List.count_filter (by simpa using hc.2), hcount c hc.1, h.count_consumers hk hc.1]
      · rw [hcount c hc.1, Nat.add_zero]
    · intro t c hc ht hne
      rw [hproduced] at hc
      obtain ⟨hr, htk⟩ | ⟨rfl, hr⟩ := hmem c t hc.1 ht
      · rw [hu.consumers t htk]
        have hin := h.tables.complete t c hc.1 hr hne
        split_ifs
        · exact List.mem_append_left _ (List.mem_filter.mpr ⟨hin, by simpa using hc.2⟩)
        · exact hin
      · rw [hu.consumers n hnk, if_pos rfl]
        exact List.mem_append_right _ ((h.mem_consumers hk).mpr ⟨hc.1, hr⟩)
    · intro t c hc ht hne
      rw [hproduced] at hc
      rw [hu.producers]
      obtain ⟨hr, htk⟩ | ⟨rfl, hr⟩ := hmem c t hc.1 ht
      · rw [if_neg htk]
        exact h.tables.inputs t c hc.1 hr hne
      · rw [if_neg hnk]
        exact h.tables.inputs n currComp hk (by rw [hn]; exact List.mem_singleton_self n) hne
    · intro c hc
      rw [hu.allocated]
      exact h.tables.allocated c ((hproduced c).mp hc).1
    · rw [hu.producers]
      split_ifs
      · rfl
      · exact h.tables.reserved
    · intro c hc hs
      obtain ⟨hc, -⟩ := (hproduced c).mp hc
      rw [(hu.renamed c).role] at hs
      rw [hu.names h hk hone hc, h.tables.scans c hc hs, List.map_singleton, redirect_of_ne (h.ne_noInput hk).symm]
  · intro c hc t ht hne
    obtain ⟨hc, -⟩ := (hproduced c).mp hc
    rw [hu.outputName]
    obtain ⟨hr, -⟩ | ⟨rfl, hr⟩ := hmem c t hc ht
    · exact h.acyclic c hc t hr hne
    · apply lt_trans (h.acyclic currComp hk n (by rw [hn]; exact List.mem_singleton_self n) hne)
      exact h.rank_lt hk hc hr
  · intro c hc
    obtain ⟨hc, -⟩ := (hproduced c).mp hc
    rw [hu.objects_eq h hk hc]
    exact (h.sameSets c hc).relinked rfl ((h.sameSets currComp hk).setName_eq hone)

end Linking

section Flow

variable {rank : Text → ℕ} {generated : ℕ → List Text} {excused excused' : ℕ → Text → Text → Prop}

def Found (l : AtomicComputationList) (t x : Text) : Prop := ∃ p, l.producers t = some p ∧ x ∈ (l.objects p).output.atts

def OwnOutput (generated : List Text) (c : AtomicComputation) : Prop :=
  c.role ≠ .scan → ∀ x ∈ c.output.atts, x ∈ joined c ∨ x ∈ generated

structure Flow (rank : Text → ℕ) (generated : ℕ → List Text) (excused : ℕ → Text → Text → Prop)
    (l : AtomicComputationList) : Prop extends Linked rank l where
  own : ∀ c, Produced l c → OwnOutput (generated c) (l.objects c)
  supplied : ∀ c, Produced l c → ∀ s ∈ specs (l.objects c), ∀ x ∈ s.atts,
    Found l s.setName x ∨ excused c s.setName x

theorem Flow.mono (h : Flow rank generated excused l)
    (he : ∀ c, Produced l c → ∀ t ∈ names l c, ∀ x, excused c t x → Found l t x ∨ excused' c t x) :
    Flow rank generated excused' l where
  toLinked := h.toLinked
  own := h.own
  supplied := by
    intro c hc s hs x hx
    obtain hf | hx' := h.supplied c hc s hs x hx
    · exact .inl hf
    · exact he c hc _ (setName_mem_inputNames (h.sameSets c hc) hs hx) x hx'

theorem Flow.modify {f : AtomicComputation → AtomicComputation} (h : Flow rank generated excused l)
    (hd : Produced l d) (hs : SameTables l (l.modify d f)) (hsame : SameSets (f (l.objects d)))
    (hown : OwnOutput (generated d) (f (l.objects d)))
    (hsupplied : ∀ s ∈ specs (f (l.objects d)), ∀ x ∈ s.atts, Found l s.setName x ∨ excused' d s.setName x)
    (hrest : ∀ c ≠ d, Produced l c → ∀ t ∈ names l c, ∀ x, excused c t x → excused' c t x)
    (hread : ∀ c ≠ d, Produced l c → l.outputName d ∈ names l c → ∀ x ∈ (l.objects d).output.atts,
      x ∈ (f (l.objects d)).output.atts ∨ excused' c (l.outputName d) x) :
    Flow rank generated excused' (l.modify d f) := by
  have hobj : (l.modify d f).objects d = f (l.objects d) := Function.update_self _ _ _
  have hother : ∀ c ≠ d, (l.modify d f).objects c = l.objects c := fun c hc => Function.update_of_ne hc _ _
  have hlinked : Linked rank (l.modify d f) := by
    refine h.toLinked.congr hs fun c hc => ?_
    by_cases hcd : c = d
    · rw [hcd, hobj]
      exact hsame
    · rw [hother c hcd]
      exact h.sameSets c hc
  have hfound : ∀ c, Produced l c → ∀ t ∈ names l c, ∀ x, Found l t x → Found (l.modify d f) t x ∨
      c ≠ d ∧ t = l.outputName d ∧ x ∈ (l.objects d).output.atts := by
    rintro c hc t ht x ⟨p, hp, hx⟩
    by_cases hpd : p = d
    · subst hpd
      have htp : l.outputName p = t := h.tables.output t p hp
      exact .inr ⟨(h.ne hd hc (htp ▸ ht)).symm, htp.symm, hx⟩
    · exact .inl ⟨p, hp, by rw [hother p hpd]; exact hx⟩
  refine { toLinked := hlinked, own := ?_, supplied := ?_ }
  · intro c hc
    by_cases hcd : c = d
    · rw [hcd, hobj]
      exact hown
    · rw [hother c hcd]
      exact h.own c hc
  · intro c hc s hsp x hx
    have hc' : Produced l c := hc
    have hread' : s.setName ∈ names l c := by
      rw [← hs.names]
      exact setName_mem_inputNames (hlinked.sameSets c hc) hsp hx
    by_cases hcd : c = d
    · subst hcd
      rw [hobj] at hsp
      obtain hf | he := hsupplied s hsp x hx
      · obtain hf | ⟨hne, -⟩ := hfound c hc' _ hread' x hf
        · exact .inl hf
        · exact absurd rfl hne
      · exact .inr he
    · rw [hother c hcd] at hsp
      obtain hf | he := h.supplied c hc' s hsp x hx
      · obtain hf | ⟨-, ht, hxd⟩ := hfound c hc' _ hread' x hf
        · exact .inl hf
        · rw [ht] at hread' ⊢
          obtain hnew | he := hread c hcd hc' hread' x hxd
          · exact .inl ⟨d, h.tables.produced hd, by rw [hobj]; exact hnew⟩
          · exact .inr he
      · exact .inr (hrest c hcd hc' _ hread' x he)

theorem Flow.removed (h : Flow rank generated excused l) (hd : Produced l d)
    (hone : (l.objects d).hasTwoInputs = false) (hu : Unlinked l l' d)
    (hrest : ∀ c ≠ d, Produced l c → ∀ t ∈ names l c, ∀ x, excused c t x →
      excused' c (redirect (l.outputName d) (l.objects d).input.setName t) x)
    (hread : ∀ c ≠ d, Produced l c → l.outputName d ∈ names l c → ∀ x ∈ (l.objects d).output.atts,
      excused' c (l.objects d).input.setName x) : Flow rank generated excused' l' := by
  have hsets := (h.sameSets d hd).setName_eq hone
  refine { toLinked := h.toLinked.removed hd hone hu, own := ?_, supplied := ?_ }
  · intro c hc
    obtain ⟨hc, -⟩ := (hu.produced_iff h.toLinked hd).mp hc
    have hr := hu.renamed c
    unfold OwnOutput joined
    rw [hr.role, hr.output, hr.projectionAtts, hr.rightProjectionAtts]
    exact h.own c hc
  · intro c hc s hs x hx
    obtain ⟨hc, hne⟩ := (hu.produced_iff h.toLinked hd).mp hc
    rw [hu.objects_eq h.toLinked hd hc] at hs
    obtain ⟨r, hr, hxr, hname⟩ := specs_relinked rfl hsets (h.sameSets c hc) hs hx
    change s.setName = redirect (l.outputName d) (l.objects d).input.setName r.setName at hname
    have hread' := setName_mem_inputNames (h.sameSets c hc) hr hxr
    rw [hname]
    obtain ⟨p, hp, hxp⟩ | he := h.supplied c hc r hr x hxr
    · by_cases hrd : r.setName = l.outputName d
      · rw [hrd, h.tables.produced hd] at hp
        cases hp
        rw [hrd] at hread' ⊢
        rw [redirect, if_pos rfl]
        exact .inr (hread c hne hc hread' x hxp)
      · refine .inl ⟨p, ?_, by rw [(hu.renamed p).output]; exact hxp⟩
        rw [redirect_of_ne hrd, hu.producers, if_neg hrd]
        exact hp
    · exact .inr (hrest c hne hc _ hread' x he)

end Flow

end PlinyCompute.PlanTransformer
