import PlinyCompute.PlanRuns

namespace PlinyCompute.AttributeSources

open LogicalPlan Transition ComputationTables PlanTransformer

section Model

inductive Stop
  -- a call of `exit`
  | exit
  -- a null pointer, or an index outside a list of attributes
  | undefined
  -- the recursion goes deeper than it is given
  | endless
  deriving DecidableEq

abbrev Source := Text × Text

def findPosInOutputAtts (c : AtomicComputation) (findMe : Text) : Except Stop ℕ :=
  if findMe ∈ c.output.atts then .ok (c.output.atts.idxOf findMe) else .error .exit

variable (allComps : AtomicComputationList) (find : AtomicComputation → Text → Except Stop Source)

def askParent (projection : TupleSpec) (counter : ℕ) : Except Stop Source :=
  match allComps.producers projection.setName, projection.atts[counter]? with
  | some parent, some att => find (allComps.objects parent) att
  | _, _ => .error .undefined

def findBehindProjection (own : Except Stop Source) (c : AtomicComputation) (attName : Text) : Except Stop Source := do
  let counter ← findPosInOutputAtts c attName
  if counter + 1 = c.output.atts.length then own else askParent allComps find c.projection counter

def findInProjection (c : AtomicComputation) (attName : Text) : Except Stop Source := do
  let counter ← findPosInOutputAtts c attName
  askParent allComps find c.projection counter

def findSingle (c : AtomicComputation) (attName : Text) : Except Stop Source := do
  let counter ← findPosInOutputAtts c attName
  if counter = 0 then .ok (c.computationName, []) else .error .exit

def ApplyLambda.findSource (lambdaName : Text) (c : AtomicComputation) (attName : Text) : Except Stop Source :=
  findBehindProjection allComps find (.ok (c.computationName, lambdaName)) c attName

def HashLeft.findSource (c : AtomicComputation) (attName : Text) : Except Stop Source :=
  findBehindProjection allComps find (.error .exit) c attName

def HashRight.findSource (c : AtomicComputation) (attName : Text) : Except Stop Source :=
  findBehindProjection allComps find (.error .exit) c attName

def HashOne.findSource (c : AtomicComputation) (attName : Text) : Except Stop Source :=
  findInProjection allComps find c attName

def Flatten.findSource (c : AtomicComputation) (attName : Text) : Except Stop Source :=
  findBehindProjection allComps find (.ok (c.computationName, [])) c attName

def Union.findSource (c : AtomicComputation) (attName : Text) : Except Stop Source := findSingle c attName

def ApplyFilter.findSource (c : AtomicComputation) (attName : Text) : Except Stop Source :=
  findInProjection allComps find c attName

def ApplyAgg.findSource (c : AtomicComputation) (attName : Text) : Except Stop Source := findSingle c attName

def ScanSet.findSource (c : AtomicComputation) (attName : Text) : Except Stop Source := findSingle c attName

def WriteSet.findSource (_ : AtomicComputation) (_ : Text) : Except Stop Source := .error .exit

def ApplyJoin.findSource (rightProjection : TupleSpec) (c : AtomicComputation) (attName : Text) :
    Except Stop Source := do
  let counter ← findPosInOutputAtts c attName
  if counter < c.projection.atts.length then askParent allComps find c.projection counter
  else if counter < c.projection.atts.length + rightProjection.atts.length then
    askParent allComps find rightProjection (counter - c.projection.atts.length)
  else .error .exit

end Model

def findSource (allComps : AtomicComputationList) : ℕ → AtomicComputation → Text → Except Stop Source
  | 0, _, _ => .error .endless
  | fuel + 1, c, attName =>
    let find := findSource allComps fuel
    match c.kind with
    | .applyLambda lambdaName => ApplyLambda.findSource allComps find lambdaName c attName
    | .hashLeft _ => HashLeft.findSource allComps find c attName
    | .hashRight _ => HashRight.findSource allComps find c attName
    | .hashOne => HashOne.findSource allComps find c attName
    | .flatten => Flatten.findSource allComps find c attName
    | .union _ => Union.findSource c attName
    | .applyFilter => ApplyFilter.findSource allComps find c attName
    | .applyAgg => ApplyAgg.findSource c attName
    | .scanSet _ _ => ScanSet.findSource c attName
    | .writeSet _ _ => WriteSet.findSource c attName
    | .applyJoin _ rightProjection => ApplyJoin.findSource allComps find rightProjection c attName

section Origins

def columns (s : TupleSpec) : List (Text × Text) := s.atts.map fun att => (s.setName, att)

def carried (c : AtomicComputation) : List (Text × Text) :=
  match c.kind with
  | .applyLambda _ => columns c.projection
  | .hashLeft _ => columns c.projection
  | .hashRight _ => columns c.projection
  | .hashOne => columns c.projection
  | .flatten => columns c.projection
  | .applyFilter => columns c.projection
  | .applyJoin _ rightProjection => columns c.projection ++ columns rightProjection
  | .union _ => []
  | .applyAgg => []
  | .scanSet _ _ => []
  | .writeSet _ _ => []

def generates (c : AtomicComputation) : Bool :=
  match c.kind with
  | .applyFilter => false
  | .applyJoin _ _ => false
  | .writeSet _ _ => false
  | _ => true

structure Columns (plan : List AtomicComputation) : Prop where
  outputs : (plan.map AtomicComputation.getOutputName).Nodup
  shape : ∀ c ∈ plan, c.output.atts.length = (carried c).length + if generates c then 1 else 0
  supplied : ∀ c ∈ plan, ∀ q ∈ carried c, ∃ p ∈ plan, p.getOutputName = q.1 ∧ q.2 ∈ p.output.atts
  acyclic : ∃ rank : Text → ℕ, ∀ c ∈ plan, ∀ q ∈ carried c, rank q.1 < rank c.getOutputName

inductive Origin (l : AtomicComputationList) : AtomicComputation → ℕ → AtomicComputation → Prop
  | here {c : AtomicComputation} : generates c = true → Origin l c (carried c).length c
  | before {c d : AtomicComputation} {i p : ℕ} {t att : Text} : (carried c)[i]? = some (t, att) →
      l.producers t = some p → Origin l (l.objects p) ((l.objects p).output.atts.idxOf att) d → Origin l c i d

def source (d : AtomicComputation) : Except Stop Source :=
  match d.kind with
  | .applyLambda lambdaName => .ok (d.computationName, lambdaName)
  | .hashLeft _ => .error .exit
  | .hashRight _ => .error .exit
  | .hashOne => .error .exit
  | _ => .ok (d.computationName, [])

def FindsSource (l : AtomicComputationList) (c : AtomicComputation) (attName : Text) : Prop :=
  ∃ d, (∀ d', Origin l c (c.output.atts.idxOf attName) d' ↔ d' = d) ∧
    ∃ n, ∀ fuel, n ≤ fuel → findSource l fuel c attName = source d

def reported (d : AtomicComputation) : Except Stop Source :=
  if d.kind = .hashOne then .error .undefined else source d

variable {l : AtomicComputationList} {c d : AtomicComputation} {a t att : Text} {fuel i p : ℕ}

theorem findPosInOutputAtts_ok (ha : a ∈ c.output.atts) :
    findPosInOutputAtts c a = .ok (c.output.atts.idxOf a) := if_pos ha

theorem columns_getElem? {s : TupleSpec} (h : (columns s)[i]? = some (t, att)) :
    s.setName = t ∧ s.atts[i]? = some att := by
  unfold columns at h
  rw [List.getElem?_map, Option.map_eq_some_iff] at h
  obtain ⟨b, hb, he⟩ := h
  cases he
  exact ⟨rfl, hb⟩

@[simp] theorem length_columns (s : TupleSpec) : (columns s).length = s.atts.length := List.length_map _

theorem askParent_columns {find : AtomicComputation → Text → Except Stop Source} {s : TupleSpec}
    (h : (columns s)[i]? = some (t, att)) (hp : l.producers t = some p) :
    askParent l find s i = find (l.objects p) att := by
  obtain ⟨rfl, hatt⟩ := columns_getElem? h
  unfold askParent
  rw [hp, hatt]

theorem findSource_carried (hshape : c.output.atts.length = (carried c).length + if generates c then 1 else 0)
    (ha : a ∈ c.output.atts) (hq : (carried c)[c.output.atts.idxOf a]? = some (t, att))
    (hp : l.producers t = some p) : findSource l (fuel + 1) c a = findSource l fuel (l.objects p) att := by
  have hlt : c.output.atts.idxOf a < (carried c).length := (List.getElem?_eq_some_iff.mp hq).1
  have hbehind : ∀ own : Except Stop Source, carried c = columns c.projection → generates c = true →
      findBehindProjection l (findSource l fuel) own c a = findSource l fuel (l.objects p) att := by
    intro own hc hg
    unfold findBehindProjection
    rw [findPosInOutputAtts_ok ha, ok_bind, if_neg, askParent_columns (hc ▸ hq) hp]
    rw [hg, if_pos rfl] at hshape
    omega
  have hin : carried c = columns c.projection →
      findInProjection l (findSource l fuel) c a = findSource l fuel (l.objects p) att := by
    intro hc
    unfold findInProjection
    rw [findPosInOutputAtts_ok ha, ok_bind, askParent_columns (hc ▸ hq) hp]
  have hnone : carried c ≠ [] := by
    intro hc
    rw [hc] at hlt
    exact Nat.not_lt_zero _ hlt
  rw [findSource]
  cases hk : c.kind with
  | applyLambda lambdaName => exact hbehind _ (by simp [carried, hk]) (by simp [generates, hk])
  | hashLeft lambdaName => exact hbehind _ (by simp [carried, hk]) (by simp [generates, hk])
  | hashRight lambdaName => exact hbehind _ (by simp [carried, hk]) (by simp [generates, hk])
  | flatten => exact hbehind _ (by simp [carried, hk]) (by simp [generates, hk])
  | hashOne => exact hin (by simp [carried, hk])
  | applyFilter => exact hin (by simp [carried, hk])
  | union rightInput => exact absurd (by simp [carried, hk]) hnone
  | applyAgg => exact absurd (by simp [carried, hk]) hnone
  | scanSet s q => exact absurd (by simp [carried, hk]) hnone
  | writeSet s q => exact absurd (by simp [carried, hk]) hnone
  | applyJoin rightInput rightProjection =>
    have hc : carried c = columns c.projection ++ columns rightProjection := by simp [carried, hk]
    rw [hc] at hq hlt
    dsimp only
    unfold ApplyJoin.findSource
    rw [findPosInOutputAtts_ok ha, ok_bind]
    by_cases hleft : c.output.atts.idxOf a < c.projection.atts.length
    · rw [List.getElem?_append_left (by simpa using hleft)] at hq
      rw [if_pos hleft, askParent_columns hq hp]
    · rw [List.getElem?_append_right (by simpa using hleft), length_columns] at hq
      rw [List.length_append, length_columns, length_columns] at hlt
      rw [if_neg hleft, if_pos hlt, askParent_columns hq hp]

theorem generates_of_idxOf (hshape : c.output.atts.length = (carried c).length + if generates c then 1 else 0)
    (ha : a ∈ c.output.atts) (hi : c.output.atts.idxOf a = (carried c).length) : generates c = true := by
  have hlt : c.output.atts.idxOf a < c.output.atts.length := List.idxOf_lt_length_iff.mpr ha
  by_contra hg
  rw [if_neg hg] at hshape
  omega

theorem findSource_generated (hshape : c.output.atts.length = (carried c).length + if generates c then 1 else 0)
    (ha : a ∈ c.output.atts) (hi : c.output.atts.idxOf a = (carried c).length) :
    findSource l (fuel + 1) c a = reported c := by
  have hgen := generates_of_idxOf hshape ha hi
  rw [hgen, if_pos rfl] at hshape
  have hbehind : ∀ own : Except Stop Source, findBehindProjection l (findSource l fuel) own c a = own := by
    intro own
    unfold findBehindProjection
    rw [findPosInOutputAtts_ok ha, ok_bind, if_pos (by omega)]
  have hsingle : carried c = [] → findSingle c a = .ok (c.computationName, []) := by
    intro hc
    unfold findSingle
    rw [findPosInOutputAtts_ok ha, ok_bind, if_pos (by rw [hi, hc]; rfl)]
  rw [findSource, reported, source]
  cases hk : c.kind with
  | applyLambda lambdaName => exact hbehind _
  | hashLeft lambdaName => exact hbehind _
  | hashRight lambdaName => exact hbehind _
  | flatten => exact hbehind _
  | union rightInput => exact hsingle (by simp [carried, hk])
  | applyAgg => exact hsingle (by simp [carried, hk])
  | scanSet s q => exact hsingle (by simp [carried, hk])
  | applyFilter => simp [generates, hk] at hgen
  | writeSet s q => simp [generates, hk] at hgen
  | applyJoin rightInput rightProjection => simp [generates, hk] at hgen
  | hashOne =>
    have hc : carried c = columns c.projection := by simp [carried, hk]
    rw [hc, length_columns] at hi
    dsimp only
    unfold HashOne.findSource findInProjection
    rw [findPosInOutputAtts_ok ha, ok_bind, hi, askParent, List.getElem?_eq_none le_rfl]
    cases l.producers c.projection.setName <;> rfl

theorem Origin.eq_of_here (h : Origin l c (carried c).length d) : d = c := by
  cases h with
  | here _ => rfl
  | before hq _ _ =>
    rw [List.getElem?_eq_none le_rfl] at hq
    cases hq

theorem origin_before_iff (hq : (carried c)[i]? = some (t, att)) (hp : l.producers t = some p) :
    Origin l c i d ↔ Origin l (l.objects p) ((l.objects p).output.atts.idxOf att) d := by
  constructor
  · intro h
    cases h with
    | here _ =>
      rw [List.getElem?_eq_none le_rfl] at hq
      cases hq
    | before hq' hp' h =>
      cases hq.symm.trans hq'
      cases hp.symm.trans hp'
      exact h
  · exact .before hq hp

theorem Columns.parent {plan : List AtomicComputation} (h : Columns plan) (hc : c ∈ plan)
    (hq : (carried c)[i]? = some (t, att)) : ∃ p, (build plan).producers t = some p ∧
      (build plan).objects p ∈ plan ∧ ((build plan).objects p).getOutputName = t ∧
      att ∈ ((build plan).objects p).output.atts := by
  have ha := added_build plan
  obtain ⟨x, hx, hxt, hatt⟩ := h.supplied c hc (t, att) (List.mem_of_getElem? hq)
  obtain ⟨p, hp⟩ := ha.produced t (List.mem_map.mpr ⟨x, hx, hxt⟩)
  obtain ⟨y, hy, hyt⟩ := ha.producers t p hp
  have hyx : y = x := List.inj_on_of_nodup_map h.outputs (List.mem_of_getElem? hy) hx (hyt.trans hxt.symm)
  have hobj := ha.objects p y hy
  refine ⟨p, hp, ?_⟩
  rw [hobj, hyx]
  exact ⟨hx, hxt, hatt⟩

theorem Columns.reported {plan : List AtomicComputation} (h : Columns plan) (hc : c ∈ plan)
    (ha : a ∈ c.output.atts) : ∃ d, (∀ d', Origin (build plan) c (c.output.atts.idxOf a) d' ↔ d' = d) ∧
      ∃ n, ∀ fuel, n ≤ fuel → findSource (build plan) fuel c a = reported d := by
  obtain ⟨rank, hrank⟩ := h.acyclic
  induction hr : rank c.getOutputName using Nat.strong_induction_on generalizing c a with
  | _ r ih =>
    have hshape := h.shape c hc
    have hlt : c.output.atts.idxOf a < c.output.atts.length := List.idxOf_lt_length_iff.mpr ha
    cases hq : (carried c)[c.output.atts.idxOf a]? with
    | some q =>
      obtain ⟨t, att⟩ := q
      obtain ⟨p, hp, hmem, hname, hatt⟩ := h.parent hc hq
      have hless := hrank c hc (t, att) (List.mem_of_getElem? hq)
      obtain ⟨d, hd, n, hn⟩ := ih _ (by rw [hname, ← hr]; exact hless) hmem hatt rfl
      refine ⟨d, fun d' => (origin_before_iff hq hp).trans (hd d'), n + 1, fun fuel hf => ?_⟩
      obtain ⟨fuel, rfl⟩ : ∃ m, fuel = m + 1 := ⟨fuel - 1, by omega⟩
      rw [findSource_carried hshape ha hq hp]
      exact hn fuel (by omega)
    | none =>
      have hle := List.getElem?_eq_none_iff.mp hq
      have hi : c.output.atts.idxOf a = (carried c).length := by
        split_ifs at hshape <;> omega
      refine ⟨c, fun d' => ?_, 1, fun fuel hf => ?_⟩
      · rw [hi]
        constructor
        · exact Origin.eq_of_here
        · rintro rfl
          exact .here (generates_of_idxOf hshape ha hi)
      · obtain ⟨fuel, rfl⟩ : ∃ m, fuel = m + 1 := ⟨fuel - 1, by omega⟩
        exact findSource_generated hshape ha hi

theorem findsSource_iff (plan : List AtomicComputation) (h : Columns plan) (c : AtomicComputation) (hc : c ∈ plan)
    (a : Text) (ha : a ∈ c.output.atts) : FindsSource (build plan) c a ↔
      ∀ d, Origin (build plan) c (c.output.atts.idxOf a) d → d.kind ≠ .hashOne := by
  obtain ⟨d, hd, n, hn⟩ := h.reported hc ha
  constructor
  · rintro ⟨e, he, m, hm⟩ d' hd' hk
    rw [he] at hd'
    subst hd'
    have hed : d' = d := (hd d').mp ((he d').mpr rfl)
    subst hed
    have hfind := hm (n + m) (by omega)
    rw [hn (n + m) (by omega), reported, if_pos hk, source, hk] at hfind
    cases hfind
  · intro hk
    refine ⟨d, hd, n, fun fuel hf => ?_⟩
    rw [hn fuel hf, reported, if_neg (hk d ((hd d).mpr rfl))]

def onePlan : List AtomicComputation :=
  [scanOf (spec "A" ["a"]) "Scan_0",
    computation (spec "A" ["a"]) (spec "B" ["b", "one"]) (spec "A" ["a"]) "Join_1" .hashOne,
    computation (spec "B" ["b"]) (spec "C" ["c"]) (spec "B" ["b"]) "Select_2" .applyFilter]

theorem columns_onePlan : Columns onePlan where
  outputs := by decide
  shape := by decide
  supplied := by decide
  acyclic := ⟨fun t => (onePlan.map AtomicComputation.getOutputName).idxOf t, by decide⟩

theorem findsSource_onePlan :
    FindsSource (build onePlan) (onePlan.getD 2 default) "c".toList ↔
      ∀ d, Origin (build onePlan) (onePlan.getD 2 default)
        ((onePlan.getD 2 default).output.atts.idxOf "c".toList) d → d.kind ≠ .hashOne :=
  findsSource_iff onePlan columns_onePlan _ (by decide) _ (by decide)

theorem not_findsSource_one : ¬ ∀ plan, Columns plan → ∀ c ∈ plan, ∀ a ∈ c.output.atts,
    FindsSource (build plan) c a := by
  intro h
  obtain ⟨d, -, n, hn⟩ := h onePlan columns_onePlan (onePlan.getD 1 default) (by decide) "one".toList (by decide)
  have hone := hn (n + 1) (by omega)
  have hrun : findSource (build onePlan) (n + 1) (onePlan.getD 1 default) "one".toList = .error .undefined := rfl
  rw [hrun, source] at hone
  split at hone <;> cases hone

end Origins

end PlinyCompute.AttributeSources
