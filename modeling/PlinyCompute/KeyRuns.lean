import PlinyCompute.KeyAggregations

namespace PlinyCompute.PlanTransformer

open LogicalPlan Transition ComputationTables

variable {l l' : AtomicComputationList} {t n x : Text} {c d : ℕ}

structure Attributed (plan : List AtomicComputation) : Prop extends Addable plan where
  acyclic : ∃ rank : Text → ℕ, ∀ c ∈ plan, ∀ t ∈ c.inputNames, t ≠ noInput → rank t < rank c.getOutputName
  sameSets : ∀ c ∈ plan, SameSets c
  supplied : ∀ c ∈ plan, ∀ s ∈ specs c, ∀ x ∈ s.atts, ∃ p ∈ plan, p.getOutputName = s.setName ∧ x ∈ p.output.atts

def generatedBy (plan : List AtomicComputation) (c : ℕ) : List Text :=
  (plan[c]?.map fun y => y.output.atts.filter (· ∉ joined y)).getD []

structure WellFormed (generated : ℕ → List Text) (waiting : ℕ → Text → Prop) (l : AtomicComputationList) : Prop where
  supplied : ∀ c, Produced l c → ∀ s ∈ specs (l.objects c), ∀ x ∈ s.atts, Found l s.setName x ∨ waiting c x
  own : ∀ c, Produced l c → OwnOutput (generated c) (l.objects c)

theorem Attributed.flow {plan : List AtomicComputation} (h : Attributed plan) :
    ∃ rank, Flow rank (generatedBy plan) (fun _ _ _ => False) (build plan) := by
  obtain ⟨rank, hrank⟩ := h.acyclic
  have ha := added_build plan
  have ht := h.toAddable.tables
  have hof : ∀ c, Produced (build plan) c → ∃ y, plan[c]? = some y ∧ y ∈ plan ∧ (build plan).objects c = y := by
    rintro c ⟨t, hc⟩
    obtain ⟨y, hy, -⟩ := ha.producers t c hc
    exact ⟨y, hy, List.mem_of_getElem? hy, ha.objects c y hy⟩
  refine ⟨rank, { tables := ht.mono fun _ _ => trivial, acyclic := ?_, sameSets := ?_, own := ?_, supplied := ?_ }⟩
  · intro c hc t hm hne
    obtain ⟨y, -, hy, hobj⟩ := hof c hc
    rw [names, hobj] at hm
    rw [AtomicComputationList.outputName, hobj]
    exact hrank y hy t hm hne
  · intro c hc
    obtain ⟨y, -, hy, hobj⟩ := hof c hc
    rw [hobj]
    exact h.sameSets y hy
  · intro c hc _ x hx
    obtain ⟨y, hyc, -, hobj⟩ := hof c hc
    rw [hobj] at hx ⊢
    by_cases hj : x ∈ joined y
    · exact .inl hj
    · right
      rw [generatedBy, hyc]
      simp [hx, hj]
  · intro c hc s hs x hx
    obtain ⟨y, -, hy, hobj⟩ := hof c hc
    rw [hobj] at hs
    obtain ⟨z, hz, hzs, hxz⟩ := h.supplied y hy s hs x hx
    obtain ⟨p, hp⟩ := ha.produced z.getOutputName (List.mem_map_of_mem hz)
    obtain ⟨z', hz', hname⟩ := ha.producers _ p hp
    have hzz : z' = z := by
      obtain ⟨i, hi⟩ := List.getElem?_of_mem hz
      have hlt := (List.getElem?_eq_some_iff.mp hi).1
      have hip : i = p := by
        apply (List.getElem?_inj (by simpa using hlt) h.outputs).mp
        rw [List.getElem?_map, List.getElem?_map, hi, hz', Option.map_some, Option.map_some, hname]
      subst hip
      exact Option.some.inj (hz'.symm.trans hi)
    subst hzz
    refine .inl ⟨p, hzs ▸ hp, ?_⟩
    rw [ha.objects p z' hz']
    exact hxz

section Examples

def joinAggPlan : List AtomicComputation :=
  [scanOf (spec "A" ["a"]) "Scan_0",
    keyOf (spec "A" ["a"]) (spec "AK" ["a", "ka"]) "Join_2",
    computation (spec "AK" ["ka"]) (spec "AH" ["a", "ha"]) (spec "AK" ["a"]) "Join_2" (.hashLeft []),
    scanOf (spec "B" ["b"]) "Scan_1",
    keyOf (spec "B" ["b"]) (spec "BK" ["b", "kb"]) "Join_2",
    computation (spec "BK" ["kb"]) (spec "BH" ["b", "hb"]) (spec "BK" ["b"]) "Join_2" (.hashRight []),
    computation (spec "AH" ["ha"]) (spec "J" ["a", "b"]) (spec "AH" ["a"]) "Join_2"
      (.applyJoin (spec "BH" ["hb"]) (spec "BH" ["b"])),
    { keyOf (spec "J" ["a"]) (spec "L" ["a", "b", "la"]) "Join_2" with projection := spec "J" ["a", "b"] },
    computation (spec "L" ["la"]) (spec "S" ["a", "b", "la", "s"]) (spec "L" ["a", "b", "la"]) "Join_2"
      (.applyLambda []),
    computation (spec "S" ["a", "b"]) (spec "R" ["r"]) (spec "S" []) "Join_2" (.applyLambda []),
    keyOf (spec "R" ["r"]) (spec "K" ["r", "kr"]) "Agg_3",
    computation (spec "K" ["r"]) (spec "V" ["kr", "v"]) (spec "K" ["kr"]) "Agg_3" (.applyLambda []),
    computation (spec "V" ["kr", "v"]) (spec "G" ["g"]) (spec "V" []) "Agg_3" .applyAgg,
    computation (spec "G" ["g"]) (spec "Out" []) (spec "G" []) "Write_4" (.writeSet [] [])]

theorem Walk.mem {goes : ℕ → ℕ → Prop} {start : Text} (visited : List (Text × ℕ))
    (hfirst : ∀ c, l.consumers start = [c] → (start, c) ∈ visited)
    (hnext : ∀ q ∈ visited, ∀ d, l.consumers (l.outputName q.2) = [d] → goes q.2 d → (l.outputName q.2, d) ∈ visited)
    (hw : Walk l goes start n c) : (n, c) ∈ visited := by
  induction hw with
  | first hc => exact hfirst _ hc
  | next _ hd hg ih => exact hnext _ ih _ hd hg

def sameFrom (cs : List ℕ) (ts : List String) (l : AtomicComputationList) : Bool :=
  (∀ c ∈ cs, l.objects c = (build joinAggPlan).objects c) ∧
    ∀ t ∈ ts, l.consumers t.toList = (build joinAggPlan).consumers t.toList

def beforeAgg (l : AtomicComputationList) : Bool :=
  l.producers "K".toList = some 10 ∧ l.outputName 10 = "K".toList ∧ (l.objects 10).input = spec "S" ["r"] ∧
    (l.objects 10).projection = spec "S" ["r"] ∧ generates (l.objects 10) = ["kr".toList] ∧
    sameFrom [11, 12] ["K", "V"] l

end Examples

end PlinyCompute.PlanTransformer
