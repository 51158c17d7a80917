import PlinyCompute.AttributeFlow

namespace PlinyCompute.PlanTransformer

open LogicalPlan Transition ComputationTables

variable {l l' l₀ : AtomicComputationList} {t x : Text} {p cur next c d : ℕ}
variable {rank : Text → ℕ} {generated : ℕ → List Text} {waiting waiting' : ℕ → Text → Prop} {old : Text → Prop}

inductive Walk (l : AtomicComputationList) (goes : ℕ → ℕ → Prop) (start : Text) : Text → ℕ → Prop
  | first {c : ℕ} : l.consumers start = [c] → Walk l goes start start c
  | next {t : Text} {c d : ℕ} : Walk l goes start t c → l.consumers (l.outputName c) = [d] → goes c d →
      Walk l goes start (l.outputName c) d

structure Through (t : Text) (c : AtomicComputation) : Prop where
  input : c.input.setName = t
  projection : c.projection.setName = t

def pending (waiting : ℕ → Text → Prop) (l : AtomicComputationList) (p cur : ℕ) (old : Text → Prop) :
    ℕ → Text → Text → Prop :=
  fun c t x => waiting c x ∨ c = cur ∧ t = l.outputName p ∧ old x

structure Front (rank : Text → ℕ) (l₀ l : AtomicComputationList) (t : Text) (p cur : ℕ) : Prop where
  producer : Produced l p
  once : (l.consumers (l.outputName p)).count cur = 1
  output : ∀ c, l.outputName c = l₀.outputName c
  same : ∀ c, c ≠ cur → rank (l₀.outputName cur) ≤ rank (l₀.outputName c) → l.objects c = l₀.objects c
  renamed : Renamed (l₀.objects cur) (l.objects cur)
  consumers : ∀ n, rank (l₀.outputName cur) ≤ rank n → l.consumers n = l₀.consumers n
  through : Through t (l₀.objects cur) → Through (l.outputName p) (l.objects cur)

section Fronts

theorem Front.mem (hf : Front rank l₀ l t p cur) : cur ∈ l.consumers (l.outputName p) := by
  apply List.count_pos_iff.mp
  rw [hf.once]
  exact Nat.one_pos

theorem Front.produced (hf : Front rank l₀ l t p cur) (h : Linked rank l) : Produced l cur :=
  ((h.mem_consumers hf.producer).mp hf.mem).1

theorem Front.reads (hf : Front rank l₀ l t p cur) (h : Linked rank l) : l.outputName p ∈ names l cur :=
  ((h.mem_consumers hf.producer).mp hf.mem).2

theorem Front.rank_lt (hf : Front rank l₀ l t p cur) (h : Linked rank l) :
    rank (l.outputName p) < rank (l.outputName cur) :=
  h.rank_lt hf.producer (hf.produced h) (hf.reads h)

theorem Front.ne (hf : Front rank l₀ l t p cur) (h : Linked rank l) : p ≠ cur :=
  h.ne hf.producer (hf.produced h) (hf.reads h)

theorem Front.consumers_output (hf : Front rank l₀ l t p cur) :
    l.consumers (l.outputName cur) = l₀.consumers (l₀.outputName cur) := by
  rw [hf.output]
  exact hf.consumers _ le_rfl

theorem Front.rank_next (hf : Front rank l₀ l t p cur) (h : Linked rank l)
    (hn : l.consumers (l.outputName cur) = [next]) : rank (l₀.outputName cur) < rank (l₀.outputName next) := by
  have hm : next ∈ l.consumers (l.outputName cur) := by simp [hn]
  have hr := (h.mem_consumers (hf.produced h)).mp hm
  rw [← hf.output, ← hf.output]
  exact h.rank_lt (hf.produced h) hr.1 hr.2

theorem Front.objects_next (hf : Front rank l₀ l t p cur) (h : Linked rank l)
    (hn : l.consumers (l.outputName cur) = [next]) : l.objects next = l₀.objects next := by
  have hlt := hf.rank_next h hn
  apply hf.same next
  · rintro rfl
    exact lt_irrefl _ hlt
  · exact hlt.le

theorem Front.right_ne (hf : Front rank l₀ l t p cur) (h : Linked rank l)
    (ht : Through (l.outputName p) (l.objects cur)) {s : TupleSpec}
    (hs : s ∈ (l.objects cur).getRightInput.toList ++ (l.objects cur).getRightProjection.toList) :
    s.setName ≠ l.outputName p := by
  have hcount : (names l cur).count (l.outputName p) = 1 := by
    rw [← h.count_consumers hf.producer (hf.produced h)]
    exact hf.once
  have hright := right_ne_of_count ht.input hcount
  intro he
  apply hright
  rw [List.mem_append, Option.mem_toList, Option.mem_toList] at hs
  obtain hs | hs := hs
  · rw [hs, Option.map_some, he]
  · rw [← (h.sameSets cur (hf.produced h)).right, hs, Option.map_some, he]

theorem Front.start {f : AtomicComputation → AtomicComputation} (h : Linked rank l) (hs : SameTables l (l.modify p f))
    (hp : Produced l p) (hn : l.consumers (l.outputName p) = [cur]) :
    Front rank l (l.modify p f) (l.outputName p) p cur := by
  have hr := (h.mem_consumers hp).mp (hn ▸ List.mem_singleton_self cur)
  have hlt := h.rank_lt hp hr.1 hr.2
  have hother : ∀ c, c ≠ p → (l.modify p f).objects c = l.objects c := fun c hc => Function.update_of_ne hc _ _
  have hcur := hother cur (h.ne hp hr.1 hr.2).symm
  constructor
  · exact hs.produced_iff.mpr hp
  · rw [hs.output]
    change (l.consumers (l.outputName p)).count cur = 1
    rw [hn, List.count_singleton_self]
  · exact hs.output
  · intro c _ hc
    apply hother
    rintro rfl
    omega
  · rw [hcur]
    exact .refl _
  · intro n _
    rfl
  · intro ht
    rw [hcur, hs.output]
    exact ht

theorem Front.keep {f : AtomicComputation → AtomicComputation} (hf : Front rank l₀ l t p cur) (h : Linked rank l)
    (hs : SameTables l (l.modify cur f)) (hn : l.consumers (l.outputName cur) = [next]) :
    Front rank l₀ (l.modify cur f) (l₀.outputName cur) cur next := by
  have hlt := hf.rank_next h hn
  have hother : ∀ c, c ≠ cur → (l.modify cur f).objects c = l.objects c := fun c hc => Function.update_of_ne hc _ _
  have hnext : (l.modify cur f).objects next = l₀.objects next := by
    rw [hother next]
    · exact hf.objects_next h hn
    · rintro rfl
      exact lt_irrefl _ hlt
  constructor
  · exact hs.produced_iff.mpr (hf.produced h)
  · rw [hs.output, hs.consumers, hn, List.count_singleton_self]
  · intro c
    rw [hs.output]
    exact hf.output c
  · intro c _ hr
    have hc : c ≠ cur := by
      rintro rfl
      omega
    rw [hother c hc]
    exact hf.same c hc (by omega)
  · rw [hnext]
    exact .refl _
  · intro n hr
    rw [hs.consumers]
    exact hf.consumers n (by omega)
  · intro hthrough
    rw [hnext, hs.output, hf.output]
    exact hthrough

theorem Front.drop (hf : Front rank l₀ l t p cur) (h : Linked rank l) (hone : (l.objects cur).hasTwoInputs = false)
    (ht : Through (l.outputName p) (l.objects cur)) (hu : Unlinked l l' cur)
    (hn : l.consumers (l.outputName cur) = [next]) (hnext : next ∉ l.consumers (l.outputName p)) :
    Front rank l₀ l' (l₀.outputName cur) p next := by
  have hlt := hf.rank_next h hn
  have hplt := hf.rank_lt h
  rw [hf.output cur] at hplt
  have hobj : l'.objects next = relinked (l.objects cur) (l₀.objects next) := by
    rw [hu.objects, hn, if_pos (List.mem_singleton_self next), hf.objects_next h hn]
  constructor
  · exact (hu.produced_iff h (hf.produced h)).mpr ⟨hf.producer, hf.ne h⟩
  · have hne : l.outputName p ≠ l.outputName cur := by
      intro he
      exact hf.ne h (h.tables.eq_of_outputName hf.producer (hf.produced h) he)
    have hno : ((l.consumers (l.outputName p)).filter (· ≠ cur)).count next = 0 := by
      apply List.count_eq_zero.mpr
      intro hm
      exact hnext (List.mem_filter.mp hm).1
    rw [hu.outputName, hu.consumers _ hne, if_pos ht.input.symm, hn, List.count_append, hno,
      List.count_singleton_self]
  · intro c
    rw [hu.outputName]
    exact hf.output c
  · intro c hc hr
    rw [hu.objects, hn, if_neg (by simpa using hc)]
    apply hf.same c
    · rintro rfl
      omega
    · omega
  · rw [hobj]
    exact renamed_relinked _ _
  · intro n hr
    rw [hu.consumers, if_neg]
    · exact hf.consumers n (by omega)
    · rintro rfl
      rw [ht.input] at hr
      omega
    · rintro rfl
      rw [hf.output] at hr
      omega
  · intro hthrough
    have hname : (l₀.objects next).input.setName = (l.objects cur).getOutputName :=
      hthrough.input.trans (hf.output cur).symm
    rw [hobj, hu.outputName]
    constructor
    · rw [relinked_input ht.input, hname, redirect, if_pos rfl]
      rfl
    · rw [relinked_projection ht.projection, if_pos hname]
      rfl

end Fronts

section Flows

theorem Flow.named (h : Flow rank generated (pending waiting l p cur old) l) (hf : Front rank l₀ l t p cur)
    {s : TupleSpec} (hs : s ∈ specs (l.objects cur)) (hname : s.setName = l.outputName p) (hx : x ∈ s.atts) :
    (old x ∨ x ∈ (l.objects p).output.atts) ∨ waiting cur x := by
  obtain ⟨q, hq, hx⟩ | hx | ⟨-, -, hx⟩ := h.supplied cur (hf.produced h.toLinked) s hs x hx
  · rw [hname, h.tables.produced hf.producer] at hq
    cases hq
    exact .inl (.inr hx)
  · exact .inr hx
  · exact .inl (.inl hx)

structure LeftEdit (f : AtomicComputation → AtomicComputation) : Prop where
  getOutputName : ∀ c, (f c).getOutputName = c.getOutputName
  input : ∀ c, (f c).input.setName = c.input.setName
  projection : ∀ c, (f c).projection.setName = c.projection.setName
  kind : ∀ c, (f c).kind = c.kind

theorem LeftEdit.getRightInput {f : AtomicComputation → AtomicComputation} (hf : LeftEdit f) (c : AtomicComputation) :
    (f c).getRightInput = c.getRightInput := by
  unfold AtomicComputation.getRightInput
  rw [hf.kind]

theorem LeftEdit.getRightProjection {f : AtomicComputation → AtomicComputation} (hf : LeftEdit f)
    (c : AtomicComputation) : (f c).getRightProjection = c.getRightProjection := by
  unfold AtomicComputation.getRightProjection
  rw [hf.kind]

theorem LeftEdit.sameTables {f : AtomicComputation → AtomicComputation} (hf : LeftEdit f) (l : AtomicComputationList)
    (c : ℕ) : SameTables l (l.modify c f) := by
  apply sameTables_modify
  · exact hf.getOutputName
  · intro y
    rw [inputNames_eq, inputNames_eq, hf.input, hf.getRightInput]
  · intro y
    unfold AtomicComputation.role
    rw [hf.kind]

theorem Flow.keep {f : AtomicComputation → AtomicComputation}
    (h : Flow rank generated (pending waiting l p cur old) l) (hf : Front rank l₀ l t p cur)
    (hs : SameTables l (l.modify cur f)) (hsame : SameSets (f (l.objects cur)))
    (hown : OwnOutput (generated cur) (f (l.objects cur)))
    (hsupplied : ∀ s ∈ specs (f (l.objects cur)), ∀ x ∈ s.atts, Found l s.setName x ∨ waiting cur x)
    (hn : l.consumers (l.outputName cur) = [next]) :
    Flow rank generated (pending waiting (l.modify cur f) cur next (· ∈ (l.objects cur).output.atts))
      (l.modify cur f) := by
  apply h.modify (hf.produced h.toLinked) hs hsame hown
  · intro s hsp x hx
    exact (hsupplied s hsp x hx).imp_right .inl
  · rintro c hc hp t ht x (hw | ⟨rfl, -⟩)
    · exact .inl hw
    · exact absurd rfl hc
  · intro c hc hp ht x hx
    exact .inr (.inr ⟨h.eq_of_sole (hf.produced h.toLinked) hn hp ht, (hs.output cur).symm, hx⟩)

theorem Flow.keep_left {f : AtomicComputation → AtomicComputation} (hedit : LeftEdit f)
    (h : Flow rank generated (pending waiting l p cur old) l) (hf : Front rank l₀ l t p cur)
    (ht : Through (l.outputName p) (l.objects cur)) (hown : OwnOutput (generated cur) (f (l.objects cur)))
    (hinput : ∀ x ∈ (f (l.objects cur)).input.atts, x ∈ (l.objects p).output.atts ∨ waiting cur x)
    (hprojection : ∀ x ∈ (f (l.objects cur)).projection.atts, x ∈ (l.objects p).output.atts ∨ waiting cur x)
    (hn : l.consumers (l.outputName cur) = [next]) :
    Flow rank generated (pending waiting (l.modify cur f) cur next (· ∈ (l.objects cur).output.atts))
      (l.modify cur f) := by
  have hfound : ∀ s : TupleSpec, s.setName = l.outputName p → ∀ x, x ∈ (l.objects p).output.atts →
      Found l s.setName x := by
    intro s hs x hx
    exact ⟨p, hs ▸ h.tables.produced hf.producer, hx⟩
  have hc := hf.produced h.toLinked
  refine h.keep hf (hedit.sameTables l cur) ?same hown ?supplied hn
  case supplied =>
    intro s hs x hx
    rw [specs, hedit.getRightInput, hedit.getRightProjection, List.mem_append] at hs
    obtain hs | hs := hs
    · rw [List.mem_cons, List.mem_singleton] at hs
      obtain rfl | rfl := hs
      · exact (hinput x hx).imp_left (hfound _ ((hedit.input _).trans ht.input) x)
      · exact (hprojection x hx).imp_left (hfound _ ((hedit.projection _).trans ht.projection) x)
    · have hne := hf.right_ne h.toLinked ht hs
      obtain hx | hx | ⟨-, he, -⟩ := h.supplied cur hc s (List.mem_append_right _ hs) x hx
      · exact .inl hx
      · exact .inr hx
      · exact absurd he hne
  case same =>
    constructor
    · rw [hedit.input, hedit.projection, ht.input, ht.projection]
      exact .inl rfl
    · rw [hedit.getRightInput, hedit.getRightProjection]
      exact (h.sameSets cur hc).right

theorem Flow.drop (h : Flow rank generated (pending waiting l p cur old) l) (hf : Front rank l₀ l t p cur)
    (hone : (l.objects cur).hasTwoInputs = false) (ht : Through (l.outputName p) (l.objects cur))
    (hu : Unlinked l l' cur) (hn : l.consumers (l.outputName cur) = [next]) :
    Flow rank generated (pending waiting l' p next (· ∈ (l.objects cur).output.atts)) l' := by
  apply h.removed (hf.produced h.toLinked) hone hu
  · rintro c hc hp t hr x (hw | ⟨rfl, -⟩)
    · exact .inl hw
    · exact absurd rfl hc
  · intro c hc hp hr x hx
    refine .inr ⟨h.eq_of_sole (hf.produced h.toLinked) hn hp hr, ?_, hx⟩
    rw [ht.input, hu.outputName]

theorem Flow.exit (h : Flow rank generated (pending waiting l p cur old) l) (hf : Front rank l₀ l t p cur)
    (hw : ∀ c x, waiting c x → waiting' c x)
    (ho : ∀ x, old x → x ∈ (l.objects p).output.atts ∨ waiting' cur x) :
    Flow rank generated (fun c _ x => waiting' c x) l := by
  apply h.mono
  rintro c hp t ht x (hx | ⟨rfl, rfl, hx⟩)
  · exact .inr (hw c x hx)
  · obtain hx | hx := ho x hx
    · exact .inl ⟨p, h.tables.produced hf.producer, hx⟩
    · exact .inr hx

end Flows

end PlinyCompute.PlanTransformer
