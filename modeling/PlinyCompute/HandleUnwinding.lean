import PlinyCompute.HandleContainers

namespace PlinyCompute.Handles

open Transition

structure Fresh (n : ℕ) (h : Heap) : Prop where
  block : ∀ p y, n ≤ p → h.get p = some y → y.block = h.activeRAM
  forward : ∀ p y, h.get p = some y → ∀ f ∈ y.members, ∀ q, f.target = some q → q < n ∨ n ≤ p ∧ p < q

def Beyond (n m : ℕ) (f : Handle) : Prop := ∀ q, f.target = some q → q < n ∨ m ≤ q

/-- No object that has its destructor disabled holds a handle, and so no handle is lost. -/
structure Light (h : Heap) : Prop where
  lost : h.lost = []
  empty : ∀ p y, h.get p = some y → y.disableDestructor = true → y.members = []

structure During (h₀ : Heap) (hs₀ : List Handle) (s : Store) (hs : List Handle) : Prop where
  balanced : Balanced s.heap (hs ++ hs₀) none
  grows : Extends h₀ s.heap
  fresh : Fresh h₀.objects.length s.heap
  light : Light s.heap

structure Later (m : ℕ) (s s' : Store) : Prop where
  answers : s'.answers.length ≤ s.answers.length
  length : s.heap.objects.length ≤ s'.heap.objects.length
  left : ∀ p < m, ∀ y, s'.heap.get p = some y → ∃ x, s.heap.get p = some x ∧ Same x y

theorem Later.refl (m : ℕ) (s : Store) : Later m s s := ⟨le_refl _, le_refl _, fun _ _ y hy => ⟨y, hy, .refl y⟩⟩

theorem Later.trans {m : ℕ} {s s' s'' : Store} (a : Later m s s') (b : Later m s' s'') : Later m s s'' where
  answers := b.answers.trans a.answers
  length := a.length.trans b.length
  left p hp z hz := by
    obtain ⟨y, hy, hyz⟩ := b.left p hp z hz
    obtain ⟨x, hx, hxy⟩ := a.left p hp y hy
    exact ⟨x, hx, hxy.trans hyz⟩

theorem Later.mono {m m' : ℕ} {s s' : Store} (l : Later m' s s') (h : m ≤ m') : Later m s s' :=
  ⟨l.answers, l.length, fun p hp => l.left p (Nat.lt_of_lt_of_le hp h)⟩

variable {h₀ h h' : Heap} {hs₀ hs hs' fs gs : List Handle} {s s' : Store} {f g old : Handle} {c o t n m : ℕ}
  {x y : RefCountedObject} {loose : Option ℕ}

theorem Beyond.null (hf : f.target = none) : Beyond n m f := by
  intro q hq
  rw [hf] at hq
  cases hq

theorem Fresh.left (fr : Fresh n h) (hb : SameBlocks h h')
    (hleft : ∀ p y, h'.get p = some y → ∃ x, h.get p = some x ∧ Same x y) : Fresh n h' where
  block p y hp hy := by
    obtain ⟨x, hx, hxy⟩ := hleft p y hy
    rw [hxy.block, hb.activeRAM]
    exact fr.block p x hp hx
  forward p y hy f hf q hq := by
    obtain ⟨x, hx, hxy⟩ := hleft p y hy
    rw [hxy.members] at hf
    exact fr.forward p x hx f hf q hq

theorem Fresh.start (b : Balanced h hs loose) : Fresh h.objects.length h where
  block p y hp hy := by
    have := Heap.lt_of_get hy
    omega
  forward p y hy f hf q hq := by
    obtain ⟨z, hz, -⟩ := b.aimedIn f (Heap.mem_held_of_get hy hf) q hq
    exact .inl (Heap.lt_of_get hz)

theorem Light.shrinks (l : Light h) (sh : Shrinks h h') : Light h' where
  lost := by
    apply List.eq_nil_iff_forall_not_mem.mpr
    intro f hf
    obtain hf | ⟨p, y, hy, hd, hm, -⟩ := sh.disabled f hf
    · rw [l.lost] at hf
      cases hf
    · rw [l.empty p y hy hd] at hm
      cases hm
  empty p y hy hd := by
    obtain ⟨x, hx, hxy⟩ := sh.left p y hy
    rw [hxy.members]
    exact l.empty p x hx (hxy.disableDestructor ▸ hd)

theorem Light.set (l : Light h) (hx : h.get o = some x) (hy : y.disableDestructor = true → y.members = []) :
    Light (h.set o (some y)) where
  lost := l.lost
  empty p z hz hd := by
    by_cases hp : p = o
    · subst hp
      rw [Heap.get_set_self hx, Option.some.injEq] at hz
      subst hz
      exact hy hd
    · rw [Heap.get_set_ne hp] at hz
      exact l.empty p z hz hd

theorem Extends.released {h₁ h₂ : Heap} (b : Balanced h₀ hs₀ none) (e : Extends h₀ h₁)
    (r : Released h₁ h₂ hs none) (hsub : ∀ f ∈ hs₀, f ∈ hs) : Extends h₀ h₂ := by
  have hS : Keeps {p | ∃ x, h₀.get p = some x} h₀ h₁ := fun p _ => e.keeps p trivial
  have hk := r.keeps _ ((b.supported e.toSameBlocks hS).mono hsub)
  refine ⟨e.toSameBlocks.trans r.shrinks.toSameBlocks, by rw [r.shrinks.length]; exact e.length, ?_⟩
  intro p _ x hx
  exact (hS.trans hk) p ⟨x, hx⟩ x hx

theorem Released.trans {h₁ h₂ : Heap} (a : Released h h₁ hs loose) (b : Released h₁ h₂ hs' loose)
    (hsub : ∀ f ∈ hs', f ∈ hs) : Released h h₂ hs' loose := by
  refine ⟨b.balanced, a.shrinks.trans b.shrinks, ?_⟩
  intro S hS
  have hk := a.keeps S (hS.mono hsub)
  exact hk.trans (b.keeps S (hS.shrinks hk a.shrinks))

namespace During

theorem perm (d : During h₀ hs₀ s hs) (hp : hs.Perm hs') : During h₀ hs₀ s hs' :=
  ⟨d.balanced.perm (hp.append_right hs₀), d.grows, d.fresh, d.light⟩

theorem drop_null (d : During h₀ hs₀ s (f :: hs)) (hf : f.target = none) : During h₀ hs₀ s hs :=
  ⟨d.balanced.drop_null hf, d.grows, d.fresh, d.light⟩

theorem add_null (d : During h₀ hs₀ s hs) (hf : f.target = none) : During h₀ hs₀ s (f :: hs) :=
  ⟨d.balanced.add_null hf, d.grows, d.fresh, d.light⟩

theorem destroyAll (b : Balanced h₀ hs₀ none) (d : During h₀ hs₀ s (fs ++ hs)) :
    ∃ s', s.destroyAll fs = .ok s' ∧ During h₀ hs₀ s' hs ∧ Later m s s' := by
  have hbal : Balanced s.heap (fs ++ (hs ++ hs₀)) none := by
    rw [← List.append_assoc]
    exact d.balanced
  obtain ⟨h', he, r⟩ := destroyMembers_balanced (n := s.heap.objects.length) fs hbal s.heap.live_le
  have hfresh := d.fresh.left r.shrinks.toSameBlocks r.shrinks.left
  refine ⟨{ s with heap := h' }, ?_, ⟨r.balanced, ?_, hfresh, d.light.shrinks r.shrinks⟩, le_refl _, r.shrinks.length.ge,
    fun p _ => r.shrinks.left p⟩
  · simp only [Store.destroyAll, he, ok_bind]
  · exact d.grows.released b r fun f hf => List.mem_append_right hs hf

theorem destroy (b : Balanced h₀ hs₀ none) (d : During h₀ hs₀ s (f :: hs)) :
    ∃ s', s.destroy f = .ok s' ∧ During h₀ hs₀ s' hs ∧ Later m s s' := by
  obtain ⟨h', he, r⟩ := destroy_balanced d.balanced
  have hfresh := d.fresh.left r.shrinks.toSameBlocks r.shrinks.left
  refine ⟨{ s with heap := h' }, ?_, ⟨r.balanced, ?_, hfresh, d.light.shrinks r.shrinks⟩, le_refl _, r.shrinks.length.ge,
    fun p _ => r.shrinks.left p⟩
  · simp only [Store.destroy, he, ok_bind]
  · exact d.grows.released b r fun f hf => List.mem_append_right hs hf

theorem incRefCount (d : During h₀ hs₀ s hs) (hx : s.heap.get o = some x) :
    Ensures (· = .wraps) (s.heap.incRefCount o) fun h =>
      During h₀ hs₀ { s with heap := h } (⟨some o, x.type⟩ :: hs) ∧ Later m s { s with heap := h } := by
  apply (incRefCount_balanced d.balanced hx (.inl ⟨rfl, nofun⟩)).with_eq.mono
  rintro h ⟨he, hb, hlen, hk, -, hleft, b⟩
  have hlight := d.light.shrinks (.incRefCount hx he)
  refine ⟨⟨b, ⟨d.grows.toSameBlocks.trans hb, ?_, d.grows.keeps.trans hk⟩, d.fresh.left hb hleft, hlight⟩, le_refl _,
    hlen.ge, fun p _ => hleft p⟩
  exact d.grows.length.trans hlen.ge

end During

theorem Store.getRAM_some (he : s.getRAM x = (s', some c)) :
    s'.answers.length < s.answers.length ∧ ∃ space, Heap.getRAM x { s.heap with space } = some (c, s'.heap) := by
  unfold Store.getRAM at he
  split at he
  · cases he
  · cases he
  · next answers ha =>
    cases he
    refine ⟨?_, s.heap.space + 1, ?_⟩
    · rw [ha]
      exact Nat.lt_succ_self _
    · rw [Heap.getRAM, if_neg (Nat.succ_ne_zero _)]
      rfl

theorem Store.getRAM_none (he : s.getRAM x = (s', none)) : s'.heap = s.heap ∧ Later m s s' := by
  unfold Store.getRAM at he
  split at he
  · cases he
    exact ⟨rfl, .refl m s⟩
  · next answers ha =>
    cases he
    refine ⟨rfl, ?_, le_refl _, fun _ _ y hy => ⟨y, hy, .refl y⟩⟩
    rw [ha]
    exact Nat.le_succ _
  · cases he

namespace During

theorem refused (d : During h₀ hs₀ s hs) (he : s.getRAM x = (s', none)) : During h₀ hs₀ s' hs ∧ Later m s s' := by
  obtain ⟨hh, hl⟩ := Store.getRAM_none he
  refine ⟨⟨?_, ?_, ?_, ?_⟩, hl⟩
  all_goals rw [hh]
  · exact d.balanced
  · exact d.grows
  · exact d.fresh
  · exact d.light

theorem getRAM (d : During h₀ hs₀ s hs) (he : s.getRAM (s.space t) = (s', some c)) :
    During h₀ hs₀ s' (⟨some c, t⟩ :: hs) ∧ s'.heap.get c = some (s.space t) ∧ c = s.heap.objects.length ∧
      c < s'.heap.objects.length ∧ Later s.heap.objects.length s s' ∧ s'.answers.length < s.answers.length := by
  obtain ⟨hans, space, he⟩ := Store.getRAM_some he
  have b : Balanced { s.heap with space } (hs ++ hs₀) none :=
    ⟨d.balanced.counted, d.balanced.owned, d.balanced.idle, d.balanced.aimed, d.balanced.aimedIn, d.balanced.placed,
      d.balanced.active⟩
  have hnull : ∀ f ∈ (s.space t).members, f.target = none := nofun
  obtain ⟨rfl, hget, e, hback, -, hfree, -⟩ := b.getRAM hnull he
  have hlt : s.heap.objects.length < s'.heap.objects.length := Heap.lt_of_get hget
  have hle : h₀.objects.length ≤ s.heap.objects.length := d.grows.length
  refine ⟨⟨?_, ?_, ⟨?_, ?_⟩, ?_, ?_⟩, hget, rfl, hlt, ⟨hans.le, hlt.le, ?_⟩, hans⟩
  · apply b.alloc ⟨rfl, hnull⟩ he
    · rw [List.cons_append, pointers_cons, if_pos rfl, hfree]
      rfl
    · intro p hp
      rw [List.cons_append, pointers_cons, if_neg (fun hq => absurd (Option.some.inj hq) (Nat.ne_of_gt hp))]
      rfl
    · exact fun _ => Nat.one_pos
    · exact nofun
    · exact fun p _ => Iff.rfl
    · intro f hf
      obtain rfl | hf := List.mem_cons.mp hf
      · intro p hp
        cases hp
        exact ⟨_, hget, rfl⟩
      · exact (b.aimed f hf).extends e
  · have hb : SameBlocks s.heap s'.heap :=
      ⟨e.activeRAM, e.throwException, e.curBlockUserSupplied, e.allInactives, e.numBlocks, e.lost⟩
    have hk : Keeps Set.univ s.heap s'.heap := e.keeps
    exact ⟨d.grows.toSameBlocks.trans hb, d.grows.length.trans hlt.le, d.grows.keeps.trans hk⟩
  · intro p y hp hy
    rw [e.activeRAM]
    by_cases hpc : p = s.heap.objects.length
    · rw [hpc] at hy
      rw [← Option.some.inj (hget.symm.trans hy)]
      rfl
    · exact d.fresh.block p y hp (hback p y hy hpc)
  · intro p y hy f hf q hq
    by_cases hpc : p = s.heap.objects.length
    · rw [hpc] at hy
      rw [← Option.some.inj (hget.symm.trans hy)] at hf
      cases hf
    · exact d.fresh.forward p y (hback p y hy hpc) f hf q hq
  · exact (Heap.getRAM_lost he).trans d.light.lost
  · intro p y hy hd
    by_cases hpc : p = s.heap.objects.length
    · rw [hpc] at hy
      rw [← Option.some.inj (hget.symm.trans hy)]
      rfl
    · exact d.light.empty p y (hback p y hy hpc) hd
  · intro p hp y hy
    exact ⟨y, hback p y hy (Nat.ne_of_lt hp), .refl y⟩

end During

theorem Balanced.adopt {data : ℕ} {disableDestructor : Bool} (b : Balanced h (fs ++ hs) loose) (hx : h.get o = some x)
    (hm : x.members = []) : Balanced (h.set o (some { x with data, disableDestructor, members := fs })) hs loose := by
  apply b.update (y := { x with data, disableDestructor, members := fs }) hx rfl rfl rfl
  · intro p
    rw [hm, pointers_append, pointers_nil, Nat.add_zero, Nat.add_comm]
  · exact fun f hf => .inl (List.mem_append.mpr hf.symm)

theorem During.fill {disable : Bool} (d : During h₀ hs₀ s (fs ++ hs)) (data : ℕ) (hx : s.heap.get c = some x)
    (hm : x.members = []) (hd : disable = false ∨ fs = []) (hc : h₀.objects.length ≤ c)
    (hf : ∀ f ∈ fs, Beyond h₀.objects.length (c + 1) f) :
    During h₀ hs₀ (s.fill c data disable fs) hs ∧ Later c s (s.fill c data disable fs) := by
  have hfill : s.fill c data disable fs =
      { s with heap := s.heap.set c (some { x with data, disableDestructor := disable, members := fs }) } := by
    simp only [Store.fill, hx]
  rw [hfill]
  refine ⟨⟨?_, d.grows.set hc _, ⟨?_, ?_⟩, d.light.set hx ?_⟩, le_refl _, List.length_set.ge, ?_⟩
  · apply Balanced.adopt _ hx hm
    rw [← List.append_assoc]
    exact d.balanced
  · intro p y hp hy
    by_cases hpc : p = c
    · subst hpc
      rw [Heap.get_set_self hx, Option.some.injEq] at hy
      subst hy
      exact d.fresh.block p x hp hx
    · rw [Heap.get_set_ne hpc] at hy
      exact d.fresh.block p y hp hy
  · intro p y hy f hfy q hq
    by_cases hpc : p = c
    · subst hpc
      rw [Heap.get_set_self hx, Option.some.injEq] at hy
      subst hy
      obtain hold | hnew := hf f hfy q hq
      · exact .inl hold
      · exact .inr ⟨hc, hnew⟩
    · rw [Heap.get_set_ne hpc] at hy
      exact d.fresh.forward p y hy f hfy q hq
  · intro he
    exact hd.resolve_left (by simpa using he)
  · intro p hp y hy
    rw [Heap.get_set_ne (Nat.ne_of_lt hp)] at hy
    exact ⟨y, hy, .refl y⟩

def Made : Part → Handle → Prop
  | .handle, f => f.target = none
  | .container array, f => f.typeInfo = array

theorem During.construct {parts : List Part} {done : Bool} (d : During h₀ hs₀ s hs)
    (he : s.construct parts = (s', fs, done)) (hm : m ≤ s.heap.objects.length) :
    During h₀ hs₀ s' (fs ++ hs) ∧ Later m s s' ∧ (∀ f ∈ fs, Beyond h₀.objects.length m f) ∧
      (done = true → List.Forall₂ Made parts fs) := by
  induction parts generalizing s s' fs hs done with
  | nil =>
    cases he
    exact ⟨d, .refl m s, nofun, fun _ => .nil⟩
  | cons part parts ih =>
    -- the handle `g` comes to exist, and then the others
    have hrest : ∀ s₁ g fs, During h₀ hs₀ s₁ (g :: hs) → Later m s s₁ → Beyond h₀.objects.length m g →
        Made part g → s₁.construct parts = (s', fs, done) → During h₀ hs₀ s' (g :: fs ++ hs) ∧ Later m s s' ∧
          (∀ f ∈ g :: fs, Beyond h₀.objects.length m f) ∧
          (done = true → List.Forall₂ Made (part :: parts) (g :: fs)) := by
      intro s₁ g fs d₁ hl hg hmade he
      obtain ⟨d₂, hl₂, hfs, hall⟩ := ih d₁ he (hm.trans hl.length)
      refine ⟨d₂.perm List.perm_middle, hl.trans hl₂, ?_, fun hd => .cons hmade (hall hd)⟩
      intro f hf
      obtain rfl | hf := List.mem_cons.mp hf
      · exact hg
      · exact hfs f hf
    cases part with
    | handle =>
      rw [Store.construct] at he
      cases he
      exact hrest s .null _ (d.add_null rfl) (.refl m s) (.null rfl) rfl rfl
    | container array =>
      rw [Store.construct] at he
      cases hg : s.getRAM (s.space array) with
      | mk s₁ r =>
        rw [hg] at he
        cases r with
        | some c =>
          obtain ⟨d₁, -, rfl, -, hl, -⟩ := d.getRAM hg
          cases he
          refine hrest s₁ ⟨some _, array⟩ _ d₁ (hl.mono hm) ?_ rfl rfl
          rintro q ⟨⟩
          exact .inr hm
        | none =>
          obtain ⟨d₁, hl⟩ := d.refused hg
          dsimp only at he
          split at he
          · cases he
            refine ⟨d₁.add_null rfl, hl, ?_, nofun⟩
            intro f hf
            rw [List.mem_singleton.mp hf]
            exact .null rfl
          · cases he
            exact hrest s₁ ⟨none, array⟩ _ (d₁.add_null rfl) hl (.null rfl) rfl rfl

section Assign

variable {fuel : ℕ} {setUp : ℕ → RefCountedObject → Store → Except Stop (Store × Bool)}

end Assign

section Elements

variable {key value : List Part}

end Elements

section Copy

variable {K : Layouts} {parts : List Part}

end Copy

end PlinyCompute.Handles
