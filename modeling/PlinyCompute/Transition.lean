import Mathlib.Data.List.Forall2

namespace PlinyCompute.Transition

variable {σ ι α β ε : Type}

/-- `x` returns a value with `post`, or it stops with an error that `stop` allows. -/
def Ensures (stop : ε → Prop) (x : Except ε α) (post : α → Prop) : Prop :=
  match x with
  | .ok a => post a
  | .error e => stop e

@[simp] theorem ensures_ok {stop : ε → Prop} {a : α} {post : α → Prop} :
    Ensures stop (.ok a) post ↔ post a := Iff.rfl

@[simp] theorem ensures_error {stop : ε → Prop} {e : ε} {post : α → Prop} :
    Ensures stop (.error e) post ↔ stop e := Iff.rfl

theorem ok_bind (a : α) (f : α → Except ε β) : (Except.ok a >>= f) = f a := rfl

theorem bind_eq_ok {x : Except ε α} {f : α → Except ε β} {b : β} :
    (x >>= f) = .ok b ↔ ∃ a, x = .ok a ∧ f a = .ok b := by
  cases x with
  | error e => simp [bind, Except.bind]
  | ok a => simp [bind, Except.bind]

theorem mapM_eq_ok {f : α → Except ε β} {l : List α} {ys : List β} :
    l.mapM f = .ok ys ↔ List.Forall₂ (fun a b => f a = .ok b) l ys := by
  induction l generalizing ys with
  | nil =>
    rw [List.mapM_nil, List.forall₂_nil_left_iff]
    exact ⟨fun h => by cases h; rfl, fun h => by subst h; rfl⟩
  | cons a l ih =>
    rw [List.mapM_cons, bind_eq_ok]
    constructor
    · rintro ⟨b, hb, h⟩
      obtain ⟨bs, hbs, h⟩ := bind_eq_ok.mp h
      cases h
      exact .cons hb (ih.mp hbs)
    · intro h
      cases h with
      | cons hb hbs => exact ⟨_, hb, bind_eq_ok.mpr ⟨_, ih.mpr hbs, rfl⟩⟩

theorem Ensures.bind {stop : ε → Prop} {x : Except ε α} {f : α → Except ε β} {mid : α → Prop}
    {post : β → Prop} (hx : Ensures stop x mid) (hf : ∀ a, mid a → Ensures stop (f a) post) :
    Ensures stop (x >>= f) post := by
  cases x with
  | error e => exact hx
  | ok a => exact hf a hx

theorem Ensures.mono {stop : ε → Prop} {x : Except ε α} {post post' : α → Prop}
    (h : Ensures stop x post) (hi : ∀ a, post a → post' a) : Ensures stop x post' := by
  cases x with
  | error e => exact h
  | ok a => exact hi a h

theorem Ensures.with_eq {stop : ε → Prop} {x : Except ε α} {post : α → Prop} (h : Ensures stop x post) :
    Ensures stop x fun a => x = .ok a ∧ post a := by
  cases x with
  | error e => exact h
  | ok a => exact ⟨rfl, h⟩

theorem Ensures.of_eq_ok {stop : ε → Prop} {x : Except ε α} {post : α → Prop} {a : α}
    (h : Ensures stop x post) (he : x = .ok a) : post a := by
  subst he
  exact h

def Follows (r : α → β → Prop) (x : Except ε α) (y : Except ε β) : Prop := ∀ a, x = .ok a → ∃ b, y = .ok b ∧ r a b

theorem Follows.ok {r : α → β → Prop} {a : α} {b : β} (h : r a b) : Follows r (.ok a : Except ε α) (.ok b) := by
  rintro _ ⟨⟩
  exact ⟨b, rfl, h⟩

theorem Follows.error {r : α → β → Prop} {e : ε} {y : Except ε β} : Follows r (.error e) y := nofun

theorem Follows.refl {r : α → α → Prop} (hr : ∀ a, r a a) (x : Except ε α) : Follows r x x :=
  fun a ha => ⟨a, ha, hr a⟩

theorem Follows.bind {α' β' : Type} {r : α → β → Prop} {q : α' → β' → Prop} {x : Except ε α} {y : Except ε β}
    {f : α → Except ε α'} {g : β → Except ε β'} (hx : Follows r x y) (hf : ∀ a b, r a b → Follows q (f a) (g b)) :
    Follows q (x >>= f) (y >>= g) := by
  intro c hc
  obtain ⟨a, ha, hc⟩ := bind_eq_ok.mp hc
  obtain ⟨b, hb, hab⟩ := hx a ha
  obtain ⟨d, hd, hcd⟩ := hf a b hab c hc
  exact ⟨d, bind_eq_ok.mpr ⟨b, hb, hd⟩, hcd⟩

theorem Follows.foldlM {r : α → β → Prop} {f : α → ι → Except ε α} {g : β → ι → Except ε β}
    (hf : ∀ a b i, r a b → Follows r (f a i) (g b i)) (l : List ι) {a : α} {b : β} (h : r a b) :
    Follows r (l.foldlM f a) (l.foldlM g b) := by
  induction l generalizing a b with
  | nil => exact Follows.ok h
  | cons i l ih =>
    rw [List.foldlM_cons, List.foldlM_cons]
    exact (hf a b i h).bind fun a b h => ih h

/-- The states of the runs of `step` in which every step meets `guard`. -/
inductive Reachable (step : ι → σ → Except ε σ) (guard : ι → σ → Prop) (start : σ → Prop) : σ → Prop
  | start {s : σ} : start s → Reachable step guard start s
  | step {s s' : σ} {i : ι} : Reachable step guard start s → guard i s → step i s = .ok s' →
      Reachable step guard start s'

theorem Reachable.invariant {step : ι → σ → Except ε σ} {guard : ι → σ → Prop} {start inv : σ → Prop}
    {s : σ} (h : Reachable step guard start s) (h0 : ∀ s, start s → inv s)
    (hstep : ∀ i s s', inv s → guard i s → step i s = .ok s' → inv s') : inv s := by
  induction h with
  | start hs => exact h0 _ hs
  | step _ hg he ih => exact hstep _ _ _ ih hg he

theorem Reachable.mono {step : ι → σ → Except ε σ} {guard guard' : ι → σ → Prop} {start : σ → Prop} {s : σ}
    (h : Reachable step guard start s) (hg : ∀ i s, guard i s → guard' i s) : Reachable step guard' start s := by
  induction h with
  | start h => exact .start h
  | step _ hi he ih => exact ih.step (hg _ _ hi) he

def runAll (step : ι → σ → Except ε σ) (check : ι → σ → Bool) : List ι → σ → Option σ
  | [], s => some s
  | i :: is, s =>
    if check i s then
      match step i s with
      | .ok s' => runAll step check is s'
      | .error _ => none
    else none

theorem Reachable.of_runAll {step : ι → σ → Except ε σ} {guard : ι → σ → Prop} {start : σ → Prop}
    {check : ι → σ → Bool} (hcheck : ∀ i s, check i s = true → guard i s) {is : List ι} {s s' : σ}
    (hs : Reachable step guard start s) (h : runAll step check is s = some s') :
    Reachable step guard start s' := by
  induction is generalizing s with
  | nil =>
    cases h
    exact hs
  | cons i is ih =>
    rw [runAll] at h
    by_cases hc : check i s = true
    · rw [if_pos hc] at h
      cases he : step i s with
      | error e => simp [he] at h
      | ok s₁ =>
        rw [he] at h
        exact ih (hs.step (hcheck i s hc) he) h
    · rw [if_neg hc] at h
      cases h

inductive Runs (step : ι → σ → Except ε σ) (guard : ι → σ → Prop) : List ι → σ → σ → Prop
  | nil {s : σ} : Runs step guard [] s s
  | cons {i : ι} {is : List ι} {s s' t : σ} : guard i s → step i s = .ok s' → Runs step guard is s' t →
      Runs step guard (i :: is) s t

theorem Runs.append {step : ι → σ → Except ε σ} {guard : ι → σ → Prop} {is js : List ι} {s t : σ}
    (h : Runs step guard (is ++ js) s t) : ∃ s', Runs step guard is s s' ∧ Runs step guard js s' t := by
  induction is generalizing s with
  | nil => exact ⟨s, .nil, h⟩
  | cons i is ih =>
    cases h with
    | cons hg he hrest =>
      obtain ⟨s', his, hjs⟩ := ih hrest
      exact ⟨s', .cons hg he his, hjs⟩

theorem Runs.of_runAll {step : ι → σ → Except ε σ} {guard : ι → σ → Prop} {check : ι → σ → Bool}
    (hcheck : ∀ i s, check i s = true → guard i s) {is : List ι} {s s' : σ}
    (h : runAll step check is s = some s') : Runs step guard is s s' := by
  induction is generalizing s with
  | nil =>
    cases h
    exact .nil
  | cons i is ih =>
    rw [runAll] at h
    split at h
    · next hc =>
      cases he : step i s with
      | error e => simp [he] at h
      | ok s₁ =>
        rw [he] at h
        exact .cons (hcheck i s hc) he (ih h)
    · cases h

theorem Runs.invariant {step : ι → σ → Except ε σ} {guard : ι → σ → Prop} {inv : σ → Prop} {is : List ι} {s t : σ}
    (h : Runs step guard is s t) (hs : inv s) (hstep : ∀ i s s', inv s → guard i s → step i s = .ok s' → inv s') :
    inv t := by
  induction h with
  | nil => exact hs
  | cons hg he _ ih => exact ih (hstep _ _ _ hs hg he)

theorem Runs.length_le {step : ι → σ → Except ε σ} {guard : ι → σ → Prop} {inv : σ → Prop} {is : List ι} {s t : σ}
    (measure : σ → ℕ) (h : Runs step guard is s t) (hs : inv s)
    (hstep : ∀ i s s', inv s → guard i s → step i s = .ok s' → inv s' ∧ measure s' < measure s) :
    is.length + measure t ≤ measure s := by
  induction h with
  | nil => exact Nat.le_of_eq (Nat.zero_add _)
  | cons hg he _ ih =>
    obtain ⟨hs', hlt⟩ := hstep _ _ _ hs hg he
    have := ih hs'
    rw [List.length_cons]
    omega

def Along (step : ι → σ → Except ε σ) (p : ι → σ → Prop) : List ι → σ → Prop
  | [], _ => True
  | i :: is, s => p i s ∧ ∀ s', step i s = .ok s' → Along step p is s'

theorem along_iff {step : ι → σ → Except ε σ} {p q : ι → σ → Prop} {inv : σ → Prop}
    (hiff : ∀ i s, inv s → (p i s ↔ q i s)) (hstep : ∀ i s s', inv s → p i s → step i s = .ok s' → inv s')
    (is : List ι) {s : σ} (hs : inv s) : Along step p is s ↔ Along step q is s := by
  induction is generalizing s with
  | nil => exact Iff.rfl
  | cons i is ih =>
    constructor
    · rintro ⟨hp, hrest⟩
      exact ⟨(hiff i s hs).mp hp, fun s' he => (ih (hstep i s s' hs hp he)).mp (hrest s' he)⟩
    · rintro ⟨hq, hrest⟩
      have hp := (hiff i s hs).mpr hq
      exact ⟨hp, fun s' he => (ih (hstep i s s' hs hp he)).mpr (hrest s' he)⟩

section Observation

variable {τ ω : Type}

def observe (step : ι → σ → Except ε (σ × ω)) : List ι → σ → Except ε (List ω)
  | [], _ => .ok []
  | i :: is, s => do
    let (s, o) ← step i s
    let rest ← observe step is s
    .ok (o :: rest)

def specify (step : ι → τ → τ × ω) : List ι → τ → List ω
  | [], _ => []
  | i :: is, t => (step i t).2 :: specify step is (step i t).1

theorem Follows.observe {spec : ι → τ → Except ε (τ × ω)} {step : ι → σ → Except ε (σ × ω)} {rel : τ → σ → Prop}
    (hstep : ∀ i t s, rel t s → Follows (fun a b => rel a.1 b.1 ∧ a.2 = b.2) (spec i t) (step i s)) (is : List ι)
    {t : τ} {s : σ} (h : rel t s) :
    Follows (· = ·) (Transition.observe spec is t) (Transition.observe step is s) := by
  induction is generalizing t s with
  | nil => exact Follows.ok rfl
  | cons i is ih =>
    apply (hstep i t s h).bind
    rintro ⟨t', o⟩ ⟨s', o'⟩ ⟨hrel, rfl⟩
    apply (ih hrel).bind
    rintro rest _ rfl
    exact Follows.ok rfl

def Meets (step : ι → σ → Except ε (σ × ω)) (good : ι → ω → Prop) (is : List ι) (s : σ) : Prop :=
  ∃ os, observe step is s = .ok os ∧ List.Forall₂ good is os

theorem meets_cons {step : ι → σ → Except ε (σ × ω)} {good : ι → ω → Prop} {i : ι} {is : List ι} {s : σ} :
    Meets step good (i :: is) s ↔ ∃ s' o, step i s = .ok (s', o) ∧ good i o ∧ Meets step good is s' := by
  constructor
  · rintro ⟨os, hos, hgood⟩
    rw [observe, bind_eq_ok] at hos
    obtain ⟨⟨s', o⟩, hs, hos⟩ := hos
    obtain ⟨rest, hrest, hos⟩ := bind_eq_ok.mp hos
    cases hos
    obtain ⟨ho, hgood⟩ := List.forall₂_cons.mp hgood
    exact ⟨s', o, hs, ho, rest, hrest, hgood⟩
  · rintro ⟨s', o, hs, ho, rest, hrest, hgood⟩
    refine ⟨o :: rest, ?_, .cons ho hgood⟩
    rw [observe, hs, ok_bind]
    dsimp only
    rw [hrest, ok_bind]

theorem meets_iff {step : ι → σ → Except ε (σ × ω)} {good : ι → ω → Prop} {cond : ι → Prop} {inv : σ → Prop}
    (hok : ∀ i s, inv s → cond i → ∃ s' o, step i s = .ok (s', o) ∧ good i o ∧ inv s')
    (hcond : ∀ i s s' o, inv s → step i s = .ok (s', o) → good i o → cond i)
    (is : List ι) {s : σ} (hs : inv s) : Meets step good is s ↔ ∀ i ∈ is, cond i := by
  induction is generalizing s with
  | nil => exact ⟨fun _ => nofun, fun _ => ⟨[], rfl, .nil⟩⟩
  | cons i is ih =>
    rw [meets_cons, List.forall_mem_cons]
    constructor
    · rintro ⟨s', o, he, ho, hrest⟩
      have hi := hcond i s s' o hs he ho
      obtain ⟨s₁, o₁, he₁, -, hs₁⟩ := hok i s hs hi
      rw [he] at he₁
      cases he₁
      exact ⟨hi, (ih hs₁).mp hrest⟩
    · rintro ⟨hi, his⟩
      obtain ⟨s', o, he, ho, hs'⟩ := hok i s hs hi
      exact ⟨s', o, he, ho, (ih hs').mpr his⟩

end Observation

end PlinyCompute.Transition
