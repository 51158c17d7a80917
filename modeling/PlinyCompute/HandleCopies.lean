import Mathlib.Data.List.Forall2
import PlinyCompute.HandleCounting

namespace PlinyCompute.Handles

open Transition
open Heap (contains get_set_self get_set_ne mem_held_of_get lt_of_get)
open List (mem_cons_self mem_cons_of_mem length_set)

/-- `c` is a deep copy of `s` that lies in the active block: the members point to the same objects of the block,
or to copies of objects that are not in it. The copies are objects from `first` on. -/
def IsCopy (first : ℕ) (before after : Heap) : ℕ → ℕ → ℕ → Prop
  | 0, _, _ => False
  | depth + 1, s, c => first ≤ c ∧ ∃ x y, before.get s = some x ∧ after.get c = some y ∧
    after.contains y.block = true ∧ y.type = x.type ∧ y.data = x.data ∧
    List.Forall₂ (fun f g =>
      (f.target = none ∧ g.target = none) ∨
      (∃ p z, f.target = some p ∧ g.target = some p ∧ before.get p = some z ∧ before.contains z.block = true) ∨
      ∃ p q, f.target = some p ∧ g.target = some q ∧ IsCopy first before after depth p q) x.members y.members

theorem IsCopy.first_le {first : ℕ} {before after : Heap} {depth s c : ℕ}
    (hc : IsCopy first before after depth s c) : first ≤ c := by
  cases depth with
  | zero => exact hc.elim
  | succ depth => exact hc.1

theorem IsCopy.mono {first first' : ℕ} {before after : Heap} {depth s c : ℕ}
    (hc : IsCopy first before after depth s c) (hle : first' ≤ first) :
    IsCopy first' before after depth s c := by
  induction depth generalizing s c with
  | zero => exact hc
  | succ depth ih =>
    obtain ⟨hf, x, y, hx, hy, hin, hty, hda, hm⟩ := hc
    refine ⟨hle.trans hf, x, y, hx, hy, hin, hty, hda, hm.imp ?_⟩
    intro f g hfg
    obtain hnull | hsame | ⟨p, q, hf, hg, hpq⟩ := hfg
    · exact Or.inl hnull
    · exact Or.inr (Or.inl hsame)
    · exact Or.inr (Or.inr ⟨p, q, hf, hg, ih hpq⟩)

theorem IsCopy.transfer {first : ℕ} {before after before' after' : Heap} {S T : Set ℕ} {depth s c : ℕ}
    (hc : IsCopy first before after depth s c) (hS : Keeps S before before') (hT : Keeps T after after')
    (hb : before'.activeRAM = before.activeRAM) (ha : after'.activeRAM = after.activeRAM)
    (hSc : ∀ o ∈ S, ∀ x, before.get o = some x → ∀ f ∈ x.members, ∀ p, f.target = some p → p ∈ S)
    (hTc : ∀ o ∈ T, ∀ x, after.get o = some x → ∀ f ∈ x.members, ∀ p, f.target = some p → first ≤ p → p ∈ T)
    (hs : s ∈ S) (hc' : c ∈ T) : IsCopy first before' after' depth s c := by
  induction depth generalizing s c with
  | zero => exact hc
  | succ depth ih =>
    obtain ⟨hfirst, x, y, hx, hy, hin, hty, hda, hm⟩ := hc
    obtain ⟨x', hx', hxx⟩ := hS s hs x hx
    obtain ⟨y', hy', hyy⟩ := hT c hc' y hy
    refine ⟨hfirst, x', y', hx', hy', ?_, by rw [hxx.type, hyy.type, hty], by rw [hxx.data, hyy.data, hda], ?_⟩
    · unfold contains at hin ⊢
      rwa [hyy.block, ha]
    · rw [hxx.members, hyy.members]
      have hmS := hSc s hs x hx
      have hmT := hTc c hc' y hy
      clear hx hy hx' hy' hxx hyy hty hda
      generalize x.members = fs at hm hmS
      generalize y.members = gs at hm hmT
      induction hm with
      | nil => exact .nil
      | cons hfg _ ihm =>
        apply List.Forall₂.cons
        · obtain hnull | ⟨p, z, hf, hg, hz, hzin⟩ | ⟨p, q, hf, hg, hpq⟩ := hfg
          · exact Or.inl hnull
          · obtain ⟨z', hz', hzz⟩ := hS p (hmS _ mem_cons_self p hf) z hz
            refine Or.inr (Or.inl ⟨p, z', hf, hg, hz', ?_⟩)
            unfold contains at hzin ⊢
            rwa [hzz.block, hb]
          · have := ih hpq (hmS _ mem_cons_self p hf) (hmT _ mem_cons_self q hg hpq.first_le)
            exact Or.inr (Or.inr ⟨p, q, hf, hg, this⟩)
        · apply ihm
          · exact fun f hf => hmS f (mem_cons_of_mem _ hf)
          · exact fun f hf => hmT f (mem_cons_of_mem _ hf)

structure Extends (h h' : Heap) : Prop extends SameBlocks h h' where
  length : h.objects.length ≤ h'.objects.length
  keeps : Keeps Set.univ h h'

theorem Extends.refl (h : Heap) : Extends h h := ⟨.refl h, le_refl _, .refl _ h⟩

section Exchange

variable {K : Classes} {h h' : Heap} {hs : List Handle} {loose : Option ℕ} {f old : Handle} {o k : ℕ}
  {x : RefCountedObject}

theorem Heap.setMember_eq (hx : h.get o = some x) :
    h.setMember o k f = h.set o (some { x with members := x.members.set k f }) := by
  simp only [Heap.setMember, hx]

theorem Heap.get_setMember {p : ℕ} {y : RefCountedObject} (hx : h.get o = some x)
    (hy : (h.setMember o k f).get p = some y) : ∃ z, h.get p = some z ∧ y.block = z.block ∧
      y.refCount = z.refCount ∧ y.type = z.type ∧ y.members.length = z.members.length ∧
      ∀ g ∈ y.members, g = f ∨ g ∈ z.members := by
  rw [Heap.setMember_eq hx] at hy
  by_cases hp : p = o
  · subst hp
    rw [get_set_self hx, Option.some.injEq] at hy
    subst hy
    refine ⟨x, hx, rfl, rfl, rfl, length_set, ?_⟩
    intro g hg
    exact (List.mem_or_eq_of_mem_set hg).symm
  · rw [get_set_ne hp] at hy
    exact ⟨y, hy, rfl, rfl, rfl, rfl, fun g hg => Or.inr hg⟩

theorem Balanced.update {hs' : List Handle} {y : RefCountedObject} (s : Balanced h hs loose) (hx : h.get o = some x)
    (hb : y.block = x.block) (hr : y.refCount = x.refCount) (ht : y.type = x.type)
    (hcount : ∀ p, pointers hs' p + pointers y.members p = pointers hs p + pointers x.members p)
    (hsub : ∀ f, f ∈ hs' ∨ f ∈ y.members → f ∈ hs ∨ f ∈ x.members) : Balanced (h.set o (some y)) hs' loose := by
  have hget : ∀ p z, (h.set o (some y)).get p = some z →
      ∃ v, h.get p = some v ∧ z.block = v.block ∧ z.refCount = v.refCount := by
    intro p z hz
    by_cases hp : p = o
    · subst hp
      rw [get_set_self hx, Option.some.injEq] at hz
      subst hz
      exact ⟨x, hx, hb, hr⟩
    · rw [get_set_ne hp] at hz
      exact ⟨z, hz, rfl, rfl⟩
  have haim : ∀ g, g ∈ hs ∨ g ∈ h.held → Aims (h.set o (some y)) g := by
    intro g hg p hp
    obtain ⟨z, hz, hty⟩ := hg.elim (s.aimed g) (s.aimedIn g) p hp
    by_cases hpo : p = o
    · subst hpo
      rw [hx, Option.some.injEq] at hz
      subst hz
      exact ⟨y, get_set_self hx, hty.trans ht.symm⟩
    · exact ⟨z, by rw [get_set_ne hpo, hz], hty⟩
  have hmem : ∀ f, f ∈ hs' ∨ f ∈ y.members → f ∈ hs ∨ f ∈ h.held :=
    fun f hf => (hsub f hf).imp_right (mem_held_of_get hx)
  constructor
  · intro p z hz hm
    obtain ⟨v, hv, hzb, hzr⟩ := hget p z hz
    rw [hzb] at hm
    have hold := s.counted p v hv hm
    have hset := Heap.pointers_held_set hx (some y) p
    have hmoved := hcount p
    simp only [membersOf] at hset
    omega
  · intro p z hz hm hl
    obtain ⟨v, hv, hzb, hzr⟩ := hget p z hz
    rw [hzb] at hm
    rw [hzr]
    exact s.owned p v hv hm hl
  · intro p z hl hz
    obtain ⟨v, hv, hzb, hzr⟩ := hget p z hz
    rw [hzb, hzr]
    exact s.idle p v hl hv
  · exact fun f hf => haim f (hmem f (.inl hf))
  · intro f hf
    obtain hf | hf := Heap.mem_held_set hx hf
    · exact haim f (hmem f (.inr hf))
    · exact haim f (.inr hf)
  · intro p z hz
    obtain ⟨v, hv, hzb, -⟩ := hget p z hz
    rw [hzb]
    exact s.placed p v hv
  · exact s.active

theorem Balanced.exchange (s : Balanced h (f :: hs) loose) (hx : h.get o = some x) (hk : x.members[k]? = some old) :
    Balanced (h.setMember o k f) (old :: hs) loose := by
  rw [Heap.setMember_eq hx]
  apply s.update (y := { x with members := x.members.set k f }) hx rfl rfl rfl
  · intro p
    have hset := pointers_set hk f p
    simp only [pointers_cons, pointers_nil] at hset ⊢
    omega
  · rintro g (hg | hg)
    · obtain rfl | hg := List.mem_cons.mp hg
      · exact .inr (List.mem_of_getElem? hk)
      · exact .inl (mem_cons_of_mem f hg)
    · obtain hg | rfl := List.mem_or_eq_of_mem_set hg
      · exact .inr hg
      · exact .inl mem_cons_self

theorem Sound.exchange (s : Sound K h (f :: hs) loose) (hx : h.get o = some x) (hk : x.members[k]? = some old) :
    Sound K (h.setMember o k f) (old :: hs) loose := by
  apply (s.balanced.exchange hx hk).sound
  intro p y hy
  obtain ⟨z, hz, -, -, ht, hlen, -⟩ := Heap.get_setMember hx hy
  rw [hlen, ht]
  exact s.shaped p z hz

theorem Heap.getRAM_lost {c : ℕ} (he : h.getRAM x = some (c, h')) : h'.lost = h.lost := by
  unfold Heap.getRAM at he
  split at he
  · cases he
  · cases he
    rfl

theorem Balanced.getRAM (s : Balanced h hs loose) {c : ℕ} (hnull : ∀ f ∈ x.members, f.target = none)
    (he : h.getRAM x = some (c, h')) :
    c = h.objects.length ∧ h'.get c = some x ∧ Extends h h' ∧
      (∀ p y, h'.get p = some y → p ≠ c → h.get p = some y) ∧
      (∀ p, pointers h'.held p = pointers h.held p) ∧ pointers hs c = 0 ∧ pointers h.held c = 0 := by
  unfold Heap.getRAM at he
  split at he
  · cases he
  · simp only [Option.some.injEq, Prod.mk.injEq] at he
    obtain ⟨rfl, rfl⟩ := he
    have hfree : ∀ gs, (∀ g ∈ gs, Aims h g) → pointers gs h.objects.length = 0 := by
      intro gs hgs
      by_contra hne
      obtain ⟨g, hg, hgt⟩ := exists_of_pointers_pos (Nat.pos_of_ne_zero hne)
      obtain ⟨y, hy, -⟩ := hgs g hg _ hgt
      have := lt_of_get hy
      omega
    have hold : ∀ p, p < h.objects.length →
        (Heap.get { h with objects := h.objects ++ [some x], space := h.space - 1 } p) = h.get p := by
      intro p hp
      simp only [Heap.get]
      rw [List.getElem?_append_left hp]
    refine ⟨rfl, ?_, ⟨⟨rfl, rfl, rfl, rfl, rfl, fun _ => id⟩, ?_, ?_⟩, ?_, ?_, hfree hs s.aimed, hfree _ s.aimedIn⟩
    · simp [Heap.get]
    · simp
    · intro p _ y hy
      exact ⟨y, by rw [hold p (lt_of_get hy), hy], .refl y⟩
    · intro p y hy hne
      have hlt := lt_of_get hy
      simp only [List.length_append, List.length_singleton] at hlt
      rwa [hold p (by omega)] at hy
    · intro p
      have hzero : pointers x.members p = 0 := by
        by_contra hne
        obtain ⟨g, hg, hgt⟩ := exists_of_pointers_pos (Nat.pos_of_ne_zero hne)
        rw [hnull g hg] at hgt
        cases hgt
      simp only [Heap.held, Heap.handles, List.flatMap_append, List.flatMap_cons, List.flatMap_nil, membersOf,
        List.append_nil, pointers_append]
      omega

end Exchange

def Unseen (q : ℕ) (h : Heap) : Prop := q < h.objects.length ∧ pointers h.held q = 0

def MemberCopy (first : ℕ) (h : Heap) (depth : ℕ) (f g : Handle) : Prop :=
  (f.target = none ∧ g.target = none) ∨
  (∃ p z, f.target = some p ∧ g.target = some p ∧ h.get p = some z ∧ h.contains z.block = true) ∨
  ∃ p q, f.target = some p ∧ g.target = some q ∧ IsCopy first h h depth p q

section CopyMembers

variable {K : Classes} {h h' : Heap} {hs : List Handle} {loose : Option ℕ} {f g : Handle} {first depth k new : ℕ}
  {x y : RefCountedObject}

structure Filled (first : ℕ) (h h' : Heap) (new : ℕ) (y : RefCountedObject) (fs : List Handle) (k depth : ℕ)
    (done : Bool) : Prop extends SameBlocks h h' where
  length : h.objects.length ≤ h'.objects.length
  keeps : Keeps {p | p ≠ new} h h'
  unseen : ∀ q, Unseen q h → (∀ f ∈ fs, f.target ≠ some q) → Unseen q h'
  filled : ∃ y', h'.get new = some y' ∧ y'.block = y.block ∧ y'.type = y.type ∧ y'.data = y.data ∧
    y'.members.length = y.members.length ∧ (∀ j < k, y'.members[j]? = y.members[j]?) ∧
    (∀ j, k + fs.length ≤ j → y'.members[j]? = y.members[j]?) ∧
    (done = true → ∀ j f, fs[j]? = some f → ∃ g, y'.members[k + j]? = some g ∧ MemberCopy first h' depth f g)

theorem MemberCopy.transfer (hc : MemberCopy first h depth f g) (hk : Keeps {p | p ≠ new} h h')
    (ha : h'.activeRAM = h.activeRAM) (hu : pointers h.held new = 0) (hf : f.target ≠ some new)
    (hg : g.target ≠ some new) : MemberCopy first h' depth f g := by
  obtain hnull | ⟨p, z, hfp, hgp, hz, hin⟩ | ⟨p, q, hfp, hgq, hpq⟩ := hc
  · exact Or.inl hnull
  · have hne : p ≠ new := by
      rintro rfl
      exact hf hfp
    obtain ⟨z', hz', hzz⟩ := hk p hne z hz
    refine Or.inr (Or.inl ⟨p, z', hfp, hgp, hz', ?_⟩)
    unfold contains at hin ⊢
    rwa [hzz.block, ha]
  · have hclosed : ∀ o ∈ {p | p ≠ new}, ∀ x, h.get o = some x → ∀ f ∈ x.members, ∀ p, f.target = some p →
        p ∈ {p | p ≠ new} := by
      rintro o - x hx e he p hp rfl
      have := pointers_pos (mem_held_of_get hx he) hp
      omega
    have hp : p ≠ new := by
      rintro rfl
      exact hf hfp
    have hq : q ≠ new := by
      rintro rfl
      exact hg hgq
    exact Or.inr (Or.inr ⟨p, q, hfp, hgq, hpq.transfer hk hk ha ha hclosed
      (fun o ho x hx e he p hp _ => hclosed o ho x hx e he p hp) hp hq⟩)

theorem Filled.step {h₁ : Heap} {fs : List Handle} {y₁ : RefCountedObject} {done : Bool}
    (hb : SameBlocks h h₁) (hlen : h.objects.length ≤ h₁.objects.length) (hk : Keeps {p | p ≠ new} h h₁)
    (hu : ∀ q, Unseen q h → f.target ≠ some q → Unseen q (h₁.setMember new k g)) (hy₁ : h₁.get new = some y₁)
    (hyy : Same y y₁) (hlt : k < y.members.length)
    (hcopy : MemberCopy first h₁ depth f g) (hun : pointers h₁.held new = 0) (hf : f.target ≠ some new)
    (hg : g.target ≠ some new)
    (r : Filled first (h₁.setMember new k g) h' new { y₁ with members := y₁.members.set k g } fs (k + 1) depth done) :
    Filled first h h' new y (f :: fs) k depth done := by
  have hset : ∀ p ≠ new, (h₁.setMember new k g).get p = h₁.get p := by
    intro p hp
    rw [Heap.setMember_eq hy₁, get_set_ne hp]
  have hk₂ : Keeps {p | p ≠ new} h₁ (h₁.setMember new k g) := by
    intro p hp z hz
    exact ⟨z, by rw [hset p hp, hz], .refl z⟩
  have hb₂ : SameBlocks h₁ (h₁.setMember new k g) := by
    rw [Heap.setMember_eq hy₁]
    exact ⟨rfl, rfl, rfl, rfl, rfl, fun _ => id⟩
  have hl₂ : (h₁.setMember new k g).objects.length = h₁.objects.length := by
    rw [Heap.setMember_eq hy₁]
    exact length_set
  obtain ⟨y', hy', hb', ht', hd', hlen', hlow, hhigh, hdone⟩ := r.filled
  have hlt₁ : k < y₁.members.length := by rwa [hyy.members]
  refine ⟨(hb.trans hb₂).trans r.toSameBlocks, ?_, (hk.trans hk₂).trans r.keeps, ?_, y', hy',
    hb'.trans hyy.block, ht'.trans hyy.type, hd'.trans hyy.data, ?_, ?_, ?_, ?_⟩
  · have := r.length
    omega
  · intro q hq hfs
    apply r.unseen q
    · exact hu q hq (hfs f mem_cons_self)
    · exact fun f' hf' => hfs f' (mem_cons_of_mem _ hf')
  · simpa only [length_set, hyy.members] using hlen'
  · intro j hj
    rw [hlow j (by omega), List.getElem?_set_ne (by omega), hyy.members]
  · intro j hj
    rw [List.length_cons] at hj
    rw [hhigh j (by omega), List.getElem?_set_ne (by omega), hyy.members]
  · intro hd j f' hf'
    cases j with
    | zero =>
      simp only [List.getElem?_cons_zero, Option.some.injEq] at hf'
      subst hf'
      refine ⟨g, ?_, hcopy.transfer (hk₂.trans r.keeps) (r.activeRAM.trans hb₂.activeRAM) hun hf hg⟩
      rw [Nat.add_zero, hlow k (by omega)]
      exact List.getElem?_set_self hlt₁
    | succ j =>
      obtain ⟨g', hg', hc'⟩ := hdone hd j f' (by simpa using hf')
      exact ⟨g', by rwa [Nat.add_assoc, Nat.add_comm 1 j] at hg', hc'⟩

theorem incRefCount_keeps {o : ℕ} (hx : h.get o = some x) (he : h.incRefCount o = .ok h') :
    Keeps Set.univ h h' ∧ ∀ p, pointers h'.held p = pointers h.held p := by
  simp only [Heap.incRefCount, hx] at he
  split_ifs at he
  · cases he
    exact ⟨fun p _ z hz => Heap.setCount_get hx hz, Heap.pointers_held_setCount hx⟩
  · cases he
    exact ⟨.refl _ _, fun _ => rfl⟩

theorem incRefCount_balanced {o : ℕ} {loose' : Option ℕ} (s : Balanced h hs loose) (hx : h.get o = some x)
    (hl : loose' = loose ∧ some o ≠ loose ∨ loose' = none ∧ loose = some o) :
    Ensures (· = .wraps) (h.incRefCount o) fun h' => SameBlocks h h' ∧ h'.objects.length = h.objects.length ∧
      Keeps Set.univ h h' ∧ (∀ p, pointers h'.held p = pointers h.held p) ∧
      (∀ p y, h'.get p = some y → ∃ z, h.get p = some z ∧ Same z y) ∧
      Balanced h' (⟨some o, x.type⟩ :: hs) loose' := by
  cases he : h.incRefCount o with
  | ok h' =>
    have hshrinks := Shrinks.incRefCount hx he
    obtain ⟨hk, hp⟩ := incRefCount_keeps hx he
    exact ⟨hshrinks.toSameBlocks, hshrinks.length, hk, hp, hshrinks.left, s.incRefCount hx hl he⟩
  | error e =>
    simp only [Heap.incRefCount, hx] at he
    split at he
    · split at he
      · cases he
        rfl
      · cases he
    · cases he

theorem Filled.stop (e : Extends h h') (hun : ∀ q, Unseen q h → Unseen q h') (hy : h.get new = some y)
    (fs : List Handle) : Filled first h h' new y fs k depth false := by
  obtain ⟨y', hy', hyy⟩ := e.keeps new trivial y hy
  refine ⟨e.toSameBlocks, e.length, fun p _ => e.keeps p trivial, fun q hq _ => hun q hq, y', hy', hyy.block,
    hyy.type, hyy.data, by rw [hyy.members], ?_, ?_, ?_⟩
  · exact fun j _ => by rw [hyy.members]
  · exact fun j _ => by rw [hyy.members]
  · exact fun hd => by cases hd

end CopyMembers

section DeepCopy

variable {K : Classes} {h h' : Heap} {hs : List Handle} {loose : Option ℕ} {f : Handle} {c o t n data : ℕ}
  {x y : RefCountedObject}

theorem pointers_eq_zero {fs : List Handle} : pointers fs o = 0 ↔ ∀ f ∈ fs, f.target ≠ some o := by
  constructor
  · intro hz f hf ht
    have := pointers_pos hf ht
    omega
  · intro hne
    by_contra hz
    obtain ⟨f, hf, ht⟩ := exists_of_pointers_pos (Nat.pos_of_ne_zero hz)
    exact hne f hf ht

theorem Aims.extends (hf : Aims h f) (e : Extends h h') : Aims h' f := by
  intro p hp
  obtain ⟨z, hz, ht⟩ := hf p hp
  obtain ⟨z', hz', hzz⟩ := e.keeps p trivial z hz
  exact ⟨z', hz', ht.trans hzz.type.symm⟩

theorem Balanced.alloc {loose' : Option ℕ} {hs' : List Handle} (s : Balanced h hs loose)
    (hx : x.block = h.activeRAM ∧ ∀ f ∈ x.members, f.target = none)
    (he : h.getRAM x = some (c, h'))
    (hcount : pointers hs' h.objects.length = x.refCount)
    (hother : ∀ p < h.objects.length, pointers hs' p = pointers hs p)
    (hpos : some h.objects.length ≠ loose' → 0 < x.refCount)
    (hzero : loose' = some h.objects.length → x.refCount = 0)
    (hloose : ∀ p < h.objects.length, loose' = some p ↔ loose = some p)
    (haim : ∀ f ∈ hs', Aims h' f) : Balanced h' hs' loose' := by
  obtain ⟨rfl, hget, e, hback, hp, hfree, hfree'⟩ := s.getRAM hx.2 he
  have hmanaged : h'.isManaged x.block = true := by
    unfold Heap.isManaged contains
    rw [hx.1, e.activeRAM]
    simp
  have hcases : ∀ p y, h'.get p = some y → p = h.objects.length ∧ y = x ∨
      p < h.objects.length ∧ h.get p = some y := by
    intro p y hy
    by_cases hpc : p = h.objects.length
    · subst hpc
      rw [hget, Option.some.injEq] at hy
      exact Or.inl ⟨rfl, hy.symm⟩
    · have := hback p y hy hpc
      exact Or.inr ⟨lt_of_get this, this⟩
  constructor
  · intro p y hy hm
    rw [hp]
    obtain ⟨rfl, rfl⟩ | ⟨hlt, hy⟩ := hcases p y hy
    · omega
    · rw [e.isManaged] at hm
      rw [hother p hlt]
      exact s.counted p y hy hm
  · intro p y hy hm hl
    obtain ⟨rfl, rfl⟩ | ⟨hlt, hy⟩ := hcases p y hy
    · exact hpos hl
    · rw [e.isManaged] at hm
      exact s.owned p y hy hm fun he => hl ((hloose p hlt).mpr he.symm).symm
  · intro p y hl hy
    obtain ⟨rfl, rfl⟩ | ⟨hlt, hy⟩ := hcases p y hy
    · exact ⟨hmanaged, hzero hl⟩
    · rw [e.isManaged]
      exact s.idle p y ((hloose p hlt).mp hl) hy
  · exact haim
  · intro f hf
    obtain ⟨p, y, hy, hfy⟩ | hlost := Heap.mem_held.mp hf
    · obtain ⟨rfl, rfl⟩ | ⟨hlt, hy⟩ := hcases p y hy
      · intro q hq
        simp [hx.2 f hfy] at hq
      · exact (s.aimedIn f (mem_held_of_get hy hfy)).extends e
    · rw [Heap.getRAM_lost he] at hlost
      exact (s.aimedIn f (Heap.mem_held.mpr (.inr hlost))).extends e
  · intro p y hy
    rw [e.numBlocks]
    obtain ⟨rfl, rfl⟩ | ⟨hlt, hy⟩ := hcases p y hy
    · rw [hx.1]
      exact s.active
    · exact s.placed p y hy
  · rw [e.activeRAM, e.numBlocks]
    exact s.active

theorem Sound.alloc {loose' : Option ℕ} {hs' : List Handle} (s : Sound K h hs loose)
    (hx : x.block = h.activeRAM ∧ x.members.length = K.numMembers x.type ∧ ∀ f ∈ x.members, f.target = none)
    (he : h.getRAM x = some (c, h'))
    (hcount : pointers hs' h.objects.length = x.refCount)
    (hother : ∀ p < h.objects.length, pointers hs' p = pointers hs p)
    (hpos : some h.objects.length ≠ loose' → 0 < x.refCount)
    (hzero : loose' = some h.objects.length → x.refCount = 0)
    (hloose : ∀ p < h.objects.length, loose' = some p ↔ loose = some p)
    (haim : ∀ f ∈ hs', Aims h' f) : Sound K h' hs' loose' := by
  apply (s.balanced.alloc ⟨hx.1, hx.2.2⟩ he hcount hother hpos hzero hloose haim).sound
  obtain ⟨rfl, hget, -, hback, -⟩ := s.balanced.getRAM hx.2.2 he
  intro p y hy
  by_cases hpc : p = h.objects.length
  · subst hpc
    rw [hget, Option.some.injEq] at hy
    subst hy
    exact hx.2.1
  · exact s.shaped p y (hback p y hy hpc)

theorem Balanced.supported (s : Balanced h hs loose) (hb : SameBlocks h h')
    (hk : Keeps {p | ∃ x, h.get p = some x} h h') : Supported h' hs loose {p | ∃ x, h.get p = some x} := by
  rintro p ⟨x, hx⟩ y hy hm hl
  obtain ⟨y', hy', hxy⟩ := hk p ⟨x, hx⟩ x hx
  rw [hy, Option.some.injEq] at hy'
  subst hy'
  rw [hb.isManaged, hxy.block] at hm
  have hpos := s.owned p x hx hm hl
  rw [s.counted p x hx hm] at hpos
  obtain hout | hin := Nat.add_pos_iff_pos_or_pos.mp hpos
  · obtain ⟨f, hf, ht⟩ := exists_of_pointers_pos hout
    exact Or.inl ⟨f, .inl hf, ht⟩
  · obtain ⟨f, hf, ht⟩ := exists_of_pointers_pos hin
    obtain ⟨q, z, hz, hfz⟩ | hlost := Heap.mem_held.mp hf
    · obtain ⟨z', hz', hzz⟩ := hk q ⟨z, hz⟩ z hz
      exact Or.inr ⟨q, ⟨z, hz⟩, z', hz', f, by rwa [hzz.members], ht⟩
    · exact Or.inl ⟨f, .inr (hb.lost hlost), ht⟩

theorem Shrinks.unseen {q : ℕ} (hsh : Shrinks h h') (hq : Unseen q h) : Unseen q h' := by
  refine ⟨by rw [hsh.length]; exact hq.1, ?_⟩
  apply pointers_eq_zero.mpr
  intro f hf
  apply pointers_eq_zero.mp hq.2 f
  obtain ⟨p, y, hy, hfy⟩ | hlost := Heap.mem_held.mp hf
  · obtain ⟨x, hx, hxy⟩ := hsh.left p y hy
    exact mem_held_of_get hx (hxy.members ▸ hfy)
  · obtain hlost | ⟨p, x, hx, -, hfx, -⟩ := hsh.disabled f hlost
    · exact Heap.mem_held.mpr (.inr hlost)
    · exact mem_held_of_get hx hfx

theorem Extends.set (e : Extends h h') (hc : h.objects.length ≤ c) (y : RefCountedObject) :
    Extends h (h'.set c (some y)) := by
  refine ⟨e.toSameBlocks.trans ⟨rfl, rfl, rfl, rfl, rfl, fun _ => id⟩, e.length.trans List.length_set.ge, ?_⟩
  intro p _ z hz
  obtain ⟨z', hz', hzz⟩ := e.keeps p trivial z hz
  have hpc : p ≠ c := Nat.ne_of_lt (Nat.lt_of_lt_of_le (lt_of_get hz) hc)
  exact ⟨z', by rw [get_set_ne hpc, hz'], hzz⟩

theorem Unseen.set {q : ℕ} (hq : Unseen q h) (hx : h.get o = some x) (hm : y.members = x.members) :
    Unseen q (h.set o (some y)) := by
  have hset := Heap.pointers_held_set hx (some y) q
  have hzero := hq.2
  simp only [membersOf, hm] at hset
  exact ⟨Nat.lt_of_lt_of_eq hq.1 List.length_set.symm, by omega⟩

end DeepCopy

end PlinyCompute.Handles
